import Nanosig.TimerMgr.System

/-! The tree of every reachable state at every later now: it is sorted by remaining
time, its leftmost timer is a least one, and that timer gives the next timeout. -/
namespace Nanosig.TimerMgr
open TransitionSystem

theorem clampAt (x : Int) : (if x ≤ 0 then 0 else x.toNat) = (max 0 x).toNat := by
  split <;> omega

variable {τ : Type} [DecidableEq τ]

omit [DecidableEq τ] in
theorem nextTimeoutAnswer {m : Manager τ} {L : List τ} (armed : Armed m L) (reading : Nat) :
    (nextTimeout m (.ok reading)).2 =
      match L.head? with
      | none => (.noTimer, none)
      | some t => (.ok, some (max 0 (remainingUs (m.timers t).expireUs (reading % uint64Modulus))).toNat) := by
  have leftmost := armed.valid.leftmost
  unfold nextTimeout
  simp only [refreshNow, leftmost]
  cases L.head? with
  | none => rfl
  | some t =>
    exact congrArg (fun us => (Status.ok, some us)) (clampAt _)

/- In every reachable state, at every later reading that finds no running timer overdue
by `2^63` or more: the tree is sorted, it holds exactly the running timers, its leftmost
has least remaining time, and `ns_timer_mgr_next_timeout` answers from that timer. -/
theorem treeStaysOrdered {s : State τ} (reach : Reachable Starts step Allowed s) :
    ∃ L, Rbtree.Valid s.manager.tree L ∧ s.manager.tree.rbLeftmost = L.head? ∧
      (∀ t ∈ L, (s.manager.timers t).mutexInitialized = true) ∧
      (∀ t, (s.manager.timers t).mutexInitialized = true → (isRunning s.manager t = true ↔ L.count t = 1)) ∧
      ∀ reading : Nat, s.manager.clock ≤ reading →
        (∀ t, Running s.manager t → (reading : Int) < deadline s.manager t + 2 ^ 63) →
        let left t := remainingUs (s.manager.timers t).expireUs (reading % uint64Modulus)
        L.Pairwise (fun a b => left a ≤ left b) ∧
          (∀ t, L.head? = some t → ∀ x ∈ L, left t ≤ left x) ∧
          (nextTimeout s.manager (.ok reading)).2 =
            match L.head? with
            | none => (.noTimer, none)
            | some t => (.ok, some (max 0 (left t)).toNat) := by
  obtain ⟨L, scheduled⟩ := reachableScheduled reach
  have ordered := scheduled.ordered
  have distinct := ordered.valid.nodup
  refine ⟨L, ordered.valid, ordered.valid.leftmost, ordered.created, fun t created => ?_, fun reading order within => ?_⟩
  · rw [ordered.runningIff created]
    exact ⟨fun member => List.count_eq_one_of_mem distinct member, fun once => List.count_pos_iff.mp (by omega)⟩
  · have sorted := (ordered.refresh order fun t member => within t (ordered.running member)).sorted
    have sortedLeft : L.Pairwise fun a b => remainingUs (s.manager.timers a).expireUs (reading % uint64Modulus) ≤
        remainingUs (s.manager.timers b).expireUs (reading % uint64Modulus) := sorted
    refine ⟨sortedLeft, fun t first x member => ?_, nextTimeoutAnswer ordered.toArmed reading⟩
    cases L with
    | nil => nomatch first
    | cons y rest =>
      cases first
      rcases List.mem_cons.mp member with rfl | later
      · exact le_refl _
      · exact (List.pairwise_cons.mp sortedLeft).1 x later

section Witness

def emptyState : State Nat :=
  ⟨⟨fun _ => ⟨false, 0, 0, 0, 0⟩, Rbtree.init, 0, 0⟩, []⟩

theorem emptyStateStarts : Starts emptyState := ⟨rfl, rfl, rfl, rfl, rfl, rfl, fun _ => rfl⟩

def createdState : State Nat := ⟨(init emptyState.manager 0 5 attrRepeat .ok).1, []⟩

theorem createdReachable : Reachable Starts step Allowed createdState :=
  .next (a := .init 0 5 attrRepeat .ok) (.start emptyStateStarts) (fun running => nomatch running.1) rfl

theorem createdOnly {m : Manager Nat} {value : Timer} (timers : m.timers = Function.update emptyState.manager.timers 0 value)
    {t : Nat} (running : Running m t) : t = 0 := by
  by_contra other
  have created := running.1
  rw [timers, Function.update_of_ne other] at created
  nomatch created

def wrappedState : State Nat :=
  ⟨(arm (refreshNow createdState.manager (.ok (2 ^ 64 - 1))).1 0 4).elim emptyState.manager Prod.fst, [0]⟩

theorem wrappedReachable : Reachable Starts step Allowed wrappedState := by
  have reading : ReadingAllowed createdState.manager (.ok (2 ^ 64 - 1)) := by
    refine ⟨fun reading _ => Nat.zero_le reading, fun reading same t running => ?_, nofun⟩
    obtain rfl := createdOnly rfl running
    exact absurd running.2 (by decide)
  exact .next (a := .start 0 (.ok (2 ^ 64 - 1))) createdReachable reading rfl

/- Timers `a` and `b` are due two microseconds after the wrap, in the order of their starts, and
timer `c`, started last, is due two before it. -/
def acrossWrap (a b c : τ) : List (Action τ) :=
  [.init a 5 attrRepeat .ok, .init b 5 0 .ok, .init c 1 0 .ok, .start a (.ok (2 ^ 64 - 3)), .start b (.ok (2 ^ 64 - 3)),
    .start c (.ok (2 ^ 64 - 3))]

def noneCreated : State (Fin 3) := ⟨⟨fun _ => ⟨false, 0, 0, 0, 0⟩, Rbtree.init, 0, 0⟩, []⟩

theorem acrossWrapReached {P : State (Fin 3) → Prop} [DecidablePred P]
    (holds : ((executeAllowed step Allowed noneCreated (acrossWrap 0 1 2)).any fun s => P s) = true) :
    ∃ s, Reachable Starts step Allowed s ∧ P s := by
  obtain ⟨s, ran, holds⟩ := anyResult holds
  exact ⟨s, executeAllowedReachable (.start ⟨rfl, rfl, rfl, rfl, rfl, rfl, fun _ => rfl⟩) ran, holds⟩

/- The timer with the greatest `expire_us` is the first of the tree. -/
theorem wrappedTimeout : ∃ s : State (Fin 3), (s.manager.timers 0).expireUs = 2 ∧ (s.manager.timers 2).expireUs = 2 ^ 64 - 2 ∧
    (nextTimeout s.manager (.ok (2 ^ 64 - 3))).2 = (.ok, some 1) ∧
    ∃ L, Rbtree.Valid s.manager.tree L ∧ L.head? = some 2 ∧ L.count 0 = 1 ∧ L.count 1 = 1 ∧
      L.Pairwise fun a b => remainingUs (s.manager.timers a).expireUs (2 ^ 64 - 3) ≤ remainingUs (s.manager.timers b).expireUs (2 ^ 64 - 3) := by
  obtain ⟨s, reach, first, zero, two, clock, runs, created, inside⟩ := acrossWrapReached
    (P := fun s => s.manager.tree.rbLeftmost = some 2 ∧ (s.manager.timers 0).expireUs = 2 ∧
      (s.manager.timers 2).expireUs = 2 ^ 64 - 2 ∧ s.manager.clock = 2 ^ 64 - 3 ∧ (∀ t, isRunning s.manager t = true) ∧
      (∀ t, (s.manager.timers t).mutexInitialized = true) ∧ ∀ t, (2 ^ 64 - 3 : Int) < deadline s.manager t + 2 ^ 63)
    (by decide +kernel)
  obtain ⟨L, valid, leftmost, -, once, later⟩ := treeStaysOrdered reach
  obtain ⟨sorted, -, answer⟩ := later (2 ^ 64 - 3) (by rw [clock]) fun t _ => by simpa using inside t
  have head : L.head? = some 2 := leftmost.symm.trans first
  refine ⟨s, zero, two, ?_, L, valid, head, (once 0 (created 0)).mp (runs 0), (once 1 (created 1)).mp (runs 1), sorted⟩
  rw [answer, head]
  simp only [two]
  decide

end Witness

end Nanosig.TimerMgr
