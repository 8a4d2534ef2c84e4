import Nanosig.Lib.TransitionSystem
import Nanosig.TimerMgr.Fire

/-! Runs of the timer manager: calls in any order with readings of a clock that
does not go back. In every reachable state the tree is sorted by remaining time at
every later now, and its ties stand in the order they were linked in. -/
namespace Nanosig.TimerMgr
open TransitionSystem

variable {τ : Type} [DecidableEq τ]

/- `setInterval` and `setAttr` are the user's own writes to the object. -/
inductive Action (τ : Type) where
  | init (t : τ) (intervalUs : Nat) (attr : BitVec 32) (mutex : Status)
  | setInterval (t : τ) (intervalUs : Nat)
  | setAttr (t : τ) (attr : BitVec 32)
  | start (t : τ) (clock : ClockRead)
  | cancel (t : τ)
  | restart (t : τ) (clock : ClockRead)
  | deinit (t : τ) (mutex : Status)
  | fireExpired (clock : ClockRead) (emit : Nat → Status)
  | nextTimeout (clock : ClockRead)

inductive Answer (τ : Type) where
  | none
  | status (rc : Status)
  | call (rc : Status) (notified : Bool)
  | fired (timers : List τ) (rc : Status)
  | timeout (rc : Status) (us : Option Nat)

/- The manager, and the linked timers in the order they were linked in. -/
structure State (τ : Type) where
  manager : Manager τ
  ages : List τ

def settle (s : State τ) (t : τ) (links : Bool) (result : Manager τ × Status × Bool) : State τ × Answer τ :=
  (⟨result.1, agesAfter s.manager result.1 s.ages t (links && result.2.1 = .ok)⟩, .call result.2.1 result.2.2)

def step (s : State τ) : Action τ → Option (State τ × Answer τ)
  | .init t intervalUs attr mutex =>
      some (⟨(init s.manager t intervalUs attr mutex).1, s.ages⟩, .status (init s.manager t intervalUs attr mutex).2)
  | .setInterval t intervalUs =>
      some (⟨setTimer s.manager t { s.manager.timers t with intervalUs := intervalUs }, s.ages⟩, .none)
  | .setAttr t attr => some (⟨setTimer s.manager t { s.manager.timers t with attr := attr }, s.ages⟩, .none)
  | .start t clock => (start s.manager t clock).map (settle s t true)
  | .cancel t => (cancel s.manager t).map (settle s t false)
  | .restart t clock => (restart s.manager t clock).map (settle s t true)
  | .deinit t mutex => (deinit s.manager t mutex).map (settle s t false)
  | .fireExpired clock emit =>
      (fireExpired s.manager clock emit).map fun (m, fired, rc) =>
        (⟨m, fired.foldl (refile s.manager) s.ages⟩, .fired fired rc)
  | .nextTimeout clock =>
      some (⟨(nextTimeout s.manager clock).1, s.ages⟩,
        .timeout (nextTimeout s.manager clock).2.1 (nextTimeout s.manager clock).2.2)

/- An initialized manager before any timer is created; other memory is arbitrary. -/
def Starts (s : State τ) : Prop :=
  s.manager.tree.root = none ∧ s.manager.tree.rbLeftmost = none ∧ s.manager.tree.linked = 0 ∧
    s.manager.now = 0 ∧ s.manager.clock = 0 ∧ s.ages = [] ∧ ∀ t, (s.manager.timers t).mutexInitialized = false

/- A timer is set while it does not run, and the clock does not go back. -/
def Allowed (s : State τ) : Action τ → Prop
  | .init t _ _ _ => ¬Running s.manager t
  | .setInterval t _ => ¬Running s.manager t
  | .setAttr t _ => ¬Running s.manager t
  | .start _ clock => ReadingAllowed s.manager clock
  | .restart _ clock => ReadingAllowed s.manager clock
  | .fireExpired clock _ => ReadingAllowed s.manager clock
  | .nextTimeout clock => ReadingAllowed s.manager clock
  | .cancel _ => True
  | .deinit _ _ => True

section Runs

instance (m : Manager τ) (t : τ) : Decidable (Running m t) := instDecidableAnd

instance [Fintype τ] (m : Manager τ) (clock : ClockRead) : Decidable (ReadingAllowed m clock) :=
  match clock with
  | .ok reading =>
      decidable_of_iff (m.clock ≤ reading ∧ ∀ t, Running m t → (reading : Int) < deadline m t + 2 ^ 63)
        ⟨fun both => ⟨fun _ same => Except.ok.inj same ▸ both.1, fun _ same => Except.ok.inj same ▸ both.2, nofun⟩,
          fun allowed => ⟨allowed.forward _ rfl, allowed.within _ rfl⟩⟩
  | .error rc => decidable_of_iff (rc ≠ .ok)
      ⟨fun fails => ⟨nofun, nofun, fun _ same => Except.error.inj same ▸ fails⟩, fun allowed => allowed.fails rc rfl⟩

instance [Fintype τ] (s : State τ) (a : Action τ) : Decidable (Allowed s a) := by
  unfold Allowed
  split <;> infer_instance

end Runs

section Steps

variable {m : Manager τ} {L ages : List τ}

theorem cancelStops (scheduled : Scheduled m L ages) {t : τ} {m' : Manager τ} {notified : Bool}
    (cancelled : cancel m t = some (m', .ok, notified)) :
    isRunning m' t = false ∧ (m'.timers t).mutexInitialized = true := by
  have ordered := scheduled.ordered
  unfold cancel at cancelled
  split at cancelled
  · rename_i invalid
    simp only [Option.some.injEq, Prod.mk.injEq] at cancelled
    exact absurd cancelled.2.1 invalid
  · rename_i valid
    have created := validCreated (not_not.mp valid)
    unfold cancelLocked at cancelled
    split at cancelled
    · rename_i stopped
      cases cancelled
      exact ⟨by simpa using stopped, created⟩
    · rename_i running
      obtain ⟨m1, disarmed, disarms⟩ := disarmSpec ordered.toArmed ((ordered.runningIff created).mp (not_not.mp running))
      rw [disarmed] at cancelled
      cases cancelled
      exact ⟨by simp [isRunning, disarms.stopped], by rw [disarms.timers]; exact created⟩

/- The rest of a `ns_timer_deinit` of a timer out of the tree. -/
theorem cleanupServed (scheduled : Scheduled m L ages) {t : τ} (fresh : t ∉ L) (mutex : Status) :
    Served m L (deinitCleanup m t mutex).1 L ages false :=
  settingServed scheduled fresh { m.timers t with mutexInitialized := false, expireUs := 0 }
    { m.tree with toHeap := Rbtree.nodeInit m.tree.toHeap t } rfl rfl rfl
    (fun _ away => (Rbtree.nodeInitSame away).mpr (.refl _ _)) (fun _ => Rbtree.nodeInitEmpty _ _)

theorem deinitServed (scheduled : Scheduled m L ages) (t : τ) (mutex : Status) :
    ∃ m' rc notified L', deinit m t mutex = some (m', rc, notified) ∧
      Served m L m' L' (agesAfter m m' ages t false) notified := by
  obtain ⟨m1, rc, notified, L1, cancelled, served, -⟩ := cancelServed scheduled t
  rw [deinit, cancelled]
  by_cases ok : rc = .ok
  · subst ok
    obtain ⟨stops, -⟩ := cancelStops scheduled cancelled
    have fresh : t ∉ L1 := fun member => by simp [served.scheduled.ordered.toArmed.running member] at stops
    have cleaned := cleanupServed served.scheduled fresh mutex
    have sameAges : agesAfter m (deinitCleanup m1 t mutex).1 ages t false = agesAfter m m1 ages t false := by
      have stays : isRunning (deinitCleanup m1 t mutex).1 t = false := by
        simp [isRunning, deinitCleanup, Rbtree.nodeInitEmpty]
      simp [agesAfter, stops, stays]
    rw [Bool.false_and] at served
    have settled : Served m L (deinitCleanup m1 t mutex).1 L1 (agesAfter m (deinitCleanup m1 t mutex).1 ages t false) notified := by
      rw [sameAges]
      exact ⟨cleaned.scheduled, served.forward.trans cleaned.forward,
        fun silent => (served.noEarlier silent).trans (cleaned.noEarlier rfl)⟩
    exact ⟨(deinitCleanup m1 t mutex).1, _, notified, L1, rfl, settled⟩
  · exact ⟨m1, rc, notified, L1, by simp [ok], by simpa using served⟩

theorem initServed (scheduled : Scheduled m L ages) {t : τ} (fresh : t ∉ L) (intervalUs : Nat) (attr : BitVec 32)
    (mutex : Status) : Served m L (init m t intervalUs attr mutex).1 L ages false := by
  unfold init
  split
  · exact .refl scheduled _
  · split
    · exact .refl scheduled _
    · split
      · exact settingServed scheduled fresh _ m.tree rfl rfl rfl (fun _ _ => .refl _ _) (fun created => by cases created)
      · exact settingServed scheduled fresh _ _ rfl rfl rfl (fun y away => (Rbtree.nodeInitSame away).mpr (.refl _ _))
          (fun _ => Rbtree.nodeInitEmpty _ _)

theorem writeServed (scheduled : Scheduled m L ages) {t : τ} (fresh : t ∉ L) (value : Timer)
    (created : value.mutexInitialized = (m.timers t).mutexInitialized) : Served m L (setTimer m t value) L ages false :=
  settingServed scheduled fresh value m.tree rfl rfl rfl (fun _ _ => .refl _ _)
    fun isCreated => scheduled.ordered.stopped t (created ▸ isCreated) fresh

omit [DecidableEq τ] in
theorem nextTimeoutManager (m : Manager τ) (clock : ClockRead) : (nextTimeout m clock).1 = (refreshNow m clock).1 := by
  unfold nextTimeout
  split
  · rename_i refreshed
    rw [refreshed]
    split <;> rfl
  · rename_i refreshed
    rw [refreshed]

theorem nextTimeoutServed (scheduled : Scheduled m L ages) {clock : ClockRead} (allowed : ReadingAllowed m clock) :
    Served m L (nextTimeout m clock).1 L ages false := by
  cases clock with
  | error rc =>
    have fails := allowed.fails rc rfl
    cases rc
    case ok => exact absurd rfl fails
    all_goals exact .refl scheduled _
  | ok reading =>
    have served := refreshServed scheduled (allowed.forward reading rfl)
      fun x member => allowed.within reading rfl x (scheduled.ordered.running member)
    rw [nextTimeoutManager]
    exact served

theorem fireServed (scheduled : Scheduled m L ages) {clock : ClockRead} (allowed : ReadingAllowed m clock)
    (emit : Nat → Status) :
    ∃ m' fired rc L', fireExpired m clock emit = some (m', fired, rc) ∧
      Scheduled m' L' (fired.foldl (refile m) ages) ∧ m.clock ≤ m'.clock ∧ L' ⊆ L := by
  cases clock with
  | error rc =>
    have fails := allowed.fails rc rfl
    cases rc
    case ok => exact absurd rfl fails
    all_goals exact ⟨m, [], _, L, rfl, scheduled, le_refl _, List.Subset.refl L⟩
  | ok reading =>
    have served := refreshServed scheduled (allowed.forward reading rfl)
      fun x member => allowed.within reading rfl x (scheduled.ordered.running member)
    obtain ⟨m', L', fired, ran, run⟩ := fireExpiredSpec scheduled.ordered.toArmed reading emit
    have outcome := run.outcome served.scheduled
    exact ⟨m', fired, _, L', ran, outcome.scheduled, outcome.clock.symm ▸ served.forward,
      fun x inside => ((outcome.member x).mp inside).1⟩

end Steps

theorem stepServed {s : State τ} {L : List τ} (scheduled : Scheduled s.manager L s.ages) {a : Action τ}
    (allowed : Allowed s a) :
    ∃ s' answer L', step s a = some (s', answer) ∧ Scheduled s'.manager L' s'.ages := by
  have stopped {t : τ} (notRunning : ¬Running s.manager t) : t ∉ L := fun member =>
    notRunning (scheduled.ordered.running member)
  have settles {t : τ} {links : Bool} {call : Option (Manager τ × Status × Bool)}
      (serves : Serves s.manager L s.ages t links call) :
      ∃ s' answer L', call.map (settle s t links) = some (s', answer) ∧ Scheduled s'.manager L' s'.ages := by
    obtain ⟨m', rc, notified, L', rfl, served, -⟩ := serves
    exact ⟨_, _, L', rfl, served.scheduled⟩
  cases a with
  | init t intervalUs attr mutex => exact ⟨_, _, L, rfl, (initServed scheduled (stopped allowed) intervalUs attr mutex).scheduled⟩
  | setInterval t intervalUs => exact ⟨_, _, L, rfl, (writeServed scheduled (stopped allowed)
      { s.manager.timers t with intervalUs := intervalUs } rfl).scheduled⟩
  | setAttr t attr => exact ⟨_, _, L, rfl, (writeServed scheduled (stopped allowed)
      { s.manager.timers t with attr := attr } rfl).scheduled⟩
  | start t clock => exact settles (startServed scheduled t allowed)
  | cancel t => exact settles (cancelServed scheduled t)
  | restart t clock => exact settles (restartServed scheduled t allowed)
  | deinit t mutex =>
    obtain ⟨m', rc, notified, L', deinited, served⟩ := deinitServed scheduled t mutex
    exact ⟨_, _, L', by rw [step, deinited]; rfl, served.scheduled⟩
  | fireExpired clock emit =>
    obtain ⟨m', fired, rc, L', ran, scheduled', -⟩ := fireServed scheduled allowed emit
    exact ⟨_, _, L', by rw [step, ran]; rfl, scheduled'⟩
  | nextTimeout clock => exact ⟨_, _, L, rfl, (nextTimeoutServed scheduled allowed).scheduled⟩

theorem startsScheduled {s : State τ} (starts : Starts s) : Scheduled s.manager [] s.ages := by
  obtain ⟨root, leftmost, linked, now, clock, ages, uncreated⟩ := starts
  have valid : Rbtree.Valid s.manager.tree [] :=
    Rbtree.initValid.congr root leftmost linked (by simp)
  refine ⟨⟨⟨valid, by rw [now]; decide, by simp⟩, by rw [now, clock]; rfl, .nil, by simp, by simp, fun t created => ?_⟩,
    ⟨by rw [ages], .nil⟩⟩
  rw [uncreated t] at created
  nomatch created

theorem reachableScheduled {s : State τ} (reach : Reachable Starts step Allowed s) :
    ∃ L, Scheduled s.manager L s.ages := by
  refine reach.invariant (I := fun s => ∃ L, Scheduled s.manager L s.ages) (fun s starts => ⟨[], startsScheduled starts⟩)
    fun s a s' answer scheduled allowed taken => ?_
  obtain ⟨L, scheduled⟩ := scheduled
  obtain ⟨s'', answer', L', took, scheduled'⟩ := stepServed scheduled allowed
  rw [taken] at took
  cases took
  exact ⟨L', scheduled'⟩

end Nanosig.TimerMgr
