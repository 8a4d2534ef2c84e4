import Nanosig.TimerMgr.OrderedTree

/-! The inner loop of `ns_broker_run`, which fires again while the next timeout is
zero. It leaves: every round but the first needs a later reading than the one before. -/
namespace Nanosig.TimerMgr

variable {τ : Type} [DecidableEq τ]

/- The loop from its `round`-th clock reading on, with the manager it leaves. The calls of
one round read `clock round` and `clock (round + 1)`, and `emit` answers its emits. -/
def recheckLoop (clock : Nat → ClockRead) (emit : Nat → Nat → Status) : Nat → Nat → Manager τ → Option (Manager τ)
  | 0, _, _ => none
  | fuel + 1, round, m =>
      match nextTimeout m (clock round) with
      | (m, .ok, some recheck) =>
          if recheck > 0 then some m
          else (fireExpired m (clock (round + 1)) (emit round)).bind fun (m, _, _) =>
            recheckLoop clock emit fuel (round + 2) m
      | (m, _, _) => some m

theorem recheckRound {m : Manager τ} {L : List τ} (armed : Armed m L) {reading : Nat → Nat}
    (emit : Nat → Nat → Status) (fuel round : Nat) :
    (∃ m', recheckLoop (fun i => .ok (reading i)) emit (fuel + 1) round m = some m') ∨
      (∃ t, L.head? = some t ∧ remainingUs (m.timers t).expireUs (reading round % uint64Modulus) ≤ 0) ∧
      ∃ m' L', recheckLoop (fun i => .ok (reading i)) emit (fuel + 1) round m =
          recheckLoop (fun i => .ok (reading i)) emit fuel (round + 2) m' ∧
        Armed m' L' ∧ m'.now = reading (round + 1) % uint64Modulus ∧ ∀ t, L'.head? = some t → ¬ due m' t := by
  have answer := nextTimeoutAnswer armed (reading round)
  have refreshed : Armed (nextTimeout m (.ok (reading round))).1 L := by
    unfold nextTimeout
    simp only [refreshNow]
    split <;> exact armed.refresh (.ok (reading round))
  rw [recheckLoop]
  generalize next : nextTimeout m (.ok (reading round)) = result at answer refreshed
  obtain ⟨m1, rc, timeout⟩ := result
  cases first : L.head? with
  | none =>
    rw [first] at answer
    cases answer
    exact .inl ⟨m1, rfl⟩
  | some t =>
    rw [first] at answer
    cases answer
    by_cases later : (max 0 (remainingUs (m.timers t).expireUs (reading round % uint64Modulus))).toNat > 0
    · exact .inl ⟨m1, if_pos later⟩
    · refine .inr ⟨⟨t, rfl, by omega⟩, ?_⟩
      obtain ⟨m', L', fired, ran, run⟩ := fireExpiredSpec refreshed (reading (round + 1)) (emit round)
      obtain ⟨armed', now, -, nothing⟩ := run.keeps (refreshed.refresh _)
      refine ⟨m', L', ?_, armed', now, nothing⟩
      simp only [later, if_false, ran, Option.bind_some]

/- From a state with nothing due at its now, the loop leaves before the clock ends. -/
theorem recheckFrom {reading : Nat → Nat} (order : ∀ i, reading i ≤ reading (i + 1)) (bound : ∀ i, reading i < uint64Modulus)
    (emit : Nat → Nat → Status) (left : Nat) {m : Manager τ} {L : List τ} {round : Nat} (armed : Armed m L)
    (since : m.now ≤ reading round) (nothing : ∀ t, L.head? = some t → ¬ due m t) (enough : uint64Modulus ≤ m.now + left) :
    ∃ m', recheckLoop (fun i => .ok (reading i)) emit (left + 1) round m = some m' := by
  induction left generalizing m L round with
  | zero =>
    have := armed.now
    omega
  | succ left ih =>
    rcases recheckRound armed emit (left + 1) round with leaves | ⟨⟨t, first, isDue⟩, m', L', goes, armed', now, nothing'⟩
    · exact leaves
    · rw [goes]
      have here := bound round
      have nextBound := bound (round + 1)
      rw [Nat.mod_eq_of_lt nextBound] at now
      rw [Nat.mod_eq_of_lt here] at isDue
      have apart : m.now ≠ reading round := fun same => nothing t first (by rw [due, remaining, same]; exact isDue)
      have := order round
      have following : reading (round + 1) ≤ reading (round + 2) := order (round + 1)
      exact ih armed' (by omega) nothing' (by omega)

/- With a clock of 64 bits that does not go back, the loop leaves after finitely many rounds. -/
theorem recheckReturns {m : Manager τ} {L : List τ} (armed : Armed m L) {reading : Nat → Nat}
    (order : ∀ i, reading i ≤ reading (i + 1)) (bound : ∀ i, reading i < uint64Modulus) (emit : Nat → Nat → Status) :
    ∃ rounds ≤ uint64Modulus + 2, ∃ m', recheckLoop (fun i => .ok (reading i)) emit rounds 0 m = some m' := by
  refine ⟨uint64Modulus + 2, le_refl _, ?_⟩
  rcases recheckRound armed emit (uint64Modulus + 1) 0 with leaves | ⟨-, m', L', goes, armed', now, nothing⟩
  · exact leaves
  · rw [goes]
    have nextBound := bound 1
    rw [Nat.mod_eq_of_lt nextBound] at now
    have following : reading 1 ≤ reading (0 + 2) := order 1
    exact recheckFrom order bound emit uint64Modulus armed' (by omega) nothing (by omega)

/- The repeating timer of `wrappedState`, read at its deadline for ever. -/
theorem wrappedRecheck : ∃ rounds ≤ uint64Modulus + 2, ∃ m', recheckLoop (fun _ => .ok 4) (fun _ _ => .ok) rounds 0 wrappedState.manager =
    some m' := by
  obtain ⟨L, scheduled⟩ := reachableScheduled wrappedReachable
  have order (i : Nat) : (fun _ => 4 : Nat → Nat) i ≤ (fun _ => 4 : Nat → Nat) (i + 1) := le_refl 4
  exact recheckReturns scheduled.ordered.toArmed order (fun _ => by decide) (fun _ _ => .ok)

end Nanosig.TimerMgr
