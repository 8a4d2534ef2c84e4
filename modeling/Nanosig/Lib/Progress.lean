import Nanosig.Lib.TransitionSystem

/-! Progress of one party among many. A rank that no step raises and every step of the party's own lowers bounds the
steps the party still needs; in a run without end in which it keeps taking steps, it gets there. -/
namespace TransitionSystem

variable {σ α ε : Type*} {step : σ → α → Option (σ × ε)} {allowed : σ → α → Prop}

/- The party is on its way, and every step either is the awaited one or leaves it there, no farther off, and nearer if
the step is its own. -/
structure Approach (step : σ → α → Option (σ × ε)) (allowed : σ → α → Prop) (onWay : σ → Prop) (rank : σ → Nat)
    (own : α → Bool) (awaited : ε → Prop) : Prop where
  each : ∀ s a s' e, onWay s → allowed s a → step s a = some (s', e) →
    awaited e ∨ onWay s' ∧ rank s' ≤ rank s ∧ (own a = true → rank s' < rank s)

theorem Approach.bounded {onWay : σ → Prop} {rank : σ → Nat} {own : α → Bool} {awaited : ε → Prop}
    (approach : Approach step allowed onWay rank own awaited) {s s' : σ} {visits : List (Visit σ α ε)}
    (run : Run step allowed s visits s') (first : onWay s) :
    (∃ v ∈ visits, awaited v.event) ∨ onWay s' ∧ rank s' + visits.countP (fun v => own v.label) ≤ rank s := by
  induction run with
  | done => exact .inr ⟨first, le_rfl⟩
  | @next s' s'' visits a e before permitted taken ih =>
    rcases ih with ⟨v, member, here⟩ | ⟨onWay', near⟩
    · exact .inl ⟨v, List.mem_append_left _ member, here⟩
    · rcases approach.each s' a s'' e onWay' permitted taken with here | ⟨onWay'', kept, nearer⟩
      · exact .inl ⟨⟨s', a, e⟩, by simp, here⟩
      · refine .inr ⟨onWay'', ?_⟩
        rw [List.countP_append, List.countP_singleton]
        split
        · have := nearer ‹_›
          omega
        · omega

structure Endless (step : σ → α → Option (σ × ε)) (allowed : σ → α → Prop) (states : Nat → σ) (labels : Nat → α)
    (events : Nat → ε) : Prop where
  permitted : ∀ n, allowed (states n) (labels n)
  taken : ∀ n, step (states n) (labels n) = some (states (n + 1), events n)

variable {states : Nat → σ} {labels : Nat → α} {events : Nat → ε} {ρ : Type*} [Preorder ρ]

theorem Endless.invariant (endless : Endless step allowed states labels events) {I : σ → Prop}
    (kept : ∀ s a s' e, I s → allowed s a → step s a = some (s', e) → I s') (first : I (states 0)) (n : Nat) :
    I (states n) := by
  induction n with
  | zero => exact first
  | succ n ih => exact kept _ _ _ _ ih (endless.permitted n) (endless.taken n)

theorem staysOnWay (onWay : σ → Prop) (rank : σ → ρ) (awaited : Nat → Prop) {since : Nat}
    (keeps : ∀ n ≥ since, onWay (states n) → awaited n ∨ onWay (states (n + 1)) ∧ rank (states (n + 1)) ≤ rank (states n))
    {n : Nat} (late : since ≤ n) (first : onWay (states n)) (k : Nat) :
    (∃ m ≥ n, awaited m) ∨ onWay (states (n + k)) ∧ rank (states (n + k)) ≤ rank (states n) := by
  induction k with
  | zero => exact .inr ⟨first, le_refl _⟩
  | succ k ih =>
    rcases ih with reached | ⟨onWay, near⟩
    · exact .inl reached
    · rcases keeps (n + k) (by omega) onWay with here | ⟨onWay', kept⟩
      · exact .inl ⟨n + k, by omega, here⟩
      · exact .inr ⟨onWay', kept.trans near⟩

theorem getsThere [WellFoundedLT ρ] (onWay : σ → Prop) (rank : σ → ρ) (own : α → Prop) (awaited : Nat → Prop) {since : Nat}
    (nears : ∀ n ≥ since, onWay (states n) → awaited n ∨
      onWay (states (n + 1)) ∧ rank (states (n + 1)) ≤ rank (states n) ∧
        (own (labels n) → rank (states (n + 1)) < rank (states n)))
    (fair : ∀ n ≥ since, onWay (states n) → ∃ m ≥ n, own (labels m)) {n : Nat} (late : since ≤ n)
    (first : onWay (states n)) : ∃ m ≥ n, awaited m := by
  have keeps : ∀ n ≥ since, onWay (states n) →
      awaited n ∨ onWay (states (n + 1)) ∧ rank (states (n + 1)) ≤ rank (states n) :=
    fun n late first => (nears n late first).imp_right fun kept => ⟨kept.1, kept.2.1⟩
  generalize same : rank (states n) = v
  induction v using WellFoundedLT.induction generalizing n with
  | ind v ih =>
    obtain ⟨m, later, turn⟩ := fair n late first
    obtain ⟨k, rfl⟩ := Nat.exists_eq_add_of_le later
    rcases staysOnWay onWay rank awaited keeps late first k with reached | ⟨onWay, near⟩
    · exact reached
    · rcases nears (n + k) (by omega) onWay with here | ⟨onWay', -, nearer⟩
      · exact ⟨n + k, later, here⟩
      · have less := (nearer turn).trans_le (near.trans (le_of_eq same))
        obtain ⟨m, after, reached⟩ := ih _ less (by omega) onWay' rfl
        exact ⟨m, by omega, reached⟩

end TransitionSystem
