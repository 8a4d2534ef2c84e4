import Mathlib

/-! A latch: a signal sets it, a waiter takes it or finds it clear. From the
traces a latch accepts: no signal is lost and no wakeup is invented. -/
namespace Latch

inductive Action where
  | signal
  | take
  | expire
  deriving DecidableEq

def step (latched : Bool) : Action → Option Bool
  | .signal => some true
  | .take => if latched then some false else none
  | .expire => if latched then none else some false

def run : Bool → List Action → Option Bool
  | latched, [] => some latched
  | latched, a :: rest => (step latched a).bind fun latched => run latched rest

theorem runAppend (latched : Bool) (left right : List Action) :
    run latched (left ++ right) = (run latched left).bind fun latched => run latched right := by
  induction left generalizing latched with
  | nil => rfl
  | cons a rest ih =>
    simp only [List.cons_append, run, Option.bind_assoc]
    exact congrArg _ (funext ih)

theorem takesSignalled {trace : List Action} {latched : Bool} (ran : run false trace = some latched) :
    trace.count .take + (if latched then 1 else 0) ≤ trace.count .signal := by
  have general : ∀ (trace : List Action) (first latched : Bool), run first trace = some latched →
      trace.count .take + (if latched then 1 else 0) ≤ trace.count .signal + (if first then 1 else 0) := by
    intro trace
    induction trace with
    | nil =>
      rintro first latched ran
      obtain rfl := Option.some.inj ran
      simp
    | cons a rest ih =>
      intro first latched ran
      obtain ⟨next, moved, later⟩ := Option.bind_eq_some_iff.mp ran
      have bound := ih next latched later
      cases a <;> cases first <;> simp [step] at moved <;> subst moved <;> simp at bound ⊢ <;> omega
  simpa using general trace false latched ran

theorem keptUntilTaken {trace : List Action} {latched : Bool} (ran : run true trace = some latched)
    (untaken : .take ∉ trace) : latched = true := by
  induction trace with
  | nil => exact (Option.some.inj ran).symm
  | cons a rest ih =>
    obtain ⟨next, moved, later⟩ := Option.bind_eq_some_iff.mp ran
    rw [List.mem_cons, not_or] at untaken
    obtain ⟨other, untaken⟩ := untaken
    cases a with
    | take => exact absurd rfl other
    | signal =>
      obtain rfl := Option.some.inj moved
      exact ih later untaken
    | expire => simp [step] at moved

theorem noSignalLost {latched : Bool} {before between after : List Action}
    (ran : run false (before ++ .signal :: (between ++ .expire :: after)) = some latched) : .take ∈ between := by
  by_contra untaken
  rw [runAppend] at ran
  obtain ⟨first, _, ran⟩ := Option.bind_eq_some_iff.mp ran
  change (run true (between ++ .expire :: after)) = some latched at ran
  rw [runAppend] at ran
  obtain ⟨second, middle, ran⟩ := Option.bind_eq_some_iff.mp ran
  obtain rfl := keptUntilTaken middle untaken
  obtain ⟨_, moved, _⟩ := Option.bind_eq_some_iff.mp ran
  simp [step] at moved

end Latch
