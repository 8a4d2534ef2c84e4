import Mathlib

/-! Executable labelled transition systems: reachable states, runs with their
visited states, and the induction rules for invariants. A step is a partial
function of the state and a label that resolves every choice, so a run on
concrete labels can be evaluated. `allowed` restricts which labels an
environment takes; the unrestricted system has `allowed = fun _ _ => True`. -/
namespace TransitionSystem

variable {σ α ε : Type*}

inductive Reachable (start : σ → Prop) (step : σ → α → Option (σ × ε)) (allowed : σ → α → Prop) :
    σ → Prop where
  | start {s : σ} (first : start s) : Reachable start step allowed s
  | next {s s' : σ} {a : α} {e : ε} (before : Reachable start step allowed s)
      (permitted : allowed s a) (taken : step s a = some (s', e)) :
      Reachable start step allowed s'

structure Visit (σ α ε : Type*) where
  state : σ
  label : α
  event : ε

inductive Run (step : σ → α → Option (σ × ε)) (allowed : σ → α → Prop) :
    σ → List (Visit σ α ε) → σ → Prop where
  | done (s : σ) : Run step allowed s [] s
  | next {s s' s'' : σ} {visits : List (Visit σ α ε)} {a : α} {e : ε}
      (before : Run step allowed s visits s') (permitted : allowed s' a)
      (taken : step s' a = some (s'', e)) :
      Run step allowed s (visits ++ [⟨s', a, e⟩]) s''

variable {start : σ → Prop} {step : σ → α → Option (σ × ε)} {allowed : σ → α → Prop}

/- The invariant rule: what holds at the start and is kept by every allowed
step holds of every reachable state. -/
theorem Reachable.invariant {I : σ → Prop} (initially : ∀ s, start s → I s)
    (kept : ∀ s a s' e, I s → allowed s a → step s a = some (s', e) → I s')
    {s : σ} (reach : Reachable start step allowed s) : I s := by
  induction reach with
  | start first => exact initially _ first
  | next before permitted taken ih => exact kept _ _ _ _ ih permitted taken

theorem Reachable.mono {allowed' : σ → α → Prop} (weaker : ∀ s a, allowed s a → allowed' s a)
    {s : σ} (reach : Reachable start step allowed s) : Reachable start step allowed' s := by
  induction reach with
  | start first => exact .start first
  | next before permitted taken ih => exact .next ih (weaker _ _ permitted) taken

theorem Run.reachable {s s' : σ} {visits : List (Visit σ α ε)}
    (run : Run step allowed s visits s') (reach : Reachable start step allowed s) :
    Reachable start step allowed s' := by
  induction run with
  | done => exact reach
  | next before permitted taken ih => exact .next ih permitted taken

theorem Reachable.run {s : σ} (reach : Reachable start step allowed s) :
    ∃ (first : σ) (visits : List (Visit σ α ε)), start first ∧ Run step allowed first visits s := by
  induction reach with
  | start first => exact ⟨_, [], first, .done _⟩
  | next before permitted taken ih =>
    obtain ⟨first, visits, starts, run⟩ := ih
    exact ⟨first, _, starts, .next run permitted taken⟩

theorem Run.append {s s' s'' : σ} {left right : List (Visit σ α ε)}
    (first : Run step allowed s left s') (second : Run step allowed s' right s'') :
    Run step allowed s (left ++ right) s'' := by
  induction second with
  | done => simpa using first
  | next before permitted taken ih =>
    rw [← List.append_assoc]
    exact .next ih permitted taken

theorem Run.single {s s' : σ} {a : α} {e : ε} (permitted : allowed s a)
    (taken : step s a = some (s', e)) : Run step allowed s [⟨s, a, e⟩] s' := by
  simpa using Run.next (Run.done s) permitted taken

theorem Run.split {s s' : σ} {left right : List (Visit σ α ε)} {v : Visit σ α ε}
    (run : Run step allowed s (left ++ v :: right) s') :
    ∃ next, Run step allowed s left v.state ∧ allowed v.state v.label ∧
      step v.state v.label = some (next, v.event) ∧ Run step allowed next right s' := by
  generalize same : left ++ v :: right = visits at run
  induction run generalizing right with
  | done => simp at same
  | @next s' s'' visits a e before permitted taken ih =>
    rcases List.eq_nil_or_concat right with rfl | ⟨init, last, rfl⟩
    · obtain ⟨rfl, rest⟩ := List.append_inj' same rfl
      obtain rfl := List.singleton_inj.mp rest
      exact ⟨_, before, permitted, taken, .done _⟩
    · rw [List.concat_eq_append, ← List.cons_append, ← List.append_assoc] at same
      obtain ⟨front, rest⟩ := List.append_inj' same rfl
      obtain rfl := List.singleton_inj.mp rest
      obtain ⟨next, head, permittedV, takenV, tail⟩ := ih front
      rw [List.concat_eq_append]
      exact ⟨next, head, permittedV, takenV, .next tail permitted taken⟩

def execute (step : σ → α → Option (σ × ε)) : σ → List α → Option (List (Visit σ α ε) × σ)
  | s, [] => some ([], s)
  | s, a :: rest =>
      (step s a).bind fun moved =>
        (execute step moved.1 rest).map fun ended => (⟨s, a, moved.2⟩ :: ended.1, ended.2)

theorem executeRun {labels : List α} {s last : σ} {visits : List (Visit σ α ε)}
    (ok : execute step s labels = some (visits, last))
    (permitted : ∀ v ∈ visits, allowed v.state v.label) : Run step allowed s visits last := by
  induction labels generalizing s visits with
  | nil =>
    cases Option.some.inj ok
    exact .done _
  | cons a rest ih =>
    simp only [execute, Option.bind_eq_some_iff, Option.map_eq_some_iff] at ok
    obtain ⟨⟨next, e⟩, taken, ⟨tail, final⟩, more, same⟩ := ok
    cases same
    have first := permitted _ List.mem_cons_self
    exact (Run.single first taken).append (ih more fun v member => permitted v (List.mem_cons_of_mem _ member))

def executeAllowed (step : σ → α → Option (σ × ε)) (allowed : σ → α → Prop) [∀ s a, Decidable (allowed s a)] :
    σ → List α → Option σ
  | s, [] => some s
  | s, a :: rest =>
      if allowed s a then (step s a).bind fun moved => executeAllowed step allowed moved.1 rest else none

theorem executeAllowedReachable [∀ s a, Decidable (allowed s a)] {labels : List α} {s last : σ}
    (reach : Reachable start step allowed s) (ok : executeAllowed step allowed s labels = some last) :
    Reachable start step allowed last := by
  induction labels generalizing s with
  | nil =>
    cases Option.some.inj ok
    exact reach
  | cons a rest ih =>
    obtain ⟨permitted, more⟩ := Option.ite_none_right_eq_some.mp ok
    obtain ⟨⟨next, e⟩, taken, more⟩ := Option.bind_eq_some_iff.mp more
    exact ih (.next reach permitted taken) more

theorem anyResult {result : Option σ} {P : σ → Prop} [DecidablePred P]
    (found : result.any (fun s => P s) = true) : ∃ s, result = some s ∧ P s := by
  obtain ⟨s, same, holds⟩ := (Option.any_eq_true _ _).mp found
  exact ⟨s, same, of_decide_eq_true holds⟩

/- Repeats one label until an event carries a result: a call that nothing interrupts. -/
def untilReturn {ρ : Type*} (step : σ → α → Option (σ × ε)) (label : α) (result : ε → Option ρ) :
    Nat → σ → Option (σ × ρ)
  | 0, _ => none
  | fuel + 1, s =>
      (step s label).bind fun moved =>
        match result moved.2 with
        | some value => some (moved.1, value)
        | none => untilReturn step label result fuel moved.1

variable {ρ : Type*} {label : α} {result : ε → Option ρ}

theorem untilReturnNext {s s' : σ} {e : ε} (taken : step s label = some (s', e)) (silent : result e = none)
    (fuel : Nat) : untilReturn step label result (fuel + 1) s = untilReturn step label result fuel s' := by
  simp [untilReturn, taken, silent]

theorem untilReturnLast {s s' : σ} {e : ε} {value : ρ} (taken : step s label = some (s', e))
    (returns : result e = some value) (fuel : Nat) :
    untilReturn step label result (fuel + 1) s = some (s', value) := by
  simp [untilReturn, taken, returns]

theorem untilReturnKeeps {R : σ → σ → Prop} (trans : ∀ a b c, R a b → R b c → R a c)
    (kept : ∀ s s' e, step s label = some (s', e) → R s s') {fuel : Nat} {s s' : σ} {value : ρ}
    (ok : untilReturn step label result fuel s = some (s', value)) : R s s' := by
  induction fuel generalizing s with
  | zero => contradiction
  | succ fuel ih =>
    simp only [untilReturn, Option.bind_eq_some_iff] at ok
    obtain ⟨⟨next, e⟩, taken, rest⟩ := ok
    dsimp only at rest
    split at rest
    · cases Option.some.inj rest
      exact kept _ _ _ taken
    · exact trans _ _ _ (kept _ _ _ taken) (ih rest)

theorem untilReturnRun {J : σ → Prop} (kept : ∀ s s' e, J s → step s label = some (s', e) → allowed s label ∧ J s')
    {fuel : Nat} {s s' : σ} {value : ρ} (before : J s) (ok : untilReturn step label result fuel s = some (s', value)) :
    ∃ visits, Run step allowed s visits s' := by
  induction fuel generalizing s with
  | zero => contradiction
  | succ fuel ih =>
    simp only [untilReturn, Option.bind_eq_some_iff] at ok
    obtain ⟨⟨next, e⟩, taken, rest⟩ := ok
    obtain ⟨permitted, after⟩ := kept s next e before taken
    dsimp only at rest
    split at rest
    · cases Option.some.inj rest
      exact ⟨_, Run.single permitted taken⟩
    · obtain ⟨visits, more⟩ := ih after rest
      exact ⟨_, (Run.single permitted taken).append more⟩

/- A call made inside a larger system: `embed` places its states there, and
`ended` is where the caller goes on with the result. -/
theorem untilReturnEmbedded {σ' α' ε' : Type*} {outer : σ' → α' → Option (σ' × ε')} {allowed' : σ' → α' → Prop}
    (embed : σ → σ') (ended : σ → ρ → σ') (label' : α') (permitted : ∀ s, allowed' (embed s) label')
    (silent : ∀ s s' e, step s label = some (s', e) → result e = none →
      ∃ e', outer (embed s) label' = some (embed s', e'))
    (returns : ∀ s s' e value, step s label = some (s', e) → result e = some value →
      ∃ e', outer (embed s) label' = some (ended s' value, e'))
    {fuel : Nat} {s s' : σ} {value : ρ} (ok : untilReturn step label result fuel s = some (s', value)) :
    ∃ visits, Run outer allowed' (embed s) visits (ended s' value) := by
  induction fuel generalizing s with
  | zero => contradiction
  | succ fuel ih =>
    simp only [untilReturn, Option.bind_eq_some_iff] at ok
    obtain ⟨⟨next, e⟩, taken, rest⟩ := ok
    dsimp only at rest
    cases outcome : result e with
    | some value' =>
      rw [outcome] at rest
      cases Option.some.inj rest
      obtain ⟨e', last⟩ := returns _ _ _ _ taken outcome
      exact ⟨_, Run.single (permitted s) last⟩
    | none =>
      rw [outcome] at rest
      obtain ⟨e', first⟩ := silent s next e taken outcome
      obtain ⟨visits, more⟩ := ih rest
      exact ⟨_, (Run.single (permitted s) first).append more⟩

end TransitionSystem
