import Nanosig.Lib.TransitionSystem

/-! Runs against an abstract machine that answers every label: if each step answers as the
machine does and keeps a relation to its state, a whole run does. -/
namespace TransitionSystem

variable {σ κ α ε : Type*}

def play (machine : κ → α → κ × ε) : κ → List α → κ × List ε
  | c, [] => (c, [])
  | c, a :: rest => ((play machine (machine c a).1 rest).1, (machine c a).2 :: (play machine (machine c a).1 rest).2)

theorem playAppend {machine : κ → α → κ × ε} {c : κ} (first second : List α) :
    play machine c (first ++ second) =
      ((play machine (play machine c first).1 second).1,
        (play machine c first).2 ++ (play machine (play machine c first).1 second).2) := by
  induction first generalizing c with
  | nil => rfl
  | cons a first ih => simp [play, ih]

theorem Run.plays {step : σ → α → Option (σ × ε)} {allowed : σ → α → Prop} {machine : κ → α → κ × ε} {R : σ → κ → Prop}
    (answers : ∀ s s' a e c, R s c → allowed s a → step s a = some (s', e) → R s' (machine c a).1 ∧ e = (machine c a).2)
    {s s' : σ} {visits : List (Visit σ α ε)} {c : κ} (run : Run step allowed s visits s') (related : R s c) :
    R s' (play machine c (visits.map Visit.label)).1 ∧
      visits.map Visit.event = (play machine c (visits.map Visit.label)).2 := by
  induction run with
  | done => exact ⟨related, rfl⟩
  | next before permitted taken ih =>
    obtain ⟨kept, events⟩ := ih
    obtain ⟨kept', event⟩ := answers _ _ _ _ _ kept permitted taken
    rw [List.map_append, List.map_append, playAppend, events]
    exact ⟨kept', by simp [play, event]⟩

end TransitionSystem
