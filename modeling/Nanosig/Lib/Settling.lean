import Mathlib

/-! Loops that are given a number of rounds and end with none if these do not suffice. A loop
settles at `n` if from `n` rounds on it ends, always with the same result. -/
namespace Settling

variable {σ β γ : Type*}

def Settles (f : Nat → Option β) (n : Nat) : Prop := ∃ r, ∀ rounds, n ≤ rounds → f rounds = some r

theorem Settles.weaken {f : Nat → Option β} {n m : Nat} (settles : Settles f n) (more : n ≤ m) : Settles f m := by
  obtain ⟨r, ended⟩ := settles
  exact ⟨r, fun rounds enough => ended rounds (more.trans enough)⟩

/- Two numbers of rounds make no difference: the loop ends with both, and alike. -/
def EndAlike (f : Nat → Option β) (a b : Nat) : Prop := ∃ r, f a = some r ∧ f b = some r

theorem Settles.same {f : Nat → Option β} {n a b : Nat} (settles : Settles f n) (first : n ≤ a) (second : n ≤ b) :
    EndAlike f a b := by
  obtain ⟨r, ended⟩ := settles
  exact ⟨r, ended a first, ended b second⟩

theorem Settles.pure (r : β) (n : Nat) : Settles (fun _ => some r) n := ⟨r, fun _ _ => rfl⟩

theorem Settles.congr {f g : Nat → Option β} {n : Nat} (settles : Settles f n) (same : ∀ rounds, g rounds = f rounds) :
    Settles g n := by
  obtain ⟨r, ended⟩ := settles
  exact ⟨r, fun rounds enough => (same rounds).trans (ended rounds enough)⟩

theorem Settles.succ {f : Nat → Option β} {n : Nat} (settles : Settles f (n + 1)) : Settles (fun rounds => f (rounds + 1)) n := by
  obtain ⟨r, ended⟩ := settles
  exact ⟨r, fun rounds enough => ended (rounds + 1) (by omega)⟩

theorem Settles.map {f : Nat → Option β} {n : Nat} (settles : Settles f n) (g : β → γ) :
    Settles (fun rounds => (f rounds).map g) n := by
  obtain ⟨r, ended⟩ := settles
  exact ⟨g r, fun rounds enough => by simp only [ended rounds enough, Option.map_some]⟩

theorem Settles.bind {f : Nat → Option β} {g : β → Nat → Option γ} {n : Nat} (first : Settles f n)
    (second : ∀ r, (∀ rounds, n ≤ rounds → f rounds = some r) → Settles (g r) n) :
    Settles (fun rounds => (f rounds).bind fun r => g r rounds) n := by
  obtain ⟨r, ended⟩ := first
  obtain ⟨r', ended'⟩ := second r ended
  exact ⟨r', fun rounds enough => by simp only [ended rounds enough, Option.bind_some, ended' rounds enough]⟩

/- The loop in one of its states, of which `left` says how many rounds they have left at most. -/
inductive Round (f : σ → Nat → Option β) (left : σ → Nat → Prop) (s : σ) : Nat → Prop where
  | idle {k : Nat} (r : β) (ended : ∀ rounds, f s rounds = some r) : Round f left s k
  | ends {k : Nat} (r : β) (ended : ∀ rounds, f s (rounds + 1) = some r) : Round f left s (k + 1)
  | goes {k : Nat} {s' : σ} (rest : left s' k) (same : ∀ rounds, f s (rounds + 1) = f s' rounds) : Round f left s (k + 1)

theorem settlesByRounds {f : σ → Nat → Option β} {left : σ → Nat → Prop} (round : ∀ s k, left s k → Round f left s k)
    {s : σ} {k : Nat} (here : left s k) : Settles (f s) k := by
  induction k generalizing s with
  | zero =>
    cases round s 0 here with
    | idle r ended => exact ⟨r, fun rounds _ => ended rounds⟩
  | succ k ih =>
    cases round s (k + 1) here with
    | idle r ended => exact ⟨r, fun rounds _ => ended rounds⟩
    | ends r ended =>
      refine ⟨r, fun rounds enough => ?_⟩
      cases rounds with
      | zero => omega
      | succ rounds => exact ended rounds
    | goes rest same =>
      obtain ⟨r, ended⟩ := ih rest
      refine ⟨r, fun rounds enough => ?_⟩
      cases rounds with
      | zero => omega
      | succ rounds => exact (same rounds).trans (ended rounds (by omega))

/- A loop that keeps its result when it is given one round more, and ends in `n` rounds. -/
theorem settlesOfGrowing {f : Nat → Option β} {n : Nat} {r : β}
    (growing : ∀ rounds r, f rounds = some r → f (rounds + 1) = some r) (ended : f n = some r) : Settles f n := by
  refine ⟨r, fun rounds enough => ?_⟩
  induction enough with
  | refl => exact ended
  | step _ ih => exact growing _ _ ih

end Settling
