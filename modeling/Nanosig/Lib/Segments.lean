import Mathlib

/-! Lists of nonempty intervals laid end to end on the natural numbers. -/
namespace Segments

variable {α : Type*} (start stop : α → Nat)

def Laid : Nat → List α → Nat → Prop
  | first, [], last => first = last
  | first, x :: rest, last => start x = first ∧ start x < stop x ∧ Laid (stop x) rest last

variable {start stop}

theorem laidLe {first last : Nat} {xs : List α} (laid : Laid start stop first xs last) :
    first ≤ last := by
  induction xs generalizing first with
  | nil => exact Nat.le_of_eq laid
  | cons x rest ih =>
    obtain ⟨begins, nonempty, tail⟩ := laid
    have := ih tail
    omega

theorem laidBounds {first last : Nat} {xs : List α} (laid : Laid start stop first xs last)
    {x : α} (member : x ∈ xs) : first ≤ start x ∧ start x < stop x ∧ stop x ≤ last := by
  induction xs generalizing first with
  | nil => simp at member
  | cons y rest ih =>
    obtain ⟨begins, nonempty, tail⟩ := laid
    rcases List.mem_cons.mp member with rfl | later
    · exact ⟨by omega, nonempty, laidLe tail⟩
    · obtain ⟨after, proper, before⟩ := ih tail later
      exact ⟨by omega, proper, before⟩

theorem laidApart {first last : Nat} {xs : List α} (laid : Laid start stop first xs last)
    {x y : α} (mx : x ∈ xs) (my : y ∈ xs) : x = y ∨ stop x ≤ start y ∨ stop y ≤ start x := by
  induction xs generalizing first with
  | nil => simp at mx
  | cons z rest ih =>
    obtain ⟨_, _, tail⟩ := laid
    rcases List.mem_cons.mp mx with rfl | lx <;> rcases List.mem_cons.mp my with rfl | ly
    · exact Or.inl rfl
    · exact Or.inr (Or.inl (laidBounds tail ly).1)
    · exact Or.inr (Or.inr (laidBounds tail lx).1)
    · exact ih tail lx ly

theorem laidInjective {first last : Nat} {xs : List α} (laid : Laid start stop first xs last)
    {x y : α} (mx : x ∈ xs) (my : y ∈ xs) (same : start x = start y) : x = y := by
  have bx := laidBounds laid mx
  have byy := laidBounds laid my
  rcases laidApart laid mx my with rfl | h | h
  · rfl
  · omega
  · omega

theorem laidAppend {first last : Nat} {xs : List α} (laid : Laid start stop first xs last)
    {x : α} (next : start x = last) (nonempty : start x < stop x) :
    Laid start stop first (xs ++ [x]) (stop x) := by
  induction xs generalizing first with
  | nil =>
    have same : first = last := laid
    exact ⟨by omega, nonempty, rfl⟩
  | cons y rest ih =>
    obtain ⟨begins, proper, tail⟩ := laid
    exact ⟨begins, proper, ih tail⟩

end Segments
