import Nanosig.Lib.ColoredTree

/-! Red-black trees are shallow: no path is longer than twice the logarithm of their size. -/
namespace ColoredTree

variable {α : Type*}

def Tree.height : Tree α → Nat
  | nil => 0
  | node _ l _ r => max l.height r.height + 1

def heightBound (size : Nat) : Nat := 2 * (size + 1).log2

namespace Balanced

theorem height {t : Tree α} {c : Color} {n : Nat} (balanced : Balanced t c n) :
    t.height ≤ if c = .black then 2 * n else 2 * n + 1 := by
  induction balanced with
  | nil => simp [Tree.height]
  | red left right ihl ihr =>
    simp only [if_true] at ihl ihr
    simp only [Tree.height, reduceCtorEq, if_false]
    omega
  | black left right ihl ihr =>
    simp only [Tree.height, if_true]
    split at ihl <;> split at ihr <;> omega

theorem size {t : Tree α} {c : Color} {n : Nat} (balanced : Balanced t c n) : 2 ^ n ≤ t.toList.length + 1 := by
  induction balanced with
  | nil => simp [Tree.toList]
  | red left right ihl ihr =>
    simp only [Tree.toList, List.length_append, List.length_cons]
    omega
  | black left right ihl ihr =>
    simp only [Tree.toList, List.length_append, List.length_cons, Nat.pow_succ]
    omega

theorem shallow {t : Tree α} {n : Nat} (balanced : Balanced t .black n) : t.height ≤ heightBound t.toList.length := by
  have height := balanced.height
  have blacks : n ≤ (t.toList.length + 1).log2 := (Nat.le_log2 (by omega)).mpr balanced.size
  simp only [if_true] at height
  simp only [heightBound]
  omega

end Balanced

theorem Tree.heightMake (side : Side) (c : Color) (near far : Tree α) (k : α) :
    (make side c near k far).height = max near.height far.height + 1 := by
  cases side with
  | left => rfl
  | right => simp [make, height, Nat.max_comm]

theorem Tree.heightLeLength (t : Tree α) : t.height ≤ t.toList.length := by
  induction t with
  | nil => exact Nat.le_refl 0
  | node c l k r ihl ihr =>
    simp only [height, toList, List.length_append, List.length_cons]
    omega

theorem depthPlug (fs : List (Frame α)) (t : Tree α) : fs.length + t.height ≤ (plug fs t).height := by
  induction fs generalizing t with
  | nil => simp [plug]
  | cons f fs ih =>
    have up := ih (f.fill t)
    rw [Frame.fill, Tree.heightMake] at up
    simp only [plug, List.length_cons, Frame.fill] at up ⊢
    omega

/- A hole that takes a tree of black height `n` is not deep either, also while the tree
around it is out of balance: `m` is the black height of the whole once it is filled. -/
theorem Accepts.depth {fs : List (Frame α)} {c : Color} {n : Nat} (accepts : Accepts fs c n) :
    ∃ m, n ≤ m ∧ (fs.length + if c = .black then 0 else 1) ≤ 2 * (m - n) ∧ 2 ^ m ≤ (keys fs).length + 2 ^ n := by
  induction accepts with
  | root n => exact ⟨n, Nat.le_refl n, by simp, by simp⟩
  | red sibling above ih =>
    obtain ⟨m, more, depth, size⟩ := ih
    refine ⟨m, more, ?_, ?_⟩
    · simpa using depth
    · simp only [keys, List.length_cons, List.length_append]
      omega
  | @black side k sib fs n c d sibling above ih =>
    obtain ⟨m, more, depth, size⟩ := ih
    have weight := sibling.size
    refine ⟨m, by omega, ?_, ?_⟩
    · simp only [if_true, Nat.add_zero] at depth
      rw [List.length_cons]
      split <;> omega
    · simp only [keys, List.length_cons, List.length_append]
      rw [Nat.pow_succ] at size
      omega

theorem Accepts.shallow {fs : List (Frame α)} {c : Color} {n : Nat} (accepts : Accepts fs c n) :
    fs.length ≤ 2 * (((keys fs).length + 2 ^ n).log2 - n) := by
  obtain ⟨m, more, depth, size⟩ := accepts.depth
  have positive : 0 < 2 ^ n := Nat.two_pow_pos n
  have blacks : m ≤ ((keys fs).length + 2 ^ n).log2 := (Nat.le_log2 (by omega)).mpr size
  omega

end ColoredTree
