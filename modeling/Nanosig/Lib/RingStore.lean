import Nanosig.Lib.WrappingCounter

/-! Storage of `size` cells reused in a circle. A cell is addressed by an unbounded
position; positions less than `size` apart have different cells. -/
namespace RingStore

variable {α : Type*}

def ringRead (size : Nat) (m : Nat → α) (pos len : Nat) : List α :=
  (List.range len).map fun i => m ((pos + i) % size)

variable {size : Nat} {m m' : Nat → α} {pos : Nat}

@[simp] theorem ringReadLength (len : Nat) : (ringRead size m pos len).length = len := by
  simp [ringRead]

@[simp] theorem ringReadZero : ringRead size m pos 0 = [] := rfl

theorem ringReadGet {len i : Nat} (inside : i < len) : (ringRead size m pos len)[i]? = some (m ((pos + i) % size)) := by
  simp [ringRead, inside]

theorem ringReadAppend (first second : Nat) :
    ringRead size m pos (first + second) = ringRead size m pos first ++ ringRead size m (pos + first) second := by
  simp [ringRead, List.range_add, Function.comp_def, Nat.add_assoc]

theorem ringReadTake {len : Nat} (part : Nat) (inside : part ≤ len) :
    (ringRead size m pos len).take part = ringRead size m pos part := by
  obtain ⟨rest, rfl⟩ := Nat.exists_eq_add_of_le inside
  rw [ringReadAppend, List.take_append_of_le_length (by simp), List.take_of_length_le (by simp)]

theorem ringReadDrop {len : Nat} (part : Nat) (inside : part ≤ len) :
    (ringRead size m pos len).drop part = ringRead size m (pos + part) (len - part) := by
  obtain ⟨rest, rfl⟩ := Nat.exists_eq_add_of_le inside
  rw [ringReadAppend, List.drop_append_of_le_length (by simp), List.drop_of_length_le (by simp), List.nil_append,
    Nat.add_sub_cancel_left]

theorem ringReadSame {len : Nat} (same : ∀ i < len, m ((pos + i) % size) = m' ((pos + i) % size)) :
    ringRead size m pos len = ringRead size m' pos len := by
  apply List.map_congr_left
  intro i member
  exact same i (List.mem_range.mp member)

theorem ringReadMod {pos pos' : Nat} (len : Nat) (same : pos % size = pos' % size) :
    ringRead size m pos len = ringRead size m pos' len := by
  apply List.map_congr_left
  intro i member
  rw [Nat.add_mod, same, ← Nat.add_mod]

theorem ringReadRotate {part : Nat} (inside : part ≤ size) :
    (ringRead size m pos size).rotate part = ringRead size m (pos + part) size := by
  have around : ringRead size m (pos + part + (size - part)) part = ringRead size m pos part :=
    ringReadMod part (by rw [show pos + part + (size - part) = pos + size by omega, Nat.add_mod_right])
  rw [List.rotate_eq_drop_append_take (by simpa using inside), ringReadDrop part inside, ringReadTake part inside, ← around,
    ← ringReadAppend, Nat.sub_add_cancel inside]

theorem cellsApart {p q : Nat} (order : p < q) (lap : q < p + size) : p % size ≠ q % size := by
  intro same
  have equal := WrappingCounter.sameOfModEq (by omega : p ≤ q) lap same.symm
  omega

theorem cellAfter {i : Nat} (inside : i < size) :
    (pos + i) % size = if pos % size + i < size then pos % size + i else pos % size + i - size := by
  have small := Nat.mod_lt pos (by omega : 0 < size)
  rw [Nat.add_mod, Nat.mod_eq_of_lt inside]
  split
  · exact Nat.mod_eq_of_lt ‹_›
  · rw [Nat.mod_eq_sub_mod (by omega), Nat.mod_eq_of_lt (by omega)]

theorem cellPosition (pos : Nat) {a : Nat} (inside : a < size) : ∃ i < size, (pos + i) % size = a := by
  have small := Nat.mod_lt pos (by omega : 0 < size)
  by_cases ahead : pos % size ≤ a
  · refine ⟨a - pos % size, by omega, ?_⟩
    rw [cellAfter (by omega), if_pos (by omega)]
    omega
  · refine ⟨a + size - pos % size, by omega, ?_⟩
    rw [cellAfter (by omega), if_neg (by omega)]
    omega

end RingStore
