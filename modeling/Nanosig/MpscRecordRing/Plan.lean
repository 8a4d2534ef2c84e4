import Nanosig.MpscRecordRing.Ring

/-! What an accepted capacity guarantees, and what a plan says about the
unbounded positions behind the wrapped counters it was made from. -/
namespace Nanosig.MpscRecordRing
open ByteStore

variable {abi : Abi}

structure Geometry (abi : Abi) (capacity : Nat) : Prop where
  powerOfTwo : ∃ k, capacity = 2 ^ k
  half : capacity ≤ abi.sizeMax / 2
  threeHeaders : abi.sizeofSizeT * 3 ≤ capacity
  stride : capacity / 2 ≤ abi.metaStrideMask

theorem sizeofSizeTPow (abi : Abi) : ∃ k, abi.sizeofSizeT = 2 ^ k := by
  cases abi
  · exact ⟨3, rfl⟩
  · exact ⟨2, rfl⟩

theorem sizeofSizeTPos (abi : Abi) : 0 < abi.sizeofSizeT := by
  cases abi <;> decide

theorem capacityIsValidGeometry {capacity : Nat} (valid : capacityIsValid abi capacity = true) :
    Geometry abi capacity := by
  unfold capacityIsValid at valid
  split at valid <;> try contradiction
  rename_i nonzero
  split at valid <;> try contradiction
  rename_i masked
  split at valid <;> try contradiction
  rename_i half
  split at valid <;> try contradiction
  rename_i three
  split at valid <;> try contradiction
  rename_i stride
  have power : capacity.isPowerOfTwo :=
    (Nat.and_sub_one_eq_zero_iff_isPowerOfTwo nonzero).mp (by simpa using masked)
  exact ⟨power, by omega, by omega, by omega⟩

namespace Geometry

variable {capacity : Nat} (g : Geometry abi capacity)
include g

theorem positive : 0 < capacity := by
  have := g.threeHeaders
  have := sizeofSizeTPos abi
  omega

theorem ltModulus : 2 * capacity < abi.modulus := by
  have := g.half
  have := abi.modulusPos
  unfold Abi.sizeMax at *
  omega

theorem dvdModulus : capacity ∣ abi.modulus := by
  obtain ⟨k, rfl⟩ := g.powerOfTwo
  have small : 2 ^ k < 2 ^ abi.sizeBits := by
    have := g.ltModulus
    unfold Abi.modulus at this
    omega
  exact Nat.pow_dvd_pow 2 (Nat.le_of_lt ((Nat.pow_lt_pow_iff_right (by decide)).mp small))

theorem aligned : abi.sizeofSizeT ∣ capacity := by
  obtain ⟨k, hk⟩ := g.powerOfTwo
  obtain ⟨j, hj⟩ := sizeofSizeTPow abi
  rw [hk, hj]
  have small : 2 ^ j < 2 ^ k := by
    have := g.threeHeaders
    have := sizeofSizeTPos abi
    omega
  exact Nat.pow_dvd_pow 2 (Nat.le_of_lt ((Nat.pow_lt_pow_iff_right (by decide)).mp small))

theorem offsetMod {ring : Ring} (same : ring.capacity = capacity) (pos : Nat) :
    ring.offset (abi.wrap pos) = pos % capacity := by
  obtain ⟨k, hk⟩ := g.powerOfTwo
  have mask : (abi.wrap pos) &&& (capacity - 1) = abi.wrap pos % capacity := by
    rw [hk, Nat.and_two_pow_sub_one_eq_mod]
  rw [Ring.offset, same, mask, Abi.wrap, Nat.mod_mod_of_dvd pos g.dvdModulus]

end Geometry

/- The fake record a record of `total` bytes needs at write position `pos`. -/
def tailPadding (capacity pos total : Nat) : Nat :=
  if pos % capacity ≠ 0 ∧ total > capacity - pos % capacity then capacity - pos % capacity else 0

theorem recordTotalSpec {recordSize : Nat} (small : recordSize + 2 * abi.sizeofSizeT ≤ abi.sizeMax) :
    ∃ padding, padding < abi.sizeofSizeT ∧ abi.sizeofSizeT ∣ recordTotal abi recordSize ∧
      abi.sizeofSizeT + recordSize + padding = recordTotal abi recordSize := by
  have pos := sizeofSizeTPos abi
  have bound : abi.sizeofSizeT + recordSize + (abi.sizeofSizeT - 1) < abi.modulus := by
    unfold Abi.sizeMax at small
    have := abi.modulusPos
    omega
  have total : recordTotal abi recordSize =
      (abi.sizeofSizeT + recordSize + (abi.sizeofSizeT - 1)) / abi.sizeofSizeT * abi.sizeofSizeT := by
    unfold recordTotal alignUp Abi.wrap
    rw [Nat.mod_eq_of_lt (by omega : abi.sizeofSizeT + recordSize < abi.modulus), Nat.mod_eq_of_lt bound]
  refine ⟨recordTotal abi recordSize - (abi.sizeofSizeT + recordSize), ?_, ⟨_, by rw [total, Nat.mul_comm]⟩, ?_⟩ <;>
    rw [total] <;> cases abi <;> simp only [Abi.sizeofSizeT] at * <;> omega

/- What a successful plan fixes, stated on the unbounded write position. -/
structure Planned (abi : Abi) (capacity writeAt recordSize : Nat) (plan : PushPlan) : Prop where
  size : plan.recordSize = recordSize
  total : plan.recordTotalSize = recordTotal abi recordSize
  split : abi.sizeofSizeT + recordSize + plan.paddingSize = plan.recordTotalSize
  padding : plan.paddingSize < abi.sizeofSizeT
  totalAligned : abi.sizeofSizeT ∣ plan.recordTotalSize
  totalHalf : plan.recordTotalSize ≤ capacity / 2
  fake : plan.fakeSize = tailPadding capacity writeAt plan.recordTotalSize
  publish : plan.publishSize = plan.fakeSize + plan.recordTotalSize
  fakeHeader : plan.fakeHeader = if plan.fakeSize ≠ 0 then some (writeAt % capacity) else none
  recordPos : plan.recordPos = abi.wrap (writeAt + plan.fakeSize)
  recordHeader : plan.recordHeader = (writeAt + plan.fakeSize) % capacity

namespace Planned

variable {capacity writeAt recordSize : Nat} {plan : PushPlan}
  (p : Planned abi capacity writeAt recordSize plan)
include p

theorem totalPos : abi.sizeofSizeT ≤ plan.recordTotalSize := by
  have := p.split
  omega

theorem fakeCases : plan.fakeSize = 0 ∨
    (0 < plan.fakeSize ∧ writeAt % capacity + plan.fakeSize = capacity ∧
      plan.fakeSize < plan.recordTotalSize) := by
  have := p.fake
  unfold tailPadding at this
  split at this
  · rename_i wraps
    have := p.totalHalf
    omega
  · left
    exact this

theorem fakeIsSome : plan.fakeHeader.isSome = true ↔ plan.fakeSize ≠ 0 := by
  rw [p.fakeHeader]
  split
  · rename_i fake
    exact ⟨fun _ => fake, fun _ => rfl⟩
  · rename_i none_
    exact ⟨(fun some_ => by cases some_), fun fake => absurd fake none_⟩

theorem fakePlace (fake : plan.fakeSize ≠ 0) : plan.fakeHeader.getD 0 = writeAt % capacity := by
  rw [p.fakeHeader, if_pos fake, Option.getD_some]

theorem recordContiguous (positive : 0 < capacity) :
    Contiguous capacity (writeAt + plan.fakeSize) plan.recordTotalSize := by
  unfold Contiguous
  have small := Nat.mod_lt writeAt positive
  rcases p.fakeCases with none_ | ⟨_, ends, _⟩
  · have := p.fake
    rw [none_, Nat.add_zero]
    unfold tailPadding at this
    split at this
    · omega
    · have := p.totalHalf
      omega
  · have wrapped : (writeAt + plan.fakeSize) % capacity = 0 := by
      have whole : writeAt + plan.fakeSize = capacity * (writeAt / capacity + 1) := by
        have := Nat.div_add_mod writeAt capacity
        rw [Nat.mul_add]
        omega
      rw [whole, Nat.mul_mod_right]
    have := p.totalHalf
    omega

theorem fakeContiguous (fake : plan.fakeSize ≠ 0) : Contiguous capacity writeAt plan.fakeSize := by
  unfold Contiguous
  rcases p.fakeCases with none_ | ⟨_, ends, _⟩ <;> omega

theorem fakeAligned (g : Geometry abi capacity) (aligned : abi.sizeofSizeT ∣ writeAt) :
    abi.sizeofSizeT ∣ plan.fakeSize := by
  rcases p.fakeCases with none_ | ⟨_, ends, _⟩
  · rw [none_]
    exact Nat.dvd_zero _
  · have slot : abi.sizeofSizeT ∣ writeAt % capacity :=
      (Nat.dvd_mod_iff g.aligned).mpr aligned
    exact (Nat.dvd_add_right slot).mp (by rw [ends]; exact g.aligned)

theorem publishAligned (g : Geometry abi capacity) (aligned : abi.sizeofSizeT ∣ writeAt) :
    abi.sizeofSizeT ∣ writeAt + plan.publishSize := by
  rw [p.publish]
  exact Nat.dvd_add aligned (Nat.dvd_add (p.fakeAligned g aligned) p.totalAligned)

end Planned

theorem recordTotalHalf {capacity : Nat} (g : Geometry abi capacity) {recordSize : Nat} (size : recordSize ≤ capacity / 2 - abi.sizeofSizeT) :
    recordTotal abi recordSize ≤ capacity / 2 := by
  have lap := g.ltModulus
  have three := g.threeHeaders
  have wordPos := sizeofSizeTPos abi
  have small : recordSize + 2 * abi.sizeofSizeT ≤ abi.sizeMax := by
    unfold Abi.sizeMax
    omega
  obtain ⟨padding, paddingLt, ⟨a, ha⟩, split⟩ := recordTotalSpec small
  have even : abi.sizeofSizeT ∣ capacity / 2 := by
    obtain ⟨k, hk⟩ := g.powerOfTwo
    obtain ⟨j, hj⟩ := sizeofSizeTPow abi
    have small : 2 ^ j < 2 ^ k := by omega
    have lower : j < k := (Nat.pow_lt_pow_iff_right (by decide)).mp small
    obtain ⟨d, rfl⟩ := Nat.exists_eq_add_of_lt lower
    exact ⟨2 ^ d, by rw [hk, hj, Nat.pow_succ, Nat.mul_div_cancel _ (by decide), Nat.pow_add]⟩
  obtain ⟨b, hb⟩ := even
  rw [hb] at size ⊢
  rw [ha] at split ⊢
  apply Nat.mul_le_mul_left
  by_contra more
  have := Nat.mul_le_mul_left abi.sizeofSizeT (by omega : b + 1 ≤ a)
  rw [Nat.mul_add, Nat.mul_one] at this
  have : 0 < b := by
    rcases Nat.eq_zero_or_pos b with rfl | h
    · simp at hb; omega
    · exact h
  have := Nat.mul_le_mul_left abi.sizeofSizeT this
  omega

/- `planPush` on wrapped counters whose positions are in order and at most one
capacity apart: it fails exactly when the record does not fit. -/
theorem planPushSpec {ring : Ring} (g : Geometry abi ring.capacity) {recordSize writeAt readAt : Nat}
    (size : recordSize ≤ ring.capacity / 2 - abi.sizeofSizeT) (order : readAt ≤ writeAt)
    (window : writeAt ≤ readAt + ring.capacity) :
    match planPush abi ring recordSize (abi.wrap writeAt) (abi.wrap readAt) with
    | some plan => Planned abi ring.capacity writeAt recordSize plan ∧
        writeAt + plan.publishSize ≤ readAt + ring.capacity
    | none => readAt + ring.capacity <
        writeAt + (tailPadding ring.capacity writeAt (recordTotal abi recordSize) + recordTotal abi recordSize) := by
  have lap := g.ltModulus
  have three := g.threeHeaders
  have wordPos := sizeofSizeTPos abi
  have small : recordSize + 2 * abi.sizeofSizeT ≤ abi.sizeMax := by
    unfold Abi.sizeMax
    omega
  obtain ⟨padding, paddingLt, totalAligned, split⟩ := recordTotalSpec small
  have half := recordTotalHalf g size
  have usedExact : abi.sub (abi.wrap writeAt) (abi.wrap readAt) = writeAt - readAt :=
    WrappingCounter.diffExact order (by omega)
  have offsetExact : ring.offset (abi.wrap writeAt) = writeAt % ring.capacity := g.offsetMod rfl writeAt
  have offsetLt := Nat.mod_lt writeAt g.positive
  have paddingExact : abi.sub (abi.sub (recordTotal abi recordSize) abi.sizeofSizeT) recordSize = padding := by
    have outer := WrappingCounter.diffExact (m := abi.modulus) (a := recordTotal abi recordSize)
      (b := abi.sizeofSizeT) (by omega) (by omega)
    rw [Nat.mod_eq_of_lt (by omega), Nat.mod_eq_of_lt (by omega)] at outer
    have inner := WrappingCounter.diffExact (m := abi.modulus)
      (a := recordTotal abi recordSize - abi.sizeofSizeT) (b := recordSize) (by omega) (by omega)
    rw [Nat.mod_eq_of_lt (by omega), Nat.mod_eq_of_lt (by omega)] at inner
    unfold Abi.sub
    rw [outer, inner]
    omega
  have fakeLe : tailPadding ring.capacity writeAt (recordTotal abi recordSize) ≤ ring.capacity := by
    unfold tailPadding
    split <;> omega
  have publishExact : abi.wrap (tailPadding ring.capacity writeAt (recordTotal abi recordSize) +
      recordTotal abi recordSize) =
      tailPadding ring.capacity writeAt (recordTotal abi recordSize) + recordTotal abi recordSize :=
    Nat.mod_eq_of_lt (by omega)
  have posExact : abi.wrap (abi.wrap writeAt + tailPadding ring.capacity writeAt (recordTotal abi recordSize)) =
      abi.wrap (writeAt + tailPadding ring.capacity writeAt (recordTotal abi recordSize)) := by
    simp [Abi.wrap]
  unfold planPush
  rw [usedExact, if_neg (by omega), if_neg (by omega)]
  simp only [offsetExact]
  change match (if ring.capacity - (writeAt - readAt) <
      abi.wrap (tailPadding ring.capacity writeAt (recordTotal abi recordSize) + recordTotal abi recordSize)
    then none else some (PushPlan.mk recordSize (recordTotal abi recordSize)
      (abi.wrap (tailPadding ring.capacity writeAt (recordTotal abi recordSize) + recordTotal abi recordSize))
      (abi.sub (abi.sub (recordTotal abi recordSize) abi.sizeofSizeT) recordSize)
      (tailPadding ring.capacity writeAt (recordTotal abi recordSize))
      (abi.wrap (abi.wrap writeAt + tailPadding ring.capacity writeAt (recordTotal abi recordSize)))
      (if tailPadding ring.capacity writeAt (recordTotal abi recordSize) ≠ 0
        then some (writeAt % ring.capacity) else none)
      (ring.offset (abi.wrap (abi.wrap writeAt +
        tailPadding ring.capacity writeAt (recordTotal abi recordSize)))))) with
    | some plan => _ | none => _
  rw [publishExact, paddingExact, posExact, g.offsetMod rfl]
  split
  · rename_i fits
    split at fits <;> first | contradiction | skip
    cases Option.some.inj fits
    exact ⟨⟨rfl, rfl, split, paddingLt, totalAligned, half, rfl, rfl, rfl, rfl, rfl⟩, by dsimp only; omega⟩
  · rename_i fails
    split at fails
    · omega
    · contradiction

end Nanosig.MpscRecordRing
