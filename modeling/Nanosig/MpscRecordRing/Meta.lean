import Nanosig.Lib.WrappingCounter

/-! The word every record starts with: stride, tail padding, a valid bit and a
fake bit, in the layout selected by the width of `size_t`. -/
namespace Nanosig.MpscRecordRing

/- The two branches of `#if SIZE_MAX > UINT32_MAX`. -/
inductive Abi where
  | lp64
  | ilp32
  deriving DecidableEq, Repr

namespace Abi

def sizeofSizeT : Abi → Nat
  | .lp64 => 8
  | .ilp32 => 4

def sizeBits (abi : Abi) : Nat := 8 * abi.sizeofSizeT

/- `size_t` values are taken modulo this. -/
def modulus (abi : Abi) : Nat := 2 ^ abi.sizeBits

def sizeMax (abi : Abi) : Nat := abi.modulus - 1

def metaStrideBits : Abi → Nat
  | .lp64 => 32
  | .ilp32 => 16

def metaStrideMask (abi : Abi) : Nat := 2 ^ abi.metaStrideBits - 1

def metaPadShift : Abi → Nat
  | .lp64 => 32
  | .ilp32 => 16

def metaPadMask : Nat := 2 ^ 8 - 1

def metaValidShift : Abi → Nat
  | .lp64 => 40
  | .ilp32 => 24

def metaFakeShift : Abi → Nat
  | .lp64 => 41
  | .ilp32 => 25

def wrap (abi : Abi) (n : Nat) : Nat := n % abi.modulus

/- `a - b` on `size_t`. -/
def sub (abi : Abi) (a b : Nat) : Nat := WrappingCounter.diff abi.modulus a b

theorem modulusPos (abi : Abi) : 0 < abi.modulus := Nat.two_pow_pos _

theorem modulusBytes (abi : Abi) : abi.modulus = 256 ^ abi.sizeofSizeT := by
  cases abi <;> decide

end Abi

def metaEncode (abi : Abi) (totalSize paddingSize : Nat) (fake : Bool) : Nat :=
  let meta_ := (totalSize &&& abi.metaStrideMask)
    ||| ((paddingSize &&& Abi.metaPadMask) <<< abi.metaPadShift)
    ||| (1 <<< abi.metaValidShift)
  if fake then meta_ ||| (1 <<< abi.metaFakeShift) else meta_

def metaEncodeValid (abi : Abi) (totalSize paddingSize : Nat) : Nat :=
  metaEncode abi totalSize paddingSize false

def metaEncodeFake (abi : Abi) (totalSize : Nat) : Nat := metaEncode abi totalSize 0 true

def metaIsValid (abi : Abi) (meta_ : Nat) : Bool := (meta_ >>> abi.metaValidShift) &&& 1 != 0

def metaIsFake (abi : Abi) (meta_ : Nat) : Bool := (meta_ >>> abi.metaFakeShift) &&& 1 != 0

def metaStride (abi : Abi) (meta_ : Nat) : Nat := meta_ &&& abi.metaStrideMask

def metaPadding (abi : Abi) (meta_ : Nat) : Nat := (meta_ >>> abi.metaPadShift) &&& Abi.metaPadMask

/- `ns_mpsc_record_ring_payload_size`: `none` is the `false` return. -/
def payloadSize (abi : Abi) (meta_ : Nat) : Option Nat :=
  let stride := metaStride abi meta_
  let paddingSize := metaPadding abi meta_
  if stride < abi.sizeofSizeT then none
  else if paddingSize > stride - abi.sizeofSizeT then none
  else some (stride - abi.sizeofSizeT - paddingSize)

/-! The fields are disjoint, so the word is the sum of its fields. -/

theorem metaEncodeSum (abi : Abi) {totalSize paddingSize : Nat} (fake : Bool)
    (total : totalSize ≤ abi.metaStrideMask) (padding : paddingSize ≤ Abi.metaPadMask) :
    metaEncode abi totalSize paddingSize fake =
      totalSize + paddingSize * 2 ^ abi.metaPadShift + 2 ^ abi.metaValidShift +
        (if fake then 2 ^ abi.metaFakeShift else 0) := by
  have low : totalSize &&& abi.metaStrideMask = totalSize := by
    rw [Abi.metaStrideMask, Nat.and_two_pow_sub_one_eq_mod, Nat.mod_eq_of_lt]
    have := Nat.two_pow_pos abi.metaStrideBits
    unfold Abi.metaStrideMask at total
    omega
  have mid : paddingSize &&& Abi.metaPadMask = paddingSize := by
    rw [Abi.metaPadMask, Nat.and_two_pow_sub_one_eq_mod, Nat.mod_eq_of_lt]
    unfold Abi.metaPadMask at padding
    omega
  have lowFits : totalSize < 2 ^ abi.metaPadShift := by
    cases abi <;> simp [Abi.metaStrideMask, Abi.metaStrideBits, Abi.metaPadShift] at * <;> omega
  have two : totalSize ||| paddingSize <<< abi.metaPadShift =
      paddingSize <<< abi.metaPadShift + totalSize := by
    rw [Nat.or_comm, Nat.shiftLeft_add_eq_or_of_lt lowFits]
  have twoFits : paddingSize <<< abi.metaPadShift + totalSize < 2 ^ abi.metaValidShift := by
    simp only [Abi.metaPadMask] at padding
    rw [Nat.shiftLeft_eq]
    cases abi <;> simp [Abi.metaPadShift, Abi.metaValidShift] at * <;> omega
  have three : (paddingSize <<< abi.metaPadShift + totalSize) ||| 1 <<< abi.metaValidShift =
      1 <<< abi.metaValidShift + (paddingSize <<< abi.metaPadShift + totalSize) := by
    rw [Nat.or_comm, Nat.shiftLeft_add_eq_or_of_lt twoFits]
  have threeFits : 1 <<< abi.metaValidShift + (paddingSize <<< abi.metaPadShift + totalSize) <
      2 ^ abi.metaFakeShift := by
    rw [Nat.one_shiftLeft]
    cases abi <;> simp [Abi.metaFakeShift, Abi.metaValidShift] at * <;> omega
  unfold metaEncode
  rw [low, mid, two, three]
  cases fake with
  | false => simp [Nat.shiftLeft_eq]; ring
  | true =>
    simp only [if_true]
    rw [Nat.or_comm, ← Nat.shiftLeft_add_eq_or_of_lt threeFits]
    simp [Nat.shiftLeft_eq]
    ring

/- A meta word decodes to exactly the fields it was built from. -/
structure MetaDecodes (abi : Abi) (meta_ totalSize paddingSize : Nat) (fake : Bool) : Prop where
  valid : metaIsValid abi meta_ = true
  fake : metaIsFake abi meta_ = fake
  stride : metaStride abi meta_ = totalSize
  padding : metaPadding abi meta_ = paddingSize
  fits : meta_ < abi.modulus

theorem metaRoundTrip (abi : Abi) {totalSize paddingSize : Nat} (fake : Bool)
    (total : totalSize ≤ abi.metaStrideMask) (padding : paddingSize ≤ Abi.metaPadMask) :
    MetaDecodes abi (metaEncode abi totalSize paddingSize fake) totalSize paddingSize fake := by
  have sum := metaEncodeSum abi fake total padding
  cases abi <;> cases fake <;>
    simp only [Abi.metaStrideMask, Abi.metaStrideBits, Abi.metaPadMask, Abi.metaPadShift,
      Abi.metaValidShift, Abi.metaFakeShift, Bool.false_eq_true, if_true, if_false] at sum total padding <;>
    constructor <;>
    simp only [metaIsValid, metaIsFake, metaStride, metaPadding, Abi.metaStrideMask,
      Abi.metaStrideBits, Abi.metaPadMask, Abi.metaPadShift, Abi.metaValidShift, Abi.metaFakeShift,
      Abi.modulus, Abi.sizeBits, Abi.sizeofSizeT, Nat.shiftRight_eq_div_pow,
      Nat.and_two_pow_sub_one_eq_mod, Nat.and_one_is_mod, sum] <;>
    first | omega | (simp; omega)

theorem metaZeroInvalid (abi : Abi) : metaIsValid abi 0 = false := by
  cases abi <;> decide

theorem payloadSizeRoundTrip {abi : Abi} {meta_ totalSize paddingSize : Nat} {fake : Bool}
    (decodes : MetaDecodes abi meta_ totalSize paddingSize fake) {size : Nat}
    (sum : abi.sizeofSizeT + size + paddingSize = totalSize) : payloadSize abi meta_ = some size := by
  unfold payloadSize
  simp only [decodes.stride, decodes.padding]
  rw [if_neg (by omega), if_neg (by omega)]
  congr 1
  omega

end Nanosig.MpscRecordRing
