import Nanosig.Formatio.Cursor
import Nanosig.Formatio.Prescribed

/-! The digits of `vprintf_number`: the buffer they are written to, and that what is printed
reads back as the argument. -/
namespace Nanosig.Formatio

/- `for (i = count - 1; i >= 0; i--) number_buf[i] = digits[num_rsh(&num, base)];`, where a write
outside the buffer is a fault. -/
def fillNumberBuf (large : Bool) (base : Nat) : Nat → Nat → List Byte → Except Fault (List Byte)
  | 0, _, numberBuf => .ok numberBuf
  | i + 1, num, numberBuf =>
      if i < numberBuf.length then fillNumberBuf large base i (num / base) (numberBuf.set i (digit large (num % base)))
      else .error .outside

/- The bytes of the buffer in use: the one on the stack, or the allocated one. -/
def numberBufSize (bitCount : Nat) : Nat := if bitCount > formatStackCacheSize then bitCount else formatStackCacheSize

/- `vprintf_number` with its buffer and its `int` arithmetic, when the allocation succeeds. What
the buffer holds before does not matter. -/
def vprintfNumberAt (o : Output) (num : BitVec 64) (fieldWidth precision : Int) (flags : Flags) (base : BaseType)
    (contents : Nat → Byte) : Except Fault (Output × Int) := do
  let negative := flags.signed && num.msb
  let num := if negative then -num else num
  let sign := signText flags negative
  let bitCount := numBitCount num.toNat base.value
  let numberBuf ← fillNumberBuf flags.large base.value bitCount num.toNat ((List.range (numberBufSize bitCount)).map contents)
  let special := specialText flags base
  let realityCount ← int (sign.length + special.length + bitCount)
  let zeropad := flags.zeropad && decide (precision < 0)
  let zeropadCount ← (if precision > bitCount then int (precision - bitCount) else .ok 0)
  let realityCount ← (if precision ≥ 0 then int (realityCount + zeropadCount) else .ok realityCount)
  let missing ← (if fieldWidth > realityCount then int (fieldWidth - realityCount) else .ok 0)
  let zeropadCount := if zeropad ∧ fieldWidth > realityCount then missing else zeropadCount
  let spacepadCount := if zeropad then 0 else missing
  let p := ⟨o, 0⟩
  let p := if ¬flags.left then putMany p (byte ' ') spacepadCount.toNat else p
  let p := putAll p sign
  let p := putAll p special
  let p := putMany p (byte '0') zeropadCount.toNat
  let p := putAll p (numberBuf.take bitCount)
  let p := if flags.left then putMany p (byte ' ') spacepadCount.toNat else p
  let n ← int p.n
  pure (p.out, n)

theorem fillNumberBufFills (large : Bool) (base count num : Nat) (numberBuf : List Byte) (fits : count ≤ numberBuf.length) :
    fillNumberBuf large base count num numberBuf = .ok (fillDigits large base count num ++ numberBuf.drop count) := by
  induction count generalizing num numberBuf with
  | zero => rfl
  | succ i ih =>
    have below : i < numberBuf.length := fits
    rw [fillNumberBuf, if_pos below, ih _ _ (by rw [List.length_set]; omega), fillDigits, List.append_assoc]
    have written : (numberBuf.set i (digit large (num % base))).drop i = digit large (num % base) :: numberBuf.drop (i + 1) := by
      rw [List.drop_eq_getElem_cons (by rw [List.length_set]; exact below), List.getElem_set_self, List.drop_set_of_lt (by omega)]
    rw [written]
    rfl

def hexValue (ch : Byte) : Nat :=
  if isDigit ch then (ch - byte '0').toNat
  else if byte 'a' ≤ ch then (ch - byte 'a').toNat + 10
  else (ch - byte 'A').toNat + 10

def valueOf (base : Nat) (digits : List Byte) : Nat := digits.foldl (fun n ch => n * base + hexValue ch) 0

theorem hexValueDigit (large : Bool) (v : Fin 16) : hexValue (digit large v.val) = v.val := by
  revert large v
  decide

theorem valueOfFill (large : Bool) {base : Nat} (two : 2 ≤ base) (most : base ≤ 16) (n : Nat) :
    valueOf base (numeral large base n) = n := by
  induction n using Nat.strong_induction_on with
  | _ n ih =>
    have read : hexValue (digit large (n % base)) = n % base :=
      hexValueDigit large ⟨n % base, by have := Nat.mod_lt n (by omega : base > 0); omega⟩
    by_cases last : n / base = 0
    · have small := (Nat.div_eq_zero_iff.mp last).resolve_left (by omega)
      rw [Nat.mod_eq_of_lt small] at read
      simp [numeralSmall large small, valueOf, read]
    · have positive : 0 < n := Nat.pos_of_ne_zero fun zero => last (by rw [zero, Nat.zero_div])
      have front := ih (n / base) (Nat.div_lt_self positive two)
      rw [numeralStep large two last, valueOf, List.foldl_append, List.foldl_cons, List.foldl_nil, read]
      rw [valueOf] at front
      rw [front]
      exact Nat.div_add_mod' n base

theorem numBitCountMost (n base : Nat) : numBitCount n base ≤ 64 := by
  have most (fuel n : Nat) : numBitCountFrom base fuel n ≤ fuel := by
    induction fuel generalizing n with
    | zero => exact Nat.le_refl 0
    | succ fuel ih =>
      have rest := ih (n / base)
      rw [numBitCountFrom]
      split <;> omega
  exact most 64 n

theorem signTextMost (flags : Flags) (negative : Bool) : (signText flags negative).length ≤ 1 := by
  unfold signText
  split_ifs <;> decide

theorem specialTextMost (flags : Flags) (base : BaseType) : (specialText flags base).length ≤ 2 := by
  cases base with
  | dec => exact Nat.zero_le 2
  | bin | oct | hex =>
    simp only [specialText]
    cases flags.special <;> cases flags.large <;> decide

theorem numberBufRoom (bitCount : Nat) (contents : Nat → Byte) :
    bitCount ≤ ((List.range (numberBufSize bitCount)).map contents).length := by
  rw [List.length_map, List.length_range, numberBufSize]
  split <;> omega

theorem okBind {α β : Type} (a : α) (f : α → Except Fault β) : (Except.ok a >>= f) = f a := rfl

theorem intIf {c : Prop} [Decidable c] {x y : Int} (inside : c → -2 ^ 31 ≤ x ∧ x < 2 ^ 31) :
    (if c then int x else .ok y) = .ok (if c then x else y) := by
  split
  · exact intOk (inside ‹c›).1 (inside ‹c›).2
  · rfl

/- With the width and the precision of a parsed conversion no `int` overflows. -/
theorem vprintfNumberAtRuns (o : Output) (num : BitVec 64) {fieldWidth precision : Int} (width : fieldWidth ≤ formatMaxField)
    (digits : precision ≤ formatMaxField) (flags : Flags) (base : BaseType) (contents : Nat → Byte) :
    vprintfNumberAt o num fieldWidth precision flags base contents =
      .ok (vprintfNumber o num fieldWidth precision flags base true) := by
  have limit : formatMaxField = 1048576 := rfl
  have sign := signTextMost flags (flags.signed && num.msb)
  have special := specialTextMost flags base
  simp only [vprintfNumberAt, vprintfNumber]
  generalize (if (flags.signed && num.msb) = true then -num else num) = value
  generalize signText flags (flags.signed && num.msb) = signs at sign
  generalize specialText flags base = specials at special
  have most := numBitCountMost value.toNat base.value
  have filled := fillNumberBufFills flags.large base.value _ value.toNat _ (numberBufRoom (numBitCount value.toNat base.value) contents)
  have length := fillDigitsLength flags.large base.value (numBitCount value.toNat base.value) value.toNat
  generalize numBitCount value.toNat base.value = bitCount at most filled length
  generalize fillDigits flags.large base.value bitCount value.toNat = written at filled length
  have taken (rest : List Byte) : (written ++ rest).take bitCount = written := by rw [← length, List.take_left]
  have counted : int (signs.length + specials.length + bitCount) = .ok (signs.length + specials.length + bitCount) :=
    intOk (by omega) (by omega)
  simp only [counted, filled, taken, okBind]
  rw [intIf fun more => ⟨by omega, by omega⟩]
  have zerosRange : 0 ≤ (if precision > (bitCount : Int) then precision - bitCount else 0) ∧
      (if precision > (bitCount : Int) then precision - bitCount else 0) ≤ formatMaxField := by
    split <;> omega
  generalize (if precision > (bitCount : Int) then precision - bitCount else 0) = zeros at zerosRange
  rw [okBind, intIf fun more => ⟨by omega, by omega⟩]
  have realityRange : 0 ≤ (if precision ≥ 0 then (signs.length : Int) + specials.length + bitCount + zeros
      else signs.length + specials.length + bitCount) := by
    split <;> omega
  generalize (if precision ≥ 0 then (signs.length : Int) + specials.length + bitCount + zeros
    else signs.length + specials.length + bitCount) = reality at realityRange
  rw [okBind, intIf fun more => ⟨by omega, by omega⟩]
  have missingRange : 0 ≤ (if fieldWidth > reality then fieldWidth - reality else 0) ∧
      (if fieldWidth > reality then fieldWidth - reality else 0) ≤ formatMaxField := by
    split <;> omega
  generalize (if fieldWidth > reality then fieldWidth - reality else 0) = missing at missingRange
  have granted : ¬(bitCount > formatStackCacheSize ∧ ¬True) := by simp
  rw [okBind, if_neg granted]
  have final : ∀ p : Printed, -2 ^ 31 ≤ p.n ∧ p.n < 2 ^ 31 →
      (int p.n >>= fun n => (pure (p.out, n) : Except Fault (Output × Int))) = .ok (p.out, p.n) := fun p inside => by
    rw [intOk inside.1 inside.2]
    rfl
  refine final _ ?_
  have spaces : 0 ≤ (if (flags.zeropad && decide (precision < 0)) = true then 0 else missing) ∧
      (if (flags.zeropad && decide (precision < 0)) = true then 0 else missing) ≤ formatMaxField := by
    split <;> omega
  have fill : 0 ≤ (if (flags.zeropad && decide (precision < 0)) = true ∧ fieldWidth > reality then missing else zeros) ∧
      (if (flags.zeropad && decide (precision < 0)) = true ∧ fieldWidth > reality then missing else zeros) ≤ formatMaxField := by
    split <;> omega
  cases flags.left with
  | true =>
    simp only [putManyEq, putAllEq, not_true_eq_false, if_true, if_false]
    omega
  | false =>
    simp only [putManyEq, putAllEq, Bool.false_eq_true, not_false_eq_true, if_true, if_false]
    omega

def argument (flags : Flags) (num : BitVec 64) : Int := if flags.signed then num.toInt else num.toNat

structure ReadsBack (num : BitVec 64) (fieldWidth precision : Int) (flags : Flags) (base : BaseType) (sign digits : List Byte)
    (spaces zeros : Nat) : Prop where
  prints : Prints (fun o => vprintfNumber o num fieldWidth precision flags base true)
    (padded flags.left spaces (sign ++ specialText flags base ++ List.replicate zeros (byte '0') ++ digits))
  negative : sign = [byte '-'] ↔ argument flags num < 0
  oneSign : sign.length ≤ 1
  nonempty : digits ≠ []
  leading : digits.head? = some (byte '0') → digits = [byte '0']
  inBase : ∀ ch ∈ digits, hexValue ch < base.value
  value : valueOf base.value digits = (argument flags num).natAbs
  padding : (zeros : Int) = if precision ≥ 0 then max 0 (precision - digits.length)
    else if flags.zeropad then max 0 (fieldWidth - (sign.length + (specialText flags base).length + digits.length)) else 0
  emitted : ((padded flags.left spaces (sign ++ specialText flags base ++ List.replicate zeros (byte '0') ++ digits)).length : Int) =
    max fieldWidth (sign.length + (specialText flags base).length + max precision digits.length)
  counted : numBitCount (argument flags num).natAbs base.value = digits.length
  inBuffer : ∀ contents, ∃ numberBuf, fillNumberBuf flags.large base.value digits.length (argument flags num).natAbs
    ((List.range (numberBufSize digits.length)).map contents) = .ok numberBuf ∧ numberBuf.take digits.length = digits

theorem magnitudeArgument (flags : Flags) (num : BitVec 64) :
    (if (flags.signed && num.msb) = true then -num else num).toNat = (argument flags num).natAbs := by
  unfold argument
  cases flags.signed with
  | true => exact magnitudeOf num
  | false => rfl

theorem negativeArgument (flags : Flags) (num : BitVec 64) : (flags.signed && num.msb) = true ↔ argument flags num < 0 := by
  unfold argument
  cases flags.signed with
  | true =>
    rw [Bool.true_and, if_pos rfl, BitVec.msb_eq_toInt]
    exact decide_eq_true_iff
  | false => simp

theorem signTextMinus (flags : Flags) (negative : Bool) : signText flags negative = [byte '-'] ↔ negative = true := by
  unfold signText
  split_ifs with minus plus space
  · simp [minus]
  · simp [minus, show byte '+' ≠ byte '-' by decide]
  · simp [minus, show byte ' ' ≠ byte '-' by decide]
  · simp [minus]

theorem numeralInBase (large : Bool) {base : Nat} (two : 2 ≤ base) (most : base ≤ 16) (n : Nat) :
    ∀ ch ∈ numeral large base n, hexValue ch < base := by
  intro ch member
  unfold numeral at member
  split at member
  · rw [List.mem_singleton.mp member]
    exact Nat.lt_of_lt_of_le (by decide) two
  · obtain ⟨v, inside, rfl⟩ := List.mem_map.mp member
    have range := Nat.digits_lt_base two (List.mem_reverse.mp inside)
    rw [show hexValue (digit large v) = v from hexValueDigit large ⟨v, by omega⟩]
    exact range

theorem paddedLength (left : Bool) (spaces : Nat) (text : List Byte) : (padded left spaces text).length = spaces + text.length := by
  unfold padded
  cases left <;> simp [Nat.add_comm]

/- Every number is printed in the digits of its absolute value, none of them a leading zero,
and on parsed widths and precisions neither the buffer nor an `int` is overrun. -/
theorem numberReadsBack (num : BitVec 64) (fieldWidth precision : Int) (flags : Flags) (base : BaseType) :
    (∃ sign digits spaces zeros, ReadsBack num fieldWidth precision flags base sign digits spaces zeros) ∧
      (fieldWidth ≤ formatMaxField → precision ≤ formatMaxField → ∀ o contents,
        vprintfNumberAt o num fieldWidth precision flags base contents =
          .ok (vprintfNumber o num fieldWidth precision flags base true)) := by
  refine ⟨?_, fun width digits o contents => vprintfNumberAtRuns o num width digits flags base contents⟩
  obtain ⟨two, most⟩ := baseRange base
  have prints := vprintfNumberPrints num fieldWidth precision flags base true
  have small : (argument flags num).natAbs < 2 ^ 64 := magnitudeArgument flags num ▸ BitVec.isLt _
  have count := numBitCountLength flags.large two small
  have nonempty := numeralNonempty flags.large two (argument flags num).natAbs
  have written := fillDigitsNumeral flags.large two (argument flags num).natAbs
  have negative := (signTextMinus flags _).trans (negativeArgument flags num)
  have leading : (numeral flags.large base.value (argument flags num).natAbs).head? = some (byte '0') →
      numeral flags.large base.value (argument flags num).natAbs = [byte '0'] := fun zero => by
    by_cases nothing : (argument flags num).natAbs = 0
    · rw [nothing, numeral, if_pos rfl]
    · exact absurd zero (numeralHead flags.large two most nothing)
  simp only [numberText, magnitudeArgument, count, written] at prints
  have inBase := numeralInBase flags.large two most (argument flags num).natAbs
  have value := valueOfFill flags.large two most (argument flags num).natAbs
  have oneSign := signTextMost flags (flags.signed && num.msb)
  generalize signText flags (flags.signed && num.msb) = sign at prints negative oneSign
  generalize numeral flags.large base.value (argument flags num).natAbs = digits at *
  rw [if_neg (by simp)] at prints
  refine ⟨sign, digits, _, _, prints, negative, oneSign, List.ne_nil_of_length_pos nonempty, leading, inBase, value, ?_, ?_, count,
    fun contents => ?_⟩
  · cases flags.zeropad with
    | false =>
      simp only [max_def, Bool.false_and, Bool.false_eq_true, false_and, if_false]
      split_ifs <;> omega
    | true =>
      simp only [max_def, Bool.true_and, decide_eq_true_eq, if_true]
      split_ifs <;> omega
  · simp only [max_def, paddedLength, List.length_append, List.length_replicate, Nat.cast_add]
    cases flags.zeropad with
    | false =>
      simp only [Bool.false_and, Bool.false_eq_true, false_and, if_false]
      split_ifs <;> omega
    | true =>
      simp only [Bool.true_and, decide_eq_true_eq]
      split_ifs <;> omega
  · refine ⟨_, fillNumberBufFills flags.large base.value _ _ _ (numberBufRoom digits.length contents), ?_⟩
    rw [written, List.take_left]

def leastFlags : Flags := { noFlags with signed := true, zeropad := true }

/- `LLONG_MIN` in a field of 25 characters. -/
theorem leastReadsBack :
    (∃ digits spaces zeros, ReadsBack (BitVec.intMin 64) 25 (-1) leastFlags .dec [byte '-'] digits spaces zeros ∧
      valueOf 10 digits = 2 ^ 63) ∧
      vprintfNumberAt (functionInit (fun _ => 0) 0 16) (BitVec.intMin 64) 25 (-1) leastFlags .dec (fun _ => 0) =
        .ok (vprintfNumber (functionInit (fun _ => 0) 0 16) (BitVec.intMin 64) 25 (-1) leastFlags .dec true) := by
  obtain ⟨⟨sign, digits, spaces, zeros, reads⟩, runs⟩ := numberReadsBack (BitVec.intMin 64) 25 (-1) leastFlags .dec
  refine ⟨?_, runs (by decide) (by decide) _ fun _ => 0⟩
  have least : argument leastFlags (BitVec.intMin 64) = -2 ^ 63 := by
    rw [argument, if_pos (show leastFlags.signed = true from rfl), BitVec.toInt_intMin]
    rfl
  obtain rfl : sign = [byte '-'] := reads.negative.mpr (by rw [least]; decide)
  exact ⟨digits, spaces, zeros, reads, reads.value.trans (by rw [least]; decide)⟩

end Nanosig.Formatio
