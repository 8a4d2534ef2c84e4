import Nanosig.Formatio.Integer

/-! When the text of an integer conversion is the one C99 prescribes, up to the documented
differences: the sign of an unsigned conversion and the prefix of `%#o` beside a precision
are what sets them apart. -/
namespace Nanosig.Formatio

open ByteStore

section Digits

theorem numeralSmall (large : Bool) {base n : Nat} (small : n < base) : numeral large base n = [digit large n] := by
  unfold numeral
  split
  · simp_all [digit]
  · rw [Nat.digits_of_lt base n ‹_› small]
    rfl

theorem numeralStep (large : Bool) {base n : Nat} (two : 2 ≤ base) (more : n / base ≠ 0) :
    numeral large base n = numeral large base (n / base) ++ [digit large (n % base)] := by
  have positive : n ≠ 0 := fun zero => more (by rw [zero, Nat.zero_div])
  rw [numeral, numeral, if_neg positive, if_neg more, Nat.digits_def' two (Nat.pos_of_ne_zero positive), List.reverse_cons,
    List.map_append, List.map_singleton]

theorem numBitCountFromLength (large : Bool) {base : Nat} (two : 2 ≤ base) (fuel n : Nat) (enough : n < 2 ^ (fuel + 1)) :
    numBitCountFrom base (fuel + 1) n = (numeral large base n).length := by
  induction fuel generalizing n with
  | zero =>
    have small : n < base := by omega
    rw [numBitCountFrom, if_pos (Nat.div_eq_of_lt small), numeralSmall large small]
    rfl
  | succ fuel ih =>
    rw [numBitCountFrom]
    by_cases last : n / base = 0
    · rw [if_pos last, numeralSmall large ((Nat.div_eq_zero_iff.mp last).resolve_left (by omega))]
      rfl
    · have half : n / base < 2 ^ (fuel + 1) := by
        have le : n / base ≤ n / 2 := Nat.div_le_div_left two (by omega)
        have pow : 2 ^ (fuel + 1 + 1) = 2 * 2 ^ (fuel + 1) := Nat.pow_succ'
        omega
      rw [if_neg last, ih _ half, numeralStep large two last]
      simp

theorem numBitCountLength (large : Bool) {base n : Nat} (two : 2 ≤ base) (small : n < 2 ^ 64) :
    numBitCount n base = (numeral large base n).length := numBitCountFromLength large two 63 n small

theorem fillDigitsNumeral (large : Bool) {base : Nat} (two : 2 ≤ base) (n : Nat) :
    fillDigits large base (numeral large base n).length n = numeral large base n := by
  induction n using Nat.strong_induction_on with
  | _ n ih =>
    by_cases last : n / base = 0
    · have small := (Nat.div_eq_zero_iff.mp last).resolve_left (by omega)
      rw [numeralSmall large small]
      simp [fillDigits, Nat.mod_eq_of_lt small]
    · have positive : 0 < n := Nat.pos_of_ne_zero fun zero => last (by rw [zero, Nat.zero_div])
      have step := numeralStep large two last
      rw [step, List.length_append, List.length_singleton, fillDigits, ih (n / base) (Nat.div_lt_self positive two)]

theorem numeralNonempty (large : Bool) {base : Nat} (two : 2 ≤ base) (n : Nat) : 0 < (numeral large base n).length := by
  by_cases last : n / base = 0
  · rw [numeralSmall large ((Nat.div_eq_zero_iff.mp last).resolve_left (by omega))]
    exact Nat.one_pos
  · rw [numeralStep large two last]
    simp

theorem digitRange (large : Bool) (v : Fin 16) : digit large v.val ≠ byte ' ' ∧ digit large v.val ≠ byte '+' ∧
    digit large v.val ≠ 0 ∧ (digit large v.val = byte '0' ↔ v = 0) := by
  revert large v
  decide

theorem numeralDigits (large : Bool) {base : Nat} (two : 2 ≤ base) (most : base ≤ 16) (n : Nat) :
    ∀ ch ∈ numeral large base n, ch ≠ byte ' ' ∧ ch ≠ byte '+' ∧ ch ≠ 0 := by
  intro ch member
  unfold numeral at member
  split at member
  · rw [List.mem_singleton.mp member]
    decide
  · obtain ⟨v, inside, rfl⟩ := List.mem_map.mp member
    have range := Nat.digits_lt_base two (List.mem_reverse.mp inside)
    obtain ⟨space, plus, nul, -⟩ := digitRange large ⟨v, by omega⟩
    exact ⟨space, plus, nul⟩

theorem numeralHead (large : Bool) {base n : Nat} (two : 2 ≤ base) (most : base ≤ 16) (positive : n ≠ 0) :
    (numeral large base n).head? ≠ some (byte '0') := by
  have digits : Nat.digits base n ≠ [] := Nat.digits_ne_nil_iff_ne_zero.mpr positive
  have last := Nat.getLast_digit_ne_zero base positive
  have range := Nat.digits_lt_base two (List.getLast_mem digits)
  rw [numeral, if_neg positive, List.head?_map, List.head?_reverse, List.getLast?_eq_some_getLast digits, Option.map_some]
  intro same
  have zero := (digitRange large ⟨_, by omega⟩).2.2.2.mp (Option.some.inj same)
  exact last (congrArg Fin.val zero)

end Digits

section Layout

theorem fillDigitsLength (large : Bool) (base count number : Nat) : (fillDigits large base count number).length = count := by
  induction count generalizing number with
  | zero => rfl
  | succ count ih => rw [fillDigits, List.length_append, ih, List.length_singleton]

theorem numberTextLayout (num : BitVec 64) (fieldWidth precision : Int) (flags : Flags) (base : BaseType)
    (exclusive : flags.left = true → flags.zeropad = false) :
    let negative := flags.signed && num.msb
    let magnitude := (if negative then -num else num).toNat
    let bitCount := numBitCount magnitude base.value
    numberText num fieldWidth precision flags base true =
      layout flags.left (flags.zeropad && decide (precision < 0)) fieldWidth.toNat (signText flags negative)
        (specialText flags base)
        (List.replicate (precision - bitCount).toNat (byte '0') ++ fillDigits flags.large base.value bitCount magnitude) := by
  simp only [numberText, layout]
  generalize signText flags (flags.signed && num.msb) = sign
  generalize specialText flags base = special
  generalize (if (flags.signed && num.msb) = true then -num else num).toNat = magnitude
  generalize counted : numBitCount magnitude base.value = bitCount
  have digits := fillDigitsLength flags.large base.value bitCount magnitude
  generalize fillDigits flags.large base.value bitCount magnitude = numberBuf at digits
  rw [if_neg (by simp)]
  have pad : (if precision > (bitCount : Int) then precision - bitCount else 0) = ((precision - bitCount).toNat : Int) := by
    split <;> omega
  have reality : (if precision ≥ 0 then (sign.length : Int) + special.length + bitCount + ((precision - bitCount).toNat : Int)
      else sign.length + special.length + bitCount) =
      ((sign.length + special.length + (List.replicate (precision - bitCount).toNat (byte '0') ++ numberBuf).length : Nat) : Int) := by
    rw [List.length_append, List.length_replicate, digits]
    split <;> omega
  rw [pad, reality]
  generalize (sign.length + special.length + (List.replicate (precision - bitCount).toNat (byte '0') ++ numberBuf).length : Nat) = count
  have missing : (if fieldWidth > (count : Int) then fieldWidth - count else 0).toNat = fieldWidth.toNat - count := by
    split <;> omega
  by_cases zero : (flags.zeropad && decide (precision < 0)) = true
  · obtain ⟨zeropad, negative⟩ := by simpa using zero
    have right : flags.left = false := by
      cases side : flags.left
      · rfl
      · rw [exclusive side] at zeropad
        contradiction
    have fill : (if (flags.zeropad && decide (precision < 0)) = true ∧ fieldWidth > (count : Int) then
        if fieldWidth > (count : Int) then fieldWidth - count else 0 else ((precision - bitCount).toNat : Int)).toNat =
        fieldWidth.toNat - count := by
      simp only [zero, true_and]
      split <;> omega
    rw [fill, right]
    simp [padded, zeropad, negative, show (precision - bitCount).toNat = 0 by omega]
  · have fill : (if (flags.zeropad && decide (precision < 0)) = true ∧ fieldWidth > (count : Int) then
        if fieldWidth > (count : Int) then fieldWidth - count else 0 else ((precision - bitCount).toNat : Int)).toNat =
        (precision - bitCount).toNat := by
      rw [if_neg (fun both => zero both.1), Int.toNat_natCast]
    rw [fill]
    simp only [zero, missing, padded, Bool.false_eq_true, if_false]
    cases flags.left <;> simp

theorem layoutMember {left zero : Bool} {width : Nat} {sign start digits : List Byte} {ch : Byte}
    (member : ch ∈ layout left zero width sign start digits) :
    ch ∈ sign ∨ ch ∈ start ∨ ch ∈ digits ∨ ch = byte ' ' ∨ ch = byte '0' := by
  have fill (c : Byte) (n : Nat) (inside : ch ∈ List.replicate n c) : ch = c := List.eq_of_mem_replicate inside
  unfold layout at member
  cases left <;> cases zero <;> simp only [Bool.false_eq_true, if_false, if_true, List.mem_append] at member <;> grind

theorem layoutSign {left zero : Bool} {width : Nat} {sign start digits : List Byte} {ch : Byte} (member : ch ∈ sign) :
    ch ∈ layout left zero width sign start digits := by
  unfold layout
  cases left <;> cases zero <;> simp [member]

theorem plusDiffers {left zero : Bool} {width : Nat} {first second digits : List Byte} (start : byte '+' ∉ second)
    (plain : byte '+' ∉ digits) :
    layout left zero width [byte '+'] first digits ≠ layout left zero width [] second digits := by
  intro same
  have member : byte '+' ∈ layout left zero width [] second digits := same ▸ layoutSign (List.mem_singleton.mpr rfl)
  rcases layoutMember member with sign | first | number | blank | zero
  · simp at sign
  · exact start first
  · exact plain number
  · exact absurd blank (by decide)
  · exact absurd zero (by decide)

theorem layoutZeros (left : Bool) (width : Nat) (sign start digits : List Byte) :
    (layout left false width sign start digits).count (byte '0') =
      sign.count (byte '0') + start.count (byte '0') + digits.count (byte '0') := by
  have blanks (n : Nat) : (List.replicate n (byte ' ')).count (byte '0') = 0 :=
    List.count_eq_zero.mpr fun member => absurd (List.eq_of_mem_replicate member) (by decide)
  unfold layout
  cases left <;> simp [List.count_append, blanks, Nat.add_assoc]

theorem spaceSame {left zero : Bool} {width : Nat} {start digits : List Byte} (first : byte ' ' ∉ start)
    (plain : byte ' ' ∉ digits) (nonempty : 0 < digits.length) :
    layout left zero width [byte ' '] start digits = layout left zero width [] start digits ↔
      left = false ∧ zero = false ∧ start.length + digits.length < width := by
  have head : ∃ ch rest, start ++ digits = ch :: rest ∧ ch ≠ byte ' ' := by
    cases start with
    | nil =>
      obtain ⟨ch, rest, split⟩ := List.exists_cons_of_length_pos nonempty
      exact ⟨ch, rest, split, fun blank => plain (by rw [split, blank]; exact List.mem_cons_self)⟩
    | cons ch rest => exact ⟨ch, rest ++ digits, rfl, fun blank => first (by rw [blank]; exact List.mem_cons_self)⟩
  obtain ⟨ch, rest, split, ink⟩ := head
  unfold layout
  cases left with
  | true =>
    refine iff_of_false (fun same => ?_) (by simp)
    simp only [if_true, List.nil_append, List.append_assoc, List.singleton_append] at same
    rw [← List.append_assoc start digits, split] at same
    have heads := congrArg List.head? same
    simp only [List.cons_append, List.head?_cons, Option.some.injEq] at heads
    exact ink heads.symm
  | false =>
    cases zero with
    | true =>
      refine iff_of_false (fun same => ?_) (by simp)
      have member : byte ' ' ∈ start ++ List.replicate (width - (0 + start.length + digits.length)) (byte '0') ++ digits := by
        simp only [Bool.false_eq_true, if_false, if_true, List.length_nil, List.nil_append] at same
        rw [← same]
        simp
      rcases List.mem_append.mp member with front | number
      · rcases List.mem_append.mp front with begin_ | fill
        · exact first begin_
        · exact absurd (List.eq_of_mem_replicate fill) (by decide)
      · exact plain number
    | false =>
      simp only [Bool.false_eq_true, if_false, true_and, List.length_singleton, List.length_nil, Nat.zero_add, List.append_nil]
      by_cases room : start.length + digits.length < width
      · refine iff_of_true ?_ room
        rw [show width - (start.length + digits.length) = width - (1 + start.length + digits.length) + 1 by omega,
          List.replicate_succ']
      · refine iff_of_false (fun same => ?_) room
        have lengths := congrArg List.length same
        simp only [List.length_append, List.length_replicate, List.length_singleton] at lengths
        omega

end Layout

section Arguments

variable (abi : Abi)

theorem bitsLe (qualifier : Qualifier) : argumentBits abi qualifier ≤ 64 := by
  cases qualifier <;> cases abi <;> decide

theorem numberArgEq (qualifier : Qualifier) (signed : Bool) (arg : Arg) :
    numberArg abi qualifier signed arg =
      if signed then (arg.word.truncate (argumentBits abi qualifier)).signExtend 64
      else (arg.word.truncate (argumentBits abi qualifier)).zeroExtend 64 := by
  cases qualifier <;> rfl

theorem magnitudeOf (num : BitVec 64) : (if num.msb then -num else num).toNat = num.toInt.natAbs := by
  have range := num.isLt
  rw [BitVec.toInt_eq_msb_cond]
  have large := BitVec.msb_eq_decide num
  cases top : num.msb
  · simp
  · have half : 2 ^ 63 ≤ num.toNat := by
      rw [top] at large
      simpa using large.symm
    simp only [if_true, BitVec.toNat_neg]
    omega

/- What `vprintf_number` makes of the argument: the magnitude and the sign of its value. -/
theorem argumentParts (qualifier : Qualifier) (signed : Bool) (arg : Arg) :
    let num := numberArg abi qualifier signed arg
    let value := argumentValue abi qualifier signed arg
    (if signed && num.msb then -num else num).toNat = value.natAbs ∧ (signed && num.msb) = decide (value < 0) := by
  have bits := bitsLe abi qualifier
  simp only [numberArgEq, argumentValue]
  cases signed with
  | true =>
    have kept : ((arg.word.truncate (argumentBits abi qualifier)).signExtend 64).toInt =
        (arg.word.truncate (argumentBits abi qualifier)).toInt := BitVec.toInt_signExtend_of_le bits
    simp only [if_true, Bool.true_and]
    rw [← kept]
    exact ⟨magnitudeOf _, BitVec.msb_eq_toInt⟩
  | false =>
    simp only [Bool.false_and, Bool.false_eq_true, if_false]
    refine ⟨?_, ?_⟩
    · rw [Int.natAbs_natCast]
      exact BitVec.toNat_setWidth_of_le bits
    · exact (decide_eq_false (by omega)).symm

end Arguments

section Directives

variable (abi : Abi) (args : VaList) (d : IntegerDirective)

def prescribedDigits : List Byte :=
  digitBytes true d.conversion.large d.conversion.base.value (usedPrecision true (d.givenPrecision args)) (d.value abi args).natAbs

def prescribedPrefix : List Byte :=
  prefixBytes true (.hash ∈ d.flags) d.conversion (d.value abi args).natAbs (prescribedDigits abi args d)

/- `%#o` of a value other than zero, with a precision above the number of its digits. -/
def LongOctal : Prop :=
  d.conversion = .o ∧ .hash ∈ d.flags ∧ d.value abi args ≠ 0 ∧
    ∃ p, usedPrecision true (d.givenPrecision args) = some p ∧ (numeral false 8 (d.value abi args).natAbs).length < p

/- An unsigned conversion has no `+`, and a ` ` only where padding on the left hides it. -/
def PrintsAsC99 : Prop :=
  (d.conversion.signed = false → .plus ∉ d.flags ∧
    (.space ∈ d.flags → d.left args = false ∧ ¬(.zero ∈ d.flags ∧ d.precision = .none) ∧
      (prescribedPrefix abi args d).length + (prescribedDigits abi args d).length < cappedField true (d.givenWidth args))) ∧
  ¬LongOctal abi args d

theorem baseRange (base : BaseType) : 2 ≤ base.value ∧ base.value ≤ 16 := by cases base <;> decide

theorem parsedWidthNat : (parsedWidth d args).toNat = cappedField true (d.givenWidth args) := by
  unfold parsedWidth
  split
  · rename_i none
    simp [IntegerDirective.givenWidth, none, cappedField]
  · exact Int.toNat_natCast _

theorem noPrecision : usedPrecision true (d.givenPrecision args) = none ↔ d.precision = .none := by
  unfold IntegerDirective.givenPrecision
  cases d.precision with
  | none => simp [usedPrecision]
  | literal digits =>
    have counted : ¬(decimalValue digits : Int) < 0 := by omega
    simp [usedPrecision, counted]
  | star => by_cases negative : (d.precisionArgs args 0).int < 0 <;> simp [usedPrecision, negative]

theorem parsedPrecisionNegative : decide (parsedPrecision d args < 0) = decide (usedPrecision true (d.givenPrecision args) = none) := by
  unfold parsedPrecision
  cases usedPrecision true (d.givenPrecision args) with
  | none => rfl
  | some p => simp

theorem parsedPrecisionZeros {count : Nat} (some_digit : 0 < count) :
    (parsedPrecision d args - count).toNat = (usedPrecision true (d.givenPrecision args)).getD 1 - count := by
  unfold parsedPrecision
  cases usedPrecision true (d.givenPrecision args) with
  | none =>
    simp only [Option.getD_none]
    omega
  | some p =>
    simp only [Option.getD_some]
    omega

theorem directiveLayout :
    directiveText abi d args =
      layout (d.left args) (.zero ∈ d.flags ∧ usedPrecision true (d.givenPrecision args) = none)
        (cappedField true (d.givenWidth args)) (signBytes true (.plus ∈ d.flags) (.space ∈ d.flags) (d.value abi args < 0))
        (specialText (numberFlags d args) d.conversion.base) (prescribedDigits abi args d) := by
  obtain ⟨two, most⟩ := baseRange d.conversion.base
  obtain ⟨magnitude, negative⟩ := argumentParts abi d.qualifier d.conversion.signed (d.valueArgs args 0)
  have exclusive : (numberFlags d args).left = true → (numberFlags d args).zeropad = false := by
    intro left
    have same : d.left args = true := left
    simp [numberFlags, parsedFlags, same]
  have text := numberTextLayout (numberArg abi d.qualifier d.conversion.signed (d.valueArgs args 0)) (parsedWidth d args)
    (parsedPrecision d args) (numberFlags d args) d.conversion.base exclusive
  simp only [show (numberFlags d args).signed = d.conversion.signed from rfl] at text
  rw [magnitude, negative] at text
  have small : (d.value abi args).natAbs < 2 ^ 64 := by
    rw [IntegerDirective.value, ← magnitude]
    exact BitVec.isLt _
  have sign : signText (numberFlags d args) (d.value abi args < 0) =
      signBytes true (.plus ∈ d.flags) (.space ∈ d.flags) (d.value abi args < 0) := by
    simp [signText, signBytes, numberFlags, parsedFlags]
  have zero : ((numberFlags d args).zeropad && decide (parsedPrecision d args < 0)) =
      (decide (.zero ∈ d.flags ∧ usedPrecision true (d.givenPrecision args) = none) && !d.left args) := by
    rw [parsedPrecisionNegative]
    simp only [numberFlags, parsedFlags, Bool.decide_and]
    cases d.left args <;> simp
  have pad (zero : Bool) (width : Nat) (sign start digits : List Byte) :
      layout (d.left args) (zero && !d.left args) width sign start digits = layout (d.left args) zero width sign start digits := by
    unfold layout
    cases d.left args <;> simp
  have digits : List.replicate (parsedPrecision d args - numBitCount (d.value abi args).natAbs d.conversion.base.value).toNat (byte '0') ++
      fillDigits d.conversion.large d.conversion.base.value (numBitCount (d.value abi args).natAbs d.conversion.base.value)
        (d.value abi args).natAbs = prescribedDigits abi args d := by
    rw [numBitCountLength d.conversion.large two small, fillDigitsNumeral d.conversion.large two,
      parsedPrecisionZeros args d (numeralNonempty _ two _), prescribedDigits, digitBytes, if_neg (by simp)]
  unfold directiveText
  rw [text, parsedWidthNat]
  refine Eq.trans ?_ (pad _ _ _ _ _)
  rw [← zero, ← digits, ← sign]
  rfl

theorem prescribedLayout :
    c99Text true abi args d =
      layout (d.left args) (.zero ∈ d.flags ∧ usedPrecision true (d.givenPrecision args) = none)
        (cappedField true (d.givenWidth args))
        (signBytes d.conversion.signed (.plus ∈ d.flags) (.space ∈ d.flags) (d.value abi args < 0))
        (prescribedPrefix abi args d) (prescribedDigits abi args d) := rfl

theorem prescribedInk : ∀ ch ∈ prescribedDigits abi args d, ch ≠ byte ' ' ∧ ch ≠ byte '+' ∧ ch ≠ 0 := by
  obtain ⟨two, most⟩ := baseRange d.conversion.base
  intro ch member
  unfold prescribedDigits digitBytes at member
  rw [if_neg (by simp)] at member
  rcases List.mem_append.mp member with fill | number
  · rw [List.eq_of_mem_replicate fill]
    decide
  · exact numeralDigits _ two most _ ch number

theorem prescribedNonempty : 0 < (prescribedDigits abi args d).length := by
  unfold prescribedDigits digitBytes
  rw [if_neg (by simp), List.length_append]
  exact Nat.add_pos_right _ (numeralNonempty _ (baseRange _).1 _)

theorem octalDigits (octal : d.conversion = .o) :
    prescribedDigits abi args d =
      List.replicate ((usedPrecision true (d.givenPrecision args)).getD 1 - (numeral false 8 (d.value abi args).natAbs).length)
        (byte '0') ++ numeral false 8 (d.value abi args).natAbs := by
  have large : d.conversion.large = false := by rw [octal]; rfl
  have base : d.conversion.base.value = 8 := by rw [octal]; rfl
  rw [prescribedDigits, digitBytes, if_neg (by simp), large, base]

theorem prefixSame (short : ¬LongOctal abi args d) :
    specialText (numberFlags d args) d.conversion.base = prescribedPrefix abi args d := by
  have special : (numberFlags d args).special = decide (.hash ∈ d.flags) := rfl
  have large : (numberFlags d args).large = d.conversion.large := rfl
  unfold prescribedPrefix prefixBytes
  by_cases hash : .hash ∈ d.flags
  · cases letter : d.conversion with
    | o =>
      simp only [IntegerConversion.base, specialText, special, hash, decide_true, if_true]
      by_cases zero : d.value abi args = 0
      · simp [zero]
      · have none : (usedPrecision true (d.givenPrecision args)).getD 1 -
            (numeral false 8 (d.value abi args).natAbs).length = 0 := by
          have some_digit := numeralNonempty false (by decide : 2 ≤ 8) (d.value abi args).natAbs
          cases used : usedPrecision true (d.givenPrecision args) with
          | none => exact Nat.sub_eq_zero_of_le some_digit
          | some p =>
            have bound : ¬(numeral false 8 (d.value abi args).natAbs).length < p :=
              fun long => short ⟨letter, hash, zero, p, used, long⟩
            exact Nat.sub_eq_zero_of_le (not_lt.mp bound)
        have head : (prescribedDigits abi args d).head? ≠ some (byte '0') := by
          rw [octalDigits abi args d letter, none]
          exact numeralHead false (by decide) (by decide) (Int.natAbs_ne_zero.mpr zero)
        rw [if_pos (.inl head)]
    | x => simp [IntegerConversion.base, specialText, special, hash, large, letter, IntegerConversion.large]
    | X => simp [IntegerConversion.base, specialText, special, hash, large, letter, IntegerConversion.large]
    | d => simp [IntegerConversion.base, specialText]
    | i => simp [IntegerConversion.base, specialText]
    | u => simp [IntegerConversion.base, specialText]
  · cases d.conversion <;> simp [IntegerConversion.base, specialText, special, hash]

theorem prefixExtra (long : LongOctal abi args d) :
    specialText (numberFlags d args) d.conversion.base = [byte '0'] ∧ prescribedPrefix abi args d = [] := by
  obtain ⟨letter, hash, nonzero, p, used, longer⟩ := long
  have special : (numberFlags d args).special = decide (.hash ∈ d.flags) := rfl
  refine ⟨by simp [letter, IntegerConversion.base, specialText, special, hash], ?_⟩
  have head : (prescribedDigits abi args d).head? = some (byte '0') := by
    rw [octalDigits abi args d letter, used, Option.getD_some, ← Nat.succ_pred_eq_of_pos (Nat.sub_pos_of_lt longer)]
    rfl
  simp [prescribedPrefix, prefixBytes, letter, head, nonzero]

theorem prefixInk : ∀ ch ∈ prescribedPrefix abi args d, ch ≠ byte ' ' ∧ ch ≠ byte '+' := by
  have known (alternate : Bool) (conversion : IntegerConversion) (n : Nat) (digits : List Byte) :
      prefixBytes true alternate conversion n digits ∈ [[], [byte '0'], [byte '0', byte 'x'], [byte '0', byte 'X']] := by
    unfold prefixBytes
    cases alternate with
    | false => simp
    | true =>
      cases conversion with
      | o =>
        have either (p : Prop) [Decidable p] : (if p then [byte '0'] else []) ∈
            [[], [byte '0'], [byte '0', byte 'x'], [byte '0', byte 'X']] := by
          split <;> simp
        exact either _
      | d | i | u | x | X => simp
  have apart : ∀ text ∈ [[], [byte '0'], [byte '0', byte 'x'], [byte '0', byte 'X']],
      ∀ ch ∈ text, ch ≠ byte ' ' ∧ ch ≠ byte '+' := by decide +kernel
  exact apart _ (known _ _ _ _)

/- An unsigned value has no `-`; what `vprintf_number` puts before it comes from the flags. -/
theorem unsignedSign (unsigned : d.conversion.signed = false) : ¬d.value abi args < 0 := by
  have natural : d.value abi args =
      (((d.valueArgs args 0).word.truncate (argumentBits abi d.qualifier) : BitVec _).toNat : Int) := by
    simp only [IntegerDirective.value, argumentValue, unsigned, Bool.false_eq_true, if_false]
  omega

theorem longOctalDiffers (long : LongOctal abi args d) : directiveText abi d args ≠ c99Text true abi args d := by
  obtain ⟨extra, none⟩ := prefixExtra abi args d long
  have unsigned : d.conversion.signed = false := by rw [long.1]; rfl
  obtain ⟨p, used, -⟩ := long.2.2.2
  have signs (signed plus space negative : Bool) : (signBytes signed plus space negative).count (byte '0') = 0 := by
    cases signed <;> cases plus <;> cases space <;> cases negative <;> decide
  have given : decide (.zero ∈ d.flags ∧ usedPrecision true (d.givenPrecision args) = Option.none) = false := by
    simp [used]
  intro same
  rw [directiveLayout, prescribedLayout, extra, none, given] at same
  have counts := congrArg (List.count (byte '0')) same
  rw [layoutZeros, layoutZeros, signs, signs, List.count_nil] at counts
  simp only [List.count_singleton_self] at counts
  omega

theorem directiveSame : directiveText abi d args = c99Text true abi args d ↔ PrintsAsC99 abi args d := by
  by_cases long : LongOctal abi args d
  · exact iff_of_false (longOctalDiffers abi args d long) fun prints => prints.2 long
  have ink := prescribedInk abi args d
  have front := prefixInk abi args d
  rw [directiveLayout, prescribedLayout, prefixSame abi args d long]
  cases signed : d.conversion.signed with
  | true => exact iff_of_true rfl ⟨fun unsigned => by rw [signed] at unsigned; contradiction, long⟩
  | false =>
    have positive := decide_eq_false (unsignedSign abi args d signed)
    have none : signBytes false (.plus ∈ d.flags) (.space ∈ d.flags) (d.value abi args < 0) = [] := by simp [signBytes, positive]
    rw [none]
    by_cases plus : .plus ∈ d.flags
    · have sign : signBytes true (.plus ∈ d.flags) (.space ∈ d.flags) (d.value abi args < 0) = [byte '+'] := by
        simp [signBytes, positive, plus]
      rw [sign]
      refine iff_of_false (plusDiffers (fun member => (front _ member).2 rfl) fun member => (ink _ member).2.1 rfl) ?_
      exact fun prints => (prints.1 signed).1 plus
    by_cases space : .space ∈ d.flags
    · have sign : signBytes true (.plus ∈ d.flags) (.space ∈ d.flags) (d.value abi args < 0) = [byte ' '] := by
        simp [signBytes, positive, plus, space]
      rw [sign, spaceSame (fun member => (front _ member).1 rfl) (fun member => (ink _ member).1 rfl) (prescribedNonempty abi args d),
        decide_eq_false_iff_not, noPrecision]
      exact ⟨fun hidden => ⟨fun _ => ⟨plus, fun _ => hidden⟩, long⟩, fun prints => (prints.1 signed).2 space⟩
    · have sign : signBytes true (.plus ∈ d.flags) (.space ∈ d.flags) (d.value abi args < 0) = [] := by
        simp [signBytes, positive, plus, space]
      rw [sign]
      exact iff_of_true rfl ⟨fun _ => ⟨plus, fun marked => absurd marked space⟩, long⟩

/- `ns_snprintf` of one integer directive with room for its text, for every memory and buffer. -/
theorem integerConversions :
    let text := passed abi d.format args (fun _ _ => true)
    (∀ memory buf size, text.length < size →
      (vsnprintf abi memory buf size d.format args (fun _ _ => true)).1 = write memory buf (text ++ [0])) ∧
    (text = c99Text true abi args d ↔ PrintsAsC99 abi args d) ∧
    (¬DocumentedDifference abi args d → c99Text true abi args d = c99Text false abi args d) := by
  refine ⟨fun memory buf size enough => ?_, ?_, documentedOnly⟩
  · have law := (truncationLaw abi memory memory buf buf size d.format args (fun _ _ => true)).2.1
    rw [law, (passedPrinted abi d.format args (fun _ _ => true)).1, if_neg (by omega), Nat.min_eq_left (by omega), List.take_length]
  · rw [directivePassed]
    exact directiveSame abi args d

end Directives

/- `"%+u"` of 5 prints `+5`, `"%#.3o"` of 8 prints `0010`. -/
theorem signOnUnsigned :
    passed .lp64 (IntegerDirective.format ⟨[.plus], .none, .none, .none, .u⟩) (fun _ => ⟨5, none, fun _ => 0, 0⟩) (fun _ _ => true) =
      "+5".toList.map byte ∧
    c99Text true .lp64 (fun _ => ⟨5, none, fun _ => 0, 0⟩) ⟨[.plus], .none, .none, .none, .u⟩ = "5".toList.map byte ∧
    passed .lp64 (IntegerDirective.format ⟨[.hash], .none, .literal [3], .none, .o⟩) (fun _ => ⟨8, none, fun _ => 0, 0⟩)
      (fun _ _ => true) = "0010".toList.map byte ∧
    c99Text true .lp64 (fun _ => ⟨8, none, fun _ => 0, 0⟩) ⟨[.hash], .none, .literal [3], .none, .o⟩ = "010".toList.map byte := by
  decide +kernel

end Nanosig.Formatio
