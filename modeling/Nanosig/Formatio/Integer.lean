import Nanosig.Formatio.C99
import Nanosig.Formatio.Count

/-! The integer conversions against C99: how a written directive is parsed, the layout of
`vprintf_number`, and when its text is the prescribed one. -/
namespace Nanosig.Formatio

open ByteStore

section Written

def FlagChar.byte : FlagChar → Byte
  | .minus => Formatio.byte '-'
  | .plus => Formatio.byte '+'
  | .space => Formatio.byte ' '
  | .hash => Formatio.byte '#'
  | .zero => Formatio.byte '0'

def decimalDigits (digits : List (Fin 10)) : List Byte := digits.map fun d => byte '0' + d.val.toUInt8

def Width.bytes : Width → List Byte
  | .none => []
  | .literal first rest => decimalDigits (first.succ :: rest)
  | .star => [byte '*']

def Precision.bytes : Precision → List Byte
  | .none => []
  | .literal digits => byte '.' :: decimalDigits digits
  | .star => [byte '.', byte '*']

def Qualifier.bytes : Qualifier → List Byte
  | .none => []
  | .long => [byte 'l']
  | .longLong => [byte 'l', byte 'l']
  | .short => [byte 'h']
  | .char => [byte 'h', byte 'h']
  | .sizeT => [byte 'z']

def IntegerConversion.byte : IntegerConversion → Byte
  | .d => Formatio.byte 'd'
  | .i => Formatio.byte 'i'
  | .u => Formatio.byte 'u'
  | .o => Formatio.byte 'o'
  | .x => Formatio.byte 'x'
  | .X => Formatio.byte 'X'

def IntegerDirective.bytes (d : IntegerDirective) : List Byte :=
  d.flags.map FlagChar.byte ++ (d.width.bytes ++ (d.precision.bytes ++ (d.qualifier.bytes ++ [d.conversion.byte])))

def IntegerDirective.format (d : IntegerDirective) : List Byte := byte '%' :: d.bytes

end Written

section Parsed

variable (d : IntegerDirective) (args : VaList)

/- What no parser loop but the last takes: the length modifiers and the conversions. -/
def endings : List Byte := "hlzdiuoxX".toList.map byte

theorem endingsStop (ch : Byte) (ending : ch ∈ endings) :
    isDigit ch = false ∧ ch ≠ byte '*' ∧ ch ≠ byte '.' ∧ (∀ c : FlagChar, ch ≠ c.byte) := by
  have all : ∀ ch ∈ endings, isDigit ch = false ∧ ch ≠ byte '*' ∧ ch ≠ byte '.' ∧
      ∀ c ∈ [FlagChar.minus, .plus, .space, .hash, .zero], ch ≠ c.byte := by decide +kernel
  obtain ⟨digit, star, dot, flags⟩ := all ch ending
  exact ⟨digit, star, dot, fun c => flags c (by cases c <;> decide)⟩

theorem digitByte (digit : Fin 10) :
    isDigit (byte '0' + digit.val.toUInt8) = true ∧ (byte '0' + digit.val.toUInt8 - byte '0').toNat = digit.val := by
  revert digit
  decide

theorem endingPeek (qualifier : Qualifier) (conversion : IntegerConversion) :
    peek (qualifier.bytes ++ [conversion.byte]) ∈ endings := by
  cases qualifier <;> cases conversion <;> decide

theorem qualifierParsed (qualifier : Qualifier) (conversion : IntegerConversion) :
    parseQualifier (qualifier.bytes ++ [conversion.byte]) = (qualifier, [conversion.byte]) := by
  cases qualifier <;> cases conversion <;> rfl

theorem foldDigitsGrows (digits : List (Fin 10)) (n : Nat) : n ≤ digits.foldl (fun n d => n * 10 + d.val) n := by
  induction digits generalizing n with
  | nil => exact le_rfl
  | cons digit digits ih => exact le_trans (by omega) (ih (n * 10 + digit.val))

theorem skipAtoiReads (digits : List (Fin 10)) (rest : List Byte) (n : Nat) (stop : isDigit (peek rest) = false)
    (small : n ≤ fieldMax) :
    skipAtoi (n : Int) (decimalDigits digits ++ rest) =
      (((min (digits.foldl (fun n d => n * 10 + d.val) n) fieldMax : Nat) : Int), rest) := by
  induction digits generalizing n with
  | nil =>
    have same : min n fieldMax = n := Nat.min_eq_left small
    cases rest with
    | nil => simp [decimalDigits, skipAtoi, same]
    | cons ch rest =>
      have other : isDigit ch = false := stop
      simp [decimalDigits, skipAtoi, same, other]
  | cons digit digits ih =>
    obtain ⟨isDigit, value⟩ := digitByte digit
    have read : (if (n : Int) * 10 + ((byte '0' + digit.val.toUInt8 - byte '0').toNat : Int) > formatMaxField then formatMaxField
        else (n : Int) * 10 + ((byte '0' + digit.val.toUInt8 - byte '0').toNat : Int)) =
        ((min (n * 10 + digit.val) fieldMax : Nat) : Int) := by
      rw [value, formatMaxField, fieldMax]
      push_cast
      split <;> omega
    have step : skipAtoi (n : Int) (decimalDigits (digit :: digits) ++ rest) =
        skipAtoi ((min (n * 10 + digit.val) fieldMax : Nat) : Int) (decimalDigits digits ++ rest) := by
      rw [← read]
      simp only [decimalDigits, List.map_cons, List.cons_append, skipAtoi, isDigit, if_true]
    rw [step, ih _ (Nat.min_le_right _ _), List.foldl_cons]
    rcases Nat.le_total (n * 10 + digit.val) fieldMax with below | above
    · rw [Nat.min_eq_left below]
    · rw [Nat.min_eq_right above]
      have first := foldDigitsGrows digits fieldMax
      have second := foldDigitsGrows digits (n * 10 + digit.val)
      rw [Nat.min_eq_right first, Nat.min_eq_right (above.trans second)]

def Flags.with (flags : Flags) (chars : List FlagChar) : Flags :=
  { flags with
    left := flags.left || decide (.minus ∈ chars)
    plus := flags.plus || decide (.plus ∈ chars)
    space := flags.space || decide (.space ∈ chars)
    special := flags.special || decide (.hash ∈ chars)
    zeropad := flags.zeropad || decide (.zero ∈ chars) }

theorem flagsParsed (flags : Flags) (chars : List FlagChar) (rest : List Byte) (stop : ∀ c : FlagChar, peek rest ≠ c.byte) :
    parseFlags flags (chars.map FlagChar.byte ++ rest) = (flags.with chars, rest) := by
  induction chars generalizing flags with
  | nil =>
    have same : flags.with [] = flags := by simp [Flags.with]
    cases rest with
    | nil => simp [parseFlags, same]
    | cons ch rest =>
      have minus : ch ≠ byte '-' := stop .minus
      have plus : ch ≠ byte '+' := stop .plus
      have space : ch ≠ byte ' ' := stop .space
      have hash : ch ≠ byte '#' := stop .hash
      have zero : ch ≠ byte '0' := stop .zero
      simp [parseFlags, same, minus, plus, space, hash, zero]
  | cons char chars ih =>
    have apart : byte '+' ≠ byte '-' ∧ byte ' ' ≠ byte '-' ∧ byte ' ' ≠ byte '+' ∧ byte '#' ≠ byte '-' ∧ byte '#' ≠ byte '+' ∧
        byte '#' ≠ byte ' ' ∧ byte '0' ≠ byte '-' ∧ byte '0' ≠ byte '+' ∧ byte '0' ≠ byte ' ' ∧ byte '0' ≠ byte '#' := by
      decide
    cases char <;> simp [parseFlags, FlagChar.byte, apart, ih, Flags.with]

theorem starWidthCapped (width : Int) :
    starWidth width = (((min width.natAbs fieldMax : Nat) : Int), decide (width < 0)) := by
  have cap : formatMaxField = 1048576 := rfl
  have max : fieldMax = 1048576 := rfl
  unfold starWidth
  simp only [cap, max, decide_eq_true_eq, Prod.mk.injEq, and_true]
  by_cases negative : width < 0
  · rw [if_pos negative]
    by_cases least : width = -2 ^ 31
    · rw [if_pos least, least]
      rfl
    · rw [if_neg least]
      split <;> omega
  · rw [if_neg negative]
    split <;> omega

theorem clampPrecisionCapped (precision : Int) :
    clampPrecision precision = ((min precision.toNat fieldMax : Nat) : Int) := by
  have cap : formatMaxField = 1048576 := rfl
  have max : fieldMax = 1048576 := rfl
  unfold clampPrecision
  rw [cap, max]
  split
  · omega
  · split <;> omega

/- The width `vprintf_number` gets. -/
def parsedWidth : Int := if d.width = .none then -1 else (cappedField true (d.givenWidth args) : Nat)

def parsedPrecision : Int :=
  match usedPrecision true (d.givenPrecision args) with
  | none => -1
  | some p => p

theorem widthParsed (flags : Flags) (rest : List Byte) (digit : isDigit (peek rest) = false) (star : peek rest ≠ byte '*') :
    parseWidth flags args (d.width.bytes ++ rest) =
      (parsedWidth d args, { flags with left := flags.left || decide (d.width = .star ∧ (args 0).int < 0) },
        d.precisionArgs args, rest) := by
  unfold parseWidth parsedWidth IntegerDirective.precisionArgs IntegerDirective.givenWidth
  cases written : d.width with
  | none => simp [Width.bytes, digit, star, afterStar]
  | literal first more =>
    have isDigit := (digitByte first.succ).1
    have read := skipAtoiReads (first.succ :: more) rest 0 digit (Nat.zero_le _)
    rw [Nat.cast_zero] at read
    have head : peek (decimalDigits (first.succ :: more) ++ rest) = byte '0' + first.succ.val.toUInt8 := rfl
    simp only [Width.bytes, head, isDigit, if_true, read, afterStar, cappedField, decimalValue]
    simp
  | star =>
    have notDigit : isDigit (byte '*') = false := rfl
    simp [Width.bytes, peek, notDigit, starWidthCapped, afterStar, cappedField]

theorem precisionParsed (rest : List Byte) (digit : isDigit (peek rest) = false) (star : peek rest ≠ byte '*')
    (dot : peek rest ≠ byte '.') :
    parsePrecision (d.precisionArgs args) (d.precision.bytes ++ rest) =
      (parsedPrecision d args, d.valueArgs args, rest) := by
  unfold parsePrecision parsedPrecision IntegerDirective.valueArgs IntegerDirective.givenPrecision
  cases written : d.precision with
  | none => simp [Precision.bytes, dot, afterStar, usedPrecision]
  | literal digits =>
    have dot : peek (byte '.' :: decimalDigits digits ++ rest) = byte '.' := rfl
    have value : usedPrecision true (some (decimalValue digits : Int)) = some (min (decimalValue digits) fieldMax) := by
      simp [usedPrecision, cappedField]
    have read := skipAtoiReads digits rest 0 digit (Nat.zero_le _)
    rw [Nat.cast_zero] at read
    simp only [Precision.bytes, dot, if_true, value]
    cases digits with
    | nil =>
      have none : peek ([] ++ rest) = peek rest := rfl
      simp [decimalDigits, decimalValue, digit, star, afterStar, clampPrecisionCapped]
    | cons first more =>
      have head : peek (decimalDigits (first :: more) ++ rest) = byte '0' + first.val.toUInt8 := rfl
      simp [head, (digitByte first).1, read, afterStar, clampPrecisionCapped, decimalValue]
  | star =>
    have notDigit : isDigit (byte '*') = false := rfl
    simp only [Precision.bytes, List.cons_append, List.nil_append, peek, List.tail_cons, if_true, notDigit,
      Bool.false_eq_true, if_false, clampPrecisionCapped, afterStar, decide_true]
    by_cases negative : (d.precisionArgs args 0).int < 0
    · have none : (d.precisionArgs args 0).int.toNat = 0 := by omega
      simp [usedPrecision, negative, none]
    · simp [usedPrecision, negative, cappedField]

def parsedFlags : Flags :=
  ⟨d.left args, decide (.plus ∈ d.flags), decide (.space ∈ d.flags), decide (.hash ∈ d.flags),
    decide (.zero ∈ d.flags) && !d.left args, false, false, false, false, false⟩

theorem leadParsed (rest rest' : List Byte) (qualifier : Qualifier) (digit : isDigit (peek rest) = false)
    (star : peek rest ≠ byte '*') (dot : peek rest ≠ byte '.') (plain : ∀ c : FlagChar, peek rest ≠ c.byte)
    (qualified : parseQualifier rest = (qualifier, rest')) :
    parseDirective args (d.flags.map FlagChar.byte ++ (d.width.bytes ++ (d.precision.bytes ++ rest))) =
      (⟨parsedFlags d args, parsedWidth d args, parsedPrecision d args, qualifier⟩, d.valueArgs args, rest') := by
  obtain ⟨digit', star', plain'⟩ : isDigit (peek (d.precision.bytes ++ rest)) = false ∧
      peek (d.precision.bytes ++ rest) ≠ byte '*' ∧ ∀ c : FlagChar, peek (d.precision.bytes ++ rest) ≠ c.byte := by
    have point : isDigit (byte '.') = false ∧ byte '.' ≠ byte '*' ∧ ∀ c : FlagChar, byte '.' ≠ c.byte :=
      ⟨rfl, by decide, fun c => by cases c <;> decide⟩
    cases d.precision with
    | none => exact ⟨digit, star, plain⟩
    | literal digits => exact point
    | star => exact point
  have stop (c : FlagChar) : peek (d.width.bytes ++ (d.precision.bytes ++ rest)) ≠ c.byte := by
    cases d.width with
    | none => exact plain' c
    | literal first rest =>
      have head : ∀ first : Fin 9, ∀ c ∈ [FlagChar.minus, .plus, .space, .hash, .zero],
          byte '0' + first.succ.val.toUInt8 ≠ c.byte := by decide
      exact head first c (by cases c <;> decide)
    | star =>
      have head : byte '*' ≠ c.byte := by cases c <;> decide
      exact head
  unfold parseDirective
  simp only [flagsParsed _ _ _ stop, widthParsed d args _ _ digit' star', precisionParsed d args _ digit star dot, qualified]
  have left : (decide (.minus ∈ d.flags) || decide (d.width = .star ∧ (args 0).int < 0)) = d.left args := by
    simp only [IntegerDirective.left, Bool.decide_or]
  simp only [Flags.with, noFlags, Bool.false_or, left]
  cases side : d.left args <;> simp [parsedFlags, side]

theorem directiveParsed :
    parseDirective args d.bytes =
      (⟨parsedFlags d args, parsedWidth d args, parsedPrecision d args, d.qualifier⟩, d.valueArgs args,
        [d.conversion.byte]) := by
  obtain ⟨digit, star, dot, plain⟩ := endingsStop _ (endingPeek d.qualifier d.conversion)
  exact leadParsed d args _ _ _ digit star dot plain (qualifierParsed d.qualifier d.conversion)

end Parsed

section Converted

variable (abi : Abi) (d : IntegerDirective) (args : VaList)

/- The flags `vprintf_number` gets. -/
def numberFlags : Flags := { parsedFlags d args with signed := d.conversion.signed, large := d.conversion.large }

def directiveText : List Byte :=
  numberText (numberArg abi d.qualifier d.conversion.signed (d.valueArgs args 0)) (parsedWidth d args) (parsedPrecision d args)
    (numberFlags d args) d.conversion.base true

theorem convertInteger (o : Output) (alloc : Nat → Bool) :
    convert abi o ⟨parsedFlags d args, parsedWidth d args, parsedPrecision d args, d.qualifier⟩ d.conversion.byte
        (d.valueArgs args) alloc =
      some (printNumber abi o ⟨parsedFlags d args, parsedWidth d args, parsedPrecision d args, d.qualifier⟩ (numberFlags d args)
        d.conversion.base (d.valueArgs args) (alloc 0)) := by
  unfold numberFlags
  cases d.conversion <;> rfl

/- A format that is one directive puts out the text of `vprintf_number`. -/
theorem directivePassed : passed abi d.format args (fun _ _ => true) = directiveText abi d args := by
  have head : peek d.format = byte '%' := rfl
  have nonzero : byte '%' ≠ 0 := by decide
  have ending (fuel : Nat) (allocs : Nat → Nat → Bool) (o : Output) (args : VaList) (n : Int) :
      vprintfFrom abi fuel allocs o [] args n = (o, n) := by
    cases fuel <;> rfl
  have ran (o : Output) : (streamoutVprintf abi o d.format args (fun _ _ => true)).1 = emitAll o (directiveText abi d args) := by
    have printed := vprintfNumberPrints (numberArg abi d.qualifier d.conversion.signed (d.valueArgs args 0))
      (parsedWidth d args) (parsedPrecision d args) (numberFlags d args) d.conversion.base true o
    simp only at printed
    rw [streamoutVprintf, show d.format.length = d.bytes.length + 1 from rfl, vprintfFrom]
    simp only [head, nonzero, if_false, ne_eq, not_true_eq_false, show d.format.tail = d.bytes from rfl, directiveParsed]
    rw [show peek [d.conversion.byte] = d.conversion.byte from rfl, convertInteger]
    simp only [printNumber, List.tail_cons, ending]
    exact congrArg Prod.fst printed
  rw [passed, ran, functionNoCacheInit, emitAllRecorded, List.nil_append, flattenSingles]

end Converted

end Nanosig.Formatio
