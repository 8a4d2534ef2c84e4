import Nanosig.Formatio.Text

/-! The text C99 prescribes for an integer conversion, and the same text with the
differences that ns_formatio.h lists. -/
namespace Nanosig.Formatio

inductive FlagChar where
  | minus
  | plus
  | space
  | hash
  | zero
  deriving DecidableEq

/- A literal width does not begin with `0`, which is a flag; `first` is its digit less one. -/
inductive Width where
  | none
  | literal (first : Fin 9) (rest : List (Fin 10))
  | star
  deriving DecidableEq

inductive Precision where
  | none
  | literal (digits : List (Fin 10))
  | star
  deriving DecidableEq

inductive IntegerConversion where
  | d
  | i
  | u
  | o
  | x
  | X
  deriving DecidableEq

structure IntegerDirective where
  flags : List FlagChar
  width : Width
  precision : Precision
  qualifier : Qualifier
  conversion : IntegerConversion
  deriving DecidableEq

def IntegerConversion.signed : IntegerConversion → Bool
  | .d => true
  | .i => true
  | _ => false

def IntegerConversion.base : IntegerConversion → BaseType
  | .o => .oct
  | .x => .hex
  | .X => .hex
  | _ => .dec

def IntegerConversion.large (c : IntegerConversion) : Bool := c = .X

def decimalValue (digits : List (Fin 10)) : Nat := digits.foldl (fun n d => n * 10 + d.val) 0

def argumentBits (abi : Abi) : Qualifier → Nat
  | .none => 32
  | .long => abi.longBits
  | .longLong => 64
  | .short => 16
  | .char => 8
  | .sizeT => abi.sizeBits

def argumentValue (abi : Abi) (qualifier : Qualifier) (signed : Bool) (arg : Arg) : Int :=
  let word : BitVec (argumentBits abi qualifier) := arg.word.truncate _
  if signed then word.toInt else word.toNat

def afterStar (star : Bool) (args : VaList) : VaList := if star then args.rest else args

namespace IntegerDirective

variable (d : IntegerDirective) (abi : Abi) (args : VaList)

def precisionArgs : VaList := afterStar (d.width = .star) args

def valueArgs : VaList := afterStar (d.precision = .star) (d.precisionArgs args)

def value : Int := argumentValue abi d.qualifier d.conversion.signed (d.valueArgs args 0)

/- A negative width argument is a `-` flag and a width. -/
def left : Bool := .minus ∈ d.flags ∨ d.width = .star ∧ (args 0).int < 0

def givenWidth : Nat :=
  match d.width with
  | .none => 0
  | .literal first rest => decimalValue (first.succ :: rest)
  | .star => (args 0).int.natAbs

/- A negative precision argument counts as none in C99. -/
def givenPrecision : Option Int :=
  match d.precision with
  | .none => none
  | .literal digits => some (decimalValue digits)
  | .star => some (d.precisionArgs args 0).int

end IntegerDirective

def numeral (large : Bool) (base n : Nat) : List Byte :=
  if n = 0 then [byte '0'] else (Nat.digits base n).reverse.map (digit large)

def signBytes (signed plus space negative : Bool) : List Byte :=
  if negative then [byte '-']
  else if signed then (if plus then [byte '+'] else if space then [byte ' '] else [])
  else []

def layout (left zero : Bool) (width : Nat) (sign start digits : List Byte) : List Byte :=
  let missing := width - (sign.length + start.length + digits.length)
  if left then sign ++ start ++ digits ++ List.replicate missing (byte ' ')
  else if zero then sign ++ start ++ List.replicate missing (byte '0') ++ digits
  else List.replicate missing (byte ' ') ++ sign ++ start ++ digits

section Parts

variable (documented : Bool)

def fieldMax : Nat := 2 ^ 20

/- Width and precision are capped. -/
def cappedField (n : Nat) : Nat := if documented then min n fieldMax else n

/- A negative precision is taken as 0. -/
def usedPrecision : Option Int → Option Nat
  | none => none
  | some p => if p < 0 then (if documented then some 0 else none) else some (cappedField documented p.toNat)

/- Zero with precision 0 prints as `0`, where C99 prints no digit. -/
def digitBytes (large : Bool) (base : Nat) (precision : Option Nat) (n : Nat) : List Byte :=
  if n = 0 ∧ precision = some 0 ∧ ¬documented then []
  else List.replicate (precision.getD 1 - (numeral large base n).length) (byte '0') ++ numeral large base n

/- The prefix of `#` stays for zero; that of `o` is there to make the first digit a `0`. -/
def prefixBytes (alternate : Bool) (conversion : IntegerConversion) (n : Nat) (digits : List Byte) : List Byte :=
  if alternate then
    match conversion with
    | .o => if digits.head? ≠ some (byte '0') ∨ n = 0 ∧ documented then [byte '0'] else []
    | .x => if n ≠ 0 ∨ documented then [byte '0', byte 'x'] else []
    | .X => if n ≠ 0 ∨ documented then [byte '0', byte 'X'] else []
    | _ => []
  else []

def c99Text (abi : Abi) (args : VaList) (d : IntegerDirective) : List Byte :=
  let value := d.value abi args
  let precision := usedPrecision documented (d.givenPrecision args)
  let digits := digitBytes documented d.conversion.large d.conversion.base.value precision value.natAbs
  let sign := signBytes d.conversion.signed (.plus ∈ d.flags) (.space ∈ d.flags) (value < 0)
  layout (d.left args) (.zero ∈ d.flags ∧ precision = none) (cappedField documented (d.givenWidth args)) sign
    (prefixBytes documented (.hash ∈ d.flags) d.conversion value.natAbs digits) digits

end Parts

/- The inputs ns_formatio.h names: a negative precision argument, a width or precision above the
cap, zero with precision 0 and zero with a `#` prefix. -/
def DocumentedDifference (abi : Abi) (args : VaList) (d : IntegerDirective) : Prop :=
  (∃ p, d.givenPrecision args = some p ∧ (p < 0 ∨ p > fieldMax)) ∨ d.givenWidth args > fieldMax ∨
    d.value abi args = 0 ∧ (d.givenPrecision args = some 0 ∨ .hash ∈ d.flags ∧ d.conversion.base ≠ .dec)

theorem documentedOnly {abi : Abi} {args : VaList} {d : IntegerDirective} (plain : ¬DocumentedDifference abi args d) :
    c99Text true abi args d = c99Text false abi args d := by
  obtain ⟨precisionPlain, widthPlain, zeroPlain⟩ := by simpa only [DocumentedDifference, not_or] using plain
  have width : cappedField true (d.givenWidth args) = cappedField false (d.givenWidth args) := by
    simp only [cappedField, if_true, Bool.false_eq_true, if_false]
    omega
  have precision : usedPrecision true (d.givenPrecision args) = usedPrecision false (d.givenPrecision args) := by
    cases given : d.givenPrecision args with
    | none => rfl
    | some p =>
      have range : ¬(p < 0 ∨ p > fieldMax) := fun outside => precisionPlain ⟨p, given, outside⟩
      simp only [usedPrecision, cappedField, if_neg (by omega : ¬p < 0), if_true, Bool.false_eq_true, if_false,
        Option.some.injEq]
      omega
  have digits : digitBytes true d.conversion.large d.conversion.base.value (usedPrecision false (d.givenPrecision args))
      (d.value abi args).natAbs = digitBytes false d.conversion.large d.conversion.base.value
        (usedPrecision false (d.givenPrecision args)) (d.value abi args).natAbs := by
    have some_digit : ¬((d.value abi args).natAbs = 0 ∧ usedPrecision false (d.givenPrecision args) = some 0) := by
      rintro ⟨zero, none⟩
      refine zeroPlain ⟨Int.natAbs_eq_zero.mp zero, .inl ?_⟩
      cases given : d.givenPrecision args with
      | none => simp [given, usedPrecision] at none
      | some p =>
        rw [given, usedPrecision] at none
        split at none
        · simp at none
        · simp only [cappedField, Bool.false_eq_true, if_false, Option.some.injEq] at none
          exact congrArg some (by omega)
    rw [digitBytes, digitBytes, if_neg (by tauto), if_neg (by tauto)]
  have start (text : List Byte) : prefixBytes true (.hash ∈ d.flags) d.conversion (d.value abi args).natAbs text =
      prefixBytes false (.hash ∈ d.flags) d.conversion (d.value abi args).natAbs text := by
    by_cases hash : .hash ∈ d.flags
    · cases letter : d.conversion <;> simp_all [prefixBytes, IntegerConversion.base]
    · simp [prefixBytes, hash]
  simp only [c99Text, width, precision, digits, start]

end Nanosig.Formatio
