import Nanosig.Formatio.Number

/-! The formatting routines for `double`, whose arithmetic is that of Lean's `Float`. -/
namespace Nanosig.Formatio

def formatFloatPowersTabSize : Nat := 19
def formatDblExpOffset : Int := 1023
def dblMax10Exp : Int := 308

/- `DBL_MAX` -/
def dblMax : Float := Float.ofBits 0x7FEFFFFFFFFFFFFF

def powersOf10 : List Float :=
  [1e00, 1e01, 1e02, 1e03, 1e04, 1e05, 1e06, 1e07, 1e08, 1e09, 1e10, 1e11, 1e12, 1e13, 1e14, 1e15, 1e16, 1e17, 1e18]

def powerOf10 (precision : Int) : Float := powersOf10.getD precision.toNat 1

/- The fields of `union ns_double_union`. -/
def signBit (d : Float) : Bool := d.toBits >>> 63 = 1
def exponent (d : Float) : Int := (d.toBits >>> 52 &&& 0x7FF).toNat
def withExponent (d : Float) (value : UInt64) : Float :=
  Float.ofBits (d.toBits &&& ~~~((0x7FF : UInt64) <<< 52) ||| (value &&& 0x7FF) <<< 52)

def toInt (x : Float) : Int := x.toInt32.toInt

def bastardizedFloor (x : Float) : Int :=
  if x ≥ 0 then toInt x
  else
    let n := toInt x
    if Float.ofInt n == x then n else n - 1

def pow10OfInt (flooredExp10 : Int) : Float :=
  if flooredExp10 = -dblMax10Exp then 1.e-308
  else
    let exp2 := bastardizedFloor (Float.ofInt flooredExp10 * 3.321928094887362 + 0.5)
    let z := Float.ofInt flooredExp10 * 2.302585092994046 - Float.ofInt exp2 * 0.6931471805599453
    let z2 := z * z
    let d := withExponent (Float.ofBits 0) (UInt64.ofInt (exp2 + formatDblExpOffset))
    d * (1 + 2 * z / (2 - z + (z2 / (6 + (z2 / (10 + z2 / 14))))))

def log10OfPositive (positiveNumber : Float) : Float :=
  let exp2 := exponent positiveNumber - formatDblExpOffset
  let z := withExponent positiveNumber 1023 - 1.5
  0.1760912590556812420 + z * 0.2895296546021678851 - z * z * 0.0965098848673892950 +
    z * z * z * 0.0428932821632841311 + Float.ofInt exp2 * 0.30102999566398119521

/- `struct ns_scaling_factor` -/
structure ScalingFactor where
  rawFactor : Float
  multiply : Bool

def applyScaling (num : Float) (normalization : ScalingFactor) : Float :=
  if normalization.multiply then num * normalization.rawFactor else num / normalization.rawFactor

def unapplyScaling (normalized : Float) (normalization : ScalingFactor) : Float :=
  if normalization.multiply then normalized / normalization.rawFactor else normalized * normalization.rawFactor

def updateNormalization (sf : ScalingFactor) (extra : Float) : ScalingFactor :=
  if sf.multiply then ⟨sf.rawFactor * extra, true⟩
  else
    let factorExp2 := exponent sf.rawFactor - formatDblExpOffset
    let extraFactorExp2 := exponent extra - formatDblExpOffset
    if factorExp2.natAbs > extraFactorExp2.natAbs then ⟨sf.rawFactor / extra, false⟩ else ⟨extra / sf.rawFactor, true⟩

/- `struct ns_double_components` -/
structure DoubleComponents where
  integral : UInt64
  fractional : UInt64
  isNegative : Bool

def tablePrecision (precision : Int) : Int :=
  if precision ≥ formatFloatPowersTabSize then formatFloatPowersTabSize - 1 else precision

def floatDecentralized (num : Float) (precision : Int) : DoubleComponents :=
  let isNegative := signBit num
  let absNumber := if isNegative then -num else num
  let integral := absNumber.toUInt64
  let precision := tablePrecision precision
  let remainder := (absNumber - integral.toFloat) * powerOf10 precision
  let fractional := remainder.toUInt64
  let remainder := remainder - fractional.toFloat
  let (integral, fractional) :=
    if remainder > 0.5 then
      if (fractional + 1).toFloat ≥ powerOf10 precision then (integral + 1, 0) else (integral, fractional + 1)
    else if remainder == 0.5 ∧ (fractional = 0 ∨ fractional &&& 1 ≠ 0) then
      if precision > 0 ∧ (fractional + 1).toFloat ≥ powerOf10 precision then (integral + 1, 0)
      else (integral, fractional + 1)
    else (integral, fractional)
  if precision = 0 then
    let remainder := absNumber - integral.toFloat
    if (¬remainder < 0.5 ∨ remainder > 0.5) ∧ integral &&& 1 ≠ 0 then ⟨integral + 1, fractional, isNegative⟩
    else ⟨integral, fractional, isNegative⟩
  else ⟨integral, fractional, isNegative⟩

def floatNormalizedDecentralized (negative : Bool) (precision : Int) (nonNormalized : Float)
    (normalization : ScalingFactor) (flooredExp10 : Int) : DoubleComponents :=
  let scaled := applyScaling nonNormalized normalization
  let closeToRepresentationExtremum := -flooredExp10 + precision ≥ dblMax10Exp - 1
  let precision := tablePrecision precision
  if closeToRepresentationExtremum then floatDecentralized (if negative then -scaled else scaled) precision
  else
    let integral := scaled.toUInt64
    let remainder := nonNormalized - unapplyScaling integral.toFloat normalization
    let precPowerOf10 := powerOf10 precision
    let accountForPrecision := updateNormalization normalization precPowerOf10
    let scaledRemainder := applyScaling remainder accountForPrecision
    let fractional := scaledRemainder.toUInt64
    let scaledRemainder := scaledRemainder - fractional.toFloat
    let fractional :=
      if scaledRemainder > 0.5 then fractional + 1
      else if scaledRemainder == 0.5 then
        if precision = 0 then integral &&& 1
        else if fractional &&& 1 ≠ 0 then fractional + 1
        else fractional
      else fractional
    if fractional.toFloat ≥ precPowerOf10 then ⟨integral + 1, 0, negative⟩ else ⟨integral, fractional, negative⟩

/- The exponent part, with its `n += 2` for the two signs. -/
def putExponent (p : Printed) (flags : Flags) (flooredExp10 : Int) (exponentValidLen : Nat) : Printed :=
  if flags.floatE then
    let exponentSignE := if flags.large then byte 'E' else byte 'e'
    let exponentSign := if flooredExp10 ≥ 0 then byte '+' else byte '-'
    let p := ⟨streamoutInByte (streamoutInByte p.out exponentSignE) exponentSign, p.n + 2⟩
    let p := if exponentValidLen < 2 then put p (byte '0') else p
    putAll p (fillDigits false 10 exponentValidLen flooredExp10.natAbs)
  else p

/- `vprintf_float_decimalism_or_normalized` of a hosted build. -/
def vprintfFloatDecimalismOrNormalized (o : Output) (components : DoubleComponents) (fieldWidth precision : Int)
    (flags : Flags) (flooredExp10 : Int) (alloc : Bool) : Output × Int :=
  let fractionalPrecisionPadLen : Int :=
    if precision ≥ formatFloatPowersTabSize then precision - (formatFloatPowersTabSize - 1) else 0
  let precision := tablePrecision precision
  let sign := signText flags components.isNegative
  let dot := if precision > 0 ∨ flags.special then [byte '.'] else []
  let exponentValidLen := if flags.floatE then numBitCount flooredExp10.natAbs 10 else 0
  let integralValidLen := numBitCount components.integral.toNat 10
  let fractionalValidLen := if precision > 0 then numBitCount components.fractional.toNat 10 else 0
  let fractionalPadLen : Int :=
    if precision > 0 ∧ precision > fractionalValidLen then precision - fractionalValidLen else 0
  let needBufMinSize := max (max integralValidLen fractionalValidLen) exponentValidLen
  if needBufMinSize > formatStackCacheSize ∧ ¬alloc then (o, 0)
  else
    let validLen : Int := sign.length + integralValidLen + dot.length + fractionalPadLen + fractionalValidLen +
      fractionalPrecisionPadLen +
      (if flags.floatE then 2 + (if exponentValidLen < 2 then 2 else exponentValidLen) else 0 : Nat)
    let spaceOrZeroPadLen := if fieldWidth > validLen then (fieldWidth - validLen).toNat else 0
    let p := ⟨o, 0⟩
    let p := if ¬flags.left ∧ ¬flags.zeropad then putMany p (byte ' ') spaceOrZeroPadLen else p
    let p := putAll p sign
    let p := if flags.zeropad then putMany p (byte '0') spaceOrZeroPadLen else p
    let p := putAll p (fillDigits false 10 integralValidLen components.integral.toNat)
    let p := putAll p dot
    let p := putMany p (byte '0') fractionalPadLen.toNat
    let p := putAll p (fillDigits false 10 fractionalValidLen components.fractional.toNat)
    let p := putMany p (byte '0') fractionalPrecisionPadLen.toNat
    let p := putExponent p flags flooredExp10 exponentValidLen
    let p := if flags.left ∧ ¬flags.zeropad then putMany p (byte ' ') spaceOrZeroPadLen else p
    (p.out, p.n)

def vprintfFloatE (o : Output) (num : Float) (fieldWidth precision : Int) (flags : Flags) (alloc : Bool) : Output × Int :=
  let absNumber := if signBit num then -num else num
  let precision := if precision < 0 then 6 else precision
  let (flooredExp10, rawFactor, covered) :=
    if absNumber == 0.0 then ((0 : Int), (1.0 : Float), false)
    else
      let flooredExp10 := bastardizedFloor (log10OfPositive absNumber)
      let p10 := pow10OfInt flooredExp10
      let (flooredExp10, p10) := if absNumber < p10 then (flooredExp10 - 1, p10 / 10) else (flooredExp10, p10)
      let covered := decide (flooredExp10.natAbs < formatFloatPowersTabSize)
      (flooredExp10, if covered then powerOf10 flooredExp10.natAbs else p10, covered)
  let normalization := ⟨rawFactor, decide (flooredExp10 < 0) && covered⟩
  let components := floatNormalizedDecentralized (signBit num) precision absNumber normalization flooredExp10
  vprintfFloatDecimalismOrNormalized o components fieldWidth precision flags flooredExp10 alloc

def vprintfFloatFOrG (o : Output) (num : Float) (fieldWidth precision : Int) (flags : Flags) (alloc : Bool) : Output × Int :=
  if num < -1.e18 ∨ num > 1.e18 then (o, 0)
  else
    let precision := if precision < 0 then 6 else precision
    vprintfFloatDecimalismOrNormalized o (floatDecentralized num precision) fieldWidth precision flags 0 alloc

def vprintfFloatIsNan (num : Float) : Bool := num != num
def vprintfFloatIsInf (num : Float) : Bool := num > dblMax ∨ num < -dblMax

def specialFloatText (num : Float) (flags : Flags) : String :=
  if vprintfFloatIsInf num then
    if num < 0 then (if flags.large then "-INF" else "-inf")
    else if flags.plus then (if flags.large then "+INF" else "+inf")
    else if flags.space then (if flags.large then " INF" else " inf")
    else (if flags.large then "INF" else "inf")
  else if flags.large then "NAN" else "nan"

/- `vprintf_float`; `alloc` answers the allocations of the first and of the second attempt. -/
def vprintfFloat (o : Output) (num : Float) (fieldWidth precision : Int) (flags : Flags) (alloc : Nat → Bool) : Output × Int :=
  if vprintfFloatIsInf num ∨ vprintfFloatIsNan num then
    vprintfString o ((specialFloatText num flags).toList.map byte) fieldWidth (-1) flags
  else
    let (o, n) :=
      if flags.floatF ∨ flags.floatG then vprintfFloatFOrG o num fieldWidth precision flags (alloc 0) else (o, 0)
    if n > 0 then (o, n)
    else
      let flags := { flags with floatF := false, floatG := false, floatE := true }
      vprintfFloatE o num fieldWidth precision flags (alloc 1)

end Nanosig.Formatio
