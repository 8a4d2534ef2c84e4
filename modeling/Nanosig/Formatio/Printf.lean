import Nanosig.Formatio.Float

/-! `streamout_vprintf`: the parser of the format string, the conversions, and the
printf family on top of them. -/
namespace Nanosig.Formatio

/- An argument as it reads at each type `va_arg` asks for. -/
structure Arg where
  word : BitVec 64
  str : Option (List Byte)
  array : Nat → Byte
  double : Float

/- `va_list`: the arguments from the next one on. -/
abbrev VaList := Nat → Arg

def VaList.rest (args : VaList) : VaList := fun i => args (i + 1)

/- `va_arg(args, int)` -/
def Arg.int (arg : Arg) : Int := (arg.word.truncate 32 : BitVec 32).toInt

/- `FORMAT_MAX_FIELD` -/
def formatMaxField : Int := 2 ^ 20

/- `*fmt`, where the end of the list is the NUL. -/
def peek : List Byte → Byte
  | [] => 0
  | ch :: _ => ch

def isDigit (ch : Byte) : Bool := byte '0' ≤ ch ∧ ch ≤ byte '9'

def noFlags : Flags := ⟨false, false, false, false, false, false, false, false, false, false⟩

def parseFlags (flags : Flags) : List Byte → Flags × List Byte
  | [] => (flags, [])
  | ch :: fmt =>
      if ch = byte '-' then parseFlags { flags with left := true } fmt
      else if ch = byte '+' then parseFlags { flags with plus := true } fmt
      else if ch = byte ' ' then parseFlags { flags with space := true } fmt
      else if ch = byte '#' then parseFlags { flags with special := true } fmt
      else if ch = byte '0' then parseFlags { flags with zeropad := true } fmt
      else (flags, ch :: fmt)

/- `skip_atoi`, with the value read so far. -/
def skipAtoi (i : Int) : List Byte → Int × List Byte
  | [] => (i, [])
  | ch :: fmt =>
      if isDigit ch then
        let i := i * 10 + (ch - byte '0').toNat
        skipAtoi (if i > formatMaxField then formatMaxField else i) fmt
      else (i, ch :: fmt)

def starWidth (width : Int) : Int × Bool :=
  let negative := decide (width < 0)
  let width := if negative then (if width = -2 ^ 31 then formatMaxField else -width) else width
  (if width > formatMaxField then formatMaxField else width, negative)

def parseWidth (flags : Flags) (args : VaList) (fmt : List Byte) : Int × Flags × VaList × List Byte :=
  if isDigit (peek fmt) then
    let (width, fmt) := skipAtoi 0 fmt
    (width, flags, args, fmt)
  else if peek fmt = byte '*' then
    let (width, negative) := starWidth (args 0).int
    (width, { flags with left := flags.left || negative }, args.rest, fmt.tail)
  else (-1, flags, args, fmt)

def clampPrecision (precision : Int) : Int :=
  if precision < 0 then 0 else if precision > formatMaxField then formatMaxField else precision

def parsePrecision (args : VaList) (fmt : List Byte) : Int × VaList × List Byte :=
  if peek fmt = byte '.' then
    let fmt := fmt.tail
    if isDigit (peek fmt) then
      let (precision, fmt) := skipAtoi 0 fmt
      (clampPrecision precision, args, fmt)
    else if peek fmt = byte '*' then (clampPrecision (args 0).int, args.rest, fmt.tail)
    else (clampPrecision (-1), args, fmt)
  else (-1, args, fmt)

def parseQualifier (fmt : List Byte) : Qualifier × List Byte :=
  if peek fmt = byte 'h' then
    if peek fmt.tail = byte 'h' then (.char, fmt.tail.tail) else (.short, fmt.tail)
  else if peek fmt = byte 'l' then
    if peek fmt.tail = byte 'l' then (.longLong, fmt.tail.tail) else (.long, fmt.tail)
  else if peek fmt = byte 'L' then (.longLong, fmt.tail)
  else if peek fmt = byte 'z' then (.sizeT, fmt.tail)
  else (.none, fmt)

structure Directive where
  flags : Flags
  fieldWidth : Int
  precision : Int
  qualifier : Qualifier

/- The parser behind a `%`; the list it leaves begins with the conversion character. -/
def parseDirective (args : VaList) (fmt : List Byte) : Directive × VaList × List Byte :=
  let (flags, fmt) := parseFlags noFlags fmt
  let (fieldWidth, flags, args, fmt) := parseWidth flags args fmt
  let flags := if flags.left then { flags with zeropad := false } else flags
  let (precision, args, fmt) := parsePrecision args fmt
  let (qualifier, fmt) := parseQualifier fmt
  (⟨flags, fieldWidth, precision, qualifier⟩, args, fmt)

/- The switch at `_print_number`: the argument as `unsigned long long`. -/
def numberArg (abi : Abi) (qualifier : Qualifier) (signed : Bool) (arg : Arg) : BitVec 64 :=
  let bits := match qualifier with
    | .long => abi.longBits
    | .longLong => 64
    | .short => 16
    | .char => 8
    | .sizeT => abi.sizeBits
    | .none => 32
  if signed then (arg.word.truncate bits).signExtend 64 else (arg.word.truncate bits).zeroExtend 64

def printNumber (abi : Abi) (o : Output) (d : Directive) (flags : Flags) (base : BaseType) (args : VaList) (alloc : Bool) :
    Output × Int × VaList :=
  let (o, n) := vprintfNumber o (numberArg abi d.qualifier flags.signed (args 0)) d.fieldWidth d.precision flags base alloc
  (o, n, args.rest)

def printFloat (o : Output) (d : Directive) (flags : Flags) (args : VaList) (alloc : Nat → Bool) : Output × Int × VaList :=
  if d.qualifier = .longLong then (o, 0, args)
  else
    let (o, n) := vprintfFloat o (args 0).double d.fieldWidth d.precision flags alloc
    (o, n, args.rest)

/- The switch over the conversion character: what it adds to `n`, or none in the default branch. -/
def convert (abi : Abi) (o : Output) (d : Directive) (conversion : Byte) (args : VaList) (alloc : Nat → Bool) :
    Option (Output × Int × VaList) :=
  let flags := d.flags
  let large := { flags with large := true }
  if conversion = byte 's' then
    let (o, n) := vprintfString o (args 0).str d.fieldWidth d.precision flags
    some (o, n, args.rest)
  else if conversion = byte 'd' ∨ conversion = byte 'i' then
    some (printNumber abi o d { flags with signed := true } .dec args (alloc 0))
  else if conversion = byte 'u' then some (printNumber abi o d flags .dec args (alloc 0))
  else if conversion = byte 'X' then some (printNumber abi o d large .hex args (alloc 0))
  else if conversion = byte 'x' then some (printNumber abi o d flags .hex args (alloc 0))
  else if conversion = byte 'c' then
    let (o, n) := vprintfChar o ((args 0).word.truncate 8).toNat.toUInt8 d.fieldWidth flags
    some (o, n, args.rest)
  else if conversion = byte '%' then some (streamoutInByte o (byte '%'), 1, args)
  else if conversion = byte 'B' then some (printNumber abi o d large .bin args (alloc 0))
  else if conversion = byte 'b' then some (printNumber abi o d flags .bin args (alloc 0))
  else if conversion = byte 'o' then some (printNumber abi o d flags .oct args (alloc 0))
  else if conversion = byte 'p' then
    let fieldWidth : Int := if d.fieldWidth < 0 then (abi.sizeBits / 8 * 2 + 2 : Nat) else d.fieldWidth
    let flags := if d.fieldWidth < 0 then { flags with zeropad := true, special := true } else flags
    let (o, n) := vprintfNumber o (((args 0).word.truncate abi.sizeBits).zeroExtend 64) fieldWidth d.precision flags .hex
      (alloc 0)
    some (o, n, args.rest)
  else if conversion = byte 'E' then some (printFloat o d { large with floatE := true } args alloc)
  else if conversion = byte 'e' then some (printFloat o d { flags with floatE := true } args alloc)
  else if conversion = byte 'G' then some (printFloat o d { large with floatG := true } args alloc)
  else if conversion = byte 'g' then some (printFloat o d { flags with floatG := true } args alloc)
  else if conversion = byte 'F' then some (printFloat o d { large with floatF := true } args alloc)
  else if conversion = byte 'f' then some (printFloat o d { flags with floatF := true } args alloc)
  else if conversion = byte 'Q' then
    let (o, n) := vprintfArray abi o (args 0).array d.fieldWidth d.precision large d.qualifier
    some (o, n, args.rest)
  else if conversion = byte 'q' then
    let (o, n) := vprintfArray abi o (args 0).array d.fieldWidth d.precision flags d.qualifier
    some (o, n, args.rest)
  else none

/- The loop of `streamout_vprintf`. Every round takes at least one byte of the format, so
its length is `fuel` enough; `allocs` answers the allocations of the conversions in turn. -/
def vprintfFrom (abi : Abi) : Nat → (Nat → Nat → Bool) → Output → List Byte → VaList → Int → Output × Int
  | 0, _, o, _, _, n => (o, n)
  | fuel + 1, allocs, o, fmt, args, n =>
      if peek fmt = 0 then (o, n)
      else if peek fmt ≠ byte '%' then
        vprintfFrom abi fuel allocs (streamoutInByte o (peek fmt)) fmt.tail args (n + 1)
      else
        let (d, args, rest) := parseDirective args fmt.tail
        match convert abi o d (peek rest) args (allocs 0) with
        | some (o, k, args) => vprintfFrom abi fuel (fun i => allocs (i + 1)) o rest.tail args (n + k)
        | none => vprintfFrom abi fuel allocs (streamoutInByte o (byte '%')) fmt.tail args n

def streamoutVprintf (abi : Abi) (o : Output) (fmt : List Byte) (args : VaList) (allocs : Nat → Nat → Bool) : Output × Int :=
  vprintfFrom abi fmt.length allocs o fmt args 0

/- `ns_vsnprintf`: the memory afterwards and the result. -/
def vsnprintf (abi : Abi) (memory : Nat → Byte) (buf size : Nat) (fmt : List Byte) (args : VaList)
    (allocs : Nat → Nat → Bool) : (Nat → Byte) × Int :=
  let (o, n) := streamoutVprintf abi (memoryInit memory buf size) fmt args allocs
  ((streamoutFinish o).memory, n)

/- `ns_vsprintf` -/
def vsprintf (abi : Abi) (memory : Nat → Byte) (buf : Nat) (fmt : List Byte) (args : VaList)
    (allocs : Nat → Nat → Bool) : (Nat → Byte) × Int :=
  let (o, n) := streamoutVprintf abi (memoryUnboundedInit memory buf) fmt args allocs
  ((streamoutFinish o).memory, n)

end Nanosig.Formatio
