import Nanosig.Formatio.Stream

/-! The formatting routines for characters, strings, arrays and integers. A
routine counts with `n` what it puts out, in the loops where the source does. -/
namespace Nanosig.Formatio

/- The widths of `long` and of `size_t`, `ssize_t` and pointers; `int` has 32 bits. -/
inductive Abi where
  | lp64
  | llp64
  | ilp32
  deriving DecidableEq

def Abi.longBits : Abi → Nat
  | .lp64 => 64
  | .llp64 => 32
  | .ilp32 => 32

def Abi.sizeBits : Abi → Nat
  | .lp64 => 64
  | .llp64 => 64
  | .ilp32 => 32

structure Flags where
  left : Bool
  plus : Bool
  space : Bool
  special : Bool
  zeropad : Bool
  large : Bool
  signed : Bool
  floatE : Bool
  floatF : Bool
  floatG : Bool
  deriving DecidableEq

inductive Qualifier where
  | none
  | long
  | longLong
  | short
  | char
  | sizeT
  deriving DecidableEq

inductive BaseType where
  | bin
  | oct
  | dec
  | hex
  deriving DecidableEq

def BaseType.value : BaseType → Nat
  | .bin => 2
  | .oct => 8
  | .dec => 10
  | .hex => 16

def formatStackCacheSize : Nat := 16

/- `small_digits` and `large_digits` -/
def digit (large : Bool) (value : Nat) : Byte :=
  if value < 10 then byte '0' + value.toUInt8
  else (if large then byte 'A' else byte 'a') + (value - 10).toUInt8

/- Output with the count `n` of its routine. -/
structure Printed where
  out : Output
  n : Int

/- `streamout_in_byte(stream, ch); n++;` -/
def put (p : Printed) (ch : Byte) : Printed := ⟨streamoutInByte p.out ch, p.n + 1⟩

/- `for (int i = 0; i < count; i++, n++) streamout_in_byte(stream, ch);` -/
def putMany (p : Printed) (ch : Byte) : Nat → Printed
  | 0 => p
  | count + 1 => putMany (put p ch) ch count

def putAll (p : Printed) (text : List Byte) : Printed := text.foldl put p

/- `num_bit_count`: how often 64 bits can be divided. -/
def numBitCountFrom (base : Nat) : Nat → Nat → Nat
  | 0, _ => 0
  | fuel + 1, number => if number / base = 0 then 1 else numBitCountFrom base fuel (number / base) + 1

def numBitCount (number base : Nat) : Nat := numBitCountFrom base 64 number

/- `for (i = count - 1; i >= 0; i--) number_buf[i] = digits[num_rsh(&num, base)];` -/
def fillDigits (large : Bool) (base : Nat) : Nat → Nat → List Byte
  | 0, _ => []
  | count + 1, number => fillDigits large base count (number / base) ++ [digit large (number % base)]

def vprintfChar (o : Output) (ch : Byte) (fieldWidth : Int) (flags : Flags) : Output × Int :=
  let n := if fieldWidth ≤ 1 then 1 else fieldWidth
  let o := if flags.left then streamoutInByte o ch else o
  let o := emitAll o (List.replicate (fieldWidth - 1).toNat (byte ' '))
  let o := if ¬flags.left then streamoutInByte o ch else o
  (o, n)

/- The bytes the loops over `s` read: up to the NUL, and at most `precision` if that is not negative. -/
def stringText (s : List Byte) (precision : Int) : List Byte :=
  if precision < 0 then cString s else (cString s).take precision.toNat

def nullText : List Byte := "(null)".toList.map byte

def vprintfString (o : Output) (s : Option (List Byte)) (fieldWidth precision : Int) (flags : Flags) : Output × Int :=
  let text := stringText (s.getD nullText) precision
  let len : Int := text.length
  if fieldWidth < 0 then
    let p := putAll ⟨o, 0⟩ text
    (p.out, p.n)
  else if fieldWidth ≤ len then
    let p := putAll ⟨o, 0⟩ text
    (p.out, p.n)
  else
    let diff := (fieldWidth - len).toNat
    let p := ⟨o, 0⟩
    let p := if ¬flags.left then putMany p (byte ' ') diff else p
    let p := putAll p text
    let p := if flags.left then putMany p (byte ' ') diff else p
    (p.out, p.n)

def itemSize (abi : Abi) : Qualifier → Nat
  | .long => abi.longBits / 8
  | .longLong => 8
  | .short => 2
  | .char => 1
  | _ => 4

def putItem (p : Printed) (large : Bool) (item : Nat → Byte) : Nat → Printed
  | 0 => p
  | j + 1 =>
      let out := streamoutInByte p.out (digit large (item j >>> 4).toNat)
      let out := streamoutInByte out (digit large (item j &&& 0x0f).toNat)
      putItem ⟨out, p.n + 2⟩ large item j

def putItems (p : Printed) (large : Bool) (size : Nat) (array : Nat → Byte) (i : Nat) : Nat → Printed
  | 0 => p
  | count + 1 =>
      let p := if i ≠ 0 then put p (byte ' ') else p
      putItems (putItem p large (fun j => array (i * size + j)) size) large size array (i + 1) count

/- `vprintf_array` on a little-endian machine. -/
def vprintfArray (abi : Abi) (o : Output) (array : Nat → Byte) (fieldWidth precision : Int) (flags : Flags)
    (qualifier : Qualifier) : Output × Int :=
  if precision < 0 then (o, 0)
  else
    let size := itemSize abi qualifier
    let arrayLen := precision.toNat
    let validLen : Int := arrayLen * (size * 2) + (if arrayLen > 0 then arrayLen - 1 else 0 : Nat)
    let spacePadLen := if fieldWidth > validLen then (fieldWidth - validLen).toNat else 0
    let p := ⟨o, 0⟩
    let p := if ¬flags.left then putMany p (byte ' ') spacePadLen else p
    let p := putItems p flags.large size array 0 arrayLen
    let p := if flags.left then putMany p (byte ' ') spacePadLen else p
    (p.out, p.n)

/- The `special` text of `FORMAT_SPECIAL`. -/
def specialText (flags : Flags) : BaseType → List Byte
  | .oct => if flags.special then [byte '0'] else []
  | .hex => if flags.special then (if flags.large then [byte '0', byte 'X'] else [byte '0', byte 'x']) else []
  | .bin => if flags.special then (if flags.large then [byte '0', byte 'B'] else [byte '0', byte 'b']) else []
  | .dec => []

def signText (flags : Flags) (negative : Bool) : List Byte :=
  if negative then [byte '-'] else if flags.plus then [byte '+'] else if flags.space then [byte ' '] else []

/- `vprintf_number` of a hosted build; `alloc` is whether `ns_platform_alloc` returns memory
for the digits if they are more than the stack buffer holds. -/
def vprintfNumber (o : Output) (num : BitVec 64) (fieldWidth precision : Int) (flags : Flags) (base : BaseType)
    (alloc : Bool) : Output × Int :=
  let negative := flags.signed && num.msb
  let num := if negative then -num else num
  let sign := signText flags negative
  let bitCount := numBitCount num.toNat base.value
  if bitCount > formatStackCacheSize ∧ ¬alloc then (o, 0)
  else
    let numberBuf := fillDigits flags.large base.value bitCount num.toNat
    let special := specialText flags base
    let realityCount : Int := sign.length + special.length + bitCount
    let zeropad := flags.zeropad && decide (precision < 0)
    let zeropadCount : Int := if precision > bitCount then precision - bitCount else 0
    let realityCount := if precision ≥ 0 then realityCount + zeropadCount else realityCount
    let missing : Int := if fieldWidth > realityCount then fieldWidth - realityCount else 0
    let zeropadCount := if zeropad ∧ fieldWidth > realityCount then missing else zeropadCount
    let spacepadCount := if zeropad then 0 else missing
    let p := ⟨o, 0⟩
    let p := if ¬flags.left then putMany p (byte ' ') spacepadCount.toNat else p
    let p := putAll p sign
    let p := putAll p special
    let p := putMany p (byte '0') zeropadCount.toNat
    let p := putAll p numberBuf
    let p := if flags.left then putMany p (byte ' ') spacepadCount.toNat else p
    (p.out, p.n)

end Nanosig.Formatio
