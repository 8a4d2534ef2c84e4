import Nanosig.Formatio.Printf

/-! What the routines put out does not depend on the stream: each passes a text to
`streamout_in_byte`, byte by byte, and counts it. Only the default branch of the
switch puts out a byte that is not counted. -/
namespace Nanosig.Formatio

def Prints (f : Output → Output × Int) (text : List Byte) : Prop := ∀ o, f o = (emitAll o text, (text.length : Int))

section Loops

variable (p : Printed)

theorem putEq (ch : Byte) : put p ch = ⟨emitAll p.out [ch], p.n + 1⟩ := rfl

theorem putManyEq (ch : Byte) (count : Nat) :
    putMany p ch count = ⟨emitAll p.out (List.replicate count ch), p.n + count⟩ := by
  induction count generalizing p with
  | zero => simp [putMany]
  | succ count ih =>
    rw [putMany, ih, putEq, List.replicate_succ, emitAllCons]
    refine congrArg₂ Printed.mk rfl ?_
    push_cast
    omega

theorem putAllEq (text : List Byte) : putAll p text = ⟨emitAll p.out text, p.n + text.length⟩ := by
  induction text generalizing p with
  | nil => simp [putAll]
  | cons ch rest ih =>
    have step : putAll p (ch :: rest) = putAll (put p ch) rest := rfl
    rw [step, ih, putEq, emitAllCons, List.length_cons]
    refine congrArg₂ Printed.mk rfl ?_
    push_cast
    omega

def itemText (large : Bool) (item : Nat → Byte) : Nat → List Byte
  | 0 => []
  | j + 1 => digit large (item j >>> 4).toNat :: digit large (item j &&& 0x0f).toNat :: itemText large item j

theorem putItemEq (large : Bool) (item : Nat → Byte) (size : Nat) :
    putItem p large item size = ⟨emitAll p.out (itemText large item size), p.n + (itemText large item size).length⟩ := by
  induction size generalizing p with
  | zero => simp [putItem, itemText]
  | succ j ih =>
    rw [putItem, ih, itemText, emitAllCons, emitAllCons]
    simp only [List.length_cons, Nat.cast_add, Nat.cast_one, Printed.mk.injEq, true_and]
    omega

def itemsText (large : Bool) (size : Nat) (array : Nat → Byte) (i : Nat) : Nat → List Byte
  | 0 => []
  | count + 1 => (if i ≠ 0 then [byte ' '] else []) ++ itemText large (fun j => array (i * size + j)) size ++
      itemsText large size array (i + 1) count

theorem putItemsEq (large : Bool) (size : Nat) (array : Nat → Byte) (i count : Nat) :
    putItems p large size array i count =
      ⟨emitAll p.out (itemsText large size array i count), p.n + (itemsText large size array i count).length⟩ := by
  induction count generalizing p i with
  | zero => simp [putItems, itemsText]
  | succ count ih =>
    rw [putItems, ih, putItemEq, itemsText]
    by_cases first : i = 0
    · simp only [first, ne_eq, not_true_eq_false, if_false, List.nil_append, emitAllAppend, List.length_append,
        Nat.cast_add, Printed.mk.injEq, true_and]
      omega
    · simp only [first, ne_eq, not_false_eq_true, if_true, putEq, emitAllAppend, List.length_append, List.length_singleton,
        Nat.cast_add, Nat.cast_one, Printed.mk.injEq, true_and]
      omega

end Loops

theorem vprintfCharPrints (ch : Byte) (fieldWidth : Int) (flags : Flags) :
    Prints (fun o => vprintfChar o ch fieldWidth flags)
      ((if flags.left then [ch] else []) ++ List.replicate (fieldWidth - 1).toNat (byte ' ') ++
        (if flags.left then [] else [ch])) := by
  intro o
  have count : (if fieldWidth ≤ 1 then 1 else fieldWidth) = ((fieldWidth - 1).toNat : Int) + 1 := by
    split <;> omega
  simp only [vprintfChar, count]
  cases flags.left
  · simp [emitAllAppend]
  · simp [emitAllCons, add_comm]

def padded (left : Bool) (spaces : Nat) (text : List Byte) : List Byte :=
  (if left then [] else List.replicate spaces (byte ' ')) ++ text ++ (if left then List.replicate spaces (byte ' ') else [])

theorem vprintfStringPrints (s : Option (List Byte)) (fieldWidth precision : Int) (flags : Flags) :
    Prints (fun o => vprintfString o s fieldWidth precision flags)
      (padded flags.left (fieldWidth - (stringText (s.getD nullText) precision).length).toNat
        (stringText (s.getD nullText) precision)) := by
  intro o
  simp only [vprintfString]
  generalize stringText (s.getD nullText) precision = text
  by_cases narrow : fieldWidth ≤ text.length
  · have none : (fieldWidth - text.length).toNat = 0 := by omega
    have plain : padded flags.left 0 text = text := by cases flags.left <;> simp [padded]
    rw [none, plain, if_pos narrow, ite_self]
    simp [putAllEq]
  · rw [if_neg (by omega), if_neg narrow]
    cases flags.left
    · simp [putManyEq, putAllEq, padded, emitAllAppend]
    · simp [putManyEq, putAllEq, padded, emitAllAppend]

/- The text of `vprintf_array`. -/
def arrayText (abi : Abi) (array : Nat → Byte) (fieldWidth precision : Int) (flags : Flags) (qualifier : Qualifier) :
    List Byte :=
  if precision < 0 then []
  else
    let size := itemSize abi qualifier
    let arrayLen := precision.toNat
    let validLen : Int := arrayLen * (size * 2) + (if arrayLen > 0 then arrayLen - 1 else 0 : Nat)
    padded flags.left (if fieldWidth > validLen then (fieldWidth - validLen).toNat else 0)
      (itemsText flags.large size array 0 arrayLen)

theorem vprintfArrayPrints (abi : Abi) (array : Nat → Byte) (fieldWidth precision : Int) (flags : Flags)
    (qualifier : Qualifier) :
    Prints (fun o => vprintfArray abi o array fieldWidth precision flags qualifier)
      (arrayText abi array fieldWidth precision flags qualifier) := by
  intro o
  simp only [vprintfArray, arrayText]
  split
  · simp
  · cases flags.left
    · simp [putManyEq, putItemsEq, padded, emitAllAppend]
    · simp [putManyEq, putItemsEq, padded, emitAllAppend]

/- The text of `vprintf_number`. -/
def numberText (num : BitVec 64) (fieldWidth precision : Int) (flags : Flags) (base : BaseType) (alloc : Bool) : List Byte :=
  let negative := flags.signed && num.msb
  let num := if negative then -num else num
  let sign := signText flags negative
  let bitCount := numBitCount num.toNat base.value
  if bitCount > formatStackCacheSize ∧ ¬alloc then []
  else
    let special := specialText flags base
    let realityCount : Int := sign.length + special.length + bitCount
    let zeropad := flags.zeropad && decide (precision < 0)
    let zeropadCount : Int := if precision > bitCount then precision - bitCount else 0
    let realityCount := if precision ≥ 0 then realityCount + zeropadCount else realityCount
    let missing : Int := if fieldWidth > realityCount then fieldWidth - realityCount else 0
    padded flags.left (if zeropad then 0 else missing).toNat
      (sign ++ special ++
        List.replicate (if zeropad ∧ fieldWidth > realityCount then missing else zeropadCount).toNat (byte '0') ++
        fillDigits flags.large base.value bitCount num.toNat)

theorem vprintfNumberPrints (num : BitVec 64) (fieldWidth precision : Int) (flags : Flags) (base : BaseType) (alloc : Bool) :
    Prints (fun o => vprintfNumber o num fieldWidth precision flags base alloc)
      (numberText num fieldWidth precision flags base alloc) := by
  intro o
  simp only [vprintfNumber, numberText]
  generalize (if (flags.signed && num.msb) = true then -num else num) = value
  generalize signText flags (flags.signed && num.msb) = sign
  generalize numBitCount value.toNat base.value = bitCount
  by_cases refused : bitCount > formatStackCacheSize ∧ ¬alloc = true
  · rw [if_pos refused, if_pos refused]
    simp
  · rw [if_neg refused, if_neg refused]
    cases flags.left
    · simp [putManyEq, putAllEq, padded, emitAllAppend, add_assoc]
    · simp [putManyEq, putAllEq, padded, emitAllAppend, add_assoc]

section Float

def exponentText (flags : Flags) (flooredExp10 : Int) (exponentValidLen : Nat) : List Byte :=
  if flags.floatE then
    [if flags.large then byte 'E' else byte 'e', if flooredExp10 ≥ 0 then byte '+' else byte '-'] ++
      (if exponentValidLen < 2 then [byte '0'] else []) ++ fillDigits false 10 exponentValidLen flooredExp10.natAbs
  else []

theorem putExponentEq (p : Printed) (flags : Flags) (flooredExp10 : Int) (exponentValidLen : Nat) :
    putExponent p flags flooredExp10 exponentValidLen =
      ⟨emitAll p.out (exponentText flags flooredExp10 exponentValidLen),
        p.n + (exponentText flags flooredExp10 exponentValidLen).length⟩ := by
  unfold exponentText putExponent
  cases flags.floatE
  · simp
  · simp only [if_true]
    split
    · simp [putAllEq, putEq, emitAllCons, add_assoc]
      omega
    · simp [putAllEq, emitAllCons, add_assoc]
      omega

theorem vprintfFloatDecimalismPrints (components : DoubleComponents) (fieldWidth precision : Int) (flags : Flags)
    (flooredExp10 : Int) (alloc : Bool) :
    ∃ text, Prints (fun o => vprintfFloatDecimalismOrNormalized o components fieldWidth precision flags flooredExp10 alloc)
      text := by
  simp only [Prints, vprintfFloatDecimalismOrNormalized]
  generalize (if precision ≥ (formatFloatPowersTabSize : Int) then precision - (formatFloatPowersTabSize - 1) else 0) = precisionPad
  generalize tablePrecision precision = precision
  generalize signText flags components.isNegative = sign
  generalize (if precision > 0 ∨ flags.special = true then [byte '.'] else []) = dot
  generalize (if flags.floatE = true then numBitCount flooredExp10.natAbs 10 else 0) = exponentLen
  generalize numBitCount components.integral.toNat 10 = integralLen
  generalize (if precision > 0 then numBitCount components.fractional.toNat 10 else 0) = fractionalLen
  generalize (if precision > 0 ∧ precision > (fractionalLen : Int) then precision - fractionalLen else 0) = fractionalPad
  by_cases refused : max (max integralLen fractionalLen) exponentLen > formatStackCacheSize ∧ ¬alloc = true
  · exact ⟨[], fun o => by rw [if_pos refused]; simp⟩
  · simp only [if_neg refused]
    generalize (if fieldWidth > _ then (fieldWidth - _).toNat else 0) = pad
    refine ⟨(if ¬flags.left = true ∧ ¬flags.zeropad = true then List.replicate pad (byte ' ') else []) ++ sign ++
      (if flags.zeropad = true then List.replicate pad (byte '0') else []) ++
      fillDigits false 10 integralLen components.integral.toNat ++ dot ++ List.replicate fractionalPad.toNat (byte '0') ++
      fillDigits false 10 fractionalLen components.fractional.toNat ++ List.replicate precisionPad.toNat (byte '0') ++
      exponentText flags flooredExp10 exponentLen ++
      (if flags.left = true ∧ ¬flags.zeropad = true then List.replicate pad (byte ' ') else []), fun o => ?_⟩
    cases flags.left <;> cases flags.zeropad <;>
      simp [putManyEq, putAllEq, putExponentEq, emitAllAppend, add_assoc]

theorem vprintfFloatFOrGPrints (num : Float) (fieldWidth precision : Int) (flags : Flags) (alloc : Bool) :
    ∃ text, Prints (fun o => vprintfFloatFOrG o num fieldWidth precision flags alloc) text := by
  unfold vprintfFloatFOrG
  by_cases outside : num < -1.e18 ∨ num > 1.e18
  · exact ⟨[], fun o => by simp only [if_pos outside]; simp⟩
  · simp only [if_neg outside]
    exact vprintfFloatDecimalismPrints _ _ _ _ _ _

theorem vprintfFloatEPrints (num : Float) (fieldWidth precision : Int) (flags : Flags) (alloc : Bool) :
    ∃ text, Prints (fun o => vprintfFloatE o num fieldWidth precision flags alloc) text :=
  vprintfFloatDecimalismPrints _ _ _ _ _ _

theorem vprintfFloatPrints (num : Float) (fieldWidth precision : Int) (flags : Flags) (alloc : Nat → Bool) :
    ∃ text, Prints (fun o => vprintfFloat o num fieldWidth precision flags alloc) text := by
  by_cases notFinite : vprintfFloatIsInf num = true ∨ vprintfFloatIsNan num = true
  · have prints := vprintfStringPrints (some ((specialFloatText num flags).toList.map byte)) fieldWidth (-1) flags
    refine ⟨_, fun o => Eq.trans ?_ (prints o)⟩
    simp only [vprintfFloat, if_pos notFinite]
  · obtain ⟨first, printsFirst⟩ := vprintfFloatFOrGPrints num fieldWidth precision flags (alloc 0)
    obtain ⟨second, printsSecond⟩ := vprintfFloatEPrints num fieldWidth precision
      { flags with floatF := false, floatG := false, floatE := true } (alloc 1)
    by_cases tried : flags.floatF = true ∨ flags.floatG = true
    · by_cases done : first = []
      · refine ⟨second, fun o => ?_⟩
        have ran : vprintfFloatFOrG o num fieldWidth precision flags (alloc 0) = (emitAll o first, _) := printsFirst o
        simp only [vprintfFloat, if_neg notFinite, if_pos tried, ran, done]
        exact printsSecond o
      · refine ⟨first, fun o => ?_⟩
        have ran : vprintfFloatFOrG o num fieldWidth precision flags (alloc 0) = (emitAll o first, _) := printsFirst o
        simp only [vprintfFloat, if_neg notFinite, if_pos tried, ran]
        exact if_pos (by exact_mod_cast List.length_pos_iff.mpr done)
    · refine ⟨second, fun o => ?_⟩
      simp only [vprintfFloat, if_neg notFinite, if_neg tried]
      exact printsSecond o

end Float

section Convert

def isConversion (ch : Byte) : Bool := ch ∈ "sdiuXxc%BbopEeGgFfQq".toList.map byte

variable (abi : Abi) (d : Directive) (args : VaList)

theorem printNumberPrints (flags : Flags) (base : BaseType) (alloc : Bool) :
    ∃ text args', ∀ o, printNumber abi o d flags base args alloc = (emitAll o text, (text.length : Int), args') := by
  refine ⟨numberText (numberArg abi d.qualifier flags.signed (args 0)) d.fieldWidth d.precision flags base alloc,
    args.rest, fun o => ?_⟩
  have ran := vprintfNumberPrints (numberArg abi d.qualifier flags.signed (args 0)) d.fieldWidth d.precision flags base alloc o
  simp only at ran
  simp only [printNumber, ran]

theorem printFloatPrints (flags : Flags) (alloc : Nat → Bool) :
    ∃ text args', ∀ o, printFloat o d flags args alloc = (emitAll o text, (text.length : Int), args') := by
  by_cases long : d.qualifier = .longLong
  · exact ⟨[], args, fun o => by simp [printFloat, long]⟩
  · obtain ⟨text, prints⟩ := vprintfFloatPrints (args 0).double d.fieldWidth d.precision flags alloc
    refine ⟨text, args.rest, fun o => ?_⟩
    have ran := prints o
    simp only at ran
    simp only [printFloat, if_neg long, ran]

def Converts (conversion : Byte) (f : Output → Option (Output × Int × VaList)) : Prop :=
  (isConversion conversion = true ∧ ∃ text args', ∀ o, f o = some (emitAll o text, (text.length : Int), args')) ∨
  (isConversion conversion = false ∧ ∀ o, f o = none)

theorem convertsCase {conversion : Byte} {chosen : Prop} [Decidable chosen] {f g : Output → Option (Output × Int × VaList)}
    (known : chosen → isConversion conversion = true)
    (prints : ∃ text args', ∀ o, f o = some (emitAll o text, (text.length : Int), args'))
    (other : ¬chosen → Converts conversion g) : Converts conversion (fun o => if chosen then f o else g o) := by
  by_cases h : chosen
  · simp only [if_pos h]
    exact .inl ⟨known h, prints⟩
  · simp only [if_neg h]
    exact other h

theorem someOfPrints {f : Output → Output × Int × VaList}
    (prints : ∃ text args', ∀ o, f o = (emitAll o text, (text.length : Int), args')) :
    ∃ text args', ∀ o, some (f o) = some (emitAll o text, (text.length : Int), args') := by
  obtain ⟨text, args', eq⟩ := prints
  exact ⟨text, args', fun o => congrArg some (eq o)⟩

theorem restOfPrints {f : Output → Output × Int} {text : List Byte} (prints : Prints f text) :
    ∃ text args', ∀ o, some ((f o).1, (f o).2, args.rest) = some (emitAll o text, (text.length : Int), args') :=
  ⟨text, args.rest, fun o => by rw [prints o]⟩

theorem isConversionOf {conversion c : Byte} (known : isConversion c = true) (same : conversion = c) :
    isConversion conversion = true := same ▸ known

theorem convertConverts (conversion : Byte) (alloc : Nat → Bool) :
    Converts conversion (fun o => convert abi o d conversion args alloc) := by
  unfold convert
  have number (flags : Flags) (base : BaseType) :=
    someOfPrints (printNumberPrints abi d args flags base (alloc 0))
  have float (flags : Flags) := someOfPrints (printFloatPrints d args flags alloc)
  refine convertsCase (isConversionOf rfl) (restOfPrints args (vprintfStringPrints _ _ _ _)) fun s => ?_
  refine convertsCase (fun h => h.elim (isConversionOf rfl) (isConversionOf rfl)) (number _ _) fun i => ?_
  refine convertsCase (isConversionOf rfl) (number _ _) fun u => ?_
  refine convertsCase (isConversionOf rfl) (number _ _) fun X => ?_
  refine convertsCase (isConversionOf rfl) (number _ _) fun x => ?_
  refine convertsCase (isConversionOf rfl) (restOfPrints args (vprintfCharPrints _ _ _)) fun c => ?_
  refine convertsCase (isConversionOf rfl) ⟨[byte '%'], args, fun o => rfl⟩ fun percent => ?_
  refine convertsCase (isConversionOf rfl) (number _ _) fun B => ?_
  refine convertsCase (isConversionOf rfl) (number _ _) fun b => ?_
  refine convertsCase (isConversionOf rfl) (number _ _) fun o => ?_
  refine convertsCase (isConversionOf rfl) (restOfPrints args (vprintfNumberPrints _ _ _ _ _ _)) fun p => ?_
  refine convertsCase (isConversionOf rfl) (float _) fun E => ?_
  refine convertsCase (isConversionOf rfl) (float _) fun e => ?_
  refine convertsCase (isConversionOf rfl) (float _) fun G => ?_
  refine convertsCase (isConversionOf rfl) (float _) fun g => ?_
  refine convertsCase (isConversionOf rfl) (float _) fun F => ?_
  refine convertsCase (isConversionOf rfl) (float _) fun f => ?_
  refine convertsCase (isConversionOf rfl) (restOfPrints args (vprintfArrayPrints _ _ _ _ _ _)) fun Q => ?_
  refine convertsCase (isConversionOf rfl) (restOfPrints args (vprintfArrayPrints _ _ _ _ _ _)) fun q => ?_
  refine .inr ⟨?_, fun _ => rfl⟩
  have list : "sdiuXxc%BbopEeGgFfQq".toList = ['s', 'd', 'i', 'u', 'X', 'x', 'c', '%', 'B', 'b', 'o', 'p', 'E', 'e', 'G', 'g',
    'F', 'f', 'Q', 'q'] := rfl
  simp_all [isConversion]

end Convert

section Whole

variable (abi : Abi)

theorem parseDirectiveRest (args : VaList) (fmt : List Byte) :
    (parseDirective args fmt).2.2 =
      let flagged := parseFlags noFlags fmt
      let width := parseWidth flagged.1 args flagged.2
      (parseQualifier (parsePrecision width.2.2.1 width.2.2.2).2.2).2 := by
  unfold parseDirective
  rfl

theorem parseDirectiveEnd (args args' : VaList) (fmt : List Byte) :
    (parseDirective args fmt).2.2 = (parseDirective args' fmt).2.2 := by
  have width (flags : Flags) (fmt : List Byte) : (parseWidth flags args fmt).2.2.2 = (parseWidth flags args' fmt).2.2.2 := by
    simp only [parseWidth]
    split
    · rfl
    · split <;> simp only
  have precision (args args' : VaList) (fmt : List Byte) : (parsePrecision args fmt).2.2 = (parsePrecision args' fmt).2.2 := by
    simp only [parsePrecision]
    split
    · split
      · rfl
      · split <;> simp only
    · rfl
  rw [parseDirectiveRest, parseDirectiveRest]
  simp only [width]
  exact congrArg (fun fmt => (parseQualifier fmt).2) (precision _ _ _)

def directiveEnd (fmt : List Byte) : List Byte := (parseDirective (fun _ => ⟨0, none, fun _ => 0, 0⟩) fmt).2.2

theorem directiveEndOf (args : VaList) (fmt : List Byte) : (parseDirective args fmt).2.2 = directiveEnd fmt :=
  parseDirectiveEnd _ _ _

theorem parseFlagsLength (flags : Flags) (fmt : List Byte) : (parseFlags flags fmt).2.length ≤ fmt.length := by
  induction fmt generalizing flags with
  | nil => simp [parseFlags]
  | cons ch fmt ih =>
    unfold parseFlags
    split_ifs
    all_goals first
      | exact (ih _).trans (Nat.le_succ _)
      | exact le_rfl

theorem skipAtoiLength (i : Int) (fmt : List Byte) : (skipAtoi i fmt).2.length ≤ fmt.length := by
  induction fmt generalizing i with
  | nil => simp [skipAtoi]
  | cons ch fmt ih =>
    unfold skipAtoi
    split
    · exact (ih _).trans (Nat.le_succ _)
    · exact le_rfl

theorem parseWidthLength (flags : Flags) (args : VaList) (fmt : List Byte) :
    (parseWidth flags args fmt).2.2.2.length ≤ fmt.length := by
  unfold parseWidth
  split
  · exact skipAtoiLength _ _
  · split <;> simp

theorem parsePrecisionLength (args : VaList) (fmt : List Byte) : (parsePrecision args fmt).2.2.length ≤ fmt.length := by
  have tail : fmt.tail.length ≤ fmt.length := by simp
  simp only [parsePrecision]
  split
  · split
    · exact (skipAtoiLength _ _).trans tail
    · split
      · exact le_trans (by simp) tail
      · exact tail
  · exact le_rfl

theorem parseQualifierLength (fmt : List Byte) : (parseQualifier fmt).2.length ≤ fmt.length := by
  unfold parseQualifier
  split_ifs <;> simp <;> omega

theorem directiveEndLength (fmt : List Byte) : (directiveEnd fmt).length ≤ fmt.length := by
  rw [directiveEnd, parseDirectiveRest]
  exact (parseQualifierLength _).trans
    ((parsePrecisionLength _ _).trans ((parseWidthLength _ _ _).trans (parseFlagsLength _ _)))

def unknownConversionsFrom : Nat → List Byte → Nat
  | 0, _ => 0
  | fuel + 1, fmt =>
      if peek fmt = 0 then 0
      else if peek fmt ≠ byte '%' then unknownConversionsFrom fuel fmt.tail
      else if isConversion (peek (directiveEnd fmt.tail)) then unknownConversionsFrom fuel (directiveEnd fmt.tail).tail
      else unknownConversionsFrom fuel fmt.tail + 1

def unknownConversions (fmt : List Byte) : Nat := unknownConversionsFrom fmt.length fmt

/- Every round of the loop shortens the format, so a fuel of its length is never used up. -/
theorem vprintfFromFuel (fuel : Nat) (allocs : Nat → Nat → Bool) (o : Output) (fmt : List Byte) (args : VaList) (n : Int)
    (enough : fmt.length ≤ fuel) : vprintfFrom abi (fuel + 1) allocs o fmt args n = vprintfFrom abi fuel allocs o fmt args n := by
  induction fuel generalizing allocs o fmt args n with
  | zero =>
    have empty : fmt = [] := List.length_eq_zero_iff.mp (Nat.le_zero.mp enough)
    rw [empty]
    rfl
  | succ fuel ih =>
    rw [vprintfFrom.eq_2 abi allocs o fmt args n (fuel + 1), vprintfFrom.eq_2 abi allocs o fmt args n fuel]
    by_cases done : peek fmt = 0
    · rw [if_pos done, if_pos done]
    · have shorter : fmt.tail.length ≤ fuel := by simp; omega
      rw [if_neg done, if_neg done]
      by_cases plain : peek fmt ≠ byte '%'
      · rw [if_pos plain, if_pos plain]
        exact ih _ _ _ _ _ shorter
      · rw [if_neg plain, if_neg plain]
        simp only [directiveEndOf]
        cases convert abi o (parseDirective args fmt.tail).1 (peek (directiveEnd fmt.tail)) (parseDirective args fmt.tail).2.1
            (allocs 0) with
        | none => exact ih _ _ _ _ _ shorter
        | some r => exact ih _ _ _ _ _ (by have := directiveEndLength fmt.tail; simp at this shorter ⊢; omega)

theorem vprintfFromEnough {fuel : Nat} (allocs : Nat → Nat → Bool) (o : Output) (fmt : List Byte) (args : VaList) (n : Int)
    (enough : fmt.length ≤ fuel) : vprintfFrom abi fuel allocs o fmt args n = vprintfFrom abi fmt.length allocs o fmt args n := by
  induction fuel with
  | zero => rw [Nat.le_zero.mp enough]
  | succ fuel ih =>
    rcases Nat.lt_or_eq_of_le enough with fewer | same
    · rw [vprintfFromFuel abi fuel allocs o fmt args n (by omega)]
      exact ih (by omega)
    · rw [same]

theorem vprintfFromPrints (fuel : Nat) (allocs : Nat → Nat → Bool) (fmt : List Byte) (args : VaList) :
    ∃ text, ∀ o n, vprintfFrom abi fuel allocs o fmt args n =
      (emitAll o text, n + text.length - unknownConversionsFrom fuel fmt) := by
  induction fuel generalizing allocs fmt args with
  | zero => exact ⟨[], fun o n => by simp [vprintfFrom, unknownConversionsFrom]⟩
  | succ fuel ih =>
    simp only [vprintfFrom, unknownConversionsFrom]
    by_cases done : peek fmt = 0
    · exact ⟨[], fun o n => by simp [done]⟩
    by_cases plain : peek fmt ≠ byte '%'
    · obtain ⟨text, prints⟩ := ih allocs fmt.tail args
      refine ⟨peek fmt :: text, fun o n => ?_⟩
      rw [if_neg done, if_pos plain, if_neg done, if_pos plain, prints, emitAllCons, List.length_cons]
      refine Prod.ext rfl ?_
      push_cast
      omega
    simp only [if_neg done, if_neg plain, directiveEndOf]
    rcases convertConverts abi (parseDirective args fmt.tail).1 (parseDirective args fmt.tail).2.1
      (peek (directiveEnd fmt.tail)) (allocs 0) with ⟨known, first, args', converts⟩ | ⟨unknown, converts⟩
    · obtain ⟨text, prints⟩ := ih (fun i => allocs (i + 1)) (directiveEnd fmt.tail).tail args'
      refine ⟨first ++ text, fun o n => ?_⟩
      simp only [converts, known, if_true, prints, emitAllAppend, List.length_append]
      refine Prod.ext rfl ?_
      push_cast
      omega
    · obtain ⟨text, prints⟩ := ih allocs fmt.tail (parseDirective args fmt.tail).2.1
      refine ⟨byte '%' :: text, fun o n => ?_⟩
      simp only [converts, unknown, Bool.false_eq_true, if_false, prints, emitAllCons, List.length_cons]
      refine Prod.ext rfl ?_
      push_cast
      omega

/- The text a format puts out is the same on every stream, and the result falls short of
its length by the number of unknown conversions. -/
theorem streamoutVprintfPrints (fmt : List Byte) (args : VaList) (allocs : Nat → Nat → Bool) :
    ∃ text, ∀ o, streamoutVprintf abi o fmt args allocs =
      (emitAll o text, (text.length : Int) - unknownConversions fmt) := by
  obtain ⟨text, prints⟩ := vprintfFromPrints abi fmt.length allocs fmt args
  refine ⟨text, fun o => ?_⟩
  rw [streamoutVprintf, prints, zero_add]
  rfl

end Whole

end Nanosig.Formatio
