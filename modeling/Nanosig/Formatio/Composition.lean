import Nanosig.Formatio.Count
import Nanosig.Formatio.Integer

/-! Formats one after the other: what a complete format takes from the arguments, and when
the format behind it starts at its own. -/
namespace Nanosig.Formatio

open ByteStore

inductive LengthModifier where
  | none
  | hh
  | h
  | l
  | ll
  | L
  | z
  deriving DecidableEq

def LengthModifier.bytes : LengthModifier → List Byte
  | .none => []
  | .hh => [byte 'h', byte 'h']
  | .h => [byte 'h']
  | .l => [byte 'l']
  | .ll => [byte 'l', byte 'l']
  | .L => [byte 'L']
  | .z => [byte 'z']

def LengthModifier.qualifier : LengthModifier → Qualifier
  | .none => .none
  | .hh => .char
  | .h => .short
  | .l => .long
  | .ll => .longLong
  | .L => .longLong
  | .z => .sizeT

structure FormatDirective where
  flags : List FlagChar
  width : Width
  precision : Precision
  modifier : LengthModifier
  conversion : Byte
  supported : isConversion conversion = true

inductive Piece where
  | literal (ch : Byte) (plain : ch ≠ 0 ∧ ch ≠ byte '%')
  | directive (d : FormatDirective)

namespace FormatDirective

variable (d : FormatDirective)

def lead : IntegerDirective := ⟨d.flags, d.width, d.precision, .none, .d⟩

def bytes : List Byte :=
  byte '%' :: (d.flags.map FlagChar.byte ++ (d.width.bytes ++ (d.precision.bytes ++ (d.modifier.bytes ++ [d.conversion]))))

def stars : Nat := (if d.width = .star then 1 else 0) + if d.precision = .star then 1 else 0

/- How many arguments C99, or ns_formatio.h, assigns to the directive. -/
def assigned : Nat := d.stars + if d.conversion = byte '%' then 0 else 1

def LongFloat : Prop := d.conversion ∈ "EeGgFf".toList.map byte ∧ d.modifier.qualifier = .longLong

instance : Decidable d.LongFloat := inferInstanceAs (Decidable (_ ∧ _))

end FormatDirective

namespace Piece

def bytes : Piece → List Byte
  | .literal ch _ => [ch]
  | .directive d => d.bytes

def assigned : Piece → Nat
  | .literal _ _ => 0
  | .directive d => d.assigned

end Piece

def formatOf (pieces : List Piece) : List Byte := pieces.flatMap Piece.bytes

def assignedTo (pieces : List Piece) : Nat := (pieces.map Piece.assigned).sum

def directivesOf (pieces : List Piece) : Nat := (pieces.filter fun piece => piece matches .directive _).length

def VaList.behind (args : List Arg) (later : VaList) : VaList := fun i => (args[i]?).getD (later (i - args.length))

/- Whatever format follows, it prints what it prints alone with its own arguments, and the
first format prints what it prints alone. -/
def Composes (abi : Abi) (pieces : List Piece) (args : List Arg) : Prop :=
  ∀ (fmt : List Byte) (later later' : VaList) (allocs : Nat → Nat → Bool),
    passed abi (formatOf pieces ++ fmt) (VaList.behind args later) allocs =
      passed abi (formatOf pieces) (VaList.behind args later') allocs ++
        passed abi fmt later fun i => allocs (i + directivesOf pieces)

section Converted

/- Whether the switch takes an argument with `va_arg`. -/
def takesArgument (qualifier : Qualifier) (conversion : Byte) : Bool :=
  conversion ≠ byte '%' ∧ ¬(conversion ∈ "EeGgFf".toList.map byte ∧ qualifier = .longLong)

def blank : Arg := ⟨0, none, fun _ => 0, 0⟩

variable (abi : Abi) (d : Directive)

def Reads (taken : Bool) (f : VaList → Option (Output × Int × VaList)) : Prop :=
  ∀ args, f args = (f fun _ => if taken then args 0 else blank).map fun r => (r.1, r.2.1, if taken then args.rest else args)

theorem readsCase {taken : Bool} {chosen : Prop} [Decidable chosen] {f g : VaList → Option (Output × Int × VaList)}
    (first : chosen → Reads taken f) (other : ¬chosen → Reads taken g) : Reads taken (fun args => if chosen then f args else g args) := by
  intro args
  by_cases h : chosen
  · simp only [if_pos h]
    exact first h args
  · simp only [if_neg h]
    exact other h args

theorem takesBut {qualifier : Qualifier} {conversion ch : Byte} (known : ch ∈ "sdiuXxcBbopQq".toList.map byte)
    (same : conversion = ch) : takesArgument qualifier conversion = true := by
  have all : ∀ ch ∈ "sdiuXxcBbopQq".toList.map byte, takesArgument qualifier ch = true := by
    cases qualifier <;> decide +kernel
  exact same ▸ all ch known

theorem takesFloat {qualifier : Qualifier} {conversion ch : Byte} (known : ch ∈ "EeGgFf".toList.map byte)
    (same : conversion = ch) : takesArgument qualifier conversion = decide (qualifier ≠ .longLong) := by
  have all : ∀ ch ∈ "EeGgFf".toList.map byte, takesArgument qualifier ch = decide (qualifier ≠ .longLong) := by
    cases qualifier <;> decide +kernel
  exact same ▸ all ch known

theorem printNumberReads (o : Output) (flags : Flags) (base : BaseType) (alloc : Bool) :
    Reads true fun args => some (printNumber abi o d flags base args alloc) := fun _ => rfl

theorem printFloatReads (o : Output) (flags : Flags) (alloc : Nat → Bool) :
    Reads (decide (d.qualifier ≠ .longLong)) fun args => some (printFloat o d flags args alloc) := by
  intro args
  by_cases long : d.qualifier = .longLong
  · simp [printFloat, long]
  · simp [printFloat, long]

theorem convertReads (o : Output) (conversion : Byte) (alloc : Nat → Bool) :
    Reads (takesArgument d.qualifier conversion) fun args => convert abi o d conversion args alloc := by
  have number (flags : Flags) (base : BaseType) {ch : Byte} (known : ch ∈ "sdiuXxcBbopQq".toList.map byte) (same : conversion = ch) :
      Reads (takesArgument d.qualifier conversion) fun args => some (printNumber abi o d flags base args (alloc 0)) := by
    rw [takesBut known same]
    exact printNumberReads abi d o flags base (alloc 0)
  have float (flags : Flags) {ch : Byte} (known : ch ∈ "EeGgFf".toList.map byte) (same : conversion = ch) :
      Reads (takesArgument d.qualifier conversion) fun args => some (printFloat o d flags args alloc) := by
    rw [takesFloat known same]
    exact printFloatReads d o flags alloc
  have one (F : Arg → Output × Int) {ch : Byte} (known : ch ∈ "sdiuXxcBbopQq".toList.map byte) (same : conversion = ch) :
      Reads (takesArgument d.qualifier conversion) fun args => some ((F (args 0)).1, (F (args 0)).2, args.rest) := by
    rw [takesBut known same]
    exact fun _ => rfl
  unfold convert
  refine readsCase (one (fun arg => vprintfString o arg.str _ _ _) (by decide)) fun _ => ?_
  refine readsCase (fun h => h.elim (number _ _ (by decide)) (number _ _ (by decide))) fun _ => ?_
  refine readsCase (number _ _ (by decide)) fun _ => ?_
  refine readsCase (number _ _ (by decide)) fun _ => ?_
  refine readsCase (number _ _ (by decide)) fun _ => ?_
  refine readsCase (one (fun arg => vprintfChar o (arg.word.truncate 8).toNat.toUInt8 _ _) (by decide)) fun _ => ?_
  refine readsCase (fun percent args => ?_) fun _ => ?_
  · have free : takesArgument d.qualifier conversion = false := by simp [takesArgument, percent]
    simp [free]
  refine readsCase (number _ _ (by decide)) fun _ => ?_
  refine readsCase (number _ _ (by decide)) fun _ => ?_
  refine readsCase (number _ _ (by decide)) fun _ => ?_
  refine readsCase (one (fun arg => vprintfNumber o ((arg.word.truncate abi.sizeBits).zeroExtend 64) _ _ _ _ _) (by decide)) fun _ => ?_
  refine readsCase (float _ (by decide)) fun _ => ?_
  refine readsCase (float _ (by decide)) fun _ => ?_
  refine readsCase (float _ (by decide)) fun _ => ?_
  refine readsCase (float _ (by decide)) fun _ => ?_
  refine readsCase (float _ (by decide)) fun _ => ?_
  refine readsCase (float _ (by decide)) fun _ => ?_
  refine readsCase (one (fun arg => vprintfArray abi o arg.array _ _ _ _) (by decide)) fun _ => ?_
  refine readsCase (one (fun arg => vprintfArray abi o arg.array _ _ _ _) (by decide)) fun _ => ?_
  exact fun _ => rfl

def convertText (conversion : Byte) (args : VaList) (alloc : Nat → Bool) : List Byte :=
  match convert abi (functionNoCacheInit fun _ => 0) d conversion args alloc with
  | some (o, _, _) => o.chunks.flatten
  | none => []

theorem convertPrints (conversion : Byte) (supported : isConversion conversion = true) (args : VaList) (alloc : Nat → Bool)
    (o : Output) : convert abi o d conversion args alloc =
      some (emitAll o (convertText abi d conversion args alloc), ((convertText abi d conversion args alloc).length : Int),
        if takesArgument d.qualifier conversion then args.rest else args) := by
  rcases convertConverts abi d args conversion alloc with ⟨-, text, args', converts⟩ | ⟨unsupported, -⟩
  · simp only at converts
    have same : convertText abi d conversion args alloc = text := by
      rw [convertText, converts]
      simp only [functionNoCacheInit, emitAllRecorded, List.nil_append, flattenSingles]
    have reads := convertReads abi d o conversion alloc args
    simp only [converts] at reads
    obtain ⟨r, -, triple⟩ := Option.map_eq_some_iff.mp reads.symm
    have later : (if takesArgument d.qualifier conversion then args.rest else args) = args' :=
      congrArg (fun r : Output × Int × VaList => r.2.2) triple
    rw [converts, same, later]
  · rw [supported] at unsupported
    cases unsupported

theorem convertTextCongr (conversion : Byte) (args args' : VaList) (alloc : Nat → Bool)
    (same : takesArgument d.qualifier conversion = true → args 0 = args' 0) :
    convertText abi d conversion args alloc = convertText abi d conversion args' alloc := by
  have first := convertReads abi d (functionNoCacheInit fun _ => 0) conversion alloc args
  have second := convertReads abi d (functionNoCacheInit fun _ => 0) conversion alloc args'
  have equal : (fun _ : Nat => if takesArgument d.qualifier conversion then args 0 else blank) =
      fun _ => if takesArgument d.qualifier conversion then args' 0 else blank := by
    funext i
    by_cases taken : takesArgument d.qualifier conversion = true
    · simp [taken, same taken]
    · simp [taken]
  simp only at first second
  rw [convertText, convertText, first, second, equal]
  cases convert abi (functionNoCacheInit fun _ => 0) d conversion
    (fun _ => if takesArgument d.qualifier conversion then args' 0 else blank) alloc <;> rfl

end Converted

section Directives

variable (d : FormatDirective) (args : VaList)

/- How many arguments the code takes for the directive. -/
def FormatDirective.taken : Nat := d.stars + if takesArgument d.modifier.qualifier d.conversion then 1 else 0

def VaList.drop (args : VaList) (k : Nat) : VaList := fun i => args (i + k)

theorem dropDrop (args : VaList) (j k : Nat) : (args.drop j).drop k = args.drop (j + k) := by
  funext i
  simp only [VaList.drop]
  congr 1
  omega

theorem valueArgsDrop : d.lead.valueArgs args = args.drop d.stars := by
  unfold IntegerDirective.valueArgs IntegerDirective.precisionArgs FormatDirective.stars FormatDirective.lead
  by_cases width : d.width = .star <;> by_cases precision : d.precision = .star <;>
    simp [width, precision, afterStar] <;> rfl

theorem takenAfter (taken : Bool) : (if taken then args.rest else args) = args.drop (if taken then 1 else 0) := by
  cases taken <;> rfl

def FormatDirective.parsed : Directive :=
  ⟨parsedFlags d.lead args, parsedWidth d.lead args, parsedPrecision d.lead args, d.modifier.qualifier⟩

theorem conversionStops {ch : Byte} (supported : isConversion ch = true) :
    isDigit ch = false ∧ ch ≠ byte '*' ∧ ch ≠ byte '.' ∧ (∀ c : FlagChar, ch ≠ c.byte) ∧
      ch ≠ byte 'h' ∧ ch ≠ byte 'l' ∧ ch ≠ byte 'L' ∧ ch ≠ byte 'z' := by
  have all : ∀ ch ∈ "sdiuXxc%BbopEeGgFfQq".toList.map byte, isDigit ch = false ∧ ch ≠ byte '*' ∧ ch ≠ byte '.' ∧
      (∀ c ∈ [FlagChar.minus, .plus, .space, .hash, .zero], ch ≠ c.byte) ∧
      ch ≠ byte 'h' ∧ ch ≠ byte 'l' ∧ ch ≠ byte 'L' ∧ ch ≠ byte 'z' := by decide +kernel
  obtain ⟨digit, star, dot, flags, rest⟩ := all ch (by simpa [isConversion] using supported)
  exact ⟨digit, star, dot, fun c => flags c (by cases c <;> decide), rest⟩

theorem modifierParsed (modifier : LengthModifier) {ch : Byte} (supported : isConversion ch = true) (fmt : List Byte) :
    parseQualifier (modifier.bytes ++ ch :: fmt) = (modifier.qualifier, ch :: fmt) := by
  obtain ⟨-, -, -, -, h, l, L, z⟩ := conversionStops supported
  have apart : byte 'l' ≠ byte 'h' ∧ byte 'L' ≠ byte 'h' ∧ byte 'L' ≠ byte 'l' ∧ byte 'z' ≠ byte 'h' ∧ byte 'z' ≠ byte 'l' ∧
      byte 'z' ≠ byte 'L' := by decide
  cases modifier <;> simp [LengthModifier.bytes, LengthModifier.qualifier, parseQualifier, peek, h, l, L, z, apart]

theorem modifierStops (modifier : LengthModifier) {ch : Byte} (supported : isConversion ch = true) (fmt : List Byte) :
    isDigit (peek (modifier.bytes ++ ch :: fmt)) = false ∧ peek (modifier.bytes ++ ch :: fmt) ≠ byte '*' ∧
      peek (modifier.bytes ++ ch :: fmt) ≠ byte '.' ∧ ∀ c : FlagChar, peek (modifier.bytes ++ ch :: fmt) ≠ c.byte := by
  obtain ⟨digit, star, dot, flags, -⟩ := conversionStops supported
  have letters : ∀ ch ∈ [byte 'h', byte 'l', byte 'L', byte 'z'], isDigit ch = false ∧ ch ≠ byte '*' ∧ ch ≠ byte '.' ∧
      ∀ c ∈ [FlagChar.minus, .plus, .space, .hash, .zero], ch ≠ c.byte := by decide +kernel
  have letter {ch : Byte} (known : ch ∈ [byte 'h', byte 'l', byte 'L', byte 'z']) :
      isDigit ch = false ∧ ch ≠ byte '*' ∧ ch ≠ byte '.' ∧ ∀ c : FlagChar, ch ≠ c.byte := by
    obtain ⟨digit, star, dot, flags⟩ := letters ch known
    exact ⟨digit, star, dot, fun c => flags c (by cases c <;> decide)⟩
  cases modifier with
  | none => exact ⟨digit, star, dot, flags⟩
  | hh => exact letter (show byte 'h' ∈ _ by decide)
  | h => exact letter (show byte 'h' ∈ _ by decide)
  | l => exact letter (show byte 'l' ∈ _ by decide)
  | ll => exact letter (show byte 'l' ∈ _ by decide)
  | L => exact letter (show byte 'L' ∈ _ by decide)
  | z => exact letter (show byte 'z' ∈ _ by decide)

theorem formatDirectiveParsed (fmt : List Byte) :
    parseDirective args (d.bytes ++ fmt).tail = (d.parsed args, args.drop d.stars, d.conversion :: fmt) := by
  obtain ⟨digit, star, dot, plain⟩ := modifierStops d.modifier d.supported fmt
  have parsed := leadParsed d.lead args _ _ _ digit star dot plain (modifierParsed d.modifier d.supported fmt)
  rw [valueArgsDrop] at parsed
  have tail : (d.bytes ++ fmt).tail =
      d.flags.map FlagChar.byte ++ (d.width.bytes ++ (d.precision.bytes ++ (d.modifier.bytes ++ d.conversion :: fmt))) := by
    simp [FormatDirective.bytes]
  rw [tail]
  exact parsed

end Directives

section Whole

variable (abi : Abi)

def Agree (count : Nat) (args args' : VaList) : Prop := ∀ i, i < count → args i = args' i

theorem Agree.drop {count k : Nat} {args args' : VaList} (agree : Agree (k + count) args args') :
    Agree count (args.drop k) (args'.drop k) := fun i inside => agree (i + k) (by omega)

theorem Agree.mono {count k : Nat} {args args' : VaList} (agree : Agree count args args') (fewer : k ≤ count) :
    Agree k args args' := fun i inside => agree i (by omega)

def FormatDirective.text (d : FormatDirective) (args : VaList) (alloc : Nat → Bool) : List Byte :=
  convertText abi (d.parsed args) d.conversion (args.drop d.stars) alloc

theorem parsedCongr (d : FormatDirective) {args args' : VaList} (agree : Agree d.stars args args') : d.parsed args = d.parsed args' := by
  have width (star : d.width = .star) : args 0 = args' 0 := agree 0 (by simp [FormatDirective.stars, star])
  have given : d.lead.givenWidth args = d.lead.givenWidth args' := by
    unfold IntegerDirective.givenWidth
    cases written : d.lead.width with
    | none => rfl
    | literal first rest => rfl
    | star => simp only [width written]
  have left : d.lead.left args = d.lead.left args' := by
    unfold IntegerDirective.left
    by_cases star : d.width = .star
    · rw [width star]
    · simp [FormatDirective.lead, star]
  have precision : d.lead.givenPrecision args = d.lead.givenPrecision args' := by
    unfold IntegerDirective.givenPrecision
    cases written : d.lead.precision with
    | none => rfl
    | literal digits => rfl
    | star =>
      have star : d.precision = .star := written
      have same : d.lead.precisionArgs args 0 = d.lead.precisionArgs args' 0 := by
        unfold IntegerDirective.precisionArgs
        by_cases both : d.width = .star
        · have one := agree 1 (by simp [FormatDirective.stars, star, both])
          simpa [FormatDirective.lead, both, afterStar, VaList.rest] using one
        · have zero := agree 0 (by simp [FormatDirective.stars, star, both])
          simpa [FormatDirective.lead, both, afterStar] using zero
      simp only [same]
  simp only [FormatDirective.parsed, parsedFlags, parsedWidth, parsedPrecision, given, left, precision]

theorem directiveTextCongr (d : FormatDirective) {args args' : VaList} (alloc : Nat → Bool) (agree : Agree d.taken args args') :
    d.text abi args alloc = d.text abi args' alloc := by
  unfold FormatDirective.text
  rw [parsedCongr d (agree.mono (Nat.le_add_right _ _))]
  refine convertTextCongr abi _ d.conversion _ _ alloc fun taken => ?_
  have taken : takesArgument d.modifier.qualifier d.conversion = true := taken
  exact agree (0 + d.stars) (by simp [FormatDirective.taken, taken])

theorem literalRuns (allocs : Nat → Nat → Bool) (o : Output) {ch : Byte} (plain : ch ≠ 0 ∧ ch ≠ byte '%') (fmt : List Byte)
    (args : VaList) (n : Int) :
    vprintfFrom abi (ch :: fmt).length allocs o (ch :: fmt) args n =
      vprintfFrom abi fmt.length allocs (streamoutInByte o ch) fmt args (n + 1) := by
  rw [List.length_cons, vprintfFrom]
  simp only [peek, plain.1, plain.2, if_false, ne_eq, not_false_eq_true, if_true, List.tail_cons]

theorem directiveRuns (d : FormatDirective) (allocs : Nat → Nat → Bool) (o : Output) (fmt : List Byte) (args : VaList) (n : Int) :
    vprintfFrom abi (d.bytes ++ fmt).length allocs o (d.bytes ++ fmt) args n =
      vprintfFrom abi fmt.length (fun i => allocs (i + 1)) (emitAll o (d.text abi args (allocs 0))) fmt (args.drop d.taken)
        (n + (d.text abi args (allocs 0)).length) := by
  obtain ⟨fuel, length⟩ : ∃ fuel, (d.bytes ++ fmt).length = fuel + 1 := ⟨_, rfl⟩
  have enough : fmt.length ≤ fuel := by
    simp only [FormatDirective.bytes, List.length_append, List.length_cons] at length
    omega
  have prints := convertPrints abi (d.parsed args) d.conversion d.supported (args.drop d.stars) (allocs 0) o
  rw [takenAfter, dropDrop] at prints
  rw [length, vprintfFrom]
  simp only [formatDirectiveParsed, peek, prints, List.tail_cons]
  exact vprintfFromEnough abi _ _ _ _ _ enough

def textOf : List Piece → VaList → (Nat → Nat → Bool) → List Byte
  | [], _, _ => []
  | .literal ch _ :: pieces, args, allocs => ch :: textOf pieces args allocs
  | .directive d :: pieces, args, allocs =>
      d.text abi args (allocs 0) ++ textOf pieces (args.drop d.taken) fun i => allocs (i + 1)

def Piece.taken : Piece → Nat
  | .literal _ _ => 0
  | .directive d => d.taken

def takenBy (pieces : List Piece) : Nat := (pieces.map Piece.taken).sum

theorem textCongr (pieces : List Piece) (allocs : Nat → Nat → Bool) {args args' : VaList} (agree : Agree (takenBy pieces) args args') :
    textOf abi pieces args allocs = textOf abi pieces args' allocs := by
  induction pieces generalizing args args' allocs with
  | nil => rfl
  | cons piece pieces ih =>
    rw [takenBy, List.map_cons, List.sum_cons] at agree
    cases piece with
    | literal ch plain =>
      simp only [Piece.taken, Nat.zero_add] at agree
      rw [textOf, textOf, ih allocs agree]
    | directive d =>
      have agree : Agree (d.taken + takenBy pieces) args args' := agree
      rw [textOf, textOf, directiveTextCongr abi d _ (agree.mono (Nat.le_add_right _ _)), ih _ agree.drop]

theorem piecesRun (pieces : List Piece) (allocs : Nat → Nat → Bool) (o : Output) (fmt : List Byte) (args : VaList) (n : Int) :
    vprintfFrom abi (formatOf pieces ++ fmt).length allocs o (formatOf pieces ++ fmt) args n =
      vprintfFrom abi fmt.length (fun i => allocs (i + directivesOf pieces)) (emitAll o (textOf abi pieces args allocs)) fmt
        (args.drop (takenBy pieces)) (n + (textOf abi pieces args allocs).length) := by
  induction pieces generalizing allocs o args n with
  | nil =>
    have none : args.drop 0 = args := rfl
    simp [formatOf, textOf, directivesOf, takenBy, none]
  | cons piece pieces ih =>
    have split : formatOf (piece :: pieces) ++ fmt = piece.bytes ++ (formatOf pieces ++ fmt) := by
      simp [formatOf]
    rw [split]
    cases piece with
    | literal ch plain =>
      rw [Piece.bytes, List.singleton_append, literalRuns abi allocs o plain, ih]
      simp only [textOf, emitAllCons, directivesOf, takenBy, List.map_cons, List.sum_cons, Piece.taken, Nat.zero_add,
        List.length_cons, List.filter_cons]
      congr 1
      push_cast
      omega
    | directive d =>
      rw [Piece.bytes, directiveRuns, ih, dropDrop]
      have shift : directivesOf (.directive d :: pieces) = directivesOf pieces + 1 := rfl
      simp only [textOf, emitAllAppend, takenBy, List.map_cons, List.sum_cons, Piece.taken, List.length_append, shift,
        Nat.add_assoc]
      congr 1
      push_cast
      omega

theorem fromPassed (allocs : Nat → Nat → Bool) (o : Output) (fmt : List Byte) (args : VaList) (n : Int) :
    (vprintfFrom abi fmt.length allocs o fmt args n).1 = emitAll o (passed abi fmt args allocs) := by
  obtain ⟨text, prints⟩ := vprintfFromPrints abi fmt.length allocs fmt args
  have same : passed abi fmt args allocs = text := by
    rw [passed, streamoutVprintf, prints, functionNoCacheInit, emitAllRecorded, List.nil_append, flattenSingles]
  rw [prints, same]

theorem passedBehind (pieces : List Piece) (fmt : List Byte) (args : VaList) (allocs : Nat → Nat → Bool) :
    passed abi (formatOf pieces ++ fmt) args allocs =
      textOf abi pieces args allocs ++ passed abi fmt (args.drop (takenBy pieces)) fun i => allocs (i + directivesOf pieces) := by
  rw [passed, streamoutVprintf, piecesRun, fromPassed, ← emitAllAppend, functionNoCacheInit, emitAllRecorded, List.nil_append,
    flattenSingles]

theorem passedPieces (pieces : List Piece) (args : VaList) (allocs : Nat → Nat → Bool) :
    passed abi (formatOf pieces) args allocs = textOf abi pieces args allocs := by
  have alone := passedBehind abi pieces [] args allocs
  have empty (args : VaList) (allocs : Nat → Nat → Bool) : passed abi [] args allocs = [] := rfl
  rwa [List.append_nil, empty, List.append_nil] at alone

end Whole

section Aligned

/- Only the floating conversions of a `long double` leave an argument that is theirs. -/
theorem takenAssigned (d : FormatDirective) : d.taken + (if d.LongFloat then 1 else 0) = d.assigned := by
  have takes : takesArgument d.modifier.qualifier d.conversion = decide (d.conversion ≠ byte '%' ∧ ¬d.LongFloat) := rfl
  unfold FormatDirective.taken FormatDirective.assigned
  rw [takes]
  by_cases percent : d.conversion = byte '%'
  · have short : ¬d.LongFloat := fun long => absurd (percent ▸ long.1) (by decide)
    simp [percent, short]
  · by_cases long : d.LongFloat
    · simp [percent, long]
    · simp [percent, long]

theorem takenByAssigned (pieces : List Piece) :
    takenBy pieces ≤ assignedTo pieces ∧
      (takenBy pieces = assignedTo pieces ↔ ∀ d, Piece.directive d ∈ pieces → ¬d.LongFloat) := by
  induction pieces with
  | nil => simp [takenBy, assignedTo]
  | cons piece pieces ih =>
    obtain ⟨fewer, equal⟩ := ih
    have taken : takenBy (piece :: pieces) = piece.taken + takenBy pieces := rfl
    have assigned : assignedTo (piece :: pieces) = piece.assigned + assignedTo pieces := rfl
    rw [taken, assigned]
    cases piece with
    | literal ch plain => simpa [Piece.taken, Piece.assigned] using And.intro fewer equal
    | directive d =>
      have counted := takenAssigned d
      simp only [Piece.taken, Piece.assigned, List.mem_cons, Piece.directive.injEq, forall_eq_or_imp, ← equal]
      by_cases long : d.LongFloat
      · simp only [long, if_true] at counted
        exact ⟨by omega, fun same => by omega, fun none => absurd long none.1⟩
      · simp only [long, if_false] at counted
        exact ⟨by omega, fun same => ⟨long, by omega⟩, fun both => by omega⟩

theorem behindFirst (args : List Arg) (later later' : VaList) :
    Agree args.length (VaList.behind args later) (VaList.behind args later') := by
  intro i inside
  simp [VaList.behind, inside]

theorem behindLeft (args : List Arg) (later : VaList) : (VaList.behind args later).drop args.length = later := by
  funext i
  simp [VaList.behind, VaList.drop]

variable (abi : Abi)

def decimal : FormatDirective := ⟨[], .none, .none, .none, byte 'd', by decide⟩

def words (word : BitVec 64) : VaList := fun _ => ⟨word, none, fun _ => 0, 0⟩

theorem decimalApart : passed abi (formatOf [.directive decimal]) (words 0) (fun _ _ => true) ≠
    passed abi (formatOf [.directive decimal]) (words 1) fun _ _ => true := by
  cases abi <;> decide +kernel

/- A complete format with its own arguments leaves every format behind it to the arguments
after them, exactly when no floating conversion asks for a `long double`. -/
theorem formatsCompose (pieces : List Piece) (args : List Arg) (complete : args.length = assignedTo pieces) :
    Composes abi pieces args ↔ ∀ d, Piece.directive d ∈ pieces → ¬d.LongFloat := by
  obtain ⟨fewer, all⟩ := takenByAssigned pieces
  rw [← all, ← complete]
  constructor
  · intro composes
    by_contra short
    have inside : takenBy pieces < args.length := by omega
    have behind (later : VaList) : passed abi (formatOf [.directive decimal])
        ((VaList.behind args later).drop (takenBy pieces)) (fun _ _ => true) =
          passed abi (formatOf [.directive decimal]) later fun _ _ => true := by
      have split := composes (formatOf [.directive decimal]) later later fun _ _ => true
      rw [passedBehind, passedPieces abi pieces] at split
      exact List.append_cancel_left split
    -- `%d` reads the argument that is left, whatever comes after it.
    have left : passed abi (formatOf [.directive decimal]) ((VaList.behind args (words 0)).drop (takenBy pieces)) (fun _ _ => true) =
        passed abi (formatOf [.directive decimal]) ((VaList.behind args (words 1)).drop (takenBy pieces)) fun _ _ => true := by
      rw [passedPieces, passedPieces]
      refine textCongr abi _ _ (Agree.drop ?_)
      exact (behindFirst args (words 0) (words 1)).mono inside
    exact decimalApart abi ((behind (words 0)).symm.trans (left.trans (behind (words 1))))
  · intro taken fmt later later' allocs
    rw [passedBehind, passedPieces, taken, behindLeft]
    rw [textCongr abi pieces allocs ((behindFirst args later later').mono (Nat.le_of_eq taken))]

/- `"x=%5d"` with one argument. -/
theorem formatsComposeOne : Composes .lp64
    [.literal (byte 'x') (by decide), .literal (byte '=') (by decide), .directive { decimal with width := .literal 4 [] }]
    [⟨7, none, fun _ => 0, 0⟩] :=
  (formatsCompose .lp64 _ _ rfl).mpr (by simp; decide)

def longDouble : FormatDirective := ⟨[], .none, .none, .L, byte 'f', by decide⟩

/- `"%Lf%d"` with `1.0L` and `7`: nothing is printed for `1.0L`, and `%d` reads its first word. -/
theorem longDoubleLeft :
    let one : List Arg := [⟨0, none, fun _ => 0, 1⟩]
    let f1 := formatOf [.directive longDouble]
    let f2 := formatOf [.directive decimal]
    one.length = assignedTo [.directive longDouble] ∧
      passed .ilp32 (f1 ++ f2) (VaList.behind one (words 7)) (fun _ _ => true) = [byte '0'] ∧
      passed .ilp32 f1 (VaList.behind one (words 0)) (fun _ _ => true) ++ passed .ilp32 f2 (words 7) (fun _ _ => true) = [byte '7'] ∧
      ¬Composes .ilp32 [.directive longDouble] one := by
  have together : passed .ilp32 (formatOf [.directive longDouble] ++ formatOf [.directive decimal])
      (VaList.behind [⟨0, none, fun _ => 0, 1⟩] (words 7)) (fun _ _ => true) = [byte '0'] := by decide +kernel
  have apart : passed .ilp32 (formatOf [.directive longDouble]) (VaList.behind [⟨0, none, fun _ => 0, 1⟩] (words 0)) (fun _ _ => true) ++
      passed .ilp32 (formatOf [.directive decimal]) (words 7) (fun _ _ => true) = [byte '7'] := by decide +kernel
  refine ⟨rfl, together, apart, fun composes => ?_⟩
  have split := composes (formatOf [.directive decimal]) (words 7) (words 0) fun _ _ => true
  rw [together, apart] at split
  exact absurd split (by decide)

end Aligned

end Nanosig.Formatio
