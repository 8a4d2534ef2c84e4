import Nanosig.Formatio.Text

/-! `streamout_vprintf` with the cursor of the source: every byte of the format is read at its
place in the string, and the `int` arithmetic of width and precision is checked. -/
namespace Nanosig.Formatio

/- What would be undefined or never end: a byte behind the NUL, an `int` out of range, a loop
that has not ended in the time given to it. -/
inductive Fault where
  | outside
  | overflow
  | unfinished

def readAt (s : List Byte) (fmt : Nat) : Except Fault Byte :=
  match (s ++ [0])[fmt]? with
  | some ch => .ok ch
  | none => .error .outside

def int (x : Int) : Except Fault Int := if -2 ^ 31 ≤ x ∧ x < 2 ^ 31 then .ok x else .error .overflow

def skipAtoiAt (s : List Byte) : Nat → Int → Nat → Except Fault (Int × Nat)
  | 0, _, _ => .error .unfinished
  | fuel + 1, i, fmt => do
      let ch ← readAt s fmt
      if isDigit ch then
        let product ← int (i * 10)
        let i ← int (product + (ch - byte '0').toNat)
        skipAtoiAt s fuel (if i > formatMaxField then formatMaxField else i) (fmt + 1)
      else pure (i, fmt)

def parseFlagsAt (s : List Byte) : Nat → Flags → Nat → Except Fault (Flags × Nat)
  | 0, _, _ => .error .unfinished
  | fuel + 1, flags, fmt => do
      let ch ← readAt s fmt
      if ch = byte '-' then parseFlagsAt s fuel { flags with left := true } (fmt + 1)
      else if ch = byte '+' then parseFlagsAt s fuel { flags with plus := true } (fmt + 1)
      else if ch = byte ' ' then parseFlagsAt s fuel { flags with space := true } (fmt + 1)
      else if ch = byte '#' then parseFlagsAt s fuel { flags with special := true } (fmt + 1)
      else if ch = byte '0' then parseFlagsAt s fuel { flags with zeropad := true } (fmt + 1)
      else pure (flags, fmt)

def starWidthAt (width : Int) : Except Fault (Int × Bool) := do
  let negative := decide (width < 0)
  let width ← if negative then (if width = -2 ^ 31 then pure formatMaxField else int (-width)) else pure width
  pure (if width > formatMaxField then formatMaxField else width, negative)

def parseWidthAt (s : List Byte) (flags : Flags) (args : VaList) (fmt : Nat) : Except Fault (Int × Flags × VaList × Nat) := do
  let ch ← readAt s fmt
  if isDigit ch then
    let (width, fmt) ← skipAtoiAt s (s.length + 1) 0 fmt
    pure (width, flags, args, fmt)
  else if ch = byte '*' then
    let (width, negative) ← starWidthAt (args 0).int
    pure (width, { flags with left := flags.left || negative }, args.rest, fmt + 1)
  else pure (-1, flags, args, fmt)

def parsePrecisionAt (s : List Byte) (args : VaList) (fmt : Nat) : Except Fault (Int × VaList × Nat) := do
  let ch ← readAt s fmt
  if ch = byte '.' then
    let fmt := fmt + 1
    let ch ← readAt s fmt
    if isDigit ch then
      let (precision, fmt) ← skipAtoiAt s (s.length + 1) 0 fmt
      pure (clampPrecision precision, args, fmt)
    else if ch = byte '*' then pure (clampPrecision (args 0).int, args.rest, fmt + 1)
    else pure (clampPrecision (-1), args, fmt)
  else pure (-1, args, fmt)

def parseQualifierAt (s : List Byte) (fmt : Nat) : Except Fault (Qualifier × Nat) := do
  let ch ← readAt s fmt
  if ch = byte 'h' then
    let next ← readAt s (fmt + 1)
    if next = byte 'h' then pure (.char, fmt + 2) else pure (.short, fmt + 1)
  else if ch = byte 'l' then
    let next ← readAt s (fmt + 1)
    if next = byte 'l' then pure (.longLong, fmt + 2) else pure (.long, fmt + 1)
  else if ch = byte 'L' then pure (.longLong, fmt + 1)
  else if ch = byte 'z' then pure (.sizeT, fmt + 1)
  else pure (.none, fmt)

def parseDirectiveAt (s : List Byte) (args : VaList) (fmt : Nat) : Except Fault (Directive × VaList × Nat) := do
  let (flags, fmt) ← parseFlagsAt s (s.length + 1) noFlags fmt
  let (fieldWidth, flags, args, fmt) ← parseWidthAt s flags args fmt
  let flags := if flags.left then { flags with zeropad := false } else flags
  let (precision, args, fmt) ← parsePrecisionAt s args fmt
  let (qualifier, fmt) ← parseQualifierAt s fmt
  pure (⟨flags, fieldWidth, precision, qualifier⟩, args, fmt)

/- The loop from the place `fmt` on. In the default branch the cursor goes back to `fmt_start`. -/
def vprintfAt (abi : Abi) (s : List Byte) : Nat → (Nat → Nat → Bool) → Output → Nat → VaList → Int → Except Fault (Output × Int)
  | 0, _, _, _, _, _ => .error .unfinished
  | fuel + 1, allocs, o, fmt, args, n => do
      let ch ← readAt s fmt
      if ch = 0 then pure (o, n)
      else if ch ≠ byte '%' then vprintfAt abi s fuel allocs (streamoutInByte o ch) (fmt + 1) args (n + 1)
      else
        let fmtStart := fmt
        let (d, args, fmt) ← parseDirectiveAt s args (fmt + 1)
        let conversion ← readAt s fmt
        match convert abi o d conversion args (allocs 0) with
        | some (o, k, args) => vprintfAt abi s fuel (fun i => allocs (i + 1)) o (fmt + 1) args (n + k)
        | none => vprintfAt abi s fuel allocs (streamoutInByte o (byte '%')) (fmtStart + 1) args n

/- Every round of a loop moves the cursor on, so the length of the string is time enough. -/
def streamoutVprintfAt (abi : Abi) (s : List Byte) (o : Output) (args : VaList) (allocs : Nat → Nat → Bool) :
    Except Fault (Output × Int) := vprintfAt abi s (s.length + 1) allocs o 0 args 0

section Cursors

variable {s rest : List Byte}

def cursor (s rest : List Byte) : Nat := s.length - rest.length

theorem readCursor (suffix : rest <:+ s) : readAt s (cursor s rest) = .ok (peek rest) := by
  obtain ⟨front, rfl⟩ := suffix
  have here : cursor (front ++ rest) rest = front.length := by simp [cursor]
  rw [readAt, here, List.append_assoc, List.getElem?_append_right (Nat.le_refl _), Nat.sub_self]
  cases rest <;> rfl

theorem restCons (nonzero : peek rest ≠ 0) : ∃ ch tail, rest = ch :: tail := by
  cases rest with
  | nil => exact absurd rfl nonzero
  | cons ch tail => exact ⟨ch, tail, rfl⟩

theorem cursorNext {ch : Byte} {tail : List Byte} (suffix : ch :: tail <:+ s) :
    cursor s (ch :: tail) + 1 = cursor s tail ∧ tail <:+ s := by
  have length := suffix.length_le
  rw [List.length_cons] at length
  refine ⟨?_, (List.suffix_cons ch tail).trans suffix⟩
  unfold cursor
  rw [List.length_cons]
  omega

theorem digitValue {ch : Byte} (digit : isDigit ch = true) : (ch - byte '0').toNat ≤ 9 := by
  obtain ⟨low, high⟩ : byte '0' ≤ ch ∧ ch ≤ byte '9' := by simpa [isDigit] using digit
  have zero : (byte '0').toNat = 48 := by decide
  have nine : (byte '9').toNat = 57 := by decide
  have most := UInt8.le_iff_toNat_le.mp high
  rw [UInt8.toNat_sub_of_le _ _ low]
  omega

theorem intOk {x : Int} (least : -2 ^ 31 ≤ x) (most : x < 2 ^ 31) : int x = .ok x := if_pos ⟨least, most⟩

theorem skipAtoiAtReads (suffix : rest <:+ s) (fuel : Nat) (enough : rest.length < fuel) {i : Int} (least : 0 ≤ i)
    (most : i ≤ formatMaxField) :
    skipAtoiAt s fuel i (cursor s rest) = .ok ((skipAtoi i rest).1, cursor s (skipAtoi i rest).2) ∧
      (skipAtoi i rest).2 <:+ s ∧ 0 ≤ (skipAtoi i rest).1 ∧ (skipAtoi i rest).1 ≤ formatMaxField := by
  induction rest generalizing fuel i with
  | nil =>
    obtain ⟨fuel, rfl⟩ : ∃ more, fuel = more + 1 := ⟨fuel - 1, by omega⟩
    refine ⟨?_, suffix, least, most⟩
    simp only [skipAtoiAt, readCursor suffix]
    rfl
  | cons ch rest ih =>
    obtain ⟨fuel, rfl⟩ : ∃ more, fuel = more + 1 := ⟨fuel - 1, by omega⟩
    obtain ⟨next, further⟩ := cursorNext suffix
    simp only [List.length_cons] at enough
    by_cases digit : isDigit ch = true
    · have value := digitValue digit
      have limit : formatMaxField = 1048576 := rfl
      have product : int (i * 10) = .ok (i * 10) := intOk (by omega) (by omega)
      have sum : int (i * 10 + (ch - byte '0').toNat) = .ok (i * 10 + (ch - byte '0').toNat) := intOk (by omega) (by omega)
      have step := ih further fuel (by omega)
        (i := if i * 10 + (ch - byte '0').toNat > formatMaxField then formatMaxField else i * 10 + (ch - byte '0').toNat)
        (by split <;> omega) (by split <;> omega)
      simp only [skipAtoiAt, readCursor suffix, peek, digit, if_true, skipAtoi, product, sum, next, bind, Except.bind]
      exact step
    · simp only [Bool.not_eq_true] at digit
      simp only [skipAtoiAt, readCursor suffix, peek, digit, skipAtoi, bind, Except.bind]
      exact ⟨rfl, suffix, least, most⟩

theorem parseFlagsAtReads (suffix : rest <:+ s) (fuel : Nat) (enough : rest.length < fuel) (flags : Flags) :
    parseFlagsAt s fuel flags (cursor s rest) = .ok ((parseFlags flags rest).1, cursor s (parseFlags flags rest).2) ∧
      (parseFlags flags rest).2 <:+ s := by
  induction rest generalizing fuel flags with
  | nil =>
    obtain ⟨fuel, rfl⟩ : ∃ more, fuel = more + 1 := ⟨fuel - 1, by omega⟩
    refine ⟨?_, suffix⟩
    simp only [parseFlagsAt, readCursor suffix]
    rfl
  | cons ch rest ih =>
    obtain ⟨fuel, rfl⟩ : ∃ more, fuel = more + 1 := ⟨fuel - 1, by omega⟩
    obtain ⟨next, further⟩ := cursorNext suffix
    simp only [List.length_cons] at enough
    have step (flags : Flags) := ih further fuel (by omega) flags
    simp only [parseFlagsAt, readCursor suffix, peek, parseFlags, next, bind, Except.bind]
    split_ifs
    · exact step _
    · exact step _
    · exact step _
    · exact step _
    · exact step _
    · exact ⟨rfl, suffix⟩

theorem argInt (arg : Arg) : -2 ^ 31 ≤ arg.int ∧ arg.int < 2 ^ 31 := by
  unfold Arg.int
  exact ⟨BitVec.le_toInt _, BitVec.toInt_lt⟩

theorem starWidthAtOk {width : Int} (range : -2 ^ 31 ≤ width ∧ width < 2 ^ 31) :
    starWidthAt width = .ok (starWidth width) ∧ 0 ≤ (starWidth width).1 ∧ (starWidth width).1 ≤ formatMaxField := by
  have limit : formatMaxField = 1048576 := rfl
  unfold starWidthAt starWidth
  by_cases negative : width < 0
  · by_cases least : width = -2 ^ 31
    · subst least
      exact ⟨rfl, by decide, by decide⟩
    · have inside : int (-width) = .ok (-width) := intOk (by omega) (by omega)
      simp only [negative, least, decide_true, if_true, if_false, inside, bind, Except.bind, pure, Except.pure]
      refine ⟨trivial, ?_, ?_⟩ <;> split <;> omega
  · simp only [negative, decide_false, Bool.false_eq_true, if_false, bind, Except.bind, pure, Except.pure]
    refine ⟨trivial, ?_, ?_⟩ <;> split <;> omega

theorem fieldRange {x : Int} (least : 0 ≤ x) (most : x ≤ formatMaxField) : -1 ≤ x ∧ x ≤ formatMaxField := ⟨by omega, most⟩

theorem noField : -1 ≤ (-1 : Int) ∧ (-1 : Int) ≤ formatMaxField := by decide

theorem starNoDigit : isDigit (byte '*') = false := by decide

theorem parseWidthAtReads (suffix : rest <:+ s) (flags : Flags) (args : VaList) :
    parseWidthAt s flags args (cursor s rest) = .ok ((parseWidth flags args rest).1, (parseWidth flags args rest).2.1,
        (parseWidth flags args rest).2.2.1, cursor s (parseWidth flags args rest).2.2.2) ∧
      (parseWidth flags args rest).2.2.2 <:+ s ∧
      -1 ≤ (parseWidth flags args rest).1 ∧ (parseWidth flags args rest).1 ≤ formatMaxField := by
  have length := suffix.length_le
  simp only [parseWidthAt, parseWidth, readCursor suffix, bind, Except.bind, pure, Except.pure]
  by_cases digit : isDigit (peek rest) = true
  · obtain ⟨ran, further, least, most⟩ := skipAtoiAtReads suffix (s.length + 1) (by omega) (Int.le_refl 0) (by decide)
    simp only [digit, if_true, ran]
    exact ⟨trivial, further, fieldRange least most⟩
  · by_cases star : peek rest = byte '*'
    · obtain ⟨ch, tail, rfl⟩ := restCons (by rw [star]; decide)
      obtain ⟨next, further⟩ := cursorNext suffix
      obtain ⟨ran, least, most⟩ := starWidthAtOk (argInt (args 0))
      simp only [star, starNoDigit, Bool.false_eq_true, if_false, if_true, ran, next, List.tail_cons]
      exact ⟨trivial, further, fieldRange least most⟩
    · simp only [digit, star, if_false, Bool.false_eq_true]
      exact ⟨trivial, suffix, noField⟩

theorem clampRange (precision : Int) : 0 ≤ clampPrecision precision ∧ clampPrecision precision ≤ formatMaxField := by
  have limit : formatMaxField = 1048576 := rfl
  unfold clampPrecision
  constructor <;> split_ifs <;> omega

theorem parsePrecisionAtReads (suffix : rest <:+ s) (args : VaList) :
    parsePrecisionAt s args (cursor s rest) = .ok ((parsePrecision args rest).1, (parsePrecision args rest).2.1,
        cursor s (parsePrecision args rest).2.2) ∧
      (parsePrecision args rest).2.2 <:+ s ∧
      -1 ≤ (parsePrecision args rest).1 ∧ (parsePrecision args rest).1 ≤ formatMaxField := by
  have clamped (precision : Int) := fieldRange (clampRange precision).1 (clampRange precision).2
  simp only [parsePrecisionAt, parsePrecision, readCursor suffix, bind, Except.bind, pure, Except.pure]
  by_cases dot : peek rest = byte '.'
  · obtain ⟨ch, tail, rfl⟩ := restCons (by rw [dot]; decide)
    obtain ⟨next, further⟩ := cursorNext suffix
    have length := further.length_le
    simp only [dot, if_true, next, List.tail_cons, readCursor further]
    by_cases digit : isDigit (peek tail) = true
    · obtain ⟨ran, behind, -, -⟩ := skipAtoiAtReads further (s.length + 1) (by omega) (Int.le_refl 0) (by decide)
      simp only [digit, if_true, ran]
      exact ⟨trivial, behind, clamped _⟩
    · by_cases star : peek tail = byte '*'
      · obtain ⟨ch', tail, rfl⟩ := restCons (by rw [star]; decide)
        obtain ⟨next', behind⟩ := cursorNext further
        simp only [star, starNoDigit, Bool.false_eq_true, if_false, if_true, next', List.tail_cons]
        exact ⟨trivial, behind, clamped _⟩
      · simp only [digit, star, if_false, Bool.false_eq_true]
        exact ⟨trivial, further, clamped _⟩
  · simp only [dot, if_false]
    exact ⟨trivial, suffix, noField⟩

theorem parseQualifierAtReads (suffix : rest <:+ s) :
    parseQualifierAt s (cursor s rest) = .ok ((parseQualifier rest).1, cursor s (parseQualifier rest).2) ∧
      (parseQualifier rest).2 <:+ s := by
  simp only [parseQualifierAt, parseQualifier, readCursor suffix, bind, Except.bind, pure, Except.pure]
  cases rest with
  | nil => exact ⟨rfl, suffix⟩
  | cons ch tail =>
    obtain ⟨next, further⟩ := cursorNext suffix
    have second : peek tail ≠ 0 → cursor s (ch :: tail) + 2 = cursor s tail.tail ∧ tail.tail <:+ s := by
      intro nonzero
      obtain ⟨ch', tail, rfl⟩ := restCons nonzero
      obtain ⟨next', behind⟩ := cursorNext further
      exact ⟨by rw [List.tail_cons, ← next', ← next], behind⟩
    have here : peek (ch :: tail) = ch := rfl
    simp only [here, next, List.tail_cons, readCursor further]
    by_cases h : ch = byte 'h'
    · by_cases hh : peek tail = byte 'h'
      · obtain ⟨place, behind⟩ := second (by rw [hh]; decide)
        simp only [eq_true h, eq_true hh, if_true, place]
        exact ⟨trivial, behind⟩
      · simp only [eq_true h, hh, if_true, if_false]
        exact ⟨trivial, further⟩
    by_cases l : ch = byte 'l'
    · by_cases ll : peek tail = byte 'l'
      · obtain ⟨place, behind⟩ := second (by rw [ll]; decide)
        simp only [h, eq_true l, eq_true ll, if_true, if_false, place]
        exact ⟨trivial, behind⟩
      · simp only [h, eq_true l, ll, if_true, if_false]
        exact ⟨trivial, further⟩
    simp only [h, l, if_false]
    split_ifs
    · exact ⟨rfl, further⟩
    · exact ⟨rfl, further⟩
    · exact ⟨rfl, suffix⟩

structure Capped (d : Directive) : Prop where
  fieldWidth : -1 ≤ d.fieldWidth ∧ d.fieldWidth ≤ formatMaxField
  precision : -1 ≤ d.precision ∧ d.precision ≤ formatMaxField

theorem parseDirectiveAtReads (suffix : rest <:+ s) (args : VaList) :
    parseDirectiveAt s args (cursor s rest) =
        .ok ((parseDirective args rest).1, (parseDirective args rest).2.1, cursor s (parseDirective args rest).2.2) ∧
      (parseDirective args rest).2.2 <:+ s ∧ Capped (parseDirective args rest).1 := by
  have length := suffix.length_le
  obtain ⟨flagsRan, behindFlags⟩ := parseFlagsAtReads suffix (s.length + 1) (by omega) noFlags
  obtain ⟨widthRan, behindWidth, width⟩ := parseWidthAtReads behindFlags (parseFlags noFlags rest).1 args
  obtain ⟨precisionRan, behindPrecision, precision⟩ :=
    parsePrecisionAtReads behindWidth (parseWidth (parseFlags noFlags rest).1 args (parseFlags noFlags rest).2).2.2.1
  obtain ⟨qualifierRan, behindQualifier⟩ := parseQualifierAtReads behindPrecision
  simp only [parseDirectiveAt, parseDirective, flagsRan, widthRan, precisionRan, qualifierRan, bind, Except.bind, pure,
    Except.pure]
  exact ⟨trivial, behindQualifier, width, precision⟩

theorem vprintfAtReads (abi : Abi) (suffix : rest <:+ s) {fuel : Nat} (enough : rest.length < fuel) (allocs : Nat → Nat → Bool)
    (o : Output) (args : VaList) (n : Int) :
    vprintfAt abi s fuel allocs o (cursor s rest) args n = .ok (vprintfFrom abi rest.length allocs o rest args n) := by
  induction fuel generalizing rest allocs o args n with
  | zero => exact absurd enough (Nat.not_lt_zero _)
  | succ fuel ih =>
    simp only [vprintfAt, readCursor suffix, bind, Except.bind, pure, Except.pure]
    cases rest with
    | nil => rfl
    | cons ch tail =>
      obtain ⟨next, further⟩ := cursorNext suffix
      have here : peek (ch :: tail) = ch := rfl
      simp only [List.length_cons, vprintfFrom, here, next, List.tail_cons] at enough ⊢
      by_cases done : ch = 0
      · simp only [eq_true done, if_true]
      by_cases plain : ch ≠ byte '%'
      · simp only [done, eq_true plain, if_true, if_false]
        exact ih further (by omega) allocs _ args _
      · obtain ⟨parsed, behind, -⟩ := parseDirectiveAtReads further args
        have shorter := behind.length_le
        have within := directiveEndLength tail
        rw [← directiveEndOf args] at within
        simp only [done, plain, if_false, parsed, readCursor behind]
        cases converted : convert abi o (parseDirective args tail).1 (peek (parseDirective args tail).2.2)
            (parseDirective args tail).2.1 (allocs 0) with
        | none => exact ih further (by omega) allocs _ _ _
        | some r =>
          have some_ : peek (parseDirective args tail).2.2 ≠ 0 := by
            intro nul
            rw [nul] at converted
            rcases convertConverts abi (parseDirective args tail).1 (parseDirective args tail).2.1 0 (allocs 0) with
              ⟨known, -⟩ | ⟨-, unknown⟩
            · exact absurd known (by decide)
            · cases (unknown o).symm.trans converted
          obtain ⟨ch', tail', left⟩ := restCons some_
          rw [left] at behind within
          obtain ⟨next', behind'⟩ := cursorNext behind
          simp only [List.length_cons] at within
          have run := ih behind' (by omega) (fun i => allocs (i + 1)) r.1 r.2.2 (n + r.2.1)
          simp only [left, next', List.tail_cons]
          rw [run, ← vprintfFromEnough abi _ _ _ _ _ (by omega : tail'.length ≤ tail.length)]

end Cursors

/- A directive without a supported conversion prints its `%`, and the format goes on behind that `%`. -/
def Resumes (abi : Abi) (s : List Byte) (fmt : Nat) (args args' : VaList) : Prop :=
  ∀ fuel allocs o n, vprintfAt abi s (fuel + 1) allocs o fmt args n =
    vprintfAt abi s fuel allocs (streamoutInByte o (byte '%')) (fmt + 1) args' n

/- The parser comes to its end on every string, reads no byte behind the NUL and computes no
`int` out of range. Behind every `%` it stops at most at the NUL, with width and precision capped. -/
theorem parserStaysInside (abi : Abi) (s : List Byte) :
    (∀ o args allocs, streamoutVprintfAt abi s o args allocs = .ok (streamoutVprintf abi o s args allocs)) ∧
      ∀ (fmt : Nat) (args : VaList), s[fmt]? = some (byte '%') →
        ∃ d args' fmt' conversion, parseDirectiveAt s args (fmt + 1) = .ok (d, args', fmt') ∧ fmt < fmt' ∧ fmt' ≤ s.length ∧
          readAt s fmt' = .ok conversion ∧ Capped d ∧ (isConversion conversion = false → Resumes abi s fmt args args') := by
  refine ⟨fun o args allocs => ?_, fun fmt args percent => ?_⟩
  · have start : cursor s s = 0 := Nat.sub_self _
    have ran := vprintfAtReads abi (List.suffix_refl s) (Nat.lt_succ_self _) allocs o args 0
    rwa [start] at ran
  · obtain ⟨inside, -⟩ := List.getElem?_eq_some_iff.mp percent
    have split : s.drop fmt = byte '%' :: s.drop (fmt + 1) := by
      rw [List.drop_eq_getElem_cons inside, (List.getElem?_eq_some_iff.mp percent).2]
    have whole : byte '%' :: s.drop (fmt + 1) <:+ s := split ▸ List.drop_suffix fmt s
    have place : cursor s (byte '%' :: s.drop (fmt + 1)) = fmt := by
      rw [← split, cursor, List.length_drop]
      omega
    obtain ⟨next, further⟩ := cursorNext whole
    rw [place] at next
    obtain ⟨parsed, behind, capped⟩ := parseDirectiveAtReads further args
    have shorter := directiveEndLength (s.drop (fmt + 1))
    rw [← directiveEndOf args, List.length_drop] at shorter
    rw [← next] at parsed
    refine ⟨_, _, _, _, parsed, ?_, Nat.sub_le _ _, readCursor behind, capped, fun unknown fuel allocs o n => ?_⟩
    · unfold cursor
      omega
    · have here := readCursor whole
      rw [place] at here
      have nonzero : byte '%' ≠ 0 := by decide
      rcases convertConverts abi (parseDirective args (s.drop (fmt + 1))).1 (parseDirective args (s.drop (fmt + 1))).2.1
          (peek (parseDirective args (s.drop (fmt + 1))).2.2) (allocs 0) with ⟨known, -⟩ | ⟨-, none_⟩
      · rw [unknown] at known
        nomatch known
      · simp only [vprintfAt, here, peek, nonzero, if_false, ne_eq, not_true_eq_false, parsed, bind, Except.bind]
        simp only [readCursor behind, none_ o]

/- `"a%*.99999999999r"` with INT_MIN for the `*`: the width is capped, and `r` is printed behind the `%`. -/
theorem leastWidthCapped : ∃ d args' fmt', parseDirectiveAt ("a%*.99999999999r".toList.map byte)
    (fun _ => ⟨2 ^ 31, none, fun _ => 0, 0⟩) 2 = .ok (d, args', fmt') ∧ d.fieldWidth = 2 ^ 20 ∧ d.precision = 2 ^ 20 ∧
      Resumes .lp64 ("a%*.99999999999r".toList.map byte) 1 (fun _ => ⟨2 ^ 31, none, fun _ => 0, 0⟩) args' := by
  obtain ⟨-, directives⟩ := parserStaysInside .lp64 ("a%*.99999999999r".toList.map byte)
  obtain ⟨d, args', fmt', conversion, parsed, -, -, read, -, resumes⟩ :=
    directives 1 (fun _ => ⟨2 ^ 31, none, fun _ => 0, 0⟩) rfl
  have ended : parseDirectiveAt ("a%*.99999999999r".toList.map byte) (fun _ => ⟨2 ^ 31, none, fun _ => 0, 0⟩) 2 =
      .ok (⟨{ noFlags with left := true }, 2 ^ 20, 2 ^ 20, .none⟩, fun _ => ⟨2 ^ 31, none, fun _ => 0, 0⟩, 15) := rfl
  rw [parsed, Except.ok.injEq, Prod.mk.injEq, Prod.mk.injEq] at ended
  obtain ⟨rfl, rfl, rfl⟩ := ended
  have letter : readAt ("a%*.99999999999r".toList.map byte) 15 = .ok (byte 'r') := rfl
  rw [letter] at read
  cases read
  exact ⟨_, _, _, parsed, rfl, rfl, resumes (by decide)⟩

end Nanosig.Formatio
