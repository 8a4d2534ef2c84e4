import Nanosig.Ringbuf.System

/-! What each party's local copies say about the published and consumed bytes, and that
every step of either party keeps it: the writer stores to spare cells only, the reader
copies published ones only. -/
namespace Nanosig.Ringbuf.Threads

open ByteStore RingStore TransitionSystem

/- What was taken at a position, where it was read and not skipped, is what was published there. -/
def Agrees (published : List UInt8) (pos : Nat) (taken : List (Option UInt8)) : Prop :=
  ∀ i b, taken[i]? = some (some b) → published[pos + i]? = some b

def spareOf (s : State) : Nat := s.ring.size - (s.published.length - s.consumed.length)

def Stored (s : State) (wl : Nat) (bytes : Option (List UInt8)) : Prop :=
  ∀ given, bytes = some given → given = ringRead s.ring.size s.ring.buf s.published.length wl

def WriterHolds (s : State) : WriterPc → Prop
  | .idle => True
  | .loadW _ => True
  | .loadR _ w => w = s.ring.w
  | .copy start buf done wl draft =>
      ∃ offset, offset + wl ≤ spareOf s ∧ start = (s.published.length + offset) % s.ring.size ∧ done < wl ∧
        (draft = false → offset = 0) ∧
        ∀ i < done, s.ring.buf ((s.published.length + offset + i) % s.ring.size) = buf i
  | .reload wl bytes => wl ≤ spareOf s ∧ Stored s wl bytes
  | .store w wl bytes => wl ≤ spareOf s ∧ Stored s wl bytes ∧ w = fix s.ring.size (add32 s.ring.w wl)

def ReaderHolds (s : State) : ReaderPc → Prop
  | .idle => True
  | .loadFirst call => call.returnsAtOnce = false
  | .loadSecond (.read len) r => r = s.ring.r ∧ (ReaderCall.read len).returnsAtOnce = false
  | .loadSecond call w =>
      (∃ last ≤ s.published.length, Indices s.ring.size s.ring.r w s.consumed.length last) ∧ call.returnsAtOnce = false
  | .copy start got rl peek =>
      s.consumed.length + peek.getD 0 + rl ≤ s.published.length ∧
        start = (s.consumed.length + peek.getD 0) % s.ring.size ∧ got.length < rl ∧
        got <+: s.published.drop (s.consumed.length + peek.getD 0)
  | .reload taken =>
      s.consumed.length + taken.length ≤ s.published.length ∧ Agrees s.published s.consumed.length taken
  | .store r taken =>
      s.consumed.length + taken.length ≤ s.published.length ∧ Agrees s.published s.consumed.length taken ∧
        r = (s.consumed.length + taken.length) % (2 * s.ring.size)

structure Inv (s : State) : Prop where
  indices : Indices s.ring.size s.ring.r s.ring.w s.consumed.length s.published.length
  intact : ∀ p, s.consumed.length ≤ p → p < s.published.length → s.published[p]? = some (s.ring.buf (p % s.ring.size))
  agrees : Agrees s.published 0 s.consumed
  peeks : ∀ peek ∈ s.peeked, peek.2 <+: s.published.drop peek.1
  writer : WriterHolds s s.writer
  reader : ReaderHolds s s.reader

section Cells

variable {size pos : Nat}

theorem copyCellAt (limit : size < 2 ^ 32) {i : Nat} (inside : i < size) : copyCell size (pos % size) i = (pos + i) % size := by
  have small := Nat.mod_lt pos (by omega : 0 < size)
  rw [copyCell, sub32Exact small.le limit, cellAfter inside]
  split <;> split <;> omega

end Cells

section Growth

variable {published more : List UInt8}

theorem getGrows {i : Nat} {b : UInt8} (given : published[i]? = some b) : (published ++ more)[i]? = some b := by
  rw [List.getElem?_append_left (List.getElem?_eq_some_iff.mp given).1]
  exact given

theorem Agrees.grows {pos : Nat} {taken : List (Option UInt8)} (agrees : Agrees published pos taken) :
    Agrees (published ++ more) pos taken := fun i b given => getGrows (agrees i b given)

theorem prefixGrows {got : List UInt8} {pos : Nat} (start : got <+: published.drop pos) : got <+: (published ++ more).drop pos := by
  rw [List.drop_append]
  exact start.trans (List.prefix_append _ _)

theorem prefixConcat {got rest : List UInt8} {b : UInt8} (start : got <+: rest) (next : rest[got.length]? = some b) :
    got ++ [b] <+: rest := by
  obtain ⟨tail, rfl⟩ := start
  rw [List.getElem?_append_right le_rfl, Nat.sub_self] at next
  cases tail with
  | nil => simp at next
  | cons ch tail =>
    cases Option.some.inj next
    exact ⟨tail, by simp⟩

theorem agreesSkipped (pos n : Nat) : Agrees published pos (List.replicate n none) := by
  intro i b given
  have member := List.mem_of_getElem? given
  exact absurd (List.eq_of_mem_replicate member) (by simp)

theorem agreesRead {pos : Nat} {got : List UInt8} (start : got <+: published.drop pos) : Agrees published pos (got.map some) := by
  intro i b given
  obtain ⟨tail, same⟩ := start
  have here : got[i]? = some b := by simpa using given
  rw [← List.getElem?_drop, ← same]
  exact getGrows here

theorem Agrees.append {first second : List (Option UInt8)} {pos : Nat} (left : Agrees published pos first)
    (right : Agrees published (pos + first.length) second) : Agrees published pos (first ++ second) := by
  intro i b given
  rcases Nat.lt_or_ge i first.length with inside | beyond
  · rw [List.getElem?_append_left inside] at given
    exact left i b given
  · rw [List.getElem?_append_right beyond] at given
    have there := right _ b given
    rwa [show pos + first.length + (i - first.length) = pos + i by omega] at there

end Growth

section Frames

variable {s s' : State}

theorem ReaderHolds.publishes {pc : ReaderPc} (holds : ReaderHolds s pc) (size : s'.ring.size = s.ring.size)
    (r : s'.ring.r = s.ring.r) (consumed : s'.consumed = s.consumed) (published : ∃ more, s'.published = s.published ++ more) :
    ReaderHolds s' pc := by
  obtain ⟨more, published⟩ := published
  cases pc with
  | idle => trivial
  | loadFirst call => exact holds
  | loadSecond call index =>
    cases call with
    | read len => exact ⟨holds.1.trans r.symm, holds.2⟩
    | readSkip len | peekCopy offset len | clear =>
      obtain ⟨⟨last, le, at_⟩, lasting⟩ := holds
      refine ⟨⟨last, ?_, ?_⟩, lasting⟩
      · rw [published, List.length_append]
        omega
      · rwa [size, r, consumed]
  | copy start got rl peek =>
    obtain ⟨inside, cell, part, bytes⟩ := holds
    refine ⟨?_, by rw [consumed, size]; exact cell, part, ?_⟩
    · rw [consumed, published, List.length_append]
      omega
    · rw [consumed, published]
      exact prefixGrows bytes
  | reload taken =>
    obtain ⟨inside, agrees⟩ := holds
    refine ⟨?_, ?_⟩
    · rw [consumed, published, List.length_append]
      omega
    · rw [consumed, published]
      exact agrees.grows
  | store index taken =>
    obtain ⟨inside, agrees, place⟩ := holds
    refine ⟨?_, ?_, by rw [consumed, size]; exact place⟩
    · rw [consumed, published, List.length_append]
      omega
    · rw [consumed, published]
      exact agrees.grows

theorem WriterHolds.consumes {pc : WriterPc} (holds : WriterHolds s pc) (size : s'.ring.size = s.ring.size)
    (w : s'.ring.w = s.ring.w) (buf : s'.ring.buf = s.ring.buf) (published : s'.published = s.published)
    (consumed : s.consumed.length ≤ s'.consumed.length) : WriterHolds s' pc := by
  have spare : spareOf s ≤ spareOf s' := by
    unfold spareOf
    rw [size, published]
    omega
  have stored {wl : Nat} {bytes : Option (List UInt8)} (same : Stored s wl bytes) : Stored s' wl bytes := by
    intro given is
    rw [size, buf, published]
    exact same given is
  cases pc with
  | idle => trivial
  | loadW call => trivial
  | loadR call index => exact Eq.trans holds w.symm
  | copy start source done wl draft =>
    obtain ⟨offset, inside, cell, part, direct, bytes⟩ := holds
    refine ⟨offset, by omega, by rw [published, size]; exact cell, part, direct, ?_⟩
    rw [published, size, buf]
    exact bytes
  | reload wl bytes => exact ⟨holds.1.trans spare, stored holds.2⟩
  | store index wl bytes => exact ⟨holds.1.trans spare, stored holds.2.1, by rw [size, w]; exact holds.2.2⟩

end Frames

section Writer

variable {s s' : State}

theorem writerCopiesHold (inv : Inv s) (call : WriterCall) :
    WriterHolds { s with writer := writerCopies s.ring.size s.ring.w s.ring.r call }
      (writerCopies s.ring.size s.ring.w s.ring.r call) := by
  have free : freeSizeOf s.ring.size s.ring.w s.ring.r = spareOf s := inv.indices.free
  have spare : spareOf s ≤ s.ring.size := Nat.sub_le _ _
  cases call with
  | write buf len =>
    simp only [writerCopies, free]
    split
    · trivial
    · refine ⟨0, ?_, inv.indices.writeCell, by omega, fun _ => rfl, fun i none => absurd none (Nat.not_lt_zero i)⟩
      rw [clipEq, Nat.zero_add]
      exact Nat.min_le_right _ _
  | draftWrite offset buf len =>
    simp only [writerCopies, free]
    split
    · trivial
    · split
      · trivial
      · refine ⟨offset, ?_, inv.indices.writeCellAt (by omega), by omega, fun same => by contradiction,
          fun i none => absurd none (Nat.not_lt_zero i)⟩
        have inside : clip len (spareOf s - offset) ≤ spareOf s - offset := by
          rw [clipEq]
          exact Nat.min_le_right _ _
        show offset + clip len (spareOf s - offset) ≤ spareOf s
        omega
  | writeSkip len =>
    simp only [writerCopies, free]
    split
    · trivial
    · refine ⟨?_, fun given none => by contradiction⟩
      rw [clipEq]
      exact Nat.min_le_right _ _

theorem writerAside (inv : Inv s) {pc : WriterPc} (known : WriterHolds { s with writer := pc } pc) : Inv { s with writer := pc } :=
  ⟨inv.indices, inv.intact, inv.agrees, inv.peeks, known, inv.reader.publishes rfl rfl rfl ⟨[], by simp⟩⟩

theorem writerCopyKeeps (inv : Inv s) {start done wl : Nat} {buf : Nat → UInt8} {draft : Bool}
    (pc : s.writer = .copy start buf done wl draft) (taken : writerStep s = some s') : Inv s' := by
  have bounds := inv.indices.bounds
  have holds := inv.writer
  unfold writerStep at taken
  rw [pc] at taken holds
  obtain ⟨offset, inside, cell, part, direct, bytes⟩ := holds
  have spare : spareOf s = s.ring.size - (s.published.length - s.consumed.length) := rfl
  have place : copyCell s.ring.size start done = (s.published.length + offset + done) % s.ring.size := by
    rw [cell]
    exact copyCellAt (by omega) (by omega)
  cases taken
  refine ⟨inv.indices, fun p after before => ?_, inv.agrees, inv.peeks, ?_, inv.reader.publishes rfl rfl rfl ⟨[], by simp⟩⟩
  · -- A published position is less than a lap before the one stored to.
    replace after : s.consumed.length ≤ p := after
    replace before : p < s.published.length := before
    have apart := cellsApart (by omega : p < s.published.length + offset + done) (by omega : _ < p + s.ring.size)
    rw [inv.intact p after before]
    simp only [place, Function.update_of_ne apart]
  · have stored : ∀ i < done + 1, Function.update s.ring.buf (copyCell s.ring.size start done) (buf done)
        ((s.published.length + offset + i) % s.ring.size) = buf i := by
      intro i below
      rw [place]
      rcases Nat.lt_or_ge i done with earlier | last
      · have apart := cellsApart (by omega : s.published.length + offset + i < s.published.length + offset + done)
          (by omega : _ < s.published.length + offset + i + s.ring.size)
        rw [Function.update_of_ne apart, bytes i earlier]
      · rw [show i = done by omega, Function.update_self]
    simp only
    split
    · exact ⟨offset, inside, cell, ‹_›, direct, stored⟩
    · split
      · trivial
      · have first : offset = 0 := direct (by simpa using ‹¬draft = true›)
        subst first
        refine ⟨show wl ≤ spareOf s by omega, ?_⟩
        rintro given ⟨⟩
        apply List.map_congr_left
        intro i member
        have here := stored i (by have := List.mem_range.mp member; omega)
        rw [Nat.add_zero] at here
        rw [Nat.zero_add]
        exact here.symm

theorem writerStoreKeeps (inv : Inv s) {w wl : Nat} {bytes : Option (List UInt8)} (pc : s.writer = .store w wl bytes)
    (taken : writerStep s = some s') : Inv s' := by
  have holds := inv.writer
  unfold writerStep at taken
  rw [pc] at taken holds
  obtain ⟨inside, stored, index⟩ := holds
  have spare : spareOf s = s.ring.size - (s.published.length - s.consumed.length) := rfl
  have published : bytes.getD (ringRead s.ring.size s.ring.buf s.ring.w wl) =
      ringRead s.ring.size s.ring.buf s.published.length wl := by
    cases bytes with
    | none => exact ringReadMod wl inv.indices.writeCell
    | some given => exact stored given rfl
  cases taken
  rw [published, index]
  have forward := inv.indices.forward (by omega : wl ≤ _)
  refine ⟨?_, fun p after before => ?_, inv.agrees.grows, fun peek member => prefixGrows (inv.peeks peek member), trivial,
    inv.reader.publishes rfl rfl rfl ⟨_, rfl⟩⟩
  · rwa [List.length_append, ringReadLength]
  · rw [List.length_append, ringReadLength] at before
    rcases Nat.lt_or_ge p s.published.length with old | new
    · exact getGrows (inv.intact p after old)
    · rw [List.getElem?_append_right new, ringReadGet (by omega), show s.published.length + (p - s.published.length) = p by omega]

theorem writerKeeps (inv : Inv s) (taken : writerStep s = some s') : Inv s' := by
  have holds := inv.writer
  unfold writerStep at taken
  cases pc : s.writer with
  | idle =>
    rw [pc] at taken
    contradiction
  | loadW call =>
    rw [pc] at taken
    cases taken
    exact writerAside inv rfl
  | loadR call w =>
    rw [pc] at taken holds
    cases taken
    have same : w = s.ring.w := holds
    subst same
    exact writerAside inv (writerCopiesHold inv call)
  | copy start buf done wl draft => exact writerCopyKeeps inv pc taken
  | reload wl bytes =>
    rw [pc] at taken holds
    cases taken
    exact writerAside inv ⟨holds.1, holds.2, rfl⟩
  | store w wl bytes => exact writerStoreKeeps inv pc taken

end Writer

section Reader

variable {s s' : State}

/- What the reader copies or skips, from a value of `w` that may be old by now. -/
theorem readerCopiesHold {w last : Nat} {call : ReaderCall} (behind : last ≤ s.published.length)
    (at_ : Indices s.ring.size s.ring.r w s.consumed.length last) (lasting : call.returnsAtOnce = false) :
    ReaderHolds s (readerCopies s.ring.size w s.ring.r call) := by
  have bounds := at_.bounds
  have order := at_.order
  have room := at_.room
  cases call with
  | read len =>
    simp only [readerCopies, at_.used]
    split
    · trivial
    · refine ⟨?_, at_.readCell, Nat.pos_of_ne_zero ‹_›, List.nil_prefix⟩
      rw [clipEq, Option.getD_none]
      omega
  | readSkip len =>
    simp only [readerCopies, at_.used]
    split
    · trivial
    · refine ⟨?_, agreesSkipped _ _⟩
      rw [List.length_replicate, clipEq]
      omega
  | peekCopy offset len =>
    have some_ : len ≠ 0 := by simpa [ReaderCall.returnsAtOnce] using lasting
    simp only [readerCopies, at_.used]
    split
    · trivial
    · split
      · trivial
      · refine ⟨?_, at_.readCellAt (by omega), Nat.pos_of_ne_zero some_, List.nil_prefix⟩
        rw [Option.getD_some]
        omega
  | clear =>
    refine ⟨?_, agreesSkipped _ _, ?_⟩
    · rw [at_.used, List.length_replicate]
      omega
    · rw [at_.used, List.length_replicate, Nat.add_sub_cancel' order]
      exact at_.written

theorem readerAside (inv : Inv s) {pc : ReaderPc} (known : ReaderHolds s pc) : Inv { s with reader := pc } :=
  ⟨inv.indices, inv.intact, inv.agrees, inv.peeks, inv.writer.consumes rfl rfl rfl rfl le_rfl,
    known.publishes rfl rfl rfl ⟨[], by simp⟩⟩

theorem readerCopyKeeps (inv : Inv s) {start rl : Nat} {got : List UInt8} {peek : Option Nat}
    (pc : s.reader = .copy start got rl peek) (taken : readerStep s = some s') : Inv s' := by
  have bounds := inv.indices.bounds
  have room := inv.indices.room
  have holds := inv.reader
  unfold readerStep at taken
  rw [pc] at taken holds
  obtain ⟨inside, cell, part, bytes⟩ := holds
  have place : copyCell s.ring.size start got.length =
      (s.consumed.length + peek.getD 0 + got.length) % s.ring.size := by
    rw [cell]
    exact copyCellAt (by omega) (by omega)
  have next := inv.intact (s.consumed.length + peek.getD 0 + got.length) (by omega) (by omega)
  rw [← place] at next
  have grown : got ++ [s.ring.buf (copyCell s.ring.size start got.length)] <+:
      s.published.drop (s.consumed.length + peek.getD 0) :=
    prefixConcat bytes (by rw [List.getElem?_drop]; exact next)
  simp only at taken
  split at taken
  · cases taken
    exact readerAside inv ⟨inside, cell, ‹_›, grown⟩
  · rename_i done
    rw [List.length_append, List.length_singleton] at done
    cases peek with
    | some offset =>
      cases taken
      refine ⟨inv.indices, inv.intact, inv.agrees, fun peek member => ?_, inv.writer.consumes rfl rfl rfl rfl le_rfl, trivial⟩
      rcases List.mem_append.mp member with old | new
      · exact inv.peeks peek old
      · rw [List.mem_singleton.mp new]
        exact grown
    | none =>
      cases taken
      refine readerAside inv ⟨?_, agreesRead grown⟩
      rw [List.length_map, List.length_append, List.length_singleton]
      rw [Option.getD_none] at inside
      show s.consumed.length + (got.length + 1) ≤ s.published.length
      omega

theorem readerStoreKeeps (inv : Inv s) {r : Nat} {taken_ : List (Option UInt8)} (pc : s.reader = .store r taken_)
    (taken : readerStep s = some s') : Inv s' := by
  have room := inv.indices.room
  have holds := inv.reader
  unfold readerStep at taken
  rw [pc] at taken holds
  obtain ⟨inside, agrees, index⟩ := holds
  cases taken
  refine ⟨⟨inv.indices.positive, inv.indices.limit, ?_, inv.indices.written, ?_, ?_⟩, fun p after before => ?_, ?_, inv.peeks,
    inv.writer.consumes rfl rfl rfl rfl ?_, trivial⟩
  · rw [List.length_append]
    exact index
  · rw [List.length_append]
    exact inside
  · rw [List.length_append]
    show s.published.length ≤ s.consumed.length + taken_.length + s.ring.size
    omega
  · rw [List.length_append] at after
    exact inv.intact p (by omega) before
  · exact inv.agrees.append (by rw [Nat.zero_add]; exact agrees)
  · rw [List.length_append]
    exact Nat.le_add_right _ _

theorem readerKeeps (inv : Inv s) (taken : readerStep s = some s') : Inv s' := by
  have holds := inv.reader
  unfold readerStep at taken
  cases pc : s.reader with
  | idle =>
    rw [pc] at taken
    contradiction
  | loadFirst call =>
    rw [pc] at taken holds
    cases call with
    | read len =>
      cases taken
      exact readerAside inv ⟨rfl, holds⟩
    | readSkip len | peekCopy offset len =>
      cases taken
      exact readerAside inv ⟨⟨_, le_rfl, inv.indices⟩, holds⟩
    | clear =>
      cases taken
      exact readerAside inv (readerCopiesHold le_rfl inv.indices holds)
  | loadSecond call index =>
    rw [pc] at taken holds
    cases call with
    | read len =>
      obtain ⟨rfl, lasting⟩ := holds
      cases taken
      exact readerAside inv (readerCopiesHold le_rfl inv.indices lasting)
    | readSkip len | peekCopy offset len | clear =>
      obtain ⟨⟨last, behind, at_⟩, lasting⟩ := holds
      cases taken
      exact readerAside inv (readerCopiesHold behind at_ lasting)
  | copy start got rl peek => exact readerCopyKeeps inv pc taken
  | reload taken_ =>
    rw [pc] at taken holds
    obtain ⟨inside, agrees⟩ := holds
    cases taken
    exact readerAside inv ⟨inside, agrees, (inv.indices.advance (by omega)).read⟩
  | store r taken_ => exact readerStoreKeeps inv pc taken

end Reader

section Reached

theorem startsInv {s : State} (starts : Starts s) : Inv s := by
  obtain ⟨⟨buf, size, created⟩, writer, reader, published, consumed, peeked⟩ := starts
  have fresh : Indices s.ring.size s.ring.r s.ring.w 0 0 := by
    simp only [init] at created
    split at created
    · contradiction
    · split at created
      · contradiction
      · have ring : s.ring = ⟨buf, size, 0, 0⟩ := (Except.ok.inj created).symm
        rw [ring]
        exact freshIndices (show 1 ≤ size by omega) (not_lt.mp ‹_›)
  refine ⟨by rw [published, consumed]; exact fresh, fun p _ before => ?_, ?_, ?_, by rw [writer]; trivial, by rw [reader]; trivial⟩
  · rw [published] at before
    exact absurd before (Nat.not_lt_zero p)
  · rw [consumed]
    intro i b given
    simp at given
  · rw [peeked]
    exact fun peek none => absurd none List.not_mem_nil

theorem stepKeeps {s s' : State} {label : Label} {e : Unit} (inv : Inv s) (taken : step s label = some (s', e)) : Inv s' := by
  cases label with
  | startWriter call =>
    simp only [step] at taken
    split at taken
    · cases taken
      refine ⟨inv.indices, inv.intact, inv.agrees, inv.peeks, ?_, inv.reader.publishes rfl rfl rfl ⟨[], by simp⟩⟩
      simp only
      split <;> trivial
    · contradiction
  | writer =>
    obtain ⟨next, ran, same⟩ := Option.map_eq_some_iff.mp taken
    cases same
    exact writerKeeps inv ran
  | startReader call =>
    simp only [step] at taken
    split at taken
    · cases taken
      refine ⟨inv.indices, inv.intact, inv.agrees, inv.peeks, inv.writer.consumes rfl rfl rfl rfl le_rfl, ?_⟩
      simp only
      split
      · trivial
      · exact (Bool.not_eq_true _).mp ‹¬call.returnsAtOnce = true›
    · contradiction
  | reader =>
    obtain ⟨next, ran, same⟩ := Option.map_eq_some_iff.mp taken
    cases same
    exact readerKeeps inv ran

theorem reachedInv {s : State} (reach : Reached s) : Inv s :=
  reach.invariant (fun _ => startsInv) fun _ _ _ _ inv _ taken => stepKeeps inv taken

/- In every interleaving: what the reader obtained is a prefix of what the writer published,
the writer's stores avoid the bytes published and not consumed, and the reader's copies
are of such bytes. -/
theorem exclusiveAccess {s : State} (reach : Reached s) :
    (s.consumed.length ≤ s.published.length ∧ Agrees s.published 0 s.consumed) ∧
    (∀ peek ∈ s.peeked, peek.2 <+: s.published.drop peek.1) ∧
    (∀ a, writerStores s = some a → a < s.ring.size ∧
      ∀ p, s.consumed.length ≤ p → p < s.published.length → p % s.ring.size ≠ a) ∧
    (∀ a, readerLoads s = some a → ∃ p, s.consumed.length ≤ p ∧ p < s.published.length ∧ a = p % s.ring.size ∧
      s.published[p]? = some (s.ring.buf a)) := by
  have inv := reachedInv reach
  have bounds := inv.indices.bounds
  have order := inv.indices.order
  have room := inv.indices.room
  have writer := inv.writer
  have reader := inv.reader
  refine ⟨⟨order, inv.agrees⟩, inv.peeks, fun a stores => ?_, fun a loads => ?_⟩
  · unfold writerStores at stores
    split at stores
    · rename_i start buf done wl draft pc
      rw [pc] at writer
      obtain ⟨offset, inside, cell, part, -, -⟩ := writer
      have spare : spareOf s = s.ring.size - (s.published.length - s.consumed.length) := rfl
      cases stores
      rw [cell, copyCellAt (by omega) (by omega)]
      refine ⟨Nat.mod_lt _ inv.indices.positive, fun p after before => ?_⟩
      exact cellsApart (by omega) (by omega)
    · contradiction
  · unfold readerLoads at loads
    split at loads
    · rename_i start got rl peek pc
      rw [pc] at reader
      obtain ⟨inside, cell, part, -⟩ := reader
      cases loads
      refine ⟨s.consumed.length + peek.getD 0 + got.length, by omega, by omega, ?_, ?_⟩
      · rw [cell, copyCellAt (by omega) (by omega)]
      · rw [cell, copyCellAt (by omega) (by omega)]
        exact inv.intact _ (by omega) (by omega)
    · contradiction

def threeBytes : State := ⟨⟨fun _ => 0, 3, 0, 0⟩, .idle, .idle, [], [], []⟩

/- A write under way beside a read that has copied one of two bytes. -/
theorem overlappingRead :
    ∃ s, Reached s ∧ s.published = [10, 11] ∧ s.consumed = [] ∧ writerStores s = some 2 ∧ readerLoads s = some 1 ∧
      (∀ p < 2, p % s.ring.size ≠ 2) ∧ s.ring.buf 1 = 11 := by
  have runs : ∃ s, executeAllowed step (fun _ _ => True) threeBytes
      ([.startWriter (.write (fun i => 10 + i.toUInt8) 2)] ++ List.replicate 6 .writer ++
        [.startReader (.read 5), .reader, .reader, .startWriter (.write (fun i => 20 + i.toUInt8) 2), .writer, .writer,
          .reader]) = some s ∧
      s.published = [10, 11] ∧ s.consumed = [] ∧ writerStores s = some 2 ∧ readerLoads s = some 1 ∧ s.ring.buf 1 = 11 :=
    anyResult (by decide +kernel)
  obtain ⟨s, ran, published, consumed, stores, loads, byte⟩ := runs
  have starts : Starts threeBytes := ⟨⟨fun _ => 0, 3, rfl⟩, rfl, rfl, rfl, rfl, rfl⟩
  have reach : Reached s := executeAllowedReachable (.start starts) ran
  have spare := ((exclusiveAccess reach).2.2.1 2 stores).2
  rw [published, consumed] at spare
  exact ⟨s, reach, published, consumed, stores, loads, fun p below => spare p (Nat.zero_le _) below, byte⟩

end Reached

end Nanosig.Ringbuf.Threads
