import Nanosig.Lib.Segments
import Nanosig.MpscRecordRing.System

/-! The invariant of the interleaved ring. The unreleased reservations lie end
to end from the read position to the reserve position; each has in storage what
its producer has written so far; only the newest can still be unpublished. -/
namespace Nanosig.MpscRecordRing
open ByteStore Segments

variable {abi : Abi} {ι : Type}

structure Push.Valid (capacity : Nat) (push : Push abi) : Prop where
  length : (payload push.parts).length = push.recordSize
  fits : push.recordSize ≤ capacity / 2 - abi.sizeofSizeT
  parts : ∀ part ∈ push.parts, part.copied.length = part.size

structure Reservation.Valid (capacity : Nat) (r : Reservation abi ι) : Prop where
  push : r.push.Valid capacity
  planned : Planned abi capacity r.start r.push.recordSize r.plan
  aligned : abi.sizeofSizeT ∣ r.start
  reservePos : r.reservePos = abi.wrap r.start

structure Progress where
  fakeStored : Bool
  header : Option Nat
  copied : Nat

def WriteStage.progress : WriteStage abi → Progress
  | .storeFake => ⟨false, none, 0⟩
  | .markUncommitted => ⟨true, none, 0⟩
  | .publish => ⟨true, some 0, 0⟩
  | .copy written _ => ⟨true, some 0, written⟩

def Reservation.committed (r : Reservation abi ι) : Progress :=
  ⟨true, some (metaEncodeValid abi r.plan.recordTotalSize r.plan.paddingSize), r.payload.length⟩

def ProducerPc.progress (pc : ProducerPc abi ι) (r : Reservation abi ι) : Progress :=
  match pc with
  | .writing stage held => if held.start = r.start then stage.progress else r.committed
  | _ => r.committed

def WriteStage.Unpublished : WriteStage abi → Prop
  | .copy _ _ => False
  | _ => True

namespace State

variable (s : State abi ι)

def window : List (Reservation abi ι) := s.log.drop s.returned.length

def progress (r : Reservation abi ι) : Progress := (s.producers r.producer).progress r

/- The consumer has cleared the word at the read position and not yet moved on. -/
def cleared : Bool :=
  match s.consumer with
  | .acquireStoreRead _ _ => true
  | .releaseStoreRead _ _ => true
  | _ => false

end State

structure Holds (abi : Abi) (capacity : Nat) (m : Store) (released : Nat) (cleared : Bool)
    (r : Reservation abi ι) (done : Progress) : Prop where
  fake : done.fakeStored = true → r.plan.fakeSize ≠ 0 → released ≤ r.start →
    loadWord abi.sizeofSizeT m (r.start % capacity) =
      if cleared ∧ released = r.start then 0 else metaEncodeFake abi r.plan.fakeSize
  header : ∀ w, done.header = some w →
    loadWord abi.sizeofSizeT m (r.recordAt % capacity) =
      if cleared ∧ released = r.recordAt then 0 else w
  copied : read m (r.recordAt % capacity + abi.sizeofSizeT) done.copied = r.payload.take done.copied

def PcHolds (s : State abi ι) (p : ι) : ProducerPc abi ι → Prop
  | .idle => True
  | .loadWrite push => push.Valid s.ring.capacity
  | .loadRead push writePos seen =>
      push.Valid s.ring.capacity ∧ writePos = abi.wrap seen ∧ seen ≤ s.published ∧
      seen ≤ s.released + s.ring.capacity ∧ abi.sizeofSizeT ∣ seen
  | .casReserve push writePos plan seen seenReleased =>
      push.Valid s.ring.capacity ∧ writePos = abi.wrap seen ∧ seen ≤ s.published ∧
      abi.sizeofSizeT ∣ seen ∧ seenReleased ≤ s.released ∧
      (seenReleased ≤ seen → Planned abi s.ring.capacity seen push.recordSize plan ∧
        seen + plan.publishSize ≤ seenReleased + s.ring.capacity)
  | .writing stage r =>
      r ∈ s.window ∧ r.producer = p ∧
      (stage.Unpublished → r.start = s.published ∧ r.stop = s.reserved) ∧
      (match stage with
        | .storeFake => r.plan.fakeSize ≠ 0
        | .copy written rest => ∃ done, r.push.parts = done ++ rest ∧ written = (payload done).length
        | _ => True)

def OnFake (s : State abi ι) (stride : Nat) : Prop :=
  ∃ r rest, s.window = r :: rest ∧ s.released = r.start ∧ r.plan.fakeSize ≠ 0 ∧
    stride = r.plan.fakeSize ∧ r.stop ≤ s.published

def Borrowed (s : State abi ι) (loan : Loan) : Prop :=
  ∃ r rest, s.window = r :: rest ∧ s.released = r.recordAt ∧ r.stop ≤ s.published ∧
    s.progress r = r.committed ∧
    loan.record = s.ring.storage + (r.recordAt % s.ring.capacity + abi.sizeofSizeT) ∧
    loan.size = r.push.recordSize ∧ loan.bytes = r.payload

/- A write position loaded earlier still bounds the oldest reservation. -/
def Seen (s : State abi ι) (used : Nat) : Prop :=
  ∃ r rest, s.window = r :: rest ∧ r.stop ≤ s.released + used ∧ s.released + used ≤ s.published

def ConsumerHolds (s : State abi ι) : Prop :=
  match s.consumer with
  | .idle => ∀ loan, s.held = some loan → Borrowed s loan
  | .acquireLoadRead => s.held = none
  | .acquireLoadWrite readPos => s.held = none ∧ readPos = abi.wrap s.released
  | .acquireLoadMeta readPos used => s.held = none ∧ readPos = abi.wrap s.released ∧ Seen s used
  | .acquireClearFake header readPos stride =>
      s.held = none ∧ readPos = abi.wrap s.released ∧ header = s.released % s.ring.capacity ∧ OnFake s stride
  | .acquireStoreRead readPos stride => s.held = none ∧ readPos = abi.wrap s.released ∧ OnFake s stride
  | .releaseLoadRead record => ∃ loan, s.held = some loan ∧ Borrowed s loan ∧ record = loan.record
  | .releaseLoadWrite record readPos =>
      ∃ loan, s.held = some loan ∧ Borrowed s loan ∧ record = loan.record ∧ readPos = abi.wrap s.released
  | .releaseLoadMeta header readPos used =>
      ∃ loan, s.held = some loan ∧ Borrowed s loan ∧ readPos = abi.wrap s.released ∧
        header = s.released % s.ring.capacity ∧ Seen s used
  | .releaseClear header readPos stride =>
      ∃ loan, s.held = some loan ∧ Borrowed s loan ∧ readPos = abi.wrap s.released ∧
        header = s.released % s.ring.capacity ∧
        ∀ r ∈ s.window.head?, stride = r.plan.recordTotalSize
  | .releaseStoreRead readPos stride =>
      ∃ loan, s.held = some loan ∧ Borrowed s loan ∧ readPos = abi.wrap s.released ∧
        ∀ r ∈ s.window.head?, stride = r.plan.recordTotalSize

structure Inv (s : State abi ι) : Prop where
  valid : s.ring.isValid abi = true
  reservePos : s.ring.reservePos = abi.wrap s.reserved
  writePos : s.ring.writePos = abi.wrap s.published
  readPos : s.ring.readPos = abi.wrap s.released
  readWrite : s.released ≤ s.published
  writeReserve : s.published ≤ s.reserved
  room : s.reserved ≤ s.released + s.ring.capacity
  alignedWrite : abi.sizeofSizeT ∣ s.published
  alignedReserve : abi.sizeofSizeT ∣ s.reserved
  counted : s.returned.length ≤ s.log.length
  delivered : s.returned = (s.log.take s.returned.length).map Reservation.payload
  laid : ∃ first, Laid Reservation.start Reservation.stop first s.window s.reserved ∧
    (s.released = first ∨
      ∃ r rest, s.window = r :: rest ∧ r.plan.fakeSize ≠ 0 ∧ s.released = r.recordAt)
  reservations : ∀ r ∈ s.window, r.Valid s.ring.capacity
  producers : ∀ p, PcHolds s p (s.producers p)
  newest : s.published = s.reserved ∨
    ∃ p stage r, s.producers p = .writing stage r ∧ stage.Unpublished
  stored : ∀ r ∈ s.window,
    Holds abi s.ring.capacity s.ring.bytes s.released s.cleared r (s.progress r)
  consumer : ConsumerHolds s

/-! What the invariant says of single reservations. -/

namespace Reservation.Valid

variable {capacity : Nat} {r : Reservation abi ι} (v : r.Valid capacity)
include v

theorem startLtStop : r.start < r.stop := by
  have := v.planned.totalPos
  have := v.planned.publish
  have := sizeofSizeTPos abi
  unfold Reservation.stop
  omega

theorem recordStop : r.recordAt + r.plan.recordTotalSize = r.stop := by
  have := v.planned.publish
  unfold Reservation.recordAt Reservation.stop
  omega

theorem recordHeader : r.plan.recordHeader = r.recordAt % capacity := v.planned.recordHeader

theorem payloadLength : r.payload.length = r.push.recordSize := v.push.length

theorem recordSplit :
    abi.sizeofSizeT + r.payload.length + r.plan.paddingSize = r.plan.recordTotalSize := by
  have := v.planned.split
  rw [v.payloadLength]
  exact this

theorem fakeWord (g : Geometry abi capacity) (fake : r.plan.fakeSize ≠ 0) :
    abi.sizeofSizeT ≤ r.plan.fakeSize := by
  have divides := v.planned.fakeAligned g v.aligned
  exact Nat.le_of_dvd (by omega) divides

theorem validMeta (g : Geometry abi capacity) :
    MetaDecodes abi (metaEncodeValid abi r.plan.recordTotalSize r.plan.paddingSize)
      r.plan.recordTotalSize r.plan.paddingSize false := by
  have total := v.planned.totalHalf
  have padding := v.planned.padding
  have stride := g.stride
  refine metaRoundTrip abi false (by omega) ?_
  cases abi <;> simp only [Abi.metaPadMask, Abi.sizeofSizeT] at * <;> omega

theorem fakeMeta (g : Geometry abi capacity) :
    MetaDecodes abi (metaEncodeFake abi r.plan.fakeSize) r.plan.fakeSize 0 true := by
  have total := v.planned.totalHalf
  have stride := g.stride
  refine metaRoundTrip abi true ?_ (Nat.zero_le _)
  rcases v.planned.fakeCases with none_ | ⟨_, _, shorter⟩ <;> omega

theorem committedNonzero (g : Geometry abi capacity) :
    metaEncodeValid abi r.plan.recordTotalSize r.plan.paddingSize ≠ 0 := by
  intro zero
  have decodes := (v.validMeta g).valid
  rw [zero, metaZeroInvalid] at decodes
  contradiction

theorem writingNotCommitted (g : Geometry abi capacity) (stage : WriteStage abi) :
    stage.progress ≠ r.committed := by
  intro same
  have header := congrArg Progress.header same
  have nonzero := v.committedNonzero g
  cases stage with
  | storeFake => simp [WriteStage.progress, Reservation.committed] at header
  | markUncommitted => simp [WriteStage.progress, Reservation.committed] at header
  | publish =>
    simp only [WriteStage.progress, Reservation.committed, Option.some.injEq] at header
    exact nonzero header.symm
  | copy written rest =>
    simp only [WriteStage.progress, Reservation.committed, Option.some.injEq] at header
    exact nonzero header.symm

theorem recordBlock (g : Geometry abi capacity) (shift : Nat) {len : Nat}
    (inside : shift + len ≤ r.plan.recordTotalSize) (nonempty : 0 < len) :
    (r.recordAt + shift) % capacity = r.recordAt % capacity + shift ∧
      Contiguous capacity (r.recordAt + shift) len :=
  contiguousPart (v.planned.recordContiguous g.positive) inside nonempty

theorem headerBlock (g : Geometry abi capacity) : Contiguous capacity r.recordAt abi.sizeofSizeT := by
  have := v.planned.totalPos
  exact (v.recordBlock g 0 (by omega) (sizeofSizeTPos abi)).2

/- Where `write_parts` starts to copy. -/
theorem copyPlace (g : Geometry abi capacity) {ring : Ring} (same : ring.capacity = capacity)
    (nonempty : abi.sizeofSizeT < r.plan.recordTotalSize) :
    ring.offset (abi.wrap (r.plan.recordPos + abi.sizeofSizeT)) = r.recordAt % capacity + abi.sizeofSizeT := by
  have position : abi.wrap (r.plan.recordPos + abi.sizeofSizeT) = abi.wrap (r.recordAt + abi.sizeofSizeT) := by
    rw [v.planned.recordPos]
    simp [Abi.wrap, Reservation.recordAt]
  have first := (v.recordBlock g abi.sizeofSizeT (by omega : abi.sizeofSizeT + 1 ≤ _) (by omega)).1
  rw [position, g.offsetMod same, first]

theorem fakeBlock (g : Geometry abi capacity) (fake : r.plan.fakeSize ≠ 0) :
    Contiguous capacity r.start abi.sizeofSizeT := by
  have whole := v.planned.fakeContiguous fake
  have word := v.fakeWord g fake
  exact (contiguousPart whole (by omega : 0 + abi.sizeofSizeT ≤ r.plan.fakeSize) (sizeofSizeTPos abi)).2

end Reservation.Valid

namespace Holds

variable {capacity released : Nat} {m : Store} {cleared : Bool} {r : Reservation abi ι}
  {done : Progress}

theorem frame (v : r.Valid capacity) (g : Geometry abi capacity)
    (holds : Holds abi capacity m released cleared r done) (copied : done.copied ≤ r.payload.length)
    (above : r.stop ≤ released + capacity) (below : released ≤ r.recordAt)
    {pos : Nat} {bytes : List UInt8} (low : released ≤ pos)
    (high : pos + bytes.length ≤ released + capacity) (block : Contiguous capacity pos bytes.length)
    (apart : r.stop ≤ pos ∨ pos + bytes.length ≤ r.start) :
    Holds abi capacity (write m (pos % capacity) bytes) released cleared r done := by
  have split := v.recordSplit
  have whole := v.recordStop
  have start : r.start ≤ r.recordAt := Nat.le_add_right _ _
  -- Blocks apart by position within one window lie apart in storage.
  have apartFrom : ∀ x n, Contiguous capacity x n → released ≤ x → r.start ≤ x → x + n ≤ r.stop →
      x % capacity + n ≤ pos % capacity ∨ pos % capacity + bytes.length ≤ x % capacity := by
    intro x n piece live from_ to_
    rcases apart with after | before
    · exact apartInStorage piece (by omega) (by omega) block
    · exact (apartInStorage block (by omega) (by omega) piece).symm
  refine ⟨?_, ?_, ?_⟩
  · intro stored fake live
    have word := v.fakeWord g fake
    have reach : r.start + abi.sizeofSizeT ≤ r.stop := by
      unfold Reservation.recordAt at whole
      omega
    rw [loadFrame (apartFrom _ _ (v.fakeBlock g fake) live (Nat.le_refl _) reach)]
    exact holds.fake stored fake live
  · intro w header
    have word := v.planned.totalPos
    rw [loadFrame (apartFrom _ _ (v.headerBlock g) below start (by omega))]
    exact holds.header w header
  · rcases Nat.eq_zero_or_pos done.copied with none_ | some_
    · rw [none_]
      rfl
    · obtain ⟨place, piece⟩ := v.recordBlock g abi.sizeofSizeT (by omega) some_
      have outside := apartFrom _ _ piece (by omega) (by omega) (by omega)
      rw [place] at outside
      rw [readFrame outside]
      exact holds.copied

theorem elsewhere {released' : Nat} {cleared' : Bool}
    (holds : Holds abi capacity m released cleared r done)
    (forward : released' ≤ r.start → released ≤ r.start)
    (offOld : cleared = true → released ≠ r.start ∧ released ≠ r.recordAt)
    (offNew : cleared' = true → released' ≠ r.start ∧ released' ≠ r.recordAt) :
    Holds abi capacity m released' cleared' r done := by
  refine ⟨?_, ?_, holds.copied⟩
  · intro stored fake live
    rw [holds.fake stored fake (forward live), if_neg (fun h => (offOld h.1).1 h.2),
      if_neg (fun h => (offNew h.1).1 h.2)]
  · intro w header
    rw [holds.header w header, if_neg (fun h => (offOld h.1).2 h.2),
      if_neg (fun h => (offNew h.1).2 h.2)]

end Holds

/-! What the invariant says of the window as a whole. -/

namespace Inv

variable {s : State abi ι} (inv : Inv s)
include inv

theorem geometry : Geometry abi s.ring.capacity := by
  have valid := inv.valid
  simp only [Ring.isValid, Bool.and_eq_true] at valid
  exact capacityIsValidGeometry valid.2

theorem storageNonzero : s.ring.storage ≠ 0 := by
  have valid := inv.valid
  simp only [Ring.isValid, Bool.and_eq_true, decide_eq_true_eq] at valid
  exact valid.1

theorem headPlace {r : Reservation abi ι} {rest : List (Reservation abi ι)}
    (window : s.window = r :: rest) :
    s.released = r.start ∨ (r.plan.fakeSize ≠ 0 ∧ s.released = r.recordAt) := by
  obtain ⟨first, laid, atFirst | ⟨r', rest', window', fake, atRecord⟩⟩ := inv.laid
  · rw [window] at laid
    left
    rw [atFirst, laid.1]
  · rw [window] at window'
    obtain ⟨rfl, rfl⟩ := List.cons.inj window'
    exact Or.inr ⟨fake, atRecord⟩

theorem later {r : Reservation abi ι} {rest : List (Reservation abi ι)}
    (window : s.window = r :: rest) {r' : Reservation abi ι} (member : r' ∈ rest) :
    r.stop ≤ r'.start := by
  obtain ⟨first, laid, _⟩ := inv.laid
  rw [window] at laid
  exact (laidBounds laid.2.2 member).1

theorem stopLeReserved {r : Reservation abi ι} (member : r ∈ s.window) : r.stop ≤ s.reserved := by
  obtain ⟨first, laid, _⟩ := inv.laid
  exact (laidBounds laid member).2.2

theorem stopInRoom {r : Reservation abi ι} (member : r ∈ s.window) :
    r.stop ≤ s.released + s.ring.capacity :=
  Nat.le_trans (inv.stopLeReserved member) inv.room

theorem releasedLeRecord {r : Reservation abi ι} (member : r ∈ s.window) : s.released ≤ r.recordAt := by
  have valid := inv.reservations r member
  cases window : s.window with
  | nil => simp [window] at member
  | cons head rest =>
    have place := inv.headPlace window
    rw [window] at member
    have headValid := inv.reservations head (by simp [window])
    have whole := headValid.recordStop
    rcases List.mem_cons.mp member with rfl | tail
    · rcases place with h | ⟨_, h⟩ <;> unfold Reservation.recordAt at * <;> omega
    · have after := inv.later window tail
      rcases place with h | ⟨_, h⟩ <;> unfold Reservation.recordAt at * <;> omega

theorem sameStart {r r' : Reservation abi ι} (member : r ∈ s.window) (member' : r' ∈ s.window)
    (same : r.start = r'.start) : r = r' := by
  obtain ⟨first, laid, _⟩ := inv.laid
  exact laidInjective laid member member' same

theorem apart {r r' : Reservation abi ι} (member : r ∈ s.window) (member' : r' ∈ s.window)
    (different : r' ≠ r) : r'.stop ≤ r.start ∨ r.stop ≤ r'.start := by
  obtain ⟨first, laid, _⟩ := inv.laid
  rcases laidApart laid member member' with rfl | h | h
  · exact absurd rfl different
  · exact Or.inr h
  · exact Or.inl h

theorem writing {p : ι} {stage : WriteStage abi} {r : Reservation abi ι}
    (at_ : s.producers p = .writing stage r) :
    r ∈ s.window ∧ r.producer = p ∧
      (stage.Unpublished → r.start = s.published ∧ r.stop = s.reserved) := by
  have holds := inv.producers p
  rw [at_] at holds
  exact ⟨holds.1, holds.2.1, holds.2.2.1⟩

theorem headPublished (some_ : s.released < s.published) :
    ∃ r rest, s.window = r :: rest ∧ r.stop ≤ s.published := by
  cases window : s.window with
  | nil =>
    obtain ⟨first, laid, atFirst | ⟨r, rest, impossible, _⟩⟩ := inv.laid
    · rw [window] at laid
      have last : first = s.reserved := laid
      have := inv.writeReserve
      omega
    · rw [window] at impossible
      contradiction
  | cons r rest =>
    refine ⟨r, rest, rfl, ?_⟩
    have member : r ∈ s.window := by simp [window]
    rcases inv.newest with all | ⟨p, stage, newest, at_, unpublished⟩
    · rw [all]
      exact inv.stopLeReserved member
    · obtain ⟨newestMember, _, span⟩ := inv.writing at_
      obtain ⟨begins, _⟩ := span unpublished
      rw [window] at newestMember
      rcases List.mem_cons.mp newestMember with rfl | tail
      · have place := inv.headPlace window
        have start : newest.start ≤ newest.recordAt := Nat.le_add_right _ _
        rcases place with h | ⟨_, h⟩ <;> omega
      · have := inv.later window tail
        omega

theorem publishedProgress {r : Reservation abi ι} (member : r ∈ s.window) (published : r.stop ≤ s.published) :
    (s.progress r).fakeStored = true ∧
      ((s.progress r).header = some 0 ∨ s.progress r = r.committed) := by
  unfold State.progress ProducerPc.progress
  have proper := (inv.reservations r member).startLtStop
  split
  · rename_i stage held at_
    split
    · rename_i same
      obtain ⟨heldMember, _, span⟩ := inv.writing at_
      obtain rfl := inv.sameStart heldMember member same
      cases stage with
      | storeFake => have := (span trivial).1; omega
      | markUncommitted => have := (span trivial).1; omega
      | publish => have := (span trivial).1; omega
      | copy written rest => exact ⟨rfl, Or.inl rfl⟩
    · exact ⟨rfl, Or.inr rfl⟩
  · exact ⟨rfl, Or.inr rfl⟩

theorem writingProgress {p : ι} {stage : WriteStage abi} {r : Reservation abi ι}
    (at_ : s.producers p = .writing stage r) : s.progress r = stage.progress := by
  obtain ⟨_, mine, _⟩ := inv.writing at_
  unfold State.progress
  rw [mine, at_]
  exact if_pos rfl

/- While the word at the read position is cleared, the oldest reservation is
published, and the read position has left only its fake record. -/
theorem clearedHead (cleared : s.cleared = true) :
    ∃ r rest, s.window = r :: rest ∧ r.stop ≤ s.published ∧
      (s.progress r = r.committed ∨ s.released < r.recordAt) := by
  have consumer := inv.consumer
  unfold ConsumerHolds at consumer
  unfold State.cleared at cleared
  split at cleared
  · rename_i readPos stride at_
    rw [at_] at consumer
    obtain ⟨_, _, r, rest, window, place, fake, _, published⟩ := consumer
    refine ⟨r, rest, window, published, Or.inr ?_⟩
    unfold Reservation.recordAt
    omega
  · rename_i readPos stride at_
    rw [at_] at consumer
    obtain ⟨loan, _, ⟨r, rest, window, _, published, committed, _⟩, _⟩ := consumer
    exact ⟨r, rest, window, published, Or.inl committed⟩
  · contradiction

theorem notClearedWriting {p : ι} {stage : WriteStage abi} {r : Reservation abi ι}
    (at_ : s.producers p = .writing stage r) (cleared : s.cleared = true) :
    s.released ≠ r.recordAt ∧ (stage.Unpublished → s.released ≠ r.start) := by
  obtain ⟨member, _, span⟩ := inv.writing at_
  obtain ⟨head, rest, window, published, where_⟩ := inv.clearedHead cleared
  have place := inv.headPlace window
  have headValid := inv.reservations head (by simp [window])
  have proper := headValid.startLtStop
  have whole := headValid.recordStop
  have total := headValid.planned.totalPos
  have word := sizeofSizeTPos abi
  have start : r.start ≤ r.recordAt := Nat.le_add_right _ _
  have behind : s.released < head.stop := by
    rcases place with h | ⟨_, h⟩ <;> omega
  rw [window] at member
  rcases List.mem_cons.mp member with rfl | tail
  · constructor
    · rcases where_ with committed | before
      · rw [inv.writingProgress at_] at committed
        exact absurd committed (headValid.writingNotCommitted inv.geometry stage)
      · omega
    · intro unpublished
      have := (span unpublished).1
      omega
  · have := inv.later window tail
    exact ⟨by omega, fun _ => by omega⟩

theorem copiedLe {r : Reservation abi ι} (member : r ∈ s.window) :
    (s.progress r).copied ≤ r.payload.length := by
  unfold State.progress ProducerPc.progress
  split
  · rename_i stage held at_
    split
    · rename_i same
      have holds := inv.producers r.producer
      rw [at_] at holds
      obtain ⟨heldMember, _, _, shape⟩ := holds
      obtain rfl := inv.sameStart heldMember member same
      cases stage with
      | copy written rest =>
        obtain ⟨done, parts, count⟩ := shape
        have whole : held.payload = payload done ++ payload rest := by
          unfold Reservation.payload payload
          rw [parts, List.flatMap_append]
        rw [whole, List.length_append, ← count]
        exact Nat.le_add_right _ _
      | _ => exact Nat.zero_le _
    · exact Nat.le_refl _
  · exact Nat.le_refl _

theorem frameOthers {r : Reservation abi ι} (member : r ∈ s.window) {pos : Nat} {bytes : List UInt8}
    (live : s.released ≤ pos) (low : r.start ≤ pos) (high : pos + bytes.length ≤ r.stop)
    (block : Contiguous s.ring.capacity pos bytes.length) :
    ∀ r' ∈ s.window, r' ≠ r →
      Holds abi s.ring.capacity (write s.ring.bytes (pos % s.ring.capacity) bytes) s.released s.cleared r'
        (s.progress r') := by
  intro r' member' different
  have room := inv.stopInRoom member
  refine (inv.stored r' member').frame (inv.reservations r' member') inv.geometry (inv.copiedLe member')
    (inv.stopInRoom member') (inv.releasedLeRecord member') live (by omega) block ?_
  rcases inv.apart member member' different with before | after
  · left
    omega
  · right
    omega

theorem fakeKept {r : Reservation abi ι} (member : r ∈ s.window) {pos : Nat} {bytes : List UInt8}
    (fake : r.plan.fakeSize ≠ 0) (before : s.released ≤ r.start) (low : r.recordAt ≤ pos)
    (high : pos + bytes.length ≤ r.stop) (block : Contiguous s.ring.capacity pos bytes.length) :
    loadWord abi.sizeofSizeT (write s.ring.bytes (pos % s.ring.capacity) bytes) (r.start % s.ring.capacity) =
      loadWord abi.sizeofSizeT s.ring.bytes (r.start % s.ring.capacity) := by
  have v := inv.reservations r member
  have word := v.fakeWord inv.geometry fake
  have room := inv.stopInRoom member
  have apart := apartInStorage (v.fakeBlock inv.geometry fake) (by unfold Reservation.recordAt at low; omega)
    (by omega) block
  exact loadFrame apart

/- A CAS that succeeds less than a lap after the load found every earlier
reservation published, and the plan made from the loaded positions still fits. -/
theorem casFresh {p : ι} {push : Push abi} {writePos seen seenReleased : Nat} {plan : PushPlan}
    (at_ : s.producers p = .casReserve push writePos plan seen seenReleased)
    (agree : s.ring.reservePos = writePos) (lap : s.reserved < seen + abi.modulus) :
    s.reserved = seen ∧ s.published = seen ∧ Planned abi s.ring.capacity s.reserved push.recordSize plan ∧
      s.reserved + plan.publishSize ≤ s.released + s.ring.capacity := by
  have holds := inv.producers p
  rw [at_] at holds
  obtain ⟨_, wrapped, behind, _, before, planned⟩ := holds
  have order := inv.writeReserve
  have same : s.reserved = seen := by
    refine WrappingCounter.sameOfModEq (by omega) lap ?_
    have positions := inv.reservePos.symm.trans (agree.trans wrapped)
    exact positions
  have fresh := inv.readWrite
  obtain ⟨fits, room⟩ := planned (by omega)
  rw [same]
  exact ⟨rfl, by omega, fits, by omega⟩

end Inv

end Nanosig.MpscRecordRing
