import Nanosig.Ringbuf.Queue

/-! Every run of calls on a fresh ring is a run of the bounded queue, and drafts that
cover a write and are skipped over are that write. -/
namespace Nanosig.Ringbuf

open ByteStore RingStore

section Runs

variable {rb : RingBuffer} {first last : Nat}

theorem callAnswers (at_ : Indices rb.size rb.r rb.w first last) (call : Call) : Answers rb call := by
  cases call with
  | write buf len =>
    cases buf with
    | none => exact unchangedAnswers at_ (.count 0) rfl ⟨rfl, rfl⟩
    | some buf => exact writeAnswers at_ buf len
  | draftWrite offset buf len =>
    cases buf with
    | none => exact unchangedAnswers at_ (.count 0) rfl ⟨rfl, rfl⟩
    | some buf => exact draftWriteAnswers at_ offset buf len
  | writeSkip len => exact writeSkipAnswers at_ len
  | read buf len =>
    cases buf with
    | none => exact unchangedAnswers at_ (.copied none 0) rfl ⟨rfl, rfl⟩
    | some buf => exact readAnswers at_ buf len
  | readSkip len => exact readSkipAnswers at_ len
  | peek offset buf len =>
    cases buf with
    | none => exact unchangedAnswers at_ .null rfl ⟨rfl, rfl⟩
    | some buf =>
      cases len with
      | none => exact unchangedAnswers at_ .null rfl ⟨rfl, rfl⟩
      | some len => exact peekAnswers at_ offset buf len
  | peekCopy offset buf len =>
    cases buf with
    | none => exact unchangedAnswers at_ (.copied none 0) rfl ⟨rfl, rfl⟩
    | some buf => exact peekCopyAnswers at_ offset buf len
  | clear => exact clearAnswers at_
  | reset => exact resetAnswers at_

theorem runAnswers (at_ : Indices rb.size rb.r rb.w first last) (calls : List Call) :
    QueueRun (contents rb) calls (runCalls rb calls).2 (contents (runCalls rb calls).1) ∧
      (runCalls rb calls).1.size = rb.size ∧ (∀ a, rb.size ≤ a → (runCalls rb calls).1.buf a = rb.buf a) ∧
      ∃ first' last', Indices rb.size (runCalls rb calls).1.r (runCalls rb calls).1.w first' last' := by
  induction calls generalizing rb first last with
  | nil => exact ⟨.done _, rfl, fun _ _ => rfl, first, last, at_⟩
  | cons call calls ih =>
    obtain ⟨queue, size, outside, first', last', moved⟩ := callAnswers at_ call
    rw [← size] at moved
    obtain ⟨rest, sameSize, sameOutside, ends⟩ := ih moved
    rw [size] at sameSize ends
    rw [size] at sameOutside
    exact ⟨.next queue rest, sameSize, fun a above => (sameOutside a above).trans (outside a above), ends⟩

theorem freshIndices {size : Nat} (positive : 1 ≤ size) (limit : size ≤ uint32Max / 3) : Indices size 0 0 0 0 :=
  ⟨positive, limit, (Nat.zero_mod _).symm, (Nat.zero_mod _).symm, le_rfl, by omega⟩

end Runs

section Drafts

def draftAll (rb : RingBuffer) (data : Store) (pieces : List (Nat × Nat)) : RingBuffer :=
  pieces.foldl (fun rb piece => (draftWrite rb piece.1 (some fun i => data (piece.1 + i)) piece.2).1) rb

def Covers (pieces : List (Nat × Nat)) (i : Nat) : Prop := ∃ piece ∈ pieces, piece.1 ≤ i ∧ i < piece.1 + piece.2

variable {rb : RingBuffer} {first last : Nat} (at_ : Indices rb.size rb.r rb.w first last)
include at_

open Classical in
theorem draftCells (data : Store) (offset len : Nat) :
    ∃ m, (draftWrite rb offset (some fun i => data (offset + i)) len).1 = { rb with buf := m } ∧
      (∀ a, rb.size ≤ a → m a = rb.buf a) ∧
      ∀ i < rb.size, m ((last + i) % rb.size) =
        if i < rb.size - (last - first) ∧ offset ≤ i ∧ i < offset + len then data i else rb.buf ((last + i) % rb.size) := by
  have bounds := at_.bounds
  have positive := at_.positive
  by_cases none : len = 0
  · exact ⟨rb.buf, by simp [draftWrite, none], fun _ _ => rfl, fun i _ => by rw [if_neg (by omega)]⟩
  by_cases outside : offset ≥ rb.size - (last - first)
  · refine ⟨rb.buf, ?_, fun _ _ => rfl, fun i _ => by rw [if_neg (by omega)]⟩
    simp only [draftWrite, if_neg none, at_.free, if_pos outside]
  obtain ⟨n, isN⟩ : ∃ n, n = min len (rb.size - (last - first) - offset) := ⟨_, rfl⟩
  have clipped : clip len (rb.size - (last - first) - offset) = n := by rw [clipEq, isN]
  refine ⟨copyIn rb.buf rb.size ((last + offset) % rb.size) (fun i => data (offset + i)) n, ?_, fun a above => ?_, fun i below => ?_⟩
  · simp only [draftWrite, if_neg none, at_.free, if_neg outside, clipped, if_neg (by omega : ¬n = 0),
      at_.writeCellAt (by omega : offset ≤ rb.size)]
  · exact copyInOutside rb.buf (last + offset) _ (by omega) positive (by omega) above
  · have cell {j : Nat} (small : j < rb.size) :=
      copyInAt rb.buf (last + offset) (fun i => data (offset + i)) (by omega : rb.size < 2 ^ 32) (by omega : n ≤ rb.size) small
    by_cases behind : offset ≤ i
    · have here := cell (j := i - offset) (by omega)
      rw [show last + offset + (i - offset) = last + i by omega, show offset + (i - offset) = i by omega] at here
      rw [here]
      exact if_congr (by omega) rfl rfl
    · have here := cell (j := i + rb.size - offset) (by omega)
      rw [show last + offset + (i + rb.size - offset) = last + i + rb.size by omega, Nat.add_mod_right, if_neg (by omega)] at here
      rw [here, if_neg (by omega)]

open Classical in
theorem draftAllCells (data : Store) (pieces : List (Nat × Nat)) :
    ∃ m, draftAll rb data pieces = { rb with buf := m } ∧ (∀ a, rb.size ≤ a → m a = rb.buf a) ∧
      ∀ i < rb.size, m ((last + i) % rb.size) =
        if i < rb.size - (last - first) ∧ Covers pieces i then data i else rb.buf ((last + i) % rb.size) := by
  induction pieces generalizing rb with
  | nil => exact ⟨rb.buf, rfl, fun _ _ => rfl, fun i _ => by simp [Covers]⟩
  | cons piece pieces ih =>
    obtain ⟨m, drafted, outside, cells⟩ := draftCells at_ data piece.1 piece.2
    obtain ⟨m', rest, outside', cells'⟩ := @ih { rb with buf := m } at_
    refine ⟨m', ?_, fun a above => (outside' a above).trans (outside a above), fun i below => ?_⟩
    · rw [draftAll, List.foldl_cons, drafted]
      exact rest
    · have later := cells' i below
      simp only at later
      rw [later, cells i below]
      have either : Covers (piece :: pieces) i ↔ (piece.1 ≤ i ∧ i < piece.1 + piece.2) ∨ Covers pieces i := by
        simp [Covers]
      rw [either]
      by_cases free : i < rb.size - (last - first) <;> by_cases now : piece.1 ≤ i ∧ i < piece.1 + piece.2 <;>
        by_cases then_ : Covers pieces i <;> simp [free, now, then_]

theorem draftsWrite (data : Store) (n : Nat) (pieces : List (Nat × Nat)) (covers : ∀ i, Covers pieces i ↔ i < n) :
    writeSkip (draftAll rb data pieces) n = writeBytes rb (some data) n := by
  have bounds := at_.bounds
  obtain ⟨m, drafted, outside, cells⟩ := draftAllCells at_ data pieces
  obtain ⟨wl, isWl⟩ : ∃ wl, wl = min n (rb.size - (last - first)) := ⟨_, rfl⟩
  have clipped : clip n (rb.size - (last - first)) = wl := by rw [clipEq, isWl]
  have written : m = if wl = 0 then rb.buf else copyIn rb.buf rb.size (last % rb.size) data wl := by
    funext a
    rcases Nat.lt_or_ge a rb.size with inside | above
    · obtain ⟨i, below, cell⟩ := cellPosition last inside
      rw [← cell, cells i below, covers]
      split
      · rw [if_neg (by omega), copyInAt rb.buf last data (by omega) (by omega) below, if_pos (by omega)]
      · split
        · rfl
        · rw [copyInAt rb.buf last data (by omega) (by omega) below, if_neg (by omega)]
    · rw [outside a above]
      split
      · rfl
      · rw [copyInOutside rb.buf last data (by omega) at_.positive (by omega) above]
  rw [drafted]
  simp only [writeSkip, writeBytes, at_.free, clipped, at_.writeCell]
  by_cases none : n = 0
  · have zero : wl = 0 := by omega
    rw [if_pos zero] at written
    rw [if_pos none, if_pos none, written]
  · rw [if_neg none, if_neg none]
    by_cases full : wl = 0
    · rw [if_pos full] at written
      rw [if_pos full, if_pos full, written]
    · rw [if_neg full] at written
      rw [if_neg full, if_neg full, written]

end Drafts

structure InBounds (size : Nat) (rb : RingBuffer) : Prop where
  sized : rb.size = size
  r : rb.r < 2 * size
  w : rb.w < 2 * size
  sums : ∀ n ≤ size, add32 rb.r n = rb.r + n ∧ add32 rb.w n = rb.w + n
  twice : mul32 size 2 = size * 2
  queued : dataSize rb = (contents rb).queued.length
  spare : freeSize rb = (contents rb).spare.length
  between : 0 ≤ dataSize rb ∧ dataSize rb ≤ size
  total : dataSize rb + freeSize rb = size
  capacity : totalSize rb = size

theorem inBounds {rb : RingBuffer} {first last : Nat} (at_ : Indices rb.size rb.r rb.w first last) : InBounds rb.size rb := by
  have bounds := at_.bounds
  have order := at_.order
  have room := at_.room
  have used : dataSize rb = ((last - first : Nat) : Int) := at_.dataSize
  have free : freeSize rb = ((rb.size - (last - first) : Nat) : Int) := by
    rw [freeSize, at_.free, toInt32Exact (by omega)]
  refine ⟨rfl, bounds.2.2.1, bounds.2.2.2, fun n fits => ?_, by rw [at_.twice, Nat.mul_comm], ?_, ?_, ?_, ?_, ?_⟩
  · exact ⟨add32Exact (by omega), add32Exact (by omega)⟩
  · rw [used, queuedLength at_]
  · rw [free, spareLength at_]
  · omega
  · omega
  · exact toInt32Exact (by omega)

/- Every sequence of calls on a ring of any accepted size. -/
theorem ringbufRefinesQueue (buf : Store) (size : Nat) (positive : 1 ≤ size) (limit : size ≤ uint32Max / 3)
    (calls : List Call) :
    ∃ rb, init (some buf) size = .ok rb ∧ (contents rb).queued = [] ∧
      QueueRun (contents rb) calls (runCalls rb calls).2 (contents (runCalls rb calls).1) ∧
      InBounds size (runCalls rb calls).1 ∧ (∀ a, size ≤ a → (runCalls rb calls).1.buf a = buf a) ∧
      ∀ (data : Store) (n : Nat) (pieces : List (Nat × Nat)), (∀ i, Covers pieces i ↔ i < n) →
        writeSkip (draftAll (runCalls rb calls).1 data pieces) n = writeBytes (runCalls rb calls).1 (some data) n := by
  have fresh := freshIndices positive limit
  have created : init (some buf) size = .ok ⟨buf, size, 0, 0⟩ := by
    simp only [init]
    rw [if_neg (by omega), if_neg (by omega)]
  obtain ⟨run, sameSize, outside, first, last, ended⟩ := @runAnswers ⟨buf, size, 0, 0⟩ 0 0 fresh calls
  simp only at sameSize ended outside
  have placed : Indices (runCalls ⟨buf, size, 0, 0⟩ calls).1.size (runCalls ⟨buf, size, 0, 0⟩ calls).1.r
      (runCalls ⟨buf, size, 0, 0⟩ calls).1.w first last := by
    rw [sameSize]
    exact ended
  have bounds := inBounds placed
  rw [sameSize] at bounds
  have empty := @queuedLength ⟨buf, size, 0, 0⟩ 0 0 fresh
  exact ⟨⟨buf, size, 0, 0⟩, created, List.length_eq_zero_iff.mp empty, run, bounds, outside,
    fun data n pieces covers => draftsWrite placed data n pieces covers⟩

/- A ring of three bytes after four written and two read, over its end. -/
theorem threeBytesWrapped :
    ∃ rb, init (some fun _ => 0) 3 = .ok rb ∧
      (contents (runCalls rb [.write (some fun i => 10 + i.toUInt8) 2, .readSkip 2,
        .write (some fun i => 20 + i.toUInt8) 4]).1).queued = [20, 21, 22] ∧
      (runCalls rb [.write (some fun i => 10 + i.toUInt8) 2, .readSkip 2, .write (some fun i => 20 + i.toUInt8) 4]).1.w = 5 := by
  obtain ⟨rb, created, -⟩ := ringbufRefinesQueue (fun _ => 0) 3 (by decide) (by decide)
    [.write (some fun i => 10 + i.toUInt8) 2, .readSkip 2, .write (some fun i => 20 + i.toUInt8) 4]
  cases created
  refine ⟨_, rfl, by decide +kernel, by decide +kernel⟩

end Nanosig.Ringbuf
