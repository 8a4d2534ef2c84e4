import Nanosig.Ringbuf.Contents

/-! The ring as a bounded byte queue. The abstract queue keeps the spare bytes too, in the
order they will be written, because a draft is kept there until it is skipped over. -/
namespace Nanosig.Ringbuf

open ByteStore RingStore

inductive Call where
  | write (buf : Option Store) (len : Nat)
  | draftWrite (offset : Nat) (buf : Option Store) (len : Nat)
  | writeSkip (len : Nat)
  | read (buf : Option Store) (len : Nat)
  | readSkip (len : Nat)
  | peek (offset : Nat) (buf : Option Store) (len : Option Nat)
  | peekCopy (offset : Nat) (buf : Option Store) (len : Nat)
  | clear
  | reset

/- What a call returns: a count, the caller's memory, or for `ns_ringbuf_peek` the bytes its
pointer leads to; a pointer to the caller's own buffer comes with that memory. -/
inductive Reply where
  | count (n : Int)
  | copied (buf : Option Store) (n : Int)
  | null
  | pointed (bytes : List UInt8)
  | filled (buf : Store) (len : Nat)
  | nothing

def Call.run (rb : RingBuffer) : Call → RingBuffer × Reply
  | .write buf len => ((writeBytes rb buf len).1, .count (writeBytes rb buf len).2)
  | .draftWrite offset buf len => ((Ringbuf.draftWrite rb offset buf len).1, .count (Ringbuf.draftWrite rb offset buf len).2)
  | .writeSkip len => ((Ringbuf.writeSkip rb len).1, .count (Ringbuf.writeSkip rb len).2)
  | .read buf len => ((readBytes rb buf len).1, .copied (readBytes rb buf len).2.1 (readBytes rb buf len).2.2)
  | .readSkip len => ((Ringbuf.readSkip rb len).1, .count (Ringbuf.readSkip rb len).2)
  | .peek offset buf len =>
      (rb, match Ringbuf.peek rb offset buf len with
        | .null => .null
        | .inRing place n => .pointed (ByteStore.read rb.buf place n)
        | .copied buf n => .filled buf n)
  | .peekCopy offset buf len => (rb, .copied (Ringbuf.peekCopy rb offset buf len).1 (Ringbuf.peekCopy rb offset buf len).2)
  | .clear => (Ringbuf.clear rb, .nothing)
  | .reset => (Ringbuf.reset rb, .nothing)

def runCalls (rb : RingBuffer) : List Call → RingBuffer × List Reply
  | [] => (rb, [])
  | call :: calls => ((runCalls (call.run rb).1 calls).1, (call.run rb).2 :: (runCalls (call.run rb).1 calls).2)

def QueueCall (q : Contents) : Call → Reply → Contents → Prop
  | .write none _, reply, q' => reply = .count 0 ∧ q' = q
  | .write (some buf) len, reply, q' =>
      let n := min len q.spare.length
      reply = .count n ∧ q' = ⟨q.queued ++ ByteStore.read buf 0 n, q.spare.drop n⟩
  | .draftWrite _ none _, reply, q' => reply = .count 0 ∧ q' = q
  | .draftWrite offset (some buf) len, reply, q' =>
      if len = 0 then reply = .count 0 ∧ q' = q
      else if offset ≥ q.spare.length then reply = .count rangeCode ∧ q' = q
      else
        let n := min len (q.spare.length - offset)
        reply = .count n ∧
          q' = ⟨q.queued, q.spare.take offset ++ ByteStore.read buf 0 n ++ q.spare.drop (offset + n)⟩
  | .writeSkip len, reply, q' =>
      let n := min len q.spare.length
      reply = .count n ∧ q' = ⟨q.queued ++ q.spare.take n, q.spare.drop n⟩
  | .read none _, reply, q' => reply = .copied none 0 ∧ q' = q
  | .read (some buf) len, reply, q' =>
      let n := min len q.queued.length
      reply = .copied (some (ByteStore.write buf 0 (q.queued.take n))) n ∧ q' = ⟨q.queued.drop n, q.spare ++ q.queued.take n⟩
  | .readSkip len, reply, q' =>
      let n := min len q.queued.length
      reply = .count n ∧ q' = ⟨q.queued.drop n, q.spare ++ q.queued.take n⟩
  | .peek offset (some buf) (some len), reply, q' =>
      q' = q ∧
        if offset ≥ q.queued.length ∨ q.queued.length - offset < len then reply = .null
        else reply = .filled (ByteStore.write buf 0 ((q.queued.drop offset).take len)) len ∨
          ∃ n, len ≤ n ∧ 0 < n ∧ offset + n ≤ q.queued.length ∧ reply = .pointed ((q.queued.drop offset).take n)
  | .peek _ _ _, reply, q' => q' = q ∧ reply = .null
  | .peekCopy _ none _, reply, q' => q' = q ∧ reply = .copied none 0
  | .peekCopy offset (some buf) len, reply, q' =>
      q' = q ∧
        if len = 0 ∨ offset ≥ q.queued.length ∨ q.queued.length - offset < len then reply = .copied (some buf) 0
        else reply = .copied (some (ByteStore.write buf 0 ((q.queued.drop offset).take len))) len
  | .clear, reply, q' => reply = .nothing ∧ q' = ⟨[], q.spare ++ q.queued⟩
  | .reset, reply, q' => reply = .nothing ∧ q'.queued = [] ∧ ∃ k, q'.spare = (q.queued ++ q.spare).rotate k

inductive QueueRun : Contents → List Call → List Reply → Contents → Prop where
  | done (q : Contents) : QueueRun q [] [] q
  | next {q q' q'' : Contents} {call : Call} {reply : Reply} {calls : List Call} {replies : List Reply}
      (first : QueueCall q call reply q') (rest : QueueRun q' calls replies q'') :
      QueueRun q (call :: calls) (reply :: replies) q''

structure Answers (rb : RingBuffer) (call : Call) : Prop where
  queue : QueueCall (contents rb) call (call.run rb).2 (contents (call.run rb).1)
  size : (call.run rb).1.size = rb.size
  outside : ∀ a, rb.size ≤ a → (call.run rb).1.buf a = rb.buf a
  indices : ∃ first' last', Indices rb.size (call.run rb).1.r (call.run rb).1.w first' last'

section Calls

variable {rb : RingBuffer} {first last : Nat}

theorem clipEq (len limit : Nat) : clip len limit = min len limit := by
  unfold clip
  split <;> omega

variable (at_ : Indices rb.size rb.r rb.w first last)
include at_

theorem queuedLength : (contents rb).queued.length = last - first := by rw [contentsAt at_, ringReadLength]

theorem spareLength : (contents rb).spare.length = rb.size - (last - first) := by rw [contentsAt at_, ringReadLength]

theorem storedContents {offset n : Nat} (buf : Store) (inside : offset + n ≤ rb.size - (last - first)) :
    contents { rb with buf := copyIn rb.buf rb.size ((last + offset) % rb.size) buf n } = ⟨(contents rb).queued,
      (contents rb).spare.take offset ++ read buf 0 n ++ (contents rb).spare.drop (offset + n)⟩ := by
  have bounds := at_.bounds
  have order := at_.order
  have room := at_.room
  obtain ⟨rest, free⟩ := Nat.exists_eq_add_of_le inside
  have limit : rb.size < 2 ^ 32 := by omega
  have at_pos {i : Nat} (below : i < rb.size) :=
    copyInAt rb.buf (last + offset) buf limit (by omega : n ≤ rb.size) below
  -- A position up to `size` from the stored ones keeps its byte.
  have kept {p : Nat} (after : last + offset + n ≤ p + rb.size) (before : p < last + offset) :
      copyIn rb.buf rb.size ((last + offset) % rb.size) buf n (p % rb.size) = rb.buf (p % rb.size) := by
    have cell := at_pos (i := p + rb.size - (last + offset)) (by omega)
    rw [show last + offset + (p + rb.size - (last + offset)) = p + rb.size by omega, Nat.add_mod_right, if_neg (by omega)] at cell
    exact cell
  have stored : contents { rb with buf := copyIn rb.buf rb.size ((last + offset) % rb.size) buf n } =
      ⟨ringRead rb.size (copyIn rb.buf rb.size ((last + offset) % rb.size) buf n) first (last - first),
        ringRead rb.size (copyIn rb.buf rb.size ((last + offset) % rb.size) buf n) last (rb.size - (last - first))⟩ :=
    contentsAt at_
  rw [stored, contentsAt at_]
  simp only [Contents.mk.injEq]
  refine ⟨ringReadSame fun i below => kept (by omega) (by omega), ?_⟩
  rw [ringReadTake offset (by omega), ringReadDrop (offset + n) (by omega), free, ringReadAppend, ringReadAppend,
    show offset + n + rest - (offset + n) = rest by omega]
  refine congrArg₂ (· ++ ·) (congrArg₂ (· ++ ·) ?_ ?_) ?_
  · exact ringReadSame fun i below => kept (by omega) (by omega)
  · apply List.map_congr_left
    intro i member
    have below := List.mem_range.mp member
    rw [at_pos (by omega), if_pos below, Nat.zero_add]
  · refine ringReadSame fun i below => ?_
    have cell := at_pos (i := n + i) (by omega)
    rw [if_neg (by omega)] at cell
    rw [show last + (offset + n) + i = last + offset + (n + i) by omega]
    exact cell

theorem forwardContents {n : Nat} (inside : n ≤ rb.size - (last - first)) :
    contents { rb with w := fix rb.size (add32 rb.w n) } =
      ⟨(contents rb).queued ++ (contents rb).spare.take n, (contents rb).spare.drop n⟩ := by
  have order := at_.order
  have moved : contents { rb with w := fix rb.size (add32 rb.w n) } =
      ⟨ringRead rb.size rb.buf first (last + n - first), ringRead rb.size rb.buf (last + n) (rb.size - (last + n - first))⟩ :=
    contentsAt (at_.forward inside)
  rw [moved, contentsAt at_]
  simp only [Contents.mk.injEq]
  rw [ringReadTake n inside, ringReadDrop n inside, show last + n - first = (last - first) + n by omega, ringReadAppend,
    show first + (last - first) = last by omega, show rb.size - (last - first + n) = rb.size - (last - first) - n by omega]
  exact ⟨rfl, rfl⟩

theorem advanceContents {n : Nat} (inside : n ≤ last - first) :
    contents { rb with r := fix rb.size (add32 rb.r n) } =
      ⟨(contents rb).queued.drop n, (contents rb).spare ++ (contents rb).queued.take n⟩ := by
  have order := at_.order
  have room := at_.room
  have moved : contents { rb with r := fix rb.size (add32 rb.r n) } =
      ⟨ringRead rb.size rb.buf (first + n) (last - (first + n)), ringRead rb.size rb.buf last (rb.size - (last - (first + n)))⟩ :=
    contentsAt (at_.advance inside)
  rw [moved, contentsAt at_]
  simp only [Contents.mk.injEq]
  have lap : ringRead rb.size rb.buf (last + (rb.size - (last - first))) n = ringRead rb.size rb.buf first n :=
    ringReadMod n (by rw [show last + (rb.size - (last - first)) = first + rb.size by omega, Nat.add_mod_right])
  rw [ringReadDrop n inside, ringReadTake n inside, show last - (first + n) = last - first - n by omega,
    show rb.size - (last - first - n) = rb.size - (last - first) + n by omega, ringReadAppend, lap]
  exact ⟨rfl, rfl⟩

theorem unchangedAnswers {call : Call} (reply : Reply) (ran : call.run rb = (rb, reply))
    (queue : QueueCall (contents rb) call reply (contents rb)) : Answers rb call := by
  refine ⟨?_, ?_, ?_, first, last, ?_⟩ <;> simp [ran, queue, at_]

theorem storedAnswers {call : Call} (reply : Reply) (buf : Store) {offset n : Nat}
    (inside : offset + n ≤ rb.size - (last - first))
    (ran : call.run rb = ({ rb with buf := copyIn rb.buf rb.size ((last + offset) % rb.size) buf n }, reply))
    (queue : QueueCall (contents rb) call reply
      ⟨(contents rb).queued, (contents rb).spare.take offset ++ read buf 0 n ++ (contents rb).spare.drop (offset + n)⟩) :
    Answers rb call := by
  have bounds := at_.bounds
  have positive := at_.positive
  refine ⟨?_, by rw [ran], fun a outside => ?_, first, last, by rw [ran]; exact at_⟩
  · rw [ran, storedContents at_ buf inside]
    exact queue
  · rw [ran]
    exact copyInOutside rb.buf (last + offset) buf (by omega) positive (by omega) outside

theorem advanceAnswers {call : Call} (reply : Reply) {n : Nat} (inside : n ≤ last - first)
    (ran : call.run rb = ({ rb with r := fix rb.size (add32 rb.r n) }, reply))
    (queue : QueueCall (contents rb) call reply ⟨(contents rb).queued.drop n, (contents rb).spare ++ (contents rb).queued.take n⟩) :
    Answers rb call := by
  refine ⟨?_, by rw [ran], fun a outside => by rw [ran], first + n, last, by rw [ran]; exact at_.advance inside⟩
  rw [ran, advanceContents at_ inside]
  exact queue

theorem spareCount (len : Nat) : ∃ n, n = min len (contents rb).spare.length ∧ n ≤ rb.size - (last - first) ∧ n ≤ len ∧
    clip len (rb.size - (last - first)) = n ∧ toInt32 n = (n : Int) := by
  have bounds := at_.bounds
  rw [spareLength at_]
  exact ⟨_, rfl, Nat.min_le_right _ _, Nat.min_le_left _ _, clipEq _ _, toInt32Exact (by omega)⟩

theorem queuedCount (len : Nat) : ∃ n, n = min len (contents rb).queued.length ∧ n ≤ last - first ∧ n ≤ len ∧
    clip len (last - first) = n ∧ toInt32 n = (n : Int) := by
  have bounds := at_.bounds
  have room := at_.room
  rw [queuedLength at_]
  exact ⟨_, rfl, Nat.min_le_right _ _, Nat.min_le_left _ _, clipEq _ _, toInt32Exact (by omega)⟩

theorem writeAnswers (buf : Store) (len : Nat) : Answers rb (.write (some buf) len) := by
  have bounds := at_.bounds
  have positive := at_.positive
  have length := spareLength at_
  by_cases stuck : len = 0 ∨ clip len (rb.size - (last - first)) = 0
  · have zero : min len (contents rb).spare.length = 0 := by
      rw [length, ← clipEq]
      rcases stuck with none | full
      · rw [none, clipEq, Nat.zero_min]
      · exact full
    refine unchangedAnswers at_ (.count 0) ?_ ?_
    · rcases stuck with none | full
      · simp [Call.run, writeBytes, none]
      · simp [Call.run, writeBytes, at_.free, full]
    · simp [QueueCall, zero]
  · obtain ⟨some_, room⟩ := not_or.mp stuck
    obtain ⟨n, isN, most, -, clipped, count⟩ := spareCount at_ len
    have inside : 0 + n ≤ rb.size - (last - first) := by omega
    have stored := storedContents at_ buf inside
    have forward : contents { rb with
          buf := copyIn rb.buf rb.size ((last + 0) % rb.size) buf n
          w := fix rb.size (add32 rb.w n) } = _ :=
      @forwardContents { rb with buf := copyIn rb.buf rb.size ((last + 0) % rb.size) buf n } first last at_ n
        (by rwa [Nat.zero_add] at inside)
    have ran : Call.run rb (.write (some buf) len) =
        ({ rb with
          buf := copyIn rb.buf rb.size ((last + 0) % rb.size) buf n
          w := fix rb.size (add32 rb.w n) }, .count n) := by
      rw [clipped] at room
      simp only [Call.run, writeBytes, if_neg some_, at_.free, clipped, if_neg room, count, at_.writeCell, Nat.add_zero]
    rw [stored] at forward
    refine ⟨?_, by rw [ran], fun a outside => ?_, first, last + n, ?_⟩
    · rw [ran]
      refine ⟨by rw [isN], Eq.trans forward ?_⟩
      simp only [List.take_zero, List.nil_append, Nat.zero_add, ← isN, Contents.mk.injEq]
      rw [List.take_append_of_le_length (by simp), List.take_of_length_le (by simp), List.drop_append_of_le_length (by simp),
        List.drop_of_length_le (by simp), List.nil_append]
      exact ⟨rfl, rfl⟩
    · rw [ran]
      exact copyInOutside rb.buf (last + 0) buf (by omega) positive (by omega) outside
    · rw [ran]
      exact at_.forward (by omega)

theorem draftWriteAnswers (offset : Nat) (buf : Store) (len : Nat) : Answers rb (.draftWrite offset (some buf) len) := by
  have bounds := at_.bounds
  have length := spareLength at_
  by_cases none : len = 0
  · refine unchangedAnswers at_ (.count 0) ?_ ?_ <;> simp [Call.run, draftWrite, QueueCall, none]
  by_cases outside : offset ≥ rb.size - (last - first)
  · refine unchangedAnswers at_ (.count rangeCode) ?_ ?_
    · simp only [Call.run, draftWrite, if_neg none, at_.free, if_pos outside]
    · simp [QueueCall, none, length, outside]
  · obtain ⟨n, isN⟩ : ∃ n, n = min len ((contents rb).spare.length - offset) := ⟨_, rfl⟩
    have clipped : clip len (rb.size - (last - first) - offset) = n := by rw [clipEq, isN, length]
    have count : toInt32 n = (n : Int) := by rw [toInt32Exact (by omega)]
    refine storedAnswers at_ (.count n) buf (by omega : offset + n ≤ rb.size - (last - first)) ?_ ?_
    · simp only [Call.run, draftWrite, if_neg none, at_.free, if_neg outside, clipped, if_neg (by omega : ¬n = 0), count,
        at_.writeCellAt (by omega : offset ≤ rb.size)]
    · simp only [QueueCall, if_neg none, length, if_neg outside]
      rw [← length, ← isN]
      exact ⟨rfl, rfl⟩

theorem writeSkipAnswers (len : Nat) : Answers rb (.writeSkip len) := by
  have bounds := at_.bounds
  obtain ⟨n, isN, most, least, clipped, count⟩ := spareCount at_ len
  by_cases stuck : n = 0
  · refine unchangedAnswers at_ (.count 0) ?_ ?_
    · by_cases none : len = 0
      · simp [Call.run, writeSkip, none]
      · simp [Call.run, writeSkip, none, at_.free, clipped, stuck]
    · simp [QueueCall, ← isN, stuck]
  · have forward := forwardContents at_ (by omega : n ≤ rb.size - (last - first))
    have ran : Call.run rb (.writeSkip len) = ({ rb with w := fix rb.size (add32 rb.w n) }, .count n) := by
      simp only [Call.run, writeSkip, if_neg (by omega : ¬len = 0), at_.free, clipped, if_neg stuck, count]
    refine ⟨?_, by rw [ran], fun a outside => by rw [ran], first, last + n, by rw [ran]; exact at_.forward (by omega)⟩
    rw [ran]
    exact ⟨by rw [isN], by rw [← isN]; exact forward⟩

theorem readAnswers (buf : Store) (len : Nat) : Answers rb (.read (some buf) len) := by
  have bounds := at_.bounds
  have room := at_.room
  obtain ⟨n, isN, most, least, clipped, count⟩ := queuedCount at_ len
  have used : toUint32 (dataSize rb) = last - first := at_.used
  by_cases stuck : n = 0
  · refine unchangedAnswers at_ (.copied (some buf) 0) ?_ ?_
    · by_cases none : len = 0
      · simp [Call.run, readBytes, none]
      · simp [Call.run, readBytes, none, used, clipped, stuck]
    · simp [QueueCall, ← isN, stuck]
  · have copied : copyOut rb.buf rb.size (rb.r % rb.size) buf n = write buf 0 ((contents rb).queued.take n) := by
      rw [at_.readCell, copyOutEq rb.buf first buf (by omega) at_.positive (by omega), contentsAt at_, ringReadTake n (by omega)]
    refine advanceAnswers at_ (.copied (some (write buf 0 ((contents rb).queued.take n))) n)
      (by omega : n ≤ last - first) ?_ ?_
    · simp only [Call.run, readBytes, if_neg (by omega : ¬len = 0), used, clipped, if_neg stuck, count, copied]
    · simp only [QueueCall, ← isN]
      exact ⟨trivial, trivial⟩

theorem readSkipAnswers (len : Nat) : Answers rb (.readSkip len) := by
  have bounds := at_.bounds
  have room := at_.room
  obtain ⟨n, isN, most, least, clipped, count⟩ := queuedCount at_ len
  have used : toUint32 (dataSize rb) = last - first := at_.used
  by_cases stuck : n = 0
  · refine unchangedAnswers at_ (.count 0) ?_ ?_
    · by_cases none : len = 0
      · simp [Call.run, readSkip, none]
      · simp [Call.run, readSkip, none, used, clipped, stuck]
    · simp [QueueCall, ← isN, stuck]
  · refine advanceAnswers at_ (.count n) (by omega : n ≤ last - first) ?_ ?_
    · simp only [Call.run, readSkip, if_neg (by omega : ¬len = 0), used, clipped, if_neg stuck, count]
    · simp only [QueueCall, ← isN]
      exact ⟨trivial, trivial⟩

theorem copiedQueued {offset n : Nat} (inside : offset + n ≤ last - first) (buf : Store) :
    copyOut rb.buf rb.size (add32 rb.r offset % rb.size) buf n = write buf 0 (((contents rb).queued.drop offset).take n) := by
  have bounds := at_.bounds
  have room := at_.room
  rw [at_.readCellAt (by omega), copyOutEq rb.buf (first + offset) buf (by omega) at_.positive (by omega), contentsAt at_,
    ringReadDrop offset (by omega), ringReadTake n (by omega)]

theorem peekAnswers (offset : Nat) (buf : Store) (len : Nat) : Answers rb (.peek offset (some buf) (some len)) := by
  have bounds := at_.bounds
  have positive := at_.positive
  have room := at_.room
  have length := queuedLength at_
  have used : toUint32 (dataSize rb) = last - first := at_.used
  by_cases outside : offset ≥ last - first
  · refine unchangedAnswers at_ (.null) ?_ ?_
    · simp [Call.run, peek, used, outside]
    · simp [QueueCall, length, outside]
  by_cases short : last - first - offset < len
  · refine unchangedAnswers at_ (.null) ?_ ?_
    · simp [Call.run, peek, used, outside, short]
    · simp [QueueCall, length, short]
  have inside : ¬(offset ≥ last - first ∨ last - first - offset < len) := not_or.mpr ⟨outside, short⟩
  have cell : add32 rb.r offset % rb.size = (first + offset) % rb.size := at_.readCellAt (by omega)
  have small := Nat.mod_lt (first + offset) positive
  have first_max : sub32 rb.size ((first + offset) % rb.size) = rb.size - (first + offset) % rb.size :=
    sub32Exact (by omega) (by omega)
  by_cases whole : len ≤ rb.size - (first + offset) % rb.size
  · obtain ⟨n, isN⟩ : ∃ n, n = clip (last - first - offset) (rb.size - (first + offset) % rb.size) := ⟨_, rfl⟩
    have range : n = min (last - first - offset) (rb.size - (first + offset) % rb.size) := by rw [isN, clipEq]
    have bytes : ByteStore.read rb.buf ((first + offset) % rb.size) n = ((contents rb).queued.drop offset).take n := by
      rw [readCells rb.buf (first + offset) (by omega), contentsAt at_, ringReadDrop offset (by omega), ringReadTake n (by omega)]
    refine unchangedAnswers at_ (.pointed (((contents rb).queued.drop offset).take n)) ?_ ?_
    · simp only [Call.run, peek, used, if_neg outside, if_neg short, cell, first_max, if_pos whole, ← isN, bytes]
    · simp only [QueueCall, length, if_neg inside]
      exact ⟨trivial, .inr ⟨n, by omega, by omega, by omega, rfl⟩⟩
  · have copied := copiedQueued at_ (by omega : offset + len ≤ last - first) buf
    rw [cell] at copied
    refine unchangedAnswers at_ (.filled (write buf 0 (((contents rb).queued.drop offset).take len)) len) ?_ ?_
    · simp only [Call.run, peek, used, if_neg outside, if_neg short, cell, first_max, if_neg whole, copied]
    · simp only [QueueCall, length, if_neg inside]
      exact ⟨trivial, .inl trivial⟩

theorem peekCopyAnswers (offset : Nat) (buf : Store) (len : Nat) : Answers rb (.peekCopy offset (some buf) len) := by
  have bounds := at_.bounds
  have room := at_.room
  have length := queuedLength at_
  have used : toUint32 (dataSize rb) = last - first := at_.used
  by_cases none : len = 0
  · refine unchangedAnswers at_ (.copied (some buf) 0) ?_ ?_ <;> simp [Call.run, peekCopy, QueueCall, none]
  by_cases outside : offset ≥ last - first
  · refine unchangedAnswers at_ (.copied (some buf) 0) ?_ ?_
    · simp [Call.run, peekCopy, used, none, outside]
    · simp [QueueCall, length, outside]
  by_cases short : last - first - offset < len
  · refine unchangedAnswers at_ (.copied (some buf) 0) ?_ ?_
    · simp [Call.run, peekCopy, used, none, outside, short]
    · simp [QueueCall, length, short]
  have inside : ¬(len = 0 ∨ offset ≥ last - first ∨ last - first - offset < len) :=
    not_or.mpr ⟨none, not_or.mpr ⟨outside, short⟩⟩
  have count : toInt32 len = (len : Int) := by rw [toInt32Exact (by omega)]
  refine unchangedAnswers at_ (.copied (some (write buf 0 (((contents rb).queued.drop offset).take len))) len) ?_ ?_
  · simp only [Call.run, peekCopy, if_neg none, used, if_neg outside, if_neg short, count,
      copiedQueued at_ (by omega : offset + len ≤ last - first) buf]
  · simp only [QueueCall, length, if_neg inside]
    exact ⟨trivial, trivial⟩

theorem clearAnswers : Answers rb .clear := by
  have order := at_.order
  have room := at_.room
  have caught : Indices rb.size rb.w rb.w last last :=
    ⟨at_.positive, at_.limit, at_.written, at_.written, le_rfl, by omega⟩
  have emptied : contents (clear rb) = ⟨[], (contents rb).spare ++ (contents rb).queued⟩ := by
    have cleared : contents (clear rb) = ⟨ringRead rb.size rb.buf last (last - last),
        ringRead rb.size rb.buf last (rb.size - (last - last))⟩ := contentsAt caught
    have lap : ringRead rb.size rb.buf (last + (rb.size - (last - first))) (last - first) =
        ringRead rb.size rb.buf first (last - first) :=
      ringReadMod _ (by rw [show last + (rb.size - (last - first)) = first + rb.size by omega, Nat.add_mod_right])
    rw [cleared, contentsAt at_, Nat.sub_self, ringReadZero, Nat.sub_zero, ← lap, ← ringReadAppend,
      show rb.size - (last - first) + (last - first) = rb.size by omega]
  exact ⟨⟨rfl, emptied⟩, rfl, fun _ _ => rfl, last, last, caught⟩

theorem resetAnswers : Answers rb .reset := by
  have order := at_.order
  have room := at_.room
  have positive := at_.positive
  have fresh : Indices rb.size 0 0 0 0 :=
    ⟨positive, at_.limit, (Nat.zero_mod _).symm, (Nat.zero_mod _).symm, le_rfl, by omega⟩
  have renewed : contents (reset rb) = ⟨ringRead rb.size rb.buf 0 (0 - 0), ringRead rb.size rb.buf 0 (rb.size - (0 - 0))⟩ :=
    contentsAt fresh
  have whole : (contents rb).queued ++ (contents rb).spare = ringRead rb.size rb.buf first rb.size := by
    have split : ringRead rb.size rb.buf first (last - first + (rb.size - (last - first))) = _ := ringReadAppend _ _
    rw [show last - first + (rb.size - (last - first)) = rb.size by omega, show first + (last - first) = last by omega] at split
    rw [contentsAt at_, split]
  have small := Nat.mod_lt first positive
  have back : (first + (rb.size - first % rb.size)) % rb.size = 0 % rb.size := by
    rw [← Nat.mod_add_mod, Nat.add_sub_cancel' small.le, Nat.mod_self, Nat.zero_mod]
  refine ⟨⟨rfl, congrArg Contents.queued renewed, rb.size - first % rb.size, ?_⟩, rfl, fun _ _ => rfl, 0, 0, fresh⟩
  rw [whole, ringReadRotate (by omega), ringReadMod _ back]
  exact congrArg Contents.spare renewed

end Calls

end Nanosig.Ringbuf
