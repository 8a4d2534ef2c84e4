import Nanosig.Formatio.Count

/-! Sequences of `ns_stream_putc`, `ns_stream_puts` and `ns_stream_printf` with a final
`ns_stream_finish`, on each kind of stream. A cached stream holds, in its chunks and its
cache together, what was put out so far. -/
namespace Nanosig.Formatio

open ByteStore

inductive StreamCall where
  | putc (c : BitVec 32)
  | puts (s : List Byte)
  | printf (fmt : List Byte) (args : VaList) (allocs : Nat → Nat → Bool)

/- The stream after a call and what the call returns; `ns_stream_putc` returns nothing. -/
def StreamCall.run (abi : Abi) (o : Output) : StreamCall → Output × Option Int
  | .putc c => (streamPutc o c, none)
  | .puts s => ((streamPuts o s).1, some (streamPuts o s).2)
  | .printf fmt args allocs => ((streamoutVprintf abi o fmt args allocs).1, some (streamoutVprintf abi o fmt args allocs).2)

def runCalls (abi : Abi) (o : Output) : List StreamCall → Output × List (Option Int)
  | [] => (o, [])
  | call :: calls =>
      let (o, count) := call.run abi o
      let (o, counts) := runCalls abi o calls
      (o, count :: counts)

def StreamCall.text (abi : Abi) : StreamCall → List Byte
  | .putc c => [charOf c]
  | .puts s => cString s
  | .printf fmt args allocs => passed abi fmt args allocs

def StreamCall.count (abi : Abi) : StreamCall → Option Int
  | .putc _ => none
  | .puts s => some (cString s).length
  | .printf fmt args allocs => some ((passed abi fmt args allocs).length - unknownConversions fmt)

theorem streamKept (o : Output) (text : List Byte) (cached : o.stream ≠ .functionNoCache) :
    (emitAll o text).stream ≠ .functionNoCache := by
  induction text generalizing o with
  | nil => exact cached
  | cons ch rest ih =>
    rw [emitAllCons]
    refine ih _ ?_
    unfold streamoutInByte
    cases kind : o.stream with
    | function f =>
      simp only
      split_ifs <;> simp [flush, writeChunk, kind]
    | functionNoCache => exact absurd kind cached
    | memory m =>
      simp only
      split_ifs <;> simp [kind]
    | memoryUnbounded m => simp

theorem callEmits (abi : Abi) (o : Output) (call : StreamCall) (cached : o.stream ≠ .functionNoCache) :
    call.run abi o = (emitAll o (call.text abi), call.count abi) := by
  cases call with
  | putc c => rfl
  | puts s =>
    have bytewise : streamPuts o s = (emitAll o (cString s), ((cString s).length : Int)) := by
      unfold streamPuts
      split
      · exact absurd ‹_› cached
      · rfl
    simp only [StreamCall.run, bytewise, StreamCall.text, StreamCall.count]
  | printf fmt args allocs =>
    simp only [StreamCall.run, (passedPrinted abi fmt args allocs).2, StreamCall.text, StreamCall.count]

theorem callsEmit (abi : Abi) (o : Output) (calls : List StreamCall) (cached : o.stream ≠ .functionNoCache) :
    runCalls abi o calls = (emitAll o (calls.flatMap (StreamCall.text abi)), calls.map (StreamCall.count abi)) := by
  induction calls generalizing o with
  | nil => rfl
  | cons call calls ih =>
    simp only [runCalls, callEmits abi o call cached, ih _ (streamKept o _ cached), List.flatMap_cons, emitAllAppend,
      List.map_cons]

theorem callRecorded (abi : Abi) (memory : Store) (chunks : List (List Byte)) (call : StreamCall) :
    ∃ more, call.run abi ⟨.functionNoCache, memory, chunks, 0⟩ = (⟨.functionNoCache, memory, chunks ++ more, 0⟩, call.count abi) ∧
      more.flatten = call.text abi := by
  cases call with
  | putc c => exact ⟨[[charOf c]], rfl, rfl⟩
  | puts s => exact ⟨[cString s], rfl, by simp [StreamCall.text]⟩
  | printf fmt args allocs =>
    refine ⟨(passed abi fmt args allocs).map ([·]), ?_, flattenSingles _⟩
    simp only [StreamCall.run, (passedPrinted abi fmt args allocs).2, StreamCall.count, emitAllRecorded]

theorem callsRecorded (abi : Abi) (memory : Store) (chunks : List (List Byte)) (calls : List StreamCall) :
    ∃ more, runCalls abi ⟨.functionNoCache, memory, chunks, 0⟩ calls =
        (⟨.functionNoCache, memory, chunks ++ more, 0⟩, calls.map (StreamCall.count abi)) ∧
      more.flatten = calls.flatMap (StreamCall.text abi) := by
  induction calls generalizing chunks with
  | nil => exact ⟨[], by simp [runCalls]⟩
  | cons call calls ih =>
    obtain ⟨first, ran, firstText⟩ := callRecorded abi memory chunks call
    obtain ⟨rest, ranRest, restText⟩ := ih (chunks ++ first)
    refine ⟨first ++ rest, ?_, by rw [List.flatten_append, firstText, restText, List.flatMap_cons]⟩
    simp only [runCalls, ran, ranRest, List.append_assoc, List.map_cons]

structure Cached (cache cacheSize : Nat) (o : Output) (text : List Byte) : Prop where
  room : ∃ pos, o.stream = .function ⟨cache, pos, cache + cacheSize⟩ ∧ cache ≤ pos ∧ pos < cache + cacheSize ∧
    o.chunks.flatten ++ read o.memory cache (pos - cache) = text

theorem cachedByte {cache cacheSize : Nat} {o : Output} {text : List Byte} (held : Cached cache cacheSize o text) (ch : Byte) :
    Cached cache cacheSize (streamoutInByte o ch) (text ++ [ch]) := by
  obtain ⟨pos, stream, after, room, bytes⟩ := held
  have grown : read (store o.memory pos ch) cache (pos + 1 - cache) = read o.memory cache (pos - cache) ++ [ch] := by
    rw [show pos + 1 - cache = (pos - cache) + 1 by omega, readAppend, store, updateEq, readFrame (by omega),
      show cache + (pos - cache) = pos by omega]
    exact congrArg _ (readWrite o.memory pos [ch])
  unfold streamoutInByte
  simp only [stream, if_pos room]
  by_cases handed : pos + 1 = cache + cacheSize ∨ ch = byte '\n'
  · rw [if_pos handed]
    refine ⟨cache, rfl, le_rfl, by omega, ?_⟩
    simp only [flush, writeChunk, Nat.sub_self, readZero, List.append_nil, List.flatten_append, List.flatten_singleton, grown]
    rw [← List.append_assoc, bytes]
  · rw [if_neg handed]
    refine ⟨pos + 1, rfl, by omega, by omega, ?_⟩
    simp only [grown]
    rw [← List.append_assoc, bytes]

theorem cachedEmitted {cache cacheSize : Nat} {o : Output} {text : List Byte} (held : Cached cache cacheSize o text)
    (more : List Byte) : Cached cache cacheSize (emitAll o more) (text ++ more) := by
  induction more generalizing o text with
  | nil => simpa using held
  | cons ch rest ih =>
    have all := ih (cachedByte held ch)
    rwa [List.append_assoc, List.singleton_append] at all

theorem cachedInit (memory : Store) (cache : Nat) {cacheSize : Nat} (positive : 1 ≤ cacheSize) :
    Cached cache cacheSize (functionInit memory cache cacheSize) [] :=
  ⟨cache, rfl, le_rfl, by omega, by simp [functionInit]⟩

theorem cachedFinish {cache cacheSize : Nat} {o : Output} {text : List Byte} (held : Cached cache cacheSize o text) :
    (streamoutFinish o).chunks.flatten = text ∧ (streamoutFinish o).stream = .function ⟨cache, cache, cache + cacheSize⟩ := by
  obtain ⟨pos, stream, after, room, bytes⟩ := held
  unfold streamoutFinish
  simp only [stream]
  by_cases empty : pos > cache
  · rw [if_pos empty]
    simp only [flush, writeChunk, List.flatten_append, List.flatten_singleton, bytes, and_self]
  · have same : pos = cache := by omega
    subst same
    rw [if_neg empty]
    rw [Nat.sub_self, readZero, List.append_nil] at bytes
    exact ⟨bytes, stream⟩

/- What an uncached stream hands to its write callback is what every other stream delivers. -/
theorem sameBytesDelivered (abi : Abi) (calls : List StreamCall) (memory : Store) :
    let direct := runCalls abi (functionNoCacheInit memory) calls
    let text := (streamoutFinish direct.1).chunks.flatten
    (∀ place cache cacheSize, 1 ≤ cacheSize →
      let cached := runCalls abi (functionInit place cache cacheSize) calls
      Cached cache cacheSize cached.1 text ∧ (streamoutFinish cached.1).chunks.flatten = text ∧ cached.2 = direct.2 ∧
        (streamoutFinish cached.1).stream = .function ⟨cache, cache, cache + cacheSize⟩) ∧
    (∀ place buf size, text.length < size →
      let bounded := runCalls abi (memoryInit place buf size) calls
      (streamoutFinish bounded.1).memory = write place buf (text ++ [0]) ∧ bounded.2 = direct.2) ∧
    (∀ place buf,
      let unbounded := runCalls abi (memoryUnboundedInit place buf) calls
      (streamoutFinish unbounded.1).memory = write place buf (text ++ [0]) ∧ unbounded.2 = direct.2) := by
  obtain ⟨chunks, ran, flat⟩ := callsRecorded abi memory [] calls
  rw [List.nil_append] at ran
  have direct : runCalls abi (functionNoCacheInit memory) calls = _ := ran
  have text : (streamoutFinish ⟨.functionNoCache, memory, chunks, 0⟩).chunks.flatten = calls.flatMap (StreamCall.text abi) := flat
  simp only [direct, text]
  refine ⟨fun place cache cacheSize positive => ?_, fun place buf size enough => ?_, fun place buf => ?_⟩
  · rw [callsEmit abi _ calls (by simp [functionInit])]
    have held := cachedEmitted (cachedInit place cache positive) (calls.flatMap (StreamCall.text abi))
    rw [List.nil_append] at held
    have whole := cachedFinish held
    exact ⟨held, whole.1, rfl, whole.2⟩
  · rw [callsEmit abi _ calls (by simp [memoryInit]), finishMemory, if_neg (by omega), Nat.min_eq_left (by omega),
      List.take_length]
    exact ⟨rfl, rfl⟩
  · rw [callsEmit abi _ calls (by simp [memoryUnboundedInit]), finishUnbounded]
    exact ⟨rfl, rfl⟩

/- `"ab\ncdefg"` and `"%d"` of 7 through a cache of four bytes: flushed at the newline, when full and at the end. -/
theorem flushedThreeTimes :
    let calls := [.puts ("ab\ncdefg".toList.map byte), .printf ("%d".toList.map byte) (fun _ => ⟨7, none, fun _ => 0, 0⟩) fun _ _ => true]
    let o := streamoutFinish (runCalls .lp64 (functionInit (fun _ => 0) 0 4) calls).1
    o.chunks.map List.length = [3, 4, 2] ∧ o.chunks.flatten = "ab\ncdefg7".toList.map byte := by
  have delivered := ((sameBytesDelivered .lp64 [.puts ("ab\ncdefg".toList.map byte),
    .printf ("%d".toList.map byte) (fun _ => ⟨7, none, fun _ => 0, 0⟩) fun _ _ => true] (fun _ => 0)).1
    (fun _ => 0) 0 4 (by decide)).2.1
  refine ⟨by decide +kernel, delivered.trans (by decide +kernel)⟩

end Nanosig.Formatio
