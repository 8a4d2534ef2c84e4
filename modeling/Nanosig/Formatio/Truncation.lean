import Nanosig.Formatio.Text

/-! `ns_vsnprintf` against `ns_vsprintf`: the bounded stream keeps a prefix of the text
the unbounded one keeps, both end with a NUL, and the result is the same. -/
namespace Nanosig.Formatio

open ByteStore

theorem emitAllMemory (m : StreamMemory) (memory : Store) (chunks : List (List Byte)) (finished : Nat) (text : List Byte)
    (inside : m.pos ≤ m.stop) :
    emitAll ⟨.memory m, memory, chunks, finished⟩ text =
      ⟨.memory { m with pos := min (m.pos + text.length) m.stop }, write memory m.pos (text.take (m.stop - m.pos)),
        chunks, finished⟩ := by
  induction text generalizing m memory with
  | nil => simp [Nat.min_eq_left inside]
  | cons ch rest ih =>
    rw [emitAllCons]
    rcases Nat.lt_or_ge m.pos m.stop with room | full
    · have stored : streamoutInByte ⟨.memory m, memory, chunks, finished⟩ ch =
          ⟨.memory { m with pos := m.pos + 1 }, write memory m.pos [ch], chunks, finished⟩ := by
        simp only [streamoutInByte, if_pos room, store, updateEq]
      have split : (ch :: rest).take (m.stop - m.pos) = [ch] ++ rest.take (m.stop - (m.pos + 1)) := by
        rw [show m.stop - m.pos = m.stop - (m.pos + 1) + 1 by omega]
        rfl
      rw [stored, ih { m with pos := m.pos + 1 } _ room, split, writeAppend, List.length_cons, List.length_singleton]
      simp only [Output.mk.injEq, Stream.memory.injEq, StreamMemory.mk.injEq, and_self, true_and, and_true]
      omega
    · have same : streamoutInByte ⟨.memory m, memory, chunks, finished⟩ ch = ⟨.memory m, memory, chunks, finished⟩ := by
        simp only [streamoutInByte, if_neg (not_lt.mpr full)]
      rw [same, ih _ _ inside, show m.stop - m.pos = 0 by omega, List.take_zero, List.take_zero, List.length_cons]
      simp only [Output.mk.injEq, Stream.memory.injEq, StreamMemory.mk.injEq, and_self, true_and, and_true]
      omega

theorem emitAllUnbounded (m : StreamMemory) (memory : Store) (chunks : List (List Byte)) (finished : Nat) (text : List Byte) :
    emitAll ⟨.memoryUnbounded m, memory, chunks, finished⟩ text =
      ⟨.memoryUnbounded { m with pos := m.pos + text.length }, write memory m.pos text, chunks, finished⟩ := by
  induction text generalizing m memory with
  | nil => simp
  | cons ch rest ih =>
    have stored : streamoutInByte ⟨.memoryUnbounded m, memory, chunks, finished⟩ ch =
        ⟨.memoryUnbounded { m with pos := m.pos + 1 }, write memory m.pos [ch], chunks, finished⟩ := by
      simp only [streamoutInByte, store, updateEq]
    have whole : write memory m.pos (ch :: rest) = write (write memory m.pos [ch]) (m.pos + 1) rest :=
      writeAppend memory m.pos [ch] rest
    rw [emitAllCons, stored, ih, whole, List.length_cons]
    simp only [Output.mk.injEq, Stream.memoryUnbounded.injEq, StreamMemory.mk.injEq, and_self, true_and, and_true]
    omega

theorem finishMemory (memory : Store) (buf size : Nat) (text : List Byte) :
    (streamoutFinish (emitAll (memoryInit memory buf size) text)).memory =
      if size = 0 then memory else write memory buf (text.take (min text.length (size - 1)) ++ [0]) := by
  have behind : buf ≤ if size ≠ 0 then buf + size else buf := by split <;> omega
  have emitted := emitAllMemory ⟨buf, buf, if size ≠ 0 then buf + size else buf⟩ memory [] 0 text behind
  rw [memoryInit, emitted]
  rcases Nat.eq_zero_or_pos size with empty | nonempty
  · simp [streamoutFinish, empty]
  · have given : size ≠ 0 := by omega
    simp only [streamoutFinish, given, ne_eq, not_false_eq_true, if_true, if_false, if_pos (by omega : buf + size > buf),
      Nat.add_sub_cancel_left, store, updateEq]
    rcases Nat.lt_or_ge text.length size with fits | cut
    · have last : min (buf + text.length) (buf + size) = buf + text.length := by omega
      rw [if_pos (by omega), last, List.take_of_length_le (by omega), List.take_of_length_le (by omega), writeAppend]
    · have split : text.take size = text.take (size - 1) ++ (text.drop (size - 1)).take 1 := by
        rw [← List.take_add, show size - 1 + 1 = size by omega]
      have kept : (text.take (size - 1)).length = size - 1 := by
        rw [List.length_take]
        omega
      have one : ((text.drop (size - 1)).take 1).length = 1 := by
        rw [List.length_take, List.length_drop]
        omega
      rw [if_neg (by omega), split, writeAppend, kept, show min text.length (size - 1) = size - 1 by omega, writeAppend, kept,
        show buf + size - 1 = buf + (size - 1) by omega]
      -- The byte in the last place is replaced by the NUL.
      funext a
      by_cases here : a = buf + (size - 1)
      · subst here
        simp [write]
      · have apart (bytes : List Byte) (length : bytes.length = 1) : a < buf + (size - 1) ∨ buf + (size - 1) + bytes.length ≤ a := by
          omega
        exact (writeOutside (apart [0] rfl)).trans ((writeOutside (apart _ one)).trans (writeOutside (apart [0] rfl)).symm)

theorem finishUnbounded (memory : Store) (buf : Nat) (text : List Byte) :
    (streamoutFinish (emitAll (memoryUnboundedInit memory buf) text)).memory = write memory buf (text ++ [0]) := by
  rw [memoryUnboundedInit, emitAllUnbounded, writeAppend]
  simp only [streamoutFinish, store, updateEq]

def vsprintfText (abi : Abi) (memory : Store) (buf : Nat) (fmt : List Byte) (args : VaList) (allocs : Nat → Nat → Bool) :
    List Byte :=
  match streamoutVprintf abi (memoryUnboundedInit memory buf) fmt args allocs with
  | (⟨.memoryUnbounded m, memory, _, _⟩, _) => read memory m.buf (m.pos - m.buf)
  | _ => []

theorem textPrinted (abi : Abi) (fmt : List Byte) (args : VaList) (allocs : Nat → Nat → Bool) :
    ∃ text, (∀ memory buf, vsprintfText abi memory buf fmt args allocs = text) ∧
      ∀ o, streamoutVprintf abi o fmt args allocs = (emitAll o text, (text.length : Int) - unknownConversions fmt) := by
  obtain ⟨text, prints⟩ := streamoutVprintfPrints abi fmt args allocs
  refine ⟨text, fun memory buf => ?_, prints⟩
  simp only [vsprintfText, prints, memoryUnboundedInit, emitAllUnbounded, Nat.add_sub_cancel_left]
  exact readWrite memory buf text

theorem vsprintfMemory (abi : Abi) (memory : Store) (buf : Nat) (fmt : List Byte) (args : VaList) (allocs : Nat → Nat → Bool) :
    (vsprintf abi memory buf fmt args allocs).1 = write memory buf (vsprintfText abi memory buf fmt args allocs ++ [0]) := by
  obtain ⟨text, is_text, prints⟩ := textPrinted abi fmt args allocs
  rw [is_text, vsprintf, prints]
  exact finishUnbounded memory buf text

/- Truncation for every size, on any memory, against the unbounded call on any other. -/
theorem truncationLaw (abi : Abi) (memory unbounded : Store) (buf place size : Nat) (fmt : List Byte) (args : VaList)
    (allocs : Nat → Nat → Bool) :
    let s := vsprintfText abi unbounded place fmt args allocs
    (vsprintf abi unbounded place fmt args allocs).1 = write unbounded place (s ++ [0]) ∧
    (vsnprintf abi memory buf size fmt args allocs).1 =
      (if size = 0 then memory else write memory buf (s.take (min s.length (size - 1)) ++ [0])) ∧
    (∀ a, a < buf ∨ buf + size ≤ a → (vsnprintf abi memory buf size fmt args allocs).1 a = memory a) ∧
    (vsnprintf abi memory buf size fmt args allocs).2 = (vsprintf abi unbounded place fmt args allocs).2 := by
  obtain ⟨text, is_text, prints⟩ := textPrinted abi fmt args allocs
  have bounded : (vsnprintf abi memory buf size fmt args allocs).1 =
      if size = 0 then memory else write memory buf (text.take (min text.length (size - 1)) ++ [0]) := by
    rw [vsnprintf, prints]
    exact finishMemory memory buf size text
  refine ⟨vsprintfMemory abi unbounded place fmt args allocs, ?_, fun a outside => ?_, ?_⟩
  · rw [is_text, bounded]
  · rw [bounded]
    split
    · rfl
    · refine writeOutside ?_
      rw [List.length_append, List.length_take, List.length_singleton]
      omega
  · rw [vsnprintf, prints, vsprintf, prints]

end Nanosig.Formatio
