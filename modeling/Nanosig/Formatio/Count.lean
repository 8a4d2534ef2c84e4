import Nanosig.Formatio.Truncation

/-! The result of the printf family against the bytes put out. The default branch of the
switch puts out the `%` without counting it, so the result is the number of bytes when no
conversion of the format is unknown. -/
namespace Nanosig.Formatio

open ByteStore

/- The bytes passed to `streamout_in_byte`, recorded by a stream that keeps each of them. -/
def passed (abi : Abi) (fmt : List Byte) (args : VaList) (allocs : Nat → Nat → Bool) : List Byte :=
  (streamoutVprintf abi (functionNoCacheInit fun _ => 0) fmt args allocs).1.chunks.flatten

theorem emitAllRecorded (memory : Store) (chunks : List (List Byte)) (finished : Nat) (text : List Byte) :
    emitAll ⟨.functionNoCache, memory, chunks, finished⟩ text =
      ⟨.functionNoCache, memory, chunks ++ text.map ([·]), finished⟩ := by
  induction text generalizing chunks with
  | nil => simp
  | cons ch rest ih =>
    rw [emitAllCons, streamoutInByte, writeChunk, ih, List.append_assoc]
    rfl

theorem flattenSingles (text : List Byte) : (text.map ([·])).flatten = text := by
  induction text with
  | nil => rfl
  | cons ch rest ih => rw [List.map_cons, List.flatten_cons, ih, List.singleton_append]

theorem passedPrinted (abi : Abi) (fmt : List Byte) (args : VaList) (allocs : Nat → Nat → Bool) :
    (∀ memory buf, vsprintfText abi memory buf fmt args allocs = passed abi fmt args allocs) ∧
      ∀ o, streamoutVprintf abi o fmt args allocs =
        (emitAll o (passed abi fmt args allocs), ((passed abi fmt args allocs).length : Int) - unknownConversions fmt) := by
  obtain ⟨text, is_text, prints⟩ := textPrinted abi fmt args allocs
  have same : passed abi fmt args allocs = text := by
    rw [passed, prints, functionNoCacheInit, emitAllRecorded, List.nil_append, flattenSingles]
  rw [same]
  exact ⟨is_text, prints⟩

theorem cStringEnded (text : List Byte) (plain : (0 : Byte) ∉ text) : cString (text ++ [0]) = text := by
  have none (ch : Byte) (member : ch ∈ text) : decide (ch ≠ 0) = true :=
    decide_eq_true fun zero => plain (zero ▸ member)
  rw [cString, List.takeWhile_append_of_pos none]
  simp

def stringAt (memory : Store) (buf count : Nat) : List Byte := cString (read memory buf count)

theorem resultCounts (abi : Abi) (fmt : List Byte) (args : VaList) (allocs : Nat → Nat → Bool) :
    let text := passed abi fmt args allocs
    (∀ o, (streamoutVprintf abi o fmt args allocs).1 = emitAll o text ∧
      ((streamoutVprintf abi o fmt args allocs).2 = text.length ↔ unknownConversions fmt = 0)) ∧
    ((0 : Byte) ∉ text → ∀ memory buf,
      ((vsprintf abi memory buf fmt args allocs).2 =
        (stringAt (vsprintf abi memory buf fmt args allocs).1 buf (text.length + 1)).length ↔ unknownConversions fmt = 0)) := by
  obtain ⟨is_text, prints⟩ := passedPrinted abi fmt args allocs
  refine ⟨fun o => ?_, fun plain memory buf => ?_⟩
  · rw [prints]
    exact ⟨rfl, by omega⟩
  · have string : stringAt (vsprintf abi memory buf fmt args allocs).1 buf ((passed abi fmt args allocs).length + 1) =
        passed abi fmt args allocs := by
      have back := readWrite memory buf (passed abi fmt args allocs ++ [0])
      rw [List.length_append, List.length_singleton] at back
      rw [vsprintfMemory, is_text, stringAt, back, cStringEnded _ plain]
    rw [string, vsprintf, prints]
    exact ⟨fun same => by simp only at same; omega, fun none => by simp only [none]; omega⟩

def noArgs : VaList := fun _ => ⟨0, none, fun _ => 0, 0⟩

/- `"100%"`: four bytes, of which three are counted. -/
theorem trailingPercentUncounted :
    passed .lp64 ("100%".toList.map byte) noArgs (fun _ _ => true) = "100%".toList.map byte ∧
    (streamoutVprintf .lp64 (functionNoCacheInit fun _ => 0) ("100%".toList.map byte) noArgs (fun _ _ => true)).2 = 3 ∧
    (vsprintf .lp64 (fun _ => 0) 0 ("100%".toList.map byte) noArgs (fun _ _ => true)).2 = 3 ∧
    (stringAt (vsprintf .lp64 (fun _ => 0) 0 ("100%".toList.map byte) noArgs (fun _ _ => true)).1 0 5).length = 4 := by
  decide +kernel

/- `"%5d%%\n"`: seven bytes, all counted. -/
theorem decimalCounted :
    (vsprintf .lp64 (fun _ => 0) 0 ("%5d%%\n".toList.map byte) noArgs (fun _ _ => true)).2 = 7 := by
  have counts := resultCounts .lp64 ("%5d%%\n".toList.map byte) noArgs (fun _ _ => true)
  have known : unknownConversions ("%5d%%\n".toList.map byte) = 0 := by decide +kernel
  have plain : (0 : Byte) ∉ passed .lp64 ("%5d%%\n".toList.map byte) noArgs (fun _ _ => true) := by decide +kernel
  have length : (stringAt (vsprintf .lp64 (fun _ => 0) 0 ("%5d%%\n".toList.map byte) noArgs (fun _ _ => true)).1 0
      ((passed .lp64 ("%5d%%\n".toList.map byte) noArgs (fun _ _ => true)).length + 1)).length = 7 := by decide +kernel
  rw [(counts.2 plain (fun _ => 0) 0).mpr known, length]
  rfl

end Nanosig.Formatio
