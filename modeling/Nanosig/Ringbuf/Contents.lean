import Nanosig.Ringbuf.Ringbuf

/-! The indices as unbounded positions, and what each call does to the bytes between
them: the queued ones from the read index on, and the spare ones from the write index on. -/
namespace Nanosig.Ringbuf

open ByteStore RingStore

/- `r` and `w` stand for the positions `first` and `last`. -/
structure Indices (size r w first last : Nat) : Prop where
  positive : 0 < size
  limit : size ≤ uint32Max / 3
  read : r = first % (2 * size)
  written : w = last % (2 * size)
  order : first ≤ last
  room : last ≤ first + size

section Exact

variable {size r w first last : Nat}

theorem limitBounds (limit : size ≤ uint32Max / 3) : size * 3 < 2 ^ 32 ∧ size < 2 ^ 31 := by
  unfold uint32Max at limit
  omega

theorem add32Exact {a b : Nat} (fits : a + b < 2 ^ 32) : add32 a b = a + b := Nat.mod_eq_of_lt fits

theorem sub32Exact {a b : Nat} (order : b ≤ a) (fits : a < 2 ^ 32) : sub32 a b = a - b := by
  unfold sub32
  rw [show a + (2 ^ 32 - b) = (a - b) + 2 ^ 32 by omega, Nat.add_mod_right, Nat.mod_eq_of_lt (by omega)]

theorem toInt32Exact {x : Nat} (fits : x < 2 ^ 31) : toInt32 x = x := if_pos fits

theorem toUint32Exact {x : Nat} (fits : x < 2 ^ 32) : toUint32 x = x := by
  unfold toUint32
  omega

variable (at_ : Indices size r w first last)
include at_

theorem Indices.bounds : size * 3 < 2 ^ 32 ∧ size < 2 ^ 31 ∧ r < 2 * size ∧ w < 2 * size := by
  obtain ⟨triple, half⟩ := limitBounds at_.limit
  have positive := at_.positive
  refine ⟨triple, half, ?_, ?_⟩
  · rw [at_.read]
    exact Nat.mod_lt _ (by omega)
  · rw [at_.written]
    exact Nat.mod_lt _ (by omega)

theorem Indices.twice : mul32 size 2 = 2 * size := by
  have triple := at_.bounds.1
  unfold mul32
  rw [Nat.mod_eq_of_lt (by omega), Nat.mul_comm]

theorem Indices.dataSize : dataSizeOf size w r = ((last - first : Nat) : Int) := by
  obtain ⟨triple, half, rSmall, wSmall⟩ := at_.bounds
  have order := at_.order
  have room := at_.room
  have exact := WrappingCounter.diffExact (m := 2 * size) order (by have := at_.positive; omega)
  rw [← at_.read, ← at_.written, WrappingCounter.diff] at exact
  unfold dataSizeOf
  by_cases ahead : w ≥ r
  · rw [show w + (2 * size - r) = (w - r) + 2 * size by omega, Nat.add_mod_right, Nat.mod_eq_of_lt (by omega)] at exact
    rw [if_pos ahead, sub32Exact ahead (by omega), exact, toInt32Exact (by omega)]
  · rw [Nat.mod_eq_of_lt (by omega)] at exact
    have inner : sub32 r w = r - w := sub32Exact (by omega) (by omega)
    rw [if_neg ahead, at_.twice, inner, sub32Exact (by omega) (by omega),
      show 2 * size - (r - w) = last - first by omega, toInt32Exact (by omega)]

theorem Indices.used : toUint32 (dataSizeOf size w r) = last - first := by
  have bounds := at_.bounds
  have room := at_.room
  rw [at_.dataSize, toUint32Exact (by omega)]

theorem Indices.free : freeSizeOf size w r = size - (last - first) := by
  have bounds := at_.bounds
  have room := at_.room
  rw [freeSizeOf, at_.used, sub32Exact (by omega) (by omega)]

theorem Indices.forward {wl : Nat} (fits : wl ≤ size - (last - first)) :
    Indices size r (fix size (add32 w wl)) first (last + wl) := by
  obtain ⟨triple, half, rSmall, wSmall⟩ := at_.bounds
  have order := at_.order
  have room := at_.room
  refine ⟨at_.positive, at_.limit, at_.read, ?_, by omega, by omega⟩
  rw [fix, at_.twice, add32Exact (by omega), at_.written, Nat.mod_add_mod]

theorem Indices.advance {rl : Nat} (fits : rl ≤ last - first) :
    Indices size (fix size (add32 r rl)) w (first + rl) last := by
  obtain ⟨triple, half, rSmall, wSmall⟩ := at_.bounds
  have order := at_.order
  have room := at_.room
  refine ⟨at_.positive, at_.limit, ?_, at_.written, by omega, by omega⟩
  rw [fix, at_.twice, add32Exact (by omega), at_.read, Nat.mod_add_mod]

theorem Indices.writeCell : w % size = last % size := by
  rw [at_.written, Nat.mod_mod_of_dvd _ (Nat.dvd_mul_left size 2)]

theorem Indices.readCell : r % size = first % size := by
  rw [at_.read, Nat.mod_mod_of_dvd _ (Nat.dvd_mul_left size 2)]

theorem Indices.writeCellAt {offset : Nat} (inside : offset ≤ size) : add32 w offset % size = (last + offset) % size := by
  obtain ⟨triple, half, rSmall, wSmall⟩ := at_.bounds
  rw [add32Exact (by omega), Nat.add_mod, at_.writeCell, ← Nat.add_mod]

theorem Indices.readCellAt {offset : Nat} (inside : offset ≤ size) : add32 r offset % size = (first + offset) % size := by
  obtain ⟨triple, half, rSmall, wSmall⟩ := at_.bounds
  rw [add32Exact (by omega), Nat.add_mod, at_.readCell, ← Nat.add_mod]

end Exact

section Copies

variable {size : Nat} (m : Store) (pos : Nat) (buf : Store)

theorem readCells {len : Nat} (contiguous : pos % size + len ≤ size) : read m (pos % size) len = ringRead size m pos len := by
  apply List.map_congr_left
  intro i member
  have inside := List.mem_range.mp member
  rw [cellAfter (by omega), if_pos (by omega)]

theorem readStart {first len : Nat} (whole : pos % size + first = size) (fits : len ≤ size) :
    read m 0 len = ringRead size m (pos + first) len := by
  apply List.map_congr_left
  intro i member
  have inside := List.mem_range.mp member
  have lapped : (pos + first) % size = 0 := by
    rw [← Nat.mod_add_mod, whole, Nat.mod_self]
  rw [cellAfter (by omega), lapped, if_pos (by omega)]

theorem copyOutEq {len : Nat} (limit : size < 2 ^ 32) (positive : 0 < size) (fits : len ≤ size) :
    copyOut m size (pos % size) buf len = write buf 0 (ringRead size m pos len) := by
  have small := Nat.mod_lt pos positive
  unfold copyOut
  simp only [sub32Exact (by omega : pos % size ≤ size) limit]
  split
  · rw [readCells m pos (by omega)]
  · have join := writeAppend buf 0 (ringRead size m pos (size - pos % size))
      (ringRead size m (pos + (size - pos % size)) (len - (size - pos % size)))
    rw [← ringReadAppend, ringReadLength, Nat.zero_add, Nat.add_sub_cancel' (by omega)] at join
    rw [readCells m pos (by omega), readStart m pos (by omega : pos % size + (size - pos % size) = size) (by omega), join]

theorem writeHere {start i : Nat} {bytes : List UInt8} {b : UInt8} (inside : bytes[i]? = some b) :
    write m start bytes (start + i) = b := by
  simp [write, inside]

theorem readGet {start len i : Nat} (inside : i < len) : (read m start len)[i]? = some (m (start + i)) := by
  simp [ByteStore.read, inside]

theorem copyInAt {len : Nat} (limit : size < 2 ^ 32) (fits : len ≤ size) {i : Nat} (inside : i < size) :
    copyIn m size (pos % size) buf len ((pos + i) % size) = if i < len then buf i else m ((pos + i) % size) := by
  have small := Nat.mod_lt pos (by omega : 0 < size)
  unfold copyIn
  simp only [sub32Exact (by omega : pos % size ≤ size) limit]
  rw [cellAfter inside]
  by_cases one : len ≤ size - pos % size
  · rw [if_pos one]
    by_cases before : pos % size + i < size
    · rw [if_pos before]
      split
      · rw [writeHere _ (readGet buf ‹_›), Nat.zero_add]
      · rw [writeOutside (by simp; omega)]
    · rw [if_neg before, if_neg (by omega), writeOutside (by simp; omega)]
  · rw [if_neg one]
    by_cases before : pos % size + i < size
    · rw [if_pos before, writeOutside (by simp; omega), if_pos (by omega),
        writeHere _ (readGet buf (by omega : i < size - pos % size)), Nat.zero_add]
    · rw [if_neg before]
      by_cases written : i < len
      · have place : pos % size + i - size = 0 + (i - (size - pos % size)) := by omega
        rw [if_pos written, place, writeHere _ (readGet buf (by omega : i - (size - pos % size) < len - (size - pos % size))),
          show size - pos % size + (i - (size - pos % size)) = i by omega]
      · rw [if_neg written, writeOutside (by simp; omega), writeOutside (by simp; omega)]

theorem copyInOutside {len a : Nat} (limit : size < 2 ^ 32) (positive : 0 < size) (fits : len ≤ size) (outside : size ≤ a) :
    copyIn m size (pos % size) buf len a = m a := by
  have small := Nat.mod_lt pos positive
  unfold copyIn
  simp only [sub32Exact (by omega : pos % size ≤ size) limit]
  split
  · rw [writeOutside (by simp; omega)]
  · rw [writeOutside (by simp; omega), writeOutside (by simp; omega)]

end Copies

structure Contents where
  queued : List UInt8
  spare : List UInt8
  deriving DecidableEq

def contents (rb : RingBuffer) : Contents :=
  ⟨ringRead rb.size rb.buf rb.r (toUint32 (dataSize rb)), ringRead rb.size rb.buf rb.w (freeSizeOf rb.size rb.w rb.r)⟩

theorem contentsAt {rb : RingBuffer} {first last : Nat} (at_ : Indices rb.size rb.r rb.w first last) :
    contents rb =
      ⟨ringRead rb.size rb.buf first (last - first), ringRead rb.size rb.buf last (rb.size - (last - first))⟩ := by
  rw [contents, dataSize, at_.used, at_.free, ringReadMod _ at_.readCell, ringReadMod _ at_.writeCell]

end Nanosig.Ringbuf
