import Mathlib

/-! Byte-addressed storage: block reads and writes with their frame rules,
little-endian machine words, and blocks addressed by an unbounded position in
storage that is reused every `capacity` bytes. -/
namespace ByteStore

abbrev Store := Nat → UInt8

def read (m : Store) (start len : Nat) : List UInt8 :=
  (List.range len).map fun i => m (start + i)

def write (m : Store) (start : Nat) (bytes : List UInt8) : Store :=
  fun a => if start ≤ a then (bytes[a - start]?).getD (m a) else m a

@[simp] theorem readLength (m : Store) (start len : Nat) : (read m start len).length = len := by
  simp [read]

@[simp] theorem readZero (m : Store) (start : Nat) : read m start 0 = [] := rfl

theorem readAppend (m : Store) (start a b : Nat) :
    read m start (a + b) = read m start a ++ read m (start + a) b := by
  simp [read, List.range_add, Function.comp_def, Nat.add_assoc]

theorem readCongr {m m' : Store} {start len : Nat}
    (same : ∀ i < len, m (start + i) = m' (start + i)) : read m start len = read m' start len := by
  apply List.map_congr_left
  intro i member
  exact same i (List.mem_range.mp member)

@[simp] theorem writeNil (m : Store) (start : Nat) : write m start [] = m := by
  funext a
  simp [write]

theorem writeOutside {m : Store} {start a : Nat} {bytes : List UInt8}
    (outside : a < start ∨ start + bytes.length ≤ a) : write m start bytes a = m a := by
  unfold write
  split
  · rw [List.getElem?_eq_none (by omega), Option.getD_none]
  · rfl

theorem writeChanged {m : Store} {start a : Nat} {bytes : List UInt8} (changed : write m start bytes a ≠ m a) :
    start ≤ a ∧ a < start + bytes.length := by
  by_contra outside
  exact changed (writeOutside (by omega))

theorem readWrite (m : Store) (start : Nat) (bytes : List UInt8) :
    read (write m start bytes) start bytes.length = bytes := by
  apply List.ext_getElem (by simp)
  intro i left right
  simp [read, write, List.getElem?_eq_getElem right]

theorem readFrame {m : Store} {start from_ len : Nat} {bytes : List UInt8}
    (apart : from_ + len ≤ start ∨ start + bytes.length ≤ from_) :
    read (write m start bytes) from_ len = read m from_ len :=
  readCongr fun i inside => writeOutside (by omega)

theorem updateEq (m : Store) (place : Nat) (value : UInt8) : Function.update m place value = write m place [value] := by
  funext a
  rcases Nat.lt_trichotomy a place with before | same | after
  · rw [Function.update_of_ne (by omega), writeOutside (by omega)]
  · simp [same, write]
  · rw [Function.update_of_ne (by omega), writeOutside (by simp; omega)]

theorem writeAppend (m : Store) (start : Nat) (first second : List UInt8) :
    write m start (first ++ second) = write (write m start first) (start + first.length) second := by
  funext a
  by_cases before : a < start
  · rw [writeOutside (.inl before), writeOutside (by omega), writeOutside (.inl before)]
  by_cases inside : a < start + first.length
  · rw [writeOutside (a := a) (m := write m start first) (by omega)]
    simp only [write, if_pos (by omega : start ≤ a)]
    rw [List.getElem?_append_left (by omega)]
  · simp only [write, if_pos (by omega : start ≤ a), if_pos (by omega : start + first.length ≤ a)]
    rw [List.getElem?_append_right (by omega), List.getElem?_eq_none (l := first) (by omega), Option.getD_none, Nat.sub_sub]

/-! Machine words. -/

def wordBytes : Nat → Nat → List UInt8
  | 0, _ => []
  | width + 1, value => UInt8.ofNat value :: wordBytes width (value / 256)

def wordValue : List UInt8 → Nat
  | [] => 0
  | b :: rest => b.toNat + 256 * wordValue rest

@[simp] theorem wordBytesLength (width value : Nat) : (wordBytes width value).length = width := by
  induction width generalizing value with
  | zero => rfl
  | succ width ih => simp [wordBytes, ih]

theorem wordValueBytes (width value : Nat) :
    wordValue (wordBytes width value) = value % 256 ^ width := by
  induction width generalizing value with
  | zero => simp [wordBytes, wordValue, Nat.mod_one]
  | succ width ih =>
    have low : (UInt8.ofNat value).toNat = value % 256 := by simp
    rw [wordBytes, wordValue, ih, low, Nat.pow_succ', Nat.mod_mul]

def loadWord (width : Nat) (m : Store) (start : Nat) : Nat := wordValue (read m start width)

def storeWord (width : Nat) (m : Store) (start value : Nat) : Store :=
  write m start (wordBytes width value)

theorem loadStored (width : Nat) (m : Store) (start : Nat) {value : Nat}
    (fits : value < 256 ^ width) : loadWord width (storeWord width m start value) start = value := by
  have back := readWrite m start (wordBytes width value)
  rw [wordBytesLength] at back
  rw [loadWord, storeWord, back, wordValueBytes, Nat.mod_eq_of_lt fits]

theorem loadFrame {width : Nat} {m : Store} {start from_ : Nat} {bytes : List UInt8}
    (apart : from_ + width ≤ start ∨ start + bytes.length ≤ from_) :
    loadWord width (write m start bytes) from_ = loadWord width m from_ := by
  rw [loadWord, loadWord, readFrame apart]

/-! Positions in reused storage. A block at an unbounded position lies at its
position modulo the capacity; blocks apart by position and inside one window of
`capacity` bytes lie apart in storage. -/

def Contiguous (capacity pos len : Nat) : Prop := pos % capacity + len ≤ capacity

theorem apartInStorage {capacity x n y m : Nat} (first : Contiguous capacity x n)
    (after : x + n ≤ y) (window : y + m ≤ x + capacity)
    (second : Contiguous capacity y m) :
    x % capacity + n ≤ y % capacity ∨ y % capacity + m ≤ x % capacity := by
  unfold Contiguous at first second
  have hx := Nat.div_add_mod x capacity
  have hy := Nat.div_add_mod y capacity
  rcases Nat.lt_or_ge (y / capacity) (x / capacity + 1) with same | next
  · left
    have floor : y / capacity = x / capacity := by
      have := Nat.div_le_div_right (c := capacity) (by omega : x ≤ y)
      omega
    rw [floor] at hy
    omega
  · right
    have lap : y / capacity = x / capacity + 1 := by
      rcases Nat.eq_zero_or_pos capacity with zero | positive
      · subst zero
        simp at next
      · have bound : y < (x / capacity + 2) * capacity := by
          have := Nat.mod_lt x positive
          have expand : (x / capacity + 2) * capacity = capacity * (x / capacity) + 2 * capacity := by
            ring
          omega
        have := (Nat.div_lt_iff_lt_mul positive).mpr bound
        omega
    rw [lap, Nat.mul_add, Nat.mul_one] at hy
    omega

theorem contiguousPart {capacity pos len shift part : Nat} (block : Contiguous capacity pos len)
    (inside : shift + part ≤ len) (nonempty : 0 < part) :
    (pos + shift) % capacity = pos % capacity + shift ∧ Contiguous capacity (pos + shift) part := by
  unfold Contiguous at *
  have place : (pos + shift) % capacity = pos % capacity + shift := by
    rw [Nat.add_mod, Nat.mod_eq_of_lt (by omega : shift < capacity), Nat.mod_eq_of_lt (by omega)]
  exact ⟨place, by omega⟩

end ByteStore
