import Nanosig.Platform.Waitset

/-! The Windows waitset: two parallel arrays, of the handles that are waited for and
of the waitables that own them. A removed entry is overwritten by the last one. -/
namespace Nanosig.Platform
open Registry

variable {ω β η : Type} [DecidableEq ω] [DecidableEq β] [DecidableEq η]

structure WindowsWaitset (β η : Type) where
  handles : Nat → Handle η
  waitables : Nat → β
  count : Nat

namespace Windows

/- `ns_waitset_find`. -/
def find (waitset : WindowsWaitset β η) (handle : Handle η) : Option Nat :=
  (List.range waitset.count).find? fun i => waitset.handles i = handle

/- `cap` is `NS_PLATFORM_WAITSET_USER_HANDLES`. -/
def add (cap : Nat) (s : Memory ω β η (WindowsWaitset β η)) (w : ω) (b : β) :
    Option (Memory ω β η (WindowsWaitset β η) × Status) :=
  let waitset := s.waitsets w
  let waitable := s.waitables b
  if waitable.primitive.isValid = false then some (s, .inval)
  else if waitable.inOnly = false then some (s, .inval)
  else if waitable.registeredWaitset ≠ none then some (s, .exists)
  else if (find waitset waitable.primitive).isSome then some (s, .exists)
  else if waitset.count ≥ cap then some (s, .tooManyHandles)
  else
    some (s.link w { handles := Function.update waitset.handles waitset.count waitable.primitive
                     waitables := Function.update waitset.waitables waitset.count b
                     count := waitset.count + 1 } b (some w), .ok)

def remove (s : Memory ω β η (WindowsWaitset β η)) (w : ω) (b : β) : Option (Memory ω β η (WindowsWaitset β η) × Status) :=
  let waitset := s.waitsets w
  let waitable := s.waitables b
  if waitable.primitive.isValid = false then some (s, .inval)
  else if waitable.registeredWaitset ≠ some w then some (s, .inval)
  else
    match find waitset waitable.primitive with
    | none => some (s, .inval)
    | some idx =>
        let last := waitset.count - 1
        let moved := if idx < last then
            { waitset with
              handles := Function.update waitset.handles idx (waitset.handles last)
              waitables := Function.update waitset.waitables idx (waitset.waitables last) }
          else waitset
        some (s.link w { moved with count := moved.count - 1 } b none, .ok)

def backend (cap : Nat) : Backend ω β η (WindowsWaitset β η) Unit Empty where
  add := fun s w b _ => add cap s w b
  remove := fun s w b _ => remove s w b
  system := fun _ event => nomatch event

/- What `ns_platform_waitset_init` leaves; the arrays are not written. -/
def New (waitset : WindowsWaitset β η) : Prop := waitset.count = 0

def members (waitset : WindowsWaitset β η) : List β := (List.range waitset.count).map waitset.waitables

structure Table (cap : Nat) (primitive : β → Handle η) (waitset : WindowsWaitset β η) : Prop where
  handles : ∀ i, i < waitset.count → waitset.handles i = primitive (waitset.waitables i)
  distinct : ∀ i j, i < waitset.count → j < waitset.count → waitset.handles i = waitset.handles j → i = j
  fits : waitset.count ≤ cap

variable {cap : Nat} {primitive : β → Handle η} {t : WindowsWaitset β η}

omit [DecidableEq β] [DecidableEq η] in
theorem membersMem {b : β} : b ∈ members t ↔ ∃ i, i < t.count ∧ t.waitables i = b := by
  simp [members]

omit [DecidableEq β] in
theorem findSome {handle : Handle η} {i : Nat} (found : find t handle = some i) : i < t.count ∧ t.handles i = handle :=
  ⟨List.mem_range.mp (List.mem_of_find?_eq_some found), by simpa using List.find?_some found⟩

omit [DecidableEq β] in
theorem findNone {handle : Handle η} (missing : find t handle = none) {i : Nat} (inside : i < t.count) : t.handles i ≠ handle := by
  simpa using List.find?_eq_none.mp missing i (List.mem_range.mpr inside)

omit [DecidableEq β] in
theorem Table.found (table : Table cap primitive t) {b : β} (member : b ∈ members t) :
    ∃ i, find t (primitive b) = some i ∧ i < t.count ∧ t.waitables i = b := by
  obtain ⟨i, inside, here⟩ := membersMem.mp member
  have handle : t.handles i = primitive b := by rw [table.handles i inside, here]
  cases found : find t (primitive b) with
  | none => exact absurd handle (findNone found inside)
  | some j =>
    obtain ⟨insideJ, handleJ⟩ := findSome found
    obtain rfl : i = j := table.distinct i j inside insideJ (handle.trans handleJ.symm)
    exact ⟨i, rfl, inside, here⟩

omit [DecidableEq β] in
theorem Table.append (table : Table cap primitive t) {b : β} (fresh : find t (primitive b) = none) (room : t.count < cap) :
    Table cap primitive { handles := Function.update t.handles t.count (primitive b)
                          waitables := Function.update t.waitables t.count b
                          count := t.count + 1 } := by
  refine ⟨fun i inside => ?_, fun i j insideI insideJ same => ?_, room⟩
  · dsimp only at inside ⊢
    by_cases new : i = t.count
    · simp [new]
    · simpa [new] using table.handles i (by omega)
  · dsimp only at insideI insideJ same
    by_cases newI : i = t.count <;> by_cases newJ : j = t.count
    · omega
    · simp only [newI, Function.update_self, Function.update_of_ne newJ] at same
      exact absurd same.symm (findNone fresh (by omega))
    · simp only [newJ, Function.update_self, Function.update_of_ne newI] at same
      exact absurd same (findNone fresh (by omega))
    · simp only [Function.update_of_ne newI, Function.update_of_ne newJ] at same
      exact table.distinct i j (by omega) (by omega) same

omit [DecidableEq β] [DecidableEq η] in
theorem membersAppend (b : β) (handles : Nat → Handle η) :
    (members { handles := handles, waitables := Function.update t.waitables t.count b, count := t.count + 1 }).Perm
      (b :: members t) := by
  have kept : (List.range t.count).map (Function.update t.waitables t.count b) = (List.range t.count).map t.waitables :=
    List.map_congr_left fun i member => by
      have := List.mem_range.mp member
      rw [Function.update_of_ne (by omega)]
  rw [members, List.range_succ, List.map_append, kept, List.map_singleton]
  dsimp only
  rw [Function.update_self]
  exact List.perm_append_singleton b _

/- The table behind a removal: entry `i` holds what the last one held. -/
def compact (t : WindowsWaitset β η) (i : Nat) : WindowsWaitset β η where
  handles := fun j => if j = i then t.handles (t.count - 1) else t.handles j
  waitables := fun j => if j = i then t.waitables (t.count - 1) else t.waitables j
  count := t.count - 1

omit [DecidableEq β] [DecidableEq η] in
theorem Table.compact (table : Table cap primitive t) (i : Nat) : Table cap primitive (compact t i) := by
  refine ⟨fun j inside => ?_, fun j k insideJ insideK same => ?_, ?_⟩
  · simp only [Windows.compact] at inside ⊢
    split
    · exact table.handles _ (by omega)
    · exact table.handles j (by omega)
  · simp only [Windows.compact] at insideJ insideK same
    split at same <;> split at same
    · omega
    · have := table.distinct _ k (by omega) (by omega) same
      omega
    · have := table.distinct j _ (by omega) (by omega) same
      omega
    · exact table.distinct j k (by omega) (by omega) same
  · have := table.fits
    simp only [Windows.compact]
    omega

omit [DecidableEq β] [DecidableEq η] in
theorem membersCompact {i : Nat} (inside : i < t.count) : (members t).Perm (t.waitables i :: members (compact t i)) := by
  obtain ⟨n, count⟩ : ∃ n, t.count = n + 1 := ⟨t.count - 1, by omega⟩
  have perm := compactPerm (f := t.waitables) (i := i) (n := n) (by omega)
  simpa [members, compact, count] using perm

omit [DecidableEq β] [DecidableEq η] in
theorem movedCompact {i : Nat} (inside : i < t.count) :
    (let moved := if i < t.count - 1 then
        { t with
          handles := Function.update t.handles i (t.handles (t.count - 1))
          waitables := Function.update t.waitables i (t.waitables (t.count - 1)) }
      else t
    { moved with count := moved.count - 1 }) = compact t i := by
  by_cases before : i < t.count - 1
  · simp only [before, if_true, compact, WindowsWaitset.mk.injEq, and_true]
    constructor <;> (funext j; simp [Function.update_apply])
  · have last : i = t.count - 1 := by omega
    simp only [before, if_false, compact, WindowsWaitset.mk.injEq, and_true]
    constructor <;> (funext j; split <;> simp_all)

theorem lawful (cap : Nat) : Lawful (backend cap : Backend ω β η (WindowsWaitset β η) Unit Empty) (fun _ _ _ _ => True) members
    (Table cap) fun _ t t' => t' = t where
  congr := by
    intro primitive primitive' t agree table
    refine ⟨fun i inside => ?_, table.distinct, table.fits⟩
    rw [table.handles i inside, agree _ (membersMem.mpr ⟨i, inside, rfl⟩)]
  unchanged := by
    rintro _ t _ rfl
    exact ⟨rfl, id⟩
  system := fun _ _ event => nomatch event
  add := by
    intro s w b _ kept _
    have refuse : ∀ status, status ≠ Status.ok → ∃ s' status', some (s, status) = some (s', status') ∧
        Added members (Table cap) (fun _ t t' => t' = t) s w b s' status' := fun status refusal =>
      ⟨s, status, rfl, .refused refusal rfl fun _ => rfl⟩
    change ∃ s' status, add cap s w b = some (s', status) ∧ _
    unfold add
    dsimp only
    split_ifs with invalid mask registered listed full
    · exact refuse _ nofun
    · exact refuse _ nofun
    · exact refuse _ nofun
    · exact refuse _ nofun
    · exact refuse _ nofun
    · have free : s.registered b = none := by simpa [Memory.registered] using registered
      have fresh : find (s.waitsets w) (s.primitive b) = none := by simpa [Memory.primitive] using listed
      exact ⟨_, _, rfl, .added free (membersAppend b _) ((kept.tables w).append fresh (by omega))⟩
  remove := by
    intro s w b _ kept
    have table := kept.tables w
    have refuse : ∀ status, status ≠ Status.ok → ∃ s' status', some (s, status) = some (s', status') ∧
        Removed members (Table cap) s w b s' status' := fun status refusal => ⟨s, status, rfl, .refused refusal⟩
    change ∃ s' status, remove s w b = some (s', status) ∧ _
    unfold remove
    by_cases invalid : (s.waitables b).primitive.isValid = false
    · rw [if_pos invalid]
      exact refuse _ nofun
    · by_cases registered : (s.waitables b).registeredWaitset ≠ some w
      · rw [if_neg invalid, if_pos registered]
        exact refuse _ nofun
      · have member : b ∈ members (s.waitsets w) := (kept.agrees.listed w b).mpr (by simpa [Memory.registered] using registered)
        obtain ⟨i, found, inside, here⟩ := table.found member
        change find (s.waitsets w) (s.waitables b).primitive = some i at found
        rw [if_neg invalid, if_neg registered]
        dsimp only
        rw [found]
        refine ⟨_, _, rfl, .removed ?_ ?_⟩
        · rw [movedCompact inside]
          exact here ▸ membersCompact inside
        · rw [movedCompact inside]
          exact table.compact i

end Windows

end Nanosig.Platform
