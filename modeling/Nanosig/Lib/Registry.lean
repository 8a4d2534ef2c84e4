import Mathlib

/-! Registries: tables that list their members while every member points back to
the table that lists it. Below them, tables of slots in which a member takes any
free slot. -/
namespace Registry

section Slots

variable {β : Type*} [DecidableEq β]

def freeSlot (slots : List (Option β)) : Nat := slots.findIdx (· = none)

def slotOf (slots : List (Option β)) (b : β) : Nat := slots.findIdx (· = some b)

omit [DecidableEq β] in
theorem freeSlotFound {slots : List (Option β)} (room : slots.reduceOption.length < slots.length) :
    freeSlot slots < slots.length := by
  have empty : none ∈ slots := by
    by_contra full
    have all : ∀ slot ∈ slots, slot.isSome = true := fun slot member => by
      cases slot with
      | none => exact absurd member full
      | some b => rfl
    exact absurd (List.reduceOption_length_eq_iff.mpr all) (by omega)
  exact List.findIdx_lt_length_of_exists ⟨none, empty, by simp⟩

theorem slotOfFound {slots : List (Option β)} {b : β} (member : b ∈ slots.reduceOption) : slotOf slots b < slots.length :=
  List.findIdx_lt_length_of_exists ⟨some b, List.reduceOption_mem_iff.mp member, by simp⟩

omit [DecidableEq β] in
theorem reduceSet {slots : List (Option β)} {i : Nat} (inside : i < slots.length) (slot : Option β) :
    ∃ earlier later, slots.reduceOption = earlier ++ slots[i].toList ++ later ∧
      (slots.set i slot).reduceOption = earlier ++ slot.toList ++ later := by
  refine ⟨(slots.take i).reduceOption, (slots.drop (i + 1)).reduceOption, ?_, ?_⟩
  · conv_lhs => rw [← List.take_append_drop i slots, List.drop_eq_getElem_cons inside]
    rw [List.reduceOption_append, ← List.singleton_append, List.reduceOption_append, List.reduceOption_singleton,
      List.append_assoc]
  · rw [List.set_eq_take_append_cons_drop, if_pos inside, List.reduceOption_append, ← List.singleton_append,
      List.reduceOption_append, List.reduceOption_singleton, List.append_assoc]

omit [DecidableEq β] in
theorem fillPerm {slots : List (Option β)} {b : β} (found : freeSlot slots < slots.length) :
    (slots.set (freeSlot slots) (some b)).reduceOption.Perm (b :: slots.reduceOption) := by
  obtain ⟨earlier, later, before, filled⟩ := reduceSet found (some b)
  have free : slots[freeSlot slots] = none :=
    of_decide_eq_true (List.findIdx_getElem (w := found))
  rw [filled, before, free]
  simp

theorem clearPerm {slots : List (Option β)} {b : β} (found : slotOf slots b < slots.length) :
    slots.reduceOption.Perm (b :: (slots.set (slotOf slots b) none).reduceOption) := by
  obtain ⟨earlier, later, before, cleared⟩ := reduceSet found none
  have here : slots[slotOf slots b] = some b :=
    of_decide_eq_true (List.findIdx_getElem (w := found))
  rw [cleared, before, here]
  simp

end Slots

theorem compactPerm {β : Type*} {f : Nat → β} {i n : Nat} (inside : i ≤ n) :
    ((List.range (n + 1)).map f).Perm (f i :: (List.range n).map fun j => if j = i then f n else f j) := by
  rw [List.range_succ, List.map_append]
  rcases Nat.lt_or_eq_of_le inside with before | rfl
  · have bound : i < ((List.range n).map f).length := by simpa using before
    have replaced : (List.range n).map (fun j => if j = i then f n else f j) = ((List.range n).map f).set i (f n) := by
      refine List.ext_getElem (by simp) fun j left right => ?_
      simp [List.getElem_set, eq_comm]
    rw [replaced, List.set_eq_take_append_cons_drop, if_pos bound]
    conv_lhs => rw [← List.take_append_drop i ((List.range n).map f), List.drop_eq_getElem_cons bound]
    simp only [List.getElem_map, List.getElem_range, List.map_cons, List.map_nil, List.append_assoc, List.cons_append]
    refine List.perm_middle.trans (List.Perm.cons _ (List.Perm.append_left _ ?_))
    exact List.perm_append_singleton _ _
  · have same : (List.range i).map (fun j => if j = i then f i else f j) = (List.range i).map f :=
      List.map_congr_left fun j member => by
        have := List.mem_range.mp member
        rw [if_neg (by omega)]
    rw [same]
    exact List.perm_append_singleton _ _

section Back

variable {ω β : Type*} [DecidableEq ω] [DecidableEq β]

structure Agrees (members : ω → List β) (back : β → Option ω) : Prop where
  once : ∀ w, (members w).Nodup
  listed : ∀ w b, b ∈ members w ↔ back b = some w

variable {members members' : ω → List β} {back : β → Option ω} {w : ω} {b : β}

omit [DecidableEq ω] in
theorem backElsewhere {r : Option ω} (before : back b = none ∨ back b = some w) (after : r = none ∨ r = some w) {v : ω}
    (elsewhere : v ≠ w) (x : β) : Function.update back b r x = some v ↔ back x = some v := by
  have away : ∀ q : Option ω, q = none ∨ q = some w → q ≠ some v := by
    rintro q (rfl | here) there
    · contradiction
    · exact elsewhere (Option.some.inj (there.symm.trans here))
  by_cases mine : x = b
  · subst mine
    rw [Function.update_self]
    exact iff_of_false (away _ after) (away _ before)
  · rw [Function.update_of_ne mine]

theorem Agrees.register (agrees : Agrees members back) (free : back b = none) (here : (members' w).Perm (b :: members w))
    (elsewhere : ∀ v, v ≠ w → members' v = members v) : Agrees members' (Function.update back b (some w)) := by
  have unlisted : ∀ v, b ∉ members v := fun v inside => by simpa [free] using (agrees.listed v b).mp inside
  refine ⟨fun v => ?_, fun v x => ?_⟩
  · by_cases same : v = w
    · subst same
      exact here.nodup_iff.mpr (List.nodup_cons.mpr ⟨unlisted v, agrees.once v⟩)
    · rw [elsewhere v same]
      exact agrees.once v
  · by_cases same : v = w
    · subst same
      by_cases new : x = b
      · subst new
        simp [here.mem_iff]
      · simp [here.mem_iff, new, agrees.listed]
    · rw [elsewhere v same]
      by_cases new : x = b
      · subst new
        simp [unlisted v, Ne.symm same]
      · simp [new, agrees.listed]

theorem Agrees.unregister (agrees : Agrees members back) (here : (members w).Perm (b :: members' w))
    (elsewhere : ∀ v, v ≠ w → members' v = members v) : Agrees members' (Function.update back b none) := by
  have registered : back b = some w := (agrees.listed w b).mp (here.mem_iff.mpr List.mem_cons_self)
  obtain ⟨unlisted, once⟩ := List.nodup_cons.mp (here.nodup_iff.mp (agrees.once w))
  refine ⟨fun v => ?_, fun v x => ?_⟩
  · by_cases same : v = w
    · subst same
      exact once
    · rw [elsewhere v same]
      exact agrees.once v
  · by_cases same : v = w
    · subst same
      by_cases old : x = b
      · subst old
        simp [unlisted]
      · rw [Function.update_of_ne old, ← agrees.listed v x, here.mem_iff]
        simp [old]
    · rw [elsewhere v same]
      by_cases old : x = b
      · subst old
        simp [agrees.listed, registered, Ne.symm same]
      · simp [old, agrees.listed]

end Back

end Registry
