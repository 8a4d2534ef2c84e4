import Mathlib

/-! Intrusive circular doubly linked lists over any type of nodes: the pointer writes of
the operations, and what they do to the list behind a head. A NULL pointer is `none`; an
operation that would follow one has no result. -/
namespace CircularList

structure Links (α : Type*) where
  next : α → Option α
  prev : α → Option α

section Operations

variable {α : Type*} [DecidableEq α]

def Links.setNext (l : Links α) (a : α) (b : Option α) : Links α := { l with next := Function.update l.next a b }

def Links.setPrev (l : Links α) (a : α) (b : Option α) : Links α := { l with prev := Function.update l.prev a b }

def Links.init (l : Links α) (head : α) : Links α := (l.setNext head (some head)).setPrev head (some head)

def Links.empty (l : Links α) (head : α) : Bool := l.next head = some head

def Links.insertBetween (l : Links α) (node prev next : α) : Links α :=
  (((l.setPrev next (some node)).setNext node (some next)).setPrev node (some prev)).setNext prev (some node)

def Links.pushBack (l : Links α) (head node : α) : Option (Links α) :=
  (l.prev head).map fun last => l.insertBetween node last head

def Links.unlink (l : Links α) (node : α) : Option (Links α) :=
  (l.next node).bind fun next =>
    let l := l.setPrev next (l.prev node)
    (l.prev node).map fun prev => l.setNext prev (l.next node)

def Links.remove (l : Links α) (node : α) : Option (Links α) :=
  (l.unlink node).map fun l => (l.setNext node none).setPrev node none

def Links.removeInit (l : Links α) (node : α) : Option (Links α) := (l.unlink node).map (·.init node)

def Links.front (l : Links α) (head : α) : Option α := if l.empty head then none else l.next head

def Links.popFront (l : Links α) (head : α) : Option (Option α × Links α) :=
  match l.front head with
  | none => some (none, l)
  | some node => (l.remove node).map fun l => (some node, l)

def Linked (l : Links α) (a b : α) : Prop := l.next a = some b ∧ l.prev b = some a

structure Circular (l : Links α) (head : α) (xs : List α) : Prop where
  linked : List.IsChain (Linked l) (head :: xs ++ [head])
  distinct : (head :: xs).Nodup

variable {l l' : Links α} {head node : α} {xs ys : List α}

omit [DecidableEq α] in
theorem Circular.congr (list : Circular l head xs) (same : ∀ a ∈ head :: xs, l'.next a = l.next a ∧ l'.prev a = l.prev a) :
    Circular l' head xs := by
  refine ⟨list.linked.imp_of_mem_imp fun a b first second linked => ?_, list.distinct⟩
  have inside : ∀ c ∈ head :: xs ++ [head], c ∈ head :: xs := by simp +contextual [or_comm]
  exact ⟨((same a (inside a first)).1).trans linked.1, ((same b (inside b second)).2).trans linked.2⟩

omit [DecidableEq α] in
theorem circularNil : Circular l head [] ↔ l.next head = some head ∧ l.prev head = some head := by
  refine ⟨fun list => ?_, fun linked => ⟨?_, List.nodup_singleton _⟩⟩
  · have linked : List.IsChain (Linked l) [head, head] := list.linked
    exact (List.isChain_pair (R := Linked l)).mp linked
  · exact List.isChain_pair.mpr linked

theorem initNil (l : Links α) (head : α) : Circular (l.init head) head [] := by
  simp [circularNil, Links.init, Links.setNext, Links.setPrev]

omit [DecidableEq α] in
theorem Circular.first (list : Circular l head (node :: ys)) : l.next head = some node :=
  (List.isChain_cons_cons.mp list.linked).1.1

omit [DecidableEq α] in
theorem Circular.last (list : Circular l head xs) :
    ∃ last ∈ head :: xs, (head :: xs).getLast? = some last ∧ Linked l last head ∧ List.IsChain (Linked l) (head :: xs) := by
  obtain ⟨inner, -, ends⟩ := List.isChain_append.mp list.linked
  have some_ := List.getLast?_eq_some_getLast (List.cons_ne_nil head xs)
  exact ⟨_, List.getLast_mem _, some_, ends _ some_ head rfl, inner⟩

theorem emptyIff (list : Circular l head xs) : l.empty head = true ↔ xs = [] := by
  cases xs with
  | nil => simp [Links.empty, (circularNil.mp list).1]
  | cons x ys =>
    have distinct := (List.nodup_cons.mp list.distinct).1
    have differs : x ≠ head := fun same => distinct (by simp [same])
    simp [Links.empty, list.first, differs]

theorem pushBackSpec (list : Circular l head xs) (outside : node ∉ head :: xs) :
    ∃ l', l.pushBack head node = some l' ∧ Circular l' head (xs ++ [node]) ∧
      ∀ a, a ∉ node :: head :: xs → l'.next a = l.next a ∧ l'.prev a = l.prev a := by
  obtain ⟨last, member, ends, back, inner⟩ := list.last
  obtain ⟨headOut, -⟩ := List.nodup_cons.mp list.distinct
  have lastNode : last ≠ node := fun same => outside (same ▸ member)
  have headNode : head ≠ node := fun same => outside (same ▸ List.mem_cons_self)
  refine ⟨_, by rw [Links.pushBack, back.2]; rfl, ⟨?_, ?_⟩, fun a other => ?_⟩
  · rw [← List.cons_append, List.append_assoc]
    refine List.isChain_append.mpr ⟨?_, List.isChain_pair.mpr ?_, ?_⟩
    · refine inner.imp_of_mem_tail_imp fun a b first second linked => ?_
      have bHead : b ≠ head := fun same => headOut (same ▸ second)
      have bNode : b ≠ node := fun same => outside (same ▸ List.mem_cons_of_mem _ second)
      have aLast : a ≠ last := fun same => bHead (Option.some.inj (linked.1.symm.trans (same ▸ back.1)))
      have aNode : a ≠ node := fun same => outside (same ▸ first)
      simp [Linked, Links.insertBetween, Links.setNext, Links.setPrev, aLast, aNode, bNode, bHead, linked.1, linked.2]
    · simp [Linked, Links.insertBetween, Links.setNext, Links.setPrev, headNode, lastNode.symm]
    · intro a first b second
      cases ends.symm.trans first
      obtain rfl : node = b := Option.some.inj second
      simp [Linked, Links.insertBetween, Links.setNext, Links.setPrev]
  · rw [← List.cons_append]
    exact list.distinct.append (List.nodup_singleton _) (by simpa using outside)
  · obtain ⟨aNode, aHead, -⟩ : a ≠ node ∧ a ≠ head ∧ a ∉ xs := by simpa using other
    have aLast : a ≠ last := fun same => other (List.mem_cons_of_mem _ (same ▸ member))
    simp [Links.insertBetween, Links.setNext, Links.setPrev, aNode, aHead, aLast]

theorem unlinkSpec (list : Circular l head (xs ++ node :: ys)) :
    ∃ l', l.unlink node = some l' ∧ Circular l' head (xs ++ ys) ∧
      ∀ a, a ∉ head :: (xs ++ ys) → l'.next a = l.next a ∧ l'.prev a = l.prev a := by
  have shape : head :: (xs ++ node :: ys) ++ [head] = (head :: xs) ++ (node :: (ys ++ [head])) := by simp
  have linked := list.linked
  rw [shape] at linked
  obtain ⟨before, rest, join⟩ := List.isChain_append.mp linked
  obtain ⟨prev, prevIn, prevLast⟩ : ∃ prev ∈ head :: xs, (head :: xs).getLast? = some prev :=
    ⟨_, List.getLast_mem (List.cons_ne_nil _ _), List.getLast?_eq_some_getLast _⟩
  obtain ⟨next, after, split⟩ : ∃ next after, ys ++ [head] = next :: after :=
    List.exists_cons_of_ne_nil (by simp)
  rw [split] at rest
  obtain ⟨forward, behind⟩ := List.isChain_cons_cons.mp rest
  have backward : Linked l prev node := join prev prevLast node rfl
  have apart : node ∉ head :: xs ∧ node ∉ next :: after := by
    have distinct := list.distinct
    rw [← List.cons_append] at distinct
    obtain ⟨-, tail, apart⟩ := List.nodup_append.mp distinct
    have first : node ∉ head :: xs := fun member => apart node member node List.mem_cons_self rfl
    refine ⟨first, fun member => ?_⟩
    rw [← split] at member
    rcases List.mem_append.mp member with inside | same
    · exact (List.nodup_cons.mp tail).1 inside
    · exact first (List.mem_singleton.mp same ▸ List.mem_cons_self)
  obtain ⟨beforeOut, behindOut⟩ := apart
  have nextNode : next ≠ node := fun same => behindOut (same ▸ List.mem_cons_self)
  have prevNode : prev ≠ node := fun same => beforeOut (same ▸ prevIn)
  have made : l.unlink node = some ((l.setPrev next (some prev)).setNext prev (some next)) := by
    simp [Links.unlink, forward.1, backward.2, Links.setPrev, Links.setNext, nextNode.symm]
  have kept : ∀ a b, a ≠ node → b ≠ node → Linked l a b → Linked ((l.setPrev next (some prev)).setNext prev (some next)) a b := by
    intro a b aNode bNode pair
    have aPrev : a ≠ prev := fun same => bNode (Option.some.inj (pair.1.symm.trans (same ▸ backward.1)))
    have bNext : b ≠ next := fun same => aNode (Option.some.inj (pair.2.symm.trans (same ▸ forward.2)))
    simpa [Linked, Links.setPrev, Links.setNext, aPrev, bNext] using pair
  refine ⟨_, made, ⟨?_, ?_⟩, fun a other => ?_⟩
  · have whole : head :: (xs ++ ys) ++ [head] = (head :: xs) ++ (next :: after) := by simp [← split]
    rw [whole]
    refine List.isChain_append.mpr ⟨?_, ?_, ?_⟩
    · exact before.imp_of_mem_imp fun a b first second =>
        kept a b (fun same => beforeOut (same ▸ first)) fun same => beforeOut (same ▸ second)
    · exact behind.imp_of_mem_imp fun a b first second =>
        kept a b (fun same => behindOut (same ▸ first)) fun same => behindOut (same ▸ second)
    · intro a first b second
      cases prevLast.symm.trans first
      obtain rfl : next = b := Option.some.inj second
      simp [Linked, Links.setPrev, Links.setNext]
  · exact list.distinct.sublist ((List.sublist_cons_self node ys).append_left xs |>.cons_cons head)
  · have aPrev : a ≠ prev := fun same => other (same ▸ (List.mem_cons.mp prevIn).elim (fun here => here ▸ List.mem_cons_self)
      fun inside => List.mem_cons_of_mem _ (List.mem_append_left _ inside))
    have aNext : a ≠ next := by
      have inside : next ∈ ys ++ [head] := split ▸ List.mem_cons_self
      rintro rfl
      rcases List.mem_append.mp inside with member | same
      · exact other (List.mem_cons_of_mem _ (List.mem_append_right _ member))
      · exact other (List.mem_singleton.mp same ▸ List.mem_cons_self)
    simp [Links.setPrev, Links.setNext, aPrev, aNext]

theorem removeInitSpec (list : Circular l head (xs ++ node :: ys)) :
    ∃ l', l.removeInit node = some l' ∧ Circular l' head (xs ++ ys) ∧ Circular l' node [] ∧
      ∀ a, a ∉ head :: (xs ++ node :: ys) → l'.next a = l.next a ∧ l'.prev a = l.prev a := by
  obtain ⟨unlinked, made, rest, frame⟩ := unlinkSpec list
  have outside : node ∉ head :: (xs ++ ys) := by
    have distinct := (List.perm_middle.cons head |>.trans (.swap node head _)).nodup_iff.mp list.distinct
    exact (List.nodup_cons.mp distinct).1
  refine ⟨unlinked.init node, by rw [Links.removeInit, made]; rfl, rest.congr fun a member => ?_, initNil _ _, fun a other => ?_⟩
  · have differs : a ≠ node := fun same => outside (same ▸ member)
    simp [Links.init, Links.setNext, Links.setPrev, differs]
  · have differs : a ≠ node := fun same => other (by simp [same])
    have elsewhere := frame a fun member => other (by
      rcases List.mem_cons.mp member with same | inside
      · simp [same]
      · rcases List.mem_append.mp inside with left | right
        · simp [left]
        · simp [right])
    simpa [Links.init, Links.setNext, Links.setPrev, differs] using elsewhere

theorem removeInitAlone (list : Circular l node []) : l.removeInit node = some l := by
  obtain ⟨next, prev⟩ := circularNil.mp list
  have sameNext : Function.update l.next node (some node) = l.next := Function.update_eq_self_iff.mpr next.symm
  have samePrev : Function.update l.prev node (some node) = l.prev := Function.update_eq_self_iff.mpr prev.symm
  simp [Links.removeInit, Links.unlink, Links.init, Links.setPrev, Links.setNext, next, prev, sameNext, samePrev]

theorem popFrontSpec (list : Circular l head (node :: ys)) :
    ∃ l', l.popFront head = some (some node, l') ∧ Circular l' head ys ∧
      ∀ a, a ∉ head :: node :: ys → l'.next a = l.next a ∧ l'.prev a = l.prev a := by
  have front : Circular l head ([] ++ node :: ys) := list
  obtain ⟨unlinked, made, rest, frame⟩ := unlinkSpec front
  have outside : node ∉ head :: ys := by
    obtain ⟨headOut, tail⟩ := List.nodup_cons.mp list.distinct
    have differs : node ≠ head := fun same => headOut (by simp [same])
    simpa [differs] using (List.nodup_cons.mp tail).1
  have full : l.empty head = false := by
    have some_ := (emptyIff list).not.mpr (List.cons_ne_nil _ _)
    simpa using some_
  refine ⟨(unlinked.setNext node none).setPrev node none, ?_, rest.congr fun a member => ?_, fun a other => ?_⟩
  · simp [Links.popFront, Links.front, full, list.first, Links.remove, made]
  · have differs : a ≠ node := fun same => outside (same ▸ member)
    simp [Links.setNext, Links.setPrev, differs]
  · obtain ⟨aHead, aNode, aYs⟩ : a ≠ head ∧ a ≠ node ∧ a ∉ ys := by simpa using other
    have elsewhere := frame a (by simp [aHead, aYs])
    simpa [Links.setNext, Links.setPrev, aNode] using elsewhere

end Operations

end CircularList
