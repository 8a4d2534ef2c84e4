import Nanosig.Lists.Lists

/-! What each call does to the lists. Reading a list backwards is reading its mirror image, so the
calls at the front and at the back are one argument each. -/
namespace Nanosig.Lists
open CircularList

variable {α : Type} [DecidableEq α] {l l' : Links α} {lists : Contents α} {head other node : α} {xs ys A B : List α}

section Links

theorem pushFrontSpec (list : Circular l head xs) (outside : node ∉ head :: xs) :
    ∃ l', pushFront l head node = some l' ∧ Circular l' head (node :: xs) ∧
      ∀ a, a ∉ node :: head :: xs → l'.next a = l.next a ∧ l'.prev a = l.prev a := by
  have outside' : node ∉ head :: xs.reverse := by simpa using outside
  obtain ⟨m, pushed, list', frame⟩ := pushBackSpec list.mirror outside'
  have first := list.begins
  have apart : xs.head?.getD head ≠ node ∧ head ≠ node := by
    refine ⟨fun same => outside ?_, fun same => outside (same ▸ List.mem_cons_self)⟩
    rw [← same]
    cases xs <;> simp
  have same : pushFront l head node = some m.mirror := by
    have mirrored : m = (l.mirror.insertBetween node (xs.head?.getD head) head) := by
      rw [Links.pushBack, show l.mirror.prev head = l.next head from rfl, first] at pushed
      exact (Option.some.inj pushed).symm
    rw [pushFront, first, mirrored]
    simp only [Option.map_some, Links.insertBetween, Links.setNext, Links.setPrev, Links.mirror, Option.some.injEq,
      Links.mk.injEq]
    exact ⟨Function.update_comm apart.2.symm _ _ _, Function.update_comm apart.1 _ _ _⟩
  refine ⟨m.mirror, same, by simpa using list'.mirror, fun a away => ?_⟩
  have kept := frame a (by simpa using away)
  exact ⟨kept.2, kept.1⟩

theorem removeSpec (list : Circular l head (A ++ node :: B)) :
    ∃ l', l.remove node = some l' ∧ Circular l' head (A ++ B) ∧ (l'.next node = none ∧ l'.prev node = none) ∧
      ∀ a, a ∉ head :: (A ++ node :: B) → l'.next a = l.next a ∧ l'.prev a = l.prev a := by
  obtain ⟨unlinked, made, rest, frame⟩ := unlinkSpec list
  have outside : node ∉ head :: (A ++ B) := by
    have distinct := (List.perm_middle.cons head |>.trans (.swap node head _)).nodup_iff.mp list.distinct
    exact (List.nodup_cons.mp distinct).1
  refine ⟨(unlinked.setNext node none).setPrev node none, by rw [Links.remove, made]; rfl, rest.congr fun a member => ?_,
    ⟨Function.update_self .., Function.update_self ..⟩, fun a away => ?_⟩
  · have differs : a ≠ node := fun same => outside (same ▸ member)
    simp [Links.setNext, Links.setPrev, differs]
  · obtain ⟨aHead, aA, aNode, aB⟩ : a ≠ head ∧ a ∉ A ∧ a ≠ node ∧ a ∉ B := by simpa using away
    have kept := frame a (by simp [aHead, aA, aB])
    simpa [Links.setNext, Links.setPrev, aNode] using kept

theorem removeAlone (list : Circular l node []) :
    ∃ l', l.remove node = some l' ∧ (l'.next node = none ∧ l'.prev node = none) ∧
      ∀ a, a ≠ node → l'.next a = l.next a ∧ l'.prev a = l.prev a := by
  obtain ⟨next, prev⟩ := circularNil.mp list
  have sameNext : Function.update l.next node (some node) = l.next := Function.update_eq_self_iff.mpr next.symm
  have samePrev : Function.update l.prev node (some node) = l.prev := Function.update_eq_self_iff.mpr prev.symm
  have unlinked : l.unlink node = some l := by
    simp [Links.unlink, Links.setPrev, Links.setNext, next, prev, sameNext, samePrev]
  refine ⟨(l.setNext node none).setPrev node none, by rw [Links.remove, unlinked]; rfl,
    ⟨Function.update_self .., Function.update_self ..⟩, fun a apart => ?_⟩
  simp [Links.setNext, Links.setPrev, apart]

theorem emptyMirror (list : Circular l head xs) : l.mirror.empty head = l.empty head := by
  rw [Bool.eq_iff_iff, emptyIff list, emptyIff list.mirror, List.reverse_eq_nil_iff]

theorem frontSpec (list : Circular l head xs) : l.front head = xs.head? := by
  have full := emptyIff list
  cases xs with
  | nil => simp [Links.front, full.mpr rfl]
  | cons x xs =>
    have some_ : l.empty head = false := by simpa using full.not.mpr (List.cons_ne_nil x xs)
    simp [Links.front, some_, list.first]

theorem backSpec (list : Circular l head xs) : back l head = xs.getLast? := by
  have mirrored := frontSpec list.mirror
  rw [Links.front, emptyMirror list, List.head?_reverse] at mirrored
  exact mirrored

theorem spliceSpec (list : Circular l head xs) (source : Circular l other ys) (apart : ∀ x ∈ head :: xs, x ∉ other :: ys)
    (full : ys ≠ []) :
    ∃ l', spliceBackInit l head other = some l' ∧ Circular l' head (xs ++ ys) ∧ Circular l' other [] ∧
      ∀ a, a ∉ head :: xs → a ∉ other :: ys → l'.next a = l.next a ∧ l'.prev a = l.prev a := by
  obtain ⟨tail, tailIn, tailEnds, tailHead, inner⟩ := list.last
  obtain ⟨first, rest, rfl⟩ := List.exists_cons_of_ne_nil full
  obtain ⟨last, lastIn, lastEnds, lastOther, sourceInner⟩ := source.last
  have starts := (List.isChain_cons_cons.mp sourceInner).1
  have chain := (List.isChain_cons_cons.mp sourceInner).2
  obtain ⟨headOut, -⟩ := List.nodup_cons.mp list.distinct
  obtain ⟨otherOut, sourceDistinct⟩ := List.nodup_cons.mp source.distinct
  have lastIn' : last ∈ first :: rest := by
    rw [List.getLast?_cons_cons] at lastEnds
    exact List.mem_of_getLast? lastEnds
  have headOther : head ≠ other := fun same => apart head List.mem_cons_self (same ▸ List.mem_cons_self)
  have tailOther : tail ≠ other := fun same => apart tail tailIn (same ▸ List.mem_cons_self)
  have tailYs : ∀ y ∈ first :: rest, y ≠ tail := fun y inside same => apart tail tailIn (List.mem_cons_of_mem _ (same ▸ inside))
  have headYs : ∀ y ∈ first :: rest, y ≠ head := fun y inside same =>
    apart head List.mem_cons_self (List.mem_cons_of_mem _ (same ▸ inside))
  have otherYs : ∀ y ∈ first :: rest, y ≠ other := fun y inside same => otherOut (same ▸ inside)
  have firstIn : first ∈ first :: rest := List.mem_cons_self
  have nonempty : l.empty other = false := by simpa using (emptyIff source).not.mpr (List.cons_ne_nil _ _)
  have made : spliceBackInit l head other = some
      (((((l.setPrev first (some tail)).setNext tail (some first)).setNext last (some head)).setPrev head (some last)).init other) := by
    simp [spliceBackInit, Links.setPrev, nonempty, headOther, starts.1, lastOther.2, tailHead.2, (headYs first firstIn).symm]
  refine ⟨_, made, ⟨?_, ?_⟩, initNil _ _, fun a away away' => ?_⟩
  · rw [show head :: (xs ++ first :: rest) ++ [head] = (head :: xs) ++ ((first :: rest) ++ [head]) by simp]
    refine List.isChain_append.mpr ⟨?_, List.isChain_append.mpr ⟨?_, List.isChain_singleton _, ?_⟩, ?_⟩
    · refine inner.imp_of_mem_tail_imp fun a b here there linked => ?_
      have bHead : b ≠ head := fun same => headOut (same ▸ there)
      have bFirst : b ≠ first := fun same =>
        apart b (List.mem_cons_of_mem _ there) (List.mem_cons_of_mem _ (same ▸ firstIn))
      have bOther : b ≠ other := fun same => apart b (List.mem_cons_of_mem _ there) (same ▸ List.mem_cons_self)
      have aTail : a ≠ tail := fun same => bHead (Option.some.inj (linked.1.symm.trans (same ▸ tailHead.1)))
      have aLast : a ≠ last := fun same => apart a here (List.mem_cons_of_mem _ (same ▸ lastIn'))
      have aOther : a ≠ other := fun same => apart a here (same ▸ List.mem_cons_self)
      simp [Linked, Links.init, Links.setNext, Links.setPrev, aTail, aLast, aOther, bHead, bFirst, bOther, linked.1, linked.2]
    · refine chain.imp_of_mem_imp fun a b here there linked => ?_
      have aLast : a ≠ last := fun same => otherYs b there (Option.some.inj (linked.1.symm.trans (same ▸ lastOther.1)))
      have bFirst : b ≠ first := fun same => otherYs a here (Option.some.inj (linked.2.symm.trans (same ▸ starts.2)))
      simp [Linked, Links.init, Links.setNext, Links.setPrev, aLast, tailYs a here, otherYs a here, bFirst, headYs b there,
        otherYs b there, linked.1, linked.2]
    · intro a here b there
      obtain rfl : head = b := Option.some.inj there
      rw [List.getLast?_cons_cons] at lastEnds
      cases lastEnds.symm.trans here
      simp [Linked, Links.init, Links.setNext, Links.setPrev, otherYs last lastIn', headOther]
    · intro a here b there
      cases tailEnds.symm.trans here
      obtain rfl : first = b := Option.some.inj there
      simp [Linked, Links.init, Links.setNext, Links.setPrev, tailOther, (tailYs last lastIn').symm, otherYs first firstIn,
        headYs first firstIn]
  · rw [← List.cons_append]
    exact list.distinct.append sourceDistinct fun x inside inside' => apart x inside (List.mem_cons_of_mem _ inside')
  · have aTail : a ≠ tail := fun same => away (same ▸ tailIn)
    have aHead : a ≠ head := fun same => away (same ▸ List.mem_cons_self)
    have aLast : a ≠ last := fun same => away' (same ▸ lastIn)
    have aOther : a ≠ other := fun same => away' (same ▸ List.mem_cons_self)
    have aFirst : a ≠ first := fun same => away' (by rw [same]; exact List.mem_cons_of_mem _ firstIn)
    simp [Links.init, Links.setNext, Links.setPrev, aTail, aHead, aLast, aOther, aFirst]

end Links

section Memory

theorem dropFree (notMember : ¬Member lists node) : Free (Function.update lists node none) node := by
  intro head xs here
  by_cases same : head = node
  · simp [same] at here
  · rw [Function.update_of_ne same] at here
    have outside : node ∉ xs := fun inside => notMember ⟨head, xs, here, inside⟩
    simpa [Ne.symm same] using outside

theorem takenMember (rep : Represents l lists) (here : lists head = some (A ++ node :: B)) :
    taken lists node none = Function.update lists head (some (A ++ B)) := by
  have inside : node ∈ A ++ node :: B := by simp
  obtain ⟨notHead, only⟩ := rep.member here inside
  have distinct := (List.nodup_cons.mp (rep.holds head _ here).distinct).2
  have outside : node ∉ A := fun member => (List.nodup_append.mp distinct).2.2 node member node List.mem_cons_self rfl
  funext h
  by_cases own : h = node
  · have differ : node ≠ head := fun same => by simp [same, here] at notHead
    rw [own, Function.update_of_ne differ, notHead, taken, if_pos rfl]
  · rw [taken, if_neg own]
    by_cases same : h = head
    · rw [same, Function.update_self, here, Option.map_some, List.erase_append_right _ outside, List.erase_cons_head]
    · rw [Function.update_of_ne same]
      cases there : lists h with
      | none => rfl
      | some ys => rw [Option.map_some, List.erase_of_not_mem fun member => same (only h ys there member)]

theorem takenAlone (notMember : ¬Member lists node) (heads : Option (List α)) :
    taken lists node heads = Function.update lists node heads := by
  funext h
  by_cases own : h = node
  · rw [own, Function.update_self, taken, if_pos rfl]
  · rw [Function.update_of_ne own, taken, if_neg own]
    cases there : lists h with
    | none => rfl
    | some ys => rw [Option.map_some, List.erase_of_not_mem fun member => notMember ⟨h, ys, there, member⟩]

theorem takenHeads (heads : Option (List α)) : taken lists node heads = Function.update (taken lists node none) node heads := by
  funext h
  by_cases own : h = node
  · rw [own, Function.update_self, taken, if_pos rfl]
  · rw [Function.update_of_ne own, taken, taken, if_neg own, if_neg own]

theorem takenFree (rep : Represents l lists) : Free (taken lists node none) node := by
  intro h xs here
  by_cases own : h = node
  · simp [taken, own] at here
  · rw [taken, if_neg own] at here
    obtain ⟨ys, there, rfl⟩ := Option.map_eq_some_iff.mp here
    have distinct := (List.nodup_cons.mp (rep.holds h ys there).distinct).2
    simpa [Ne.symm own] using distinct.not_mem_erase

omit [DecidableEq α] in
theorem Head.nodes (isHead : Head lists head) : lists head = some (nodesOf lists head) := by
  obtain ⟨xs, here⟩ := Option.isSome_iff_exists.mp isHead
  rw [nodesOf, here]
  rfl

theorem removeRepresents (rep : Represents l lists) (removable : Removable lists node) :
    ∃ l', l.remove node = some l' ∧ Represents l' (taken lists node none) ∧ l'.next node = none ∧ l'.prev node = none := by
  rcases removable with ⟨head, xs, here, inside⟩ | ⟨notMember, alone⟩
  · obtain ⟨A, B, rfl⟩ := List.append_of_mem inside
    obtain ⟨l', removed, list, null, frame⟩ := removeSpec (rep.holds head _ here)
    refine ⟨l', removed, ?_, null⟩
    rw [takenMember rep here]
    refine rep.change here list (fun x member => .inl ?_) fun a away _ => frame a away
    rcases List.mem_append.mp member with left | right
    · exact List.mem_append_left _ left
    · exact List.mem_append_right _ (List.mem_cons_of_mem _ right)
  · obtain ⟨l', removed, null, frame⟩ := removeAlone (rep.holds node [] alone)
    refine ⟨l', removed, ?_, null⟩
    rw [takenAlone notMember]
    exact (rep.drop node).congr fun a listed => frame a fun same => listed (by rw [same]; exact dropFree notMember)

theorem removeInitRepresents (rep : Represents l lists) (removable : Removable lists node) :
    ∃ l', l.removeInit node = some l' ∧ Represents l' (taken lists node (some [])) := by
  rcases removable with ⟨head, xs, here, inside⟩ | ⟨notMember, alone⟩
  · obtain ⟨A, B, rfl⟩ := List.append_of_mem inside
    obtain ⟨l', removed, list, own, frame⟩ := removeInitSpec (rep.holds head _ here)
    have changed : Represents l' (taken lists node none) := by
      rw [takenMember rep here]
      refine rep.change here list (fun x member => .inl ?_) fun a away _ => frame a away
      rcases List.mem_append.mp member with left | right
      · exact List.mem_append_left _ left
      · exact List.mem_append_right _ (List.mem_cons_of_mem _ right)
    refine ⟨l', removed, ?_⟩
    rw [takenHeads]
    exact changed.begin (takenFree rep) own
  · refine ⟨l, removeInitAlone (rep.holds node [] alone), ?_⟩
    rw [takenAlone notMember, Function.update_eq_self_iff.mpr alone.symm]
    exact rep

omit [DecidableEq α] in
theorem Linkable.outside (linkable : Linkable lists node) (here : lists head = some xs) (differ : head ≠ node) :
    node ∉ head :: xs := by
  have away : node ∉ xs := fun inside => linkable.1 ⟨head, xs, here, inside⟩
  simpa [differ.symm] using away

theorem putRepresents (rep : Represents l lists) (here : lists head = some xs) (differ : head ≠ node)
    (linkable : Linkable lists node) {place : List α → List α} (list : Circular l' head (place xs))
    (from_ : ∀ x ∈ place xs, x = node ∨ x ∈ xs)
    (frame : ∀ a, a ∉ node :: head :: xs → l'.next a = l.next a ∧ l'.prev a = l.prev a) :
    Represents l' (put lists head node place) := by
  have free := dropFree linkable.1
  have still : Function.update lists node none head = some xs := by rw [Function.update_of_ne differ, here]
  rw [put, here, Option.map_some]
  refine (rep.drop node).change still list (fun x member => ?_) fun a away listed => frame a ?_
  · rcases from_ x member with rfl | old
    · exact .inr free
    · exact .inl old
  · have apart : a ≠ node := fun same => listed (same ▸ free)
    simpa [apart] using away

theorem pushFrontRepresents (rep : Represents l lists) (isHead : Head lists head) (differ : head ≠ node)
    (linkable : Linkable lists node) :
    ∃ l', pushFront l head node = some l' ∧ Represents l' (put lists head node (node :: ·)) := by
  have here := isHead.nodes
  obtain ⟨l', pushed, list, frame⟩ := pushFrontSpec (rep.holds head _ here) (linkable.outside here differ)
  exact ⟨l', pushed, putRepresents rep here differ linkable list (fun x member => List.mem_cons.mp member) frame⟩

theorem pushBackRepresents (rep : Represents l lists) (isHead : Head lists head) (differ : head ≠ node)
    (linkable : Linkable lists node) :
    ∃ l', l.pushBack head node = some l' ∧ Represents l' (put lists head node (· ++ [node])) := by
  have here := isHead.nodes
  obtain ⟨l', pushed, list, frame⟩ := pushBackSpec (rep.holds head _ here) (linkable.outside here differ)
  refine ⟨l', pushed, putRepresents rep here differ linkable list (fun x member => ?_) frame⟩
  have either : x ∈ nodesOf lists head ∨ x = node := by simpa using member
  exact either.symm

theorem takenHead (isHead : Head lists head) (differ : head ≠ node) (heads : Option (List α)) : Head (taken lists node heads) head := by
  rw [Head, taken, if_neg differ, isHead.nodes]
  rfl

theorem moveBackRepresents (rep : Represents l lists) (isHead : Head lists head) (differ : head ≠ node)
    (removable : Removable lists node) : ∃ l', moveBack l head node = some l' ∧ Represents l' (moved lists head node) := by
  obtain ⟨l1, removed, rep1, -⟩ := removeRepresents rep removable
  have free : Free (taken lists node none) node := takenFree rep
  have linkable : Linkable (taken lists node none) node := by
    refine ⟨?_, .inl (by rw [taken, if_pos rfl])⟩
    rintro ⟨h, xs, here, inside⟩
    exact free h xs here (List.mem_cons_of_mem _ inside)
  obtain ⟨l', pushed, rep'⟩ := pushBackRepresents rep1 (takenHead isHead differ none) differ linkable
  exact ⟨l', by rw [moveBack, removed]; exact pushed, rep'⟩

theorem initRepresents (rep : Represents l lists) (notMember : ¬Member lists head) :
    Represents (l.init head) (Function.update lists head (some [])) := by
  have free := dropFree notMember
  have changed : Represents (l.init head) (Function.update lists head none) := by
    refine (rep.drop head).congr fun a listed => ?_
    have apart : a ≠ head := fun same => listed (same ▸ free)
    simp [Links.init, Links.setNext, Links.setPrev, apart]
  have began := changed.begin free (initNil l head)
  rwa [Function.update_idem] at began

theorem spliceRepresents (rep : Represents l lists) (isHead : Head lists head) (isOther : Head lists other) (differ : head ≠ other) :
    ∃ l', spliceBackInit l head other = some l' ∧ Represents l' (Function.update (Function.update lists other (some [])) head
      (some (nodesOf lists head ++ nodesOf lists other))) := by
  have here := isHead.nodes
  have there := isOther.nodes
  generalize nodesOf lists head = xs at here ⊢
  generalize nodesOf lists other = ys at there ⊢
  have source := rep.holds other ys there
  by_cases none_ : ys = []
  · subst none_
    refine ⟨l, by rw [spliceBackInit, if_pos ((emptyIff source).mpr rfl)], ?_⟩
    have sameOther : Function.update lists other (some []) = lists := Function.update_eq_self_iff.mpr there.symm
    have sameHead : Function.update lists head (some xs) = lists := Function.update_eq_self_iff.mpr here.symm
    rw [List.append_nil, sameOther, sameHead]
    exact rep
  · have apart := rep.apart head other xs ys here there differ
    obtain ⟨l', spliced, list, own, frame⟩ := spliceSpec (rep.holds head xs here) source apart none_
    have still : Function.update lists other none head = some xs := by rw [Function.update_of_ne differ, here]
    have freed : ∀ y ∈ other :: ys, Free (Function.update lists other none) y := by
      intro y inside h zs other_ member
      by_cases same : h = other
      · simp [same] at other_
      · rw [Function.update_of_ne same] at other_
        exact rep.apart h other zs ys other_ there same y member inside
    have changed := (rep.drop other).change still list (fun x member => by
      rcases List.mem_append.mp member with old | new
      · exact .inl old
      · exact .inr (freed x (List.mem_cons_of_mem _ new))) fun a away listed => frame a away fun inside => listed (freed a inside)
    have freeOther : Free (Function.update (Function.update lists other none) head (some (xs ++ ys))) other := by
      intro h zs here' member
      by_cases same : h = head
      · subst same
        rw [Function.update_self] at here'
        cases here'
        have outside : other ∉ h :: xs := fun inside => apart other inside List.mem_cons_self
        have notOwn : other ∉ ys := (List.nodup_cons.mp source.distinct).1
        simp only [List.mem_cons, List.mem_append, not_or] at outside member
        tauto
      · rw [Function.update_of_ne same] at here'
        exact freed other List.mem_cons_self h zs here' member
    have began := changed.begin freeOther own
    rw [Function.update_comm differ, Function.update_idem] at began
    exact ⟨l', spliced, began⟩

end Memory

end Nanosig.Lists
