import Nanosig.Lists.Calls

/-! The traversals, forwards and backwards, and whole runs of calls on the lists. -/
namespace Nanosig.Lists
open CircularList TransitionSystem

variable {α : Type} [DecidableEq α] {l : Links α} {lists : Contents α} {d : Direction} {head x : α} {ws A B rest : List α}

section Steps

omit [DecidableEq α] in
theorem followSpec (list : Circular l head ws) (split : inOrder d ws = A ++ x :: B) : follow d l x = some (B.head?.getD head) := by
  cases d with
  | forward =>
    obtain rfl : ws = A ++ x :: B := split
    exact list.follows
  | backward =>
    have mirrored := list.mirror
    rw [show ws.reverse = A ++ x :: B from split] at mirrored
    exact mirrored.follows

omit [DecidableEq α] in
theorem followHead (list : Circular l head ws) : follow d l head = some ((inOrder d ws).head?.getD head) := by
  cases d with
  | forward => exact list.begins
  | backward => exact list.mirror.begins

omit [DecidableEq α] in
theorem inOrderOutside (list : Circular l head ws) (split : inOrder d ws = A ++ x :: B) : x ≠ head := by
  have outside := (List.nodup_cons.mp list.distinct).1
  have inside : x ∈ ws := by
    have member : x ∈ inOrder d ws := split ▸ List.mem_append_right _ List.mem_cons_self
    cases d with
    | forward => exact member
    | backward => exact List.mem_reverse.mp member
  exact fun same => outside (same ▸ inside)

theorem forEachFromSpec (fuel : Nat) (visited : List α) (list : Circular l head ws) (split : inOrder d ws = A ++ B)
    (enough : B.length < fuel) :
    forEachFrom d l head fuel (B.head?.getD head) visited = some (visited ++ B) := by
  induction fuel generalizing A B visited with
  | zero => omega
  | succ fuel ih =>
    cases B with
    | nil => simp [forEachFrom]
    | cons x B =>
      have apart := inOrderOutside list split
      have onward := followSpec list split
      have later := ih (A := A ++ [x]) (B := B) (visited ++ [x]) (by simpa using split) (by simpa using enough)
      simp only [List.head?_cons, Option.getD_some, forEachFrom, apart, if_false, onward, Option.bind_some]
      simpa using later

theorem forEachSpec (list : Circular l head ws) {fuel : Nat} (enough : ws.length < fuel) :
    forEach d l head fuel = some (inOrder d ws) := by
  have few : (inOrder d ws).length < fuel := by
    cases d with
    | forward => exact enough
    | backward => simpa [inOrder] using enough
  rw [forEach, followHead list]
  exact forEachFromSpec fuel [] list (A := []) rfl few

theorem inOrderErase (distinct : ws.Nodup) (split : inOrder d ws = A ++ x :: B) : inOrder d (ws.erase x) = A ++ B := by
  have whole : (A ++ x :: B).Nodup := by
    rw [← split]
    cases d with
    | forward => exact distinct
    | backward => exact List.nodup_reverse.mpr distinct
  obtain ⟨-, second, apart⟩ := List.nodup_append.mp whole
  cases d with
  | forward =>
    obtain rfl : ws = A ++ x :: B := split
    have outside : x ∉ A := fun member => apart x member x List.mem_cons_self rfl
    rw [inOrder, List.erase_append_right _ outside, List.erase_cons_head]
  | backward =>
    have unreversed : ws = B.reverse ++ x :: A.reverse := by
      rw [← List.reverse_reverse ws, show ws.reverse = A ++ x :: B from split]
      simp
    have outside : x ∉ B.reverse := fun member => (List.nodup_cons.mp second).1 (List.mem_reverse.mp member)
    rw [inOrder, unreversed, List.erase_append_right _ outside, List.erase_cons_head]
    simp

/- What the body may do: link the node it is at to another list, never to the one it walks. -/
def Elsewhere (lists : Contents α) (head : α) (act : Act α) : Prop :=
  ∀ target, act = .moveBack target → target ≠ head ∧ Head lists target

theorem actSpec (rep : Represents l lists) (here : lists head = some ws) (split : inOrder d ws = A ++ x :: B) {act : Act α}
    (elsewhere : Elsewhere lists head act) :
    ∃ l', act.run l x = some l' ∧ Represents l' (act.prescribed lists x) ∧
      (∃ ws' A', act.prescribed lists x head = some ws' ∧ inOrder d ws' = A' ++ B) ∧
      ∀ target, Head lists target → Head (act.prescribed lists x) target := by
  have list := rep.holds head ws here
  have inside : x ∈ ws := by
    have member : x ∈ inOrder d ws := split ▸ List.mem_append_right _ List.mem_cons_self
    cases d with
    | forward => exact member
    | backward => exact List.mem_reverse.mp member
  have notHead := (rep.member here inside).1
  have removable : Removable lists x := .inl ⟨head, ws, here, inside⟩
  have apart := inOrderOutside list split
  have erased := inOrderErase (List.nodup_cons.mp list.distinct).2 split
  have without (heads : Option (List α)) : taken lists x heads head = some (ws.erase x) := by
    rw [taken, if_neg apart.symm, here]
    rfl
  have heads (target : α) (isHead : Head lists target) : target ≠ x := by
    rintro rfl
    simp [Head, notHead] at isHead
  cases act with
  | keep => exact ⟨l, rfl, rep, ⟨ws, A ++ [x], here, by simpa using split⟩, fun _ isHead => isHead⟩
  | remove =>
    obtain ⟨l', removed, rep', -⟩ := removeRepresents rep removable
    exact ⟨l', removed, rep', ⟨_, A, without none, erased⟩, fun target isHead => takenHead isHead (heads target isHead) none⟩
  | removeInit =>
    obtain ⟨l', removed, rep'⟩ := removeInitRepresents rep removable
    exact ⟨l', removed, rep', ⟨_, A, without _, erased⟩, fun target isHead => takenHead isHead (heads target isHead) _⟩
  | moveBack target =>
    obtain ⟨differ, isHead⟩ := elsewhere target rfl
    obtain ⟨l', moved_, rep'⟩ := moveBackRepresents rep isHead (heads target isHead) removable
    refine ⟨l', moved_, rep', ⟨ws.erase x, A, ?_, erased⟩, fun other isOther => ?_⟩
    · rw [Act.prescribed, moved, put, Function.update_of_ne differ.symm, Function.update_of_ne apart.symm]
      exact without none
    · rw [Act.prescribed, moved, put, Head]
      by_cases same : other = target
      · rw [same, Function.update_self, Option.isSome_map]
        exact takenHead isHead (heads target isHead) none
      · rw [Function.update_of_ne same, Function.update_of_ne (heads other isOther)]
        exact takenHead isOther (heads other isOther) none

/- From any node on: `n` was read before the body ran, and still is the node after `pos`. -/
theorem forEachSafeFromSpec (fuel : Nat) (visited : List α) {body : α → Act α} (rep : Represents l lists) (here : lists head = some ws)
    (split : inOrder d ws = A ++ rest) (enough : rest.length < fuel) {n : α} (ahead : rest ≠ [] → n = rest.tail.head?.getD head)
    (elsewhere : ∀ x ∈ rest, Elsewhere lists head (body x)) :
    ∃ l', forEachSafeFrom d head body fuel l (rest.head?.getD head) n visited = some (l', visited ++ rest) ∧
      Represents l' (rest.foldl (fun lists x => (body x).prescribed lists x) lists) := by
  induction fuel generalizing l lists ws A rest n visited with
  | zero => omega
  | succ fuel ih =>
    cases rest with
    | nil => exact ⟨l, by simp [forEachSafeFrom], rep⟩
    | cons x rest =>
      have apart := inOrderOutside (rep.holds head ws here) split
      obtain ⟨l1, acted, rep1, ⟨ws', A', here', split'⟩, heads⟩ := actSpec rep here split (elsewhere x List.mem_cons_self)
      obtain rfl : n = rest.head?.getD head := ahead (List.cons_ne_nil _ _)
      have list1 := rep1.holds head ws' here'
      obtain ⟨next, onward, ahead'⟩ : ∃ next, follow d l1 (rest.head?.getD head) = some next ∧
          (rest ≠ [] → next = rest.tail.head?.getD head) := by
        cases rest with
        | nil => exact ⟨_, followHead list1, fun full => absurd rfl full⟩
        | cons y rest => exact ⟨_, followSpec list1 split', fun _ => rfl⟩
      have later : ∀ y ∈ rest, Elsewhere ((body x).prescribed lists x) head (body y) := fun y member target moves => by
        obtain ⟨differ, isHead⟩ := elsewhere y (List.mem_cons_of_mem _ member) target moves
        exact ⟨differ, heads target isHead⟩
      obtain ⟨l', walked, rep'⟩ := ih (visited ++ [x]) rep1 here' split' (by simpa using enough) ahead' later
      refine ⟨l', ?_, rep'⟩
      simp only [List.head?_cons, Option.getD_some, forEachSafeFrom, apart, if_false, acted, onward, Option.bind_some, walked]
      simp

theorem forEachSafeSpec {body : α → Act α} (rep : Represents l lists) (here : lists head = some ws) {fuel : Nat}
    (enough : ws.length < fuel) (elsewhere : ∀ x ∈ ws, Elsewhere lists head (body x)) :
    ∃ l', forEachSafe d l head body fuel = some (l', inOrder d ws) ∧
      Represents l' ((inOrder d ws).foldl (fun lists x => (body x).prescribed lists x) lists) := by
  have list := rep.holds head ws here
  have few : (inOrder d ws).length < fuel := by
    cases d with
    | forward => exact enough
    | backward => simpa [inOrder] using enough
  have each : ∀ x ∈ inOrder d ws, Elsewhere lists head (body x) := fun x member => elsewhere x (by
    cases d with
    | forward => exact member
    | backward => exact List.mem_reverse.mp member)
  obtain ⟨n, onward, ahead⟩ : ∃ n, follow d l ((inOrder d ws).head?.getD head) = some n ∧
      (inOrder d ws ≠ [] → n = (inOrder d ws).tail.head?.getD head) := by
    cases order : inOrder d ws with
    | nil => exact ⟨_, followHead list, fun full => absurd rfl full⟩
    | cons y rest => exact ⟨_, followSpec (A := []) list order, fun _ => rfl⟩
  have whole : inOrder d ws = [] ++ inOrder d ws := rfl
  obtain ⟨l', walked, rep'⟩ := forEachSafeFromSpec fuel [] rep here whole few ahead each
  exact ⟨l', by rw [forEachSafe, followHead list, Option.bind_some, onward, Option.bind_some, walked]; rfl, rep'⟩

end Steps

section Runs

theorem callRepresents {s : State α} (rep : Represents s.links s.lists) {call : Call α} (allowed : Allowed s call) :
    ∃ l', call.run s.links = some (l', (call.prescribed s.lists).2) ∧ Represents l' (call.prescribed s.lists).1 := by
  cases call with
  | init head => exact ⟨_, rfl, initRepresents rep allowed⟩
  | pushFront head node =>
    obtain ⟨isHead, differ, linkable⟩ := allowed
    obtain ⟨l', pushed, rep'⟩ := pushFrontRepresents rep isHead differ linkable
    exact ⟨l', by rw [Call.run, pushed]; rfl, rep'⟩
  | pushBack head node =>
    obtain ⟨isHead, differ, linkable⟩ := allowed
    obtain ⟨l', pushed, rep'⟩ := pushBackRepresents rep isHead differ linkable
    exact ⟨l', by rw [Call.run, pushed]; rfl, rep'⟩
  | remove node =>
    obtain ⟨l', removed, rep', -⟩ := removeRepresents rep allowed
    exact ⟨l', by rw [Call.run, removed]; rfl, rep'⟩
  | removeInit node =>
    obtain ⟨l', removed, rep'⟩ := removeInitRepresents rep allowed
    exact ⟨l', by rw [Call.run, removed]; rfl, rep'⟩
  | popFront head =>
    have isHead : Head s.lists head := allowed
    have here := isHead.nodes
    have front := frontSpec (rep.holds head _ here)
    rw [Call.run, Links.popFront, Call.prescribed]
    cases first : (nodesOf s.lists head).head? with
    | none => exact ⟨s.links, by rw [front, first]; rfl, rep⟩
    | some node =>
      obtain ⟨l', removed, rep', -⟩ := removeRepresents rep (.inl ⟨head, _, here, List.mem_of_head? first⟩)
      exact ⟨l', by rw [front, first]; simp [removed], rep'⟩
  | popBack head =>
    have isHead : Head s.lists head := allowed
    have here := isHead.nodes
    have last := backSpec (rep.holds head _ here)
    rw [Call.run, popBack, Call.prescribed]
    cases ends : (nodesOf s.lists head).getLast? with
    | none => exact ⟨s.links, by rw [last, ends]; rfl, rep⟩
    | some node =>
      obtain ⟨l', removed, rep', -⟩ := removeRepresents rep (.inl ⟨head, _, here, List.mem_of_getLast? ends⟩)
      exact ⟨l', by rw [last, ends]; simp [removed], rep'⟩
  | moveBack head node =>
    obtain ⟨isHead, differ, removable⟩ := allowed
    obtain ⟨l', moved_, rep'⟩ := moveBackRepresents rep isHead differ removable
    exact ⟨l', by rw [Call.run, moved_]; rfl, rep'⟩
  | spliceBackInit head other =>
    obtain ⟨isHead, isOther⟩ := allowed
    by_cases same : head = other
    · have unchanged : spliceBackInit s.links head other = some s.links := by simp [spliceBackInit, same]
      exact ⟨s.links, by rw [Call.run, unchanged]; rfl, by rw [Call.prescribed, if_pos same]; exact rep⟩
    · obtain ⟨l', spliced, rep'⟩ := spliceRepresents rep isHead isOther same
      exact ⟨l', by rw [Call.run, spliced]; rfl, by rw [Call.prescribed, if_neg same]; exact rep'⟩
  | front head =>
    have isHead : Head s.lists head := allowed
    exact ⟨s.links, by rw [Call.run, frontSpec (rep.holds head _ isHead.nodes)]; rfl, rep⟩
  | back head =>
    have isHead : Head s.lists head := allowed
    exact ⟨s.links, by rw [Call.run, backSpec (rep.holds head _ isHead.nodes)]; rfl, rep⟩
  | empty head =>
    have isHead : Head s.lists head := allowed
    have flag : s.links.empty head = (nodesOf s.lists head).isEmpty := by
      rw [Bool.eq_iff_iff, emptyIff (rep.holds head _ isHead.nodes), List.isEmpty_iff]
    exact ⟨s.links, by rw [Call.run, flag]; rfl, rep⟩
  | forEach d head fuel =>
    obtain ⟨isHead, enough⟩ := allowed
    have walked := forEachSpec (d := d) (rep.holds head _ isHead.nodes) enough
    exact ⟨s.links, by rw [Call.run, walked]; rfl, rep⟩
  | forEachSafe d head body fuel =>
    obtain ⟨isHead, enough, elsewhere⟩ := allowed
    obtain ⟨l', walked, rep'⟩ := forEachSafeSpec (d := d) rep isHead.nodes enough elsewhere
    exact ⟨l', by rw [Call.run, walked]; rfl, rep'⟩

omit [DecidableEq α] in
theorem startRepresents {s : State α} (starts : Starts s) : Represents s.links s.lists := starts ▸ Represents.nothing s.links

theorem reachableRepresents {s : State α} (reach : Reachable Starts step Allowed s) : Represents s.links s.lists := by
  refine reach.invariant (fun s starts => startRepresents starts) fun s call s' reply rep allowed taken => ?_
  obtain ⟨l', ran, rep'⟩ := callRepresents rep allowed
  rw [step, ran] at taken
  cases taken
  exact rep'

/- In every reachable state each list is a circle of the prescribed nodes through its head, no node is in two,
every call within its preconditions ends with the prescribed answer, walks included, and a removed node points nowhere. -/
theorem circlesKept {s : State α} (reach : Reachable Starts step Allowed s) :
    Represents s.links s.lists ∧
      (∀ call, Allowed s call → ∃ s', step s call = some (s', (call.prescribed s.lists).2) ∧ s'.lists = (call.prescribed s.lists).1) ∧
      ∀ node, Removable s.lists node → ∃ s', step s (.remove node) = some (s', .nothing) ∧
        s'.links.next node = none ∧ s'.links.prev node = none := by
  have rep := reachableRepresents reach
  refine ⟨rep, fun call allowed => ?_, fun node removable => ?_⟩
  · obtain ⟨l', ran, -⟩ := callRepresents rep allowed
    exact ⟨⟨l', _⟩, by rw [step, ran]; rfl, rfl⟩
  · obtain ⟨l', removed, -, null⟩ := removeRepresents rep removable
    exact ⟨⟨l', _⟩, by rw [step, Call.run, removed]; rfl, null⟩

def twoLists (xs : List Nat) : Contents Nat := fun head => if head = 0 then some xs else if head = 1 then some [] else none

theorem twoListsGrow {xs : List Nat} {node : Nat} (fresh : node ∉ 0 :: 1 :: xs)
    (before : ∃ s, Reachable Starts step Allowed s ∧ s.lists = twoLists xs) :
    ∃ s, Reachable Starts step Allowed s ∧ s.lists = twoLists (xs ++ [node]) := by
  obtain ⟨s, reach, lists⟩ := before
  simp only [List.mem_cons, not_or] at fresh
  have outside : ¬Member s.lists node := by
    rintro ⟨head, ys, here, inside⟩
    rw [lists, twoLists] at here
    split_ifs at here with zero one
    · cases here
      exact fresh.2.2 inside
    · cases here
      contradiction
  obtain ⟨-, answers, -⟩ := circlesKept reach
  have allowed : Allowed s (.pushBack 0 node) :=
    ⟨by rw [lists]; rfl, fun same => fresh.1 same.symm, outside, .inl (by rw [lists]; simp [twoLists, fresh])⟩
  obtain ⟨s', taken, after⟩ := answers _ allowed
  refine ⟨s', reach.next allowed taken, ?_⟩
  rw [after, lists]
  funext head
  by_cases zero : head = 0
  · simp [Call.prescribed, put, twoLists, zero]
  · by_cases same : head = node
    · subst same
      simp [Call.prescribed, put, twoLists, zero, fresh.2.1]
    · simp [Call.prescribed, put, twoLists, zero, same]

/- Of the two nodes of one list the body of a traversal moves the first to another list and
takes out the second. -/
theorem walkMovesNode : ∃ s s' : State Nat, s.lists 0 = some [5, 6] ∧
    step s (.forEachSafe .forward 0 (fun node => if node = 5 then .moveBack 1 else .remove) 3) = some (s', .visited [5, 6]) ∧
      s'.lists 0 = some [] ∧ s'.lists 1 = some [5] := by
  have nothing : Reachable Starts step Allowed (⟨⟨fun _ => none, fun _ => none⟩, fun _ => none⟩ : State Nat) := .start rfl
  have one := Reachable.next (a := Call.init 0) nothing (by rintro ⟨h, xs, here, -⟩; cases here) rfl
  have two := Reachable.next (a := Call.init 1) one (by
    rintro ⟨h, xs, here, inside⟩
    by_cases zero : h = 0 <;> simp [Call.prescribed, zero] at here
    simp [here] at inside) rfl
  have empty : ∃ s : State Nat, Reachable Starts step Allowed s ∧ s.lists = twoLists [] := by
    refine ⟨_, two, ?_⟩
    funext head
    by_cases first : head = 1 <;> by_cases zero : head = 0 <;> simp [Call.prescribed, twoLists, first, zero]
  have first : ∃ s : State Nat, Reachable Starts step Allowed s ∧ s.lists = twoLists [5] := twoListsGrow (by decide) empty
  have second : ∃ s : State Nat, Reachable Starts step Allowed s ∧ s.lists = twoLists [5, 6] := twoListsGrow (by decide) first
  obtain ⟨s, reach, lists⟩ := second
  obtain ⟨-, answers, -⟩ := circlesKept reach
  have allowed : Allowed s (.forEachSafe .forward 0 (fun node => if node = 5 then .moveBack 1 else .remove) 3) := by
    refine ⟨by rw [lists]; rfl, by rw [lists]; decide, fun node _ target same => ?_⟩
    dsimp only at same
    split_ifs at same
    cases same
    exact ⟨by decide, by rw [lists]; rfl⟩
  obtain ⟨s', taken, after⟩ := answers _ allowed
  rw [lists] at taken after
  exact ⟨s, s', by rw [lists]; rfl, taken, by rw [after]; rfl, by rw [after]; rfl⟩

end Runs

end Nanosig.Lists
