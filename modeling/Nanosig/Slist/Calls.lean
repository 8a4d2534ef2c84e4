import Nanosig.Slist.Slist

/-! What each call does to the chains of the lists. -/
namespace Nanosig.Slist
open LinkedPath

variable {η α : Type} [DecidableEq η] [DecidableEq α]

structure Holds (m : Memory η α) (list : η) (nodes : List α) : Prop where
  linked : Path Place.node m.next (.head list) nodes none
  last : m.last list = nodes.getLast?.map .node
  distinct : nodes.Nodup

structure Represents (m : Memory η α) (lists : η → List α) : Prop where
  holds : ∀ list, Holds m list (lists list)
  apart : ∀ {list other node}, node ∈ lists list → node ∈ lists other → list = other

def Own (lists : η → List α) (list : η) : Place η α → Prop
  | .head other => other = list
  | .node node => node ∈ lists list ∨ Unlinked lists node

section Places

variable {m m' : Memory η α} {lists : η → List α} {list other : η} {nodes A B : List α} {node : α}

omit [DecidableEq η] [DecidableEq α] in
theorem placesDistinct (distinct : nodes.Nodup) : (Place.head list :: nodes.map Place.node).Nodup := by
  refine List.nodup_cons.mpr ⟨by simp, distinct.map fun a b same => ?_⟩
  cases same
  rfl

omit [DecidableEq η] [DecidableEq α] in
theorem lastPlaceOf : lastPlace Place.node (.head list) nodes = (nodes.getLast?.map Place.node).getD (.head list) := by
  rcases List.eq_nil_or_concat nodes with rfl | ⟨init, x, rfl⟩
  · rfl
  · rw [lastPlaceLast (x := x) (by simp)]
    simp

omit [DecidableEq η] [DecidableEq α] in
theorem Holds.congr (holds : Holds m list nodes) (same : ∀ p ∈ Place.head list :: nodes.map Place.node, m'.next p = m.next p)
    (last : m'.last list = m.last list) : Holds m' list nodes :=
  ⟨holds.linked.congr same, last.trans holds.last, holds.distinct⟩

omit [DecidableEq η] [DecidableEq α] in
theorem Holds.empty (holds : Holds m list nodes) : Slist.empty m list = nodes.isEmpty := by
  rw [Slist.empty, holds.linked.first]
  cases nodes <;> rfl

theorem setNextOther {p q : Place η α} {value : Option α} (apart : p ≠ q) : (m.setNext q value).next p = m.next p :=
  Function.update_of_ne apart ..

theorem setNextSelf {p : Place η α} {value : Option α} : (m.setNext p value).next p = value := Function.update_self ..

omit [DecidableEq η] [DecidableEq α] in
theorem notOwn (rep : Represents m lists) (differs : other ≠ list) :
    ∀ p ∈ Place.head other :: (lists other).map Place.node, ¬Own lists list p := by
  intro p member own
  rcases List.mem_cons.mp member with rfl | member
  · exact differs own
  · obtain ⟨x, inside, rfl⟩ := List.mem_map.mp member
    rcases own with mine | free
    · exact differs (rep.apart inside mine)
    · exact free other inside

omit [DecidableEq α] in
theorem Represents.change (rep : Represents m lists) (holds : Holds m' list nodes)
    (from_ : ∀ x ∈ nodes, x ∈ lists list ∨ Unlinked lists x) (same : ∀ p, ¬Own lists list p → m'.next p = m.next p)
    (last : ∀ other, other ≠ list → m'.last other = m.last other) : Represents m' (Function.update lists list nodes) := by
  refine ⟨fun other => ?_, fun {one two x} first second => ?_⟩
  · by_cases here : other = list
    · subst here
      rw [Function.update_self]
      exact holds
    · rw [Function.update_of_ne here]
      exact (rep.holds other).congr (fun p member => same p (notOwn rep here p member)) (last other here)
  · have outside {other : η} (inside : x ∈ nodes) (differs : other ≠ list) (member : x ∈ lists other) : False := by
      rcases from_ x inside with mine | free
      · exact differs (rep.apart member mine)
      · exact free other member
    by_cases hereOne : one = list <;> by_cases hereTwo : two = list
    · rw [hereOne, hereTwo]
    · subst hereOne
      rw [Function.update_self] at first
      rw [Function.update_of_ne hereTwo] at second
      exact (outside first hereTwo second).elim
    · subst hereTwo
      rw [Function.update_self] at second
      rw [Function.update_of_ne hereOne] at first
      exact (outside second hereOne first).elim
    · rw [Function.update_of_ne hereOne] at first
      rw [Function.update_of_ne hereTwo] at second
      exact rep.apart first second

theorem Represents.write (rep : Represents m lists) (free : Unlinked lists node) (value : Option α) :
    Represents (m.setNext (.node node) value) lists := by
  refine ⟨fun list => (rep.holds list).congr (fun p member => setNextOther fun same => ?_) rfl, rep.apart⟩
  subst same
  obtain ⟨x, inside, same⟩ := List.mem_map.mp ((List.mem_cons.mp member).resolve_left (by simp))
  cases same
  exact free list inside

omit [DecidableEq η] [DecidableEq α] in
theorem lastPlaceIn {y : α} (same : lastPlace Place.node (.head list) A = .node y) : y ∈ A := by
  have member : lastPlace Place.node (.head list) A ∈ Place.head list :: A.map Place.node := lastPlaceMember
  rw [same] at member
  simpa using member

omit [DecidableEq η] [DecidableEq α] in
theorem ownLast (split : lists list = A ++ B) : Own lists list (lastPlace Place.node (.head list) A) := by
  cases same : lastPlace Place.node (Place.head list) A with
  | head other =>
    rw [lastPlaceOf] at same
    cases final : A.getLast? <;> simp only [final, Option.map_none, Option.map_some, Option.getD_none, Option.getD_some] at same
    · cases same
      exact rfl
    · cases same
  | node y => exact .inl (split ▸ List.mem_append_left _ (lastPlaceIn same))

theorem Represents.link (rep : Represents m lists) (m' : Memory η α) (split : lists list = A ++ B) {newFirst newLast : α} {rest : List α}
    {stop : Option α} (batch : Path Place.node m.next (.node newFirst) rest stop) (distinct : (newFirst :: rest).Nodup)
    (ends : (newFirst :: rest).getLast? = some newLast) (free : ∀ x ∈ newFirst :: rest, Unlinked lists x)
    (next : m'.next = Function.update (Function.update m.next (.node newLast) (m.next (lastPlace Place.node (.head list) A)))
      (lastPlace Place.node (.head list) A) (some newFirst))
    (lastHere : m'.last list = (A ++ (newFirst :: rest) ++ B).getLast?.map .node)
    (lastOther : ∀ other, other ≠ list → m'.last other = m.last other) :
    Represents m' (Function.update lists list (A ++ (newFirst :: rest) ++ B)) := by
  have holds := rep.holds list
  rw [split] at holds
  obtain ⟨linked, -, distinctAB⟩ := holds
  obtain ⟨front, back⟩ := pathAppend.mp linked
  obtain ⟨distinctA, distinctB, apartAB⟩ := List.nodup_append.mp distinctAB
  have outside {x : α} (member : x ∈ A ++ B) : x ∉ newFirst :: rest := fun inBatch => free x inBatch list (split ▸ member)
  have lastIn : newLast ∈ newFirst :: rest := List.mem_of_getLast? ends
  have lastBatch : lastPlace Place.node (Place.node (η := η) newFirst) rest = .node newLast :=
    show lastPlace Place.node (Place.node (η := η) newFirst) (newFirst :: rest) = _ from lastPlaceLast ends
  have apart : Place.node newLast ≠ lastPlace Place.node (.head list) A := fun same =>
    outside (List.mem_append_left _ (lastPlaceIn same.symm)) lastIn
  refine rep.change ⟨?_, lastHere, ?_⟩ (fun x member => ?_) (fun p foreign => ?_) lastOther
  · rw [next]
    refine pathAppend.mpr ⟨pathCons.mpr ⟨?_, ?_⟩, ?_⟩
    · refine (front.unchanged ?_ _).redirect (placesDistinct distinctA) _
      simpa using fun inA => outside (List.mem_append_left _ inA) lastIn
    · rw [← back.first, ← lastBatch]
      refine (batch.redirect ?_ _).unchanged (fun member => ?_) _
      · exact (show ((newFirst :: rest).map Place.node).Nodup from distinct.map fun a b same => by cases same; rfl)
      · obtain ⟨x, inBatch, same⟩ := List.mem_map.mp (show _ ∈ (newFirst :: rest).map Place.node from member)
        exact outside (List.mem_append_left _ (lastPlaceIn same.symm)) inBatch
    · rw [lastPlaceAppend, lastPlace, lastBatch]
      refine back.moved ?_ fun r member => ?_
      · rw [Function.update_of_ne apart, Function.update_self]
      · obtain ⟨y, inB, rfl⟩ := List.mem_map.mp member
        have apartA : Place.node y ≠ lastPlace Place.node (.head list) A := fun same =>
          apartAB y (lastPlaceIn same.symm) y inB rfl
        have apartLast : Place.node y ≠ .node (η := η) newLast := fun same => by
          cases same
          exact outside (List.mem_append_right _ inB) lastIn
        rw [Function.update_of_ne apartA, Function.update_of_ne apartLast]
  · rw [List.append_assoc]
    refine distinctA.append (distinct.append distinctB fun x inBatch inB => ?_) fun x inA member => ?_
    · exact outside (List.mem_append_right _ inB) inBatch
    · rcases List.mem_append.mp member with inBatch | inB
      · exact outside (List.mem_append_left _ inA) inBatch
      · exact apartAB x inA x inB rfl
  · rw [split]
    rcases List.mem_append.mp member with first | inB
    · rcases List.mem_append.mp first with inA | inBatch
      · exact .inl (List.mem_append_left _ inA)
      · exact .inr (free x inBatch)
    · exact .inl (List.mem_append_right _ inB)
  · have other {q : Place η α} (own : Own lists list q) : p ≠ q := fun same => foreign (same ▸ own)
    have ownNew : Own lists list (.node newLast) := .inr (free newLast lastIn)
    rw [next, Function.update_of_ne (other (ownLast split)), Function.update_of_ne (other ownNew)]

theorem Represents.unlink (rep : Represents m lists) (m' : Memory η α) {x : α} (split : lists list = A ++ x :: B)
    (next : m'.next = Function.update m.next (lastPlace Place.node (.head list) A) (m.next (.node x)))
    (lastHere : m'.last list = (A ++ B).getLast?.map .node) (lastOther : ∀ other, other ≠ list → m'.last other = m.last other) :
    Represents m' (Function.update lists list (A ++ B)) := by
  have holds := rep.holds list
  rw [split] at holds
  obtain ⟨front, back⟩ := pathCons.mp holds.linked
  have distinct := holds.distinct
  obtain ⟨distinctA, distinctB, apartAB⟩ := List.nodup_append.mp distinct
  refine rep.change ⟨?_, lastHere, ?_⟩ (fun y member => .inl ?_) (fun p foreign => ?_) lastOther
  · rw [next]
    refine pathAppend.mpr ⟨?_, back.moved (Function.update_self ..) fun r member => ?_⟩
    · rw [← back.first]
      exact front.redirect (placesDistinct distinctA) _
    · obtain ⟨y, inB, rfl⟩ := List.mem_map.mp member
      exact Function.update_of_ne
        (fun same : Place.node y = _ => apartAB y (lastPlaceIn same.symm) y (List.mem_cons_of_mem _ inB) rfl) ..
  · exact distinct.sublist ((List.sublist_cons_self x B).append_left A)
  · rw [split]
    exact (List.Sublist.subset ((List.sublist_cons_self x B).append_left A)) member
  · have own : Own lists list (lastPlace Place.node (.head list) A) := ownLast split
    rw [next, Function.update_of_ne fun same : p = _ => foreign (same ▸ own)]

omit [DecidableEq η] [DecidableEq α] in
theorem Holds.place (holds : Holds m list nodes) :
    lastPlace Place.node (.head list) nodes = (m.last list).getD (.head list) := by
  rw [lastPlaceOf, holds.last]

omit [DecidableEq η] [DecidableEq α] in
theorem Holds.lastIs (holds : Holds m list nodes) {x : α} (split : nodes = A ++ x :: B) :
    m.next (.node x) = B.head? ∧ (m.last list = some (.node x) ↔ B = []) := by
  subst split
  refine ⟨?_, ?_⟩
  · rw [(pathCons.mp holds.linked).2.first, Option.or_none]
  · have distinct := (List.nodup_cons.mp (List.nodup_append.mp holds.distinct).2.1).1
    rw [holds.last, List.getLast?_append]
    cases B with
    | nil => simp
    | cons y B =>
      have behind : x ≠ (y :: B).getLast (List.cons_ne_nil _ _) := fun same => distinct (same ▸ List.getLast_mem _)
      simp [List.getLast?_cons_cons, List.getLast?_eq_some_getLast (List.cons_ne_nil y B), behind.symm]

omit [DecidableEq α] in
theorem Represents.takenOut (rep : Represents m lists) {x : α} (split : lists list = A ++ x :: B) :
    Unlinked (Function.update lists list (A ++ B)) x := by
  intro other member
  have inside : x ∈ lists list := by simp [split]
  by_cases here : other = list
  · subst here
    rw [Function.update_self] at member
    have distinct := (rep.holds other).distinct
    rw [split] at distinct
    exact (List.nodup_middle.mp distinct).notMem member
  · rw [Function.update_of_ne here] at member
    exact here (rep.apart member inside)

omit [DecidableEq α] in
theorem Represents.emptied (rep : Represents m lists) {x : α} (member : x ∈ lists list) :
    Unlinked (Function.update lists list []) x := by
  intro other inside
  by_cases here : other = list
  · simp [here] at inside
  · rw [Function.update_of_ne here] at inside
    exact here (rep.apart inside member)

end Places

section Calls

variable {m : Memory η α} {lists : η → List α} {list : η}

theorem initRepresents (rep : Represents m lists) (list : η) : Represents (init m list) (Function.update lists list []) := by
  refine rep.change ⟨setNextSelf, Function.update_self .., List.nodup_nil⟩ nofun (fun p foreign => ?_) fun other differs => ?_
  · exact setNextOther fun same => foreign (same ▸ rfl)
  · exact Function.update_of_ne differs ..

theorem headMoveInitRepresents (rep : Represents m lists) (oldList newList : η) :
    Represents (headMoveInit m oldList newList) (Function.update (Function.update lists newList (lists oldList)) oldList []) := by
  have emptied := initRepresents rep oldList
  by_cases same : newList = oldList
  · subst same
    have as_init : headMoveInit m newList newList = init m newList := by
      simp [headMoveInit, init, Memory.setNext, Memory.setLast]
    rw [as_init, Function.update_idem]
    exact emptied
  · have holds := rep.holds oldList
    have headApart : Place.head (α := α) newList ≠ .head oldList := fun same' => same (by cases same'; rfl)
    rw [Function.update_comm same]
    refine emptied.change ⟨?_, ?_, holds.distinct⟩ (fun x member => .inr (rep.emptied member)) (fun p foreign => ?_)
      fun other differs => ?_
    · refine holds.linked.moved ?_ fun r member => ?_
      · simp [headMoveInit, Memory.setNext, Memory.setLast, headApart]
      · obtain ⟨x, -, rfl⟩ := List.mem_map.mp member
        simp [headMoveInit, Memory.setNext, Memory.setLast]
    · simp [headMoveInit, Memory.setNext, Memory.setLast, same, holds.last]
    · have apart : p ≠ .head newList := fun same => foreign (same ▸ rfl)
      by_cases old : p = .head oldList
      · simp [headMoveInit, init, Memory.setNext, Memory.setLast, old]
      · simp [headMoveInit, init, Memory.setNext, Memory.setLast, old, apart]
    · by_cases old : other = oldList
      · simp [headMoveInit, init, Memory.setNext, Memory.setLast, old]
      · simp [headMoveInit, init, Memory.setNext, Memory.setLast, old, differs]

omit [DecidableEq α] in
theorem batchParts {newFirst newLast : α} {batch : List α} (first : batch.head? = some newFirst)
    (last : batch.getLast? = some newLast) : ∃ rest, batch = newFirst :: rest ∧ (newFirst :: rest).getLast? = some newLast := by
  obtain ⟨rest, rfl⟩ := List.head?_eq_some_iff.mp first
  exact ⟨rest, rfl, last⟩

theorem addBatchRepresents (rep : Represents m lists) {newFirst newLast : α} {batch : List α}
    (given : IsBatch ⟨m, lists⟩ newFirst newLast batch) (list : η) :
    Represents (addBatch m newFirst newLast list).1 (Function.update lists list (batch ++ lists list)) ∧
      (addBatch m newFirst newLast list).2 = (lists list).isEmpty := by
  obtain ⟨first, last, linked, distinct, free⟩ := given
  obtain ⟨rest, rfl, ends⟩ := batchParts first last
  have linked : Path Place.node m.next (.node newFirst) rest _ := linked
  have holds := rep.holds list
  have flag := holds.empty
  refine ⟨?_, flag⟩
  have linking := rep.link (addBatch m newFirst newLast list).1 (A := []) (B := lists list) rfl linked distinct ends free
  refine linking ?_ ?_ fun other differs => ?_
  · unfold addBatch
    dsimp only
    split <;> rfl
  · unfold addBatch
    simp only [flag]
    cases nodes : lists list with
    | nil => simp [Memory.setNext, Memory.setLast, ends]
    | cons x xs =>
      rw [List.getLast?_append_of_ne_nil _ (List.cons_ne_nil x xs), ← nodes, ← holds.last, nodes]
      rfl
  · unfold addBatch
    dsimp only
    split
    · exact Function.update_of_ne differs ..
    · rfl

theorem addBatchTailRepresents (rep : Represents m lists) {newFirst newLast : α} {batch : List α}
    (given : IsBatch ⟨m, lists⟩ newFirst newLast batch) (list : η) :
    Represents (addBatchTail m newFirst newLast list).1 (Function.update lists list (lists list ++ batch)) ∧
      (addBatchTail m newFirst newLast list).2 = (lists list).isEmpty := by
  obtain ⟨first, last, linked, distinct, free⟩ := given
  obtain ⟨rest, rfl, ends⟩ := batchParts first last
  have linked : Path Place.node m.next (.node newFirst) rest _ := linked
  have holds := rep.holds list
  have written : addBatchTail m newFirst newLast list =
      ((((m.setNext (.node newLast) none).setNext (lastPlace Place.node (.head list) (lists list)) (some newFirst)).setLast list
        (some (.node newLast))), (lists list).isEmpty) := by
    rw [holds.place, ← holds.empty]
    unfold addBatchTail
    cases final : m.last list <;> simp [Memory.setNext, final]
  rw [written]
  refine ⟨?_, rfl⟩
  have linking := rep.link (((m.setNext (.node newLast) none).setNext (lastPlace Place.node (.head list) (lists list))
    (some newFirst)).setLast list (some (.node newLast))) (A := lists list) (B := []) (List.append_nil _).symm linked distinct ends free
  rw [List.append_nil] at linking
  refine linking ?_ ?_ fun other differs => Function.update_of_ne differs ..
  · rw [holds.linked.ends]
    rfl
  · rw [List.getLast?_append, ends]
    exact Function.update_self ..

omit [DecidableEq η] [DecidableEq α] in
theorem singleBatch {node : α} (free : Unlinked lists node) : IsBatch ⟨m, lists⟩ node node [node] where
  first := rfl
  last := rfl
  linked := rfl
  distinct := List.nodup_singleton node
  unlinked := by simpa using free

theorem pushFrontRepresents (rep : Represents m lists) {node : α} (free : Unlinked lists node) (list : η) :
    Represents (pushFront m list node).1 (Function.update lists list (node :: lists list)) ∧
      (pushFront m list node).2 = (lists list).isEmpty := by
  have holds := rep.holds list
  have same : pushFront m list node = addBatch m node node list := by
    have both : m.last list = none ↔ empty m list = true := by
      rw [holds.empty, holds.last]
      simp
    unfold pushFront addBatch
    simp only [Memory.setNext, both]
  rw [same]
  exact addBatchRepresents rep (singleBatch free) list

theorem pushBackRepresents (rep : Represents m lists) {node : α} (free : Unlinked lists node) (list : η) :
    Represents (pushBack m list node).1 (Function.update lists list (lists list ++ [node])) ∧
      (pushBack m list node).2 = (lists list).isEmpty :=
  addBatchTailRepresents rep (singleBatch free) list

omit [DecidableEq η] in
theorem upToBehind {prev : Option α} {nodes : List α} (inside : ∀ p, prev = some p → p ∈ nodes) (list : η) :
    nodes = upTo prev nodes ++ behind prev nodes ∧ (upTo prev nodes).getLast? = prev ∧
      lastPlace Place.node (.head list) (upTo prev nodes) = prev.elim (.head list) .node := by
  have final : (upTo prev nodes).getLast? = prev := by
    cases prev <;> simp [upTo]
  refine ⟨?_, final, ?_⟩
  · cases prev with
    | none => rfl
    | some p =>
      have member := inside p rfl
      clear final inside
      induction nodes with
      | nil => simp at member
      | cons x nodes ih =>
        by_cases here : x = p
        · simp [upTo, behind, here]
        · have further := ih ((List.mem_cons.mp member).resolve_left (Ne.symm here))
          simp only [upTo, behind] at further ⊢
          simp only [ne_eq, here, not_false_eq_true, decide_true, List.takeWhile_cons_of_pos, List.dropWhile_cons_of_pos,
            List.cons_append, List.cons.injEq, true_and]
          exact further
  · rw [lastPlaceOf, final]
    cases prev <;> rfl

omit [DecidableEq η] in
theorem Holds.nextBehind (holds : Holds m list (lists list)) {prev : Option α} (inside : ∀ p, prev = some p → p ∈ lists list) :
    m.next (prev.elim (.head list) .node) = (behind prev (lists list)).head? := by
  obtain ⟨split, -, place⟩ := upToBehind inside list
  have path := holds.linked
  rw [split] at path
  have second := (pathAppend.mp path).2.first
  rwa [place, Option.or_none] at second

theorem insertRepresents (rep : Represents m lists) {prev : Option α} {node : α} (free : Unlinked lists node) {list : η}
    (inside : ∀ p, prev = some p → p ∈ lists list) :
    Represents (insert m prev node list)
      (Function.update lists list (upTo prev (lists list) ++ node :: behind prev (lists list))) := by
  obtain ⟨split, final, place⟩ := upToBehind inside list
  cases prev with
  | none => exact (pushFrontRepresents rep free list).1
  | some p =>
    have holds := rep.holds list
    have next : m.next (.node p) = (behind (some p) (lists list)).head? := holds.nextBehind inside
    have apart : Place.node (η := η) node ≠ .node p := fun same => free list (by cases same; exact inside _ rfl)
    have alone : Path Place.node m.next (.node node) [] (m.next (.node node)) := rfl
    have linking := rep.link (insert m (some p) node list) split alone (List.nodup_singleton _) rfl (by simpa using free)
    rw [List.append_assoc, List.singleton_append] at linking
    have link : (insert m (some p) node list) = if m.next (.node p) = none then
        (((m.setNext (.node node) (m.next (.node p))).setNext (.node p) (some node)).setLast list (some (.node node)))
        else (m.setNext (.node node) (m.next (.node p))).setNext (.node p) (some node) := by
      simp only [insert, setNextOther apart, setNextSelf]
    refine linking ?_ ?_ fun other differs => ?_
    · rw [link, place]
      split <;> rfl
    · rw [link, next]
      cases rest : behind (some p) (lists list) with
      | nil => simp [Memory.setLast]
      | cons x xs =>
        have last : (upTo (some p) (lists list) ++ node :: x :: xs).getLast? = (lists list).getLast? := by
          conv_rhs => rw [split, rest]
          simp [List.getLast?_append, List.getLast?_cons_cons]
        rw [last, ← holds.last]
        rfl
    · rw [link]
      split
      · exact Function.update_of_ne differs ..
      · rfl

theorem removeAfterRepresents (rep : Represents m lists) (list : η) (prev : Option α)
    (inside : ∀ p, prev = some p → p ∈ lists list) :
    Represents (removeAfter m list prev).1
        (Function.update lists list (upTo prev (lists list) ++ (behind prev (lists list)).tail)) ∧
      (removeAfter m list prev).2 = (behind prev (lists list)).head? := by
  obtain ⟨split, final, place⟩ := upToBehind inside list
  have holds := rep.holds list
  have next := holds.nextBehind inside
  cases rest : behind prev (lists list) with
  | nil =>
    rw [rest, List.append_nil] at split
    have unchanged : removeAfter m list prev = (m, none) := by simp [removeAfter, next, rest]
    rw [unchanged, List.tail_nil, List.append_nil, ← split, Function.update_eq_self]
    exact ⟨rep, rfl⟩
  | cons x B =>
    rw [rest] at split next
    obtain ⟨-, isLast⟩ := holds.lastIs split
    let m₁ := m.setNext (prev.elim (.head list) .node) (m.next (.node x))
    let m₂ := if m₁.last list = some (.node x) then m₁.setLast list (prev.map .node) else m₁
    have removed : removeAfter m list prev = (nodeInit m₂ x, some x) := by simp [removeAfter, next, m₁, m₂]
    have unlinked := rep.unlink m₂ split
    rw [removed]
    refine ⟨(unlinked ?_ ?_ fun other differs => ?_).write (rep.takenOut split) none, rfl⟩
    · rw [place]
      dsimp only [m₂]
      split <;> rfl
    · have last : m₁.last list = m.last list := rfl
      by_cases ends : B = []
      · dsimp only [m₂]
        rw [if_pos (last.trans (isLast.mpr ends)), ends, List.append_nil, final]
        exact Function.update_self ..
      · dsimp only [m₂]
        rw [if_neg (fun same => ends (isLast.mp (last.symm.trans same))), last, holds.last, split]
        have kept : x :: B = [x] ++ B := rfl
        rw [kept, ← List.append_assoc, List.getLast?_append_of_ne_nil _ ends, List.getLast?_append_of_ne_nil _ ends]
    · dsimp only [m₂]
      split
      · exact Function.update_of_ne differs ..
      · rfl

theorem popFrontRepresents (rep : Represents m lists) (list : η) :
    Represents (popFront m list).1 (Function.update lists list (lists list).tail) ∧
      (popFront m list).2 = (lists list).head? := by
  have removed := removeAfterRepresents rep list none nofun
  have holds := rep.holds list
  have same : popFront m list = removeAfter m list none := by
    cases nodes : lists list with
    | nil =>
      have first : m.next (.head list) = none := by rw [holds.linked.first, nodes]; rfl
      simp [popFront, removeAfter, first]
    | cons x B =>
      have first : m.next (.head list) = some x := by rw [holds.linked.first, nodes]; rfl
      obtain ⟨next, isLast⟩ := holds.lastIs (A := []) nodes
      have both : (m.setNext (.head list) (m.next (.node x))).next (.head list) = none ↔
          m.last list = some (.node x) := by
        rw [setNextSelf, next, isLast, List.head?_eq_none_iff]
      simp only [popFront, removeAfter, first, both, Option.elim_none, Option.map_none]
      rfl
  rw [same]
  exact removed

theorem appendListRepresents (rep : Represents m lists) {list other : η} (differ : list ≠ other) :
    Represents (appendList m list other)
      (Function.update (Function.update lists list (lists list ++ lists other)) other []) := by
  have holds := rep.holds list
  have source := rep.holds other
  cases nodes : lists other with
  | nil =>
    have unchanged : appendList m list other = m := by simp [appendList, source.empty, nodes]
    rw [unchanged, List.append_nil, Function.update_eq_self, ← nodes, Function.update_eq_self]
    exact rep
  | cons first rest =>
    -- the other list is emptied, then its nodes go behind those of the list as a batch
    have emptied := initRepresents rep other
    have others : Function.update lists other [] list = lists list := Function.update_of_ne differ ..
    have apart : lastPlace Place.node (.head list) (lists list) ≠ .head other := by
      rw [lastPlaceOf]
      cases (lists list).getLast? <;> simp [differ]
    have starts : m.next (.head other) = some first := by rw [source.linked.first, nodes]; rfl
    have path : Path Place.node m.next (.node first) rest none := by
      have linked := source.linked
      rw [nodes] at linked
      exact linked.2
    obtain ⟨newLast, ends⟩ : ∃ newLast, (first :: rest).getLast? = some newLast :=
      ⟨_, List.getLast?_eq_some_getLast (List.cons_ne_nil _ _)⟩
    have written : appendList m list other =
        init ((m.setNext (lastPlace Place.node (.head list) (lists list)) (some first)).setLast list (m.last other)) other := by
      rw [holds.place]
      have full : empty m other = false := by rw [source.empty, nodes]; rfl
      have flag := holds.empty
      have last := holds.last
      cases here : lists list with
      | nil =>
        rw [here] at flag last
        simp [appendList, full, flag, last, starts, Memory.setNext, Memory.setLast]
      | cons x xs =>
        rw [here] at flag last
        rw [List.getLast?_eq_some_getLast (List.cons_ne_nil x xs)] at last
        simp [appendList, full, flag, last, starts, Memory.setNext]
    have split : Function.update lists other [] list = lists list ++ [] := by rw [others, List.append_nil]
    have batch : Path Place.node (init m other).next (.node first) rest none := path.unchanged (by simp) none
    have linking := emptied.link (appendList m list other) split batch (by rw [← nodes]; exact source.distinct) ends
      fun x member => rep.emptied (nodes ▸ member)
    rw [List.append_nil] at linking
    rw [Function.update_comm differ]
    refine linking ?_ ?_ fun third away => ?_
    · have lastBatch : lastPlace Place.node (Place.node (η := η) first) rest = .node newLast :=
        show lastPlace Place.node (Place.node (η := η) first) (first :: rest) = _ from lastPlaceLast ends
      have behindLast : (init m other).next (.node newLast) = none := by
        rw [← lastBatch]
        exact (path.unchanged (by simp) none).ends
      have behindList : (init m other).next (lastPlace Place.node (.head list) (lists list)) = none := by
        rw [← holds.linked.ends]
        exact setNextOther apart
      rw [behindList, ← behindLast, Function.update_eq_self, written]
      exact Function.update_comm apart ..
    · rw [written, List.getLast?_append, ends]
      have last := source.last
      rw [nodes, ends] at last
      simp [init, Memory.setNext, Memory.setLast, differ, last]
    · rw [written]
      by_cases there : third = other
      · simp [init, Memory.setNext, Memory.setLast, there]
      · simp [init, Memory.setNext, Memory.setLast, there, away]

end Calls

end Nanosig.Slist
