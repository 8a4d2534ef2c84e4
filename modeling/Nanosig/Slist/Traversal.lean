import Nanosig.Slist.Calls

/-! The traversal that deletes, and whole runs: in every reachable state the lists are the
node sequences that the calls prescribe. -/
namespace Nanosig.Slist
open LinkedPath TransitionSystem

variable {η α : Type} [DecidableEq η] [DecidableEq α]

section Loop

variable {m : Memory η α} {lists : η → List α} {list : η}

theorem delRepresents (rep : Represents m lists) {A B : List α} {x : α} (split : lists list = A ++ x :: B) :
    Represents (delNodeInForEachSafe m list (some (lastPlace Place.node (.head list) A)) B.head?)
      (Function.update lists list (A ++ B)) := by
  have holds := rep.holds list
  obtain ⟨next, -⟩ := holds.lastIs split
  let m₁ := m.setNext (lastPlace Place.node (.head list) A) B.head?
  have deleted : delNodeInForEachSafe m list (some (lastPlace Place.node (.head list) A)) B.head? =
      if B.head? = none then
        m₁.setLast list (if m₁.next (.head list) = none then none else some (lastPlace Place.node (.head list) A))
      else m₁ := rfl
  rw [deleted]
  refine rep.unlink _ split ?_ ?_ fun other differs => ?_
  · rw [next]
    split <;> rfl
  · cases B with
    | nil =>
      rw [if_pos List.head?_nil, List.append_nil]
      refine (Function.update_self ..).trans ?_
      rcases List.eq_nil_or_concat A with rfl | ⟨init, y, rfl⟩
      · exact if_pos setNextSelf
      · -- the head still leads to the first of the nodes that are left
        have apart : Place.head list ≠ lastPlace Place.node (.head list) (init.concat y) := by
          rw [lastPlaceOf]
          simp
        have first : m₁.next (.head list) ≠ none := by
          rw [setNextOther apart, holds.linked.first, split]
          cases init <;> simp
        rw [if_neg first, lastPlaceOf]
        simp
    | cons y B =>
      have ends : y :: B ≠ [] := List.cons_ne_nil y B
      have kept : x :: y :: B = [x] ++ y :: B := rfl
      have last : m.last list = (y :: B).getLast?.map .node := by
        rw [holds.last, split, kept, ← List.append_assoc, List.getLast?_append_of_ne_nil _ ends]
      rw [if_neg (by simp), List.getLast?_append_of_ne_nil _ ends]
      exact last
  · split
    · exact Function.update_of_ne differs ..
    · rfl

theorem forEachSafeFromVisits (rep : Represents m lists) {A B : List α} (split : lists list = A ++ B) (body : Body α)
    {fuel : Nat} (enough : B.length < fuel) (visited : List α) :
    ∃ m', forEachSafeFrom list body fuel m (lastPlace Place.node (.head list) A) B.head? visited = some (m', visited ++ B) ∧
      Represents m' (Function.update lists list (A ++ B.filter (¬body.deletes ·))) := by
  induction B generalizing m lists A fuel visited with
  | nil =>
    obtain ⟨fuel, rfl⟩ : ∃ more, fuel = more + 1 := ⟨fuel - 1, by simp at enough; omega⟩
    refine ⟨m, by simp [forEachSafeFrom], ?_⟩
    rw [List.filter_nil, ← split, Function.update_eq_self]
    exact rep
  | cons x B ih =>
    obtain ⟨fuel, rfl⟩ : ∃ more, fuel = more + 1 := ⟨fuel - 1, by simp at enough; omega⟩
    have enough : B.length < fuel := by simpa using enough
    obtain ⟨next, -⟩ := (rep.holds list).lastIs split
    rw [show visited ++ x :: B = visited ++ [x] ++ B by simp]
    cases deletes : body.deletes x with
    | true =>
      let m₁ := delNodeInForEachSafe m list (some (lastPlace Place.node (.head list) A)) B.head?
      let m₂ := m₁.setNext (.node x) (body.leaves x (m₁.next (.node x)))
      have deleted : Represents m₂ (Function.update lists list (A ++ B)) :=
        (delRepresents rep split).write (rep.takenOut split) _
      have here : Function.update lists list (A ++ B) list = A ++ B := Function.update_self ..
      have prev : m₂.next (lastPlace Place.node (.head list) A) = B.head? := by
        have path := (deleted.holds list).linked
        rw [here] at path
        rw [(pathAppend.mp path).2.first, Option.or_none]
      obtain ⟨m', ran, rest⟩ := ih deleted here enough (visited ++ [x])
      rw [Function.update_idem] at rest
      refine ⟨m', ?_, ?_⟩
      · simp only [List.head?_cons, forEachSafeFrom, deletes, if_true, next]
        rw [if_pos prev]
        exact ran
      · simpa [List.filter_cons, deletes] using rest
    | false =>
      have path := (rep.holds list).linked
      have distinct := (rep.holds list).distinct
      rw [split] at path distinct
      have prev : m.next (lastPlace Place.node (.head list) A) ≠ B.head? := by
        rw [(pathCons.mp path).1.ends]
        intro same
        have inside : x ∈ B := List.mem_of_mem_head? same.symm
        exact (List.nodup_cons.mp (List.nodup_append.mp distinct).2.1).1 inside
      have place : lastPlace Place.node (.head list) (A ++ [x]) = .node x := by simp [lastPlace]
      obtain ⟨m', ran, rest⟩ := ih rep (A := A ++ [x]) (by rw [split]; simp) enough (visited ++ [x])
      refine ⟨m', ?_, ?_⟩
      · rw [place] at ran
        simp only [List.head?_cons, forEachSafeFrom, deletes, Bool.false_eq_true, if_false, next]
        rw [if_neg prev]
        exact ran
      · simpa [List.filter_cons, deletes] using rest

theorem forEachSafeVisits (rep : Represents m lists) {start : Option α} (inside : ∀ p, start = some p → p ∈ lists list)
    (body : Body α) {fuel : Nat} (enough : (lists list).length < fuel) :
    ∃ m', forEachSafe m list start body fuel = some (m', behind start (lists list)) ∧
      Represents m' (Function.update lists list
        (upTo start (lists list) ++ (behind start (lists list)).filter (¬body.deletes ·))) := by
  obtain ⟨split, -, place⟩ := upToBehind inside list
  have next := (rep.holds list).nextBehind inside
  have shorter : (behind start (lists list)).length < fuel := by
    have length := congrArg List.length split
    rw [List.length_append] at length
    omega
  obtain ⟨m', ran, rest⟩ := forEachSafeFromVisits rep split body shorter []
  rw [place, ← next] at ran
  exact ⟨m', ran, rest⟩

end Loop

theorem callRepresents {s : State η α} (rep : Represents s.memory s.lists) {call : Call η α} (allowed : Allowed s call) :
    ∃ m', call.run s.memory = some (m', (call.prescribed s.lists).2) ∧ Represents m' (call.prescribed s.lists).1 := by
  cases call with
  | init list => exact ⟨_, rfl, initRepresents rep list⟩
  | headMoveInit oldList newList => exact ⟨_, rfl, headMoveInitRepresents rep oldList newList⟩
  | write node next => exact ⟨_, rfl, rep.write allowed next⟩
  | pushFront list node =>
    obtain ⟨kept, flag⟩ := pushFrontRepresents rep allowed list
    exact ⟨_, by rw [Call.prescribed, ← flag]; rfl, kept⟩
  | pushBack list node =>
    obtain ⟨kept, flag⟩ := pushBackRepresents rep allowed list
    exact ⟨_, by rw [Call.prescribed, ← flag]; rfl, kept⟩
  | addBatch newFirst newLast list batch =>
    obtain ⟨kept, flag⟩ := addBatchRepresents rep allowed list
    exact ⟨_, by rw [Call.prescribed, ← flag]; rfl, kept⟩
  | addBatchTail newFirst newLast list batch =>
    obtain ⟨kept, flag⟩ := addBatchTailRepresents rep allowed list
    exact ⟨_, by rw [Call.prescribed, ← flag]; rfl, kept⟩
  | insert prev node list => exact ⟨_, rfl, insertRepresents rep allowed.1 allowed.2⟩
  | popFront list =>
    obtain ⟨kept, node⟩ := popFrontRepresents rep list
    exact ⟨_, by rw [Call.prescribed, ← node]; rfl, kept⟩
  | removeAfter list prev =>
    obtain ⟨kept, node⟩ := removeAfterRepresents rep list prev allowed
    exact ⟨_, by rw [Call.prescribed, ← node]; rfl, kept⟩
  | appendList list other => exact ⟨_, rfl, appendListRepresents rep allowed⟩
  | forEachSafe list start body fuel =>
    obtain ⟨m', ran, kept⟩ := forEachSafeVisits rep allowed.1 body allowed.2
    exact ⟨m', by rw [Call.run, ran]; rfl, kept⟩

omit [DecidableEq η] [DecidableEq α] in
theorem startRepresents {s : State η α} (starts : Starts s) : Represents s.memory s.lists := by
  refine ⟨fun list => ?_, fun {one two node} member => ?_⟩
  · obtain ⟨first, last, nodes⟩ := starts list
    rw [nodes]
    exact ⟨first, last, List.nodup_nil⟩
  · rw [(starts one).2.2] at member
    nomatch member

theorem reachableRepresents {s : State η α} (reach : Reachable Starts step Allowed s) : Represents s.memory s.lists := by
  refine reach.invariant (fun _ starts => startRepresents starts) fun s call s' reply rep allowed taken => ?_
  obtain ⟨m', ran, kept⟩ := callRepresents rep allowed
  rw [step, ran] at taken
  cases taken
  exact kept

/- In every reachable state the chain of each list leads over its nodes, all different, to NULL,
and `last` is the final one; every call returns, and leaves the nodes that it prescribes. -/
theorem chainsKept {s : State η α} (reach : Reachable Starts step Allowed s) :
    Represents s.memory s.lists ∧ ∀ call, Allowed s call → ∃ s', step s call = some (s', (call.prescribed s.lists).2) ∧
      s'.lists = (call.prescribed s.lists).1 ∧ Represents s'.memory s'.lists := by
  have rep := reachableRepresents reach
  refine ⟨rep, fun call allowed => ?_⟩
  obtain ⟨m', ran, kept⟩ := callRepresents rep allowed
  exact ⟨_, by rw [step, ran]; rfl, rfl, kept⟩

def emptyLists : State Unit Nat := ⟨⟨fun _ => none, fun _ => none⟩, fun _ => []⟩

/- Three nodes, of which a traversal deletes the first and the last. -/
theorem middleLeft : ∃ s : State Unit Nat, s.lists () = [2] ∧ Holds s.memory () [2] := by
  have starts : Reachable Starts step Allowed emptyLists := .start fun _ => ⟨rfl, rfl, rfl⟩
  have one := Reachable.next (a := Call.pushBack () 2) starts (by simp [Allowed, Unlinked, emptyLists]) rfl
  have two := Reachable.next (a := Call.pushFront () 1) one (by simp [Allowed, Unlinked, emptyLists, Call.prescribed]) rfl
  have three := Reachable.next (a := Call.pushBack () 3) two (by simp [Allowed, Unlinked, emptyLists, Call.prescribed]) rfl
  obtain ⟨-, calls⟩ := chainsKept three
  obtain ⟨s', -, left, rep⟩ := calls (.forEachSafe () none ⟨fun node => node ≠ 2, fun _ _ => none⟩ 4)
    ⟨nofun, by simp [Call.prescribed, emptyLists]⟩
  have only : s'.lists () = [2] := by rw [left]; rfl
  have holds := rep.holds ()
  rw [only] at holds
  exact ⟨s', only, holds⟩

end Nanosig.Slist
