import Nanosig.Hashtbl.Lookups

/-! The memory of the nodes over the life of a table: what the calls take from the allocator is given back once, at the
latest by `ns_hashtbl_destroy`, or is a node that its caller has outside the table. -/
namespace Nanosig.Hashtbl

open TransitionSystem

variable {κ : Type} [DecidableEq κ]

def destroyEntry (s : State κ) : List κ → Option (State κ × List κ)
  | [] => some (s, [])
  | n :: nodes =>
      (s.nodes n).bind fun _ =>
        (destroyEntry { s with table := listRemove s.table n, nodes := Function.update s.nodes n none } nodes).map fun ended =>
          (ended.1, n :: ended.2)

/- The entries `i`, `i + 1`, .. of the table; one that is to be remade has no list. -/
def destroyFrom (s : State κ) (i : Nat) : Nat → Option (State κ × List κ)
  | 0 => some (s, [])
  | rest + 1 =>
      if needRemake s i then destroyFrom s (i + 1) rest
      else
        (destroyEntry s ((s.table i).getD [])).bind fun freed =>
          (destroyFrom freed.1 (i + 1) rest).map fun ended => (ended.1, freed.2 ++ ended.2)

/- `ns_hashtbl_destroy`: the nodes it leaves, and those it has given back. -/
def destroy (s : State κ) : Option ((κ → Option Node) × List κ) :=
  (destroyFrom s 0 (s.mask + 1)).map fun ended => (ended.1.nodes, ended.2)

section Destroy

variable {k i : Nat} {s s' : State κ} {n : κ} {node : Node}

structure Freed (freed : List κ) (s s' : State κ) : Prop where
  nodes : ∀ n, s'.nodes n = if n ∈ freed then none else s.nodes n
  lists : ∀ i, (∀ n ∈ freed, n ∉ bucket s i) → s'.table i = s.table i

theorem freedNone (s : State κ) : Freed [] s s := ⟨fun n => by simp, fun _ _ => rfl⟩

theorem Freed.append {s'' : State κ} {left right : List κ} (first : Freed left s s') (second : Freed right s' s'') :
    Freed (left ++ right) s s'' where
  nodes := fun n => by
    rw [second.nodes, first.nodes]
    by_cases later : n ∈ right
    · simp [later]
    · simp [later]
  lists := fun i outside => by
    have same : s'.table i = s.table i := first.lists i fun n inside => outside n (List.mem_append_left right inside)
    refine (second.lists i fun n inside => ?_).trans same
    rw [bucket, same]
    exact outside n (List.mem_append_right left inside)

theorem destroyEntrySpec {nodes : List κ} (once : nodes.Nodup) (allocated : ∀ n ∈ nodes, ∃ node, s.nodes n = some node) :
    ∃ s', destroyEntry s nodes = some (s', nodes) ∧ Freed nodes s s' := by
  induction nodes generalizing s with
  | nil => exact ⟨s, rfl, freedNone s⟩
  | cons n nodes ih =>
    obtain ⟨node, given⟩ := allocated n List.mem_cons_self
    obtain ⟨absent, once'⟩ := List.nodup_cons.mp once
    have first : Freed [n] s { s with table := listRemove s.table n, nodes := Function.update s.nodes n none } := by
      refine ⟨fun m => ?_, fun i outside => listRemoveApart (outside n List.mem_cons_self)⟩
      by_cases same : m = n
      · subst same
        simp
      · simp [same]
    have later : ∀ m ∈ nodes, ∃ node, Function.update s.nodes n none m = some node := by
      intro m inside
      have apart : m ≠ n := fun same => absent (same ▸ inside)
      rw [Function.update_of_ne apart]
      exact allocated m (List.mem_cons_of_mem n inside)
    obtain ⟨s₂, ran, rest⟩ := ih (s := { s with table := listRemove s.table n, nodes := Function.update s.nodes n none }) once' later
    exact ⟨s₂, by simp only [destroyEntry, given, Option.bind_some, ran, Option.map_some], first.append rest⟩

theorem destroyFromSpec {i rest : Nat} (once : ((List.range' i rest).flatMap (bucket s)).Nodup)
    (allocated : ∀ n ∈ (List.range' i rest).flatMap (bucket s), ∃ node, s.nodes n = some node) :
    ∃ s', destroyFrom s i rest = some (s', (List.range' i rest).flatMap (bucket s)) ∧
      Freed ((List.range' i rest).flatMap (bucket s)) s s' := by
  induction rest generalizing s i with
  | zero => exact ⟨s, rfl, freedNone s⟩
  | succ rest ih =>
    rw [List.range'_succ, List.flatMap_cons] at once allocated ⊢
    obtain ⟨onceHere, onceLater, apart⟩ := List.nodup_append.mp once
    by_cases dead : needRemake s i = true
    · have empty : bucket s i = [] := by
        rw [needRemake, Option.isNone_iff_eq_none] at dead
        simp [bucket, dead]
      obtain ⟨s', ran, freed⟩ := ih onceLater fun n inside => allocated n (List.mem_append_right _ inside)
      exact ⟨s', by rw [destroyFrom, if_pos dead, ran, empty]; rfl, by rw [empty]; exact freed⟩
    · obtain ⟨s₁, ran, here⟩ := destroyEntrySpec onceHere fun n inside => allocated n (List.mem_append_left _ inside)
      have same : (List.range' (i + 1) rest).flatMap (bucket s₁) = (List.range' (i + 1) rest).flatMap (bucket s) := by
        refine List.flatMap_congr fun j inside => ?_
        rw [bucket, bucket, here.lists j fun n member there =>
          apart n member n (List.mem_flatMap.mpr ⟨j, inside, there⟩) rfl]
      obtain ⟨s₂, ran', later⟩ := ih (s := s₁) (i := i + 1) (by rw [same]; exact onceLater) fun n inside => by
        rw [same] at inside
        rw [here.nodes, if_neg fun member => apart n member n inside rfl]
        exact allocated n (List.mem_append_right _ inside)
      rw [same] at ran' later
      have ran₁ : destroyEntry s ((s.table i).getD []) = some (s₁, bucket s i) := ran
      exact ⟨s₂, by simp only [destroyFrom, dead, if_false, ran₁, Option.bind_some, ran', Option.map_some, Bool.false_eq_true],
        here.append later⟩

/- The destroy of a table frees the nodes inserted, also those in an entry that others are to be remade from. -/
theorem destroySpec (table : Table k s) :
    ∃ left freed, destroy s = some (left, freed) ∧ freed.Perm s.inserted ∧
      ∀ n, left n = if n ∈ s.inserted then none else s.nodes n := by
  have present : ((List.range' 0 (2 ^ k)).flatMap (bucket s)).Perm s.inserted := by
    rw [← List.range_eq_range']
    exact table.present
  have mask : s.mask + 1 = 2 ^ k := by
    rw [table.mask]
    exact Nat.sub_add_cancel (Nat.two_pow_pos k)
  obtain ⟨s', ran, freed⟩ := destroyFromSpec (present.nodup_iff.mpr table.distinct)
    fun n inside => table.allocated n (present.mem_iff.mp inside)
  refine ⟨s'.nodes, _, by rw [destroy, mask, ran, Option.map_some], present, fun n => ?_⟩
  rw [freed.nodes]
  exact if_congr present.mem_iff rfl rfl

end Destroy

section Ledger

variable {k : Nat} {s s' : State κ} {e : Event κ} {n : κ} {node : Node}

def Event.made : Event κ → List κ
  | .node (some m) => [m]
  | _ => []

def Event.deleted (body : κ → Body) : Event κ → List κ
  | .visited nodes => nodes.filter fun n => body n = .delete
  | _ => []

/- The memory a call took from the allocator; `ns_hashtbl_node_renew` may return the node it was given. -/
def obtained : Action κ → Event κ → List κ
  | .nodeNew _ _ _ _, e => e.made
  | .nodeNewRefresh _ _ _, e => e.made
  | .nodeNewWithStringRefresh _ _ _, e => e.made
  | .nodeRenew oldNode _ _, e => e.made.filter fun m => m ≠ oldNode
  | _, _ => []

/- The memory a call gave back to it. -/
def released : Action κ → Event κ → List κ
  | .nodeDelete n, _ => [n]
  | .nodeRenew oldNode _ _, e => (e.made.filter fun m => m ≠ oldNode).map fun _ => oldNode
  | .forEachSafe body, e => e.deleted body
  | .forEachWithKeySafe _ body, e => e.deleted body
  | .forEachWithStringSafe _ body, e => e.deleted body
  | _, _ => []

namespace Multimap

variable {c : Multimap κ} {m : κ} {key : List UInt8}

def held (c : Multimap κ) (n : κ) : Nat := if (c.keyOf n).isSome then 1 else 0

theorem heldUpdate (c : Multimap κ) (inserted : List κ) (m : κ) (key : Option (List UInt8)) (n : κ) :
    (⟨inserted, Function.update c.keyOf m key⟩ : Multimap κ).held n = if n = m then (if key.isSome then 1 else 0) else c.held n := by
  by_cases same : n = m
  · subst same
    simp [held]
  · simp [held, same]

omit [DecidableEq κ] in
theorem heldBy (inserted : List κ) (n : κ) : (⟨inserted, c.keyOf⟩ : Multimap κ).held n = c.held n := rfl

theorem heldRenew (c : Multimap κ) (old new n : κ) :
    (c.renew old new).held n = if n = old then 0 else if n = new then c.held old else c.held n := by
  by_cases gone : n = old
  · subst gone
    simp [renew, held]
  · by_cases here : n = new
    · subst here
      simp [renew, held, gone]
    · simp [renew, held, gone, here]

theorem heldBodies (c : Multimap κ) (body : κ → Body) (visited : List κ) (n : κ) :
    (c.runBodies body visited).held n = if n ∈ visited ∧ body n = .delete then 0 else c.held n := by
  induction visited generalizing c with
  | nil => simp [runBodies]
  | cons m rest ih =>
    change ((c.runBody m (body m)).runBodies body rest).held n = _
    rw [ih]
    have here : (c.runBody m (body m)).held n = if n = m ∧ body n = .delete then 0 else c.held n := by
      by_cases same : n = m
      · subst same
        cases does : body n with
        | keep => simp [runBody]
        | remove => simp [runBody, remove, heldBy]
        | delete => simp [runBody, delete, heldUpdate]
      · cases body m with
        | keep => simp [runBody, same]
        | remove => simp [runBody, remove, heldBy, same]
        | delete => simp [runBody, delete, heldUpdate, same]
    rw [here]
    by_cases deletes : body n = .delete
    · by_cases later : n ∈ rest
      · simp [deletes, later]
      · simp [deletes, later]
    · simp [deletes]

end Multimap

omit [DecidableEq κ] in
theorem heldGiven (given : s.nodes n = some node) : (contents s).held n = 1 := by simp [Multimap.held, contents, given]

omit [DecidableEq κ] in
theorem heldFree (free : s.nodes n = none) : (contents s).held n = 0 := by simp [Multimap.held, contents, free]

/- The allocator's side of one call: what it has lent before and during the call it gets back or has lent after it. -/
def Balanced (s : State κ) (a : Action κ) (e : Event κ) (s' : State κ) : Prop :=
  ∀ n, (contents s).held n + (obtained a e).count n = (released a e).count n + (contents s').held n

omit [DecidableEq κ] in
theorem sameAnswer {β : Type} {called : Option β} {r : β} (spec : called = some r) {f : β → State κ × Event κ}
    (taken : called.map f = some (s', e)) : (s', e) = f r := by
  rw [spec, Option.map_some, Option.some.injEq] at taken
  exact taken.symm

theorem nodeNewBalanced (table : Table k s) {memory : Option κ} {hashVal : UInt32} {key : List UInt8} {valueLen : UInt16}
    (taken : (nodeNew s memory hashVal key valueLen).map (fun made => (made.1, Event.node made.2)) = some (s', e)) (n : κ) :
    (contents s).held n + e.made.count n = (contents s').held n := by
  cases memory with
  | none =>
    cases taken
    rfl
  | some m =>
    by_cases used : (s.nodes m).isSome
    · rw [nodeNew, if_pos used] at taken
      contradiction
    · have free : s.nodes m = none := by simpa using used
      have unused : ∀ m' ∈ some m, s.nodes m' = none := by
        rintro _ ⟨⟩
        exact free
      obtain ⟨s₁, ran, -, contents₁⟩ := nodeNewSpec table unused hashVal key valueLen
      cases sameAnswer ran taken
      dsimp only
      rw [contents₁]
      change _ + List.count n [m] = ((contents s).allocate m key).held n
      rw [Multimap.allocate, Multimap.heldUpdate]
      by_cases same : n = m
      · subst same
        simp [heldFree free]
      · simp [same, Ne.symm same]

theorem traversalBalanced (table : Table k s) {body : κ → Body} {visited : List κ} (once : visited.Nodup)
    (held : ∀ n ∈ visited, n ∈ s.inserted) (left : contents s' = (contents s).runBodies body visited) (n : κ) :
    (contents s).held n = ((Event.visited visited).deleted body).count n + (contents s').held n := by
  rw [left, Multimap.heldBodies]
  by_cases deleted : n ∈ visited ∧ body n = .delete
  · obtain ⟨node, given⟩ := table.allocated n (held n deleted.1)
    have one : ((Event.visited visited).deleted body).count n = 1 :=
      List.count_eq_one_of_mem (once.filter _) (List.mem_filter.mpr ⟨deleted.1, by simpa using deleted.2⟩)
    rw [one, if_pos deleted, heldGiven given]
  · have none : ((Event.visited visited).deleted body).count n = 0 := by
      refine List.count_eq_zero.mpr fun inside => deleted ?_
      obtain ⟨member, deletes⟩ := List.mem_filter.mp inside
      exact ⟨member, by simpa using deletes⟩
    rw [none, if_neg deleted, Nat.zero_add]

theorem keyedBalanced (table : Table k s) {key : List UInt8} {body : κ → Body} {visited : List κ}
    (visits : visited.Perm ((contents s).withKey key)) (left : contents s' = (contents s).runBodies body visited) (n : κ) :
    (contents s).held n = ((Event.visited visited).deleted body).count n + (contents s').held n :=
  traversalBalanced table (visits.nodup_iff.mpr (table.distinct.filter _))
    (fun _ inside => (List.mem_filter.mp (visits.mem_iff.mp inside)).1) left n

theorem heldKept (given : s.nodes n = some node) {left : Node} (nodes : s'.nodes = Function.update s.nodes n (some left)) (m : κ) :
    (contents s').held m = (contents s).held m := by
  by_cases same : m = n
  · subst same
    have given' : s'.nodes m = some left := by rw [nodes, Function.update_self]
    rw [heldGiven given, heldGiven given']
  · simp [Multimap.held, contents, nodes, same]

theorem insertBalanced (table : Table k s) {m : κ} {allocated : Bool} (hashed : ∀ node ∈ s.nodes m, node.hashVal = fnv1a node.key)
    (taken : (insert s m allocated).map (fun ended => (ended.1, Event.returned ended.2 none)) = some (s', e)) (n : κ) :
    (contents s').held n = (contents s).held n := by
  cases given : s.nodes m with
  | none => simp [insert, given] at taken
  | some node =>
    obtain ⟨s₁, rc, ran, ⟨-, -, same⟩ | ⟨-, -, same⟩ | ⟨-, -, -, -, nodes⟩⟩ := insertSpec table given (hashed node given) allocated
    all_goals cases sameAnswer ran taken
    · rw [same]
    · rw [same]
    · exact heldKept given nodes n

theorem removeBalanced (table : Table k s) {m : κ} (taken : (remove s m).map (fun s => (s, Event.done)) = some (s', e)) (n : κ) :
    (contents s').held n = (contents s).held n := by
  cases given : s.nodes m with
  | none => simp [remove, given] at taken
  | some node =>
    obtain ⟨s₁, ran, -, left⟩ := removeSpec table given
    cases sameAnswer ran taken
    rw [left, Multimap.remove, Multimap.heldBy]

theorem nodeDeleteBalanced (table : Table k s) {m : κ} (taken : (nodeDelete s m).map (fun s => (s, Event.done)) = some (s', e))
    (n : κ) : (contents s).held n = [m].count n + (contents s').held n := by
  cases given : s.nodes m with
  | none => simp [nodeDelete, given] at taken
  | some node =>
    obtain ⟨s₁, ran, -, left⟩ := nodeDeleteSpec table given
    cases sameAnswer ran taken
    rw [left, Multimap.delete, Multimap.heldUpdate]
    by_cases same : n = m
    · subst same
      simp [heldGiven given]
    · simp [same, Ne.symm same]

theorem nodeRenewBalanced (table : Table k s) {oldNode : κ} {memory : Option κ} {valueLen : UInt16}
    (taken : (nodeRenew s oldNode memory valueLen).map (fun made => (made.1, Event.node made.2)) = some (s', e)) :
    Balanced s (.nodeRenew oldNode memory valueLen) e s' := by
  intro n
  cases given : s.nodes oldNode with
  | none => simp [nodeRenew, given] at taken
  | some node =>
    by_cases length : node.valueLen = valueLen
    · simp only [nodeRenew, given, Option.bind_some, if_pos length] at taken
      cases taken
      simp [obtained, released, Event.made]
    · have free : ∀ m ∈ memory, s.nodes m = none := by
        rintro m ⟨⟩
        by_contra used
        simp [nodeRenew, given, length, Option.isSome_iff_ne_none.mpr used] at taken
      obtain ⟨s₁, out, ran, -, ⟨-, same, -⟩ | ⟨rfl, -, rfl⟩ | ⟨m, rfl, fresh, left⟩⟩ := nodeRenewSpec table given free valueLen
      · exact absurd same length
      · cases sameAnswer ran taken
        simp [obtained, released, Event.made]
      · cases sameAnswer ran taken
        have unused := free m (by rw [fresh]; rfl)
        have apart : m ≠ oldNode := by
          rintro rfl
          rw [unused] at given
          contradiction
        have moves : [m].filter (fun x => x ≠ oldNode) = [m] := by simp [apart]
        simp only [obtained, released, Event.made, left, moves, List.map_cons, List.map_nil, Multimap.heldRenew]
        by_cases old : n = oldNode
        · subst old
          simp [heldGiven given, apart]
        · by_cases new : n = m
          · subst new
            simp [heldGiven given, heldFree unused, Ne.symm apart, old]
          · simp [old, new, Ne.symm old, Ne.symm new]

theorem changeKeyBalanced (table : Table k s) {m : κ} {key : List UInt8}
    (taken : (changeKey s m key).map (fun s => (s, Event.done)) = some (s', e)) (n : κ) :
    (contents s').held n = (contents s).held n := by
  cases given : s.nodes m with
  | none => simp [changeKey, given] at taken
  | some node =>
    obtain ⟨s₁, ran, -, -, nodes⟩ := changeKeySpec table given key
    cases sameAnswer ran taken
    exact heldKept given nodes n

theorem stepBalanced {a : Action κ} (table : Table k s) (lawful : Lawful s a) (taken : step s a = some (s', e)) :
    Balanced s a e s' := by
  intro n
  cases a with
  | nodeNew memory hashVal key valueLen => simpa [obtained, released] using nodeNewBalanced table taken n
  | nodeNewRefresh memory key valueLen => simpa [obtained, released] using nodeNewBalanced table taken n
  | nodeNewWithStringRefresh memory key valueLen =>
    cases key with
    | none =>
      cases taken
      simp [obtained, released, Event.made]
    | some string => simpa [obtained, released] using nodeNewBalanced table taken n
  | insert m allocated => simp [obtained, released, insertBalanced table lawful taken n]
  | remove m => simp [obtained, released, removeBalanced table taken n]
  | nodeDelete m => simpa [obtained, released] using nodeDeleteBalanced table taken n
  | nodeRenew oldNode memory valueLen => exact nodeRenewBalanced table taken n
  | changeKey m key => simp [obtained, released, changeKeyBalanced table taken n]
  | find key =>
    obtain ⟨s₁, rc, out, ran, -, same, -⟩ := findSpec table key
    cases sameAnswer ran taken
    simp [obtained, released, same]
  | findWithString key =>
    -- a string of any length: what matters is that a lookup writes no node
    obtain ⟨s₁, ran, -, nodes, -⟩ := lookupKeeps table (.findWithString key)
    obtain ⟨found, called, here⟩ := Option.map_eq_some_iff.mp ran
    cases sameAnswer called taken
    simp [obtained, released, Multimap.held, contents, here, nodes]
  | forEachSafe body =>
    obtain ⟨s₁, visited, ran, -, visits, left⟩ := forEachSafeSpec table body
    cases sameAnswer ran taken
    have balanced := traversalBalanced table (visits.nodup_iff.mpr table.distinct) (fun m inside => visits.mem_iff.mp inside) left n
    simpa [obtained, released] using balanced
  | forEachWithKeySafe key body =>
    obtain ⟨s₁, visited, ran, -, visits, left⟩ := forEachWithKeySafeSpec table key body
    cases sameAnswer ran taken
    have balanced := keyedBalanced table visits left n
    simpa [obtained, released] using balanced
  | forEachWithStringSafe string body =>
    obtain ⟨s₁, visited, ran, -, visits, left⟩ := forEachWithKeySafeSpec table string body
    cases sameAnswer ran taken
    have balanced := keyedBalanced table visits left n
    simpa [obtained, released] using balanced

omit [DecidableEq κ] in
theorem startsHeld (starts : Starts s) (n : κ) : (contents s).held n = 0 := by
  obtain ⟨loadFactor, headAllocated, tableAllocated, made⟩ := starts
  obtain ⟨factor, -, made⟩ := Option.bind_eq_some_iff.mp made
  obtain ⟨-, same⟩ := Option.ite_none_right_eq_some.mp made
  cases same
  rfl

variable {first : State κ} {visits : List (Visit (State κ) (Action κ) (Event κ))}

def allObtained (visits : List (Visit (State κ) (Action κ) (Event κ))) : List κ := visits.flatMap fun v => obtained v.label v.event

def allReleased (visits : List (Visit (State κ) (Action κ) (Event κ))) : List κ := visits.flatMap fun v => released v.label v.event

theorem runBalanced (starts : Starts first) (run : Run step Lawful first visits s) (n : κ) :
    (allObtained visits).count n = (allReleased visits).count n + (contents s).held n := by
  induction run with
  | done => simp [allObtained, allReleased, startsHeld starts n]
  | @next s s' visits a e before lawful taken ih =>
    obtain ⟨k, table, -⟩ := lawfulReachable (before.reachable (.start starts))
    have balanced := stepBalanced table lawful taken n
    unfold allObtained allReleased at ih ⊢
    rw [List.flatMap_append, List.flatMap_append, List.count_append, List.count_append, List.flatMap_singleton,
      List.flatMap_singleton]
    dsimp only
    omega

/- From the creation of a table to its destruction each node is released as often as it was obtained, but for the nodes that
are outside the table at the end, and the destruction releases no other node than those inserted. -/
theorem nodesReleasedOnce (starts : Starts first) (run : Run step Lawful first visits s) :
    ∃ left freed, destroy s = some (left, freed) ∧ freed.Perm s.inserted ∧
      (∀ n, left n = if n ∈ s.inserted then none else s.nodes n) ∧
      ∀ n, (allObtained visits).count n = (allReleased visits ++ freed).count n + if (left n).isSome then 1 else 0 := by
  obtain ⟨k, table, -⟩ := lawfulReachable (run.reachable (.start starts))
  obtain ⟨left, freed, ran, frees, leaves⟩ := destroySpec table
  refine ⟨left, freed, ran, frees, leaves, fun n => ?_⟩
  rw [runBalanced starts run n, List.count_append, leaves n, frees.count_eq]
  by_cases inside : n ∈ s.inserted
  · obtain ⟨node, given⟩ := table.allocated n inside
    rw [heldGiven given, List.count_eq_one_of_mem table.distinct inside]
    simp [inside]
  · rw [List.count_eq_zero.mpr inside, if_neg inside]
    simp [Multimap.held, contents]

/- A table doubled twice is destroyed; the node that found no room stays with its caller. -/
theorem doubledTwiceReleased : ∃ (s : State Nat) (left : Nat → Option Node) (freed : List Nat), s.mask = 63 ∧
    destroy s = some (left, freed) ∧ freed.Perm [2, 1, 3] ∧ left 3 = none ∧ (left 4).isSome = true := by
  have evaluated : ((create (.finite (1 / 100)) true true).any fun first =>
      (execute step first doubledTwice).any fun ended => (ended.1.all fun v => Lawful v.state v.label) ∧
        ended.2.mask = 63 ∧ ended.2.inserted = [2, 1, 3] ∧ (ended.2.nodes 4).isSome) = true := by
    decide +kernel
  obtain ⟨first, made, rest⟩ := (Option.any_eq_true _ _).mp evaluated
  obtain ⟨⟨visits, s⟩, ran, checked⟩ := (Option.any_eq_true _ _).mp rest
  obtain ⟨lawful, mask, inserted, refused⟩ := of_decide_eq_true checked
  have run : Run step Lawful first visits s :=
    executeRun ran fun v inside => of_decide_eq_true (List.all_eq_true.mp lawful v inside)
  obtain ⟨left, freed, destroyed, frees, leaves, -⟩ := nodesReleasedOnce ⟨_, _, _, made⟩ run
  rw [inserted] at frees leaves
  refine ⟨s, left, freed, mask, destroyed, frees, ?_, ?_⟩
  · rw [leaves, if_pos (by decide)]
  · rw [leaves, if_neg (by decide)]
    exact refused

end Ledger

end Nanosig.Hashtbl
