import Nanosig.Hashtbl.Traversal

/-! The hash table is a multimap of nodes, over all runs of its calls. -/
namespace Nanosig.Hashtbl

open TransitionSystem

variable {κ : Type} [DecidableEq κ] {k : Nat} {s s' : State κ} {n : κ} {node : Node}

theorem nodeNewSpec (table : Table k s) {memory : Option κ} (free : ∀ m ∈ memory, s.nodes m = none) (hashVal : UInt32) (key : List UInt8)
    (valueLen : UInt16) :
    ∃ s', nodeNew s memory hashVal key valueLen = some (s', memory) ∧ Table k s' ∧
      contents s' = memory.elim (contents s) fun m => (contents s).allocate m key := by
  cases memory with
  | none => exact ⟨s, rfl, table, rfl⟩
  | some m =>
    have unused : s.nodes m = none := free m rfl
    refine ⟨_, by simp [nodeNew, unused], table.hold (table.absent unused) ⟨hashVal, valueLen, key, false⟩ rfl, ?_⟩
    rw [contents, keyUpdate]
    rfl

theorem nodeRenewSpec (table : Table k s) (given : s.nodes n = some node) {memory : Option κ} (free : ∀ m ∈ memory, s.nodes m = none)
    (valueLen : UInt16) :
    ∃ s' out, nodeRenew s n memory valueLen = some (s', out) ∧ Table k s' ∧
      (out = some n ∧ node.valueLen = valueLen ∧ s' = s ∨ out = none ∧ memory = none ∧ s' = s ∨
        ∃ m, out = some m ∧ memory = some m ∧ contents s' = (contents s).renew n m) := by
  simp only [nodeRenew, given, Option.bind_some]
  split
  · rename_i same
    exact ⟨s, some n, rfl, table, .inl ⟨rfl, same, rfl⟩⟩
  cases memory with
  | none => exact ⟨s, none, rfl, table, .inr (.inl ⟨rfl, rfl, rfl⟩)⟩
  | some m =>
    have unused : s.nodes m = none := free m rfl
    simp only [unused, Option.isSome_none, Bool.false_eq_true, if_false]
    refine ⟨_, some m, rfl, table.replace given unused { node with valueLen := valueLen } rfl rfl rfl, .inr (.inr ⟨m, rfl, rfl, ?_⟩)⟩
    rw [contents, keyUpdate, keyUpdate, Multimap.renew, keyGiven given]
    rfl

structure RefinesMultimap (s : State κ) : Prop where
  counts : s.count = s.inserted.length
  once : s.inserted.Nodup
  allocates : ∀ memory hashVal key valueLen, (∀ m ∈ memory, s.nodes m = none) →
    ∃ s', nodeNew s memory hashVal key valueLen = some (s', memory) ∧
      contents s' = memory.elim (contents s) fun m => (contents s).allocate m key
  allocatesRefreshed : ∀ memory key valueLen, (∀ m ∈ memory, s.nodes m = none) →
    ∃ s', nodeNewRefresh s memory key valueLen = some (s', memory) ∧
      contents s' = memory.elim (contents s) fun m => (contents s).allocate m key
  allocatesString : ∀ memory string valueLen, string.length < 2 ^ 16 →
    nodeNewWithStringRefresh s memory (some string) valueLen = nodeNewRefresh s memory string valueLen ∧
      nodeNewWithStringRefresh s memory none valueLen = some (s, none)
  inserts : ∀ n node allocated, s.nodes n = some node → node.hashVal = fnv1a node.key →
    ∃ s' rc, insert s n allocated = some (s', rc) ∧
      (rc = .exists ∧ n ∈ s.inserted ∧ s' = s ∨ rc = .nomem ∧ n ∉ s.inserted ∧ s' = s ∨
        rc = .ok ∧ n ∉ s.inserted ∧ contents s' = (contents s).insert n)
  removes : ∀ n node, s.nodes n = some node → ∃ s', remove s n = some s' ∧ contents s' = (contents s).remove n
  deletes : ∀ n node, s.nodes n = some node → ∃ s', nodeDelete s n = some s' ∧ contents s' = (contents s).delete n
  renews : ∀ n node memory valueLen, s.nodes n = some node → (∀ m ∈ memory, s.nodes m = none) →
    ∃ s' out, nodeRenew s n memory valueLen = some (s', out) ∧
      (out = some n ∧ node.valueLen = valueLen ∧ s' = s ∨ out = none ∧ memory = none ∧ s' = s ∨
        ∃ m, out = some m ∧ memory = some m ∧ contents s' = (contents s).renew n m)
  changesKey : ∀ n node key, s.nodes n = some node → ∃ s', changeKey s n key = some s' ∧ contents s' = (contents s).changeKey n key
  finds : ∀ key, ∃ s' rc out, find s key = some (s', rc, out) ∧ contents s' = contents s ∧ (contents s).Answers key rc out
  findsString : ∀ string, string.length < 2 ^ 16 → ∃ s' rc out, findWithString s (some string) = some (s', rc, out) ∧
    contents s' = contents s ∧ (contents s).Answers string rc out
  findsNull : findWithString s none = some (s, .inval, none)
  visitsAll : ∀ body, ∃ s' visited, forEachSafe s body = some (s', visited) ∧ visited.Perm s.inserted ∧
    contents s' = (contents s).runBodies body visited
  visitsKey : ∀ key body, ∃ s' visited, forEachWithKeySafe s key body = some (s', visited) ∧
    visited.Perm ((contents s).withKey key) ∧ contents s' = (contents s).runBodies body visited
  visitsString : ∀ string body, ∃ s' visited, forEachWithStringSafe s string body = some (s', visited) ∧
    visited.Perm ((contents s).withKey string) ∧ contents s' = (contents s).runBodies body visited

theorem insertContents (given : s.nodes n = some node) (inserted : s'.inserted = n :: s.inserted)
    (nodes : s'.nodes = Function.update s.nodes n (some { node with linked := true })) : contents s' = (contents s).insert n := by
  rw [contents, inserted, nodes, keyKept given { node with linked := true } rfl]
  rfl

theorem changeKeyContents (inserted : s'.inserted = s.inserted) {key : List UInt8} {left : Node} (stored : left.key = key)
    (nodes : s'.nodes = Function.update s.nodes n (some left)) : contents s' = (contents s).changeKey n key := by
  rw [contents, inserted, nodes, keyUpdate, Option.map_some, stored]
  rfl

theorem Table.refines (table : Table k s) : RefinesMultimap s where
  counts := table.counted
  once := table.distinct
  allocates := fun memory hashVal key valueLen free => by
    obtain ⟨s', ran, -, contents'⟩ := nodeNewSpec table free hashVal key valueLen
    exact ⟨s', ran, contents'⟩
  allocatesRefreshed := fun memory key valueLen free => by
    obtain ⟨s', ran, -, contents'⟩ := nodeNewSpec table free (fnv1a key) key valueLen
    exact ⟨s', ran, contents'⟩
  allocatesString := fun memory string valueLen short => by
    simp only [nodeNewWithStringRefresh, nodeNewRefresh, Nat.mod_eq_of_lt short, List.take_length, and_self]
  inserts := fun n node allocated given hashVal => by
    obtain ⟨s', rc, ran, known | failed | ⟨ok, absent, -, inserted, nodes⟩⟩ := insertSpec table given hashVal allocated
    · exact ⟨s', rc, ran, .inl known⟩
    · exact ⟨s', rc, ran, .inr (.inl failed)⟩
    · exact ⟨s', rc, ran, .inr (.inr ⟨ok, absent, insertContents given inserted nodes⟩)⟩
  removes := fun n node given => by
    obtain ⟨s', ran, -, contents'⟩ := removeSpec table given
    exact ⟨s', ran, contents'⟩
  deletes := fun n node given => by
    obtain ⟨s', ran, -, contents'⟩ := nodeDeleteSpec table given
    exact ⟨s', ran, contents'⟩
  renews := fun n node memory valueLen given free => by
    obtain ⟨s', out, ran, -, ends⟩ := nodeRenewSpec table given free valueLen
    exact ⟨s', out, ran, ends⟩
  changesKey := fun n node key given => by
    obtain ⟨s', ran, -, inserted, nodes⟩ := changeKeySpec table given key
    exact ⟨s', ran, changeKeyContents inserted rfl nodes⟩
  finds := fun key => by
    obtain ⟨s', rc, out, ran, -, same, answers⟩ := findSpec table key
    exact ⟨s', rc, out, ran, same, answers⟩
  findsString := fun string short => by
    obtain ⟨s', rc, out, ran, -, same, answers⟩ := findSpec table string
    exact ⟨s', rc, out, (findWithStringShort short).trans ran, same, answers⟩
  findsNull := rfl
  visitsAll := fun body => by
    obtain ⟨s', visited, ran, -, visits, contents'⟩ := forEachSafeSpec table body
    exact ⟨s', visited, ran, visits, contents'⟩
  visitsKey := fun key body => by
    obtain ⟨s', visited, ran, -, visits, contents'⟩ := forEachWithKeySafeSpec table key body
    exact ⟨s', visited, ran, visits, contents'⟩
  visitsString := fun string body => by
    obtain ⟨s', visited, ran, -, visits, contents'⟩ := forEachWithKeySafeSpec table string body
    exact ⟨s', visited, ran, visits, contents'⟩

section Runs

variable {β : Type} {called : Option β} {r : β}

omit [DecidableEq κ] in
theorem sameResult (spec : called = some r) {f : β → State κ × Event κ} {e : Event κ} (taken : called.map f = some (s', e)) : s' = (f r).1 := by
  rw [spec, Option.map_some, Option.some.injEq] at taken
  rw [taken]

theorem nodeNewKeeps (table : Table k s) {memory : Option κ} {hashVal : UInt32} {key : List UInt8} {valueLen : UInt16} {e : Event κ}
    (taken : (nodeNew s memory hashVal key valueLen).map (fun made => (made.1, Event.node made.2)) = some (s', e)) : ∃ k', Table k' s' := by
  have free : ∀ m ∈ memory, s.nodes m = none := by
    rintro m ⟨⟩
    by_contra used
    rw [nodeNew, if_pos (Option.isSome_iff_ne_none.mpr used)] at taken
    cases taken
  obtain ⟨s₁, ran, table₁, -⟩ := nodeNewSpec table free hashVal key valueLen
  exact ⟨k, sameResult ran taken ▸ table₁⟩

theorem stepKeeps {a : Action κ} {e : Event κ} (table : Table k s) (permitted : Permitted s a) (taken : step s a = some (s', e)) :
    ∃ k', Table k' s' := by
  cases a with
  | nodeNew memory hashVal key valueLen => exact nodeNewKeeps table taken
  | nodeNewRefresh memory key valueLen => exact nodeNewKeeps table taken
  | nodeNewWithStringRefresh memory key valueLen =>
    cases key with
    | none =>
      cases taken
      exact ⟨k, table⟩
    | some string => exact nodeNewKeeps table taken
  | insert n allocated =>
    cases held : s.nodes n with
    | none => simp [step, insert, held] at taken
    | some node =>
      obtain ⟨s₁, rc, ran, ⟨-, -, same⟩ | ⟨-, -, same⟩ | ⟨-, -, table₁, -⟩⟩ := insertSpec table held (permitted node held) allocated
      · exact ⟨k, sameResult ran taken ▸ same ▸ table⟩
      · exact ⟨k, sameResult ran taken ▸ same ▸ table⟩
      · exact sameResult ran taken ▸ table₁
  | remove n =>
    cases held : s.nodes n with
    | none => simp [step, remove, held] at taken
    | some node =>
      obtain ⟨s₁, ran, table₁, -⟩ := removeSpec table held
      exact ⟨k, sameResult ran taken ▸ table₁⟩
  | nodeDelete n =>
    cases held : s.nodes n with
    | none => simp [step, nodeDelete, held] at taken
    | some node =>
      obtain ⟨s₁, ran, table₁, -⟩ := nodeDeleteSpec table held
      exact ⟨k, sameResult ran taken ▸ table₁⟩
  | nodeRenew oldNode memory valueLen =>
    cases held : s.nodes oldNode with
    | none => simp [step, nodeRenew, held] at taken
    | some node =>
      by_cases same : node.valueLen = valueLen
      · simp only [step, nodeRenew, held, Option.bind_some, if_pos same] at taken
        cases taken
        exact ⟨k, table⟩
      · have free : ∀ m ∈ memory, s.nodes m = none := by
          rintro m ⟨⟩
          by_contra used
          simp [step, nodeRenew, held, same, Option.isSome_iff_ne_none.mpr used] at taken
        obtain ⟨s₁, out, ran, table₁, -⟩ := nodeRenewSpec table held free valueLen
        exact ⟨k, sameResult ran taken ▸ table₁⟩
  | changeKey n key =>
    cases held : s.nodes n with
    | none => simp [step, changeKey, held] at taken
    | some node =>
      obtain ⟨s₁, ran, table₁, -⟩ := changeKeySpec table held key
      exact ⟨k, sameResult ran taken ▸ table₁⟩
  | find key =>
    obtain ⟨s₁, rc, out, ran, table₁, -⟩ := findSpec table key
    exact ⟨k, sameResult ran taken ▸ table₁⟩
  | findWithString key =>
    cases key with
    | none =>
      cases taken
      exact ⟨k, table⟩
    | some string =>
      obtain ⟨s₁, rc, out, ran, table₁, -⟩ := findSpec table string
      exact ⟨k, sameResult ((findWithStringShort (permitted string rfl)).trans ran) taken ▸ table₁⟩
  | forEachSafe body =>
    obtain ⟨s₁, visited, ran, table₁, -⟩ := forEachSafeSpec table body
    exact ⟨k, sameResult ran taken ▸ table₁⟩
  | forEachWithKeySafe key body =>
    obtain ⟨s₁, visited, ran, table₁, -⟩ := forEachWithKeySafeSpec table key body
    exact ⟨k, sameResult ran taken ▸ table₁⟩
  | forEachWithStringSafe string body =>
    obtain ⟨s₁, visited, ran, table₁, -⟩ := forEachWithKeySafeSpec table string body
    exact ⟨k, sameResult ran taken ▸ table₁⟩

theorem tableReachable (reach : Reachable Starts step Permitted s) : ∃ k, Table k s := by
  refine reach.invariant (I := fun s => ∃ k, Table k s) ?_ ?_
  · rintro s ⟨loadFactor, headAllocated, tableAllocated, made⟩
    exact ⟨4, createTable made⟩
  · rintro s a s' e ⟨k, table⟩ permitted taken
    exact stepKeeps table permitted taken

end Runs

theorem refinesMultimap (reach : Reachable Starts step Permitted s) : RefinesMultimap s := by
  obtain ⟨k, table⟩ := tableReachable reach
  exact table.refines

/- A load factor under which the first inserts double the table; two nodes have the same key until
one gets another, one is renewed, and a fourth insert gets no memory. -/
def doubledTwice : List (Action Nat) :=
  [.nodeNewRefresh (some 0) [97] 4, .nodeNewRefresh (some 1) [98] 4, .nodeNewWithStringRefresh (some 2) (some [97]) 4,
    .insert 0 true, .insert 1 true, .insert 2 true, .changeKey 1 [99], .find [97], .nodeRenew 0 (some 3) 8,
    .nodeNewRefresh (some 4) [100] 4, .insert 4 false]

theorem doubledTwiceRefines : ∃ s : State Nat, s.mask = 63 ∧ s.inserted = [2, 1, 3] ∧ RefinesMultimap s := by
  have evaluated : ((create (.finite (1 / 100)) true true).any fun first =>
      (executeAllowed step Permitted first doubledTwice).any fun s => s.mask = 63 ∧ s.inserted = [2, 1, 3]) = true := by
    decide +kernel
  obtain ⟨first, made, rest⟩ := (Option.any_eq_true _ _).mp evaluated
  obtain ⟨s, ran, checked⟩ := (Option.any_eq_true _ _).mp rest
  obtain ⟨mask, inserted⟩ := of_decide_eq_true checked
  exact ⟨s, mask, inserted, refinesMultimap (executeAllowedReachable (.start ⟨_, _, _, made⟩) ran)⟩

end Nanosig.Hashtbl
