import Nanosig.Hashtbl.Calls

/-! Lookups and traversals of the table against a multimap of nodes and their keys. -/
namespace Nanosig.Hashtbl

open Buckets

variable {κ : Type}

structure Multimap (κ : Type) where
  inserted : List κ
  keyOf : κ → Option (List UInt8)

def contents (s : State κ) : Multimap κ := ⟨s.inserted, fun n => (s.nodes n).map Node.key⟩

namespace Multimap

variable [DecidableEq κ]

def allocate (c : Multimap κ) (m : κ) (key : List UInt8) : Multimap κ :=
  { c with keyOf := Function.update c.keyOf m (some key) }

def insert (c : Multimap κ) (n : κ) : Multimap κ := { c with inserted := n :: c.inserted }

def remove (c : Multimap κ) (n : κ) : Multimap κ := { c with inserted := c.inserted.erase n }

def delete (c : Multimap κ) (n : κ) : Multimap κ := ⟨c.inserted.erase n, Function.update c.keyOf n none⟩

def renew (c : Multimap κ) (old new : κ) : Multimap κ :=
  ⟨c.inserted.map fun n => if n = old then new else n, Function.update (Function.update c.keyOf new (c.keyOf old)) old none⟩

def changeKey (c : Multimap κ) (n : κ) (key : List UInt8) : Multimap κ :=
  { c with keyOf := Function.update c.keyOf n (some key) }

def runBody (c : Multimap κ) (n : κ) : Body → Multimap κ
  | .keep => c
  | .remove => c.remove n
  | .delete => c.delete n

def runBodies (c : Multimap κ) (body : κ → Body) (visited : List κ) : Multimap κ :=
  visited.foldl (fun c n => c.runBody n (body n)) c

def withKey (c : Multimap κ) (key : List UInt8) : List κ := c.inserted.filter fun n => c.keyOf n = some key

inductive Answers (c : Multimap κ) (key : List UInt8) : Status → Option κ → Prop where
  | found {n : κ} (inside : n ∈ c.inserted) (named : c.keyOf n = some key) : Answers c key .ok (some n)
  | absent (missing : ∀ n ∈ c.inserted, c.keyOf n ≠ some key) : Answers c key .empty none

end Multimap

variable {k i : Nat} {s s' : State κ} {n : κ} {node : Node}

theorem keyGiven (given : s.nodes n = some node) : (contents s).keyOf n = some node.key := by
  simp [contents, given]

theorem hasKeyIff {key : List UInt8} : hasKey s key n = true ↔ (contents s).keyOf n = some key := by
  simp only [hasKey, contents]
  cases s.nodes n <;> simp

section Contents

variable [DecidableEq κ]

theorem keyUpdate (nodes : κ → Option Node) (n : κ) (left : Option Node) :
    (fun m => (Function.update nodes n left m).map Node.key) = Function.update (fun m => (nodes m).map Node.key) n (left.map Node.key) := by
  funext m
  by_cases same : m = n
  · subst same
    simp
  · simp [same]

theorem keyKept (given : s.nodes n = some node) (left : Node) (key : left.key = node.key) :
    (fun m => (Function.update s.nodes n (some left) m).map Node.key) = (contents s).keyOf := by
  rw [keyUpdate, Option.map_some, key]
  funext m
  by_cases same : m = n
  · subst same
    simp [contents, given]
  · simp [contents, same]

omit [DecidableEq κ] in
theorem contentsRemade (rest : s' = { s with table := s'.table }) : contents s' = contents s := by
  obtain ⟨-, -, -, nodes, inserted⟩ := restFields rest
  simp only [contents, nodes, inserted]

theorem findListHeadSpec (table : Table k s) (hashVal : UInt32) :
    ∃ s' nodes, findListHead s hashVal = some (s', nodes) ∧ Table k s' ∧ contents s' = contents s ∧
      s'.nodes = s.nodes ∧ nodes = bucket s' (hashVal.toNat % 2 ^ k) ∧
      ∀ n node, n ∈ s.inserted → s.nodes n = some node → node.hashVal = hashVal → n ∈ nodes := by
  have below : hashVal.toNat % 2 ^ k < 2 ^ k := Nat.mod_lt _ (Nat.two_pow_pos k)
  obtain ⟨s', ran, rest, shape, placed, alive⟩ := tryRemakeSpec table.toShape table.placed below fun _ _ never _ => never.elim
  obtain ⟨-, -, -, nodes, inserted⟩ := restFields rest
  have table' : Table k s' := table.remade rest shape placed
  obtain ⟨listed, given⟩ := liveSome alive
  refine ⟨s', listed, ?_, table', contentsRemade rest, nodes, (bucketOf given).symm, fun n node inside given' same => ?_⟩
  · simp only [findListHead, table.masked]
    rw [ran, Option.bind_some, given, Option.map_some]
  · have inBucket := table'.inBucket (inserted ▸ inside) (nodes ▸ given') (same ▸ alive)
    rw [same, bucketOf given] at inBucket
    exact inBucket

theorem removeSpec (table : Table k s) (given : s.nodes n = some node) :
    ∃ s', remove s n = some s' ∧ Table k s' ∧ contents s' = (contents s).remove n := by
  refine ⟨_, by rw [remove, given, Option.map_some], table.unlink given (some { node with linked := false }) ?_, ?_⟩
  · rintro node' ⟨⟩
    rfl
  · rw [contents, keyKept given { node with linked := false } rfl]
    rfl

theorem nodeDeleteSpec (table : Table k s) (given : s.nodes n = some node) :
    ∃ s', nodeDelete s n = some s' ∧ Table k s' ∧ contents s' = (contents s).delete n := by
  refine ⟨_, by rw [nodeDelete, given, Option.map_some], table.unlink given none nofun, ?_⟩
  rw [contents, keyUpdate]
  rfl

end Contents

section Traversal

variable [DecidableEq κ]

structure Visited (k : Nat) (body : κ → Body) (visited : List κ) (s s' : State κ) : Prop where
  table : Table k s'
  contents : contents s' = (contents s).runBodies body visited
  inserted : ∀ n, n ∉ visited → n ∈ s.inserted → n ∈ s'.inserted
  nodes : ∀ n, n ∉ visited → s'.nodes n = s.nodes n
  lists : ∀ i, (∀ n ∈ visited, n ∉ bucket s i) → s'.table i = s.table i

variable {body : κ → Body}

theorem visitedNone (table : Table k s) : Visited k body [] s s :=
  ⟨table, rfl, fun _ _ inside => inside, fun _ _ => rfl, fun _ _ => rfl⟩

theorem Visited.append {s'' : State κ} {left right : List κ} (first : Visited k body left s s') (second : Visited k body right s' s'') :
    Visited k body (left ++ right) s s'' where
  table := second.table
  contents := by rw [second.contents, first.contents, Multimap.runBodies, Multimap.runBodies, Multimap.runBodies, List.foldl_append]
  inserted := fun n outside inside => by
    rw [List.mem_append, not_or] at outside
    exact second.inserted n outside.2 (first.inserted n outside.1 inside)
  nodes := fun n outside => by
    rw [List.mem_append, not_or] at outside
    exact (second.nodes n outside.2).trans (first.nodes n outside.1)
  lists := fun i outside => by
    have same : s'.table i = s.table i := first.lists i fun n inside => outside n (List.mem_append_left right inside)
    refine (second.lists i fun n inside => ?_).trans same
    have apart := outside n (List.mem_append_right left inside)
    rwa [bucket, ← same] at apart

theorem listRemoveApart (apart : n ∉ bucket s i) : listRemove s.table n i = s.table i := by
  unfold listRemove
  cases given : s.table i with
  | none => rfl
  | some nodes =>
    rw [bucketOf given] at apart
    simp [List.erase_of_not_mem apart]

theorem runBodySpec (table : Table k s) (given : s.nodes n = some node) :
    ∃ s', runBody s n (body n) = some s' ∧ Visited k body [n] s s' := by
  have ifApart : ∀ i, n ∉ bucket s i → (if node.linked then listRemove s.table n else s.table) i = s.table i := by
    intro i apart
    split
    · exact listRemoveApart apart
    · rfl
  have stays : ∀ m, m ∉ [n] → m ∈ s.inserted → m ∈ s.inserted.erase n := fun m other inside =>
    (List.mem_erase_of_ne (by simpa using other)).mpr inside
  cases does : body n with
  | keep => exact ⟨s, rfl, table, by simp [Multimap.runBodies, Multimap.runBody, does], fun _ _ inside => inside, fun _ _ => rfl, fun _ _ => rfl⟩
  | remove =>
    obtain ⟨s', ran, table', contents'⟩ := removeSpec table given
    refine ⟨s', ran, ⟨table', by simp [Multimap.runBodies, Multimap.runBody, does, contents'], ?_, ?_, ?_⟩⟩
    all_goals
      rw [remove, given, Option.map_some] at ran
      cases ran
    · exact stays
    · exact fun m other => Function.update_of_ne (by simpa using other) _ _
    · exact fun i outside => ifApart i (outside n List.mem_cons_self)
  | delete =>
    obtain ⟨s', ran, table', contents'⟩ := nodeDeleteSpec table given
    refine ⟨s', ran, ⟨table', by simp [Multimap.runBodies, Multimap.runBody, does, contents'], ?_, ?_, ?_⟩⟩
    all_goals
      rw [nodeDelete, given, Option.map_some] at ran
      cases ran
    · exact stays
    · exact fun m other => Function.update_of_ne (by simpa using other) _ _
    · exact fun i outside => ifApart i (outside n List.mem_cons_self)

theorem forEachEntrySpec {chosen : State κ → κ → Bool} (stable : ∀ s s' m, s'.nodes m = s.nodes m → chosen s' m = chosen s m)
    {nodes : List κ} (table : Table k s) (once : nodes.Nodup) (held : ∀ n ∈ nodes, n ∈ s.inserted) :
    ∃ s', forEachEntry body chosen s nodes = some (s', nodes.filter (chosen s)) ∧ Visited k body (nodes.filter (chosen s)) s s' := by
  induction nodes generalizing s with
  | nil => exact ⟨s, rfl, visitedNone table⟩
  | cons n nodes ih =>
    obtain ⟨node, given⟩ := table.allocated n (held n List.mem_cons_self)
    obtain ⟨absent, once'⟩ := List.nodup_cons.mp once
    have later : ∀ m ∈ nodes, m ∈ s.inserted := fun m inside => held m (List.mem_cons_of_mem n inside)
    simp only [forEachEntry, given, Option.bind_some]
    by_cases picked : chosen s n = true
    · obtain ⟨s₁, ran, visited⟩ : ∃ s', runBody s n (body n) = some s' ∧ Visited k body [n] s s' := runBodySpec table given
      have apart : ∀ m ∈ nodes, m ∉ [n] := by
        intro m inside same
        exact absent (List.mem_singleton.mp same ▸ inside)
      obtain ⟨s₂, ran', visited'⟩ := ih visited.table once' fun m inside => visited.inserted m (apart m inside) (later m inside)
      have same : nodes.filter (chosen s₁) = nodes.filter (chosen s) :=
        List.filter_congr fun m inside => stable s s₁ m (visited.nodes m (apart m inside))
      rw [same] at ran' visited'
      refine ⟨s₂, by simp [picked, ran, ran'], ?_⟩
      rw [List.filter_cons_of_pos picked]
      exact visited.append visited'
    · obtain ⟨s₁, ran, visited⟩ := ih table once' later
      refine ⟨s₁, by simp [picked, ran], ?_⟩
      rw [List.filter_cons_of_neg picked]
      exact visited

omit [DecidableEq κ] in
theorem oneBucket {j : Nat} (shape : Shape k s) (first : n ∈ bucket s i) (second : n ∈ bucket s j) : i = j := by
  by_contra apart
  have whole : (entries k s).Nodup := shape.present.nodup_iff.mpr shape.distinct
  have symmetric : Std.Symm (Function.onFun List.Disjoint (bucket s)) := ⟨fun _ _ given _ second first => given first second⟩
  have disjoint := (List.nodup_flatMap.mp whole).2.forall
    (List.mem_range.mpr (shape.below (bucketLive first))) (List.mem_range.mpr (shape.below (bucketLive second))) apart
  exact disjoint first second

theorem forEachBucketSpec (table : Table k s) (i rest : Nat) :
    ∃ s', forEachBucket body s i rest = some (s', (List.range' i rest).flatMap (bucket s)) ∧
      Visited k body ((List.range' i rest).flatMap (bucket s)) s s' := by
  induction rest generalizing s i with
  | zero => exact ⟨s, rfl, visitedNone table⟩
  | succ rest ih =>
    obtain ⟨s₁, ran, visited⟩ : ∃ s', forEachEntry body (fun _ _ => true) s (bucket s i) = some (s', (bucket s i).filter fun _ => true) ∧
        Visited k body ((bucket s i).filter fun _ => true) s s' :=
      forEachEntrySpec (fun _ _ _ _ => rfl) table (table.bucketNodup i) fun n inside => table.mem.mpr ⟨i, inside⟩
    rw [List.filter_true] at ran visited
    obtain ⟨s₂, ran', visited'⟩ := ih visited.table (i + 1)
    have same : (List.range' (i + 1) rest).flatMap (bucket s₁) = (List.range' (i + 1) rest).flatMap (bucket s) := by
      refine List.flatMap_congr fun j inside => ?_
      have beyond := (List.mem_range'_1.mp inside).1
      have kept : s₁.table j = s.table j := visited.lists j fun n here there => by
        have := oneBucket table.toShape here there
        omega
      rw [bucket, bucket, kept]
    rw [same] at ran' visited'
    refine ⟨s₂, ?_, ?_⟩
    · have ran₁ : forEachEntry body (fun _ _ => true) s ((s.table i).getD []) = some (s₁, bucket s i) := ran
      simp [forEachBucket, ran₁, ran', List.range'_succ]
    · rw [List.range'_succ, List.flatMap_cons]
      exact visited.append visited'

theorem forEachSafeSpec (table : Table k s) (body : κ → Body) :
    ∃ s' visited, forEachSafe s body = some (s', visited) ∧ Table k s' ∧ visited.Perm s.inserted ∧
      contents s' = (contents s).runBodies body visited := by
  obtain ⟨s', ran, visited⟩ : ∃ s', forEachBucket body s 0 (2 ^ k) = some (s', (List.range' 0 (2 ^ k)).flatMap (bucket s)) ∧
      Visited k body ((List.range' 0 (2 ^ k)).flatMap (bucket s)) s s' := forEachBucketSpec table 0 (2 ^ k)
  have mask : s.mask + 1 = 2 ^ k := by
    rw [table.mask]
    exact Nat.sub_add_cancel (Nat.two_pow_pos k)
  refine ⟨s', _, by rw [forEachSafe, mask]; exact ran, visited.table, ?_, visited.contents⟩
  rw [← List.range_eq_range']
  exact table.present

theorem forEachWithKeySafeSpec (table : Table k s) (key : List UInt8) (body : κ → Body) :
    ∃ s' visited, forEachWithKeySafe s key body = some (s', visited) ∧ Table k s' ∧ visited.Perm ((contents s).withKey key) ∧
      contents s' = (contents s).runBodies body visited := by
  obtain ⟨t, nodes, walked, tableT, same, sameNodes, listed, complete⟩ := findListHeadSpec table (fnv1a key)
  have stable : ∀ (u u' : State κ) (m : κ), u'.nodes m = u.nodes m → hasKey u' key m = hasKey u key m := by
    intro u u' m kept
    simp only [hasKey, kept]
  have inserted : t.inserted = s.inserted := congrArg Multimap.inserted same
  have once : nodes.Nodup := listed ▸ tableT.bucketNodup _
  have held : ∀ n ∈ nodes, n ∈ t.inserted := fun n inside => tableT.mem.mpr ⟨_, listed ▸ inside⟩
  obtain ⟨s', ran, visited⟩ : ∃ s', forEachEntry body (fun u => hasKey u key) t nodes = some (s', nodes.filter (hasKey t key)) ∧
      Visited k body (nodes.filter (hasKey t key)) t s' := forEachEntrySpec stable tableT once held
  refine ⟨s', _, by rw [forEachWithKeySafe, walked, Option.bind_some, ran], visited.table, ?_, same ▸ visited.contents⟩
  refine (List.perm_ext_iff_of_nodup (once.filter _) (table.distinct.filter _)).mpr fun n => ?_
  rw [List.mem_filter, List.mem_filter, hasKeyIff, same, decide_eq_true_eq]
  constructor
  · rintro ⟨inside, named⟩
    exact ⟨inserted ▸ held n inside, named⟩
  · rintro ⟨inside, named⟩
    obtain ⟨node, given⟩ := table.allocated n inside
    have key' : node.key = key := by
      rw [keyGiven given] at named
      exact Option.some.inj named
    exact ⟨complete n node inside given (key' ▸ table.hashed n node inside given), named⟩

theorem findSpec (table : Table k s) (key : List UInt8) :
    ∃ s' rc out, find s key = some (s', rc, out) ∧ Table k s' ∧ contents s' = contents s ∧ (contents s).Answers key rc out := by
  obtain ⟨t, nodes, walked, tableT, same, sameNodes, listed, complete⟩ := findListHeadSpec table (fnv1a key)
  have inserted : t.inserted = s.inserted := congrArg Multimap.inserted same
  simp only [find, walked, Option.map_some]
  cases searched : nodes.find? (hasKey t key) with
  | some n =>
    have inside : n ∈ s.inserted := inserted ▸ tableT.mem.mpr ⟨_, listed ▸ List.mem_of_find?_eq_some searched⟩
    have named := hasKeyIff.mp (List.find?_some searched)
    exact ⟨t, .ok, some n, rfl, tableT, same, .found inside (same ▸ named)⟩
  | none =>
    refine ⟨t, .empty, none, rfl, tableT, same, .absent fun n inside named => ?_⟩
    obtain ⟨node, given⟩ := table.allocated n inside
    have key' : node.key = key := by
      rw [keyGiven given] at named
      exact Option.some.inj named
    have walks := complete n node inside given (key' ▸ table.hashed n node inside given)
    exact List.find?_eq_none.mp searched n walks (hasKeyIff.mpr (same ▸ named))

theorem findWithStringShort {string : List UInt8} (short : string.length < 2 ^ 16) : findWithString s (some string) = find s string := by
  simp only [findWithString, find, Nat.mod_eq_of_lt short, List.take_length]

end Traversal

end Nanosig.Hashtbl
