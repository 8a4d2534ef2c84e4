import Nanosig.Hashtbl.Multimap
import Nanosig.Hashtbl.Order

/-! What lookups see of the table: the nodes of an entry in the order of a lookup, which no
remake changes, and the lookups of strings of any length. -/
namespace Nanosig.Hashtbl

open Buckets TransitionSystem

variable {κ : Type} {k i idx old : Nat} {s s' t : State κ} {n : κ} {node : Node} {key string : List UInt8}

def seen (k : Nat) (s : State κ) (i : Nat) : List κ :=
  if needRemake s i then ((entries k s).filter (belongs k s i)).reverse else (bucket s i).filter (belongs k s i)

theorem seenLive (live : Live s i) : seen k s i = (bucket s i).filter (belongs k s i) := by
  have settled : needRemake s i = false := by simpa [needRemake, Live, Option.isSome_iff_ne_none] using live
  rw [seen, settled]
  rfl

theorem seenDead (dead : ¬ Live s i) : seen k s i = ((entries k s).filter (belongs k s i)).reverse := by
  have remade : needRemake s i = true := by simpa [needRemake, Live] using dead
  rw [seen, remade]
  rfl

theorem belongsSame (nodes : s'.nodes = s.nodes) : belongs k s' i = belongs k s i := by
  unfold belongs entryOf
  rw [nodes]

theorem entriesFilter (k : Nat) (s : State κ) (p : κ → Bool) :
    (entries k s).filter p = gather (2 ^ k) fun j => (bucket s j).filter p := List.filter_flatMap

theorem Table.homeOf (table : Table k s) (belonging : belongs k s i n = true) (inside : n ∈ bucket s old) : Home (Live s) k i old := by
  obtain ⟨node, given⟩ := table.allocated n (table.mem.mpr ⟨old, inside⟩)
  have entry : node.hashVal.toNat % 2 ^ k = i := by
    rw [← entryGiven given]
    simpa [belongs] using belonging
  have home := table.placed old n node inside given id
  rw [← homeMod, entry] at home
  exact home

theorem Table.filterOnly (table : Table k s) (source : Live s old) (home : Home (Live s) k i old) :
    (entries k s).filter (belongs k s i) = (bucket s old).filter (belongs k s i) := by
  rw [entriesFilter]
  refine gatherOnly (table.below source) fun j apart => ?_
  rw [List.filter_eq_nil_iff]
  exact fun n inside belonging => apart (homeUnique (table.homeOf belonging inside) home (bucketLive inside) source)

theorem Table.filterNone (table : Table k s) (home : Home (Live s) k i idx) (live : Live s idx) (source : Live s old) (apart : idx ≠ old) :
    (bucket s old).filter (belongs k s i) = [] := by
  rw [List.filter_eq_nil_iff]
  exact fun n inside belonging => apart (homeUnique home (table.homeOf belonging inside) live source)

theorem seenRemade (table : Table k s) (below : i < 2 ^ k) (remade : Remade k s idx old s') (nodes : s'.nodes = s.nodes) : seen k s' i = seen k s i := by
  have same : belongs k s' i = belongs k s i := belongsSame nodes
  by_cases live : Live s i
  · rw [seenLive (remade.kept i live), seenLive live, same]
    by_cases here : i = old
    · subst here
      rw [remade.stayed, List.filter_filter]
      simp only [Bool.and_self]
    · have self : Home (Live s) k i i := ⟨k, le_refl k, (Nat.mod_eq_of_lt below).symm, fun _ within beyond => by omega⟩
      rw [remade.moved i here, table.filterNone self live remade.source here]
      rfl
  · by_cases live' : Live s' i
    · rw [seenLive live', seenDead live, same]
      have home : Home (Live s) k i old := by
        rcases remade.made i live' with before | rfl | ⟨n, inside, at_⟩
        · exact absurd before live
        · exact remade.home
        · exact table.homeOf (by simp [belongs, at_]) inside
      have apart : i ≠ old := by
        rintro rfl
        exact live remade.source
      have empty : bucket s i = [] := by
        rw [Live, not_not] at live
        simp [bucket, live]
      rw [remade.moved i apart, empty, List.append_nil, table.filterOnly remade.source home, List.filter_reverse, List.filter_filter]
      simp only [Bool.and_self]
    · rw [seenDead live', seenDead live, same, entriesFilter, entriesFilter]
      congr 1
      have none : (bucket s old).filter (belongs k s i) = [] := by
        rw [List.filter_eq_nil_iff]
        intro n inside belonging
        have here : entryOf k s n = i := by simpa [belongs] using belonging
        have apart : i ≠ old := by
          rintro rfl
          exact live remade.source
        have moved : n ∈ bucket s' i := by
          rw [remade.moved i apart]
          exact List.mem_append_left _ (List.mem_reverse.mpr (List.mem_filter.mpr ⟨inside, belonging⟩))
        exact live' (bucketLive moved)
      refine gatherCongr fun j _ => ?_
      by_cases here : j = old
      · subst here
        rw [remade.stayed, List.filter_filter, none, List.filter_eq_nil_iff]
        intro n inside both
        exact List.filter_eq_nil_iff.mp none n inside ((Bool.and_eq_true _ _).mp both).1
      · have noneMoved : ((bucket s old).filter (belongs k s j)).reverse.filter (belongs k s i) = [] := by
          rw [List.filter_eq_nil_iff]
          intro n inside
          exact List.filter_eq_nil_iff.mp none n (List.mem_filter.mp (List.mem_reverse.mp inside)).1
        rw [remade.moved j here, List.filter_append, noneMoved, List.nil_append]

section Calls

variable [DecidableEq κ]

theorem findListHeadSeen (table : Table k s) (hashVal : UInt32) :
    ∃ s' nodes, findListHead s hashVal = some (s', nodes) ∧ Table k s' ∧ contents s' = contents s ∧ s'.nodes = s.nodes ∧
      (∀ i < 2 ^ k, seen k s' i = seen k s i) ∧
      nodes.filter (belongs k s (hashVal.toNat % 2 ^ k)) = seen k s (hashVal.toNat % 2 ^ k) ∧
      (∀ n ∈ nodes, n ∈ s.inserted) ∧
      ∀ n ∈ s.inserted, n ∈ nodes ↔
        if needRemake s (hashVal.toNat % 2 ^ k) then entryOf k s n = hashVal.toNat % 2 ^ k else n ∈ bucket s (hashVal.toNat % 2 ^ k) := by
  have below : hashVal.toNat % 2 ^ k < 2 ^ k := Nat.mod_lt _ (Nat.two_pow_pos k)
  generalize idxIs : hashVal.toNat % 2 ^ k = idx at below
  obtain ⟨s', ran, rest, shape, placed, alive⟩ := tryRemakeSpec table.toShape table.placed below fun _ _ never _ => never.elim
  obtain ⟨-, -, -, nodes, inserted⟩ := restFields rest
  have table' : Table k s' := table.remade rest shape placed
  obtain ⟨listed, given⟩ := liveSome alive
  have order := tryRemakeOrder table.toShape below ran
  have keeps : ∀ i < 2 ^ k, seen k s' i = seen k s i := by
    intro i inside
    rcases order with same | ⟨old, remade⟩
    · rw [same]
    · exact seenRemade table inside remade nodes
  refine ⟨s', listed, ?_, table', contentsRemade rest, nodes, keeps, ?_, fun n inside => ?_, fun n inside => ?_⟩
  · simp only [findListHead, table.masked, idxIs]
    rw [ran, Option.bind_some, given, Option.map_some]
  · rw [← keeps idx below, seenLive alive, bucketOf given, belongsSame nodes]
  · exact inserted ▸ table'.mem.mpr ⟨idx, bucketOf given ▸ inside⟩
  · rw [← bucketOf given]
    rcases order with same | ⟨old, remade⟩
    · have settled : needRemake s idx = false := by simpa [needRemake, Live, Option.isSome_iff_ne_none, same] using alive
      rw [settled, same]
      rfl
    · have unmade : needRemake s idx = true := by simpa [needRemake, Live] using remade.dead
      rw [unmade, if_pos rfl]
      constructor
      · intro walked
        have apart : idx ≠ old := by
          rintro rfl
          exact remade.dead remade.source
        have empty : bucket s idx = [] := by
          have dead := remade.dead
          rw [Live, not_not] at dead
          simp [bucket, dead]
        rw [remade.moved idx apart, empty, List.append_nil, List.mem_reverse, List.mem_filter] at walked
        simpa [belongs] using walked.2
      · intro here
        obtain ⟨node, given'⟩ := table.allocated n inside
        rw [entryGiven given'] at here
        have inBucket := table'.inBucket (inserted ▸ inside) (nodes ▸ given') (here.symm ▸ alive)
        rwa [here] at inBucket

def answer (found : Option κ) : Status × Option κ :=
  match found with
  | some n => (.ok, some n)
  | none => (.empty, none)

omit [DecidableEq κ] in
theorem hasKeySame (nodes : s'.nodes = s.nodes) : hasKey s' key = hasKey s key := by
  unfold hasKey
  rw [nodes]

/- `ns_hashtbl_find` answers with the first node seen that has the key. -/
theorem findSeen (table : Table k s) (key : List UInt8) :
    ∃ s', find s key = some (s', answer ((seen k s ((fnv1a key).toNat % 2 ^ k)).find? (hasKey s key))) ∧ Table k s' ∧
      s'.nodes = s.nodes ∧ ∀ i < 2 ^ k, seen k s' i = seen k s i := by
  obtain ⟨s', nodes, walked, table', same, sameNodes, keeps, order, held, -⟩ := findListHeadSeen table (fnv1a key)
  have first : nodes.find? (hasKey s' key) = (seen k s ((fnv1a key).toNat % 2 ^ k)).find? (hasKey s key) := by
    rw [hasKeySame sameNodes, ← order, List.find?_filter]
    refine List.find?_congr fun n inside => ?_
    cases named : hasKey s key n with
    | false => simp
    | true =>
      obtain ⟨node, given⟩ := table.allocated n (held n inside)
      have key' : node.key = key := by
        rw [hasKeyIff, keyGiven given] at named
        exact Option.some.inj named
      have hashed := table.hashed n node (held n inside) given
      simp [belongs, entryGiven given, hashed, key']
  refine ⟨s', ?_, table', sameNodes, keeps⟩
  rw [find, walked, Option.map_some, first]
  cases (seen k s ((fnv1a key).toNat % 2 ^ k)).find? (hasKey s key) <;> rfl

inductive Lookup where
  | find (key : List UInt8)
  | findWithString (keyStr : Option (List UInt8))

def Lookup.run (s : State κ) : Lookup → Option (State κ)
  | .find key => (Hashtbl.find s key).map Prod.fst
  | .findWithString keyStr => (Hashtbl.findWithString s keyStr).map Prod.fst

def runLookups (s : State κ) (lookups : List Lookup) : Option (State κ) := lookups.foldlM Lookup.run s

theorem lookupKeeps (table : Table k s) (lookup : Lookup) :
    ∃ s', lookup.run s = some s' ∧ Table k s' ∧ s'.nodes = s.nodes ∧ ∀ i < 2 ^ k, seen k s' i = seen k s i := by
  cases lookup with
  | find key =>
    obtain ⟨s', ran, kept⟩ := findSeen table key
    exact ⟨s', by rw [Lookup.run, ran, Option.map_some], kept⟩
  | findWithString keyStr =>
    cases keyStr with
    | none => exact ⟨s, rfl, table, rfl, fun _ _ => rfl⟩
    | some string =>
      obtain ⟨s', nodes, walked, table', -, sameNodes, keeps, -⟩ := findListHeadSeen table (fnv1a string)
      refine ⟨s', ?_, table', sameNodes, keeps⟩
      simp only [Lookup.run, findWithString, walked, Option.map_some]
      split <;> rfl

theorem lookupsKeep (table : Table k s) (lookups : List Lookup) :
    ∃ s', runLookups s lookups = some s' ∧ Table k s' ∧ s'.nodes = s.nodes ∧ ∀ i < 2 ^ k, seen k s' i = seen k s i := by
  induction lookups generalizing s with
  | nil => exact ⟨s, rfl, table, rfl, fun _ _ => rfl⟩
  | cons lookup lookups ih =>
    obtain ⟨s₁, ran, table₁, nodes₁, keeps₁⟩ := lookupKeeps table lookup
    obtain ⟨s₂, ran', table₂, nodes₂, keeps₂⟩ := ih table₁
    refine ⟨s₂, ?_, table₂, nodes₂.trans nodes₁, fun i below => (keeps₂ i below).trans (keeps₁ i below)⟩
    rw [runLookups, List.foldlM_cons, ran]
    exact ran'

end Calls

section Runs

variable [DecidableEq κ]

/- As `Permitted`, with lookups and traversals of keys and strings of any length. -/
def Lawful (s : State κ) : Action κ → Prop
  | .find _ | .findWithString _ | .forEachWithKeySafe _ _ | .forEachWithStringSafe _ _ => True
  | a => Permitted s a

instance (s : State κ) (a : Action κ) : Decidable (Lawful s a) :=
  match a with
  | .find _ | .findWithString _ | .forEachWithKeySafe _ _ | .forEachWithStringSafe _ _ => isTrue trivial
  | .nodeNew memory hashVal key valueLen => inferInstanceAs (Decidable (Permitted s (.nodeNew memory hashVal key valueLen)))
  | .nodeNewRefresh memory key valueLen => inferInstanceAs (Decidable (Permitted s (.nodeNewRefresh memory key valueLen)))
  | .nodeNewWithStringRefresh memory key valueLen =>
      inferInstanceAs (Decidable (Permitted s (.nodeNewWithStringRefresh memory key valueLen)))
  | .insert n allocated => inferInstanceAs (Decidable (Permitted s (.insert n allocated)))
  | .changeKey n key => inferInstanceAs (Decidable (Permitted s (.changeKey n key)))
  | .remove _ | .nodeDelete _ | .nodeRenew .. | .forEachSafe _ => isTrue trivial

theorem lawfulKeeps {a : Action κ} {e : Event κ} (table : Table k s) (lawful : Lawful s a) (taken : step s a = some (s', e)) :
    ∃ k', Table k' s' := by
  by_cases permitted : Permitted s a
  · exact stepKeeps table permitted taken
  cases a with
  | find key =>
    obtain ⟨s₁, rc, out, ran, table₁, -⟩ := findSpec table key
    exact ⟨k, sameResult ran taken ▸ table₁⟩
  | findWithString key =>
    obtain ⟨s₁, ran, table₁, -⟩ := lookupKeeps table (.findWithString key)
    obtain ⟨found, called, here⟩ := Option.map_eq_some_iff.mp ran
    have after := sameResult called taken
    exact ⟨k, after ▸ here ▸ table₁⟩
  | forEachWithKeySafe key body =>
    obtain ⟨s₁, visited, ran, table₁, -⟩ := forEachWithKeySafeSpec table key body
    exact ⟨k, sameResult ran taken ▸ table₁⟩
  | forEachWithStringSafe string body =>
    obtain ⟨s₁, visited, ran, table₁, -⟩ := forEachWithKeySafeSpec table string body
    exact ⟨k, sameResult ran taken ▸ table₁⟩
  | nodeNew | nodeNewRefresh | nodeNewWithStringRefresh | insert | remove | nodeDelete | nodeRenew | changeKey | forEachSafe =>
    exact absurd lawful permitted

def KeysShort (c : Multimap κ) : Prop := ∀ n key, c.keyOf n = some key → key.length < 2 ^ 16

omit [DecidableEq κ] in
theorem keysShortIff : KeysShort (contents s) ↔ ∀ n node, s.nodes n = some node → node.key.length < 2 ^ 16 := by
  constructor
  · exact fun short n node given => short n node.key (keyGiven given)
  · intro short n key named
    obtain ⟨node, given, rfl⟩ := Option.map_eq_some_iff.mp named
    exact short n node given

omit [DecidableEq κ] in
theorem createEmpty {loadFactor : LoadFactor} {headAllocated tableAllocated : Bool}
    (made : create loadFactor headAllocated tableAllocated = some s) : s.nodes = fun _ => none := by
  obtain ⟨factor, -, made⟩ := Option.bind_eq_some_iff.mp made
  split at made
  · cases made
    rfl
  · cases made

theorem keysShortUpdate {c : Multimap κ} (short : KeysShort c) (n : κ) {left : Option (List UInt8)} (fits : ∀ key ∈ left, key.length < 2 ^ 16)
    (inserted : List κ) : KeysShort ⟨inserted, Function.update c.keyOf n left⟩ := by
  intro m key named
  by_cases same : m = n
  · subst same
    exact fits key (by simpa using named)
  · exact short m key (by simpa [same] using named)

theorem keysShortBodies {c : Multimap κ} (short : KeysShort c) (body : κ → Body) (visited : List κ) : KeysShort (c.runBodies body visited) := by
  induction visited generalizing c with
  | nil => exact short
  | cons n visited ih =>
    refine ih ?_
    change KeysShort (c.runBody n (body n))
    cases body n with
    | keep => exact short
    | remove => exact short
    | delete => exact keysShortUpdate short n (by rintro _ ⟨⟩) _

theorem nodeNewShort (table : Table k s) (short : KeysShort (contents s)) {memory : Option κ} {hashVal : UInt32} {valueLen : UInt16}
    {e : Event κ} (fits : key.length < 2 ^ 16)
    (taken : (nodeNew s memory hashVal key valueLen).map (fun made => (made.1, Event.node made.2)) = some (s', e)) : KeysShort (contents s') := by
  have free : ∀ m ∈ memory, s.nodes m = none := by
    rintro m ⟨⟩
    by_contra used
    rw [nodeNew, if_pos (Option.isSome_iff_ne_none.mpr used)] at taken
    cases taken
  obtain ⟨s₁, ran, -, contents₁⟩ := nodeNewSpec table free hashVal key valueLen
  rw [sameResult ran taken, contents₁]
  cases memory with
  | none => exact short
  | some m =>
    refine keysShortUpdate short m ?_ _
    rintro _ ⟨⟩
    exact fits

theorem keysShortKept {a : Action κ} {e : Event κ} (table : Table k s) (short : KeysShort (contents s)) (lawful : Lawful s a)
    (taken : step s a = some (s', e)) : KeysShort (contents s') := by
  have refines := table.refines
  cases a with
  | nodeNew memory hashVal key valueLen => exact nodeNewShort table short lawful taken
  | nodeNewRefresh memory key valueLen => exact nodeNewShort table short lawful taken
  | nodeNewWithStringRefresh memory key valueLen =>
    cases key with
    | none =>
      cases taken
      exact short
    | some string => exact nodeNewShort table short (Nat.lt_of_le_of_lt (List.length_take_le _ _) (Nat.mod_lt _ (by decide))) taken
  | insert n allocated =>
    cases held : s.nodes n with
    | none => simp [step, insert, held] at taken
    | some node =>
      obtain ⟨s₁, rc, ran, ends⟩ := refines.inserts n node allocated held (lawful node held)
      rw [sameResult ran taken]
      rcases ends with ⟨-, -, same⟩ | ⟨-, -, same⟩ | ⟨-, -, same⟩
      · exact same ▸ short
      · exact same ▸ short
      · exact same ▸ short
  | remove n =>
    cases held : s.nodes n with
    | none => simp [step, remove, held] at taken
    | some node =>
      obtain ⟨s₁, ran, same⟩ := refines.removes n node held
      exact sameResult ran taken ▸ same ▸ short
  | nodeDelete n =>
    cases held : s.nodes n with
    | none => simp [step, nodeDelete, held] at taken
    | some node =>
      obtain ⟨s₁, ran, same⟩ := refines.deletes n node held
      rw [sameResult ran taken, same]
      exact keysShortUpdate short n (by rintro _ ⟨⟩) _
  | nodeRenew oldNode memory valueLen =>
    cases held : s.nodes oldNode with
    | none => simp [step, nodeRenew, held] at taken
    | some node =>
      by_cases same : node.valueLen = valueLen
      · simp only [step, nodeRenew, held, Option.bind_some, if_pos same] at taken
        cases taken
        exact short
      · have free : ∀ m ∈ memory, s.nodes m = none := by
          rintro m ⟨⟩
          by_contra used
          simp [step, nodeRenew, held, same, Option.isSome_iff_ne_none.mpr used] at taken
        obtain ⟨s₁, out, ran, ends⟩ := refines.renews oldNode node memory valueLen held free
        rw [sameResult ran taken]
        rcases ends with ⟨-, -, same⟩ | ⟨-, -, same⟩ | ⟨m, -, -, same⟩
        · exact same ▸ short
        · exact same ▸ short
        · rw [same]
          refine keysShortUpdate (c := ⟨[], _⟩) (keysShortUpdate short m (fun key named => ?_) []) oldNode (by rintro _ ⟨⟩) _
          exact short oldNode key named
  | changeKey n key =>
    cases held : s.nodes n with
    | none => simp [step, changeKey, held] at taken
    | some node =>
      obtain ⟨s₁, ran, same⟩ := refines.changesKey n node key held
      rw [sameResult ran taken, same]
      refine keysShortUpdate short n ?_ _
      rintro _ ⟨⟩
      have sameLength : key.length = node.key.length := lawful node held
      exact sameLength ▸ keysShortIff.mp short n node held
  | find key =>
    obtain ⟨s₁, rc, out, ran, same, -⟩ := refines.finds key
    exact sameResult ran taken ▸ same ▸ short
  | findWithString key =>
    obtain ⟨s₁, ran, -, nodes, -⟩ := lookupKeeps table (.findWithString key)
    obtain ⟨found, called, here⟩ := Option.map_eq_some_iff.mp ran
    have after : s' = s₁ := (sameResult called taken).trans here
    rw [keysShortIff, after, nodes]
    exact keysShortIff.mp short
  | forEachSafe body =>
    obtain ⟨s₁, visited, ran, -, same⟩ := refines.visitsAll body
    rw [sameResult ran taken, same]
    exact keysShortBodies short body visited
  | forEachWithKeySafe key body =>
    obtain ⟨s₁, visited, ran, -, same⟩ := refines.visitsKey key body
    rw [sameResult ran taken, same]
    exact keysShortBodies short body visited
  | forEachWithStringSafe string body =>
    obtain ⟨s₁, visited, ran, -, same⟩ := refines.visitsString string body
    rw [sameResult ran taken, same]
    exact keysShortBodies short body visited

theorem lawfulReachable (reach : Reachable Starts step Lawful s) : ∃ k, Table k s ∧ KeysShort (contents s) := by
  refine reach.invariant (I := fun s => ∃ k, Table k s ∧ KeysShort (contents s)) ?_ ?_
  · rintro s ⟨loadFactor, headAllocated, tableAllocated, made⟩
    refine ⟨4, createTable made, keysShortIff.mpr fun n node given => ?_⟩
    rw [createEmpty made] at given
    cases given
  · rintro s a s' e ⟨k, table, short⟩ lawful taken
    obtain ⟨k', table'⟩ := lawfulKeeps table lawful taken
    exact ⟨k', table', keysShortKept table short lawful taken⟩

/- Lookups do not influence each other. -/
theorem lookupsIndependent (reach : Reachable Starts step Lawful s) (lookups : List Lookup) (key : List UInt8) :
    ∃ s' before after rc out, runLookups s lookups = some s' ∧ find s key = some (before, rc, out) ∧
      find s' key = some (after, rc, out) := by
  obtain ⟨k, table, -⟩ := lawfulReachable reach
  obtain ⟨s', ran, table', nodes, keeps⟩ := lookupsKeep table lookups
  obtain ⟨before, found, -⟩ := findSeen table key
  obtain ⟨after, found', -⟩ := findSeen table' key
  rw [keeps _ (Nat.mod_lt _ (Nat.two_pow_pos k)), hasKeySame nodes] at found'
  exact ⟨s', before, after, _, _, ran, found, found'⟩

def sameKeyTwice : List (Action Nat) :=
  [.nodeNewRefresh (some 0) [97] 4, .nodeNewRefresh (some 1) [98] 4, .nodeNewRefresh (some 2) [97] 4,
    .insert 0 true, .insert 2 true, .insert 1 true]

theorem sameKeyIndependent : ∃ s : State Nat, s.mask = 63 ∧ s.inserted = [1, 2, 0] ∧ ∃ s' before after rc out,
    runLookups s [.find [98], .findWithString (some [97]), .findWithString none] = some s' ∧ find s [97] = some (before, rc, out) ∧
      find s' [97] = some (after, rc, out) := by
  have evaluated : ((create (.finite (1 / 100)) true true).any fun first =>
      (executeAllowed step Lawful first sameKeyTwice).any fun s => s.mask = 63 ∧ s.inserted = [1, 2, 0]) = true := by
    decide +kernel
  obtain ⟨first, made, rest⟩ := (Option.any_eq_true _ _).mp evaluated
  obtain ⟨s, ran, checked⟩ := (Option.any_eq_true _ _).mp rest
  obtain ⟨mask, inserted⟩ := of_decide_eq_true checked
  exact ⟨s, mask, inserted, lookupsIndependent (executeAllowedReachable (.start ⟨_, _, _, made⟩) ran) _ _⟩

end Runs

section Strings

variable [DecidableEq κ]

/- The lookup of a string answers with a node of just that key, if the traversal of the string
has one to visit. -/
def ExactString (s : State κ) (string : List UInt8) : Prop :=
  ∃ t rc out, findWithString s (some string) = some (t, rc, out) ∧
    (rc = .ok → ∃ n node, out = some n ∧ n ∈ s.inserted ∧ s.nodes n = some node ∧ node.key.length = string.length ∧ node.key = string) ∧
    ∀ body, ∃ u visited, forEachWithStringSafe s string body = some (u, visited) ∧ (rc = .ok ↔ visited ≠ [])

/- The length of `string` does not fit 16 bits, and a node whose key is the part of `string` of the
length that is left is in the entry of the hash value of `string`, or comes there when the
entry is remade. -/
def Truncates (s : State κ) (string : List UInt8) : Prop :=
  2 ^ 16 ≤ string.length ∧ ∃ n ∈ s.inserted, ∃ node, s.nodes n = some node ∧ node.key = string.take (string.length % 2 ^ 16) ∧
    if needRemake s ((fnv1a string).toNat &&& s.mask) then node.hashVal.toNat &&& s.mask = (fnv1a string).toNat &&& s.mask
    else n ∈ bucket s ((fnv1a string).toNat &&& s.mask)

theorem visitsIff (table : Table k s) (string : List UInt8) (body : κ → Body) :
    ∃ u visited, forEachWithStringSafe s string body = some (u, visited) ∧
      (visited ≠ [] ↔ ∃ n ∈ s.inserted, (contents s).keyOf n = some string) := by
  obtain ⟨u, visited, ran, -, visits, -⟩ := forEachWithKeySafeSpec table string body
  refine ⟨u, visited, ran, ?_⟩
  constructor
  · intro some
    obtain ⟨n, inside⟩ := List.exists_mem_of_ne_nil visited some
    obtain ⟨member, named⟩ := List.mem_filter.mp (visits.mem_iff.mp inside)
    exact ⟨n, member, by simpa using named⟩
  · rintro ⟨n, member, named⟩
    exact List.ne_nil_of_mem (visits.mem_iff.mpr (List.mem_filter.mpr ⟨member, by simpa using named⟩))

theorem exactShort (table : Table k s) (short : string.length < 2 ^ 16) : ExactString s string := by
  obtain ⟨t, rc, out, ran, -, -, answers⟩ := findSpec table string
  refine ⟨t, rc, out, (findWithStringShort short).trans ran, fun ok => ?_, fun body => ?_⟩
  · cases answers with
    | found inside named =>
      obtain ⟨node, given, key⟩ := Option.map_eq_some_iff.mp named
      exact ⟨_, node, rfl, inside, given, by rw [key], key⟩
    | absent missing => cases ok
  · obtain ⟨u, visited, visits, iff⟩ := visitsIff table string body
    refine ⟨u, visited, visits, ?_⟩
    rw [iff]
    cases answers with
    | found inside named => exact ⟨fun _ => ⟨_, inside, named⟩, fun _ => rfl⟩
    | absent missing => exact ⟨nofun, fun ⟨n, inside, named⟩ => absurd named (missing n inside)⟩

theorem findLong (table : Table k s) (long : 2 ^ 16 ≤ string.length) :
    ∃ t rc out, findWithString s (some string) = some (t, rc, out) ∧ (rc = .ok ↔ Truncates s string) ∧
      ∀ n, out = some n → ∃ node, s.nodes n = some node ∧ node.key = string.take (string.length % 2 ^ 16) := by
  obtain ⟨t, nodes, walked, -, -, sameNodes, -, -, held, reach⟩ := findListHeadSeen table (fnv1a string)
  simp only [findWithString, walked, Option.map_some, hasKeySame sameNodes]
  have named : ∀ n, hasKey s (string.take (string.length % 2 ^ 16)) n = true ↔
      ∃ node, s.nodes n = some node ∧ node.key = string.take (string.length % 2 ^ 16) := by
    intro n
    rw [hasKeyIff]
    exact Option.map_eq_some_iff
  cases found : nodes.find? (hasKey s (string.take (string.length % 2 ^ 16))) with
  | some n =>
    have inside := List.mem_of_find?_eq_some found
    obtain ⟨node, given, key⟩ := (named n).mp (List.find?_some found)
    refine ⟨t, .ok, some n, rfl, ⟨fun _ => ⟨long, n, held n inside, node, given, key, ?_⟩, fun _ => rfl⟩, ?_⟩
    · have there := (reach n (held n inside)).mp inside
      rwa [entryGiven given, ← table.masked, ← table.masked] at there
    · rintro _ ⟨⟩
      exact ⟨node, given, key⟩
  | none =>
    refine ⟨t, .empty, none, rfl, ⟨(fun same => by cases same), ?_⟩, (fun n same => by cases same)⟩
    rintro ⟨-, n, inside, node, given, key, there⟩
    rw [table.masked, table.masked, ← entryGiven given] at there
    have member := (reach n inside).mpr there
    exact absurd ((named n).mpr ⟨node, given, key⟩) (List.find?_eq_none.mp found n member)

theorem exactIff (table : Table k s) (short : KeysShort (contents s)) (string : List UInt8) : ExactString s string ↔ ¬ Truncates s string := by
  rcases Nat.lt_or_ge string.length (2 ^ 16) with fits | long
  · exact ⟨fun _ truncates => absurd truncates.1 (Nat.not_le.mpr fits), fun _ => exactShort table fits⟩
  obtain ⟨t, rc, out, ran, confused, prefixed⟩ := findLong table long
  have unnamed : ¬ ∃ n ∈ s.inserted, (contents s).keyOf n = some string := fun ⟨n, _, named⟩ => Nat.not_lt.mpr long (short n string named)
  constructor
  · rintro ⟨t', rc', out', ran', -, visits⟩ truncates
    obtain ⟨rfl, rfl, rfl⟩ : t' = t ∧ rc' = rc ∧ out' = out := by simpa using ran'.symm.trans ran
    obtain ⟨u, visited, ran₁, iff⟩ := visits fun _ => .keep
    obtain ⟨u', visited', ran₂, iff'⟩ := visitsIff table string fun _ => .keep
    obtain ⟨-, rfl⟩ : u' = u ∧ visited' = visited := by simpa using ran₂.symm.trans ran₁
    exact unnamed (iff'.mp (iff.mp (confused.mpr truncates)))
  · intro exact_
    have missed : rc ≠ .ok := fun ok => exact_ (confused.mp ok)
    refine ⟨t, rc, out, ran, fun ok => absurd ok missed, fun body => ?_⟩
    obtain ⟨u, visited, visits, iff⟩ := visitsIff table string body
    exact ⟨u, visited, visits, fun ok => absurd ok missed, fun some => absurd (iff.mp some) unnamed⟩

/- The lookup of a string is exact unless the string is longer than any key and its length
without the bits past 16 is that of a key it begins with. -/
theorem exactStrings (reach : Reachable Starts step Lawful s) (string : List UInt8) : ExactString s string ↔ ¬ Truncates s string := by
  obtain ⟨k, table, short⟩ := lawfulReachable reach
  exact exactIff table short string

end Strings

theorem fnvStep (h : UInt32) (low : h.toNat % 16 = 5) : ((h ^^^ (50 : UInt8).toUInt32) * 16777619).toNat % 16 = 5 := by
  have mixed : (h.toNat ^^^ 50) % 2 ^ 4 = 7 := by
    rw [Nat.xor_mod_two_pow, show h.toNat % 2 ^ 4 = 5 from low]
    rfl
  have byte : ((50 : UInt8).toUInt32).toNat = 50 := rfl
  have prime : (16777619 : UInt32).toNat = 16777619 := rfl
  rw [UInt32.toNat_mul, UInt32.toNat_xor, byte, prime]
  omega

theorem fnvTwos (length : Nat) : (fnv1a (List.replicate length 50)).toNat &&& 15 = 5 := by
  have fold : ∀ h : UInt32, h.toNat % 16 = 5 →
      ((List.replicate length (50 : UInt8)).foldl (fun hash byte => (hash ^^^ byte.toUInt32) * 16777619) h).toNat % 16 = 5 := by
    induction length with
    | zero => exact fun h low => low
    | succ length ih => exact fun h low => ih _ (fnvStep h low)
  rw [show 15 = 2 ^ 4 - 1 from rfl, Nat.and_two_pow_sub_one_eq_mod]
  exact fold _ (by decide)

def oneTwo : List (Action Nat) := [.nodeNewRefresh (some 0) [50] 4, .insert 0 true]

theorem oneTwoReachable : ∃ s : State Nat, Reachable Starts step Lawful s ∧ s.mask = 15 ∧ s.inserted = [0] ∧
    s.nodes 0 = some ⟨fnv1a [50], 4, [50], true⟩ ∧ s.table 5 = some [0] := by
  have evaluated : ((create (.finite (3 / 4)) true true).any fun first =>
      (executeAllowed step Lawful first oneTwo).any fun s => s.mask = 15 ∧ s.inserted = [0] ∧
        s.nodes 0 = some ⟨fnv1a [50], 4, [50], true⟩ ∧ s.table 5 = some [0]) = true := by
    decide +kernel
  obtain ⟨first, made, rest⟩ := (Option.any_eq_true _ _).mp evaluated
  obtain ⟨s, ran, checked⟩ := (Option.any_eq_true _ _).mp rest
  exact ⟨s, executeAllowedReachable (.start ⟨_, _, _, made⟩) ran, of_decide_eq_true checked⟩

theorem longTwosConfused : ∃ s : State Nat, Reachable Starts step Lawful s ∧ ¬ ExactString s (List.replicate 65537 50) := by
  obtain ⟨s, reach, mask, inserted, node, entry⟩ := oneTwoReachable
  obtain ⟨k, table, short⟩ := lawfulReachable reach
  refine ⟨s, reach, fun exact_ => (exactIff table short _).mp exact_ ⟨by rw [List.length_replicate]; decide, 0, by simp [inserted], _, node, ?_, ?_⟩⟩
  · rw [List.length_replicate, List.take_replicate]
    rfl
  · have idx : (fnv1a (List.replicate 65537 50)).toNat &&& s.mask = 5 := by
      rw [mask, fnvTwos]
    rw [idx]
    simp [needRemake, bucket, entry]

theorem oneTwoExact : ∃ s : State Nat, s.inserted = [0] ∧ (ExactString s [50] ↔ ¬ Truncates s [50]) := by
  obtain ⟨s, reach, -, inserted, -⟩ := oneTwoReachable
  exact ⟨s, inserted, exactStrings reach [50]⟩

end Nanosig.Hashtbl
