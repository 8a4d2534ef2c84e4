import Nanosig.Hashtbl.Placement

/-! What the calls on nodes keep: the table holds the nodes inserted, near their hash values. -/
namespace Nanosig.Hashtbl

open Buckets

variable {κ : Type}

structure Table (k : Nat) (s : State κ) : Prop extends Shape k s where
  placed : Placed k s fun _ => False
  linked : ∀ n node, s.nodes n = some node → (node.linked = true ↔ n ∈ s.inserted)
  hashed : ∀ n node, n ∈ s.inserted → s.nodes n = some node → node.hashVal = fnv1a node.key
  counted : s.count = s.inserted.length
  positive : 0 < s.threshold
  filled : s.count ≤ s.threshold
  limited : s.threshold ≤ 2 ^ k

variable {k i : Nat} {s s' : State κ} {n : κ} {node : Node}

theorem placedFrom {except except' : κ → Prop} (placed : Placed k s except) (live : ∀ i, Live s' i ↔ Live s i)
    (origin : ∀ i n node, n ∈ bucket s' i → s'.nodes n = some node → ¬ except' n →
      i = node.hashVal.toNat % 2 ^ k ∨
        n ∈ bucket s i ∧ ¬ except n ∧ ∃ before, s.nodes n = some before ∧ before.hashVal = node.hashVal) :
    Placed k s' except' := by
  intro i n node inside given regular
  have same : Live s' = Live s := funext fun i => propext (live i)
  rw [same]
  rcases origin i n node inside given regular with here | ⟨before, regular', old, given', kept⟩
  · rw [here]
    exact homeSelf
  · rw [← kept]
    exact placed i n old before given' regular'

theorem Table.remade (table : Table k s) (rest : s' = { s with table := s'.table }) (shape : Shape k s') (placed : Placed k s' fun _ => False) :
    Table k s' := by
  obtain ⟨-, threshold, count, nodes, inserted⟩ := restFields rest
  exact {
    toShape := shape
    placed := placed
    linked := by rw [nodes, inserted]; exact table.linked
    hashed := by rw [nodes, inserted]; exact table.hashed
    counted := by rw [count, inserted]; exact table.counted
    positive := by rw [threshold]; exact table.positive
    filled := by rw [count, threshold]; exact table.filled
    limited := by rw [threshold]; exact table.limited }

theorem Table.inBucket (table : Table k s) (inserted : n ∈ s.inserted) (given : s.nodes n = some node)
    (live : Live s (node.hashVal.toNat % 2 ^ k)) : n ∈ bucket s (node.hashVal.toNat % 2 ^ k) := by
  obtain ⟨i, inside⟩ := table.mem.mp inserted
  have here := homeLive (table.placed i n node inside given id) live
  exact here ▸ inside

section Create

theorem createTable {loadFactor : LoadFactor} {headAllocated tableAllocated : Bool}
    (made : create loadFactor headAllocated tableAllocated = some s) : Table 4 s := by
  obtain ⟨factor, clamped, made⟩ := Option.bind_eq_some_iff.mp made
  split at made
  swap
  · cases made
  have most : factor ≤ 1 := by
    unfold LoadFactor.clamp at clamped
    split at clamped
    · cases clamped
    · split at clamped
      · cases clamped
      · cases clamped
        exact le_refl 1
    · split at clamped
      · cases clamped
      · split at clamped
        · cases clamped
          exact le_refl 1
        · cases clamped
          exact le_of_not_gt ‹_›
  have threshold : ⌊(minSize : ℚ) * factor⌋₊ ≤ 16 := by
    refine Nat.floor_le_of_le ?_
    simp only [minSize]
    norm_num
    linarith
  cases made
  exact {
    mask := rfl
    least := le_refl 4
    most := by decide
    above := fun i outside => if_neg (by simp only [minSize]; omega)
    first := fun i small => by simp [Live, small]
    present := by
      have empty : ∀ i, (if i < minSize then some [] else none : Option (List κ)).getD [] = [] := by
        intro i
        split <;> rfl
      simp [entries, gather, bucket, empty]
    distinct := List.nodup_nil
    allocated := fun n inside => absurd inside List.not_mem_nil
    placed := fun i n node _ given => nomatch given
    linked := fun n node given => nomatch given
    hashed := fun n node inside => absurd inside List.not_mem_nil
    counted := rfl
    positive := by
      simp only
      split <;> omega
    filled := Nat.zero_le _
    limited := by
      simp only
      split <;> omega }

end Create

section Calls

variable [DecidableEq κ]

omit [DecidableEq κ] in
theorem Shape.absent (shape : Shape k s) (free : s.nodes n = none) : n ∉ s.inserted := fun inside => by
  obtain ⟨old, given⟩ := shape.allocated n inside
  rw [free] at given
  cases given

theorem Table.hold (table : Table k s) {m : κ} (absent : m ∉ s.inserted) (node : Node) (unlinked : node.linked = false) :
    Table k { s with nodes := Function.update s.nodes m (some node) } := by
  have others : ∀ n, n ∈ s.inserted → Function.update s.nodes m (some node) n = s.nodes n := fun n inside =>
    Function.update_of_ne (by rintro rfl; exact absent inside) _ _
  exact { table with
    allocated := fun n inside => by
      obtain ⟨old, given⟩ := table.allocated n inside
      exact ⟨old, (others n inside).trans given⟩
    placed := placedFrom table.placed (fun _ => Iff.rfl) fun i n node inside given _ =>
      .inr ⟨inside, id, node, (others n (table.mem.mpr ⟨i, inside⟩)) ▸ given, rfl⟩
    linked := fun n node' given => by
      by_cases same : n = m
      · subst same
        simp only [Function.update_self, Option.some.injEq] at given
        subst given
        simp [unlinked, absent]
      · simp only [Function.update_of_ne same] at given
        exact table.linked n node' given
    hashed := fun n node' inside given => table.hashed n node' inside (others n inside ▸ given) }

theorem removeAbsent (shape : Shape k s) (absent : n ∉ s.inserted) : listRemove s.table n = s.table := by
  funext i
  unfold listRemove
  cases given : s.table i with
  | none => rfl
  | some nodes =>
    have outside : n ∉ nodes := fun inside => absent (shape.mem.mpr ⟨i, bucketOf given ▸ inside⟩)
    simp [List.erase_of_not_mem outside]

theorem Table.unlink (table : Table k s) (given : s.nodes n = some node) (left : Option Node) (unlinked : ∀ node' ∈ left, node'.linked = false) :
    Table k { s with
      table := if node.linked then listRemove s.table n else s.table
      count := if node.linked then s.count - 1 else s.count
      nodes := Function.update s.nodes n left
      inserted := s.inserted.erase n } := by
  have erased : (if node.linked then listRemove s.table n else s.table) = listRemove s.table n := by
    split
    · rfl
    · rename_i free
      exact (removeAbsent table.toShape fun inside => free ((table.linked n node given).mpr inside)).symm
  have live : ∀ i, Live { s with table := listRemove s.table n } i ↔ Live s i := fun i => liveRemove
  have others : ∀ m ∈ s.inserted.erase n, m ≠ n ∧ m ∈ s.inserted := fun m inside => table.distinct.mem_erase_iff.mp inside
  have kept : ∀ m, m ≠ n → Function.update s.nodes n left m = s.nodes m := fun m other => Function.update_of_ne other _ _
  rw [erased]
  exact {
    mask := table.mask
    least := table.least
    most := table.most
    above := fun i outside => by simp [listRemove, table.above i outside]
    first := fun i small => (live i).mpr (table.first i small)
    present := entriesRemove table.toShape
    distinct := table.distinct.erase n
    allocated := fun m inside => by
      obtain ⟨old, given'⟩ := table.allocated m (others m inside).2
      exact ⟨old, (kept m (others m inside).1).trans given'⟩
    placed := placedFrom table.placed live fun i m node' inside given' _ => by
      have inList : m ∈ (listRemove s.table n i).getD [] := inside
      rw [bucketRemove] at inList
      have before : m ≠ n ∧ m ∈ bucket s i := (table.bucketNodup i).mem_erase_iff.mp inList
      exact .inr ⟨before.2, id, node', kept m before.1 ▸ given', rfl⟩
    linked := fun m node' given' => by
      by_cases same : m = n
      · subst same
        simp only [Function.update_self] at given'
        simp [unlinked node' given', table.distinct.mem_erase_iff]
      · have before : s.nodes m = some node' := (kept m same).symm.trans given'
        exact (table.linked m node' before).trans
          ⟨fun inside => table.distinct.mem_erase_iff.mpr ⟨same, inside⟩, fun inside => (others m inside).2⟩
    hashed := fun m node' inside given' => table.hashed m node' (others m inside).2 (kept m (others m inside).1 ▸ given')
    counted := by
      by_cases inside : n ∈ s.inserted
      · simp only [(table.linked n node given).mpr inside, if_true, List.length_erase_of_mem inside, table.counted]
      · have free : node.linked = false := by
          rw [← Bool.not_eq_true, table.linked n node given]
          exact inside
        simp [free, List.erase_of_not_mem inside, table.counted]
    positive := table.positive
    filled := by
      have := table.filled
      simp only
      split <;> omega
    limited := table.limited }

theorem replaceAbsent (shape : Shape k s) (absent : n ∉ s.inserted) (new : κ) : listReplace s.table n new = s.table := by
  funext i
  unfold listReplace
  cases given : s.table i with
  | none => rfl
  | some nodes =>
    have same : nodes.map (fun m => if m = n then new else m) = nodes := by
      refine (List.map_congr_left fun m inside => if_neg ?_).trans (List.map_id nodes)
      rintro rfl
      exact absent (shape.mem.mpr ⟨i, bucketOf given ▸ inside⟩)
    simp [same]

section Replaced

variable {old new x : κ} {xs : List κ}

theorem bucketReplace (table : Nat → Option (List κ)) (old new : κ) (i : Nat) :
    (listReplace table old new i).getD [] = ((table i).getD []).map fun x => if x = old then new else x := by
  unfold listReplace
  cases table i <;> rfl

theorem memReplaced : x ∈ (xs.map fun y => if y = old then new else y) ↔ x = new ∧ old ∈ xs ∨ x ≠ old ∧ x ∈ xs := by
  rw [List.mem_map]
  constructor
  · rintro ⟨y, inside, rfl⟩
    by_cases same : y = old
    · subst same
      simp [inside]
    · simp [same, inside]
  · rintro (⟨rfl, inside⟩ | ⟨other, inside⟩)
    · exact ⟨old, inside, if_pos rfl⟩
    · exact ⟨x, inside, if_neg other⟩

theorem nodupReplaced (once : xs.Nodup) (absent : new ∉ xs) : (xs.map fun y => if y = old then new else y).Nodup := by
  refine List.Nodup.map_on (fun x inside y inside' same => ?_) once
  have apart : ∀ z ∈ xs, z ≠ new := by
    rintro z member rfl
    exact absent member
  by_cases atX : x = old
  · by_cases atY : y = old
    · rw [atX, atY]
    · rw [if_pos atX, if_neg atY] at same
      exact absurd same.symm (apart y inside')
  · by_cases atY : y = old
    · rw [if_neg atX, if_pos atY] at same
      exact absurd same (apart x inside)
    · rwa [if_neg atX, if_neg atY] at same

end Replaced

theorem Table.replace (table : Table k s) (given : s.nodes n = some node) {m : κ} (free : s.nodes m = none) (renewed : Node)
    (linked : renewed.linked = node.linked) (hashVal : renewed.hashVal = node.hashVal) (key : renewed.key = node.key) :
    Table k { s with
      table := if node.linked then listReplace s.table n m else s.table
      nodes := Function.update (Function.update s.nodes m (some renewed)) n none
      inserted := s.inserted.map fun x => if x = n then m else x } := by
  have apart : m ≠ n := by
    rintro rfl
    rw [free] at given
    cases given
  have absent : m ∉ s.inserted := table.absent free
  have replaced : (if node.linked then listReplace s.table n m else s.table) = listReplace s.table n m := by
    split
    · rfl
    · rename_i unlinked
      exact (replaceAbsent table.toShape (fun inside => unlinked ((table.linked n node given).mpr inside)) m).symm
  have buckets : ∀ i, (listReplace s.table n m i).getD [] = (bucket s i).map fun x => if x = n then m else x := bucketReplace s.table n m
  have live : ∀ i, listReplace s.table n m i ≠ none ↔ Live s i := by
    intro i
    simp [listReplace, Live]
  have renamed : ∀ x, x ∈ (s.inserted.map fun y => if y = n then m else y) ↔ x = m ∧ n ∈ s.inserted ∨ x ≠ n ∧ x ∈ s.inserted :=
    fun x => memReplaced
  have atNew : Function.update (Function.update s.nodes m (some renewed)) n none m = some renewed := by
    rw [Function.update_of_ne apart, Function.update_self]
  have kept : ∀ x, x ≠ n → x ≠ m → Function.update (Function.update s.nodes m (some renewed)) n none x = s.nodes x := by
    intro x other fresh
    rw [Function.update_of_ne other, Function.update_of_ne fresh]
  have old : ∀ x ∈ s.inserted, x ≠ m := by
    rintro x inside rfl
    exact absent inside
  rw [replaced]
  exact {
    mask := table.mask
    least := table.least
    most := table.most
    above := fun i outside => by simp [listReplace, table.above i outside]
    first := fun i small => (live i).mpr (table.first i small)
    present := by
      have gathered : entries k { s with table := listReplace s.table n m } = (entries k s).map fun x => if x = n then m else x := by
        rw [entries, entries, gather, gather, List.map_flatMap]
        exact gatherCongr fun i _ => buckets i
      have moved := table.present.map fun x => if x = n then m else x
      rw [← gathered] at moved
      exact moved
    distinct := nodupReplaced table.distinct absent
    allocated := fun x inside => by
      rcases (renamed x).mp inside with ⟨rfl, -⟩ | ⟨other, before⟩
      · exact ⟨renewed, atNew⟩
      · obtain ⟨node', given'⟩ := table.allocated x before
        exact ⟨node', (kept x other (old x before)).trans given'⟩
    placed := by
      intro i x node' inside given' _
      have same : Live { s with
          table := listReplace s.table n m
          nodes := Function.update (Function.update s.nodes m (some renewed)) n none
          inserted := s.inserted.map fun x => if x = n then m else x } = Live s := funext fun i => propext (live i)
      rw [same]
      have inList : x ∈ (listReplace s.table n m i).getD [] := inside
      rw [buckets, List.mem_map] at inList
      obtain ⟨y, before, atY⟩ := inList
      by_cases was : y = n
      · rw [if_pos was] at atY
        subst atY
        have stored : renewed = node' := Option.some.inj (atNew.symm.trans given')
        rw [← stored, hashVal]
        exact table.placed i n node (was ▸ before) given id
      · rw [if_neg was] at atY
        subst atY
        have inside' : y ∈ s.inserted := table.mem.mpr ⟨i, before⟩
        exact table.placed i y node' before ((kept y was (old y inside')).symm.trans given') id
    linked := fun x node' given' => by
      refine Iff.trans ?_ (renamed x).symm
      by_cases fresh : x = m
      · subst fresh
        have stored : renewed = node' := Option.some.inj (atNew.symm.trans given')
        rw [← stored, linked, table.linked n node given]
        simp [absent]
      · by_cases gone : x = n
        · subst gone
          simp only [Function.update_self] at given'
          cases given'
        · rw [table.linked x node' ((kept x gone fresh).symm.trans given')]
          simp [fresh, gone]
    hashed := fun x node' inside given' => by
      rcases (renamed x).mp inside with ⟨rfl, before⟩ | ⟨other, before⟩
      · have stored : renewed = node' := Option.some.inj (atNew.symm.trans given')
        rw [← stored, hashVal, key]
        exact table.hashed n node before given
      · exact table.hashed x node' before ((kept x other (old x before)).symm.trans given')
    counted := by
      rw [List.length_map]
      exact table.counted
    positive := table.positive
    filled := table.filled
    limited := table.limited }

omit [DecidableEq κ] in
theorem pushSpec {idx : Nat} (n : κ) (below : idx < 2 ^ k) (alive : Live s idx) :
    ∃ table, listPushFront s.table idx n = some table ∧ (entries k { s with table := table }).Perm (n :: entries k s) ∧
      (∀ i, Live { s with table := table } i ↔ Live s i) ∧
      ∀ i x, x ∈ bucket { s with table := table } i → i = idx ∧ x = n ∨ x ∈ bucket s i := by
  obtain ⟨nodes, given⟩ := liveSome alive
  refine ⟨Function.update s.table idx (some (n :: nodes)), by simp [listPushFront, given], entriesPush below given, fun i => ?_, fun i x inside => ?_⟩
  · by_cases same : i = idx
    · subst same
      simpa [Live] using alive
    · simp [Live, same]
  · by_cases same : i = idx
    · subst same
      simp only [bucket, Function.update_self, Option.getD_some] at inside
      rcases List.mem_cons.mp inside with first | later
      · exact .inl ⟨rfl, first⟩
      · exact .inr (bucketOf given ▸ later)
    · simp only [bucket, Function.update_of_ne same] at inside
      exact .inr inside

theorem Table.rekey (table : Table k s) (given : s.nodes n = some node) (linked : node.linked = true) (key : List UInt8) :
    ∃ s', ((tryRemake { s with nodes := Function.update s.nodes n (some { node with
          key := key
          hashVal := fnv1a key }) } ((fnv1a key).toNat &&& s.mask)).bind fun t =>
        (listPushFront (listRemove t.table n) ((fnv1a key).toNat &&& s.mask) n).map fun table => { t with table := table }) = some s' ∧
      Table k s' ∧ s'.inserted = s.inserted ∧ s'.nodes = Function.update s.nodes n (some { node with
        key := key
        hashVal := fnv1a key }) := by
  have below : (fnv1a key).toNat % 2 ^ k < 2 ^ k := Nat.mod_lt _ (Nat.two_pow_pos k)
  have inserted : n ∈ s.inserted := (table.linked n node given).mp linked
  rw [table.masked]
  let fresh : Node := { node with
    key := key
    hashVal := fnv1a key }
  let written : State κ := { s with nodes := Function.update s.nodes n (some fresh) }
  have kept : ∀ m, m ≠ n → written.nodes m = s.nodes m := fun m other => Function.update_of_ne other _ _
  have stored : written.nodes n = some fresh := Function.update_self _ _ _
  have shape : Shape k written := { table.toShape with
    allocated := fun m inside => by
      by_cases same : m = n
      · exact ⟨fresh, same ▸ stored⟩
      · obtain ⟨node', given'⟩ := table.allocated m inside
        exact ⟨node', (kept m same).trans given'⟩ }
  have placed : Placed k written fun m => m = n := placedFrom table.placed (fun _ => Iff.rfl) fun i m node' inside given' other =>
    .inr ⟨inside, id, node', (kept m other).symm.trans given', rfl⟩
  obtain ⟨t, ran, rest, shapeT, placedT, alive⟩ := tryRemakeSpec shape placed below fun m node' same given' => by
    subst same
    obtain rfl : fresh = node' := Option.some.inj (stored.symm.trans given')
    rfl
  obtain ⟨-, threshold, count, nodes, insertedT⟩ := restFields rest
  have aliveRemoved : Live { t with table := listRemove t.table n } ((fnv1a key).toNat % 2 ^ k) := liveRemove.mpr alive
  obtain ⟨table', pushed, present, live, buckets⟩ := pushSpec n below aliveRemoved
  have present' : (entries k { t with table := table' }).Perm t.inserted :=
    present.trans (((entriesRemove shapeT).cons n).trans (List.perm_cons_erase (insertedT ▸ inserted)).symm)
  have live' : ∀ i, Live { t with table := table' } i ↔ Live t i := fun i => (live i).trans liveRemove
  have shape' : Shape k { t with table := table' } :=
    shapeT.ofTable rfl (fun i living => shapeT.below ((live' i).mp living)) (fun i living => (live' i).mpr living) present'
  have stays : ∀ m, t.nodes m = written.nodes m := fun m => by rw [nodes]
  refine ⟨{ t with table := table' }, ?_, {
    toShape := shape'
    placed := placedFrom placedT live' fun i m node' inside given' _ => ?_
    linked := fun m node' given' => ?_
    hashed := fun m node' inside given' => ?_
    counted := by rw [count, insertedT]; exact table.counted
    positive := by rw [threshold]; exact table.positive
    filled := by rw [count, threshold]; exact table.filled
    limited := by rw [threshold]; exact table.limited }, insertedT, nodes⟩
  · have ran' : tryRemake { s with nodes := Function.update s.nodes n (some { node with
        key := key
        hashVal := fnv1a key }) } ((fnv1a key).toNat % 2 ^ k) = some t := ran
    rw [ran', Option.bind_some, pushed, Option.map_some]
  · rcases buckets i m inside with ⟨here, rfl⟩ | before
    · obtain rfl : fresh = node' := Option.some.inj (stored.symm.trans ((stays m).symm.trans given'))
      exact .inl here
    · have inList : m ∈ (listRemove t.table n i).getD [] := before
      rw [bucketRemove] at inList
      obtain ⟨other, inside'⟩ := (shapeT.bucketNodup i).mem_erase_iff.mp inList
      exact .inr ⟨inside', other, node', given', rfl⟩
  · rw [show ({ t with table := table' } : State κ).inserted = s.inserted from insertedT]
    by_cases same : m = n
    · subst same
      obtain rfl : fresh = node' := Option.some.inj (stored.symm.trans ((stays m).symm.trans given'))
      exact ⟨fun _ => inserted, fun _ => linked⟩
    · exact table.linked m node' ((kept m same).symm.trans ((stays m).symm.trans given'))
  · by_cases same : m = n
    · subst same
      obtain rfl : fresh = node' := Option.some.inj (stored.symm.trans ((stays m).symm.trans given'))
      rfl
    · exact table.hashed m node' (insertedT ▸ inside) ((kept m same).symm.trans ((stays m).symm.trans given'))

theorem changeKeySpec (table : Table k s) (given : s.nodes n = some node) (key : List UInt8) :
    ∃ s', changeKey s n key = some s' ∧ Table k s' ∧ s'.inserted = s.inserted ∧
      s'.nodes = Function.update s.nodes n (some { node with
        key := key
        hashVal := fnv1a key }) := by
  simp only [changeKey, nodeKeyRefresh, given, Option.bind_some, Function.update_self, Function.update_idem]
  split
  · rename_i linked
    exact table.rekey given linked key
  · rename_i unlinked
    have absent : n ∉ s.inserted := fun inside => unlinked ((table.linked n node given).mpr inside)
    exact ⟨_, rfl, table.hold absent _ (by simpa using unlinked), rfl, rfl⟩

omit [DecidableEq κ] in
theorem resizeSpec (table : Table k s) (allocated : Bool) :
    resize s allocated = (s, .nomem) ∨
      ∃ s', resize s allocated = (s', .ok) ∧ Table (k + 1) s' ∧ s'.threshold = 2 * s.threshold ∧
        s'.count = s.count ∧ s'.nodes = s.nodes ∧ s'.inserted = s.inserted := by
  unfold resize
  split
  · exact .inl rfl
  · rename_i small
    split
    swap
    · exact .inl rfl
    have mask := table.mask
    have power : 2 ^ k < 2 ^ 31 := by
      have positive := Nat.two_pow_pos k
      omega
    have less : k < 31 := (Nat.pow_lt_pow_iff_right (by decide)).mp power
    have doubled : 2 ^ (k + 1) = 2 * 2 ^ k := by rw [Nat.pow_succ, Nat.mul_comm]
    have limited := table.limited
    have same : (fun i => if i < s.mask + 1 then s.table i else none) = s.table := by
      funext i
      split
      · rfl
      · exact (table.above i (by omega)).symm
    have threshold : 2 * s.threshold % 2 ^ 32 = 2 * s.threshold := Nat.mod_eq_of_lt (by omega)
    refine .inr ⟨_, rfl, ?_, threshold, rfl, rfl, rfl⟩
    simp only [same, threshold]
    exact {
      mask := by
        simp only
        have positive := Nat.two_pow_pos k
        omega
      least := Nat.le_succ_of_le table.least
      most := less
      above := fun i outside => table.above i (by omega)
      first := table.first
      present := by
        have whole : entries (k + 1) s = entries k s :=
          gatherEmptyAbove (by omega) fun j outside _ => by simp [bucket, table.above j outside]
        exact whole ▸ table.present
      distinct := table.distinct
      allocated := table.allocated
      placed := fun i n node inside given regular =>
        homeDouble (table.placed i n node inside given regular) fun b outside alive => alive (table.above b outside)
      linked := table.linked
      hashed := table.hashed
      counted := table.counted
      positive := by
        have := table.positive
        simp only
        omega
      filled := by
        have := table.filled
        simp only
        omega
      limited := by
        simp only
        omega }

theorem Table.push (table : Table k s) (given : s.nodes n = some node) (absent : n ∉ s.inserted) (hashVal : node.hashVal = fnv1a node.key)
    (room : s.count + 1 ≤ s.threshold) :
    ∃ s', ((tryRemake s (node.hashVal.toNat &&& s.mask)).bind fun t =>
        (listPushFront t.table (node.hashVal.toNat &&& s.mask) n).map fun table =>
          (({ t with
            table := table
            count := (t.count + 1) % 2 ^ 32
            nodes := Function.update t.nodes n (some { node with linked := true })
            inserted := n :: t.inserted } : State κ), Status.ok)) = some (s', .ok) ∧
      Table k s' ∧ s'.inserted = n :: s.inserted ∧ s'.nodes = Function.update s.nodes n (some { node with linked := true }) := by
  have below : node.hashVal.toNat % 2 ^ k < 2 ^ k := Nat.mod_lt _ (Nat.two_pow_pos k)
  rw [table.masked]
  obtain ⟨t, ran, rest, shapeT, placedT, alive⟩ := tryRemakeSpec table.toShape table.placed below fun _ _ never _ => never.elim
  obtain ⟨-, threshold, count, nodes, inserted⟩ := restFields rest
  have tableT : Table k t := table.remade rest shapeT placedT
  obtain ⟨table', pushed, present, live, buckets⟩ := pushSpec n below alive
  have counts : (t.count + 1) % 2 ^ 32 = t.count + 1 := by
    have limited := table.limited
    have power : 2 ^ k ≤ 2 ^ 31 := Nat.pow_le_pow_right (by decide) table.most
    rw [count]
    exact Nat.mod_eq_of_lt (by omega)
  have absentT : n ∉ t.inserted := inserted ▸ absent
  have others : ∀ m, m ≠ n → Function.update t.nodes n (some { node with linked := true }) m = t.nodes m :=
    fun m other => Function.update_of_ne other _ _
  refine ⟨_, by rw [ran, Option.bind_some, pushed, Option.map_some], ?_, by rw [inserted], by rw [nodes]⟩
  rw [counts]
  exact {
    mask := tableT.mask
    least := tableT.least
    most := tableT.most
    above := fun i outside => by
      by_contra living
      exact (live i).mp living (tableT.above i outside)
    first := fun i small => (live i).mpr (tableT.first i small)
    present := present.trans (tableT.present.cons n)
    distinct := List.nodup_cons.mpr ⟨absentT, tableT.distinct⟩
    allocated := fun m inside => by
      by_cases same : m = n
      · subst same
        exact ⟨_, Function.update_self _ _ _⟩
      · obtain ⟨node', given'⟩ := tableT.allocated m ((List.mem_cons.mp inside).resolve_left same)
        exact ⟨node', (others m same).trans given'⟩
    placed := placedFrom placedT live fun i m node' inside given' _ => by
      rcases buckets i m inside with ⟨here, rfl⟩ | before
      · left
        simp only [Function.update_self, Option.some.injEq] at given'
        rw [here, ← given']
      · have other : m ≠ n := by
          rintro rfl
          exact absentT (tableT.mem.mpr ⟨i, before⟩)
        exact .inr ⟨before, id, node', (others m other).symm.trans given', rfl⟩
    linked := fun m node' given' => by
      by_cases same : m = n
      · subst same
        simp only [Function.update_self, Option.some.injEq] at given'
        simp [← given']
      · refine (tableT.linked m node' ((others m same).symm.trans given')).trans ?_
        simp [same]
    hashed := fun m node' inside given' => by
      by_cases same : m = n
      · subst same
        simp only [Function.update_self, Option.some.injEq] at given'
        rw [← given']
        exact hashVal
      · exact tableT.hashed m node' ((List.mem_cons.mp inside).resolve_left same) ((others m same).symm.trans given')
    counted := by
      rw [List.length_cons, ← tableT.counted]
    positive := tableT.positive
    filled := by
      simp only
      rw [count, threshold]
      exact room
    limited := tableT.limited }

theorem insertSpec (table : Table k s) (given : s.nodes n = some node) (hashVal : node.hashVal = fnv1a node.key) (allocated : Bool) :
    ∃ s' rc, insert s n allocated = some (s', rc) ∧
      (rc = .exists ∧ n ∈ s.inserted ∧ s' = s ∨ rc = .nomem ∧ n ∉ s.inserted ∧ s' = s ∨
        rc = .ok ∧ n ∉ s.inserted ∧ (∃ k', Table k' s') ∧ s'.inserted = n :: s.inserted ∧
          s'.nodes = Function.update s.nodes n (some { node with linked := true })) := by
  simp only [insert, given, Option.bind_some]
  split
  · rename_i linked
    exact ⟨s, .exists, rfl, .inl ⟨rfl, (table.linked n node given).mp linked, rfl⟩⟩
  rename_i unlinked
  have absent : n ∉ s.inserted := fun inside => unlinked ((table.linked n node given).mpr inside)
  have filled := table.filled
  have limited := table.limited
  have positive := table.positive
  have power : 2 ^ k ≤ 2 ^ 31 := Nat.pow_le_pow_right (by decide) table.most
  have counts : (s.count + 1) % 2 ^ 32 = s.count + 1 := Nat.mod_eq_of_lt (by omega)
  have mask : s.mask ≠ 2 ^ 32 - 1 := by
    rw [table.mask]
    omega
  by_cases full : s.threshold ≤ (s.count + 1) % 2 ^ 32 ∧ s.mask ≠ 2 ^ 32 - 1
  · simp only [if_pos full]
    rcases resizeSpec table allocated with failed | ⟨s₁, grown, table₁, threshold, count, nodes, inserted⟩
    · rw [failed]
      exact ⟨s, .nomem, rfl, .inr (.inl ⟨rfl, absent, rfl⟩)⟩
    · rw [grown, if_pos rfl]
      obtain ⟨s', ran, table', inserted', nodes'⟩ := table₁.push (nodes ▸ given) (inserted ▸ absent) hashVal (by omega)
      exact ⟨s', .ok, ran, .inr (.inr ⟨rfl, absent, ⟨k + 1, table'⟩, inserted ▸ inserted', nodes ▸ nodes'⟩)⟩
  · simp only [if_neg full, if_true]
    have room : s.count + 1 ≤ s.threshold := by
      rw [counts] at full
      by_contra crowded
      exact full ⟨by omega, mask⟩
    obtain ⟨s', ran, table', inserted', nodes'⟩ := table.push given absent hashVal room
    exact ⟨s', .ok, ran, .inr (.inr ⟨rfl, absent, ⟨k, table'⟩, inserted', nodes'⟩)⟩

end Calls

end Nanosig.Hashtbl
