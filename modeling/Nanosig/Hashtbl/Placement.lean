import Nanosig.Hashtbl.Hashtbl
import Nanosig.Lib.Buckets

/-! Where the nodes are: in the live entry nearest to their hash value, through every remake
of an entry and every doubling of the table. -/
namespace Nanosig.Hashtbl

open Buckets

variable {κ : Type}

def bucket (s : State κ) (i : Nat) : List κ := (s.table i).getD []

def Live (s : State κ) (i : Nat) : Prop := s.table i ≠ none

def entries (k : Nat) (s : State κ) : List κ := gather (2 ^ k) (bucket s)

structure Shape (k : Nat) (s : State κ) : Prop where
  mask : s.mask = 2 ^ k - 1
  least : 4 ≤ k
  most : k ≤ 31
  above : ∀ i, 2 ^ k ≤ i → s.table i = none
  first : ∀ i, i < minSize → Live s i
  present : (entries k s).Perm s.inserted
  distinct : s.inserted.Nodup
  allocated : ∀ n ∈ s.inserted, ∃ node, s.nodes n = some node

/- Each node but those of `except` is in the live entry nearest to its hash value. -/
def Placed (k : Nat) (s : State κ) (except : κ → Prop) : Prop :=
  ∀ i n node, n ∈ bucket s i → s.nodes n = some node → ¬ except n → Home (Live s) k node.hashVal.toNat i

variable {k i : Nat} {s : State κ} {n : κ}

theorem bucketLive (inside : n ∈ bucket s i) : Live s i := by
  intro dead
  simp [bucket, dead] at inside

theorem bucketOf {nodes : List κ} (given : s.table i = some nodes) : bucket s i = nodes := by
  simp [bucket, given]

theorem liveSome (alive : Live s i) : ∃ nodes, s.table i = some nodes := Option.ne_none_iff_exists'.mp alive

theorem Shape.below (shape : Shape k s) (alive : Live s i) : i < 2 ^ k := by
  by_contra outside
  exact alive (shape.above i (by omega))

theorem Shape.mem (shape : Shape k s) : n ∈ s.inserted ↔ ∃ i, n ∈ bucket s i := by
  rw [← shape.present.mem_iff, entries, memGather]
  constructor
  · rintro ⟨i, -, inside⟩
    exact ⟨i, inside⟩
  · rintro ⟨i, inside⟩
    exact ⟨i, shape.below (bucketLive inside), inside⟩

theorem Shape.bucketNodup (shape : Shape k s) (i : Nat) : (bucket s i).Nodup := by
  rcases Nat.lt_or_ge i (2 ^ k) with below | outside
  · have whole : (entries k s).Nodup := shape.present.nodup_iff.mpr shape.distinct
    exact (List.nodup_flatMap.mp whole).1 i (List.mem_range.mpr below)
  · simp [bucket, shape.above i outside]

theorem Shape.masked (shape : Shape k s) (h : Nat) : h &&& s.mask = h % 2 ^ k := by
  rw [shape.mask, Nat.and_two_pow_sub_one_eq_mod]

theorem restFields {t : State κ} (rest : t = { s with table := t.table }) :
    t.mask = s.mask ∧ t.threshold = s.threshold ∧ t.count = s.count ∧ t.nodes = s.nodes ∧ t.inserted = s.inserted := by
  rw [rest]
  exact ⟨rfl, rfl, rfl, rfl, rfl⟩

theorem Shape.ofTable {t : State κ} (shape : Shape k s) (rest : t = { s with table := t.table })
    (within : ∀ i, Live t i → i < 2 ^ k) (kept : ∀ i, Live s i → Live t i) (present : (entries k t).Perm s.inserted) : Shape k t := by
  have inserted : t.inserted = s.inserted := by rw [rest]
  exact {
    mask := by rw [rest]; exact shape.mask
    least := shape.least
    most := shape.most
    above := fun i outside => by
      by_contra alive
      exact absurd (within i alive) (Nat.not_lt.mpr outside)
    first := fun i small => kept i (shape.first i small)
    present := by rw [inserted]; exact present
    distinct := by rw [inserted]; exact shape.distinct
    allocated := fun n inside => by
      rw [rest]
      exact shape.allocated n (inserted ▸ inside) }

theorem entriesPush {nodes : List κ} (below : i < 2 ^ k) (given : s.table i = some nodes) :
    (entries k { s with table := Function.update s.table i (some (n :: nodes)) }).Perm (n :: entries k s) := by
  have changed : entries k { s with table := Function.update s.table i (some (n :: nodes)) } =
      gather (2 ^ k) (Function.update (bucket s) i (n :: bucket s i)) := by
    refine gatherCongr fun j _ => ?_
    by_cases same : j = i
    · subst same
      simp [bucket, given]
    · simp [bucket, same]
  rw [changed]
  exact gatherCons below n

theorem entriesInit (k : Nat) (s : State κ) (i : Nat) : entries k (listInit s i) = entries k s := by
  refine gatherCongr fun j _ => ?_
  unfold listInit
  split
  · rename_i dead
    by_cases same : j = i
    · subst same
      simp only [needRemake, Option.isNone_iff_eq_none] at dead
      simp [bucket, dead]
    · simp [bucket, same]
  · rfl

theorem liveInit {j : Nat} : Live (listInit s i) j ↔ Live s j ∨ j = i := by
  unfold listInit Live
  split
  · by_cases same : j = i
    · subst same
      simp
    · simp [same]
  · rename_i alive
    simp only [needRemake, Bool.not_eq_true, Option.isNone_eq_false_iff, Option.isSome_iff_ne_none] at alive
    constructor
    · exact fun given => .inl given
    · rintro (given | same)
      · exact given
      · exact same ▸ alive

theorem bucketInit {j : Nat} : bucket (listInit s i) j = bucket s j := by
  unfold listInit
  split
  · rename_i dead
    by_cases same : j = i
    · subst same
      simp only [needRemake, Option.isNone_iff_eq_none] at dead
      simp [bucket, dead]
    · simp [bucket, same]
  · rfl

theorem initTable (s : State κ) (i : Nat) : listInit s i = { s with table := (listInit s i).table } := by
  unfold listInit
  split <;> rfl

section Lists

variable [DecidableEq κ]

theorem bucketRemove (table : Nat → Option (List κ)) (i : Nat) :
    (listRemove table n i).getD [] = ((table i).getD []).erase n := by
  unfold listRemove
  cases table i <;> rfl

theorem entriesRemove (shape : Shape k s) : (entries k { s with table := listRemove s.table n }).Perm (s.inserted.erase n) := by
  have whole : (entries k s).Nodup := shape.present.nodup_iff.mpr shape.distinct
  have erased : entries k { s with table := listRemove s.table n } = (entries k s).erase n := by
    rw [entries, entries, ← gatherErase whole]
    exact gatherCongr fun i _ => bucketRemove s.table i
  rw [erased]
  exact shape.present.erase n

end Lists

theorem remakeMaskSpec (shape : Shape k s) (idx fuel a : Nat) (enough : a ≤ fuel) (within : a ≤ k)
    (dead : ∀ j ≤ k, a < j → ¬ Live s (idx % 2 ^ j)) :
    Live s (idx &&& remakeMask s idx fuel (2 ^ a - 1)) ∧ Home (Live s) k idx (idx &&& remakeMask s idx fuel (2 ^ a - 1)) := by
  have least : Live s (idx % 2 ^ 0) := by
    rw [Nat.pow_zero, Nat.mod_one]
    exact shape.first 0 (by decide)
  induction fuel generalizing a with
  | zero =>
    obtain rfl : a = 0 := by omega
    simp only [remakeMask, Nat.and_two_pow_sub_one_eq_mod]
    exact ⟨least, 0, within, rfl, dead⟩
  | succ fuel ih =>
    unfold remakeMask
    split
    · rename_i goes
      obtain ⟨positive, remade⟩ := goes
      cases a with
      | zero => exact absurd rfl positive
      | succ a =>
        have halved : (2 ^ (a + 1) - 1) >>> 1 = 2 ^ a - 1 := by
          rw [Nat.shiftRight_eq_div_pow, Nat.pow_succ]
          omega
        rw [halved]
        refine ih a (by omega) (by omega) fun j bounded beyond => ?_
        rcases Nat.lt_or_ge (a + 1) j with past | here
        · exact dead j bounded past
        · obtain rfl : j = a + 1 := by omega
          simpa [needRemake, Nat.and_two_pow_sub_one_eq_mod, Live] using remade
    · rename_i stops
      rw [Nat.and_two_pow_sub_one_eq_mod]
      refine ⟨?_, a, within, rfl, dead⟩
      by_contra remade
      refine stops ⟨fun nothing => ?_, by simpa [needRemake, Nat.and_two_pow_sub_one_eq_mod, Live] using remade⟩
      have zero : a = 0 := by
        have := Nat.one_lt_two_pow_iff (n := a)
        omega
      exact remade (zero ▸ least)

structure Remaking (k : Nat) (s : State κ) (old : Nat) (pending : List κ) (t : State κ) : Prop where
  rest : t = { s with table := t.table }
  present : (entries k t).Perm (entries k s)
  kept : ∀ i, Live s i → Live t i
  made : ∀ b, Live t b → ¬ Live s b → ∃ n ∈ bucket s old, ∃ node, s.nodes n = some node ∧ b = node.hashVal.toNat % 2 ^ k
  placed : ∀ i n, n ∈ bucket t i →
    i ≠ old ∧ n ∈ bucket s i ∨ n ∈ pending ∧ i = old ∨ ∃ node, s.nodes n = some node ∧ i = node.hashVal.toNat % 2 ^ k
  waiting : ∀ n ∈ pending, n ∈ bucket t old ∧ n ∈ bucket s old
  once : pending.Nodup

theorem Remaking.shape {old : Nat} {pending : List κ} {t : State κ} (inv : Remaking k s old pending t) (shape : Shape k s) : Shape k t := by
  refine shape.ofTable inv.rest (fun b alive => ?_) inv.kept (inv.present.trans shape.present)
  by_cases before : Live s b
  · exact shape.below before
  · obtain ⟨-, -, node, -, at_⟩ := inv.made b alive before
    rw [at_]
    exact Nat.mod_lt _ (Nat.two_pow_pos k)

theorem remakeStart {old : Nat} {nodes : List κ} (shape : Shape k s) (given : s.table old = some nodes) : Remaking k s old nodes s where
  rest := rfl
  present := List.Perm.refl _
  kept := fun _ alive => alive
  made := fun _ alive dead => absurd alive dead
  placed := fun i n inside => by
    by_cases same : i = old
    · subst same
      exact .inr (.inl ⟨bucketOf given ▸ inside, rfl⟩)
    · exact .inl ⟨same, inside⟩
  waiting := fun n inside => by
    rw [bucketOf given]
    exact ⟨inside, inside⟩
  once := bucketOf given ▸ shape.bucketNodup old

section Remake

variable [DecidableEq κ]

theorem liveRemove {j : Nat} : Live { s with table := listRemove s.table n } j ↔ Live s j := by
  simp [Live, listRemove]

theorem moveSpec {new : Nat} (shape : Shape k s) (inserted : n ∈ s.inserted) (below : new < 2 ^ k) :
    ∃ table, listPushFront (listInit { s with table := listRemove s.table n } new).table new n = some table ∧
      (entries k { s with table := table }).Perm s.inserted ∧
      (∀ j, Live { s with table := table } j ↔ Live s j ∨ j = new) ∧
      ∀ j, bucket { s with table := table } j = if j = new then n :: (bucket s j).erase n else (bucket s j).erase n := by
  let removed : State κ := { s with table := listRemove s.table n }
  have removedBucket : ∀ j, bucket (listInit removed new) j = (bucket s j).erase n := fun j => by
    rw [bucketInit]
    exact bucketRemove s.table j
  obtain ⟨nodes, given⟩ := liveSome (liveInit.mpr (.inr rfl) : Live (listInit removed new) new)
  refine ⟨Function.update (listInit removed new).table new (some (n :: nodes)), by simp only [listPushFront, removed] at given ⊢; rw [given]; rfl,
    ?_, fun j => ?_, fun j => ?_⟩
  · have pushed := entriesPush (n := n) below given
    rw [entriesInit] at pushed
    exact pushed.trans (((entriesRemove shape).cons n).trans (List.perm_cons_erase inserted).symm)
  · by_cases same : j = new
    · simp [Live, same]
    · have before : Live (listInit removed new) j ↔ Live s j := by
        rw [liveInit, liveRemove]
        simp [same]
      simpa [Live, same] using before
  · by_cases same : j = new
    · have head : nodes = (bucket s new).erase n := (bucketOf given).symm.trans (removedBucket new)
      simp [bucket, same, head]
    · have before := removedBucket j
      simpa [bucket, same] using before

theorem remakeNodeSpec {old : Nat} {pending : List κ} {t : State κ} (shape : Shape k s) (inv : Remaking k s old (n :: pending) t) :
    ∃ t', remakeNode old t n = some t' ∧ Remaking k s old pending t' := by
  have shapeT := inv.shape shape
  obtain ⟨inOld, inSource⟩ := inv.waiting n List.mem_cons_self
  obtain ⟨node, given⟩ := shape.allocated n (shape.mem.mpr ⟨old, inSource⟩)
  have givenT : t.nodes n = some node := by rw [inv.rest]; exact given
  obtain ⟨absent, once⟩ := List.nodup_cons.mp inv.once
  simp only [remakeNode, givenT, Option.bind_some, shapeT.masked]
  split
  · rename_i stays
    refine ⟨t, rfl, { inv with
      placed := fun i m inside => ?_
      waiting := fun m inside => inv.waiting m (List.mem_cons_of_mem _ inside)
      once := once }⟩
    rcases inv.placed i m inside with elsewhere | ⟨waits, at_⟩ | done
    · exact .inl elsewhere
    · rcases List.mem_cons.mp waits with same | later
      · subst same
        exact .inr (.inr ⟨node, given, by rw [at_, stays]⟩)
      · exact .inr (.inl ⟨later, at_⟩)
    · exact .inr (.inr done)
  · rename_i moves
    have below : node.hashVal.toNat % 2 ^ k < 2 ^ k := Nat.mod_lt _ (Nat.two_pow_pos k)
    have insertedT : n ∈ t.inserted := shapeT.mem.mpr ⟨old, inOld⟩
    obtain ⟨table, pushed, present, live, buckets⟩ := moveSpec shapeT insertedT below
    refine ⟨{ t with table := table }, ?_, ?_⟩
    · rw [pushed, Option.map_some, initTable]
    exact {
      rest := by
        obtain ⟨mask, threshold, count, nodes, inserted⟩ := restFields inv.rest
        simp only [mask, threshold, count, nodes, inserted]
      present := present.trans (shapeT.present.symm.trans inv.present)
      kept := fun i alive => (live i).mpr (.inl (inv.kept i alive))
      made := fun b alive dead => by
        rcases (live b).mp alive with before | same
        · exact inv.made b before dead
        · exact ⟨n, inSource, node, given, same⟩
      placed := fun i m inside => by
        rw [buckets] at inside
        have apart : m ∈ (bucket t i).erase n → i ≠ old ∧ m ∈ bucket s i ∨ m ∈ pending ∧ i = old ∨
            ∃ node, s.nodes m = some node ∧ i = node.hashVal.toNat % 2 ^ k := by
          intro stayed
          obtain ⟨other, before⟩ := (shapeT.bucketNodup i).mem_erase_iff.mp stayed
          rcases inv.placed i m before with elsewhere | ⟨waits, at_⟩ | done
          · exact .inl elsewhere
          · exact .inr (.inl ⟨(List.mem_cons.mp waits).resolve_left other, at_⟩)
          · exact .inr (.inr done)
        by_cases same : i = node.hashVal.toNat % 2 ^ k
        · rw [if_pos same] at inside
          rcases List.mem_cons.mp inside with first | stayed
          · exact .inr (.inr ⟨node, first ▸ given, same⟩)
          · exact apart stayed
        · rw [if_neg same] at inside
          exact apart inside
      waiting := fun m inside => by
        obtain ⟨before, source⟩ := inv.waiting m (List.mem_cons_of_mem _ inside)
        refine ⟨?_, source⟩
        have other : m ≠ n := fun same => absent (same ▸ inside)
        rw [buckets, if_neg (Ne.symm moves)]
        exact (shapeT.bucketNodup old).mem_erase_iff.mpr ⟨other, before⟩
      once := once }

theorem remakeNodesSpec {old : Nat} {pending : List κ} {t : State κ} (shape : Shape k s) (inv : Remaking k s old pending t) :
    ∃ t', pending.foldlM (remakeNode old) t = some t' ∧ Remaking k s old [] t' := by
  induction pending generalizing t with
  | nil => exact ⟨t, rfl, inv⟩
  | cons n pending ih =>
    obtain ⟨t₁, ran, inv₁⟩ := remakeNodeSpec shape inv
    obtain ⟨t₂, ended, inv₂⟩ := ih inv₁
    exact ⟨t₂, by simp [List.foldlM_cons, ran, ended], inv₂⟩

theorem tryRemakeDead {idx : Nat} (shape : Shape k s) (below : idx < 2 ^ k) (dead : ¬ Live s idx) :
    ∃ old nodes, s.table old = some nodes ∧ Home (Live s) k idx old ∧
      tryRemake s idx = (nodes.foldlM (remakeNode old) s).map fun t => listInit t idx := by
  have halved : s.mask >>> 1 = 2 ^ (k - 1) - 1 := by
    obtain ⟨k, rfl⟩ : ∃ k', k = k' + 1 := ⟨k - 1, by have := shape.least; omega⟩
    rw [shape.mask, Nat.shiftRight_eq_div_pow, Nat.pow_succ, Nat.add_sub_cancel]
    omega
  have idxMod : idx % 2 ^ k = idx := Nat.mod_eq_of_lt below
  obtain ⟨source, homeIdx⟩ := remakeMaskSpec shape idx 32 (k - 1) (by have := shape.most; omega) (by omega) fun j within beyond => by
    obtain rfl : j = k := by omega
    rwa [idxMod]
  rw [← halved] at source homeIdx
  obtain ⟨nodes, given⟩ := liveSome source
  have remade : needRemake s idx = true := by simpa [needRemake, Live] using dead
  exact ⟨_, nodes, given, homeIdx, by rw [tryRemake, if_pos remade]; simp only [given, Option.bind_some]⟩

/- A remake of the entry `idx`: it is live then, only the table changes, and the nodes stay
nearest to their hash values. A node of `except` is refreshed to a hash value of that entry. -/
theorem tryRemakeSpec {idx : Nat} {except : κ → Prop} (shape : Shape k s) (placed : Placed k s except) (below : idx < 2 ^ k)
    (refreshed : ∀ n node, except n → s.nodes n = some node → node.hashVal.toNat % 2 ^ k = idx) :
    ∃ s', tryRemake s idx = some s' ∧ s' = { s with table := s'.table } ∧ Shape k s' ∧ Placed k s' except ∧ Live s' idx := by
  by_cases alive : Live s idx
  · have settled : needRemake s idx = false := by simpa [needRemake, Live, Option.isSome_iff_ne_none] using alive
    exact ⟨s, by rw [tryRemake, settled]; rfl, rfl, shape, placed, alive⟩
  obtain ⟨old, nodes, given, homeIdx, ran₀⟩ := tryRemakeDead shape below alive
  have source : Live s old := by simp [Live, given]
  obtain ⟨t, ran, inv⟩ := remakeNodesSpec shape (remakeStart shape given)
  obtain ⟨mask, threshold, count, nodesSame, inserted⟩ := restFields inv.rest
  have shapeT := inv.shape shape
  have live : ∀ j, Live (listInit t idx) j ↔ Live t j ∨ j = idx := fun j => liveInit
  have rest : listInit t idx = { s with table := (listInit t idx).table } := by
    conv_lhs => rw [initTable t idx]
    simp only [mask, threshold, count, nodesSame, inserted]
  have shape' : Shape k (listInit t idx) := by
    refine shape.ofTable rest (fun i alive => ?_) (fun i alive => (live i).mpr (.inl (inv.kept i alive))) ?_
    · rcases (live i).mp alive with before | rfl
      · exact shapeT.below before
      · exact below
    · rw [entriesInit]
      exact inv.present.trans shape.present
  have made : ∀ b, Live (listInit t idx) b → ¬ Live s b → Home (Live s) k b old := by
    intro b alive fresh
    rcases (live b).mp alive with before | rfl
    swap
    · exact homeIdx
    obtain ⟨n, inOld, node, node_, at_⟩ := inv.made b before fresh
    by_cases exempt : except n
    · rw [at_, refreshed n node exempt node_]
      exact homeIdx
    · rw [at_]
      exact homeMod.mpr (placed old n node inOld node_ exempt)
  refine ⟨listInit t idx, by rw [ran₀, ran, Option.map_some], rest, shape', fun i n node inside given' regular => ?_, (live idx).mpr (.inr rfl)⟩
  rw [bucketInit] at inside
  have node_ : s.nodes n = some node := by
    rw [rest] at given'
    exact given'
  rcases inv.placed i n inside with ⟨apart, before⟩ | ⟨waits, -⟩ | ⟨node', at_, here⟩
  · exact homeKept source made (placed i n node before node_ regular) (bucketLive before) apart
  · exact absurd waits List.not_mem_nil
  · obtain rfl : node' = node := Option.some.inj (at_.symm.trans node_)
    rw [here]
    exact homeSelf

end Remake

end Nanosig.Hashtbl
