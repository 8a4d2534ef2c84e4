import Nanosig.Hashtbl.Traversal

/-! The order of the nodes in their entries, through every remake. -/
namespace Nanosig.Hashtbl

open Buckets

variable {κ : Type} {k i idx old : Nat} {s s' t : State κ} {n : κ} {node : Node}

def entryOf (k : Nat) (s : State κ) (n : κ) : Nat := ((s.nodes n).elim 0 fun node => node.hashVal.toNat) % 2 ^ k

def belongs (k : Nat) (s : State κ) (i : Nat) (n : κ) : Bool := entryOf k s n = i

theorem entryGiven (given : s.nodes n = some node) : entryOf k s n = node.hashVal.toNat % 2 ^ k := by
  simp [entryOf, given]

/- Behind the nodes `past` in the loop of a remake of `s` from `old`: those that moved are in
front of their new lists, the last one first. -/
structure InOrder (k : Nat) (s : State κ) (old : Nat) (past pending : List κ) (t : State κ) : Prop where
  whole : bucket s old = past ++ pending
  source : bucket t old = past.filter (belongs k s old) ++ pending
  moved : ∀ j, j ≠ old → bucket t j = (past.filter (belongs k s j)).reverse ++ bucket s j
  made : ∀ j, Live t j → Live s j ∨ ∃ n ∈ past, entryOf k s n = j

section Remake

variable [DecidableEq κ]

theorem remakeNodeOrder {past pending : List κ} (shape : Shape k s) (inv : Remaking k s old (n :: pending) t)
    (order : InOrder k s old past (n :: pending) t) (ran : remakeNode old t n = some s') : InOrder k s old (past ++ [n]) pending s' := by
  have shapeT := inv.shape shape
  obtain ⟨inOld, inSource⟩ := inv.waiting n List.mem_cons_self
  obtain ⟨node, given⟩ := shape.allocated n (shape.mem.mpr ⟨old, inSource⟩)
  have givenT : t.nodes n = some node := by rw [inv.rest]; exact given
  have entry : entryOf k s n = node.hashVal.toNat % 2 ^ k := entryGiven given
  have whole : bucket s old = (past ++ [n]) ++ pending := by rw [List.append_assoc]; exact order.whole
  simp only [remakeNode, givenT, Option.bind_some, shapeT.masked] at ran
  split at ran
  · rename_i stays
    cases ran
    have here : belongs k s old n = true := by simpa [belongs, entry] using stays
    refine ⟨whole, ?_, fun j apart => ?_, fun j alive => ?_⟩
    · rw [order.source, List.filter_append, List.filter_cons_of_pos here, List.filter_nil, List.append_assoc]
      rfl
    · have notThere : ¬ belongs k s j n = true := by
        simp only [belongs, decide_eq_true_eq, entry, stays]
        exact Ne.symm apart
      rw [order.moved j apart, List.filter_append, List.filter_cons_of_neg notThere, List.filter_nil, List.append_nil]
    · exact (order.made j alive).imp_right (Exists.imp fun m => And.imp_left (List.mem_append_left _))
  · rename_i moves
    have below : node.hashVal.toNat % 2 ^ k < 2 ^ k := Nat.mod_lt _ (Nat.two_pow_pos k)
    have insertedT : n ∈ t.inserted := shapeT.mem.mpr ⟨old, inOld⟩
    obtain ⟨table, pushed, -, live, buckets⟩ := moveSpec shapeT insertedT below
    rw [pushed, Option.map_some, initTable, Option.some.injEq] at ran
    have after : s' = { t with table := table } := ran.symm
    have notHere : ¬ belongs k s old n = true := by simpa [belongs, entry] using moves
    have fresh : n ∉ past.filter (belongs k s old) := fun inside => notHere (List.mem_filter.mp inside).2
    rw [after]
    refine ⟨whole, ?_, fun j apart => ?_, fun j alive => ?_⟩
    · rw [buckets, if_neg (Ne.symm moves), order.source, List.erase_append_right _ fresh, List.erase_cons_head, List.filter_append,
        List.filter_cons_of_neg notHere, List.filter_nil, List.append_nil]
    · have elsewhere : n ∉ bucket t j := fun inside => apart (oneBucket shapeT inside inOld)
      rw [buckets, List.erase_of_not_mem elsewhere, order.moved j apart, List.filter_append]
      split
      · rename_i here
        have there : belongs k s j n = true := by simp [belongs, entry, here]
        rw [List.filter_cons_of_pos there, List.filter_nil, List.reverse_append]
        rfl
      · rename_i other
        have notThere : ¬ belongs k s j n = true := by
          simp only [belongs, decide_eq_true_eq, entry]
          exact Ne.symm other
        rw [List.filter_cons_of_neg notThere, List.filter_nil, List.append_nil]
    · rcases (live j).mp alive with before | here
      · exact (order.made j before).imp_right (Exists.imp fun m => And.imp_left (List.mem_append_left _))
      · exact .inr ⟨n, List.mem_append_right _ List.mem_cons_self, by rw [entry, here]⟩

theorem remakeNodesOrder {past pending : List κ} (shape : Shape k s) (inv : Remaking k s old pending t)
    (order : InOrder k s old past pending t) (ran : pending.foldlM (remakeNode old) t = some s') :
    InOrder k s old (bucket s old) [] s' := by
  induction pending generalizing past t with
  | nil =>
    cases ran
    have whole : bucket s old = past := by rw [order.whole, List.append_nil]
    exact whole ▸ order
  | cons n pending ih =>
    obtain ⟨t₁, ran₁, inv₁⟩ := remakeNodeSpec shape inv
    rw [List.foldlM_cons, ran₁] at ran
    exact ih inv₁ (remakeNodeOrder shape inv order ran₁) ran

structure Remade (k : Nat) (s : State κ) (idx old : Nat) (s' : State κ) : Prop where
  dead : ¬ Live s idx
  source : Live s old
  kept : ∀ j, Live s j → Live s' j
  home : Home (Live s) k idx old
  stayed : bucket s' old = (bucket s old).filter (belongs k s old)
  moved : ∀ j, j ≠ old → bucket s' j = ((bucket s old).filter (belongs k s j)).reverse ++ bucket s j
  made : ∀ j, Live s' j → Live s j ∨ j = idx ∨ ∃ n ∈ bucket s old, entryOf k s n = j

theorem tryRemakeOrder (shape : Shape k s) (below : idx < 2 ^ k) (ran : tryRemake s idx = some s') :
    s' = s ∨ ∃ old, Remade k s idx old s' := by
  by_cases alive : Live s idx
  · have settled : needRemake s idx = false := by simpa [needRemake, Live, Option.isSome_iff_ne_none] using alive
    rw [tryRemake, settled] at ran
    exact .inl (Option.some.inj ran).symm
  · obtain ⟨old, nodes, given, home, ran₀⟩ := tryRemakeDead shape below alive
    obtain ⟨t, ran₁, inv⟩ := remakeNodesSpec shape (remakeStart shape given)
    rw [ran₀, ran₁, Option.map_some, Option.some.injEq] at ran
    have first : InOrder k s old [] nodes s :=
      ⟨bucketOf given, bucketOf given, fun _ _ => rfl, fun _ before => .inl before⟩
    have order := remakeNodesOrder shape (remakeStart shape given) first ran₁
    rw [← ran]
    refine .inr ⟨old, alive, by simp [Live, given], fun j live => liveInit.mpr (.inl (inv.kept j live)), home, ?_, fun j apart => ?_, fun j there => ?_⟩
    · rw [bucketInit, order.source, List.append_nil]
    · rw [bucketInit, order.moved j apart]
    · rcases liveInit.mp there with before | here
      · exact (order.made j before).imp_right .inr
      · exact .inr (.inl here)

end Remake

end Nanosig.Hashtbl
