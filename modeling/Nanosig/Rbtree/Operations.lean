import Nanosig.Rbtree.Delete

/-! The interface of the tree: what `ns_rbtree_add` and `ns_rbtree_del` do to the
list of linked nodes. Users of the tree need nothing below this module. -/
namespace Nanosig.Rbtree
open ColoredTree LinkedTree

variable {α : Type} [DecidableEq α]

structure Shape (t : Root α) (tree : ColoredTree.Tree α) : Prop where
  holds : Holds t.toHeap [] tree
  distinct : tree.toList.Nodup
  balanced : ∃ n, Balanced tree .black n
  leftmost : t.rbLeftmost = tree.toList.head?
  linked : t.linked = tree.toList.length

def Valid (t : Root α) (L : List α) : Prop := ∃ tree, Shape t tree ∧ tree.toList = L

omit [DecidableEq α] in
theorem initValid : Valid (init : Root α) [] :=
  ⟨.nil, ⟨⟨trivial, rfl⟩, List.nodup_nil, ⟨0, .nil⟩, rfl, rfl⟩, rfl⟩

omit [DecidableEq α] in
theorem Valid.nodup {t : Root α} {L : List α} (valid : Valid t L) : L.Nodup := by
  obtain ⟨tree, shape, rfl⟩ := valid
  exact shape.distinct

omit [DecidableEq α] in
theorem Valid.leftmost {t : Root α} {L : List α} (valid : Valid t L) : t.rbLeftmost = L.head? := by
  obtain ⟨tree, shape, rfl⟩ := valid
  exact shape.leftmost

omit [DecidableEq α] in
theorem Valid.linked {t : Root α} {L : List α} (valid : Valid t L) : t.linked = L.length := by
  obtain ⟨tree, shape, rfl⟩ := valid
  exact shape.linked

omit [DecidableEq α] in
theorem Valid.congr {t t' : Root α} {L : List α} (valid : Valid t L) (root : t'.root = t.root)
    (leftmost : t'.rbLeftmost = t.rbLeftmost) (linked : t'.linked = t.linked)
    (same : ∀ k ∈ L, SameAt t.toHeap t'.toHeap k) : Valid t' L := by
  obtain ⟨tree, shape, rfl⟩ := valid
  exact ⟨tree, ⟨⟨shape.holds.1.congr same, shape.holds.2.congr root (by simp [keys])⟩, shape.distinct, shape.balanced,
    leftmost.trans shape.leftmost, linked.trans shape.linked⟩, rfl⟩

theorem notEmpty {h : Heap α} {fs : List (Frame α)} {c : Color} {k : α} {l r : ColoredTree.Tree α}
    (holds : Holds h fs (.node c l k r)) (distinct : (plug fs (.node c l k r)).toList.Nodup) :
    nodeIsEmpty h k = false := by
  have outside : k ∉ keys fs := by
    have explicit : (k :: keys fs).Nodup := nodupOfCount distinct fun x => by
      simp [countPlug, Tree.toList, List.count_cons]
      omega
    exact (List.nodup_cons.mp explicit).1
  have parent : h.parent k ≠ some k := fun self => outside (topMem (holds.1.1.symm.trans self))
  simp [nodeIsEmpty, parent]

theorem Valid.memNotEmpty {t : Root α} {L : List α} (valid : Valid t L) {k : α} (member : k ∈ L) :
    nodeIsEmpty t.toHeap k = false := by
  obtain ⟨tree, shape, rfl⟩ := valid
  obtain ⟨fs, c, l, r, rfl⟩ := zoom member
  exact notEmpty ((holdsPlug _ _ _).mpr shape.holds) shape.distinct

section Next

omit [DecidableEq α] in
theorem leftmostFromSpec (fuel : Nat) {h : Heap α} {t : ColoredTree.Tree α} {x : α} {q : Option α} (rep : LinkedTree.Rep h t q)
    (root : t.root = some x) (enough : t.toList.length ≤ fuel) : leftmostFrom fuel h x = t.toList.head? := by
  induction t generalizing fuel x q with
  | nil => nomatch root
  | node c l k r ihl _ =>
    cases root
    obtain ⟨-, -, left, -, repl, -⟩ := rep
    simp only [Tree.toList, List.length_append, List.length_cons] at enough
    cases fuel with
    | zero => omega
    | succ fuel =>
      cases l with
      | nil => simp [leftmostFrom, left, Tree.toList]
      | node cl ll kl rl =>
        have below := ihl fuel repl rfl (by omega)
        rw [leftmostFrom, left, Tree.root]
        simpa [Tree.toList] using below

theorem climbRightSpec (fuel : Nat) {h : Heap α} {fs : List (Frame α)} {x : α} (parent : h.parent x = top fs)
    (frames : RepFrames h fs (some x)) (distinct : (x :: keys fs).Nodup) (enough : fs.length < fuel) :
    climbRight fuel h x = some (after fs).head? := by
  induction fuel generalizing fs x with
  | zero => omega
  | succ fuel ih =>
    cases fs with
    | nil => simp [climbRight, parent, top, after]
    | cons f fs =>
      obtain ⟨side, c, p, sibling⟩ := f
      obtain ⟨parentP, -, near, far, -, rest⟩ := frames
      cases side with
      | left =>
        have apart : ¬ h.child .right p = some x := fun same => by
          simp only [List.nodup_cons, keys, List.cons_append, List.mem_cons, List.mem_append, not_or] at distinct
          exact distinct.1.2.1 (Tree.rootMem (far.symm.trans same))
        simp [climbRight, parent, top, after, apart]
      | right =>
        have up := ih parentP rest (by
          refine distinct.sublist ((List.Sublist.cons x ?_))
          simp [keys]) (by simpa using enough)
        rw [climbRight, parent, top]
        simp only [near, if_true, up, after]

theorem nextSpec {fuel : Nat} {h : Heap α} {fs : List (Frame α)} {c : Color} {k : α} {l r : ColoredTree.Tree α}
    (holds : Holds h fs (.node c l k r)) (distinct : (plug fs (.node c l k r)).toList.Nodup)
    (enough : (plug fs (.node c l k r)).toList.length ≤ fuel) :
    next fuel h k = some (r.toList ++ after fs).head? := by
  have linked := notEmpty holds distinct
  obtain ⟨⟨parent, -, -, right, -, repr⟩, frames⟩ := holds
  have outside : (k :: keys fs).Nodup := nodupOfCount distinct fun x => by
    simp [countPlug, Tree.toList, List.count_cons]
    omega
  rw [lengthPlug, Tree.toList, List.length_append, List.length_cons] at enough
  have depth := lengthLeKeys fs
  rw [next, linked, if_neg Bool.false_ne_true, right]
  cases r with
  | nil => exact climbRightSpec fuel parent frames outside (by omega)
  | node cr lr kr rr =>
    have found := leftmostFromSpec fuel repr rfl (by omega)
    have nonempty : (ColoredTree.Tree.node cr lr kr rr).toList ≠ [] := by simp [Tree.toList]
    rw [Tree.root]
    simp [found, List.head?_append, List.head?_eq_some_head nonempty]

end Next

section Add

variable {cmp : α → α → Int} {node : α}

def linkOf : List (Frame α) → Option (α × Side)
  | [] => none
  | f :: _ => some (f.key, f.side)

/- Once one node of the list is greater than `node`, the later ones are. -/
def Monotone (cmp : α → α → Int) (node : α) (L : List α) : Prop :=
  L.Pairwise fun x y => cmp node x < 0 → cmp node y < 0

def Between (cmp : α → α → Int) (node : α) (fs : List (Frame α)) : Prop :=
  (∀ x ∈ before fs, ¬ cmp node x < 0) ∧ ∀ x ∈ after fs, cmp node x < 0

omit [DecidableEq α] in
theorem addSearchSpec (fuel : Nat) {h : Heap α} {fs : List (Frame α)} {t : ColoredTree.Tree α} {leftmost : Bool}
    (holds : Holds h fs t) (enough : t.toList.length < fuel) (flag : leftmost = true ↔ before fs = []) :
    ∃ fs' leftmost', addSearch cmp node h fuel (linkOf fs) leftmost = some (linkOf fs', leftmost') ∧
      plug fs' .nil = plug fs t ∧ (leftmost' = true ↔ before fs' = []) ∧
      (Monotone cmp node (plug fs t).toList → Between cmp node fs → Between cmp node fs') := by
  induction t generalizing fuel fs leftmost with
  | nil =>
    cases fuel with
    | zero => omega
    | succ fuel =>
      refine ⟨fs, leftmost, ?_, rfl, flag, fun _ between => between⟩
      have read : readLink h (linkOf fs) = none := by
        cases fs with
        | nil => exact holds.2
        | cons f fs => exact holds.2.2.2.1
      simp [addSearch, read]
  | node c l k r ihl ihr =>
    simp only [Tree.toList, List.length_append, List.length_cons] at enough
    cases fuel with
    | zero => omega
    | succ fuel =>
      have read : readLink h (linkOf fs) = some k := by
        cases fs with
        | nil => exact holds.2
        | cons f fs => exact holds.2.2.2.1
      have around (monotone : Monotone cmp node (plug fs (.node c l k r)).toList) :
          (∀ x ∈ l.toList, cmp node x < 0 → cmp node k < 0) ∧ ∀ x ∈ r.toList, cmp node k < 0 → cmp node x < 0 := by
        rw [Monotone, toListPlug] at monotone
        obtain ⟨-, tree, -⟩ := List.pairwise_append.mp (List.pairwise_append.mp monotone).1
        obtain ⟨-, inner, cross⟩ := List.pairwise_append.mp tree
        exact ⟨fun x member => cross x member k List.mem_cons_self, fun x member => (List.pairwise_cons.mp inner).1 x member⟩
      by_cases less : cmp node k < 0
      · have down : Holds h (⟨.left, c, k, r⟩ :: fs) l := (holdsUp h ⟨.left, c, k, r⟩ fs l).mpr holds
        obtain ⟨fs', leftmost', found, same, flag', between'⟩ := ihl fuel down (by omega) flag
        refine ⟨fs', leftmost', ?_, same, flag', fun monotone between => between' monotone ⟨between.1, ?_⟩⟩
        · rw [addSearch, read]
          simp only [less, if_true]
          exact found
        · intro x member
          simp only [after, List.cons_append, List.mem_cons, List.mem_append] at member
          rcases member with rfl | inside | later
          · exact less
          · exact (around monotone).2 x inside less
          · exact between.2 x later
      · have down : Holds h (⟨.right, c, k, l⟩ :: fs) r := (holdsUp h ⟨.right, c, k, l⟩ fs r).mpr holds
        have flagRight : false = true ↔ before (⟨.right, c, k, l⟩ :: fs) = [] := by simp [before]
        obtain ⟨fs', leftmost', found, same, flag', between'⟩ := ihr fuel down (by omega) flagRight
        refine ⟨fs', leftmost', ?_, same, flag', fun monotone between => between' monotone ⟨?_, between.2⟩⟩
        · rw [addSearch, read]
          simp only [less, if_false]
          exact found
        · intro x member
          simp only [before, List.mem_append, List.mem_singleton] at member
          rcases member with (earlier | inside) | rfl
          · exact between.1 x earlier
          · exact fun lower => less ((around monotone).1 x inside lower)
          · exact less

theorem linkNodeHolds {h : Heap α} {fs : List (Frame α)} (holds : Holds h fs .nil)
    (distinct : (node :: keys fs).Nodup) :
    Holds (linkNode h node (linkOf fs)) fs (.node .red .nil node .nil) ∧
      ∀ y, y ≠ node → y ∉ keys fs → SameAt h (linkNode h node (linkOf fs)) y := by
  obtain ⟨-, frames⟩ := holds
  cases fs with
  | nil =>
    refine ⟨by simp [Holds, LinkedTree.Rep, RepFrames, linkNode, linkOf, Tree.root, top], fun y ne _ => ?_⟩
    exact ⟨by simp [linkNode, linkOf, ne], by simp [linkNode, linkOf, ne], by simp [linkNode, linkOf, ne]⟩
  | cons f fs =>
    obtain ⟨parent, color, near, far, sibling, rest⟩ := frames
    simp only [List.nodup_cons, keys, List.cons_append, List.mem_cons, List.mem_append, not_or] at distinct
    obtain ⟨⟨nf, ns, nr⟩, ⟨fsib, fr⟩, -⟩ := distinct
    have fn : ¬ f.key = node := fun e => nf e.symm
    refine ⟨by simp [Holds, LinkedTree.Rep, RepFrames, linkNode, linkOf, Tree.root, top, *], fun y ne outside => ?_⟩
    have yf : ¬ y = f.key := fun e => outside (by simp [keys, e])
    simp [linkNode, linkOf, *]

theorem linkSpec {t : Root α} {fs : List (Frame α)} {leftmost : Bool} (shape : Shape t (plug fs .nil))
    (fresh : node ∉ (plug fs .nil).toList) (flag : leftmost = true ↔ before fs = []) :
    ∃ h', rbInsert (t.linked + 1) (linkNode t.toHeap node (linkOf fs)) node
        ((linkNode t.toHeap node (linkOf fs)).parent node) = some h' ∧
      Valid ⟨h', if leftmost then some node else t.rbLeftmost, t.linked + 1⟩ (before fs ++ node :: after fs) ∧
      ∀ y, y ≠ node → y ∉ (plug fs .nil).toList → SameAt t.toHeap h' y := by
  obtain ⟨n, balanced⟩ := shape.balanced
  have distinct : (node :: keys fs).Nodup := by
    have perm := plugPerm fs .nil
    exact List.nodup_cons.mpr ⟨fun inside => fresh (perm.mem_iff.mpr (by simpa using inside)), perm.nodup_iff.mp shape.distinct⟩
  obtain ⟨linked, apart⟩ := linkNodeHolds ((holdsPlug _ _ _).mpr shape.holds) distinct
  have size : t.linked = (keys fs).length := by rw [shape.linked, lengthPlug]; simp
  obtain ⟨c, m, accepts, hole⟩ := Accepts.ofPlug (.root n) balanced
  cases hole
  rw [List.append_nil] at accepts
  have red : Balanced (.make .left .red .nil node .nil) .red 0 := .red .nil .nil
  have distinct' : (plug fs (.make .left .red .nil node .nil)).toList.Nodup :=
    (plugPerm fs _).nodup_iff.mpr distinct
  have depth := lengthLeKeys fs
  obtain ⟨h', t', inserted, rebuilds, order, whole⟩ :=
    rbInsertSpec (t.linked + 1) (by omega) red accepts linked distinct'
  have parent : (linkNode t.toHeap node (linkOf fs)).parent node = top fs := linked.1.1
  have split : (plug fs .nil).toList = before fs ++ after fs := by rw [toListPlug]; simp
  have grown : t'.toList = before fs ++ node :: after fs := by
    rw [order, toListPlug]
    simp [Tree.make, Tree.toList]
  refine ⟨h', by rw [parent]; exact inserted, ⟨t', ⟨rebuilds.holds, ?_, whole, ?_, ?_⟩, grown⟩, fun y ne outside => ?_⟩
  · rw [order]
    exact distinct'
  · cases earlier : before fs with
    | nil => simp [flag.mpr earlier, grown, earlier]
    | cons x rest =>
      have notLeftmost : leftmost = false := by
        rw [← Bool.not_eq_true, flag, earlier]
        simp
      simp [notLeftmost, shape.leftmost, grown, split, earlier]
  · rw [order, lengthPlug, size]
    simp [Tree.make, Tree.toList]
    omega
  · have yKeys : y ∉ keys fs := fun inside => outside ((plugPerm fs .nil).mem_iff.mpr (by simpa using inside))
    refine (apart y ne yKeys).trans (rebuilds.same y ?_ (by simp [keys]))
    rw [(plugPerm fs _).mem_iff]
    simp [Tree.make, Tree.toList, ne, yKeys]

theorem addSpec {t : Root α} {L : List α} (valid : Valid t L) (cmp : α → α → Int) (fresh : node ∉ L) :
    ∃ t' earlier later, add cmp t node = some (t', if earlier = [] then some node else none) ∧
      L = earlier ++ later ∧ Valid t' (earlier ++ node :: later) ∧
      (Monotone cmp node L → (∀ x ∈ earlier, ¬ cmp node x < 0) ∧ ∀ x ∈ later, cmp node x < 0) ∧
      ∀ y, y ≠ node → y ∉ L → SameAt t.toHeap t'.toHeap y := by
  obtain ⟨tree, shape, rfl⟩ := valid
  have empty : true = true ↔ before ([] : List (Frame α)) = [] := by simp [before]
  obtain ⟨fs, leftmost, found, same, flag, between⟩ :=
    addSearchSpec (t.linked + 1) shape.holds (by rw [shape.linked]; omega) empty
  obtain rfl : plug fs .nil = tree := same
  obtain ⟨h', inserted, valid', apart⟩ := linkSpec shape fresh flag
  have split : (plug fs .nil).toList = before fs ++ after fs := by rw [toListPlug]; simp
  refine ⟨_, before fs, after fs, ?_, split, valid', fun monotone => between monotone ⟨by simp [before], by simp [after]⟩, apart⟩
  have search : addSearch cmp node t.toHeap (t.linked + 1) none true = some (linkOf fs, leftmost) := found
  simp [add, search, inserted, flag]

end Add

/- The removed node ends up as `ns_rbtree_node_init` leaves it. -/
theorem nodeInitEmpty (h : Heap α) (k : α) : nodeIsEmpty (nodeInit h k) k = true := by
  simp [nodeIsEmpty, nodeInit]

theorem nodeInitSame {h h' : Heap α} {k y : α} (apart : ¬ y = k) : SameAt h (nodeInit h' k) y ↔ SameAt h h' y := by
  simp [nodeInit, apart]

theorem Unlinked.rebalances {h : Heap α} {L : List α} {rebalance : Option α}
    (unlinked : Unlinked h L rebalance) (fuel : Nat) (distinct : L.Nodup) (enough : L.length ≤ fuel) :
    ∃ h' tree, (match rebalance with
        | some parent => rbEraseColor fuel h none parent
        | none => some h) = some h' ∧
      Holds h' [] tree ∧ tree.toList = L ∧ (∃ m, Balanced tree .black m) ∧ ∀ y, y ∉ L → SameAt h h' y := by
  cases unlinked with
  | whole holds order balanced => exact ⟨h, _, rfl, holds, order, ⟨_, balanced⟩, fun y _ => .refl h y⟩
  | @short f fs c holds order accepts =>
    have depth := lengthLeKeys (f :: fs)
    rw [← order] at distinct enough ⊢
    rw [lengthPlug] at enough
    simp only [List.length_cons] at depth
    obtain ⟨h', tree, ended, rebuilds, kept, whole⟩ :=
      rbEraseColorSpec fuel (by omega) .nil accepts holds distinct
    exact ⟨h', tree, ended, rebuilds.holds, kept, whole, fun y outside => rebuilds.same y outside (by simp [keys])⟩

theorem delSpec {t : Root α} {L : List α} (valid : Valid t L) {k : α} (member : k ∈ L) :
    ∃ t', del t k = some (t', if L.head? = some k then L.tail.head? else none) ∧ Valid t' (L.erase k) ∧
      nodeIsEmpty t'.toHeap k = true ∧ ∀ y, y ∉ L → SameAt t.toHeap t'.toHeap y := by
  obtain ⟨tree, shape, rfl⟩ := valid
  obtain ⟨n, balanced⟩ := shape.balanced
  obtain ⟨fs, c, l, r, rfl⟩ := zoom member
  obtain ⟨d, m, accepts, here⟩ := Accepts.ofPlug (.root n) balanced
  cases here.color
  rw [List.append_nil] at accepts
  have holds := (holdsPlug _ _ _).mpr shape.holds
  have size := Nat.le_of_eq shape.linked.symm
  have following := nextSpec holds shape.distinct size
  obtain ⟨h1, rebalance, deleted, unlinked, same⟩ := rbDelSpec holds shape.distinct accepts here size
  have leftmost := shape.leftmost
  have linked := shape.linked
  have distinct := shape.distinct
  have split : (plug fs (.node c l k r)).toList = before fs ++ l.toList ++ k :: (r.toList ++ after fs) := by
    rw [toListPlug]
    simp [Tree.toList]
  rw [split] at leftmost linked distinct size same ⊢
  generalize before fs ++ l.toList = earlier at *
  generalize r.toList ++ after fs = later at *
  obtain ⟨earlierDistinct, ⟨notLater, laterDistinct⟩, apart⟩ :
      earlier.Nodup ∧ (k ∉ later ∧ later.Nodup) ∧ earlier.Disjoint (k :: later) := by
    simpa only [List.nodup_append', List.nodup_cons] using distinct
  have notEarlier : k ∉ earlier := fun inside => apart inside List.mem_cons_self
  have remaining : (earlier ++ k :: later).erase k = earlier ++ later := by
    rw [List.erase_append_right _ notEarlier, List.erase_cons_head]
  have notIn : k ∉ earlier ++ later := by simp [notEarlier, notLater]
  have restDistinct : (earlier ++ later).Nodup :=
    List.nodup_append'.mpr ⟨earlierDistinct, laterDistinct, fun _ left right => apart left (List.mem_cons_of_mem _ right)⟩
  obtain ⟨h2, tree, ended, whole, order, balancedTree, same'⟩ :=
    unlinked.rebalances t.linked restDistinct (by rw [linked]; simp)
  have outside : k ∉ tree.toList := order ▸ notIn
  -- The cached node was `k` exactly if nothing comes before it.
  have first : t.rbLeftmost = some k ↔ earlier = [] := by
    rw [leftmost]
    cases earlier with
    | nil => simp
    | cons x rest => simp [show ¬ x = k from fun e => notEarlier (e ▸ List.mem_cons_self)]
  refine ⟨⟨nodeInit h2 k, if earlier = [] then later.head? else t.rbLeftmost, t.linked - 1⟩, ?_,
    ⟨tree, ⟨?_, order ▸ restDistinct, balancedTree, ?_, ?_⟩, order.trans remaining.symm⟩, nodeInitEmpty h2 k,
    fun y outsideY => ?_⟩
  · have cached : (earlier ++ k :: later).head? = some k ↔ earlier = [] := leftmost ▸ first
    by_cases nothing : earlier = []
    · simp [del, first, nothing, following, deleted]
      exact ⟨h2, ended, rfl⟩
    · rw [if_neg (mt cached.mp nothing)]
      simp [del, first, nothing, deleted]
      exact ⟨h2, ended, rfl⟩
  · simpa [Holds, RepFrames, nodeInit, outside] using whole
  · cases earlier with
    | nil => simp [order]
    | cons x rest => simp [order, leftmost]
  · simp [linked, order]
  · have yk : ¬ y = k := fun e => outsideY (by simp [e])
    refine (nodeInitSame yk).mpr ((same y outsideY).trans (same' y fun inside => outsideY ?_))
    simp only [List.mem_append, List.mem_cons] at inside ⊢
    tauto

end Nanosig.Rbtree
