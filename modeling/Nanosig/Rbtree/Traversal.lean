import Nanosig.Lib.TreeWalks
import Nanosig.Rbtree.Runs

/-! The walks over a tree and the queries by a key: up and down the order, over the
nodes that match, and in postorder while the visited nodes are freed. -/
namespace Nanosig.Rbtree
open TransitionSystem ColoredTree LinkedTree TreeWalks

variable {α : Type} [DecidableEq α]

def first (t : Root α) : Option α := t.rbLeftmost

/- `while (node->rb_right) node = node->rb_right;` -/
def rightmostFrom : Nat → Heap α → α → Option α
  | 0, _, _ => none
  | fuel + 1, h, node =>
      match h.child .right node with
      | some right => rightmostFrom fuel h right
      | none => some node

/- `while ((parent = ns_rb_parent(node)) && node == parent->rb_left) node = parent;` -/
def climbLeft : Nat → Heap α → α → Option (Option α)
  | 0, _, _ => none
  | fuel + 1, h, node =>
      match h.parent node with
      | some parent => if h.child .left parent = some node then climbLeft fuel h parent else some (some parent)
      | none => some none

def last (t : Root α) : Option (Option α) :=
  match t.root with
  | none => some none
  | some n => (rightmostFrom t.linked t.toHeap n).map some

def prev (fuel : Nat) (h : Heap α) (node : α) : Option (Option α) :=
  if nodeIsEmpty h node then some none
  else match h.child .left node with
    | some left => (rightmostFrom fuel h left).map some
    | none => climbLeft fuel h node

def matchFind (matching : α → Int) (h : Heap α) : Nat → Option α → Option (Option α)
  | _, none => some none
  | 0, some _ => none
  | fuel + 1, some node =>
      if matching node < 0 then matchFind matching h fuel (h.child .left node)
      else if matching node > 0 then matchFind matching h fuel (h.child .right node)
      else some (some node)

def findFirst (matching : α → Int) (h : Heap α) : Nat → Option α → Option α → Option (Option α)
  | _, none, matchNode => some matchNode
  | 0, some _, _ => none
  | fuel + 1, some node, matchNode =>
      if matching node ≤ 0 then
        findFirst matching h fuel (h.child .left node) (if matching node = 0 then some node else matchNode)
      else findFirst matching h fuel (h.child .right node) matchNode

def nextMatch (matching : α → Int) (fuel : Nat) (h : Heap α) (node : α) : Option (Option α) :=
  (next fuel h node).map fun node => node.bind fun node => if matching node ≠ 0 then none else some node

def leftDeepestNode : Nat → Heap α → α → Option α
  | 0, _, _ => none
  | fuel + 1, h, node =>
      match h.child .left node, h.child .right node with
      | some left, _ => leftDeepestNode fuel h left
      | none, some right => leftDeepestNode fuel h right
      | none, none => some node

def firstPostorder (t : Root α) : Option (Option α) :=
  match t.root with
  | none => some none
  | some node => (leftDeepestNode t.linked t.toHeap node).map some

def nextPostorder (fuel : Nat) (h : Heap α) : Option α → Option (Option α)
  | none => some none
  | some node =>
      match h.parent node with
      | none => some none
      | some parent =>
          if h.child .left parent = some node then
            match h.child .right parent with
            | some right => (leftDeepestNode fuel h right).map some
            | none => some (some parent)
          else some (some parent)

/- `ns_rbtree_for_each_entry_postorder_safe` with a body that frees the visited node: the
visited nodes, and the memory behind the walk. -/
def forEachPostorderSafe (free : Heap α → α → Heap α) (fuel : Nat) : Nat → Heap α → Option α → Option (List α × Heap α)
  | _, h, none => some ([], h)
  | 0, _, some _ => none
  | rounds + 1, h, some pos =>
      (nextPostorder fuel h (some pos)).bind fun n =>
        (forEachPostorderSafe free fuel rounds (free h pos) n).map fun (visited, h) => (pos :: visited, h)

section Directions

omit [DecidableEq α] in
theorem rightmostFromMirror (fuel : Nat) (h : Heap α) (x : α) : rightmostFrom fuel h x = leftmostFrom fuel (mirrorHeap h) x := by
  induction fuel generalizing x with
  | zero => rfl
  | succ fuel ih =>
    rw [rightmostFrom, leftmostFrom]
    change _ = match h.child .right x with
      | some left => leftmostFrom fuel (mirrorHeap h) left
      | none => some x
    cases h.child .right x with
    | none => rfl
    | some y => exact ih y

theorem climbLeftMirror (fuel : Nat) (h : Heap α) (x : α) : climbLeft fuel h x = climbRight fuel (mirrorHeap h) x := by
  induction fuel generalizing x with
  | zero => rfl
  | succ fuel ih =>
    rw [climbLeft, climbRight]
    change _ = match h.parent x with
      | some parent => if h.child .left parent = some x then climbRight fuel (mirrorHeap h) parent else some (some parent)
      | none => some none
    cases h.parent x with
    | none => rfl
    | some p => simp only [ih]

theorem prevMirror (fuel : Nat) (h : Heap α) (x : α) : prev fuel h x = next fuel (mirrorHeap h) x := by
  rw [prev, next]
  simp only [climbLeftMirror, rightmostFromMirror]
  rfl

structure Around (t : Root α) (A B : List α) (k : α) (fs : List (Frame α)) (c : Color) (l r : ColoredTree.Tree α) : Prop where
  holds : Holds t.toHeap fs (.node c l k r)
  distinct : (plug fs (.node c l k r)).toList.Nodup
  enough : (plug fs (.node c l k r)).toList.length ≤ t.linked
  earlier : A = before fs ++ l.toList
  later : B = r.toList ++ after fs

omit [DecidableEq α] in
theorem around {t : Root α} {L A B : List α} {k : α} (valid : Valid t L) (split : L = A ++ k :: B) :
    ∃ fs c l r, Around t A B k fs c l r := by
  obtain ⟨tree, shape, order⟩ := valid
  subst split
  obtain ⟨fs, c, l, r, rfl⟩ := zoom (by rw [order]; simp : k ∈ tree.toList)
  have distinct := shape.distinct
  have places : (before fs ++ l.toList) ++ k :: (r.toList ++ after fs) = A ++ k :: B := by
    rw [← order, toListPlug]
    simp [Tree.toList]
  rw [order, List.nodup_middle, List.nodup_cons, List.mem_append, not_or] at distinct
  obtain ⟨⟨notEarlier, notLater⟩, -⟩ := distinct
  obtain ⟨earlier, -, later⟩ := (List.append_cons_inj_of_notMem notEarlier notLater).mp places.symm
  exact ⟨fs, c, l, r, (holdsPlug _ _ _).mpr shape.holds, shape.distinct, Nat.le_of_eq shape.linked.symm, earlier, later⟩

theorem nextAt {t : Root α} {L A B : List α} {k : α} (valid : Valid t L) (split : L = A ++ k :: B) :
    next t.linked t.toHeap k = some B.head? := by
  obtain ⟨fs, c, l, r, place⟩ := around valid split
  rw [nextSpec place.holds place.distinct place.enough, place.later]

theorem prevAt {t : Root α} {L A B : List α} {k : α} (valid : Valid t L) (split : L.reverse = A ++ k :: B) :
    prev t.linked t.toHeap k = some B.head? := by
  have unreversed : L = B.reverse ++ k :: A.reverse := by
    rw [← List.reverse_reverse L, split]
    simp
  obtain ⟨fs, c, l, r, place⟩ := around valid unreversed
  have mirrored := plugMirror fs (.node c l k r)
  have distinct : (plug (fs.map mirrorFrame) (mirrorTree (.node c l k r))).toList.Nodup :=
    mirrored ▸ List.nodup_reverse.mpr place.distinct
  have length := congrArg List.length mirrored
  rw [List.length_reverse] at length
  have found := nextSpec (holdsMirror place.holds) distinct (Nat.le_trans (Nat.le_of_eq length) place.enough)
  rw [prevMirror, found, toListMirror, afterMirror, ← List.reverse_append, ← place.earlier, List.reverse_reverse]

omit [DecidableEq α] in
theorem lastAt {t : Root α} {L : List α} (valid : Valid t L) : last t = some L.reverse.head? := by
  obtain ⟨tree, shape, rfl⟩ := valid
  have root : t.root = tree.root := shape.holds.2
  rw [last, root]
  cases tree with
  | nil => rfl
  | node c l k r =>
    have length := congrArg List.length (toListMirror (ColoredTree.Tree.node c l k r))
    rw [List.length_reverse, ← shape.linked] at length
    have found := leftmostFromSpec t.linked (repMirror shape.holds.1) (rootMirror _) (Nat.le_of_eq length)
    rw [toListMirror] at found
    have nonempty : (ColoredTree.Tree.node c l k r).toList.reverse ≠ [] := by simp [Tree.toList]
    rw [Tree.root]
    simp only [rightmostFromMirror, found, List.head?_eq_some_head nonempty, Option.map_some]

end Directions

section Queries

variable {matching : α → Int}

omit [DecidableEq α] in
theorem fallingNode {c : Color} {l r : ColoredTree.Tree α} {k : α} (falling : Falling matching (ColoredTree.Tree.node c l k r).toList) :
    Falling matching l.toList ∧ Falling matching r.toList ∧ (0 < matching k → ∀ x ∈ l.toList, 0 < matching x) ∧
      (matching k < 0 → ∀ x ∈ r.toList, matching x < 0) := by
  obtain ⟨left, here, across⟩ := List.pairwise_append.mp falling
  obtain ⟨behind, right⟩ := List.pairwise_cons.mp here
  exact ⟨left, right, fun greater x member => (across x member k List.mem_cons_self).2 greater,
    fun less x member => (behind x member).1 less⟩

omit [DecidableEq α] in
theorem matchFindSpec (fuel : Nat) {h : Heap α} {t : ColoredTree.Tree α} {p : Option α} (rep : LinkedTree.Rep h t p)
    (falling : Falling matching t.toList) (enough : t.toList.length ≤ fuel) :
    ∃ found, matchFind matching h fuel t.root = some found ∧
      match found with
      | some x => x ∈ t.toList ∧ matching x = 0
      | none => ∀ x ∈ t.toList, matching x ≠ 0 := by
  induction t generalizing fuel p with
  | nil => exact ⟨none, by cases fuel <;> rfl, by simp⟩
  | node c l k r ihl ihr =>
    obtain ⟨-, -, left, right, repl, repr⟩ := rep
    obtain ⟨fallingLeft, fallingRight, front, back⟩ := fallingNode falling
    simp only [Tree.toList, List.length_append, List.length_cons] at enough
    cases fuel with
    | zero => omega
    | succ fuel =>
      rw [Tree.root, matchFind, left, right]
      by_cases less : matching k < 0
      · obtain ⟨found, searched, answer⟩ := ihl fuel repl fallingLeft (by omega)
        rw [if_pos less]
        refine ⟨found, searched, ?_⟩
        cases found with
        | some x => exact ⟨List.mem_append_left _ answer.1, answer.2⟩
        | none =>
          intro x member
          simp only [Tree.toList, List.mem_append, List.mem_cons] at member
          rcases member with inside | rfl | inside
          · exact answer x inside
          · omega
          · have := back less x inside
            omega
      · rw [if_neg less]
        by_cases greater : 0 < matching k
        · obtain ⟨found, searched, answer⟩ := ihr fuel repr fallingRight (by omega)
          rw [if_pos greater]
          refine ⟨found, searched, ?_⟩
          cases found with
          | some x => exact ⟨List.mem_append_right _ (List.mem_cons_of_mem _ answer.1), answer.2⟩
          | none =>
            intro x member
            simp only [Tree.toList, List.mem_append, List.mem_cons] at member
            rcases member with inside | rfl | inside
            · have := front greater x inside
              omega
            · omega
            · exact answer x inside
        · rw [if_neg greater]
          exact ⟨some k, rfl, by simp [Tree.toList], by omega⟩

omit [DecidableEq α] in
theorem findFirstSpec (fuel : Nat) {h : Heap α} {t : ColoredTree.Tree α} {p matchNode : Option α} (rep : LinkedTree.Rep h t p)
    (falling : Falling matching t.toList) (enough : t.toList.length ≤ fuel) :
    findFirst matching h fuel t.root matchNode = some ((t.toList.find? fun x => matching x = 0).or matchNode) := by
  induction t generalizing fuel p matchNode with
  | nil => cases fuel <;> rfl
  | node c l k r ihl ihr =>
    obtain ⟨-, -, left, right, repl, repr⟩ := rep
    obtain ⟨fallingLeft, fallingRight, front, back⟩ := fallingNode falling
    simp only [Tree.toList, List.length_append, List.length_cons] at enough
    cases fuel with
    | zero => omega
    | succ fuel =>
      rw [Tree.root, findFirst, left, right, Tree.toList, List.find?_append, List.find?_cons]
      by_cases upTo : matching k ≤ 0
      · rw [if_pos upTo, ihl fuel repl fallingLeft (by omega)]
        by_cases same : matching k = 0
        · simp [same]
        · have noneBehind : r.toList.find? (fun x => matching x = 0) = none :=
            List.find?_eq_none.mpr fun x member => by
              have := back (by omega) x member
              simp only [decide_eq_true_eq]
              omega
          simp [same, noneBehind]
      · have noneBefore : l.toList.find? (fun x => matching x = 0) = none :=
          List.find?_eq_none.mpr fun x member => by
            have := front (by omega) x member
            simp only [decide_eq_true_eq]
            omega
        have apart : matching k ≠ 0 := by omega
        rw [if_neg upTo, ihr fuel repr fallingRight (by omega)]
        simp [noneBefore, apart]

theorem nextMatchAt {t : Root α} {L A B : List α} {k : α} (valid : Valid t L) (falling : Falling matching L)
    (split : L.filter (fun x => matching x = 0) = A ++ k :: B) : nextMatch matching t.linked t.toHeap k = some B.head? := by
  obtain ⟨front, back, rfl, -, backSplit⟩ := List.filter_eq_append_iff.mp split
  obtain ⟨between, behind, rfl, -, same, rest⟩ := List.filter_eq_cons_iff.mp backSplit
  have found := nextAt valid (A := front ++ between) (k := k) (B := behind) (by simp)
  have same : matching k = 0 := by simpa using same
  rw [nextMatch, found, ← rest]
  cases behind with
  | nil => rfl
  | cons y behind =>
    by_cases equal : matching y = 0
    · simp [equal]
    · have ordered : Falling matching (k :: y :: behind) := falling.sublist (by simp)
      obtain ⟨fromK, fromY⟩ := List.pairwise_cons.mp ordered
      have greater := (fromK y List.mem_cons_self).2
      have below : ∀ x ∈ behind, matching x ≠ 0 := fun x member => by
        have := ((List.pairwise_cons.mp fromY).1 x member).1
        omega
      have noneBehind : behind.filter (fun x => matching x = 0) = [] :=
        List.filter_eq_nil_iff.mpr fun x member => by simpa using below x member
      simp [equal, noneBehind]

end Queries

section Postorder

omit [DecidableEq α] in
theorem leftDeepestSpec (fuel : Nat) {h : Heap α} {t : ColoredTree.Tree α} {x : α} {q : Option α} (rep : LinkedTree.Rep h t q)
    (root : t.root = some x) (enough : t.toList.length ≤ fuel) : leftDeepestNode fuel h x = (postorder t).head? := by
  induction t generalizing fuel x q with
  | nil => nomatch root
  | node c l k r ihl ihr =>
    cases root
    obtain ⟨-, -, left, right, repl, repr⟩ := rep
    simp only [Tree.toList, List.length_append, List.length_cons] at enough
    cases fuel with
    | zero => omega
    | succ fuel =>
      rw [leftDeepestNode, left, right, postorder]
      cases l with
      | node cl ll kl rl =>
        have below := ihl fuel repl rfl (by omega)
        rw [Tree.root]
        simp only [below]
        simp [postorder]
      | nil =>
        cases r with
        | node cr lr kr rr =>
          have below := ihr fuel repr rfl (by omega)
          rw [Tree.root, Tree.root]
          simp only [below]
          simp [postorder]
        | nil => rfl

/- The successor of a node reads that node and nodes that come after it, so it is the
same when the nodes before it are gone. -/
theorem nextPostorderSpec {fuel : Nat} {h h' : Heap α} {fs : List (Frame α)} {c : Color} {k : α} {l r : ColoredTree.Tree α}
    (holds : Holds h fs (.node c l k r)) (distinct : (plug fs (.node c l k r)).toList.Nodup)
    (enough : (plug fs (.node c l k r)).toList.length ≤ fuel) (same : ∀ x ∈ k :: postorderRest fs, SameAt h h' x) :
    nextPostorder fuel h' (some k) = some (postorderRest fs).head? := by
  obtain ⟨⟨parent, -⟩, frames⟩ := holds
  rw [nextPostorder, (same k List.mem_cons_self).parent, parent]
  cases fs with
  | nil => rfl
  | cons f fs =>
    obtain ⟨side, cf, p, sibling⟩ := f
    obtain ⟨-, -, near, far, repSibling, -⟩ := frames
    rw [lengthPlug] at enough
    simp only [keys, List.cons_append, List.length_cons, List.length_append] at enough
    cases side with
    | right =>
      have apart : sibling.root ≠ some k := fun root => by
        have explicit : (k :: sibling.toList).Nodup := nodupOfCount distinct fun x => by
          simp [countPlug, Tree.toList, keys, List.count_cons]
          omega
        exact (List.nodup_cons.mp explicit).1 (Tree.rootMem root)
      have sameParent := same p (by simp [postorderRest])
      have left : h'.child .left p = sibling.root := (sameParent.child _).trans far
      rw [top]
      simp only [left, apart, if_false]
      rfl
    | left =>
      have sameParent := same p (by simp [postorderRest])
      have left : h'.child .left p = some k := (sameParent.child _).trans near
      have right : h'.child .right p = sibling.root := (sameParent.child _).trans far
      rw [top]
      simp only [left, right, if_true]
      cases sibling with
      | nil => rfl
      | node cs ls ks rs =>
        have repSibling' : LinkedTree.Rep h' (.node cs ls ks rs) (some p) := repSibling.congr fun x member =>
          same x (by simp [postorderRest, (postorderPerm _).mem_iff, member])
        have below := leftDeepestSpec fuel repSibling' rfl (by omega)
        rw [Tree.root]
        simp only [below, postorderRest]
        simp [postorder]

/- From any node on, the walk visits what is left, whatever the body does to the visited nodes. -/
theorem forEachPostorderSafeFrom {free : Heap α → α → Heap α} (frees : ∀ h x y, y ≠ x → SameAt h (free h x) y)
    {fuel rounds : Nat} {h h' : Heap α} {fs : List (Frame α)} {c : Color} {k : α} {l r : ColoredTree.Tree α}
    (holds : Holds h fs (.node c l k r)) (distinct : (plug fs (.node c l k r)).toList.Nodup)
    (enough : (plug fs (.node c l k r)).toList.length ≤ fuel) (unvisited : (k :: postorderRest fs).Nodup)
    (few : (postorderRest fs).length < rounds) (same : ∀ x ∈ k :: postorderRest fs, SameAt h h' x) :
    ∃ h'', forEachPostorderSafe free fuel rounds h' (some k) = some (k :: postorderRest fs, h'') := by
  induction rounds generalizing h' fs c k l r with
  | zero => omega
  | succ rounds ih =>
    have onward := nextPostorderSpec holds distinct enough same
    rw [forEachPostorderSafe, onward]
    obtain ⟨outside, later⟩ := List.nodup_cons.mp unvisited
    rcases postorderNext fs (.node c l k r) with done | ⟨fs', c', l', k', r', whole, rest⟩
    · rw [done]
      exact ⟨free h' k, by cases rounds <;> rfl⟩
    · rw [rest] at outside later few same ⊢
      have sameLater : ∀ x ∈ k' :: postorderRest fs', SameAt h (free h' k) x := fun x member =>
        (same x (List.mem_cons_of_mem _ member)).trans (frees h' k x (neOfMem outside member))
      obtain ⟨h'', walked⟩ := ih ((holdsPlug h fs' _).mpr (whole ▸ (holdsPlug h fs _).mp holds)) (whole ▸ distinct)
        (whole ▸ enough) later (by simpa using few) sameLater
      exact ⟨h'', by simp [walked]⟩

theorem forEachPostorderSafeAll {free : Heap α → α → Heap α} (frees : ∀ h x y, y ≠ x → SameAt h (free h x) y)
    {t : Root α} {tree : ColoredTree.Tree α} (shape : Shape t tree) :
    ∃ n h', firstPostorder t = some n ∧
      forEachPostorderSafe free t.linked t.linked t.toHeap n = some (postorder tree, h') := by
  have root : t.root = tree.root := shape.holds.2
  rw [firstPostorder, root]
  by_cases empty : tree = .nil
  · subst empty
    exact ⟨none, t.toHeap, rfl, by cases t.linked <;> rfl⟩
  · obtain ⟨ps, c, k, whole, order⟩ := postorderFirst [] empty
    rw [postorderRest, List.append_nil] at order
    rw [List.append_nil] at whole order
    obtain rfl : plug ps (.node c .nil k .nil) = tree := whole
    have sameLength := (postorderPerm (plug ps (.node c .nil k .nil))).length_eq
    rw [order, List.length_cons, ← shape.linked] at sameLength
    obtain ⟨h', walked⟩ := forEachPostorderSafeFrom frees ((holdsPlug _ _ _).mpr shape.holds) shape.distinct
      (Nat.le_of_eq shape.linked.symm) (order ▸ (postorderPerm _).nodup_iff.mpr shape.distinct)
      (by omega : (postorderRest ps).length < t.linked) fun x _ => SameAt.refl t.toHeap x
    cases shown : plug ps (.node c .nil k .nil) with
    | nil => exact absurd shown empty
    | node c' l' k' r' =>
      have deepest := leftDeepestSpec t.linked (shown ▸ shape.holds.1) rfl (Nat.le_of_eq (shown ▸ shape.linked.symm))
      rw [← shown, order] at deepest
      exact ⟨some k, h', by rw [Tree.root]; simp [deepest], by rw [walked, ← shown, order]⟩

end Postorder

structure Traversed (t : Root α) (L : List α) : Prop where
  distinct : L.Nodup
  forward : walk (next t.linked t.toHeap) t.linked (first t) = some L
  backward : (last t).bind (walk (prev t.linked t.toHeap) t.linked) = some L.reverse
  inverse : ∀ x ∈ L, ∀ y ∈ L, next t.linked t.toHeap x = some (some y) ↔ prev t.linked t.toHeap y = some (some x)
  matching : ∀ matching : α → Int, Falling matching L →
    (findFirst matching t.toHeap t.linked t.root none).bind (walk (nextMatch matching t.linked t.toHeap) t.linked) =
      some (L.filter fun x => matching x = 0)
  found : ∀ matching : α → Int, Falling matching L → ∃ result, matchFind matching t.toHeap t.linked t.root = some result ∧
    (result.isSome ↔ ∃ x ∈ L, matching x = 0) ∧ ∀ x, result = some x → x ∈ L ∧ matching x = 0
  freeing : ∀ free : Heap α → α → Heap α, (∀ h x y, y ≠ x → SameAt h (free h x) y) → ∃ visited h',
    (firstPostorder t).bind (forEachPostorderSafe free t.linked t.linked t.toHeap) = some (visited, h') ∧ visited.Perm L ∧
      ∀ k ∈ L, ∀ side x, t.child side k = some x → [x, k].Sublist visited

theorem traversed {t : Root α} {L : List α} (valid : Valid t L) : Traversed t L := by
  have enough : L.length ≤ t.linked := Nat.le_of_eq valid.linked.symm
  refine ⟨valid.nodup, ?_, ?_, ?_, ?_, ?_, ?_⟩
  · rw [first, valid.leftmost]
    exact walkFollows _ enough fun A k B split => nextAt valid split
  · rw [lastAt valid]
    exact walkFollows _ (by rw [List.length_reverse]; exact enough) fun A k B split => prevAt valid split
  · intro x inX y inY
    constructor
    · intro onward
      obtain ⟨A, B, split⟩ := List.append_of_mem inX
      have head := nextAt valid split
      rw [onward, Option.some.injEq] at head
      obtain ⟨B, rfl⟩ := List.head?_eq_some_iff.mp head.symm
      exact prevAt valid (A := B.reverse) (B := x :: A.reverse) (by simp [split])
    · intro back
      obtain ⟨A, B, split⟩ := List.append_of_mem (List.mem_reverse.mpr inY)
      have head := prevAt valid split
      rw [back, Option.some.injEq] at head
      obtain ⟨B, rfl⟩ := List.head?_eq_some_iff.mp head.symm
      exact nextAt valid (A := B.reverse) (B := y :: A.reverse) (by rw [← List.reverse_reverse L, split]; simp)
  · intro matching falling
    have fewer : (L.filter fun x => matching x = 0).length ≤ t.linked := Nat.le_trans (List.length_filter_le _ _) enough
    obtain ⟨tree, shape, rfl⟩ := valid
    have root : t.root = tree.root := shape.holds.2
    rw [root, findFirstSpec t.linked shape.holds.1 falling enough, Option.or_none, ← List.head?_filter]
    exact walkFollows _ fewer fun A k B split => nextMatchAt ⟨tree, shape, rfl⟩ falling split
  · intro matching falling
    obtain ⟨tree, shape, rfl⟩ := valid
    have root : t.root = tree.root := shape.holds.2
    obtain ⟨result, searched, answer⟩ := matchFindSpec t.linked shape.holds.1 falling enough
    refine ⟨result, by rw [root]; exact searched, ?_⟩
    cases result with
    | none => exact ⟨by simpa using answer, nofun⟩
    | some x =>
      refine ⟨by simpa using ⟨x, answer⟩, fun y same => ?_⟩
      cases same
      exact answer
  · intro free frees
    obtain ⟨tree, shape, rfl⟩ := valid
    obtain ⟨n, h', started, walked⟩ := forEachPostorderSafeAll frees shape
    refine ⟨postorder tree, h', by rw [started]; exact walked, postorderPerm tree, fun k member side x below => ?_⟩
    obtain ⟨fs, c, l, r, rfl⟩ := zoom member
    exact postorderChild ((holdsPlug _ _ _).mpr shape.holds) below

/- On every reachable tree the walks and the queries see exactly the linked nodes, in order. -/
theorem walksReachable {cmp : α → α → Int} (preorder : TotalPreorder cmp) {s : Pair α}
    (reach : Reachable Starts (step cmp) (Allowed cmp) s) : Whole cmp s ∧ Traversed s.root s.order :=
  have whole := reachableWhole preorder reach
  ⟨whole, traversed whole.valid⟩

theorem walksTwoAdded : ∃ s : Pair Nat, s.order = [3, 7] ∧
    walk (next s.root.linked s.root.toHeap) s.root.linked (first s.root) = some [3, 7] ∧
    (findFirst (byDifference 7) s.root.toHeap s.root.linked s.root.root none).bind
      (walk (nextMatch (byDifference 7) s.root.linked s.root.toHeap) s.root.linked) = some [7] := by
  have empty : Reachable Starts (step byDifference) (Allowed byDifference) (⟨init, []⟩ : Pair Nat) := .start ⟨rfl, rfl, rfl, rfl⟩
  have one := Reachable.next (a := Call.add 7) empty List.not_mem_nil rfl
  have two := Reachable.next (a := Call.add 3) one (by simp [Allowed, insertBehindEquals]) rfl
  obtain ⟨whole, walks⟩ := walksReachable byDifferencePreorder two
  exact ⟨_, rfl, walks.forward, walks.matching (byDifference 7) (fallingOfSorted byDifferencePreorder whole.sorted)⟩

end Nanosig.Rbtree
