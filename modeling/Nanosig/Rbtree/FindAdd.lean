import Nanosig.Rbtree.Operations

/-! `ns_rbtree_find_add` and `ns_rbtree_find_new_add`: the search that stops at an
equal node, and the link it makes otherwise. -/
namespace Nanosig.Rbtree
open ColoredTree LinkedTree

variable {α : Type} [DecidableEq α]

def findAddSearch (c : α → Int) (h : Heap α) :
    Nat → Option (α × Side) → Bool → Option (α ⊕ (Option (α × Side) × Bool))
  | 0, _, _ => none
  | fuel + 1, link, leftmost =>
      match readLink h link with
      | some parent =>
          if c parent < 0 then findAddSearch c h fuel (some (parent, .left)) leftmost
          else if c parent > 0 then findAddSearch c h fuel (some (parent, .right)) false
          else some (.inl parent)
      | none => some (.inr (link, leftmost))

/- `ns_rb_link_node` and `ns_rb_insert_color` at a found place. -/
def linkAt (t : Root α) (node : α) (link : Option (α × Side)) (leftmost : Bool) : Option (Root α) :=
  let h := linkNode t.toHeap node link
  (rbInsert (t.linked + 1) h node (h.parent node)).map fun h =>
    { toHeap := h
      rbLeftmost := if leftmost then some node else t.rbLeftmost
      linked := t.linked + 1 }

/- `ns_rbtree_find_add`: the tree, and the equal node or the one linked. -/
def findAdd (cmp : α → α → Int) (t : Root α) (node : α) : Option (Root α × α) :=
  (findAddSearch (cmp node) t.toHeap (t.linked + 1) none true).bind fun found =>
    match found with
    | .inl parent => some (t, parent)
    | .inr (link, leftmost) => (linkAt t node link leftmost).map fun t => (t, node)

/- `ns_rbtree_find_new_add`. `newNode` is what `new_node(user_data)` returns if it is called. -/
def findNewAdd (key : α → Int) (t : Root α) (newNode : Option α) : Option (Root α × Option α) :=
  (findAddSearch key t.toHeap (t.linked + 1) none true).bind fun found =>
    match found with
    | .inl parent => some (t, some parent)
    | .inr (link, leftmost) =>
        match newNode with
        | none => some (t, none)
        | some node =>
            if ¬nodeIsEmpty t.toHeap node then some (t, none)
            else (linkAt t node link leftmost).map fun t => (t, some node)

def Falling (c : α → Int) (L : List α) : Prop := L.Pairwise fun x y => (c x < 0 → c y < 0) ∧ (0 < c y → 0 < c x)

def Gap (c : α → Int) (fs : List (Frame α)) : Prop := (∀ x ∈ before fs, 0 < c x) ∧ ∀ x ∈ after fs, c x < 0

inductive Found (c : α → Int) (tree : ColoredTree.Tree α) : α ⊕ (Option (α × Side) × Bool) → Prop where
  | equal {x : α} (member : x ∈ tree.toList) (same : c x = 0) : Found c tree (.inl x)
  | place {fs : List (Frame α)} {leftmost : Bool} (whole : plug fs .nil = tree)
      (flag : leftmost = true ↔ before fs = []) (gap : Gap c fs) : Found c tree (.inr (linkOf fs, leftmost))

omit [DecidableEq α] in
theorem findAddSearchSpec (c : α → Int) (fuel : Nat) {h : Heap α} {fs : List (Frame α)} {t : ColoredTree.Tree α} {leftmost : Bool}
    (holds : Holds h fs t) (enough : t.toList.length < fuel) (flag : leftmost = true ↔ before fs = [])
    (falling : Falling c (plug fs t).toList) (gap : Gap c fs) :
    ∃ found, findAddSearch c h fuel (linkOf fs) leftmost = some found ∧ Found c (plug fs t) found := by
  induction t generalizing fuel fs leftmost with
  | nil =>
    cases fuel with
    | zero => omega
    | succ fuel =>
      have read : readLink h (linkOf fs) = none := by
        cases fs with
        | nil => exact holds.2
        | cons f fs => exact holds.2.2.2.1
      exact ⟨_, by simp only [findAddSearch, read], .place rfl flag gap⟩
  | node color l k r ihl ihr =>
    simp only [Tree.toList, List.length_append, List.length_cons] at enough
    cases fuel with
    | zero => omega
    | succ fuel =>
      have read : readLink h (linkOf fs) = some k := by
        cases fs with
        | nil => exact holds.2
        | cons f fs => exact holds.2.2.2.1
      have around : (∀ x ∈ l.toList, 0 < c k → 0 < c x) ∧ ∀ x ∈ r.toList, c k < 0 → c x < 0 := by
        rw [Falling, toListPlug] at falling
        obtain ⟨-, tree, -⟩ := List.pairwise_append.mp (List.pairwise_append.mp falling).1
        obtain ⟨-, inner, cross⟩ := List.pairwise_append.mp tree
        exact ⟨fun x member => (cross x member k List.mem_cons_self).2,
          fun x member => ((List.pairwise_cons.mp inner).1 x member).1⟩
      rw [findAddSearch, read]
      by_cases less : c k < 0
      · have down : Holds h (⟨.left, color, k, r⟩ :: fs) l := (holdsUp h ⟨.left, color, k, r⟩ fs l).mpr holds
        have gapLeft : Gap c (⟨.left, color, k, r⟩ :: fs) := by
          refine ⟨gap.1, fun x member => ?_⟩
          simp only [after, List.cons_append, List.mem_cons, List.mem_append] at member
          rcases member with rfl | inside | later
          · exact less
          · exact around.2 x inside less
          · exact gap.2 x later
        simp only [less, if_true]
        exact ihl fuel down (by omega) flag falling gapLeft
      · by_cases greater : 0 < c k
        · have down : Holds h (⟨.right, color, k, l⟩ :: fs) r := (holdsUp h ⟨.right, color, k, l⟩ fs r).mpr holds
          have flagRight : false = true ↔ before (⟨.right, color, k, l⟩ :: fs) = [] := by simp [before]
          have gapRight : Gap c (⟨.right, color, k, l⟩ :: fs) := by
            refine ⟨fun x member => ?_, gap.2⟩
            simp only [before, List.mem_append, List.mem_singleton] at member
            rcases member with (earlier | inside) | rfl
            · exact gap.1 x earlier
            · exact around.1 x inside greater
            · exact greater
          simp only [less, if_false, gt_iff_lt, greater, if_true]
          exact ihr fuel down (by omega) flagRight falling gapRight
        · have member : k ∈ (plug fs (.node color l k r)).toList := by
            rw [toListPlug]
            simp [Tree.toList]
          exact ⟨.inl k, by simp [less, greater], .equal member (by omega)⟩

theorem linkAtSpec {t : Root α} {fs : List (Frame α)} {leftmost : Bool} {node : α} (shape : Shape t (plug fs .nil))
    (fresh : node ∉ (plug fs .nil).toList) (flag : leftmost = true ↔ before fs = []) :
    ∃ t', linkAt t node (linkOf fs) leftmost = some t' ∧ Valid t' (before fs ++ node :: after fs) ∧
      ∀ y, y ≠ node → y ∉ (plug fs .nil).toList → SameAt t.toHeap t'.toHeap y := by
  obtain ⟨h', inserted, valid, apart⟩ := linkSpec shape fresh flag
  exact ⟨_, by simp only [linkAt, inserted, Option.map_some], valid, apart⟩

theorem findSpec {t : Root α} {L : List α} (valid : Valid t L) {c : α → Int} (falling : Falling c L) :
    ∃ found, findAddSearch c t.toHeap (t.linked + 1) none true = some found ∧
      ((∃ x ∈ L, c x = 0 ∧ found = .inl x) ∨
        ∃ link leftmost earlier later, found = .inr (link, leftmost) ∧ L = earlier ++ later ∧
          (∀ x ∈ earlier, 0 < c x) ∧ (∀ x ∈ later, c x < 0) ∧
          ∀ node, node ∉ L → ∃ t', linkAt t node link leftmost = some t' ∧ Valid t' (earlier ++ node :: later) ∧
            ∀ y, y ≠ node → y ∉ L → SameAt t.toHeap t'.toHeap y) := by
  obtain ⟨tree, shape, rfl⟩ := valid
  have empty : true = true ↔ before ([] : List (Frame α)) = [] := by simp [before]
  have whole : Falling c (plug [] tree).toList := falling
  have outside : Gap c [] := ⟨by simp [before], by simp [after]⟩
  obtain ⟨found, searched, ended⟩ :=
    findAddSearchSpec c (t.linked + 1) shape.holds (by rw [shape.linked]; omega) empty whole outside
  refine ⟨found, searched, ?_⟩
  cases ended with
  | equal member same => exact .inl ⟨_, member, same, rfl⟩
  | @place fs leftmost whole flag gap =>
    obtain rfl : plug fs .nil = tree := whole
    have split : (plug fs .nil).toList = before fs ++ after fs := by rw [toListPlug]; simp
    exact .inr ⟨_, _, _, _, rfl, split, gap.1, gap.2, fun node fresh => linkAtSpec shape fresh flag⟩

end Nanosig.Rbtree
