import Nanosig.Rbtree.Tree

/-! What the small writes of ns_rbtree.c leave unchanged, and what a subtree
holds after its root got a new parent. Simp computes with these in every
rebalancing case, from the distinctness of the nodes around. -/
namespace Nanosig.Rbtree
open ColoredTree LinkedTree

variable {α : Type} [DecidableEq α] {h h' : Heap α} {t t' : ColoredTree.Tree α} {fs : List (Frame α)} {side : Side} {x y : α}
  {p q rb : Option α} {c : Color}

section SetParentColor

@[simp] theorem rootSetParentColor : (setParentColor h x p c).root = h.root := rfl

@[simp] theorem childSetParentColor : (setParentColor h x p c).child = h.child := rfl

@[simp] theorem parentSetParentColor : (setParentColor h x p c).parent y = if y = x then p else h.parent y := by
  simp [setParentColor]

@[simp] theorem colorSetParentColor : (setParentColor h x p c).color y = if y = x then c else h.color y := by
  simp [setParentColor]

@[simp] theorem sameSetParentColor (apart : ¬ y = x) : SameAt h (setParentColor h' x p c) y ↔ SameAt h h' y := by
  simp [setParentColor, apart]

@[simp] theorem repSetParentColor (outside : x ∉ t.toList) : LinkedTree.Rep (setParentColor h x q c) t p ↔ LinkedTree.Rep h t p := by
  simp [setParentColor, outside]

@[simp] theorem repFramesSetParentColor (outside : x ∉ keys fs) :
    RepFrames (setParentColor h x q c) fs p ↔ RepFrames h fs p := by
  simp [setParentColor, outside]

@[simp] theorem repPathSetParentColor {ps : List (Frame α)} {above : α} (outside : x ∉ keys ps) :
    RepPath (setParentColor h x q c) ps p above ↔ RepPath h ps p above := by
  simp [setParentColor, outside]

end SetParentColor

section IfAny

@[simp] theorem rootIfAny : (setParentColorIfAny h rb p c).root = h.root := by cases rb <;> rfl

@[simp] theorem childIfAny : (setParentColorIfAny h rb p c).child = h.child := by cases rb <;> rfl

@[simp] theorem sameIfAny (outside : y ∉ t.toList) :
    SameAt h (setParentColorIfAny h' t.root p c) y ↔ SameAt h h' y := by
  cases t with
  | nil => rfl
  | node _ l k r =>
    simp only [Tree.toList, List.mem_append, List.mem_cons, not_or] at outside
    exact sameSetParentColor outside.2.1

@[simp] theorem parentIfAny (outside : y ∉ t.toList) :
    (setParentColorIfAny h t.root p c).parent y = h.parent y := ((sameIfAny outside).mpr (.refl h y)).parent

@[simp] theorem colorIfAny (outside : y ∉ t.toList) :
    (setParentColorIfAny h t.root p c).color y = h.color y := ((sameIfAny outside).mpr (.refl h y)).color

@[simp] theorem repIfAny (apart : t.toList.Disjoint t'.toList) :
    LinkedTree.Rep (setParentColorIfAny h t.root q c) t' p ↔ LinkedTree.Rep h t' p :=
  repIff fun _ member => (sameIfAny fun inside => apart inside member).mpr (.refl _ _)

@[simp] theorem repFramesIfAny (apart : t.toList.Disjoint (keys fs)) :
    RepFrames (setParentColorIfAny h t.root q c) fs p ↔ RepFrames h fs p :=
  repFramesIff (by simp) fun _ member => (sameIfAny fun inside => apart inside member).mpr (.refl _ _)

@[simp] theorem repPathIfAny {ps : List (Frame α)} {above : α} (apart : t.toList.Disjoint (keys ps)) :
    RepPath (setParentColorIfAny h t.root q c) ps p above ↔ RepPath h ps p above :=
  repPathIff fun _ member => (sameIfAny fun inside => apart inside member).mpr (.refl _ _)

theorem repIfAnySelf (distinct : t.toList.Nodup) (color : t.color = c) (rep : LinkedTree.Rep h t p) :
    LinkedTree.Rep (setParentColorIfAny h t.root q c) t q := by
  cases t with
  | nil => trivial
  | node d l k r =>
    obtain ⟨-, color', left, right, repl, repr⟩ := rep
    simp only [Tree.toList, List.nodup_append', List.nodup_cons, List.disjoint_cons_right] at distinct
    obtain ⟨-, ⟨kr, -⟩, kl, -⟩ := distinct
    subst color
    simp [setParentColorIfAny, Tree.root, LinkedTree.Rep, Tree.color, *]

end IfAny

/- `if (rb) ns_rb_set_parent(rb, p)` keeps the color: it is the write above with the color it finds. -/
theorem setParentIfAnyEq (rep : LinkedTree.Rep h t p) : setParentIfAny h t.root q = setParentColorIfAny h t.root q t.color := by
  cases t with
  | nil => rfl
  | node c l k r =>
    obtain ⟨-, color, -⟩ := rep
    have kept : h.setParent k q = (h.setParent k q).setColor k c := by
      simp [Heap.setParent, Heap.setColor, ← color]
    exact kept

omit [DecidableEq α] in
theorem isRedRoot (rep : LinkedTree.Rep h t p) : isRed h t.root = true ↔ t.color = .red := by
  cases t with
  | nil => exact ⟨nofun, nofun⟩
  | node c l k r =>
    obtain ⟨-, color, -⟩ := rep
    simp [isRed, Tree.root, color, Tree.color]

section ChangeChild

@[simp] theorem parentChangeChild : (changeChild h x rb q).parent = h.parent := by
  unfold changeChild
  split
  · split <;> rfl
  · rfl

@[simp] theorem colorChangeChild : (changeChild h x rb q).color = h.color := by
  unfold changeChild
  split
  · split <;> rfl
  · rfl

@[simp] theorem sameChangeChild (outside : y ∉ keys fs) :
    SameAt h (changeChild h' x rb (top fs)) y ↔ SameAt h h' y := by
  unfold changeChild
  split
  · rename_i parent above
    have apart : ¬ y = parent := fun same => outside (same ▸ topMem above)
    split <;> simp [apart]
  · exact ⟨fun same => ⟨same.parent, same.color, same.child⟩, fun same => ⟨same.parent, same.color, same.child⟩⟩

@[simp] theorem childChangeChild (outside : y ∉ keys fs) :
    (changeChild h x rb (top fs)).child side y = h.child side y :=
  ((sameChangeChild outside).mpr (.refl h y)).child side

@[simp] theorem repChangeChild (apart : t.toList.Disjoint (keys fs)) :
    LinkedTree.Rep (changeChild h x rb (top fs)) t p ↔ LinkedTree.Rep h t p :=
  repIff fun _ member => (sameChangeChild (apart member)).mpr (.refl _ _)

@[simp] theorem repPathChangeChild {ps : List (Frame α)} {above : α} (apart : (keys ps).Disjoint (keys fs)) :
    RepPath (changeChild h x rb (top fs)) ps p above ↔ RepPath h ps p above :=
  repPathIff fun _ member => (sameChangeChild (apart member)).mpr (.refl _ _)

@[simp] theorem repFramesChangeChild (rep : RepFrames h fs (some x)) (distinct : (keys fs).Nodup)
    (outside : x ∉ keys fs) : RepFrames (changeChild h x rb (top fs)) fs rb := by
  cases fs with
  | nil => rfl
  | cons f fs =>
    obtain ⟨parent, color, near, far, sibling, rest⟩ := rep
    simp only [keys, List.mem_append, List.mem_cons, not_or, List.cons_append, List.nodup_cons] at outside distinct
    have other : f.sibling.root ≠ some x := fun same => outside.2.1 (Tree.rootMem same)
    have here : changeChild h x rb (top (f :: fs)) = h.setChild f.side f.key rb := by
      cases side : f.side <;> simp_all [changeChild, top, Side.other]
    rw [here]
    simp [RepFrames, *]

end ChangeChild

end Nanosig.Rbtree
