import Nanosig.Lib.ColoredTree

/-! Red-black trees laid out as linked nodes: every node holds its parent, its
color and its two children. `Rep` says that the nodes of a tree hold what the
tree says, `RepFrames` the same of a context; a write outside leaves both. -/
namespace LinkedTree
open ColoredTree

structure Heap (α : Type*) where
  root : Option α
  parent : α → Option α
  color : α → Color
  child : Side → α → Option α

variable {α : Type*}

namespace Heap

def setRoot (h : Heap α) (node : Option α) : Heap α := { h with root := node }

section Fields

variable (h : Heap α) (p : Option α)

@[simp] theorem rootSetRoot : (h.setRoot p).root = p := rfl
@[simp] theorem parentSetRoot : (h.setRoot p).parent = h.parent := rfl
@[simp] theorem colorSetRoot : (h.setRoot p).color = h.color := rfl
@[simp] theorem childSetRoot : (h.setRoot p).child = h.child := rfl

end Fields

variable [DecidableEq α]

def setParent (h : Heap α) (x : α) (p : Option α) : Heap α :=
  { h with parent := Function.update h.parent x p }

def setColor (h : Heap α) (x : α) (c : Color) : Heap α :=
  { h with color := Function.update h.color x c }

def setChild (h : Heap α) (side : Side) (x : α) (t : Option α) : Heap α :=
  { h with child := Function.update h.child side (Function.update (h.child side) x t) }

section Fields

variable (h : Heap α) (side side' : Side) (x y : α) (p : Option α) (c : Color)

@[simp] theorem rootSetParent : (h.setParent x p).root = h.root := rfl
@[simp] theorem colorSetParent : (h.setParent x p).color = h.color := rfl
@[simp] theorem childSetParent : (h.setParent x p).child = h.child := rfl
@[simp] theorem rootSetColor : (h.setColor x c).root = h.root := rfl
@[simp] theorem parentSetColor : (h.setColor x c).parent = h.parent := rfl
@[simp] theorem childSetColor : (h.setColor x c).child = h.child := rfl
@[simp] theorem rootSetChild : (h.setChild side x p).root = h.root := rfl
@[simp] theorem parentSetChild : (h.setChild side x p).parent = h.parent := rfl
@[simp] theorem colorSetChild : (h.setChild side x p).color = h.color := rfl

@[simp] theorem parentSetParent : (h.setParent x p).parent y = if y = x then p else h.parent y := by
  simp [setParent, Function.update_apply]

@[simp] theorem colorSetColor : (h.setColor x c).color y = if y = x then c else h.color y := by
  simp [setColor, Function.update_apply]

@[simp] theorem childSetChild :
    (h.setChild side x p).child side' y = if side' = side ∧ y = x then p else h.child side' y := by
  by_cases sides : side' = side
  · subst sides
    simp [setChild, Function.update_apply]
  · simp [setChild, sides]

theorem setColorSelf {h : Heap α} {x : α} {c : Color} (same : h.color x = c) : h.setColor x c = h := by
  simp [setColor, ← same]

end Fields
end Heap

def Rep (h : Heap α) : ColoredTree.Tree α → Option α → Prop
  | .nil, _ => True
  | .node c l k r, p => h.parent k = p ∧ h.color k = c ∧ h.child .left k = l.root ∧ h.child .right k = r.root ∧
      Rep h l (some k) ∧ Rep h r (some k)

def RepFrames (h : Heap α) : List (Frame α) → Option α → Prop
  | [], hole => h.root = hole
  | f :: fs, hole => h.parent f.key = top fs ∧ h.color f.key = f.color ∧ h.child f.side f.key = hole ∧
      h.child f.side.other f.key = f.sibling.root ∧ Rep h f.sibling (some f.key) ∧ RepFrames h fs (some f.key)

theorem repMake (h : Heap α) (side : Side) (c : Color) (near far : ColoredTree.Tree α) (k : α) (p : Option α) :
    Rep h (.make side c near k far) p ↔ h.parent k = p ∧ h.color k = c ∧ h.child side k = near.root ∧
      h.child side.other k = far.root ∧ Rep h near (some k) ∧ Rep h far (some k) := by
  cases side with
  | left => rfl
  | right =>
    rw [Tree.make, Rep, Side.other]
    tauto

/- The heap holds the context with the tree in its hole. -/
def Holds (h : Heap α) (fs : List (Frame α)) (t : ColoredTree.Tree α) : Prop := Rep h t (top fs) ∧ RepFrames h fs t.root

theorem holdsUp (h : Heap α) (f : Frame α) (fs : List (Frame α)) (t : ColoredTree.Tree α) :
    Holds h (f :: fs) t ↔ Holds h fs (f.fill t) := by
  rw [Holds, Holds, Frame.fill, repMake, Tree.rootMake, RepFrames, top]
  tauto

theorem holdsPlug (h : Heap α) (fs : List (Frame α)) (t : ColoredTree.Tree α) : Holds h fs t ↔ Holds h [] (plug fs t) := by
  induction fs generalizing t with
  | nil => rfl
  | cons f fs ih => rw [holdsUp, ih, plug]

theorem holdsAppend (h : Heap α) (ps fs : List (Frame α)) (t : ColoredTree.Tree α) : Holds h (ps ++ fs) t ↔ Holds h fs (plug ps t) := by
  rw [holdsPlug, holdsPlug h fs, plugAppend]

def outer : List (Frame α) → Option α → Option α
  | [], hole => hole
  | f :: ps, _ => outer ps (some f.key)

/- A path is a context that does not reach the root: its last node stands under `above`. -/
def RepPath (h : Heap α) : List (Frame α) → Option α → α → Prop
  | [], _, _ => True
  | f :: ps, hole, above => h.parent f.key = some ((top ps).getD above) ∧ h.color f.key = f.color ∧
      h.child f.side f.key = hole ∧ h.child f.side.other f.key = f.sibling.root ∧
      Rep h f.sibling (some f.key) ∧ RepPath h ps (some f.key) above

theorem outerAppend (ps : List (Frame α)) (f : Frame α) (hole : Option α) : outer (ps ++ [f]) hole = some f.key := by
  induction ps generalizing hole with
  | nil => rfl
  | cons g ps ih => exact ih _

theorem topAppend (ps fs : List (Frame α)) (f : Frame α) : top (ps ++ f :: fs) = some ((top ps).getD f.key) := by
  cases ps <;> rfl

theorem repFramesAppend (h : Heap α) (ps fs : List (Frame α)) (f : Frame α) (hole : Option α) :
    RepFrames h (ps ++ f :: fs) hole ↔ RepPath h ps hole f.key ∧ RepFrames h (f :: fs) (outer ps hole) := by
  induction ps generalizing hole with
  | nil => simp [RepPath, outer]
  | cons g ps ih =>
    rw [List.cons_append, RepFrames, ih, RepPath, topAppend, outer]
    tauto

structure SameAt (h h' : Heap α) (k : α) : Prop where
  parent : h'.parent k = h.parent k
  color : h'.color k = h.color k
  child : ∀ side, h'.child side k = h.child side k

@[simp] theorem SameAt.refl (h : Heap α) (k : α) : SameAt h h k := ⟨rfl, rfl, fun _ => rfl⟩

theorem SameAt.trans {h h' h'' : Heap α} {k : α} (first : SameAt h h' k) (second : SameAt h' h'' k) : SameAt h h'' k :=
  ⟨second.parent.trans first.parent, second.color.trans first.color,
    fun side => (second.child side).trans (first.child side)⟩

theorem SameAt.symm {h h' : Heap α} {k : α} (same : SameAt h h' k) : SameAt h' h k :=
  ⟨same.parent.symm, same.color.symm, fun side => (same.child side).symm⟩

theorem Rep.congr {h h' : Heap α} {t : ColoredTree.Tree α} {p : Option α} (same : ∀ k ∈ t.toList, SameAt h h' k)
    (rep : Rep h t p) : Rep h' t p := by
  induction t generalizing p with
  | nil => trivial
  | node c l k r ihl ihr =>
    obtain ⟨parent, color, left, right, repl, repr⟩ := rep
    have here := same k (by simp [Tree.toList])
    exact ⟨here.parent.trans parent, here.color.trans color, (here.child _).trans left, (here.child _).trans right,
      ihl (fun x member => same x (by simp [Tree.toList, member])) repl,
      ihr (fun x member => same x (by simp [Tree.toList, member])) repr⟩

theorem RepFrames.congr {h h' : Heap α} {fs : List (Frame α)} {hole : Option α} (root : h'.root = h.root)
    (same : ∀ k ∈ keys fs, SameAt h h' k) (rep : RepFrames h fs hole) : RepFrames h' fs hole := by
  induction fs generalizing hole with
  | nil => exact root.trans rep
  | cons f fs ih =>
    obtain ⟨parent, color, near, far, sibling, rest⟩ := rep
    have here := same f.key (by simp [keys])
    exact ⟨here.parent.trans parent, here.color.trans color, (here.child _).trans near, (here.child _).trans far,
      sibling.congr fun x member => same x (by simp [keys, member]),
      ih (fun x member => same x (by simp [keys, member])) rest⟩

theorem repIff {h h' : Heap α} {t : ColoredTree.Tree α} {p : Option α} (same : ∀ k ∈ t.toList, SameAt h h' k) :
    Rep h' t p ↔ Rep h t p := ⟨.congr fun k member => (same k member).symm, .congr same⟩

theorem repFramesIff {h h' : Heap α} {fs : List (Frame α)} {hole : Option α} (root : h'.root = h.root)
    (same : ∀ k ∈ keys fs, SameAt h h' k) : RepFrames h' fs hole ↔ RepFrames h fs hole :=
  ⟨.congr root.symm fun k member => (same k member).symm, .congr root same⟩

theorem RepPath.congr {h h' : Heap α} {ps : List (Frame α)} {hole : Option α} {above : α}
    (same : ∀ k ∈ keys ps, SameAt h h' k) (rep : RepPath h ps hole above) : RepPath h' ps hole above := by
  induction ps generalizing hole with
  | nil => trivial
  | cons f ps ih =>
    obtain ⟨parent, color, near, far, sibling, rest⟩ := rep
    have here := same f.key (by simp [keys])
    exact ⟨here.parent.trans parent, here.color.trans color, (here.child _).trans near, (here.child _).trans far,
      sibling.congr fun x member => same x (by simp [keys, member]),
      ih (fun x member => same x (by simp [keys, member])) rest⟩

theorem repPathIff {h h' : Heap α} {ps : List (Frame α)} {hole : Option α} {above : α}
    (same : ∀ k ∈ keys ps, SameAt h h' k) : RepPath h' ps hole above ↔ RepPath h ps hole above :=
  ⟨.congr fun k member => (same k member).symm, .congr same⟩

theorem outerMem (f : Frame α) (ps : List (Frame α)) (hole : Option α) :
    ∃ k ∈ keys (f :: ps), outer (f :: ps) hole = some k := by
  induction ps generalizing f hole with
  | nil => exact ⟨f.key, by simp [keys], rfl⟩
  | cons g ps ih =>
    obtain ⟨k, member, same⟩ := ih g (some f.key)
    exact ⟨k, by rw [keys]; exact List.mem_append_right _ member, same⟩

theorem neOfMem {x y : α} {l : List α} (outside : x ∉ l) (member : y ∈ l) : y ≠ x := by
  rintro rfl
  exact outside member

section Writes

variable [DecidableEq α] {h h' : Heap α} {t : ColoredTree.Tree α} {fs : List (Frame α)} {side : Side} {x y : α} {p q : Option α}
  {c : Color}

@[simp] theorem sameSetParent (apart : ¬ y = x) : SameAt h (h'.setParent x q) y ↔ SameAt h h' y := by
  constructor <;> (intro same; exact ⟨by simpa [apart] using same.parent, same.color, same.child⟩)

@[simp] theorem sameSetColor (apart : ¬ y = x) : SameAt h (h'.setColor x c) y ↔ SameAt h h' y := by
  constructor <;> (intro same; exact ⟨same.parent, by simpa [apart] using same.color, same.child⟩)

@[simp] theorem sameSetChild (apart : ¬ y = x) : SameAt h (h'.setChild side x q) y ↔ SameAt h h' y := by
  constructor <;> (intro same; exact ⟨same.parent, same.color, by simpa [apart] using same.child⟩)

@[simp] theorem repSetParent (outside : x ∉ t.toList) : Rep (h.setParent x q) t p ↔ Rep h t p :=
  repIff fun _ member => (sameSetParent (neOfMem outside member)).mpr (.refl _ _)

@[simp] theorem repSetColor (outside : x ∉ t.toList) : Rep (h.setColor x c) t p ↔ Rep h t p :=
  repIff fun _ member => (sameSetColor (neOfMem outside member)).mpr (.refl _ _)

@[simp] theorem repSetChild (outside : x ∉ t.toList) : Rep (h.setChild side x q) t p ↔ Rep h t p :=
  repIff fun _ member => (sameSetChild (neOfMem outside member)).mpr (.refl _ _)

@[simp] theorem repFramesSetParent (outside : x ∉ keys fs) : RepFrames (h.setParent x q) fs p ↔ RepFrames h fs p :=
  repFramesIff rfl fun _ member => (sameSetParent (neOfMem outside member)).mpr (.refl _ _)

@[simp] theorem repFramesSetColor (outside : x ∉ keys fs) : RepFrames (h.setColor x c) fs p ↔ RepFrames h fs p :=
  repFramesIff rfl fun _ member => (sameSetColor (neOfMem outside member)).mpr (.refl _ _)

@[simp] theorem repFramesSetChild (outside : x ∉ keys fs) :
    RepFrames (h.setChild side x q) fs p ↔ RepFrames h fs p :=
  repFramesIff rfl fun _ member => (sameSetChild (neOfMem outside member)).mpr (.refl _ _)

@[simp] theorem repPathSetParent {ps : List (Frame α)} {above : α} (outside : x ∉ keys ps) :
    RepPath (h.setParent x q) ps p above ↔ RepPath h ps p above :=
  repPathIff fun _ member => (sameSetParent (neOfMem outside member)).mpr (.refl _ _)

@[simp] theorem repPathSetColor {ps : List (Frame α)} {above : α} (outside : x ∉ keys ps) :
    RepPath (h.setColor x c) ps p above ↔ RepPath h ps p above :=
  repPathIff fun _ member => (sameSetColor (neOfMem outside member)).mpr (.refl _ _)

@[simp] theorem repPathSetChild {ps : List (Frame α)} {above : α} (outside : x ∉ keys ps) :
    RepPath (h.setChild side x q) ps p above ↔ RepPath h ps p above :=
  repPathIff fun _ member => (sameSetChild (neOfMem outside member)).mpr (.refl _ _)

theorem repMove {k : α} (distinct : t.toList.Nodup) (root : t.root = some k) (rep : Rep h t p) :
    Rep (h.setParent k q) t q := by
  cases t with
  | nil => trivial
  | node c l k' r =>
    cases root
    obtain ⟨-, color, left, right, repl, repr⟩ := rep
    simp only [Tree.toList, List.nodup_append', List.nodup_cons, List.disjoint_cons_right] at distinct
    obtain ⟨-, ⟨kr, -⟩, kl, -⟩ := distinct
    simp [Rep, *]

theorem repPathMove {f : Frame α} {ps : List (Frame α)} {hole : Option α} {above k : α} (distinct : (keys (f :: ps)).Nodup)
    (last : outer (f :: ps) hole = some k) (rep : RepPath h (f :: ps) hole above) :
    RepPath (h.setParent k (some x)) (f :: ps) hole x := by
  induction ps generalizing f hole with
  | nil =>
    cases last
    obtain ⟨-, color, near, far, sibling, -⟩ := rep
    simp only [keys, List.append_nil, List.nodup_cons] at distinct
    simp [RepPath, top, *]
  | cons g ps ih =>
    obtain ⟨parent, color, near, far, sibling, rest⟩ := rep
    obtain ⟨k', member, same⟩ := outerMem g ps (some f.key)
    cases same.symm.trans last
    rw [keys, List.nodup_append', List.nodup_cons] at distinct
    obtain ⟨⟨outside, -⟩, restDistinct, apart⟩ := distinct
    have notHere : ¬ f.key = k := fun same => apart (List.mem_cons_self) (same ▸ member)
    have notSibling : k ∉ f.sibling.toList := fun inside => apart (List.mem_cons_of_mem _ inside) member
    have moved := ih restDistinct last rest
    exact ⟨by simpa [notHere, top] using parent, color, near, far, by simpa [notSibling] using sibling, moved⟩

end Writes

end LinkedTree
