import Nanosig.Lib.LinkedTree

/-! Walks over a linked tree. A walk repeats a successor function from a first node;
the mirror image of a tree turns a walk up the order into one down it, and the
postorder of what is left to visit is read off the context of a node. -/
namespace TreeWalks
open ColoredTree LinkedTree

variable {α : Type*}

/- The nodes met from `first` on; `none` when more than `fuel` are met or a successor fails. -/
def walk (successor : α → Option (Option α)) : Nat → Option α → Option (List α)
  | _, none => some []
  | 0, some _ => none
  | fuel + 1, some node => (successor node).bind fun onward => (walk successor fuel onward).map (node :: ·)

theorem walkFollows {successor : α → Option (Option α)} {L : List α} (fuel : Nat) (enough : L.length ≤ fuel)
    (follows : ∀ A k B, L = A ++ k :: B → successor k = some B.head?) : walk successor fuel L.head? = some L := by
  induction L generalizing fuel with
  | nil => simp [walk]
  | cons k rest ih =>
    rw [List.length_cons] at enough
    cases fuel with
    | zero => omega
    | succ fuel =>
      have onward := ih fuel (by omega) fun A x B split => follows (k :: A) x B (by rw [split]; rfl)
      simp [walk, follows [] k rest rfl, onward]

/-! Mirror images. -/

def mirrorTree : ColoredTree.Tree α → ColoredTree.Tree α
  | .nil => .nil
  | .node c l k r => .node c (mirrorTree r) k (mirrorTree l)

def mirrorFrame (f : Frame α) : Frame α := ⟨f.side.other, f.color, f.key, mirrorTree f.sibling⟩

def mirrorHeap (h : Heap α) : Heap α := { h with child := fun side => h.child side.other }

@[simp] theorem rootMirror (t : ColoredTree.Tree α) : (mirrorTree t).root = t.root := by cases t <;> rfl

@[simp] theorem toListMirror (t : ColoredTree.Tree α) : (mirrorTree t).toList = t.toList.reverse := by
  induction t with
  | nil => rfl
  | node c l k r ihl ihr => simp [mirrorTree, Tree.toList, ihl, ihr]

theorem topMirror (fs : List (Frame α)) : top (fs.map mirrorFrame) = top fs := by cases fs <;> rfl

theorem afterMirror (fs : List (Frame α)) : after (fs.map mirrorFrame) = (before fs).reverse := by
  induction fs with
  | nil => rfl
  | cons f fs ih =>
    obtain ⟨side, c, k, sibling⟩ := f
    cases side <;> simp [mirrorFrame, Side.other, after, before, ih]

theorem beforeMirror (fs : List (Frame α)) : before (fs.map mirrorFrame) = (after fs).reverse := by
  induction fs with
  | nil => rfl
  | cons f fs ih =>
    obtain ⟨side, c, k, sibling⟩ := f
    cases side <;> simp [mirrorFrame, Side.other, after, before, ih]

theorem plugMirror (fs : List (Frame α)) (t : ColoredTree.Tree α) :
    (plug (fs.map mirrorFrame) (mirrorTree t)).toList = (plug fs t).toList.reverse := by
  rw [toListPlug, toListPlug, beforeMirror, afterMirror, toListMirror]
  simp

theorem repMirror {h : Heap α} {t : ColoredTree.Tree α} {p : Option α} (rep : LinkedTree.Rep h t p) :
    LinkedTree.Rep (mirrorHeap h) (mirrorTree t) p := by
  induction t generalizing p with
  | nil => trivial
  | node c l k r ihl ihr =>
    obtain ⟨parent, color, left, right, repl, repr⟩ := rep
    exact ⟨parent, color, by rw [rootMirror]; exact right, by rw [rootMirror]; exact left, ihr repr, ihl repl⟩

theorem repFramesMirror {h : Heap α} {fs : List (Frame α)} {hole : Option α} (rep : RepFrames h fs hole) :
    RepFrames (mirrorHeap h) (fs.map mirrorFrame) hole := by
  induction fs generalizing hole with
  | nil => exact rep
  | cons f fs ih =>
    obtain ⟨side, c, k, sibling⟩ := f
    obtain ⟨parent, color, near, far, sib, rest⟩ := rep
    refine ⟨parent.trans (topMirror fs).symm, color, ?_, ?_, repMirror sib, ih rest⟩
    · cases side <;> exact near
    · change (mirrorHeap h).child side.other.other k = (mirrorTree sibling).root
      rw [rootMirror, Side.otherOther]
      exact far

theorem holdsMirror {h : Heap α} {fs : List (Frame α)} {t : ColoredTree.Tree α} (holds : Holds h fs t) :
    Holds (mirrorHeap h) (fs.map mirrorFrame) (mirrorTree t) := by
  refine ⟨?_, ?_⟩
  · rw [topMirror]
    exact repMirror holds.1
  · rw [rootMirror]
    exact repFramesMirror holds.2

/-! Postorder. -/

def postorder : ColoredTree.Tree α → List α
  | .nil => []
  | .node _ l k r => postorder l ++ postorder r ++ [k]

def postorderRest : List (Frame α) → List α
  | [] => []
  | f :: fs => (match f.side with
    | .left => postorder f.sibling
    | .right => []) ++ f.key :: postorderRest fs

theorem postorderPerm (t : ColoredTree.Tree α) : (postorder t).Perm t.toList := by
  induction t with
  | nil => exact .refl _
  | node c l k r ihl ihr =>
    rw [postorder, Tree.toList, List.append_assoc]
    exact ihl.append ((ihr.append_right [k]).trans (List.perm_append_singleton k _))

theorem postorderFill (f : Frame α) (fs : List (Frame α)) (t : ColoredTree.Tree α) :
    postorder (f.fill t) ++ postorderRest fs =
      (match f.side with
        | .left => []
        | .right => postorder f.sibling) ++ postorder t ++ postorderRest (f :: fs) := by
  obtain ⟨side, c, k, sibling⟩ := f
  cases side <;> simp [Frame.fill, Tree.make, postorder, postorderRest]

theorem postorderFirst {t : ColoredTree.Tree α} (fs : List (Frame α)) (some_ : t ≠ .nil) :
    ∃ ps c k, plug (ps ++ fs) (.node c .nil k .nil) = plug fs t ∧ postorder t ++ postorderRest fs = k :: postorderRest (ps ++ fs) := by
  induction t generalizing fs with
  | nil => exact absurd rfl some_
  | node c l k r ihl ihr =>
    cases l with
    | node cl ll kl rl =>
      obtain ⟨ps, c', k', same, rest⟩ := ihl (⟨.left, c, k, r⟩ :: fs) nofun
      refine ⟨ps ++ [⟨.left, c, k, r⟩], c', k', by rw [List.append_assoc]; exact same, ?_⟩
      have filled := postorderFill ⟨.left, c, k, r⟩ fs (.node cl ll kl rl)
      simp only [List.nil_append] at filled
      rw [List.append_assoc, List.singleton_append, ← rest]
      exact filled
    | nil =>
      cases r with
      | nil => exact ⟨[], c, k, rfl, rfl⟩
      | node cr lr kr rr =>
        obtain ⟨ps, c', k', same, rest⟩ := ihr (⟨.right, c, k, .nil⟩ :: fs) nofun
        refine ⟨ps ++ [⟨.right, c, k, .nil⟩], c', k', by rw [List.append_assoc]; exact same, ?_⟩
        have filled := postorderFill ⟨.right, c, k, .nil⟩ fs (.node cr lr kr rr)
        simp only [postorder, List.nil_append] at filled
        rw [List.append_assoc, List.singleton_append, ← rest]
        exact filled

theorem postorderNext (fs : List (Frame α)) (t : ColoredTree.Tree α) :
    postorderRest fs = [] ∨ ∃ fs' c l k r, plug fs' (.node c l k r) = plug fs t ∧ postorderRest fs = k :: postorderRest fs' := by
  cases fs with
  | nil => exact .inl rfl
  | cons f fs =>
    refine .inr ?_
    obtain ⟨side, c, k, sibling⟩ := f
    cases side with
    | right => exact ⟨fs, c, sibling, k, t, rfl, rfl⟩
    | left =>
      by_cases empty : sibling = .nil
      · subst empty
        exact ⟨fs, c, t, k, .nil, rfl, rfl⟩
      · obtain ⟨ps, c', k', same, rest⟩ := postorderFirst (⟨.right, c, k, t⟩ :: fs) empty
        exact ⟨_, c', .nil, k', .nil, same, rest⟩

theorem postorderChild {h : Heap α} {fs : List (Frame α)} {c : Color} {l r : ColoredTree.Tree α} {k x : α} {side : Side}
    (holds : Holds h fs (.node c l k r)) (below : h.child side k = some x) :
    [x, k].Sublist (postorder (plug fs (.node c l k r))) := by
  have whole : ∀ (fs : List (Frame α)) (t : ColoredTree.Tree α), (postorder t).Sublist (postorder (plug fs t)) := by
    intro fs
    induction fs with
    | nil => exact fun t => List.Sublist.refl _
    | cons f fs ih =>
      intro t
      refine List.Sublist.trans ?_ (ih (f.fill t))
      obtain ⟨side, c, k, sibling⟩ := f
      cases side with
      | left => exact (List.sublist_append_left _ _).trans (List.sublist_append_left _ _)
      | right => exact (List.sublist_append_right _ _).trans (List.sublist_append_left _ _)
  refine List.Sublist.trans ?_ (whole fs _)
  obtain ⟨⟨-, -, left, right, -, -⟩, -⟩ := holds
  have inside : x ∈ postorder l ++ postorder r := by
    cases side with
    | left => exact List.mem_append_left _ ((postorderPerm l).mem_iff.mpr (Tree.rootMem (left.symm.trans below)))
    | right => exact List.mem_append_right _ ((postorderPerm r).mem_iff.mpr (Tree.rootMem (right.symm.trans below)))
  exact (List.singleton_sublist.mpr inside).append (List.Sublist.refl [k])

end TreeWalks
