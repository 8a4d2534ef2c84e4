import Nanosig.Rbtree.Erase

/-! Unlinking: `__ns_rb_del` takes the node out and leaves either a balanced tree
or one whose empty hole is a black node short, under the node to rebalance from. -/
namespace Nanosig.Rbtree
open ColoredTree LinkedTree

variable {α : Type} [DecidableEq α]

/- What `__ns_rb_del` leaves: a heap that holds the keys `L` in order. -/
inductive Unlinked (h : Heap α) (L : List α) : Option α → Prop where
  | whole {t : ColoredTree.Tree α} {m : Nat} (holds : Holds h [] t) (order : t.toList = L) (balanced : Balanced t .black m) :
      Unlinked h L none
  | short {f : Frame α} {fs : List (Frame α)} {c : Color} (holds : Holds h (f :: fs) .nil)
      (order : (plug (f :: fs) .nil).toList = L) (accepts : Accepts (f :: fs) c 1) : Unlinked h L (some f.key)

omit [DecidableEq α] in
/- The place of a node that had no child. -/
theorem unlinkedLeaf {h : Heap α} {fs : List (Frame α)} {c : Color} {n : Nat} (accepts : Accepts fs c n)
    (height : c = .red ∧ n = 0 ∨ c = .black ∧ n = 1) (holds : Holds h fs .nil) :
    Unlinked h (plug fs .nil).toList (if c = .black then top fs else none) := by
  rcases height with ⟨rfl, rfl⟩ | ⟨rfl, rfl⟩
  · obtain ⟨m, balanced⟩ := (accepts.black' .black).plug .nil
    exact .whole ((holdsPlug _ _ _).mp holds) rfl balanced
  · cases fs with
    | nil => exact .whole holds rfl .nil
    | cons f fs => exact .short holds rfl accepts

omit [DecidableEq α] in
theorem unlinkedSingle {h : Heap α} {fs : List (Frame α)} {k : α} {c : Color} (accepts : Accepts fs .black 1)
    (holds : Holds h fs (.node .black .nil k .nil)) :
    Unlinked h (plug fs (.node c .nil k .nil)).toList none := by
  obtain ⟨m, balanced⟩ := accepts.plug (.black .nil .nil)
  exact .whole ((holdsPlug _ _ _).mp holds) (toListPlugCongr fs rfl) balanced

omit [DecidableEq α] in
theorem successorFromSpec (fuel : Nat) {h : Heap α} {t : ColoredTree.Tree α} {x : α} {q : Option α} (up : α) (rep : LinkedTree.Rep h t q)
    (root : t.root = some x) (enough : t.toList.length ≤ fuel) :
    ∃ ps c s r, t = plug ps (.node c .nil s r) ∧ before ps = [] ∧
      successorFrom fuel h up x = some (s, (top ps).getD up) := by
  induction t generalizing fuel x up q with
  | nil => nomatch root
  | node c l k r ihl _ =>
    cases root
    obtain ⟨-, -, left, -, repl, -⟩ := rep
    simp only [Tree.toList, List.length_append, List.length_cons] at enough
    cases fuel with
    | zero => omega
    | succ fuel =>
      cases l with
      | nil => exact ⟨[], c, k, r, rfl, rfl, by simp [successorFrom, left, top]⟩
      | node cl ll kl rl =>
        obtain ⟨ps, c', s, r', made, leftmost, found⟩ := ihl fuel k repl rfl (by omega)
        refine ⟨ps ++ [⟨.left, c, k, r⟩], c', s, r', by rw [plugAppend, ← made]; rfl,
          by simp [beforeAppend, leftmost, before], ?_⟩
        rw [topAppend, successorFrom, left]
        exact found

/- The successor `s` is out of the path `ps` below it, and `k` still in its place. -/
structure Detached (h : Heap α) (fs ps : List (Frame α)) (c cs : Color) (k s : α) (l r : ColoredTree.Tree α) : Prop where
  parent : h.parent k = top fs
  color : h.color k = c
  left : h.child .left k = l.root
  leftRep : LinkedTree.Rep h l (some k)
  frames : RepFrames h fs (some k)
  colorS : h.color s = cs
  right : h.child .right s = outer ps r.root
  rightRep : LinkedTree.Rep h r (some s)
  path : RepPath h ps r.root s

/- The writes of case 3: the path closes over the hole of `s` and moves under `s`. -/
theorem detachPath {h : Heap α} {fs rest : List (Frame α)} {c cf cs : Color} {k s p child : α} {l r sibling : ColoredTree.Tree α}
    (holds : Holds h (⟨.left, cf, p, sibling⟩ :: rest ++ ⟨.right, c, k, l⟩ :: fs) (.node cs .nil s r))
    (last : ∀ hole, outer (⟨.left, cf, p, sibling⟩ :: rest) hole = some child)
    (distinct : (k :: s :: (l.toList ++ (r.toList ++ (keys (⟨.left, cf, p, sibling⟩ :: rest) ++ keys fs)))).Nodup) :
    let h1 := ((h.setChild .left p r.root).setChild .right s (some child)).setParent child (some s)
    Detached h1 fs (⟨.left, cf, p, sibling⟩ :: rest) c cs k s l r ∧
      ∀ y, y ≠ s → y ∉ keys (⟨.left, cf, p, sibling⟩ :: rest) → SameAt h h1 y := by
  obtain ⟨⟨-, colorS, -, -, -, rightRep⟩, split⟩ := holds
  obtain ⟨path, parent, color, right, left, leftRep, frames⟩ := (repFramesAppend _ _ _ _ _).mp split
  obtain ⟨m, memberPath, same⟩ := outerMem ⟨.left, cf, p, sibling⟩ rest (some s)
  cases same.symm.trans (last _)
  simp only [List.nodup_cons, List.nodup_append', List.mem_cons, List.mem_append, List.disjoint_append_right,
    not_or] at distinct
  obtain ⟨⟨ks, kl, kr, kp, kf⟩, ⟨sl, sr, sp, sf⟩, lNodup, ⟨rNodup, ⟨pathNodup, fNodup, pf⟩, rp, rf⟩, lr, lp, lf⟩ := distinct
  have memberP : p ∈ keys (⟨.left, cf, p, sibling⟩ :: rest) := List.mem_cons_self
  have closed : RepPath (h.setChild .left p r.root) (⟨.left, cf, p, sibling⟩ :: rest) r.root k := by
    obtain ⟨parentP, colorP, -, far, siblingRep, restRep⟩ := path
    have outside := pathNodup
    simp only [keys, List.cons_append, List.nodup_cons, List.mem_append, not_or] at outside
    refine ⟨parentP, colorP, by simp, by simpa [Side.other] using far, ?_, ?_⟩
    · exact (repSetChild outside.1.1).mpr siblingRep
    · exact (repPathSetChild outside.1.2).mpr restRep
  have moved := repPathMove (x := s) pathNodup (last _) (by simpa [sp] using closed : RepPath
    ((h.setChild .left p r.root).setChild .right s (some child)) (⟨.left, cf, p, sibling⟩ :: rest) r.root k)
  have ck : ¬ k = child := fun e => kp (e ▸ memberPath)
  have pk : ¬ k = p := fun e => kp (e ▸ memberP)
  have cs' : ¬ s = child := fun e => sp (e ▸ memberPath)
  have ps : ¬ s = p := fun e => sp (e ▸ memberP)
  have cl : child ∉ l.toList := fun m => lp m memberPath
  have pl : p ∉ l.toList := fun m => lp m memberP
  have cr : child ∉ r.toList := fun m => rp m memberPath
  have pr : p ∉ r.toList := fun m => rp m memberP
  have cf' : child ∉ keys fs := pf memberPath
  have pf' : p ∉ keys fs := pf memberP
  dsimp only [Side.other] at color right left leftRep frames
  refine ⟨⟨by simp [*], by simp [*], by simp [*], by simp [*], by simp [*], by simp [*], by simp [last],
    by simp [*], moved⟩, fun y notS outside => ?_⟩
  have yc : ¬ y = child := fun e => outside (e ▸ memberPath)
  have yp : ¬ y = p := fun e => outside (e ▸ memberP)
  simp [*]

theorem detachSuccessorSpec {fuel : Nat} {h : Heap α} {fs : List (Frame α)} {c : Color} {k child : α} {l t : ColoredTree.Tree α}
    (holds : Holds h fs (.node c l k t)) (root : t.root = some child)
    (distinct : (plug fs (.node c l k t)).toList.Nodup) (enough : t.toList.length ≤ fuel) :
    ∃ h1 ps cs s r, t = plug ps (.node cs .nil s r) ∧ before ps = [] ∧
      detachSuccessor fuel h child = some (h1, s, (top ps).getD s, r.root) ∧ Detached h1 fs ps c cs k s l r ∧
      ∀ y, y ∉ t.toList → SameAt h h1 y := by
  cases t with
  | nil => cases root
  | node ct tl kt tr =>
    cases root
    cases tl with
    | nil =>
      obtain ⟨⟨parent, color, left, right, leftRep, ⟨-, colorT, leftT, rightT, -, rightRep⟩⟩, frames⟩ := holds
      exact ⟨h, [], ct, child, tr, rfl, rfl, by simp [detachSuccessor, leftT, rightT, top],
        ⟨parent, color, left, leftRep, frames, colorT, rightT, rightRep, trivial⟩, fun y _ => .refl h y⟩
    | node cl ll kl rl =>
      have leftT : h.child .left child = some kl := holds.1.2.2.2.2.2.2.2.1
      simp only [Tree.toList, List.length_append, List.length_cons] at enough
      obtain ⟨ps', cs, s, r, made, leftmost', found⟩ :=
        successorFromSpec fuel child holds.1.2.2.2.2.2.2.2.2.2.1 rfl (by simp [Tree.toList]; omega)
      generalize same : ps' ++ [⟨.left, ct, child, tr⟩] = path
      have whole : ColoredTree.Tree.node ct (.node cl ll kl rl) child tr = plug path (.node cs .nil s r) := by
        rw [← same, plugAppend, ← made]
        rfl
      have leftmost : before path = [] := by rw [← same, beforeAppend, leftmost']; rfl
      have last (hole : Option α) : outer path hole = some child := by rw [← same, outerAppend]
      have first : top path = some ((top ps').getD child) := by rw [← same, topAppend]
      clear same
      obtain _ | ⟨⟨side, cf, p, sibling⟩, rest⟩ := path
      · cases first
      cases side with
      | right => simp [before] at leftmost
      | left =>
        rw [whole] at holds distinct ⊢
        have split := (holdsAppend h (⟨.left, cf, p, sibling⟩ :: rest) (⟨.right, c, k, l⟩ :: fs) _).mpr
          ((holdsUp h ⟨.right, c, k, l⟩ fs _).mpr holds)
        have right : h.child .right s = r.root := split.1.2.2.2.1
        obtain ⟨detached, kept⟩ := detachPath split last (nodupOfCount distinct fun x => by
          simp [countPlug, Tree.toList, List.count_cons]
          omega)
        refine ⟨_, _, cs, s, r, rfl, leftmost, ?_, detached, fun y outside => kept y ?_ ?_⟩
        · have parentS : p = (top ps').getD child := Option.some.inj first
          rw [← parentS] at found
          simp [detachSuccessor, leftT, found, right, top]
        · rintro rfl
          exact outside ((plugPerm _ _).mem_iff.mpr (by simp [Tree.toList]))
        · exact fun inside => outside ((plugPerm _ _).mem_iff.mpr (List.mem_append_right _ inside))

/- The writes of the end of cases 2 and 3, before the colors of `child2` and of the successor. -/
def moveSuccessor (h : Heap α) (fs : List (Frame α)) (k s x : α) : Heap α :=
  changeChild ((h.setChild .left s (some x)).setParent x (some s)) k (some s) (top fs)

theorem moveSuccessorSpec {h : Heap α} {fs ps : List (Frame α)} {c cs : Color} {k s x : α} {l r : ColoredTree.Tree α} (q : α)
    (detached : Detached h fs ps c cs k s l r) (root : l.root = some x)
    (distinct : (k :: s :: (l.toList ++ (r.toList ++ (keys ps ++ keys fs)))).Nodup) :
    let h' := setParentColor (setParentColorIfAny (moveSuccessor h fs k s x) r.root (some q) .black) s (top fs) c
    RepFrames h' (ps ++ ⟨.right, c, s, l⟩ :: fs) r.root ∧
      (∀ d k', r = .node d .nil k' .nil → LinkedTree.Rep h' (.node .black .nil k' .nil) (some q)) ∧
      ∀ y, y ≠ s → y ∉ l.toList → y ∉ r.toList → y ∉ keys fs → SameAt h h' y := by
  obtain ⟨parent, color, left, leftRep, frames, colorS, right, rightRep, path⟩ := detached
  simp only [List.nodup_cons, List.nodup_append', List.mem_cons, List.mem_append, List.disjoint_append_right,
    not_or] at distinct
  obtain ⟨⟨ks, kl, kr, kp, kf⟩, ⟨sl, sr, sp, sf⟩, lNodup, ⟨rNodup, ⟨pathNodup, fNodup, pf⟩, rp, rf⟩, lr, lp, lf⟩ := distinct
  have xl : x ∈ l.toList := Tree.rootMem root
  have sx : ¬ s = x := fun e => sl (e ▸ xl)
  have xr : x ∉ r.toList := lr xl
  have xp : x ∉ keys ps := lp xl
  have xf : x ∉ keys fs := lf xl
  have rl : r.toList.Disjoint l.toList := List.disjoint_symm lr
  have moved : LinkedTree.Rep ((h.setChild .left s (some x)).setParent x (some s)) l (some s) :=
    repMove lNodup root (by simpa [sl] using leftRep : LinkedTree.Rep (h.setChild .left s (some x)) l (some k))
  refine ⟨(repFramesAppend _ _ _ _ _).mpr ⟨?_, ?_, ?_, ?_, ?_, ?_, ?_⟩, ?_, fun y ys yl yr yf => ?_⟩
  · simp [moveSuccessor, *]
  · simp [moveSuccessor, *]
  · simp [moveSuccessor, *]
  · simp [moveSuccessor, *]
  · simp [moveSuccessor, Side.other, *]
  · simp [moveSuccessor, *]
  · simp [moveSuccessor, *]
  · rintro d k' rfl
    obtain ⟨-, -, leftNil, rightNil, -⟩ := rightRep
    simp only [Tree.toList, List.nil_append, List.mem_singleton] at sr xr rf
    have ks' : ¬ k' = s := fun e => sr e.symm
    have kx : ¬ k' = x := fun e => xr e.symm
    have kf' : k' ∉ keys fs := rf List.mem_cons_self
    simp [LinkedTree.Rep, moveSuccessor, setParentColorIfAny, Tree.root, *]
  · have yx : ¬ y = x := fun e => yl (e ▸ xl)
    simp [moveSuccessor, *]

theorem replaceBySuccessorSpec {h : Heap α} {fs ps : List (Frame α)} {c cs : Color} {k s x : α} {l r : ColoredTree.Tree α} {n : Nat}
    (detached : Detached h fs ps c cs k s l r) (root : l.root = some x)
    (distinct : (k :: s :: (l.toList ++ (r.toList ++ (keys ps ++ keys fs)))).Nodup)
    (accepts : Accepts (ps ++ ⟨.right, c, s, l⟩ :: fs) cs n) (balanced : Balanced (.node cs .nil s r) cs n) :
    ∃ h' rebalance, replaceBySuccessor h k s ((top ps).getD s) r.root = some (h', rebalance) ∧
      Unlinked h' (plug (ps ++ ⟨.right, c, s, l⟩ :: fs) r).toList rebalance ∧
      ∀ y, y ≠ s → y ∉ l.toList → y ∉ r.toList → y ∉ keys fs → SameAt h h' y := by
  obtain ⟨frames, black, same⟩ := moveSuccessorSpec ((top ps).getD s) detached root distinct
  have left : h.child .left k = some x := detached.left.trans root
  have apart : k ≠ s ∧ k ≠ x := by
    simp only [List.nodup_cons, List.mem_cons, List.mem_append, not_or] at distinct
    exact ⟨distinct.1.1, fun e => distinct.1.2.1 (e ▸ Tree.rootMem root)⟩
  have heap : ∀ child2, replaceBySuccessor h k s ((top ps).getD s) child2 = some
      (setParentColor (setParentColorIfAny (moveSuccessor h fs k s x) child2 (some ((top ps).getD s)) .black) s (top fs) c,
        child2.elim (if cs = .black then some ((top ps).getD s) else none) fun _ => none) := by
    rintro (- | child2) <;>
      simp [replaceBySuccessor, moveSuccessor, left, detached.parent, detached.color, detached.colorS,
        setParentColorIfAny, apart]
  have single : Balanced (.make .left cs .nil s r) cs n := balanced
  rcases balancedSingle single with ⟨rfl, height⟩ | ⟨rfl, rfl, k', rfl⟩
  · have unlinked := unlinkedLeaf accepts height ⟨trivial, frames⟩
    rw [topAppend] at unlinked
    exact ⟨_, _, heap none, unlinked, same⟩
  · have repR := black .red k' rfl
    exact ⟨_, _, heap (some k'), unlinkedSingle accepts ⟨by rw [topAppend]; exact repR, frames⟩, same⟩

/- Case 1: the only child, or none, takes the place of the node. -/
theorem rbDelSingle (fuel : Nat) (side : Side) {h : Heap α} {fs : List (Frame α)} {c : Color} {k : α} {t : ColoredTree.Tree α}
    {n : Nat} (holds : Holds h fs (.make side c .nil k t)) (distinct : (k :: (t.toList ++ keys fs)).Nodup)
    (accepts : Accepts fs c n) (balanced : Balanced (.make side c .nil k t) c n) :
    ∃ h' rebalance, rbDel fuel h k = some (h', rebalance) ∧ Unlinked h' (plug fs t).toList rebalance ∧
      ∀ y, y ∉ t.toList → y ∉ keys fs → SameAt h h' y := by
  simp only [Holds, repMake, Tree.rootMake] at holds
  obtain ⟨⟨parent, color, near, far, -, rept⟩, frames⟩ := holds
  simp only [List.nodup_cons, List.nodup_append', List.mem_append, not_or] at distinct
  obtain ⟨⟨kt, kf⟩, tNodup, fNodup, tf⟩ := distinct
  rcases balancedSingle balanced with ⟨rfl, height⟩ | ⟨rfl, rfl, k', rfl⟩
  · have children : h.child .left k = none ∧ h.child .right k = none := by
      cases side with
      | left => exact ⟨near, far⟩
      | right => exact ⟨far, near⟩
    have closed : RepFrames (changeChild h k none (top fs)) fs none := repFramesChangeChild frames fNodup kf
    refine ⟨_, _, ?_, unlinkedLeaf accepts height ⟨trivial, closed⟩, fun y _ outside => by simp [outside]⟩
    simp [rbDel, children, parent, color]
  · obtain ⟨-, -, leftNil, rightNil, -⟩ := rept
    simp only [Tree.toList, List.nil_append, List.mem_singleton] at kt tf
    have kf' : k' ∉ keys fs := tf List.mem_cons_self
    -- The two branches write the child's color and the parent's pointer in either order.
    cases side with
    | left =>
      have made : rbDel fuel h k = some (setParentColor (changeChild h k (some k') (top fs)) k' (top fs) .black, none) := by
        simp [rbDel, near, show h.child .right k = some k' from far, parent, color]
      refine ⟨_, _, made, unlinkedSingle accepts ?_, fun y inside outside => ?_⟩
      · simp [Holds, LinkedTree.Rep, Tree.root, *]
      · simp only [Tree.toList, List.nil_append, List.mem_singleton] at inside
        simp [*]
    | right =>
      have made : rbDel fuel h k = some (changeChild (setParentColor h k' (top fs) .black) k (some k') (top fs), none) := by
        simp [rbDel, near, show h.child .left k = some k' from far, parent, color]
      refine ⟨_, _, made, unlinkedSingle accepts ?_, fun y inside outside => ?_⟩
      · simp [Holds, LinkedTree.Rep, Tree.root, *]
      · simp only [Tree.toList, List.nil_append, List.mem_singleton] at inside
        simp [*]

theorem rbDelSpec {fuel : Nat} {h : Heap α} {fs : List (Frame α)} {c : Color} {k : α} {l r : ColoredTree.Tree α} {n : Nat}
    (holds : Holds h fs (.node c l k r)) (distinct : (plug fs (.node c l k r)).toList.Nodup)
    (accepts : Accepts fs c n) (balanced : Balanced (.node c l k r) c n)
    (enough : (plug fs (.node c l k r)).toList.length ≤ fuel) :
    ∃ h' rebalance, rbDel fuel h k = some (h', rebalance) ∧
      Unlinked h' (before fs ++ l.toList ++ (r.toList ++ after fs)) rebalance ∧
      ∀ y, y ∉ (plug fs (.node c l k r)).toList → SameAt h h' y := by
  have member (y : α) : y ∉ (plug fs (.node c l k r)).toList ↔
      y ∉ l.toList ∧ y ≠ k ∧ y ∉ r.toList ∧ y ∉ keys fs := by
    rw [(plugPerm fs _).mem_iff]
    simp [Tree.toList]
  have apart (side : Side) (t : ColoredTree.Tree α) (same : (Tree.make side c .nil k t).toList = (ColoredTree.Tree.node c l k r).toList) :
      (k :: (t.toList ++ keys fs)).Nodup :=
    nodupOfCount distinct fun x => by
      rw [countPlug, ← same, Tree.countMake]
      simp [List.count_cons]
      omega
  cases l with
  | nil =>
    obtain ⟨h', rebalance, deleted, unlinked, same⟩ :=
      rbDelSingle fuel .left holds (apart .left r rfl) accepts balanced
    rw [toListPlug, List.append_assoc] at unlinked
    exact ⟨h', rebalance, deleted, by simpa using unlinked, fun y outside =>
      same y ((member y).mp outside).2.2.1 ((member y).mp outside).2.2.2⟩
  | node cl ll x rl =>
  cases r with
  | nil =>
    obtain ⟨h', rebalance, deleted, unlinked, same⟩ :=
      rbDelSingle fuel .right holds (apart .right (.node cl ll x rl) rfl) accepts balanced
    rw [toListPlug] at unlinked
    exact ⟨h', rebalance, deleted, by simpa using unlinked, fun y outside =>
      same y ((member y).mp outside).1 ((member y).mp outside).2.2.2⟩
  | node cr lr child rr =>
    have children : h.child .left k = some x ∧ h.child .right k = some child := ⟨holds.1.2.2.1, holds.1.2.2.2.1⟩
    have enoughT : (ColoredTree.Tree.node cr lr child rr).toList.length ≤ fuel := by
      refine Nat.le_trans ?_ enough
      rw [(plugPerm fs _).length_eq]
      simp [Tree.toList]
      omega
    obtain ⟨h1, ps, cs, s, r, made, leftmost, detach, detached, same⟩ := detachSuccessorSpec holds rfl distinct enoughT
    rw [made] at distinct balanced member ⊢
    have below : Balanced (plug [⟨.right, c, k, .node cl ll x rl⟩] (plug ps (.node cs .nil s r))) c n := balanced
    obtain ⟨d, m, acceptsR, balancedR⟩ := accepts.ofPlug below
    obtain ⟨d', m', acceptsS, balancedS⟩ := acceptsR.ofPlug balancedR
    cases balancedS.color
    obtain ⟨h', rebalance, replaced, unlinked, same'⟩ := replaceBySuccessorSpec detached rfl
      (nodupOfCount distinct fun y => by simp [countPlug, Tree.toList, List.count_cons]; omega) (acceptsS.rekey s) balancedS
    refine ⟨h', rebalance, ?_, ?_, fun y outside => ?_⟩
    · simp [rbDel, children, detach, replaced]
    · simpa [toListPlug, beforeAppend, afterAppend, leftmost, before, after, Tree.toList] using unlinked
    · obtain ⟨yl, yk, yr, yf⟩ := (member y).mp outside
      have yr' : y ≠ s ∧ y ∉ r.toList := by
        rw [toListPlug] at yr
        simp [Tree.toList] at yr
        exact ⟨yr.2.1, yr.2.2.1⟩
      exact (same y (made ▸ yr)).trans (same' y yr'.1 yl yr'.2 yf)

end Nanosig.Rbtree
