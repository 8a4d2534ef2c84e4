import Nanosig.Rbtree.Links

/-! Insertion: what each rotation of `__ns_rb_insert` makes of the tree, and that
the loop ends with a balanced tree of the same order. -/
namespace Nanosig.Rbtree
open ColoredTree LinkedTree

variable {α : Type} [DecidableEq α]

structure Rebuilds (h h' : Heap α) (fs : List (Frame α)) (t t' : ColoredTree.Tree α) : Prop where
  holds : Holds h' fs t'
  same : ∀ y, y ∉ t.toList → y ∉ keys fs → SameAt h h' y

theorem insertFlipRebuilds {h : Heap α} {side side' side'' : Side} {n s a b : ColoredTree.Tree α} {p g u : α} {gs : List (Frame α)}
    (holds : Holds h gs (.make side .black (.make side' .red n p s) g (.make side'' .red a u b)))
    (distinct : (g :: p :: u :: (n.toList ++ (s.toList ++ (a.toList ++ (b.toList ++ keys gs))))).Nodup) :
    Rebuilds h (insertFlip h p g u) gs (.make side .black (.make side' .red n p s) g (.make side'' .red a u b))
      (.make side .red (.make side' .black n p s) g (.make side'' .black a u b)) := by
  simp only [Holds, repMake, Tree.rootMake] at holds
  obtain ⟨⟨pg, cg, ng, fg, ⟨pp, cp, np, fp, repN, reps⟩, ⟨pu, cu, nu, fu, repa, repb⟩⟩, frames⟩ := holds
  simp [List.nodup_append', List.nodup_cons, List.disjoint_append_right] at distinct
  have pg' : ¬ p = g := fun e => distinct.1.1 e.symm
  have ug : ¬ u = g := fun e => distinct.1.2.1 e.symm
  have up : ¬ u = p := fun e => distinct.2.1.1 e.symm
  refine ⟨by simp [insertFlip, Holds, repMake, *], fun y inside outside => ?_⟩
  simp only [Tree.memMake, not_or] at inside
  simp [insertFlip, *]

theorem insertRotateAtGparentRebuilds {h : Heap α} {side : Side} {n s u : ColoredTree.Tree α} {p g : α} {gs : List (Frame α)}
    (holds : Holds h gs (.make side .black (.make side .red n p s) g u))
    (distinct : (g :: p :: (n.toList ++ (s.toList ++ (u.toList ++ keys gs)))).Nodup) (black : s.color = .black) :
    Rebuilds h (insertRotateAtGparent h side p g s.root) gs (.make side .black (.make side .red n p s) g u)
      (.make side .black n p (.make side .red s g u)) := by
  simp only [Holds, repMake, Tree.rootMake] at holds
  obtain ⟨⟨pg, cg, ng, fg, ⟨pp, cp, np, fp, repN, reps⟩, repu⟩, frames⟩ := holds
  simp [List.nodup_append', List.nodup_cons, List.disjoint_append_right] at distinct
  obtain ⟨gOut, pOut, nNodup, ⟨sNodup, uOut, sOut⟩, nOut⟩ := distinct
  have pg' : ¬ p = g := fun e => gOut.1 e.symm
  have sn : s.toList.Disjoint n.toList := List.disjoint_symm nOut.1
  refine ⟨by simp [insertRotateAtGparent, rotateSetParents, Holds, repMake, *,
    repIfAnySelf (p := some p) sNodup black], fun y inside outside => ?_⟩
  simp only [Tree.memMake, not_or] at inside
  simp [insertRotateAtGparent, rotateSetParents, *]

theorem insertRotateTwiceRebuilds {h : Heap α} {side : Side} {a b s u : ColoredTree.Tree α} {n p g : α} {gs : List (Frame α)}
    (holds : Holds h gs (.make side .black (.make side.other .red (.make side .red a n b) p s) g u))
    (distinct : (g :: p :: n :: (a.toList ++ (b.toList ++ (s.toList ++ (u.toList ++ keys gs))))).Nodup)
    (blacka : a.color = .black) (blackb : b.color = .black) :
    Rebuilds h (insertRotateAtGparent (insertRotateAtParent h side n p) side n g b.root) gs
      (.make side .black (.make side.other .red (.make side .red a n b) p s) g u)
      (.make side .black (.make side .red s p a) n (.make side .red b g u)) := by
  simp only [Holds, repMake, Tree.rootMake] at holds
  obtain ⟨⟨pg, cg, ng, fg, ⟨pp, cp, np, fp, ⟨pn, cn, nn, fn, repa, repb⟩, reps⟩, repu⟩, frames⟩ := holds
  rw [Side.otherOther] at fp
  simp [List.nodup_append', List.nodup_cons, List.disjoint_append_right] at distinct
  obtain ⟨gOut, pOut, nOut, aNodup, ⟨bNodup, sOut, bOut⟩, aOut⟩ := distinct
  have pg' : ¬ p = g := fun e => gOut.1 e.symm
  have ng' : ¬ n = g := fun e => gOut.2.1 e.symm
  have np' : ¬ n = p := fun e => pOut.1 e.symm
  have ba : b.toList.Disjoint a.toList := List.disjoint_symm aOut.1
  refine ⟨by simp [insertRotateAtGparent, rotateSetParents, insertRotateAtParent, Holds, repMake, *,
    repIfAnySelf (p := some n) aNodup blacka, repIfAnySelf (p := some n) bNodup blackb], fun y inside outside => ?_⟩
  simp only [Tree.memMake, not_or] at inside
  simp [insertRotateAtGparent, rotateSetParents, insertRotateAtParent, *]

omit [DecidableEq α] in
theorem Rebuilds.up {h h' : Heap α} {fs : List (Frame α)} {t t' : ColoredTree.Tree α} (rebuilds : Rebuilds h h' fs t t') :
    Rebuilds h h' [] (plug fs t) (plug fs t') where
  holds := (holdsPlug h' fs t').mp rebuilds.holds
  same y outside _ := by
    rw [(plugPerm fs t).mem_iff, List.mem_append, not_or] at outside
    exact rebuilds.same y outside.1 outside.2

omit [DecidableEq α] in
theorem Rebuilds.fill {h h' : Heap α} {f : Frame α} {fs : List (Frame α)} {t t' : ColoredTree.Tree α}
    (rebuilds : Rebuilds h h' (f :: fs) t t') : Rebuilds h h' fs (f.fill t) (f.fill t') where
  holds := (holdsUp h' f fs t').mp rebuilds.holds
  same y inside outside := by
    rw [Frame.fill, Tree.memMake, not_or, not_or] at inside
    exact rebuilds.same y inside.2.1 (by simp [keys, inside, outside])

omit [DecidableEq α] in
theorem Rebuilds.trans {h h' h'' : Heap α} {fs : List (Frame α)} {t t' t'' : ColoredTree.Tree α} (first : Rebuilds h h' fs t t')
    (second : Rebuilds h' h'' fs t' t'') (order : t'.toList = t.toList) : Rebuilds h h'' fs t t'' where
  holds := second.holds
  same y inside outside := (first.same y inside outside).trans (second.same y (order ▸ inside) outside)

/- The side test of the source finds the side of the child. -/
theorem sideOfChild {h : Heap α} {side : Side} {node : Option α} {parent : α} (near : h.child side parent = node)
    (far : h.child side.other parent ≠ node) : sideOf h node parent = side := by
  cases side with
  | left => exact if_pos far
  | right => exact if_neg (not_not.mpr near)

theorem insertRotates {h : Heap α} {side side' : Side} {f s u : ColoredTree.Tree α} {node p g : α} {gs : List (Frame α)}
    {n : Nat} (red : Balanced f .red n) (sibling : Balanced s .black n) (uncle : Balanced u .black n)
    (root : f.root = some node) (holds : Holds h gs (.make side .black (.make side' .red f p s) g u))
    (distinct : (plug gs (.make side .black (.make side' .red f p s) g u)).toList.Nodup) :
    ∃ t', Rebuilds h (if h.child side.other p = some node then
          insertRotateAtGparent (insertRotateAtParent h side node p) side node g
            ((insertRotateAtParent h side node p).child side.other node)
        else insertRotateAtGparent h side p g (h.child side.other p)) gs
        (.make side .black (.make side' .red f p s) g u) t' ∧
      t'.toList = (Tree.make side .black (.make side' .red f p s) g u).toList ∧ Balanced t' .black (n + 1) := by
  by_cases sides : side' = side
  · subst sides
    have explicit : (g :: p :: (f.toList ++ (s.toList ++ (u.toList ++ keys gs)))).Nodup :=
      nodupOfCount distinct fun x => by simp [countPlug, Tree.countMake, List.count_cons]; omega
    have outer : h.child side'.other p = s.root := by
      simp only [Holds, repMake] at holds
      exact holds.1.2.2.2.2.1.2.2.2.1
    have apart : s.root ≠ some node := fun same => by
      simp only [List.nodup_cons, List.nodup_append'] at explicit
      exact explicit.2.2.2.2 (Tree.rootMem root) (List.mem_append_left _ (Tree.rootMem same))
    rw [if_neg (outer ▸ apart), outer]
    exact ⟨_, insertRotateAtGparentRebuilds holds explicit sibling.color, (Tree.toListRotate _ _ _ _ _ _ _ _ _ _).symm,
      .makeBlack _ red (.makeRed _ sibling uncle)⟩
  · obtain rfl := Side.eqOther sides
    obtain ⟨a, b, made⟩ := Tree.eqMake side root
    rw [red.color] at made
    subst made
    obtain ⟨blacka, blackb⟩ := red.ofMakeRed
    have explicit : (g :: p :: node :: (a.toList ++ (b.toList ++ (s.toList ++ (u.toList ++ keys gs))))).Nodup :=
      nodupOfCount distinct fun x => by simp [countPlug, Tree.countMake, List.count_cons]; omega
    have inner : h.child side.other p = some node ∧ h.child side.other node = b.root := by
      simp only [Holds, repMake, Tree.rootMake] at holds
      exact ⟨holds.1.2.2.2.2.1.2.2.1, holds.1.2.2.2.2.1.2.2.2.2.1.2.2.2.1⟩
    have kept : (insertRotateAtParent h side node p).child side.other node = b.root := by
      have apart : ¬ node = p := fun same => by simp [same] at explicit
      simp [insertRotateAtParent, inner, apart]
    rw [if_pos inner.1, kept]
    refine ⟨_, insertRotateTwiceRebuilds holds explicit blacka.color blackb.color, ?_,
      .makeBlack _ (.makeRed _ sibling blacka) (.makeRed _ blackb uncle)⟩
    cases side <;> simp [Tree.make, Tree.toList, Side.other]

section Rounds

variable {h : Heap α} {node p g : α} {side : Side} {uncle : Option α} (fuel : Nat)

theorem rbInsertFlip {u : α} (color : h.color p = .red) (parent : h.parent p = some g)
    (turned : sideOf h (some p) g = side) (far : h.child side.other g = some u) (red : isRed h (some u) = true) :
    rbInsert (fuel + 1) h node (some p) = rbInsert fuel (insertFlip h p g u) g (h.parent g) := by
  simp [rbInsert, color, parent, turned, far, red]

theorem rbInsertRotate (color : h.color p = .red) (parent : h.parent p = some g)
    (turned : sideOf h (some p) g = side) (black : isRed h (h.child side.other g) = false) :
    rbInsert (fuel + 1) h node (some p) = some (if h.child side.other p = some node then
        insertRotateAtGparent (insertRotateAtParent h side node p) side node g
          ((insertRotateAtParent h side node p).child side.other node)
      else insertRotateAtGparent h side p g (h.child side.other p)) := by
  simp [rbInsert, color, parent, turned, black]

end Rounds

/- The loop: `node` is red over black children, and only its parent may be red as well. -/
theorem rbInsertSpec (fuel : Nat) {h : Heap α} {fs : List (Frame α)} {side : Side} {a b : ColoredTree.Tree α} {node : α} {k : Nat}
    (enough : fs.length < fuel) (balanced : Balanced (.make side .red a node b) .red k) (accepts : Accepts fs .black k)
    (holds : Holds h fs (.make side .red a node b)) (distinct : (plug fs (.make side .red a node b)).toList.Nodup) :
    ∃ h' t', rbInsert fuel h node (top fs) = some h' ∧
      Rebuilds h h' [] (plug fs (.make side .red a node b)) t' ∧
      t'.toList = (plug fs (.make side .red a node b)).toList ∧ ∃ m, Balanced t' .black m := by
  induction fuel generalizing h fs side a b node k with
  | zero => omega
  | succ fuel ih =>
    cases accepts with
    | root =>
      have explicit : (node :: (a.toList ++ b.toList)).Nodup :=
        nodupOfCount distinct fun x => by simp [plug, Tree.countMake, List.count_cons]
      simp [List.nodup_cons] at explicit
      refine ⟨_, .make side .black a node b, rfl, ⟨?_, fun y inside _ => ?_⟩,
        Tree.toListRecolor side _ _ _ _ _ _ _ rfl rfl, _, balanced.blacken⟩
      · simp only [Holds, repMake, Tree.rootMake, RepFrames, top] at holds
        simp [Holds, repMake, RepFrames, top, *]
      · simp only [plug, Tree.memMake, not_or] at inside
        simp [inside.1]
    | @black side' p sibling fs n c d sib above =>
      refine ⟨h, _, ?_, ⟨(holdsPlug _ _ _).mp holds, fun y _ _ => .refl h y⟩, rfl,
        Accepts.plug (.black sib above) balanced⟩
      obtain ⟨-, -, color, -⟩ := holds
      simp [rbInsert, top, color]
    | @red side' p sibling fs n sib above =>
      cases above with
      | @black side'' g uncle gs n c d unc above =>
        have grand : Holds h gs (.make side'' .black (.make side' .red (.make side .red a node b) p sibling) g uncle) :=
          (holdsUp _ _ _ _).mp ((holdsUp _ _ _ _).mp holds)
        have parts := grand
        simp only [Holds, repMake, Tree.rootMake] at parts
        obtain ⟨⟨parentg, -, near, far, ⟨parentp, colorp, -⟩, repu⟩, -⟩ := parts
        have explicit : (g :: p :: node :: (a.toList ++ (b.toList ++ (sibling.toList ++ (uncle.toList ++ keys gs))))).Nodup :=
          nodupOfCount distinct fun x => by simp [countPlug, keys, Tree.countMake, List.count_cons]; omega
        have turned : sideOf h (some p) g = side'' :=
          sideOfChild near fun same => by
            simp only [List.nodup_cons] at explicit
            exact explicit.2.1 (by simp [Tree.rootMem (far.symm.trans same)])
        by_cases red : uncle.color = .red
        · obtain ⟨ua, uk, ub, rfl⟩ := Tree.eqMakeRed side'' red
          have flipped := insertFlipRebuilds grand
            (nodupOfCount distinct fun x => by simp [countPlug, plug, Frame.fill, Tree.countMake, List.count_cons]; omega)
          have order : (Tree.make side'' .red (.make side' .black (.make side .red a node b) p sibling) g
              (.make side'' .black ua uk ub)).toList =
              (Tree.make side'' .black (.make side' .red (.make side .red a node b) p sibling) g
                (.make side'' .red ua uk ub)).toList :=
            Tree.toListRecolor side'' _ _ _ _ _ _ _ (Tree.toListRecolor _ _ _ _ _ _ _ _ rfl rfl)
              (Tree.toListRecolor _ _ _ _ _ _ _ _ rfl rfl)
          have orderAll := toListPlugCongr gs order
          obtain ⟨h', t', ended, rebuilds, kept, m, whole⟩ := ih (Nat.lt_of_lt_of_le (by simp only [List.length_cons]; omega) (Nat.le_of_lt_succ enough))
            (.makeRed side'' (.makeBlack side' balanced sib) unc.blacken) above flipped.holds
            (orderAll ▸ distinct)
          rw [Tree.rootMake] at far
          have isRedUncle : isRed h (some uk) = true := by simpa using (isRedRoot repu).mpr red
          exact ⟨h', t', (rbInsertFlip fuel colorp parentp turned far isRedUncle).trans (parentg ▸ ended),
            flipped.up.trans rebuilds orderAll, kept.trans orderAll, m, whole⟩
        · have black : d = .black := by
            cases d with
            | red => exact absurd unc.color red
            | black => rfl
          subst black
          obtain ⟨t', rebuilds, kept, whole⟩ := insertRotates balanced sib unc (Tree.rootMake _ _ _ _ _) grand distinct
          obtain ⟨m, plugged⟩ := above.plug whole
          have notRed : isRed h (h.child side''.other g) = false := by simpa [far] using (isRedRoot repu).not.mpr red
          exact ⟨_, _, rbInsertRotate fuel colorp parentp turned notRed, rebuilds.up, toListPlugCongr gs kept, m, plugged⟩

end Nanosig.Rbtree
