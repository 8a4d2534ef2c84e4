import Nanosig.Rbtree.Insert

/-! Removal: what each rotation of `____ns_rb_erase_color` makes of a tree whose
one side is a black node short, and that the loop ends with a balanced tree of
the same order. -/
namespace Nanosig.Rbtree
open ColoredTree LinkedTree

variable {α : Type} [DecidableEq α]

section Rotations

variable {h : Heap α} {side side' : Side} {c : Color} {x a b d e : ColoredTree.Tree α} {p s l r : α} {fs : List (Frame α)}

theorem eraseRotateAtParentRebuilds
    (holds : Holds h fs (.make side .black x p (.make side .red (.make side' .black a l d) s b)))
    (distinct : (p :: s :: l :: (x.toList ++ (a.toList ++ (d.toList ++ (b.toList ++ keys fs))))).Nodup) :
    Rebuilds h (eraseRotateAtParent h side p s l) fs
      (.make side .black x p (.make side .red (.make side' .black a l d) s b))
      (.make side .black (.make side .red x p (.make side' .black a l d)) s b) := by
  simp only [Holds, repMake, Tree.rootMake] at holds
  obtain ⟨⟨pp, cp, np, fp, repx, ⟨ps, cs, ns, fs', ⟨pl, cl, nl, fl, repa, repd⟩, repb⟩⟩, frames⟩ := holds
  simp [List.nodup_append', List.nodup_cons, List.disjoint_append_right] at distinct
  obtain ⟨pOut, sOut, rest⟩ := distinct
  have sp : ¬ s = p := fun e => pOut.1 e.symm
  have lp : ¬ l = p := fun e => pOut.2.1 e.symm
  have ls : ¬ l = s := fun e => sOut.1 e.symm
  refine ⟨by simp [eraseRotateAtParent, rotateSetParents, Holds, repMake, *], fun y inside outside => ?_⟩
  simp only [Tree.memMake, not_or] at inside
  simp [eraseRotateAtParent, rotateSetParents, *]

theorem eraseRotateFlipRebuilds
    (holds : Holds h fs (.make side c x p (.make side .black a s (.make side' .red b r e))))
    (distinct : (p :: s :: r :: (x.toList ++ (a.toList ++ (b.toList ++ (e.toList ++ keys fs))))).Nodup) :
    Rebuilds h (eraseRotateFlip h side p s r) fs (.make side c x p (.make side .black a s (.make side' .red b r e)))
      (.make side c (.make side .black x p a) s (.make side' .black b r e)) := by
  simp only [Holds, repMake, Tree.rootMake] at holds
  obtain ⟨⟨pp, cp, np, fp, repx, ⟨ps, cs, ns, fs', repa, ⟨pr, cr, nr, fr, repb, repe⟩⟩⟩, frames⟩ := holds
  simp [List.nodup_append', List.nodup_cons, List.disjoint_append_right] at distinct
  obtain ⟨pOut, sOut, rOut, xNodup, ⟨aNodup, bOut, aOut⟩, xOut⟩ := distinct
  have sp : ¬ s = p := fun e => pOut.1 e.symm
  have rp : ¬ r = p := fun e => pOut.2.1 e.symm
  have rs : ¬ r = s := fun e => sOut.1 e.symm
  have ax : a.toList.Disjoint x.toList := List.disjoint_symm xOut.1
  have moved : ∀ g : Heap α, LinkedTree.Rep g a (some s) →
      setParentIfAny g a.root (some p) = setParentColorIfAny g a.root (some p) a.color := fun g => setParentIfAnyEq
  refine ⟨?_, fun y inside outside => ?_⟩
  · simp [eraseRotateFlip, rotateSetParents, Holds, repMake, *, repIfAnySelf (p := some s) aNodup]
  · simp only [Tree.memMake, not_or] at inside
    simp [eraseRotateFlip, rotateSetParents, *]

theorem eraseRotateTwiceRebuilds
    (holds : Holds h fs (.make side c x p (.make side .black (.make side .red a l b) s d)))
    (distinct : (p :: s :: l :: (x.toList ++ (a.toList ++ (b.toList ++ (d.toList ++ keys fs))))).Nodup)
    (black : b.color = .black) :
    Rebuilds h (eraseRotateFlip (eraseRotateAtSibling h side p s l) side p l s) fs
      (.make side c x p (.make side .black (.make side .red a l b) s d))
      (.make side c (.make side .black x p a) l (.make side .black b s d)) := by
  simp only [Holds, repMake, Tree.rootMake] at holds
  obtain ⟨⟨pp, cp, np, fp, repx, ⟨ps, cs, ns, fs', ⟨pl, cl, nl, fl, repa, repb⟩, repd⟩⟩, frames⟩ := holds
  simp [List.nodup_append', List.nodup_cons, List.disjoint_append_right] at distinct
  obtain ⟨pOut, sOut, lOut, xNodup, ⟨aNodup, ⟨bNodup, dOut, bOut⟩, aOut⟩, xOut⟩ := distinct
  have sp : ¬ s = p := fun e => pOut.1 e.symm
  have lp : ¬ l = p := fun e => pOut.2.1 e.symm
  have ls : ¬ l = s := fun e => sOut.1 e.symm
  have ax : a.toList.Disjoint x.toList := List.disjoint_symm xOut.1
  have bx : b.toList.Disjoint x.toList := List.disjoint_symm xOut.2.1
  have ba : b.toList.Disjoint a.toList := List.disjoint_symm aOut.1
  have moved : ∀ g : Heap α, LinkedTree.Rep g a (some l) →
      setParentIfAny g a.root (some p) = setParentColorIfAny g a.root (some p) a.color := fun g => setParentIfAnyEq
  refine ⟨?_, fun y inside outside => ?_⟩
  · simp [eraseRotateFlip, eraseRotateAtSibling, rotateSetParents, Holds, repMake, *,
      repIfAnySelf (p := some l) aNodup, repIfAnySelf (p := some l) bNodup]
  · simp only [Tree.memMake, not_or] at inside
    simp [eraseRotateFlip, eraseRotateAtSibling, rotateSetParents, *]

theorem eraseFlipRebuilds {c' : Color} (holds : Holds h fs (.make side c x p (.make side .black a s b)))
    (distinct : (p :: s :: (x.toList ++ (a.toList ++ (b.toList ++ keys fs)))).Nodup) :
    Rebuilds h ((setParentColor h s (some p) .red).setColor p c') fs (.make side c x p (.make side .black a s b))
      (.make side c' x p (.make side .red a s b)) := by
  simp only [Holds, repMake, Tree.rootMake] at holds
  obtain ⟨⟨pp, cp, np, fp, repx, ⟨ps, cs, ns, fs', repa, repb⟩⟩, frames⟩ := holds
  simp [List.nodup_append', List.nodup_cons, List.disjoint_append_right] at distinct
  obtain ⟨pOut, sOut, rest⟩ := distinct
  have sp : ¬ s = p := fun e => pOut.1 e.symm
  refine ⟨by simp [Holds, repMake, *], fun y inside outside => ?_⟩
  simp only [Tree.memMake, not_or] at inside
  simp [*]

end Rotations

/- How a round under a black sibling ends: with a balanced tree in the hole of
`fs`, or, under a black parent, with one that is a black node short. -/
structure RoundEnds (h : Heap α) (fs : List (Frame α)) (t : ColoredTree.Tree α) (c : Color) (p : α) (k : Nat)
    (ended : Heap α × Option (α × α)) (t' : ColoredTree.Tree α) : Prop where
  rebuilds : Rebuilds h ended.1 fs t t'
  order : t'.toList = t.toList
  result : (ended.2 = none ∧ ∃ d n, Accepts fs d n ∧ Balanced t' d n) ∨
    (c = .black ∧ ended.2 = (top fs).map (p, ·) ∧ t'.root = some p ∧ Balanced t' .black (k + 1))

theorem eraseBlackSiblingSpec {h : Heap α} {side : Side} {c d d' : Color} {x a b : ColoredTree.Tree α} {p s : α}
    {fs : List (Frame α)} {k : Nat} (hole : Balanced x .black k) (near : Balanced a d k) (far : Balanced b d' k)
    (accepts : Accepts fs c (if c = .black then k + 2 else k + 1))
    (holds : Holds h fs (.make side c x p (.make side .black a s b)))
    (distinct : (plug fs (.make side c x p (.make side .black a s b))).toList.Nodup) :
    ∃ ended t', eraseBlackSibling h side p s = some ended ∧
      RoundEnds h fs (.make side c x p (.make side .black a s b)) c p k ended t' := by
  have parts := holds
  simp only [Holds, repMake, Tree.rootMake] at parts
  obtain ⟨⟨parentp, colorp, -, -, -, -, -, nears, fars, repa, repb⟩, -⟩ := parts
  by_cases redFar : b.color = .red
  · obtain ⟨b1, r, b2, rfl⟩ := Tree.eqMakeRed side redFar
    have isRedFar : isRed h (some r) = true := by simpa using (isRedRoot repb).mpr redFar
    rw [Tree.rootMake] at fars
    have ends : eraseBlackSibling h side p s = some (eraseRotateFlip h side p s r, none) := by
      simp only [eraseBlackSibling, fars, isRedFar, if_true, Option.map_some]
    refine ⟨_, _, ends, eraseRotateFlipRebuilds holds ?_, ?_, Or.inl ⟨rfl, c, _, accepts, ?_⟩⟩
    · exact nodupOfCount distinct fun x => by simp [countPlug, Tree.countMake, List.count_cons]; omega
    · cases side <;> simp [Tree.make, Tree.toList]
    · exact .makeAny side c (.makeBlack side hole near) far.blacken
  have notRedFar : isRed h b.root = false := by simpa using (isRedRoot repb).not.mpr redFar
  have black : d' = .black := by
    cases d' with
    | red => exact absurd far.color redFar
    | black => rfl
  subst black
  by_cases redNear : a.color = .red
  · obtain ⟨a1, l, a2, rfl⟩ := Tree.eqMakeRed side redNear
    have isRedNear : isRed h (some l) = true := by simpa using (isRedRoot repa).mpr redNear
    rw [Tree.rootMake] at nears
    have ends : eraseBlackSibling h side p s =
        some (eraseRotateFlip (eraseRotateAtSibling h side p s l) side p l s, none) := by
      simp only [eraseBlackSibling, fars, notRedFar, nears, isRedNear, if_true, Option.map_some,
        Bool.false_eq_true, if_false]
    obtain ⟨black1, black2⟩ := near.ofMakeRed
    refine ⟨_, _, ends, eraseRotateTwiceRebuilds holds ?_ black2.color, ?_, Or.inl ⟨rfl, c, _, accepts, ?_⟩⟩
    · exact nodupOfCount distinct fun x => by simp [countPlug, Tree.countMake, List.count_cons]; omega
    · cases side <;> simp [Tree.make, Tree.toList]
    · exact .makeAny side c (.makeBlack side hole black1) (.makeBlack side black2 far)
  · have notRedNear : isRed h a.root = false := by simpa using (isRedRoot repa).not.mpr redNear
    have black : d = .black := by
      cases d with
      | red => exact absurd near.color redNear
      | black => rfl
    subst black
    have explicit : (p :: s :: (x.toList ++ (a.toList ++ (b.toList ++ keys fs)))).Nodup :=
      nodupOfCount distinct fun x => by simp [countPlug, Tree.countMake, List.count_cons]; omega
    have apart : ¬ p = s := fun same => by simp [same] at explicit
    have order (c' : Color) : (Tree.make side c' x p (.make side .red a s b)).toList =
        (Tree.make side c x p (.make side .black a s b)).toList :=
      Tree.toListRecolor side _ _ _ _ _ _ _ rfl (Tree.toListRecolor side _ _ _ _ _ _ _ rfl rfl)
    cases c with
    | red =>
      have ends : eraseBlackSibling h side p s =
          some ((setParentColor h s (some p) .red).setColor p .black, none) := by
        simp [eraseBlackSibling, fars, notRedFar, nears, notRedNear, apart, colorp]
      exact ⟨_, _, ends, eraseFlipRebuilds holds explicit, order .black,
        Or.inl ⟨rfl, .black, _, accepts.black' .black, .makeBlack side hole (.makeRed side near far)⟩⟩
    | black =>
      have ends : eraseBlackSibling h side p s =
          some ((setParentColor h s (some p) .red).setColor p .black, (top fs).map (p, ·)) := by
        rw [Heap.setColorSelf (by simp [apart, colorp])]
        simp [eraseBlackSibling, fars, notRedFar, nears, notRedNear, apart, colorp, parentp]
      exact ⟨_, _, ends, eraseFlipRebuilds holds explicit, order .black,
        Or.inr ⟨rfl, rfl, Tree.rootMake _ _ _ _ _, .makeBlack side hole (.makeRed side near far)⟩⟩

/- One round: a red sibling is first rotated away. -/
theorem eraseRoundSpec {h : Heap α} {side : Side} {c c' : Color} {x sib : ColoredTree.Tree α} {p : α} {fs : List (Frame α)}
    {k : Nat} (hole : Balanced x .black k) (accepts : Accepts (⟨side, c, p, sib⟩ :: fs) c' (k + 1))
    (holds : Holds h (⟨side, c, p, sib⟩ :: fs) x) (distinct : (plug (⟨side, c, p, sib⟩ :: fs) x).toList.Nodup) :
    ∃ ended t', eraseRound h x.root p = some ended ∧ RoundEnds h fs (.make side c x p sib) c p k ended t' := by
  have sibling : ∃ d, Balanced sib d (k + 1) := by
    cases accepts with
    | red sib above => exact ⟨_, sib⟩
    | black sib above => exact ⟨_, sib⟩
  obtain ⟨d, sibling⟩ := sibling
  obtain ⟨a, s, b, rfl⟩ := sibling.eqMake side
  replace holds : Holds h fs (.make side c x p (.make side d a s b)) := (holdsUp _ _ _ _).mp holds
  replace distinct : (plug fs (.make side c x p (.make side d a s b))).toList.Nodup := distinct
  have parts := holds
  simp only [Holds, repMake, Tree.rootMake] at parts
  obtain ⟨⟨-, -, near, far, -, -, colors, nears, -⟩, -⟩ := parts
  have turned : sideOf h x.root p = side := by
    refine sideOfChild near fun same => ?_
    have explicit : (s :: x.toList).Nodup :=
      nodupOfCount distinct fun x => by simp [countPlug, Tree.countMake, List.count_cons]; omega
    exact (List.nodup_cons.mp explicit).1 (Tree.rootMem (same.symm.trans far))
  cases d with
  | black =>
    obtain ⟨k', d1, d2, same, near, far'⟩ := sibling.ofMakeBlack
    cases same
    have above : Accepts fs c (if c = .black then k + 2 else k + 1) := by
      cases accepts with
      | red sib above => exact above
      | black sib above => exact above
    obtain ⟨ended, t', ends, round⟩ := eraseBlackSiblingSpec hole near far' above holds distinct
    exact ⟨ended, t', by simp [eraseRound, turned, far, colors, ends], round⟩
  | red =>
    obtain ⟨near, far'⟩ := sibling.ofMakeRed
    cases accepts with
    | red sib above => cases sib.color.symm.trans (Tree.colorMake _ _ _ _ _)
    | black sib above =>
      obtain ⟨a1, l, a2, rfl⟩ := near.eqMake side
      have explicit :
          (p :: s :: l :: (x.toList ++ (a1.toList ++ (a2.toList ++ (b.toList ++ keys fs))))).Nodup :=
        nodupOfCount distinct fun x => by simp [countPlug, Tree.countMake, List.count_cons]; omega
      have rotated := eraseRotateAtParentRebuilds holds explicit
      have order : (Tree.make side .black (.make side .red x p (.make side .black a1 l a2)) s b).toList =
          (Tree.make side .black x p (.make side .red (.make side .black a1 l a2) s b)).toList :=
        Tree.toListRotate _ _ _ _ _ _ _ _ _ _
      obtain ⟨k', d1, d2, same, near1, near2⟩ := near.ofMakeBlack
      cases same
      have raised : Holds (eraseRotateAtParent h side p s l) (⟨side, .black, s, b⟩ :: fs)
          (.make side .red x p (.make side .black a1 l a2)) := (holdsUp _ _ _ _).mpr rotated.holds
      -- The parent is red now and its new sibling black, so this round is the last.
      obtain ⟨ended, t', ends, ⟨rebuilds, order', last | ⟨red, -⟩⟩⟩ :=
        eraseBlackSiblingSpec hole near1 near2 (.black far' above) raised
          (by rw [← toListPlugCongr fs order] at distinct; exact distinct)
      · obtain ⟨finished, d, n, accepted, balanced⟩ := last
        refine ⟨ended, _, ?_, rotated.trans rebuilds.fill order,
          (Tree.toListRecolor _ _ _ _ _ _ _ _ order' rfl).trans order, Or.inl ⟨finished, ?_⟩⟩
        · simp [eraseRound, turned, far, colors, nears, ends]
        · cases accepted with
          | black sib above => exact ⟨_, _, above, .makeBlack _ balanced sib⟩
      · cases red

/- The loop: the hole is a black node short, and not the whole tree. -/
theorem rbEraseColorSpec (fuel : Nat) {h : Heap α} {f : Frame α} {fs : List (Frame α)} {x : ColoredTree.Tree α} {c : Color} {k : Nat}
    (enough : fs.length < fuel) (hole : Balanced x .black k) (accepts : Accepts (f :: fs) c (k + 1))
    (holds : Holds h (f :: fs) x) (distinct : (plug (f :: fs) x).toList.Nodup) :
    ∃ h' t', rbEraseColor fuel h x.root f.key = some h' ∧ Rebuilds h h' [] (plug (f :: fs) x) t' ∧
      t'.toList = (plug (f :: fs) x).toList ∧ ∃ m, Balanced t' .black m := by
  induction fuel generalizing h f fs x c k with
  | zero => omega
  | succ fuel ih =>
    obtain ⟨side, color, p, sib⟩ := f
    obtain ⟨⟨h1, next⟩, t1, ends, rebuilds, order, last | ⟨black, goesOn, root, balanced⟩⟩ :=
      eraseRoundSpec hole accepts holds distinct
    · obtain ⟨rfl, d, n, accepted, balanced⟩ := last
      obtain ⟨m, whole⟩ := accepted.plug balanced
      exact ⟨h1, _, by simp [rbEraseColor, ends], rebuilds.up, toListPlugCongr fs order, m, whole⟩
    · cases goesOn
      subst black
      have above : Accepts fs .black (k + 2) := by
        cases accepts with
        | black sib above => exact above
      cases fs with
      | nil => exact ⟨h1, t1, by simp [rbEraseColor, ends, top], rebuilds, order, _, balanced⟩
      | cons g gs =>
        have orderAll : (plug (g :: gs) t1).toList = (plug (⟨side, .black, p, sib⟩ :: g :: gs) x).toList :=
          toListPlugCongr (g :: gs) order
        obtain ⟨h', t', ended, rest, order', whole⟩ :=
          ih (Nat.lt_of_succ_lt_succ enough) balanced above rebuilds.holds (orderAll ▸ distinct)
        refine ⟨h', t', ?_, rebuilds.up.trans rest orderAll, order'.trans orderAll, whole⟩
        rw [root] at ended
        simp [rbEraseColor, ends, top, ended]

end Nanosig.Rbtree
