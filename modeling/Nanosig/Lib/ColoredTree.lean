import Mathlib

/-! Red-black trees as terms, and trees with one hole: a context is the list of
frames from the hole up to the root. A left and a right branch differ only in
their `Side`, so every mirrored pair of facts is stated once. -/
namespace ColoredTree

inductive Color where
  | red | black
  deriving DecidableEq, Repr

inductive Side where
  | left | right
  deriving DecidableEq, Repr

def Side.other : Side → Side
  | left => right
  | right => left

@[simp] theorem Side.otherOther (side : Side) : side.other.other = side := by cases side <;> rfl

@[simp] theorem Side.otherNe (side : Side) : ¬ side.other = side := by cases side <;> nofun

@[simp] theorem Side.neOther (side : Side) : ¬ side = side.other := by cases side <;> nofun

theorem Side.eqOther {side side' : Side} (apart : side ≠ side') : side = side'.other := by
  cases side <;> cases side' <;> first | rfl | exact absurd rfl apart

inductive Tree (α : Type*) where
  | nil
  | node (color : Color) (left : Tree α) (key : α) (right : Tree α)

variable {α : Type*}

namespace Tree

def color : Tree α → Color
  | nil => .black
  | node c _ _ _ => c

def root : Tree α → Option α
  | nil => none
  | node _ _ k _ => some k

def toList : Tree α → List α
  | nil => []
  | node _ l k r => l.toList ++ k :: r.toList

@[simp] theorem colorNil : (nil : Tree α).color = .black := rfl
@[simp] theorem rootNil : (nil : Tree α).root = none := rfl
@[simp] theorem toListNil : (nil : Tree α).toList = [] := rfl

theorem rootMem {t : Tree α} {k : α} (root : t.root = some k) : k ∈ t.toList := by
  cases t with
  | nil => nomatch root
  | node c l k' r =>
    cases root
    simp [toList]

def make (side : Side) (c : Color) (near : Tree α) (k : α) (far : Tree α) : Tree α :=
  match side with
  | .left => node c near k far
  | .right => node c far k near

@[simp] theorem colorMake (side : Side) (c : Color) (near far : Tree α) (k : α) :
    (make side c near k far).color = c := by cases side <;> rfl

@[simp] theorem rootMake (side : Side) (c : Color) (near far : Tree α) (k : α) :
    (make side c near k far).root = some k := by cases side <;> rfl

theorem memMake (side : Side) (c : Color) (near far : Tree α) (k x : α) :
    x ∈ (make side c near k far).toList ↔ x = k ∨ x ∈ near.toList ∨ x ∈ far.toList := by
  cases side <;> simp [make, toList] <;> tauto

theorem countMake [DecidableEq α] (side : Side) (c : Color) (near far : Tree α) (k x : α) :
    (make side c near k far).toList.count x =
      near.toList.count x + far.toList.count x + if k = x then 1 else 0 := by
  cases side <;> simp [make, toList, List.count_cons] <;> omega

theorem eqMake (side : Side) {t : Tree α} {k : α} (root : t.root = some k) :
    ∃ near far, t = make side t.color near k far := by
  cases t with
  | nil => nomatch root
  | node c l k' r =>
    cases root
    cases side with
    | left => exact ⟨l, r, rfl⟩
    | right => exact ⟨r, l, rfl⟩

theorem eqMakeRed (side : Side) {t : Tree α} (red : t.color = .red) :
    ∃ near k far, t = make side .red near k far := by
  cases t with
  | nil => nomatch red
  | node c l k r =>
    cases red
    cases side with
    | left => exact ⟨l, k, r, rfl⟩
    | right => exact ⟨r, k, l, rfl⟩

theorem toListRotate (side : Side) (c c' d d' : Color) (a b e : Tree α) (x y : α) :
    (make side c (make side c' a x b) y e).toList = (make side d a x (make side d' b y e)).toList := by
  cases side <;> simp [make, toList]

theorem toListRecolor (side : Side) (c c' : Color) (near near' far far' : Tree α) (k : α)
    (sameNear : near.toList = near'.toList) (sameFar : far.toList = far'.toList) :
    (make side c near k far).toList = (make side c' near' k far').toList := by
  cases side <;> simp [make, toList, sameNear, sameFar]

end Tree

inductive Balanced : Tree α → Color → Nat → Prop where
  | nil : Balanced .nil .black 0
  | red {l r : Tree α} {k : α} {n : Nat} (left : Balanced l .black n) (right : Balanced r .black n) :
      Balanced (.node .red l k r) .red n
  | black {l r : Tree α} {k : α} {n : Nat} {c d : Color} (left : Balanced l c n) (right : Balanced r d n) :
      Balanced (.node .black l k r) .black (n + 1)

namespace Balanced

theorem color {t : Tree α} {c : Color} {n : Nat} (balanced : Balanced t c n) : t.color = c := by
  cases balanced <;> rfl

theorem makeRed (side : Side) {near far : Tree α} {k : α} {n : Nat} (first : Balanced near .black n)
    (second : Balanced far .black n) : Balanced (Tree.make side .red near k far) .red n := by
  cases side with
  | left => exact .red first second
  | right => exact .red second first

theorem makeBlack (side : Side) {near far : Tree α} {k : α} {n : Nat} {c d : Color} (first : Balanced near c n)
    (second : Balanced far d n) : Balanced (Tree.make side .black near k far) .black (n + 1) := by
  cases side with
  | left => exact .black first second
  | right => exact .black second first

theorem makeAny (side : Side) (c : Color) {near far : Tree α} {k : α} {n : Nat} (first : Balanced near .black n)
    (second : Balanced far .black n) :
    Balanced (Tree.make side c near k far) c (if c = .black then n + 1 else n) := by
  cases c with
  | red => exact makeRed side first second
  | black => exact makeBlack side first second

theorem ofMakeRed {side : Side} {near far : Tree α} {k : α} {c : Color} {n : Nat}
    (balanced : Balanced (Tree.make side .red near k far) c n) : Balanced near .black n ∧ Balanced far .black n := by
  cases side with
  | left =>
    cases balanced with
    | red first second => exact ⟨first, second⟩
  | right =>
    cases balanced with
    | red first second => exact ⟨second, first⟩

theorem ofMakeBlack {side : Side} {near far : Tree α} {k : α} {c : Color} {n : Nat}
    (balanced : Balanced (Tree.make side .black near k far) c n) :
    ∃ m c' d, n = m + 1 ∧ Balanced near c' m ∧ Balanced far d m := by
  cases side with
  | left =>
    cases balanced with
    | black first second => exact ⟨_, _, _, rfl, first, second⟩
  | right =>
    cases balanced with
    | black first second => exact ⟨_, _, _, rfl, second, first⟩

theorem blacken {side : Side} {near far : Tree α} {k : α} {n : Nat} {c : Color}
    (balanced : Balanced (Tree.make side .red near k far) c n) :
    Balanced (Tree.make side .black near k far) .black (n + 1) :=
  makeBlack side balanced.ofMakeRed.1 balanced.ofMakeRed.2

theorem eqMake (side : Side) {t : Tree α} {c : Color} {n : Nat} (balanced : Balanced t c (n + 1)) :
    ∃ near k far, t = .make side c near k far := by
  cases balanced with
  | @red l r k n left right =>
    obtain ⟨near, far, made⟩ := Tree.eqMake side (rfl : (Tree.node .red l k r).root = some k)
    exact ⟨near, k, far, made⟩
  | @black l r k n c d left right =>
    obtain ⟨near, far, made⟩ := Tree.eqMake side (rfl : (Tree.node .black l k r).root = some k)
    exact ⟨near, k, far, made⟩

end Balanced

/- One step up from a hole: the side the hole is on, the node and its other subtree. -/
structure Frame (α : Type*) where
  side : Side
  color : Color
  key : α
  sibling : Tree α

def Frame.fill (f : Frame α) (t : Tree α) : Tree α := Tree.make f.side f.color t f.key f.sibling

def plug : List (Frame α) → Tree α → Tree α
  | [], t => t
  | f :: fs, t => plug fs (f.fill t)

def before : List (Frame α) → List α
  | [] => []
  | f :: fs => match f.side with
    | .left => before fs
    | .right => before fs ++ f.sibling.toList ++ [f.key]

def after : List (Frame α) → List α
  | [] => []
  | f :: fs => match f.side with
    | .left => f.key :: f.sibling.toList ++ after fs
    | .right => after fs

theorem toListPlug (fs : List (Frame α)) (t : Tree α) :
    (plug fs t).toList = before fs ++ t.toList ++ after fs := by
  induction fs generalizing t with
  | nil => simp [plug, before, after]
  | cons f fs ih =>
    obtain ⟨side, c, k, sibling⟩ := f
    cases side <;> simp [plug, ih, Frame.fill, Tree.make, Tree.toList, before, after]

def keys : List (Frame α) → List α
  | [] => []
  | f :: fs => f.key :: f.sibling.toList ++ keys fs

theorem lengthLeKeys (fs : List (Frame α)) : fs.length ≤ (keys fs).length := by
  induction fs with
  | nil => exact Nat.le_refl 0
  | cons f fs ih =>
    simp only [keys, List.length_cons, List.length_append]
    omega

theorem keysPerm (fs : List (Frame α)) : (before fs ++ after fs).Perm (keys fs) := by
  induction fs with
  | nil => exact .refl _
  | cons f fs ih =>
    obtain ⟨side, c, k, sibling⟩ := f
    refine .trans ?_ ((ih.append_left (k :: sibling.toList)))
    classical
    cases side <;> (rw [List.perm_iff_count]; intro x; simp [before, after, List.count_cons]; omega)

theorem plugPerm (fs : List (Frame α)) (t : Tree α) : (plug fs t).toList.Perm (t.toList ++ keys fs) := by
  rw [toListPlug]
  refine .trans ?_ ((keysPerm fs).append_left t.toList)
  rw [← List.append_assoc]
  exact List.perm_append_comm.append_right _

theorem lengthPlug (fs : List (Frame α)) (t : Tree α) :
    (plug fs t).toList.length = t.toList.length + (keys fs).length := by
  rw [(plugPerm fs t).length_eq, List.length_append]

theorem nodupOfCount [DecidableEq α] {l l' : List α} (distinct : l.Nodup) (fewer : ∀ x, l'.count x ≤ l.count x) :
    l'.Nodup :=
  List.nodup_iff_count_le_one.mpr fun x => Nat.le_trans (fewer x) (List.nodup_iff_count_le_one.mp distinct x)

theorem countPlug [DecidableEq α] (fs : List (Frame α)) (t : Tree α) (x : α) :
    (plug fs t).toList.count x = t.toList.count x + (keys fs).count x := by
  rw [(plugPerm fs t).count_eq, List.count_append]

theorem toListPlugCongr (fs : List (Frame α)) {t t' : Tree α} (same : t.toList = t'.toList) :
    (plug fs t).toList = (plug fs t').toList := by rw [toListPlug, toListPlug, same]

def top : List (Frame α) → Option α
  | [] => none
  | f :: _ => some f.key

theorem topMem {fs : List (Frame α)} {a : α} (above : top fs = some a) : a ∈ keys fs := by
  cases fs with
  | nil => nomatch above
  | cons f fs =>
    cases above
    simp [keys]

/- What the hole takes: with a tree of this color and black height in it the
whole is balanced under a black root. -/
inductive Accepts : List (Frame α) → Color → Nat → Prop where
  | root (n : Nat) : Accepts [] .black n
  | red {side : Side} {k : α} {sibling : Tree α} {fs : List (Frame α)} {n : Nat}
      (balanced : Balanced sibling .black n) (above : Accepts fs .red n) :
      Accepts (⟨side, .red, k, sibling⟩ :: fs) .black n
  | black {side : Side} {k : α} {sibling : Tree α} {fs : List (Frame α)} {n : Nat} {c d : Color}
      (balanced : Balanced sibling d n) (above : Accepts fs .black (n + 1)) :
      Accepts (⟨side, .black, k, sibling⟩ :: fs) c n

namespace Accepts

theorem plug {fs : List (Frame α)} {c : Color} {n : Nat} (accepts : Accepts fs c n) {t : Tree α}
    (balanced : Balanced t c n) : ∃ m, Balanced (plug fs t) .black m := by
  induction accepts generalizing t with
  | root n => exact ⟨n, balanced⟩
  | red sibling above ih => exact ih (.makeRed _ balanced sibling)
  | black sibling above ih => exact ih (.makeBlack _ balanced sibling)

theorem black' {fs : List (Frame α)} {n : Nat} (accepts : Accepts fs .red n) (c : Color) : Accepts fs c n := by
  cases accepts with
  | black sibling above => exact .black sibling above

theorem toBlack {fs : List (Frame α)} {c : Color} {n : Nat} (accepts : Accepts fs c n) : Accepts fs .black n := by
  cases c with
  | red => exact accepts.black' _
  | black => exact accepts

theorem ofPlug {fs ps : List (Frame α)} {t : Tree α} {c : Color} {n : Nat} (accepts : Accepts fs c n)
    (balanced : Balanced (ColoredTree.plug ps t) c n) : ∃ d m, Accepts (ps ++ fs) d m ∧ Balanced t d m := by
  induction ps generalizing t with
  | nil => exact ⟨c, n, accepts, balanced⟩
  | cons f ps ih =>
    obtain ⟨d, m, above, filled⟩ := ih balanced
    obtain ⟨side, color, k, sibling⟩ := f
    cases color with
    | red =>
      cases filled.color.symm.trans (Tree.colorMake side .red t sibling k)
      obtain ⟨near, far⟩ := filled.ofMakeRed
      exact ⟨_, _, .red far above, near⟩
    | black =>
      obtain ⟨m, c', d, rfl, near, far⟩ := filled.ofMakeBlack
      exact ⟨_, _, .black far above.toBlack, near⟩

theorem rekey {ps fs : List (Frame α)} {side : Side} {c d : Color} {k : α} {sibling : Tree α} {n : Nat} (k' : α)
    (accepts : Accepts (ps ++ ⟨side, c, k, sibling⟩ :: fs) d n) : Accepts (ps ++ ⟨side, c, k', sibling⟩ :: fs) d n := by
  induction ps generalizing d n with
  | nil =>
    cases accepts with
    | red sib above => exact .red sib above
    | black sib above => exact .black sib above
  | cons f ps ih =>
    cases accepts with
    | red sib above => exact .red sib (ih above)
    | black sib above => exact .black sib (ih above)

end Accepts

theorem plugAppend (ps fs : List (Frame α)) (t : Tree α) : plug (ps ++ fs) t = plug fs (plug ps t) := by
  induction ps generalizing t with
  | nil => rfl
  | cons f ps ih => exact ih (f.fill t)

theorem beforeAppend (ps fs : List (Frame α)) : before (ps ++ fs) = before fs ++ before ps := by
  induction ps with
  | nil => simp [before]
  | cons f ps ih =>
    obtain ⟨side, c, k, sibling⟩ := f
    cases side <;> simp [before, ih]

theorem afterAppend (ps fs : List (Frame α)) : after (ps ++ fs) = after ps ++ after fs := by
  induction ps with
  | nil => rfl
  | cons f ps ih =>
    obtain ⟨side, c, k, sibling⟩ := f
    cases side <;> simp [after, ih]

theorem zoom {t : Tree α} {k : α} (member : k ∈ t.toList) : ∃ fs c l r, t = plug fs (.node c l k r) := by
  induction t with
  | nil => nomatch member
  | node c l k' r ihl ihr =>
    rcases List.mem_append.mp member with left | right
    · obtain ⟨fs, c', l', r', rfl⟩ := ihl left
      exact ⟨fs ++ [⟨.left, c, k', r⟩], c', l', r', by rw [plugAppend]; rfl⟩
    rcases List.mem_cons.mp right with rfl | right
    · exact ⟨[], c, l, r, rfl⟩
    · obtain ⟨fs, c', l', r', rfl⟩ := ihr right
      exact ⟨fs ++ [⟨.right, c, k', l⟩], c', l', r', by rw [plugAppend]; rfl⟩

theorem balancedSingle {side : Side} {c : Color} {k : α} {t : Tree α} {n : Nat}
    (balanced : Balanced (.make side c .nil k t) c n) :
    (t = .nil ∧ (c = .red ∧ n = 0 ∨ c = .black ∧ n = 1)) ∨
      (c = .black ∧ n = 1 ∧ ∃ k', t = .node .red .nil k' .nil) := by
  cases c with
  | red =>
    obtain ⟨near, far⟩ := balanced.ofMakeRed
    cases near
    cases far
    exact Or.inl ⟨rfl, Or.inl ⟨rfl, rfl⟩⟩
  | black =>
    obtain ⟨m, c', d, rfl, near, far⟩ := balanced.ofMakeBlack
    cases near
    cases far with
    | nil => exact Or.inl ⟨rfl, Or.inr ⟨rfl, rfl⟩⟩
    | red left right =>
      cases left
      cases right
      exact Or.inr ⟨rfl, rfl, _, rfl⟩

end ColoredTree
