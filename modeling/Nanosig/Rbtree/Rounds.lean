import Nanosig.Lib.Settling
import Nanosig.Lib.TreeHeight
import Nanosig.Rbtree.Traversal

/-! How long the loops of the tree run. No call follows more than twice the logarithm of the
number of nodes in links: with that many rounds for every loop it ends, and returns and leaves
what it does with as many rounds as nodes are linked. -/
namespace Nanosig.Rbtree
open ColoredTree LinkedTree Settling TransitionSystem

variable {α : Type}

def Root.within (t : Root α) (rounds : Nat) : Root α := { t with linked := rounds }

section Loops

variable {h : Heap α} {k : Nat}

def Below (h : Heap α) (p : Option α) (k : Nat) : Prop :=
  ∃ t q, LinkedTree.Rep h t q ∧ t.root = p ∧ t.height ≤ k

theorem Below.child {x : α} (below : Below h (some x) k) :
    ∃ j, k = j + 1 ∧ ∀ side, Below h (h.child side x) j := by
  obtain ⟨t, q, rep, root, low⟩ := below
  cases t with
  | nil => cases root
  | node c l y r =>
    obtain rfl : y = x := Option.some.inj root
    obtain ⟨-, -, left, right, repl, repr⟩ := rep
    simp only [ColoredTree.Tree.height] at low
    cases k with
    | zero => omega
    | succ j =>
      refine ⟨j, rfl, fun side => ?_⟩
      cases side with
      | left => exact ⟨l, some y, repl, left.symm, by omega⟩
      | right => exact ⟨r, some y, repr, right.symm, by omega⟩

theorem leftmostFromSettles {x : α} (below : Below h (some x) k) : Settles (fun rounds => leftmostFrom rounds h x) k := by
  have round : ∀ x k, Below h (some x) k →
      Round (fun x rounds => leftmostFrom rounds h x) (fun x k => Below h (some x) k) x k := by
    intro x k below
    obtain ⟨j, rfl, children⟩ := below.child
    cases down : h.child .left x with
    | none => exact .ends x fun rounds => by simp only [leftmostFrom, down]
    | some y => exact .goes (down ▸ children .left) fun rounds => by simp only [leftmostFrom, down]
  exact settlesByRounds round below

theorem rightmostFromSettles {x : α} (below : Below h (some x) k) : Settles (fun rounds => rightmostFrom rounds h x) k := by
  have round : ∀ x k, Below h (some x) k →
      Round (fun x rounds => rightmostFrom rounds h x) (fun x k => Below h (some x) k) x k := by
    intro x k below
    obtain ⟨j, rfl, children⟩ := below.child
    cases down : h.child .right x with
    | none => exact .ends x fun rounds => by simp only [rightmostFrom, down]
    | some y => exact .goes (down ▸ children .right) fun rounds => by simp only [rightmostFrom, down]
  exact settlesByRounds round below

theorem successorFromSettles {successor x : α} (below : Below h (some x) k) :
    Settles (fun rounds => successorFrom rounds h successor x) k := by
  have round : ∀ (s : α × α) k, Below h (some s.2) k →
      Round (fun (s : α × α) rounds => successorFrom rounds h s.1 s.2) (fun s k => Below h (some s.2) k) s k := by
    intro s k below
    obtain ⟨j, rfl, children⟩ := below.child
    cases down : h.child .left s.2 with
    | none => exact .ends (s.2, s.1) fun rounds => by simp only [successorFrom, down]
    | some y =>
      have rest : Below h (some (s.2, y).2) j := down ▸ children .left
      exact .goes rest fun rounds => by simp only [successorFrom, down]
  exact settlesByRounds round (s := (successor, x)) below

theorem leftDeepestSettles {x : α} (below : Below h (some x) k) : Settles (fun rounds => leftDeepestNode rounds h x) k := by
  have round : ∀ x k, Below h (some x) k →
      Round (fun x rounds => leftDeepestNode rounds h x) (fun x k => Below h (some x) k) x k := by
    intro x k below
    obtain ⟨j, rfl, children⟩ := below.child
    cases left : h.child .left x with
    | some y => exact .goes (left ▸ children .left) fun rounds => by simp only [leftDeepestNode, left]
    | none =>
      cases right : h.child .right x with
      | some y => exact .goes (right ▸ children .right) fun rounds => by simp only [leftDeepestNode, left, right]
      | none => exact .ends x fun rounds => by simp only [leftDeepestNode, left, right]
  exact settlesByRounds round below

theorem matchFindSettles (matching : α → Int) {p : Option α} (below : Below h p k) :
    Settles (fun rounds => matchFind matching h rounds p) k := by
  have round : ∀ p k, Below h p k → Round (fun p rounds => matchFind matching h rounds p) (Below h) p k := by
    intro p k below
    cases p with
    | none => exact .idle none fun rounds => by cases rounds <;> rfl
    | some x =>
      obtain ⟨j, rfl, children⟩ := below.child
      by_cases less : matching x < 0
      · exact .goes (children .left) fun rounds => by simp only [matchFind, less, if_true]
      · by_cases greater : matching x > 0
        · exact .goes (children .right) fun rounds => by simp only [matchFind, less, greater, if_true, if_false]
        · exact .ends (some x) fun rounds => by simp only [matchFind, less, greater, if_false]
  exact settlesByRounds round below

theorem findFirstSettles (matching : α → Int) {p matchNode : Option α} (below : Below h p k) :
    Settles (fun rounds => findFirst matching h rounds p matchNode) k := by
  have round : ∀ (s : Option α × Option α) k, Below h s.1 k →
      Round (fun (s : Option α × Option α) rounds => findFirst matching h rounds s.1 s.2) (fun s k => Below h s.1 k) s k := by
    rintro ⟨p, matchNode⟩ k below
    cases p with
    | none => exact .idle matchNode fun rounds => by cases rounds <;> rfl
    | some x =>
      obtain ⟨j, rfl, children⟩ := below.child
      by_cases upTo : matching x ≤ 0
      · have rest : Below h (h.child .left x, if matching x = 0 then some x else matchNode).1 j := children .left
        exact .goes rest fun rounds => by simp only [findFirst, upTo, if_true]
      · have rest : Below h (h.child .right x, matchNode).1 j := children .right
        exact .goes rest fun rounds => by simp only [findFirst, upTo, if_false]
  exact settlesByRounds round (s := (p, matchNode)) below

/- Reading the empty place at the end of the search takes a round as well. -/
def Searches (h : Heap α) (place : Option (α × Side) × Bool) (k : Nat) : Prop :=
  ∃ j, k = j + 1 ∧ Below h (readLink h place.1) j

theorem addSearchSettles (cmp : α → α → Int) (node : α) (place : Option (α × Side) × Bool)
    (searches : Searches h place k) : Settles (fun rounds => addSearch cmp node h rounds place.1 place.2) k := by
  have round : ∀ place k, Searches h place k →
      Round (fun (place : Option (α × Side) × Bool) rounds => addSearch cmp node h rounds place.1 place.2) (Searches h) place k := by
    rintro ⟨link, leftmost⟩ k ⟨j, rfl, below⟩
    cases read : readLink h link with
    | none => exact .ends (link, leftmost) fun rounds => by simp only [addSearch, read]
    | some parent =>
      obtain ⟨i, rfl, children⟩ := Below.child (read ▸ below)
      by_cases less : cmp node parent < 0
      · have rest : Searches h (some (parent, .left), leftmost) (i + 1) := ⟨i, rfl, children .left⟩
        exact .goes rest fun rounds => by simp only [addSearch, read, less, if_true]
      · have rest : Searches h (some (parent, .right), false) (i + 1) := ⟨i, rfl, children .right⟩
        exact .goes rest fun rounds => by simp only [addSearch, read, less, if_false]
  exact settlesByRounds round searches

theorem findAddSearchSettles (c : α → Int) (place : Option (α × Side) × Bool)
    (searches : Searches h place k) : Settles (fun rounds => findAddSearch c h rounds place.1 place.2) k := by
  have round : ∀ place k, Searches h place k →
      Round (fun (place : Option (α × Side) × Bool) rounds => findAddSearch c h rounds place.1 place.2) (Searches h) place k := by
    rintro ⟨link, leftmost⟩ k ⟨j, rfl, below⟩
    cases read : readLink h link with
    | none => exact .ends (.inr (link, leftmost)) fun rounds => by simp only [findAddSearch, read]
    | some parent =>
      obtain ⟨i, rfl, children⟩ := Below.child (read ▸ below)
      by_cases less : c parent < 0
      · have rest : Searches h (some (parent, .left), leftmost) (i + 1) := ⟨i, rfl, children .left⟩
        exact .goes rest fun rounds => by simp only [findAddSearch, read, less, if_true]
      · by_cases greater : c parent > 0
        · have rest : Searches h (some (parent, .right), false) (i + 1) := ⟨i, rfl, children .right⟩
          exact .goes rest fun rounds => by simp only [findAddSearch, read, less, greater, if_true, if_false]
        · exact .ends (.inl parent) fun rounds => by simp only [findAddSearch, read, less, greater, if_false]
  exact settlesByRounds round searches

variable [DecidableEq α]

def Climbs (h : Heap α) (x : α) (k : Nat) : Prop :=
  ∃ fs, h.parent x = top fs ∧ RepFrames h fs (some x) ∧ fs.length < k

omit [DecidableEq α] in
theorem Climbs.up {x : α} (climbs : Climbs h x k) :
    ∃ j, k = j + 1 ∧ ∀ parent, h.parent x = some parent → Climbs h parent j := by
  obtain ⟨fs, above, frames, few⟩ := climbs
  cases k with
  | zero => omega
  | succ j =>
    refine ⟨j, rfl, fun parent found => ?_⟩
    cases fs with
    | nil => simp [above, top] at found
    | cons f fs =>
      obtain rfl : f.key = parent := Option.some.inj (above.symm.trans found)
      obtain ⟨parentKey, -, -, -, -, rest⟩ := frames
      exact ⟨fs, parentKey, rest, by simpa using few⟩

theorem climbRightSettles {x : α} (climbs : Climbs h x k) : Settles (fun rounds => climbRight rounds h x) k := by
  have round : ∀ x k, Climbs h x k → Round (fun x rounds => climbRight rounds h x) (Climbs h) x k := by
    intro x k climbs
    obtain ⟨j, rfl, up⟩ := climbs.up
    cases above : h.parent x with
    | none => exact .ends none fun rounds => by simp only [climbRight, above]
    | some parent =>
      by_cases right : h.child .right parent = some x
      · exact .goes (up parent above) fun rounds => by simp only [climbRight, above, right, if_true]
      · exact .ends (some parent) fun rounds => by simp only [climbRight, above, right, if_false]
  exact settlesByRounds round climbs

theorem climbLeftSettles {x : α} (climbs : Climbs h x k) : Settles (fun rounds => climbLeft rounds h x) k := by
  have round : ∀ x k, Climbs h x k → Round (fun x rounds => climbLeft rounds h x) (Climbs h) x k := by
    intro x k climbs
    obtain ⟨j, rfl, up⟩ := climbs.up
    cases above : h.parent x with
    | none => exact .ends none fun rounds => by simp only [climbLeft, above]
    | some parent =>
      by_cases left : h.child .left parent = some x
      · exact .goes (up parent above) fun rounds => by simp only [climbLeft, above, left, if_true]
      · exact .ends (some parent) fun rounds => by simp only [climbLeft, above, left, if_false]
  exact settlesByRounds round climbs

theorem rbInsertGrowing (rounds : Nat) {h h' : Heap α} {node : α} {parent : Option α}
    (ended : rbInsert rounds h node parent = some h') : rbInsert (rounds + 1) h node parent = some h' := by
  induction rounds generalizing h node parent with
  | zero => simp [rbInsert] at ended
  | succ rounds ih =>
    cases parent with
    | none => exact ended
    | some parent =>
      rw [rbInsert] at ended ⊢
      by_cases black : h.color parent = .black
      · simpa only [black, if_true] using ended
      · simp only [black, if_false] at ended ⊢
        cases above : h.parent parent with
        | none => simp [above] at ended
        | some gparent =>
          simp only [above, Option.bind_some] at ended ⊢
          cases uncle : h.child (sideOf h (some parent) gparent).other gparent with
          | none => simpa only [uncle] using ended
          | some tmp =>
            cases red : isRed h (some tmp) with
            | false => simpa only [uncle, red] using ended
            | true =>
              simp only [uncle, red] at ended ⊢
              exact ih ended

theorem rbEraseColorGrowing (rounds : Nat) {h h' : Heap α} {node : Option α} {parent : α}
    (ended : rbEraseColor rounds h node parent = some h') : rbEraseColor (rounds + 1) h node parent = some h' := by
  induction rounds generalizing h node parent with
  | zero => simp [rbEraseColor] at ended
  | succ rounds ih =>
    rw [rbEraseColor] at ended ⊢
    cases round : eraseRound h node parent with
    | none => simp [round] at ended
    | some result =>
      obtain ⟨h1, _ | ⟨node', parent'⟩⟩ := result
      · simpa only [round] using ended
      · simp only [round] at ended ⊢
        exact ih ended

end Loops

section Places

variable [DecidableEq α] {h : Heap α} {fs : List (Frame α)} {c : Color} {k : α} {l r : ColoredTree.Tree α} {n : Nat}

structure Within (h : Heap α) (k : α) (n : Nat) : Prop where
  below : ∀ side x, h.child side k = some x → Below h (some x) n
  climbs : Climbs h k n
  beside : ∀ parent side x, h.parent k = some parent → h.child side parent = some x → Below h (some x) n

omit [DecidableEq α] in
theorem reached (holds : Holds h fs (.node c l k r)) (low : (plug fs (.node c l k r)).height ≤ n) : Within h k n := by
  have depth := depthPlug fs (.node c l k r)
  simp only [ColoredTree.Tree.height] at depth
  obtain ⟨⟨parent, color, left, right, repl, repr⟩, frames⟩ := holds
  have here : LinkedTree.Rep h (.node c l k r) (top fs) := ⟨parent, color, left, right, repl, repr⟩
  refine ⟨fun side x child => ?_, ⟨fs, parent, frames, by omega⟩, fun p side x above child => ?_⟩
  · cases side with
    | left => exact ⟨l, some k, repl, left.symm.trans child, by omega⟩
    | right => exact ⟨r, some k, repr, right.symm.trans child, by omega⟩
  · cases fs with
    | nil => simp [parent, top] at above
    | cons f fs =>
      obtain rfl : f.key = p := Option.some.inj (parent.symm.trans above)
      obtain ⟨-, -, near, far, repSibling, -⟩ := frames
      have sibling : f.sibling.height ≤ n := by
        have up := depthPlug fs (f.fill (.node c l k r))
        rw [Frame.fill, Tree.heightMake] at up
        simp only [plug, Frame.fill] at low
        omega
      by_cases same : side = f.side
      · subst same
        obtain rfl : k = x := Option.some.inj (near.symm.trans child)
        exact ⟨_, _, here, rfl, by simp only [ColoredTree.Tree.height]; omega⟩
      · rw [Side.eqOther same] at child
        exact ⟨_, _, repSibling, far.symm.trans child, sibling⟩

theorem Within.next (within : Within h k n) : Settles (fun rounds => next rounds h k) n := by
  by_cases empty : nodeIsEmpty h k = true
  · exact (Settles.pure none n).congr fun rounds => by simp [Rbtree.next, empty]
  · cases right : h.child .right k with
    | some x =>
      exact ((leftmostFromSettles (within.below .right x right)).map some).congr fun rounds => by
        simp [Rbtree.next, empty, right]
    | none => exact (climbRightSettles within.climbs).congr fun rounds => by simp [Rbtree.next, empty, right]

theorem Within.prev (within : Within h k n) : Settles (fun rounds => prev rounds h k) n := by
  by_cases empty : nodeIsEmpty h k = true
  · exact (Settles.pure none n).congr fun rounds => by simp [Rbtree.prev, empty]
  · cases left : h.child .left k with
    | some x =>
      exact ((rightmostFromSettles (within.below .left x left)).map some).congr fun rounds => by
        simp [Rbtree.prev, empty, left]
    | none => exact (climbLeftSettles within.climbs).congr fun rounds => by simp [Rbtree.prev, empty, left]

theorem Within.nextPostorder (within : Within h k n) : Settles (fun rounds => nextPostorder rounds h (some k)) n := by
  cases above : h.parent k with
  | none => exact (Settles.pure none n).congr fun rounds => by simp [Rbtree.nextPostorder, above]
  | some parent =>
    by_cases left : h.child .left parent = some k
    · cases right : h.child .right parent with
      | none => exact (Settles.pure (some parent) n).congr fun rounds => by simp [Rbtree.nextPostorder, above, left, right]
      | some x =>
        exact ((leftDeepestSettles (within.beside parent .right x above right)).map some).congr fun rounds => by
          simp [Rbtree.nextPostorder, above, left, right]
    · exact (Settles.pure (some parent) n).congr fun rounds => by simp [Rbtree.nextPostorder, above, left]

theorem Within.rbDel (within : Within h k n) {r : Heap α × Option α} {m : Nat} (more : n ≤ m)
    (deleted : rbDel m h k = some r) : Settles (fun rounds => rbDel rounds h k) n := by
  have same (rounds : Nat) (enough : n ≤ rounds) : Rbtree.rbDel rounds h k = Rbtree.rbDel m h k := by
    cases left : h.child .left k with
    | none => simp only [Rbtree.rbDel, left]
    | some x =>
      cases right : h.child .right k with
      | none => simp only [Rbtree.rbDel, left, right]
      | some child =>
        have detach : detachSuccessor rounds h child = detachSuccessor m h child := by
          cases down : h.child .left child with
          | none => simp only [detachSuccessor, down]
          | some tmp =>
            obtain ⟨j, rfl, children⟩ := (within.below .right child right).child
            have lower : Below h (some tmp) j := down ▸ children .left
            have settled : Settles (fun rounds => successorFrom rounds h child tmp) j := successorFromSettles lower
            obtain ⟨found, first, second⟩ := settled.same (a := rounds) (b := m) (by omega) (by omega)
            simp only [detachSuccessor, down, first, second]
        simp only [Rbtree.rbDel, left, right, detach]
  exact ⟨r, fun rounds enough => (same rounds enough).trans deleted⟩

end Places

section Calls

variable [DecidableEq α] {t : Root α} {tree : ColoredTree.Tree α} {L : List α} {node : α} {cmp : α → α → Int}

def roundsOf (n : Nat) : Nat := min n (heightBound n)

omit [DecidableEq α] in
theorem Shape.low (shape : Shape t tree) : tree.height ≤ roundsOf tree.toList.length := by
  obtain ⟨n, balanced⟩ := shape.balanced
  exact Nat.le_min.mpr ⟨Tree.heightLeLength tree, balanced.shallow⟩

omit [DecidableEq α] in
theorem Shape.searches (shape : Shape t tree) :
    Searches t.toHeap (none, true) (roundsOf tree.toList.length + 1) :=
  ⟨_, rfl, tree, _, shape.holds.1, shape.holds.2.symm, shape.low⟩

theorem insertSettles {fs : List (Frame α)} (shape : Shape t (plug fs .nil)) (fresh : node ∉ (plug fs .nil).toList) :
    Settles (fun rounds => rbInsert (rounds + 1) (linkNode t.toHeap node (linkOf fs)) node
      ((linkNode t.toHeap node (linkOf fs)).parent node)) (roundsOf (plug fs .nil).toList.length) := by
  obtain ⟨n, balanced⟩ := shape.balanced
  have perm := plugPerm fs .nil
  have distinct : (node :: keys fs).Nodup :=
    List.nodup_cons.mpr ⟨fun inside => fresh (perm.mem_iff.mpr (by simpa using inside)), perm.nodup_iff.mp shape.distinct⟩
  obtain ⟨linked, -⟩ := linkNodeHolds ((holdsPlug _ _ _).mpr shape.holds) distinct
  obtain ⟨c, m, accepts, hole⟩ := Accepts.ofPlug (.root n) balanced
  cases hole
  rw [List.append_nil] at accepts
  have red : Balanced (.make .left .red .nil node .nil) .red 0 := .red .nil .nil
  obtain ⟨h', -, inserted, -⟩ := rbInsertSpec (fs.length + 1) (by omega) red accepts linked
    ((plugPerm fs _).nodup_iff.mpr distinct)
  have parent : (linkNode t.toHeap node (linkOf fs)).parent node = top fs := linked.1.1
  have depth := depthPlug fs .nil
  rw [parent]
  refine Settles.weaken (n := fs.length) (settlesOfGrowing (fun rounds r => rbInsertGrowing (rounds + 1)) inserted) ?_
  exact (Nat.le_add_right _ _).trans (depth.trans shape.low)

theorem addSettles (shape : Shape t tree) (fresh : node ∉ tree.toList) :
    Settles (fun rounds => (add cmp (t.within rounds) node).map fun r => (r.1.within 0, r.2)) (roundsOf tree.toList.length) := by
  have search := (addSearchSettles cmp node (none, true) shape.searches).succ
  have link : ∀ place, (∀ rounds, roundsOf tree.toList.length ≤ rounds →
        addSearch cmp node t.toHeap (rounds + 1) none true = some place) →
      Settles (fun rounds => (rbInsert (rounds + 1) (linkNode t.toHeap node place.1) node
          ((linkNode t.toHeap node place.1).parent node)).map fun h =>
        ((⟨h, if place.2 then some node else t.rbLeftmost, 0⟩ : Root α), if place.2 then some node else none))
        (roundsOf tree.toList.length) := by
    intro place found
    have enough : roundsOf tree.toList.length ≤ t.linked := shape.linked ▸ Nat.min_le_left _ _
    have empty : true = true ↔ before ([] : List (Frame α)) = [] := by simp [before]
    obtain ⟨fs, leftmost, searched, same⟩ : ∃ fs leftmost,
        addSearch cmp node t.toHeap (t.linked + 1) none true = some (linkOf fs, leftmost) ∧ plug fs .nil = tree := by
      obtain ⟨fs, leftmost, searched, same, -⟩ := addSearchSpec (t.linked + 1) shape.holds (by rw [shape.linked]; omega) empty
      exact ⟨fs, leftmost, searched, same⟩
    obtain rfl : plug fs .nil = tree := same
    obtain rfl : place = (linkOf fs, leftmost) := Option.some.inj ((found t.linked enough).symm.trans searched)
    exact (insertSettles shape fresh).map _
  refine (search.bind link).congr fun rounds => ?_
  simp only [add, Root.within]
  cases addSearch cmp node t.toHeap (rounds + 1) none true with
  | none => rfl
  | some place =>
    obtain ⟨place, leftmost⟩ := place
    simp only [Option.bind_some, Option.map_map]
    rfl

theorem findAddEnds {c : α → Int} (shape : Shape t tree) (falling : Falling c tree.toList) :
    ∃ found, (∀ rounds, roundsOf tree.toList.length ≤ rounds → findAddSearch c t.toHeap (rounds + 1) none true = some found) ∧
      ((∃ x, found = .inl x) ∨ ∃ link leftmost, found = .inr (link, leftmost) ∧ ∀ node, node ∉ tree.toList →
        Settles (fun rounds => (linkAt (t.within rounds) node link leftmost).map fun t => t.within 0)
          (roundsOf tree.toList.length)) := by
  obtain ⟨found, ended⟩ := (findAddSearchSettles c (none, true) shape.searches).succ
  have enough : roundsOf tree.toList.length ≤ t.linked := shape.linked ▸ Nat.min_le_left _ _
  have empty : true = true ↔ before ([] : List (Frame α)) = [] := by simp [before]
  have outside : Gap c [] := ⟨by simp [before], by simp [after]⟩
  obtain ⟨found', searched, kind⟩ :=
    findAddSearchSpec c (t.linked + 1) shape.holds (by rw [shape.linked]; omega) empty falling outside
  obtain rfl : found = found' := Option.some.inj ((ended t.linked enough).symm.trans searched)
  refine ⟨found, ended, ?_⟩
  cases kind with
  | @equal x member same => exact .inl ⟨x, rfl⟩
  | @place fs leftmost whole flag gap =>
    obtain rfl : plug fs .nil = tree := whole
    refine .inr ⟨linkOf fs, leftmost, rfl, fun node fresh => ?_⟩
    refine ((insertSettles shape fresh).map fun h => (⟨h, if leftmost then some node else t.rbLeftmost, 0⟩ : Root α)).congr
      fun rounds => ?_
    simp only [linkAt, Option.map_map]
    rfl

theorem findAddSettles (shape : Shape t tree) (falling : Falling (cmp node) tree.toList) (fresh : node ∉ tree.toList) :
    Settles (fun rounds => (findAdd cmp (t.within rounds) node).map fun r => (r.1.within 0, r.2))
      (roundsOf tree.toList.length) := by
  obtain ⟨found, ended, ⟨x, rfl⟩ | ⟨link, leftmost, rfl, links⟩⟩ := findAddEnds shape falling
  · refine ⟨(t.within 0, x), fun rounds enough => ?_⟩
    have searched : findAddSearch (cmp node) (t.within rounds).toHeap (rounds + 1) none true = _ := ended rounds enough
    simp only [findAdd, Root.within] at searched ⊢
    rw [searched]
    rfl
  · obtain ⟨root, linked⟩ := links node fresh
    refine ⟨(root, node), fun rounds enough => ?_⟩
    have searched : findAddSearch (cmp node) (t.within rounds).toHeap (rounds + 1) none true = _ := ended rounds enough
    obtain ⟨t', linkedAt, rfl⟩ := Option.map_eq_some_iff.mp (linked rounds enough)
    simp only [findAdd, Root.within] at searched linkedAt ⊢
    rw [searched]
    simp [linkedAt]

theorem findNewAddSettles {key : α → Int} {newNode : Option α} (shape : Shape t tree) (falling : Falling key tree.toList) :
    Settles (fun rounds => (findNewAdd key (t.within rounds) newNode).map fun r => (r.1.within 0, r.2))
      (roundsOf tree.toList.length) := by
  obtain ⟨found, ended, ⟨x, rfl⟩ | ⟨link, leftmost, rfl, links⟩⟩ := findAddEnds shape falling
  · refine ⟨(t.within 0, some x), fun rounds enough => ?_⟩
    have searched : findAddSearch key (t.within rounds).toHeap (rounds + 1) none true = _ := ended rounds enough
    simp only [findNewAdd, Root.within] at searched ⊢
    rw [searched]
    rfl
  · cases newNode with
    | none =>
      refine ⟨(t.within 0, none), fun rounds enough => ?_⟩
      have searched : findAddSearch key (t.within rounds).toHeap (rounds + 1) none true = _ := ended rounds enough
      simp only [findNewAdd, Root.within] at searched ⊢
      rw [searched]
      rfl
    | some node =>
      by_cases empty : nodeIsEmpty t.toHeap node = true
      · have valid : Valid t tree.toList := ⟨tree, shape, rfl⟩
        have fresh : node ∉ tree.toList := fun inside => by simp [valid.memNotEmpty inside] at empty
        obtain ⟨root, linked⟩ := links node fresh
        refine ⟨(root, some node), fun rounds enough => ?_⟩
        have searched : findAddSearch key (t.within rounds).toHeap (rounds + 1) none true = _ := ended rounds enough
        obtain ⟨t', linkedAt, rfl⟩ := Option.map_eq_some_iff.mp (linked rounds enough)
        simp only [findNewAdd, Root.within] at searched linkedAt ⊢
        rw [searched]
        simp [linkedAt, empty]
      · refine ⟨(t.within 0, none), fun rounds enough => ?_⟩
        have searched : findAddSearch key (t.within rounds).toHeap (rounds + 1) none true = _ := ended rounds enough
        simp only [findNewAdd, Root.within] at searched ⊢
        rw [searched]
        simp [empty]

omit [DecidableEq α] in
theorem shortShallow {f : Frame α} {fs : List (Frame α)} {c : Color} (accepts : Accepts (f :: fs) c 1) :
    (f :: fs).length ≤ roundsOf ((plug (f :: fs) .nil).toList.length + 1) := by
  have depth := accepts.shallow
  have few := lengthLeKeys (f :: fs)
  rw [lengthPlug]
  simp only [Tree.toList, List.length_nil, roundsOf, heightBound] at depth few ⊢
  refine Nat.le_min.mpr ⟨by omega, ?_⟩
  rw [show 0 + (keys (f :: fs)).length + 1 + 1 = (keys (f :: fs)).length + 2 ^ 1 by omega]
  omega

theorem Unlinked.settles {h : Heap α} {rebalance : Option α} (unlinked : Unlinked h L rebalance) (distinct : L.Nodup) :
    Settles (fun rounds => rebalance.elim (some h) fun parent => rbEraseColor rounds h none parent)
      (roundsOf (L.length + 1)) := by
  cases unlinked with
  | whole => exact .pure h _
  | @short f fs c holds order accepts =>
    subst order
    obtain ⟨h', -, ended, -⟩ := rbEraseColorSpec (fs.length + 1) (by omega) .nil accepts holds distinct
    exact (settlesOfGrowing (fun rounds r => rbEraseColorGrowing rounds) ended).weaken (shortShallow accepts)

theorem delSettles (shape : Shape t tree) (member : node ∈ tree.toList) :
    Settles (fun rounds => (del (t.within rounds) node).map fun r => (r.1.within 0, r.2)) (roundsOf tree.toList.length) := by
  obtain ⟨n, balanced⟩ := shape.balanced
  have low := shape.low
  obtain ⟨fs, c, l, r, rfl⟩ := zoom member
  obtain ⟨d, m, accepts, here⟩ := Accepts.ofPlug (.root n) balanced
  cases here.color
  rw [List.append_nil] at accepts
  have holds := (holdsPlug _ _ _).mpr shape.holds
  have within := reached holds low
  have most : roundsOf (plug fs (.node c l node r)).toList.length ≤ (plug fs (.node c l node r)).toList.length := Nat.min_le_left _ _
  obtain ⟨h1, rebalance, deleted, unlinked, -⟩ := rbDelSpec holds shape.distinct accepts here (Nat.le_refl _)
  obtain ⟨result, unlinkEnded⟩ := within.rbDel most deleted
  obtain rfl : result = (h1, rebalance) := Option.some.inj ((unlinkEnded _ most).symm.trans deleted)
  have first : Settles (fun rounds => if t.rbLeftmost = some node then next rounds t.toHeap node else some none)
      (roundsOf (plug fs (.node c l node r)).toList.length) := by
    split
    · exact within.next
    · exact .pure none _
  obtain ⟨leftmost, firstEnded⟩ := first
  have split : (plug fs (.node c l node r)).toList = before fs ++ l.toList ++ node :: (r.toList ++ after fs) := by
    rw [toListPlug]
    simp [Tree.toList]
  have distinct : (before fs ++ l.toList ++ (r.toList ++ after fs)).Nodup := by
    have whole := shape.distinct
    rw [split] at whole
    exact whole.sublist ((List.sublist_cons_self _ _).append_left _)
  obtain ⟨h2, ended⟩ := unlinked.settles distinct
  rw [show (before fs ++ l.toList ++ (r.toList ++ after fs)).length + 1 = (plug fs (.node c l node r)).toList.length by
    rw [split]; simp; omega] at ended
  refine ⟨(⟨nodeInit h2 node, if t.rbLeftmost = some node then leftmost else t.rbLeftmost, 0⟩, leftmost), fun rounds enough => ?_⟩
  have following := firstEnded rounds enough
  have unlinking := unlinkEnded rounds enough
  have balancing := ended rounds enough
  -- The cached leftmost node, and whether the tree is a black node short.
  by_cases cached : t.rbLeftmost = some node
  · simp only [cached, if_true] at following
    cases rebalance with
    | none => simp [del, Root.within, cached, following, unlinking, Option.some.inj balancing]
    | some parent =>
      have balanced : rbEraseColor rounds h1 none parent = some h2 := balancing
      simp [del, Root.within, cached, following, unlinking, balanced]
  · simp only [cached, if_false] at following
    obtain rfl : none = leftmost := Option.some.inj following
    cases rebalance with
    | none => simp [del, Root.within, cached, unlinking, Option.some.inj balancing]
    | some parent =>
      have balanced : rbEraseColor rounds h1 none parent = some h2 := balancing
      simp [del, Root.within, cached, unlinking, balanced]

end Calls

section Runs

variable [DecidableEq α] {cmp : α → α → Int}

/- A call without the count that only bounds its loops. -/
def uncounted (r : Pair α × Option α) : Root α × List α × Option α := (r.1.root.within 0, r.1.order, r.2)

theorem callSettles {s : Pair α} (preorder : TotalPreorder cmp) (whole : Whole cmp s) {call : Call α} (allowed : Allowed cmp s call) :
    Settles (fun rounds => (step cmp ⟨s.root.within rounds, s.order⟩ call).map uncounted) (roundsOf s.order.length) := by
  obtain ⟨tree, shape, order⟩ := whole.valid
  rw [show s.order.length = tree.toList.length by rw [order]]
  cases call with
  | add node =>
    have fresh : node ∉ tree.toList := order ▸ allowed
    have settled : Settles (fun rounds => (add cmp (s.root.within rounds) node).map fun r => (r.1.within 0, r.2)) _ :=
      addSettles shape fresh
    refine (settled.map fun r => (r.1, insertBehindEquals cmp node s.order, r.2)).congr fun rounds => ?_
    simp only [step, Option.map_map]
    rfl
  | findAdd node =>
    have fresh : node ∉ tree.toList := order ▸ allowed
    have falling : Falling (cmp node) tree.toList := fallingOfSorted preorder (order ▸ whole.sorted)
    refine ((findAddSettles shape falling fresh).map fun r =>
      (r.1, if r.2 = node then insertBehindEquals cmp node s.order else s.order, some r.2)).congr fun rounds => ?_
    simp only [step, Option.map_map]
    rfl
  | findNewAdd key newNode =>
    have consistent : Consistent cmp key newNode := allowed
    have falling : Falling key tree.toList := (order ▸ whole.sorted).imp fun {a b} upTo => consistent.falling a b upTo
    have settled : Settles (fun rounds => (findNewAdd key (s.root.within rounds) newNode).map fun r => (r.1.within 0, r.2)) _ :=
      findNewAddSettles shape falling
    refine (settled.map fun r =>
      (r.1, r.2.elim s.order fun node => if node ∈ s.order then s.order else insertBehindEquals cmp node s.order, r.2)).congr
      fun rounds => ?_
    simp only [step, Option.map_map]
    congr 1
    funext r
    obtain ⟨root, _ | node⟩ := r <;> rfl
  | del node =>
    have member : node ∈ tree.toList := order ▸ allowed
    refine ((delSettles shape member).map fun r => (r.1, s.order.erase node, r.2)).congr fun rounds => ?_
    simp only [step, Option.map_map]
    rfl

structure WalksWithin (t : Root α) (L : List α) (rounds : Nat) : Prop where
  next : ∀ x ∈ L, EndAlike (fun rounds => next rounds t.toHeap x) rounds t.linked
  prev : ∀ x ∈ L, EndAlike (fun rounds => prev rounds t.toHeap x) rounds t.linked
  last : EndAlike (fun rounds => last (t.within rounds)) rounds t.linked
  matchFind : ∀ matching, EndAlike (fun rounds => matchFind matching t.toHeap rounds t.root) rounds t.linked
  findFirst : ∀ matching, EndAlike (fun rounds => findFirst matching t.toHeap rounds t.root none) rounds t.linked
  nextMatch : ∀ matching, ∀ x ∈ L, EndAlike (fun rounds => nextMatch matching rounds t.toHeap x) rounds t.linked
  firstPostorder : EndAlike (fun rounds => firstPostorder (t.within rounds)) rounds t.linked
  nextPostorder : ∀ x ∈ L, EndAlike (fun rounds => nextPostorder rounds t.toHeap (some x)) rounds t.linked

theorem walksWithin {t : Root α} {L : List α} (valid : Valid t L) {rounds : Nat} (enough : heightBound L.length ≤ rounds) :
    WalksWithin t L rounds := by
  obtain ⟨tree, shape, rfl⟩ := valid
  have below : Below t.toHeap t.root (roundsOf tree.toList.length) := ⟨tree, _, shape.holds.1, shape.holds.2.symm, shape.low⟩
  have few : roundsOf tree.toList.length ≤ rounds := (Nat.min_le_right _ _).trans enough
  have all : roundsOf tree.toList.length ≤ t.linked := shape.linked ▸ Nat.min_le_left _ _
  have within (x : α) (member : x ∈ tree.toList) : Within t.toHeap x (roundsOf tree.toList.length) := by
    have low := shape.low
    obtain ⟨fs, c, l, r, rfl⟩ := zoom member
    exact reached ((holdsPlug _ _ _).mpr shape.holds) low
  refine ⟨fun x member => (within x member).next.same few all, fun x member => (within x member).prev.same few all, ?_,
    fun matching => (matchFindSettles matching below).same few all, fun matching => (findFirstSettles matching below).same few all,
    fun matching x member => ?_, ?_, fun x member => (within x member).nextPostorder.same few all⟩
  · cases root : t.root with
    | none => exact ⟨none, by simp [last, Root.within, root], by simp [last, Root.within, root]⟩
    | some x =>
      have settled : Settles (fun rounds => last (t.within rounds)) (roundsOf tree.toList.length) :=
        ((rightmostFromSettles (root ▸ below)).map some).congr fun rounds => by simp [last, Root.within, root]
      exact settled.same few all
  · have settled : Settles (fun rounds => nextMatch matching rounds t.toHeap x) (roundsOf tree.toList.length) :=
      ((within x member).next.map _).congr fun rounds => rfl
    exact settled.same few all
  · cases root : t.root with
    | none => exact ⟨none, by simp [firstPostorder, Root.within, root], by simp [firstPostorder, Root.within, root]⟩
    | some x =>
      have settled : Settles (fun rounds => firstPostorder (t.within rounds)) (roundsOf tree.toList.length) :=
        ((leftDeepestSettles (root ▸ below)).map some).congr fun rounds => by simp [firstPostorder, Root.within, root]
      exact settled.same few all

/- In every reachable state each loop of each call and walk ends within twice the logarithm of
the number of nodes, and the call returns and leaves what it does with the rounds it may take. -/
theorem logarithmicRounds (preorder : TotalPreorder cmp) {s : Pair α} (reach : Reachable Starts (step cmp) (Allowed cmp) s)
    {rounds : Nat} (enough : heightBound s.order.length ≤ rounds) :
    (∀ call, Allowed cmp s call → ∃ s' result, step cmp s call = some (s', result) ∧
      (step cmp ⟨s.root.within rounds, s.order⟩ call).map uncounted = some (uncounted (s', result))) ∧
      WalksWithin s.root s.order rounds := by
  have whole := reachableWhole preorder reach
  refine ⟨fun call allowed => ?_, walksWithin whole.valid enough⟩
  obtain ⟨s', result, taken, -⟩ := callAnswers preorder whole allowed
  have all : roundsOf s.order.length ≤ s.root.linked := whole.valid.linked ▸ Nat.min_le_left _ _
  obtain ⟨r, few, many⟩ := (callSettles preorder whole allowed).same ((Nat.min_le_right _ _).trans enough) all
  have unbounded : (step cmp s call).map uncounted = some r := many
  rw [taken] at unbounded
  exact ⟨s', result, taken, few.trans unbounded.symm⟩

/- Two rounds for each loop, among two nodes. -/
theorem logarithmicTwoAdded : ∃ s : Pair Nat, s.order = [3, 7] ∧ heightBound s.order.length = 2 ∧
    ∃ s' result, step byDifference s (.add 5) = some (s', result) ∧
      (step byDifference ⟨s.root.within 2, s.order⟩ (.add 5)).map uncounted = some (uncounted (s', result)) := by
  have empty : Reachable Starts (step byDifference) (Allowed byDifference) (⟨init, []⟩ : Pair Nat) := .start ⟨rfl, rfl, rfl, rfl⟩
  have one := Reachable.next (a := Call.add 7) empty List.not_mem_nil rfl
  have two := Reachable.next (a := Call.add 3) one (by simp [Allowed, insertBehindEquals]) rfl
  obtain ⟨calls, -⟩ := logarithmicRounds byDifferencePreorder two (Nat.le_refl 2)
  have fresh : 5 ∉ insertBehindEquals byDifference 3 (insertBehindEquals byDifference 7 []) := by decide
  exact ⟨_, rfl, rfl, calls (.add 5) fresh⟩

end Runs
end Nanosig.Rbtree
