import Nanosig.Lib.TransitionSystem
import Nanosig.Rbtree.FindAdd

/-! Whole runs of the tree under a total preorder. Beside the tree of the source
stands the abstract one: the linked nodes as a sorted list, in which a new node
goes behind all its equals. -/
namespace Nanosig.Rbtree
open TransitionSystem ColoredTree LinkedTree

variable {α : Type} [DecidableEq α]

structure TotalPreorder (cmp : α → α → Int) : Prop where
  swap : ∀ a b, cmp a b < 0 ↔ 0 < cmp b a
  trans : ∀ a b c, cmp a b ≤ 0 → cmp b c ≤ 0 → cmp a c ≤ 0

/- A key comparison that agrees with the order of the nodes and with the node it would link. -/
structure Consistent (cmp : α → α → Int) (key : α → Int) (newNode : Option α) : Prop where
  falling : ∀ a b, cmp a b ≤ 0 → (key a < 0 → key b < 0) ∧ (0 < key b → 0 < key a)
  node : ∀ n, newNode = some n → ∀ x, (key x < 0 ↔ cmp n x < 0) ∧ (0 < key x ↔ 0 < cmp n x)

inductive Call (α : Type) where
  | add (node : α)
  | findAdd (node : α)
  | findNewAdd (key : α → Int) (newNode : Option α)
  | del (node : α)

structure Pair (α : Type) where
  root : Root α
  order : List α

def insertBehindEquals (cmp : α → α → Int) (node : α) (order : List α) : List α :=
  order.takeWhile (fun x => ¬cmp node x < 0) ++ node :: order.dropWhile (fun x => ¬cmp node x < 0)

def step (cmp : α → α → Int) (s : Pair α) : Call α → Option (Pair α × Option α)
  | .add node =>
      (add cmp s.root node).map fun (root, result) => (⟨root, insertBehindEquals cmp node s.order⟩, result)
  | .findAdd node =>
      (findAdd cmp s.root node).map fun (root, result) =>
        (⟨root, if result = node then insertBehindEquals cmp node s.order else s.order⟩, some result)
  | .findNewAdd key newNode =>
      (findNewAdd key s.root newNode).map fun (root, result) =>
        (⟨root, match result with
          | some node => if node ∈ s.order then s.order else insertBehindEquals cmp node s.order
          | none => s.order⟩, result)
  | .del node => (del s.root node).map fun (root, result) => (⟨root, s.order.erase node⟩, result)

/- An empty tree; the memory of the nodes is arbitrary. -/
def Starts (s : Pair α) : Prop := s.root.root = none ∧ s.root.rbLeftmost = none ∧ s.root.linked = 0 ∧ s.order = []

/- The preconditions: only unlinked nodes are added and only linked nodes removed. -/
def Allowed (cmp : α → α → Int) (s : Pair α) : Call α → Prop
  | .add node => node ∉ s.order
  | .findAdd node => node ∉ s.order
  | .findNewAdd key newNode => Consistent cmp key newNode
  | .del node => node ∈ s.order

structure Whole (cmp : α → α → Int) (s : Pair α) : Prop where
  valid : Valid s.root s.order
  sorted : s.order.Pairwise fun a b => cmp a b ≤ 0

def Answers (cmp : α → α → Int) (s : Pair α) (s' : Pair α) (result : Option α) : Call α → Prop
  | .add node => s'.order = insertBehindEquals cmp node s.order ∧
      result = if s'.order.head? = some node then some node else none
  | .findAdd node =>
      if ∃ x ∈ s.order, cmp node x = 0 then s' = s ∧ ∃ x ∈ s.order, cmp node x = 0 ∧ result = some x
      else s'.order = insertBehindEquals cmp node s.order ∧ result = some node
  | .findNewAdd key newNode =>
      if ∃ x ∈ s.order, key x = 0 then s' = s ∧ ∃ x ∈ s.order, key x = 0 ∧ result = some x
      else match newNode with
        | none => s' = s ∧ result = none
        | some node =>
            if nodeIsEmpty s.root.toHeap node then
              s'.order = insertBehindEquals cmp node s.order ∧ result = some node
            else s' = s ∧ result = none
  | .del node => s'.order = s.order.erase node ∧ nodeIsEmpty s'.root.toHeap node = true ∧
      result = if s.order.head? = some node then s'.order.head? else none

section Order

variable {cmp : α → α → Int} {node : α} {L earlier later : List α}

omit [DecidableEq α] in
theorem TotalPreorder.less (preorder : TotalPreorder cmp) {a b c : α} (first : cmp a b < 0) (second : cmp b c ≤ 0) :
    cmp a c < 0 := by
  by_contra notLess
  have back : cmp c a ≤ 0 := by
    have := preorder.swap c a
    have := preorder.swap a c
    omega
  have loop := preorder.trans b c a second back
  have := preorder.swap a b
  omega

omit [DecidableEq α] in
theorem monotoneOfSorted (preorder : TotalPreorder cmp) (sorted : L.Pairwise fun a b => cmp a b ≤ 0) :
    Monotone cmp node L := sorted.imp fun order less => preorder.less less order

omit [DecidableEq α] in
theorem fallingOfSorted (preorder : TotalPreorder cmp) (sorted : L.Pairwise fun a b => cmp a b ≤ 0) :
    Falling (cmp node) L := by
  refine sorted.imp fun {x y} order => ⟨fun less => preorder.less less order, fun greater => ?_⟩
  have behind := (preorder.swap y node).mpr greater
  by_contra notGreater
  have upTo : cmp node x ≤ 0 := by omega
  have between := preorder.trans node x y upTo order
  omega

omit [DecidableEq α] in
theorem insertAtPlace (order : L = earlier ++ later) (front : ∀ x ∈ earlier, ¬ cmp node x < 0)
    (back : ∀ x ∈ later, cmp node x < 0) : insertBehindEquals cmp node L = earlier ++ node :: later := by
  subst order
  have frontAll : ∀ x ∈ earlier, (decide ¬cmp node x < 0) = true := fun x member => by simpa using front x member
  have taken : later.takeWhile (fun x => ¬cmp node x < 0) = [] ∧ later.dropWhile (fun x => ¬cmp node x < 0) = later := by
    cases later with
    | nil => simp
    | cons x rest => simp [back x List.mem_cons_self]
  rw [insertBehindEquals, List.takeWhile_append_of_pos frontAll, List.dropWhile_append_of_pos frontAll, taken.1,
    taken.2, List.append_nil]

omit [DecidableEq α] in
theorem sortedInsert (preorder : TotalPreorder cmp) (sorted : (earlier ++ later).Pairwise fun a b => cmp a b ≤ 0)
    (front : ∀ x ∈ earlier, ¬ cmp node x < 0) (back : ∀ x ∈ later, cmp node x < 0) :
    (earlier ++ node :: later).Pairwise fun a b => cmp a b ≤ 0 := by
  obtain ⟨sortedEarlier, sortedLater, across⟩ := List.pairwise_append.mp sorted
  refine List.pairwise_append.mpr
    ⟨sortedEarlier, List.pairwise_cons.mpr ⟨fun x inside => Int.le_of_lt (back x inside), sortedLater⟩, fun x left y right => ?_⟩
  rcases List.mem_cons.mp right with rfl | right
  · have notLess := front x left
    have := preorder.swap x y
    have := preorder.swap y x
    omega
  · exact across x left y right

end Order

variable {cmp : α → α → Int}

theorem addAnswers {s : Pair α} {node : α} (preorder : TotalPreorder cmp) (whole : Whole cmp s) (fresh : node ∉ s.order) :
    ∃ s' result, step cmp s (.add node) = some (s', result) ∧ Whole cmp s' ∧ Answers cmp s s' result (.add node) := by
  obtain ⟨root, earlier, later, added, split, valid, place, -⟩ := addSpec whole.valid cmp fresh
  obtain ⟨front, back⟩ := place (monotoneOfSorted preorder whole.sorted)
  have order := insertAtPlace split front back
  refine ⟨⟨root, insertBehindEquals cmp node s.order⟩, _, by rw [step, added]; rfl, ⟨?_, ?_⟩, rfl, ?_⟩
  · rw [order]
    exact valid
  · rw [order]
    exact sortedInsert preorder (split ▸ whole.sorted) front back
  · rw [order]
    cases earlier with
    | nil => simp
    | cons x rest =>
      have apart : ¬ x = node := fun same => fresh (by simp [split, same])
      simp [apart]

theorem findAddAnswers {s : Pair α} {node : α} (preorder : TotalPreorder cmp) (whole : Whole cmp s) (fresh : node ∉ s.order) :
    ∃ s' result, step cmp s (.findAdd node) = some (s', result) ∧ Whole cmp s' ∧
      Answers cmp s s' result (.findAdd node) := by
  have falling : Falling (cmp node) s.order := fallingOfSorted preorder whole.sorted
  obtain ⟨found, searched, ended⟩ := findSpec whole.valid falling
  rcases ended with ⟨x, member, same, rfl⟩ | ⟨link, leftmost, earlier, later, rfl, split, front, back, links⟩
  · have apart : ¬ x = node := fun e => fresh (e ▸ member)
    refine ⟨s, some x, ?_, whole, ?_⟩
    · simp [step, findAdd, searched, apart]
    · rw [Answers, if_pos ⟨x, member, same⟩]
      exact ⟨rfl, x, member, same, rfl⟩
  · obtain ⟨root, linked, valid, -⟩ := links node fresh
    have front' : ∀ x ∈ earlier, ¬ cmp node x < 0 := fun x inside => by have := front x inside; omega
    have order := insertAtPlace split front' back
    have unequal : ¬ ∃ x ∈ s.order, cmp node x = 0 := by
      rintro ⟨x, member, same⟩
      rw [split, List.mem_append] at member
      rcases member with inside | inside
      · have := front x inside
        omega
      · have := back x inside
        omega
    refine ⟨⟨root, insertBehindEquals cmp node s.order⟩, some node, ?_, ⟨?_, ?_⟩, ?_⟩
    · simp [step, findAdd, searched, linked]
    · rw [order]
      exact valid
    · rw [order]
      exact sortedInsert preorder (split ▸ whole.sorted) front' back
    · rw [Answers, if_neg unequal]
      exact ⟨rfl, rfl⟩

theorem findNewAddAnswers {s : Pair α} {key : α → Int} {newNode : Option α} (preorder : TotalPreorder cmp)
    (whole : Whole cmp s) (consistent : Consistent cmp key newNode) :
    ∃ s' result, step cmp s (.findNewAdd key newNode) = some (s', result) ∧ Whole cmp s' ∧
      Answers cmp s s' result (.findNewAdd key newNode) := by
  have falling : Falling key s.order := whole.sorted.imp fun {a b} order => consistent.falling a b order
  obtain ⟨found, searched, ended⟩ := findSpec whole.valid falling
  rcases ended with ⟨x, member, same, rfl⟩ | ⟨link, leftmost, earlier, later, rfl, split, front, back, links⟩
  · refine ⟨s, some x, ?_, whole, ?_⟩
    · simp [step, findNewAdd, searched, member]
    · unfold Answers
      dsimp only
      rw [if_pos ⟨x, member, same⟩]
      exact ⟨rfl, x, member, same, rfl⟩
  · have unequal : ¬ ∃ x ∈ s.order, key x = 0 := by
      rintro ⟨x, member, same⟩
      rw [split, List.mem_append] at member
      rcases member with inside | inside
      · have := front x inside
        omega
      · have := back x inside
        omega
    cases newNode with
    | none =>
      refine ⟨s, none, by simp [step, findNewAdd, searched], whole, ?_⟩
      unfold Answers
      dsimp only
      rw [if_neg unequal]
      exact ⟨rfl, rfl⟩
    | some node =>
      have agree := consistent.node node rfl
      by_cases empty : nodeIsEmpty s.root.toHeap node = true
      · have fresh : node ∉ s.order := fun inside => by simp [whole.valid.memNotEmpty inside] at empty
        obtain ⟨root, linked, valid, -⟩ := links node fresh
        have front' : ∀ x ∈ earlier, ¬ cmp node x < 0 := fun x inside => by
          have := (agree x).2.mp (front x inside)
          omega
        have back' : ∀ x ∈ later, cmp node x < 0 := fun x inside => (agree x).1.mp (back x inside)
        have order := insertAtPlace split front' back'
        refine ⟨⟨root, insertBehindEquals cmp node s.order⟩, some node, ?_, ⟨?_, ?_⟩, ?_⟩
        · simp [step, findNewAdd, searched, linked, empty, fresh]
        · rw [order]
          exact valid
        · rw [order]
          exact sortedInsert preorder (split ▸ whole.sorted) front' back'
        · rw [Answers, if_neg unequal]
          simp [empty]
      · refine ⟨s, none, by simp [step, findNewAdd, searched, empty], whole, ?_⟩
        rw [Answers, if_neg unequal]
        simp [empty]

theorem delAnswers {s : Pair α} {node : α} (whole : Whole cmp s) (member : node ∈ s.order) :
    ∃ s' result, step cmp s (.del node) = some (s', result) ∧ Whole cmp s' ∧ Answers cmp s s' result (.del node) := by
  obtain ⟨root, deleted, valid, empty, -⟩ := delSpec whole.valid member
  refine ⟨⟨root, s.order.erase node⟩, _, by rw [step, deleted]; rfl,
    ⟨valid, whole.sorted.sublist List.erase_sublist⟩, rfl, empty, ?_⟩
  by_cases first : s.order.head? = some node
  · cases order : s.order with
    | nil => simp [order] at member
    | cons x rest =>
      have same : x = node := by simpa [order] using first
      simp [same]
  · simp [first]

theorem callAnswers {s : Pair α} (preorder : TotalPreorder cmp) (whole : Whole cmp s) {call : Call α}
    (allowed : Allowed cmp s call) :
    ∃ s' result, step cmp s call = some (s', result) ∧ Whole cmp s' ∧ Answers cmp s s' result call := by
  cases call with
  | add node => exact addAnswers preorder whole allowed
  | findAdd node => exact findAddAnswers preorder whole allowed
  | findNewAdd key newNode => exact findNewAddAnswers preorder whole allowed
  | del node => exact delAnswers whole allowed

omit [DecidableEq α] in
theorem startsWhole {s : Pair α} (starts : Starts s) : Whole cmp s := by
  obtain ⟨root, leftmost, linked, order⟩ := starts
  refine ⟨⟨.nil, ⟨⟨trivial, root⟩, List.nodup_nil, ⟨0, .nil⟩, leftmost, linked⟩, order.symm⟩, ?_⟩
  rw [order]
  exact List.Pairwise.nil

theorem reachableWhole {s : Pair α} (preorder : TotalPreorder cmp)
    (reach : Reachable Starts (step cmp) (Allowed cmp) s) : Whole cmp s := by
  refine reach.invariant (fun s starts => startsWhole starts) fun s call s' result whole allowed taken => ?_
  obtain ⟨s'', result', took, whole', -⟩ := callAnswers preorder whole allowed
  rw [taken] at took
  cases took
  exact whole'

/- In every reachable state the tree is a red-black tree over the abstract list, sorted
and with its minimum cached, and every call answers as the abstract tree does. -/
theorem redBlackRuns (preorder : TotalPreorder cmp) {s : Pair α}
    (reach : Reachable Starts (step cmp) (Allowed cmp) s) :
    (∃ tree, Holds s.root.toHeap [] tree ∧ tree.toList = s.order ∧ s.order.Nodup ∧ (∃ n, Balanced tree .black n)) ∧
      s.order.Pairwise (fun a b => cmp a b ≤ 0) ∧ s.root.rbLeftmost = s.order.head? ∧
      ∀ call, Allowed cmp s call →
        ∃ s' result, step cmp s call = some (s', result) ∧ Answers cmp s s' result call := by
  have whole := reachableWhole preorder reach
  obtain ⟨tree, shape, order⟩ := whole.valid
  refine ⟨⟨tree, shape.holds, order, order ▸ shape.distinct, shape.balanced⟩, whole.sorted,
    order ▸ shape.leftmost, fun call allowed => ?_⟩
  obtain ⟨s', result, taken, -, answers⟩ := callAnswers preorder whole allowed
  exact ⟨s', result, taken, answers⟩

def byDifference (a b : Nat) : Int := (a : Int) - b

theorem byDifferencePreorder : TotalPreorder byDifference := by
  constructor <;> intros <;> simp only [byDifference] at * <;> omega

theorem redBlackTwoAdded : ∃ s : Pair Nat, s.order = [3, 7] ∧ s.root.rbLeftmost = s.order.head? ∧
    s.order.Pairwise (fun a b => byDifference a b ≤ 0) := by
  have empty : Reachable Starts (step byDifference) (Allowed byDifference) (⟨init, []⟩ : Pair Nat) := .start ⟨rfl, rfl, rfl, rfl⟩
  have one := Reachable.next (a := Call.add 7) empty List.not_mem_nil rfl
  have two := Reachable.next (a := Call.add 3) one (by simp [Allowed, insertBehindEquals]) rfl
  obtain ⟨-, sorted, leftmost, -⟩ := redBlackRuns byDifferencePreorder two
  exact ⟨_, rfl, leftmost, sorted⟩

end Nanosig.Rbtree
