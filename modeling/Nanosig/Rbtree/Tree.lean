import Nanosig.Lib.LinkedTree

/-! The intrusive red-black tree of ns_rbtree.c on a heap of nodes. Where the
source has a left branch and its mirror image, one body takes the side. Reading
through a null pointer, or more rounds of a loop than nodes are linked, is `none`. -/
namespace Nanosig.Rbtree
open ColoredTree LinkedTree

/- `struct ns_rbtree_root` with the nodes it can reach. `linked` counts the nodes
linked and not removed since; the source has no such field, and it only bounds
the loops. `tree->cmp` reads memory outside the tree and is an argument of `add`. -/
structure Root (α : Type) extends Heap α where
  rbLeftmost : Option α
  linked : Nat

variable {α : Type}

/- `ns_rbtree_root_init`, before any node is linked: `ns_rbtree_node_init` has
made each node its own parent. -/
def init : Root α where
  root := none
  parent := some
  color := fun _ => .red
  child := fun _ _ => none
  rbLeftmost := none
  linked := 0

variable [DecidableEq α]

/- `ns_rbtree_node_is_empty`: the word holds the node's own address, with the color bit of red. -/
def nodeIsEmpty (h : Heap α) (node : α) : Bool := h.parent node = some node ∧ h.color node = .red

def setParentColor (h : Heap α) (rb : α) (p : Option α) (color : Color) : Heap α :=
  (h.setParent rb p).setColor rb color

/- `if (rb) ns_rb_set_parent_color(rb, p, color)` -/
def setParentColorIfAny (h : Heap α) (rb : Option α) (p : Option α) (color : Color) : Heap α :=
  match rb with
  | some rb => setParentColor h rb p color
  | none => h

/- `if (rb) ns_rb_set_parent(rb, p)` -/
def setParentIfAny (h : Heap α) (rb : Option α) (p : Option α) : Heap α :=
  match rb with
  | some rb => h.setParent rb p
  | none => h

def isRed (h : Heap α) : Option α → Bool
  | some rb => h.color rb = .red
  | none => false

def changeChild (h : Heap α) (old : α) (new parent : Option α) : Heap α :=
  match parent with
  | some parent =>
      if h.child .left parent = some old then h.setChild .left parent new else h.setChild .right parent new
  | none => h.setRoot new

def rotateSetParents (h : Heap α) (old new : α) (color : Color) : Heap α :=
  let parent := h.parent old
  let h := setParentColor h new (h.parent old) (h.color old)
  let h := setParentColor h old (some new) color
  changeChild h old (some new) parent

/- Case 1 of `__ns_rb_insert`: the uncle `tmp` is red. -/
def insertFlip (h : Heap α) (parent gparent tmp : α) : Heap α :=
  let h := setParentColor h tmp (some gparent) .black
  let h := setParentColor h parent (some gparent) .black
  setParentColor h gparent (h.parent gparent) .red

/- Case 2 of `__ns_rb_insert`: `node` is the child of `parent` on the uncle's side and is
rotated over it. -/
def insertRotateAtParent (h : Heap α) (side : Side) (node parent : α) : Heap α :=
  let tmp := h.child side node
  let h := h.setChild side.other parent tmp
  let h := h.setChild side node (some parent)
  let h := setParentColorIfAny h tmp (some parent) .black
  setParentColor h parent (some node) .red

/- Case 3 of `__ns_rb_insert`: `parent` is rotated over `gparent`. -/
def insertRotateAtGparent (h : Heap α) (side : Side) (parent gparent : α) (tmp : Option α) : Heap α :=
  let h := h.setChild side gparent tmp
  let h := h.setChild side.other parent (some gparent)
  let h := setParentColorIfAny h tmp (some gparent) .black
  rotateSetParents h gparent parent .red

/- The side of `gparent` that `parent` is on, as the source tests it. -/
def sideOf (h : Heap α) (parent : Option α) (gparent : α) : Side :=
  if h.child .right gparent ≠ parent then .left else .right

/- The loop of `__ns_rb_insert`; every call is a new round. -/
def rbInsert : Nat → Heap α → α → Option α → Option (Heap α)
  | 0, _, _, _ => none
  | _ + 1, h, node, none => some (setParentColor h node none .black)
  | fuel + 1, h, node, some parent =>
      if h.color parent = .black then some h
      else (h.parent parent).bind fun gparent =>
        let side := sideOf h (some parent) gparent
        match h.child side.other gparent, isRed h (h.child side.other gparent) with
        | some tmp, true => rbInsert fuel (insertFlip h parent gparent tmp) gparent (h.parent gparent)
        | _, _ =>
            some (if h.child side.other parent = some node then
              let h := insertRotateAtParent h side node parent
              insertRotateAtGparent h side node gparent (h.child side.other node)
            else insertRotateAtGparent h side parent gparent (h.child side.other parent))

/- Case 1 of `____ns_rb_erase_color`: the sibling is red and is rotated over `parent`. -/
def eraseRotateAtParent (h : Heap α) (side : Side) (parent sibling tmp1 : α) : Heap α :=
  let h := h.setChild side.other parent (some tmp1)
  let h := h.setChild side sibling (some parent)
  let h := setParentColor h tmp1 (some parent) .black
  rotateSetParents h parent sibling .red

/- Case 3: `tmp2`, the red child of the sibling on the node's side, is rotated over the sibling. -/
def eraseRotateAtSibling (h : Heap α) (side : Side) (parent sibling tmp2 : α) : Heap α :=
  let tmp1 := h.child side.other tmp2
  let h := h.setChild side sibling tmp1
  let h := h.setChild side.other tmp2 (some sibling)
  let h := h.setChild side.other parent (some tmp2)
  setParentColorIfAny h tmp1 (some sibling) .black

/- Case 4: the sibling, whose far child `tmp1` is red, is rotated over `parent` and takes its color. -/
def eraseRotateFlip (h : Heap α) (side : Side) (parent sibling tmp1 : α) : Heap α :=
  let tmp2 := h.child side sibling
  let h := h.setChild side.other parent tmp2
  let h := h.setChild side sibling (some parent)
  let h := setParentColor h tmp1 (some sibling) .black
  let h := setParentIfAny h tmp2 (some parent)
  rotateSetParents h parent sibling .black

/- The cases under a black sibling: the heap, and the next `node` and `parent` if
the loop goes on. -/
def eraseBlackSibling (h : Heap α) (side : Side) (parent sibling : α) : Option (Heap α × Option (α × α)) :=
  let tmp1 := h.child side.other sibling
  if isRed h tmp1 then tmp1.map fun tmp1 => (eraseRotateFlip h side parent sibling tmp1, none)
  else
    let tmp2 := h.child side sibling
    if isRed h tmp2 then
      tmp2.map fun tmp2 =>
        (eraseRotateFlip (eraseRotateAtSibling h side parent sibling tmp2) side parent tmp2 sibling, none)
    else
      let h := setParentColor h sibling (some parent) .red
      if h.color parent = .red then some (h.setColor parent .black, none)
      else some (h, (h.parent parent).map fun up => (parent, up))

/- One round of `____ns_rb_erase_color`; `node` is null in the first. -/
def eraseRound (h : Heap α) (node : Option α) (parent : α) : Option (Heap α × Option (α × α)) :=
  let side := sideOf h node parent
  (h.child side.other parent).bind fun sibling =>
    if h.color sibling = .red then
      (h.child side sibling).bind fun tmp1 =>
        eraseBlackSibling (eraseRotateAtParent h side parent sibling tmp1) side parent tmp1
    else eraseBlackSibling h side parent sibling

def rbEraseColor : Nat → Heap α → Option α → α → Option (Heap α)
  | 0, _, _, _ => none
  | fuel + 1, h, node, parent =>
      match eraseRound h node parent with
      | some (h, some (node, parent)) => rbEraseColor fuel h (some node) parent
      | some (h, none) => some h
      | none => none

/- The loop of `__ns_rb_del` that looks for the successor: it and its parent. -/
def successorFrom : Nat → Heap α → α → α → Option (α × α)
  | 0, _, _, _ => none
  | fuel + 1, h, successor, tmp =>
      match h.child .left tmp with
      | some next => successorFrom fuel h tmp next
      | none => some (tmp, successor)

/- Cases 2 and 3 of `__ns_rb_del`, up to the place where they join: the heap,
`successor`, `parent` and `child2`. -/
def detachSuccessor (fuel : Nat) (h : Heap α) (child : α) : Option (Heap α × α × α × Option α) :=
  match h.child .left child with
  | none => some (h, child, child, h.child .right child)
  | some tmp =>
      (successorFrom fuel h child tmp).map fun (successor, parent) =>
        let child2 := h.child .right successor
        let h := h.setChild .left parent child2
        let h := h.setChild .right successor (some child)
        (h.setParent child (some successor), successor, parent, child2)

/- The end of cases 2 and 3: the successor takes the place of `node`. -/
def replaceBySuccessor (h : Heap α) (node successor parent : α) (child2 : Option α) :
    Option (Heap α × Option α) :=
  (h.child .left node).map fun tmp =>
    let h := h.setChild .left successor (some tmp)
    let h := h.setParent tmp (some successor)
    let (pcParent, pcColor) := (h.parent node, h.color node)
    let h := changeChild h node (some successor) pcParent
    match child2 with
    | some child2 =>
        let h := setParentColor h child2 (some parent) .black
        (setParentColor h successor pcParent pcColor, none)
    | none =>
        let rebalance := if h.color successor = .black then some parent else none
        (setParentColor h successor pcParent pcColor, rebalance)

/- `__ns_rb_del`: the heap and the node to rebalance from. -/
def rbDel (fuel : Nat) (h : Heap α) (node : α) : Option (Heap α × Option α) :=
  match h.child .right node, h.child .left node with
  | child, none =>
      let parent := h.parent node
      let h' := changeChild h node child parent
      match child with
      | some child => some (setParentColor h' child parent (h.color node), none)
      | none => some (h', if h.color node = .black then parent else none)
  | none, some tmp =>
      let h' := setParentColor h tmp (h.parent node) (h.color node)
      some (changeChild h' node (some tmp) (h.parent node), none)
  | some child, some _ =>
      (detachSuccessor fuel h child).bind fun (h, successor, parent, child2) =>
        replaceBySuccessor h node successor parent child2

/- `while (node->rb_left) node = node->rb_left;` -/
def leftmostFrom : Nat → Heap α → α → Option α
  | 0, _, _ => none
  | fuel + 1, h, node =>
      match h.child .left node with
      | some left => leftmostFrom fuel h left
      | none => some node

/- `while ((parent = ns_rb_parent(node)) && node == parent->rb_right) node = parent;` -/
def climbRight : Nat → Heap α → α → Option (Option α)
  | 0, _, _ => none
  | fuel + 1, h, node =>
      match h.parent node with
      | some parent => if h.child .right parent = some node then climbRight fuel h parent else some (some parent)
      | none => some none

def next (fuel : Nat) (h : Heap α) (node : α) : Option (Option α) :=
  if nodeIsEmpty h node then some none
  else match h.child .right node with
    | some right => (leftmostFrom fuel h right).map some
    | none => climbRight fuel h node

def nodeInit (h : Heap α) (node : α) : Heap α :=
  let h := setParentColor h node (some node) .red
  (h.setChild .left node none).setChild .right node none

/- `ns_rbtree_del`: the tree and the new leftmost node, if the old one was removed. -/
def del (t : Root α) (node : α) : Option (Root α × Option α) :=
  let wasLeftmost := t.rbLeftmost = some node
  (if wasLeftmost then next t.linked t.toHeap node else some none).bind fun leftmost =>
    (rbDel t.linked t.toHeap node).bind fun (h, rebalance) =>
      (match rebalance with
        | some parent => rbEraseColor t.linked h none parent
        | none => some h).map fun h =>
        ({ toHeap := nodeInit h node
           rbLeftmost := if wasLeftmost then leftmost else t.rbLeftmost
           linked := t.linked - 1 }, leftmost)

def readLink (h : Heap α) : Option (α × Side) → Option α
  | some (parent, side) => h.child side parent
  | none => h.root

/- The search loop of `ns_rbtree_add`. The place is `parent` and the side of it
that `link` points to, or none while `link` points to the root. -/
def addSearch (cmp : α → α → Int) (node : α) (h : Heap α) :
    Nat → Option (α × Side) → Bool → Option (Option (α × Side) × Bool)
  | 0, _, _ => none
  | fuel + 1, link, leftmost =>
      match readLink h link with
      | some parent =>
          if cmp node parent < 0 then addSearch cmp node h fuel (some (parent, .left)) leftmost
          else addSearch cmp node h fuel (some (parent, .right)) false
      | none => some (link, leftmost)

def linkNode (h : Heap α) (node : α) (link : Option (α × Side)) : Heap α :=
  let h := setParentColor h node (link.map Prod.fst) .red
  let h := (h.setChild .left node none).setChild .right node none
  match link with
  | some (parent, side) => h.setChild side parent (some node)
  | none => h.setRoot (some node)

/- `ns_rbtree_add`: the tree, and the node if it became the leftmost. -/
def add (cmp : α → α → Int) (t : Root α) (node : α) : Option (Root α × Option α) :=
  (addSearch cmp node t.toHeap (t.linked + 1) none true).bind fun (link, leftmost) =>
    let h := linkNode t.toHeap node link
    (rbInsert (t.linked + 1) h node (h.parent node)).map fun h =>
      ({ toHeap := h
         rbLeftmost := if leftmost then some node else t.rbLeftmost
         linked := t.linked + 1 }, if leftmost then some node else none)

end Nanosig.Rbtree
