import Nanosig.Lib.CircularLists
import Nanosig.Lib.TransitionSystem

/-! The intrusive doubly linked lists of nanosig_list.h. A head and a node are of one type, so
one memory holds them all; beside it stand the node sequences that the calls prescribe. -/
namespace Nanosig.Lists
open CircularList

variable {α : Type} [DecidableEq α]

def pushFront (l : Links α) (head node : α) : Option (Links α) :=
  (l.next head).map fun first => l.insertBetween node head first

def back (l : Links α) (head : α) : Option α := if l.empty head then none else l.prev head

def popBack (l : Links α) (head : α) : Option (Option α × Links α) :=
  match back l head with
  | none => some (none, l)
  | some node => (l.remove node).map fun l => (some node, l)

def moveBack (l : Links α) (head node : α) : Option (Links α) :=
  (l.remove node).bind fun l => l.pushBack head node

def spliceBackInit (l : Links α) (head other : α) : Option (Links α) :=
  if l.empty other then some l
  else if head = other then some l
  else
    (l.next other).bind fun first =>
      (l.prev other).bind fun last =>
        let l := l.setPrev first (l.prev head)
        (l.prev head).map fun tail =>
          let l := l.setNext tail (some first)
          let l := l.setNext last (some head)
          let l := l.setPrev head (some last)
          l.init other

inductive Direction where
  | forward
  | backward
  deriving DecidableEq

def follow (d : Direction) (l : Links α) (node : α) : Option α :=
  match d with
  | .forward => l.next node
  | .backward => l.prev node

/- The loop of `ns_list_for_each` and `ns_list_for_each_prev`, with the nodes visited so far. -/
def forEachFrom (d : Direction) (l : Links α) (head : α) : Nat → α → List α → Option (List α)
  | 0, _, _ => none
  | fuel + 1, pos, visited =>
      if pos = head then some visited
      else (follow d l pos).bind fun next => forEachFrom d l head fuel next (visited ++ [pos])

def forEach (d : Direction) (l : Links α) (head : α) (fuel : Nat) : Option (List α) :=
  (follow d l head).bind fun pos => forEachFrom d l head fuel pos []

inductive Act (α : Type) where
  | keep
  | remove
  | removeInit
  | moveBack (target : α)

def Act.run (l : Links α) (node : α) : Act α → Option (Links α)
  | .keep => some l
  | .remove => l.remove node
  | .removeInit => l.removeInit node
  | .moveBack target => Lists.moveBack l target node

/- The loop of `ns_list_for_each_safe` and `ns_list_for_each_prev_safe`: `n` is read before the body
runs, and once more behind the last node, where it is the head. -/
def forEachSafeFrom (d : Direction) (head : α) (body : α → Act α) : Nat → Links α → α → α → List α → Option (Links α × List α)
  | 0, _, _, _, _ => none
  | fuel + 1, l, pos, n, visited =>
      if pos = head then some (l, visited)
      else ((body pos).run l pos).bind fun l =>
        (follow d l n).bind fun next => forEachSafeFrom d head body fuel l n next (visited ++ [pos])

def forEachSafe (d : Direction) (l : Links α) (head : α) (body : α → Act α) (fuel : Nat) : Option (Links α × List α) :=
  (follow d l head).bind fun pos =>
    (follow d l pos).bind fun n => forEachSafeFrom d head body fuel l pos n []

inductive Call (α : Type) where
  | init (head : α)
  | pushFront (head node : α)
  | pushBack (head node : α)
  | remove (node : α)
  | removeInit (node : α)
  | popFront (head : α)
  | popBack (head : α)
  | moveBack (head node : α)
  | spliceBackInit (head other : α)
  | front (head : α)
  | back (head : α)
  | empty (head : α)
  | forEach (d : Direction) (head : α) (fuel : Nat)
  | forEachSafe (d : Direction) (head : α) (body : α → Act α) (fuel : Nat)

inductive Reply (α : Type) where
  | nothing
  | flag (flag : Bool)
  | node (node : Option α)
  | visited (nodes : List α)
  deriving DecidableEq

def Call.run (l : Links α) : Call α → Option (Links α × Reply α)
  | .init head => some (l.init head, .nothing)
  | .pushFront head node => (Lists.pushFront l head node).map (·, .nothing)
  | .pushBack head node => (l.pushBack head node).map (·, .nothing)
  | .remove node => (l.remove node).map (·, .nothing)
  | .removeInit node => (l.removeInit node).map (·, .nothing)
  | .popFront head => (l.popFront head).map fun (node, l) => (l, .node node)
  | .popBack head => (Lists.popBack l head).map fun (node, l) => (l, .node node)
  | .moveBack head node => (Lists.moveBack l head node).map (·, .nothing)
  | .spliceBackInit head other => (Lists.spliceBackInit l head other).map (·, .nothing)
  | .front head => some (l, .node (l.front head))
  | .back head => some (l, .node (Lists.back l head))
  | .empty head => some (l, .flag (l.empty head))
  | .forEach d head fuel => (Lists.forEach d l head fuel).map fun nodes => (l, .visited nodes)
  | .forEachSafe d head body fuel => (Lists.forEachSafe d l head body fuel).map fun (l, nodes) => (l, .visited nodes)

def taken (lists : Contents α) (node : α) (heads : Option (List α)) : Contents α :=
  fun head => if head = node then heads else (lists head).map (·.erase node)

def put (lists : Contents α) (head node : α) (place : List α → List α) : Contents α :=
  Function.update (Function.update lists node none) head ((lists head).map place)

def moved (lists : Contents α) (head node : α) : Contents α := put (taken lists node none) head node (· ++ [node])

def inOrder (d : Direction) (nodes : List α) : List α :=
  match d with
  | .forward => nodes
  | .backward => nodes.reverse

def nodesOf (lists : Contents α) (head : α) : List α := (lists head).getD []

def Act.prescribed (lists : Contents α) (node : α) : Act α → Contents α
  | .keep => lists
  | .remove => taken lists node none
  | .removeInit => taken lists node (some [])
  | .moveBack target => moved lists target node

def Call.prescribed (lists : Contents α) : Call α → Contents α × Reply α
  | .init head => (Function.update lists head (some []), .nothing)
  | .pushFront head node => (put lists head node (node :: ·), .nothing)
  | .pushBack head node => (put lists head node (· ++ [node]), .nothing)
  | .remove node => (taken lists node none, .nothing)
  | .removeInit node => (taken lists node (some []), .nothing)
  | .popFront head =>
      ((nodesOf lists head).head?.elim lists (taken lists · none), .node (nodesOf lists head).head?)
  | .popBack head =>
      ((nodesOf lists head).getLast?.elim lists (taken lists · none), .node (nodesOf lists head).getLast?)
  | .moveBack head node => (moved lists head node, .nothing)
  | .spliceBackInit head other =>
      (if head = other then lists
        else Function.update (Function.update lists other (some [])) head (some (nodesOf lists head ++ nodesOf lists other)), .nothing)
  | .front head => (lists, .node (nodesOf lists head).head?)
  | .back head => (lists, .node (nodesOf lists head).getLast?)
  | .empty head => (lists, .flag (nodesOf lists head).isEmpty)
  | .forEach d head _ => (lists, .visited (inOrder d (nodesOf lists head)))
  | .forEachSafe d head body _ =>
      ((inOrder d (nodesOf lists head)).foldl (fun lists node => (body node).prescribed lists node) lists,
        .visited (inOrder d (nodesOf lists head)))

structure State (α : Type) where
  links : Links α
  lists : Contents α

def step (s : State α) (call : Call α) : Option (State α × Reply α) :=
  (call.run s.links).map fun (links, reply) => (⟨links, (call.prescribed s.lists).1⟩, reply)

def Starts (s : State α) : Prop := s.lists = fun _ => none

def Head (lists : Contents α) (head : α) : Prop := (lists head).isSome

def Member (lists : Contents α) (node : α) : Prop := ∃ head xs, lists head = some xs ∧ node ∈ xs

/- In no list; at most it heads an empty one. -/
def Linkable (lists : Contents α) (node : α) : Prop := ¬Member lists node ∧ (lists node = none ∨ lists node = some [])

def Removable (lists : Contents α) (node : α) : Prop := Member lists node ∨ (¬Member lists node ∧ lists node = some [])

/- The preconditions the header states: heads are initialized, nodes to link are in no list, nodes to
remove are in one, and a traversal, which has the time it needs, does not link nodes to the list it walks. -/
def Allowed (s : State α) : Call α → Prop
  | .init head => ¬Member s.lists head
  | .pushFront head node => Head s.lists head ∧ head ≠ node ∧ Linkable s.lists node
  | .pushBack head node => Head s.lists head ∧ head ≠ node ∧ Linkable s.lists node
  | .remove node => Removable s.lists node
  | .removeInit node => Removable s.lists node
  | .popFront head => Head s.lists head
  | .popBack head => Head s.lists head
  | .moveBack head node => Head s.lists head ∧ head ≠ node ∧ Removable s.lists node
  | .spliceBackInit head other => Head s.lists head ∧ Head s.lists other
  | .front head => Head s.lists head
  | .back head => Head s.lists head
  | .empty head => Head s.lists head
  | .forEach _ head fuel => Head s.lists head ∧ (nodesOf s.lists head).length < fuel
  | .forEachSafe _ head body fuel => Head s.lists head ∧ (nodesOf s.lists head).length < fuel ∧
      ∀ node ∈ nodesOf s.lists head, ∀ target, body node = .moveBack target → target ≠ head ∧ Head s.lists target

end Nanosig.Lists
