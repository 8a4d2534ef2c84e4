import Nanosig.Lib.LinkedPath
import Nanosig.Lib.TransitionSystem

/-! The intrusive singly linked lists of nanosig_slist.h, and beside the memory the node
sequences that the calls prescribe. -/
namespace Nanosig.Slist

/- What an `ns_slist_node_t *` of a traversal can point to: `ns_slist_for_each_safe` takes the
head of a list for a node. -/
inductive Place (η α : Type) where
  | head (list : η)
  | node (node : α)
  deriving DecidableEq

/- The field `next` of a node, which is also the `first` of a head, and the `last` of a head. -/
structure Memory (η α : Type) where
  next : Place η α → Option α
  last : η → Option (Place η α)

variable {η α : Type} [DecidableEq η] [DecidableEq α]

def Memory.setNext (m : Memory η α) (p : Place η α) (target : Option α) : Memory η α :=
  { m with next := Function.update m.next p target }

def Memory.setLast (m : Memory η α) (list : η) (target : Option (Place η α)) : Memory η α :=
  { m with last := Function.update m.last list target }

def init (m : Memory η α) (list : η) : Memory η α := (m.setNext (.head list) none).setLast list none

def headMoveInit (m : Memory η α) (oldList newList : η) : Memory η α :=
  let m := m.setNext (.head newList) (m.next (.head oldList))
  let m := m.setLast newList (m.last oldList)
  let m := m.setNext (.head oldList) none
  m.setLast oldList none

def nodeInit (m : Memory η α) (node : α) : Memory η α := m.setNext (.node node) none

def empty (m : Memory η α) (list : η) : Bool := (m.next (.head list)).isNone

def pushFront (m : Memory η α) (list : η) (node : α) : Memory η α × Bool :=
  let wasEmpty := empty m list
  let m := m.setNext (.node node) (m.next (.head list))
  let m := m.setNext (.head list) (some node)
  (if m.last list = none then m.setLast list (some (.node node)) else m, wasEmpty)

def pushBack (m : Memory η α) (list : η) (node : α) : Memory η α × Bool :=
  let wasEmpty := empty m list
  let m := m.setNext (.node node) none
  match m.last list with
  | none => ((m.setNext (.head list) (some node)).setLast list (some (.node node)), wasEmpty)
  | some last => ((m.setNext last (some node)).setLast list (some (.node node)), wasEmpty)

def addBatch (m : Memory η α) (newFirst newLast : α) (list : η) : Memory η α × Bool :=
  let wasEmpty := empty m list
  let m := m.setNext (.node newLast) (m.next (.head list))
  let m := m.setNext (.head list) (some newFirst)
  (if wasEmpty then m.setLast list (some (.node newLast)) else m, wasEmpty)

def addBatchTail (m : Memory η α) (newFirst newLast : α) (list : η) : Memory η α × Bool :=
  let wasEmpty := empty m list
  let m := m.setNext (.node newLast) none
  match m.last list with
  | none => ((m.setNext (.head list) (some newFirst)).setLast list (some (.node newLast)), wasEmpty)
  | some last => ((m.setNext last (some newFirst)).setLast list (some (.node newLast)), wasEmpty)

def insert (m : Memory η α) (prev : Option α) (node : α) (list : η) : Memory η α :=
  match prev with
  | none => (pushFront m list node).1
  | some prev =>
      let m := m.setNext (.node node) (m.next (.node prev))
      let m := m.setNext (.node prev) (some node)
      if m.next (.node node) = none then m.setLast list (some (.node node)) else m

def popFront (m : Memory η α) (list : η) : Memory η α × Option α :=
  match m.next (.head list) with
  | none => (m, none)
  | some node =>
      let m := m.setNext (.head list) (m.next (.node node))
      let m := if m.next (.head list) = none then m.setLast list none else m
      (nodeInit m node, some node)

def removeAfter (m : Memory η α) (list : η) (prev : Option α) : Memory η α × Option α :=
  let place : Place η α := prev.elim (.head list) .node
  match m.next place with
  | none => (m, none)
  | some node =>
      let m := m.setNext place (m.next (.node node))
      let m := if m.last list = some (.node node) then m.setLast list (prev.map .node) else m
      (nodeInit m node, some node)

def delNodeInForEachSafe (m : Memory η α) (list : η) (prev : Option (Place η α)) (next : Option α) : Memory η α :=
  let m := m.setNext (prev.getD (.head list)) next
  if next = none then m.setLast list (if m.next (.head list) = none then none else prev) else m

def appendList (m : Memory η α) (list other : η) : Memory η α :=
  if empty m other then m
  else
    let m :=
      if empty m list then (m.setNext (.head list) (m.next (.head other))).setLast list (m.last other)
      else
        let m := match m.last list with
          | some last => m.setNext last (m.next (.head other))
          | none => m
        m.setLast list (m.last other)
    init m other

/- What the body of a traversal does with the nodes: which ones it deletes, and what it leaves
in the field `next` of a node it has deleted, which is its own again. -/
structure Body (α : Type) where
  deletes : α → Bool
  leaves : α → Option α → Option α

/- The loop of `ns_slist_for_each_safe`, with the nodes visited so far. -/
def forEachSafeFrom (list : η) (body : Body α) : Nat → Memory η α → Place η α → Option α → List α → Option (Memory η α × List α)
  | 0, _, _, _, _ => none
  | _ + 1, m, _, none, visited => some (m, visited)
  | fuel + 1, m, prev, some pos, visited =>
      let next := m.next (.node pos)
      let m :=
        if body.deletes pos then
          let m := delNodeInForEachSafe m list (some prev) next
          m.setNext (.node pos) (body.leaves pos (m.next (.node pos)))
        else m
      let prev := if m.next prev = next then prev else .node pos
      forEachSafeFrom list body fuel m prev next (visited ++ [pos])

/- `ns_slist_for_each_safe` with the head of the list, or with a node of it. -/
def forEachSafe (m : Memory η α) (list : η) (start : Option α) (body : Body α) (fuel : Nat) : Option (Memory η α × List α) :=
  let head : Place η α := start.elim (.head list) .node
  forEachSafeFrom list body fuel m head (m.next head) []

inductive Call (η α : Type) where
  | init (list : η)
  | headMoveInit (oldList newList : η)
  | write (node : α) (next : Option α)
  | pushFront (list : η) (node : α)
  | pushBack (list : η) (node : α)
  | addBatch (newFirst newLast : α) (list : η) (batch : List α)
  | addBatchTail (newFirst newLast : α) (list : η) (batch : List α)
  | insert (prev : Option α) (node : α) (list : η)
  | popFront (list : η)
  | removeAfter (list : η) (prev : Option α)
  | appendList (list other : η)
  | forEachSafe (list : η) (start : Option α) (body : Body α) (fuel : Nat)

inductive Reply (α : Type) where
  | nothing
  | wasEmpty (flag : Bool)
  | node (node : Option α)
  | visited (nodes : List α)
  deriving DecidableEq

def Call.run (m : Memory η α) : Call η α → Option (Memory η α × Reply α)
  | .init list => some (Slist.init m list, .nothing)
  | .headMoveInit oldList newList => some (Slist.headMoveInit m oldList newList, .nothing)
  | .write node next => some (m.setNext (.node node) next, .nothing)
  | .pushFront list node => let (m, flag) := Slist.pushFront m list node; some (m, .wasEmpty flag)
  | .pushBack list node => let (m, flag) := Slist.pushBack m list node; some (m, .wasEmpty flag)
  | .addBatch newFirst newLast list _ => let (m, flag) := Slist.addBatch m newFirst newLast list; some (m, .wasEmpty flag)
  | .addBatchTail newFirst newLast list _ => let (m, flag) := Slist.addBatchTail m newFirst newLast list; some (m, .wasEmpty flag)
  | .insert prev node list => some (Slist.insert m prev node list, .nothing)
  | .popFront list => let (m, node) := Slist.popFront m list; some (m, .node node)
  | .removeAfter list prev => let (m, node) := Slist.removeAfter m list prev; some (m, .node node)
  | .appendList list other => some (Slist.appendList m list other, .nothing)
  | .forEachSafe list start body fuel =>
      (Slist.forEachSafe m list start body fuel).map fun (m, nodes) => (m, .visited nodes)

def upTo (prev : Option α) (nodes : List α) : List α :=
  match prev with
  | none => []
  | some node => nodes.takeWhile (· ≠ node) ++ [node]

def behind (prev : Option α) (nodes : List α) : List α :=
  match prev with
  | none => nodes
  | some node => (nodes.dropWhile (· ≠ node)).tail

def Call.prescribed (lists : η → List α) : Call η α → (η → List α) × Reply α
  | .init list => (Function.update lists list [], .nothing)
  | .headMoveInit oldList newList =>
      (Function.update (Function.update lists newList (lists oldList)) oldList [], .nothing)
  | .write _ _ => (lists, .nothing)
  | .pushFront list node => (Function.update lists list (node :: lists list), .wasEmpty (lists list).isEmpty)
  | .pushBack list node => (Function.update lists list (lists list ++ [node]), .wasEmpty (lists list).isEmpty)
  | .addBatch _ _ list batch => (Function.update lists list (batch ++ lists list), .wasEmpty (lists list).isEmpty)
  | .addBatchTail _ _ list batch => (Function.update lists list (lists list ++ batch), .wasEmpty (lists list).isEmpty)
  | .insert prev node list =>
      (Function.update lists list (upTo prev (lists list) ++ node :: behind prev (lists list)), .nothing)
  | .popFront list => (Function.update lists list (lists list).tail, .node (lists list).head?)
  | .removeAfter list prev =>
      (Function.update lists list (upTo prev (lists list) ++ (behind prev (lists list)).tail), .node (behind prev (lists list)).head?)
  | .appendList list other =>
      (Function.update (Function.update lists list (lists list ++ lists other)) other [], .nothing)
  | .forEachSafe list start body _ =>
      (Function.update lists list (upTo start (lists list) ++ (behind start (lists list)).filter (¬body.deletes ·)),
        .visited (behind start (lists list)))

structure State (η α : Type) where
  memory : Memory η α
  lists : η → List α

def step (s : State η α) (call : Call η α) : Option (State η α × Reply α) :=
  (call.run s.memory).map fun (memory, reply) => (⟨memory, (call.prescribed s.lists).1⟩, reply)

/- The lists are initialized; what the nodes hold does not matter. -/
def Starts (s : State η α) : Prop := ∀ list, s.memory.next (.head list) = none ∧ s.memory.last list = none ∧ s.lists list = []

def Unlinked (lists : η → List α) (node : α) : Prop := ∀ list, node ∉ lists list

/- The links lead from `newFirst` over the batch to `newLast`; what `newLast` links to does not matter. -/
structure IsBatch (s : State η α) (newFirst newLast : α) (batch : List α) : Prop where
  first : batch.head? = some newFirst
  last : batch.getLast? = some newLast
  linked : LinkedPath.Path Place.node s.memory.next (.node newFirst) batch.tail (s.memory.next (.node newLast))
  distinct : batch.Nodup
  unlinked : ∀ node ∈ batch, Unlinked s.lists node

/- The preconditions: nodes to link are in no list, a predecessor is in the list, and a
traversal has the time it needs. -/
def Allowed (s : State η α) : Call η α → Prop
  | .init _ => True
  | .headMoveInit _ _ => True
  | .write node _ => Unlinked s.lists node
  | .pushFront _ node => Unlinked s.lists node
  | .pushBack _ node => Unlinked s.lists node
  | .addBatch newFirst newLast _ batch => IsBatch s newFirst newLast batch
  | .addBatchTail newFirst newLast _ batch => IsBatch s newFirst newLast batch
  | .insert prev node list => Unlinked s.lists node ∧ ∀ p, prev = some p → p ∈ s.lists list
  | .popFront _ => True
  | .removeAfter list prev => ∀ p, prev = some p → p ∈ s.lists list
  | .appendList list other => list ≠ other
  | .forEachSafe list start _ fuel => (∀ p, start = some p → p ∈ s.lists list) ∧ (s.lists list).length < fuel

end Nanosig.Slist
