import Nanosig.Lib.TransitionSystem
import Nanosig.Status

/-! The hash table of the source over lists of nodes: one list for each entry of the table,
none where the entry still is to be remade (its `next` is NULL). `none` of a call is what the
source must not do: it follows a NULL link, uses memory that is freed, or gets memory that is
already in use. -/
namespace Nanosig.Hashtbl

open TransitionSystem

variable {κ : Type}

def minSize : Nat := 16

/- `fnv1a`; `fnv1a_str` computes the same of the bytes before the NUL. -/
def fnv1a (data : List UInt8) : UInt32 :=
  data.foldl (fun hash byte => (hash ^^^ byte.toUInt32) * 16777619) 2166136261

/- `linked` is false where the list node is a list of its own, as `ns_list_init` leaves it. -/
structure Node where
  hashVal : UInt32
  valueLen : UInt16
  key : List UInt8
  linked : Bool
  deriving DecidableEq

/- The table and the nodes allocated. `inserted` is for the proofs: what is inserted, by the
calls alone. -/
structure State (κ : Type) where
  table : Nat → Option (List κ)
  mask : Nat
  threshold : Nat
  count : Nat
  nodes : κ → Option Node
  inserted : List κ

/- A float; the infinities by their sign. -/
inductive LoadFactor where
  | nan
  | infinite (negative : Bool)
  | finite (value : ℚ)

def LoadFactor.clamp : LoadFactor → Option ℚ
  | .nan => none
  | .infinite negative => if negative then none else some 1
  | .finite value => if value ≤ 0 then none else if 1 < value then some 1 else some value

/- `tableAllocated` and `headAllocated` are the results of the two allocations. -/
def create (loadFactor : LoadFactor) (headAllocated tableAllocated : Bool) : Option (State κ) :=
  loadFactor.clamp.bind fun factor =>
    if headAllocated && tableAllocated then
      let threshold := ⌊minSize * factor⌋₊
      some {
        table := fun i => if i < minSize then some [] else none
        mask := minSize - 1
        threshold := if threshold = 0 then 1 else threshold
        count := 0
        nodes := fun _ => none
        inserted := [] }
    else none

def needRemake (s : State κ) (idx : Nat) : Bool := (s.table idx).isNone

def resize (s : State κ) (allocated : Bool) : State κ × Status :=
  let oldSize := s.mask + 1
  let newMask := (2 * s.mask + 1) % 2 ^ 32
  if (2 ^ 32 - 1) / 2 ≤ s.mask then (s, .nomem)
  else if allocated then
    ({ s with
      table := fun i => if i < oldSize then s.table i else none
      mask := newMask
      threshold := 2 * s.threshold % 2 ^ 32 }, .ok)
  else (s, .nomem)

section Calls

variable [DecidableEq κ]

def listRemove (table : Nat → Option (List κ)) (n : κ) : Nat → Option (List κ) :=
  fun i => (table i).map fun nodes => nodes.erase n

def listPushFront (table : Nat → Option (List κ)) (idx : Nat) (n : κ) : Option (Nat → Option (List κ)) :=
  (table idx).map fun nodes => Function.update table idx (some (n :: nodes))

/- `new` is pushed behind `old`, which is then removed. -/
def listReplace (table : Nat → Option (List κ)) (old new : κ) : Nat → Option (List κ) :=
  fun i => (table i).map fun nodes => nodes.map fun n => if n = old then new else n

/- The loop of `ns_hashtbl_try_remake` that finds the mask of the entry to remake from;
32 rounds empty every mask. -/
def remakeMask (s : State κ) (idx : Nat) : Nat → Nat → Nat
  | 0, maskTmp => maskTmp
  | fuel + 1, maskTmp =>
      if maskTmp ≠ 0 ∧ needRemake s (idx &&& maskTmp) then remakeMask s idx fuel (maskTmp >>> 1) else maskTmp

def listInit (s : State κ) (idx : Nat) : State κ :=
  if needRemake s idx then { s with table := Function.update s.table idx (some []) } else s

def remakeNode (oldIdx : Nat) (s : State κ) (pos : κ) : Option (State κ) :=
  (s.nodes pos).bind fun node =>
    let newIdx := node.hashVal.toNat &&& s.mask
    if newIdx = oldIdx then some s
    else
      let s := listInit { s with table := listRemove s.table pos } newIdx
      (listPushFront s.table newIdx pos).map fun table => { s with table := table }

def tryRemake (s : State κ) (idx : Nat) : Option (State κ) :=
  if needRemake s idx then
    let oldIdx := idx &&& remakeMask s idx 32 (s.mask >>> 1)
    (s.table oldIdx).bind fun nodes =>
      (nodes.foldlM (remakeNode oldIdx) s).map fun s => listInit s idx
  else some s

/- `memory` is what the allocator gives; `hashVal` and `key` are what the node holds after the
call, which `ns_hashtbl_node_new` leaves to the memory. -/
def nodeNew (s : State κ) (memory : Option κ) (hashVal : UInt32) (key : List UInt8) (valueLen : UInt16) : Option (State κ × Option κ) :=
  match memory with
  | none => some (s, none)
  | some m =>
      if (s.nodes m).isSome then none
      else some ({ s with nodes := Function.update s.nodes m (some ⟨hashVal, valueLen, key, false⟩) }, some m)

def nodeNewRefresh (s : State κ) (memory : Option κ) (key : List UInt8) (valueLen : UInt16) : Option (State κ × Option κ) :=
  nodeNew s memory (fnv1a key) key valueLen

/- A string is its bytes before the NUL, none for NULL. -/
def nodeNewWithStringRefresh (s : State κ) (memory : Option κ) (key : Option (List UInt8)) (valueLen : UInt16) :
    Option (State κ × Option κ) :=
  match key with
  | none => some (s, none)
  | some string => nodeNew s memory (fnv1a string) (string.take (string.length % 2 ^ 16)) valueLen

def nodeRenew (s : State κ) (oldNode : κ) (memory : Option κ) (valueLen : UInt16) : Option (State κ × Option κ) :=
  (s.nodes oldNode).bind fun old =>
    if old.valueLen = valueLen then some (s, some oldNode)
    else
      match memory with
      | none => some (s, none)
      | some m =>
          if (s.nodes m).isSome then none
          else
            some ({ s with
              table := if old.linked then listReplace s.table oldNode m else s.table
              nodes := Function.update (Function.update s.nodes m (some { old with valueLen := valueLen })) oldNode none
              inserted := s.inserted.map fun n => if n = oldNode then m else n }, some m)

def nodeKeyRefresh (s : State κ) (n : κ) : Option (State κ) :=
  (s.nodes n).bind fun node =>
    let hashVal := fnv1a node.key
    let s := { s with nodes := Function.update s.nodes n (some { node with hashVal := hashVal }) }
    if node.linked then
      let idx := hashVal.toNat &&& s.mask
      (tryRemake s idx).bind fun s =>
        (listPushFront (listRemove s.table n) idx n).map fun table => { s with table := table }
    else some s

/- The caller writes the key of the node and refreshes it. -/
def changeKey (s : State κ) (n : κ) (key : List UInt8) : Option (State κ) :=
  (s.nodes n).bind fun node =>
    nodeKeyRefresh { s with nodes := Function.update s.nodes n (some { node with key := key }) } n

def nodeDelete (s : State κ) (n : κ) : Option (State κ) :=
  (s.nodes n).map fun node =>
    { s with
      table := if node.linked then listRemove s.table n else s.table
      count := if node.linked then s.count - 1 else s.count
      nodes := Function.update s.nodes n none
      inserted := s.inserted.erase n }

def insert (s : State κ) (n : κ) (allocated : Bool) : Option (State κ × Status) :=
  (s.nodes n).bind fun node =>
    if node.linked then some (s, .exists)
    else
      let resized := if s.threshold ≤ (s.count + 1) % 2 ^ 32 ∧ s.mask ≠ 2 ^ 32 - 1 then resize s allocated else (s, .ok)
      if resized.2 = .ok then
        let idx := node.hashVal.toNat &&& resized.1.mask
        (tryRemake resized.1 idx).bind fun s =>
          (listPushFront s.table idx n).map fun table =>
            ({ s with
              table := table
              count := (s.count + 1) % 2 ^ 32
              nodes := Function.update s.nodes n (some { node with linked := true })
              inserted := n :: s.inserted }, .ok)
      else some resized

def remove (s : State κ) (n : κ) : Option (State κ) :=
  (s.nodes n).map fun node =>
    { s with
      table := if node.linked then listRemove s.table n else s.table
      count := if node.linked then s.count - 1 else s.count
      nodes := Function.update s.nodes n (some { node with linked := false })
      inserted := s.inserted.erase n }

def findListHead (s : State κ) (hashVal : UInt32) : Option (State κ × List κ) :=
  let idx := hashVal.toNat &&& s.mask
  (tryRemake s idx).bind fun s => (s.table idx).map fun nodes => (s, nodes)

def hasKey (s : State κ) (key : List UInt8) (n : κ) : Bool := (s.nodes n).any fun node => node.key = key

def find (s : State κ) (key : List UInt8) : Option (State κ × Status × Option κ) :=
  (findListHead s (fnv1a key)).map fun walked =>
    match walked.2.find? (hasKey walked.1 key) with
    | some n => (walked.1, .ok, some n)
    | none => (walked.1, .empty, none)

def findWithString (s : State κ) (keyStr : Option (List UInt8)) : Option (State κ × Status × Option κ) :=
  match keyStr with
  | none => some (s, .inval, none)
  | some string =>
      (findListHead s (fnv1a string)).map fun walked =>
        match walked.2.find? (hasKey walked.1 (string.take (string.length % 2 ^ 16))) with
        | some n => (walked.1, .ok, some n)
        | none => (walked.1, .empty, none)

inductive Body where
  | keep
  | remove
  | delete
  deriving DecidableEq

def runBody (s : State κ) (n : κ) : Body → Option (State κ)
  | .keep => some s
  | .remove => remove s n
  | .delete => nodeDelete s n

def forEachEntry (body : κ → Body) (chosen : State κ → κ → Bool) (s : State κ) :
    List κ → Option (State κ × List κ)
  | [] => some (s, [])
  | n :: nodes =>
      (s.nodes n).bind fun _ =>
        if chosen s n then
          (runBody s n (body n)).bind fun s =>
            (forEachEntry body chosen s nodes).map fun ended => (ended.1, n :: ended.2)
        else forEachEntry body chosen s nodes

def forEachBucket (body : κ → Body) (s : State κ) (i : Nat) : Nat → Option (State κ × List κ)
  | 0 => some (s, [])
  | rest + 1 =>
      (forEachEntry body (fun _ _ => true) s ((s.table i).getD [])).bind fun visited =>
        (forEachBucket body visited.1 (i + 1) rest).map fun ended => (ended.1, visited.2 ++ ended.2)

def forEachSafe (s : State κ) (body : κ → Body) : Option (State κ × List κ) :=
  forEachBucket body s 0 (s.mask + 1)

def forEachWithKeySafe (s : State κ) (key : List UInt8) (body : κ → Body) : Option (State κ × List κ) :=
  (findListHead s (fnv1a key)).bind fun walked => forEachEntry body (fun s => hasKey s key) walked.1 walked.2

/- The string macro compares with the whole length of the string; its hash is the same. -/
def forEachWithStringSafe (s : State κ) (string : List UInt8) (body : κ → Body) : Option (State κ × List κ) :=
  forEachWithKeySafe s string body

inductive Action (κ : Type) where
  | nodeNew (memory : Option κ) (hashVal : UInt32) (key : List UInt8) (valueLen : UInt16)
  | nodeNewRefresh (memory : Option κ) (key : List UInt8) (valueLen : UInt16)
  | nodeNewWithStringRefresh (memory : Option κ) (key : Option (List UInt8)) (valueLen : UInt16)
  | insert (n : κ) (allocated : Bool)
  | remove (n : κ)
  | nodeDelete (n : κ)
  | nodeRenew (oldNode : κ) (memory : Option κ) (valueLen : UInt16)
  | changeKey (n : κ) (key : List UInt8)
  | find (key : List UInt8)
  | findWithString (key : Option (List UInt8))
  | forEachSafe (body : κ → Body)
  | forEachWithKeySafe (key : List UInt8) (body : κ → Body)
  | forEachWithStringSafe (string : List UInt8) (body : κ → Body)

inductive Event (κ : Type) where
  | done
  | node (n : Option κ)
  | returned (rc : Status) (n : Option κ)
  | visited (nodes : List κ)
  deriving DecidableEq

def step (s : State κ) : Action κ → Option (State κ × Event κ)
  | .nodeNew memory hashVal key valueLen => (nodeNew s memory hashVal key valueLen).map fun made => (made.1, .node made.2)
  | .nodeNewRefresh memory key valueLen => (nodeNewRefresh s memory key valueLen).map fun made => (made.1, .node made.2)
  | .nodeNewWithStringRefresh memory key valueLen =>
      (nodeNewWithStringRefresh s memory key valueLen).map fun made => (made.1, .node made.2)
  | .insert n allocated => (insert s n allocated).map fun ended => (ended.1, .returned ended.2 none)
  | .remove n => (remove s n).map fun s => (s, .done)
  | .nodeDelete n => (nodeDelete s n).map fun s => (s, .done)
  | .nodeRenew oldNode memory valueLen => (nodeRenew s oldNode memory valueLen).map fun made => (made.1, .node made.2)
  | .changeKey n key => (changeKey s n key).map fun s => (s, .done)
  | .find key => (find s key).map fun found => (found.1, .returned found.2.1 found.2.2)
  | .findWithString key => (findWithString s key).map fun found => (found.1, .returned found.2.1 found.2.2)
  | .forEachSafe body => (forEachSafe s body).map fun ended => (ended.1, .visited ended.2)
  | .forEachWithKeySafe key body => (forEachWithKeySafe s key body).map fun ended => (ended.1, .visited ended.2)
  | .forEachWithStringSafe string body => (forEachWithStringSafe s string body).map fun ended => (ended.1, .visited ended.2)

/- A node is inserted with the hash of its key, which a node of `ns_hashtbl_node_new` has from
its first key refresh on; keys have at most 65535 bytes. -/
def Permitted (s : State κ) : Action κ → Prop
  | .nodeNew _ _ key _ => key.length < 2 ^ 16
  | .nodeNewRefresh _ key _ => key.length < 2 ^ 16
  | .nodeNewWithStringRefresh _ key _ => ∀ string ∈ key, string.length < 2 ^ 16
  | .insert n _ => ∀ node ∈ s.nodes n, node.hashVal = fnv1a node.key
  | .changeKey n key => ∀ node ∈ s.nodes n, key.length = node.key.length
  | .find key => key.length < 2 ^ 16
  | .findWithString key => ∀ string ∈ key, string.length < 2 ^ 16
  | .forEachWithKeySafe key _ => key.length < 2 ^ 16
  | .forEachWithStringSafe string _ => string.length < 2 ^ 16
  | _ => True

instance (s : State κ) (a : Action κ) : Decidable (Permitted s a) := by
  unfold Permitted
  split <;> infer_instance

end Calls

def Starts (s : State κ) : Prop :=
  ∃ loadFactor headAllocated tableAllocated, create loadFactor headAllocated tableAllocated = some s

end Nanosig.Hashtbl
