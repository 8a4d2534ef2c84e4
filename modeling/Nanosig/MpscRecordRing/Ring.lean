import Nanosig.Status
import Nanosig.Lib.ByteStore
import Nanosig.MpscRecordRing.Meta

/-! The ring object of `ns_mpsc_record_ring.c` and its pure helpers: capacity
and argument checks, offsets, and the plan a producer makes from one snapshot
of the two positions. The three positions are `size_t` counters. -/
namespace Nanosig.MpscRecordRing
open ByteStore

/- `storage` is the address the caller passed, `bytes` what lies there. -/
structure Ring where
  reservePos : Nat
  writePos : Nat
  readPos : Nat
  storage : Nat
  bytes : Store
  capacity : Nat

/- One scatter-gather part. A non-NULL `data` points at `size` readable bytes. -/
structure Part (abi : Abi) where
  data : Option (List UInt8)
  size : Nat
  sizeFits : size < abi.modulus
  readable : ∀ raw, data = some raw → raw.length = size

def Part.copied {abi : Abi} (part : Part abi) : List UInt8 := part.data.getD []

def Part.null (abi : Abi) : Part abi :=
  ⟨none, 0, abi.modulusPos, fun _ h => nomatch h⟩

def Part.ofBytes {abi : Abi} (raw : List UInt8) (fits : raw.length < abi.modulus) : Part abi :=
  ⟨some raw, raw.length, fits, fun _ h => congrArg List.length (Option.some.inj h).symm⟩

def payload {abi : Abi} (parts : List (Part abi)) : List UInt8 := parts.flatMap Part.copied

variable (abi : Abi)

/- `ns_align_up(value, NS_MPSC_RECORD_RING_ALIGNMENT)`. -/
def alignUp (value : Nat) : Nat :=
  abi.wrap (value + (abi.sizeofSizeT - 1)) / abi.sizeofSizeT * abi.sizeofSizeT

def capacityIsValid (capacity : Nat) : Bool :=
  if capacity = 0 then false
  else if capacity &&& (capacity - 1) ≠ 0 then false
  else if capacity > abi.sizeMax / 2 then false
  else if capacity < abi.sizeofSizeT * 3 then false
  else if capacity / 2 > abi.metaStrideMask then false
  else true

def storageIsAligned (storage : Nat) : Bool := storage &&& (abi.sizeofSizeT - 1) = 0

namespace Ring

def isValid (ring : Ring) : Bool := ring.storage ≠ 0 && capacityIsValid abi ring.capacity

def offset (ring : Ring) (pos : Nat) : Nat := pos &&& (ring.capacity - 1)

def loadMeta (ring : Ring) (header : Nat) : Nat := loadWord abi.sizeofSizeT ring.bytes header

def storeMeta (ring : Ring) (header value : Nat) : Ring :=
  { ring with bytes := storeWord abi.sizeofSizeT ring.bytes header value }

def maxRecordSize (ring : Ring) : Nat :=
  if !ring.isValid abi then 0
  else
    let headerTotal := alignUp abi abi.sizeofSizeT
    if ring.capacity ≤ headerTotal then 0 else ring.capacity / 2 - headerTotal

end Ring

/- `ns_mpsc_record_ring_init`; `none` is `NS_E_INVAL`. The loop marks the header
of every aligned slot uncommitted. -/
def init (storage : Nat) (bytes : Store) (capacity : Nat) : Option Ring :=
  if storage = 0 then none
  else if !storageIsAligned abi storage then none
  else if !capacityIsValid abi capacity then none
  else
    let slots := (List.range (capacity / abi.sizeofSizeT)).map (· * abi.sizeofSizeT)
    some ⟨0, 0, 0, storage, slots.foldl (fun m slot => storeWord abi.sizeofSizeT m slot 0) bytes, capacity⟩

def recordTotal (recordSize : Nat) : Nat := alignUp abi (abi.wrap (abi.sizeofSizeT + recordSize))

structure PushPlan where
  recordSize : Nat
  recordTotalSize : Nat
  publishSize : Nat
  paddingSize : Nat
  fakeSize : Nat
  recordPos : Nat
  fakeHeader : Option Nat
  recordHeader : Nat
  deriving DecidableEq, Repr

/- `ns_mpsc_record_ring_plan_push`; headers are offsets into storage and `none`
is the `false` return. -/
def planPush (ring : Ring) (recordSize writePos readPos : Nat) : Option PushPlan :=
  let used := abi.sub writePos readPos
  if used > ring.capacity then none
  else
    let freeCapacity := ring.capacity - used
    let totalSize := recordTotal abi recordSize
    if totalSize > ring.capacity / 2 then none
    else
      let offset := ring.offset writePos
      let tailSize := ring.capacity - offset
      let fakeSize := if offset ≠ 0 ∧ totalSize > tailSize then tailSize else 0
      let publishSize := abi.wrap (fakeSize + totalSize)
      if freeCapacity < publishSize then none
      else
        let recordPos := abi.wrap (writePos + fakeSize)
        some
          { recordSize := recordSize
            recordTotalSize := totalSize
            publishSize := publishSize
            paddingSize := abi.sub (abi.sub totalSize abi.sizeofSizeT) recordSize
            fakeSize := fakeSize
            recordPos := recordPos
            fakeHeader := if fakeSize ≠ 0 then some (ring.offset writePos) else none
            recordHeader := ring.offset recordPos }

/- The size loop of `ns_mpsc_record_ring_try_pushv`, with its NULL and overflow
checks; `none` is `NS_E_INVAL`. -/
def sumParts : Nat → List (Part abi) → Option Nat
  | recordSize, [] => some recordSize
  | recordSize, part :: rest =>
      if part.data.isNone ∧ part.size ≠ 0 then none
      else
        let next := abi.wrap (recordSize + part.size)
        if next < recordSize then none else sumParts next rest

/- What `ns_mpsc_record_ring_try_pushv` checks before it touches a position: the
parts it will copy (a zero `part_count` pushes one NULL part of size 0) and
their total size, or `none` for `NS_E_INVAL`. A NULL `parts` is `none`. -/
def tryPushvChecks (ring : Ring) (parts : Option (List (Part abi))) : Option (List (Part abi) × Nat) :=
  match parts with
  | none => none
  | some parts =>
      if !ring.isValid abi then none
      else
        let parts := if parts.isEmpty then [Part.null abi] else parts
        match sumParts abi 0 parts with
        | none => none
        | some recordSize =>
            if recordSize > ring.maxRecordSize abi then none else some (parts, recordSize)

end Nanosig.MpscRecordRing
