import Nanosig.Lib.TransitionSystem
import Nanosig.MpscRecordRing.Plan

/-! Any number of producers and one consumer on one ring, interleaved at every
atomic access and every part copy. A program counter names the next access of
its thread; what a thread computes between two accesses is done with the
access before it. `log`, `returned` and the three unbounded counters
`reserved`, `published`, `released` are history: no branch reads them. -/
namespace Nanosig.MpscRecordRing
open ByteStore

variable {ι : Type}

/- One `try_pushv` past its checks. -/
structure Push (abi : Abi) where
  parts : List (Part abi)
  recordSize : Nat

/- A successful CAS: `start` is the unbounded position behind `reservePos`. -/
structure Reservation (abi : Abi) (ι : Type) where
  producer : ι
  push : Push abi
  plan : PushPlan
  reservePos : Nat
  start : Nat

namespace Reservation

variable {abi : Abi}

def recordAt (r : Reservation abi ι) : Nat := r.start + r.plan.fakeSize

def stop (r : Reservation abi ι) : Nat := r.start + r.plan.publishSize

def payload (r : Reservation abi ι) : List UInt8 := MpscRecordRing.payload r.push.parts

end Reservation

/- The accesses after a successful CAS, in the order the source insists on;
`copy written rest` has written that many payload bytes, and with nothing left
to copy the next access is the committing store. -/
inductive WriteStage (abi : Abi) where
  | storeFake
  | markUncommitted
  | publish
  | copy (written : Nat) (rest : List (Part abi))

inductive ProducerPc (abi : Abi) (ι : Type) where
  | idle
  | loadWrite (push : Push abi)
  | loadRead (push : Push abi) (writePos : Nat) (seenPublished : Nat)
  | casReserve (push : Push abi) (writePos : Nat) (plan : PushPlan) (seenPublished seenReleased : Nat)
  | writing (stage : WriteStage abi) (reservation : Reservation abi ι)

def ProducerPc.isWriting {abi : Abi} {ι : Type} : ProducerPc abi ι → Bool
  | .writing _ _ => true
  | _ => false

theorem isWritingIff {abi : Abi} {ι : Type} {pc : ProducerPc abi ι} : pc.isWriting = true ↔ ∃ stage r, pc = .writing stage r := by
  cases pc <;> simp [ProducerPc.isWriting]

inductive ConsumerPc where
  | idle
  | acquireLoadRead
  | acquireLoadWrite (readPos : Nat)
  | acquireLoadMeta (readPos used : Nat)
  | acquireClearFake (header readPos stride : Nat)
  | acquireStoreRead (readPos stride : Nat)
  | releaseLoadRead (record : Nat)
  | releaseLoadWrite (record readPos : Nat)
  | releaseLoadMeta (header readPos used : Nat)
  | releaseClear (header readPos stride : Nat)
  | releaseStoreRead (readPos stride : Nat)
  deriving DecidableEq

/- What `try_acquire` handed out: the pointer, the size, and the bytes there. -/
structure Loan where
  record : Nat
  size : Nat
  bytes : List UInt8

structure State (abi : Abi) (ι : Type) where
  ring : Ring
  producers : ι → ProducerPc abi ι
  consumer : ConsumerPc
  held : Option Loan
  log : List (Reservation abi ι)
  returned : List (List UInt8)
  reserved : Nat
  published : Nat
  released : Nat

inductive Action (abi : Abi) (ι : Type) where
  | push (p : ι) (parts : Option (List (Part abi)))
  | producer (p : ι) (spurious : Bool)
  | acquire
  | release
  | consumer

inductive Event (ι : Type) where
  | access
  | pushReturned (p : ι) (rc : Status)
  | acquireReturned (rc : Status)
  | releaseReturned (rc : Status)
  deriving DecidableEq, Repr

variable {abi : Abi}

/- What the consumer reads through the record pointer of a loan. -/
def Loan.readable (loan : Loan) (s : State abi ι) : List UInt8 :=
  read s.ring.bytes (loan.record - s.ring.storage) loan.size

/- `ns_mpsc_record_ring_try_push`, as the parts it forwards to `try_pushv`. -/
def tryPushParts (record : Part abi) : Option (List (Part abi)) := some [record]

def State.initial (ring : Ring) : State abi ι :=
  ⟨ring, fun _ => .idle, .idle, none, [], [], 0, 0, 0⟩

def State.setProducer [DecidableEq ι] (s : State abi ι) (p : ι) (pc : ProducerPc abi ι) : State abi ι :=
  { s with producers := Function.update s.producers p pc }

/- The successful CAS from `write_pos` to the end of the plan. -/
def State.reserve [DecidableEq ι] (s : State abi ι) (p : ι) (push : Push abi) (writePos : Nat) (plan : PushPlan) :
    State abi ι :=
  let r : Reservation abi ι := ⟨p, push, plan, writePos, s.reserved⟩
  { s with
    ring := { s.ring with reservePos := abi.wrap (writePos + plan.publishSize) }
    log := s.log ++ [r]
    reserved := s.reserved + plan.publishSize }.setProducer p
      (.writing (if plan.fakeHeader.isSome then .storeFake else .markUncommitted) r)

def pushStep [DecidableEq ι] (s : State abi ι) (p : ι) (parts : Option (List (Part abi))) :
    Option (State abi ι × Event ι) :=
  match s.producers p with
  | .idle =>
      match tryPushvChecks abi s.ring parts with
      | none => some (s, .pushReturned p .inval)
      | some (parts, recordSize) => some (s.setProducer p (.loadWrite ⟨parts, recordSize⟩), .access)
  | _ => none

def writeStep [DecidableEq ι] (s : State abi ι) (p : ι) (r : Reservation abi ι) :
    WriteStage abi → State abi ι × Event ι
  | .storeFake =>
      ({ s with ring := s.ring.storeMeta abi (r.plan.fakeHeader.getD 0) (metaEncodeFake abi r.plan.fakeSize) }.setProducer
        p (.writing .markUncommitted r), .access)
  | .markUncommitted =>
      ({ s with ring := s.ring.storeMeta abi r.plan.recordHeader 0 }.setProducer p (.writing .publish r), .access)
  | .publish =>
      ({ s with
          ring := { s.ring with writePos := abi.wrap (r.reservePos + r.plan.publishSize) }
          published := s.published + r.plan.publishSize }.setProducer p (.writing (.copy 0 r.push.parts) r), .access)
  | .copy written (part :: rest) =>
      let dst := s.ring.offset (abi.wrap (r.plan.recordPos + abi.sizeofSizeT)) + written
      let ring := if part.size ≠ 0 then { s.ring with bytes := write s.ring.bytes dst part.copied } else s.ring
      ({ s with ring := ring }.setProducer p (.writing (.copy (written + part.size) rest) r), .access)
  | .copy _ [] =>
      let meta_ := metaEncodeValid abi r.plan.recordTotalSize r.plan.paddingSize
      ({ s with ring := s.ring.storeMeta abi r.plan.recordHeader meta_ }.setProducer p .idle,
        .pushReturned p .ok)

/- The next access of `ns_mpsc_record_ring_try_pushv`. The CAS is the weak one:
`spurious` makes it fail although the positions agree. -/
def producerStep [DecidableEq ι] (s : State abi ι) (p : ι) (spurious : Bool) :
    Option (State abi ι × Event ι) :=
  match s.producers p with
  | .idle => none
  | .loadWrite push => some (s.setProducer p (.loadRead push s.ring.writePos s.published), .access)
  | .loadRead push writePos seenPublished =>
      match planPush abi s.ring push.recordSize writePos s.ring.readPos with
      | none => some (s.setProducer p .idle, .pushReturned p .queueFull)
      | some plan => some (s.setProducer p (.casReserve push writePos plan seenPublished s.released), .access)
  | .casReserve push writePos plan _ _ =>
      if s.ring.reservePos = writePos ∧ spurious = false then
        some (s.reserve p push writePos plan, .access)
      else some (s.setProducer p (.loadWrite push), .access)
  | .writing stage r => some (writeStep s p r stage)

/- `ns_mpsc_record_ring_try_acquire` from its check on. -/
def acquireStep (s : State abi ι) : Option (State abi ι × Event ι) :=
  if s.consumer ≠ .idle then none
  else if !s.ring.isValid abi then some ({ s with held := none }, .acquireReturned .inval)
  else some ({ s with held := none, consumer := .acquireLoadRead }, .access)

/- `ns_mpsc_record_ring_release` on the pointer of the last acquire. -/
def releaseStep (s : State abi ι) : Option (State abi ι × Event ι) :=
  if s.consumer ≠ .idle then none
  else
    match s.held with
    | none => none
    | some loan =>
        if !s.ring.isValid abi || loan.record = 0 then some (s, .releaseReturned .inval)
        else some ({ s with consumer := .releaseLoadRead loan.record }, .access)

def acquireMetaStep (s : State abi ι) (readPos used : Nat) : State abi ι × Event ι :=
  let header := s.ring.offset readPos
  let meta_ := s.ring.loadMeta abi header
  let stride := metaStride abi meta_
  if !metaIsValid abi meta_ then ({ s with consumer := .idle }, .acquireReturned .empty)
  else if stride = 0 ∨ stride > used ∨ stride > s.ring.capacity then
    ({ s with consumer := .idle }, .acquireReturned .inval)
  else if metaIsFake abi meta_ then
    ({ s with consumer := .acquireClearFake header readPos stride }, .access)
  else
    match payloadSize abi meta_ with
    | none => ({ s with consumer := .idle }, .acquireReturned .inval)
    | some size =>
        let at_ := header + abi.sizeofSizeT
        ({ s with
            consumer := .idle
            held := some ⟨s.ring.storage + at_, size, read s.ring.bytes at_ size⟩ }, .acquireReturned .ok)

def releaseMetaStep (s : State abi ι) (header readPos used : Nat) : State abi ι × Event ι :=
  let meta_ := s.ring.loadMeta abi header
  let stride := metaStride abi meta_
  if !metaIsValid abi meta_ || metaIsFake abi meta_ then
    ({ s with consumer := .idle }, .releaseReturned .inval)
  else if stride = 0 ∨ stride > used ∨ stride > s.ring.capacity then
    ({ s with consumer := .idle }, .releaseReturned .inval)
  else
    match payloadSize abi meta_ with
    | none => ({ s with consumer := .idle }, .releaseReturned .inval)
    | some _ => ({ s with consumer := .releaseClear header readPos stride }, .access)

/- The bounds and header checks of `release`, by address; `none` is `NS_E_INVAL`. -/
def releaseHeader (abi : Abi) (ring : Ring) (record readPos : Nat) : Option Nat :=
  let storageEnd := ring.storage + ring.capacity
  if record < ring.storage + abi.sizeofSizeT ∨ record > storageEnd then none
  else if record - abi.sizeofSizeT ≠ ring.storage + ring.offset readPos then none
  else some (ring.offset readPos)

def consumerStep (s : State abi ι) : Option (State abi ι × Event ι) :=
  match s.consumer with
  | .idle => none
  | .acquireLoadRead => some ({ s with consumer := .acquireLoadWrite s.ring.readPos }, .access)
  | .acquireLoadWrite readPos =>
      let used := abi.sub s.ring.writePos readPos
      if used > s.ring.capacity then some ({ s with consumer := .idle }, .acquireReturned .corrupt)
      else if used = 0 then some ({ s with consumer := .idle }, .acquireReturned .empty)
      else some ({ s with consumer := .acquireLoadMeta readPos used }, .access)
  | .acquireLoadMeta readPos used => some (acquireMetaStep s readPos used)
  | .acquireClearFake header readPos stride =>
      some ({ s with ring := s.ring.storeMeta abi header 0, consumer := .acquireStoreRead readPos stride }, .access)
  | .acquireStoreRead readPos stride =>
      some ({ s with
          ring := { s.ring with readPos := abi.wrap (readPos + stride) }
          consumer := .acquireLoadRead
          released := s.released + stride }, .access)
  | .releaseLoadRead record => some ({ s with consumer := .releaseLoadWrite record s.ring.readPos }, .access)
  | .releaseLoadWrite record readPos =>
      let used := abi.sub s.ring.writePos readPos
      if used > s.ring.capacity then some ({ s with consumer := .idle }, .releaseReturned .corrupt)
      else if used = 0 then some ({ s with consumer := .idle }, .releaseReturned .inval)
      else
        match releaseHeader abi s.ring record readPos with
        | none => some ({ s with consumer := .idle }, .releaseReturned .inval)
        | some header => some ({ s with consumer := .releaseLoadMeta header readPos used }, .access)
  | .releaseLoadMeta header readPos used => some (releaseMetaStep s header readPos used)
  | .releaseClear header readPos stride =>
      some ({ s with ring := s.ring.storeMeta abi header 0, consumer := .releaseStoreRead readPos stride }, .access)
  | .releaseStoreRead readPos stride =>
      some ({ s with
          ring := { s.ring with readPos := abi.wrap (readPos + stride) }
          consumer := .idle
          held := none
          returned := s.returned ++ (s.held.map Loan.bytes).toList
          released := s.released + stride }, .releaseReturned .ok)

def step [DecidableEq ι] (s : State abi ι) : Action abi ι → Option (State abi ι × Event ι)
  | .push p parts => pushStep s p parts
  | .producer p spurious => producerStep s p spurious
  | .acquire => acquireStep s
  | .release => releaseStep s
  | .consumer => consumerStep s

/- No reservation succeeds after a full lap: fewer than `2^w` bytes are reserved beyond the
`write_pos` the producer loaded, those in flight at its load included. -/
def NoLap (s : State abi ι) : Action abi ι → Prop
  | .producer p _ =>
      match s.producers p with
      | .casReserve _ _ _ seenPublished _ => s.reserved < seenPublished + abi.modulus
      | _ => True
  | _ => True

instance (s : State abi ι) (a : Action abi ι) : Decidable (NoLap s a) := by
  unfold NoLap
  split
  · split <;> infer_instance
  · infer_instance

def Starts (abi : Abi) (s : State abi ι) : Prop :=
  ∃ storage bytes capacity ring, init abi storage bytes capacity = some ring ∧ s = .initial ring

abbrev Reachable [DecidableEq ι] (s : State abi ι) : Prop :=
  TransitionSystem.Reachable (Starts abi) step (fun _ _ => True) s

/- The states reached while no reservation is a full lap late. -/
abbrev ReachableNoLap [DecidableEq ι] (s : State abi ι) : Prop :=
  TransitionSystem.Reachable (Starts abi) step NoLap s

end Nanosig.MpscRecordRing
