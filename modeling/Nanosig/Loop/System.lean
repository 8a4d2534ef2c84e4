import Nanosig.MpscRecordRing.Calls
import Nanosig.Signal.SlotCall

/-! One event loop with everything that touches it: any number of threads in
`ns_signal_emit_raw`, `ns_loop_quit` and `ns_loop_run`, the background worker,
and the one thread that calls `ns_loop_start` and `ns_loop_stop` in turn. The
steps are the accesses of the ring and each access to the loop's own fields
and wakeup. The runtime is initialised; connections to other loops and the
signal's mutex, which only orders emitters, are left out. -/
namespace Nanosig.Loop
open MpscRecordRing Signal

variable {abi : Abi} {ι κ τ : Type}

/- Inside `try_pushv` for one connection, or before its wakeup signal; `rest`
are the connections after it. -/
inductive EmitterPc (abi : Abi) where
  | idle
  | pushing (slot : Slot abi) (rest : List (Slot abi)) (payload : Part abi)
  | signaling (rest : List (Slot abi)) (payload : Part abi)

/- Where a thread is in `ns_loop_run_impl`. `storeRc` and `exited` belong to
`ns_loop_async_entry`; `out` is a thread not in the function. -/
inductive RunPc where
  | out
  | casRunning
  | acquire
  | slotCall
  | inSlot
  | release
  | testQuit
  | wait
  | resetQuit
  | clearRunning (rc : Status)
  | storeRc (rc : Status)
  | exited
  deriving DecidableEq

/- The caller of `ns_loop_start` and `ns_loop_stop`; each name is the next access. -/
inductive ControlPc where
  | idle
  | startThread
  | startSet
  | stopQuit
  | stopSignal
  | stopJoin
  | stopClear
  deriving DecidableEq

/- `activations none` is the background worker. A quitter is `true` between its
store and its wakeup signal; `signaled` is the latch of the wakeup. -/
structure State (abi : Abi) (ι κ τ : Type) where
  ring : MpscRecordRing.State abi ι
  emitters : ι → EmitterPc abi
  activations : Option τ → RunPc
  quitters : κ → Bool
  control : ControlPc
  quitRequested : Bool
  running : Bool
  asyncStarted : Bool
  asyncRc : Status
  signaled : Bool

/- `rc` is what a platform call inside the step reports. -/
inductive Action (abi : Abi) (ι κ τ : Type) where
  | emit (e : ι) (payloadSize : Nat) (slots : List (Slot abi)) (payload : Part abi)
  | emitter (e : ι) (spurious : Bool)
  | quit (k : κ)
  | quitter (k : κ)
  | run (t : τ)
  | activation (t : Option τ) (rc : Status)
  | start
  | stop
  | control (rc : Status)

inductive Event (ι κ τ : Type) where
  | access
  | called (slot : SlotInvocation)
  | emitReturned (e : ι) (rc : Status)
  | quitReturned (k : κ) (rc : Status)
  | runReturned (t : τ) (rc : Status)
  | startReturned (rc : Status)
  | stopReturned (rc : Status)
  deriving DecidableEq

namespace State

/- What `ns_loop_create` leaves behind. -/
def initial (ring : MpscRecordRing.State abi ι) : State abi ι κ τ :=
  ⟨ring, fun _ => .idle, fun _ => .out, fun _ => false, .idle, false, false, false, .ok, false⟩

def setEmitter [DecidableEq ι] (s : State abi ι κ τ) (e : ι) (pc : EmitterPc abi) : State abi ι κ τ :=
  { s with emitters := Function.update s.emitters e pc }

def setRun [DecidableEq τ] (s : State abi ι κ τ) (t : Option τ) (pc : RunPc) : State abi ι κ τ :=
  { s with activations := Function.update s.activations t pc }

def setQuitter [DecidableEq κ] (s : State abi ι κ τ) (k : κ) (pending : Bool) : State abi ι κ τ :=
  { s with quitters := Function.update s.quitters k pending }

def setRing (s : State abi ι κ τ) (ring : MpscRecordRing.State abi ι) : State abi ι κ τ := { s with ring := ring }

end State

section Emit

variable [DecidableEq ι]

/- The loop of `ns_signal_emit_raw` at its next connection. -/
def emitNext (s : State abi ι κ τ) (e : ι) (payload : Part abi) :
    List (Slot abi) → State abi ι κ τ × Event ι κ τ
  | [] => (s.setEmitter e .idle, .emitReturned e .ok)
  | slot :: rest => (s.setEmitter e (.pushing slot rest payload), .access)

def emitStep (s : State abi ι κ τ) (e : ι) (payloadSize : Nat) (slots : List (Slot abi)) (payload : Part abi) :
    Option (State abi ι κ τ × Event ι κ τ) :=
  match s.emitters e with
  | .idle => if emitRawAccepts payloadSize payload then some (emitNext s e payload slots) else
      some (s, .emitReturned e .inval)
  | _ => none

/- The next access of the producer's `try_pushv` call, its first one included. -/
def tryPushvStep (s : MpscRecordRing.State abi ι) (e : ι) (parts : List (Part abi)) (spurious : Bool) :
    Option (MpscRecordRing.State abi ι × MpscRecordRing.Event ι) :=
  match s.producers e with
  | .idle => pushStep s e (some parts)
  | _ => producerStep s e spurious

def emitterStep (s : State abi ι κ τ) (e : ι) (spurious : Bool) : Option (State abi ι κ τ × Event ι κ τ) :=
  match s.emitters e with
  | .idle => none
  | .pushing slot rest payload =>
      (tryPushvStep s.ring e (slotCallParts slot payload) spurious).map fun moved =>
        match moved.2.pushResult with
        | none => (s.setRing moved.1, .access)
        | some .ok => ((s.setRing moved.1).setEmitter e (.signaling rest payload), .access)
        | some rc => ((s.setRing moved.1).setEmitter e .idle, .emitReturned e rc)
  | .signaling rest payload => some (emitNext { s with signaled := true } e payload rest)

end Emit

section Quit

variable [DecidableEq κ]

def quitStep (s : State abi ι κ τ) (k : κ) : Option (State abi ι κ τ × Event ι κ τ) :=
  if s.quitters k then none else some ({ s with quitRequested := true }.setQuitter k true, .access)

def quitterStep (s : State abi ι κ τ) (k : κ) : Option (State abi ι κ τ × Event ι κ τ) :=
  if s.quitters k then some ({ s with signaled := true }.setQuitter k false, .quitReturned k .ok) else none

end Quit

section Run

variable [DecidableEq τ]

/- `ns_loop_run` up to its call of `ns_loop_run_impl`. -/
def runCallStep (s : State abi ι κ τ) (t : τ) : Option (State abi ι κ τ × Event ι κ τ) :=
  match s.activations (some t) with
  | .out => if s.asyncStarted then some (s, .runReturned t .busy) else some (s.setRun (some t) .casRunning, .access)
  | _ => none

/- `ns_loop_run_impl` returns `rc`: to the caller of `ns_loop_run`, or to `ns_loop_async_entry`. -/
def leaveRun (s : State abi ι κ τ) (t : Option τ) (rc : Status) : State abi ι κ τ × Event ι κ τ :=
  match t with
  | some t => (s.setRun (some t) .out, .runReturned t rc)
  | none => (s.setRun none (.storeRc rc), .access)

def tryConsumerStep (begin_ : Option (MpscRecordRing.State abi ι × MpscRecordRing.Event ι))
    (s : MpscRecordRing.State abi ι) : Option (MpscRecordRing.State abi ι × MpscRecordRing.Event ι) :=
  match s.consumer with
  | .idle => begin_
  | _ => consumerStep s

def tryAcquireStep (s : MpscRecordRing.State abi ι) : Option (MpscRecordRing.State abi ι × MpscRecordRing.Event ι) :=
  tryConsumerStep (acquireStep s) s

def tryReleaseStep (s : MpscRecordRing.State abi ι) : Option (MpscRecordRing.State abi ι × MpscRecordRing.Event ι) :=
  tryConsumerStep (releaseStep s) s

def activationStep (s : State abi ι κ τ) (t : Option τ) (rc : Status) :
    Option (State abi ι κ τ × Event ι κ τ) :=
  match s.activations t with
  | .out => none
  | .casRunning =>
      if s.running then some (leaveRun s t .exists) else some ({ s with running := true }.setRun t .acquire, .access)
  | .acquire =>
      (tryAcquireStep s.ring).map fun moved =>
        match moved.2.consumerResult with
        | none => (s.setRing moved.1, .access)
        | some .ok => ((s.setRing moved.1).setRun t .slotCall, .access)
        | some _ => ((s.setRing moved.1).setRun t .testQuit, .access)
  | .slotCall =>
      s.ring.held.map fun loan =>
        match readSlotCall abi (loan.readable s.ring) with
        | none => (s.setRun t .release, .access)
        | some slot => (s.setRun t .inSlot, .called slot)
  | .inSlot => some (s.setRun t .release, .access)
  | .release =>
      (tryReleaseStep s.ring).map fun moved =>
        match moved.2.consumerResult with
        | none => (s.setRing moved.1, .access)
        | some _ => ((s.setRing moved.1).setRun t .acquire, .access)
  | .testQuit => some (s.setRun t (if s.quitRequested then .resetQuit else .wait), .access)
  | .wait =>
      if rc = .ok then
        if s.signaled then some ({ s with signaled := false }.setRun t .acquire, .access) else none
      else some (s.setRun t (.clearRunning rc), .access)
  | .resetQuit => some ({ s with quitRequested := false }.setRun t (.clearRunning .ok), .access)
  | .clearRunning rc => some (leaveRun { s with running := false } t rc)
  | .storeRc rc => some ({ s with asyncRc := rc }.setRun t .exited, .access)
  | .exited => none

end Run

section Control

variable [DecidableEq τ]

def startStep (s : State abi ι κ τ) : Option (State abi ι κ τ × Event ι κ τ) :=
  match s.control with
  | .idle =>
      if s.asyncStarted then some (s, .startReturned .busy) else some ({ s with control := .startThread }, .access)
  | _ => none

def stopStep (s : State abi ι κ τ) : Option (State abi ι κ τ × Event ι κ τ) :=
  match s.control with
  | .idle =>
      if !s.asyncStarted then some (s, .stopReturned .inval) else some ({ s with control := .stopQuit }, .access)
  | _ => none

/- The rest of `ns_loop_start` and `ns_loop_stop`. A join that succeeds has
waited for the worker to exit. -/
def controlStep (s : State abi ι κ τ) (rc : Status) : Option (State abi ι κ τ × Event ι κ τ) :=
  match s.control with
  | .idle => none
  | .startThread =>
      if rc = .ok then
        some ({ s with asyncRc := .ok, control := .startSet }.setRun none .casRunning, .access)
      else some ({ s with asyncRc := .ok, control := .idle }, .startReturned rc)
  | .startSet => some ({ s with asyncStarted := true, control := .idle }, .startReturned .ok)
  | .stopQuit => some ({ s with quitRequested := true, control := .stopSignal }, .access)
  | .stopSignal => some ({ s with signaled := true, control := .stopJoin }, .access)
  | .stopJoin =>
      if rc = .ok then
        if s.activations none = .exited then some ({ s with control := .stopClear }, .access) else none
      else some ({ s with control := .idle }, .stopReturned rc)
  | .stopClear =>
      some ({ s with asyncStarted := false, control := .idle }.setRun none .out, .stopReturned s.asyncRc)

end Control

variable [DecidableEq ι] [DecidableEq κ] [DecidableEq τ]

def step (s : State abi ι κ τ) : Action abi ι κ τ → Option (State abi ι κ τ × Event ι κ τ)
  | .emit e payloadSize slots payload => emitStep s e payloadSize slots payload
  | .emitter e spurious => emitterStep s e spurious
  | .quit k => quitStep s k
  | .quitter k => quitterStep s k
  | .run t => runCallStep s t
  | .activation t rc => activationStep s t rc
  | .start => startStep s
  | .stop => stopStep s
  | .control rc => controlStep s rc

def Starts (s : State abi ι κ τ) : Prop := ∃ ring, MpscRecordRing.Starts abi ring ∧ s = .initial ring

/- No emitter's reservation succeeds a full lap late. -/
def NoLap (s : State abi ι κ τ) : Action abi ι κ τ → Prop
  | .emitter e spurious => MpscRecordRing.NoLap s.ring (.producer e spurious)
  | _ => True

instance (s : State abi ι κ τ) (a : Action abi ι κ τ) : Decidable (NoLap s a) := by
  unfold NoLap
  split <;> infer_instance

abbrev Reachable (s : State abi ι κ τ) : Prop :=
  TransitionSystem.Reachable Starts step (fun _ _ => True) s

abbrev ReachableNoLap (s : State abi ι κ τ) : Prop :=
  TransitionSystem.Reachable Starts step NoLap s

end Nanosig.Loop
