import Nanosig.Lib.ResourceLedger
import Nanosig.Lib.TransitionSystem
import Nanosig.MpscRecordRing.Ring

/-! The life of the hosted runtime: `ns_init`, `ns_shutdown`, and the loops
created, run and destroyed in between, each call with the outcomes of the
platform calls it makes. What a loop does while it runs is left out; the
ledger records what the process holds of the platform. -/
namespace Nanosig.Runtime
open ResourceLedger MpscRecordRing

/- What the calls obtain from the platform. A `loopCall` is a thread inside
`ns_loop_run_impl` that entered through `ns_loop_run`. -/
inductive Resource where
  | platform
  | debugMutex
  | brokerMemory
  | waitset
  | event
  | eventRegistration
  | opLock
  | timerMutex
  | brokerThread
  | loopMemory (l : Nat)
  | loopWakeup (l : Nat)
  | loopThread (l : Nat)
  | loopCall (l : Nat)
  deriving DecidableEq

/- What each of them is used with: the broker's memory holds its waitset, event
and lock, the timer manager notifies the broker's event, and a thread uses
everything its function reads. -/
def Resource.needs : Resource → List Resource
  | .platform => []
  | .debugMutex | .brokerMemory | .loopMemory _ => [.platform]
  | .waitset | .event | .opLock => [.brokerMemory]
  | .eventRegistration => [.waitset, .event]
  | .timerMutex => [.event]
  | .brokerThread => [.debugMutex, .eventRegistration, .opLock, .timerMutex]
  | .loopWakeup l => [.loopMemory l]
  | .loopThread l | .loopCall l => [.loopWakeup l]

/- `ns_loop_config_t`, without the debug name. -/
structure LoopConfig where
  queueByteCapacity : Nat
  flags : Nat
  stackSize : Nat
  deriving DecidableEq

/- `NS_LOOP_CONFIG_DEFAULT()` -/
def LoopConfig.default : LoopConfig := ⟨1024, 0, 0⟩

inductive Worker where
  | absent
  | spawned
  | inside
  | exited
  deriving DecidableEq

/- `struct ns_loop`; `caller` tells of a thread inside `ns_loop_run`. -/
structure LoopObject where
  config : LoopConfig
  running : Bool
  asyncStarted : Bool
  asyncRc : Status
  worker : Worker
  caller : Bool
  deriving DecidableEq

structure Process where
  initialized : Bool
  dbgMutexReady : Bool
  gBroker : Bool
  timerMgrInitialized : Bool
  live : Finset Nat
  loops : Nat → LoopObject
  ledger : Ledger Resource

/- The outcomes of the platform calls inside one call: what creating and giving
up a resource reports, the accepted stack sizes, the address of a new block. -/
structure Answers where
  make : Resource → Status
  drop : Resource → Status
  stackRange : Except Status (Nat × Nat)
  block : Nat

namespace Process

def gain (s : Process) (r : Resource) : Process :=
  { s with ledger := { s.ledger with held := insert r s.ledger.held } }

def make (s : Process) (a : Answers) (r : Resource) : Option (Process × Status) :=
  if a.make r = .ok then (acquire Resource.needs s.ledger r).map fun l => ({ s with ledger := l }, .ok)
  else some (s, a.make r)

/- A call whose result the source ignores. -/
def drop (s : Process) (a : Answers) (r : Resource) : Option Process :=
  (release Resource.needs s.ledger r (a.drop r = .ok)).map fun l => { s with ledger := l }

/- `ns_platform_alloc`; only NULL or not is seen. -/
def alloc (s : Process) (a : Answers) (r : Resource) : Option (Process × Status) :=
  if a.make r = .ok then (acquire Resource.needs s.ledger r).map fun l => ({ s with ledger := l }, .ok)
  else some (s, .nomem)

/- `ns_platform_free` -/
def free (s : Process) (r : Resource) : Option Process :=
  (release Resource.needs s.ledger r true).map fun l => { s with ledger := l }

def setInitialized (s : Process) (set : Bool) : Process := { s with initialized := set }

def setDbgMutexReady (s : Process) (set : Bool) : Process := { s with dbgMutexReady := set }

def setGBroker (s : Process) (set : Bool) : Process := { s with gBroker := set }

def setTimerMgrInitialized (s : Process) (set : Bool) : Process := { s with timerMgrInitialized := set }

def setLoop (s : Process) (l : Nat) (o : LoopObject) : Process := { s with loops := Function.update s.loops l o }

end Process

def debugInit (a : Answers) (s : Process) : Option (Process × Status) :=
  if s.dbgMutexReady then some (s, .exists)
  else (s.make a .debugMutex).map fun (s, rc) => (if rc = .ok then s.setDbgMutexReady true else s, rc)

def debugShutdown (a : Answers) (s : Process) : Option Process :=
  if s.dbgMutexReady then (s.drop a .debugMutex).map fun s => s.setDbgMutexReady false else some s

def timerMgrGlobalInit (a : Answers) (s : Process) : Option (Process × Status) :=
  if s.timerMgrInitialized then some (s, .exists)
  else (s.make a .timerMutex).map fun (s, rc) => (if rc = .ok then s.setTimerMgrInitialized true else s, rc)

def timerMgrGlobalShutdown (a : Answers) (s : Process) : Option Process :=
  if s.timerMgrInitialized then (s.setTimerMgrInitialized false).drop a .timerMutex else some s

/- A stage whose label only gives the resource back. -/
def stage (a : Answers) (r : Resource) : Stage Process Status := ⟨fun s => s.make a r, fun s => s.drop a r⟩

def memoryStage (a : Answers) (r : Resource) : Stage Process Status := ⟨fun s => s.alloc a r, fun s => s.free r⟩

/- The labels `out_free` to `out_timer_mgr` are the stages' `down`. -/
def brokerGlobalInit (a : Answers) (s : Process) : Option (Process × Status) :=
  if s.gBroker then some (s, .exists)
  else
    (ladder .ok (fun s => s.make a .brokerThread)
      [memoryStage a .brokerMemory, stage a .waitset, stage a .event, stage a .eventRegistration, stage a .opLock,
        ⟨timerMgrGlobalInit a, timerMgrGlobalShutdown a⟩] s).map
      fun (s, rc) => (if rc = .ok then s.setGBroker true else s, rc)

def brokerGlobalShutdown (a : Answers) (s : Process) : Option Process := do
  if !s.gBroker then return s
  let s ← s.drop a .brokerThread
  let s ← timerMgrGlobalShutdown a s
  let s ← s.drop a .eventRegistration
  let s ← s.drop a .waitset
  let s ← s.drop a .event
  let s ← s.drop a .opLock
  (s.setGBroker false).free .brokerMemory

/- The labels `out_platform` and `out_debug` are the stages' `down`. -/
def nsInit (a : Answers) (s : Process) : Option (Process × Status) :=
  if s.initialized then some (s, .exists)
  else
    (ladder .ok (brokerGlobalInit a) [stage a .platform, ⟨debugInit a, debugShutdown a⟩] s).map
      fun (s, rc) => (if rc = .ok then s.setInitialized true else s, rc)

def nsShutdown (a : Answers) (s : Process) : Option (Process × Status) := do
  if !s.initialized then return (s, .ok)
  let s ← brokerGlobalShutdown a (s.setInitialized false)
  let s ← debugShutdown a s
  let s ← s.drop a .platform
  return (s, a.drop .platform)

def isPowerOfTwo (value : Nat) : Bool := value ≠ 0 && value &&& (value - 1) = 0

/- `ns_loop_config_validate` on a config that is not NULL. -/
def configValidate (config : LoopConfig) (stackRange : Except Status (Nat × Nat)) : Status :=
  if config.flags ≠ 0 then .inval
  else if !isPowerOfTwo config.queueByteCapacity then .inval
  else if config.stackSize = 0 then .ok
  else match stackRange with
    | .error rc => rc
    | .ok (stackMin, stackMax) =>
        if config.stackSize < stackMin then .inval else if config.stackSize > stackMax then .inval else .ok

section Loops

variable (abi : Abi) (sizeofLoop : Nat)

/- `ns_mpsc_record_ring_init` on the bytes behind the loop. -/
def ringInit (block capacity : Nat) : Status :=
  let storage := block + alignUp abi sizeofLoop
  if storage = 0 then .inval
  else if !storageIsAligned abi storage then .inval
  else if !capacityIsValid abi capacity then .inval
  else .ok

/- A NULL config is the default; the label `out_free` gives the memory back. -/
def loopCreate (a : Answers) (config : Option LoopConfig) (s : Process) : Option (Process × Status) :=
  if !s.initialized then some (s, .shutdown)
  else
    let config := config.getD .default
    if configValidate config a.stackRange ≠ .ok then some (s, configValidate config a.stackRange)
    else
      (ladder .ok (fun s => s.make a (.loopWakeup a.block))
        [memoryStage a (.loopMemory a.block),
          ⟨fun s => some (s, ringInit abi sizeofLoop a.block config.queueByteCapacity), some⟩] s).map
        fun (s, rc) =>
          (if rc = .ok then
              { s with live := insert a.block s.live }.setLoop a.block ⟨config, false, false, .ok, .absent, false⟩
            else s, rc)

end Loops

def loopDestroy (a : Answers) (l : Nat) (s : Process) : Option (Process × Status) :=
  if (s.loops l).asyncStarted then some (s, .busy)
  else if (s.loops l).running then some (s, .inval)
  else
    (s.drop a (.loopWakeup l)).bind fun s =>
      (s.free (.loopMemory l)).map fun s => ({ s with live := s.live.erase l }, a.drop (.loopWakeup l))

/- `ns_loop_run` up to its entry into the loop, where it has no result yet. -/
def runEnters (l : Nat) (s : Process) : Option (Process × Option Status) :=
  if !s.initialized then some (s, some .shutdown)
  else if (s.loops l).asyncStarted then some (s, some .busy)
  else if (s.loops l).running then some (s, some .exists)
  else (acquire Resource.needs s.ledger (.loopCall l)).map fun ledger =>
    ({ s with ledger := ledger }.setLoop l { s.loops l with running := true, caller := true }, none)

def runLeaves (l : Nat) (rc : Status) (s : Process) : Option (Process × Option Status) :=
  (release Resource.needs s.ledger (.loopCall l) true).map fun ledger =>
    ({ s with ledger := ledger }.setLoop l { s.loops l with running := false, caller := false }, some rc)

def loopStart (a : Answers) (l : Nat) (s : Process) : Option (Process × Status) :=
  if !s.initialized then some (s, .shutdown)
  else if (s.loops l).asyncStarted then some (s, .busy)
  else
    ((s.setLoop l { s.loops l with asyncRc := .ok }).make a (.loopThread l)).map fun (s, rc) =>
      (if rc = .ok then s.setLoop l { s.loops l with asyncStarted := true, worker := .spawned } else s, rc)

/- `ns_loop_async_entry` up to its entry into the loop. -/
def workerEnters (l : Nat) (s : Process) : Process :=
  if !s.initialized then s.setLoop l { s.loops l with asyncRc := .shutdown, worker := .exited }
  else if (s.loops l).running then s.setLoop l { s.loops l with asyncRc := .exists, worker := .exited }
  else s.setLoop l { s.loops l with running := true, worker := .inside }

def workerLeaves (l : Nat) (rc : Status) (s : Process) : Process :=
  s.setLoop l { s.loops l with running := false, asyncRc := rc, worker := .exited }

/- A refused join leaves the thread and `async_started` as they are. -/
def loopStop (a : Answers) (l : Nat) (s : Process) : Option (Process × Status) :=
  if !(s.loops l).asyncStarted then some (s, .inval)
  else if a.drop (.loopThread l) ≠ .ok then some (s, a.drop (.loopThread l))
  else (s.drop a (.loopThread l)).map fun s =>
    (s.setLoop l { s.loops l with asyncStarted := false, worker := .absent }, (s.loops l).asyncRc)

inductive Call where
  | init
  | shutdown
  | loopCreate (config : Option LoopConfig)
  | loopDestroy (l : Nat)
  | runEnters (l : Nat)
  | runLeaves (l : Nat) (rc : Status)
  | loopStart (l : Nat)
  | workerEnters (l : Nat)
  | workerLeaves (l : Nat) (rc : Status)
  | loopStop (l : Nat)

def step (abi : Abi) (sizeofLoop : Nat) (s : Process) : Call × Answers → Option (Process × Option Status)
  | (.init, a) => (nsInit a s).map fun (s, rc) => (s, some rc)
  | (.shutdown, a) => (nsShutdown a s).map fun (s, rc) => (s, some rc)
  | (.loopCreate config, a) => (loopCreate abi sizeofLoop a config s).map fun (s, rc) => (s, some rc)
  | (.loopDestroy l, a) => (loopDestroy a l s).map fun (s, rc) => (s, some rc)
  | (.runEnters l, _) => runEnters l s
  | (.runLeaves l rc, _) => runLeaves l rc s
  | (.loopStart l, a) => (loopStart a l s).map fun (s, rc) => (s, some rc)
  | (.workerEnters l, _) => some (workerEnters l s, none)
  | (.workerLeaves l rc, _) => some (workerLeaves l rc s, none)
  | (.loopStop l, a) => (loopStop a l s).map fun (s, rc) => (s, some rc)

/- What the headers ask of the caller, and what the platform promises: a fresh
block, and a join that succeeds only once the thread has ended. -/
def Permitted (s : Process) : Call × Answers → Prop
  | (.init, _) => True
  | (.shutdown, a) => s.live = ∅ ∧ a.drop .brokerThread = .ok
  | (.loopCreate _, a) => a.block ∉ s.live
  | (.loopDestroy l, _) | (.runEnters l, _) | (.loopStart l, _) => l ∈ s.live
  | (.runLeaves l _, _) => l ∈ s.live ∧ (s.loops l).caller = true
  | (.workerEnters l, _) => l ∈ s.live ∧ (s.loops l).worker = .spawned
  | (.workerLeaves l _, _) => l ∈ s.live ∧ (s.loops l).worker = .inside
  | (.loopStop l, a) => l ∈ s.live ∧ (a.drop (.loopThread l) = .ok → (s.loops l).asyncStarted → (s.loops l).worker = .exited)

instance (s : Process) (label : Call × Answers) : Decidable (Permitted s label) :=
  match label with
  | (.init, _) => isTrue trivial
  | (.shutdown, a) => inferInstanceAs (Decidable (s.live = ∅ ∧ a.drop .brokerThread = .ok))
  | (.loopCreate _, a) => inferInstanceAs (Decidable (a.block ∉ s.live))
  | (.loopDestroy l, _) | (.runEnters l, _) | (.loopStart l, _) => inferInstanceAs (Decidable (l ∈ s.live))
  | (.runLeaves l _, _) => inferInstanceAs (Decidable (l ∈ s.live ∧ (s.loops l).caller = true))
  | (.workerEnters l, _) => inferInstanceAs (Decidable (l ∈ s.live ∧ (s.loops l).worker = .spawned))
  | (.workerLeaves l _, _) => inferInstanceAs (Decidable (l ∈ s.live ∧ (s.loops l).worker = .inside))
  | (.loopStop l, a) => inferInstanceAs (Decidable (l ∈ s.live ∧
      (a.drop (.loopThread l) = .ok → (s.loops l).asyncStarted → (s.loops l).worker = .exited)))

def Untouched (s : Process) : Prop :=
  s.initialized = false ∧ s.dbgMutexReady = false ∧ s.gBroker = false ∧ s.timerMgrInitialized = false ∧
    s.live = ∅ ∧ s.ledger = ⟨∅, []⟩

abbrev Reachable (abi : Abi) (sizeofLoop : Nat) : Process → Prop :=
  TransitionSystem.Reachable Untouched (step abi sizeofLoop) Permitted

end Nanosig.Runtime
