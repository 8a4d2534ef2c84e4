import Nanosig.Runtime.Lifecycle

/-! What the process holds of the platform, over any history of calls and any
outcomes of the platform: exactly what the globals and the live loops account
for. No call releases what is not held, or what something held still needs. -/
namespace Nanosig.Runtime
open ResourceLedger MpscRecordRing

def Owns (s : Process) : Resource → Prop
  | .platform => s.initialized = true
  | .debugMutex => s.dbgMutexReady = true
  | .brokerMemory | .waitset | .event | .eventRegistration | .opLock | .brokerThread => s.gBroker = true
  | .timerMutex => s.timerMgrInitialized = true
  | .loopMemory l | .loopWakeup l => l ∈ s.live
  | .loopThread l => l ∈ s.live ∧ (s.loops l).asyncStarted = true
  | .loopCall l => l ∈ s.live ∧ (s.loops l).caller = true

/- `running` tells of one thread inside the loop, `async_started` of a worker not joined yet. -/
structure LoopObject.Sound (o : LoopObject) : Prop where
  running : o.running = true ↔ o.caller = true ∨ o.worker = .inside
  alone : o.caller = true → o.worker ≠ .inside
  started : o.asyncStarted = true ↔ o.worker ≠ .absent

structure Accounted (s : Process) : Prop where
  debug : s.dbgMutexReady = s.initialized
  broker : s.gBroker = s.initialized
  timerMgr : s.timerMgrInitialized = s.initialized
  alive : s.live.Nonempty → s.initialized = true
  loops : ∀ l ∈ s.live, (s.loops l).Sound
  owned : ∀ r, r ∈ s.ledger.held ↔ Owns s r

def Process.leaking (s : Process) (more : List Resource) : Process :=
  { s with ledger := { s.ledger with leaked := more ++ s.ledger.leaked } }

def Refused (a : Answers) (more : List Resource) : Prop := ∀ r ∈ more, a.drop r ≠ .ok

def refusedOne (a : Answers) (r : Resource) : List Resource := if a.drop r = .ok then [] else [r]

theorem refusedSelf (a : Answers) (r : Resource) : Refused a (refusedOne a r) := by
  intro q member
  unfold refusedOne at member
  split at member
  · contradiction
  · rwa [List.mem_singleton.mp member]

theorem Refused.append {a : Answers} {left right : List Resource} (first : Refused a left) (second : Refused a right) :
    Refused a (left ++ right) := by
  intro r member
  exact (List.mem_append.mp member).elim (first r) (second r)

/- The same process, but for releases that were refused. -/
def SameButLeaks (a : Answers) (s t : Process) : Prop := ∃ more, Refused a more ∧ t = s.leaking more

theorem SameButLeaks.refl (a : Answers) (s : Process) : SameButLeaks a s s := ⟨[], List.forall_mem_nil _, rfl⟩

theorem Accounted.closed {s : Process} (acc : Accounted s) : Closed Resource.needs s.ledger.held := by
  intro r member q needed
  have owns := (acc.owned r).mp member
  have up : ∀ l ∈ s.live, s.initialized = true := fun l inside => acc.alive ⟨l, inside⟩
  rw [acc.owned]
  cases r <;> simp only [Resource.needs, List.mem_cons, List.not_mem_nil, or_false] at needed
  case debugMutex => exact needed ▸ acc.debug.symm.trans owns
  case brokerMemory => exact needed ▸ acc.broker.symm.trans owns
  case loopMemory l => exact needed ▸ up l owns
  case loopWakeup l => exact needed ▸ owns
  case loopThread l => exact needed ▸ owns.1
  case loopCall l => exact needed ▸ owns.1
  case waitset | event | opLock => exact needed ▸ owns
  case eventRegistration => rcases needed with rfl | rfl <;> exact owns
  case timerMutex => exact needed ▸ acc.broker.trans (acc.timerMgr.symm.trans owns)
  case brokerThread =>
    have ready : s.initialized = true := acc.broker.symm.trans owns
    rcases needed with rfl | rfl | rfl | rfl
    · exact acc.debug.trans ready
    · exact owns
    · exact owns
    · exact acc.timerMgr.trans ready

theorem needsOther (r : Resource) : r ∉ r.needs := by
  cases r <;> simp [Resource.needs]

theorem debugShutdownSet {a : Answers} {s : Process} (set : s.dbgMutexReady = true) :
    debugShutdown a s = (s.drop a .debugMutex).map fun s => s.setDbgMutexReady false := if_pos set

theorem timerShutdownSet {a : Answers} {s : Process} (set : s.timerMgrInitialized = true) :
    timerMgrGlobalShutdown a s = (s.setTimerMgrInitialized false).drop a .timerMutex := if_pos set

/- What a caller makes of `ns_platform_alloc`. -/
def nullIsNomem (rc : Status) : Status := if rc = .ok then .ok else .nomem

structure Ready (s : Process) (r : Resource) : Prop where
  free : r ∉ s.ledger.held
  met : ∀ q ∈ r.needs, q ∈ s.ledger.held
  closed : Closed Resource.needs s.ledger.held

namespace Ready

variable {s t : Process} {r : Resource} (ready : Ready s r) (a : Answers)
include ready

theorem acquired : acquire Resource.needs s.ledger r = some (s.gain r).ledger := if_pos ⟨ready.free, ready.met⟩

theorem gained : Closed Resource.needs (s.gain r).ledger.held := acquireClosed ready.acquired ready.closed

theorem released {l : Ledger Resource} (same : l.held = (s.gain r).ledger.held) (accepted : Bool) :
    release Resource.needs l r accepted =
      some { held := s.ledger.held, leaked := if accepted then l.leaked else r :: l.leaked } := by
  have unused : ∀ q ∈ insert r s.ledger.held, r ∉ q.needs := by
    intro q member
    rcases Finset.mem_insert.mp member with rfl | member
    · exact needsOther q
    · exact ready.closed.unneeded ready.free q member
  rw [release, same]
  change (if r ∈ insert r s.ledger.held ∧ ∀ q ∈ insert r s.ledger.held, r ∉ q.needs then _ else _) = _
  rw [if_pos ⟨Finset.mem_insert_self .., unused⟩]
  change some (Ledger.mk ((insert r s.ledger.held).erase r) _) = _
  rw [Finset.erase_insert ready.free]

theorem dropped (same : t.ledger.held = (s.gain r).ledger.held) :
    t.drop a r = some { t with ledger := { held := s.ledger.held, leaked := refusedOne a r ++ t.ledger.leaked } } := by
  rw [Process.drop, ready.released same]
  by_cases accepted : a.drop r = .ok <;> simp [accepted, refusedOne]

theorem madeIf : s.make a r = some (if a.make r = .ok then s.gain r else s, a.make r) := by
  unfold Process.make
  split
  · rename_i passed
    rw [ready.acquired, passed]
    rfl
  · rfl

theorem stage : (stage a r).Undoable .ok (SameButLeaks a) (s = ·) (s.gain r = ·) (a.make r) := by
  constructor
  · rintro passed _ rfl
    refine ⟨_, (ready.madeIf a).trans (by rw [if_pos passed, passed]), rfl, ?_⟩
    rintro _ ⟨leaks, refused, rfl⟩
    have given := ready.dropped a (t := (s.gain r).leaking leaks) rfl
    exact ⟨_, given, _, (refusedSelf a r).append refused, by simp [Process.gain, Process.leaking]⟩
  · rintro failed _ rfl
    exact ⟨_, (ready.madeIf a).trans (by rw [if_neg failed]), .refl a _⟩

theorem memory :
    (memoryStage a r).Undoable .ok (SameButLeaks a) (s = ·) (s.gain r = ·) (nullIsNomem (a.make r)) := by
  unfold nullIsNomem
  by_cases passed : a.make r = .ok
  · rw [if_pos passed]
    refine ⟨?_, fun failed => absurd rfl failed⟩
    rintro _ _ rfl
    refine ⟨s.gain r, ?_, rfl, ?_⟩
    · change s.alloc a r = _
      rw [Process.alloc, if_pos passed, ready.acquired]
      rfl
    · rintro _ ⟨leaks, refused, rfl⟩
      have given := ready.released (l := ((s.gain r).leaking leaks).ledger) rfl true
      exact ⟨_, by change Process.free _ r = _; rw [Process.free, given]; rfl, leaks, refused, rfl⟩
  · rw [if_neg passed]
    constructor
    · intro none
      cases none
    · rintro _ _ rfl
      exact ⟨s, by change s.alloc a r = _; rw [Process.alloc, if_neg passed], .refl a _⟩

theorem debug (is : r = .debugMutex) (unset : s.dbgMutexReady = false) :
    (⟨debugInit a, debugShutdown a⟩ : Stage Process Status).Undoable .ok (SameButLeaks a) (s = ·)
      ((s.gain r).setDbgMutexReady true = ·) (a.make r) := by
  subst is
  constructor
  · rintro passed _ rfl
    refine ⟨_, by simp [debugInit, unset, ready.madeIf, passed], rfl, ?_⟩
    rintro _ ⟨leaks, refused, rfl⟩
    have given := ready.dropped a
      (t := ((s.gain .debugMutex).setDbgMutexReady true).leaking leaks) rfl
    refine ⟨_, (debugShutdownSet rfl).trans (congrArg (Option.map _) given), _,
      (refusedSelf a .debugMutex).append refused, ?_⟩
    simp [Process.gain, Process.leaking, Process.setDbgMutexReady, ← unset]
  · rintro failed _ rfl
    exact ⟨_, by simp [debugInit, unset, ready.madeIf, failed], .refl a _⟩

theorem timer (is : r = .timerMutex) (unset : s.timerMgrInitialized = false) :
    (⟨timerMgrGlobalInit a, timerMgrGlobalShutdown a⟩ : Stage Process Status).Undoable .ok (SameButLeaks a) (s = ·)
      ((s.gain r).setTimerMgrInitialized true = ·) (a.make r) := by
  subst is
  constructor
  · rintro passed _ rfl
    refine ⟨_, by simp [timerMgrGlobalInit, unset, ready.madeIf, passed], rfl, ?_⟩
    rintro _ ⟨leaks, refused, rfl⟩
    have given := ready.dropped a
      (t := (((s.gain .timerMutex).setTimerMgrInitialized true).leaking leaks).setTimerMgrInitialized false) rfl
    refine ⟨_, (timerShutdownSet rfl).trans given, _, (refusedSelf a .timerMutex).append refused, ?_⟩
    simp [Process.gain, Process.leaking, Process.setTimerMgrInitialized, ← unset]
  · rintro failed _ rfl
    exact ⟨_, by simp [timerMgrGlobalInit, unset, ready.madeIf, failed], .refl a _⟩

theorem last : Transactional .ok (SameButLeaks a) (s = ·) (s.gain r = ·) [a.make r] (fun s => s.make a r) := by
  rintro _ rfl
  by_cases passed : a.make r = .ok
  · exact ⟨s.gain r, by simp [firstFailure, ready.madeIf, passed], fun _ => rfl, by simp [firstFailure, passed]⟩
  · exact ⟨s, by simp [firstFailure, ready.madeIf, passed], by simp [firstFailure, passed], fun _ => .refl a s⟩

end Ready

theorem flagged {a : Answers} {codes : List Status} {init : Process → Option (Process × Status)} {s s' : Process}
    (set : Process → Process) (rest : Transactional .ok (SameButLeaks a) (s = ·) (s' = ·) codes init) :
    Transactional .ok (SameButLeaks a) (s = ·) (set s' = ·) codes
      (fun s => (init s).map fun (s, rc) => (if rc = .ok then set s else s, rc)) := by
  rintro _ rfl
  obtain ⟨t, ended, passed, failed⟩ := rest s rfl
  by_cases good : firstFailure Status.ok codes = .ok
  · exact ⟨set t, by simp [ended, good], fun _ => congrArg set (passed good), fun bad => absurd good bad⟩
  · exact ⟨t, by simp [ended, good], fun absent => absurd absent good, failed⟩

@[simp] theorem memGain {s : Process} {q r : Resource} : q ∈ (s.gain r).ledger.held ↔ q = r ∨ q ∈ s.ledger.held :=
  Finset.mem_insert

@[simp] theorem setGBrokerLedger (s : Process) (set : Bool) : (s.setGBroker set).ledger = s.ledger := rfl

@[simp] theorem setTimerLedger (s : Process) (set : Bool) : (s.setTimerMgrInitialized set).ledger = s.ledger := rfl

@[simp] theorem setDebugLedger (s : Process) (set : Bool) : (s.setDbgMutexReady set).ledger = s.ledger := rfl

@[simp] theorem setInitializedLedger (s : Process) (set : Bool) : (s.setInitialized set).ledger = s.ledger := rfl

/- The calls of `ns_broker_global_init` in their order. -/
def brokerCodes (a : Answers) : List Status :=
  [nullIsNomem (a.make .brokerMemory), a.make .waitset, a.make .event, a.make .eventRegistration, a.make .opLock,
    a.make .timerMutex, a.make .brokerThread]

def brokerUp (s : Process) : Process :=
  (((((((s.gain .brokerMemory).gain .waitset).gain .event).gain .eventRegistration).gain .opLock).gain
    .timerMutex).setTimerMgrInitialized true).gain .brokerThread

structure BrokerDown (s : Process) : Prop where
  broker : s.gBroker = false
  timerMgr : s.timerMgrInitialized = false
  closed : Closed Resource.needs s.ledger.held
  platform : .platform ∈ s.ledger.held
  debug : .debugMutex ∈ s.ledger.held
  free : ∀ r ∈ [Resource.brokerMemory, .waitset, .event, .eventRegistration, .opLock, .timerMutex, .brokerThread],
    r ∉ s.ledger.held

theorem BrokerDown.init {s : Process} (down : BrokerDown s) (a : Answers) :
    Transactional .ok (SameButLeaks a) (s = ·) ((brokerUp s).setGBroker true = ·) (brokerCodes a) (brokerGlobalInit a) := by
  obtain ⟨broker, timerMgr, closed, platform, debug, free⟩ := down
  simp only [List.forall_mem_cons, List.not_mem_nil, false_imp_iff, implies_true, and_true] at free
  obtain ⟨noMemory, noWaitset, noEvent, noRegistration, noLock, noTimer, noThread⟩ := free
  have memory : Ready s .brokerMemory := ⟨noMemory, by simpa [Resource.needs] using platform, closed⟩
  have waitset : Ready (s.gain .brokerMemory) .waitset :=
    ⟨by simp [noWaitset], by simp [Resource.needs], memory.gained⟩
  have event : Ready ((s.gain .brokerMemory).gain .waitset) .event :=
    ⟨by simp [noEvent], by simp [Resource.needs], waitset.gained⟩
  have registration : Ready (((s.gain .brokerMemory).gain .waitset).gain .event) .eventRegistration :=
    ⟨by simp [noRegistration], by simp [Resource.needs], event.gained⟩
  have opLock := (⟨by simp [noLock], by simp [Resource.needs], registration.gained⟩ : Ready _ .opLock)
  have timer := (⟨by simp [noTimer], by simp [Resource.needs], opLock.gained⟩ : Ready _ .timerMutex)
  have thread : Ready (((((((s.gain .brokerMemory).gain .waitset).gain .event).gain .eventRegistration).gain
      .opLock).gain .timerMutex).setTimerMgrInitialized true) .brokerThread :=
    ⟨by simp [noThread], by simp [Resource.needs, debug], timer.gained⟩
  have stages := (memory.memory a).ladder <| (waitset.stage a).ladder <| (event.stage a).ladder <|
    (registration.stage a).ladder <| (opLock.stage a).ladder <| (timer.timer a rfl timerMgr).ladder (thread.last a).bottom
  intro s same
  obtain rfl := same
  obtain ⟨s', ended, rest⟩ := flagged (fun s => s.setGBroker true) stages s rfl
  refine ⟨s', ?_, rest⟩
  rw [brokerGlobalInit, if_neg (by simp [broker])]
  exact ended

/- The calls of `ns_init` in their order. -/
def initCodes (a : Answers) : List Status := a.make .platform :: a.make .debugMutex :: brokerCodes a

def runtimeUp (s : Process) : Process :=
  ((brokerUp (((s.gain .platform).gain .debugMutex).setDbgMutexReady true)).setGBroker true).setInitialized true

namespace Accounted

variable {s : Process} (acc : Accounted s)
include acc

/- Before `ns_init` nothing is held. -/
theorem holdsNothing (down : s.initialized = false) : s.ledger.held = ∅ := by
  have noLoop : s.live = ∅ := by
    by_contra some_
    have up := acc.alive (Finset.nonempty_iff_ne_empty.mpr some_)
    simp [down] at up
  refine Finset.eq_empty_of_forall_notMem fun r member => ?_
  have owns := (acc.owned r).mp member
  cases r <;> simp [Owns, acc.debug, acc.broker, acc.timerMgr, down, noLoop] at owns

theorem initTransactional (down : s.initialized = false) (a : Answers) :
    Transactional .ok (SameButLeaks a) (s = ·) (runtimeUp s = ·) (initCodes a) (nsInit a) := by
  have nothing := acc.holdsNothing down
  have platform : Ready s .platform := ⟨by simp [nothing], by simp [Resource.needs], acc.closed⟩
  have debug : Ready (s.gain .platform) .debugMutex :=
    ⟨by simp [nothing], by simp [Resource.needs], platform.gained⟩
  have broker : BrokerDown (((s.gain .platform).gain .debugMutex).setDbgMutexReady true) :=
    ⟨acc.broker.trans down, acc.timerMgr.trans down, debug.gained, by simp, by simp, by simp [nothing]⟩
  have stages := (platform.stage a).ladder <| (debug.debug a rfl (acc.debug.trans down)).ladder (broker.init a).bottom
  intro s same
  obtain rfl := same
  obtain ⟨s', ended, rest⟩ := flagged (fun s => s.setInitialized true) stages s rfl
  refine ⟨s', ?_, rest⟩
  rw [nsInit, if_neg (by simp [down])]
  exact ended

theorem initialized (down : s.initialized = false) : Accounted (runtimeUp s) := by
  have nothing := acc.holdsNothing down
  have noLoop : s.live = ∅ := by
    by_contra some_
    have up := acc.alive (Finset.nonempty_iff_ne_empty.mpr some_)
    simp [down] at up
  refine ⟨rfl, rfl, rfl, fun _ => rfl, ?_, ?_⟩
  · intro l member
    change l ∈ s.live at member
    simp [noLoop] at member
  · intro r
    change r ∈ (brokerUp _).ledger.held ↔ _
    cases r <;> simp [brokerUp, nothing, Owns, runtimeUp, Process.setInitialized, Process.setGBroker,
      Process.setDbgMutexReady, Process.setTimerMgrInitialized, Process.gain, noLoop]

theorem leaking (more : List Resource) : Accounted (s.leaking more) :=
  ⟨acc.debug, acc.broker, acc.timerMgr, acc.alive, acc.loops, acc.owned⟩

end Accounted

def Process.lose (s : Process) (r : Resource) (more : List Resource) : Process :=
  { s with ledger := { held := s.ledger.held.erase r, leaked := more ++ s.ledger.leaked } }

@[simp] theorem memLose {s : Process} {q r : Resource} {more : List Resource} :
    q ∈ (s.lose r more).ledger.held ↔ q ≠ r ∧ q ∈ s.ledger.held := Finset.mem_erase

theorem dropIf {s : Process} {r : Resource} (held : r ∈ s.ledger.held) (unused : ∀ q ∈ s.ledger.held, r ∉ q.needs)
    (a : Answers) : s.drop a r = some (s.lose r (refusedOne a r)) := by
  rw [Process.drop, release, if_pos ⟨held, unused⟩]
  by_cases accepted : a.drop r = .ok <;> simp [accepted, refusedOne, Process.lose]

theorem freeIf {s : Process} {r : Resource} (held : r ∈ s.ledger.held) (unused : ∀ q ∈ s.ledger.held, r ∉ q.needs) :
    s.free r = some (s.lose r []) := by
  rw [Process.free, release, if_pos ⟨held, unused⟩]
  rfl

def Holds (s : Process) (rs : List Resource) : Prop := ∀ q, q ∈ s.ledger.held ↔ q ∈ rs

namespace Holds

variable {s : Process} {rs : List Resource} {r : Resource} (holds : Holds s rs)
include holds

theorem lose (more : List Resource) : Holds (s.lose r more) (rs.filter (· ≠ r)) := by
  intro q
  rw [List.mem_filter, decide_eq_true_iff, ← holds q, and_comm, memLose]

theorem unused (apart : ∀ q ∈ rs, r ∉ q.needs) : ∀ q ∈ s.ledger.held, r ∉ q.needs :=
  fun q member => apart q ((holds q).mp member)

theorem drop (member : r ∈ rs) (apart : ∀ q ∈ rs, r ∉ q.needs) (a : Answers) :
    s.drop a r = some (s.lose r (refusedOne a r)) :=
  dropIf ((holds r).mpr member) (holds.unused apart) a

theorem free (member : r ∈ rs) (apart : ∀ q ∈ rs, r ∉ q.needs) : s.free r = some (s.lose r []) :=
  freeIf ((holds r).mpr member) (holds.unused apart)

theorem setTimerMgrInitialized (set : Bool) : Holds (s.setTimerMgrInitialized set) rs := holds

theorem setDbgMutexReady (set : Bool) : Holds (s.setDbgMutexReady set) rs := holds

theorem setGBroker (set : Bool) : Holds (s.setGBroker set) rs := holds

theorem exactly : s.ledger.held = rs.toFinset := by
  ext q
  rw [holds q, List.mem_toFinset]

end Holds

def runtimeResources : List Resource :=
  [.platform, .debugMutex, .brokerMemory, .waitset, .event, .eventRegistration, .opLock, .timerMutex, .brokerThread]

/- What `ns_broker_global_shutdown` leaves of a process without loops. -/
def Process.withoutBroker (s : Process) (more : List Resource) : Process :=
  { s with
    gBroker := false
    timerMgrInitialized := false
    ledger := { held := [Resource.platform, .debugMutex].toFinset, leaked := more ++ s.ledger.leaked } }

/- The order of the releases is one in which nothing is used any more. -/
theorem brokerShutdown {s : Process} (broker : s.gBroker = true) (timerMgr : s.timerMgrInitialized = true)
    (holds : Holds s runtimeResources) (a : Answers) :
    ∃ more, Refused a more ∧ brokerGlobalShutdown a s = some (s.withoutBroker more) := by
  have joined := holds.drop (r := .brokerThread) (by decide) (by decide) a
  have h₁ := (holds.lose (r := .brokerThread) (refusedOne a .brokerThread)).setTimerMgrInitialized false
  have timer := h₁.drop (r := .timerMutex) (by decide) (by decide) a
  have h₂ := h₁.lose (r := .timerMutex) (refusedOne a .timerMutex)
  have registration := h₂.drop (r := .eventRegistration) (by decide) (by decide) a
  have h₃ := h₂.lose (r := .eventRegistration) (refusedOne a .eventRegistration)
  have waitset := h₃.drop (r := .waitset) (by decide) (by decide) a
  have h₄ := h₃.lose (r := .waitset) (refusedOne a .waitset)
  have event := h₄.drop (r := .event) (by decide) (by decide) a
  have h₅ := h₄.lose (r := .event) (refusedOne a .event)
  have opLock := h₅.drop (r := .opLock) (by decide) (by decide) a
  have h₆ := (h₅.lose (r := .opLock) (refusedOne a .opLock)).setGBroker false
  have memory := h₆.free (r := .brokerMemory) (by decide) (by decide)
  have left : _ = [Resource.platform, .debugMutex].toFinset := (h₆.lose (r := .brokerMemory) []).exactly
  have timerDown := (timerShutdownSet (a := a) (s := s.lose .brokerThread (refusedOne a .brokerThread)) timerMgr).trans timer
  refine ⟨_, ((((((refusedSelf a .opLock).append (refusedSelf a .event)).append (refusedSelf a .waitset)).append
    (refusedSelf a .eventRegistration)).append (refusedSelf a .timerMutex)).append (refusedSelf a .brokerThread)), ?_⟩
  simp only [brokerGlobalShutdown, broker, Bool.not_true, Bool.false_eq_true, if_false, bind, Option.bind_some, joined,
    timerDown, registration, waitset, event, opLock, memory, Process.withoutBroker, ← left]
  simp [Process.lose, Process.setGBroker, Process.setTimerMgrInitialized]

end Nanosig.Runtime
