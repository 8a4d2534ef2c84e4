import Nanosig.Loop.NoLostWakeup

/-! A wakeup lost for want of the lap assumption: an emitter stopped before its
CAS while the ring goes round by `2^32` bytes leaves the ring unreadable, and
the loop blocks on it. Calls that nothing interrupts are embedded whole. -/
namespace Nanosig.Loop
open MpscRecordRing Signal TransitionSystem

variable {abi : Abi} {ι κ τ : Type} [DecidableEq ι] [DecidableEq κ] [DecidableEq τ]

/- Where an emitter goes on when `try_pushv` has returned. -/
def pushEnded (s : State abi ι κ τ) (e : ι) (rest : List (Slot abi)) (payload : Part abi)
    (ring : MpscRecordRing.State abi ι) (rc : Status) : State abi ι κ τ :=
  (s.setRing ring).setEmitter e (if rc = .ok then .signaling rest payload else .idle)

theorem pushingStep {s : State abi ι κ τ} {ring ring' : MpscRecordRing.State abi ι} {e : ι} {slot : Slot abi}
    {rest : List (Slot abi)} {payload : Part abi} {spurious : Bool} {ev : MpscRecordRing.Event ι}
    (at_ : s.emitters e = .pushing slot rest payload)
    (taken : tryPushvStep ring e (slotCallParts slot payload) spurious = some (ring', ev)) :
    (ev.pushResult = none → ∃ event, step (s.setRing ring) (.emitter e spurious) = some (s.setRing ring', event)) ∧
    ∀ rc, ev.pushResult = some rc →
      ∃ event, step (s.setRing ring) (.emitter e spurious) = some (pushEnded s e rest payload ring' rc, event) := by
  have here : (s.setRing ring).emitters e = .pushing slot rest payload := at_
  have there : (s.setRing ring).ring = ring := rfl
  simp only [step, emitterStep, here, there, taken, Option.map_some]
  constructor
  · intro silent
    rw [silent]
    exact ⟨_, rfl⟩
  · intro rc returned
    rw [returned]
    cases rc <;> exact ⟨_, rfl⟩

theorem finishPushEmbedded {s : State abi ι κ τ} {e : ι} {slot : Slot abi} {rest : List (Slot abi)}
    {payload : Part abi} {ring ring' : MpscRecordRing.State abi ι} {fuel : Nat} {rc : Status}
    (at_ : s.emitters e = .pushing slot rest payload) (ok : finishPush e fuel ring = some (ring', rc)) :
    ∃ visits, Run step (fun _ _ => True) (s.setRing ring) visits (pushEnded s e rest payload ring' rc) := by
  have access : ∀ r r' ev, MpscRecordRing.step r (.producer e false) = some (r', ev) →
      tryPushvStep r e (slotCallParts slot payload) false = some (r', ev) := by
    intro r r' ev taken
    have busy : producerStep r e false = some (r', ev) := taken
    unfold tryPushvStep
    split
    · rename_i idle
      unfold producerStep at busy
      rw [idle] at busy
      contradiction
    · exact busy
  refine untilReturnEmbedded s.setRing (pushEnded s e rest payload) (.emitter e false) (fun _ => trivial) ?_ ?_ ok
  · intro r r' ev taken silent
    exact (pushingStep at_ (access r r' ev taken)).1 silent
  · intro r r' ev rc taken returned
    exact (pushingStep at_ (access r r' ev taken)).2 rc returned

theorem pushCallEmbedded {s : State abi ι κ τ} {e : ι} {slot : Slot abi} {rest : List (Slot abi)} {payload : Part abi}
    {ring : MpscRecordRing.State abi ι} {rc : Status} (at_ : s.emitters e = .pushing slot rest payload)
    (ok : pushCall s.ring e (some (slotCallParts slot payload)) = some (ring, rc)) :
    ∃ visits, Run step (fun _ _ => True) s visits (pushEnded s e rest payload ring rc) := by
  simp only [pushCall, Option.bind_eq_some_iff] at ok
  obtain ⟨⟨r, ev⟩, begin_, more⟩ := ok
  have first : tryPushvStep s.ring e (slotCallParts slot payload) false = some (r, ev) := by
    unfold tryPushvStep
    split
    · exact begin_
    · rename_i busy
      unfold pushStep at begin_
      split at begin_
      · exact absurd (by assumption) (busy)
      · contradiction
  obtain ⟨silent, returns⟩ := pushingStep at_ first
  dsimp only at more
  split at more
  · rename_i rc' returned
    cases Option.some.inj more
    obtain ⟨event, last⟩ := returns _ returned
    exact ⟨_, Run.single trivial last⟩
  · rename_i quiet
    obtain ⟨event, next⟩ := silent quiet
    obtain ⟨visits, run⟩ := finishPushEmbedded at_ more
    exact ⟨_, (Run.single trivial next).append run⟩

def acquireEnded (s : State abi ι κ τ) (t : Option τ) (ring : MpscRecordRing.State abi ι) (rc : Status) :
    State abi ι κ τ :=
  (s.setRing ring).setRun t (if rc = .ok then .slotCall else .testQuit)

theorem acquiringStep {s : State abi ι κ τ} {ring ring' : MpscRecordRing.State abi ι} {t : Option τ}
    {ev : MpscRecordRing.Event ι} (at_ : s.activations t = .acquire) (taken : tryAcquireStep ring = some (ring', ev)) :
    (ev.consumerResult = none → ∃ event, step (s.setRing ring) (.activation t .ok) = some (s.setRing ring', event)) ∧
    ∀ rc, ev.consumerResult = some rc →
      ∃ event, step (s.setRing ring) (.activation t .ok) = some (acquireEnded s t ring' rc, event) := by
  have here : (s.setRing ring).activations t = .acquire := at_
  have there : (s.setRing ring).ring = ring := rfl
  simp only [step, activationStep, here, there, taken, Option.map_some]
  constructor
  · intro silent
    rw [silent]
    exact ⟨_, rfl⟩
  · intro rc returned
    rw [returned]
    cases rc <;> exact ⟨_, rfl⟩

theorem releasingStep {s : State abi ι κ τ} {ring ring' : MpscRecordRing.State abi ι} {t : Option τ}
    {ev : MpscRecordRing.Event ι} (at_ : s.activations t = .release) (taken : tryReleaseStep ring = some (ring', ev)) :
    (ev.consumerResult = none → ∃ event, step (s.setRing ring) (.activation t .ok) = some (s.setRing ring', event)) ∧
    ∀ rc, ev.consumerResult = some rc →
      ∃ event, step (s.setRing ring) (.activation t .ok) = some ((s.setRing ring').setRun t .acquire, event) := by
  have here : (s.setRing ring).activations t = .release := at_
  have there : (s.setRing ring).ring = ring := rfl
  simp only [step, activationStep, here, there, taken, Option.map_some]
  constructor
  · intro silent
    rw [silent]
    exact ⟨_, rfl⟩
  · intro rc returned
    rw [returned]
    exact ⟨_, rfl⟩

theorem consumerCallEmbedded {s : State abi ι κ τ} {t : Option τ}
    {begin_ : MpscRecordRing.State abi ι → Option (MpscRecordRing.State abi ι × MpscRecordRing.Event ι)}
    {ended : MpscRecordRing.State abi ι → Status → State abi ι κ τ} {ring : MpscRecordRing.State abi ι} {rc : Status}
    (steps : ∀ r r' ev, tryConsumerStep (begin_ r) r = some (r', ev) →
      (ev.consumerResult = none → ∃ event, step (s.setRing r) (.activation t .ok) = some (s.setRing r', event)) ∧
      ∀ rc, ev.consumerResult = some rc → ∃ event, step (s.setRing r) (.activation t .ok) = some (ended r' rc, event))
    (idle : s.ring.consumer = .idle)
    (ok : ((begin_ s.ring).bind fun moved =>
      match moved.2.consumerResult with
      | some rc => some (moved.1, rc)
      | none => finishConsumer consumerFuel moved.1) = some (ring, rc)) :
    ∃ visits, Run step (fun _ _ => True) s visits (ended ring rc) := by
  obtain ⟨⟨r, ev⟩, begins, more⟩ := Option.bind_eq_some_iff.mp ok
  have first : tryConsumerStep (begin_ s.ring) s.ring = some (r, ev) := by
    unfold tryConsumerStep
    rw [idle]
    exact begins
  obtain ⟨silent, returns⟩ := steps _ _ _ first
  dsimp only at more
  split at more
  · rename_i rc' returned
    cases Option.some.inj more
    obtain ⟨event, last⟩ := returns _ returned
    exact ⟨_, Run.single trivial last⟩
  · rename_i quiet
    obtain ⟨event, next⟩ := silent quiet
    have access : ∀ r r' ev, MpscRecordRing.step r .consumer = some (r', ev) →
        tryConsumerStep (begin_ r) r = some (r', ev) := by
      intro r r' ev taken
      have busy : consumerStep r = some (r', ev) := taken
      unfold tryConsumerStep
      split
      · rename_i idle
        unfold consumerStep at busy
        rw [idle] at busy
        contradiction
      · exact busy
    obtain ⟨visits, run⟩ : ∃ visits, Run step (fun _ _ => True) (s.setRing r) visits (ended ring rc) :=
      untilReturnEmbedded s.setRing ended (Loop.Action.activation t .ok) (fun _ => trivial)
        (fun r r' ev taken => (steps r r' ev (access r r' ev taken)).1)
        (fun r r' ev rc taken => (steps r r' ev (access r r' ev taken)).2 rc) more
    exact ⟨_, (Run.single trivial next).append run⟩

theorem acquireCallEmbedded {s : State abi ι κ τ} {t : Option τ} {ring : MpscRecordRing.State abi ι} {rc : Status}
    (at_ : s.activations t = .acquire) (idle : s.ring.consumer = .idle) (ok : acquireCall s.ring = some (ring, rc)) :
    ∃ visits, Run step (fun _ _ => True) s visits (acquireEnded s t ring rc) :=
  consumerCallEmbedded (fun _ _ _ => acquiringStep at_) idle ok

theorem releaseCallEmbedded {s : State abi ι κ τ} {t : Option τ} {ring : MpscRecordRing.State abi ι} {rc : Status}
    (at_ : s.activations t = .release) (idle : s.ring.consumer = .idle) (ok : releaseCall s.ring = some (ring, rc)) :
    ∃ visits, Run step (fun _ _ => True) s visits ((s.setRing ring).setRun t .acquire) :=
  consumerCallEmbedded (fun _ _ _ => releasingStep at_) idle ok

theorem emitAlone {s : State abi ι κ τ} {e : ι} {slot : Slot abi} {payload : Part abi}
    {ring : MpscRecordRing.State abi ι} (emitter : s.emitters e = .idle)
    (accepts : emitRawAccepts payload.size payload = true)
    (pushed : pushCall s.ring e (some (slotCallParts slot payload)) = some (ring, .ok)) :
    ∃ visits, Run step (fun _ _ => True) s visits { s with ring := ring, signaled := true } := by
  have begins : step s (.emit e payload.size [slot] payload) =
      some (s.setEmitter e (.pushing slot [] payload), .access) := by
    simp only [step, emitStep, emitter, accepts, if_true]
    rfl
  obtain ⟨_, push⟩ := pushCallEmbedded (s := s.setEmitter e (.pushing slot [] payload)) (Function.update_self ..) pushed
  have signals : step (pushEnded (s.setEmitter e (.pushing slot [] payload)) e [] payload ring .ok) (.emitter e false) =
      some ({ s with ring := ring, signaled := true }, .emitReturned e .ok) := by
    have at_ : (pushEnded (s.setEmitter e (.pushing slot [] payload)) e [] payload ring .ok).emitters e =
        .signaling [] payload := Function.update_self ..
    have restored : State.setEmitter { pushEnded (s.setEmitter e (.pushing slot [] payload)) e [] payload ring .ok with
        signaled := true } e .idle = { s with ring := ring, signaled := true } := by
      unfold pushEnded State.setEmitter State.setRing
      dsimp only
      rw [Function.update_idem, Function.update_idem, ← emitter, Function.update_eq_self]
    simp only [step, emitterStep, at_, emitNext]
    rw [restored]
  exact ⟨_, ((Run.single trivial begins).append push).append (Run.single trivial signals)⟩

theorem dispatchAlone {s : State abi ι κ τ} {t : Option τ} {r₁ r₂ : MpscRecordRing.State abi ι} {loan : Loan}
    (at_ : s.activations t = .acquire) (idle : s.ring.consumer = .idle)
    (acquired : acquireCall s.ring = some (r₁, .ok)) (held : r₁.held = some loan) (idle₁ : r₁.consumer = .idle)
    (released : releaseCall r₁ = some (r₂, .ok)) :
    ∃ visits, Run step (fun _ _ => True) s visits (s.setRing r₂) := by
  obtain ⟨_, acquire⟩ := acquireCallEmbedded at_ idle acquired
  have here : (acquireEnded s t r₁ .ok).activations t = .slotCall := Function.update_self ..
  have there : (acquireEnded s t r₁ .ok).ring.held = some loan := held
  obtain ⟨_, call⟩ : ∃ visits, Run step (fun _ _ => True) (acquireEnded s t r₁ .ok) visits
      ((s.setRing r₁).setRun t .release) := by
    have over₁ : (acquireEnded s t r₁ .ok).setRun t .release = (s.setRing r₁).setRun t .release := by
      unfold acquireEnded State.setRun
      dsimp only
      rw [Function.update_idem]
    cases record : readSlotCall abi (loan.readable r₁) with
    | none =>
      have taken : step (acquireEnded s t r₁ .ok) (.activation t .ok) =
          some ((s.setRing r₁).setRun t .release, .access) := by
        simp only [step, activationStep, here, there, Option.map_some]
        rw [show readSlotCall abi (loan.readable (acquireEnded s t r₁ .ok).ring) = none from record]
        dsimp only
        rw [over₁]
      exact ⟨_, Run.single trivial taken⟩
    | some called =>
      have taken : step (acquireEnded s t r₁ .ok) (.activation t .ok) =
          some ((acquireEnded s t r₁ .ok).setRun t .inSlot, .called called) := by
        simp only [step, activationStep, here, there, Option.map_some]
        rw [show readSlotCall abi (loan.readable (acquireEnded s t r₁ .ok).ring) = some called from record]
      have returns : step ((acquireEnded s t r₁ .ok).setRun t .inSlot) (.activation t .ok) =
          some ((s.setRing r₁).setRun t .release, .access) := by
        have at_ : ((acquireEnded s t r₁ .ok).setRun t .inSlot).activations t = .inSlot := Function.update_self ..
        simp only [step, activationStep, at_]
        rw [← over₁]
        unfold State.setRun
        dsimp only
        rw [Function.update_idem]
      exact ⟨_, (Run.single trivial taken).append (Run.single trivial returns)⟩
  obtain ⟨_, release⟩ := releaseCallEmbedded (s := (s.setRing r₁).setRun t .release) (Function.update_self ..)
    idle₁ released
  have last : (((s.setRing r₁).setRun t .release).setRing r₂).setRun t .acquire = s.setRing r₂ := by
    unfold State.setRing State.setRun
    dsimp only
    rw [Function.update_idem, ← at_, Function.update_eq_self]
  rw [last] at release
  exact ⟨_, (acquire.append call).append release⟩

theorem blockAlone {s : State abi ι κ τ} {t : Option τ} {ring : MpscRecordRing.State abi ι} {rc : Status}
    (at_ : s.activations t = .acquire) (idle : s.ring.consumer = .idle) (stays : s.quitRequested = false)
    (failed : rc ≠ .ok) (ok : acquireCall s.ring = some (ring, rc)) :
    ∃ visits, Run step (fun _ _ => True) s visits ((s.setRing ring).setRun t .wait) := by
  obtain ⟨_, acquire⟩ := acquireCallEmbedded at_ idle ok
  have test : step (acquireEnded s t ring rc) (.activation t .ok) =
      some ((s.setRing ring).setRun t .wait, .access) := by
    have here : (acquireEnded s t ring rc).activations t = .testQuit := by
      unfold acquireEnded
      rw [if_neg failed]
      exact Function.update_self ..
    have there : (acquireEnded s t ring rc).quitRequested = false := stays
    simp only [step, activationStep, here, there, Bool.false_eq_true, if_false]
    unfold acquireEnded State.setRun
    dsimp only
    rw [Function.update_idem]
  exact ⟨_, acquire.append (Run.single trivial test)⟩

/-! The schedule: emitter `true` stops before its CAS, emitter `false` and the
loop move the ring by `2^32` bytes, then `true` goes on. -/

def lapSlot : Slot .ilp32 := ⟨0, 0, by decide, by decide⟩

def lapPayload : Part .ilp32 := .null .ilp32

def lapParts : List (Part .ilp32) := slotCallParts lapSlot lapPayload

def lapPush : Push .ilp32 := ⟨lapParts, 12⟩

def lapPlan : PushPlan := ⟨12, 16, 16, 0, 0, 0, none, 0⟩

structure Lapping (s : State .ilp32 Bool Unit Unit) : Prop where
  reach : Reachable s
  stopped : s.emitters true = .pushing lapSlot [] lapPayload
  idle : s.emitters false = .idle
  loop : s.activations (some ()) = .acquire
  quitters : ∀ k, s.quitters k = false
  control : s.control = .idle
  stays : s.quitRequested = false
  cas : s.ring.producers true = .casReserve lapPush 0 lapPlan 0 0
  free : s.ring.producers false = .idle
  capacity : s.ring.ring.capacity = 32

theorem Lapping.moved {s : State .ilp32 Bool Unit Unit} (lapping : Lapping s) {ring : MpscRecordRing.State .ilp32 Bool}
    {latched : Bool} (still : OthersStill false s.ring ring)
    (run : ∃ visits, Run step (fun _ _ => True) s visits { s with ring := ring, signaled := latched }) :
    Lapping { s with ring := ring, signaled := latched } := by
  obtain ⟨_, run⟩ := run
  exact ⟨run.reachable lapping.reach, lapping.stopped, lapping.idle, lapping.loop, lapping.quitters, lapping.control,
    lapping.stays, (still.others true (by decide)).trans lapping.cas, still.mine, still.capacity.trans lapping.capacity⟩

theorem lapChecked {r : MpscRecordRing.State .ilp32 Bool} (inv : MpscRecordRing.Inv r) (capacity : r.ring.capacity = 32) :
    tryPushvChecks .ilp32 r.ring (some lapParts) = some (lapParts, 12) := by
  have most : r.ring.maxRecordSize .ilp32 = 12 := by
    unfold Ring.maxRecordSize
    rw [inv.valid, capacity]
    rfl
  have sum : sumParts .ilp32 0 lapParts = some 12 := rfl
  have some_ : lapParts.isEmpty = false := rfl
  unfold tryPushvChecks
  rw [inv.valid]
  simp [sum, most, some_]

theorem lapNeeded (k : Nat) : needed .ilp32 32 (16 * k) 12 = 16 := by
  have total : recordTotal .ilp32 12 = 16 := rfl
  unfold needed tailPadding
  rw [total, if_neg (by omega)]

theorem lapStart : ∃ s, Lapping s ∧ MpscRecordRing.Drained s.ring ∧ s.ring.published = 0 := by
  obtain ⟨ring, made⟩ : ∃ ring, init .ilp32 4096 (fun _ => 0) 32 = some ring := ⟨_, rfl⟩
  have inv : MpscRecordRing.Inv (.initial ring : MpscRecordRing.State .ilp32 Bool) := initInv made
  have fields : ring.capacity = 32 ∧ ring.writePos = 0 ∧ ring.readPos = 0 := by
    cases Option.some.inj made
    exact ⟨rfl, rfl, rfl⟩
  obtain ⟨capacity, write, read⟩ := fields
  have planned : planPush .ilp32 ring 12 0 0 = some lapPlan := by
    unfold planPush Ring.offset
    rw [capacity]
    rfl
  let r₀ : MpscRecordRing.State .ilp32 Bool := .initial ring
  let r₁ := r₀.setProducer true (.loadWrite lapPush)
  let r₂ := r₁.setProducer true (.loadRead lapPush 0 0)
  let r₃ := r₂.setProducer true (.casReserve lapPush 0 lapPlan 0 0)
  have push : pushStep r₀ true (some lapParts) = some (r₁, .access) := by
    simp only [pushStep, r₀, lapChecked inv capacity]
    rfl
  have loadWrite : producerStep r₁ true false = some (r₂, .access) := by
    simp only [producerStep, r₁, MpscRecordRing.State.setProducer, Function.update_self]
    change some ((r₁.setProducer true (.loadRead lapPush ring.writePos 0)), _) = _
    rw [write]
  have loadRead : producerStep r₂ true false = some (r₃, .access) := by
    simp only [producerStep, r₂, MpscRecordRing.State.setProducer, Function.update_self]
    have again : planPush .ilp32 r₁.ring lapPush.recordSize 0 r₁.ring.readPos = some lapPlan := by
      rw [show r₁.ring.readPos = 0 from read]
      exact planned
    rw [again]
    rfl
  have inv₁ := inv.pushStep push
  have inv₂ := inv₁.producerStep (by simp [MpscRecordRing.NoLap, r₁, MpscRecordRing.State.setProducer]) loadWrite
  have inv₃ := inv₂.producerStep (by simp [MpscRecordRing.NoLap, r₂, MpscRecordRing.State.setProducer]) loadRead
  -- The loop thread enters its first drain and the emitter its push.
  let s : State .ilp32 Bool Unit Unit := .initial r₀
  let s₁ := s.setRun (some ()) .casRunning
  let s₂ := { s₁ with running := true }.setRun (some ()) .acquire
  let s₃ := s₂.setEmitter true (.pushing lapSlot [] lapPayload)
  have at_ : s₃.emitters true = .pushing lapSlot [] lapPayload := rfl
  have enters : step s (.run ()) = some (s₁, .access) := rfl
  have takes : step s₁ (.activation (some ()) .ok) = some (s₂, .access) := rfl
  have emits : step s₂ (.emit true 0 [lapSlot] lapPayload) = some (s₃, .access) := rfl
  obtain ⟨_, first⟩ := (pushingStep (s := s₃) at_ (show tryPushvStep r₀ true lapParts false = _ from push)).1 rfl
  obtain ⟨_, second⟩ := (pushingStep (s := s₃) at_ (show tryPushvStep r₁ true lapParts false = _ from loadWrite)).1 rfl
  obtain ⟨_, third⟩ := (pushingStep (s := s₃) at_ (show tryPushvStep r₂ true lapParts false = _ from loadRead)).1 rfl
  have starts : Starts s := ⟨r₀, ⟨_, _, _, ring, made, rfl⟩, rfl⟩
  have reach : Reachable (s₃.setRing r₃) :=
    .next (.next (.next (.next (.next (.next (.start starts) trivial enters) trivial takes) trivial emits) trivial first)
      trivial second) trivial third
  refine ⟨s₃.setRing r₃, ⟨reach, at_, rfl, rfl, fun _ => rfl, rfl, rfl, rfl, rfl, capacity⟩, ⟨inv₃, ?_, rfl, rfl, rfl⟩, rfl⟩
  intro q
  cases q <;> trivial

theorem lapCycles (k : Nat) : ∃ s, Lapping s ∧ MpscRecordRing.Drained s.ring ∧ s.ring.published = 16 * k := by
  induction k with
  | zero => exact lapStart
  | succ k ih =>
    obtain ⟨s, lapping, drained, published⟩ := ih
    have room : needed .ilp32 s.ring.ring.capacity s.ring.published 12 = 16 := by
      rw [lapping.capacity, published]
      exact lapNeeded k
    obtain ⟨r₁, r₂, r₃, cycle, drained', still, moved⟩ :=
      drainedCycle drained lapping.free (lapChecked drained.inv lapping.capacity) (by rw [room, lapping.capacity]; omega)
    obtain ⟨_, emits⟩ := emitAlone lapping.idle (by decide) cycle.pushed
    obtain ⟨loan, held⟩ := cycle.held
    obtain ⟨_, dispatches⟩ := dispatchAlone (s := { s with ring := r₁, signaled := true }) lapping.loop cycle.pushedIdle
      cycle.acquired held cycle.acquiredIdle cycle.released
    exact ⟨_, lapping.moved still ⟨_, emits.append dispatches⟩, drained', by rw [moved, room, published]; omega⟩

/- The emitter's CAS is due exactly `2^32` bytes late, on a full ring. -/
theorem lapFull : ∃ s, Lapping s ∧ MpscRecordRing.Inv s.ring ∧ s.ring.consumer = .idle ∧
    s.ring.reserved = 2 ^ 32 ∧ s.ring.released = 2 ^ 32 - 32 := by
  obtain ⟨s, lapping, drained, published⟩ := lapCycles (2 ^ 28 - 2)
  have level := drained.level
  have first := lapNeeded (2 ^ 28 - 2)
  rw [← published, ← lapping.capacity] at first
  have capacity := lapping.capacity
  obtain ⟨r₁, _, pushed₁, inv₁, quiet₁, still₁, elsewhere₁, _, _, moved₁⟩ :=
    pushFitsCall drained.inv drained.quiet lapping.free (lapChecked drained.inv capacity) (by omega)
  have lapping₁ := lapping.moved still₁ (emitAlone lapping.idle (by decide) pushed₁)
  have second := lapNeeded (2 ^ 28 - 1)
  have capacity₁ : r₁.ring.capacity = 32 := lapping₁.capacity
  rw [show 16 * (2 ^ 28 - 1) = r₁.published by omega, ← capacity₁] at second
  have released₁ := elsewhere₁.released
  obtain ⟨r₂, _, pushed₂, inv₂, quiet₂, still₂, elsewhere₂, _, _, moved₂⟩ :=
    pushFitsCall inv₁ quiet₁ lapping₁.free (lapChecked inv₁ capacity₁) (by omega)
  have lapping₂ := lapping₁.moved still₂ (emitAlone lapping₁.idle (by decide) pushed₂)
  have all := inv₂.allPublished quiet₂
  have released₂ := elsewhere₂.released
  refine ⟨_, lapping₂, inv₂, ?_, ?_, ?_⟩
  · exact elsewhere₂.consumer.trans (elsewhere₁.consumer.trans drained.consumer)
  · change r₂.reserved = 2 ^ 32
    omega
  · change r₂.released = 2 ^ 32 - 32
    omega

theorem lapPushed {r : MpscRecordRing.State .ilp32 Bool} (inv : MpscRecordRing.Inv r)
    (cas : r.producers true = .casReserve lapPush 0 lapPlan 0 0) (reserved : r.reserved = 2 ^ 32) :
    ∃ r', finishPush true 6 r = some (r', .ok) ∧ r'.ring.writePos = 16 ∧ r.log.length < r'.log.length ∧
      r'.producers true = .idle := by
  have agree : r.ring.reservePos = 0 := by
    rw [inv.reservePos, reserved]
    rfl
  let res : Reservation .ilp32 Bool := ⟨true, lapPush, lapPlan, 0, r.reserved⟩
  let r₁ := r.reserve true lapPush 0 lapPlan
  let r₂ := (writeStep r₁ true res .markUncommitted).1
  let r₃ := (writeStep r₂ true res .publish).1
  let r₄ := (writeStep r₃ true res (.copy 0 lapParts)).1
  let r₅ := (writeStep r₄ true res (.copy 12 [lapPayload])).1
  let r₆ := (writeStep r₅ true res (.copy 12 [])).1
  have reserves : MpscRecordRing.step r (.producer true false) = some (r₁, .access) := by
    simp only [MpscRecordRing.step, producerStep, cas, agree, and_self, if_true]
    rfl
  have writes : ∀ (s : MpscRecordRing.State .ilp32 Bool) stage, s.producers true = .writing stage res →
      MpscRecordRing.step s (.producer true false) = some (writeStep s true res stage) := by
    intro s stage at_
    simp only [MpscRecordRing.step, producerStep, at_]
  refine ⟨r₆, ?_, rfl, ?_, rfl⟩
  · have first : finishPush true 6 r = finishPush true 5 r₁ := untilReturnNext reserves rfl 5
    have second : finishPush true 5 r₁ = finishPush true 4 r₂ := untilReturnNext (writes r₁ .markUncommitted rfl) rfl 4
    have third : finishPush true 4 r₂ = finishPush true 3 r₃ := untilReturnNext (writes r₂ .publish rfl) rfl 3
    have fourth : finishPush true 3 r₃ = finishPush true 2 r₄ := untilReturnNext (writes r₃ (.copy 0 lapParts) rfl) rfl 2
    have fifth : finishPush true 2 r₄ = finishPush true 1 r₅ :=
      untilReturnNext (writes r₄ (.copy 12 [lapPayload]) rfl) rfl 1
    have returns : (MpscRecordRing.Event.pushReturned true .ok : MpscRecordRing.Event Bool).pushResult = some .ok := rfl
    have last : finishPush true 1 r₅ = some (r₆, .ok) := untilReturnLast (writes r₅ (.copy 12 []) rfl) returns 0
    rw [first, second, third, fourth, fifth, last]
  · have log : r₆.log = r.log ++ [res] := rfl
    rw [log, List.length_append]
    exact Nat.lt_succ_self _

theorem corruptAcquire {r : MpscRecordRing.State .ilp32 Bool} (idle : r.consumer = .idle)
    (valid : r.ring.isValid .ilp32 = true)
    (excess : Abi.ilp32.sub r.ring.writePos r.ring.readPos > r.ring.capacity) :
    acquireCall r = some ({ r with held := none, consumer := .idle }, .corrupt) := by
  have begins : acquireStep r = some ({ r with held := none, consumer := .acquireLoadRead }, .access) := by
    simp [acquireStep, idle, valid]
  have loadRead : MpscRecordRing.step { r with held := none, consumer := .acquireLoadRead } .consumer =
      some ({ r with held := none, consumer := .acquireLoadWrite r.ring.readPos }, .access) := rfl
  have loadWrite : MpscRecordRing.step { r with held := none, consumer := .acquireLoadWrite r.ring.readPos } .consumer =
      some ({ r with held := none, consumer := .idle }, .acquireReturned .corrupt) := by
    simp only [MpscRecordRing.step, consumerStep]
    rw [if_pos excess]
  simp only [acquireCall, begins, Option.bind_some]
  change finishConsumer consumerFuel _ = _
  unfold finishConsumer consumerFuel
  rw [untilReturnNext loadRead rfl]
  have returns : (MpscRecordRing.Event.acquireReturned .corrupt : MpscRecordRing.Event Bool).consumerResult =
      some .corrupt := rfl
  exact untilReturnLast loadWrite returns 6

/- Without the lap assumption a loop can block over records it will never see. -/
theorem lapLosesWakeup : ∃ s : State .ilp32 Bool Unit Unit, Reachable s ∧ s.activations (some ()) = .wait ∧
    s.signaled = false ∧ (∀ e, ¬ InFlight s e) ∧ ¬ Quitting s ∧
    s.ring.ring.readPos ≠ s.ring.ring.writePos ∧ s.ring.returned.length < s.ring.log.length := by
  obtain ⟨s, lapping, inv, consumer, reserved, released⟩ := lapFull
  obtain ⟨r, pushed, write, longer, done⟩ := lapPushed inv lapping.cas reserved
  have elsewhere := finishPushElsewhere pushed
  have read : r.ring.readPos = 2 ^ 32 - 32 := by
    rw [elsewhere.readPos, inv.readPos, released]
    rfl
  have capacity : r.ring.capacity = 32 := elsewhere.capacity.trans lapping.capacity
  have consumer' : r.consumer = .idle := elsewhere.consumer.trans consumer
  have valid : r.ring.isValid .ilp32 = true := by
    have before := inv.valid
    unfold Ring.isValid at before ⊢
    rw [elsewhere.storage, elsewhere.capacity]
    exact before
  have excess : Abi.ilp32.sub r.ring.writePos r.ring.readPos > r.ring.capacity := by
    rw [write, read, capacity]
    decide
  -- The push and its signal, then a wait that consumes the latch, then the wait for good.
  obtain ⟨_, pushes⟩ := finishPushEmbedded lapping.stopped pushed
  let s₁ := pushEnded s true [] lapPayload r .ok
  let s₂ := { s₁ with signaled := true }.setEmitter true .idle
  let r' : MpscRecordRing.State .ilp32 Bool := { r with held := none, consumer := .idle }
  let s₃ := (s₂.setRing r').setRun (some ()) .wait
  let s₄ := { s₃ with signaled := false }.setRun (some ()) .acquire
  let s₅ := (s₄.setRing r').setRun (some ()) .wait
  have signals : step s₁ (.emitter true false) = some (s₂, .emitReturned true .ok) := rfl
  have loop : s₂.activations (some ()) = .acquire := lapping.loop
  obtain ⟨_, blocks⟩ := blockAlone (s := s₂) loop consumer' lapping.stays (by nofun) (corruptAcquire consumer' valid excess)
  have wakes : step s₃ (.activation (some ()) .ok) = some (s₄, .access) := rfl
  obtain ⟨_, again⟩ := blockAlone (s := s₄) (t := some ()) rfl rfl lapping.stays (by nofun) (corruptAcquire (r := r') rfl valid excess)
  have run := (((pushes.append (Run.single trivial signals)).append blocks).append (Run.single trivial wakes)).append again
  refine ⟨s₅, run.reachable lapping.reach, rfl, rfl, ?_, ?_, ?_, ?_⟩
  · intro e inFlight
    cases e with
    | true =>
      rcases inFlight with writing | signaling
      · refine writing ?_
        change (r.producers true).Quiet
        rw [done]
        trivial
      · exact signaling
    | false =>
      rcases inFlight with writing | signaling
      · refine writing ?_
        change (r.producers false).Quiet
        rw [elsewhere.producers false (by decide), lapping.free]
        trivial
      · change (s.emitters false).Signaling at signaling
        rw [lapping.idle] at signaling
        exact signaling
  · rintro (⟨k, pending⟩ | stopping)
    · change s.quitters k = true at pending
      rw [lapping.quitters k] at pending
      contradiction
    · change s.control = .stopSignal at stopping
      rw [lapping.control] at stopping
      contradiction
  · change r.ring.readPos ≠ r.ring.writePos
    rw [read, write]
    decide
  · change r.returned.length < r.log.length
    rw [elsewhere.returned]
    exact Nat.lt_of_le_of_lt inv.counted longer

end Nanosig.Loop
