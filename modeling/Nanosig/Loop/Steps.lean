import Nanosig.Loop.System

/-! What the steps of each party can do to a loop, said once: the inversion
lemmas from which the invariants are derived. -/
namespace Nanosig.Loop
open MpscRecordRing Signal

variable {abi : Abi} {ι κ τ : Type}

/- Inside `ns_loop_dispatch_pending`. -/
def RunPc.Dispatching : RunPc → Prop
  | .acquire | .slotCall | .inSlot | .release => True
  | _ => False

def RunPc.Holding : RunPc → Prop
  | .acquire | .slotCall | .inSlot | .release | .testQuit | .wait | .resetQuit | .clearRunning _ => True
  | _ => False

theorem RunPc.Dispatching.holding {pc : RunPc} (dispatching : pc.Dispatching) : pc.Holding := by
  cases pc <;> trivial

/- An emitter and its `try_pushv` call: the fields a step of it cannot touch. -/
structure EmitterFrame (s s' : State abi ι κ τ) : Prop where
  activations : s'.activations = s.activations
  quitters : s'.quitters = s.quitters
  control : s'.control = s.control
  quitRequested : s'.quitRequested = s.quitRequested
  running : s'.running = s.running
  asyncStarted : s'.asyncStarted = s.asyncStarted
  asyncRc : s'.asyncRc = s.asyncRc

section Emitters

variable [DecidableEq ι]

theorem emitNextFrame (s : State abi ι κ τ) (e : ι) (payload : Part abi) (rest : List (Slot abi)) :
    EmitterFrame s (emitNext s e payload rest).1 ∧ (emitNext s e payload rest).1.ring = s.ring ∧
      (emitNext s e payload rest).1.signaled = s.signaled ∧
      ∃ pc, (emitNext s e payload rest).1.emitters = Function.update s.emitters e pc := by
  cases rest with
  | nil => exact ⟨⟨rfl, rfl, rfl, rfl, rfl, rfl, rfl⟩, rfl, rfl, _, rfl⟩
  | cons slot rest => exact ⟨⟨rfl, rfl, rfl, rfl, rfl, rfl, rfl⟩, rfl, rfl, _, rfl⟩

theorem emitStepFrame {s s' : State abi ι κ τ} {e : ι} {payloadSize : Nat} {slots : List (Slot abi)}
    {payload : Part abi} {event : Event ι κ τ} (taken : emitStep s e payloadSize slots payload = some (s', event)) :
    EmitterFrame s s' ∧ s'.ring = s.ring ∧ s'.signaled = s.signaled ∧ s.emitters e = .idle ∧
      ∃ pc, s'.emitters = Function.update s.emitters e pc := by
  unfold emitStep at taken
  split at taken
  · rename_i idle
    split at taken
    · have state := congrArg Prod.fst (Option.some.inj taken)
      dsimp only at state
      obtain ⟨frame, ring, signaled, pc⟩ := emitNextFrame s e payload slots
      rw [state] at frame ring signaled pc
      exact ⟨frame, ring, signaled, idle, pc⟩
    · cases Option.some.inj taken
      exact ⟨⟨rfl, rfl, rfl, rfl, rfl, rfl, rfl⟩, rfl, rfl, idle, _, (Function.update_eq_self e s.emitters).symm⟩
  · contradiction

/- One step of an emitter: an access of its `try_pushv` call, which may end it,
or the wakeup signal after a push. -/
inductive EmitterMoves (s : State abi ι κ τ) (e : ι) (spurious : Bool) : State abi ι κ τ → Prop where
  | pushing {slot : Slot abi} {rest : List (Slot abi)} {payload : Part abi} {s' : State abi ι κ τ}
      {event : MpscRecordRing.Event ι} (at_ : s.emitters e = .pushing slot rest payload)
      (ring : tryPushvStep s.ring e (slotCallParts slot payload) spurious = some (s'.ring, event))
      (frame : EmitterFrame s s') (signaled : s'.signaled = s.signaled)
      (emitters : ∃ pc, s'.emitters = Function.update s.emitters e pc ∧
        (event.pushResult = some .ok → pc = .signaling rest payload)) : EmitterMoves s e spurious s'
  | signaling {rest : List (Slot abi)} {payload : Part abi} {s' : State abi ι κ τ}
      (at_ : s.emitters e = .signaling rest payload) (ring : s'.ring = s.ring) (frame : EmitterFrame s s')
      (signaled : s'.signaled = true) (emitters : ∃ pc, s'.emitters = Function.update s.emitters e pc) :
      EmitterMoves s e spurious s'

theorem emitterMoves {s s' : State abi ι κ τ} {e : ι} {spurious : Bool} {event : Event ι κ τ}
    (taken : emitterStep s e spurious = some (s', event)) : EmitterMoves s e spurious s' := by
  unfold emitterStep at taken
  split at taken
  · contradiction
  · rename_i slot rest payload at_
    obtain ⟨⟨ring', ev⟩, ring, moved⟩ := Option.map_eq_some_iff.mp taken
    cases result : ev.pushResult with
    | none =>
      rw [result] at moved
      cases moved
      exact .pushing at_ ring ⟨rfl, rfl, rfl, rfl, rfl, rfl, rfl⟩ rfl
        ⟨_, (Function.update_eq_self e s.emitters).symm, by rw [result]; nofun⟩
    | some rc =>
      rw [result] at moved
      by_cases ok : rc = .ok
      · subst ok
        cases moved
        exact .pushing at_ ring ⟨rfl, rfl, rfl, rfl, rfl, rfl, rfl⟩ rfl ⟨_, rfl, fun _ => rfl⟩
      · have last : (s.setRing ring').setEmitter e .idle = s' := by
          cases rc <;> first | exact absurd rfl ok | exact congrArg Prod.fst moved
        rw [← last]
        exact .pushing at_ ring ⟨rfl, rfl, rfl, rfl, rfl, rfl, rfl⟩ rfl
          ⟨_, rfl, fun done => absurd (Option.some.inj (result.symm.trans done)) ok⟩
  · rename_i rest payload at_
    have state := congrArg Prod.fst (Option.some.inj taken)
    dsimp only at state
    obtain ⟨frame, ring, signaled, pc⟩ := emitNextFrame { s with signaled := true } e payload rest
    rw [state] at frame ring signaled pc
    exact .signaling at_ ring ⟨frame.activations, frame.quitters, frame.control, frame.quitRequested,
      frame.running, frame.asyncStarted, frame.asyncRc⟩ signaled pc

theorem tryPushvStepRing {r r' : MpscRecordRing.State abi ι} {e : ι} {parts : List (Part abi)} {spurious : Bool}
    {event : MpscRecordRing.Event ι} (taken : tryPushvStep r e parts spurious = some (r', event)) :
    pushStep r e (some parts) = some (r', event) ∨ producerStep r e spurious = some (r', event) := by
  unfold tryPushvStep at taken
  split at taken
  · exact Or.inl taken
  · exact Or.inr taken

theorem EmitterMoves.frame {s s' : State abi ι κ τ} {e : ι} {spurious : Bool} (moves : EmitterMoves s e spurious s') :
    EmitterFrame s s' := by
  cases moves with
  | pushing _ _ frame => exact frame
  | signaling _ _ frame => exact frame

end Emitters

section Runs

variable [DecidableEq τ]

/- One step of a thread inside `ns_loop_run_impl`. -/
inductive ActivationMoves (s : State abi ι κ τ) (t : Option τ) : State abi ι κ τ → Prop where
  | lost (at_ : s.activations t = .casRunning) (taken : s.running = true) :
      ActivationMoves s t (leaveRun s t .exists).1
  | won (at_ : s.activations t = .casRunning) (free : s.running = false) :
      ActivationMoves s t ({ s with running := true }.setRun t .acquire)
  | dispatched {pc : RunPc} {ring : MpscRecordRing.State abi ι} (before : (s.activations t).Dispatching)
      (after : pc.Dispatching)
      (moved : ring = s.ring ∨ ∃ event, tryAcquireStep s.ring = some (ring, event) ∨ tryReleaseStep s.ring = some (ring, event)) :
      ActivationMoves s t ((s.setRing ring).setRun t pc)
  | emptied {ring : MpscRecordRing.State abi ι} {event : MpscRecordRing.Event ι} {rc : Status}
      (at_ : s.activations t = .acquire) (moved : tryAcquireStep s.ring = some (ring, event))
      (returned : event.consumerResult = some rc) (failed : rc ≠ .ok) :
      ActivationMoves s t ((s.setRing ring).setRun t .testQuit)
  | quits (at_ : s.activations t = .testQuit) (requested : s.quitRequested = true) :
      ActivationMoves s t (s.setRun t .resetQuit)
  | waits (at_ : s.activations t = .testQuit) (stays : s.quitRequested = false) :
      ActivationMoves s t (s.setRun t .wait)
  | woken (at_ : s.activations t = .wait) (latched : s.signaled = true) :
      ActivationMoves s t ({ s with signaled := false }.setRun t .acquire)
  | waitFailed {rc : Status} (at_ : s.activations t = .wait) (failed : rc ≠ .ok) :
      ActivationMoves s t (s.setRun t (.clearRunning rc))
  | reset (at_ : s.activations t = .resetQuit) :
      ActivationMoves s t ({ s with quitRequested := false }.setRun t (.clearRunning .ok))
  | left {rc : Status} (at_ : s.activations t = .clearRunning rc) :
      ActivationMoves s t (leaveRun { s with running := false } t rc).1
  | stored {rc : Status} (at_ : s.activations t = .storeRc rc) :
      ActivationMoves s t ({ s with asyncRc := rc }.setRun t .exited)

theorem setRunSame (s : State abi ι κ τ) (t : Option τ) : s.setRun t (s.activations t) = s := by
  unfold State.setRun
  rw [Function.update_eq_self]

theorem dispatchStays {s : State abi ι κ τ} {t : Option τ} {ring : MpscRecordRing.State abi ι} (before : (s.activations t).Dispatching)
    (ringMoved : ring = s.ring ∨ ∃ event, tryAcquireStep s.ring = some (ring, event) ∨ tryReleaseStep s.ring = some (ring, event)) :
    ActivationMoves s t (s.setRing ring) := by
  have stays : ActivationMoves s t ((s.setRing ring).setRun t (s.activations t)) := .dispatched before before ringMoved
  rw [show (s.setRing ring).setRun t (s.activations t) = s.setRing ring from setRunSame (s.setRing ring) t] at stays
  exact stays

theorem acquireMoves {s s' : State abi ι κ τ} {t : Option τ} {rc : Status} {event : Event ι κ τ} (at_ : s.activations t = .acquire)
    (taken : activationStep s t rc = some (s', event)) : ActivationMoves s t s' := by
  unfold activationStep at taken
  rw [at_] at taken
  obtain ⟨⟨ring, ev⟩, moved, after⟩ := Option.map_eq_some_iff.mp taken
  have before : (s.activations t).Dispatching := by
    rw [at_]
    trivial
  have ringMoved : ring = s.ring ∨ ∃ event, tryAcquireStep s.ring = some (ring, event) ∨
      tryReleaseStep s.ring = some (ring, event) := Or.inr ⟨ev, Or.inl moved⟩
  cases result : ev.consumerResult with
  | none =>
    rw [result] at after
    cases after
    exact dispatchStays before ringMoved
  | some rc =>
    rw [result] at after
    by_cases ok : rc = .ok
    · subst ok
      cases after
      exact .dispatched before trivial ringMoved
    · have last : (s.setRing ring).setRun t .testQuit = s' := by
        cases rc <;> first | exact absurd rfl ok | exact congrArg Prod.fst after
      rw [← last]
      exact .emptied at_ moved result ok

theorem slotCallMoves {s s' : State abi ι κ τ} {t : Option τ} {rc : Status} {event : Event ι κ τ} (at_ : s.activations t = .slotCall)
    (taken : activationStep s t rc = some (s', event)) : ActivationMoves s t s' := by
  unfold activationStep at taken
  rw [at_] at taken
  obtain ⟨loan, held, after⟩ := Option.map_eq_some_iff.mp taken
  have before : (s.activations t).Dispatching := by
    rw [at_]
    trivial
  cases record : readSlotCall abi (loan.readable s.ring) with
  | none =>
    rw [record] at after
    cases after
    have moves : ActivationMoves s t ((s.setRing s.ring).setRun t .release) := .dispatched before trivial (Or.inl rfl)
    exact moves
  | some slot =>
    rw [record] at after
    cases after
    have moves : ActivationMoves s t ((s.setRing s.ring).setRun t .inSlot) := .dispatched before trivial (Or.inl rfl)
    exact moves

theorem releaseMoves {s s' : State abi ι κ τ} {t : Option τ} {rc : Status} {event : Event ι κ τ} (at_ : s.activations t = .release)
    (taken : activationStep s t rc = some (s', event)) : ActivationMoves s t s' := by
  unfold activationStep at taken
  rw [at_] at taken
  obtain ⟨⟨ring, ev⟩, moved, after⟩ := Option.map_eq_some_iff.mp taken
  have before : (s.activations t).Dispatching := by
    rw [at_]
    trivial
  have ringMoved : ring = s.ring ∨ ∃ event, tryAcquireStep s.ring = some (ring, event) ∨
      tryReleaseStep s.ring = some (ring, event) := Or.inr ⟨ev, Or.inr moved⟩
  cases result : ev.consumerResult with
  | none =>
    rw [result] at after
    cases after
    exact dispatchStays before ringMoved
  | some rc =>
    rw [result] at after
    cases after
    exact .dispatched before trivial ringMoved

theorem waitMoves {s s' : State abi ι κ τ} {t : Option τ} {rc : Status} {event : Event ι κ τ} (at_ : s.activations t = .wait)
    (taken : activationStep s t rc = some (s', event)) : ActivationMoves s t s' := by
  unfold activationStep at taken
  rw [at_] at taken
  dsimp only at taken
  split at taken
  · split at taken
    · rename_i latched
      cases Option.some.inj taken
      exact .woken at_ latched
    · contradiction
  · rename_i failed
    cases Option.some.inj taken
    exact .waitFailed at_ failed

theorem activationMoves {s s' : State abi ι κ τ} {t : Option τ} {rc : Status} {event : Event ι κ τ}
    (taken : activationStep s t rc = some (s', event)) : ActivationMoves s t s' := by
  cases at_ : s.activations t with
  | out | exited =>
    unfold activationStep at taken
    rw [at_] at taken
    contradiction
  | casRunning =>
    unfold activationStep at taken
    rw [at_] at taken
    dsimp only at taken
    split at taken
    · rename_i busy
      have state : (leaveRun s t .exists).1 = s' := congrArg Prod.fst (Option.some.inj taken)
      rw [← state]
      exact .lost at_ busy
    · rename_i free
      cases Option.some.inj taken
      exact .won at_ (Bool.eq_false_iff.mpr free)
  | acquire => exact acquireMoves at_ taken
  | slotCall => exact slotCallMoves at_ taken
  | inSlot =>
    unfold activationStep at taken
    rw [at_] at taken
    cases Option.some.inj taken
    have before : (s.activations t).Dispatching := by
      rw [at_]
      trivial
    have moves : ActivationMoves s t ((s.setRing s.ring).setRun t .release) := .dispatched before trivial (Or.inl rfl)
    exact moves
  | release => exact releaseMoves at_ taken
  | testQuit =>
    unfold activationStep at taken
    rw [at_] at taken
    cases Option.some.inj taken
    cases requested : s.quitRequested with
    | true => exact .quits at_ requested
    | false => exact .waits at_ requested
  | wait => exact waitMoves at_ taken
  | resetQuit =>
    unfold activationStep at taken
    rw [at_] at taken
    cases Option.some.inj taken
    exact .reset at_
  | clearRunning rc =>
    unfold activationStep at taken
    rw [at_] at taken
    have state : (leaveRun { s with running := false } t rc).1 = s' := congrArg Prod.fst (Option.some.inj taken)
    rw [← state]
    exact .left at_
  | storeRc rc =>
    unfold activationStep at taken
    rw [at_] at taken
    cases Option.some.inj taken
    exact .stored at_

/- One step of `ns_loop_start` or `ns_loop_stop` past its first check. -/
inductive ControlMoves (s : State abi ι κ τ) : State abi ι κ τ → Event ι κ τ → Prop where
  | spawned (at_ : s.control = .startThread) :
      ControlMoves s ({ s with asyncRc := .ok, control := .startSet }.setRun none .casRunning) .access
  | notSpawned {rc : Status} (at_ : s.control = .startThread) (failed : rc ≠ .ok) :
      ControlMoves s { s with asyncRc := .ok, control := .idle } (.startReturned rc)
  | started (at_ : s.control = .startSet) :
      ControlMoves s { s with asyncStarted := true, control := .idle } (.startReturned .ok)
  | quitStored (at_ : s.control = .stopQuit) :
      ControlMoves s { s with quitRequested := true, control := .stopSignal } .access
  | signaled (at_ : s.control = .stopSignal) :
      ControlMoves s { s with signaled := true, control := .stopJoin } .access
  | joined (at_ : s.control = .stopJoin) (exited : s.activations none = .exited) :
      ControlMoves s { s with control := .stopClear } .access
  | notJoined {rc : Status} (at_ : s.control = .stopJoin) (failed : rc ≠ .ok) :
      ControlMoves s { s with control := .idle } (.stopReturned rc)
  | stopped (at_ : s.control = .stopClear) :
      ControlMoves s ({ s with asyncStarted := false, control := .idle }.setRun none .out) (.stopReturned s.asyncRc)

theorem controlMoves {s s' : State abi ι κ τ} {rc : Status} {event : Event ι κ τ}
    (taken : controlStep s rc = some (s', event)) : ControlMoves s s' event := by
  unfold controlStep at taken
  cases at_ : s.control with
  | idle =>
    rw [at_] at taken
    contradiction
  | startThread =>
    rw [at_] at taken
    dsimp only at taken
    split at taken
    · cases Option.some.inj taken
      exact .spawned at_
    · rename_i failed
      cases Option.some.inj taken
      exact .notSpawned at_ failed
  | startSet =>
    rw [at_] at taken
    cases Option.some.inj taken
    exact .started at_
  | stopQuit =>
    rw [at_] at taken
    cases Option.some.inj taken
    exact .quitStored at_
  | stopSignal =>
    rw [at_] at taken
    cases Option.some.inj taken
    exact .signaled at_
  | stopJoin =>
    rw [at_] at taken
    dsimp only at taken
    split at taken
    · split at taken
      · rename_i exited
        cases Option.some.inj taken
        exact .joined at_ exited
      · contradiction
    · rename_i failed
      cases Option.some.inj taken
      exact .notJoined at_ failed
  | stopClear =>
    rw [at_] at taken
    cases Option.some.inj taken
    exact .stopped at_

end Runs

end Nanosig.Loop
