import Nanosig.Loop.Steps
import Nanosig.MpscRecordRing.Delivery

/-! No wakeup is lost: what a loop that blocks has not yet dispatched is on its
way to a wakeup signal. A record that stops the drain half written is signalled
by its own emitter after the commit, which is why only reservations and signals
still in flight matter, and not who signalled what. -/
namespace Nanosig.Loop
open MpscRecordRing Signal TransitionSystem

variable {abi : Abi} {ι κ τ : Type}

def EmitterPc.Signaling : EmitterPc abi → Prop
  | .signaling _ _ => True
  | _ => False

def InFlight (s : State abi ι κ τ) (e : ι) : Prop :=
  ¬ (s.ring.producers e).Quiet ∨ (s.emitters e).Signaling

instance (pc : ProducerPc abi ι) : Decidable pc.Quiet := by
  unfold ProducerPc.Quiet
  split <;> infer_instance

instance (pc : EmitterPc abi) : Decidable pc.Signaling := by
  unfold EmitterPc.Signaling
  split <;> infer_instance

instance (s : State abi ι κ τ) (e : ι) : Decidable (InFlight s e) := inferInstanceAs (Decidable (_ ∨ _))

/- Some `ns_loop_quit`, called directly or by `ns_loop_stop`, has stored its
request and not yet signalled. -/
def Quitting (s : State abi ι κ τ) : Prop := (∃ k, s.quitters k = true) ∨ s.control = .stopSignal

def RunPc.Checking : RunPc → Prop
  | .testQuit | .wait => True
  | _ => False

theorem RunPc.Checking.holding {pc : RunPc} (checking : pc.Checking) : pc.Holding := by
  cases pc <;> trivial

/- Nothing undispatched, or a signal latched or on its way. -/
def Drained (s : State abi ι κ τ) : Prop := s.ring.window = [] ∨ s.signaled = true ∨ ∃ e, InFlight s e

def QuitSeen (s : State abi ι κ τ) : Prop := s.quitRequested = false ∨ s.signaled = true ∨ Quitting s

structure Inv (s : State abi ι κ τ) : Prop where
  ring : MpscRecordRing.Inv s.ring
  owner : ∀ t, (s.activations t).Holding → s.running = true
  single : ∀ t t', (s.activations t).Holding → (s.activations t').Holding → t = t'
  drained : ∀ t, (s.activations t).Checking → Drained s
  quitSeen : ∀ t, s.activations t = .wait → QuitSeen s

section Ring

variable [DecidableEq ι]

/- A step of `try_pushv` leaves a reservation in flight, or completes one, or
reserves nothing. -/
theorem tryPushvFlight {r r' : MpscRecordRing.State abi ι} {e : ι} {parts : List (Part abi)} {spurious : Bool}
    {event : MpscRecordRing.Event ι} (taken : tryPushvStep r e parts spurious = some (r', event)) :
    (∀ q, q ≠ e → r'.producers q = r.producers q) ∧
      (¬ (r'.producers e).Quiet ∨ event.pushResult = some .ok ∨ ((r.producers e).Quiet ∧ r'.window = r.window)) := by
  rcases tryPushvStepRing taken with push | access
  · unfold pushStep at push
    split at push
    · rename_i idle
      have quiet : (r.producers e).Quiet := by
        rw [idle]
        trivial
      split at push <;> cases Option.some.inj push
      · exact ⟨fun _ _ => rfl, Or.inr (Or.inr ⟨quiet, rfl⟩)⟩
      · exact ⟨fun q other => Function.update_of_ne other _ _, Or.inr (Or.inr ⟨quiet, rfl⟩)⟩
    · contradiction
  · refine ⟨(producerStepElsewhere access).producers, ?_⟩
    unfold producerStep at access
    cases at_ : r.producers e with
    | idle =>
      rw [at_] at access
      contradiction
    | loadWrite push =>
      rw [at_] at access
      cases Option.some.inj access
      exact Or.inr (Or.inr ⟨trivial, rfl⟩)
    | loadRead push writePos seen =>
      rw [at_] at access
      dsimp only at access
      split at access <;> cases Option.some.inj access <;> exact Or.inr (Or.inr ⟨trivial, rfl⟩)
    | casReserve push writePos plan seen seenReleased =>
      rw [at_] at access
      dsimp only at access
      split at access
      · cases Option.some.inj access
        left
        unfold MpscRecordRing.State.reserve MpscRecordRing.State.setProducer
        dsimp only
        rw [Function.update_self]
        exact fun quiet => quiet
      · cases Option.some.inj access
        exact Or.inr (Or.inr ⟨trivial, rfl⟩)
    | writing stage r₀ =>
      rw [at_] at access
      have both := Option.some.inj access
      have writing : (∃ stage', (writeStep r e r₀ stage).1.producers e = .writing stage' r₀) ∨
          (writeStep r e r₀ stage).2.pushResult = some .ok := by
        unfold writeStep
        split
        case h_5 => exact Or.inr rfl
        all_goals exact Or.inl ⟨_, Function.update_self ..⟩
      rw [both] at writing
      rcases writing with ⟨stage', still⟩ | done
      · left
        rw [show r'.producers e = .writing stage' r₀ from still]
        exact fun quiet => quiet
      · exact Or.inr (Or.inl done)

omit [DecidableEq ι] in
theorem acquireStops {r r' : MpscRecordRing.State abi ι} {event : MpscRecordRing.Event ι} {rc : Status}
    (inv : MpscRecordRing.Inv r) (taken : tryAcquireStep r = some (r', event))
    (returned : event.consumerResult = some rc) (failed : rc ≠ .ok) :
    r'.window = [] ∨ ∃ e, ¬ (r'.producers e).Quiet := by
  unfold tryAcquireStep tryConsumerStep at taken
  split at taken
  · -- A ring that keeps its invariant passes the check of `try_acquire`.
    unfold acquireStep at taken
    split at taken
    · contradiction
    · rw [inv.valid] at taken
      cases Option.some.inj taken
      contradiction
  · have sound := (inv.consumerStep taken).2
    have same := (consumerStepEffect taken).1
    have empty : event = .acquireReturned .empty := by
      cases event with
      | acquireReturned rc' =>
        cases Option.some.inj returned
        rcases sound with ok | empty
        · exact absurd ok failed
        · rw [empty]
      | releaseReturned rc' =>
        cases Option.some.inj returned
        exact absurd sound failed
      | _ => contradiction
    rw [empty] at taken
    by_cases quiet : ∀ e, (r.producers e).Quiet
    · left
      have drained := inv.emptyMeansDrained quiet taken
      have kept := consumerStepReturned inv taken
      have none_ : consumedPayload ⟨r, .consumer, .acquireReturned .empty⟩ = none := rfl
      rw [none_, Option.toList_none, List.append_nil] at kept
      unfold MpscRecordRing.State.window
      rw [kept, same.log]
      exact List.drop_of_length_le (Nat.le_of_eq drained.symm)
    · right
      rw [same.producers]
      exact not_forall.mp quiet

omit [DecidableEq ι] in
theorem dispatchRing {r r' : MpscRecordRing.State abi ι} (inv : MpscRecordRing.Inv r)
    (moved : r' = r ∨ ∃ event, tryAcquireStep r = some (r', event) ∨ tryReleaseStep r = some (r', event)) :
    MpscRecordRing.Inv r' := by
  rcases moved with rfl | ⟨event, acquire | release⟩
  · exact inv
  · unfold tryAcquireStep tryConsumerStep at acquire
    split at acquire
    · exact (inv.acquireStep acquire).1
    · exact (inv.consumerStep acquire).1
  · unfold tryReleaseStep tryConsumerStep at release
    split at release
    · exact (inv.releaseStep release).1
    · exact (inv.consumerStep release).1

end Ring

namespace Inv

variable {s : State abi ι κ τ} (inv : Inv s)
include inv

theorem onlyHolder {t t' : Option τ} (holding : (s.activations t).Holding) (other : t' ≠ t) :
    ¬ (s.activations t').Holding := fun also => other (inv.single t' t also holding)

/- A step of one thread between states of `ns_loop_run_impl` in which it does
not hold the loop. -/
theorem outside [DecidableEq τ] {s' : State abi ι κ τ} {t : Option τ} {pc : RunPc}
    (activations : s'.activations = Function.update s.activations t pc) (after : ¬ pc.Holding)
    (ring : s'.ring = s.ring) (running : s'.running = s.running)
    (drained : Drained s → Drained s') (quitSeen : QuitSeen s → QuitSeen s') : Inv s' := by
  have before : ∀ t', (s'.activations t').Holding → s'.activations t' = s.activations t' := by
    intro t' holding
    rw [activations] at holding ⊢
    by_cases same : t' = t
    · rw [same, Function.update_self] at holding
      exact absurd holding after
    · exact Function.update_of_ne same _ _
  refine ⟨by rw [ring]; exact inv.ring, ?_, ?_, ?_, ?_⟩
  · intro t' holding
    rw [running]
    exact inv.owner t' (by rw [← before t' holding]; exact holding)
  · intro t' t'' holding holding'
    exact inv.single t' t'' (by rw [← before t' holding]; exact holding) (by rw [← before t'' holding']; exact holding')
  · intro t' checking
    exact drained (inv.drained t' (by rw [← before t' checking.holding]; exact checking))
  · intro t' waiting
    have holding : (s'.activations t').Holding := by
      rw [waiting]
      trivial
    exact quitSeen (inv.quitSeen t' (by rw [← before t' holding]; exact waiting))

theorem holder [DecidableEq τ] {s' : State abi ι κ τ} {t : Option τ} {pc : RunPc} (holding : (s.activations t).Holding)
    (ring : MpscRecordRing.Inv s'.ring) (running : s'.running = s.running)
    (activations : s'.activations = Function.update s.activations t pc)
    (drained : pc.Checking → Drained s') (quitSeen : pc = .wait → QuitSeen s') : Inv s' := by
  have mine : s'.activations t = pc := by
    rw [activations, Function.update_self]
  have others : ∀ t', (s'.activations t').Holding → t' = t := by
    intro t' also
    by_contra other
    rw [activations, Function.update_of_ne other] at also
    exact inv.onlyHolder holding other also
  refine ⟨ring, ?_, ?_, ?_, ?_⟩
  · intro _ _
    rw [running]
    exact inv.owner t holding
  · intro t' t'' also also'
    rw [others t' also, others t'' also']
  · intro t' checking
    obtain rfl := others t' checking.holding
    exact drained (mine ▸ checking)
  · intro t' waiting
    obtain rfl := others t' (by rw [waiting]; trivial)
    exact quitSeen (mine.symm.trans waiting)

theorem emitted {s' : State abi ι κ τ} (frame : EmitterFrame s s') (ring : MpscRecordRing.Inv s'.ring)
    (signaled : s.signaled = true → s'.signaled = true) (drained : Drained s → Drained s') : Inv s' := by
  refine ⟨ring, ?_, ?_, ?_, ?_⟩
  · rw [frame.activations, frame.running]
    exact inv.owner
  · rw [frame.activations]
    exact inv.single
  · rw [frame.activations]
    exact fun t checking => drained (inv.drained t checking)
  · rw [frame.activations]
    intro t waiting
    unfold QuitSeen Quitting
    rw [frame.quitRequested, frame.quitters, frame.control]
    rcases inv.quitSeen t waiting with clear | latched | quitting
    · exact Or.inl clear
    · exact Or.inr (Or.inl (signaled latched))
    · exact Or.inr (Or.inr quitting)

theorem emitStep [DecidableEq ι] {s' : State abi ι κ τ} {e : ι} {payloadSize : Nat} {slots : List (Slot abi)}
    {payload : Part abi} {event : Event ι κ τ}
    (taken : Loop.emitStep s e payloadSize slots payload = some (s', event)) : Inv s' := by
  obtain ⟨frame, ring, signaled, idle, pc, emitters⟩ := emitStepFrame taken
  refine inv.emitted frame (by rw [ring]; exact inv.ring) (by rw [signaled]; exact id) ?_
  unfold Drained
  rw [ring, signaled]
  rintro (empty | latched | ⟨e', reserved | signaling⟩)
  · exact Or.inl empty
  · exact Or.inr (Or.inl latched)
  · exact Or.inr (Or.inr ⟨e', Or.inl (by rw [ring]; exact reserved)⟩)
  · refine Or.inr (Or.inr ⟨e', Or.inr ?_⟩)
    have other : e' ≠ e := by
      rintro rfl
      rw [idle] at signaling
      exact signaling
    rw [emitters, Function.update_of_ne other]
    exact signaling

theorem emitterStep [DecidableEq ι] {s' : State abi ι κ τ} {e : ι} {spurious : Bool} {event : Event ι κ τ}
    (fresh : MpscRecordRing.NoLap s.ring (.producer e spurious))
    (taken : Loop.emitterStep s e spurious = some (s', event)) : Inv s' := by
  have moves := emitterMoves taken
  have frame := moves.frame
  cases moves with
  | @pushing slot rest payload _ ev at_ ring _ signaled emitters =>
    have ring' : MpscRecordRing.Inv s'.ring := by
      rcases tryPushvStepRing ring with push | access
      · exact inv.ring.pushStep push
      · exact inv.ring.producerStep fresh access
    refine inv.emitted frame ring' (by rw [signaled]; exact id) ?_
    obtain ⟨pc, emitters, signaling⟩ := emitters
    obtain ⟨others, flight⟩ := tryPushvFlight ring
    have pushed : ev.pushResult = some .ok → InFlight s' e := by
      intro ok
      right
      rw [emitters, signaling ok, Function.update_self]
      trivial
    unfold Drained
    rw [signaled]
    rintro (empty | latched | ⟨e', still⟩)
    · rcases flight with reserved | ok | ⟨_, same⟩
      · exact Or.inr (Or.inr ⟨e, Or.inl reserved⟩)
      · exact Or.inr (Or.inr ⟨e, pushed ok⟩)
      · exact Or.inl (same.trans empty)
    · exact Or.inr (Or.inl latched)
    · refine Or.inr (Or.inr ?_)
      by_cases mine : e' = e
      · -- Its reservation stays in flight until the push returns, and then the signal is due.
        subst mine
        rcases flight with reserved | ok | ⟨quiet, _⟩
        · exact ⟨e', Or.inl reserved⟩
        · exact ⟨e', pushed ok⟩
        · rcases still with reserved | signaling
          · exact absurd quiet reserved
          · rw [at_] at signaling
            exact signaling.elim
      · refine ⟨e', ?_⟩
        unfold InFlight
        rw [others e' mine, emitters, Function.update_of_ne mine]
        exact still
  | @signaling rest payload _ at_ ring _ signaled emitters =>
    exact inv.emitted frame (by rw [ring]; exact inv.ring) (fun _ => signaled) fun _ => Or.inr (Or.inl signaled)

omit inv in
theorem holdingAt {t : Option τ} {pc : RunPc} (at_ : s.activations t = pc) (holds : pc.Holding) :
    (s.activations t).Holding := by
  rw [at_]
  exact holds

/- A step of a thread in `ns_loop_run_impl`. -/
theorem activationStep [DecidableEq τ] {s' : State abi ι κ τ} {t : Option τ} {rc : Status} {event : Event ι κ τ}
    (taken : Loop.activationStep s t rc = some (s', event)) : Inv s' := by
  cases activationMoves taken with
  | lost at_ busy =>
    cases t with
    | none => exact inv.outside rfl (fun holding => holding) rfl rfl id id
    | some t => exact inv.outside rfl (fun holding => holding) rfl rfl id id
  | won at_ free =>
    have nobody : ∀ t', ¬ (s.activations t').Holding := by
      intro t' holding
      have taken_ := inv.owner t' holding
      rw [free] at taken_
      contradiction
    have only : ∀ t', (({ s with running := true }.setRun t RunPc.acquire).activations t').Holding → t' = t := by
      intro t' holding
      by_contra other
      unfold State.setRun at holding
      dsimp only at holding
      rw [Function.update_of_ne other] at holding
      exact nobody t' holding
    have mine : ({ s with running := true }.setRun t RunPc.acquire).activations t = .acquire := Function.update_self ..
    refine ⟨inv.ring, fun _ _ => rfl, fun t' t'' also also' => (only t' also).trans (only t'' also').symm, ?_, ?_⟩
    · intro t' checking
      obtain rfl := only t' checking.holding
      rw [mine] at checking
      exact checking.elim
    · intro t' waiting
      obtain rfl := only t' (by rw [waiting]; trivial)
      rw [mine] at waiting
      contradiction
  | @dispatched pc ring before after moved =>
    refine inv.holder before.holding (dispatchRing inv.ring moved) rfl rfl ?_ ?_
    · intro checking
      cases pc <;> contradiction
    · rintro rfl
      exact after.elim
  | @emptied ring ev rc' at_ moved returned failed =>
    have holding := holdingAt at_ trivial
    refine inv.holder holding (dispatchRing inv.ring (Or.inr ⟨ev, Or.inl moved⟩)) rfl rfl ?_ (fun h => nomatch h)
    intro _
    rcases acquireStops inv.ring moved returned failed with empty | ⟨e, reserved⟩
    · exact Or.inl empty
    · exact Or.inr (Or.inr ⟨e, Or.inl reserved⟩)
  | quits at_ requested =>
    have holding := holdingAt at_ trivial
    exact inv.holder holding inv.ring rfl rfl (fun h => h.elim) (fun h => nomatch h)
  | waits at_ stays =>
    have holding := holdingAt at_ trivial
    have drained : Drained s := inv.drained t (by rw [at_]; trivial)
    exact inv.holder holding inv.ring rfl rfl (fun _ => drained) (fun _ => Or.inl stays)
  | woken at_ latched =>
    have holding := holdingAt at_ trivial
    exact inv.holder holding inv.ring rfl rfl (fun h => h.elim) (fun h => nomatch h)
  | waitFailed at_ failed =>
    have holding := holdingAt at_ trivial
    exact inv.holder holding inv.ring rfl rfl (fun h => h.elim) (fun h => nomatch h)
  | reset at_ =>
    have holding := holdingAt at_ trivial
    exact inv.holder holding inv.ring rfl rfl (fun h => h.elim) (fun h => nomatch h)
  | @left rc' at_ =>
    -- Only this thread held the loop, so clearing `running` leaves nobody in it.
    have holding := holdingAt at_ trivial
    obtain ⟨pc, after, activations, ring⟩ : ∃ pc : RunPc, ¬ pc.Holding ∧
        (leaveRun { s with running := false } t rc').1.activations = Function.update s.activations t pc ∧
        (leaveRun { s with running := false } t rc').1.ring = s.ring := by
      cases t with
      | none => exact ⟨.storeRc rc', fun h => h, rfl, rfl⟩
      | some t => exact ⟨.out, fun h => h, rfl, rfl⟩
    have nobody : ∀ t', ¬ ((leaveRun { s with running := false } t rc').1.activations t').Holding := by
      intro t'
      rw [activations]
      by_cases same : t' = t
      · rw [same, Function.update_self]
        exact after
      · rw [Function.update_of_ne same]
        exact inv.onlyHolder holding same
    refine ⟨by rw [ring]; exact inv.ring, fun t' also => absurd also (nobody t'),
      fun t' _ also => absurd also (nobody t'), fun t' checking => absurd checking.holding (nobody t'), ?_⟩
    intro t' waiting
    exact absurd (by rw [waiting]; trivial) (nobody t')
  | stored at_ => exact inv.outside rfl (fun holding => holding) rfl rfl id id

/- A step that moves no thread of the loop, and either signals or leaves the
requests and signals alone. -/
theorem aside {s' : State abi ι κ τ} (ring : s'.ring = s.ring) (emitters : s'.emitters = s.emitters)
    (activations : s'.activations = s.activations) (running : s'.running = s.running)
    (signaled : s.signaled = true → s'.signaled = true) (quitSeen : QuitSeen s → QuitSeen s') : Inv s' := by
  refine ⟨by rw [ring]; exact inv.ring, by rw [activations, running]; exact inv.owner,
    by rw [activations]; exact inv.single, ?_, ?_⟩
  · rw [activations]
    intro t checking
    rcases inv.drained t checking with empty | latched | ⟨e, still⟩
    · exact Or.inl (by rw [ring]; exact empty)
    · exact Or.inr (Or.inl (signaled latched))
    · refine Or.inr (Or.inr ⟨e, ?_⟩)
      unfold InFlight
      rw [ring, emitters]
      exact still
  · rw [activations]
    exact fun t waiting => quitSeen (inv.quitSeen t waiting)

theorem quitStep [DecidableEq κ] {s' : State abi ι κ τ} {k : κ} {event : Event ι κ τ}
    (taken : Loop.quitStep s k = some (s', event)) : Inv s' := by
  unfold Loop.quitStep at taken
  split at taken
  · contradiction
  · cases Option.some.inj taken
    exact inv.aside rfl rfl rfl rfl id fun _ => Or.inr (Or.inr (Or.inl ⟨k, Function.update_self ..⟩))

theorem quitterStep [DecidableEq κ] {s' : State abi ι κ τ} {k : κ} {event : Event ι κ τ}
    (taken : Loop.quitterStep s k = some (s', event)) : Inv s' := by
  unfold Loop.quitterStep at taken
  split at taken
  · cases Option.some.inj taken
    exact inv.aside rfl rfl rfl rfl (fun _ => rfl) fun _ => Or.inr (Or.inl rfl)
  · contradiction

theorem runCallStep [DecidableEq τ] {s' : State abi ι κ τ} {t : τ} {event : Event ι κ τ}
    (taken : Loop.runCallStep s t = some (s', event)) : Inv s' := by
  unfold Loop.runCallStep at taken
  split at taken
  · split at taken
    · cases Option.some.inj taken
      exact inv
    · cases Option.some.inj taken
      exact inv.outside rfl (fun holding => holding) rfl rfl id id
  · contradiction

theorem controlStep [DecidableEq τ] {s' : State abi ι κ τ} {rc : Status} {event : Event ι κ τ}
    (taken : Loop.controlStep s rc = some (s', event)) : Inv s' := by
  -- A move from any other program counter than `stopSignal` keeps every quitter.
  have keeps : ∀ s' : State abi ι κ τ, s.control ≠ .stopSignal → s'.quitters = s.quitters →
      s'.quitRequested = s.quitRequested → s'.signaled = s.signaled → QuitSeen s → QuitSeen s' := by
    intro s' other quitters requested signaled seen
    unfold QuitSeen Quitting
    rw [quitters, requested, signaled]
    rcases seen with clear | latched | quitter | stopping
    · exact Or.inl clear
    · exact Or.inr (Or.inl latched)
    · exact Or.inr (Or.inr (Or.inl quitter))
    · exact absurd stopping other
  cases controlMoves taken with
  | spawned at_ =>
    refine inv.outside rfl (fun holding => holding) rfl rfl id (keeps _ ?_ rfl rfl rfl)
    rw [at_]
    nofun
  | notSpawned at_ _ =>
    refine inv.aside rfl rfl rfl rfl id (keeps _ ?_ rfl rfl rfl)
    rw [at_]
    nofun
  | started at_ =>
    refine inv.aside rfl rfl rfl rfl id (keeps _ ?_ rfl rfl rfl)
    rw [at_]
    nofun
  | quitStored at_ => exact inv.aside rfl rfl rfl rfl id fun _ => Or.inr (Or.inr (Or.inr rfl))
  | signaled at_ => exact inv.aside rfl rfl rfl rfl (fun _ => rfl) fun _ => Or.inr (Or.inl rfl)
  | joined at_ _ =>
    refine inv.aside rfl rfl rfl rfl id (keeps _ ?_ rfl rfl rfl)
    rw [at_]
    nofun
  | notJoined at_ _ =>
    refine inv.aside rfl rfl rfl rfl id (keeps _ ?_ rfl rfl rfl)
    rw [at_]
    nofun
  | stopped at_ =>
    refine inv.outside rfl (fun holding => holding) rfl rfl id (keeps _ ?_ rfl rfl rfl)
    rw [at_]
    nofun

/- Beginning `ns_loop_start` or `ns_loop_stop`: only `control` moves, from idle. -/
theorem startStep {s' : State abi ι κ τ} {event : Event ι κ τ} (taken : Loop.startStep s = some (s', event)) :
    Inv s' := by
  unfold Loop.startStep at taken
  split at taken
  · rename_i idle
    split at taken <;> cases Option.some.inj taken
    · exact inv
    · refine inv.aside rfl rfl rfl rfl id ?_
      rintro (clear | latched | quitter | stopping)
      · exact Or.inl clear
      · exact Or.inr (Or.inl latched)
      · exact Or.inr (Or.inr (Or.inl quitter))
      · rw [idle] at stopping
        contradiction
  · contradiction

theorem stopStep {s' : State abi ι κ τ} {event : Event ι κ τ} (taken : Loop.stopStep s = some (s', event)) :
    Inv s' := by
  unfold Loop.stopStep at taken
  split at taken
  · rename_i idle
    split at taken <;> cases Option.some.inj taken
    · exact inv
    · refine inv.aside rfl rfl rfl rfl id ?_
      rintro (clear | latched | quitter | stopping)
      · exact Or.inl clear
      · exact Or.inr (Or.inl latched)
      · exact Or.inr (Or.inr (Or.inl quitter))
      · rw [idle] at stopping
        contradiction
  · contradiction

theorem step [DecidableEq ι] [DecidableEq κ] [DecidableEq τ] {s' : State abi ι κ τ} {a : Action abi ι κ τ}
    {event : Event ι κ τ} (fresh : NoLap s a) (taken : Loop.step s a = some (s', event)) : Inv s' := by
  cases a with
  | emit e payloadSize slots payload => exact inv.emitStep taken
  | emitter e spurious => exact inv.emitterStep fresh taken
  | quit k => exact inv.quitStep taken
  | quitter k => exact inv.quitterStep taken
  | run t => exact inv.runCallStep taken
  | activation t rc => exact inv.activationStep taken
  | start => exact inv.startStep taken
  | stop => exact inv.stopStep taken
  | control rc => exact inv.controlStep taken

end Inv

theorem initialInv {ring : MpscRecordRing.State abi ι} (inv : MpscRecordRing.Inv ring) :
    Inv (.initial ring : State abi ι κ τ) :=
  ⟨inv, fun _ holding => holding.elim, fun _ _ holding => holding.elim, fun _ checking => checking.elim,
    fun _ waiting => nomatch waiting⟩

variable [DecidableEq ι] [DecidableEq κ] [DecidableEq τ]

theorem reachableInv {s : State abi ι κ τ} (reach : ReachableNoLap s) : Inv s := by
  refine reach.invariant ?_ (fun _ _ _ _ inv fresh taken => inv.step fresh taken)
  rintro _ ⟨ring, starts, rfl⟩
  exact initialInv (startsInv ring starts)

/- A loop that is blocked in its wait with no signal latched, no emitter between
reservation and signal and no quitter between store and signal, has dispatched
every record ever reserved, and nobody has asked it to quit. -/
theorem noLostWakeup {s : State abi ι κ τ} {t : Option τ} (reach : ReachableNoLap s)
    (blocked : s.activations t = .wait) (unsignaled : s.signaled = false) (emitters : ∀ e, ¬ InFlight s e)
    (quitters : ¬ Quitting s) :
    s.ring.returned = s.ring.log.map Reservation.payload ∧ s.ring.ring.readPos = s.ring.ring.writePos ∧
      s.ring.ring.writePos = s.ring.ring.reservePos ∧ s.quitRequested = false := by
  have inv := reachableInv reach
  have unlatched : s.signaled ≠ true := by
    rw [unsignaled]
    nofun
  have empty : s.ring.window = [] := by
    rcases inv.drained t (by rw [blocked]; trivial) with empty | latched | ⟨e, still⟩
    · exact empty
    · exact absurd latched unlatched
    · exact absurd still (emitters e)
  have clear : s.quitRequested = false := by
    rcases inv.quitSeen t blocked with clear | latched | quitting
    · exact clear
    · exact absurd latched unlatched
    · exact absurd quitting quitters
  have ring := inv.ring
  have quiet : ∀ e, (s.ring.producers e).Quiet := fun e => not_not.mp fun reserved => emitters e (Or.inl reserved)
  have published := ring.allPublished quiet
  have level : s.ring.released = s.ring.reserved := by
    obtain ⟨first, laid, atFirst | ⟨_, _, impossible, _⟩⟩ := ring.laid
    · rw [empty] at laid
      exact atFirst.trans laid
    · rw [empty] at impossible
      contradiction
  refine ⟨?_, ?_, ?_, clear⟩
  · have all := List.drop_eq_nil_iff.mp empty
    have delivered := ring.delivered
    rwa [List.take_of_length_le all] at delivered
  · rw [ring.readPos, ring.writePos, level, published]
  · rw [ring.writePos, ring.reservePos, published]

def emitThenBlock : List (Action .lp64 Unit Unit Unit) :=
  .emit () 2 [⟨5, 6, by decide, by decide⟩] (.ofBytes [9, 8] (by decide)) ::
    List.replicate 10 (.emitter () false) ++ .run () :: List.replicate 22 (.activation (some ()) .ok)

theorem blockedDrained : ∃ s : State .lp64 Unit Unit Unit, s.activations (some ()) = .wait ∧ s.ring.log.length = 1 ∧
    s.ring.returned = s.ring.log.map Reservation.payload ∧ s.quitRequested = false := by
  have evaluated : ((init .lp64 4096 (fun _ => 0) 128).any fun ring =>
      (execute step (.initial (.initial ring) : State .lp64 Unit Unit Unit) emitThenBlock).any fun ran =>
        (∀ v ∈ ran.1, NoLap v.state v.label) ∧ ran.2.activations (some ()) = .wait ∧ ran.2.signaled = false ∧
          ¬ InFlight ran.2 () ∧ ran.2.quitters () = false ∧ ran.2.control = .idle ∧ ran.2.ring.log.length = 1) = true := by
    decide +kernel
  obtain ⟨ring, made, rest⟩ := (Option.any_eq_true _ _).mp evaluated
  obtain ⟨⟨visits, s⟩, ran, checked⟩ := (Option.any_eq_true _ _).mp rest
  obtain ⟨fresh, blocked, unsignaled, flight, quitter, control, one⟩ := of_decide_eq_true checked
  have starts : Starts (.initial (.initial ring) : State .lp64 Unit Unit Unit) :=
    ⟨_, ⟨4096, fun _ => 0, 128, ring, made, rfl⟩, rfl⟩
  have reach : ReachableNoLap s := (executeRun ran fresh).reachable (.start starts)
  have quitters : ¬ Quitting s := by
    rintro (⟨_, pending⟩ | stopping)
    · rw [show s.quitters () = false from quitter] at pending
      contradiction
    · rw [show s.control = .idle from control] at stopping
      contradiction
  obtain ⟨dispatched, _, _, clear⟩ := noLostWakeup reach blocked unsignaled (fun _ => flight) quitters
  exact ⟨s, blocked, one, dispatched, clear⟩

end Nanosig.Loop
