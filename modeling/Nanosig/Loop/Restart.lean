import Nanosig.Loop.Steps

/-! Restarting a loop after `ns_loop_stop`. A request to quit is cleared only by
a worker that leaves its loop, so one stored after the worker has left stays
behind for the next worker; `ns_loop_stop` itself stores one whatever the
worker has done before. The property holds in the runs without such stores. -/
namespace Nanosig.Loop
open MpscRecordRing Signal TransitionSystem

variable {abi : Abi} {ι κ τ : Type}

/- Out of the loop of `ns_loop_run_impl`, on the way to the join. -/
def RunPc.Leaving : RunPc → Prop
  | .resetQuit | .clearRunning _ | .storeRc _ | .exited => True
  | _ => False

instance (pc : RunPc) : Decidable pc.Leaving := by
  unfold RunPc.Leaving
  split <;> infer_instance

/- The store of `quit_requested = 1`, by `ns_loop_quit` or inside `ns_loop_stop`. -/
def StoresQuit (s : State abi ι κ τ) : Action abi ι κ τ → Prop
  | .quit _ => True
  | .control _ => s.control = .stopQuit
  | _ => False

/- The CAS of a caller of `ns_loop_run` that takes `running`. -/
def TakesLoop (s : State abi ι κ τ) : Action abi ι κ τ → Prop
  | .activation (some t) _ => s.activations (some t) = .casRunning ∧ s.running = false
  | _ => False

/- Nothing asks the loop to quit, and nobody else takes it, between the moment
the worker has left its loop and the return of `ns_loop_stop`. -/
def InTime (s : State abi ι κ τ) (a : Action abi ι κ τ) : Prop :=
  StoresQuit s a ∨ TakesLoop s a → ¬ (s.activations none).Leaving

/- No request lands between an exit test and the reset that follows it. -/
def NotRacing (s : State abi ι κ τ) (a : Action abi ι κ τ) : Prop :=
  StoresQuit s a → ∀ t, s.activations t ≠ .resetQuit

def WaitFails (s : State abi ι κ τ) : Action abi ι κ τ → Prop
  | .activation t rc => s.activations t = .wait ∧ rc ≠ .ok
  | _ => False

/- A thread leaves the loop of `ns_loop_run_impl` for good. -/
def LeavesLoop (s : State abi ι κ τ) : Action abi ι κ τ → Prop
  | .activation t rc =>
      (s.activations t = .testQuit ∧ s.quitRequested = true) ∨ WaitFails s (.activation t rc)
  | _ => False

instance (s : State abi ι κ τ) (a : Action abi ι κ τ) : Decidable (StoresQuit s a) :=
  match a with
  | .quit _ => isTrue trivial
  | .control _ => inferInstanceAs (Decidable (s.control = .stopQuit))
  | .emit .. | .emitter .. | .quitter _ | .run _ | .activation .. | .start | .stop => isFalse id

instance (s : State abi ι κ τ) (a : Action abi ι κ τ) : Decidable (TakesLoop s a) :=
  match a with
  | .activation (some t) _ => inferInstanceAs (Decidable (s.activations (some t) = .casRunning ∧ s.running = false))
  | .activation none _ | .emit .. | .emitter .. | .quit _ | .quitter _ | .run _ | .start | .stop | .control _ => isFalse id

instance (s : State abi ι κ τ) (a : Action abi ι κ τ) : Decidable (InTime s a) :=
  inferInstanceAs (Decidable (_ → _))

instance [Fintype τ] (s : State abi ι κ τ) (a : Action abi ι κ τ) : Decidable (NotRacing s a) :=
  inferInstanceAs (Decidable (_ → _))

/- Where the worker is between `ns_loop_start` and `ns_loop_stop`, and what a
worker that left with `NS_OK` has left behind. -/
structure WorkerInv (s : State abi ι κ τ) : Prop where
  runners : ∀ t rc, s.activations (some t) ≠ .storeRc rc
  absent : s.asyncStarted = false → s.control ≠ .startSet → s.activations none = .out
  starting : s.control = .startThread → s.asyncStarted = false
  joined : s.control = .stopClear → s.activations none = .exited
  reset : s.activations none = .clearRunning .ok → s.quitRequested = false
  settled : (s.activations none = .storeRc .ok ∨ (s.activations none = .exited ∧ s.asyncRc = .ok)) →
    s.quitRequested = false ∧ s.running = false

namespace WorkerInv

variable {s : State abi ι κ τ} (inv : WorkerInv s)
include inv

theorem aside {s' : State abi ι κ τ} (worker : s'.activations none = s.activations none)
    (runners : ∀ t rc, s'.activations (some t) ≠ .storeRc rc)
    (control : s'.control = s.control) (asyncStarted : s'.asyncStarted = s.asyncStarted)
    (asyncRc : s'.asyncRc = s.asyncRc)
    (requested : (s.activations none).Leaving → s.quitRequested = false → s'.quitRequested = false)
    (running : (s.activations none).Leaving → s.running = false → s'.running = false) : WorkerInv s' := by
  refine ⟨runners, ?_, ?_, ?_, ?_, ?_⟩
  · rw [asyncStarted, control, worker]
    exact inv.absent
  · rw [control, asyncStarted]
    exact inv.starting
  · rw [control, worker]
    exact inv.joined
  · rw [worker]
    intro at_
    exact requested (by rw [at_]; trivial) (inv.reset at_)
  · rw [worker, asyncRc]
    intro at_
    have leaving : (s.activations none).Leaving := by
      rcases at_ with at_ | ⟨at_, _⟩ <;> rw [at_] <;> trivial
    obtain ⟨clear, free⟩ := inv.settled at_
    exact ⟨requested leaving clear, running leaving free⟩

/- A step of a caller of `ns_loop_run` within `ns_loop_run_impl`. -/
theorem runner [DecidableEq τ] {s' : State abi ι κ τ} {t : τ} {pc : RunPc}
    (activations : s'.activations = Function.update s.activations (some t) pc) (after : ∀ rc, pc ≠ .storeRc rc)
    (control : s'.control = s.control) (asyncStarted : s'.asyncStarted = s.asyncStarted)
    (asyncRc : s'.asyncRc = s.asyncRc)
    (requested : (s.activations none).Leaving → s.quitRequested = false → s'.quitRequested = false)
    (running : (s.activations none).Leaving → s.running = false → s'.running = false) : WorkerInv s' := by
  have worker : s'.activations none = s.activations none := by
    rw [activations]
    exact Function.update_of_ne (Option.some_ne_none t).symm _ _
  refine inv.aside worker ?_ control asyncStarted asyncRc requested running
  intro t' rc
  rw [activations]
  by_cases same : some t' = some t
  · rw [same, Function.update_self]
    exact after rc
  · rw [Function.update_of_ne same]
    exact inv.runners t' rc

theorem runnerStep [DecidableEq τ] {s' : State abi ι κ τ} {t : τ} {rc : Status} {event : Event ι κ τ}
    (inTime : InTime s (.activation (some t) rc)) (taken : activationStep s (some t) rc = some (s', event)) :
    WorkerInv s' := by
  cases activationMoves taken with
  | won at_ free =>
    have notLeaving := inTime (Or.inr ⟨at_, free⟩)
    exact inv.runner rfl nofun rfl rfl rfl (fun leaving => absurd leaving notLeaving)
      (fun leaving => absurd leaving notLeaving)
  | lost | waits | quits | woken | waitFailed =>
    exact inv.runner rfl nofun rfl rfl rfl (fun _ clear => clear) (fun _ free => free)
  | @dispatched pc _ _ after =>
    refine inv.runner rfl ?_ rfl rfl rfl (fun _ clear => clear) (fun _ free => free)
    rintro _ rfl
    exact after
  | emptied => exact inv.runner rfl nofun rfl rfl rfl (fun _ clear => clear) (fun _ free => free)
  | reset => exact inv.runner rfl nofun rfl rfl rfl (fun _ _ => rfl) (fun _ free => free)
  | left => exact inv.runner rfl nofun rfl rfl rfl (fun _ clear => clear) (fun _ _ => rfl)
  | stored at_ => exact absurd at_ (inv.runners t _)

theorem worker [DecidableEq τ] {s' : State abi ι κ τ} {pc : RunPc}
    (activations : s'.activations = Function.update s.activations none pc) (alive : s.activations none ≠ .out)
    (running : s.activations none ≠ .exited) (control : s'.control = s.control)
    (asyncStarted : s'.asyncStarted = s.asyncStarted)
    (reset : pc = .clearRunning .ok → s'.quitRequested = false)
    (settled : (pc = .storeRc .ok ∨ (pc = .exited ∧ s'.asyncRc = .ok)) →
      s'.quitRequested = false ∧ s'.running = false) : WorkerInv s' := by
  have moved : s'.activations none = pc := by
    rw [activations]
    exact Function.update_self ..
  refine ⟨?_, ?_, ?_, ?_, ?_, ?_⟩
  · intro t rc
    rw [activations, Function.update_of_ne (Option.some_ne_none t)]
    exact inv.runners t rc
  · rw [asyncStarted, control]
    exact fun stopped idle => absurd (inv.absent stopped idle) alive
  · rw [control, asyncStarted]
    exact inv.starting
  · rw [control]
    exact fun clearing => absurd (inv.joined clearing) running
  · rw [moved]
    exact reset
  · rw [moved]
    exact settled

theorem workerStep [DecidableEq τ] {s' : State abi ι κ τ} {rc : Status} {event : Event ι κ τ}
    (taken : activationStep s none rc = some (s', event)) : WorkerInv s' := by
  have here : s.activations none ≠ .out ∧ s.activations none ≠ .exited := by
    constructor <;> intro at_ <;> simp only [activationStep, at_] at taken <;> contradiction
  obtain ⟨alive, running⟩ := here
  cases activationMoves taken with
  | lost => exact inv.worker rfl alive running rfl rfl nofun (by rintro (h | ⟨h, _⟩) <;> nomatch h)
  | won | waits | quits | woken =>
    exact inv.worker rfl alive running rfl rfl nofun (by rintro (h | ⟨h, _⟩) <;> nomatch h)
  | emptied => exact inv.worker rfl alive running rfl rfl nofun (by rintro (h | ⟨h, _⟩) <;> nomatch h)
  | dispatched _ after =>
    refine inv.worker rfl alive running rfl rfl ?_ ?_
    · rintro rfl
      exact after.elim
    · rintro (rfl | ⟨rfl, _⟩) <;> exact after.elim
  | waitFailed _ failed =>
    exact inv.worker rfl alive running rfl rfl (fun h => absurd (RunPc.clearRunning.inj h) failed)
      (by rintro (h | ⟨h, _⟩) <;> nomatch h)
  | reset => exact inv.worker rfl alive running rfl rfl (fun _ => rfl) (by rintro (h | ⟨h, _⟩) <;> nomatch h)
  | left at_ =>
    refine inv.worker rfl alive running rfl rfl nofun ?_
    rintro (ok | ⟨h, _⟩)
    · rw [RunPc.storeRc.inj ok] at at_
      exact ⟨inv.reset at_, rfl⟩
    · nomatch h
  | @stored rc' at_ =>
    refine inv.worker rfl alive running rfl rfl nofun ?_
    rintro (h | ⟨_, ok⟩)
    · nomatch h
    · change rc' = .ok at ok
      rw [ok] at at_
      exact inv.settled (Or.inl at_)

/- The rest of `ns_loop_start` and `ns_loop_stop`. -/
theorem controlStep [DecidableEq τ] {s' : State abi ι κ τ} {rc : Status} {event : Event ι κ τ}
    (inTime : InTime s (.control rc)) (taken : Loop.controlStep s rc = some (s', event)) : WorkerInv s' := by
  obtain ⟨runners, absent, starting, joined, reset, settled⟩ := inv
  have others : ∀ (pc : RunPc) t rc, Function.update s.activations none pc (some t) ≠ .storeRc rc := by
    intro pc t rc
    rw [Function.update_of_ne (Option.some_ne_none t)]
    exact runners t rc
  cases controlMoves taken with
  | spawned at_ =>
    have here : Function.update s.activations none .casRunning none = .casRunning := Function.update_self ..
    refine ⟨others .casRunning, fun _ set => absurd rfl set, nofun, nofun, ?_, ?_⟩
    · intro at_
      cases here.symm.trans at_
    · rintro (at_ | ⟨at_, _⟩) <;> cases here.symm.trans at_
  | notSpawned at_ failed =>
    -- No worker was running, so resetting `async_rc` settles nothing.
    have out : s.activations none = .out := absent (starting at_) (by rw [at_]; nofun)
    refine ⟨runners, fun _ _ => out, nofun, nofun, reset, ?_⟩
    rintro (h | ⟨h, _⟩) <;> cases out.symm.trans h
  | started at_ => exact ⟨runners, nofun, nofun, nofun, reset, settled⟩
  | quitStored at_ =>
    have notLeaving := inTime (Or.inl at_)
    refine ⟨runners, fun stopped _ => absent stopped (by rw [at_]; nofun), nofun, nofun, ?_, ?_⟩
    · intro h
      exact absurd (by rw [show s.activations none = _ from h]; trivial) notLeaving
    · intro h
      have leaving : (s.activations none).Leaving := by
        rcases h with h | ⟨h, _⟩ <;> rw [show s.activations none = _ from h] <;> trivial
      exact absurd leaving notLeaving
  | signaled at_ => exact ⟨runners, fun stopped _ => absent stopped (by rw [at_]; nofun), nofun, nofun, reset, settled⟩
  | joined at_ exited =>
    exact ⟨runners, fun stopped _ => absent stopped (by rw [at_]; nofun), nofun, fun _ => exited, reset, settled⟩
  | notJoined at_ _ =>
    exact ⟨runners, fun stopped _ => absent stopped (by rw [at_]; nofun), nofun, nofun, reset, settled⟩
  | stopped at_ =>
    have here : Function.update s.activations none .out none = .out := Function.update_self ..
    refine ⟨others .out, fun _ _ => here, nofun, nofun, ?_, ?_⟩
    · intro at_
      cases here.symm.trans at_
    · rintro (at_ | ⟨at_, _⟩) <;> cases here.symm.trans at_

theorem step [DecidableEq ι] [DecidableEq κ] [DecidableEq τ] {s' : State abi ι κ τ} {a : Action abi ι κ τ}
    {event : Event ι κ τ} (inTime : InTime s a) (taken : Loop.step s a = some (s', event)) : WorkerInv s' := by
  have emitted : EmitterFrame s s' → WorkerInv s' := by
    intro frame
    refine inv.aside (by rw [frame.activations]) (by rw [frame.activations]; exact inv.runners) frame.control
      frame.asyncStarted frame.asyncRc ?_ ?_
    · rw [frame.quitRequested]
      exact fun _ clear => clear
    · rw [frame.running]
      exact fun _ free => free
  cases a with
  | emit e payloadSize slots payload => exact emitted (emitStepFrame taken).1
  | emitter e spurious => exact emitted (emitterMoves taken).frame
  | quit k =>
    have notLeaving := inTime (Or.inl trivial)
    simp only [Loop.step, quitStep] at taken
    split at taken
    · contradiction
    · cases Option.some.inj taken
      exact inv.aside rfl inv.runners rfl rfl rfl (fun leaving => absurd leaving notLeaving) (fun _ free => free)
  | quitter k =>
    simp only [Loop.step, quitterStep] at taken
    split at taken
    · cases Option.some.inj taken
      exact inv.aside rfl inv.runners rfl rfl rfl (fun _ clear => clear) (fun _ free => free)
    · contradiction
  | run t =>
    simp only [Loop.step, runCallStep] at taken
    split at taken
    · split at taken <;> cases Option.some.inj taken
      · exact inv
      · exact inv.runner rfl nofun rfl rfl rfl (fun _ clear => clear) (fun _ free => free)
    · contradiction
  | activation t rc =>
    cases t with
    | none => exact inv.workerStep taken
    | some t => exact inv.runnerStep inTime taken
  | start =>
    obtain ⟨runners, absent, starting, joined, reset, settled⟩ := inv
    simp only [Loop.step, startStep] at taken
    split at taken
    · rename_i idle
      split at taken <;> cases Option.some.inj taken
      · exact ⟨runners, absent, starting, joined, reset, settled⟩
      · rename_i stopped
        exact ⟨runners, fun stopped _ => absent stopped (by rw [idle]; nofun),
          fun _ => Bool.eq_false_iff.mpr stopped, nofun, reset, settled⟩
    · contradiction
  | stop =>
    obtain ⟨runners, absent, starting, joined, reset, settled⟩ := inv
    simp only [Loop.step, stopStep] at taken
    split at taken
    · rename_i idle
      split at taken <;> cases Option.some.inj taken
      · exact ⟨runners, absent, starting, joined, reset, settled⟩
      · exact ⟨runners, fun stopped _ => absent stopped (by rw [idle]; nofun), nofun, nofun, reset, settled⟩
    · contradiction
  | control rc => exact inv.controlStep inTime taken

end WorkerInv

variable [DecidableEq ι] [DecidableEq κ] [DecidableEq τ]

omit [DecidableEq ι] [DecidableEq κ] [DecidableEq τ] in
theorem startsWorkerInv {s : State abi ι κ τ} (starts : Starts s) : WorkerInv s := by
  obtain ⟨ring, _, rfl⟩ := starts
  exact ⟨nofun, fun _ _ => rfl, nofun, nofun, nofun, by rintro (h | ⟨h, _⟩) <;> nomatch h⟩

theorem runWorkerInv {first s : State abi ι κ τ} {visits : List (Visit (State abi ι κ τ) (Action abi ι κ τ) (Event ι κ τ))}
    (inv : WorkerInv first) (run : Run step InTime first visits s) : WorkerInv s := by
  induction run with
  | done => exact inv
  | next _ inTime taken ih => exact ih.step inTime taken

/- Only the two stores make `quit_requested` true. -/
theorem quitStaysClear {s s' : State abi ι κ τ} {a : Action abi ι κ τ} {event : Event ι κ τ}
    (clear : s.quitRequested = false) (silent : ¬ StoresQuit s a) (taken : step s a = some (s', event)) :
    s'.quitRequested = false := by
  cases a with
  | emit e payloadSize slots payload => exact (emitStepFrame taken).1.quitRequested.trans clear
  | emitter e spurious => exact (emitterMoves taken).frame.quitRequested.trans clear
  | quit k => exact absurd trivial silent
  | quitter k =>
    simp only [step, quitterStep] at taken
    split at taken
    · cases Option.some.inj taken
      exact clear
    · contradiction
  | run t =>
    simp only [step, runCallStep] at taken
    split at taken
    · split at taken <;> cases Option.some.inj taken <;> exact clear
    · contradiction
  | activation t rc =>
    cases activationMoves taken with
    | reset => rfl
    | lost | left => cases t <;> exact clear
    | _ => exact clear
  | start =>
    simp only [step, startStep] at taken
    split at taken
    · split at taken <;> cases Option.some.inj taken <;> exact clear
    · contradiction
  | stop =>
    simp only [step, stopStep] at taken
    split at taken
    · split at taken <;> cases Option.some.inj taken <;> exact clear
    · contradiction
  | control rc =>
    cases controlMoves taken with
    | quitStored at_ => exact absurd at_ silent
    | _ => exact clear

theorem runStaysClear {s s' : State abi ι κ τ} {allowed : State abi ι κ τ → Action abi ι κ τ → Prop}
    {visits : List (Visit (State abi ι κ τ) (Action abi ι κ τ) (Event ι κ τ))} (clear : s.quitRequested = false)
    (run : Run step allowed s visits s') (silent : ∀ v ∈ visits, ¬ StoresQuit v.state v.label) :
    s'.quitRequested = false := by
  induction run with
  | done => exact clear
  | next before _ taken ih =>
    have earlier := ih fun v member => silent v (List.mem_append_left _ member)
    exact quitStaysClear earlier (silent _ (List.mem_append_right _ List.mem_cons_self)) taken

omit [DecidableEq ι] [DecidableEq κ] in
theorem leaveRunEvent (s : State abi ι κ τ) (t : Option τ) (rc r : Status) :
    (leaveRun s t rc).2 ≠ .stopReturned r := by
  cases t <;> nofun

omit [DecidableEq ι] [DecidableEq κ] in
theorem activationEvent {s s' : State abi ι κ τ} {t : Option τ} {rc r : Status} :
    activationStep s t rc ≠ some (s', .stopReturned r) := by
  intro taken
  unfold activationStep at taken
  cases at_ : s.activations t with
  | casRunning =>
    rw [at_] at taken
    dsimp only at taken
    split at taken
    · exact leaveRunEvent _ _ _ _ (congrArg Prod.snd (Option.some.inj taken))
    · cases taken
  | acquire | slotCall | release =>
    rw [at_] at taken
    obtain ⟨moved, _, after⟩ := Option.map_eq_some_iff.mp taken
    split at after <;> cases after
  | wait =>
    rw [at_] at taken
    dsimp only at taken
    split at taken
    · split at taken <;> cases taken
    · cases taken
  | clearRunning rc =>
    rw [at_] at taken
    exact leaveRunEvent _ _ _ _ (congrArg Prod.snd (Option.some.inj taken))
  | _ =>
    rw [at_] at taken
    cases taken

omit [DecidableEq κ] [DecidableEq τ] in
theorem emitNextEvent (s : State abi ι κ τ) (e : ι) (payload : Part abi) (rest : List (Slot abi)) (r : Status) :
    (emitNext s e payload rest).2 ≠ .stopReturned r := by
  cases rest <;> nofun

omit [DecidableEq κ] [DecidableEq τ] in
theorem emitterEvent {s s' : State abi ι κ τ} {e : ι} {spurious : Bool} {r : Status} :
    emitterStep s e spurious ≠ some (s', .stopReturned r) := by
  intro taken
  unfold emitterStep at taken
  split at taken
  · contradiction
  · obtain ⟨moved, _, after⟩ := Option.map_eq_some_iff.mp taken
    split at after <;> cases after
  · exact emitNextEvent _ _ _ _ _ (congrArg Prod.snd (Option.some.inj taken))

/- Only the last step of `ns_loop_stop` returns `NS_OK` from it. -/
theorem stopReturnsOk {s s' : State abi ι κ τ} {a : Action abi ι κ τ} (taken : step s a = some (s', .stopReturned .ok)) :
    s.control = .stopClear ∧ s.asyncRc = .ok ∧ s' = { s with asyncStarted := false, control := .idle }.setRun none .out := by
  cases a with
  | emit e payloadSize slots payload =>
    simp only [step, emitStep] at taken
    split at taken
    · split at taken
      · exact absurd (congrArg Prod.snd (Option.some.inj taken)) (emitNextEvent _ _ _ _ _)
      · cases taken
    · contradiction
  | emitter e spurious => exact absurd taken emitterEvent
  | quit k => grind [step, quitStep]
  | quitter k => grind [step, quitterStep]
  | run t => grind [step, runCallStep]
  | activation t rc => exact absurd taken activationEvent
  | start => grind [step, startStep]
  | stop => grind [step, stopStep]
  | control rc =>
    have moves := controlMoves taken
    generalize event : (Event.stopReturned .ok : Event ι κ τ) = e at moves
    cases moves with
    | stopped at_ => exact ⟨at_, (Event.stopReturned.inj event).symm, rfl⟩
    | notJoined at_ failed => exact absurd (Event.stopReturned.inj event).symm failed
    | _ => contradiction

/- In a run in which no request to quit and no other run comes between the
worker's last exit test and the return of `ns_loop_stop`, an `NS_OK` of
`ns_loop_stop` leaves the loop as created, and until the next request no thread
leaves it unless its wait fails. -/
theorem restartable {first s : State abi ι κ τ}
    {visits left right : List (Visit (State abi ι κ τ) (Action abi ι κ τ) (Event ι κ τ))}
    {v : Visit (State abi ι κ τ) (Action abi ι κ τ) (Event ι κ τ)} (starts : Starts first)
    (run : Run step InTime first visits s) (split : visits = left ++ v :: right)
    (stopped : v.event = .stopReturned .ok) :
    ∃ next, step v.state v.label = some (next, v.event) ∧ next.quitRequested = false ∧ next.asyncStarted = false ∧
      next.running = false ∧
      ∀ before w after, right = before ++ w :: after → (∀ u ∈ before, ¬ StoresQuit u.state u.label) →
        LeavesLoop w.state w.label → WaitFails w.state w.label := by
  subst split
  obtain ⟨next, earlier, _, taken, later⟩ := run.split
  have inv := runWorkerInv (startsWorkerInv starts) earlier
  have returns := taken
  rw [stopped] at returns
  obtain ⟨clearing, ok, same⟩ := stopReturnsOk returns
  obtain ⟨clear, free⟩ := inv.settled (Or.inr ⟨inv.joined clearing, ok⟩)
  have clear' : next.quitRequested = false := by
    rw [same]
    exact clear
  refine ⟨next, taken, clear', by rw [same]; rfl, by rw [same]; exact free, ?_⟩
  rintro before w after rfl silent leaves
  obtain ⟨_, prefix_, _, _, _⟩ := later.split
  have still := runStaysClear clear' prefix_ silent
  unfold LeavesLoop at leaves
  split at leaves
  · rename_i t rc at_
    rcases leaves with ⟨_, requested⟩ | fails
    · rw [still] at requested
      contradiction
    · rw [at_]
      exact fails
  · exact leaves.elim

def startThenStop : List (Action .lp64 Unit Unit Unit) :=
  Action.start :: List.replicate 2 (Action.control .ok) ++ List.replicate 5 (Action.activation none .ok) ++
    Action.stop :: List.replicate 2 (Action.control .ok) ++ List.replicate 8 (Action.activation none .ok) ++
    List.replicate 2 (Action.control .ok)

theorem restartableStartStop :
    ∃ (v : Visit (State .lp64 Unit Unit Unit) (Action .lp64 Unit Unit Unit) (Event Unit Unit Unit))
      (next : State .lp64 Unit Unit Unit), v.event = .stopReturned .ok ∧ step v.state v.label = some (next, v.event) ∧
        next.quitRequested = false ∧ next.asyncStarted = false ∧ next.running = false := by
  have evaluated : ((init .lp64 4096 (fun _ => 0) 64).any fun ring =>
      (execute step (.initial (.initial ring) : State .lp64 Unit Unit Unit) startThenStop).any fun ran =>
        (∀ v ∈ ran.1, InTime v.state v.label) ∧ (ran.1.getLast?.any fun v => v.event = .stopReturned .ok) = true) = true := by
    decide +kernel
  obtain ⟨ring, made, rest⟩ := (Option.any_eq_true _ _).mp evaluated
  obtain ⟨⟨visits, s⟩, ran, checked⟩ := (Option.any_eq_true _ _).mp rest
  obtain ⟨inTime, last⟩ := of_decide_eq_true checked
  obtain ⟨v, found, stopped⟩ := (Option.any_eq_true _ _).mp last
  obtain ⟨left, split⟩ := List.getLast?_eq_some_iff.mp found
  have starts : Starts (.initial (.initial ring) : State .lp64 Unit Unit Unit) :=
    ⟨_, ⟨4096, fun _ => 0, 64, ring, made, rfl⟩, rfl⟩
  have event := of_decide_eq_true stopped
  obtain ⟨next, taken, clear, stopped, free, _⟩ := restartable starts (executeRun ran inTime) split event
  exact ⟨v, next, event, taken, clear, stopped, free⟩

/-! The worker is asked to quit and leaves; `ns_loop_stop` then stores a request
of its own, joins, and returns `NS_OK` with the request still there. -/

def quitThenStop : List (Action .lp64 Unit Unit Unit) :=
  Action.start :: List.replicate 2 (Action.control .ok) ++ List.replicate 5 (Action.activation none .ok) ++
    Action.quit () :: Action.quitter () :: List.replicate 8 (Action.activation none .ok) ++
    Action.stop :: List.replicate 3 (Action.control .ok)

def runAgain : List (Action .lp64 Unit Unit Unit) := .run () :: List.replicate 4 (.activation (some ()) .ok)

theorem stopLeavesRequest : ∃ s next s' : State .lp64 Unit Unit Unit, ∃ visits,
    TransitionSystem.Reachable Starts step NotRacing s ∧ step s (.control .ok) = some (next, .stopReturned .ok) ∧
      next.quitRequested = true ∧ Run step NotRacing next visits s' ∧ (∀ u ∈ visits, ¬ StoresQuit u.state u.label) ∧
      LeavesLoop s' (.activation (some ()) .ok) ∧ ¬ WaitFails s' (.activation (some ()) .ok) := by
  have evaluated : ((init .lp64 4096 (fun _ => 0) 64).any fun ring =>
      (execute step (.initial (.initial ring) : State .lp64 Unit Unit Unit) quitThenStop).any fun ran =>
        (∀ v ∈ ran.1, NotRacing v.state v.label) ∧ ((step ran.2 (.control .ok)).any fun moved =>
          moved.2 = .stopReturned .ok ∧ moved.1.quitRequested = true ∧ ((execute step moved.1 runAgain).any fun again =>
            (∀ v ∈ again.1, NotRacing v.state v.label) ∧ (∀ v ∈ again.1, ¬ StoresQuit v.state v.label) ∧
              again.2.activations (some ()) = .testQuit ∧ again.2.quitRequested = true) = true) = true) = true := by
    decide +kernel
  obtain ⟨ring, made, rest⟩ := (Option.any_eq_true _ _).mp evaluated
  obtain ⟨⟨_, s⟩, ran, checked⟩ := (Option.any_eq_true _ _).mp rest
  obtain ⟨free, more⟩ := of_decide_eq_true checked
  obtain ⟨⟨next, event⟩, taken, checked⟩ := (Option.any_eq_true _ _).mp more
  obtain ⟨stopped, requested, more⟩ := of_decide_eq_true checked
  obtain ⟨⟨visits, s'⟩, again, checked⟩ := (Option.any_eq_true _ _).mp more
  obtain ⟨free', silent, testing, still⟩ := of_decide_eq_true checked
  have starts : Starts (.initial (.initial ring) : State .lp64 Unit Unit Unit) :=
    ⟨_, ⟨4096, fun _ => 0, 64, ring, made, rfl⟩, rfl⟩
  have reach := (executeRun ran free).reachable (.start starts)
  dsimp only at stopped
  rw [stopped] at taken
  exact ⟨s, next, s', visits, reach, taken, requested, executeRun again free', silent, Or.inl ⟨testing, still⟩,
    fun fails => fails.2 rfl⟩

end Nanosig.Loop
