import Nanosig.Lib.TransitionSystem
import Nanosig.Status

/-! The broker of ns_broker.c beside threads that add and remove watchers. A step is one
access to the lock, the queue, the event, a wakeup or a request, or one completion of the
batch; what the broker does for timers is one step. No shutdown is in progress. -/
namespace Nanosig.Broker

open TransitionSystem

/- `enum ns_broker_op` -/
inductive Op where
  | add
  | remove
  deriving DecidableEq

inductive Stage where
  | created
  | pushed
  | refused (error : Status)
  | queued
  | taken
  | ran (rc : Status)
  | answered (rc : Status)
  | done (rc : Status)
  | returned
  deriving DecidableEq

/- `ns_broker_op_request_t` with the latch of its wakeup; `rc` is none until it is set.
`owner` and `stage` are for the proofs. -/
structure Request (τ ω : Type) where
  op : Op
  watcher : ω
  rc : Option Status
  woken : Bool
  owner : τ
  stage : Stage

/- A thread by its next access inside `ns_broker_submit_op`; requests are numbered. -/
inductive SubmitPc where
  | idle
  | lock (id : Nat)
  | push (id : Nat)
  | signal (id : Nat)
  | rollback (id : Nat) (error : Status)
  | unlock (id : Nat) (error : Option Status)
  | wait (id : Nat)
  | readRc (id : Nat)
  | leave (id : Nat) (rc : Status)
  deriving DecidableEq

inductive Holder (τ : Type) where
  | thread (t : τ)
  | broker
  deriving DecidableEq

/- The broker by its next access. `drainEvent i` and `dispatch i` are at completion `i`. -/
inductive BrokerPc where
  | wait
  | drainEvent (i : Nat)
  | lock
  | take
  | unlockEmpty
  | unlockTaken (id : Nat)
  | execute (id : Nat)
  | setRc (id : Nat) (rc : Status)
  | wake (id : Nat)
  | dispatch (i : Nat)
  | timers
  deriving DecidableEq

inductive Source (ω : Type) where
  | event
  | watcher (w : ω)
  deriving DecidableEq

/- `ns_platform_waitset_completion_t`; none is a NULL waitable. -/
structure Completion (ω : Type) where
  waitable : Option (Source ω)
  triggeredEvents : Nat
  deriving DecidableEq

/- `registered` is membership in the waitset, `userData` whether `user_data` is set. Behind
`completions` come the records for the proofs: the operations accepted and executed in
order, with their results; those refused; what each call returned; and of the current pass
its batch, the watchers removed in it and the handler calls made. `spoiled` watchers were
added again while registered. -/
structure State (τ ω : Type) where
  lock : Option (Holder τ)
  queue : List Nat
  event : Bool
  requests : Nat → Option (Request τ ω)
  threads : τ → SubmitPc
  broker : BrokerPc
  registered : ω → Bool
  userData : ω → Bool
  completions : List (Completion ω)
  fresh : Nat
  accepted : List Nat
  executed : List (Nat × Status)
  refused : List (Nat × Status)
  returned : List (τ × Nat × Status)
  batch : List (Completion ω)
  removed : List ω
  calls : List (ω × Nat)
  spoiled : ω → Bool

/- The outcome of the platform calls in a step of the broker: the completions of
`ns_platform_waitset_wait` or its failure, whether the drain empties the event, and for an
operation whether the watcher is initialized and what the waitset answers. -/
inductive Choice (ω : Type) where
  | next
  | waited (completions : Option (List (Completion ω)))
  | drained (empty : Bool)
  | executes (initialized : Bool) (rc : Status)

/- A thread's step has the result of the platform call in it, where it makes one. -/
inductive Action (τ ω : Type) where
  | submit (t : τ) (op : Op) (w : ω) (wakeupRc : Status)
  | thread (t : τ) (rc : Status)
  | broker (choice : Choice ω)
  | notify

section Steps

variable {τ ω : Type} [DecidableEq τ] [DecidableEq ω]

def State.setRequest (s : State τ ω) (id : Nat) (f : Request τ ω → Request τ ω) : State τ ω :=
  { s with requests := Function.update s.requests id ((s.requests id).map f) }

def State.setThread (s : State τ ω) (t : τ) (pc : SubmitPc) : State τ ω :=
  { s with threads := Function.update s.threads t pc }

def stageTo (stage : Stage) (r : Request τ ω) : Request τ ω := { r with stage := stage }

/- The entry of `ns_broker_submit_op` up to `ns_broker_queue_op`. -/
def submitStep (s : State τ ω) (t : τ) (op : Op) (w : ω) (wakeupRc : Status) : Option (State τ ω) :=
  match s.threads t with
  | .idle =>
      if wakeupRc = .ok then
        some { s.setThread t (.lock s.fresh) with
          requests := Function.update s.requests s.fresh (some ⟨op, w, none, false, t, .created⟩)
          fresh := s.fresh + 1 }
      else
        some { s with
          requests := Function.update s.requests s.fresh (some ⟨op, w, none, false, t, .returned⟩)
          fresh := s.fresh + 1
          refused := s.refused ++ [(s.fresh, wakeupRc)]
          returned := s.returned ++ [(t, s.fresh, wakeupRc)] }
  | _ => none

/- `ns_broker_queue_op`, `ns_broker_wait_op_completion` and the return. A wait that fails or
times out is repeated. -/
def threadStep (s : State τ ω) (t : τ) (rc : Status) : Option (State τ ω) :=
  match s.threads t with
  | .idle => none
  | .lock id => if s.lock = none then some { s.setThread t (.push id) with lock := some (.thread t) } else none
  | .push id =>
      some { (s.setThread t (.signal id)).setRequest id (stageTo .pushed) with queue := s.queue ++ [id] }
  | .signal id =>
      if rc = .ok then
        some { (s.setThread t (.unlock id none)).setRequest id (stageTo .queued) with
          event := true
          accepted := s.accepted ++ [id] }
      else some (s.setThread t (.rollback id rc))
  | .rollback id error =>
      some { (s.setThread t (.unlock id (some error))).setRequest id (stageTo (.refused error)) with
        queue := s.queue.erase id
        refused := s.refused ++ [(id, error)] }
  | .unlock id error =>
      some { s.setThread t (match error with | none => .wait id | some rc => .leave id rc) with lock := none }
  | .wait id =>
      if rc = .ok then if (s.requests id).any (·.woken) then some (s.setThread t (.readRc id)) else none
      else some s
  | .readRc id => ((s.requests id).bind (·.rc)).map fun rc => s.setThread t (.leave id rc)
  | .leave id rc =>
      some { (s.setThread t .idle).setRequest id (stageTo .returned) with returned := s.returned ++ [(t, id, rc)] }

def nullCompletions (w : ω) (completions : List (Completion ω)) : List (Completion ω) :=
  completions.map fun c => if c.waitable = some (.watcher w) then { c with waitable := none } else c

/- `ns_broker_do_add` and `ns_broker_do_remove` with the waitset's answer; the state and the result. -/
def doAdd (s : State τ ω) (w : ω) (initialized : Bool) (rc : Status) : State τ ω × Status :=
  if ¬initialized then (s, .inval)
  else
    let s := { s with userData := Function.update s.userData w true }
    if rc = .ok then
      ({ s with
        registered := Function.update s.registered w true
        spoiled := Function.update s.spoiled w false }, rc)
    else
      ({ s with
        userData := Function.update s.userData w false
        spoiled := Function.update s.spoiled w true }, rc)

def doRemove (s : State τ ω) (w : ω) (initialized : Bool) (rc : Status) : State τ ω × Status :=
  if ¬initialized then (s, .inval)
  else if rc = .ok then
    ({ s with
      registered := Function.update s.registered w false
      completions := nullCompletions w s.completions
      userData := Function.update s.userData w false
      removed := w :: s.removed }, rc)
  else (s, rc)

def doOp (s : State τ ω) (r : Request τ ω) (initialized : Bool) (rc : Status) : State τ ω × Status :=
  match r.op with
  | .add => doAdd s r.watcher initialized rc
  | .remove => doRemove s r.watcher initialized rc

/- The handler call of a completion, if its waitable is a watcher with its `user_data`. -/
def handled (s : State τ ω) (c : Completion ω) : List (ω × Nat) :=
  match c.waitable with
  | some (.watcher w) => if s.userData w then [(w, c.triggeredEvents)] else []
  | _ => []

/- `ns_broker_run` with `ns_broker_drain_op_queue` and `ns_broker_dispatch_pending_events`. -/
def brokerStep (s : State τ ω) (choice : Choice ω) : Option (State τ ω) :=
  match s.broker, choice with
  | .wait, .waited completions =>
      let batch := completions.getD []
      if batch.any (·.waitable = some .event) ∧ ¬s.event then none
      else some { s with completions := batch, batch := batch, removed := [], calls := [], broker := .drainEvent 0 }
  | .drainEvent i, .drained empty =>
      match s.completions[i]? with
      | none => some { s with broker := .lock }
      | some c =>
          some { s with
            event := if c.waitable = some .event ∧ empty then false else s.event
            broker := .drainEvent (i + 1) }
  | .lock, .next => if s.lock = none then some { s with lock := some .broker, broker := .take } else none
  | .take, .next =>
      match s.queue with
      | [] => some { s with broker := .unlockEmpty }
      | id :: rest => some { s.setRequest id (stageTo .taken) with queue := rest, broker := .unlockTaken id }
  | .unlockEmpty, .next => some { s with lock := none, broker := .dispatch 0 }
  | .unlockTaken id, .next => some { s with lock := none, broker := .execute id }
  | .execute id, .executes initialized rc =>
      (s.requests id).map fun r =>
        let (s, rc) := doOp s r initialized rc
        { s.setRequest id (stageTo (.ran rc)) with executed := s.executed ++ [(id, rc)], broker := .setRc id rc }
  | .setRc id rc, .next =>
      some { s.setRequest id (fun r => { r with rc := some rc, stage := .answered rc }) with broker := .wake id }
  | .wake id, .next =>
      some { s.setRequest id (fun r => { r with woken := true, stage := .done (r.rc.getD .inval) }) with broker := .lock }
  | .dispatch i, .next =>
      match s.completions[i]? with
      | none => some { s with broker := .timers }
      | some c => some { s with calls := s.calls ++ handled s c, broker := .dispatch (i + 1) }
  | .timers, .next => some { s with broker := .wait }
  | _, _ => none

def step (s : State τ ω) : Action τ ω → Option (State τ ω × Unit)
  | .submit t op w wakeupRc => (submitStep s t op w wakeupRc).map fun next => (next, ())
  | .thread t rc => (threadStep s t rc).map fun next => (next, ())
  | .broker choice => (brokerStep s choice).map fun next => (next, ())
  | .notify => some ({ s with event := true }, ())

/- After `ns_broker_global_init`. -/
structure Starts (s : State τ ω) : Prop where
  lock : s.lock = none
  queue : s.queue = []
  requests : ∀ id, s.requests id = none
  threads : ∀ t, s.threads t = .idle
  broker : s.broker = .wait
  registered : ∀ w, s.registered w = false
  userData : ∀ w, s.userData w = false
  accepted : s.accepted = []
  executed : s.executed = []
  refused : s.refused = []
  returned : s.returned = []
  spoiled : ∀ w, s.spoiled w = false

inductive Move (s : State τ ω) : State τ ω → Prop where
  | submit (t : τ) (op : Op) (w : ω) (idle : s.threads t = .idle) :
      Move s { s.setThread t (.lock s.fresh) with
        requests := Function.update s.requests s.fresh (some ⟨op, w, none, false, t, .created⟩)
        fresh := s.fresh + 1 }
  | noWakeup (t : τ) (op : Op) (w : ω) (rc : Status) (idle : s.threads t = .idle) (failed : rc ≠ .ok) :
      Move s { s with
        requests := Function.update s.requests s.fresh (some ⟨op, w, none, false, t, .returned⟩)
        fresh := s.fresh + 1
        refused := s.refused ++ [(s.fresh, rc)]
        returned := s.returned ++ [(t, s.fresh, rc)] }
  | lock (t : τ) (id : Nat) (pc : s.threads t = .lock id) (unlocked : s.lock = none) :
      Move s { s.setThread t (.push id) with lock := some (.thread t) }
  | push (t : τ) (id : Nat) (pc : s.threads t = .push id) :
      Move s { (s.setThread t (.signal id)).setRequest id (stageTo .pushed) with queue := s.queue ++ [id] }
  | signal (t : τ) (id : Nat) (pc : s.threads t = .signal id) :
      Move s { (s.setThread t (.unlock id none)).setRequest id (stageTo .queued) with
        event := true
        accepted := s.accepted ++ [id] }
  | signalFails (t : τ) (id : Nat) (rc : Status) (pc : s.threads t = .signal id) (failed : rc ≠ .ok) :
      Move s (s.setThread t (.rollback id rc))
  | rollback (t : τ) (id : Nat) (rc : Status) (pc : s.threads t = .rollback id rc) :
      Move s { (s.setThread t (.unlock id (some rc))).setRequest id (stageTo (.refused rc)) with
        queue := s.queue.erase id
        refused := s.refused ++ [(id, rc)] }
  | unlock (t : τ) (id : Nat) (pc : s.threads t = .unlock id none) :
      Move s { s.setThread t (.wait id) with lock := none }
  | unlockRefused (t : τ) (id : Nat) (rc : Status) (pc : s.threads t = .unlock id (some rc)) :
      Move s { s.setThread t (.leave id rc) with lock := none }
  | wakeup (t : τ) (id : Nat) (r : Request τ ω) (pc : s.threads t = .wait id) (given : s.requests id = some r)
      (woken : r.woken = true) : Move s (s.setThread t (.readRc id))
  | retry : Move s s
  | readRc (t : τ) (id : Nat) (r : Request τ ω) (rc : Status) (pc : s.threads t = .readRc id)
      (given : s.requests id = some r) (value : r.rc = some rc) : Move s (s.setThread t (.leave id rc))
  | leave (t : τ) (id : Nat) (rc : Status) (pc : s.threads t = .leave id rc) :
      Move s { (s.setThread t .idle).setRequest id (stageTo .returned) with returned := s.returned ++ [(t, id, rc)] }
  | notify : Move s { s with event := true }
  | waited (batch : List (Completion ω)) (pc : s.broker = .wait)
      (signaled : ∀ c ∈ batch, c.waitable = some .event → s.event = true) :
      Move s { s with completions := batch, batch := batch, removed := [], calls := [], broker := .drainEvent 0 }
  | drainLast (i : Nat) (pc : s.broker = .drainEvent i) (last : s.completions[i]? = none) :
      Move s { s with broker := .lock }
  | drain (i : Nat) (event : Bool) (c : Completion ω) (pc : s.broker = .drainEvent i) (here : s.completions[i]? = some c) :
      Move s { s with event := event, broker := .drainEvent (i + 1) }
  | brokerLock (pc : s.broker = .lock) (unlocked : s.lock = none) : Move s { s with lock := some .broker, broker := .take }
  | takeNone (pc : s.broker = .take) (empty : s.queue = []) : Move s { s with broker := .unlockEmpty }
  | take (id : Nat) (rest : List Nat) (pc : s.broker = .take) (queue : s.queue = id :: rest) :
      Move s { s.setRequest id (stageTo .taken) with queue := rest, broker := .unlockTaken id }
  | unlockEmpty (pc : s.broker = .unlockEmpty) : Move s { s with lock := none, broker := .dispatch 0 }
  | unlockTaken (id : Nat) (pc : s.broker = .unlockTaken id) : Move s { s with lock := none, broker := .execute id }
  | execute (id : Nat) (r : Request τ ω) (initialized : Bool) (rc : Status) (pc : s.broker = .execute id)
      (given : s.requests id = some r) :
      Move s { (doOp s r initialized rc).1.setRequest id (stageTo (.ran (doOp s r initialized rc).2)) with
        executed := s.executed ++ [(id, (doOp s r initialized rc).2)]
        broker := .setRc id (doOp s r initialized rc).2 }
  | setRc (id : Nat) (rc : Status) (pc : s.broker = .setRc id rc) :
      Move s { s.setRequest id (fun r => { r with rc := some rc, stage := .answered rc }) with broker := .wake id }
  | wake (id : Nat) (pc : s.broker = .wake id) :
      Move s { s.setRequest id (fun r => { r with woken := true, stage := .done (r.rc.getD .inval) }) with broker := .lock }
  | dispatchLast (i : Nat) (pc : s.broker = .dispatch i) (last : s.completions[i]? = none) :
      Move s { s with broker := .timers }
  | dispatch (i : Nat) (c : Completion ω) (pc : s.broker = .dispatch i) (here : s.completions[i]? = some c) :
      Move s { s with calls := s.calls ++ handled s c, broker := .dispatch (i + 1) }
  | timers (pc : s.broker = .timers) : Move s { s with broker := .wait }

omit [DecidableEq τ] in
theorem doOpExecuted (s : State τ ω) (r : Request τ ω) (initialized : Bool) (rc : Status) :
    (doOp s r initialized rc).1.executed = s.executed := by
  unfold doOp doAdd doRemove
  cases r.op <;> simp only <;> split_ifs <;> rfl

theorem threadMoves {s s' : State τ ω} {t : τ} {rc : Status} (taken : threadStep s t rc = some s') : Move s s' := by
  unfold threadStep at taken
  cases pc : s.threads t with
  | idle => simp [pc] at taken
  | lock id =>
    simp only [pc] at taken
    obtain ⟨unlocked, same⟩ := Option.ite_none_right_eq_some.mp taken
    cases same
    exact .lock t id pc unlocked
  | push id =>
    simp only [pc] at taken
    cases taken
    exact .push t id pc
  | signal id =>
    simp only [pc] at taken
    split_ifs at taken with ok
    · cases taken
      exact .signal t id pc
    · cases taken
      exact .signalFails t id rc pc ok
  | rollback id error =>
    simp only [pc] at taken
    cases taken
    exact .rollback t id error pc
  | unlock id error =>
    cases error with
    | none =>
      simp only [pc] at taken
      cases taken
      exact .unlock t id pc
    | some rc =>
      simp only [pc] at taken
      cases taken
      exact .unlockRefused t id rc pc
  | wait id =>
    simp only [pc] at taken
    split_ifs at taken with ok woken
    · obtain ⟨r, given, set⟩ := (Option.any_eq_true _ _).mp woken
      cases taken
      exact .wakeup t id r pc given set
    · cases taken
      exact .retry
  | readRc id =>
    simp only [pc] at taken
    obtain ⟨rc, bound, same⟩ := Option.map_eq_some_iff.mp taken
    obtain ⟨r, given, value⟩ := Option.bind_eq_some_iff.mp bound
    cases same
    exact .readRc t id r rc pc given value
  | leave id rc =>
    simp only [pc] at taken
    cases taken
    exact .leave t id rc pc

theorem brokerMoves {s s' : State τ ω} {choice : Choice ω} (taken : brokerStep s choice = some s') : Move s s' := by
  unfold brokerStep at taken
  cases pc : s.broker <;> cases choice <;> simp only [pc, reduceCtorEq] at taken
  case wait.waited completions =>
    obtain ⟨unsignaled, same⟩ := Option.ite_none_left_eq_some.mp taken
    cases same
    refine .waited _ pc fun c member event => ?_
    by_contra quiet
    exact unsignaled ⟨List.any_eq_true.mpr ⟨c, member, by simp [event]⟩, quiet⟩
  case drainEvent.drained i empty =>
    split at taken
    · cases taken
      exact .drainLast i pc ‹_›
    · cases taken
      exact .drain i _ _ pc ‹_›
  case lock.next =>
    obtain ⟨unlocked, same⟩ := Option.ite_none_right_eq_some.mp taken
    cases same
    exact .brokerLock pc unlocked
  case take.next =>
    split at taken
    · cases taken
      exact .takeNone pc ‹_›
    · cases taken
      exact .take _ _ pc ‹_›
  case unlockEmpty.next =>
    cases taken
    exact .unlockEmpty pc
  case unlockTaken.next id =>
    cases taken
    exact .unlockTaken id pc
  case execute.executes id initialized rc =>
    obtain ⟨r, given, same⟩ := Option.map_eq_some_iff.mp taken
    simp only [doOpExecuted] at same
    cases same
    exact .execute id r initialized rc pc given
  case setRc.next id rc =>
    cases taken
    exact .setRc id rc pc
  case wake.next id =>
    cases taken
    exact .wake id pc
  case dispatch.next i =>
    split at taken
    · cases taken
      exact .dispatchLast i pc ‹_›
    · cases taken
      exact .dispatch i _ pc ‹_›
  case timers.next =>
    cases taken
    exact .timers pc

theorem stepMoves {s s' : State τ ω} {a : Action τ ω} {e : Unit} (taken : step s a = some (s', e)) : Move s s' := by
  cases a with
  | submit t op w wakeupRc =>
    obtain ⟨next, ran, same⟩ := Option.map_eq_some_iff.mp taken
    cases same
    unfold submitStep at ran
    split at ran
    · split_ifs at ran with ok
      · cases ran
        exact .submit t op w ‹_›
      · cases ran
        exact .noWakeup t op w _ ‹_› ok
    · contradiction
  | thread t rc =>
    obtain ⟨next, ran, same⟩ := Option.map_eq_some_iff.mp taken
    cases same
    exact threadMoves ran
  | broker choice =>
    obtain ⟨next, ran, same⟩ := Option.map_eq_some_iff.mp taken
    cases same
    exact brokerMoves ran
  | notify =>
    cases taken
    exact .notify

end Steps

end Nanosig.Broker
