import Nanosig.Platform.Timeouts
import Nanosig.TimerMgr.OrderedTree

/-! User threads beside the broker. A call is its part under the manager's mutex,
then its notify, then, for `ns_timer_deinit`, its cleanup; the broker is the loop
of `ns_broker_run`. What the broker does for watchers touches no timer. -/
namespace Nanosig.TimerMgr.Threads
open TransitionSystem

variable {τ θ : Type} [DecidableEq τ] [DecidableEq θ]

inductive Call (τ : Type) where
  | start (t : τ)
  | cancel (t : τ)
  | restart (t : τ)
  | deinit (t : τ)
  deriving DecidableEq

def Call.timer : Call τ → τ
  | .start t => t
  | .cancel t => t
  | .restart t => t
  | .deinit t => t

/- Outside of any call, between the unlock and the end of the notify, or in a
`ns_timer_deinit` behind its cancel. -/
inductive Place (τ : Type) where
  | idle
  | unlocked (call : Call τ) (rc : Status) (shouldNotify : Bool)
  | cleaning (t : τ)
  deriving DecidableEq

/- What `ns_broker_run` passes to `ns_platform_waitset_wait`, with the clock read of the
`ns_timer_mgr_next_timeout` it comes from and the deadline that call answered for. -/
structure Timeout where
  clock : ClockRead
  deadlineUs : Option Int
  timeoutUs : Nat
  deriving DecidableEq

/- The next access of the broker: `wait` is the call of `ns_platform_waitset_wait`,
`waiting` its return. -/
inductive BrokerPc where
  | testQuit
  | nextTimeout
  | wait (timeout : Timeout)
  | waiting (timeout : Timeout)
  | drain
  | serve
  | fireExpired
  | recheck
  | refire
  | left
  deriving DecidableEq

/- The timeout of the wait the broker is entering or inside. -/
def BrokerPc.timeout : BrokerPc → Option Timeout
  | .wait timeout => some timeout
  | .waiting timeout => some timeout
  | _ => none

/- `event` is the latch of the broker's event. -/
structure State (τ θ : Type) where
  timers : TimerMgr.State τ
  event : Bool
  broker : BrokerPc
  place : θ → Place τ

/- `waiting ready` is the return of the wait; `ready` if its completions hold the event. -/
inductive BrokerStep where
  | testQuit (quitRequested : Bool)
  | nextTimeout (clock : ClockRead)
  | wait
  | waiting (ready : Bool)
  | drain
  | serve
  | fireExpired (clock : ClockRead) (emit : Nat → Status)
  | recheck (clock : ClockRead)

inductive Action (τ θ : Type) where
  | call (thread : θ) (call : Call τ) (clock : ClockRead)
  | notify (thread : θ)
  | cleanup (thread : θ) (mutex : Status)
  | broker (access : BrokerStep)

/- The part of a call before its unlock; for `ns_timer_deinit` this is its cancel. -/
def locked (s : TimerMgr.State τ) (call : Call τ) (clock : ClockRead) : Option (Manager τ × Status × Bool) :=
  match call with
  | .start t => start s.manager t clock
  | .cancel t => cancel s.manager t
  | .restart t => restart s.manager t clock
  | .deinit t => cancel s.manager t

def Call.links : Call τ → Bool
  | .start _ => true
  | .cancel _ => false
  | .restart _ => true
  | .deinit _ => false

def moved (s : State τ θ) (thread : θ) (place : Place τ) : State τ θ :=
  { s with place := Function.update s.place thread place }

/- The deadline behind the timeout that `ns_timer_mgr_next_timeout` has answered. -/
def waitDeadline (m : Manager τ) (answer : Status × Option Nat) : Option Int :=
  match answer.2 with
  | none => none
  | some _ => m.tree.rbLeftmost.map (deadline m)

/- `timeout_us` as `ns_broker_run` passes it: the answer, or the value it starts with. -/
def passedTimeout (answer : Status × Option Nat) : Nat := answer.2.getD Platform.waitInfiniteUs

def brokerStep (s : State τ θ) : BrokerStep → Option (State τ θ)
  | .testQuit quitRequested =>
      if s.broker = .testQuit then some { s with broker := if quitRequested then .left else .nextTimeout } else none
  | .nextTimeout clock =>
      if s.broker = .nextTimeout then
        let (m, answer) := TimerMgr.nextTimeout s.timers.manager clock
        some { s with
          timers := { s.timers with manager := m }
          broker := .wait ⟨clock, waitDeadline m answer, passedTimeout answer⟩ }
      else none
  | .wait =>
      match s.broker with
      | .wait timeout => some { s with broker := .waiting timeout }
      | _ => none
  | .waiting ready =>
      match s.broker with
      | .waiting _ => if ready ∧ ¬s.event then none else some { s with broker := if ready then .drain else .serve }
      | _ => none
  | .drain => if s.broker = .drain then some { s with event := false, broker := .serve } else none
  | .serve => if s.broker = .serve then some { s with broker := .fireExpired } else none
  | .fireExpired clock emit =>
      if s.broker = .fireExpired ∨ s.broker = .refire then
        (fireExpired s.timers.manager clock emit).map fun (m, fired, _) =>
          { s with timers := ⟨m, fired.foldl (refile s.timers.manager) s.timers.ages⟩, broker := .recheck }
      else none
  | .recheck clock =>
      if s.broker = .recheck then
        let (m, answer) := TimerMgr.nextTimeout s.timers.manager clock
        some { s with
          timers := { s.timers with manager := m }
          broker := if answer.2 = some 0 then .refire else .testQuit }
      else none

def step (s : State τ θ) : Action τ θ → Option (State τ θ × Unit)
  | .call thread call clock =>
      match s.place thread with
      | .idle =>
          (locked s.timers call clock).map fun (m, rc, shouldNotify) =>
            (moved { s with timers :=
              ⟨m, agesAfter s.timers.manager m s.timers.ages call.timer (call.links && rc = .ok)⟩ } thread
              (.unlocked call rc shouldNotify), ())
      | _ => none
  | .notify thread =>
      match s.place thread with
      | .unlocked call rc shouldNotify =>
          let s := { s with event := s.event || (rc = .ok && shouldNotify) }
          match call with
          | .deinit t => some (moved s thread (if rc = .ok then .cleaning t else .idle), ())
          | _ => some (moved s thread .idle, ())
      | _ => none
  | .cleanup thread mutex =>
      match s.place thread with
      | .cleaning t =>
          some (moved { s with timers := { s.timers with manager := (deinitCleanup s.timers.manager t mutex).1 } }
            thread .idle, ())
      | _ => none
  | .broker access => (brokerStep s access).map fun s => (s, ())

def Starts (s : State τ θ) : Prop :=
  s.timers.manager.tree.root = none ∧ s.timers.manager.tree.rbLeftmost = none ∧ s.timers.manager.tree.linked = 0 ∧
    s.timers.manager.now = 0 ∧ s.timers.manager.clock = 0 ∧ s.timers.ages = [] ∧
    (∀ t, (s.timers.manager.timers t).mutexInitialized = true → Rbtree.nodeIsEmpty s.timers.manager.tree.toHeap t = true) ∧
    s.event = false ∧ s.broker = .testQuit ∧ ∀ thread, s.place thread = .idle

def Place.timer : Place τ → Option τ
  | .idle => none
  | .unlocked call _ _ => some call.timer
  | .cleaning t => some t

def Forward (m : Manager τ) (clock : ClockRead) : Prop := ∃ reading, clock = .ok reading ∧ m.clock ≤ reading

def InTime (m : Manager τ) (clock : ClockRead) : Prop :=
  ∃ reading, clock = .ok reading ∧ m.clock ≤ reading ∧ ∀ t, Running m t → (reading : Int) < deadline m t + 2 ^ 63

/- The readings of an access are `Good`, and calls on one timer do not overlap. -/
def Allowed (Good : Manager τ → ClockRead → Prop) (s : State τ θ) : Action τ θ → Prop
  | .call _ call clock =>
      (call.links = true → Good s.timers.manager clock) ∧ ∀ thread, (s.place thread).timer ≠ some call.timer
  | .broker (.nextTimeout clock) => Good s.timers.manager clock
  | .broker (.fireExpired clock _) => Good s.timers.manager clock
  | .broker (.recheck clock) => Good s.timers.manager clock
  | _ => True

def Timeout.Exact (timeout : Timeout) : Prop :=
  ∃ reading : Nat, timeout.clock = .ok reading ∧
    timeout.timeoutUs =
      match timeout.deadlineUs with
      | none => Platform.waitInfiniteUs
      | some d => (max 0 (d - reading)).toNat

/- While the broker enters the wait or is inside, with its event unsignaled and no call between
its unlock and its notify, no running timer is due before the deadline of the timeout. -/
def NoMissedDeadline (s : State τ θ) : Prop :=
  ∀ timeout, s.broker.timeout = some timeout → timeout.Exact ∧
    (s.event = false → (∀ thread call rc shouldNotify, s.place thread ≠ .unlocked call rc shouldNotify) →
      ∀ t, Running s.timers.manager t → ∃ d, timeout.deadlineUs = some d ∧ d ≤ deadline s.timers.manager t)

end Nanosig.TimerMgr.Threads
