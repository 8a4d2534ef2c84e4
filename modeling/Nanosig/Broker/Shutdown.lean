import Nanosig.Broker.Progress
import Nanosig.Lib.Progress

/-! `ns_broker_global_shutdown` beside the broker and the threads, up to the join and the look at the queue. What a thread
does to a broker that is freed under it is not described: nothing happens after that. -/
namespace Nanosig.Broker

open TransitionSystem

/- The shutdown by its next access; `join` knows whether the event could be signaled. -/
inductive ShutdownPc where
  | before
  | storeQuit
  | signal
  | join (signaled : Bool)
  | check
  | ended (empty : Bool)
  deriving DecidableEq

/- The loop of `ns_broker_run` around the pass: `entered` from its test until the wait returns. -/
structure Closing (τ ω : Type) where
  running : State τ ω
  entered : Bool
  exited : Bool
  shutdownStarted : Bool
  quitRequested : Bool
  shutdown : ShutdownPc

section Shutdown

variable {τ ω : Type} [DecidableEq τ] [DecidableEq ω]

def ShutdownPc.isOver : ShutdownPc → Bool
  | .ended _ => true
  | _ => false

/- What the flags say of each other; once the shutdown has signaled the event, a broker behind its test is not left asleep. -/
structure ClosingInv (s : Closing τ ω) : Prop where
  running : Inv s.running
  entered : s.entered = true → s.running.broker = .wait ∧ s.exited = false
  exited : s.exited = true → s.running.broker = .wait ∧ s.quitRequested = true
  started : s.shutdownStarted = true ↔ s.shutdown ≠ .before
  quit : s.quitRequested = true → s.shutdownStarted = true
  stored : s.shutdown ≠ .before ∧ s.shutdown ≠ .storeQuit → s.quitRequested = true
  rung : s.shutdown = .join true → s.entered = true → s.running.event = true
  ended : ∀ empty, s.shutdown = .ended empty → s.exited = true ∧ s.running.queue.isEmpty = empty
  checking : s.shutdown = .check → s.exited = true

variable {r r' : State τ ω}

variable {s s' : Closing τ ω}

section Leaving

structure Leaving (s : Closing τ ω) : Prop where
  inv : ClosingInv s
  joins : s.shutdown = .join true
  here : s.exited = false

end Leaving

end Shutdown

end Nanosig.Broker
