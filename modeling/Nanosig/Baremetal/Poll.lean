import Nanosig.Signal.Delivery
import Nanosig.TimerMgr.BoundedSleep
import Nanosig.TimerMgr.FireExpired

/-! `ns_loop_poll` of the bare-metal build, with the timers it fires, the ring it drains and
the slots it calls. There is one loop and one context of execution. -/
namespace Nanosig.Baremetal

open TimerMgr MpscRecordRing

variable {abi : Abi} {τ σ κ : Type}

inductive SlotAction (τ : Type) where
  | start (t : τ)
  | cancel (t : τ)
  | restart (t : τ)

/- The embedded signal of each timer, the answers of the clock in the order of the reads, and
what the slots do, by the number of slots the loop has called before. -/
structure Setting (τ σ : Type) where
  signal : τ → σ
  clock : Nat → ClockRead
  slots : Nat → List (SlotAction τ)

/- `reads` and `rounds` are for the proofs: every clock read so far with the manager it
found, and what `ns_timer_mgr_fire_expired` fired and returned in every round. -/
structure Context (abi : Abi) (τ σ κ : Type) where
  initialized : Bool
  created : Bool
  manager : Manager τ
  signals : Signal.State abi σ κ Unit
  reads : List (Manager τ × ClockRead)
  rounds : List (List τ × Status)

def nextRead (w : Setting τ σ) (s : Context abi τ σ κ) : ClockRead := w.clock s.reads.length

def noteRead (w : Setting τ σ) (s : Context abi τ σ κ) : Context abi τ σ κ :=
  { s with reads := s.reads ++ [(s.manager, nextRead w s)] }

variable [DecidableEq τ]

def readsClock (m : Manager τ) : SlotAction τ → Bool
  | .start t => validateUserInput (m.timers t) = .ok ∧ ¬isRunning m t
  | .cancel _ => false
  | .restart t => validateUserInput (m.timers t) = .ok

def runAction (m : Manager τ) (clock : ClockRead) : SlotAction τ → Option (Manager τ × Status × Bool)
  | .start t => start m t clock
  | .cancel t => cancel m t
  | .restart t => restart m t clock

def callTimer (w : Setting τ σ) (s : Context abi τ σ κ) (a : SlotAction τ) : Option (Context abi τ σ κ) :=
  (runAction s.manager (nextRead w s) a).map fun ended =>
    { (if readsClock s.manager a then noteRead w s else s) with manager := ended.1 }

def runSlot (w : Setting τ σ) (s : Context abi τ σ κ) (actions : List (SlotAction τ)) : Option (Context abi τ σ κ) :=
  actions.foldlM (callTimer w) s

variable [DecidableEq σ]

/- `ns_signal_emit_raw(&timer->signal, NS_NO_PAYLOAD, 0u)` -/
def emitTimer (w : Setting τ σ) (signals : Signal.State abi σ κ Unit) (timer : τ) : Option (Signal.State abi σ κ Unit × Status) :=
  Signal.emitRaw signals (w.signal timer) (.null abi) ((signals.connected (w.signal timer)).length + 1)

/- The loop of `ns_timer_mgr_fire_expired`, with its emits. -/
def fireFrom (w : Setting τ σ) : Nat → Context abi τ σ κ → List τ → Status → Option (Context abi τ σ κ × List τ × Status)
  | 0, _, _, _ => none
  | fuel + 1, s, fired, firstError =>
      match s.manager.tree.rbLeftmost with
      | none => some (s, fired, firstError)
      | some timer =>
          if remaining s.manager timer > 0 then some (s, fired, firstError)
          else
            let previousExpire := (s.manager.timers timer).expireUs
            (disarm s.manager timer).bind fun (m, _) =>
              (emitTimer w s.signals timer).bind fun (signals, rc) =>
                (reload m timer previousExpire).bind fun m =>
                  fireFrom w fuel { s with manager := m, signals := signals } (fired ++ [timer]) (keepFirst firstError rc)

def fireExpired (w : Setting τ σ) (s : Context abi τ σ κ) : Option (Context abi τ σ κ × List τ × Status) :=
  match refreshNow s.manager (nextRead w s) with
  | (m, .ok) => fireFrom w (m.tree.linked + 1) { noteRead w s with manager := m } [] .ok
  | (m, rc) => some ({ noteRead w s with manager := m }, [], rc)

/- `ns_loop_dispatch_pending`: a record is released when its slot has returned. -/
def dispatchFrom (w : Setting τ σ) : Nat → Context abi τ σ κ → Option (Context abi τ σ κ)
  | 0, _ => none
  | fuel + 1, s =>
      (Signal.dispatchAcquire s.signals ()).bind fun (signals, event) =>
        let acquired := { s with signals := signals }
        let released (s : Context abi τ σ κ) := (Signal.dispatchRelease s.signals ()).bind fun (signals, _) =>
          dispatchFrom w fuel { s with signals := signals }
        match event with
        | .called _ => (runSlot w acquired (w.slots (s.signals.called ()).length)).bind released
        | .skipped => released acquired
        | _ => some acquired

def dispatchPending (w : Setting τ σ) (s : Context abi τ σ κ) : Option (Context abi τ σ κ) :=
  dispatchFrom w ((s.signals.queues ()).window.length + 1) s

/- The rounds of `ns_loop_poll` that are left. -/
def pollFrom (w : Setting τ σ) : Nat → Context abi τ σ κ → Status → Option (Context abi τ σ κ × Status)
  | 0, s, rc => some (s, rc)
  | left + 1, s, rc =>
      (fireExpired w s).bind fun (s, fired, result) =>
        let rc := keepFirst rc result
        (dispatchPending w { s with rounds := s.rounds ++ [(fired, result)] }).bind fun s =>
          match nextTimeout s.manager (nextRead w s) with
          | (m, .ok, some nextUs) =>
              let s := { noteRead w s with manager := m }
              if nextUs > 0 then some (s, rc) else pollFrom w left s rc
          | (m, _, _) => some ({ noteRead w s with manager := m }, rc)

/- `maxRounds` is `NANOSIG_BAREMETAL_POLL_MAX_ROUNDS`. -/
def maxRound (maxRounds maxWaitUs : Nat) : Nat := if maxWaitUs = 0 then 1 else maxRounds

/- The `loop` of a call: the build has one loop, `g_ns_bm_loop`. -/
inductive LoopPointer where
  | null
  | bmLoop
  | other
  deriving DecidableEq

def loopPoll (w : Setting τ σ) (maxRounds : Nat) (s : Context abi τ σ κ) (loop : LoopPointer) (maxWaitUs : Nat) :
    Option (Context abi τ σ κ × Status) :=
  if loop = .null then some (s, .inval)
  else if ¬s.initialized then some (s, .shutdown)
  else if loop ≠ .bmLoop then some (s, .inval)
  else if ¬s.created then some (s, .inval)
  else pollFrom w (maxRound maxRounds maxWaitUs) s .ok

end Nanosig.Baremetal
