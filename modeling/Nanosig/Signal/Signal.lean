import Nanosig.Lib.CircularList
import Nanosig.MpscRecordRing.Calls
import Nanosig.Signal.SlotCall

/-! Signals, connections and loops in one context: the slot lists as linked by the code,
the records that emits push to the queues of the loops, and their dispatch. The mutex of a
signal is free and the wakeup of a loop is left out. -/
namespace Nanosig.Signal

open CircularList MpscRecordRing TransitionSystem

variable {abi : Abi} {σ κ ℓ : Type}

/- `ns_connection_t` but for its node. -/
structure Connection (abi : Abi) (σ ℓ : Type) where
  signal : σ
  slot : Slot abi
  targetLoop : ℓ

/- The nodes are the `slot_list` of each signal and the `signal_node` of each connection;
a connection is none before its first connect. `connected`, `emitted` and `called` are for
the proofs: the connections of a signal in order, what each loop was sent and called. -/
structure State (abi : Abi) (σ κ ℓ : Type) where
  links : Links (σ ⊕ κ)
  payloadSize : σ → Nat
  connections : κ → Option (Connection abi σ ℓ)
  queues : ℓ → MpscRecordRing.State abi Unit
  connected : σ → List κ
  emitted : ℓ → List SlotInvocation
  called : ℓ → List SlotInvocation

inductive Event where
  | returned (rc : Status)
  | called (slot : SlotInvocation)
  | skipped
  | empty
  | released
  deriving DecidableEq

/- The calls of the context. A dispatch is taken apart at its slot call, so that the slot
can make further calls; `fuel` bounds a loop over a slot list. -/
inductive Action (abi : Abi) (σ κ ℓ : Type) where
  | connect (g : σ) (slot : Slot abi) (target : ℓ) (c : κ)
  | disconnect (c : κ)
  | disconnectAll (g : σ) (fuel : Nat)
  | emit (g : σ) (payload : Part abi) (fuel : Nat)
  | acquire (target : ℓ)
  | release (target : ℓ)

section Calls

variable [DecidableEq σ] [DecidableEq κ] [DecidableEq ℓ]

/- `ns_signal_connect`; only `slot_fn` can be NULL here. -/
def connect (s : State abi σ κ ℓ) (g : σ) (slot : Slot abi) (target : ℓ) (c : κ) : Option (State abi σ κ ℓ × Status) :=
  if slot.slotFn = 0 then some (s, .inval)
  else
    ((s.links.init (.inr c)).pushBack (.inl g) (.inr c)).map fun links =>
      ({ s with
        connections := Function.update s.connections c (some ⟨g, slot, target⟩)
        links := links
        connected := Function.update s.connected g (s.connected g ++ [c]) }, .ok)

def disconnect (s : State abi σ κ ℓ) (c : κ) : Option (State abi σ κ ℓ × Status) :=
  (s.connections c).bind fun connection =>
    (s.links.removeInit (.inr c)).map fun links =>
      ({ s with
        links := links
        connected := Function.update s.connected connection.signal ((s.connected connection.signal).erase c) }, .ok)

/- The loop of `ns_signal_disconnect_all`. -/
def popAll {α : Type} [DecidableEq α] (links : Links α) (head : α) : Nat → Option (Links α)
  | 0 => none
  | fuel + 1 =>
      if links.empty head then some links
      else
        match links.popFront head with
        | some (some node, links) => popAll (links.init node) head fuel
        | _ => none

def disconnectAll (s : State abi σ κ ℓ) (g : σ) (fuel : Nat) : Option (State abi σ κ ℓ × Status) :=
  (popAll s.links (.inl g) fuel).map fun links =>
    ({ s with
      links := links
      connected := Function.update s.connected g [] }, .ok)

def setQueue (s : State abi σ κ ℓ) (target : ℓ) (queue : MpscRecordRing.State abi Unit) : State abi σ κ ℓ :=
  { s with queues := Function.update s.queues target queue }

def noteEmitted (s : State abi σ κ ℓ) (target : ℓ) (slot : SlotInvocation) : State abi σ κ ℓ :=
  { s with emitted := Function.update s.emitted target (s.emitted target ++ [slot]) }

/- The loop of `ns_signal_emit_raw` over the slot list. -/
def emitLoop (s : State abi σ κ ℓ) (g : σ) (payload : Part abi) :
    Nat → Option (σ ⊕ κ) → Option (State abi σ κ ℓ × Status)
  | 0, _ => none
  | _ + 1, none => none
  | _ + 1, some (.inl h) => if h = g then some (s, .ok) else none
  | fuel + 1, some (.inr c) =>
      (s.connections c).bind fun conn =>
        (pushCall (s.queues conn.targetLoop) () (some (slotCallParts conn.slot payload))).bind fun pushed =>
          let s := setQueue s conn.targetLoop pushed.1
          if pushed.2 = .ok then
            emitLoop (noteEmitted s conn.targetLoop (invocation conn.slot payload)) g payload fuel (s.links.next (.inr c))
          else some (s, pushed.2)

def emitRaw (s : State abi σ κ ℓ) (g : σ) (payload : Part abi) (fuel : Nat) : Option (State abi σ κ ℓ × Status) :=
  if emitRawAccepts (s.payloadSize g) payload then emitLoop s g payload fuel (s.links.next (.inl g))
  else some (s, .inval)

/- One round of `ns_loop_dispatch_pending`, up to the slot call and behind it. -/
def dispatchAcquire (s : State abi σ κ ℓ) (target : ℓ) : Option (State abi σ κ ℓ × Event) :=
  if (s.queues target).held.isSome then none
  else
    (acquireCall (s.queues target)).bind fun acquired =>
      let s := setQueue s target acquired.1
      if acquired.2 = .ok then
        acquired.1.held.map fun loan =>
          match readSlotCall abi (loan.readable acquired.1) with
          | none => (s, .skipped)
          | some slot =>
              ({ s with called := Function.update s.called target (s.called target ++ [slot]) }, .called slot)
      else some (s, .empty)

def dispatchRelease (s : State abi σ κ ℓ) (target : ℓ) : Option (State abi σ κ ℓ × Event) :=
  if (s.queues target).held.isSome then
    (releaseCall (s.queues target)).map fun released => (setQueue s target released.1, .released)
  else none

def step (s : State abi σ κ ℓ) : Action abi σ κ ℓ → Option (State abi σ κ ℓ × Event)
  | .connect g slot target c => (connect s g slot target c).map fun ended => (ended.1, .returned ended.2)
  | .disconnect c => (disconnect s c).map fun ended => (ended.1, .returned ended.2)
  | .disconnectAll g fuel => (disconnectAll s g fuel).map fun ended => (ended.1, .returned ended.2)
  | .emit g payload fuel => (emitRaw s g payload fuel).map fun ended => (ended.1, .returned ended.2)
  | .acquire target => dispatchAcquire s target
  | .release target => dispatchRelease s target

/- A connection object is connected only while unlinked. -/
def Unlinked (s : State abi σ κ ℓ) : Action abi σ κ ℓ → Prop
  | .connect _ _ _ c => ∀ conn ∈ s.connections c, c ∉ s.connected conn.signal
  | _ => True

instance (s : State abi σ κ ℓ) (a : Action abi σ κ ℓ) : Decidable (Unlinked s a) := by
  unfold Unlinked
  split <;> infer_instance

/- After `ns_signal_init_raw` of each signal and `ns_loop_create` of each loop. -/
structure Starts (s : State abi σ κ ℓ) : Prop where
  slotList : ∀ g, s.links.next (.inl g) = some (.inl g) ∧ s.links.prev (.inl g) = some (.inl g)
  connections : ∀ c, s.connections c = none
  queues : ∀ l, MpscRecordRing.Starts abi (s.queues l)
  connected : ∀ g, s.connected g = []
  emitted : ∀ l, s.emitted l = []
  called : ∀ l, s.called l = []

end Calls

end Nanosig.Signal
