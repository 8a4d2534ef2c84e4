import Nanosig.Lib.WrappingCounter
import Nanosig.Rbtree.Tree
import Nanosig.Status

/-! The timer manager of ns_timer.c between its initialization and its shutdown:
`g_timer_mgr` and the timers it links, with the body of every call under the
manager's mutex. A call takes the outcomes of what it asks of the platform as
arguments: its clock reading, the results of its emits, of a mutex operation. -/
namespace Nanosig.TimerMgr
open WrappingCounter

def uint64Modulus : Nat := 2 ^ 64
def int64Max : Nat := 2 ^ 63 - 1

def attrRepeat : BitVec 32 := 1
def attrReloadFromNow : BitVec 32 := 2

/- `ns_timer_t`: of the embedded signal the fields the timer calls read, and
without `rb_node`, which is the timer's node of the tree. -/
structure Timer where
  mutexInitialized : Bool
  payloadSize : Nat
  intervalUs : Nat
  expireUs : Nat
  attr : BitVec 32

/- `clock` is the last reading as it was, `now` the 64 bits of it that the source keeps. -/
structure Manager (τ : Type) where
  timers : τ → Timer
  tree : Rbtree.Root τ
  now : Nat
  clock : Nat

/- What `ns_platform_clock_monotonic_us` answers: a reading, or the code it fails with. -/
abbrev ClockRead := Except Status Nat

def attrIsValid (attr : BitVec 32) : Bool := attr &&& ~~~(attrRepeat ||| attrReloadFromNow) = 0

def intervalIsValid (intervalUs : Nat) : Bool := ¬(intervalUs = 0 ∨ intervalUs > int64Max)

/- The `int64_t` value of the 64-bit difference. -/
def remainingUs (expireUs nowUs : Nat) : Int := signedDiff uint64Modulus expireUs nowUs

variable {τ : Type}

/- `ns_timer_remaining_us(timer->expire_us, g_timer_mgr.now)` -/
def remaining (m : Manager τ) (timer : τ) : Int := remainingUs (m.timers timer).expireUs m.now

/- `ns_timer_cmp` -/
def cmp (m : Manager τ) (a b : τ) : Int :=
  let ra := remaining m a
  let rb := remaining m b
  if ra < rb then -1 else if ra > rb then 1 else 0

def refreshNow (m : Manager τ) : ClockRead → Manager τ × Status
  | .ok reading => ({ m with now := reading % uint64Modulus, clock := reading }, .ok)
  | .error rc => (m, rc)

def validateCreated (timer : Timer) : Status :=
  if ¬timer.mutexInitialized then .inval
  else if timer.payloadSize ≠ 0 then .inval
  else .ok

def validateUserInput (timer : Timer) : Status :=
  if validateCreated timer ≠ .ok then validateCreated timer
  else if ¬intervalIsValid timer.intervalUs then .inval
  else if ¬attrIsValid timer.attr then .inval
  else .ok

variable [DecidableEq τ]

def isRunning (m : Manager τ) (timer : τ) : Bool := ¬Rbtree.nodeIsEmpty m.tree.toHeap timer

def setTimer (m : Manager τ) (timer : τ) (value : Timer) : Manager τ :=
  { m with timers := Function.update m.timers timer value }

/- Stores the deadline and links the timer; whether `ns_rbtree_add` returned a node. -/
def arm (m : Manager τ) (timer : τ) (expireUs : Nat) : Option (Manager τ × Bool) :=
  let m := setTimer m timer { m.timers timer with expireUs := expireUs }
  (Rbtree.add (cmp m) m.tree timer).map fun (tree, addResult) => ({ m with tree := tree }, addResult.isSome)

/- Unlinks the timer; whether `ns_rbtree_del` returned a node. -/
def disarm (m : Manager τ) (timer : τ) : Option (Manager τ × Bool) :=
  (Rbtree.del m.tree timer).map fun (tree, delResult) => ({ m with tree := tree }, delResult.isSome)

/- `(ns_time_us_t)(g_timer_mgr.now + timer->interval_us)` -/
def expireFromNow (m : Manager τ) (timer : τ) : Nat := (m.now + (m.timers timer).intervalUs) % uint64Modulus

def startLocked (m : Manager τ) (timer : τ) (clock : ClockRead) : Option (Manager τ × Status × Bool) :=
  if isRunning m timer then some (m, .exists, false)
  else match refreshNow m clock with
    | (m, .ok) => (arm m timer (expireFromNow m timer)).map fun (m, shouldNotify) => (m, .ok, shouldNotify)
    | (m, rc) => some (m, rc, false)

def cancelLocked (m : Manager τ) (timer : τ) : Option (Manager τ × Status × Bool) :=
  if ¬isRunning m timer then some (m, .ok, false)
  else (disarm m timer).map fun (m, shouldNotify) => (m, .ok, shouldNotify)

/- The locked part of `ns_timer_restart`. -/
def restartLocked (m : Manager τ) (timer : τ) (clock : ClockRead) : Option (Manager τ × Status × Bool) :=
  (if isRunning m timer then (disarm m timer).map Prod.fst else some m).bind fun m =>
    match refreshNow m clock with
    | (m, .ok) => (arm m timer (expireFromNow m timer)).map fun (m, becameFirst) => (m, .ok, becameFirst)
    | (m, rc) => some (m, rc, false)

/- `ns_timer_mgr_next_timeout`; the timeout is written on success only. -/
def nextTimeout (m : Manager τ) (clock : ClockRead) : Manager τ × Status × Option Nat :=
  match refreshNow m clock with
  | (m, .ok) =>
      match m.tree.rbLeftmost with
      | none => (m, .noTimer, none)
      | some timer =>
          (m, .ok, some (if remaining m timer ≤ 0 then 0 else (remaining m timer).toNat))
  | (m, rc) => (m, rc, none)

def reloadExpire (m : Manager τ) (timer : τ) (previousExpire : Nat) : Nat :=
  if (m.timers timer).attr &&& attrReloadFromNow ≠ 0 then expireFromNow m timer
  else
    let nextExpire := (previousExpire + (m.timers timer).intervalUs) % uint64Modulus
    if remainingUs nextExpire m.now ≤ 0 then expireFromNow m timer else nextExpire

/- `if((rc != NS_OK) && (first_error == NS_OK)) first_error = rc;` -/
def keepFirst (firstError rc : Status) : Status := if rc ≠ .ok ∧ firstError = .ok then rc else firstError

def reload (m : Manager τ) (timer : τ) (previousExpire : Nat) : Option (Manager τ) :=
  if (m.timers timer).attr &&& attrRepeat ≠ 0 then
    (arm m timer (reloadExpire m timer previousExpire)).map Prod.fst
  else some m

/- The loop of `ns_timer_mgr_fire_expired`. `emit n` is the result of the call's
`n`-th emit, and `fired` the timers it has emitted for so far. -/
def fireFrom (emit : Nat → Status) : Nat → Manager τ → List τ → Status → Option (Manager τ × List τ × Status)
  | 0, _, _, _ => none
  | fuel + 1, m, fired, firstError =>
      match m.tree.rbLeftmost with
      | none => some (m, fired, firstError)
      | some timer =>
          if remaining m timer > 0 then some (m, fired, firstError)
          else
            let previousExpire := (m.timers timer).expireUs
            (disarm m timer).bind fun (m, _) =>
              let firstError := keepFirst firstError (emit fired.length)
              (reload m timer previousExpire).bind fun m => fireFrom emit fuel m (fired ++ [timer]) firstError

/- `ns_timer_mgr_fire_expired`: the timers it emitted for, in order, and its result. -/
def fireExpired (m : Manager τ) (clock : ClockRead) (emit : Nat → Status) : Option (Manager τ × List τ × Status) :=
  match refreshNow m clock with
  | (m, .ok) => fireFrom emit (m.tree.linked + 1) m [] .ok
  | (m, rc) => some (m, [], rc)

/- `ns_timer_init`; `mutex` is the result of `ns_platform_mutex_init`. -/
def init (m : Manager τ) (timer : τ) (intervalUs : Nat) (attr : BitVec 32) (mutex : Status) : Manager τ × Status :=
  if ¬intervalIsValid intervalUs then (m, .inval)
  else if ¬attrIsValid attr then (m, .inval)
  else if mutex ≠ .ok then
    (setTimer m timer { m.timers timer with mutexInitialized := false, payloadSize := 0 }, mutex)
  else
    let m := setTimer m timer
      { mutexInitialized := true, payloadSize := 0, intervalUs := intervalUs, expireUs := 0, attr := attr }
    ({ m with tree := { m.tree with toHeap := Rbtree.nodeInit m.tree.toHeap timer } }, .ok)

/- The end of `ns_timer_deinit`, after its cancel succeeded; `mutex` is the result of
`ns_platform_mutex_deinit`. -/
def deinitCleanup (m : Manager τ) (timer : τ) (mutex : Status) : Manager τ × Status :=
  let value := m.timers timer
  let m := setTimer m timer { value with mutexInitialized := false, expireUs := 0 }
  ({ m with tree := { m.tree with toHeap := Rbtree.nodeInit m.tree.toHeap timer } },
    if value.mutexInitialized then mutex else .ok)

/- The public calls: the result and whether the broker is notified after the unlock. -/
def start (m : Manager τ) (timer : τ) (clock : ClockRead) : Option (Manager τ × Status × Bool) :=
  if validateUserInput (m.timers timer) ≠ .ok then some (m, validateUserInput (m.timers timer), false)
  else startLocked m timer clock

def cancel (m : Manager τ) (timer : τ) : Option (Manager τ × Status × Bool) :=
  if validateCreated (m.timers timer) ≠ .ok then some (m, validateCreated (m.timers timer), false)
  else cancelLocked m timer

def restart (m : Manager τ) (timer : τ) (clock : ClockRead) : Option (Manager τ × Status × Bool) :=
  if validateUserInput (m.timers timer) ≠ .ok then some (m, validateUserInput (m.timers timer), false)
  else restartLocked m timer clock

def deinit (m : Manager τ) (timer : τ) (mutex : Status) : Option (Manager τ × Status × Bool) :=
  (cancel m timer).map fun (m, rc, shouldNotify) =>
    if rc ≠ .ok then (m, rc, shouldNotify)
    else
      let (m, rc) := deinitCleanup m timer mutex
      (m, rc, shouldNotify)

end Nanosig.TimerMgr
