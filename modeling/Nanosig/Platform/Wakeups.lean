import Nanosig.Lib.Latch
import Nanosig.Lib.TransitionSystem
import Nanosig.Status

/-! The wakeups and events of the backends: any number of threads in
`ns_platform_wakeup_signal` or `ns_platform_event_signal`, and one in
`ns_platform_wakeup_wait`, or in the wait of a waitset followed by
`ns_platform_event_drain`. Every system call is one step and may be
interrupted. Descriptors stay valid, so a read fails only when it is empty. -/
namespace Nanosig.Wakeups
open TransitionSystem

/- How a waiter consumes what is pending: by the wait itself, by one call after
it, or by reading until nothing is left. -/
inductive Drain where
  | byWaiting
  | once
  | untilEmpty
  deriving DecidableEq

/- What the backends differ in: how much can be pending, what a signal reports
when no more fits, what one read of the drain removes. -/
structure Backend where
  capacity : Nat
  holdsOne : 0 < capacity
  full : Status
  taken : Nat → Nat
  takesSome : ∀ count, 0 < count → 0 < taken count
  drain : Drain

/- The counter of an eventfd holds at most `UINT64_MAX - 1`, and a read takes it whole. -/
def eventfd (full : Status) : Backend := ⟨2 ^ 64 - 2, by decide, full, id, fun _ some_ => some_, .untilEmpty⟩

def linuxWakeup : Backend := eventfd .queueFull

def linuxEvent : Backend := eventfd .ok

/- A pipe of some capacity; the drain reads 256 bytes at a time. -/
def macosEvent (capacity : Nat) (holdsOne : 0 < capacity) : Backend :=
  ⟨capacity, holdsOne, .ok, min 256, fun _ some_ => lt_min (by decide) some_, .untilEmpty⟩

def singleSignal (drain : Drain) : Backend := ⟨1, by decide, .ok, id, fun _ some_ => some_, drain⟩

/- An `EVFILT_USER` event with `EV_CLEAR`, an auto-reset event, a binary
semaphore, a semaphore of limit one: the wait consumes the signal. -/
def macosWakeup : Backend := singleSignal .byWaiting

def windowsWakeup : Backend := singleSignal .byWaiting

def windowsEvent : Backend := singleSignal .byWaiting

def freertosWakeup : Backend := singleSignal .byWaiting

def zephyrWakeup : Backend := singleSignal .byWaiting

/- A binary semaphore in a queue set, taken by the drain. -/
def freertosEvent : Backend := singleSignal .once

/- A poll signal, reset by the drain. -/
def zephyrEvent : Backend := singleSignal .once

inductive WaiterPc where
  | idle
  | waiting
  | reading
  deriving DecidableEq

structure State (ι : Type) where
  count : Nat
  signalling : ι → Bool
  waiter : WaiterPc

/- `interrupted` is `EINTR`; `failed` any other error of the call. -/
inductive Outcome where
  | performed
  | interrupted
  | failed
  deriving DecidableEq

inductive Action (ι : Type) where
  | signal (i : ι)
  | write (i : ι) (outcome : Outcome)
  | wait
  | poll (outcome : Outcome)
  | expire
  | read (interrupted : Bool)

inductive WaitResult where
  | signaled
  | timeout
  deriving DecidableEq

inductive Event (ι : Type) where
  | access
  | signalReturned (i : ι) (rc : Status)
  | waitReturned (rc : Status) (result : Option WaitResult)
  deriving DecidableEq

variable {ι : Type} [DecidableEq ι] (b : Backend)

def setSignalling (s : State ι) (i : ι) (inside : Bool) : State ι :=
  { s with signalling := Function.update s.signalling i inside }

def writeStep (s : State ι) (i : ι) : Outcome → Option (State ι × Event ι)
  | .interrupted => if s.signalling i then some (s, .access) else none
  | .failed => if s.signalling i then some (setSignalling s i false, .signalReturned i .inval) else none
  | .performed =>
      if s.signalling i then
        if s.count < b.capacity then
          some (setSignalling { s with count := s.count + 1 } i false, .signalReturned i .ok)
        else some (setSignalling s i false, .signalReturned i b.full)
      else none

def pollStep (s : State ι) : Outcome → Option (State ι × Event ι)
  | .interrupted => if s.waiter = .waiting then some (s, .access) else none
  | .failed => if s.waiter = .waiting then some ({ s with waiter := .idle }, .waitReturned .inval none) else none
  | .performed =>
      if s.waiter = .waiting ∧ 0 < s.count then
        if b.drain = .byWaiting then some ({ s with waiter := .idle, count := 0 }, .waitReturned .ok (some .signaled))
        else some ({ s with waiter := .reading }, .access)
      else none

def expireStep (s : State ι) : Option (State ι × Event ι) :=
  if s.waiter = .waiting ∧ s.count = 0 then
    some ({ s with waiter := .idle }, .waitReturned .ok (some .timeout))
  else none

/- The drain: one call, or the loop around `read` that an empty one ends. -/
def readStep (s : State ι) (interrupted : Bool) : Option (State ι × Event ι) :=
  if s.waiter = .reading then
    if interrupted then some (s, .access)
    else if b.drain = .once then some ({ s with waiter := .idle, count := 0 }, .waitReturned .ok (some .signaled))
    else if 0 < s.count then some ({ s with count := s.count - b.taken s.count }, .access)
    else some ({ s with waiter := .idle }, .waitReturned .ok (some .signaled))
  else none

def step (s : State ι) : Action ι → Option (State ι × Event ι)
  | .signal i => if s.signalling i then none else some (setSignalling s i true, .access)
  | .write i outcome => writeStep b s i outcome
  | .wait => if s.waiter = .idle then some ({ s with waiter := .waiting }, .access) else none
  | .poll outcome => pollStep b s outcome
  | .expire => expireStep s
  | .read interrupted => readStep b s interrupted

def initial : State ι := ⟨0, fun _ => false, .idle⟩

def latchActions (v : Visit (State ι) (Action ι) (Event ι)) : List Latch.Action :=
  match v.label, v.event with
  | .write _ .performed, _ => [.signal]
  | _, .waitReturned _ (some .signaled) => [.take]
  | _, .waitReturned _ (some .timeout) => [.expire]
  | _, _ => []

def latched (s : State ι) : Bool := 0 < s.count ∨ s.waiter = .reading

variable {b}

theorem stepLatches {s s' : State ι} {a : Action ι} {e : Event ι} (taken : step b s a = some (s', e)) :
    Latch.run (latched s) (latchActions ⟨s, a, e⟩) = some (latched s') := by
  cases a with
  | signal i =>
    simp only [step] at taken
    split at taken <;> cases taken
    rfl
  | write i outcome =>
    cases outcome <;> simp only [step, writeStep] at taken <;> split at taken <;> try contradiction
    · split at taken <;> cases taken
      · simp [latchActions, Latch.run, Latch.step, latched, setSignalling]
      · -- What is full is pending.
        have := b.holdsOne
        have pending : 0 < s.count := by omega
        simp [latchActions, Latch.run, Latch.step, latched, setSignalling, pending]
    · cases taken
      rfl
    · cases taken
      rfl
  | wait =>
    simp only [step] at taken
    split at taken <;> cases taken
    rename_i idle
    simp [latchActions, Latch.run, latched, idle]
  | poll outcome =>
    cases outcome <;> simp only [step, pollStep] at taken <;> split at taken <;> try contradiction
    · rename_i readable
      split at taken <;> cases taken
      · simp [latchActions, Latch.run, Latch.step, latched, readable.2]
      · simp [latchActions, Latch.run, latched, readable.2]
    · cases taken
      rfl
    · rename_i waiting
      cases taken
      simp [latchActions, Latch.run, latched, waiting]
  | expire =>
    simp only [step, expireStep] at taken
    split at taken <;> cases taken
    rename_i nothing
    simp [latchActions, Latch.run, Latch.step, latched, nothing.1, nothing.2]
  | read interrupted =>
    simp only [step, readStep] at taken
    split at taken <;> try contradiction
    rename_i reading
    split at taken
    · cases taken
      rfl
    split at taken
    · cases taken
      simp [latchActions, Latch.run, Latch.step, latched, reading]
    split at taken <;> cases taken
    · simp [latchActions, Latch.run, latched, reading]
    · rename_i empty
      simp [latchActions, Latch.run, Latch.step, latched, reading, empty]

abbrev trace (visits : List (Visit (State ι) (Action ι) (Event ι))) : List Latch.Action := visits.flatMap latchActions

theorem runLatches {s : State ι} {visits : List (Visit (State ι) (Action ι) (Event ι))}
    (run : Run (step b) (fun _ _ => True) initial visits s) : Latch.run false (trace visits) = some (latched s) := by
  induction run with
  | done => rfl
  | next before _ taken ih =>
    rw [trace, List.flatMap_append, Latch.runAppend, ih, Option.bind_some, List.flatMap_singleton]
    exact stepLatches taken

theorem waiterReturns {s : State ι} (inside : s.waiter ≠ .idle) (pending : latched s = true) :
    ∃ visits s' v, Run (step b) (fun _ _ => True) s (visits ++ [v]) s' ∧ visits.length ≤ s.count + 1 ∧
      v.event = .waitReturned .ok (some .signaled) := by
  have reads : ∀ (count : Nat) (s : State ι), s.count = count → s.waiter = .reading →
      ∃ visits s' v, Run (step b) (fun _ _ => True) s (visits ++ [v]) s' ∧ visits.length ≤ count ∧
        v.event = .waitReturned .ok (some .signaled) := by
    intro count
    induction count using Nat.strong_induction_on with
    | _ count ih =>
      intro s same reading
      by_cases once : b.drain = .once
      · have last : step b s (.read false) =
            some ({ s with waiter := .idle, count := 0 }, .waitReturned .ok (some .signaled)) := by
          simp [step, readStep, reading, once]
        exact ⟨[], _, _, Run.single trivial last, by simp, rfl⟩
      by_cases empty : 0 < s.count
      · have fewer : s.count - b.taken s.count < count := by
          have := b.takesSome s.count empty
          omega
        obtain ⟨visits, s', v, rest, short, last⟩ :=
          ih _ fewer { s with count := s.count - b.taken s.count } rfl reading
        have first : step b s (.read false) = some ({ s with count := s.count - b.taken s.count }, .access) := by
          simp [step, readStep, reading, once, empty]
        refine ⟨⟨s, .read false, .access⟩ :: visits, s', v, ?_, ?_, last⟩
        · exact (Run.single trivial first).append rest
        · simp only [List.length_cons]
          omega
      · have last : step b s (.read false) = some ({ s with waiter := .idle }, .waitReturned .ok (some .signaled)) := by
          simp [step, readStep, reading, once, empty]
        exact ⟨[], _, _, Run.single trivial last, by simp, rfl⟩
  cases waiter : s.waiter with
  | idle => exact absurd waiter inside
  | reading =>
    obtain ⟨visits, s', v, run, short, last⟩ := reads s.count s rfl waiter
    exact ⟨visits, s', v, run, by omega, last⟩
  | waiting =>
    have readable : 0 < s.count := by simpa [latched, waiter] using pending
    by_cases consumes : b.drain = .byWaiting
    · have polled : step b s (.poll .performed) =
          some ({ s with waiter := .idle, count := 0 }, .waitReturned .ok (some .signaled)) := by
        simp [step, pollStep, waiter, readable, consumes]
      exact ⟨[], _, _, Run.single trivial polled, by simp, rfl⟩
    · have polled : step b s (.poll .performed) = some ({ s with waiter := .reading }, .access) := by
        simp [step, pollStep, waiter, readable, consumes]
      obtain ⟨visits, s', v, run, short, last⟩ := reads s.count { s with waiter := .reading } rfl rfl
      refine ⟨⟨s, .poll .performed, .access⟩ :: visits, s', v, (Run.single trivial polled).append run, ?_, last⟩
      simp only [List.length_cons]
      omega

/- Every backend's wakeups and events are latches, however signals, waits and
interruptions interleave: a wait does not time out after a signal that no wait
has taken, waits are woken no more often than signals were sent, and a waiter
left alone takes what is pending after at most one read for each signal. -/
theorem wakeupsAreLatches {s : State ι} {visits : List (Visit (State ι) (Action ι) (Event ι))}
    (run : Run (step b) (fun _ _ => True) initial visits s) :
    Latch.run false (trace visits) = some (latched s) ∧
      (∀ before between after, trace visits = before ++ .signal :: (between ++ .expire :: after) → .take ∈ between) ∧
      (trace visits).count .take ≤ (trace visits).count .signal ∧
      (s.waiter ≠ .idle → latched s = true →
        ∃ later s' v, Run (step b) (fun _ _ => True) s (later ++ [v]) s' ∧ later.length ≤ s.count + 1 ∧
          v.event = .waitReturned .ok (some .signaled)) := by
  have ran := runLatches run
  refine ⟨ran, ?_, ?_, waiterReturns⟩
  · intro before between after same
    rw [same] at ran
    exact Latch.noSignalLost ran
  · have bound := Latch.takesSignalled ran
    omega

/- Two signals and one wait on an eventfd: one wakeup. -/
theorem eventfdMergesSignals :
    ∃ (visits : List (Visit (State Unit) (Action Unit) (Event Unit))) (s : State Unit),
      Run (step linuxWakeup) (fun _ _ => True) initial visits s ∧
        trace visits = [.signal, .signal, .take] ∧ Latch.run false (trace visits) = some (latched s) := by
  have labels : ∃ result, execute (step linuxWakeup) (initial : State Unit)
      [.signal (), .write () .interrupted, .write () .performed, .wait, .signal (), .poll .performed,
        .write () .performed, .read false, .read false] = some result ∧
      trace result.1 = [.signal, .signal, .take] := anyResult (by decide +kernel)
  obtain ⟨⟨visits, s⟩, executed, merged⟩ := labels
  have run : Run (step linuxWakeup) (fun _ _ => True) initial visits s := executeRun executed fun _ _ => trivial
  exact ⟨visits, s, run, merged, (wakeupsAreLatches run).1⟩

end Nanosig.Wakeups
