import Nanosig.Broker.Removal
import Nanosig.Platform.EpollWaits

/-! The broker on the Linux backend: its thread waits in the waitset that holds its event and the watchers it has added.
What the broker assumes of its platform, the waitset of the backend does. -/
namespace Nanosig.Broker.OnLinux
open TransitionSystem

/- The broker beside the waitset of `ns_event_broker`, whose waitables are the broker's event and the watchers'. -/
structure State (τ ω : Type) where
  broker : Broker.State τ ω
  platform : Platform.Linux.State Unit (Source ω)

def State.eventFd {τ ω : Type} (s : State τ ω) : Int := (s.platform.waitables .event).primitive

def State.waitset {τ ω : Type} (s : State τ ω) : Platform.Linux.EpollWaitset (Source ω) := s.platform.waitsets ()

/- A step of a thread that leaves the waitset alone, one of the kernel or of a program that prepares a watcher, or one of
the broker in which it calls the waitset or drains its event. -/
inductive Action (τ ω : Type) where
  | program (a : Broker.Action τ ω)
  | kernel (a : Platform.Linux.Action Unit (Source ω))
  | waits (a : Platform.Linux.Action Unit (Source ω))
  | drains (empty : Bool)
  | executes (initialized refuses : Bool)

section Steps

variable {τ ω : Type} [DecidableEq τ] [DecidableEq ω]

def leavesWaitset : Broker.Action τ ω → Bool
  | .submit _ _ _ _ | .thread _ _ | .broker .next | .notify => true
  | .broker (.waited _) | .broker (.drained _) | .broker (.executes _ _) => false

/- `ns_platform_event_signal` has written to the eventfd. -/
def signals (s : Broker.State τ ω) : Broker.Action τ ω → Bool
  | .notify => true
  | .thread t rc =>
      match s.threads t with
      | .signal _ => rc = .ok
      | _ => false
  | _ => false

def ofKernel (s : State τ ω) : Platform.Linux.Action Unit (Source ω) → Bool
  | .arises fd _ | .ceases fd _ => fd ≠ s.eventFd
  | .prepare b _ _ _ => b ≠ .event
  | .waitReturns _ _ | .forgets _ _ | .expires _ => true
  | .add _ _ _ | .remove _ _ _ | .waitBegins _ _ _ _ | .waitFinishes _ _ => false

def ofWait (s : State τ ω) : Platform.Linux.Action Unit (Source ω) → Bool
  | .waitBegins _ _ _ _ => s.waitset.pc.isIdle
  | .waitFinishes _ _ => true
  | _ => false

def completed (c : Platform.Completion (Source ω)) : Completion ω := ⟨some c.waitable, c.triggeredEvents.toNat⟩

/- A failed wait leaves the broker without completions. -/
def batchOf (r : Platform.Linux.Report (Source ω)) : Option (List (Completion ω)) :=
  if r.status = .ok then some (r.completions.map completed) else none

/- The call of the waitset in `ns_broker_do_add` or `ns_broker_do_remove`, behind their check of the watcher. -/
def callWaitset (p : Platform.Linux.State Unit (Source ω)) (r : Request τ ω) (initialized refuses : Bool) :
    Platform.Linux.State Unit (Source ω) × Status :=
  if ¬initialized then (p, .inval)
  else
    match r.op with
    | .add => Platform.Linux.add p () (.watcher r.watcher) refuses
    | .remove => Platform.Linux.remove p () (.watcher r.watcher) refuses

def atEvent (s : Broker.State τ ω) : Bool :=
  match s.broker with
  | .drainEvent i => s.completions[i]?.any (·.waitable = some .event)
  | _ => false

def step (s : State τ ω) : Action τ ω → Option (State τ ω × Unit)
  | .program a =>
      if leavesWaitset a then
        (Broker.step s.broker a).map fun (b, _) =>
          (⟨b, if signals s.broker a then s.platform.arise s.eventFd Platform.Linux.epollIn else s.platform⟩, ())
      else none
  | .kernel a => if ofKernel s a then (Platform.Linux.step s.platform a).map fun (p, _) => ({ s with platform := p }, ()) else none
  | .waits a =>
      if s.broker.broker = .wait ∧ ofWait s a then
        (Platform.Linux.step s.platform a).bind fun (p, e) =>
          match e with
          | .waited _ r => (Broker.step s.broker (.broker (.waited (batchOf r)))).map fun (b, _) => (⟨b, p⟩, ())
          | _ => some (⟨s.broker, p⟩, ())
      else none
  | .drains empty =>
      (Broker.step s.broker (.broker (.drained empty))).map fun (b, _) =>
        (⟨b, if atEvent s.broker ∧ empty then
          { s.platform with level := Function.update s.platform.level s.eventFd (s.platform.level s.eventFd &&& 0) }
        else s.platform⟩, ())
  | .executes initialized refuses =>
      match s.broker.broker with
      | .execute id =>
          (s.broker.requests id).bind fun r =>
            let (p, rc) := callWaitset s.platform r initialized refuses
            (Broker.step s.broker (.broker (.executes initialized rc))).map fun (b, _) => (⟨b, p⟩, ())
      | _ => none

def Allowed (s : State τ ω) : Action τ ω → Prop
  | .kernel (.prepare b _ _ _) => s.platform.registered b = none
  | _ => True

/- After `ns_broker_global_init`: the event is in the waitset, and nothing has signaled it. -/
structure Starts (s : State τ ω) : Prop where
  broker : Broker.Starts s.broker
  platform : Reachable Platform.Linux.Starts Platform.Linux.step Platform.Linux.Allowed s.platform
  event : s.platform.registered .event = some ()
  watchers : ∀ w, s.platform.registered (.watcher w) = none
  idle : s.waitset.pc = .idle
  unsignaled : s.platform.level s.eventFd = 0

end Steps

section Joint

variable {τ ω : Type} [DecidableEq τ] [DecidableEq ω] {s s' : State τ ω} {b b' : Broker.State τ ω}

structure Agree (b : Broker.State τ ω) (p : Platform.Linux.State Unit (Source ω)) : Prop where
  watchers : ∀ w, b.registered w = true ↔ p.registered (.watcher w) = some ()
  event : p.registered .event = some ()
  idle : b.broker ≠ .wait → (p.waitsets ()).pc = .idle
  level : p.level (p.waitables .event).primitive ≠ 0 → b.event = true
  inHand : ∀ e ∈ (p.waitsets ()).pc.inHand, e.ptr = some .event → b.event = true

structure Joint (s : State τ ω) : Prop where
  broker : Reachable Broker.Starts Broker.step Honest s.broker
  platform : Reachable Platform.Linux.Starts Platform.Linux.step Platform.Linux.Allowed s.platform
  agree : Agree s.broker s.platform

omit [DecidableEq τ] [DecidableEq ω] in
theorem leavesHonest {a : Broker.Action τ ω} (leaves : leavesWaitset a = true) : Honest b a := by
  cases a with
  | submit => exact trivial
  | thread => exact trivial
  | notify => exact trivial
  | broker choice =>
    cases choice with
    | next => exact trivial
    | waited => contradiction
    | drained => exact trivial
    | executes => exact trivial

structure Shares (b b' : Broker.State τ ω) (signaled : Bool) : Prop where
  registered : b'.registered = b.registered
  waits : b.broker = .wait → b'.broker = .wait
  event : b.event = true → b'.event = true
  signaled : signaled = true → b'.event = true

omit [DecidableEq ω] in
theorem submitShares {t : τ} {op : Op} {w : ω} {rc : Status} (taken : submitStep b t op w rc = some b') :
    Shares b b' false := by
  unfold submitStep at taken
  split at taken
  · split_ifs at taken <;> cases taken
    · exact ⟨rfl, fun same => same, fun same => same, fun signaled => by contradiction⟩
    · exact ⟨rfl, fun same => same, fun same => same, fun signaled => by contradiction⟩
  · contradiction

omit [DecidableEq ω] in
theorem threadShares {t : τ} {rc : Status} (taken : threadStep b t rc = some b') : Shares b b' (signals b (.thread t rc)) := by
  unfold threadStep at taken
  cases pc : b.threads t <;> simp only [pc, reduceCtorEq] at taken
  case signal number =>
    split_ifs at taken <;> cases taken
    · exact ⟨rfl, fun same => same, fun _ => rfl, fun _ => rfl⟩
    · rename_i failed
      exact ⟨rfl, fun same => same, fun same => same, fun signaled => by simp [signals, pc, failed] at signaled⟩
  case lock number | wait number =>
    split_ifs at taken <;> cases taken
    all_goals exact ⟨rfl, fun same => same, fun same => same, fun signaled => by simp [signals, pc] at signaled⟩
  case readRc number =>
    obtain ⟨rc, -, same⟩ := Option.map_eq_some_iff.mp taken
    cases same
    exact ⟨rfl, fun same => same, fun same => same, fun signaled => by simp [signals, pc] at signaled⟩
  all_goals
    cases taken
    exact ⟨rfl, fun same => same, fun same => same, fun signaled => by simp [signals, pc] at signaled⟩

omit [DecidableEq τ] in
theorem nextShares (taken : brokerStep b .next = some b') : Shares b b' false := by
  unfold brokerStep at taken
  cases pc : b.broker <;> simp only [pc, reduceCtorEq] at taken
  case lock =>
    split_ifs at taken
    cases taken
    exact ⟨rfl, fun wait => by simp [pc] at wait, fun same => same, fun signaled => by contradiction⟩
  case take | dispatch i =>
    split at taken <;> cases taken
    all_goals exact ⟨rfl, fun wait => by simp [pc] at wait, fun same => same, fun signaled => by contradiction⟩
  all_goals
    cases taken
    exact ⟨rfl, fun wait => by simp [pc] at wait, fun same => same, fun signaled => by contradiction⟩

theorem leavesShares {a : Broker.Action τ ω} {e : Unit} (leaves : leavesWaitset a = true)
    (taken : Broker.step b a = some (b', e)) : Shares b b' (signals b a) := by
  cases a with
  | submit t op w wakeupRc =>
    obtain ⟨next, ran, same⟩ := Option.map_eq_some_iff.mp taken
    cases same
    exact submitShares ran
  | thread t rc =>
    obtain ⟨next, ran, same⟩ := Option.map_eq_some_iff.mp taken
    cases same
    exact threadShares ran
  | notify =>
    cases taken
    exact ⟨rfl, fun same => same, fun _ => rfl, fun _ => rfl⟩
  | broker choice =>
    cases choice with
    | waited => contradiction
    | drained => contradiction
    | executes => contradiction
    | next =>
      obtain ⟨next, ran, same⟩ := Option.map_eq_some_iff.mp taken
      cases same
      exact nextShares ran

section Sides

variable {p p' : Platform.Linux.State Unit (Source ω)}

omit [DecidableEq τ] [DecidableEq ω] in
theorem Agree.program (agree : Agree b p) {signaled : Bool} (shares : Shares b b' signaled) :
    Agree b' (if signaled then p.arise (p.waitables .event).primitive Platform.Linux.epollIn else p) := by
  have watchers : ∀ w, b'.registered w = true ↔ p.registered (.watcher w) = some () := fun w => by
    rw [shares.registered]
    exact agree.watchers w
  have idle : b'.broker ≠ .wait → (p.waitsets ()).pc = .idle := fun busy => agree.idle fun wait => busy (shares.waits wait)
  cases signaled with
  | false =>
    exact ⟨watchers, agree.event, idle, fun raised => shares.event (agree.level raised),
      fun e member event => shares.event (agree.inHand e member event)⟩
  | true => exact ⟨watchers, agree.event, idle, fun _ => shares.signaled rfl, fun _ _ _ => shares.signaled rfl⟩

omit [DecidableEq τ] [DecidableEq ω] in
theorem Agree.returns (agree : Agree b p) (kept : Platform.Linux.Inv p) {t : Platform.Linux.EpollWaitset (Source ω)}
    {ends : Platform.Linux.Ends} (returned : Platform.Linux.waitReturns (p.waitsets ()) p.level ends = some t) :
    (p.waitsets ()).pc ≠ .idle ∧ ∀ e ∈ t.pc.inHand, e.ptr = some .event → b.event = true := by
  unfold Platform.Linux.waitReturns at returned
  split at returned
  · rename_i wait pc
    refine ⟨by simp [pc], fun e member => ?_⟩
    cases ends with
    | interrupted =>
      cases returned
      contradiction
    | failed =>
      cases returned
      contradiction
    | chooses keys =>
      obtain ⟨-, same⟩ := Option.ite_none_right_eq_some.mp returned
      cases same
      intro ptr
      obtain ⟨k, -, offer⟩ := List.mem_filterMap.mp member
      cases k with
      | none =>
        rw [(Platform.Linux.offeredTimer offer).2] at ptr
        contradiction
      | some fd =>
        obtain ⟨i, found, rfl, holds⟩ := Platform.Linux.offered offer
        have mine : i.entry.waitable = .event := Option.some.inj ptr
        have owner := (kept.kept.ownerOf found).2.1
        rw [mine] at owner
        refine agree.level fun none => holds ?_
        rw [← owner, none]
        exact BitVec.zero_and
  · contradiction

omit [DecidableEq τ] in
theorem Agree.kernel (agree : Agree b p) (kept : Platform.Linux.Inv p) {a : Platform.Linux.Action Unit (Source ω)}
    {e : Platform.Linux.Event Unit (Source ω)} (kernel : ofKernel ⟨b, p⟩ a = true) (taken : Platform.Linux.step p a = some (p', e)) :
    Agree b p' := by
  have ⟨watchers, event, idle, level, inHand⟩ := agree
  cases a with
  | add => contradiction
  | remove => contradiction
  | waitBegins => contradiction
  | waitFinishes => contradiction
  | prepare x primitive events edgeTriggered =>
    cases taken
    have other : Source.event ≠ x := fun same => by simp [ofKernel, ← same] at kernel
    have registered : (p.prepare x { p.waitables x with
        primitive := primitive, events := events, edgeTriggered := edgeTriggered }).registered = p.registered := by
      funext y
      by_cases same : y = x
      · subst same
        simp [Platform.Linux.State.registered, Platform.Linux.State.prepare]
      · simp [Platform.Linux.State.registered, Platform.Linux.State.prepare, same]
    refine ⟨fun w => by rw [registered]; exact watchers w, by rw [registered]; exact event, idle, fun raised => level ?_, inHand⟩
    simpa [Platform.Linux.State.prepare, other] using raised
  | waitReturns w ends =>
    obtain ⟨t, returned, same⟩ := Option.map_eq_some_iff.mp taken
    cases same
    obtain ⟨waiting, shown⟩ := agree.returns kept returned
    refine ⟨watchers, event, fun busy => absurd (idle busy) waiting, level, fun e member => shown e ?_⟩
    simpa [Platform.Linux.State.setWaitset] using member
  | arises fd mask =>
    cases taken
    have other : (p.waitables .event).primitive ≠ fd := fun same => by simp [ofKernel, State.eventFd, same] at kernel
    refine ⟨watchers, event, idle, fun raised => level ?_, inHand⟩
    simpa [Platform.Linux.State.arise, other] using raised
  | ceases fd mask =>
    cases taken
    have other : (p.waitables .event).primitive ≠ fd := fun same => by simp [ofKernel, State.eventFd, same] at kernel
    refine ⟨watchers, event, idle, fun raised => level ?_, inHand⟩
    simpa [other] using raised
  | forgets w fd =>
    cases taken
    refine ⟨watchers, event, fun busy => ?_, level, fun e member => inHand e ?_⟩
    · simpa [Platform.Linux.State.setWaitset, Platform.Linux.EpollWaitset.forget, Platform.Linux.EpollWaitset.mapItems]
        using idle busy
    · simpa [Platform.Linux.State.setWaitset, Platform.Linux.EpollWaitset.forget, Platform.Linux.EpollWaitset.mapItems]
        using member
  | expires w =>
    obtain ⟨-, same⟩ := Option.ite_none_right_eq_some.mp taken
    cases same
    refine ⟨watchers, event, fun busy => ?_, level, fun e member => inHand e ?_⟩
    · simpa [Platform.Linux.State.setWaitset] using idle busy
    · simpa [Platform.Linux.State.setWaitset] using member

omit [DecidableEq τ] in
theorem waitLeaves {a : Platform.Linux.Action Unit (Source ω)} {e : Platform.Linux.Event Unit (Source ω)} {s : State τ ω}
    (timed : Platform.Linux.Timed s.waitset) (ofItsThread : ofWait s a = true)
    (taken : Platform.Linux.step s.platform a = some (p', e)) :
    ∃ t, p' = s.platform.setWaitset () t ∧ t.pc.inHand = [] ∧ ∀ w r, e = .waited w r →
      t.pc = .idle ∧ ∀ c ∈ r.completions, ∃ stored ∈ s.waitset.pc.inHand, stored.ptr = some c.waitable := by
  cases a with
  | waitBegins w timeoutUs maxCompletions settime =>
    have idle : s.waitset.pc = .idle := Platform.Linux.isIdle ofItsThread
    have keeps := Platform.Linux.waitBeginsKeeps timed idle timeoutUs maxCompletions settime
    cases began : Platform.Linux.waitBegins s.waitset timeoutUs maxCompletions settime with
    | mk t report =>
      rw [began] at keeps
      have began' : Platform.Linux.waitBegins (s.platform.waitsets w) timeoutUs maxCompletions settime = (t, report) := began
      simp only [Platform.Linux.step, began'] at taken
      cases taken
      refine ⟨t, rfl, keeps.2.2.1, fun v r waited => ?_⟩
      cases report with
      | none => contradiction
      | some r' =>
        cases waited
        obtain ⟨same, none⟩ := Platform.Linux.waitBeginsReports (t := s.waitset) (r := r) (by rw [began])
        rw [began] at same
        have same : t = s.waitset := same
        exact ⟨by rw [same]; exact idle, fun c member => by rw [none] at member; contradiction⟩
  | waitFinishes w disarmed =>
    obtain ⟨⟨t, r⟩, finished, same⟩ := Option.map_eq_some_iff.mp taken
    cases same
    obtain ⟨idle, from_⟩ := Platform.Linux.waitFinishesFrom finished
    refine ⟨t, rfl, by rw [idle]; rfl, fun v r' waited => ?_⟩
    cases waited
    exact ⟨idle, from_⟩
  | add => contradiction
  | remove => contradiction
  | prepare => contradiction
  | waitReturns => contradiction
  | arises => contradiction
  | ceases => contradiction
  | forgets => contradiction
  | expires => contradiction

omit [DecidableEq τ] in
theorem callOutcome (p : Platform.Linux.State Unit (Source ω)) (r : Request τ ω) (initialized refuses : Bool) :
    ((callWaitset p r initialized refuses).2 ≠ .ok ∧ (callWaitset p r initialized refuses).1 = p) ∨
      ((callWaitset p r initialized refuses).2 = .ok ∧ initialized = true ∧
        ∃ t, (callWaitset p r initialized refuses).1 = p.link () t (.watcher r.watcher) (if r.op = .add then some () else none) ∧
          t.pc = (p.waitsets ()).pc) := by
  unfold callWaitset
  cases initialized with
  | false => exact .inl ⟨by simp, rfl⟩
  | true =>
    rw [if_neg (by simp)]
    cases op : r.op with
    | add =>
      rcases Platform.Linux.addOutcome p () (.watcher r.watcher) refuses with refused | ⟨ok, linked⟩
      · exact .inl refused
      · exact .inr ⟨ok, rfl, by simpa using linked⟩
    | remove =>
      rcases Platform.Linux.removeOutcome p () (.watcher r.watcher) refuses with refused | ⟨ok, linked⟩
      · exact .inl refused
      · exact .inr ⟨ok, rfl, by simpa using linked⟩

omit [DecidableEq τ] in
theorem doOpShares (r : Request τ ω) (initialized : Bool) (rc : Status) :
    (doOp b r initialized rc).1.event = b.event ∧ (doOp b r initialized rc).1.registered =
      if initialized = true ∧ rc = .ok then Function.update b.registered r.watcher (decide (r.op = .add)) else b.registered := by
  unfold doOp
  cases op : r.op with
  | add =>
    unfold doAdd
    cases initialized with
    | false => exact ⟨rfl, by simp⟩
    | true =>
      by_cases ok : rc = .ok
      · simp [ok]
      · simp [ok]
  | remove =>
    unfold doRemove
    cases initialized with
    | false => exact ⟨rfl, by simp⟩
    | true =>
      by_cases ok : rc = .ok
      · simp [ok]
      · simp [ok]

omit [DecidableEq τ] in
theorem Agree.executes (agree : Agree b p) (busy : b.broker ≠ .wait) (r : Request τ ω) {initialized refuses : Bool}
    (event : b'.event = b.event)
    (registered : b'.registered = (doOp b r initialized (callWaitset p r initialized refuses).2).1.registered) :
    Agree b' (callWaitset p r initialized refuses).1 := by
  have idle := agree.idle busy
  have shares := (doOpShares (b := b) r initialized (callWaitset p r initialized refuses).2).2
  rw [shares] at registered
  rcases callOutcome p r initialized refuses with ⟨refused, same⟩ | ⟨ok, ready, t, linked, pc⟩
  · rw [if_neg fun both => refused both.2] at registered
    rw [same]
    exact ⟨fun w => by rw [registered]; exact agree.watchers w, agree.event, fun _ => idle, by rw [event]; exact agree.level,
      by rw [event]; exact agree.inHand⟩
  · rw [if_pos ⟨ready, ok⟩] at registered
    rw [linked]
    have here : ((p.link () t (.watcher r.watcher) (if r.op = .add then some () else none)).waitsets ()).pc = .idle := by
      simpa [Platform.Linux.State.link, Platform.Linux.State.setWaitset] using pc.trans idle
    refine ⟨fun w => ?_, ?_, fun _ => here, fun raised => ?_, fun e member => ?_⟩
    · rw [registered, Platform.Linux.registeredLink]
      by_cases same : w = r.watcher
      · subst same
        cases r.op <;> simp
      · rw [Function.update_of_ne same, Function.update_of_ne (by simpa using same)]
        exact agree.watchers w
    · rw [Platform.Linux.registeredLink, Function.update_of_ne (by simp)]
      exact agree.event
    · rw [(Platform.Linux.fieldsLink p () t _ _ .event).1] at raised
      rw [event]
      exact agree.level raised
    · rw [here] at member
      contradiction

omit [DecidableEq τ] [DecidableEq ω] in
theorem Agree.waits (agree : Agree b p) {t : Platform.Linux.EpollWaitset (Source ω)} (registered : b'.registered = b.registered)
    (event : b'.event = b.event) (inHand : t.pc.inHand = []) (idle : b'.broker ≠ .wait → t.pc = .idle) :
    Agree b' (p.setWaitset () t) := by
  refine ⟨fun w => ?_, agree.event, fun busy => ?_, fun raised => ?_, fun e member => ?_⟩
  · rw [registered]
    exact agree.watchers w
  · simpa [Platform.Linux.State.setWaitset] using idle busy
  · rw [event]
    exact agree.level raised
  · have member : e ∈ t.pc.inHand := by simpa [Platform.Linux.State.setWaitset] using member
    rw [inHand] at member
    contradiction

omit [DecidableEq τ] [DecidableEq ω] in
theorem Agree.honest (agree : Agree b p) {w : Unit} {r : Platform.Linux.Report (Source ω)} (sound : Platform.Linux.Sound p w r) :
    Honest b (.broker (.waited (batchOf r))) := by
  unfold batchOf
  split
  · refine ⟨?_, fun c member watcher watches => ?_⟩
    · have once := sound.distinct.map (Option.some_injective _)
      rw [List.map_map] at once ⊢
      exact once
    · obtain ⟨c', inside, rfl⟩ := List.mem_map.mp member
      have same : c'.waitable = .watcher watcher := Option.some.inj watches
      have there := (sound.registered c' inside).1
      rw [same] at there
      exact (agree.watchers watcher).mpr there
  · exact trivial

theorem waitedShares {batch : Option (List (Completion ω))} {e : Unit} (waits : b.broker = .wait)
    (taken : Broker.step b (.broker (.waited batch)) = some (b', e)) :
    b'.registered = b.registered ∧ b'.event = b.event ∧ b'.batch = batch.getD [] := by
  obtain ⟨next, ran, same⟩ := Option.map_eq_some_iff.mp taken
  cases same
  simp only [brokerStep, waits] at ran
  obtain ⟨-, same⟩ := Option.ite_none_left_eq_some.mp ran
  cases same
  exact ⟨rfl, rfl, rfl⟩

theorem drainedShares {empty : Bool} {e : Unit} (taken : Broker.step b (.broker (.drained empty)) = some (b', e)) :
    b.broker ≠ .wait ∧ b'.registered = b.registered ∧ (¬(atEvent b = true ∧ empty = true) → b'.event = b.event) := by
  obtain ⟨next, ran, same⟩ := Option.map_eq_some_iff.mp taken
  cases same
  unfold brokerStep at ran
  cases pc : b.broker <;> simp only [pc, reduceCtorEq] at ran
  case drainEvent i =>
    refine ⟨by simp, ?_⟩
    split at ran
    · cases ran
      exact ⟨rfl, fun _ => rfl⟩
    · rename_i c here
      cases ran
      refine ⟨rfl, fun undrained => if_neg fun drained => undrained ⟨?_, drained.2⟩⟩
      simp only [atEvent, pc, here, Option.any_some, decide_eq_true_eq]
      exact drained.1

theorem executesShares {id : Nat} {r : Request τ ω} {initialized : Bool} {rc : Status} {e : Unit} (pc : b.broker = .execute id)
    (given : b.requests id = some r) (taken : Broker.step b (.broker (.executes initialized rc)) = some (b', e)) :
    b'.event = b.event ∧ b'.registered = (doOp b r initialized rc).1.registered := by
  obtain ⟨next, ran, same⟩ := Option.map_eq_some_iff.mp taken
  cases same
  simp only [brokerStep, pc, given, Option.map_some] at ran
  cases ran
  exact ⟨(doOpShares r initialized rc).1, rfl⟩

omit [DecidableEq τ] in
theorem callReachable (platform : Reachable Platform.Linux.Starts Platform.Linux.step Platform.Linux.Allowed p)
    (idle : (p.waitsets ()).pc = .idle) (r : Request τ ω) (initialized refuses : Bool) :
    Reachable Platform.Linux.Starts Platform.Linux.step Platform.Linux.Allowed (callWaitset p r initialized refuses).1 := by
  have rests : (p.waitsets ()).pc.isIdle = true := by rw [idle]; rfl
  unfold callWaitset
  cases initialized with
  | false => exact platform
  | true =>
    rw [if_neg (by simp)]
    cases r.op with
    | add => exact .next (a := .add () (.watcher r.watcher) refuses) platform rests rfl
    | remove => exact .next (a := .remove () (.watcher r.watcher) refuses) platform rests rfl

omit [DecidableEq τ] [DecidableEq ω] in
theorem Agree.drains (agree : Agree b p) (registered : b'.registered = b.registered) (busy : b.broker ≠ .wait) {drained : Prop}
    [Decidable drained] (event : ¬drained → b'.event = b.event) :
    Agree b' (if drained then
      { p with level := Function.update p.level (p.waitables .event).primitive (p.level (p.waitables .event).primitive &&& 0) }
    else p) := by
  have idle := agree.idle busy
  have watchers : ∀ w, b'.registered w = true ↔ p.registered (.watcher w) = some () := fun w => by
    rw [registered]
    exact agree.watchers w
  have none : ∀ e ∈ (p.waitsets ()).pc.inHand, e.ptr = some .event → b'.event = true := by
    rw [idle]
    rintro _ ⟨⟩
  split
  · refine ⟨watchers, agree.event, fun _ => idle, fun raised => absurd ?_ raised, none⟩
    dsimp only
    rw [Function.update_self]
    exact BitVec.and_zero
  · rename_i undrained
    exact ⟨watchers, agree.event, fun _ => idle, by rw [event undrained]; exact agree.level, none⟩

end Sides

omit [DecidableEq τ] in
theorem kernelAllowed {a : Platform.Linux.Action Unit (Source ω)} (kernel : ofKernel s a = true) (allowed : Allowed s (.kernel a)) :
    Platform.Linux.Allowed s.platform a := by
  cases a with
  | prepare => exact allowed
  | waitReturns => exact trivial
  | arises => exact trivial
  | ceases => exact trivial
  | forgets => exact trivial
  | expires => exact trivial
  | add => contradiction
  | remove => contradiction
  | waitBegins => contradiction
  | waitFinishes => contradiction

omit [DecidableEq τ] [DecidableEq ω] in
theorem waitAllowed {a : Platform.Linux.Action Unit (Source ω)} (ofItsThread : ofWait s a = true) :
    Platform.Linux.Allowed s.platform a := by
  cases a with
  | waitBegins => exact ofItsThread
  | waitFinishes => exact trivial
  | prepare => contradiction
  | waitReturns => exact trivial
  | arises => exact trivial
  | ceases => exact trivial
  | forgets => exact trivial
  | expires => exact trivial
  | add => contradiction
  | remove => contradiction

theorem jointStep {a : Action τ ω} {e : Unit} (joint : Joint s) (allowed : Allowed s a) (taken : step s a = some (s', e)) :
    Joint s' := by
  obtain ⟨broker, platform, agree⟩ := joint
  have inv := Platform.Linux.reachableInv platform
  cases a with
  | program a =>
    obtain ⟨leaves, taken⟩ := Option.ite_none_right_eq_some.mp taken
    obtain ⟨⟨b, e⟩, ran, same⟩ := Option.map_eq_some_iff.mp taken
    cases same
    refine ⟨.next broker (leavesHonest leaves) ran, ?_, agree.program (leavesShares leaves ran)⟩
    dsimp only
    split
    · exact .next (a := .arises s.eventFd Platform.Linux.epollIn) platform trivial rfl
    · exact platform
  | kernel a =>
    obtain ⟨kernel, taken⟩ := Option.ite_none_right_eq_some.mp taken
    obtain ⟨⟨p, e⟩, ran, same⟩ := Option.map_eq_some_iff.mp taken
    cases same
    exact ⟨broker, .next platform (kernelAllowed kernel allowed) ran, agree.kernel inv kernel ran⟩
  | waits a =>
    obtain ⟨⟨waiting, ofItsThread⟩, taken⟩ := Option.ite_none_right_eq_some.mp taken
    obtain ⟨⟨p, told⟩, ran, rest⟩ := Option.bind_eq_some_iff.mp taken
    obtain ⟨t, rfl, inHand, waited⟩ := waitLeaves (inv.timed ()) ofItsThread ran
    have permitted := waitAllowed ofItsThread
    have platform' := Reachable.next platform permitted ran
    cases told with
    | silent =>
      cases rest
      exact ⟨broker, platform', agree.waits rfl rfl inHand fun busy => absurd waiting busy⟩
    | called status =>
      cases rest
      exact ⟨broker, platform', agree.waits rfl rfl inHand fun busy => absurd waiting busy⟩
    | waited w r =>
      obtain ⟨⟨b, e⟩, moved, same⟩ := Option.map_eq_some_iff.mp rest
      cases same
      have sound := (Platform.Linux.stepInv inv permitted ran).2 w r rfl
      obtain ⟨registered, event, -⟩ := waitedShares waiting moved
      exact ⟨.next broker (agree.honest sound) moved, platform', agree.waits registered event inHand fun _ => (waited w r rfl).1⟩
  | drains empty =>
    obtain ⟨⟨b, e⟩, moved, same⟩ := Option.map_eq_some_iff.mp taken
    cases same
    obtain ⟨busy, registered, event⟩ := drainedShares moved
    refine ⟨.next (a := .broker (.drained empty)) broker trivial moved, ?_, agree.drains registered busy event⟩
    dsimp only
    split
    · exact .next (a := .ceases s.eventFd 0) platform trivial rfl
    · exact platform
  | executes initialized refuses =>
    cases pc : s.broker.broker <;> simp only [step, pc, reduceCtorEq] at taken
    case execute id =>
      obtain ⟨r, given, rest⟩ := Option.bind_eq_some_iff.mp taken
      obtain ⟨⟨b, e⟩, moved, same⟩ := Option.map_eq_some_iff.mp rest
      cases same
      have busy : s.broker.broker ≠ .wait := by simp [pc]
      obtain ⟨event, registered⟩ := executesShares pc given moved
      have honest : Honest s.broker (.broker (.executes initialized (callWaitset s.platform r initialized refuses).2)) := trivial
      exact ⟨.next broker honest moved, callReachable platform (agree.idle busy) r initialized refuses,
        agree.executes busy r event registered⟩

theorem startJoint (starts : Starts s) : Joint s := by
  refine ⟨.start starts.broker, starts.platform, fun w => ?_, starts.event, fun _ => starts.idle, fun raised => ?_, ?_⟩
  · rw [starts.broker.registered w, starts.watchers w]
    simp
  · exact absurd starts.unsignaled raised
  · have idle : (s.platform.waitsets ()).pc = .idle := starts.idle
    rw [idle]
    rintro _ ⟨⟩

theorem reachableJoint (reach : Reachable Starts step Allowed s) : Joint s :=
  reach.invariant (fun _ starts => startJoint starts) fun _ _ _ _ joint allowed taken => jointStep joint allowed taken

theorem waitTold (joint : Joint s) (waits : s.broker.broker = .wait) {a : Platform.Linux.Action Unit (Source ω)}
    {p : Platform.Linux.State Unit (Source ω)} {w : Unit} {r : Platform.Linux.Report (Source ω)} (ofItsThread : ofWait s a = true)
    (ran : Platform.Linux.step s.platform a = some (p, .waited w r)) :
    ∃ s', step s (.waits a) = some (s', ()) ∧ s'.broker.batch = (batchOf r).getD [] := by
  have inv := Platform.Linux.reachableInv joint.platform
  obtain ⟨t, -, -, waited⟩ := waitLeaves (inv.timed ()) ofItsThread ran
  have signaled : ¬(((batchOf r).getD []).any (·.waitable = some .event) = true ∧ ¬s.broker.event = true) := by
    rintro ⟨shown, unsignaled⟩
    obtain ⟨c, member, event⟩ := List.any_eq_true.mp shown
    unfold batchOf at member
    split at member
    · obtain ⟨c', inside, rfl⟩ := List.mem_map.mp member
      obtain ⟨e, inHand, ptr⟩ := (waited w r rfl).2 c' inside
      have same : c'.waitable = .event := Option.some.inj (of_decide_eq_true event)
      rw [same] at ptr
      exact unsignaled (joint.agree.inHand e inHand ptr)
    · contradiction
  cases moved : Broker.step s.broker (.broker (.waited (batchOf r))) with
  | none =>
    simp only [Broker.step, brokerStep, waits, Option.map_eq_none_iff, ite_eq_left_iff, reduceCtorEq, imp_false, not_not] at moved
    exact absurd (by simpa using moved) signaled
  | some next =>
    obtain ⟨b, e⟩ := next
    refine ⟨⟨b, p⟩, ?_, (waitedShares waits moved).2.2⟩
    simp only [step, waits, ofItsThread, and_self, if_true, ran, Option.bind_some, moved, Option.map_some]

/- The broker on the Linux backend is a broker whose platform keeps its promises: it and its waitset agree on who is
registered, every wait's outcome is one it can take, and once a remove has returned the watcher is neither waited for nor
called until it is added again. -/
theorem brokerOnLinux (reach : Reachable Starts step Allowed s) :
    Reachable Broker.Starts Broker.step Honest s.broker ∧ Platform.Linux.EpollWaits s.platform ∧
      (∀ w, s.broker.registered w = true ↔ s.platform.registered (.watcher w) = some ()) ∧
      (∀ a p w r, s.broker.broker = .wait → ofWait s a = true → Platform.Linux.step s.platform a = some (p, .waited w r) →
        ∃ s', step s (.waits a) = some (s', ()) ∧ s'.broker.batch = (batchOf r).getD []) ∧
      ∀ w, RemoveReturned s.broker w →
        s.platform.registered (.watcher w) = none ∧ ∀ call ∈ invokes s.broker, call.1 ≠ w := by
  have joint := reachableJoint reach
  refine ⟨joint.broker, Platform.Linux.invWaits (Platform.Linux.reachableInv joint.platform), joint.agree.watchers,
    fun a p w r waits ofItsThread ran => waitTold joint waits ofItsThread ran, fun w removed => ?_⟩
  have away := removedIsAway joint.broker removed
  refine ⟨?_, fun call made same => ?_⟩
  · cases there : s.platform.registered (.watcher w) with
    | none => rfl
    | some =>
      have here := (joint.agree.watchers w).mpr there
      rw [away.1] at here
      contradiction
  · unfold invokes at made
    split at made
    · rename_i i pc
      cases here : s.broker.completions[i]? with
      | none =>
        rw [here] at made
        contradiction
      | some c =>
        rw [here] at made
        refine away.2 c (List.mem_of_getElem? here) ?_
        rw [← same]
        exact (handledFrom made).1
    · contradiction

end Joint

instance (s : State Bool Bool) : (a : Action Bool Bool) → Decidable (Allowed s a)
  | .kernel (.prepare b _ _ _) => inferInstanceAs (Decidable (s.platform.registered b = none))
  | .kernel (.add _ _ _) | .kernel (.remove _ _ _) | .kernel (.waitBegins _ _ _ _) | .kernel (.waitReturns _ _)
  | .kernel (.waitFinishes _ _) | .kernel (.arises _ _) | .kernel (.ceases _ _) | .kernel (.forgets _ _) | .kernel (.expires _)
  | .program _ | .waits _ | .drains _ | .executes _ _ => .isTrue trivial

def newPlatform : Platform.Linux.State Unit (Source Bool) where
  waitsets := fun _ =>
    { count := 0, timerFd := 4, interest := fun _ => none, timer := .disarmed, pc := .idle, listed := [], leftArmed := false }
  waitables := fun
    | .event => { primitive := 3, events := Platform.waitableEventIn, edgeTriggered := false, registeredWaitset := none }
    | .watcher w =>
        { primitive := if w then 5 else 6, events := Platform.waitableEventIn, edgeTriggered := true, registeredWaitset := none }
  level := fun _ => 0

def started : State Bool Bool := ⟨Broker.initial, (Platform.Linux.add newPlatform () .event false).1⟩

theorem startedStarts : Starts started := by
  have new : Reachable Platform.Linux.Starts Platform.Linux.step Platform.Linux.Allowed newPlatform :=
    .start ⟨fun _ => ⟨rfl, rfl, rfl, rfl, rfl, rfl⟩, fun b => by cases b <;> rfl⟩
  refine ⟨initialStarts, .next (a := .add () .event false) new rfl rfl, by decide, fun w => ?_, rfl, rfl⟩
  cases w <;> decide

def waitsFor (fd : Int) : List (Action Bool Bool) :=
  [.waits (.waitBegins () Platform.waitInfiniteUs 32 true), .kernel (.waitReturns () (.chooses [some fd])),
    .waits (.waitFinishes () true)]

def addedThenReady : List (Action Bool Bool) :=
  [.program (.submit true .add true .ok)] ++ List.replicate 4 (.program (.thread true .ok)) ++ waitsFor 3 ++
    [.drains true, .drains true, .program (.broker .next), .program (.broker .next), .program (.broker .next),
      .executes true false] ++ List.replicate 8 (.program (.broker .next)) ++ [.kernel (.arises 5 Platform.Linux.epollIn)] ++ waitsFor 5

theorem watcherWaitedFor : ∃ s : State Bool Bool, Reachable Broker.Starts Broker.step Honest s.broker ∧
    (∀ w, s.broker.registered w = true ↔ s.platform.registered (.watcher w) = some ()) ∧ s.broker.registered true = true ∧
      s.broker.batch = [⟨some (.watcher true), 1⟩] := by
  have ran : ∃ s, executeAllowed step Allowed started addedThenReady = some s ∧
      s.broker.registered true = true ∧ s.broker.batch = [⟨some (.watcher true), 1⟩] := anyResult (by decide +kernel)
  obtain ⟨s, executed, registered, batch⟩ := ran
  have onLinux := brokerOnLinux (executeAllowedReachable (.start startedStarts) executed)
  exact ⟨s, onLinux.1, onLinux.2.2.1, registered, batch⟩

end Nanosig.Broker.OnLinux
