import Nanosig.TimerMgr.Threads

/-! No deadline is missed: a call that brings a deadline before the one the broker
waits for owes it a notify, and the notify latches the broker's event. -/
namespace Nanosig.TimerMgr.Threads
open TransitionSystem

variable {τ θ : Type} [DecidableEq τ] [DecidableEq θ]

/- Behind a successful cancel of a `ns_timer_deinit`. -/
def Place.finishes (place : Place τ) (t : τ) : Prop :=
  place = .cleaning t ∨ ∃ shouldNotify, place = .unlocked (.deinit t) .ok shouldNotify

omit [DecidableEq τ] in
theorem Place.finishesTimer {place : Place τ} {t : τ} (finishes : place.finishes t) : place.timer = some t := by
  rcases finishes with rfl | ⟨_, rfl⟩ <;> rfl

/- A call owes the broker a notify. -/
def Place.owes (place : Place τ) : Prop := ∃ call, place = .unlocked call .ok true

/- No running timer is earlier than the deadline of a wait, or the broker is to be woken. -/
def Watched (s : State τ θ) : Prop :=
  ∀ timeout, s.broker.timeout = some timeout → s.event = true ∨ (∃ i, (s.place i).owes) ∨
    ∀ t ∈ s.timers.ages, ∃ d, timeout.deadlineUs = some d ∧ d ≤ deadline s.timers.manager t

structure Inv (s : State τ θ) : Prop where
  scheduled : ∃ L, Scheduled s.timers.manager L s.timers.ages
  exclusive : ∀ i j t, (s.place i).timer = some t → (s.place j).timer = some t → i = j
  stopped : ∀ i t, (s.place i).finishes t → t ∉ s.timers.ages
  exact : ∀ timeout, s.broker.timeout = some timeout → timeout.Exact
  watched : Watched s

section Movement

variable {s : State τ θ} {i j : θ} {place : Place τ}

omit [DecidableEq τ] in
@[simp] theorem movedSelf : (moved s i place).place i = place := by simp [moved]

omit [DecidableEq τ] in
theorem movedOther (apart : j ≠ i) : (moved s i place).place j = s.place j := by simp [moved, apart]

omit [DecidableEq τ] in
theorem movedExclusive (exclusive : ∀ i j t, (s.place i).timer = some t → (s.place j).timer = some t → i = j)
    (fresh : ∀ t, place.timer = some t → ∀ j, j ≠ i → (s.place j).timer ≠ some t) :
    ∀ j k t, ((moved s i place).place j).timer = some t → ((moved s i place).place k).timer = some t → j = k := by
  intro j k t first second
  by_cases hereJ : j = i
  · subst hereJ
    rw [movedSelf] at first
    by_contra apart
    have apart : k ≠ j := fun same => apart same.symm
    rw [movedOther apart] at second
    exact fresh t first k apart second
  · rw [movedOther hereJ] at first
    by_cases hereK : k = i
    · subst hereK
      rw [movedSelf] at second
      exact absurd first (fresh t second j hereJ)
    · rw [movedOther hereK] at second
      exact exclusive j k t first second

structure Leaves (s : State τ θ) (i : θ) (place : Place τ) (event : Bool) : Prop where
  sooner : ∀ t, place.timer = some t → (s.place i).timer = some t
  finishes : ∀ t, place.finishes t → (s.place i).finishes t
  latches : (s.place i).owes → event = true
  latched : s.event = true → event = true

omit [DecidableEq τ] in
theorem Leaves.exclusive {event : Bool} (leaves : Leaves s i place event)
    (exclusive : ∀ i j t, (s.place i).timer = some t → (s.place j).timer = some t → i = j) :
    ∀ j k t, ((moved s i place).place j).timer = some t → ((moved s i place).place k).timer = some t → j = k :=
  movedExclusive exclusive fun t same j apart other => apart (exclusive j i t other (leaves.sooner t same))

omit [DecidableEq τ] in
theorem Leaves.stopped {event : Bool} (leaves : Leaves s i place event) {S : List τ}
    (stopped : ∀ i t, (s.place i).finishes t → t ∉ S) : ∀ j t, ((moved s i place).place j).finishes t → t ∉ S := by
  intro j t ends
  by_cases here : j = i
  · subst here
    rw [movedSelf] at ends
    exact stopped j t (leaves.finishes t ends)
  · rw [movedOther here] at ends
    exact stopped j t ends

omit [DecidableEq τ] in
theorem Leaves.wakes {event : Bool} (leaves : Leaves s i place event) {Q : Prop}
    (before : s.event = true ∨ (∃ i, (s.place i).owes) ∨ Q) :
    event = true ∨ (∃ j, ((moved s i place).place j).owes) ∨ Q := by
  rcases before with set | ⟨j, owes⟩ | holds
  · exact .inl (leaves.latched set)
  · by_cases here : j = i
    · subst here
      exact .inl (leaves.latches owes)
    · exact .inr (.inl ⟨j, by rw [movedOther here]; exact owes⟩)
  · exact .inr (.inr holds)

theorem notifyLeaves {s' : State τ θ} (taken : step s (.notify i) = some (s', ())) :
    ∃ place event, s' = moved { s with event := event } i place ∧ Leaves s i place event := by
  simp only [step] at taken
  split at taken
  · rename_i call rc shouldNotify unlocked
    have latches : (s.place i).owes → (s.event || (rc = .ok && shouldNotify)) = true := by
      rintro ⟨owed, owes⟩
      rw [unlocked] at owes
      cases owes
      simp
    have latched : s.event = true → (s.event || (rc = .ok && shouldNotify)) = true := fun set => by simp [set]
    have idle : Leaves s i .idle (s.event || (rc = .ok && shouldNotify)) := by
      refine ⟨fun t same => (nomatch same), fun t ends => ?_, latches, latched⟩
      rcases ends with same | ⟨_, same⟩ <;> nomatch same
    cases call with
    | deinit t =>
      by_cases ok : rc = .ok
      · subst ok
        cases taken
        refine ⟨_, _, rfl, fun x same => ?_, fun x ends => ?_, latches, latched⟩
        · cases same
          rw [unlocked]
          rfl
        · rcases ends with same | ⟨_, same⟩
          · cases same
            exact .inr ⟨shouldNotify, unlocked⟩
          · nomatch same
      · simp only [ok, if_false] at taken
        cases taken
        exact ⟨_, _, rfl, by simpa only [ok] using idle⟩
    | start t =>
      cases taken
      exact ⟨_, _, rfl, idle⟩
    | cancel t =>
      cases taken
      exact ⟨_, _, rfl, idle⟩
    | restart t =>
      cases taken
      exact ⟨_, _, rfl, idle⟩
  · contradiction

theorem cleanupLeaves {mutex : Status} {s' : State τ θ} (taken : step s (.cleanup i mutex) = some (s', ())) :
    ∃ t, s.place i = .cleaning t ∧ Leaves s i .idle s.event ∧
      s' = moved { s with timers := { s.timers with manager := (deinitCleanup s.timers.manager t mutex).1 } } i .idle := by
  simp only [step] at taken
  split at taken
  · rename_i t cleaning
    cases taken
    refine ⟨t, cleaning, ⟨fun t same => (nomatch same), fun t ends => ?_, fun owes => ?_, id⟩, rfl⟩
    · rcases ends with same | ⟨_, same⟩ <;> nomatch same
    · obtain ⟨owed, owes⟩ := owes
      rw [cleaning] at owes
      nomatch owes
  · contradiction

omit [DecidableEq τ] in
theorem wakesCalled (idle : s.place i = .idle) {Q Q' : Prop} (weaker : Q → Q')
    (before : s.event = true ∨ (∃ j, (s.place j).owes) ∨ Q) :
    s.event = true ∨ (∃ j, ((moved s i place).place j).owes) ∨ Q' := by
  rcases before with latched | ⟨j, owed, owes⟩ | holds
  · exact .inl latched
  · have here : j ≠ i := fun same => by
      rw [same, idle] at owes
      nomatch owes
    exact .inr (.inl ⟨j, owed, by rw [movedOther here]; exact owes⟩)
  · exact .inr (.inr (weaker holds))

end Movement

theorem InTime.readingAllowed {m : Manager τ} {clock : ClockRead} (inTime : InTime m clock) : ReadingAllowed m clock := by
  obtain ⟨reading, rfl, order, within⟩ := inTime
  exact ⟨fun _ same => Except.ok.inj same ▸ order, fun _ same => Except.ok.inj same ▸ within, fun _ same => by cases same⟩

section Calls

variable {s : State τ θ}

omit [DecidableEq θ] in
theorem lockedServes {L : List τ} (scheduled : Scheduled s.timers.manager L s.timers.ages) {call : Call τ}
    {clock : ClockRead} (allowed : call.links = true → ReadingAllowed s.timers.manager clock) :
    Serves s.timers.manager L s.timers.ages call.timer call.links (locked s.timers call clock) := by
  cases call with
  | start t => exact startServed scheduled t (allowed rfl)
  | cancel t => exact cancelServed scheduled t
  | restart t => exact restartServed scheduled t (allowed rfl)
  | deinit t => exact cancelServed scheduled t

omit [DecidableEq θ] in
theorem laterWatched {L L' ages' : List τ} {m' : Manager τ} {notified : Bool} {deadlineUs : Option Int}
    (scheduled : Scheduled s.timers.manager L s.timers.ages) (served : Served s.timers.manager L m' L' ages' notified)
    (silent : notified = false)
    (before : ∀ t ∈ s.timers.ages, ∃ d, deadlineUs = some d ∧ d ≤ deadline s.timers.manager t) :
    ∀ t ∈ ages', ∃ d, deadlineUs = some d ∧ d ≤ deadline m' t := by
  intro x inside
  obtain ⟨y, memberY, less⟩ := served.noEarlier silent x (served.scheduled.aged.perm.mem_iff.mpr inside)
  obtain ⟨d, same, earlier⟩ := before y (scheduled.aged.perm.mem_iff.mp memberY)
  exact ⟨d, same, earlier.trans less⟩

theorem callKeeps (inv : Inv s) {i : θ} {call : Call τ} {clock : ClockRead}
    (allowed : Allowed InTime s (.call i call clock)) {s' : State τ θ}
    (taken : step s (.call i call clock) = some (s', ())) : Inv s' := by
  obtain ⟨L, scheduled⟩ := inv.scheduled
  obtain ⟨reading, apart⟩ := allowed
  obtain ⟨m', rc, notified, L', ran, served, success⟩ :=
    lockedServes scheduled fun links => (reading links).readingAllowed
  simp only [step, ran] at taken
  split at taken
  · rename_i idle
    cases taken
    have freshFor (j : θ) (t : τ) (finishes : (s.place j).finishes t) : t ≠ call.timer := fun same =>
      apart j (same ▸ Place.finishesTimer finishes)
    refine ⟨⟨L', served.scheduled⟩, ?_, fun j t finishes => ?_, inv.exact, fun timeout waits => ?_⟩
    · refine movedExclusive inv.exclusive fun t same j _ other => ?_
      cases same
      exact apart j other
    · by_cases here : j = i
      · subst here
        rw [movedSelf] at finishes
        rcases finishes with impossible | ⟨shouldNotify, same⟩
        · nomatch impossible
        · cases same
          have stops := (cancelStops scheduled ran).1
          intro inside
          have running := served.scheduled.ordered.toArmed.running (served.scheduled.aged.perm.mem_iff.mpr inside)
          simp [running] at stops
      · rw [movedOther here] at finishes
        change t ∉ agesAfter s.timers.manager m' s.timers.ages call.timer _
        rw [agesAfterOthers _ _ _ (freshFor j t finishes)]
        exact inv.stopped j t finishes
    · cases notifies : notified with
      | true =>
        refine .inr (.inl ⟨i, call, ?_⟩)
        rw [movedSelf, success notifies]
      | false => exact wakesCalled idle (laterWatched scheduled served notifies) (inv.watched timeout waits)
  · contradiction

theorem notifyKeeps (inv : Inv s) {i : θ} {s' : State τ θ} (taken : step s (.notify i) = some (s', ())) : Inv s' := by
  obtain ⟨place, event, rfl, leaves⟩ := notifyLeaves taken
  exact ⟨inv.scheduled, leaves.exclusive inv.exclusive, leaves.stopped inv.stopped, inv.exact,
    fun timeout waits => leaves.wakes (inv.watched timeout waits)⟩

theorem cleanupKeeps (inv : Inv s) {i : θ} {mutex : Status} {s' : State τ θ}
    (taken : step s (.cleanup i mutex) = some (s', ())) : Inv s' := by
  obtain ⟨L, scheduled⟩ := inv.scheduled
  obtain ⟨t, cleaning, leaves, rfl⟩ := cleanupLeaves taken
  have unlisted := inv.stopped i t (.inl cleaning)
  have fresh : t ∉ L := fun member => unlisted (scheduled.aged.perm.mem_iff.mp member)
  have served := cleanupServed scheduled fresh mutex
  refine ⟨⟨L, served.scheduled⟩, leaves.exclusive inv.exclusive, leaves.stopped inv.stopped, inv.exact, fun timeout waits => ?_⟩
  rcases leaves.wakes (inv.watched timeout waits) with set | owed | before
  · exact .inl set
  · exact .inr (.inl owed)
  · exact .inr (.inr (laterWatched scheduled served rfl before))

end Calls

section Broker

variable {s : State τ θ}

theorem eitherNoWait {c : Prop} [Decidable c] {a b : BrokerPc} (first : a.timeout = none) (second : b.timeout = none) :
    (if c then a else b).timeout = none := by
  split
  · exact first
  · exact second

/- What an access of the broker makes of the timers, and where it leaves the broker: on its way to the
wait, inside, or outside of it. -/
inductive BrokerAccess (s : State τ θ) : BrokerStep → State τ θ → Prop where
  | passes {access : BrokerStep} (event : Bool) {broker : BrokerPc} (noWait : broker.timeout = none) :
      BrokerAccess s access { s with event := event, broker := broker }
  | answers (clock : ClockRead) :
      BrokerAccess s (.nextTimeout clock) { s with
        timers := { s.timers with manager := (TimerMgr.nextTimeout s.timers.manager clock).1 }
        broker := .wait ⟨clock, waitDeadline (TimerMgr.nextTimeout s.timers.manager clock).1
          (TimerMgr.nextTimeout s.timers.manager clock).2, passedTimeout (TimerMgr.nextTimeout s.timers.manager clock).2⟩ }
  | enters {timeout : Timeout} (called : s.broker = .wait timeout) :
      BrokerAccess s .wait { s with broker := .waiting timeout }
  | fires {clock : ClockRead} {emit : Nat → Status} {m : Manager τ} {fired : List τ} {rc : Status}
      (ran : TimerMgr.fireExpired s.timers.manager clock emit = some (m, fired, rc)) :
      BrokerAccess s (.fireExpired clock emit) { s with
        timers := ⟨m, fired.foldl (refile s.timers.manager) s.timers.ages⟩
        broker := .recheck }
  | rechecks (clock : ClockRead) {broker : BrokerPc} (noWait : broker.timeout = none) :
      BrokerAccess s (.recheck clock) { s with
        timers := { s.timers with manager := (TimerMgr.nextTimeout s.timers.manager clock).1 }
        broker := broker }

omit [DecidableEq θ] in
theorem brokerAccess {access : BrokerStep} {s' : State τ θ} (taken : brokerStep s access = some s') : BrokerAccess s access s' := by
  cases access with
  | testQuit quitRequested =>
    obtain ⟨-, same⟩ := Option.ite_none_right_eq_some.mp taken
    cases same
    exact .passes s.event (eitherNoWait rfl rfl)
  | nextTimeout clock =>
    obtain ⟨-, same⟩ := Option.ite_none_right_eq_some.mp taken
    cases same
    exact .answers clock
  | wait =>
    simp only [brokerStep] at taken
    split at taken
    · rename_i timeout called
      cases taken
      exact .enters called
    · contradiction
  | waiting ready =>
    simp only [brokerStep] at taken
    split at taken
    · obtain ⟨-, same⟩ := Option.ite_none_left_eq_some.mp taken
      cases same
      exact .passes s.event (eitherNoWait rfl rfl)
    · contradiction
  | drain =>
    obtain ⟨-, same⟩ := Option.ite_none_right_eq_some.mp taken
    cases same
    exact .passes false rfl
  | serve =>
    obtain ⟨-, same⟩ := Option.ite_none_right_eq_some.mp taken
    cases same
    exact .passes s.event rfl
  | fireExpired clock emit =>
    obtain ⟨-, same⟩ := Option.ite_none_right_eq_some.mp taken
    obtain ⟨⟨m, fired, rc⟩, ran, same⟩ := Option.map_eq_some_iff.mp same
    cases same
    exact .fires ran
  | recheck clock =>
    obtain ⟨-, same⟩ := Option.ite_none_right_eq_some.mp taken
    cases same
    exact .rechecks clock (eitherNoWait rfl rfl)

omit [DecidableEq θ] in
theorem brokerMoves (inv : Inv s) {L : List τ} {m : Manager τ} {ages : List τ} (scheduled : Scheduled m L ages)
    (fewer : ages ⊆ s.timers.ages) (event : Bool) {broker : BrokerPc} (noWait : broker.timeout = none) :
    Inv { s with timers := ⟨m, ages⟩, event := event, broker := broker } := by
  refine ⟨⟨L, scheduled⟩, inv.exclusive, fun i t ends inside => inv.stopped i t ends (fewer inside), fun timeout waits => ?_,
    fun timeout waits => ?_⟩
  all_goals
    rw [noWait] at waits
    contradiction

omit [DecidableEq θ] in
theorem brokerEnters (inv : Inv s) {timeout : Timeout} (called : s.broker = .wait timeout) :
    Inv { s with broker := .waiting timeout } := by
  have passed : s.broker.timeout = some timeout := by rw [called]; rfl
  refine ⟨inv.scheduled, inv.exclusive, inv.stopped, fun other waits => ?_, fun other waits => ?_⟩
  · obtain rfl := Option.some.inj waits
    exact inv.exact timeout passed
  · obtain rfl := Option.some.inj waits
    exact inv.watched timeout passed

omit [DecidableEq θ] in
theorem timeoutWatches (inv : Inv s) {clock : ClockRead} (inTime : InTime s.timers.manager clock) :
    Inv { s with
      timers := { s.timers with manager := (TimerMgr.nextTimeout s.timers.manager clock).1 }
      broker := .wait ⟨clock, waitDeadline (TimerMgr.nextTimeout s.timers.manager clock).1
        (TimerMgr.nextTimeout s.timers.manager clock).2, passedTimeout (TimerMgr.nextTimeout s.timers.manager clock).2⟩ } := by
  obtain ⟨L, scheduled⟩ := inv.scheduled
  have served := nextTimeoutServed scheduled inTime.readingAllowed
  obtain ⟨reading, rfl, -, -⟩ := inTime
  have answer := nextTimeoutAnswer scheduled.ordered.toArmed reading
  have leftmost := served.scheduled.ordered.valid.leftmost
  have sorted := served.scheduled.ordered.sorted
  refine ⟨⟨L, served.scheduled⟩, inv.exclusive, inv.stopped, fun timeout waits => ?_,
    fun timeout waits => .inr (.inr fun t inside => ?_)⟩
  · obtain rfl := Option.some.inj waits
    refine ⟨reading, rfl, ?_⟩
    cases L with
    | nil => simp [waitDeadline, passedTimeout, answer]
    | cons first rest =>
      have due : deadline (TimerMgr.nextTimeout s.timers.manager (.ok reading)).1 first - reading =
          remainingUs (s.timers.manager.timers first).expireUs (reading % uint64Modulus) := by
        rw [nextTimeoutManager]
        simp [deadline, remaining, refreshNow]
      simp only [waitDeadline, passedTimeout, answer, leftmost, List.head?_cons, Option.map_some, due, Option.getD_some]
  · have member := served.scheduled.aged.perm.mem_iff.mpr inside
    cases L with
    | nil => contradiction
    | cons first rest =>
      have due : timeout.deadlineUs = some (deadline (TimerMgr.nextTimeout s.timers.manager (.ok reading)).1 first) := by
        obtain rfl := Option.some.inj waits
        rw [waitDeadline, answer, leftmost]
        rfl
      refine ⟨_, due, ?_⟩
      rcases List.mem_cons.mp member with rfl | later
      · exact le_refl _
      · exact Int.add_le_add_left ((List.pairwise_cons.mp sorted).1 t later) _

omit [DecidableEq θ] in
theorem brokerKeeps (inv : Inv s) {access : BrokerStep} {s' : State τ θ}
    (allowed : Allowed InTime s (.broker access : Action τ θ)) (taken : brokerStep s access = some s') : Inv s' := by
  obtain ⟨L, scheduled⟩ := inv.scheduled
  cases brokerAccess taken with
  | passes event noWait => exact brokerMoves inv scheduled (List.Subset.refl _) event noWait
  | answers clock => exact timeoutWatches inv allowed
  | enters called => exact brokerEnters inv called
  | @fires clock emit m fired rc ran =>
    have readable : ReadingAllowed s.timers.manager clock := InTime.readingAllowed allowed
    obtain ⟨m', fired', rc', L', ran', scheduled', -, fewer⟩ := fireServed scheduled readable emit
    cases ran.symm.trans ran'
    refine brokerMoves inv scheduled' (fun t inside => ?_) s.event rfl
    exact scheduled.aged.perm.mem_iff.mp (fewer (scheduled'.aged.perm.mem_iff.mpr inside))
  | rechecks clock noWait =>
    have readable : ReadingAllowed s.timers.manager clock := InTime.readingAllowed allowed
    exact brokerMoves inv (nextTimeoutServed scheduled readable).scheduled (List.Subset.refl _) s.event noWait

end Broker

theorem stepKeeps {s s' : State τ θ} {a : Action τ θ} (inv : Inv s) (allowed : Allowed InTime s a)
    (taken : step s a = some (s', ())) : Inv s' := by
  cases a with
  | call i call clock => exact callKeeps inv allowed taken
  | notify i => exact notifyKeeps inv taken
  | cleanup i mutex => exact cleanupKeeps inv taken
  | broker access =>
    obtain ⟨s1, moves, same⟩ := Option.map_eq_some_iff.mp taken
    cases same
    exact brokerKeeps inv allowed moves

omit [DecidableEq θ] in
theorem startsInv {s : State τ θ} (starts : Starts s) : Inv s := by
  obtain ⟨root, leftmost, linked, now, clock, ages, stopped, -, broker, idle⟩ := starts
  have valid : Rbtree.Valid s.timers.manager.tree [] := Rbtree.initValid.congr root leftmost linked (by simp)
  refine ⟨⟨[], ⟨⟨valid, by rw [now]; decide, by simp⟩, by rw [now, clock]; rfl, .nil, by simp, by simp,
    fun t created _ => stopped t created⟩, ⟨by rw [ages], .nil⟩⟩, fun i j t same => ?_, fun i t ends => ?_,
    fun timeout waits => ?_, fun timeout waits => ?_⟩
  · rw [idle i] at same
    nomatch same
  · rw [idle i] at ends
    rcases ends with same | ⟨_, same⟩ <;> nomatch same
  all_goals
    rw [broker] at waits
    contradiction

theorem noMissedDeadline {s : State τ θ} (reach : Reachable Starts step (Allowed InTime) s) : NoMissedDeadline s := by
  have inv : Inv s := reach.invariant (fun s starts => startsInv starts)
    fun s a s' _ inv allowed taken => stepKeeps inv allowed taken
  refine fun timeout waits => ⟨inv.exact timeout waits, fun quiet between t running => ?_⟩
  obtain ⟨L, scheduled⟩ := inv.scheduled
  have member : t ∈ s.timers.ages :=
    scheduled.aged.perm.mem_iff.mp ((scheduled.ordered.runningIff running.1).mp running.2)
  rcases inv.watched timeout waits with set | ⟨i, call, owes⟩ | before
  · rw [quiet] at set
    nomatch set
  · exact absurd owes (between i call .ok true)
  · exact before t member

section Runs

instance (m : Manager τ) (clock : ClockRead) : Decidable (Forward m clock) :=
  match clock with
  | .ok reading => decidable_of_iff (m.clock ≤ reading) (by simp [Forward])
  | .error _ => isFalse (by simp [Forward])

instance [Fintype τ] (m : Manager τ) (clock : ClockRead) : Decidable (InTime m clock) :=
  match clock with
  | .ok reading =>
      decidable_of_iff (m.clock ≤ reading ∧ ∀ t, Running m t → (reading : Int) < deadline m t + 2 ^ 63) (by simp [InTime])
  | .error _ => isFalse (by simp [InTime])

instance [Fintype θ] (Good : Manager τ → ClockRead → Prop) [∀ m clock, Decidable (Good m clock)] (s : State τ θ)
    (a : Action τ θ) : Decidable (Allowed Good s a) :=
  match a with
  | .call _ call clock =>
      inferInstanceAs (Decidable ((call.links = true → Good s.timers.manager clock) ∧
        ∀ thread, (s.place thread).timer ≠ some call.timer))
  | .broker (.nextTimeout clock) => inferInstanceAs (Decidable (Good s.timers.manager clock))
  | .broker (.fireExpired clock _) => inferInstanceAs (Decidable (Good s.timers.manager clock))
  | .broker (.recheck clock) => inferInstanceAs (Decidable (Good s.timers.manager clock))
  | .notify _ | .cleanup _ _ | .broker (.testQuit _) | .broker .wait | .broker (.waiting _) | .broker .drain
  | .broker .serve => isTrue trivial

/- Three created timers with intervals 1, 5 and 1, and one user thread. -/
def threeTimers : State (Fin 3) Unit where
  timers :=
    { manager :=
        { timers := fun t => ⟨true, 0, if t = 1 then 5 else 1, 0, 0⟩
          tree := Rbtree.init
          now := 0
          clock := 0 }
      ages := [] }
  event := false
  broker := .testQuit
  place := fun _ => .idle

def firstTimer : Fin 3 := 0

theorem threeTimersStart : Starts threeTimers :=
  ⟨rfl, rfl, rfl, rfl, rfl, rfl, fun t _ => by simp [threeTimers, Rbtree.nodeIsEmpty, Rbtree.init], rfl, rfl, fun _ => rfl⟩

def started (t : Fin 3) (reading : Nat) : List (Action (Fin 3) Unit) := [.call () (.start t) (.ok reading), .notify ()]

def turn (reading : Nat) : List (Action (Fin 3) Unit) :=
  [.broker (.testQuit false), .broker (.nextTimeout (.ok reading)), .broker .wait, .broker (.waiting true), .broker .drain,
    .broker .serve, .broker (.fireExpired (.ok reading) fun _ => .ok), .broker (.recheck (.ok reading)),
    .broker (.testQuit false), .broker (.nextTimeout (.ok reading)), .broker .wait]

/- Timers 0 and 1 are started at 0 and the broker waits for the first of them. -/
theorem twoWatched : ∃ s : State (Fin 3) Unit, s.broker = .waiting ⟨.ok 0, some 1, 1⟩ ∧ s.event = false ∧
    (Timeout.mk (.ok 0) (some 1) 1).Exact ∧ ∃ d, (some 1 : Option Int) = some d ∧ d ≤ deadline s.timers.manager 1 := by
  have runs : ∃ s, executeAllowed step (Allowed InTime) threeTimers (started 0 0 ++ started 1 0 ++ turn 0) = some s ∧
      s.broker = .waiting ⟨.ok 0, some 1, 1⟩ ∧ s.event = false ∧ s.place () = .idle ∧ Running s.timers.manager 1 :=
    anyResult (by decide +kernel)
  obtain ⟨s, ran, waits, quiet, idle, running⟩ := runs
  obtain ⟨exact_, watched⟩ := noMissedDeadline (executeAllowedReachable (.start threeTimersStart) ran) _ (by rw [waits]; rfl)
  refine ⟨s, waits, quiet, exact_, watched quiet (fun thread call rc shouldNotify unlocked => ?_) 1 running⟩
  rw [show thread = () from rfl, idle] at unlocked
  cases unlocked

/- Timers 0 and 1 are due at 1 and 5. When timer 2 is started at `2^63 + 3`, timer 0 seems to be
far ahead and hides timer 1: the broker waits for timer 2, and timer 1 is overdue. -/
theorem clockJumpMissesDeadline :
    ¬ ∀ s : State (Fin 3) Unit, Reachable Starts step (Allowed Forward) s → NoMissedDeadline s := by
  intro claim
  have runs : ∃ s, executeAllowed step (Allowed Forward) threeTimers
      (started 0 0 ++ started 1 0 ++ started 2 (2 ^ 63 + 3) ++ turn (2 ^ 63 + 3)) = some s ∧
      s.broker = .waiting ⟨.ok (2 ^ 63 + 3), some (2 ^ 63 + 4), 1⟩ ∧ s.event = false ∧ s.place () = .idle ∧
      Running s.timers.manager 1 ∧ deadline s.timers.manager 1 = 5 := anyResult (by decide +kernel)
  obtain ⟨s, ran, waits, quiet, idle, running, early⟩ := runs
  obtain ⟨-, watched⟩ := claim s (executeAllowedReachable (.start threeTimersStart) ran) _ (by rw [waits]; rfl)
  obtain ⟨d, same, order⟩ := watched quiet (fun thread call rc shouldNotify unlocked => by
    rw [show thread = () from rfl, idle] at unlocked
    cases unlocked) 1 running
  cases same
  rw [early] at order
  omega

end Runs

end Nanosig.TimerMgr.Threads
