import Nanosig.Platform.Timeouts
import Nanosig.TimerMgr.NoMissedDeadline

/-! Whether the broker can sleep without bound while a timer runs. Clock reads fail or
answer any value; what decides is the one that the timeout of a wait is computed from, and
whether a first timer is armed between that read and the wait. -/
namespace Nanosig.TimerMgr.Threads
open TransitionSystem

variable {τ θ : Type} [DecidableEq τ] [DecidableEq θ]

def Answers (_ : Manager τ) (clock : ClockRead) : Prop := ∀ rc, clock = .error rc → rc ≠ .ok

/- Any reads, of which the one at the head of the broker's loop succeeds. -/
def HeadReads (s : State τ θ) (a : Action τ θ) : Prop :=
  Allowed Answers s a ∧
    match a with
    | .broker (.nextTimeout (.error _)) => False
    | _ => True

def Arms (s : State τ θ) (call : Call τ) (clock : ClockRead) : Prop :=
  call.links = true ∧ (locked s.timers call clock).map (fun answer => answer.2.1) = some .ok

/- Beside that, while the broker is between `ns_timer_mgr_next_timeout` and the call of
`ns_platform_waitset_wait` no thread arms a timer where none runs. -/
def Undisturbed (s : State τ θ) (a : Action τ θ) : Prop :=
  HeadReads s a ∧
    match a with
    | .call _ call clock => ∀ timeout, s.broker = .wait timeout → Arms s call clock → ∃ t, Running s.timers.manager t
    | _ => True

structure Settled (L : List τ) (t : τ) (links : Bool) (m' : Manager τ) (rc : Status) (notified : Bool) (L' : List τ) : Prop where
  linked : Linked m' L'
  others : ∀ x, x ≠ t → (x ∈ L' ↔ x ∈ L)
  success : notified = true → rc = .ok
  first : L = [] → notified = false → L' = []
  armed : L = [] → (links = true → rc ≠ .ok) → L' = []

section Calls

variable {m : Manager τ} {L : List τ}

theorem Settled.unchanged (linked : Linked m L) (t : τ) (links : Bool) (rc : Status) : Settled L t links m rc false L :=
  ⟨linked, fun _ _ => Iff.rfl, nofun, fun empty _ => empty, fun empty _ => empty⟩

theorem linkSettles {t : τ} (clock : ClockRead) (linked : Linked m L) (fresh : t ∉ L)
    (valid : validateUserInput (m.timers t) = .ok) :
    ∃ m' rc notified L', (match refreshNow m clock with
      | (m, .ok) => (arm m t (expireFromNow m t)).map fun (m, shouldNotify) => (m, Status.ok, shouldNotify)
      | (m, rc) => some (m, rc, false)) = some (m', rc, notified) ∧ Settled L t true m' rc notified L' := by
  obtain ⟨created, interval⟩ := validInput valid
  have refreshed := linked.refresh clock
  have timers : (refreshNow m clock).1.timers = m.timers := by cases clock <;> rfl
  generalize read : refreshNow m clock = outcome at refreshed timers
  obtain ⟨m1, rc⟩ := outcome
  by_cases ok : rc = .ok
  · subst ok
    obtain ⟨m', earlier, later, armed, arms⟩ := armSpec (expireFromNow m1 t) refreshed.toArmed fresh (by rw [timers]; exact interval)
    refine ⟨m', .ok, decide (earlier = []), earlier ++ t :: later, by simp [armed],
      refreshed.arms arms fresh (by rw [timers]; exact created), fun x apart => ?_, fun _ => rfl, fun empty silent => ?_,
      fun _ refused => absurd rfl (refused rfl)⟩
    · rw [arms.split]
      simp [apart]
    · have none_ := arms.split
      rw [empty] at none_
      obtain ⟨rfl, -⟩ := List.append_eq_nil_iff.mp none_.symm
      contradiction
  · refine ⟨m1, rc, false, L, ?_, Settled.unchanged refreshed t true rc⟩
    cases rc
    case ok => exact absurd rfl ok
    all_goals rfl

theorem startSettles (linked : Linked m L) (t : τ) (clock : ClockRead) :
    ∃ m' rc notified L', start m t clock = some (m', rc, notified) ∧ Settled L t true m' rc notified L' := by
  unfold start
  split
  · exact ⟨_, _, _, L, rfl, .unchanged linked t _ _⟩
  · rename_i valid
    unfold startLocked
    split
    · exact ⟨_, _, _, L, rfl, .unchanged linked t _ _⟩
    · rename_i stopped
      exact linkSettles clock linked (fun member => stopped (linked.toArmed.running member)) (not_not.mp valid)

theorem disarmSettles (linked : Linked m L) {t : τ} {m' : Manager τ} (disarms : Disarms m L t m') (rc : Status) (notified : Bool)
    (links : Bool) (success : notified = true → rc = .ok) : Settled L t links m' rc notified (L.erase t) :=
  ⟨linked.disarms disarms, fun _ apart => List.mem_erase_of_ne apart, success, fun empty _ => by rw [empty]; rfl,
    fun empty _ => by rw [empty]; rfl⟩

theorem cancelSettles (linked : Linked m L) (t : τ) :
    ∃ m' rc notified L', cancel m t = some (m', rc, notified) ∧ Settled L t false m' rc notified L' ∧ (rc = .ok → t ∉ L') := by
  unfold cancel
  split
  · rename_i invalid
    exact ⟨_, _, _, L, rfl, .unchanged linked t _ _, fun ok => absurd ok invalid⟩
  · rename_i valid
    unfold cancelLocked
    split
    · rename_i stopped
      exact ⟨_, _, _, L, rfl, .unchanged linked t _ _, fun _ member => stopped (linked.toArmed.running member)⟩
    · rename_i running
      have member : t ∈ L := (linked.runningIff (validCreated (not_not.mp valid))).mp (not_not.mp running)
      obtain ⟨m', disarmed, disarms⟩ := disarmSpec linked.toArmed member
      exact ⟨m', .ok, _, L.erase t, by rw [disarmed]; rfl, disarmSettles linked disarms .ok _ _ fun _ => rfl,
        fun _ inside => (linked.valid.nodup.mem_erase_iff.mp inside).1 rfl⟩

theorem restartSettles (linked : Linked m L) (t : τ) (clock : ClockRead) :
    ∃ m' rc notified L', restart m t clock = some (m', rc, notified) ∧ Settled L t true m' rc notified L' := by
  unfold restart
  split
  · exact ⟨_, _, _, L, rfl, .unchanged linked t _ _⟩
  · rename_i valid
    have valid := not_not.mp valid
    unfold restartLocked
    by_cases running : isRunning m t = true
    · obtain ⟨m1, disarmed, disarms⟩ := disarmSpec linked.toArmed ((linked.runningIff (validInput valid).1).mp running)
      obtain ⟨m', rc, notified, L', linkedAgain, settled⟩ := linkSettles clock (linked.disarms disarms)
        (fun inside => (linked.valid.nodup.mem_erase_iff.mp inside).1 rfl) (by rw [disarms.timers]; exact valid)
      refine ⟨m', rc, notified, L', ?_, settled.linked, fun x apart => ?_, settled.success,
        fun empty => settled.first (by rw [empty]; rfl), fun empty => settled.armed (by rw [empty]; rfl)⟩
      · rw [if_pos running, disarmed]
        exact linkedAgain
      · rw [settled.others x apart, List.mem_erase_of_ne apart]
    · rw [if_neg running]
      exact linkSettles clock linked (fun member => running (linked.toArmed.running member)) valid

omit [DecidableEq θ] in
theorem lockedSettles {s : State τ θ} (linked : Linked s.timers.manager L) (call : Call τ) (clock : ClockRead) :
    ∃ m' rc notified L', locked s.timers call clock = some (m', rc, notified) ∧ Settled L call.timer call.links m' rc notified L' ∧
      (∀ t, call = .deinit t → rc = .ok → t ∉ L') := by
  cases call with
  | start t =>
    obtain ⟨m', rc, notified, L', ran, settled⟩ := startSettles linked t clock
    exact ⟨m', rc, notified, L', ran, settled, nofun⟩
  | restart t =>
    obtain ⟨m', rc, notified, L', ran, settled⟩ := restartSettles linked t clock
    exact ⟨m', rc, notified, L', ran, settled, nofun⟩
  | cancel t =>
    obtain ⟨m', rc, notified, L', ran, settled, -⟩ := cancelSettles linked t
    exact ⟨m', rc, notified, L', ran, settled, nofun⟩
  | deinit t =>
    obtain ⟨m', rc, notified, L', ran, settled, stops⟩ := cancelSettles linked t
    refine ⟨m', rc, notified, L', ran, settled, fun x same => ?_⟩
    cases same
    exact stops

theorem runSettles {m' : Manager τ} {L' fired : List τ} (linked : Linked m L) (run : FireRun m L fired m' L') :
    Linked m' L' ∧ L' ⊆ L := by
  induction run with
  | done nothing => exact ⟨linked, List.Subset.refl _⟩
  | round first rest ih =>
    obtain ⟨linked1, fewer1⟩ := linked.fireRound first
    obtain ⟨linked', fewer'⟩ := ih linked1
    exact ⟨linked', List.Subset.trans fewer' fewer1⟩

theorem fireSettles (linked : Linked m L) {clock : ClockRead} (answers : Answers m clock) {emit : Nat → Status} {m' : Manager τ}
    {fired : List τ} {rc : Status} (ran : fireExpired m clock emit = some (m', fired, rc)) : ∃ L', Linked m' L' ∧ L' ⊆ L := by
  cases clock with
  | ok reading =>
    obtain ⟨m1, L', fired1, same, run⟩ := fireExpiredSpec linked.toArmed reading emit
    rw [same] at ran
    cases ran
    exact ⟨L', runSettles (linked.refresh (.ok reading)) run⟩
  | error code =>
    have fails := answers code rfl
    cases code
    case ok => exact absurd rfl fails
    all_goals
      cases ran
      exact ⟨L, linked, List.Subset.refl _⟩

end Calls

section Timeouts

variable {m : Manager τ} {L : List τ}

theorem nextTimeoutLinked (linked : Linked m L) (clock : ClockRead) : Linked (TimerMgr.nextTimeout m clock).1 L := by
  rw [nextTimeoutManager]
  exact linked.refresh clock

theorem noneRuns (linked : Linked m L) : (∀ t, ¬Running m t) ↔ L = [] := by
  constructor
  · intro stopped
    cases L with
    | nil => rfl
    | cons first rest =>
      have member : first ∈ first :: rest := List.mem_cons_self
      exact absurd ⟨linked.created first member, linked.toArmed.running member⟩ (stopped first)
  · rintro rfl t ⟨created, running⟩
    have inside := (linked.runningIff created).mp running
    contradiction

omit [DecidableEq τ] in
/- An answered timeout is no longer than `INT64_MAX`. -/
theorem answerFinite {clock : ClockRead} {us : Nat} (answered : (TimerMgr.nextTimeout m clock).2.2 = some us) :
    us ≠ Platform.waitInfiniteUs := by
  unfold TimerMgr.nextTimeout at answered
  generalize refreshNow m clock = outcome at answered
  obtain ⟨m', rc⟩ := outcome
  have bound : us < 2 ^ 63 := by
    cases rc
    case ok =>
      dsimp only at answered
      split at answered
      · contradiction
      · rename_i timer _
        cases answered
        have range := remainingRange (m'.timers timer).expireUs m'.now
        unfold remaining
        split <;> omega
    all_goals contradiction
  have infinite : Platform.waitInfiniteUs = 18446744073709551615 := by decide
  omega

omit [DecidableEq τ] in
theorem passedInfinite (armed : Armed m L) (reading : Nat) :
    passedTimeout (TimerMgr.nextTimeout m (.ok reading)).2 = Platform.waitInfiniteUs ↔ L = [] := by
  have missing : (TimerMgr.nextTimeout m (.ok reading)).2.2 = none ↔ L = [] := by
    rw [nextTimeoutAnswer armed reading]
    cases L <;> simp
  rw [← missing, passedTimeout]
  cases answer : (TimerMgr.nextTimeout m (.ok reading)).2.2 with
  | none => simp
  | some us => simp [answerFinite answer]

end Timeouts

structure Sleep (s : State τ θ) (L : List τ) : Prop where
  linked : Linked s.timers.manager L
  exclusive : ∀ i j t, (s.place i).timer = some t → (s.place j).timer = some t → i = j
  stopped : ∀ i t, (s.place i).finishes t → t ∉ L
  woken : ∀ timeout, s.broker.timeout = some timeout → timeout.timeoutUs = Platform.waitInfiniteUs →
    s.event = true ∨ (∃ i, (s.place i).owes) ∨ L = []

section Steps

variable {s s' : State τ θ} {L : List τ}

theorem sleepCall (sleep : Sleep s L) {i : θ} {call : Call τ} {clock : ClockRead} (apart : ∀ j, (s.place j).timer ≠ some call.timer)
    (taken : step s (.call i call clock) = some (s', ())) : ∃ L', Sleep s' L' := by
  obtain ⟨m', rc, notified, L', ran, settled, stops⟩ := lockedSettles sleep.linked call clock
  simp only [step, ran] at taken
  split at taken
  · rename_i idle
    cases taken
    refine ⟨L', settled.linked, ?_, fun j t finishes => ?_, fun timeout waits infinite => ?_⟩
    · refine movedExclusive sleep.exclusive fun t same j _ other => ?_
      cases same
      exact apart j other
    · by_cases here : j = i
      · subst here
        rw [movedSelf] at finishes
        rcases finishes with impossible | ⟨shouldNotify, same⟩
        · cases impossible
        · cases same
          exact stops t rfl rfl
      · rw [movedOther here] at finishes
        have other : t ≠ call.timer := fun same => apart j (same ▸ Place.finishesTimer finishes)
        rw [settled.others t other]
        exact sleep.stopped j t finishes
    · cases notifies : notified with
      | true =>
        refine .inr (.inl ⟨i, call, ?_⟩)
        rw [movedSelf, settled.success notifies]
      | false => exact wakesCalled idle (fun none_ => settled.first none_ notifies) (sleep.woken timeout waits infinite)
  · contradiction

theorem sleepNotify (sleep : Sleep s L) {i : θ} (taken : step s (.notify i) = some (s', ())) : Sleep s' L := by
  obtain ⟨place, event, rfl, leaves⟩ := notifyLeaves taken
  exact ⟨sleep.linked, leaves.exclusive sleep.exclusive, leaves.stopped sleep.stopped,
    fun timeout waits infinite => leaves.wakes (sleep.woken timeout waits infinite)⟩

theorem sleepCleanup (sleep : Sleep s L) {i : θ} {mutex : Status} (taken : step s (.cleanup i mutex) = some (s', ())) :
    Sleep s' L := by
  obtain ⟨t, cleaning, leaves, rfl⟩ := cleanupLeaves taken
  have cleaned : Linked (deinitCleanup s.timers.manager t mutex).1 L :=
    sleep.linked.setting (sleep.stopped i t (.inl cleaning)) { s.timers.manager.timers t with mutexInitialized := false, expireUs := 0 }
      { s.timers.manager.tree with toHeap := Rbtree.nodeInit s.timers.manager.tree.toHeap t } rfl rfl rfl
      (fun _ away => (Rbtree.nodeInitSame away).mpr (.refl _ _)) (fun _ => Rbtree.nodeInitEmpty _ _)
  exact ⟨cleaned, leaves.exclusive sleep.exclusive, leaves.stopped sleep.stopped,
    fun timeout waits infinite => leaves.wakes (sleep.woken timeout waits infinite)⟩

omit [DecidableEq θ] in
theorem sleepMoves (sleep : Sleep s L) {m : Manager τ} {L' ages : List τ} (linked : Linked m L') (fewer : L' ⊆ L) (event : Bool)
    {broker : BrokerPc} (noWait : broker.timeout = none) :
    Sleep { s with timers := ⟨m, ages⟩, event := event, broker := broker } L' := by
  refine ⟨linked, sleep.exclusive, fun i t ends inside => sleep.stopped i t ends (fewer inside), fun timeout waits => ?_⟩
  rw [noWait] at waits
  contradiction

omit [DecidableEq θ] in
theorem sleepBroker (sleep : Sleep s L) {access : BrokerStep} (allowed : HeadReads s (.broker access : Action τ θ))
    (taken : brokerStep s access = some s') : ∃ L', Sleep s' L' := by
  cases brokerAccess taken with
  | passes event noWait => exact ⟨L, sleepMoves sleep sleep.linked (List.Subset.refl _) event noWait⟩
  | answers clock =>
    obtain ⟨answers, succeeds⟩ := allowed
    refine ⟨L, nextTimeoutLinked sleep.linked clock, sleep.exclusive, sleep.stopped, fun timeout waits infinite => .inr (.inr ?_)⟩
    cases clock with
    | error code => exact succeeds.elim
    | ok reading =>
      obtain rfl := Option.some.inj waits
      exact (passedInfinite sleep.linked.toArmed reading).mp infinite
  | enters called =>
    exact ⟨L, sleep.linked, sleep.exclusive, sleep.stopped, fun other waits =>
      sleep.woken other (by rw [called]; exact waits)⟩
  | fires ran =>
    obtain ⟨L', linked, fewer⟩ := fireSettles sleep.linked allowed.1 ran
    exact ⟨L', sleepMoves sleep linked fewer s.event rfl⟩
  | rechecks clock noWait =>
    exact ⟨L, sleepMoves sleep (nextTimeoutLinked sleep.linked _) (List.Subset.refl _) s.event noWait⟩

theorem sleepStep (sleep : Sleep s L) {a : Action τ θ} (allowed : HeadReads s a) (taken : step s a = some (s', ())) :
    ∃ L', Sleep s' L' := by
  cases a with
  | call i call clock => exact sleepCall sleep allowed.1.2 taken
  | notify i => exact ⟨L, sleepNotify sleep taken⟩
  | cleanup i mutex => exact ⟨L, sleepCleanup sleep taken⟩
  | broker access =>
    obtain ⟨s1, moves, same⟩ := Option.map_eq_some_iff.mp taken
    cases same
    exact sleepBroker sleep allowed moves

theorem reachableSleep (reach : Reachable Starts step HeadReads s) : ∃ L, Sleep s L :=
  reach.invariant (I := fun s => ∃ L, Sleep s L)
    (fun first starts => by
      have inv := startsInv starts
      obtain ⟨L, scheduled⟩ := inv.scheduled
      refine ⟨L, scheduled.ordered.linked, inv.exclusive, fun i t ends inside => ?_, fun timeout waits => ?_⟩
      · exact inv.stopped i t ends (scheduled.aged.perm.mem_iff.mp inside)
      · obtain ⟨-, -, -, -, -, -, -, -, broker, -⟩ := starts
        rw [broker] at waits
        contradiction)
    fun _ _ _ _ kept allowed taken => by
      obtain ⟨L, sleep⟩ := kept
      exact sleepStep sleep allowed taken

end Steps

/- At the call of `ns_platform_waitset_wait` with a timer running the timeout is not infinite. -/
def CallsBounded (s : State τ θ) : Prop :=
  ∀ timeout, s.broker = .wait timeout → (∃ t, Running s.timers.manager t) → timeout.timeoutUs ≠ Platform.waitInfiniteUs

section Calls

variable {s s' : State τ θ} {L : List τ}

/- A thread arms nothing where no timer runs, so the infinite timeout that is on its way stays right. -/
theorem callBounded (sleep : Sleep s L) (bounded : CallsBounded s) {i : θ} {call : Call τ} {clock : ClockRead}
    (disturbs : ∀ timeout, s.broker = .wait timeout → Arms s call clock → ∃ t, Running s.timers.manager t)
    (taken : step s (.call i call clock) = some (s', ())) : CallsBounded s' := by
  obtain ⟨m', rc, notified, L', ran, settled, -⟩ := lockedSettles sleep.linked call clock
  simp only [step, ran] at taken
  split at taken
  · cases taken
    intro timeout called runs infinite
    have stopped : ∀ t, ¬Running s.timers.manager t := fun t running => bounded timeout called ⟨t, running⟩ infinite
    have refused : call.links = true → rc ≠ .ok := fun links ok => by
      obtain ⟨t, running⟩ := disturbs timeout called ⟨links, by rw [ran, ok]; rfl⟩
      exact stopped t running
    have none_ : L' = [] := settled.armed ((noneRuns sleep.linked).mp stopped) refused
    obtain ⟨t, running⟩ := runs
    exact (noneRuns settled.linked).mpr none_ t running
  · contradiction

omit [DecidableEq θ] in
theorem CallsBounded.elsewhere (noWait : s.broker.timeout = none) : CallsBounded s := by
  intro timeout called
  rw [called] at noWait
  contradiction

omit [DecidableEq θ] in
theorem brokerBounded (sleep : Sleep s L) {access : BrokerStep} (allowed : HeadReads s (.broker access : Action τ θ))
    (taken : brokerStep s access = some s') : CallsBounded s' := by
  cases brokerAccess taken with
  | passes event noWait => exact .elsewhere noWait
  | answers clock =>
    cases clock with
    | error code => exact allowed.2.elim
    | ok reading =>
      intro timeout called runs infinite
      obtain rfl := BrokerPc.wait.inj called
      have stopped := (noneRuns (nextTimeoutLinked sleep.linked (.ok reading))).mpr
        ((passedInfinite sleep.linked.toArmed reading).mp infinite)
      obtain ⟨t, running⟩ := runs
      exact stopped t running
  | enters =>
    intro timeout called
    contradiction
  | fires => exact .elsewhere rfl
  | rechecks clock noWait => exact .elsewhere noWait

theorem boundedStep (sleep : Sleep s L) (bounded : CallsBounded s) {a : Action τ θ} (allowed : Undisturbed s a)
    (taken : step s a = some (s', ())) : CallsBounded s' := by
  cases a with
  | call i call clock => exact callBounded sleep bounded allowed.2 taken
  | notify i =>
    obtain ⟨place, event, rfl, -⟩ := notifyLeaves taken
    exact bounded
  | cleanup i mutex =>
    intro timeout called runs infinite
    have after := sleepCleanup sleep taken
    obtain ⟨t, -, -, rfl⟩ := cleanupLeaves taken
    have none_ : L = [] := (noneRuns sleep.linked).mp fun t running => bounded timeout called ⟨t, running⟩ infinite
    obtain ⟨t, running⟩ := runs
    exact (noneRuns after.linked).mpr none_ t running
  | broker access =>
    obtain ⟨s1, moves, same⟩ := Option.map_eq_some_iff.mp taken
    cases same
    exact brokerBounded sleep allowed.1 moves

theorem callsBounded (reach : Reachable Starts step Undisturbed s) : CallsBounded s := by
  have both : (∃ L, Sleep s L) ∧ CallsBounded s :=
    reach.invariant (I := fun s => (∃ L, Sleep s L) ∧ CallsBounded s)
      (fun first starts => by
        refine ⟨reachableSleep (.start starts), fun timeout called => ?_⟩
        obtain ⟨-, -, -, -, -, -, -, -, broker, -⟩ := starts
        rw [broker] at called
        contradiction)
      fun _ _ _ _ kept allowed taken => by
        obtain ⟨⟨L, sleep⟩, bounded⟩ := kept
        exact ⟨sleepStep sleep allowed.1 taken, boundedStep sleep bounded allowed taken⟩
  exact both.2

end Calls

/- The timeout of a wait is infinite exactly when its clock read failed or no timer runs,
and a timer that runs while the broker waits without a timeout has woken it, or is about to. -/
structure BoundedSleep (s : State τ θ) : Prop where
  passed : ∀ clock, s.broker = .nextTimeout → Answers s.timers.manager clock →
    (passedTimeout (TimerMgr.nextTimeout s.timers.manager clock).2 = Platform.waitInfiniteUs ↔
      (∃ rc, clock = .error rc) ∨ ∀ t, ¬Running s.timers.manager t)
  inside : ∀ timeout, s.broker.timeout = some timeout → timeout.timeoutUs = Platform.waitInfiniteUs →
    (∃ t, Running s.timers.manager t) → s.event = true ∨ ∃ i, (s.place i).owes

theorem headReadsSleep {s : State τ θ} (reach : Reachable Starts step HeadReads s) : BoundedSleep s := by
  obtain ⟨L, sleep⟩ := reachableSleep reach
  constructor
  · intro clock _ answers
    rw [noneRuns sleep.linked]
    cases clock with
    | error rc =>
      have fails := answers rc rfl
      refine ⟨fun _ => .inl ⟨rc, rfl⟩, fun _ => ?_⟩
      cases rc
      case ok => exact absurd rfl fails
      all_goals rfl
    | ok reading => simp [passedInfinite sleep.linked.toArmed reading]
  · intro timeout waits infinite runs
    obtain ⟨t, running⟩ := runs
    rcases sleep.woken timeout waits infinite with set | owes | none_
    · exact .inl set
    · exact .inr owes
    · exact absurd running ((noneRuns sleep.linked).mpr none_ t)

theorem boundedSleep (s : State τ θ) :
    (Reachable Starts step Undisturbed s → CallsBounded s) ∧ (Reachable Starts step HeadReads s → BoundedSleep s) :=
  ⟨callsBounded, headReadsSleep⟩

section Runs

instance (m : Manager τ) (clock : ClockRead) : Decidable (Answers m clock) :=
  match clock with
  | .ok _ => isTrue (by simp [Answers])
  | .error rc => decidable_of_iff (rc ≠ .ok) (by simp [Answers])

instance [Fintype θ] (s : State τ θ) (a : Action τ θ) : Decidable (HeadReads s a) := by
  unfold HeadReads
  refine @instDecidableAnd _ _ inferInstance ?_
  split <;> infer_instance

instance (s : State τ θ) (call : Call τ) (clock : ClockRead) : Decidable (Arms s call clock) :=
  inferInstanceAs (Decidable (call.links = true ∧ _))

instance (broker : BrokerPc) {P : Prop} [Decidable P] : Decidable (∀ timeout, broker = .wait timeout → P) :=
  match broker with
  | .wait timeout => decidable_of_iff P (by simp)
  | .testQuit | .nextTimeout | .waiting _ | .drain | .serve | .fireExpired | .recheck | .refire | .left => isTrue (by simp)

instance [Fintype τ] [Fintype θ] (s : State τ θ) (a : Action τ θ) : Decidable (Undisturbed s a) := by
  unfold Undisturbed
  refine @instDecidableAnd _ _ inferInstance ?_
  split <;> infer_instance

def headAgain (fire recheck : ClockRead) : List (Action (Fin 3) Unit) :=
  started firstTimer 0 ++ [.broker (.testQuit false), .broker (.nextTimeout (.ok 0)), .broker .wait, .broker (.waiting true),
    .broker .drain, .broker .serve, .broker (.fireExpired fire fun _ => .ok), .broker (.recheck recheck), .broker (.testQuit false)]

/- The other reads of the turn fail, and the wait is called with timer 0 running. -/
theorem boundedAtHead : ∃ s : State (Fin 3) Unit, s.broker = .wait ⟨.ok 0, some 1, 1⟩ ∧ Running s.timers.manager 0 ∧
    1 ≠ Platform.waitInfiniteUs ∧ BoundedSleep s := by
  have runs : ∃ s, executeAllowed step Undisturbed threeTimers
      (headAgain (.error .inval) (.error .inval) ++ [.broker (.nextTimeout (.ok 0))]) = some s ∧
      s.broker = .wait ⟨.ok 0, some 1, 1⟩ ∧ Running s.timers.manager 0 := anyResult (by decide +kernel)
  obtain ⟨s, ran, called, running⟩ := runs
  have reach := executeAllowedReachable (.start threeTimersStart) ran
  obtain ⟨bounded, sleeps⟩ := boundedSleep s
  exact ⟨s, called, running, bounded reach _ called ⟨0, running⟩, sleeps (reach.mono fun _ _ allowed => allowed.1)⟩

/- Timer 0 runs, and the one read that fails is that of the timeout: the broker waits
without a timeout for an event that nobody owes it. -/
theorem failedReadSleeps : ∃ s s' : State (Fin 3) Unit, Reachable Starts step (Allowed Answers) s ∧ Running s.timers.manager 0 ∧
    step s (.broker (.nextTimeout (.error .inval))) = some (s', ()) ∧
    s'.broker = .wait ⟨.error .inval, none, Platform.waitInfiniteUs⟩ ∧ s'.event = false ∧ s'.place () = .idle ∧
    Running s'.timers.manager 0 ∧ ¬CallsBounded s' := by
  have runs : ∃ s, executeAllowed step (Allowed Answers) threeTimers (headAgain (.ok 0) (.ok 0)) = some s ∧
      Running s.timers.manager 0 ∧ s.broker = .nextTimeout ∧ s.event = false ∧ s.place () = .idle :=
    anyResult (by decide +kernel)
  obtain ⟨s, ran, running, head, quiet, idle⟩ := runs
  have taken : step s (.broker (.nextTimeout (.error .inval))) =
      some ({ s with broker := .wait ⟨.error .inval, none, Platform.waitInfiniteUs⟩ }, ()) := by
    simp [step, brokerStep, head, TimerMgr.nextTimeout, refreshNow, waitDeadline, passedTimeout]
  exact ⟨s, _, executeAllowedReachable (.start threeTimersStart) ran, running, taken, rfl, quiet, idle, running,
    fun bounded => bounded _ rfl ⟨0, running⟩ rfl⟩

end Runs

end Nanosig.TimerMgr.Threads
