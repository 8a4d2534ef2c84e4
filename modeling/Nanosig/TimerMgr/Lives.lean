import Nanosig.TimerMgr.OrderedTree

/-! The timer manager from one initialization to the next: `ns_timer_mgr_global_init`, `ns_timer_mgr_global_shutdown`, and
what a call checks before it holds the manager's mutex. The timers are the caller's and outlive the manager that ran them. -/
namespace Nanosig.TimerMgr.Lives
open TransitionSystem

/- The manager with its timers, `g_timer_mgr.initialized`, and what `ns_is_initialized` answers. -/
structure State (τ : Type) where
  inner : TimerMgr.State τ
  initialized : Bool
  ready : Bool

def State.manager {τ : Type} (s : State τ) : Manager τ := s.inner.manager

/- A call takes the result of `ns_platform_mutex_lock`; `setReady` is the store in `ns_init` or `ns_shutdown`. -/
inductive Action (τ : Type) where
  | call (a : TimerMgr.Action τ) (lock : Status)
  | globalInit (mutex : Status)
  | globalShutdown (lock : Status)
  | setReady (ready : Bool)

inductive Event (τ : Type) where
  | answered (answer : Answer τ)
  | refused (rc : Status)
  | initialized (rc : Status)
  | silent

section Steps

variable {τ : Type} [DecidableEq τ]

def runtimeReady (s : State τ) : Status := if s.ready then .ok else .shutdown

def mgrLock (s : State τ) (lock : Status) : Status := if ¬s.initialized then .shutdown else lock

/- What a call checks, in order, up to the lock; `ns_timer_init` takes none. -/
def checks (s : State τ) (lock : Status) : TimerMgr.Action τ → List Status
  | .init _ intervalUs attr _ => [if intervalIsValid intervalUs && attrIsValid attr then .ok else .inval, runtimeReady s]
  | .setInterval _ _ | .setAttr _ _ => []
  | .start t _ | .restart t _ => [runtimeReady s, validateUserInput (s.manager.timers t), mgrLock s lock]
  | .cancel t | .deinit t _ => [runtimeReady s, validateCreated (s.manager.timers t), mgrLock s lock]
  | .fireExpired _ _ | .nextTimeout _ => [mgrLock s lock]

/- `if(rc != NS_OK) return rc;` behind each check. -/
def refusal (s : State τ) (lock : Status) (a : TimerMgr.Action τ) : Option Status := (checks s lock a).find? (· ≠ .ok)

/- `now = 0` and `ns_rbtree_root_init`; the nodes of the timers keep what they hold. -/
def emptied (m : Manager τ) : TimerMgr.State τ :=
  ⟨{ m with tree := { m.tree with root := none, rbLeftmost := none, linked := 0 }, now := 0, clock := 0 }, []⟩

def globalInit (s : State τ) (mutex : Status) : State τ × Status :=
  if s.initialized then (s, .exists)
  else ({ s with inner := emptied s.manager, initialized := mutex = .ok }, mutex)

def clearFrom : Nat → Manager τ → Option (Manager τ)
  | 0, _ => none
  | fuel + 1, m =>
      match m.tree.rbLeftmost with
      | none => some m
      | some timer => (disarm m timer).bind fun (m, _) => clearFrom fuel m

def globalShutdown (s : State τ) (lock : Status) : Option (State τ) :=
  if ¬s.initialized then some s
  else
    (if lock = .ok then clearFrom (s.manager.tree.linked + 1) s.manager else some s.manager).map fun m =>
      { s with inner := emptied m, initialized := false }

def step (s : State τ) : Action τ → Option (State τ × Event τ)
  | .call a lock =>
      match refusal s lock a with
      | some rc => some (s, .refused rc)
      | none => (TimerMgr.step s.inner a).map fun (inner, answer) => ({ s with inner := inner }, .answered answer)
  | .globalInit mutex => some ((globalInit s mutex).1, .initialized (globalInit s mutex).2)
  | .globalShutdown lock => (globalShutdown s lock).map fun s => (s, .silent)
  | .setReady ready => some ({ s with ready := ready }, .silent)

/- A call that is not refused is one of the manager's, and the shutdown gets its mutex if a timer runs. -/
def Allowed (s : State τ) : Action τ → Prop
  | .call a lock => refusal s lock a = none → TimerMgr.Allowed s.inner a
  | .globalShutdown lock => s.initialized = true → lock ≠ .ok → ∀ t, ¬Running s.manager t
  | .globalInit _ => True
  | .setReady _ => True

/- Before the first `ns_init`. -/
structure Starts (s : State τ) : Prop where
  inner : TimerMgr.Starts s.inner
  initialized : s.initialized = false
  ready : s.ready = false

end Steps

section Kept

variable {τ : Type} [DecidableEq τ] {s s' : State τ} {m : Manager τ} {L : List τ}

def Kept (s : State τ) : Prop :=
  ∃ L, Scheduled s.manager L s.inner.ages ∧ (s.initialized = false → L = [])

theorem emptiedScheduled (linked : Linked m []) : Scheduled (emptied m).manager [] (emptied m).ages := by
  have valid : Rbtree.Valid (emptied m).manager.tree [] := Rbtree.initValid.congr rfl rfl rfl (by simp)
  refine ⟨⟨⟨valid, Nat.two_pow_pos 64, by simp⟩, rfl, .nil, by simp, by simp, fun t created outside => ?_⟩, ⟨.nil, .nil⟩⟩
  exact linked.stopped t created outside

theorem clearFromSpec (fuel : Nat) (linked : Linked m L) (enough : L.length < fuel) :
    ∃ m', clearFrom fuel m = some m' ∧ Linked m' [] ∧ m'.timers = m.timers := by
  induction fuel generalizing m L with
  | zero => omega
  | succ fuel ih =>
    have leftmost := linked.valid.leftmost
    cases L with
    | nil => exact ⟨m, by simp [clearFrom, leftmost], linked, rfl⟩
    | cons t rest =>
      obtain ⟨mid, disarmed, disarms⟩ := disarmSpec linked.toArmed List.mem_cons_self
      have linkedMid := linked.disarms disarms
      rw [List.erase_cons_head] at linkedMid
      obtain ⟨m', cleared, linked', timers⟩ := ih linkedMid (by simpa using enough)
      refine ⟨m', ?_, linked', timers.trans disarms.timers⟩
      simp only [clearFrom, leftmost, List.head?_cons, disarmed, Option.bind_some]
      exact cleared

theorem shutdownSpec (kept : Kept s) {lock : Status} (allowed : Allowed s (.globalShutdown lock)) (live : s.initialized = true) :
    ∃ m, globalShutdown s lock = some { s with inner := emptied m, initialized := false } ∧ Linked m [] ∧
      m.timers = s.manager.timers := by
  obtain ⟨L, scheduled, -⟩ := kept
  have linked := scheduled.ordered.linked
  rw [globalShutdown, if_neg (by simp [live])]
  by_cases locked : lock = .ok
  · have enough : L.length < s.manager.tree.linked + 1 := by
      rw [linked.valid.linked]
      exact Nat.lt_succ_self _
    obtain ⟨m, cleared, linked', timers⟩ := clearFromSpec _ linked enough
    exact ⟨m, by rw [if_pos locked, cleared]; rfl, linked', timers⟩
  · have none : L = [] := by
      refine List.eq_nil_iff_forall_not_mem.mpr fun t member => ?_
      exact allowed live locked t (scheduled.ordered.running member)
    subst none
    exact ⟨s.manager, by rw [if_neg locked]; rfl, linked, rfl⟩

/- Only the creation of a timer and the user's own writes go ahead without an initialized manager. -/
theorem unlockedKept (scheduled : Scheduled s.manager [] s.inner.ages) (down : s.initialized = false) {a : TimerMgr.Action τ}
    {lock : Status} (goes : refusal s lock a = none) {inner : TimerMgr.State τ} {answer : Answer τ}
    (taken : TimerMgr.step s.inner a = some (inner, answer)) : Scheduled inner.manager [] inner.ages := by
  have closed : mgrLock s lock = .shutdown := by simp [mgrLock, down]
  cases a with
  | init t intervalUs attr mutex =>
    cases taken
    exact (initServed scheduled List.not_mem_nil intervalUs attr mutex).scheduled
  | setInterval t intervalUs =>
    cases taken
    exact (writeServed scheduled List.not_mem_nil { s.manager.timers t with intervalUs := intervalUs } rfl).scheduled
  | setAttr t attr =>
    cases taken
    exact (writeServed scheduled List.not_mem_nil { s.manager.timers t with attr := attr } rfl).scheduled
  | start t clock => simp [refusal, checks, closed] at goes
  | cancel t => simp [refusal, checks, closed] at goes
  | restart t clock => simp [refusal, checks, closed] at goes
  | deinit t mutex => simp [refusal, checks, closed] at goes
  | fireExpired clock emit => simp [refusal, checks, closed] at goes
  | nextTimeout clock => simp [refusal, checks, closed] at goes

theorem callGoes {a : TimerMgr.Action τ} {lock : Status} (goes : refusal s lock a = none) {inner : TimerMgr.State τ}
    {answer : Answer τ} (taken : TimerMgr.step s.inner a = some (inner, answer)) :
    step s (.call a lock) = some ({ s with inner := inner }, .answered answer) := by
  simp only [step, goes, taken, Option.map_some]

theorem stepKept (kept : Kept s) {a : Action τ} (allowed : Allowed s a) : ∃ s' e, step s a = some (s', e) ∧ Kept s' := by
  obtain ⟨L, scheduled, down⟩ := kept
  cases a with
  | call a lock =>
    cases goes : refusal s lock a with
    | some rc => exact ⟨s, .refused rc, by simp only [step, goes], L, scheduled, down⟩
    | none =>
      obtain ⟨inner, answer, L', took, scheduled'⟩ := stepServed scheduled (allowed goes)
      refine ⟨_, .answered answer, callGoes goes took, ?_⟩
      by_cases live : s.initialized = true
      · exact ⟨L', scheduled', fun closed => by simp [live] at closed⟩
      · have down := down (by simpa using live)
        subst down
        exact ⟨[], unlockedKept scheduled (by simpa using live) goes took, fun _ => rfl⟩
  | globalInit mutex =>
    refine ⟨_, _, rfl, ?_⟩
    unfold globalInit
    split
    · exact ⟨L, scheduled, down⟩
    · rename_i closed
      have none := down (by simpa using closed)
      subst none
      exact ⟨[], emptiedScheduled scheduled.ordered.linked, fun _ => rfl⟩
  | globalShutdown lock =>
    by_cases live : s.initialized = true
    · obtain ⟨m, closes, linked, -⟩ := shutdownSpec ⟨L, scheduled, down⟩ allowed live
      exact ⟨⟨emptied m, false, s.ready⟩, .silent, by rw [step, closes]; rfl, [], emptiedScheduled linked, fun _ => rfl⟩
    · exact ⟨s, .silent, by rw [step, globalShutdown, if_pos (by simpa using live)]; rfl, L, scheduled, down⟩
  | setReady ready => exact ⟨_, .silent, rfl, L, scheduled, down⟩

theorem reachableKept (reach : Reachable Starts step Allowed s) : Kept s := by
  refine reach.invariant (fun s starts => ⟨[], startsScheduled starts.inner, fun _ => rfl⟩) fun s a s' e kept allowed taken => ?_
  obtain ⟨s'', e', took, kept'⟩ := stepKept kept allowed
  rw [taken] at took
  cases took
  exact kept'

end Kept

section Lives

variable {τ : Type} [DecidableEq τ] {s : State τ}

/- After the next `ns_init`. -/
def reopened (s : State τ) : State τ := { (globalInit s .ok).1 with ready := true }

structure OutlivesManager (s : State τ) : Prop where
  ordered : ∃ L, Rbtree.Valid s.manager.tree L ∧ (L.Pairwise fun a b => remaining s.manager a ≤ remaining s.manager b) ∧
    (∀ t, (s.manager.timers t).mutexInitialized = true → (isRunning s.manager t = true ↔ t ∈ L)) ∧
    (s.initialized = false → L = [])
  ends : ∀ a, Allowed s a → ∃ s' e, step s a = some (s', e)
  closes : ∀ lock, Allowed s (.globalShutdown lock) → s.initialized = true →
    ∃ s', globalShutdown s lock = some s' ∧ s'.initialized = false ∧ s'.manager.timers = s.manager.timers ∧
      ∀ t, (s.manager.timers t).mutexInitialized = true → isRunning s'.manager t = false
  starts : s.initialized = false → ∀ t reading, validateUserInput (s.manager.timers t) = .ok →
    ∃ s', step (reopened s) (.call (.start t (.ok reading)) .ok) = some (s', .answered (.call .ok true)) ∧
      isRunning s'.manager t = true ∧
      (nextTimeout s'.manager (.ok reading)).2 = (.ok, some (s.manager.timers t).intervalUs)
  deinits : s.initialized = false → ∀ t mutex, validateCreated (s.manager.timers t) = .ok →
    ∃ s', step (reopened s) (.call (.deinit t mutex) .ok) = some (s', .answered (.call mutex false)) ∧
      (s'.manager.timers t).mutexInitialized = false
  strands : s.initialized = true → ∀ lock, lock ≠ .ok → ∀ t clock, isRunning s.manager t = true →
    validateUserInput (s.manager.timers t) = .ok →
    ∃ s' s'', globalShutdown s lock = some s' ∧ s'.manager.tree.rbLeftmost = none ∧
      step (reopened s') (.call (.start t clock) .ok) = some (s'', .answered (.call .exists false))

omit [DecidableEq τ] in
theorem reopenedEq (down : s.initialized = false) : reopened s = ⟨emptied s.manager, true, true⟩ := by
  simp [reopened, globalInit, down]

omit [DecidableEq τ] in
/- Nothing but the timer's own fields holds a call back after an `ns_init`. -/
theorem openedCalls (inner : TimerMgr.State τ) {t : τ} :
    (∀ clock, validateUserInput (inner.manager.timers t) = .ok → refusal ⟨inner, true, true⟩ .ok (.start t clock) = none) ∧
      ∀ mutex, validateCreated (inner.manager.timers t) = .ok → refusal ⟨inner, true, true⟩ .ok (.deinit t mutex) = none := by
  constructor
  · intro clock valid
    simp [refusal, checks, runtimeReady, mgrLock, State.manager, valid]
  · intro mutex valid
    simp [refusal, checks, runtimeReady, mgrLock, State.manager, valid]

theorem startsAgain (kept : Kept s) (down : s.initialized = false) {t : τ} (reading : Nat)
    (valid : validateUserInput (s.manager.timers t) = .ok) :
    ∃ s', step (reopened s) (.call (.start t (.ok reading)) .ok) = some (s', .answered (.call .ok true)) ∧
      isRunning s'.manager t = true ∧
      (nextTimeout s'.manager (.ok reading)).2 = (.ok, some (s.manager.timers t).intervalUs) := by
  obtain ⟨L, scheduled, none⟩ := kept
  obtain rfl := none down
  obtain ⟨created, interval⟩ := validInput valid
  have empty := (emptiedScheduled scheduled.ordered.linked).ordered
  have stopped : isRunning (emptied s.manager).manager t = false := by
    simp [isRunning, empty.stopped t created List.not_mem_nil]
  obtain ⟨m, earlier, later, armed, arms⟩ := armSpec
    (expireFromNow (refreshNow (emptied s.manager).manager (.ok reading)).1 t) (empty.toArmed.refresh (.ok reading))
    List.not_mem_nil interval
  obtain ⟨rfl, rfl⟩ := List.append_eq_nil_iff.mp arms.split.symm
  have started : start (emptied s.manager).manager t (.ok reading) = some (m, .ok, true) := by
    have valid : validateUserInput ((emptied s.manager).manager.timers t) = .ok := valid
    rw [start, if_neg (not_not.mpr valid), startLocked, if_neg (by simp [stopped])]
    simp only [refreshNow] at armed ⊢
    rw [armed]
    rfl
  refine ⟨⟨(settle (emptied s.manager) t true (m, .ok, true)).1, true, true⟩, ?_, arms.armed.running (by simp), ?_⟩
  · rw [reopenedEq down]
    exact callGoes ((openedCalls (emptied s.manager)).1 (.ok reading) valid)
      (congrArg (Option.map (settle (emptied s.manager) t true)) started)
  · have answer := nextTimeoutAnswer arms.armed reading
    change (nextTimeout m (.ok reading)).2 = _
    rw [answer]
    have left : remainingUs (m.timers t).expireUs (reading % uint64Modulus) = (s.manager.timers t).intervalUs := by
      rw [arms.timers, Function.update_self]
      exact remainingFromNow (Nat.mod_lt reading (by decide)) interval.2
    simp only [List.nil_append, List.head?_cons, left]
    simp

theorem deinitsAgain (kept : Kept s) (down : s.initialized = false) {t : τ} (mutex : Status)
    (valid : validateCreated (s.manager.timers t) = .ok) :
    ∃ s', step (reopened s) (.call (.deinit t mutex) .ok) = some (s', .answered (.call mutex false)) ∧
      (s'.manager.timers t).mutexInitialized = false := by
  obtain ⟨L, scheduled, none⟩ := kept
  obtain rfl := none down
  have created := validCreated valid
  have empty := (emptiedScheduled scheduled.ordered.linked).ordered
  have stopped : isRunning (emptied s.manager).manager t = false := by
    simp [isRunning, empty.stopped t created List.not_mem_nil]
  have deinited : deinit (emptied s.manager).manager t mutex =
      some ((deinitCleanup (emptied s.manager).manager t mutex).1, mutex, false) := by
    have valid : validateCreated ((emptied s.manager).manager.timers t) = .ok := valid
    have created : ((emptied s.manager).manager.timers t).mutexInitialized = true := created
    rw [deinit, cancel, if_neg (not_not.mpr valid), cancelLocked, if_pos (by simp [stopped])]
    simp [deinitCleanup, created]
  refine ⟨⟨(settle (emptied s.manager) t false ((deinitCleanup (emptied s.manager).manager t mutex).1, mutex, false)).1,
    true, true⟩, ?_, ?_⟩
  · rw [reopenedEq down]
    exact callGoes ((openedCalls (emptied s.manager)).2 mutex valid)
      (congrArg (Option.map (settle (emptied s.manager) t false)) deinited)
  · simp [State.manager, settle, deinitCleanup, setTimer]

/- A shutdown without the mutex leaves a timer marked as running though no tree holds it. -/
theorem strandsRunning (live : s.initialized = true) {lock : Status} (unlocked : lock ≠ .ok) {t : τ} (clock : ClockRead)
    (running : isRunning s.manager t = true) (valid : validateUserInput (s.manager.timers t) = .ok) :
    ∃ s' s'', globalShutdown s lock = some s' ∧ s'.manager.tree.rbLeftmost = none ∧
      step (reopened s') (.call (.start t clock) .ok) = some (s'', .answered (.call .exists false)) := by
  refine ⟨⟨emptied s.manager, false, s.ready⟩,
    ⟨(settle (emptied (emptied s.manager).manager) t true ((emptied (emptied s.manager).manager).manager, .exists, false)).1,
      true, true⟩, ?_, rfl, ?_⟩
  · rw [globalShutdown, if_neg (by simp [live]), if_neg unlocked]
    rfl
  · rw [reopenedEq rfl]
    have exists_ : start (emptied (emptied s.manager).manager).manager t clock =
        some ((emptied (emptied s.manager).manager).manager, .exists, false) := by
      have valid : validateUserInput ((emptied (emptied s.manager).manager).manager.timers t) = .ok := valid
      have running : isRunning (emptied (emptied s.manager).manager).manager t = true := running
      rw [start, if_neg (not_not.mpr valid), startLocked, if_pos running]
    exact callGoes ((openedCalls (emptied (emptied s.manager).manager)).1 clock valid) 
      (congrArg (Option.map (settle (emptied (emptied s.manager).manager) t true)) exists_)

/- Over any number of lives the tree is ordered and holds exactly the timers marked as running, and every timer that a
shutdown with the mutex leaves can be started and released in the next life. -/
theorem timersOutliveManager (reach : Reachable Starts step Allowed s) : OutlivesManager s := by
  have kept := reachableKept reach
  refine ⟨?_, fun a allowed => ?_, fun lock allowed live => ?_, fun down t reading => startsAgain kept down reading,
    fun down t mutex => deinitsAgain kept down mutex, fun live lock unlocked t clock => strandsRunning live unlocked clock⟩
  · obtain ⟨L, scheduled, none⟩ := kept
    have ordered := scheduled.ordered
    exact ⟨L, ordered.valid, ordered.sorted, fun t created => ordered.runningIff created, none⟩
  · obtain ⟨s', e, taken, -⟩ := stepKept kept allowed
    exact ⟨s', e, taken⟩
  · obtain ⟨m, closes, linked, timers⟩ := shutdownSpec kept allowed live
    refine ⟨_, closes, rfl, timers, fun t created => ?_⟩
    have stopped : Rbtree.nodeIsEmpty m.tree.toHeap t = true := linked.stopped t (by rw [timers]; exact created) List.not_mem_nil
    exact decide_eq_false (not_not.mpr stopped)

end Lives

section Witness

def untouched : State Nat := ⟨emptyState, false, false⟩

def after (s : State Nat) (a : Action Nat) : State Nat := (step s a).elim s Prod.fst

theorem afterReachable {s : State Nat} (reach : Reachable Starts step Allowed s) {a : Action Nat} (allowed : Allowed s a) :
    Reachable Starts step Allowed (after s a) := by
  obtain ⟨s', e, taken, -⟩ := stepKept (reachableKept reach) allowed
  rw [after, taken]
  exact .next reach allowed taken

def firstLife : State Nat := after (after (after untouched (.globalInit .ok)) (.setReady true)) (.call (.init 0 5 attrRepeat .ok) .ok)

def betweenLives : State Nat := after (after firstLife (.call (.start 0 (.ok 2)) .ok)) (.globalShutdown .ok)

theorem betweenReachable : Reachable Starts step Allowed betweenLives := by
  have opened := afterReachable (afterReachable (.start (s := untouched) ⟨emptyStateStarts, rfl, rfl⟩)
    (a := .globalInit .ok) trivial) (a := .setReady true) trivial
  have created : Reachable Starts step Allowed firstLife :=
    afterReachable opened (a := .call (.init 0 5 attrRepeat .ok) .ok) fun _ running => by
      have created := running.1
      contradiction
  have reading : ReadingAllowed firstLife.manager (.ok 2) := by
    refine ⟨fun reading _ => Nat.zero_le reading, fun reading same t running => ?_, fun rc fails => by contradiction⟩
    obtain rfl := createdOnly rfl running
    exact absurd running.2 (by decide)
  exact afterReachable (afterReachable created (a := .call (.start 0 (.ok 2)) .ok) fun _ => reading)
    (a := .globalShutdown .ok) fun _ locked => absurd rfl locked

/- The timer that ran when the first life ended is the first timer of the second, five microseconds ahead. -/
theorem secondLifeStarts :
    ∃ s, step (reopened betweenLives) (.call (.start 0 (.ok 1)) .ok) = some (s, .answered (.call .ok true)) ∧
      isRunning s.manager 0 = true ∧ (nextTimeout s.manager (.ok 1)).2 = (.ok, some 5) :=
  (timersOutliveManager betweenReachable).starts rfl 0 1 rfl

end Witness

end Nanosig.TimerMgr.Lives
