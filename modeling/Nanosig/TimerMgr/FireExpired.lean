import Nanosig.TimerMgr.OrderedTree

/-! What a call of `ns_timer_mgr_fire_expired` does in a reachable state: which
timers it emits for and in which order, its result, and every timer after it. -/
namespace Nanosig.TimerMgr
open TransitionSystem

theorem keepFirstFind (results : List Status) :
    results.foldl keepFirst .ok = (results.find? (fun rc => rc ≠ .ok)).getD .ok := by
  have kept (results : List Status) {rc : Status} (failed : rc ≠ .ok) : results.foldl keepFirst rc = rc := by
    induction results with
    | nil => rfl
    | cons next rest ih => simpa [keepFirst, failed] using ih
  induction results with
  | nil => rfl
  | cons rc rest ih =>
    by_cases ok : rc = .ok
    · subst ok
      simpa [keepFirst] using ih
    · simp [keepFirst, ok, kept rest ok]

variable {τ : Type} [DecidableEq τ]

def nextDeadline (m : Manager τ) (t : τ) (reading : Nat) : Int :=
  if (m.timers t).attr &&& attrReloadFromNow = 0 ∧ deadline m t + (m.timers t).intervalUs > reading then
    deadline m t + (m.timers t).intervalUs
  else reading + (m.timers t).intervalUs

omit [DecidableEq τ] in
theorem reloadRemaining {m : Manager τ} {t : τ} (small : m.now < uint64Modulus) (interval : (m.timers t).intervalUs ≤ int64Max)
    (isDue : remaining m t ≤ 0) :
    remainingUs (reloadExpire m t (m.timers t).expireUs) m.now =
      if (m.timers t).attr &&& attrReloadFromNow = 0 ∧ remaining m t + (m.timers t).intervalUs > 0 then
        remaining m t + (m.timers t).intervalUs
      else (m.timers t).intervalUs := by
  have fromNow : remainingUs (expireFromNow m t) m.now = (m.timers t).intervalUs := remainingFromNow small interval
  have stepped : remainingUs (((m.timers t).expireUs + (m.timers t).intervalUs) % uint64Modulus) m.now =
      remaining m t + (m.timers t).intervalUs := by
    refine remainingAdd small ?_
    have : remainingUs (m.timers t).expireUs m.now ≤ 0 := isDue
    simp only [int64Max] at interval
    omega
  unfold reloadExpire
  by_cases reload : (m.timers t).attr &&& attrReloadFromNow = 0
  · rw [if_neg (not_not.mpr reload)]
    dsimp only
    rw [stepped]
    by_cases passed : remaining m t + (m.timers t).intervalUs ≤ 0
    · rw [if_pos passed, if_neg (by omega), fromNow]
    · rw [if_neg passed, if_pos ⟨reload, by omega⟩, stepped]
  · rw [if_pos reload, if_neg (fun both => reload both.1), fromNow]

structure FiredAt (m m' : Manager τ) (t : τ) (reading : Nat) (inFired : Prop) : Prop where
  once : inFired → repeats (m.timers t) = false → isRunning m' t = false
  again : inFired → repeats (m.timers t) = true →
    isRunning m' t = true ∧ deadline m' t = nextDeadline m t reading ∧ deadline m' t > reading
  others : ¬inFired → m'.timers t = m.timers t ∧ isRunning m' t = isRunning m t ∧
    (isRunning m t = true → deadline m' t = deadline m t)

section Run

variable {m m' : Manager τ} {L L' ages fired : List τ} {reading : Nat} {t : τ} (scheduled : Scheduled m L ages)
  (order : m.clock ≤ reading) (inside : ∀ t ∈ L, (reading : Int) < deadline m t + 2 ^ 63)
  (run : FireRun (refreshNow m (.ok reading)).1 L fired m' L')

include scheduled order inside run

theorem firedDue : t ∈ fired ↔ t ∈ L ∧ deadline m t ≤ reading := by
  have outcome := run.outcome (refreshServed scheduled order inside).scheduled
  rw [outcome.emitted, List.mem_filter]
  refine and_congr_right fun member => ?_
  have moved : remaining (refreshNow m (.ok reading)).1 t = deadline m t - reading :=
    scheduled.ordered.remainingAt order (inside t member)
  rw [decide_eq_true_eq, due, moved]
  omega

theorem firedOnce : fired.Nodup ∧ ∀ t, t ∈ fired ↔ Running m t ∧ deadline m t ≤ reading := by
  have ordered := scheduled.ordered
  have outcome := run.outcome (refreshServed scheduled order inside).scheduled
  refine ⟨outcome.emitted ▸ ordered.valid.nodup.filter _, fun t => ?_⟩
  have running : Running m t ↔ t ∈ L := ⟨fun runs => (ordered.runningIff runs.1).mp runs.2, ordered.running⟩
  rw [firedDue scheduled order inside run, running]

theorem firedInOrder :
    fired.Pairwise fun a b => deadline m a < deadline m b ∨ deadline m a = deadline m b ∧ [a, b].Sublist ages := by
  have outcome := run.outcome (refreshServed scheduled order inside).scheduled
  rw [outcome.emitted]
  have both := scheduled.ordered.sorted.and scheduled.aged.stable
  refine (both.sublist List.filter_sublist).imp fun {a b} pair => ?_
  obtain ⟨less, older⟩ := pair
  rcases lt_or_eq_of_le less with before | same
  · exact .inl (by rw [deadline, deadline]; omega)
  · exact .inr ⟨by rw [deadline, deadline, same], older same⟩

theorem firedDeadline (isFired : t ∈ fired) (again : repeats (m.timers t) = true) :
    deadline m' t = nextDeadline m t reading ∧ deadline m' t > reading := by
  obtain ⟨member, isDue⟩ := (firedDue scheduled order inside run).mp isFired
  have refreshed := refreshServed scheduled order inside
  have outcome := run.outcome refreshed.scheduled
  have interval := scheduled.ordered.interval t member
  have moved : remaining (refreshNow m (.ok reading)).1 t = deadline m t - reading :=
    scheduled.ordered.remainingAt order (inside t member)
  have expire : m'.timers t = firedTimer (refreshNow m (.ok reading)).1 t := by
    rw [outcome.timers t, if_pos isFired]
  have clock : m'.clock = reading := outcome.clock
  have left : remaining m' t = remainingUs (reloadExpire (refreshNow m (.ok reading)).1 t (m.timers t).expireUs)
      (refreshNow m (.ok reading)).1.now := by
    have repeating : repeats ((refreshNow m (.ok reading)).1.timers t) = true := again
    rw [remaining, expire, outcome.now, firedTimer, if_pos repeating]
    rfl
  have small := refreshed.scheduled.ordered.now
  have reloaded := reloadRemaining (t := t) small interval.2 (by rw [moved]; omega)
  have next : deadline m' t = nextDeadline m t reading := by
    rw [deadline, clock, left, nextDeadline]
    refine (congrArg (fun x : Int => (reading : Int) + x) reloaded).trans ?_
    rw [moved]
    by_cases ahead : (m.timers t).attr &&& attrReloadFromNow = 0 ∧ deadline m t + (m.timers t).intervalUs > reading
    · rw [if_pos ahead]
      refine (congrArg (fun x : Int => (reading : Int) + x) (if_pos ⟨ahead.1, ?_⟩)).trans ?_
      · have := ahead.2
        simp only [refreshNow]
        omega
      · simp only [refreshNow]
        omega
    · rw [if_neg ahead]
      refine congrArg (fun x : Int => (reading : Int) + x) (if_neg fun both => ahead ⟨both.1, ?_⟩)
      have := both.2
      simp only [refreshNow] at this
      omega
  refine ⟨next, ?_⟩
  rw [next, nextDeadline]
  split
  · exact (‹_ ∧ _›).2
  · have := interval.1
    omega

theorem firedAt (created : (m.timers t).mutexInitialized = true) : FiredAt m m' t reading (t ∈ fired) := by
  have ordered := scheduled.ordered
  have outcome := run.outcome (refreshServed scheduled order inside).scheduled
  have created' : (m'.timers t).mutexInitialized = true := by
    rw [outcome.timers t]
    have kept : (firedTimer (refreshNow m (.ok reading)).1 t).mutexInitialized = (m.timers t).mutexInitialized := by
      unfold firedTimer
      split <;> rfl
    split
    · rw [kept]
      exact created
    · exact created
  have after : isRunning m' t = true ↔ t ∈ L ∧ (t ∈ fired → repeats (m.timers t) = true) :=
    (outcome.scheduled.ordered.runningIff created').trans (outcome.member t)
  refine ⟨fun isFired once => ?_, fun isFired again => ?_, fun notFired => ?_⟩
  · rw [← Bool.not_eq_true, after]
    rintro ⟨-, again⟩
    rw [again isFired] at once
    cases once
  · obtain ⟨member, -⟩ := (firedDue scheduled order inside run).mp isFired
    exact ⟨after.mpr ⟨member, fun _ => again⟩, firedDeadline scheduled order inside run isFired again⟩
  · have same : m'.timers t = m.timers t := by
      rw [outcome.timers t, if_neg notFired]
      rfl
    have runs : isRunning m' t = true ↔ isRunning m t = true := by
      rw [after, ordered.runningIff created]
      exact ⟨fun both => both.1, fun member => ⟨member, fun isFired => absurd isFired notFired⟩⟩
    refine ⟨same, Bool.eq_iff_iff.mpr runs, fun isRunning => ?_⟩
    have member := (ordered.runningIff created).mp isRunning
    have clock : m'.clock = reading := outcome.clock
    have left : remaining m' t = remaining (refreshNow m (.ok reading)).1 t := by
      rw [remaining, remaining, same, outcome.now]
      rfl
    have moved : remaining (refreshNow m (.ok reading)).1 t = deadline m t - reading := ordered.remainingAt order (inside t member)
    rw [deadline, clock, left, moved]
    omega

end Run

/- Every timer due at the reading is emitted for once, in the order of the deadlines and
of the links, whatever the emits return; the result is the first error. Then a due one-shot
timer is stopped, a due repeating one runs with a deadline ahead, the others are unchanged. -/
theorem fireExpiredExact {s : State τ} (reach : Reachable Starts step Allowed s) {reading : Nat}
    (order : s.manager.clock ≤ reading)
    (within : ∀ t, Running s.manager t → (reading : Int) < deadline s.manager t + 2 ^ 63) (emit : Nat → Status) :
    ∃ m' fired, fireExpired s.manager (.ok reading) emit =
        some (m', fired, (((List.range fired.length).map emit).find? (fun rc => rc ≠ .ok)).getD .ok) ∧
      fired.Nodup ∧ (∀ t, t ∈ fired ↔ Running s.manager t ∧ deadline s.manager t ≤ reading) ∧
      fired.Pairwise (fun a b => deadline s.manager a < deadline s.manager b ∨
        deadline s.manager a = deadline s.manager b ∧ [a, b].Sublist s.ages) ∧
      ∀ t, (s.manager.timers t).mutexInitialized = true → FiredAt s.manager m' t reading (t ∈ fired) := by
  obtain ⟨L, scheduled⟩ := reachableScheduled reach
  have inside (t : τ) (member : t ∈ L) := within t (scheduled.ordered.running member)
  obtain ⟨m', L', fired, ran, run⟩ := fireExpiredSpec scheduled.ordered.toArmed reading emit
  obtain ⟨distinct, isDue⟩ := firedOnce scheduled order inside run
  refine ⟨m', fired, ?_, distinct, isDue, firedInOrder scheduled order inside run, fun t created =>
    firedAt scheduled order inside run created⟩
  rw [ran, errorAfter, keepFirstFind, List.range_eq_range']

/- All three timers of `acrossWrap` are due: the one from before the wrap, then the two due at
one time in the order of their starts; the first error is that of the second emit. -/
theorem wrappedFires : ∃ (s : State (Fin 3)) (m' : Manager (Fin 3)), deadline s.manager 2 = 2 ^ 64 - 2 ∧
    deadline s.manager 0 = 2 ^ 64 + 2 ∧ deadline s.manager 1 = 2 ^ 64 + 2 ∧
    fireExpired s.manager (.ok (2 ^ 64 + 2)) (fun n => if n = 0 then .ok else if n = 1 then .nomem else .busy) =
      some (m', [2, 0, 1], .nomem) ∧
    deadline m' 0 = 2 ^ 64 + 7 ∧ isRunning m' 1 = false ∧ isRunning m' 2 = false := by
  obtain ⟨s, reach, zero, one, two, clock, created, repeats0, repeats1, repeats2, next, inside, evaluated⟩ := acrossWrapReached
    (P := fun s => deadline s.manager 0 = 2 ^ 64 + 2 ∧ deadline s.manager 1 = 2 ^ 64 + 2 ∧ deadline s.manager 2 = 2 ^ 64 - 2 ∧
      s.manager.clock = 2 ^ 64 - 3 ∧ (∀ t, (s.manager.timers t).mutexInitialized = true) ∧
      repeats (s.manager.timers 0) = true ∧ repeats (s.manager.timers 1) = false ∧ repeats (s.manager.timers 2) = false ∧
      nextDeadline s.manager 0 (2 ^ 64 + 2) = 2 ^ 64 + 7 ∧ (∀ t, ((2 ^ 64 + 2 : Nat) : Int) < deadline s.manager t + 2 ^ 63) ∧
      (fireExpired s.manager (.ok (2 ^ 64 + 2)) (fun n => if n = 0 then .ok else if n = 1 then .nomem else .busy)).map Prod.snd =
        some ([2, 0, 1], .nomem)) (by decide +kernel)
  obtain ⟨m', fired, ran, -, -, -, timers⟩ := fireExpiredExact reach (by rw [clock]; decide) (fun t _ => inside t)
    fun n => if n = 0 then .ok else if n = 1 then .nomem else .busy
  rw [ran, Option.map_some, Option.some.injEq, Prod.mk.injEq] at evaluated
  obtain ⟨order, error⟩ := evaluated
  rw [error] at ran
  rw [order] at ran timers
  refine ⟨s, m', two, zero, one, ran, ?_, (timers 1 (created 1)).once (by decide) repeats1,
    (timers 2 (created 2)).once (by decide) repeats2⟩
  rw [((timers 0 (created 0)).again (by decide) repeats0).2.1, next]

end Nanosig.TimerMgr
