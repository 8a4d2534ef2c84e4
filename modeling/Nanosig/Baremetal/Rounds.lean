import Nanosig.Baremetal.Poll
import Nanosig.TimerMgr.AnyClock

/-! What one round of a poll keeps: the timers stay linked, and in order while the clock is in
time; the ring is drained, and every record in it called in order. -/
namespace Nanosig.Baremetal

open TimerMgr MpscRecordRing

variable {abi : Abi} {τ σ κ : Type} [DecidableEq τ] {w : Setting τ σ} {s s' : Context abi τ σ κ} {before : Prop}

/- No reading went back or found a running timer overdue by `2^63` or more; `before` says so
of the readings before the poll. -/
def InTime (before : Prop) (s : Context abi τ σ κ) : Prop := before ∧ ∀ read ∈ s.reads, ReadingAllowed read.1 read.2

theorem InTime.earlier (inTime : InTime before s') (reads : s.reads <+: s'.reads) : InTime before s :=
  ⟨inTime.1, fun read member => inTime.2 read (reads.subset member)⟩

theorem InTime.allowed (inTime : InTime before (noteRead w s)) : ReadingAllowed s.manager (nextRead w s) :=
  inTime.2 (s.manager, nextRead w s) (List.mem_append_right _ (List.mem_singleton_self _))

structure Kept (before : Prop) (s : Context abi τ σ κ) : Prop where
  linked : ∃ L, Linked s.manager L
  scheduled : InTime before s → ∃ L ages, Scheduled s.manager L ages

section Actions

variable {m : Manager τ} {L ages : List τ} {clock : ClockRead}

theorem failedAllowed (m : Manager τ) : ReadingAllowed m (.error .inval) :=
  ⟨fun _ other => (by cases other), fun _ other => (by cases other), fun _ same => (by cases same; decide)⟩

theorem startUnread {t : τ} (unread : ¬readsClock m (.start t) = true) (clock : ClockRead) :
    start m t clock = start m t (.error .inval) := by
  unfold start startLocked
  by_cases valid : validateUserInput (m.timers t) = .ok
  · have running : isRunning m t = true := by simpa [readsClock, valid] using unread
    simp [valid, running]
  · simp [valid]

theorem restartUnread {t : τ} (unread : ¬readsClock m (.restart t) = true) (clock : ClockRead) :
    restart m t clock = restart m t (.error .inval) := by
  have invalid : validateUserInput (m.timers t) ≠ .ok := by simpa [readsClock] using unread
  simp [restart, invalid]

theorem actionLinked (linked : Linked m L) (clock : ClockRead) (a : SlotAction τ) :
    ∃ ended L', runAction m clock a = some ended ∧ Linked ended.1 L' := by
  cases a with
  | start t => exact startLinked linked t clock
  | cancel t => exact cancelLinked linked t
  | restart t => exact restartLinked linked t clock

theorem actionScheduled (scheduled : Scheduled m L ages) (a : SlotAction τ)
    (allowed : readsClock m a = true → ReadingAllowed m clock) :
    ∃ ended L' ages', runAction m clock a = some ended ∧ Scheduled ended.1 L' ages' := by
  have serves {t : τ} {links : Bool} {call : Option (Manager τ × Status × Bool)} (served : Serves m L ages t links call) :
      ∃ ended L' ages', call = some ended ∧ Scheduled ended.1 L' ages' := by
    obtain ⟨m', rc, notified, L', ran, served, -⟩ := served
    exact ⟨_, L', _, ran, served.scheduled⟩
  cases a with
  | start t =>
    by_cases read : readsClock m (.start t) = true
    · exact serves (startServed scheduled t (allowed read))
    · exact serves (startUnread read clock ▸ startServed scheduled t (failedAllowed m))
  | cancel t => exact serves (cancelServed scheduled t)
  | restart t =>
    by_cases read : readsClock m (.restart t) = true
    · exact serves (restartServed scheduled t (allowed read))
    · exact serves (restartUnread read clock ▸ restartServed scheduled t (failedAllowed m))

end Actions

structure Quiet (before : Prop) (s s' : Context abi τ σ κ) : Prop where
  kept : Kept before s'
  reads : s.reads <+: s'.reads
  signals : s'.signals = s.signals
  rounds : s'.rounds = s.rounds

theorem callTimerQuiet (kept : Kept before s) (a : SlotAction τ) : ∃ s', callTimer w s a = some s' ∧ Quiet before s s' := by
  obtain ⟨L, linked⟩ := kept.linked
  obtain ⟨ended, L', ran, linked'⟩ := actionLinked linked (nextRead w s) a
  obtain ⟨base, same⟩ : ∃ base, base = if readsClock s.manager a then noteRead w s else s := ⟨_, rfl⟩
  have called : callTimer w s a = some { base with manager := ended.1 } := by rw [callTimer, ran, same]; rfl
  have frame : s.reads <+: base.reads ∧ base.signals = s.signals ∧ base.rounds = s.rounds := by
    rw [same]
    split
    · exact ⟨List.prefix_append .., rfl, rfl⟩
    · exact ⟨List.prefix_refl _, rfl, rfl⟩
  refine ⟨_, called, ⟨⟨L', linked'⟩, fun inTime => ?_⟩, frame.1, frame.2.1, frame.2.2⟩
  obtain ⟨L, ages, scheduled⟩ := kept.scheduled (InTime.earlier inTime frame.1)
  have allowed (read : readsClock s.manager a = true) : ReadingAllowed s.manager (nextRead w s) :=
    inTime.2 (s.manager, nextRead w s) (by simp [same, read, noteRead])
  obtain ⟨ended', L', ages', ran', scheduled'⟩ := actionScheduled scheduled a allowed
  cases ran.symm.trans ran'
  exact ⟨L', ages', scheduled'⟩

theorem runSlotQuiet (kept : Kept before s) (actions : List (SlotAction τ)) : ∃ s', runSlot w s actions = some s' ∧ Quiet before s s' := by
  induction actions generalizing s with
  | nil => exact ⟨s, rfl, kept, List.prefix_refl _, rfl, rfl⟩
  | cons a rest ih =>
    obtain ⟨s1, called, first⟩ := callTimerQuiet (w := w) kept a
    obtain ⟨s', ran, more⟩ := ih first.kept
    refine ⟨s', ?_, more.kept, first.reads.trans more.reads, more.signals.trans first.signals, more.rounds.trans first.rounds⟩
    rw [runSlot, List.foldlM_cons, called]
    exact ran

section Firing

variable [DecidableEq σ] {signals signals' : Signal.State abi σ κ Unit}

structure Pushes (signals signals' : Signal.State abi σ κ Unit) : Prop where
  inv : Signal.Inv signals'
  called : signals'.called = signals.called
  held : (signals'.queues ()).held = (signals.queues ()).held
  emitted : signals.emitted () <+: signals'.emitted ()

omit [DecidableEq τ] in
theorem emitTimerPushes (inv : Signal.Inv signals) (timer : τ) :
    ∃ signals' rc, emitTimer w signals timer = some (signals', rc) ∧ Pushes signals signals' := by
  by_cases accepted : Signal.emitRawAccepts (signals.payloadSize (w.signal timer)) (Part.null abi) = true
  · obtain ⟨signals', rc, ran, ends, inv'⟩ := Signal.emitSpec inv (w.signal timer) (.null abi) (Nat.lt_succ_self _) accepted
    have emits : ∃ sent, Signal.Emits (Part.null abi) sent signals signals' := by
      cases ends with
      | all emits => exact ⟨_, emits⟩
      | failed sent after c conn rc failed split given push emits => exact ⟨_, emits⟩
    obtain ⟨sent, emits⟩ := emits
    exact ⟨signals', rc, ran, inv', emits.called, emits.held (), by rw [emits.emitted]; exact List.prefix_append ..⟩
  · exact ⟨signals, .inval, by rw [emitTimer, Signal.emitRaw, if_neg accepted], inv, rfl, rfl, List.prefix_refl _⟩

omit [DecidableEq σ] in
theorem Pushes.refl (inv : Signal.Inv signals) : Pushes signals signals := ⟨inv, rfl, rfl, List.prefix_refl _⟩

theorem fireFromFollows (fuel : Nat) (inv : Signal.Inv s.signals) (fired : List τ) (firstError : Status) :
    ∃ (results : Nat → Status) (signals' : Signal.State abi σ κ Unit), Pushes s.signals signals' ∧ ∀ emit : Nat → Status, (∀ n, fired.length ≤ n → emit n = results n) →
      fireFrom w fuel s fired firstError = (TimerMgr.fireFrom emit fuel s.manager fired firstError).map fun ended =>
        ({ s with manager := ended.1, signals := signals' }, ended.2.1, ended.2.2) := by
  induction fuel generalizing s fired firstError with
  | zero => exact ⟨fun _ => .ok, s.signals, .refl inv, fun emit _ => rfl⟩
  | succ fuel ih =>
    cases leftmost : s.manager.tree.rbLeftmost with
    | none => exact ⟨fun _ => .ok, s.signals, .refl inv, fun emit _ => by simp [fireFrom, TimerMgr.fireFrom, leftmost]⟩
    | some t =>
      by_cases ahead : remaining s.manager t > 0
      · exact ⟨fun _ => .ok, s.signals, .refl inv, fun emit _ => by simp [fireFrom, TimerMgr.fireFrom, leftmost, ahead]⟩
      cases disarmed : disarm s.manager t with
      | none =>
        exact ⟨fun _ => .ok, s.signals, .refl inv, fun emit _ => by simp [fireFrom, TimerMgr.fireFrom, leftmost, ahead, disarmed]⟩
      | some mid =>
        obtain ⟨signals1, rc1, emitted, pushes1⟩ := emitTimerPushes (w := w) inv t
        cases reloaded : reload mid.1 t (s.manager.timers t).expireUs with
        | none =>
          exact ⟨fun _ => .ok, signals1, pushes1, fun emit _ => by
            simp [fireFrom, TimerMgr.fireFrom, leftmost, ahead, disarmed, emitted, reloaded]⟩
        | some m1 =>
          obtain ⟨results, signals', pushes, follows⟩ :=
            ih (s := { s with manager := m1, signals := signals1 }) pushes1.inv (fired ++ [t]) (keepFirst firstError rc1)
          refine ⟨fun n => if n = fired.length then rc1 else results n, signals', ⟨pushes.inv, pushes.called.trans pushes1.called,
            pushes.held.trans pushes1.held, pushes1.emitted.trans pushes.emitted⟩, fun emit agrees => ?_⟩
          have here : emit fired.length = rc1 := (agrees _ (Nat.le_refl _)).trans (if_pos rfl)
          have later (n : Nat) (more : (fired ++ [t]).length ≤ n) : emit n = results n := by
            rw [List.length_append, List.length_singleton] at more
            exact (agrees n (by omega)).trans (if_neg (by omega))
          simp only [fireFrom, TimerMgr.fireFrom, leftmost, ahead, if_false, disarmed, emitted, reloaded, Option.bind_some, here]
          exact follows emit later

/- `ns_timer_mgr_fire_expired` does to the timers what it does there with some results of the emits. -/
theorem fireExpiredFollows (inv : Signal.Inv s.signals) :
    ∃ emit signals', Pushes s.signals signals' ∧
      fireExpired w s = (TimerMgr.fireExpired s.manager (nextRead w s) emit).map fun ended =>
        ({ noteRead w s with manager := ended.1, signals := signals' }, ended.2.1, ended.2.2) := by
  rw [fireExpired]
  unfold TimerMgr.fireExpired
  generalize refreshNow s.manager (nextRead w s) = outcome
  obtain ⟨m, rc⟩ := outcome
  by_cases ok : rc = .ok
  · subst ok
    obtain ⟨results, signals', pushes, follows⟩ :=
      fireFromFollows (w := w) (s := { noteRead w s with manager := m }) (m.tree.linked + 1) inv [] .ok
    exact ⟨results, signals', pushes, follows results fun _ _ => rfl⟩
  · refine ⟨fun _ => .ok, s.signals, .refl inv, ?_⟩
    cases rc
    case ok => exact absurd rfl ok
    all_goals rfl

theorem fireExpiredRuns {L : List τ} (armed : Armed s.manager L) (inv : Signal.Inv s.signals) :
    ∃ m' signals' fired rc,
      fireExpired w s = some ({ noteRead w s with manager := m', signals := signals' }, fired, rc) ∧ Pushes s.signals signals' ∧
        ((refreshNow s.manager (nextRead w s)).2 = .ok → ∃ L', FireRun (refreshNow s.manager (nextRead w s)).1 L fired m' L') ∧
        ((refreshNow s.manager (nextRead w s)).2 ≠ .ok → m' = (refreshNow s.manager (nextRead w s)).1) := by
  have refreshed := armed.refresh (nextRead w s)
  obtain ⟨emit, signals', pushes, follows⟩ := fireExpiredFollows (w := w) inv
  rw [follows]
  unfold TimerMgr.fireExpired
  generalize refreshNow s.manager (nextRead w s) = outcome at refreshed
  obtain ⟨m, rc⟩ := outcome
  by_cases ok : rc = .ok
  · subst ok
    have linked : m.tree.linked = L.length := refreshed.valid.linked
    have bound : (L.filter (due m)).length < m.tree.linked + 1 := by
      rw [linked]
      exact Nat.lt_succ_of_le (List.length_filter_le ..)
    obtain ⟨m', L', fired, ran, run⟩ := fireFromSpec (m.tree.linked + 1) refreshed emit bound [] .ok
    dsimp only
    rw [ran]
    exact ⟨m', signals', fired, _, rfl, pushes, fun _ => ⟨L', run⟩, fun differs => absurd rfl differs⟩
  · refine ⟨m, signals', [], rc, ?_, pushes, fun same => absurd same ok, fun _ => rfl⟩
    cases rc
    case ok => exact absurd rfl ok
    all_goals rfl

def FiresDue (before : Prop) (w : Setting τ σ) (s : Context abi τ σ κ) (fired : List τ) : Prop :=
  ∀ reading, nextRead w s = .ok reading → InTime before (noteRead w s) →
    fired.Nodup ∧ ∀ t, t ∈ fired ↔ Running s.manager t ∧ deadline s.manager t ≤ reading

theorem fireExpiredScheduled {L ages : List τ} (scheduled : Scheduled s.manager L ages) (inv : Signal.Inv s.signals)
    (allowed : ReadingAllowed s.manager (nextRead w s)) {fired : List τ} {rc : Status}
    (ran : fireExpired w s = some (s', fired, rc)) :
    (∃ L' ages', Scheduled s'.manager L' ages') ∧ FiresDue before w s fired := by
  have ordered := scheduled.ordered
  obtain ⟨m', signals', fired', rc', ran', -, runs, stays⟩ := fireExpiredRuns (w := w) ordered.toArmed inv
  cases ran.symm.trans ran'
  cases read : nextRead w s with
  | error code =>
    rw [read] at stays
    have same := stays (allowed.fails code read)
    exact ⟨⟨L, ages, by rw [same]; exact scheduled⟩, fun reading other => by cases read.symm.trans other⟩
  | ok reading =>
    rw [read] at runs
    obtain ⟨L', run⟩ := runs rfl
    have within (x : τ) (member : x ∈ L) := allowed.within reading read x (ordered.running member)
    have refreshed := refreshServed scheduled (allowed.forward reading read) within
    have outcome := run.outcome refreshed.scheduled
    refine ⟨⟨L', _, outcome.scheduled⟩, fun reading' same _ => ?_⟩
    cases read.symm.trans same
    exact firedOnce scheduled (allowed.forward reading read) within run

theorem fireExpiredKept (kept : Kept before s) (inv : Signal.Inv s.signals) :
    ∃ m' signals' fired rc,
      fireExpired w s = some ({ noteRead w s with manager := m', signals := signals' }, fired, rc) ∧ Pushes s.signals signals' ∧
        Kept before { noteRead w s with manager := m', signals := signals' } ∧ FiresDue before w s fired := by
  obtain ⟨L, linked⟩ := kept.linked
  obtain ⟨m', signals', fired, rc, ran, pushes, runs, stays⟩ := fireExpiredRuns (w := w) linked.toArmed inv
  have fires (inTime : InTime before (noteRead w s)) : (∃ L' ages', Scheduled m' L' ages') ∧ FiresDue before w s fired := by
    obtain ⟨L, ages, scheduled⟩ := kept.scheduled (inTime.earlier (List.prefix_append ..))
    exact fireExpiredScheduled scheduled inv inTime.allowed ran
  refine ⟨m', signals', fired, rc, ran, pushes, ⟨?_, fun inTime => (fires inTime).1⟩, fun reading read inTime => (fires inTime).2 reading read inTime⟩
  by_cases ok : (refreshNow s.manager (nextRead w s)).2 = .ok
  · obtain ⟨L', run⟩ := runs ok
    exact ⟨L', (Threads.runSettles (linked.refresh _) run).1⟩
  · exact ⟨L, by rw [stays ok]; exact linked.refresh _⟩

end Firing

section Draining

def queued (signals : Signal.State abi σ κ Unit) : List Signal.SlotInvocation :=
  (signals.emitted ()).drop (signals.called ()).length

structure Resting (signals : Signal.State abi σ κ Unit) : Prop where
  inv : Signal.Inv signals
  free : (signals.queues ()).held = none

theorem Resting.window {signals : Signal.State abi σ κ Unit} (resting : Resting signals) :
    (signals.queues ()).window.length = (queued signals).length := by
  have records := resting.inv.sameLength ()
  have returned := resting.inv.calledLength ()
  rw [resting.free, Option.isSome_none, if_neg Bool.false_ne_true, Nat.add_zero] at returned
  rw [Signal.recordsOf, List.length_map] at records
  rw [State.window, queued, List.length_drop, List.length_drop, records, returned]

structure Drained (before : Prop) (s s' : Context abi τ σ κ) : Prop where
  kept : Kept before s'
  reads : s.reads <+: s'.reads
  resting : Resting s'.signals
  emitted : s'.signals.emitted = s.signals.emitted
  called : s'.signals.called () = s'.signals.emitted ()
  rounds : s'.rounds = s.rounds

theorem dispatchFromDrains (fuel : Nat) (kept : Kept before s) (resting : Resting s.signals) (enough : (queued s.signals).length < fuel) :
    ∃ s', dispatchFrom w fuel s = some s' ∧ Drained before s s' := by
  induction fuel generalizing s with
  | zero => omega
  | succ fuel ih =>
    obtain ⟨signals1, inv1, -, emitted1, held1, ran⟩ := Signal.acquireSpec resting.inv () resting.free
    cases here : (s.signals.emitted ())[(s.signals.called ()).length]? with
    | none =>
      rw [here] at held1 ran
      obtain ⟨ran, called1⟩ := ran
      have all := resting.inv.called ()
      rw [← resting.inv.calledLength (), List.take_of_length_le (List.getElem?_eq_none_iff.mp here)] at all
      refine ⟨{ s with signals := signals1 }, by rw [dispatchFrom, ran]; rfl, ⟨kept.linked, kept.scheduled⟩, List.prefix_refl _,
        ⟨inv1, by simpa using held1⟩, emitted1, ?_, rfl⟩
      rw [called1, emitted1, all]
    | some slot =>
      rw [here] at held1 ran
      obtain ⟨ran, called1⟩ := ran
      obtain ⟨loan, held⟩ := Option.isSome_iff_exists.mp held1
      obtain ⟨s2, slotRan, quiet⟩ := runSlotQuiet (w := w) (s := { s with signals := signals1 }) ⟨kept.linked, kept.scheduled⟩
        (w.slots (s.signals.called ()).length)
      obtain ⟨signals3, released, inv3, free3, -, emitted3, called3⟩ := Signal.releaseSpec inv1 () held
      have called : signals3.called () = s.signals.called () ++ [slot] := by rw [called3, called1, Function.update_self]
      have emitted : signals3.emitted = s.signals.emitted := emitted3.trans emitted1
      have fewer : (queued signals3).length < fuel := by
        have inside := (List.getElem?_eq_some_iff.mp here).1
        rw [queued, List.length_drop] at enough ⊢
        rw [emitted, called, List.length_append, List.length_singleton]
        omega
      obtain ⟨s', rest, drained⟩ := ih (s := { s2 with signals := signals3 }) ⟨quiet.kept.linked, quiet.kept.scheduled⟩ ⟨inv3, free3⟩ fewer
      refine ⟨s', ?_, drained.kept, quiet.reads.trans drained.reads, drained.resting, drained.emitted.trans emitted, drained.called,
        drained.rounds.trans quiet.rounds⟩
      rw [dispatchFrom, ran, Option.bind_some]
      dsimp only
      rw [slotRan, Option.bind_some, quiet.signals, released]
      exact rest

end Draining

end Nanosig.Baremetal
