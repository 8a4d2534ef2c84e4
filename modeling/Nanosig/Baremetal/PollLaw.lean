import Nanosig.Baremetal.Rounds

/-! What a whole call of `ns_loop_poll` does: it ends, the ring is empty, every record in it
was called once, and a poll that stops before its last round leaves no timer due. -/
namespace Nanosig.Baremetal

open TimerMgr MpscRecordRing TransitionSystem

variable {abi : Abi} {τ σ κ : Type} [DecidableEq τ] {w : Setting τ σ} {s s' : Context abi τ σ κ} {before : Prop}

def NothingDue (before : Prop) (s : Context abi τ σ κ) : Prop :=
  InTime before s → ∀ m reading, s.reads.getLast? = some (m, .ok reading) →
    ∀ t, Running s.manager t → (reading : Int) < deadline s.manager t

/- The context behind `ns_timer_mgr_next_timeout`. -/
def afterTimeout (w : Setting τ σ) (s : Context abi τ σ κ) : Context abi τ σ κ :=
  { noteRead w s with manager := (nextTimeout s.manager (nextRead w s)).1 }

theorem afterTimeoutKept (kept : Kept before s) : Kept before (afterTimeout w s) := by
  obtain ⟨L, linked⟩ := kept.linked
  refine ⟨⟨L, ?_⟩, fun inTime => ?_⟩
  · exact Threads.nextTimeoutLinked linked _
  · obtain ⟨L, ages, scheduled⟩ := kept.scheduled (inTime.earlier (List.prefix_append ..))
    exact ⟨L, ages, (nextTimeoutServed scheduled ((show InTime before (noteRead w s) from inTime).allowed)).scheduled⟩

theorem stopsSettled (kept : Kept before s) (stops : (nextTimeout s.manager (nextRead w s)).2 ≠ (.ok, some 0)) :
    NothingDue before (afterTimeout w s) := by
  intro inTime m reading last t running
  have read : nextRead w s = .ok reading := by
    have final : (afterTimeout w s).reads.getLast? = some (s.manager, nextRead w s) := List.getLast?_concat ..
    exact (Prod.mk.inj (Option.some.inj (final.symm.trans last))).2
  obtain ⟨L, ages, scheduled⟩ := kept.scheduled (inTime.earlier (List.prefix_append ..))
  have allowed : ReadingAllowed s.manager (nextRead w s) := (show InTime before (noteRead w s) from inTime).allowed
  have ordered := (nextTimeoutServed scheduled allowed).scheduled.ordered
  have manager : (afterTimeout w s).manager = (refreshNow s.manager (.ok reading)).1 := by
    rw [afterTimeout, nextTimeoutManager, read]
  rw [read] at stops
  rw [read, nextTimeoutManager] at ordered
  rw [manager] at running ⊢
  have member := (ordered.runningIff running.1).mp running.2
  have answer := nextTimeoutAnswer scheduled.ordered.toArmed reading
  cases first : L.head? with
  | none => simp [List.head?_eq_none_iff.mp first] at member
  | some x =>
    rw [first] at answer
    have ahead : 0 < remaining (refreshNow s.manager (.ok reading)).1 x := by
      by_contra isDue
      refine stops (answer.trans ?_)
      have zero : (max 0 (remainingUs (s.manager.timers x).expireUs (reading % uint64Modulus))).toNat = 0 := by
        have : remainingUs (s.manager.timers x).expireUs (reading % uint64Modulus) ≤ 0 := not_lt.mp isDue
        omega
      exact congrArg (fun us => (Status.ok, some us)) zero
    have least : remaining (refreshNow s.manager (.ok reading)).1 x ≤ remaining (refreshNow s.manager (.ok reading)).1 t := by
      have sorted := ordered.sorted
      rw [(headErase first).2.2] at sorted member
      rcases List.mem_cons.mp member with rfl | later
      · exact le_refl _
      · exact (List.pairwise_cons.mp sorted).1 t later
    have clock : (refreshNow s.manager (.ok reading)).1.clock = reading := rfl
    rw [deadline, clock]
    omega

variable [DecidableEq σ]

structure Round (before : Prop) (w : Setting τ σ) (s s' : Context abi τ σ κ) (fired : List τ) (result : Status) : Prop where
  kept : Kept before s'
  resting : Resting s'.signals
  reads : (noteRead w s).reads <+: s'.reads
  emitted : s.signals.emitted () <+: s'.signals.emitted ()
  called : s'.signals.called () = s'.signals.emitted ()
  rounds : s'.rounds = s.rounds ++ [(fired, result)]
  due : FiresDue before w s fired

theorem roundRuns (kept : Kept before s) (resting : Resting s.signals) :
    ∃ s1 fired result s', fireExpired w s = some (s1, fired, result) ∧
      dispatchPending w { s1 with rounds := s1.rounds ++ [(fired, result)] } = some s' ∧ Round before w s s' fired result := by
  obtain ⟨m1, signals1, fired, result, ran, pushes, kept1, due⟩ := fireExpiredKept (w := w) kept resting.inv
  have resting1 : Resting signals1 := ⟨pushes.inv, pushes.held.trans resting.free⟩
  obtain ⟨s', drains, drained⟩ := dispatchFromDrains (w := w)
    (s := { noteRead w s with manager := m1, signals := signals1, rounds := s.rounds ++ [(fired, result)] })
    ((signals1.queues ()).window.length + 1) ⟨kept1.linked, kept1.scheduled⟩ resting1 (by rw [resting1.window]; exact Nat.lt_succ_self _)
  refine ⟨_, fired, result, s', ran, drains, drained.kept, drained.resting, drained.reads, ?_, drained.called, drained.rounds, due⟩
  rw [drained.emitted]
  exact pushes.emitted

structure Polled (before : Prop) (w : Setting τ σ) (left : Nat) (s s' : Context abi τ σ κ) (more : List (List τ × Status)) : Prop where
  resting : Resting s'.signals
  emitted : s.signals.emitted () <+: s'.signals.emitted ()
  called : s'.signals.called () = s'.signals.emitted ()
  rounds : s'.rounds = s.rounds ++ more
  most : more.length ≤ left
  first : ∃ fired result rest, more = (fired, result) :: rest ∧ FiresDue before w s fired
  settled : more.length < left → NothingDue before s'

theorem pollRound (left : Nat) (kept : Kept before s) (resting : Resting s.signals) (rc : Status) :
    ∃ s2 fired result, Round before w s s2 fired result ∧
      (pollFrom w (left + 1) s rc = some (afterTimeout w s2, keepFirst rc result) ∧ NothingDue before (afterTimeout w s2) ∨
        pollFrom w (left + 1) s rc = pollFrom w left (afterTimeout w s2) (keepFirst rc result)) := by
  obtain ⟨s1, fired, result, s2, fires, drains, round⟩ := roundRuns (w := w) kept resting
  refine ⟨s2, fired, result, round, ?_⟩
  have stops := stopsSettled (w := w) round.kept
  rw [pollFrom, fires, Option.bind_some]
  dsimp only
  rw [drains, Option.bind_some]
  unfold afterTimeout at stops ⊢
  generalize nextTimeout s2.manager (nextRead w s2) = answer at stops ⊢
  obtain ⟨m, code, timeout⟩ := answer
  by_cases again : (code, timeout) = (.ok, some 0)
  · cases again
    exact .inr rfl
  · refine .inl ⟨?_, stops again⟩
    cases code with
    | ok =>
      cases timeout with
      | none => rfl
      | some nextUs =>
        have later : nextUs > 0 := Nat.pos_of_ne_zero fun zero => again (by rw [zero])
        exact if_pos later
    | _ => rfl

theorem pollFromEnds (left : Nat) (kept : Kept before s) (resting : Resting s.signals) (rc : Status) :
    ∃ s' more, pollFrom w (left + 1) s rc = some (s', (more.map Prod.snd).foldl keepFirst rc) ∧ Polled before w (left + 1) s s' more := by
  induction left generalizing s rc with
  | zero =>
    obtain ⟨s2, fired, result, round, ends⟩ := pollRound (w := w) 0 kept resting rc
    refine ⟨afterTimeout w s2, [(fired, result)], ?_, round.resting, round.emitted, round.called, round.rounds, Nat.le_refl 1,
      ⟨fired, result, [], rfl, round.due⟩, fun more => absurd more (Nat.lt_irrefl 1)⟩
    rcases ends with ⟨ran, -⟩ | ran
    · exact ran
    · exact ran
  | succ left ih =>
    obtain ⟨s2, fired, result, round, ends⟩ := pollRound (w := w) (left + 1) kept resting rc
    rcases ends with ⟨ran, settled⟩ | ran
    · exact ⟨afterTimeout w s2, [(fired, result)], ran, round.resting, round.emitted, round.called, round.rounds,
        Nat.succ_le_succ (Nat.zero_le _), ⟨fired, result, [], rfl, round.due⟩, fun _ => settled⟩
    · obtain ⟨s', more, rest, polled⟩ := ih (s := afterTimeout w s2) (afterTimeoutKept round.kept) round.resting (keepFirst rc result)
      refine ⟨s', (fired, result) :: more, ran.trans rest, polled.resting, round.emitted.trans polled.emitted, polled.called, ?_,
        Nat.succ_le_succ polled.most, ⟨fired, result, more, rfl, round.due⟩, fun less => polled.settled (Nat.lt_of_succ_lt_succ less)⟩
      have rounds : (afterTimeout w s2).rounds = s.rounds ++ [(fired, result)] := round.rounds
      rw [polled.rounds, rounds, List.append_assoc]
      rfl

def entry (manager : Manager τ) (signals : Signal.State abi σ κ Unit) : Context abi τ σ κ :=
  ⟨true, true, manager, signals, [], []⟩

structure PollLaw (before : Prop) (w : Setting τ σ) (maxRounds maxWaitUs : Nat) (s s' : Context abi τ σ κ) (rc : Status) : Prop where
  rounds : 0 < s'.rounds.length ∧ s'.rounds.length ≤ maxRound maxRounds maxWaitUs
  empty : (s'.signals.queues ()).window = [] ∧ (s'.signals.queues ()).held = none
  calledOnce : ∃ pushed, s'.signals.emitted () = s.signals.emitted () ++ pushed ∧
    s'.signals.called () = s.signals.called () ++ queued s.signals ++ pushed
  returned : rc = ((s'.rounds.map Prod.snd).find? (fun rc => rc ≠ .ok)).getD .ok
  fired : before → ∀ reading, w.clock 0 = .ok reading → ReadingAllowed s.manager (.ok reading) →
    ∃ fired result rest, s'.rounds = (fired, result) :: rest ∧ fired.Nodup ∧
      ∀ t, t ∈ fired ↔ Running s.manager t ∧ deadline s.manager t ≤ reading
  settled : s'.rounds.length < maxRound maxRounds maxWaitUs → NothingDue before s'

variable [DecidableEq κ]

/- A poll of any timers, connections and records, with any clock and any slots. -/
theorem loopPollLaw {timers : TimerMgr.State τ} {signals : Signal.State abi σ κ Unit}
    (timersReach : Reachable TimerMgr.Starts TimerMgr.step AnyClock timers)
    (signalsReach : Reachable Signal.Starts Signal.step Signal.Unlinked signals) (between : (signals.queues ()).held = none)
    (w : Setting τ σ) {maxRounds : Nat} (positive : 0 < maxRounds) (maxWaitUs : Nat) :
    ∃ s' rc, loopPoll w maxRounds (entry timers.manager signals) .bmLoop maxWaitUs = some (s', rc) ∧
      PollLaw (Reachable TimerMgr.Starts TimerMgr.step Allowed timers) w maxRounds maxWaitUs (entry timers.manager signals) s' rc := by
  obtain ⟨L, linked⟩ := reachableLinked timersReach
  have inv := Signal.invReachable signalsReach
  have kept : Kept (Reachable TimerMgr.Starts TimerMgr.step Allowed timers) (entry timers.manager signals) := by
    refine ⟨⟨L, linked⟩, fun inTime => ?_⟩
    obtain ⟨L, scheduled⟩ := reachableScheduled inTime.1
    exact ⟨L, _, scheduled⟩
  obtain ⟨left, limit⟩ : ∃ left, maxRound maxRounds maxWaitUs = left + 1 :=
    ⟨maxRound maxRounds maxWaitUs - 1, by unfold maxRound; split <;> omega⟩
  obtain ⟨s', more, ran, polled⟩ := pollFromEnds (w := w) left kept ⟨inv, between⟩ .ok
  have rounds : s'.rounds = more := polled.rounds
  obtain ⟨fired, result, rest, first, due⟩ := polled.first
  refine ⟨s', _, by rw [loopPoll, limit]; exact ran, ?_⟩
  constructor
  · rw [rounds, limit]
    exact ⟨by rw [first]; exact Nat.succ_pos _, polled.most⟩
  · refine ⟨List.eq_nil_of_length_eq_zero ?_, polled.resting.free⟩
    rw [polled.resting.window, queued, polled.called, List.drop_length]
    rfl
  · obtain ⟨pushed, same⟩ := polled.emitted
    refine ⟨pushed, same.symm, ?_⟩
    have before : signals.called () ++ queued signals = signals.emitted () := by
      have called := inv.called ()
      rw [← inv.calledLength ()] at called
      rw [queued]
      conv_lhs => lhs; rw [called]
      exact List.take_append_drop ..
    rw [polled.called, ← same]
    exact congrArg (· ++ pushed) before.symm
  · rw [rounds]
    exact keepFirstFind _
  · intro before reading read allowed
    have reads (here : Manager τ × ClockRead) (member : here ∈ (noteRead w (entry timers.manager signals)).reads) :
        ReadingAllowed here.1 here.2 := by
      have only : here = (timers.manager, w.clock 0) := List.mem_singleton.mp member
      rw [only, read]
      exact allowed
    obtain ⟨distinct, exact_⟩ := due reading read ⟨before, reads⟩
    exact ⟨fired, result, rest, rounds.trans first, distinct, exact_⟩
  · rw [rounds, limit]
    exact polled.settled

section Runs

def oneSignal (ring : Ring) : Signal.State .lp64 Unit Unit Unit where
  links := ⟨fun a => some a, fun a => some a⟩
  payloadSize := fun _ => 0
  connections := fun _ => none
  queues := fun _ => .initial ring
  connected := fun _ => []
  emitted := fun _ => []
  called := fun _ => []

theorem oneSignalStarts {ring : Ring} (made : init .lp64 4096 (fun _ => 0) 128 = some ring) : Signal.Starts (oneSignal ring) :=
  ⟨fun _ => ⟨rfl, rfl⟩, fun _ => rfl, fun _ => ⟨4096, fun _ => 0, 128, ring, made, rfl⟩, fun _ => rfl, fun _ => rfl, fun _ => rfl⟩

def connectThenEmit : List (Signal.Action .lp64 Unit Unit Unit) :=
  [.connect () ⟨11, 12, by decide, by decide⟩ () (), .emit () (.null .lp64) 2]

def steady (reading : Nat) (t : τ) : Setting τ Unit := ⟨fun _ => (), fun _ => .ok reading, fun _ => [.restart t]⟩

/- A record is in the ring when the timer of `wrappedState` is due. -/
theorem wrappedPoll : ∃ signals : Signal.State .lp64 Unit Unit Unit, signals.emitted () = [⟨11, 12, none⟩] ∧ signals.called () = [] ∧
    ∃ s' rc, loopPoll (steady (2 ^ 64 + 4) 0) 4 (entry wrappedState.manager signals) .bmLoop 1 = some (s', rc) ∧
      PollLaw (Reachable TimerMgr.Starts TimerMgr.step Allowed wrappedState) (steady (2 ^ 64 + 4) 0) 4 1
        (entry wrappedState.manager signals) s' rc := by
  have evaluated : ((init .lp64 4096 (fun _ => 0) 128).any fun ring =>
      (executeAllowed Signal.step Signal.Unlinked (oneSignal ring) connectThenEmit).any fun s =>
        s.emitted () = [⟨11, 12, none⟩] ∧ s.called () = [] ∧ (s.queues ()).held = none) = true := by
    decide +kernel
  obtain ⟨ring, made, rest⟩ := (Option.any_eq_true _ _).mp evaluated
  obtain ⟨signals, ran, checked⟩ := (Option.any_eq_true _ _).mp rest
  obtain ⟨emitted, called, between⟩ := of_decide_eq_true checked
  exact ⟨signals, emitted, called, loopPollLaw (wrappedReachable.mono fun _ _ => anyClockOfAllowed)
    (executeAllowedReachable (.start (oneSignalStarts made)) ran) between (steady (2 ^ 64 + 4) 0) (by decide) 1⟩

def noTimers : TimerMgr.State Bool := ⟨⟨fun _ => ⟨false, 0, 0, 0, 0⟩, Rbtree.init, 0, 0⟩, []⟩

def startTwo : List (TimerMgr.Action Bool) :=
  [.init false 1 0 .ok, .init true 5 0 .ok, .start false (.ok 0), .start true (.ok 0)]

/- When the clock reads `2^63 + 3` the first timer seems to be far ahead and hides the second: the
poll fires nothing and stops after one round of four. -/
theorem clockJumpSkipsDue : ∃ (timers : TimerMgr.State Bool) (signals : Signal.State .lp64 Unit Unit Unit),
    Reachable TimerMgr.Starts TimerMgr.step AnyClock timers ∧ Reachable Signal.Starts Signal.step Signal.Unlinked signals ∧
      (signals.queues ()).held = none ∧ timers.manager.clock ≤ 2 ^ 63 + 3 ∧
      Running timers.manager true ∧ deadline timers.manager true ≤ 2 ^ 63 + 3 ∧
      ∃ s' rc, loopPoll (steady (2 ^ 63 + 3) true) 4 (entry timers.manager signals) .bmLoop 1 = some (s', rc) ∧ s'.rounds = [([], .ok)] ∧
        Running s'.manager true ∧ deadline s'.manager true ≤ 2 ^ 63 + 3 := by
  have evaluated : ((init .lp64 4096 (fun _ => 0) 128).any fun ring =>
      (executeAllowed TimerMgr.step AnyClock noTimers startTwo).any fun timers =>
        timers.manager.clock ≤ 2 ^ 63 + 3 ∧ Running timers.manager true ∧ deadline timers.manager true ≤ 2 ^ 63 + 3 ∧
          (loopPoll (steady (2 ^ 63 + 3) true) 4 (entry timers.manager (oneSignal ring)) .bmLoop 1).any fun ended =>
            ended.1.rounds = [([], .ok)] ∧ Running ended.1.manager true ∧ deadline ended.1.manager true ≤ 2 ^ 63 + 3) = true := by
    decide +kernel
  obtain ⟨ring, made, rest⟩ := (Option.any_eq_true _ _).mp evaluated
  obtain ⟨timers, ran, checked⟩ := (Option.any_eq_true _ _).mp rest
  obtain ⟨forward, running, due, polls⟩ := of_decide_eq_true checked
  obtain ⟨⟨s', rc⟩, polled, after⟩ := (Option.any_eq_true _ _).mp polls
  obtain ⟨rounds, running', due'⟩ := of_decide_eq_true after
  have starts : TimerMgr.Starts noTimers := ⟨rfl, rfl, rfl, rfl, rfl, rfl, fun _ => rfl⟩
  exact ⟨timers, oneSignal ring, executeAllowedReachable (.start starts) ran, .start (oneSignalStarts made), rfl, forward, running, due,
    s', rc, polled, rounds, running', due'⟩

end Runs

end Nanosig.Baremetal
