import Nanosig.TimerMgr.Order

/-! What each public timer call does to an ordered tree: it stays ordered, and a
call that does not notify brings no deadline forward. -/
namespace Nanosig.TimerMgr

variable {τ : Type} [DecidableEq τ]

/- A created timer that `ns_timer_is_running` says runs. -/
def Running (m : Manager τ) (t : τ) : Prop := (m.timers t).mutexInitialized = true ∧ isRunning m t = true

/- A clock reading that does not go back, and finds no timer overdue by `2^63` or more. -/
structure ReadingAllowed (m : Manager τ) (clock : ClockRead) : Prop where
  forward : ∀ reading, clock = .ok reading → m.clock ≤ reading
  within : ∀ reading, clock = .ok reading → ∀ t, Running m t → (reading : Int) < deadline m t + 2 ^ 63
  fails : ∀ rc, clock = .error rc → rc ≠ .ok

def NoEarlier (m : Manager τ) (L : List τ) (m' : Manager τ) (L' : List τ) : Prop :=
  ∀ x ∈ L', ∃ y ∈ L, deadline m y ≤ deadline m' x

omit [DecidableEq τ] in
theorem NoEarlier.refl (m : Manager τ) (L : List τ) : NoEarlier m L m L := fun x member => ⟨x, member, le_refl _⟩

omit [DecidableEq τ] in
theorem NoEarlier.trans {m m' m'' : Manager τ} {L L' L'' : List τ} (first : NoEarlier m L m' L')
    (second : NoEarlier m' L' m'' L'') : NoEarlier m L m'' L'' := by
  intro x member
  obtain ⟨y, memberY, lessY⟩ := second x member
  obtain ⟨z, memberZ, lessZ⟩ := first y memberY
  exact ⟨z, memberZ, lessZ.trans lessY⟩

structure Scheduled (m : Manager τ) (L ages : List τ) : Prop where
  ordered : Ordered m L
  aged : Aged m L ages

structure Served (m : Manager τ) (L : List τ) (m' : Manager τ) (L' ages' : List τ) (notified : Bool) : Prop where
  scheduled : Scheduled m' L' ages'
  forward : m.clock ≤ m'.clock
  noEarlier : notified = false → NoEarlier m L m' L'

theorem Ordered.running {m : Manager τ} {L : List τ} (ordered : Ordered m L) {t : τ} (member : t ∈ L) : Running m t :=
  ⟨ordered.created t member, ordered.toArmed.running member⟩

theorem refreshServed {m : Manager τ} {L ages : List τ} (scheduled : Scheduled m L ages) {reading : Nat}
    (order : m.clock ≤ reading) (within : ∀ t ∈ L, (reading : Int) < deadline m t + 2 ^ 63) :
    Served m L (refreshNow m (.ok reading)).1 L ages false := by
  have ordered := scheduled.ordered
  refine ⟨⟨ordered.refresh order within, scheduled.aged.refresh ordered order within⟩, order,
    fun _ x member => ⟨x, member, ?_⟩⟩
  have moved : remaining (refreshNow m (.ok reading)).1 x = deadline m x - reading :=
    ordered.remainingAt order (within x member)
  rw [deadline.eq_def (refreshNow m (.ok reading)).1, moved]
  simp only [refreshNow]
  omega

theorem disarmServed {m m' : Manager τ} {L ages : List τ} {t : τ} (scheduled : Scheduled m L ages)
    (disarms : Disarms m L t m') : Served m L m' (L.erase t) (ages.erase t) false := by
  have ordered := scheduled.ordered
  refine ⟨⟨ordered.disarms disarms, scheduled.aged.disarms ordered.valid.nodup disarms⟩, disarms.clock.ge,
    fun _ x member => ⟨x, List.mem_of_mem_erase member, ?_⟩⟩
  rw [deadline, deadline, remaining, remaining, disarms.timers, disarms.now, disarms.clock]

theorem armServed {m m' : Manager τ} {L ages earlier later : List τ} {t : τ} {expireUs : Nat}
    (scheduled : Scheduled m L ages) (arms : Arms m L t expireUs m' earlier later) (fresh : t ∉ L)
    (created : (m.timers t).mutexInitialized = true) (within : -(2 ^ 63 : Int) < remainingUs expireUs m.now) :
    Served m L m' (earlier ++ t :: later) (ages ++ [t]) (decide (earlier = [])) := by
  have ordered := scheduled.ordered
  obtain ⟨notLess, less⟩ := ordered.armPlace arms fresh
  refine ⟨⟨ordered.arms arms fresh created within, scheduled.aged.arms arms fresh less⟩, arms.clock.ge,
    fun notLeftmost => ?_⟩
  have kept (x : τ) (member : x ∈ L) : deadline m' x = deadline m x := by
    rw [deadline, deadline, (armsKept arms fresh member).2, arms.clock]
  intro x member
  by_cases here : x = t
  · subst here
    cases front : earlier with
    | nil => simp [front] at notLeftmost
    | cons y rest =>
      have memberY : y ∈ L := by simp [arms.split, front]
      refine ⟨y, memberY, ?_⟩
      have before := notLess y (by simp [front])
      rw [← kept y memberY, deadline, deadline]
      omega
  · have memberX : x ∈ L := by
      rw [arms.split]
      simp only [List.mem_append, List.mem_cons] at member ⊢
      tauto
    exact ⟨x, memberX, (kept x memberX).ge⟩

theorem Served.trans {m m' m'' : Manager τ} {L L' L'' ages' ages'' : List τ} {notified : Bool}
    (first : Served m L m' L' ages' false) (second : Served m' L' m'' L'' ages'' notified) :
    Served m L m'' L'' ages'' notified :=
  ⟨second.scheduled, first.forward.trans second.forward, fun silent => (first.noEarlier rfl).trans (second.noEarlier silent)⟩

theorem Served.refl {m : Manager τ} {L ages : List τ} (scheduled : Scheduled m L ages) (notified : Bool) :
    Served m L m L ages notified := ⟨scheduled, le_refl _, fun _ => .refl m L⟩

omit [DecidableEq τ] in
theorem validCreated {timer : Timer} (valid : validateCreated timer = .ok) : timer.mutexInitialized = true := by
  unfold validateCreated at valid
  split at valid
  · contradiction
  · exact not_not.mp ‹_›

omit [DecidableEq τ] in
theorem intervalBounds {intervalUs : Nat} (valid : intervalIsValid intervalUs = true) :
    0 < intervalUs ∧ intervalUs ≤ int64Max := by
  have bounds : ¬(intervalUs = 0 ∨ intervalUs > int64Max) := of_decide_eq_true valid
  omega

omit [DecidableEq τ] in
theorem validInput {timer : Timer} (valid : validateUserInput timer = .ok) :
    timer.mutexInitialized = true ∧ 0 < timer.intervalUs ∧ timer.intervalUs ≤ int64Max := by
  unfold validateUserInput at valid
  split at valid
  · contradiction
  · rename_i created
    split at valid
    · contradiction
    · rename_i interval
      exact ⟨validCreated (not_not.mp created), intervalBounds (not_not.mp interval)⟩

theorem armFromNow {m : Manager τ} {L ages : List τ} {t : τ} {reading : Nat} (scheduled : Scheduled m L ages)
    (fresh : t ∉ L) (valid : validateUserInput (m.timers t) = .ok) (order : m.clock ≤ reading)
    (within : ∀ x ∈ L, (reading : Int) < deadline m x + 2 ^ 63) :
    ∃ m' L' notified, arm (refreshNow m (.ok reading)).1 t (expireFromNow (refreshNow m (.ok reading)).1 t) =
      some (m', notified) ∧ Served m L m' L' (ages ++ [t]) notified := by
  obtain ⟨created, interval⟩ := validInput valid
  have refreshed := refreshServed scheduled order within
  have ordered := refreshed.scheduled.ordered
  obtain ⟨m', earlier, later, armed, arms⟩ :=
    armSpec (expireFromNow (refreshNow m (.ok reading)).1 t) ordered.toArmed fresh interval
  have ahead : remainingUs (expireFromNow (refreshNow m (.ok reading)).1 t) (refreshNow m (.ok reading)).1.now =
      (m.timers t).intervalUs := remainingFromNow ordered.now interval.2
  exact ⟨m', _, _, armed, refreshed.trans (armServed refreshed.scheduled arms fresh created (by omega))⟩

def agesAfter (m m' : Manager τ) (ages : List τ) (t : τ) (linked : Bool) : List τ :=
  if linked then ages.erase t ++ [t]
  else if isRunning m t ∧ ¬isRunning m' t then ages.erase t
  else ages

theorem agesAfterSelf (m : Manager τ) (ages : List τ) (t : τ) : agesAfter m m ages t false = ages := by
  simp [agesAfter]

theorem agesAfterOthers (m m' : Manager τ) (ages : List τ) {t x : τ} (apart : x ≠ t) (linked : Bool) :
    x ∈ agesAfter m m' ages t linked ↔ x ∈ ages := by
  unfold agesAfter
  split
  · simp [List.mem_erase_of_ne apart, apart]
  · split
    · exact List.mem_erase_of_ne apart
    · rfl

/- A public call on `t` returns, and its tree is ordered. A call that links does so on
success, and only a success notifies. -/
def Serves (m : Manager τ) (L ages : List τ) (t : τ) (links : Bool) (call : Option (Manager τ × Status × Bool)) : Prop :=
  ∃ m' rc notified L', call = some (m', rc, notified) ∧
    Served m L m' L' (agesAfter m m' ages t (links && rc = .ok)) notified ∧ (notified = true → rc = .ok)

theorem servesUnchanged {m : Manager τ} {L ages : List τ} (scheduled : Scheduled m L ages) (t : τ) {links : Bool} {rc : Status}
    (fails : links = true → rc ≠ .ok) : Serves m L ages t links (some (m, rc, false)) := by
  refine ⟨m, rc, false, L, rfl, ?_, fun notified => absurd notified Bool.false_ne_true⟩
  have notLinked : (links && decide (rc = .ok)) = false := by
    cases links with
    | false => rfl
    | true => simp [fails rfl]
  rw [notLinked, agesAfterSelf]
  exact .refl scheduled false

theorem startServed {m : Manager τ} {L ages : List τ} (scheduled : Scheduled m L ages) (t : τ) {clock : ClockRead}
    (allowed : ReadingAllowed m clock) : Serves m L ages t true (start m t clock) := by
  have ordered := scheduled.ordered
  unfold start
  split
  · exact servesUnchanged scheduled t fun _ => ‹_›
  · rename_i valid
    have valid := not_not.mp valid
    unfold startLocked
    split
    · exact servesUnchanged scheduled t (by decide)
    · rename_i stopped
      have fresh : t ∉ L := fun member => stopped (ordered.toArmed.running member)
      cases clock with
      | error rc =>
        have fails := allowed.fails rc rfl
        cases rc
        case ok => exact absurd rfl fails
        all_goals exact servesUnchanged scheduled t (by decide)
      | ok reading =>
        obtain ⟨m', L', notified, armed, served⟩ := armFromNow scheduled fresh valid (allowed.forward reading rfl)
          fun x member => allowed.within reading rfl x (ordered.running member)
        refine ⟨m', .ok, notified, L', ?_, ?_, fun _ => rfl⟩
        · exact Option.map_eq_some_iff.mpr ⟨(m', notified), armed, rfl⟩
        · have unlisted : t ∉ ages := fun inside => fresh (scheduled.aged.perm.mem_iff.mpr inside)
          simpa [agesAfter, List.erase_of_not_mem unlisted] using served

theorem cancelServed {m : Manager τ} {L ages : List τ} (scheduled : Scheduled m L ages) (t : τ) :
    Serves m L ages t false (cancel m t) := by
  have ordered := scheduled.ordered
  unfold cancel
  split
  · exact servesUnchanged scheduled t fun links => absurd links Bool.false_ne_true
  · rename_i valid
    unfold cancelLocked
    split
    · exact servesUnchanged scheduled t (by decide)
    · rename_i running
      have running := not_not.mp running
      have member : t ∈ L := (ordered.runningIff (validCreated (not_not.mp valid))).mp running
      obtain ⟨m', disarmed, disarms⟩ := disarmSpec ordered.toArmed member
      have served := disarmServed scheduled disarms
      have stops : isRunning m' t = false := by simp [isRunning, disarms.stopped]
      refine ⟨m', .ok, _, L.erase t, by rw [disarmed]; rfl, ?_, fun _ => rfl⟩
      simp only [agesAfter, Bool.false_and, Bool.false_eq_true, if_false, running, stops, not_false_eq_true, and_self, if_true]
      exact ⟨served.scheduled, served.forward, fun _ => served.noEarlier rfl⟩

theorem restartUnlinks {m : Manager τ} {L ages : List τ} (scheduled : Scheduled m L ages) {t : τ}
    (created : (m.timers t).mutexInitialized = true) :
    ∃ m' L', (if isRunning m t then (disarm m t).map Prod.fst else some m) = some m' ∧
      Served m L m' L' (ages.erase t) false ∧ t ∉ L' ∧ L' ⊆ L ∧ m'.timers = m.timers ∧ m'.clock = m.clock ∧
      m'.now = m.now ∧ agesAfter m m' ages t false = ages.erase t := by
  have ordered := scheduled.ordered
  by_cases running : isRunning m t = true
  · have member : t ∈ L := (ordered.runningIff created).mp running
    obtain ⟨m', disarmed, disarms⟩ := disarmSpec ordered.toArmed member
    have stops : isRunning m' t = false := by simp [isRunning, disarms.stopped]
    exact ⟨m', L.erase t, by rw [if_pos running, disarmed]; rfl, disarmServed scheduled disarms,
      fun inside => (ordered.valid.nodup.mem_erase_iff.mp inside).1 rfl, List.erase_subset, disarms.timers,
      disarms.clock, disarms.now, by simp [agesAfter, running, stops]⟩
  · have fresh : t ∉ L := fun member => running (ordered.toArmed.running member)
    have unlisted : t ∉ ages := fun inside => fresh (scheduled.aged.perm.mem_iff.mpr inside)
    rw [List.erase_of_not_mem unlisted]
    exact ⟨m, L, if_neg running, .refl scheduled _, fresh, List.Subset.refl L, rfl, rfl, rfl, agesAfterSelf m ages t⟩

theorem restartServed {m : Manager τ} {L ages : List τ} (scheduled : Scheduled m L ages) (t : τ) {clock : ClockRead}
    (allowed : ReadingAllowed m clock) : Serves m L ages t true (restart m t clock) := by
  unfold restart
  split
  · exact servesUnchanged scheduled t fun _ => ‹_›
  · rename_i valid
    have valid := not_not.mp valid
    obtain ⟨m1, L1, unlinked, stopped, fresh, fewer, timers, clock1, now1, ages1⟩ :=
      restartUnlinks scheduled (validInput valid).1
    rw [restartLocked, unlinked]
    cases clock with
    | error rc =>
      have fails := allowed.fails rc rfl
      cases rc
      case ok => exact absurd rfl fails
      all_goals exact ⟨m1, _, false, L1, rfl, by simpa [ages1] using stopped, fun notified => nomatch notified⟩
    | ok reading =>
      have within (x : τ) (member : x ∈ L1) : (reading : Int) < deadline m1 x + 2 ^ 63 := by
        have bound := allowed.within reading rfl x (scheduled.ordered.running (fewer member))
        rwa [deadline, remaining, ← timers, ← clock1, ← now1] at bound
      obtain ⟨m', L', notified, armed, served⟩ :=
        armFromNow stopped.scheduled fresh (by rw [timers]; exact valid) (clock1 ▸ allowed.forward reading rfl) within
      refine ⟨m', .ok, notified, L', ?_, by simpa [agesAfter] using stopped.trans served, fun _ => rfl⟩
      exact Option.map_eq_some_iff.mpr ⟨(m', notified), armed, rfl⟩

theorem settingServed {m : Manager τ} {L ages : List τ} (scheduled : Scheduled m L ages) {t : τ} (fresh : t ∉ L)
    (value : Timer) (tree : Rbtree.Root τ) (root : tree.root = m.tree.root)
    (leftmost : tree.rbLeftmost = m.tree.rbLeftmost) (linked : tree.linked = m.tree.linked)
    (same : ∀ y, y ≠ t → LinkedTree.SameAt m.tree.toHeap tree.toHeap y)
    (stopped : value.mutexInitialized = true → Rbtree.nodeIsEmpty tree.toHeap t = true) :
    Served m L { setTimer m t value with tree := tree } L ages false := by
  have ordered := scheduled.ordered
  have apart (x : τ) (member : x ∈ L) : x ≠ t := fun e => fresh (e ▸ member)
  have others (x : τ) (away : x ≠ t) : (setTimer m t value).timers x = m.timers x := by simp [setTimer, away]
  have kept (x : τ) (member : x ∈ L) : remaining { setTimer m t value with tree := tree } x = remaining m x := by
    rw [remaining, remaining, others x (apart x member)]
    rfl
  have set := ordered.linked.setting fresh value tree root leftmost linked same stopped
  refine ⟨⟨{ set with wrapped := ordered.wrapped, sorted := ?_, within := fun x member => ?_ }, ⟨scheduled.aged.perm, ?_⟩⟩,
    le_refl _, fun _ x member => ⟨x, member, ?_⟩⟩
  · exact ordered.sorted.imp_of_mem fun {a b} memberA memberB less => by rwa [kept a memberA, kept b memberB]
  · rw [kept x member]
    exact ordered.within x member
  · exact scheduled.aged.stable.imp_of_mem fun {a b} memberA memberB older same => older (by rwa [kept a memberA, kept b memberB] at same)
  · exact (congrArg _ (kept x member)).ge

end Nanosig.TimerMgr
