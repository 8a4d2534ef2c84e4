import Nanosig.Lib.AlarmClock
import Nanosig.Lib.Simulation
import Nanosig.TimerMgr.FireExpired

/-! The timer manager is an alarm clock: its users see settings and alarms on a time that never
wraps. The clock below has no tree, no last reading, no 64-bit deadlines and no loops. -/
namespace Nanosig.TimerMgr
open TransitionSystem

variable {τ : Type} [DecidableEq τ]

structure Clock (τ : Type) where
  settings : τ → Timer
  alarms : AlarmClock.Alarms τ

namespace Clock

variable (c : Clock τ) (t : τ)

def isSet : Bool := t ∈ c.alarms.map Prod.fst

def arm (reading : Nat) : Clock τ × Bool :=
  let alarms := AlarmClock.set c.alarms t (reading + (c.settings t).intervalUs)
  (⟨c.settings, alarms⟩, alarms.head?.map Prod.fst = some t)

def disarm : Clock τ × Bool :=
  let alarms := AlarmClock.unset c.alarms t
  (⟨c.settings, alarms⟩, c.alarms.head?.map Prod.fst = some t ∧ alarms ≠ [])

def init (intervalUs : Nat) (attr : BitVec 32) (mutex : Status) : Clock τ × Status :=
  if ¬intervalIsValid intervalUs then (c, .inval)
  else if ¬attrIsValid attr then (c, .inval)
  else if mutex ≠ .ok then
    (⟨Function.update c.settings t { c.settings t with mutexInitialized := false, payloadSize := 0 }, c.alarms⟩, mutex)
  else (⟨Function.update c.settings t ⟨true, 0, intervalUs, 0, attr⟩, c.alarms⟩, .ok)

def start (clock : ClockRead) : Clock τ × Status × Bool :=
  if validateUserInput (c.settings t) ≠ .ok then (c, validateUserInput (c.settings t), false)
  else if c.isSet t then (c, .exists, false)
  else match clock with
    | .ok reading => ((c.arm t reading).1, .ok, (c.arm t reading).2)
    | .error rc => (c, rc, false)

def cancel : Clock τ × Status × Bool :=
  if validateCreated (c.settings t) ≠ .ok then (c, validateCreated (c.settings t), false)
  else if ¬c.isSet t then (c, .ok, false)
  else ((c.disarm t).1, .ok, (c.disarm t).2)

/- The alarm is taken away even if the clock cannot be read. -/
def restart (clock : ClockRead) : Clock τ × Status × Bool :=
  if validateUserInput (c.settings t) ≠ .ok then (c, validateUserInput (c.settings t), false)
  else match clock with
    | .ok reading => (((c.disarm t).1.arm t reading).1, .ok, ((c.disarm t).1.arm t reading).2)
    | .error rc => ((c.disarm t).1, rc, false)

def deinit (mutex : Status) : Clock τ × Status × Bool :=
  if (c.cancel t).2.1 ≠ .ok then c.cancel t
  else
    (⟨Function.update c.settings t { c.settings t with mutexInitialized := false }, (c.cancel t).1.alarms⟩,
      mutex, (c.cancel t).2.2)

def again (settings : τ → Timer) (reading : Nat) (t : τ) (due : Int) : Option Int :=
  if repeats (settings t) then
    some (if (settings t).attr &&& attrReloadFromNow = 0 ∧ due + (settings t).intervalUs > reading then
        due + (settings t).intervalUs
      else reading + (settings t).intervalUs)
  else none

def fireExpired (clock : ClockRead) (emit : Nat → Status) : Clock τ × List τ × Status :=
  match clock with
  | .ok reading =>
      let rung := (AlarmClock.rings c.alarms reading).map Prod.fst
      (⟨c.settings, AlarmClock.ring (again c.settings reading) c.alarms reading⟩, rung,
        (((List.range rung.length).map emit).find? fun rc => rc ≠ .ok).getD .ok)
  | .error rc => (c, [], rc)

def nextTimeout (clock : ClockRead) : Status × Option Nat :=
  match clock with
  | .ok reading =>
      match c.alarms.head? with
      | none => (.noTimer, none)
      | some alarm => (.ok, some (max 0 (alarm.2 - reading)).toNat)
  | .error rc => (rc, none)

def step : Action τ → Clock τ × Answer τ
  | .init t intervalUs attr mutex => ((c.init t intervalUs attr mutex).1, .status (c.init t intervalUs attr mutex).2)
  | .setInterval t intervalUs => (⟨Function.update c.settings t { c.settings t with intervalUs := intervalUs }, c.alarms⟩, .none)
  | .setAttr t attr => (⟨Function.update c.settings t { c.settings t with attr := attr }, c.alarms⟩, .none)
  | .start t clock => ((c.start t clock).1, .call (c.start t clock).2.1 (c.start t clock).2.2)
  | .cancel t => ((c.cancel t).1, .call (c.cancel t).2.1 (c.cancel t).2.2)
  | .restart t clock => ((c.restart t clock).1, .call (c.restart t clock).2.1 (c.restart t clock).2.2)
  | .deinit t mutex => ((c.deinit t mutex).1, .call (c.deinit t mutex).2.1 (c.deinit t mutex).2.2)
  | .fireExpired clock emit => ((c.fireExpired clock emit).1, .fired (c.fireExpired clock emit).2.1 (c.fireExpired clock emit).2.2)
  | .nextTimeout clock => (c, .timeout (c.nextTimeout clock).1 (c.nextTimeout clock).2)

end Clock

structure Shows (m : Manager τ) (L : List τ) (c : Clock τ) : Prop where
  settings : ∀ t, c.settings t = { m.timers t with expireUs := 0 }
  alarms : c.alarms = L.map fun t => (t, deadline m t)

def Refines (m : Manager τ) (c : Clock τ) : Prop := ∃ L, Ordered m L ∧ Shows m L c

section Parts

variable {m m' : Manager τ} {L earlier later : List τ} {c : Clock τ} {t : τ}

omit [DecidableEq τ] in
theorem Shows.input (shows : Shows m L c) (t : τ) : validateUserInput (c.settings t) = validateUserInput (m.timers t) := by
  rw [shows.settings]
  rfl

omit [DecidableEq τ] in
theorem Shows.createdInput (shows : Shows m L c) (t : τ) : validateCreated (c.settings t) = validateCreated (m.timers t) := by
  rw [shows.settings]
  rfl

theorem Shows.isSet (shows : Shows m L c) (ordered : Ordered m L) (created : (m.timers t).mutexInitialized = true) :
    c.isSet t = isRunning m t := by
  rw [Bool.eq_iff_iff, ordered.runningIff created, Clock.isSet, decide_eq_true_eq, shows.alarms]
  simp

theorem Shows.refresh (shows : Shows m L c) (ordered : Ordered m L) {reading : Nat} (order : m.clock ≤ reading)
    (within : ∀ t ∈ L, (reading : Int) < deadline m t + 2 ^ 63) : Shows (refreshNow m (.ok reading)).1 L c := by
  refine ⟨shows.settings, shows.alarms.trans (List.map_congr_left fun x member => ?_)⟩
  have moved : remaining (refreshNow m (.ok reading)).1 x = deadline m x - reading := ordered.remainingAt order (within x member)
  rw [deadline.eq_def (refreshNow m (.ok reading)).1, moved]
  simp only [refreshNow]
  congr 1
  omega

theorem Shows.unset (shows : Shows m L c) (ordered : Ordered m L) :
    AlarmClock.unset c.alarms t = (L.erase t).map fun x => (x, deadline m x) := by
  rw [AlarmClock.unset, shows.alarms, List.filter_map, ordered.valid.nodup.erase_eq_filter]
  congr 1
  refine List.filter_congr fun x _ => ?_
  by_cases same : x = t <;> simp [same]

theorem Shows.disarms (shows : Shows m L c) (ordered : Ordered m L) (disarms : Disarms m L t m') :
    Shows m' (L.erase t) (c.disarm t).1 ∧ (c.disarm t).2 = decide (L.head? = some t ∧ L.tail ≠ []) := by
  have same (x : τ) : deadline m' x = deadline m x := by
    rw [deadline, deadline, remaining, remaining, disarms.timers, disarms.now, disarms.clock]
  have unset := shows.unset (t := t) ordered
  refine ⟨⟨fun x => ?_, ?_⟩, ?_⟩
  · rw [disarms.timers]
    exact shows.settings x
  · refine unset.trans (List.map_congr_left fun x _ => ?_)
    rw [same]
  · simp only [Clock.disarm, unset]
    simp only [shows.alarms]
    cases L with
    | nil => simp
    | cons x rest =>
      by_cases first : x = t
      · simp [first]
      · simp [first]

theorem Shows.arms (shows : Shows m L c) (ordered : Ordered m L) {expireUs : Nat} (arms : Arms m L t expireUs m' earlier later)
    (fresh : t ∉ L) {due : Int} (time : due = m.clock + remainingUs expireUs m.now) :
    Shows m' (earlier ++ t :: later) ⟨c.settings, AlarmClock.set c.alarms t due⟩ ∧
      decide ((AlarmClock.set c.alarms t due).head?.map Prod.fst = some t) = decide (earlier = []) := by
  obtain ⟨notLess, less⟩ := ordered.armPlace arms fresh
  have own : deadline m' t = due := by
    rw [deadline, remaining, arms.timers, Function.update_self, arms.now, arms.clock, time]
  have kept (x : τ) (member : x ∈ L) : deadline m' x = deadline m x := by
    rw [deadline, deadline, (armsKept arms fresh member).2, arms.clock]
  have before (x : τ) (inside : x ∈ earlier) : x ∈ L := arms.split ▸ List.mem_append_left _ inside
  have behind (x : τ) (inside : x ∈ later) : x ∈ L := arms.split ▸ List.mem_append_right _ inside
  have split : c.alarms = (earlier.map fun x => (x, deadline m x)) ++ later.map fun x => (x, deadline m x) := by
    rw [shows.alarms, arms.split, List.map_append]
  have front : ∀ a ∈ earlier.map fun x => (x, deadline m x), a.2 ≤ due := fun a member => by
    obtain ⟨x, inside, rfl⟩ := List.mem_map.mp member
    have order := notLess x inside
    show deadline m x ≤ due
    rw [← kept x (before x inside), ← own, deadline, deadline]
    omega
  have back : ∀ a ∈ later.map fun x => (x, deadline m x), due < a.2 := fun a member => by
    obtain ⟨x, inside, rfl⟩ := List.mem_map.mp member
    have order := less x inside
    show due < deadline m x
    rw [← kept x (behind x inside), ← own, deadline, deadline]
    omega
  have put : AlarmClock.set c.alarms t due = _ := AlarmClock.setAtPlace split front back
  refine ⟨⟨fun x => ?_, ?_⟩, ?_⟩
  · rw [arms.timers]
    by_cases here : x = t
    · subst here
      rw [Function.update_self]
      exact shows.settings x
    · rw [Function.update_of_ne here]
      exact shows.settings x
  · have sameEarlier : (earlier.map fun x => (x, deadline m' x)) = earlier.map fun x => (x, deadline m x) :=
      List.map_congr_left fun x inside => by rw [kept x (before x inside)]
    have sameLater : (later.map fun x => (x, deadline m' x)) = later.map fun x => (x, deadline m x) :=
      List.map_congr_left fun x inside => by rw [kept x (behind x inside)]
    simp only [put, List.map_append, List.map_cons, own, sameEarlier, sameLater]
  · rw [put]
    cases earlier with
    | nil => simp
    | cons x rest =>
      have apart : x ≠ t := fun same => fresh (same ▸ before x List.mem_cons_self)
      simp [apart]

omit [DecidableEq τ] in
theorem Shows.setting [DecidableEq τ] (shows : Shows m L c) (fresh : t ∉ L) (value : Timer) (tree : Rbtree.Root τ) :
    Shows { setTimer m t value with tree := tree } L ⟨Function.update c.settings t { value with expireUs := 0 }, c.alarms⟩ := by
  refine ⟨fun x => ?_, shows.alarms.trans (List.map_congr_left fun x member => ?_)⟩
  · by_cases here : x = t
    · subst here
      simp [setTimer]
    · simp [setTimer, here, shows.settings x]
  · have apart : x ≠ t := fun same => fresh (same ▸ member)
    simp [deadline, remaining, setTimer, apart]

theorem scheduledSelf (ordered : Ordered m L) : Scheduled m L L :=
  ⟨ordered, List.Perm.refl L, List.pairwise_iff_forall_sublist.mpr fun inside _ => inside⟩

end Parts

section Calls

variable {m : Manager τ} {L : List τ} {c : Clock τ} {t : τ} {clock : ClockRead}

theorem armRefined (ordered : Ordered m L) (shows : Shows m L c) (fresh : t ∉ L) (valid : validateUserInput (m.timers t) = .ok)
    {reading : Nat} (order : m.clock ≤ reading) (within : ∀ x ∈ L, (reading : Int) < deadline m x + 2 ^ 63) :
    ∃ m', arm (refreshNow m (.ok reading)).1 t (expireFromNow (refreshNow m (.ok reading)).1 t) =
      some (m', (c.arm t reading).2) ∧ Refines m' (c.arm t reading).1 := by
  obtain ⟨created, interval⟩ := validInput valid
  have ordered' := ordered.refresh order within
  have shows' := shows.refresh ordered order within
  obtain ⟨m', earlier, later, armed, arms⟩ :=
    armSpec (expireFromNow (refreshNow m (.ok reading)).1 t) ordered'.toArmed fresh interval
  have ahead : remainingUs (expireFromNow (refreshNow m (.ok reading)).1 t) (refreshNow m (.ok reading)).1.now =
      (m.timers t).intervalUs := remainingFromNow ordered'.now interval.2
  have time : (reading + (c.settings t).intervalUs : Int) = (refreshNow m (.ok reading)).1.clock +
      remainingUs (expireFromNow (refreshNow m (.ok reading)).1 t) (refreshNow m (.ok reading)).1.now := by
    rw [ahead, shows.settings]
    rfl
  obtain ⟨shown, first⟩ := shows'.arms ordered' arms fresh time
  refine ⟨m', ?_, earlier ++ t :: later, ordered'.arms arms fresh created (by omega), shown⟩
  rw [armed, Clock.arm]
  exact congrArg (fun flag => some (m', flag)) first.symm

theorem startRefined (ordered : Ordered m L) (shows : Shows m L c) (allowed : ReadingAllowed m clock) :
    ∃ m', start m t clock = some (m', (c.start t clock).2) ∧ Refines m' (c.start t clock).1 := by
  unfold start Clock.start
  rw [shows.input]
  by_cases valid : validateUserInput (m.timers t) = .ok
  · rw [if_neg (not_not.mpr valid), if_neg (not_not.mpr valid), startLocked, shows.isSet ordered (validInput valid).1]
    by_cases runs : isRunning m t = true
    · rw [if_pos runs, if_pos runs]
      exact ⟨m, rfl, L, ordered, shows⟩
    · rw [if_neg runs, if_neg runs]
      have fresh : t ∉ L := fun member => runs (ordered.toArmed.running member)
      cases clock with
      | error rc =>
        have fails := allowed.fails rc rfl
        cases rc
        case ok => exact absurd rfl fails
        all_goals exact ⟨m, rfl, L, ordered, shows⟩
      | ok reading =>
        obtain ⟨m', armed, refined⟩ := armRefined ordered shows fresh valid (allowed.forward reading rfl)
          fun x member => allowed.within reading rfl x (ordered.running member)
        exact ⟨m', Option.map_eq_some_iff.mpr ⟨_, armed, rfl⟩, refined⟩
  · rw [if_pos valid, if_pos valid]
    exact ⟨m, rfl, L, ordered, shows⟩

theorem cancelRefined (ordered : Ordered m L) (shows : Shows m L c) :
    ∃ m', cancel m t = some (m', (c.cancel t).2) ∧ Refines m' (c.cancel t).1 := by
  rw [cancel, Clock.cancel, shows.createdInput]
  by_cases valid : validateCreated (m.timers t) = .ok
  · rw [if_neg (not_not.mpr valid), if_neg (not_not.mpr valid), cancelLocked, shows.isSet ordered (validCreated valid)]
    by_cases runs : isRunning m t = true
    · rw [if_neg (not_not.mpr runs), if_neg (not_not.mpr runs)]
      have member : t ∈ L := (ordered.runningIff (validCreated valid)).mp runs
      obtain ⟨m', disarmed, disarms⟩ := disarmSpec ordered.toArmed member
      obtain ⟨shown, next⟩ := shows.disarms ordered disarms
      exact ⟨m', by rw [disarmed, next]; rfl, L.erase t, ordered.disarms disarms, shown⟩
    · rw [if_pos runs, if_pos runs]
      exact ⟨m, rfl, L, ordered, shows⟩
  · rw [if_pos valid, if_pos valid]
    exact ⟨m, rfl, L, ordered, shows⟩

theorem restartDisarms (ordered : Ordered m L) (shows : Shows m L c) (created : (m.timers t).mutexInitialized = true) :
    ∃ m' L', (if isRunning m t then (disarm m t).map Prod.fst else some m) = some m' ∧ Ordered m' L' ∧
      Shows m' L' (c.disarm t).1 ∧ t ∉ L' ∧ L' ⊆ L ∧ m'.timers = m.timers ∧ m'.clock = m.clock ∧ m'.now = m.now := by
  by_cases runs : isRunning m t = true
  · have member : t ∈ L := (ordered.runningIff created).mp runs
    obtain ⟨m', disarmed, disarms⟩ := disarmSpec ordered.toArmed member
    exact ⟨m', L.erase t, by rw [if_pos runs, disarmed]; rfl, ordered.disarms disarms, (shows.disarms ordered disarms).1,
      fun inside => (ordered.valid.nodup.mem_erase_iff.mp inside).1 rfl, List.erase_subset, disarms.timers, disarms.clock,
      disarms.now⟩
  · have fresh : t ∉ L := fun member => runs (ordered.toArmed.running member)
    have unset := shows.unset (t := t) ordered
    rw [List.erase_of_not_mem fresh, ← shows.alarms] at unset
    refine ⟨m, L, if_neg runs, ordered, ⟨shows.settings, ?_⟩, fresh, List.Subset.refl L, rfl, rfl, rfl⟩
    exact unset.trans shows.alarms

theorem restartRefined (ordered : Ordered m L) (shows : Shows m L c) (allowed : ReadingAllowed m clock) :
    ∃ m', restart m t clock = some (m', (c.restart t clock).2) ∧ Refines m' (c.restart t clock).1 := by
  unfold restart Clock.restart
  rw [shows.input]
  by_cases valid : validateUserInput (m.timers t) = .ok
  · rw [if_neg (not_not.mpr valid), if_neg (not_not.mpr valid)]
    obtain ⟨m1, L1, unlinked, ordered1, shows1, fresh, fewer, timers, clock1, now1⟩ :=
      restartDisarms ordered shows (validInput valid).1
    rw [restartLocked, unlinked]
    cases clock with
    | error rc =>
      have fails := allowed.fails rc rfl
      cases rc
      case ok => exact absurd rfl fails
      all_goals exact ⟨m1, rfl, L1, ordered1, shows1⟩
    | ok reading =>
      have within (x : τ) (member : x ∈ L1) : (reading : Int) < deadline m1 x + 2 ^ 63 := by
        have bound := allowed.within reading rfl x (ordered.running (fewer member))
        rwa [deadline, remaining, ← timers, ← clock1, ← now1] at bound
      obtain ⟨m', armed, refined⟩ :=
        armRefined ordered1 shows1 fresh (by rw [timers]; exact valid) (clock1 ▸ allowed.forward reading rfl) within
      exact ⟨m', Option.map_eq_some_iff.mpr ⟨_, armed, rfl⟩, refined⟩
  · rw [if_pos valid, if_pos valid]
    exact ⟨m, rfl, L, ordered, shows⟩

theorem cancelSettings (c : Clock τ) (t : τ) : (c.cancel t).1.settings = c.settings := by
  unfold Clock.cancel
  split
  · rfl
  · split <;> rfl

theorem deinitRefined (ordered : Ordered m L) (shows : Shows m L c) (mutex : Status) :
    ∃ m', deinit m t mutex = some (m', (c.deinit t mutex).2) ∧ Refines m' (c.deinit t mutex).1 := by
  obtain ⟨m1, cancelled, L1, ordered1, shows1⟩ := cancelRefined (t := t) ordered shows
  rw [deinit, Clock.deinit, cancelled]
  by_cases ok : (c.cancel t).2.1 = .ok
  · have stopped : cancel m t = some (m1, .ok, (c.cancel t).2.2) := by rw [cancelled, ← ok]
    obtain ⟨stops, created⟩ := cancelStops (scheduledSelf ordered) stopped
    have fresh : t ∉ L1 := fun member => by simp [ordered1.toArmed.running member] at stops
    have cleaned := cleanupServed (scheduledSelf ordered1) fresh mutex
    have shown := shows1.setting fresh { m1.timers t with mutexInitialized := false, expireUs := 0 }
      { m1.tree with toHeap := Rbtree.nodeInit m1.tree.toHeap t }
    rw [if_neg (not_not.mpr ok)]
    refine ⟨(deinitCleanup m1 t mutex).1, by simp [ok, deinitCleanup, created], L1, cleaned.scheduled.ordered, ?_⟩
    have settings : Function.update (c.cancel t).1.settings t
        { m1.timers t with mutexInitialized := false, expireUs := 0 } =
          Function.update c.settings t { c.settings t with mutexInitialized := false } := by
      have own := shows1.settings t
      rw [cancelSettings] at own ⊢
      rw [own]
    rw [← settings]
    exact shown
  · rw [if_pos ok]
    exact ⟨m1, by simp [ok], L1, ordered1, shows1⟩

theorem initRefined (ordered : Ordered m L) (shows : Shows m L c) (fresh : t ∉ L) (intervalUs : Nat) (attr : BitVec 32)
    (mutex : Status) : (init m t intervalUs attr mutex).2 = (c.init t intervalUs attr mutex).2 ∧
      Refines (init m t intervalUs attr mutex).1 (c.init t intervalUs attr mutex).1 := by
  have served := initServed (scheduledSelf ordered) fresh intervalUs attr mutex
  have ordered' := served.scheduled.ordered
  unfold init Clock.init at *
  split
  · exact ⟨rfl, L, ordered, shows⟩
  · split
    · exact ⟨rfl, L, ordered, shows⟩
    · split
      · rename_i interval attrs failed
        rw [if_neg interval, if_neg attrs, if_pos failed] at ordered'
        refine ⟨rfl, L, ordered', ?_⟩
        have shown := shows.setting fresh { m.timers t with mutexInitialized := false, payloadSize := 0 } m.tree
        rw [shows.settings t]
        exact shown
      · rename_i interval attrs done
        rw [if_neg interval, if_neg attrs, if_neg done] at ordered'
        exact ⟨rfl, L, ordered', shows.setting fresh ⟨true, 0, intervalUs, 0, attr⟩ _⟩

end Calls

section Fire

variable {m m' : Manager τ} {L L' fired : List τ} {c : Clock τ} {t : τ} {reading : Nat}

omit [DecidableEq τ] in
theorem againRepeats (shows : Shows m L c) (t : τ) (reading : Nat) (repeating : repeats (m.timers t) = true) :
    Clock.again c.settings reading t (deadline m t) = some (nextDeadline m t reading) := by
  have same : repeats (c.settings t) = true := by rw [shows.settings]; exact repeating
  rw [Clock.again, if_pos same, shows.settings]
  rfl

omit [DecidableEq τ] in
theorem againOnce (shows : Shows m L c) (t : τ) (reading : Nat) (once : repeats (m.timers t) = false) :
    Clock.again c.settings reading t (deadline m t) = none := by
  have same : ¬repeats (c.settings t) = true := by
    rw [shows.settings]
    exact Bool.eq_false_iff.mp once
  rw [Clock.again, if_neg same]

theorem fireRoundRings (round : FireRound m L t m' L') (ordered : Ordered m L) (shows : Shows m L c) (now : m.clock = reading) :
    ∃ rest, c.alarms = (t, deadline m t) :: rest ∧ deadline m t ≤ reading ∧
      (∀ next, Clock.again c.settings reading t (deadline m t) = some next → (reading : Int) < next) ∧
      Shows m' L' ⟨c.settings, (Clock.again c.settings reading t (deadline m t)).elim rest (AlarmClock.set rest t)⟩ := by
  have head : L.head? = some t ∧ due m t := by
    cases round with
    | oneshot first isDue once disarms => exact ⟨first, isDue⟩
    | reload first isDue repeating disarms arms => exact ⟨first, isDue⟩
  obtain ⟨first, isDue⟩ := head
  obtain ⟨erased, member, cons⟩ := headErase first
  have overdue : remaining m t ≤ 0 := isDue
  have rest : c.alarms = (t, deadline m t) :: AlarmClock.unset c.alarms t := by
    rw [shows.unset ordered, erased, shows.alarms]
    conv_lhs => rw [cons]
    rfl
  refine ⟨AlarmClock.unset c.alarms t, rest, by rw [deadline, now]; omega, fun next again => ?_, ?_⟩
  · by_cases repeating : repeats (m.timers t) = true
    · rw [againRepeats shows t reading repeating] at again
      have interval := (ordered.interval t member).1
      obtain rfl := Option.some.inj again
      rw [nextDeadline]
      split <;> omega
    · rw [againOnce shows t reading (by simpa using repeating)] at again
      cases again
  · cases round with
    | oneshot first isDue once disarms =>
      have single : repeats (m.timers t) = false := by simpa [repeats] using once
      rw [againOnce shows t reading single]
      exact (shows.disarms ordered disarms).1
    | @reload mid _ earlier later first isDue repeating disarms arms =>
      have shown := (shows.disarms ordered disarms).1
      have fresh : t ∉ L.erase t := fun inside => (ordered.valid.nodup.mem_erase_iff.mp inside).1 rfl
      have interval := ordered.interval t member
      have reloaded := reloadRemaining ordered.now interval.2 overdue
      have time : nextDeadline m t reading = mid.clock + remainingUs (reloadExpire m t (m.timers t).expireUs) mid.now := by
        rw [disarms.clock, disarms.now, reloaded, nextDeadline, now]
        have late : deadline m t = reading + remaining m t := by rw [deadline, now]
        rw [late]
        by_cases ahead : (m.timers t).attr &&& attrReloadFromNow = 0 ∧ remaining m t + (m.timers t).intervalUs > 0
        · rw [if_pos ahead, if_pos ⟨ahead.1, by omega⟩]
          omega
        · rw [if_neg ahead, if_neg fun both => ahead ⟨both.1, by omega⟩]
      rw [againRepeats shows t reading (by simpa [repeats] using repeating)]
      exact (shown.arms (ordered.disarms disarms) arms fresh time).1

theorem fireRunRings (run : FireRun m L fired m' L') (ordered : Ordered m L) (shows : Shows m L c) (now : m.clock = reading) :
    fired = (AlarmClock.rings c.alarms reading).map Prod.fst ∧ Ordered m' L' ∧
      Shows m' L' ⟨c.settings, AlarmClock.ring (Clock.again c.settings reading) c.alarms reading⟩ := by
  induction run generalizing c with
  | @done m L nothing =>
    have later : ∀ a, c.alarms.head? = some a → (reading : Int) < a.2 := by
      intro a first
      rw [shows.alarms, List.head?_map] at first
      obtain ⟨t, head, rfl⟩ := Option.map_eq_some_iff.mp first
      have notDue : ¬remaining m t ≤ 0 := nothing t head
      show (reading : Int) < deadline m t
      rw [deadline, now]
      omega
    have silent := (AlarmClock.ringNothing later : _ ∧ AlarmClock.ring (Clock.again c.settings reading) _ _ = _)
    rw [silent.1, silent.2]
    exact ⟨rfl, ordered, shows⟩
  | @round m m1 m' L L1 L' fired t first rest ih =>
    have keeps := first.keeps ordered.toArmed
    obtain ⟨others, alarms, isDue, ahead, shown⟩ := fireRoundRings first ordered shows now
    obtain ⟨rung, ordered', shown'⟩ := ih (ordered.fireRound first) shown (keeps.clock.trans now)
    obtain ⟨rings, ring⟩ := (AlarmClock.ringFirst isDue ahead : AlarmClock.rings (_ :: others) _ = _ ∧ _)
    rw [alarms, rings, ring]
    exact ⟨by rw [rung]; rfl, ordered', shown'⟩

theorem fireRefined (ordered : Ordered m L) (shows : Shows m L c) {clock : ClockRead} (allowed : ReadingAllowed m clock)
    (emit : Nat → Status) :
    ∃ m', fireExpired m clock emit = some (m', (c.fireExpired clock emit).2) ∧ Refines m' (c.fireExpired clock emit).1 := by
  cases clock with
  | error rc =>
    have fails := allowed.fails rc rfl
    cases rc
    case ok => exact absurd rfl fails
    all_goals exact ⟨m, rfl, L, ordered, shows⟩
  | ok reading =>
    have order := allowed.forward reading rfl
    have within := fun x (member : x ∈ L) => allowed.within reading rfl x (ordered.running member)
    obtain ⟨m', L', fired, ran, run⟩ := fireExpiredSpec ordered.toArmed reading emit
    obtain ⟨rung, ordered', shown⟩ := fireRunRings run (ordered.refresh order within) (shows.refresh ordered order within) rfl
    refine ⟨m', ?_, L', ordered', shown⟩
    rw [ran, errorAfter, keepFirstFind, ← List.range_eq_range', rung]
    rfl

theorem nextTimeoutRefined (ordered : Ordered m L) (shows : Shows m L c) {clock : ClockRead} (allowed : ReadingAllowed m clock) :
    (nextTimeout m clock).2 = c.nextTimeout clock ∧ Refines (nextTimeout m clock).1 c := by
  have served := nextTimeoutServed (scheduledSelf ordered) allowed
  cases clock with
  | error rc =>
    have fails := allowed.fails rc rfl
    cases rc
    case ok => exact absurd rfl fails
    all_goals exact ⟨rfl, L, ordered, shows⟩
  | ok reading =>
    have order := allowed.forward reading rfl
    have within := fun x (member : x ∈ L) => allowed.within reading rfl x (ordered.running member)
    refine ⟨?_, L, served.scheduled.ordered, ?_⟩
    · rw [nextTimeoutAnswer ordered.toArmed, Clock.nextTimeout, shows.alarms]
      cases L with
      | nil => rfl
      | cons x rest =>
        have moved := ordered.remainingAt order (within x List.mem_cons_self)
        simp only [List.head?_cons, List.map_cons, moved]
    · rw [nextTimeoutManager]
      exact shows.refresh ordered order within

end Fire

theorem stepRefines {s : State τ} {c : Clock τ} (refines : Refines s.manager c) {a : Action τ} (allowed : Allowed s a) :
    ∃ s', step s a = some (s', (c.step a).2) ∧ Refines s'.manager (c.step a).1 := by
  obtain ⟨L, ordered, shows⟩ := refines
  have stopped {t : τ} (notRunning : ¬Running s.manager t) : t ∉ L := fun member => notRunning (ordered.running member)
  cases a with
  | init t intervalUs attr mutex =>
    obtain ⟨same, refined⟩ := initRefined ordered shows (stopped allowed) intervalUs attr mutex
    exact ⟨_, by rw [step, same]; rfl, refined⟩
  | setInterval t intervalUs =>
    have fresh := stopped allowed
    have served := writeServed (scheduledSelf ordered) fresh { s.manager.timers t with intervalUs := intervalUs } rfl
    have shown := shows.setting fresh { s.manager.timers t with intervalUs := intervalUs } s.manager.tree
    refine ⟨_, rfl, L, served.scheduled.ordered, ?_⟩
    rw [Clock.step, shows.settings t]
    exact shown
  | setAttr t attr =>
    have fresh := stopped allowed
    have served := writeServed (scheduledSelf ordered) fresh { s.manager.timers t with attr := attr } rfl
    have shown := shows.setting fresh { s.manager.timers t with attr := attr } s.manager.tree
    refine ⟨_, rfl, L, served.scheduled.ordered, ?_⟩
    rw [Clock.step, shows.settings t]
    exact shown
  | start t clock =>
    obtain ⟨m', started, refined⟩ := startRefined (t := t) ordered shows allowed
    exact ⟨_, by rw [step, started]; rfl, refined⟩
  | cancel t =>
    obtain ⟨m', cancelled, refined⟩ := cancelRefined (t := t) ordered shows
    exact ⟨_, by rw [step, cancelled]; rfl, refined⟩
  | restart t clock =>
    obtain ⟨m', restarted, refined⟩ := restartRefined (t := t) ordered shows allowed
    exact ⟨_, by rw [step, restarted]; rfl, refined⟩
  | deinit t mutex =>
    obtain ⟨m', deinited, refined⟩ := deinitRefined (t := t) ordered shows mutex
    exact ⟨_, by rw [step, deinited]; rfl, refined⟩
  | fireExpired clock emit =>
    obtain ⟨m', fired, refined⟩ := fireRefined ordered shows allowed emit
    exact ⟨_, by rw [step, fired]; rfl, refined⟩
  | nextTimeout clock =>
    obtain ⟨same, refined⟩ := nextTimeoutRefined ordered shows allowed
    exact ⟨_, by rw [step, same]; rfl, refined⟩

def newClock (s : State τ) : Clock τ := ⟨fun t => { s.manager.timers t with expireUs := 0 }, []⟩

theorem startsRefines {s : State τ} (starts : Starts s) : Refines s.manager (newClock s) :=
  ⟨[], (startsScheduled starts).ordered, fun _ => rfl, rfl⟩

/- Every run answers, call by call, what the clock answers to the same calls, with the same notifications of the
broker, and ends in a state that shows the clock's. -/
theorem refinesAlarmClock {s s' : State τ} {visits : List (Visit (State τ) (Action τ) (Answer τ))} (starts : Starts s)
    (run : Run step Allowed s visits s') :
    visits.map Visit.event = (play Clock.step (newClock s) (visits.map Visit.label)).2 ∧
      Refines s'.manager (play Clock.step (newClock s) (visits.map Visit.label)).1 := by
  have answers : ∀ (s s' : State τ) (a : Action τ) (e : Answer τ) (c : Clock τ), Refines s.manager c → Allowed s a →
      step s a = some (s', e) → Refines s'.manager (c.step a).1 ∧ e = (c.step a).2 := by
    intro s s' a e c refines allowed taken
    obtain ⟨s'', took, refines'⟩ := stepRefines refines allowed
    rw [taken] at took
    cases took
    exact ⟨refines', rfl⟩
  have played := Run.plays (R := fun s c => Refines s.manager c) answers run (startsRefines starts)
  exact ⟨played.2, played.1⟩

/- A timer started one microsecond before the 64-bit clock wraps rings five microseconds later. -/
theorem clockWrapped : ∃ (visits : List (Visit (State Nat) (Action Nat) (Answer Nat))) (s' : State Nat),
    Run step Allowed emptyState visits s' ∧ visits.map Visit.event = [.status .ok, .call .ok true] ∧
      Refines s'.manager ⟨Function.update (newClock emptyState).settings 0 ⟨true, 0, 5, 0, attrRepeat⟩, [(0, 2 ^ 64 + 4)]⟩ := by
  have created : Run step Allowed emptyState _ createdState :=
    Run.single (a := .init 0 5 attrRepeat .ok) (fun running => absurd running.1 (by decide)) rfl
  have reading : ReadingAllowed createdState.manager (.ok (2 ^ 64 - 1)) := by
    refine ⟨fun reading _ => Nat.zero_le reading, fun reading same t running => ?_, fun rc failed => by cases failed⟩
    obtain rfl := createdOnly rfl running
    exact absurd running.2 (by decide)
  have permitted : Allowed createdState (Action.start 0 (.ok (2 ^ 64 - 1))) := reading
  have run : Run step Allowed emptyState _ wrappedState := Run.next created permitted rfl
  obtain ⟨answers, shown⟩ := refinesAlarmClock emptyStateStarts run
  exact ⟨_, _, run, answers, shown⟩

end Nanosig.TimerMgr
