import Nanosig.Runtime.Ownership

/-! Histories of calls: what each call does to the account, and from it what
holds after any sequence of them, with any outcomes of the platform. -/
namespace Nanosig.Runtime
open ResourceLedger MpscRecordRing TransitionSystem

@[simp] theorem setLoopHere (s : Process) (l : Nat) (o : LoopObject) : (s.setLoop l o).loops l = o :=
  Function.update_self ..

theorem setLoopOther (s : Process) {l m : Nat} (o : LoopObject) (other : m ≠ l) :
    (s.setLoop l o).loops m = s.loops m := Function.update_of_ne other ..

@[simp] theorem setLoopLive (s : Process) (l : Nat) (o : LoopObject) : (s.setLoop l o).live = s.live := rfl

@[simp] theorem setLoopLedger (s : Process) (l : Nat) (o : LoopObject) : (s.setLoop l o).ledger = s.ledger := rfl

@[simp] theorem gainLoops (s : Process) (r : Resource) : (s.gain r).loops = s.loops := rfl

@[simp] theorem gainLive (s : Process) (r : Resource) : (s.gain r).live = s.live := rfl

structure Outcome (a : Answers) (s s' : Process) : Prop where
  accounted : Accounted s'
  leaks : ∃ more, Refused a more ∧ s'.ledger.leaked = more ++ s.ledger.leaked

theorem Outcome.unchanged {a : Answers} {s : Process} (acc : Accounted s) : Outcome a s s :=
  ⟨acc, [], List.forall_mem_nil _, rfl⟩

theorem Outcome.ofSame {a : Answers} {s s' : Process} (acc : Accounted s) (same : SameButLeaks a s s') :
    Outcome a s s' := by
  obtain ⟨more, refused, rfl⟩ := same
  exact ⟨acc.leaking more, more, refused, rfl⟩

namespace Accounted

variable {s : Process} (acc : Accounted s)
include acc

theorem initOutcome (a : Answers) : ∃ s' rc, nsInit a s = some (s', rc) ∧ Outcome a s s' := by
  by_cases up : s.initialized = true
  · exact ⟨s, .exists, if_pos up, .unchanged acc⟩
  · have down := Bool.eq_false_iff.mpr up
    obtain ⟨s', ended, passed, failed⟩ := acc.initTransactional down a s rfl
    refine ⟨s', _, ended, ?_⟩
    by_cases good : firstFailure Status.ok (initCodes a) = .ok
    · rw [← passed good]
      exact ⟨acc.initialized down, [], List.forall_mem_nil _, rfl⟩
    · exact .ofSame acc (failed good)

theorem holdsRuntime (up : s.initialized = true) (noLoop : s.live = ∅) : Holds s runtimeResources := by
  intro r
  rw [acc.owned]
  cases r <;> simp [Owns, runtimeResources, acc.debug, acc.broker, acc.timerMgr, up, noLoop]

theorem shutdownExact (up : s.initialized = true) (noLoop : s.live = ∅) (a : Answers) :
    ∃ more, Refused a more ∧ nsShutdown a s = some ({ s with
      initialized := false, dbgMutexReady := false, gBroker := false, timerMgrInitialized := false,
      ledger := { held := ∅, leaked := more ++ s.ledger.leaked } }, a.drop .platform) := by
  have holds : Holds (s.setInitialized false) runtimeResources := acc.holdsRuntime up noLoop
  obtain ⟨more, refused, broker⟩ :=
    brokerShutdown (s := s.setInitialized false) (acc.broker.trans up) (acc.timerMgr.trans up) holds a
  have left : Holds ((s.setInitialized false).withoutBroker more) [.platform, .debugMutex] :=
    fun q => List.mem_toFinset
  have debug := left.drop (r := .debugMutex) (by decide) (by decide) a
  have ready : ((s.setInitialized false).withoutBroker more).dbgMutexReady = true := acc.debug.trans up
  have debugDown := (debugShutdownSet ready).trans (congrArg (Option.map _) debug)
  have h₁ := (left.lose (r := .debugMutex) (refusedOne a .debugMutex)).setDbgMutexReady false
  have platform := h₁.drop (r := .platform) (by decide) (by decide) a
  have nothing : _ = ([] : List Resource).toFinset := (h₁.lose (r := .platform) (refusedOne a .platform)).exactly
  rw [List.toFinset_nil] at nothing
  refine ⟨refusedOne a .platform ++ (refusedOne a .debugMutex ++ more),
    (refusedSelf a _).append ((refusedSelf a _).append refused), ?_⟩
  simp only [nsShutdown, up, Bool.not_true, Bool.false_eq_true, if_false, bind, Option.bind_some, broker, debugDown,
    Option.map_some, platform, ← nothing]
  simp [Process.withoutBroker, Process.lose, Process.setDbgMutexReady, Process.setInitialized]

theorem shutdownOutcome (noLoop : s.live = ∅) (a : Answers) :
    ∃ s' rc, nsShutdown a s = some (s', rc) ∧ Outcome a s s' := by
  by_cases up : s.initialized = true
  · obtain ⟨more, refused, ended⟩ := acc.shutdownExact up noLoop a
    refine ⟨_, _, ended, ⟨rfl, rfl, rfl, ?_, ?_, ?_⟩, more, refused, rfl⟩
    · intro some_
      simp [noLoop] at some_
    · intro l member
      simp [noLoop] at member
    · intro r
      cases r <;> simp [Owns, noLoop]
  · refine ⟨s, .ok, ?_, .unchanged acc⟩
    rw [nsShutdown, if_pos (by simp [up])]
    rfl

theorem loopHeld {l : Nat} (member : l ∈ s.live) :
    .loopMemory l ∈ s.ledger.held ∧ .loopWakeup l ∈ s.ledger.held :=
  ⟨(acc.owned _).mpr member, (acc.owned _).mpr member⟩

theorem reloop {l : Nat} {o : LoopObject} {ledger : Ledger Resource} (member : l ∈ s.live) (sound : o.Sound)
    (thread : .loopThread l ∈ ledger.held ↔ o.asyncStarted = true)
    (caller : .loopCall l ∈ ledger.held ↔ o.caller = true)
    (others : ∀ r, r ≠ .loopThread l → r ≠ .loopCall l → (r ∈ ledger.held ↔ r ∈ s.ledger.held)) :
    Accounted ({ s with ledger := ledger }.setLoop l o) := by
  refine ⟨acc.debug, acc.broker, acc.timerMgr, acc.alive, ?_, ?_⟩
  · intro m alive
    by_cases this : m = l
    · subst this
      rwa [setLoopHere]
    · rw [setLoopOther _ o this]
      exact acc.loops m alive
  · intro r
    rw [setLoopLedger]
    by_cases isThread : r = .loopThread l
    · subst isThread
      simp [Owns, thread, member]
    by_cases isCall : r = .loopCall l
    · subst isCall
      simp [Owns, caller, member]
    rw [others r isThread isCall, acc.owned]
    cases r
    case loopThread m =>
      have other : m ≠ l := fun same => isThread (same ▸ rfl)
      simp [Owns, setLoopOther _ o other]
    case loopCall m =>
      have other : m ≠ l := fun same => isCall (same ▸ rfl)
      simp [Owns, setLoopOther _ o other]
    all_goals rfl

theorem moved {l : Nat} {o : LoopObject} (member : l ∈ s.live) (sound : o.Sound)
    (started : o.asyncStarted = (s.loops l).asyncStarted) (caller : o.caller = (s.loops l).caller) :
    Accounted (s.setLoop l o) := by
  refine acc.reloop member sound ?_ ?_ fun r _ _ => Iff.rfl
  · simp [acc.owned, Owns, member, started]
  · simp [acc.owned, Owns, member, caller]

theorem workerEntersAccounted {l : Nat} (member : l ∈ s.live) (spawned : (s.loops l).worker = .spawned) :
    Accounted (workerEnters l s) := by
  obtain ⟨running, alone, started⟩ := acc.loops l member
  have up := acc.alive ⟨l, member⟩
  unfold workerEnters
  rw [if_neg (by simp [up])]
  split
  · rename_i busy
    refine acc.moved member ⟨?_, ?_, ?_⟩ rfl rfl
    · simpa [spawned] using running
    · simp
    · simpa [spawned] using started
  · rename_i free
    refine acc.moved member ⟨?_, ?_, ?_⟩ rfl rfl
    · simp
    · intro caller
      exact absurd (running.mpr (Or.inl caller)) free
    · simpa [spawned] using started

theorem workerLeavesAccounted {l : Nat} {rc : Status} (member : l ∈ s.live) (inside : (s.loops l).worker = .inside) :
    Accounted (workerLeaves l rc s) := by
  obtain ⟨running, alone, started⟩ := acc.loops l member
  have noCaller : (s.loops l).caller = false := Bool.eq_false_iff.mpr fun caller => alone caller inside
  refine acc.moved member ⟨?_, ?_, ?_⟩ rfl rfl
  · simp [noCaller]
  · simp
  · simpa [inside] using started

theorem runEntersOutcome {l : Nat} (member : l ∈ s.live) (a : Answers) :
    ∃ s' e, runEnters l s = some (s', e) ∧ Outcome a s s' := by
  obtain ⟨running, alone, started⟩ := acc.loops l member
  have up := acc.alive ⟨l, member⟩
  unfold runEnters
  rw [if_neg (by simp [up])]
  split
  · exact ⟨s, _, rfl, .unchanged acc⟩
  split
  · exact ⟨s, _, rfl, .unchanged acc⟩
  · rename_i notStarted free
    have noCaller : ¬(s.loops l).caller = true := fun caller => free (running.mpr (Or.inl caller))
    have ready : Ready s (.loopCall l) :=
      ⟨by simp [acc.owned, Owns, noCaller], by simp [Resource.needs, (acc.loopHeld member).2], acc.closed⟩
    rw [ready.acquired]
    refine ⟨_, _, rfl, ?_, [], List.forall_mem_nil _, rfl⟩
    refine acc.reloop member ⟨by simp, ?_, started⟩ ?_ (by simp) ?_
    · intro _ inside
      exact free (running.mpr (Or.inr inside))
    · simp [acc.owned, Owns, member]
    · intro r _ notCall
      simp [notCall]

theorem runLeavesOutcome {l : Nat} {rc : Status} (member : l ∈ s.live) (caller : (s.loops l).caller = true) (a : Answers) :
    ∃ s' e, runLeaves l rc s = some (s', e) ∧ Outcome a s s' := by
  obtain ⟨running, alone, started⟩ := acc.loops l member
  have unused : ∀ q ∈ s.ledger.held, .loopCall l ∉ q.needs := by
    intro q _ needed
    cases q <;> simp [Resource.needs] at needed
  have held : .loopCall l ∈ s.ledger.held := (acc.owned _).mpr ⟨member, caller⟩
  rw [runLeaves, release, if_pos ⟨held, unused⟩]
  refine ⟨_, _, rfl, ?_, [], List.forall_mem_nil _, rfl⟩
  refine acc.reloop member ⟨?_, by simp, started⟩ ?_ (by simp) ?_
  · simpa using alone caller
  · simp [acc.owned, Owns, member]
  · intro r _ notCall
    simp [notCall]

theorem startOutcome {l : Nat} (member : l ∈ s.live) (a : Answers) :
    ∃ s' rc, loopStart a l s = some (s', rc) ∧ Outcome a s s' := by
  obtain ⟨running, alone, started⟩ := acc.loops l member
  have up := acc.alive ⟨l, member⟩
  unfold loopStart
  rw [if_neg (by simp [up])]
  split
  · exact ⟨s, _, rfl, .unchanged acc⟩
  · rename_i notStarted
    have absent : (s.loops l).worker = .absent := by
      by_contra other
      exact notStarted (started.mpr other)
    have cleared : Accounted (s.setLoop l { s.loops l with asyncRc := .ok }) :=
      acc.moved member ⟨running, alone, started⟩ rfl rfl
    have ready : Ready (s.setLoop l { s.loops l with asyncRc := .ok }) (.loopThread l) :=
      ⟨by simp [acc.owned, Owns, notStarted], by simp [Resource.needs, (acc.loopHeld member).2], cleared.closed⟩
    rw [ready.madeIf a]
    by_cases passed : a.make (.loopThread l) = .ok
    · simp only [passed, if_true, Option.map_some]
      refine ⟨_, _, rfl, ?_, [], List.forall_mem_nil _, rfl⟩
      refine cleared.reloop member ⟨?_, by simp, by simp⟩ (by simp) ?_ ?_
      · simpa [absent] using running
      · simp [acc.owned, Owns, member]
      · intro r notThread _
        simp [notThread]
    · simp only [passed, if_false, Option.map_some]
      exact ⟨_, _, rfl, cleared, [], List.forall_mem_nil _, rfl⟩

/- A refused join keeps the thread; a granted one means that it has ended. -/
theorem stopOutcome {l : Nat} {a : Answers} (member : l ∈ s.live)
    (ended : a.drop (.loopThread l) = .ok → (s.loops l).asyncStarted = true → (s.loops l).worker = .exited) :
    ∃ s' rc, loopStop a l s = some (s', rc) ∧ Outcome a s s' := by
  obtain ⟨running, alone, started⟩ := acc.loops l member
  unfold loopStop
  split
  · exact ⟨s, _, rfl, .unchanged acc⟩
  split
  · exact ⟨s, _, rfl, .unchanged acc⟩
  · rename_i begun joined
    have async : (s.loops l).asyncStarted = true := by simpa using begun
    have accepted : a.drop (.loopThread l) = .ok := by simpa using joined
    have exited := ended accepted async
    have unused : ∀ q ∈ s.ledger.held, .loopThread l ∉ q.needs := by
      intro q _ needed
      cases q <;> simp [Resource.needs] at needed
    have held : .loopThread l ∈ s.ledger.held := (acc.owned (.loopThread l)).mpr ⟨member, async⟩
    rw [dropIf held unused]
    refine ⟨_, _, rfl, ?_, [], List.forall_mem_nil _, by simp [Process.lose, refusedOne, accepted]⟩
    refine acc.reloop member ⟨?_, by simp, by simp⟩ (by simp) ?_ ?_
    · simpa [Process.lose, exited] using running
    · simp [acc.owned, Owns, member, Process.lose]
    · intro r notThread _
      simp [notThread]

theorem destroyOutcome {l : Nat} (member : l ∈ s.live) (a : Answers) :
    ∃ s' rc, loopDestroy a l s = some (s', rc) ∧ Outcome a s s' := by
  obtain ⟨running, alone, started⟩ := acc.loops l member
  unfold loopDestroy
  split
  · exact ⟨s, _, rfl, .unchanged acc⟩
  split
  · exact ⟨s, _, rfl, .unchanged acc⟩
  · rename_i notStarted free
    have noCaller : ¬(s.loops l).caller = true := fun caller => free (running.mpr (Or.inl caller))
    have noThread : .loopThread l ∉ s.ledger.held := fun held => notStarted ((acc.owned (.loopThread l)).mp held).2
    have noCall : .loopCall l ∉ s.ledger.held := fun held => noCaller ((acc.owned (.loopCall l)).mp held).2
    have wakeupUnused : ∀ q ∈ s.ledger.held, .loopWakeup l ∉ q.needs := by
      intro q held needed
      cases q <;> simp [Resource.needs] at needed
      · exact noThread (needed ▸ held)
      · exact noCall (needed ▸ held)
    have memoryUnused : ∀ q ∈ (s.lose (.loopWakeup l) (refusedOne a (.loopWakeup l))).ledger.held,
        .loopMemory l ∉ q.needs := by
      intro q held needed
      cases q <;> simp [Resource.needs] at needed
      exact (memLose.mp held).1 (needed ▸ rfl)
    rw [dropIf (acc.loopHeld member).2 wakeupUnused, Option.bind_some,
      freeIf (memLose.mpr ⟨by simp, (acc.loopHeld member).1⟩) memoryUnused]
    refine ⟨_, _, rfl, ⟨acc.debug, acc.broker, acc.timerMgr, ?_, ?_, ?_⟩, refusedOne a (.loopWakeup l),
      refusedSelf a _, rfl⟩
    · rintro ⟨m, alive⟩
      exact acc.alive ⟨m, Finset.mem_of_mem_erase alive⟩
    · intro m alive
      exact acc.loops m (Finset.mem_of_mem_erase alive)
    · intro r
      change r ∈ ((s.lose _ _).lose _ _).ledger.held ↔ _
      rw [memLose, memLose, acc.owned]
      cases r
      case loopMemory m | loopWakeup m => simp [Owns, Process.lose]
      case loopThread m | loopCall m =>
        by_cases same : m = l
        · subst same
          simp [Owns, Process.lose, notStarted, noCaller]
        · simp [Owns, Process.lose, same]
      all_goals simp [Owns, Process.lose]

theorem created {l : Nat} {config : LoopConfig} (fresh : l ∉ s.live) (up : s.initialized = true) :
    Accounted (({ (s.gain (.loopMemory l)).gain (.loopWakeup l) with live := insert l s.live } : Process).setLoop l
      ⟨config, false, false, .ok, .absent, false⟩) := by
  refine ⟨acc.debug, acc.broker, acc.timerMgr, fun _ => up, ?_, ?_⟩
  · intro m alive
    by_cases same : m = l
    · subst same
      rw [setLoopHere]
      exact ⟨by simp, by simp, by simp⟩
    · rw [setLoopOther _ _ same]
      exact acc.loops m (Finset.mem_of_mem_insert_of_ne alive same)
  · intro r
    change r ∈ ((s.gain _).gain _).ledger.held ↔ _
    rw [memGain, memGain, acc.owned]
    cases r
    case loopMemory m | loopWakeup m => simp [Owns]
    case loopThread m | loopCall m =>
      by_cases same : m = l
      · subst same
        simp [Owns, fresh]
      · simp [Owns, same, setLoopOther]
    all_goals simp [Owns, Process.gain, Process.setLoop]

theorem createOutcome (abi : Abi) (sizeofLoop : Nat) (config : Option LoopConfig) {a : Answers}
    (fresh : a.block ∉ s.live) :
    ∃ s' rc, loopCreate abi sizeofLoop a config s = some (s', rc) ∧ Outcome a s s' := by
  unfold loopCreate
  split
  · exact ⟨s, _, rfl, .unchanged acc⟩
  · rename_i up
    have up : s.initialized = true := by simpa using up
    dsimp only
    generalize config.getD .default = config
    split
    · exact ⟨s, _, rfl, .unchanged acc⟩
    · have platform : .platform ∈ s.ledger.held := (acc.owned .platform).mpr up
      have memory : Ready s (.loopMemory a.block) :=
        ⟨by simp [acc.owned, Owns, fresh], by simp [Resource.needs, platform], acc.closed⟩
      have wakeup : Ready (s.gain (.loopMemory a.block)) (.loopWakeup a.block) :=
        ⟨by simp [acc.owned, Owns, fresh], by simp [Resource.needs], memory.gained⟩
      have ring : (⟨fun s => some (s, ringInit abi sizeofLoop a.block config.queueByteCapacity), some⟩ :
          Stage Process Status).Undoable .ok (SameButLeaks a) (s.gain (.loopMemory a.block) = ·)
          (s.gain (.loopMemory a.block) = ·) (ringInit abi sizeofLoop a.block config.queueByteCapacity) := by
        constructor
        · rintro passed _ rfl
          exact ⟨_, by rw [passed], rfl, fun t same => ⟨t, rfl, same⟩⟩
        · rintro _ _ rfl
          exact ⟨_, rfl, .refl a _⟩
      have stages := (memory.memory a).ladder (ring.ladder (wakeup.last a).bottom)
      obtain ⟨s', ended, passed, failed⟩ := flagged (fun s => ({ s with live := insert a.block s.live } : Process).setLoop
        a.block ⟨config, false, false, .ok, .absent, false⟩) stages s rfl
      refine ⟨s', _, ended, ?_⟩
      by_cases good : firstFailure Status.ok [nullIsNomem (a.make (.loopMemory a.block)),
          ringInit abi sizeofLoop a.block config.queueByteCapacity, a.make (.loopWakeup a.block)] = .ok
      · rw [← passed good]
        exact ⟨acc.created fresh up, [], List.forall_mem_nil _, rfl⟩
      · exact .ofSame acc (failed good)

theorem step (abi : Abi) (sizeofLoop : Nat) {c : Call} {a : Answers} (permitted : Permitted s (c, a)) :
    ∃ s' e, Runtime.step abi sizeofLoop s (c, a) = some (s', e) ∧ Outcome a s s' := by
  cases c with
  | init =>
    obtain ⟨s', rc, ended, outcome⟩ := acc.initOutcome a
    exact ⟨s', some rc, congrArg (Option.map _) ended, outcome⟩
  | shutdown =>
    obtain ⟨s', rc, ended, outcome⟩ := acc.shutdownOutcome permitted.1 a
    exact ⟨s', some rc, congrArg (Option.map _) ended, outcome⟩
  | loopCreate config =>
    obtain ⟨s', rc, ended, outcome⟩ := acc.createOutcome abi sizeofLoop config permitted
    exact ⟨s', some rc, congrArg (Option.map _) ended, outcome⟩
  | loopDestroy l =>
    obtain ⟨s', rc, ended, outcome⟩ := acc.destroyOutcome permitted a
    exact ⟨s', some rc, congrArg (Option.map _) ended, outcome⟩
  | runEnters l => exact acc.runEntersOutcome permitted a
  | runLeaves l rc => exact acc.runLeavesOutcome permitted.1 permitted.2 a
  | loopStart l =>
    obtain ⟨s', rc, ended, outcome⟩ := acc.startOutcome permitted a
    exact ⟨s', some rc, congrArg (Option.map _) ended, outcome⟩
  | workerEnters l =>
    refine ⟨_, none, rfl, acc.workerEntersAccounted permitted.1 permitted.2, [], List.forall_mem_nil _, ?_⟩
    simp only [workerEnters]
    split
    · rfl
    · split <;> rfl
  | workerLeaves l rc =>
    exact ⟨_, none, rfl, acc.workerLeavesAccounted permitted.1 permitted.2, [], List.forall_mem_nil _, rfl⟩
  | loopStop l =>
    obtain ⟨s', rc, ended, outcome⟩ := acc.stopOutcome permitted.1 permitted.2
    exact ⟨s', some rc, congrArg (Option.map _) ended, outcome⟩

end Accounted

theorem untouchedAccounted {s : Process} (start : Untouched s) : Accounted s := by
  obtain ⟨initialized, debug, broker, timerMgr, live, ledger⟩ := start
  refine ⟨debug.trans initialized.symm, broker.trans initialized.symm, timerMgr.trans initialized.symm, ?_, ?_, ?_⟩
  · intro some_
    simp [live] at some_
  · intro l member
    simp [live] at member
  · intro r
    cases r <;> simp [Owns, ledger, initialized, debug, broker, timerMgr, live]

theorem reachableAccounted {abi : Abi} {sizeofLoop : Nat} {s : Process} (reach : Reachable abi sizeofLoop s) :
    Accounted s := by
  refine reach.invariant (fun _ => untouchedAccounted) ?_
  rintro s ⟨c, a⟩ s' e acc permitted taken
  obtain ⟨t, e', ended, outcome⟩ := acc.step abi sizeofLoop permitted
  obtain ⟨rfl, _⟩ := Prod.mk.inj (Option.some.inj (taken.symm.trans ended))
  exact outcome.accounted

/- The account of a whole history: what is held is what the globals and the
live loops stand for, with everything it needs; only refused releases leak; and
no next call finds something missing, held twice or still in use. -/
theorem historyAccounted {abi : Abi} {sizeofLoop : Nat} {first s : Process}
    {visits : List (Visit Process (Call × Answers) (Option Status))} (start : Untouched first)
    (run : Run (step abi sizeofLoop) Permitted first visits s) :
    (∀ r, r ∈ s.ledger.held ↔ Owns s r) ∧ Closed Resource.needs s.ledger.held ∧
      (∀ r ∈ s.ledger.leaked, ∃ v ∈ visits, v.label.2.drop r ≠ .ok) ∧
      ∀ label, Permitted s label → ∃ s' e, step abi sizeofLoop s label = some (s', e) := by
  have acc : Accounted s := reachableAccounted (run.reachable (.start start))
  refine ⟨acc.owned, acc.closed, ?_, ?_⟩
  · clear acc
    induction run with
    | done =>
      intro r member
      rw [start.2.2.2.2.2] at member
      contradiction
    | @next s t visits label e before permitted taken ih =>
      intro r member
      have reach := before.reachable (TransitionSystem.Reachable.start start)
      obtain ⟨t', e', ended, outcome⟩ :=
        (reachableAccounted reach).step abi sizeofLoop (a := label.2) (c := label.1) permitted
      obtain ⟨rfl, _⟩ := Prod.mk.inj (Option.some.inj (taken.symm.trans ended))
      obtain ⟨more, refused, leaked⟩ := outcome.leaks
      rw [leaked, List.mem_append] at member
      rcases member with late | early
      · exact ⟨_, List.mem_append_right _ List.mem_cons_self, refused r late⟩
      · obtain ⟨v, inside, earlier⟩ := ih r early
        exact ⟨v, List.mem_append_left _ inside, earlier⟩
  · rintro ⟨c, a⟩ permitted
    obtain ⟨s', e, ended, _⟩ := acc.step abi sizeofLoop permitted
    exact ⟨s', e, ended⟩

def untouched : Process :=
  ⟨false, false, false, false, ∅, fun _ => ⟨.default, false, false, .ok, .absent, false⟩, ⟨∅, []⟩⟩

def allOk : Answers := ⟨fun _ => .ok, fun _ => .ok, .ok (0, 0), 64⟩

theorem untouchedReachable (abi : Abi) (sizeofLoop : Nat) : Reachable abi sizeofLoop untouched :=
  .start ⟨rfl, rfl, rfl, rfl, rfl, rfl⟩

/- A watcher left behind makes the waitset refuse its release: its handle alone
leaks, in a run that starts and stops a loop. -/
theorem waitsetLeftBehind : ∃ first s visits, Run (step .lp64 200) Permitted first visits s ∧
    (s.ledger.held = ∅ ∧ s.ledger.leaked = [.waitset]) ∧
    ∀ r ∈ s.ledger.leaked, ∃ v ∈ visits, v.label.2.drop r ≠ .ok := by
  have labels : ∃ s, executeAllowed (step .lp64 200) Permitted untouched
      [(.init, allOk), (.loopCreate none, allOk), (.loopStart 64, allOk), (.workerEnters 64, allOk),
        (.workerLeaves 64 .ok, allOk), (.loopStop 64, allOk), (.loopDestroy 64, allOk),
        (.shutdown, { allOk with drop := fun r => if r = .waitset then .exists else .ok })] = some s ∧
      s.ledger.held = ∅ ∧ s.ledger.leaked = [.waitset] := anyResult (by decide +kernel)
  obtain ⟨s, executed, left⟩ := labels
  have reach := executeAllowedReachable (untouchedReachable .lp64 200) executed
  obtain ⟨first, visits, start, run⟩ := reach.run
  exact ⟨first, s, visits, run, left, (historyAccounted start run).2.2.1⟩

/- `ns_init` is all or nothing: with the first code that failed it leaves the
process as it was, but for refused releases; so it can always be tried again. -/
theorem initAllOrNothing {abi : Abi} {sizeofLoop : Nat} {s : Process} (reach : Reachable abi sizeofLoop s)
    (down : s.initialized = false) (a : Answers) :
    ∃ s', nsInit a s = some (s', firstFailure .ok (initCodes a)) ∧
      ((∀ rc ∈ initCodes a, rc = .ok) → s'.initialized = true ∧ Holds s' runtimeResources) ∧
      ((∃ rc ∈ initCodes a, rc ≠ .ok) → firstFailure .ok (initCodes a) ≠ .ok ∧ SameButLeaks a s s') := by
  have acc := reachableAccounted reach
  obtain ⟨s', ended, passed, failed⟩ := acc.initTransactional down a s rfl
  refine ⟨s', ended, ?_, ?_⟩
  · intro all
    have up := acc.initialized down
    rw [passed (firstFailureGood.mpr all)] at up
    have initialized : s'.initialized = true := by
      rw [← passed (firstFailureGood.mpr all)]
      rfl
    refine ⟨initialized, up.holdsRuntime initialized ?_⟩
    rw [← passed (firstFailureGood.mpr all)]
    by_contra some_
    have alive := acc.alive (Finset.nonempty_iff_ne_empty.mpr some_)
    simp [down] at alive
  · rintro ⟨rc, member, bad⟩
    have stopped : firstFailure Status.ok (initCodes a) ≠ .ok := fun good => bad (firstFailureGood.mp good rc member)
    exact ⟨stopped, failed stopped⟩

/- No memory for the broker: what came before it is given back. -/
theorem initWithoutMemory : ∃ s',
    nsInit { allOk with make := fun r => if r = .brokerMemory then .nomem else .ok } untouched = some (s', .nomem) ∧
      SameButLeaks { allOk with make := fun r => if r = .brokerMemory then .nomem else .ok } untouched s' := by
  obtain ⟨s', ended, _, failed⟩ := initAllOrNothing (untouchedReachable .lp64 200) rfl
    { allOk with make := fun r => if r = .brokerMemory then .nomem else .ok }
  exact ⟨s', ended, (failed ⟨.nomem, by decide, by decide⟩).2⟩

end Nanosig.Runtime
