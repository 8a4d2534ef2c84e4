import Nanosig.Broker.System

/-! The life of a request: who holds the lock, where a thread and the broker stand for
each stage of a request, and what is on record of the requests that were refused,
accepted, executed and returned. -/
namespace Nanosig.Broker

open TransitionSystem

def SubmitPc.request : SubmitPc → Option Nat
  | .idle => none
  | .lock id | .push id | .signal id | .rollback id _ | .unlock id _ | .wait id | .readRc id | .leave id _ => some id

def SubmitPc.holdsLock : SubmitPc → Bool
  | .push _ | .signal _ | .rollback _ _ | .unlock _ _ => true
  | _ => false

def BrokerPc.request : BrokerPc → Option Nat
  | .unlockTaken id | .execute id | .setRc id _ | .wake id => some id
  | _ => none

def BrokerPc.holdsLock : BrokerPc → Bool
  | .take | .unlockEmpty | .unlockTaken _ => true
  | _ => false

section Invariants

variable {τ ω : Type} [DecidableEq τ] [DecidableEq ω] {s s' : State τ ω}

structure Locks (s : State τ ω) : Prop where
  thread : ∀ t, (s.threads t).holdsLock = true ↔ s.lock = some (.thread t)
  broker : s.broker.holdsLock = true ↔ s.lock = some .broker

omit [DecidableEq τ] in
theorem doOpFrame (s : State τ ω) (r : Request τ ω) (initialized : Bool) (rc : Status) :
    ∃ registered userData completions removed spoiled, (doOp s r initialized rc).1 = { s with
      registered := registered
      userData := userData
      completions := completions
      removed := removed
      spoiled := spoiled } := by
  unfold doOp doAdd doRemove
  cases r.op <;> simp only <;> split_ifs <;> exact ⟨_, _, _, _, _, rfl⟩

section Locks

variable {t : τ} {pc : SubmitPc}

omit [DecidableEq ω] in
theorem Locks.threadKeeps (inv : Locks s) (threads : s'.threads = Function.update s.threads t pc)
    (lock : s'.lock = s.lock) (broker : s'.broker = s.broker) (same : pc.holdsLock = (s.threads t).holdsLock) : Locks s' := by
  refine ⟨fun u => ?_, by rw [lock, broker]; exact inv.broker⟩
  rw [lock, threads, ← inv.thread u]
  by_cases own : u = t
  · subst own
    simp [same]
  · simp [own]

omit [DecidableEq ω] in
theorem Locks.threadLocks (inv : Locks s) (threads : s'.threads = Function.update s.threads t pc)
    (unlocked : s.lock = none) (lock : s'.lock = some (.thread t)) (broker : s'.broker = s.broker)
    (holds : pc.holdsLock = true) : Locks s' := by
  have free := inv.broker
  rw [unlocked] at free
  refine ⟨fun u => ?_, by rw [lock, broker]; simpa using free⟩
  have other := inv.thread u
  rw [unlocked] at other
  rw [lock, threads]
  by_cases own : u = t
  · subst own
    simp [holds]
  · simpa [own, Ne.symm own] using other

omit [DecidableEq ω] in
theorem Locks.threadUnlocks (inv : Locks s) (threads : s'.threads = Function.update s.threads t pc)
    (held : (s.threads t).holdsLock = true) (lock : s'.lock = none) (broker : s'.broker = s.broker)
    (releases : pc.holdsLock = false) : Locks s' := by
  have mine := (inv.thread t).mp held
  have free := inv.broker
  rw [mine] at free
  refine ⟨fun u => ?_, by rw [lock, broker]; simpa using free⟩
  have other := inv.thread u
  rw [mine] at other
  rw [lock, threads]
  by_cases own : u = t
  · subst own
    simp [releases]
  · simpa [own, Ne.symm own] using other

omit [DecidableEq τ] [DecidableEq ω] in
theorem Locks.brokerKeeps (inv : Locks s) (threads : s'.threads = s.threads) (lock : s'.lock = s.lock)
    (same : s'.broker.holdsLock = s.broker.holdsLock) : Locks s' := by
  refine ⟨fun u => ?_, ?_⟩
  · rw [threads, lock]
    exact inv.thread u
  · rw [same, lock]
    exact inv.broker

omit [DecidableEq τ] [DecidableEq ω] in
theorem Locks.brokerLocks (inv : Locks s) (threads : s'.threads = s.threads) (unlocked : s.lock = none)
    (lock : s'.lock = some .broker) (holds : s'.broker.holdsLock = true) : Locks s' := by
  refine ⟨fun u => ?_, by simp [lock, holds]⟩
  have other := inv.thread u
  rw [unlocked] at other
  rw [threads, lock]
  simpa using other

omit [DecidableEq τ] [DecidableEq ω] in
theorem Locks.brokerUnlocks (inv : Locks s) (threads : s'.threads = s.threads) (held : s.broker.holdsLock = true)
    (lock : s'.lock = none) (releases : s'.broker.holdsLock = false) : Locks s' := by
  refine ⟨fun u => ?_, by simp [lock, releases]⟩
  have other := inv.thread u
  rw [inv.broker.mp held] at other
  rw [threads, lock]
  simpa using other

theorem locksKept (move : Move s s') (inv : Locks s) : Locks s' := by
  cases move with
  | submit t op w idle => exact inv.threadKeeps rfl rfl rfl (by rw [idle]; rfl)
  | noWakeup t op w rc idle failed => exact inv.brokerKeeps rfl rfl rfl
  | lock t id pc unlocked => exact inv.threadLocks rfl unlocked rfl rfl rfl
  | push t id pc => exact inv.threadKeeps rfl rfl rfl (by rw [pc]; rfl)
  | signal t id pc => exact inv.threadKeeps rfl rfl rfl (by rw [pc]; rfl)
  | signalFails t id rc pc failed => exact inv.threadKeeps rfl rfl rfl (by rw [pc]; rfl)
  | rollback t id rc pc => exact inv.threadKeeps rfl rfl rfl (by rw [pc]; rfl)
  | unlock t id pc => exact inv.threadUnlocks rfl (by rw [pc]; rfl) rfl rfl rfl
  | unlockRefused t id rc pc => exact inv.threadUnlocks rfl (by rw [pc]; rfl) rfl rfl rfl
  | wakeup t id r pc given woken => exact inv.threadKeeps rfl rfl rfl (by rw [pc]; rfl)
  | retry => exact inv
  | readRc t id r rc pc given value => exact inv.threadKeeps rfl rfl rfl (by rw [pc]; rfl)
  | leave t id rc pc => exact inv.threadKeeps rfl rfl rfl (by rw [pc]; rfl)
  | notify => exact inv.brokerKeeps rfl rfl rfl
  | waited batch pc signaled => exact inv.brokerKeeps rfl rfl (by rw [pc]; rfl)
  | drainLast i pc last => exact inv.brokerKeeps rfl rfl (by rw [pc]; rfl)
  | drain i event c pc here => exact inv.brokerKeeps rfl rfl (by rw [pc]; rfl)
  | brokerLock pc unlocked => exact inv.brokerLocks rfl unlocked rfl rfl
  | takeNone pc empty => exact inv.brokerKeeps rfl rfl (by rw [pc]; rfl)
  | take id rest pc queue => exact inv.brokerKeeps rfl rfl (by rw [pc]; rfl)
  | unlockEmpty pc => exact inv.brokerUnlocks rfl (by rw [pc]; rfl) rfl rfl
  | unlockTaken id pc => exact inv.brokerUnlocks rfl (by rw [pc]; rfl) rfl rfl
  | execute id r initialized rc pc given =>
    obtain ⟨_, _, _, _, _, same⟩ := doOpFrame s r initialized rc
    rw [same]
    exact inv.brokerKeeps rfl rfl (by rw [pc]; rfl)
  | setRc id rc pc => exact inv.brokerKeeps rfl rfl (by rw [pc]; rfl)
  | wake id pc => exact inv.brokerKeeps rfl rfl (by rw [pc]; rfl)
  | dispatchLast i pc last => exact inv.brokerKeeps rfl rfl (by rw [pc]; rfl)
  | dispatch i c pc here => exact inv.brokerKeeps rfl rfl (by rw [pc]; rfl)
  | timers pc => exact inv.brokerKeeps rfl rfl (by rw [pc]; rfl)

end Locks

/- The stages after the wakeup was signaled, and those where the broker has the request. -/
def Stage.isOver : Stage → Bool
  | .done _ | .returned => true
  | _ => false

def Stage.isInHand : Stage → Bool
  | .taken | .ran _ | .answered _ => true
  | _ => false

def Stage.isWaiting : Stage → Bool
  | .pushed | .queued => true
  | _ => false

/- Where the owner of a request and the broker stand at each stage. -/
def Fits (s : State τ ω) (id : Nat) (r : Request τ ω) : Prop :=
  match r.stage with
  | .created => s.threads r.owner = .lock id ∨ s.threads r.owner = .push id
  | .pushed => s.threads r.owner = .signal id ∨ ∃ e, s.threads r.owner = .rollback id e
  | .refused e => s.threads r.owner = .unlock id (some e) ∨ s.threads r.owner = .leave id e
  | .queued => s.threads r.owner = .unlock id none ∨ s.threads r.owner = .wait id
  | .taken => s.threads r.owner = .wait id ∧ (s.broker = .unlockTaken id ∨ s.broker = .execute id)
  | .ran rc => s.threads r.owner = .wait id ∧ s.broker = .setRc id rc
  | .answered rc => s.threads r.owner = .wait id ∧ s.broker = .wake id ∧ r.rc = some rc
  | .done rc =>
      r.woken = true ∧ r.rc = some rc ∧
        (s.threads r.owner = .wait id ∨ s.threads r.owner = .readRc id ∨ s.threads r.owner = .leave id rc)
  | .returned => True

structure Requests (s : State τ ω) : Prop where
  fits : ∀ id r, s.requests id = some r → Fits s id r
  woken : ∀ id r, s.requests id = some r → r.woken = true → r.stage.isOver = true
  fresh : ∀ id r, s.requests id = some r → id < s.fresh
  thread : ∀ t id, (s.threads t).request = some id → ∃ r, s.requests id = some r ∧ r.owner = t ∧ r.stage ≠ .returned
  broker : ∀ id, s.broker.request = some id → ∃ r, s.requests id = some r ∧ r.stage.isInHand = true
  queue : ∀ id ∈ s.queue, ∃ r, s.requests id = some r ∧ r.stage.isWaiting = true
  nodup : s.queue.Nodup

omit [DecidableEq τ] [DecidableEq ω] in
theorem Fits.keep {id : Nat} {r : Request τ ω} (fits : Fits s id r)
    (thread : (s.threads r.owner).request = some id → s'.threads r.owner = s.threads r.owner)
    (broker : s.broker.request = some id → s'.broker = s.broker) : Fits s' id r := by
  unfold Fits at fits ⊢
  split at fits
  · rcases fits with pc | pc <;> simp [thread (by rw [pc]; rfl), pc]
  · rcases fits with pc | ⟨e, pc⟩ <;> simp [thread (by rw [pc]; rfl), pc]
  · rcases fits with pc | pc <;> simp [thread (by rw [pc]; rfl), pc]
  · rcases fits with pc | pc <;> simp [thread (by rw [pc]; rfl), pc]
  · obtain ⟨pc, hand | hand⟩ := fits <;> simp [thread (by rw [pc]; rfl), pc, broker (by rw [hand]; rfl), hand]
  · obtain ⟨pc, hand⟩ := fits
    simp [thread (by rw [pc]; rfl), pc, broker (by rw [hand]; rfl), hand]
  · obtain ⟨pc, hand, rc⟩ := fits
    simp [thread (by rw [pc]; rfl), pc, broker (by rw [hand]; rfl), hand, rc]
  · obtain ⟨woken, rc, pc | pc | pc⟩ := fits <;> simp [thread (by rw [pc]; rfl), pc, woken, rc]
  · trivial

structure ThreadMove (s s' : State τ ω) (t : τ) (id : Nat) (pc : SubmitPc) (r : Request τ ω) : Prop where
  own : (s.threads t).request = some id ∨ s.requests id = none ∧ (s.threads t).request = none
  threads : s'.threads = Function.update s.threads t pc
  broker : s'.broker = s.broker
  others : ∀ other, other ≠ id → s'.requests other = s.requests other
  mine : s'.requests id = some r
  owner : r.owner = t
  small : id < s'.fresh
  fresh : s.fresh ≤ s'.fresh
  fits : Fits s' id r
  woken : r.woken = true → r.stage.isOver = true
  ends : pc.request = some id ∧ r.stage ≠ .returned ∨ pc.request = none
  hand : ∀ old, s.requests id = some old → old.stage.isInHand = true → r.stage.isInHand = true
  queue : ∀ other ∈ s'.queue, other ∈ s.queue ∧ other ≠ id ∨ other = id ∧ r.stage.isWaiting = true
  nodup : s'.queue.Nodup

omit [DecidableEq ω] in
theorem Requests.threadMoves (inv : Requests s) (t : τ) (id : Nat) (pc : SubmitPc) (r : Request τ ω)
    (move : ThreadMove s s' t id pc r) : Requests s' := by
  refine ⟨fun other r' given => ?_, fun other r' given => ?_, fun other r' given => ?_, fun u other at_ => ?_,
    fun other at_ => ?_, fun other member => ?_, move.nodup⟩
  · by_cases same : other = id
    · subst same
      rw [move.mine] at given
      cases given
      exact move.fits
    · rw [move.others other same] at given
      refine (inv.fits other r' given).keep (fun refers => ?_) fun _ => move.broker
      have foreign : r'.owner ≠ t := by
        intro mine
        rw [mine] at refers
        rcases move.own with own | ⟨-, own⟩
        · exact same (Option.some.inj (refers.symm.trans own))
        · rw [own] at refers
          contradiction
      rw [move.threads, Function.update_of_ne foreign]
  · by_cases same : other = id
    · subst same
      rw [move.mine] at given
      cases given
      exact move.woken
    · rw [move.others other same] at given
      exact inv.woken other r' given
  · by_cases same : other = id
    · rw [same]
      exact move.small
    · rw [move.others other same] at given
      exact Nat.lt_of_lt_of_le (inv.fresh other r' given) move.fresh
  · rw [move.threads] at at_
    by_cases mine : u = t
    · subst mine
      rw [Function.update_self] at at_
      rcases move.ends with ⟨refers, live⟩ | refers
      · cases refers.symm.trans at_
        exact ⟨r, move.mine, move.owner, live⟩
      · rw [refers] at at_
        contradiction
    · rw [Function.update_of_ne mine] at at_
      obtain ⟨r', given, owner, live⟩ := inv.thread u other at_
      have differs : other ≠ id := by
        intro same
        subst same
        rcases move.own with own | ⟨free, -⟩
        · obtain ⟨old, given', owner', -⟩ := inv.thread t other own
          rw [given] at given'
          cases given'
          exact mine (owner.symm.trans owner')
        · rw [free] at given
          contradiction
      exact ⟨r', (move.others other differs).trans given, owner, live⟩
  · rw [move.broker] at at_
    obtain ⟨r', given, hand⟩ := inv.broker other at_
    by_cases same : other = id
    · subst same
      exact ⟨r, move.mine, move.hand r' given hand⟩
    · exact ⟨r', (move.others other same).trans given, hand⟩
  · rcases move.queue other member with ⟨before, differs⟩ | ⟨rfl, waits⟩
    · obtain ⟨r', given, waits⟩ := inv.queue other before
      exact ⟨r', (move.others other differs).trans given, waits⟩
    · exact ⟨r, move.mine, waits⟩

/- A step of the broker on the request `id`, which its owner does not leave meanwhile. -/
structure BrokerMove (s s' : State τ ω) (id : Nat) (r r' : Request τ ω) : Prop where
  given : s.requests id = some r
  own : s.broker.request = some id ∨ s.broker.request = none
  threads : s'.threads = s.threads
  requests : s'.requests = Function.update s.requests id (some r')
  owner : r'.owner = r.owner
  fresh : s'.fresh = s.fresh
  fits : Fits s' id r'
  woken : r'.woken = true → r'.stage.isOver = true
  stage : r'.stage = .returned → r.stage = .returned
  ends : s'.broker.request = some id ∧ r'.stage.isInHand = true ∨ s'.broker.request = none
  queue : ∀ other ∈ s'.queue, other ∈ s.queue ∧ other ≠ id
  nodup : s'.queue.Nodup

omit [DecidableEq τ] [DecidableEq ω] in
theorem Requests.brokerMoves (inv : Requests s) (id : Nat) (r r' : Request τ ω) (move : BrokerMove s s' id r r') : Requests s' := by
  have mine : s'.requests id = some r' := by rw [move.requests, Function.update_self]
  have others : ∀ other, other ≠ id → s'.requests other = s.requests other := fun other differs => by
    rw [move.requests, Function.update_of_ne differs]
  refine ⟨fun other q given => ?_, fun other q given => ?_, fun other q given => ?_, fun u other at_ => ?_,
    fun other at_ => ?_, fun other member => ?_, move.nodup⟩
  · by_cases same : other = id
    · subst same
      rw [mine] at given
      cases given
      exact move.fits
    · rw [others other same] at given
      refine (inv.fits other q given).keep (fun _ => by rw [move.threads]) fun refers => ?_
      rcases move.own with own | own
      · exact absurd (Option.some.inj (refers.symm.trans own)) same
      · rw [own] at refers
        contradiction
  · by_cases same : other = id
    · subst same
      rw [mine] at given
      cases given
      exact move.woken
    · rw [others other same] at given
      exact inv.woken other q given
  · rw [move.fresh]
    by_cases same : other = id
    · rw [same]
      exact inv.fresh id r move.given
    · rw [others other same] at given
      exact inv.fresh other q given
  · rw [move.threads] at at_
    obtain ⟨q, given, owner, live⟩ := inv.thread u other at_
    by_cases same : other = id
    · subst same
      cases move.given.symm.trans given
      exact ⟨r', mine, move.owner.trans owner, fun returned => live (move.stage returned)⟩
    · exact ⟨q, (others other same).trans given, owner, live⟩
  · rcases move.ends with ⟨refers, hand⟩ | refers
    · cases refers.symm.trans at_
      exact ⟨r', mine, hand⟩
    · rw [refers] at at_
      contradiction
  · obtain ⟨before, differs⟩ := move.queue other member
    obtain ⟨q, given, waits⟩ := inv.queue other before
    exact ⟨q, (others other differs).trans given, waits⟩

omit [DecidableEq τ] [DecidableEq ω] in
theorem Requests.keep (inv : Requests s) (requests : s'.requests = s.requests) (fresh : s'.fresh = s.fresh)
    (threads : s'.threads = s.threads) (queue : s'.queue = s.queue)
    (broker : ∀ id, s.broker.request = some id ∨ s'.broker.request = some id → s'.broker = s.broker) : Requests s' := by
  refine ⟨?_, by rw [requests]; exact inv.woken, by rw [requests, fresh]; exact inv.fresh,
    by rw [threads, requests]; exact inv.thread, fun id at_ => ?_, by rw [queue, requests]; exact inv.queue,
    by rw [queue]; exact inv.nodup⟩
  · rw [requests]
    exact fun id r given => (inv.fits id r given).keep (fun _ => by rw [threads]) fun refers => broker id (.inl refers)
  · rw [broker id (.inr at_)] at at_
    rw [requests]
    exact inv.broker id at_

omit [DecidableEq τ] [DecidableEq ω] in
theorem Requests.own (inv : Requests s) (t : τ) (id : Nat) (refers : (s.threads t).request = some id) :
    ∃ r, s.requests id = some r ∧ r.owner = t ∧ r.stage ≠ .returned ∧ Fits s id r := by
  obtain ⟨r, given, owner, live⟩ := inv.thread t id refers
  exact ⟨r, given, owner, live, inv.fits id r given⟩

omit [DecidableEq τ] [DecidableEq ω] in
theorem Requests.createdAt (inv : Requests s) {t : τ} {id : Nat} (pc : s.threads t = .lock id ∨ s.threads t = .push id) :
    ∃ r, s.requests id = some r ∧ r.owner = t ∧ r.stage = .created := by
  obtain ⟨r, given, owner, live, fits⟩ := inv.own t id (by rcases pc with pc | pc <;> rw [pc] <;> rfl)
  refine ⟨r, given, owner, ?_⟩
  unfold Fits at fits
  rw [owner] at fits
  split at fits <;> grind

omit [DecidableEq τ] [DecidableEq ω] in
theorem Requests.pushedAt (inv : Requests s) {t : τ} {id : Nat}
    (pc : s.threads t = .signal id ∨ ∃ e, s.threads t = .rollback id e) :
    ∃ r, s.requests id = some r ∧ r.owner = t ∧ r.stage = .pushed := by
  obtain ⟨r, given, owner, live, fits⟩ := inv.own t id (by rcases pc with pc | ⟨e, pc⟩ <;> rw [pc] <;> rfl)
  refine ⟨r, given, owner, ?_⟩
  unfold Fits at fits
  rw [owner] at fits
  split at fits <;> grind

omit [DecidableEq τ] [DecidableEq ω] in
theorem Requests.refusedAt (inv : Requests s) {t : τ} {id : Nat} {e : Status} (pc : s.threads t = .unlock id (some e)) :
    ∃ r, s.requests id = some r ∧ r.owner = t ∧ r.stage = .refused e := by
  obtain ⟨r, given, owner, live, fits⟩ := inv.own t id (by rw [pc]; rfl)
  refine ⟨r, given, owner, ?_⟩
  unfold Fits at fits
  rw [owner] at fits
  split at fits <;> grind

omit [DecidableEq τ] [DecidableEq ω] in
theorem Requests.queuedAt (inv : Requests s) {t : τ} {id : Nat} (pc : s.threads t = .unlock id none) :
    ∃ r, s.requests id = some r ∧ r.owner = t ∧ r.stage = .queued := by
  obtain ⟨r, given, owner, live, fits⟩ := inv.own t id (by rw [pc]; rfl)
  refine ⟨r, given, owner, ?_⟩
  unfold Fits at fits
  rw [owner] at fits
  split at fits <;> grind

omit [DecidableEq τ] [DecidableEq ω] in
theorem Requests.doneAt (inv : Requests s) {t : τ} {id : Nat} (pc : s.threads t = .readRc id) :
    ∃ r rc, s.requests id = some r ∧ r.owner = t ∧ r.stage = .done rc ∧ r.woken = true ∧ r.rc = some rc := by
  obtain ⟨r, given, owner, live, fits⟩ := inv.own t id (by rw [pc]; rfl)
  unfold Fits at fits
  rw [owner] at fits
  split at fits
  case h_8 rc stage => exact ⟨r, rc, given, owner, stage, fits.1, fits.2.1⟩
  all_goals grind

omit [DecidableEq τ] [DecidableEq ω] in
theorem Requests.endsAt (inv : Requests s) {t : τ} {id : Nat} {rc : Status} (pc : s.threads t = .leave id rc) :
    ∃ r, s.requests id = some r ∧ r.owner = t ∧ (r.stage = .done rc ∨ r.stage = .refused rc) := by
  obtain ⟨r, given, owner, live, fits⟩ := inv.own t id (by rw [pc]; rfl)
  refine ⟨r, given, owner, ?_⟩
  unfold Fits at fits
  rw [owner] at fits
  split at fits <;> grind

omit [DecidableEq τ] [DecidableEq ω] in
theorem Requests.inHand (inv : Requests s) (id : Nat) (refers : s.broker.request = some id) :
    ∃ r, s.requests id = some r ∧ s.threads r.owner = .wait id ∧
      (r.stage = .taken ∧ (s.broker = .unlockTaken id ∨ s.broker = .execute id) ∨
        (∃ rc, r.stage = .ran rc ∧ s.broker = .setRc id rc) ∨
        ∃ rc, r.stage = .answered rc ∧ s.broker = .wake id ∧ r.rc = some rc) := by
  obtain ⟨r, given, hand⟩ := inv.broker id refers
  have fits := inv.fits id r given
  refine ⟨r, given, ?_⟩
  unfold Fits at fits
  cases stage : r.stage <;> simp only [stage, Stage.isInHand, Bool.false_eq_true, reduceCtorEq] at hand fits ⊢
  · exact ⟨fits.1, .inl ⟨trivial, fits.2⟩⟩
  · exact ⟨fits.1, .inr (.inl ⟨_, rfl, fits.2⟩)⟩
  · exact ⟨fits.1, .inr (.inr ⟨_, rfl, fits.2⟩)⟩

omit [DecidableEq τ] [DecidableEq ω] in
theorem Requests.stageWaits (inv : Requests s) {id : Nat} {r : Request τ ω} (given : s.requests id = some r)
    (member : id ∈ s.queue) : r.stage.isWaiting = true := by
  obtain ⟨r', given', waits⟩ := inv.queue id member
  cases given.symm.trans given'
  exact waits

omit [DecidableEq τ] [DecidableEq ω] in
theorem Requests.others (inv : Requests s) {id : Nat} {r : Request τ ω} (given : s.requests id = some r)
    (stage : r.stage.isWaiting = false) (other : Nat) (member : other ∈ s.queue) : other ∈ s.queue ∧ other ≠ id := by
  refine ⟨member, fun same => ?_⟩
  rw [inv.stageWaits given (same ▸ member)] at stage
  contradiction

omit [DecidableEq τ] [DecidableEq ω] in
theorem Requests.freshFree (inv : Requests s) : s.requests s.fresh = none := by
  by_contra some
  obtain ⟨r, given⟩ := Option.ne_none_iff_exists'.mp some
  exact absurd (inv.fresh _ r given) (Nat.lt_irrefl _)

omit [DecidableEq τ] [DecidableEq ω] in
theorem Requests.queuedOld (inv : Requests s) {id : Nat} (member : id ∈ s.queue) : id ≠ s.fresh := by
  intro same
  obtain ⟨r, given, -⟩ := inv.queue id member
  rw [same, inv.freshFree] at given
  contradiction

omit [DecidableEq τ] [DecidableEq ω] in
theorem Requests.notWoken (inv : Requests s) {id : Nat} {r : Request τ ω} (given : s.requests id = some r)
    (runs : r.stage.isOver = false) : ¬r.woken = true := by
  intro woken
  rw [inv.woken id r given woken] at runs
  contradiction

omit [DecidableEq τ] [DecidableEq ω] in
theorem Requests.queuedFor (inv : Requests s) (locks : Locks s) (held : s.lock = some .broker) (id : Nat) (member : id ∈ s.queue) :
    ∃ r, s.requests id = some r ∧ r.stage = .queued ∧ s.threads r.owner = .wait id := by
  obtain ⟨r, given, waits⟩ := inv.queue id member
  have pcs := inv.fits id r given
  have free : (s.threads r.owner).holdsLock = false := by
    by_contra holds
    have mine := (locks.thread r.owner).mp (by simpa using holds)
    simp [held] at mine
  unfold Fits at pcs
  cases stage : r.stage <;> simp only [stage, Stage.isWaiting, Bool.false_eq_true] at waits pcs
  · rcases pcs with at_ | ⟨e, at_⟩ <;> rw [at_] at free <;> contradiction
  · rcases pcs with at_ | at_
    · rw [at_] at free
      contradiction
    · exact ⟨r, given, stage, at_⟩

omit [DecidableEq ω] in
theorem Requests.threadPasses (inv : Requests s) {t : τ} {id : Nat} {r : Request τ ω} (pc : SubmitPc)
    (own : (s.threads t).request = some id) (given : s.requests id = some r) (owner : r.owner = t)
    (live : r.stage ≠ .returned) (refers : pc.request = some id) (lock : Option (Holder τ))
    (fits : Fits { s.setThread t pc with lock := lock } id r) : Requests { s.setThread t pc with lock := lock } :=
  inv.threadMoves t id pc r {
    own := .inl own
    threads := rfl
    broker := rfl
    others := fun _ _ => rfl
    mine := given
    owner := owner
    small := inv.fresh id r given
    fresh := Nat.le_refl _
    fits := fits
    woken := inv.woken id r given
    ends := .inl ⟨refers, live⟩
    hand := fun old same hand => by
      cases given.symm.trans same
      exact hand
    queue := fun other member => by
      by_cases same : other = id
      · subst same
        exact .inr ⟨rfl, inv.stageWaits given member⟩
      · exact .inl ⟨member, same⟩
    nodup := inv.nodup }

omit [DecidableEq ω] in
theorem Requests.stageMoves (inv : Requests s) {t : τ} {id : Nat} {r : Request τ ω} (pc : SubmitPc) (stage : Stage)
    (own : (s.threads t).request = some id) (given : s.requests id = some r) (owner : r.owner = t)
    (notInHand : r.stage.isInHand = false) (threads : s'.threads = Function.update s.threads t pc) (broker : s'.broker = s.broker)
    (requests : s'.requests = Function.update s.requests id (some (stageTo stage r))) (fresh : s'.fresh = s.fresh)
    (fits : Fits s' id (stageTo stage r)) (woken : r.woken = true → stage.isOver = true)
    (ends : pc.request = some id ∧ stage ≠ .returned ∨ pc.request = none)
    (queue : ∀ other ∈ s'.queue, other ∈ s.queue ∧ other ≠ id ∨ other = id ∧ stage.isWaiting = true)
    (nodup : s'.queue.Nodup) : Requests s' :=
  inv.threadMoves t id pc (stageTo stage r) {
    own := .inl own
    threads := threads
    broker := broker
    others := fun other differs => by rw [requests, Function.update_of_ne differs]
    mine := by rw [requests, Function.update_self]
    owner := owner
    small := fresh ▸ inv.fresh id r given
    fresh := Nat.le_of_eq fresh.symm
    fits := fits
    woken := woken
    ends := ends
    hand := fun old same hand => by
      cases given.symm.trans same
      rw [hand] at notInHand
      contradiction
    queue := queue
    nodup := nodup }

omit [DecidableEq ω] in
theorem Requests.creates (inv : Requests s) {t : τ} {r : Request τ ω} (pc : SubmitPc) (idle : s.threads t = .idle)
    (threads : s'.threads = Function.update s.threads t pc) (broker : s'.broker = s.broker)
    (requests : s'.requests = Function.update s.requests s.fresh (some r)) (owner : r.owner = t)
    (fresh : s'.fresh = s.fresh + 1) (queue : s'.queue = s.queue) (fits : Fits s' s.fresh r) (asleep : r.woken = false)
    (ends : pc.request = some s.fresh ∧ r.stage ≠ .returned ∨ pc.request = none) : Requests s' :=
  inv.threadMoves t s.fresh pc r {
    own := .inr ⟨inv.freshFree, by rw [idle]; rfl⟩
    threads := threads
    broker := broker
    others := fun other differs => by rw [requests, Function.update_of_ne differs]
    mine := by rw [requests, Function.update_self]
    owner := owner
    small := fresh ▸ Nat.lt_succ_self _
    fresh := fresh ▸ Nat.le_succ _
    fits := fits
    woken := fun woken => by
      rw [asleep] at woken
      contradiction
    ends := ends
    hand := fun old given => by
      rw [inv.freshFree] at given
      contradiction
    queue := fun other member => by
      rw [queue] at member
      exact .inl ⟨member, inv.queuedOld member⟩
    nodup := queue ▸ inv.nodup }

omit [DecidableEq τ] [DecidableEq ω] in
theorem Requests.handMoves (inv : Requests s) {id : Nat} {r : Request τ ω} (r' : Request τ ω) (given : s.requests id = some r)
    (own : s.broker.request = some id) (outside : r.stage.isWaiting = false) (threads : s'.threads = s.threads)
    (requests : s'.requests = Function.update s.requests id (some r')) (owner : r'.owner = r.owner) (fresh : s'.fresh = s.fresh)
    (queue : s'.queue = s.queue) (fits : Fits s' id r') (woken : r'.woken = true → r'.stage.isOver = true)
    (stage : r'.stage = .returned → r.stage = .returned)
    (ends : s'.broker.request = some id ∧ r'.stage.isInHand = true ∨ s'.broker.request = none) : Requests s' :=
  inv.brokerMoves id r r' {
    given := given
    own := .inl own
    threads := threads
    requests := requests
    owner := owner
    fresh := fresh
    fits := fits
    woken := woken
    stage := stage
    ends := ends
    queue := queue ▸ inv.others given outside
    nodup := queue ▸ inv.nodup }

omit [DecidableEq ω] in
theorem Requests.pushes (inv : Requests s) {t : τ} {id : Nat} (pc : s.threads t = .push id) :
    Requests { (s.setThread t (.signal id)).setRequest id (stageTo .pushed) with queue := s.queue ++ [id] } := by
  obtain ⟨r, given, owner, stage⟩ := inv.createdAt (.inr pc)
  have outside : id ∉ s.queue := fun member => by
    have waits := inv.stageWaits given member
    rw [stage] at waits
    contradiction
  refine inv.stageMoves (.signal id) .pushed (by rw [pc]; rfl) given owner (by rw [stage]; rfl) rfl rfl
    (by simp [State.setThread, State.setRequest, given]) rfl ?_ ?_ (.inl ⟨rfl, by simp⟩) (fun other member => ?_)
    (inv.nodup.append (List.nodup_singleton _) (by simpa using outside))
  · simp [Fits, stageTo, owner, State.setThread, State.setRequest]
  · exact fun woken => absurd woken (inv.notWoken given (by rw [stage]; rfl))
  · rcases List.mem_append.mp member with before | last
    · exact .inl ⟨before, fun same => outside (same ▸ before)⟩
    · exact .inr ⟨List.mem_singleton.mp last, rfl⟩

omit [DecidableEq ω] in
theorem Requests.signals (inv : Requests s) {t : τ} {id : Nat} (pc : s.threads t = .signal id) :
    Requests { (s.setThread t (.unlock id none)).setRequest id (stageTo .queued) with
      event := true
      accepted := s.accepted ++ [id] } := by
  obtain ⟨r, given, owner, stage⟩ := inv.pushedAt (.inl pc)
  refine inv.stageMoves (.unlock id none) .queued (by rw [pc]; rfl) given owner (by rw [stage]; rfl) rfl rfl
    (by simp [State.setThread, State.setRequest, given]) rfl ?_ ?_ (.inl ⟨rfl, by simp⟩) (fun other member => ?_) inv.nodup
  · simp [Fits, stageTo, owner, State.setThread, State.setRequest]
  · exact fun woken => absurd woken (inv.notWoken given (by rw [stage]; rfl))
  · by_cases same : other = id
    · exact .inr ⟨same, rfl⟩
    · exact .inl ⟨member, same⟩

omit [DecidableEq ω] in
theorem Requests.rollsBack (inv : Requests s) {t : τ} {id : Nat} {rc : Status} (pc : s.threads t = .rollback id rc) :
    Requests { (s.setThread t (.unlock id (some rc))).setRequest id (stageTo (.refused rc)) with
      queue := s.queue.erase id
      refused := s.refused ++ [(id, rc)] } := by
  obtain ⟨r, given, owner, stage⟩ := inv.pushedAt (.inr ⟨rc, pc⟩)
  refine inv.stageMoves (.unlock id (some rc)) (.refused rc) (by rw [pc]; rfl) given owner (by rw [stage]; rfl) rfl rfl
    (by simp [State.setThread, State.setRequest, given]) rfl ?_ ?_ (.inl ⟨rfl, by simp⟩) (fun other member => ?_)
    (inv.nodup.erase id)
  · simp [Fits, stageTo, owner, State.setThread, State.setRequest]
  · exact fun woken => absurd woken (inv.notWoken given (by rw [stage]; rfl))
  · obtain ⟨differs, before⟩ := inv.nodup.mem_erase_iff.mp member
    exact .inl ⟨before, differs⟩

omit [DecidableEq ω] in
theorem Requests.leaves (inv : Requests s) {t : τ} {id : Nat} {rc : Status} (pc : s.threads t = .leave id rc) :
    Requests { (s.setThread t .idle).setRequest id (stageTo .returned) with returned := s.returned ++ [(t, id, rc)] } := by
  obtain ⟨r, given, owner, stage⟩ := inv.endsAt pc
  refine inv.stageMoves .idle .returned (by rw [pc]; rfl) given owner ?_ rfl rfl
    (by simp [State.setThread, State.setRequest, given]) rfl ?_ (fun _ => rfl) (.inr rfl) (fun other member => ?_) inv.nodup
  · rcases stage with stage | stage <;> rw [stage] <;> rfl
  · simp [Fits, stageTo]
  · refine .inl ⟨member, fun same => ?_⟩
    have waits := inv.stageWaits given (same ▸ member)
    rcases stage with stage | stage <;> rw [stage] at waits <;> contradiction

omit [DecidableEq τ] [DecidableEq ω] in
theorem Requests.takes (inv : Requests s) (locks : Locks s) {id : Nat} {rest : List Nat} (pc : s.broker = .take)
    (queue : s.queue = id :: rest) :
    Requests { s.setRequest id (stageTo .taken) with queue := rest, broker := .unlockTaken id } := by
  have distinct := inv.nodup
  rw [queue] at distinct
  obtain ⟨outside, tail⟩ := List.nodup_cons.mp distinct
  obtain ⟨r, given, stage, waiting⟩ := inv.queuedFor locks (locks.broker.mp (by rw [pc]; rfl)) id (by simp [queue])
  have asleep := inv.notWoken given (by rw [stage]; rfl)
  exact inv.brokerMoves id r (stageTo .taken r) {
    given := given
    own := .inr (by rw [pc]; rfl)
    threads := rfl
    requests := by simp [State.setRequest, given]
    owner := rfl
    fresh := rfl
    fits := by simp [Fits, stageTo, waiting, State.setRequest]
    woken := fun woken => absurd woken asleep
    stage := by simp [stageTo]
    ends := .inl ⟨rfl, rfl⟩
    queue := fun other member => ⟨by simp [queue, (member : other ∈ rest)], fun same => outside (same ▸ member)⟩
    nodup := tail }

theorem requestsKept (move : Move s s') (locks : Locks s) (inv : Requests s) : Requests s' := by
  cases move with
  | submit t op w idle =>
    exact inv.creates (.lock s.fresh) idle rfl rfl rfl rfl rfl rfl (by simp [Fits, State.setThread]) rfl (.inl ⟨rfl, by simp⟩)
  | noWakeup t op w rc idle failed =>
    exact inv.creates .idle idle (by rw [← idle, Function.update_eq_self]) rfl rfl rfl rfl rfl (by simp [Fits]) rfl (.inr rfl)
  | lock t id pc unlocked =>
    obtain ⟨r, given, owner, stage⟩ := inv.createdAt (.inl pc)
    exact inv.threadPasses (.push id) (by rw [pc]; rfl) given owner (by simp [stage]) rfl _
      (by simp [Fits, stage, owner, State.setThread])
  | push t id pc => exact inv.pushes pc
  | signal t id pc => exact inv.signals pc
  | signalFails t id rc pc failed =>
    obtain ⟨r, given, owner, stage⟩ := inv.pushedAt (.inl pc)
    exact inv.threadPasses (.rollback id rc) (by rw [pc]; rfl) given owner (by simp [stage]) rfl _
      (by simp [Fits, stage, owner, State.setThread])
  | rollback t id rc pc => exact inv.rollsBack pc
  | unlock t id pc =>
    obtain ⟨r, given, owner, stage⟩ := inv.queuedAt pc
    exact inv.threadPasses (.wait id) (by rw [pc]; rfl) given owner (by simp [stage]) rfl _
      (by simp [Fits, stage, owner, State.setThread])
  | unlockRefused t id rc pc =>
    obtain ⟨r, given, owner, stage⟩ := inv.refusedAt pc
    exact inv.threadPasses (.leave id rc) (by rw [pc]; rfl) given owner (by simp [stage]) rfl _
      (by simp [Fits, stage, owner, State.setThread])
  | wakeup t id r pc given woken =>
    obtain ⟨r', given', owner, live, fits⟩ := inv.own t id (by rw [pc]; rfl)
    cases given.symm.trans given'
    have ended := inv.woken id r given woken
    refine inv.threadPasses (.readRc id) (by rw [pc]; rfl) given owner live rfl _ ?_
    unfold Fits at fits ⊢
    cases stage : r.stage <;> simp only [stage, Stage.isOver, Bool.false_eq_true] at ended fits ⊢
    exact ⟨woken, fits.2.1, by simp [owner, State.setThread]⟩
  | retry => exact inv
  | readRc t id r rc pc given value =>
    obtain ⟨r', rc', given', owner, stage, woken, result⟩ := inv.doneAt pc
    cases given.symm.trans given'
    cases value.symm.trans result
    exact inv.threadPasses (.leave id rc) (by rw [pc]; rfl) given owner (by simp [stage]) rfl _
      (by simp [Fits, stage, owner, woken, value, State.setThread])
  | leave t id rc pc => exact inv.leaves pc
  | notify => exact inv.keep rfl rfl rfl rfl fun _ _ => rfl
  | waited batch pc signaled => exact inv.keep rfl rfl rfl rfl (by simp [pc, BrokerPc.request])
  | drainLast i pc last => exact inv.keep rfl rfl rfl rfl (by simp [pc, BrokerPc.request])
  | drain i event c pc here => exact inv.keep rfl rfl rfl rfl (by simp [pc, BrokerPc.request])
  | brokerLock pc unlocked => exact inv.keep rfl rfl rfl rfl (by simp [pc, BrokerPc.request])
  | takeNone pc empty => exact inv.keep rfl rfl rfl rfl (by simp [pc, BrokerPc.request])
  | take id rest pc queue => exact inv.takes locks pc queue
  | unlockEmpty pc => exact inv.keep rfl rfl rfl rfl (by simp [pc, BrokerPc.request])
  | unlockTaken id pc =>
    obtain ⟨r, given, waiting, hand⟩ := inv.inHand id (by rw [pc]; rfl)
    simp only [pc, reduceCtorEq, and_false, exists_false, false_and, or_false, and_true] at hand
    exact inv.handMoves r given (by rw [pc]; rfl) (by rw [hand]; rfl) rfl (by rw [← given, Function.update_eq_self]) rfl rfl rfl
      (by simp [Fits, hand, waiting]) (inv.woken id r given) (fun same => same) (.inl ⟨rfl, by rw [hand]; rfl⟩)
  | execute id r initialized rc pc given =>
    obtain ⟨r', given', waiting, hand⟩ := inv.inHand id (by rw [pc]; rfl)
    cases given.symm.trans given'
    simp only [pc, reduceCtorEq, and_false, exists_false, false_and, or_false, or_true, and_true] at hand
    obtain ⟨_, _, _, _, _, same⟩ := doOpFrame s r initialized rc
    rw [same]
    have asleep := inv.notWoken given (by rw [hand]; rfl)
    exact inv.handMoves (stageTo (.ran (doOp s r initialized rc).2) r) given (by rw [pc]; rfl) (by rw [hand]; rfl) rfl
      (by simp [State.setRequest, given]) rfl rfl rfl (by simp [Fits, stageTo, waiting, State.setRequest])
      (fun woken => absurd woken asleep) (by simp [stageTo]) (.inl ⟨rfl, rfl⟩)
  | setRc id rc pc =>
    obtain ⟨r, given, waiting, hand⟩ := inv.inHand id (by rw [pc]; rfl)
    simp only [pc, reduceCtorEq, and_false, exists_false, false_and, or_false, false_or,
      BrokerPc.setRc.injEq, true_and, exists_eq_right'] at hand
    have asleep := inv.notWoken given (by rw [hand]; rfl)
    exact inv.handMoves { r with rc := some rc, stage := .answered rc } given (by rw [pc]; rfl) (by rw [hand]; rfl) rfl
      (by simp [State.setRequest, given]) rfl rfl rfl (by simp [Fits, waiting, State.setRequest])
      (fun woken => absurd woken asleep) (by simp) (.inl ⟨rfl, rfl⟩)
  | wake id pc =>
    obtain ⟨r, given, waiting, hand⟩ := inv.inHand id (by rw [pc]; rfl)
    simp only [pc, reduceCtorEq, and_false, exists_false, false_or, or_false, true_and] at hand
    obtain ⟨rc, stage, result⟩ := hand
    exact inv.handMoves { r with woken := true, stage := .done (r.rc.getD .inval) } given (by rw [pc]; rfl) (by rw [stage]; rfl)
      rfl (by simp [State.setRequest, given]) rfl rfl rfl (by simp [Fits, waiting, result, State.setRequest]) (fun _ => rfl)
      (by simp) (.inr rfl)
  | dispatchLast i pc last => exact inv.keep rfl rfl rfl rfl (by simp [pc, BrokerPc.request])
  | dispatch i c pc here => exact inv.keep rfl rfl rfl rfl (by simp [pc, BrokerPc.request])
  | timers pc => exact inv.keep rfl rfl rfl rfl (by simp [pc, BrokerPc.request])

end Invariants

end Nanosig.Broker
