import Nanosig.Broker.Requests
import Nanosig.Lib.RequestLedger

/-! Adds and removes as a rendezvous: the steps of the threads and the broker are steps
of a request ledger, the operations are executed in the order of the queue, and the
event is set while one is queued that the broker has not seen. -/
namespace Nanosig.Broker

open TransitionSystem RequestLedger

def Stage.phase : Stage → Phase Status
  | .created | .pushed => .pending
  | .refused e => .refused e
  | .queued | .taken => .accepted
  | .ran rc | .answered rc | .done rc => .executed rc
  | .returned => .returned

section Ledger

variable {τ ω : Type} [DecidableEq τ] [DecidableEq ω] {s s' : State τ ω}

def phases (s : State τ ω) (id : Nat) : Option (τ × Phase Status) :=
  (s.requests id).map fun r => (r.owner, r.stage.phase)

def ledger (s : State τ ω) : Ledger Nat τ Status where
  phase := phases s
  accepted := s.accepted
  executed := s.executed
  refused := s.refused
  returned := s.returned

def BrokerPc.inHand : BrokerPc → List Nat
  | .unlockTaken id | .execute id => [id]
  | _ => []

def SubmitPc.unconfirmed : SubmitPc → List Nat
  | .signal id | .rollback id _ => [id]
  | _ => []

inductive Queued (s : State τ ω) (waiting : List Nat) : Prop where
  | confirmed (queue : s.queue = waiting) (all : ∀ t, (s.threads t).unconfirmed = [])
  | unconfirmed (t : τ) (id : Nat) (queue : s.queue = waiting ++ [id]) (last : (s.threads t).unconfirmed = [id])

def InOrder (s : State τ ω) : Prop :=
  ∃ waiting, s.accepted = s.executed.map Prod.fst ++ s.broker.inHand ++ waiting ∧ Queued s waiting

/- The accesses from finding the queue empty until the next wait. -/
def BrokerPc.foundEmpty : BrokerPc → Bool
  | .unlockEmpty | .dispatch _ | .timers | .wait => true
  | _ => false

def Awake (s : State τ ω) : Prop :=
  s.broker.foundEmpty = true → s.accepted = s.executed.map Prod.fst ∨ s.event = true

omit [DecidableEq τ] [DecidableEq ω] in
theorem unconfirmedHolds {pc : SubmitPc} {id : Nat} (last : pc.unconfirmed = [id]) : pc.holdsLock = true := by
  cases pc <;> first | rfl | cases last

omit [DecidableEq τ] [DecidableEq ω] in
theorem Queued.keep {waiting : List Nat} (queued : Queued s waiting) (queue : s'.queue = s.queue)
    (threads : ∀ t, (s'.threads t).unconfirmed = (s.threads t).unconfirmed) : Queued s' waiting := by
  cases queued with
  | confirmed before all => exact .confirmed (queue.trans before) fun t => (threads t).trans (all t)
  | unconfirmed t id before last => exact .unconfirmed t id (queue.trans before) ((threads t).trans last)

omit [DecidableEq τ] [DecidableEq ω] in
theorem Queued.settled {waiting : List Nat} (queued : Queued s waiting) (locks : Locks s) {holder : Holder τ}
    (held : s.lock = some holder) (other : ∀ t id, holder = .thread t → (s.threads t).unconfirmed ≠ [id]) :
    s.queue = waiting ∧ ∀ t, (s.threads t).unconfirmed = [] := by
  cases queued with
  | confirmed queue all => exact ⟨queue, all⟩
  | unconfirmed t id queue last =>
    have mine := (locks.thread t).mp (unconfirmedHolds last)
    rw [held] at mine
    exact absurd last (other t id (Option.some.inj mine))

omit [DecidableEq τ] [DecidableEq ω] in
theorem Queued.own {waiting : List Nat} (queued : Queued s waiting) (locks : Locks s) (t : τ) (id : Nat)
    (last : (s.threads t).unconfirmed = [id]) : s.queue = waiting ++ [id] := by
  have mine := (locks.thread t).mp (unconfirmedHolds last)
  cases queued with
  | confirmed queue all =>
    rw [all t] at last
    contradiction
  | unconfirmed u other queue first =>
    have theirs := (locks.thread u).mp (unconfirmedHolds first)
    rw [mine] at theirs
    cases theirs
    cases last.symm.trans first
    exact queue

omit [DecidableEq ω] in
theorem updateUnconfirmed {t : τ} {pc : SubmitPc} (same : pc.unconfirmed = (s.threads t).unconfirmed) (u : τ) :
    (Function.update s.threads t pc u).unconfirmed = (s.threads u).unconfirmed := by
  by_cases own : u = t
  · subst own
    rw [Function.update_self, same]
  · rw [Function.update_of_ne own]

omit [DecidableEq ω] in
theorem updateConfirmed {t : τ} {pc : SubmitPc} (own : pc.unconfirmed = []) (others : ∀ u, u ≠ t → (s.threads u).unconfirmed = [])
    (u : τ) : (Function.update s.threads t pc u).unconfirmed = [] := by
  by_cases same : u = t
  · subst same
    rw [Function.update_self, own]
  · rw [Function.update_of_ne same, others u same]

omit [DecidableEq τ] [DecidableEq ω] in
theorem othersConfirmed (locks : Locks s) {t : τ} (holds : (s.threads t).holdsLock = true) (u : τ) (differs : u ≠ t) :
    (s.threads u).unconfirmed = [] := by
  have mine := (locks.thread t).mp holds
  have free : (s.threads u).holdsLock ≠ true := fun theirs => by
    have lock := (locks.thread u).mp theirs
    rw [mine] at lock
    cases lock
    exact differs rfl
  cases pc : s.threads u <;> first | rfl | (rw [pc] at free; exact absurd rfl free)

omit [DecidableEq τ] [DecidableEq ω] in
theorem InOrder.keep (order : InOrder s) (accepted : s'.accepted = s.accepted) (executed : s'.executed = s.executed)
    (hand : s'.broker.inHand = s.broker.inHand) (queue : s'.queue = s.queue)
    (threads : ∀ t, (s'.threads t).unconfirmed = (s.threads t).unconfirmed) : InOrder s' := by
  obtain ⟨waiting, sorted, queued⟩ := order
  exact ⟨waiting, by rw [accepted, executed, hand]; exact sorted, queued.keep queue threads⟩

theorem inOrderKept (move : Move s s') (locks : Locks s) (requests : Requests s) (order : InOrder s) : InOrder s' := by
  cases move with
  | submit t op w idle => exact order.keep rfl rfl rfl rfl (updateUnconfirmed (by rw [idle]; rfl))
  | noWakeup t op w rc idle failed => exact order.keep rfl rfl rfl rfl fun _ => rfl
  | lock t id pc unlocked => exact order.keep rfl rfl rfl rfl (updateUnconfirmed (by rw [pc]; rfl))
  | push t id pc =>
    obtain ⟨waiting, sorted, queued⟩ := order
    have held := (locks.thread t).mp (by rw [pc]; rfl)
    obtain ⟨queue, -⟩ := queued.settled locks held fun u id' same => by
      cases same
      simp [pc, SubmitPc.unconfirmed]
    exact ⟨waiting, sorted, .unconfirmed t id (congrArg (· ++ [id]) queue) (by simp [State.setThread, State.setRequest, SubmitPc.unconfirmed])⟩
  | signal t id pc =>
    obtain ⟨waiting, sorted, queued⟩ := order
    have queue := queued.own locks t id (by rw [pc]; rfl)
    refine ⟨waiting ++ [id], ?_, .confirmed queue ?_⟩
    · show s.accepted ++ [id] = s.executed.map Prod.fst ++ s.broker.inHand ++ (waiting ++ [id])
      rw [sorted]
      simp only [List.append_assoc]
    · exact updateConfirmed rfl (othersConfirmed locks (by rw [pc]; rfl))
  | signalFails t id rc pc failed => exact order.keep rfl rfl rfl rfl (updateUnconfirmed (by rw [pc]; rfl))
  | rollback t id rc pc =>
    obtain ⟨waiting, sorted, queued⟩ := order
    have queue := queued.own locks t id (by rw [pc]; rfl)
    have distinct := requests.nodup
    rw [queue] at distinct
    have outside : id ∉ waiting := fun member =>
      (List.nodup_append.mp distinct).2.2 id member id (List.mem_singleton_self id) rfl
    refine ⟨waiting, sorted, .confirmed ?_ ?_⟩
    · show s.queue.erase id = waiting
      rw [queue, List.erase_append_right _ outside]
      simp
    · exact updateConfirmed rfl (othersConfirmed locks (by rw [pc]; rfl))
  | unlock t id pc => exact order.keep rfl rfl rfl rfl (updateUnconfirmed (by rw [pc]; rfl))
  | unlockRefused t id rc pc => exact order.keep rfl rfl rfl rfl (updateUnconfirmed (by rw [pc]; rfl))
  | wakeup t id r pc given woken => exact order.keep rfl rfl rfl rfl (updateUnconfirmed (by rw [pc]; rfl))
  | retry => exact order
  | readRc t id r rc pc given value => exact order.keep rfl rfl rfl rfl (updateUnconfirmed (by rw [pc]; rfl))
  | leave t id rc pc => exact order.keep rfl rfl rfl rfl (updateUnconfirmed (by rw [pc]; rfl))
  | notify => exact order.keep rfl rfl rfl rfl fun _ => rfl
  | waited batch pc signaled => exact order.keep rfl rfl (by rw [pc]; rfl) rfl fun _ => rfl
  | drainLast i pc last => exact order.keep rfl rfl (by rw [pc]; rfl) rfl fun _ => rfl
  | drain i event c pc here => exact order.keep rfl rfl (by rw [pc]; rfl) rfl fun _ => rfl
  | brokerLock pc unlocked => exact order.keep rfl rfl (by rw [pc]; rfl) rfl fun _ => rfl
  | takeNone pc empty => exact order.keep rfl rfl (by rw [pc]; rfl) rfl fun _ => rfl
  | take id rest pc queue =>
    obtain ⟨waiting, sorted, queued⟩ := order
    have held := locks.broker.mp (by rw [pc]; rfl)
    obtain ⟨same, all⟩ := queued.settled locks held fun _ _ other => by contradiction
    refine ⟨rest, ?_, .confirmed rfl all⟩
    show s.accepted = s.executed.map Prod.fst ++ [id] ++ rest
    rw [sorted, ← same, queue, pc]
    simp [BrokerPc.inHand]
  | unlockEmpty pc => exact order.keep rfl rfl (by rw [pc]; rfl) rfl fun _ => rfl
  | unlockTaken id pc => exact order.keep rfl rfl (by rw [pc]; rfl) rfl fun _ => rfl
  | execute id r initialized rc pc given =>
    obtain ⟨waiting, sorted, queued⟩ := order
    obtain ⟨_, _, _, _, _, same⟩ := doOpFrame s r initialized rc
    rw [same]
    refine ⟨waiting, ?_, queued.keep rfl fun _ => rfl⟩
    show s.accepted = (s.executed ++ [(id, (doOp s r initialized rc).2)]).map Prod.fst ++ [] ++ waiting
    rw [sorted, pc]
    simp [BrokerPc.inHand]
  | setRc id rc pc => exact order.keep rfl rfl (by rw [pc]; rfl) rfl fun _ => rfl
  | wake id pc => exact order.keep rfl rfl (by rw [pc]; rfl) rfl fun _ => rfl
  | dispatchLast i pc last => exact order.keep rfl rfl (by rw [pc]; rfl) rfl fun _ => rfl
  | dispatch i c pc here => exact order.keep rfl rfl (by rw [pc]; rfl) rfl fun _ => rfl
  | timers pc => exact order.keep rfl rfl (by rw [pc]; rfl) rfl fun _ => rfl

omit [DecidableEq τ] [DecidableEq ω] in
theorem Awake.keep (awake : Awake s) (accepted : s'.accepted = s.accepted) (executed : s'.executed = s.executed)
    (event : s.event = true → s'.event = true) (found : s'.broker.foundEmpty = true → s.broker.foundEmpty = true) : Awake s' := by
  intro empty
  rw [accepted, executed]
  exact (awake (found empty)).imp_right event

theorem awakeKept (move : Move s s') (locks : Locks s) (order : InOrder s) (awake : Awake s) : Awake s' := by
  cases move with
  | submit t op w idle => exact awake.keep rfl rfl (fun set => set) fun found => found
  | noWakeup t op w rc idle failed => exact awake.keep rfl rfl (fun set => set) fun found => found
  | lock t id pc unlocked => exact awake.keep rfl rfl (fun set => set) fun found => found
  | push t id pc => exact awake.keep rfl rfl (fun set => set) fun found => found
  | signal t id pc => exact fun _ => .inr rfl
  | signalFails t id rc pc failed => exact awake.keep rfl rfl (fun set => set) fun found => found
  | rollback t id rc pc => exact awake.keep rfl rfl (fun set => set) fun found => found
  | unlock t id pc => exact awake.keep rfl rfl (fun set => set) fun found => found
  | unlockRefused t id rc pc => exact awake.keep rfl rfl (fun set => set) fun found => found
  | wakeup t id r pc given woken => exact awake.keep rfl rfl (fun set => set) fun found => found
  | retry => exact awake
  | readRc t id r rc pc given value => exact awake.keep rfl rfl (fun set => set) fun found => found
  | leave t id rc pc => exact awake.keep rfl rfl (fun set => set) fun found => found
  | notify => exact fun _ => .inr rfl
  | waited batch pc signaled => exact fun found => Bool.noConfusion found
  | drainLast i pc last => exact fun found => Bool.noConfusion found
  | drain i event c pc here => exact fun found => Bool.noConfusion found
  | brokerLock pc unlocked => exact fun found => Bool.noConfusion found
  | takeNone pc empty =>
    obtain ⟨waiting, sorted, queued⟩ := order
    have held := locks.broker.mp (by rw [pc]; rfl)
    obtain ⟨same, -⟩ := queued.settled locks held fun _ _ other => by contradiction
    refine fun _ => .inl ?_
    show s.accepted = s.executed.map Prod.fst
    rw [sorted, ← same, empty, pc]
    simp [BrokerPc.inHand]
  | take id rest pc queue => exact fun found => Bool.noConfusion found
  | unlockEmpty pc => exact awake.keep rfl rfl (fun set => set) fun _ => by rw [pc]; rfl
  | unlockTaken id pc => exact fun found => Bool.noConfusion found
  | execute id r initialized rc pc given => exact fun found => Bool.noConfusion found
  | setRc id rc pc => exact fun found => Bool.noConfusion found
  | wake id pc => exact fun found => Bool.noConfusion found
  | dispatchLast i pc last => exact awake.keep rfl rfl (fun set => set) fun _ => by rw [pc]; rfl
  | dispatch i c pc here => exact awake.keep rfl rfl (fun set => set) fun _ => by rw [pc]; rfl
  | timers pc => exact awake.keep rfl rfl (fun set => set) fun _ => by rw [pc]; rfl

omit [DecidableEq τ] [DecidableEq ω] in
theorem phasesUpdate {id : Nat} {r : Request τ ω} (requests : s'.requests = Function.update s.requests id (some r)) :
    phases s' = Function.update (phases s) id (some (r.owner, r.stage.phase)) := by
  funext other
  by_cases same : other = id
  · subst same
    simp [phases, requests]
  · simp [phases, requests, same]

omit [DecidableEq τ] [DecidableEq ω] in
/- A step that sets one request is the steps of the ledger that set its phase. -/
theorem ledgerSteps {id : Nat} (r : Request τ ω) (requests : s'.requests = Function.update s.requests id (some r))
    (steps : Relation.ReflTransGen Step (ledger s)
      { ledger s' with phase := Function.update (ledger s).phase id (some (r.owner, r.stage.phase)) }) :
    Relation.ReflTransGen Step (ledger s) (ledger s') := by
  have phase : (ledger s').phase = Function.update (ledger s).phase id (some (r.owner, r.stage.phase)) := phasesUpdate requests
  rw [← phase] at steps
  exact steps

omit [DecidableEq τ] [DecidableEq ω] in
theorem phasesSame {id : Nat} {r : Request τ ω} (r' : Request τ ω) (given : s.requests id = some r)
    (requests : s'.requests = Function.update s.requests id (some r')) (owner : r'.owner = r.owner)
    (phase : r'.stage.phase = r.stage.phase) : phases s' = phases s := by
  rw [phasesUpdate requests, owner, phase]
  exact Function.update_eq_self_iff.mpr (by simp [phases, given])

omit [DecidableEq τ] [DecidableEq ω] in
theorem ledgerSame (phase : phases s' = phases s) (accepted : s'.accepted = s.accepted) (executed : s'.executed = s.executed)
    (refused : s'.refused = s.refused) (returned : s'.returned = s.returned) :
    Relation.ReflTransGen Step (ledger s) (ledger s') := by
  have same : ledger s' = ledger s := by simp [ledger, phase, accepted, executed, refused, returned]
  rw [same]

omit [DecidableEq τ] [DecidableEq ω] in
theorem phaseOf {id : Nat} {r : Request τ ω} {stage : Stage} (given : s.requests id = some r) (here : r.stage = stage) :
    (ledger s).phase id = some (r.owner, stage.phase) := by
  simp [ledger, phases, given, here]

theorem ledgerMoves (move : Move s s') (locks : Locks s) (requests : Requests s) (order : InOrder s) :
    Relation.ReflTransGen Step (ledger s) (ledger s') := by
  have unused : (ledger s).phase s.fresh = none := by
    have free := requests.freshFree
    simp [ledger, phases, free]
  cases move with
  | submit t op w idle =>
    exact ledgerSteps ⟨op, w, none, false, t, .created⟩ rfl
      (.single (.enter s.fresh t unused))
  | noWakeup t op w rc idle failed =>
    exact ledgerSteps ⟨op, w, none, false, t, .returned⟩ rfl
      (turnedAway s.fresh t rc unused)
  | lock t id pc unlocked => exact ledgerSame rfl rfl rfl rfl rfl
  | push t id pc =>
    obtain ⟨r, given, owner, stage⟩ := requests.createdAt (.inr pc)
    exact ledgerSame (phasesSame (stageTo .pushed r) given (by simp [State.setThread, State.setRequest, given]) rfl
      (by rw [stage]; rfl)) rfl rfl rfl rfl
  | signal t id pc =>
    obtain ⟨r, given, owner, stage⟩ := requests.pushedAt (.inl pc)
    exact ledgerSteps (stageTo .queued r) (by simp [State.setThread, State.setRequest, given])
      (.single (.accept id r.owner (phaseOf given stage)))
  | signalFails t id rc pc failed => exact ledgerSame rfl rfl rfl rfl rfl
  | rollback t id rc pc =>
    obtain ⟨r, given, owner, stage⟩ := requests.pushedAt (.inr ⟨rc, pc⟩)
    exact ledgerSteps (stageTo (.refused rc) r) (by simp [State.setThread, State.setRequest, given])
      (.single (.refuse id r.owner rc (phaseOf given stage)))
  | unlock t id pc => exact ledgerSame rfl rfl rfl rfl rfl
  | unlockRefused t id rc pc => exact ledgerSame rfl rfl rfl rfl rfl
  | wakeup t id r pc given woken => exact ledgerSame rfl rfl rfl rfl rfl
  | retry => exact .refl
  | readRc t id r rc pc given value => exact ledgerSame rfl rfl rfl rfl rfl
  | leave t id rc pc =>
    obtain ⟨r, given, rfl, stage⟩ := requests.endsAt pc
    exact ledgerSteps (stageTo .returned r) (by simp [State.setThread, State.setRequest, given])
      (.single (.finish id r.owner rc (stage.imp (phaseOf given) (phaseOf given))))
  | notify => exact ledgerSame rfl rfl rfl rfl rfl
  | waited batch pc signaled => exact ledgerSame rfl rfl rfl rfl rfl
  | drainLast i pc last => exact ledgerSame rfl rfl rfl rfl rfl
  | drain i event c pc here => exact ledgerSame rfl rfl rfl rfl rfl
  | brokerLock pc unlocked => exact ledgerSame rfl rfl rfl rfl rfl
  | takeNone pc empty => exact ledgerSame rfl rfl rfl rfl rfl
  | take id rest pc queue =>
    obtain ⟨r, given, stage, -⟩ := requests.queuedFor locks (locks.broker.mp (by rw [pc]; rfl)) id (by simp [queue])
    exact ledgerSame (phasesSame (stageTo .taken r) given (by simp [State.setRequest, given]) rfl
      (by rw [stage]; rfl)) rfl rfl rfl rfl
  | unlockEmpty pc => exact ledgerSame rfl rfl rfl rfl rfl
  | unlockTaken id pc => exact ledgerSame rfl rfl rfl rfl rfl
  | execute id r initialized rc pc given =>
    obtain ⟨r', given', waiting, hand⟩ := requests.inHand id (by rw [pc]; rfl)
    cases given.symm.trans given'
    simp only [pc, reduceCtorEq, and_false, exists_false, false_and, or_false, or_true, and_true] at hand
    obtain ⟨rest, sorted, -⟩ := order
    rw [pc] at sorted
    obtain ⟨_, _, _, _, _, same⟩ := doOpFrame s r initialized rc
    rw [same]
    exact ledgerSteps (stageTo (.ran (doOp s r initialized rc).2) r) (by simp [State.setRequest, given])
      (.single (.execute id r.owner (doOp s r initialized rc).2 rest (phaseOf given hand)
        (by simpa [ledger, BrokerPc.inHand] using sorted)))
  | setRc id rc pc =>
    obtain ⟨r, given, waiting, hand⟩ := requests.inHand id (by rw [pc]; rfl)
    simp only [pc, reduceCtorEq, and_false, exists_false, false_and, or_false, false_or,
      BrokerPc.setRc.injEq, true_and, exists_eq_right'] at hand
    exact ledgerSame (phasesSame { r with rc := some rc, stage := .answered rc } given
      (by simp [State.setRequest, given]) rfl (by rw [hand]; rfl)) rfl rfl rfl rfl
  | wake id pc =>
    obtain ⟨r, given, waiting, hand⟩ := requests.inHand id (by rw [pc]; rfl)
    simp only [pc, reduceCtorEq, and_false, exists_false, false_or, or_false, true_and] at hand
    obtain ⟨rc, stage, result⟩ := hand
    exact ledgerSame (phasesSame { r with woken := true, stage := .done (r.rc.getD .inval) } given
      (by simp [State.setRequest, given]) rfl (by rw [stage, result]; rfl)) rfl rfl rfl rfl
  | dispatchLast i pc last => exact ledgerSame rfl rfl rfl rfl rfl
  | dispatch i c pc here => exact ledgerSame rfl rfl rfl rfl rfl
  | timers pc => exact ledgerSame rfl rfl rfl rfl rfl

structure Inv (s : State τ ω) : Prop where
  locks : Locks s
  requests : Requests s
  order : InOrder s
  awake : Awake s
  sound : Sound (ledger s)

omit [DecidableEq τ] [DecidableEq ω] in
theorem startInv (first : Starts s) : Inv s where
  locks := ⟨fun t => by simp [first.threads t, first.lock, SubmitPc.holdsLock],
    by simp [first.broker, first.lock, BrokerPc.holdsLock]⟩
  requests := {
    fits := by simp [first.requests]
    woken := by simp [first.requests]
    fresh := by simp [first.requests]
    thread := by simp [first.threads, SubmitPc.request]
    broker := by simp [first.broker, BrokerPc.request]
    queue := by simp [first.queue]
    nodup := by simp [first.queue] }
  order := ⟨[], by simp [first.accepted, first.executed, first.broker, BrokerPc.inHand],
    .confirmed first.queue fun t => by rw [first.threads t]; rfl⟩
  awake := fun _ => .inl (by simp [first.accepted, first.executed])
  sound := Sound.start (fun id => by simp [ledger, phases, first.requests]) first.accepted first.executed first.refused first.returned

theorem invKept (move : Move s s') (inv : Inv s) : Inv s' where
  locks := locksKept move inv.locks
  requests := requestsKept move inv.locks inv.requests
  order := inOrderKept move inv.locks inv.requests inv.order
  awake := awakeKept move inv.locks inv.order inv.awake
  sound := inv.sound.run (ledgerMoves move inv.locks inv.requests inv.order)

theorem invReachable (reach : Reachable Starts step (fun _ _ => True) s) : Inv s :=
  reach.invariant (fun _ first => startInv first) fun _ _ _ _ inv _ taken => invKept (stepMoves taken) inv

end Ledger

section Meeting

variable {τ ω : Type} [DecidableEq τ] [DecidableEq ω] {s : State τ ω}

omit [DecidableEq τ] [DecidableEq ω] in
theorem Inv.inside (inv : Inv s) {id : Nat} (touched : id ∈ s.queue ∨ s.broker.request = some id) :
    ∃ r, s.requests id = some r ∧ (s.threads r.owner).request = some id := by
  rcases touched with member | hand
  · obtain ⟨r, given, waits⟩ := inv.requests.queue id member
    have fits := inv.requests.fits id r given
    refine ⟨r, given, ?_⟩
    unfold Fits at fits
    cases stage : r.stage <;> simp only [stage, Stage.isWaiting, Bool.false_eq_true] at waits fits
    · rcases fits with at_ | ⟨e, at_⟩ <;> rw [at_] <;> rfl
    · rcases fits with at_ | at_ <;> rw [at_] <;> rfl
  · obtain ⟨r, given, waiting, -⟩ := inv.requests.inHand id hand
    exact ⟨r, given, by rw [waiting]; rfl⟩

omit [DecidableEq τ] [DecidableEq ω] in
theorem Inv.refusedOut (inv : Inv s) {id : Nat} {e : Status} (refused : (id, e) ∈ s.refused) :
    id ∉ s.queue ∧ s.broker.request ≠ some id := by
  obtain ⟨t, p, phase, ended⟩ := inv.sound.refused id e refused
  obtain ⟨r, given, same⟩ := Option.map_eq_some_iff.mp phase
  obtain ⟨rfl, rfl⟩ := Prod.mk.inj same
  refine ⟨fun member => ?_, fun hand => ?_⟩
  · have waits := inv.requests.stageWaits given member
    cases stage : r.stage <;> simp [stage, Stage.isWaiting, Stage.phase] at waits ended
  · obtain ⟨r', given', -, stage⟩ := inv.requests.inHand id hand
    cases given.symm.trans given'
    rcases stage with ⟨stage, -⟩ | ⟨rc, stage, -⟩ | ⟨rc, stage, -⟩ <;> simp [stage, Stage.phase] at ended

omit [DecidableEq τ] [DecidableEq ω] in
theorem Inv.answered (inv : Inv s) {id : Nat} {rc : Status} (executed : (id, rc) ∈ s.executed) :
    ∃ r, s.requests id = some r ∧
      ((r.owner, id, rc) ∈ s.returned ∨ s.broker = .setRc id rc ∨ s.broker = .wake id ∨
        r.woken = true ∧ r.rc = some rc ∧
          (s.threads r.owner = .wait id ∨ s.threads r.owner = .readRc id ∨ s.threads r.owner = .leave id rc)) := by
  obtain ⟨t, phase⟩ := inv.sound.executed id rc executed
  rcases phase with phase | phase
  · obtain ⟨r, given, same⟩ := Option.map_eq_some_iff.mp phase
    have fits := inv.requests.fits id r given
    refine ⟨r, given, .inr ?_⟩
    unfold Fits at fits
    cases stage : r.stage <;> simp [stage, Stage.phase] at same fits
    · obtain ⟨-, rfl⟩ := same
      exact .inl fits.2
    · exact .inr (.inl fits.2.1)
    · obtain ⟨-, rfl⟩ := same
      exact .inr (.inr fits)
  · obtain ⟨rc', returned⟩ := inv.sound.recorded id t phase
    obtain ⟨r, given, same⟩ := Option.map_eq_some_iff.mp phase
    obtain ⟨rfl, -⟩ := Prod.mk.inj same
    cases inv.sound.ownResult returned executed
    exact ⟨r, given, .inl returned⟩

omit [DecidableEq τ] [DecidableEq ω] in
theorem Inv.nothingQueued (inv : Inv s) (blocked : s.broker = .wait) (quiet : s.event = false)
    (free : ∀ t, s.lock ≠ some (.thread t)) : s.queue = [] := by
  obtain ⟨waiting, sorted, queued⟩ := inv.order
  have done : s.accepted = s.executed.map Prod.fst :=
    (inv.awake (by rw [blocked]; rfl)).resolve_right (by simp [quiet])
  have none : waiting = [] := by simpa [done, blocked, BrokerPc.inHand] using sorted
  cases queued with
  | confirmed queue all => rw [queue, none]
  | unconfirmed t id queue last => exact absurd ((inv.locks.thread t).mp (unconfirmedHolds last)) (free t)

end Meeting

end Nanosig.Broker
