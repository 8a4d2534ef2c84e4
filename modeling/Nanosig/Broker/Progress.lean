import Nanosig.Broker.Rendezvous

/-! Every accepted operation is executed: the broker's own steps bring it nearer, no other
step sets it back. -/
namespace Nanosig.Broker

open TransitionSystem RequestLedger

/- The accesses of the broker until it executes an operation, counted by kind; with an
operation queued it never finds the queue empty. -/
def BrokerPc.distance : BrokerPc → Nat
  | .execute _ => 0
  | .unlockTaken _ => 1
  | .take => 2
  | .lock => 3
  | .drainEvent _ | .wake _ => 4
  | .wait | .setRc _ _ => 5
  | .timers => 6
  | .dispatch _ => 7
  | .unlockEmpty => 8

section Progress

variable {τ ω : Type} [DecidableEq τ] [DecidableEq ω] {s s' : State τ ω} {id : Nat}

def completionsLeft (s : State τ ω) : Nat :=
  match s.broker with
  | .drainEvent i | .dispatch i => s.completions.length - i
  | _ => 0

/- The operations to execute up to `id`, then where the broker is in its pass. -/
def rank (s : State τ ω) (id : Nat) : Nat ×ₗ Nat ×ₗ Nat :=
  toLex (s.accepted.idxOf id + 1 - s.executed.length, toLex (s.broker.distance, completionsLeft s))

def Pending (s : State τ ω) (id : Nat) : Prop := id ∈ s.accepted ∧ id ∉ s.executed.map Prod.fst

omit [DecidableEq τ] [DecidableEq ω] in
theorem pendingBehind (inv : Inv s) (pending : Pending s id) : s.executed.length ≤ s.accepted.idxOf id := by
  obtain ⟨rest, sorted⟩ := inv.sound.order
  have same : s.accepted = s.executed.map Prod.fst ++ rest := sorted.symm
  rw [same, List.idxOf_append_of_notMem pending.2]
  simp

omit [DecidableEq τ] [DecidableEq ω] in
theorem rankKeeps (accepted : s'.accepted = s.accepted) (executed : s'.executed = s.executed) (broker : s'.broker = s.broker)
    (completions : s'.completions = s.completions) : rank s' id = rank s id := by
  simp [rank, completionsLeft, accepted, executed, broker, completions]

omit [DecidableEq τ] [DecidableEq ω] in
theorem rankFalls (accepted : s'.accepted = s.accepted) (executed : s'.executed = s.executed)
    (nearer : s'.broker.distance < s.broker.distance ∨
      s'.broker.distance = s.broker.distance ∧ completionsLeft s' < completionsLeft s) : rank s' id < rank s id := by
  rw [rank, rank, accepted, executed, Prod.Lex.toLex_lt_toLex, Prod.Lex.toLex_lt_toLex]
  exact .inr ⟨rfl, nearer⟩

theorem rankMoves (move : Move s s') (inv : Inv s) (pending : Pending s id) :
    rank s' id < rank s id ∨ rank s' id = rank s id ∧ s'.broker = s.broker := by
  cases move with
  | submit t op w idle => exact .inr ⟨rankKeeps rfl rfl rfl rfl, rfl⟩
  | noWakeup t op w rc idle failed => exact .inr ⟨rankKeeps rfl rfl rfl rfl, rfl⟩
  | lock t id pc unlocked => exact .inr ⟨rankKeeps rfl rfl rfl rfl, rfl⟩
  | push t id pc => exact .inr ⟨rankKeeps rfl rfl rfl rfl, rfl⟩
  | signal t id' pc =>
    refine .inr ⟨?_, rfl⟩
    show toLex ((s.accepted ++ [id']).idxOf id + 1 - s.executed.length, toLex (s.broker.distance, completionsLeft s)) = rank s id
    rw [List.idxOf_append_of_mem pending.1]
    rfl
  | signalFails t id rc pc failed => exact .inr ⟨rankKeeps rfl rfl rfl rfl, rfl⟩
  | rollback t id rc pc => exact .inr ⟨rankKeeps rfl rfl rfl rfl, rfl⟩
  | unlock t id pc => exact .inr ⟨rankKeeps rfl rfl rfl rfl, rfl⟩
  | unlockRefused t id rc pc => exact .inr ⟨rankKeeps rfl rfl rfl rfl, rfl⟩
  | wakeup t id r pc given woken => exact .inr ⟨rankKeeps rfl rfl rfl rfl, rfl⟩
  | retry => exact .inr ⟨rfl, rfl⟩
  | readRc t id r rc pc given value => exact .inr ⟨rankKeeps rfl rfl rfl rfl, rfl⟩
  | leave t id rc pc => exact .inr ⟨rankKeeps rfl rfl rfl rfl, rfl⟩
  | notify => exact .inr ⟨rankKeeps rfl rfl rfl rfl, rfl⟩
  | waited batch pc signaled => exact .inl (rankFalls rfl rfl (.inl (by simp [pc, BrokerPc.distance])))
  | drainLast i pc last => exact .inl (rankFalls rfl rfl (.inl (by simp [pc, BrokerPc.distance])))
  | drain i event c pc here =>
    have inside := (List.getElem?_eq_some_iff.mp here).1
    refine .inl (rankFalls rfl rfl (.inr ⟨by simp [pc, BrokerPc.distance], ?_⟩))
    simp only [completionsLeft, pc]
    omega
  | brokerLock pc unlocked => exact .inl (rankFalls rfl rfl (.inl (by simp [pc, BrokerPc.distance])))
  | takeNone pc empty =>
    obtain ⟨waiting, sorted, queued⟩ := inv.order
    obtain ⟨same, -⟩ := queued.settled inv.locks (inv.locks.broker.mp (by rw [pc]; rfl)) fun _ _ other => by contradiction
    rw [← same, empty, pc] at sorted
    have executed : s.accepted = s.executed.map Prod.fst := by simpa [BrokerPc.inHand] using sorted
    exact absurd (executed ▸ pending.1) pending.2
  | take id' rest pc queue => exact .inl (rankFalls rfl rfl (.inl (by simp [pc, BrokerPc.distance])))
  | unlockEmpty pc => exact .inl (rankFalls rfl rfl (.inl (by simp [pc, BrokerPc.distance])))
  | unlockTaken id' pc => exact .inl (rankFalls rfl rfl (.inl (by simp [pc, BrokerPc.distance])))
  | execute id' r initialized rc pc given =>
    have behind := pendingBehind inv pending
    obtain ⟨_, _, _, _, _, same⟩ := doOpFrame s r initialized rc
    rw [same]
    refine .inl (Prod.Lex.toLex_lt_toLex.mpr (.inl ?_))
    show s.accepted.idxOf id + 1 - (s.executed ++ [(id', (doOp s r initialized rc).2)]).length <
      s.accepted.idxOf id + 1 - s.executed.length
    rw [List.length_append, List.length_singleton]
    omega
  | setRc id' rc pc => exact .inl (rankFalls rfl rfl (.inl (by simp [pc, BrokerPc.distance])))
  | wake id' pc => exact .inl (rankFalls rfl rfl (.inl (by simp [pc, BrokerPc.distance])))
  | dispatchLast i pc last => exact .inl (rankFalls rfl rfl (.inl (by simp [pc, BrokerPc.distance])))
  | dispatch i c pc here =>
    have inside := (List.getElem?_eq_some_iff.mp here).1
    refine .inl (rankFalls rfl rfl (.inr ⟨by simp [pc, BrokerPc.distance], ?_⟩))
    simp only [completionsLeft, pc]
    omega
  | timers pc => exact .inl (rankFalls rfl rfl (.inl (by simp [pc, BrokerPc.distance])))

omit [DecidableEq τ] in
theorem brokerChanges {choice : Choice ω} (taken : brokerStep s choice = some s') : s'.broker ≠ s.broker := by
  unfold brokerStep at taken
  cases pc : s.broker <;> cases choice <;> simp only [pc, reduceCtorEq] at taken
  case wait.waited completions =>
    obtain ⟨-, same⟩ := Option.ite_none_left_eq_some.mp taken
    cases same
    simp
  case drainEvent.drained i empty => split at taken <;> cases taken <;> simp
  case lock.next =>
    obtain ⟨-, same⟩ := Option.ite_none_right_eq_some.mp taken
    cases same
    simp
  case take.next => split at taken <;> cases taken <;> simp
  case execute.executes id initialized rc =>
    obtain ⟨r, given, same⟩ := Option.map_eq_some_iff.mp taken
    cases same
    simp
  case dispatch.next i => split at taken <;> cases taken <;> simp
  all_goals
    cases taken
    simp

omit [DecidableEq τ] in
theorem brokerThreads {choice : Choice ω} (taken : brokerStep s choice = some s') : s'.threads = s.threads := by
  unfold brokerStep at taken
  cases pc : s.broker <;> cases choice <;> simp only [pc, reduceCtorEq] at taken
  case wait.waited completions =>
    obtain ⟨-, same⟩ := Option.ite_none_left_eq_some.mp taken
    cases same
    rfl
  case drainEvent.drained i empty => split at taken <;> cases taken <;> rfl
  case lock.next =>
    obtain ⟨-, same⟩ := Option.ite_none_right_eq_some.mp taken
    cases same
    rfl
  case take.next => split at taken <;> cases taken <;> rfl
  case execute.executes id initialized rc =>
    obtain ⟨r, given, same⟩ := Option.map_eq_some_iff.mp taken
    cases same
    obtain ⟨_, _, _, _, _, frame⟩ := doOpFrame s r initialized rc
    rw [frame]
    rfl
  case dispatch.next i => split at taken <;> cases taken <;> rfl
  all_goals
    cases taken
    rfl

def brokerChoice (s : State τ ω) : Choice ω :=
  match s.broker with
  | .wait => .waited none
  | .drainEvent _ => .drained true
  | .execute _ => .executes true .ok
  | _ => .next

omit [DecidableEq τ] in
theorem brokerGoes (inv : Inv s) (free : ∀ t, s.lock ≠ some (.thread t)) : ∃ next, brokerStep s (brokerChoice s) = some next := by
  cases pc : s.broker with
  | wait => exact ⟨_, by simp [brokerStep, brokerChoice, pc]; rfl⟩
  | drainEvent i =>
    simp only [brokerStep, brokerChoice, pc]
    split <;> exact ⟨_, rfl⟩
  | lock =>
    have unlocked : s.lock = none := by
      cases lock : s.lock with
      | none => rfl
      | some holder =>
        cases holder with
        | thread t => exact absurd lock (free t)
        | broker =>
          have holds := inv.locks.broker.mpr lock
          rw [pc] at holds
          contradiction
    exact ⟨_, by simp [brokerStep, brokerChoice, pc, unlocked]; rfl⟩
  | take =>
    simp only [brokerStep, brokerChoice, pc]
    split <;> exact ⟨_, rfl⟩
  | unlockEmpty => exact ⟨_, by simp [brokerStep, brokerChoice, pc]; rfl⟩
  | unlockTaken id => exact ⟨_, by simp [brokerStep, brokerChoice, pc]; rfl⟩
  | execute id =>
    obtain ⟨r, given, -⟩ := inv.requests.inHand id (by rw [pc]; rfl)
    exact ⟨_, by simp [brokerStep, brokerChoice, pc, given]; rfl⟩
  | setRc id rc => exact ⟨_, by simp [brokerStep, brokerChoice, pc]; rfl⟩
  | wake id => exact ⟨_, by simp [brokerStep, brokerChoice, pc]; rfl⟩
  | dispatch i =>
    simp only [brokerStep, brokerChoice, pc]
    split <;> exact ⟨_, rfl⟩
  | timers => exact ⟨_, by simp [brokerStep, brokerChoice, pc]; rfl⟩

theorem brokerGoesOn (inv : Inv s) : (∃ choice next, brokerStep s choice = some next) ∨
    ∃ t, s.lock = some (.thread t) ∧ ∃ next, threadStep s t .ok = some next := by
  by_cases held : ∃ t, s.lock = some (.thread t)
  · obtain ⟨t, lock⟩ := held
    refine .inr ⟨t, lock, ?_⟩
    have holds := (inv.locks.thread t).mpr lock
    cases at_ : s.threads t <;> rw [at_] at holds <;> first | contradiction | exact ⟨_, by simp [threadStep, at_]; rfl⟩
  · exact .inl ⟨_, brokerGoes inv fun t lock => held ⟨t, lock⟩⟩

theorem acceptedGrows (move : Move s s') : s.accepted <+: s'.accepted := by
  cases move with
  | signal t id pc => exact List.prefix_append _ _
  | execute id r initialized rc pc given =>
    obtain ⟨_, _, _, _, _, same⟩ := doOpFrame s r initialized rc
    rw [same]
    exact List.prefix_rfl
  | _ => exact List.prefix_rfl

structure Endless (states : Nat → State τ ω) (actions : Nat → Action τ ω) : Prop where
  taken : ∀ n, step (states n) (actions n) = some (states (n + 1), ())
  fair : ∀ n, ∃ m ≥ n, ∃ choice, actions m = .broker choice

variable {states : Nat → State τ ω} {actions : Nat → Action τ ω}

theorem Endless.inv (endless : Endless states actions) (first : Inv (states 0)) (n : Nat) : Inv (states n) := by
  induction n with
  | zero => exact first
  | succ n ih => exact invKept (stepMoves (endless.taken n)) ih

theorem Endless.nearer (endless : Endless states actions) (first : Inv (states 0)) {n m : Nat} (later : n ≤ m)
    (member : id ∈ (states n).accepted) :
    (∃ k ≥ n, id ∈ (states k).executed.map Prod.fst) ∨ Pending (states m) id ∧ rank (states m) id ≤ rank (states n) id := by
  induction m, later using Nat.le_induction with
  | base =>
    by_cases executed : id ∈ (states n).executed.map Prod.fst
    · exact .inl ⟨n, Nat.le_refl n, executed⟩
    · exact .inr ⟨⟨member, executed⟩, le_rfl⟩
  | succ m later ih =>
    rcases ih with executed | ⟨pending, near⟩
    · exact .inl executed
    · have move := stepMoves (endless.taken m)
      by_cases executed : id ∈ (states (m + 1)).executed.map Prod.fst
      · exact .inl ⟨m + 1, by omega, executed⟩
      · refine .inr ⟨⟨(acceptedGrows move).subset pending.1, executed⟩, ?_⟩
        rcases rankMoves move (endless.inv first m) pending with less | ⟨same, -⟩
        · exact less.le.trans near
        · exact same.le.trans near

theorem Endless.executes (endless : Endless states actions) (first : Inv (states 0)) {n : Nat}
    (member : id ∈ (states n).accepted) : ∃ m ≥ n, id ∈ (states m).executed.map Prod.fst := by
  generalize near : rank (states n) id = v
  induction v using WellFoundedLT.induction generalizing n with
  | ind v ih =>
    obtain ⟨m, later, choice, broker⟩ := endless.fair n
    rcases endless.nearer first later member with executed | ⟨pending, kept⟩
    · exact executed
    · have taken := endless.taken m
      have move := stepMoves taken
      rw [broker] at taken
      obtain ⟨next, ran, same⟩ := Option.map_eq_some_iff.mp taken
      obtain rfl := (Prod.mk.inj same).1
      have less := (rankMoves move (endless.inv first m) pending).resolve_right fun kept => brokerChanges ran kept.2
      obtain ⟨k, after, executed⟩ := ih _ (near ▸ less.trans_le kept) ((acceptedGrows move).subset pending.1) rfl
      exact ⟨k, by omega, executed⟩

end Progress

section Effects

variable {τ ω : Type} [DecidableEq τ] [DecidableEq ω] {s s' : State τ ω}

def asked (s : State τ ω) (id : Nat) : Option (Op × ω) := (s.requests id).map fun r => (r.op, r.watcher)

/- Whether `w` is in the waitset after an entry of `executed`: an add that returned OK puts its
watcher in, a remove that returned OK takes it out, and nothing else does. -/
def applied (s : State τ ω) (w : ω) (registered : Bool) (entry : Nat × Status) : Bool :=
  match asked s entry.1 with
  | some (op, watcher) => if entry.2 = .ok ∧ watcher = w then op = .add else registered
  | none => registered

def Effects (s : State τ ω) : Prop := ∀ w, s.registered w = s.executed.foldl (applied s w) false

omit [DecidableEq τ] in
theorem doOpEffect (s : State τ ω) (r : Request τ ω) (initialized : Bool) (rc : Status) (w : ω) :
    (doOp s r initialized rc).1.registered w =
      if (doOp s r initialized rc).2 = .ok ∧ r.watcher = w then decide (r.op = .add) else s.registered w := by
  by_cases own : r.watcher = w
  · subst own
    cases op : r.op <;> simp only [doOp, op, doAdd, doRemove] <;> split_ifs <;> simp_all
  · have away : w ≠ r.watcher := fun same => own same.symm
    cases op : r.op <;> simp only [doOp, op, doAdd, doRemove] <;> split_ifs <;> simp_all

omit [DecidableEq τ] [DecidableEq ω] in
theorem askedSet {id : Nat} {f : Request τ ω → Request τ ω} (op : ∀ r, (f r).op = r.op) (watcher : ∀ r, (f r).watcher = r.watcher)
    (requests : s'.requests = Function.update s.requests id ((s.requests id).map f)) : asked s' = asked s := by
  funext other
  rw [asked, requests]
  by_cases same : other = id
  · subst same
    cases given : s.requests other <;> simp [asked, given, op, watcher]
  · rw [Function.update_of_ne same, asked]

omit [DecidableEq τ] [DecidableEq ω] in
theorem askedNew (inv : Requests s) {r : Request τ ω} (requests : s'.requests = Function.update s.requests s.fresh (some r))
    {id : Nat} (old : s.requests id ≠ none) : asked s' id = asked s id := by
  have away : id ≠ s.fresh := fun same => old (same ▸ inv.freshFree)
  rw [asked, requests, Function.update_of_ne away, asked]

theorem askedKept (move : Move s s') (inv : Requests s) {id : Nat} (old : s.requests id ≠ none) : asked s' id = asked s id := by
  cases move with
  | submit t op w idle => exact askedNew inv rfl old
  | noWakeup t op w rc idle failed => exact askedNew inv rfl old
  | push t id' pc => exact congrFun (askedSet (f := stageTo .pushed) (fun _ => rfl) (fun _ => rfl) rfl) id
  | signal t id' pc => exact congrFun (askedSet (f := stageTo .queued) (fun _ => rfl) (fun _ => rfl) rfl) id
  | rollback t id' rc pc => exact congrFun (askedSet (f := stageTo (.refused rc)) (fun _ => rfl) (fun _ => rfl) rfl) id
  | leave t id' rc pc => exact congrFun (askedSet (f := stageTo .returned) (fun _ => rfl) (fun _ => rfl) rfl) id
  | take id' rest pc queue => exact congrFun (askedSet (f := stageTo .taken) (fun _ => rfl) (fun _ => rfl) rfl) id
  | execute id' r initialized rc pc given =>
    obtain ⟨_, _, _, _, _, same⟩ := doOpFrame s r initialized rc
    rw [same]
    exact congrFun (askedSet (f := stageTo (.ran _)) (fun _ => rfl) (fun _ => rfl) rfl) id
  | setRc id' rc pc =>
    exact congrFun (askedSet (f := fun r => { r with rc := some rc, stage := .answered rc }) (fun _ => rfl) (fun _ => rfl) rfl) id
  | wake id' pc =>
    exact congrFun (askedSet (f := fun r => { r with woken := true, stage := .done (r.rc.getD .inval) })
      (fun _ => rfl) (fun _ => rfl) rfl) id
  | _ => rfl

omit [DecidableEq τ] [DecidableEq ω] in
theorem executedOld (inv : Inv s) {entry : Nat × Status} (member : entry ∈ s.executed) : s.requests entry.1 ≠ none := by
  obtain ⟨r, given, -⟩ := inv.answered member
  simp [given]

theorem appliedKept (move : Move s s') (inv : Inv s) (w : ω) :
    s.executed.foldl (applied s' w) false = s.executed.foldl (applied s w) false := by
  refine List.foldl_ext _ _ _ fun registered entry member => ?_
  rw [applied, askedKept move inv.requests (executedOld inv member), applied]

theorem effectsKept (move : Move s s') (inv : Inv s) (effects : Effects s) : Effects s' := by
  intro w
  have before := (effects w).trans (appliedKept move inv w).symm
  cases move with
  | execute id r initialized rc pc given =>
    have purpose : asked s id = some (r.op, r.watcher) := by rw [asked, given]; rfl
    have old : s.requests id ≠ none := by simp [given]
    have same := askedKept (.execute id r initialized rc pc given) inv.requests old
    show (doOp s r initialized rc).1.registered w = _
    rw [List.foldl_append, ← before, doOpEffect]
    simp only [List.foldl_cons, List.foldl_nil, applied, same, purpose]
  | _ => exact before

theorem effectsReachable (reach : Reachable Starts step (fun _ _ => True) s) : Effects s := by
  have both : Inv s ∧ Effects s :=
    reach.invariant (I := fun s => Inv s ∧ Effects s)
      (fun _ first => ⟨startInv first, fun w => by rw [first.registered, first.executed]; rfl⟩)
      fun _ _ _ _ kept _ taken => ⟨invKept (stepMoves taken) kept.1, effectsKept (stepMoves taken) kept.1 kept.2⟩
  exact both.2

end Effects

section Rendezvous

variable {τ ω : Type} [DecidableEq τ] [DecidableEq ω] {s : State τ ω}

structure Rendezvous (s : State τ ω) : Prop where
  inOrder : s.executed.map Prod.fst <+: s.accepted
  once : s.accepted.Nodup
  queued : ∃ waiting, s.accepted = s.executed.map Prod.fst ++ s.broker.inHand ++ waiting ∧ waiting <+: s.queue
  own : ∀ t id rc, (t, id, rc) ∈ s.returned →
    (∃ r, s.requests id = some r ∧ r.owner = t) ∧ ((id, rc) ∈ s.executed ∨ (id, rc) ∈ s.refused)
  returnedOnce : (s.returned.map fun entry => entry.2.1).Nodup
  result : ∀ t id rc rc', (t, id, rc) ∈ s.returned → (id, rc') ∈ s.executed → rc = rc'
  answered : ∀ id rc, (id, rc) ∈ s.executed → ∃ r, s.requests id = some r ∧
    ((r.owner, id, rc) ∈ s.returned ∨ s.broker = .setRc id rc ∨ s.broker = .wake id ∨
      r.woken = true ∧ r.rc = some rc ∧
        (s.threads r.owner = .wait id ∨ s.threads r.owner = .readRc id ∨ s.threads r.owner = .leave id rc))
  rolledBack : ∀ id e, (id, e) ∈ s.refused →
    id ∉ s.accepted ∧ id ∉ s.queue ∧ s.broker.request ≠ some id ∧ ∀ t rc, (t, id, rc) ∈ s.returned → rc = e
  inside : ∀ id, id ∈ s.queue ∨ s.broker.request = some id →
    ∃ r, s.requests id = some r ∧ (s.threads r.owner).request = some id
  nothingQueued : s.broker = .wait → s.event = false → (∀ t, s.lock ≠ some (.thread t)) → s.queue = []
  goesOn : ∀ id, Pending s id → (∃ choice next, brokerStep s choice = some next) ∨
    ∃ t, s.lock = some (.thread t) ∧ ∃ next, threadStep s t .ok = some next
  effects : Effects s

theorem Inv.rendezvous (inv : Inv s) (effects : Effects s) : Rendezvous s where
  inOrder := inv.sound.order
  once := inv.sound.distinct
  queued := by
    obtain ⟨waiting, sorted, queued⟩ := inv.order
    refine ⟨waiting, sorted, ?_⟩
    cases queued with
    | confirmed queue all => exact queue ▸ List.prefix_rfl
    | unconfirmed t id queue last =>
      rw [queue]
      exact List.prefix_append _ _
  own := fun t id rc returned => by
    obtain ⟨phase, origin⟩ := inv.sound.returned t id rc returned
    obtain ⟨r, given, same⟩ := Option.map_eq_some_iff.mp phase
    exact ⟨⟨r, given, (Prod.mk.inj same).1⟩, origin⟩
  returnedOnce := inv.sound.once
  result := fun _ _ _ _ returned executed => inv.sound.ownResult returned executed
  answered := fun _ _ executed => inv.answered executed
  rolledBack := fun id e refused =>
    ⟨inv.sound.apart id e refused, (inv.refusedOut refused).1, (inv.refusedOut refused).2,
      fun _ _ returned => inv.sound.ownError returned refused⟩
  inside := fun _ touched => inv.inside touched
  nothingQueued := inv.nothingQueued
  goesOn := fun _ _ => brokerGoesOn inv
  effects := effects

/- Every operation whose submission succeeded is executed exactly once, in the order of the
queue, and its result goes to its own submitter, who stays in the call while the broker may
touch the request; a refused one is rolled back. Blocked and unsignaled the broker has
nothing queued, and in a run in which it keeps going every accepted operation is executed. -/
theorem addRemoveRendezvous (reach : Reachable Starts step (fun _ _ => True) s) :
    Rendezvous s ∧
      ∀ (states : Nat → State τ ω) (actions : Nat → Action τ ω), states 0 = s → Endless states actions →
        ∀ n, ∀ id ∈ (states n).accepted, ∃ m ≥ n, id ∈ (states m).executed.map Prod.fst := by
  have inv := invReachable reach
  refine ⟨inv.rendezvous (effectsReachable reach), fun states actions first endless n id member => ?_⟩
  exact endless.executes (first ▸ inv) member

end Rendezvous

def initial : State Bool Bool where
  lock := none
  queue := []
  event := false
  requests := fun _ => none
  threads := fun _ => .idle
  broker := .wait
  registered := fun _ => false
  userData := fun _ => false
  completions := []
  fresh := 0
  accepted := []
  executed := []
  refused := []
  returned := []
  batch := []
  removed := []
  calls := []
  spoiled := fun _ => false

theorem initialStarts : Starts initial := by
  constructor <;> intros <;> rfl

section Alone

variable {s s' : State Bool Bool}

def aloneStates (s : State Bool Bool) : Nat → State Bool Bool
  | 0 => s
  | n + 1 => (brokerStep (aloneStates s n) (brokerChoice (aloneStates s n))).getD s

theorem brokerLeavesFree (inv : Inv s) (free : ∀ t, s.lock ≠ some (.thread t)) {choice : Choice Bool}
    (taken : brokerStep s choice = some s') : ∀ t, s'.lock ≠ some (.thread t) := by
  have move : step s (.broker choice) = some (s', ()) := by rw [step, taken]; rfl
  have kept := brokerThreads taken
  intro t lock
  have holds := ((invKept (stepMoves move) inv).locks.thread t).mpr lock
  rw [kept] at holds
  exact free t ((inv.locks.thread t).mp holds)

theorem aloneEndless (inv : Inv s) (free : ∀ t, s.lock ≠ some (.thread t)) :
    Endless (aloneStates s) fun n => .broker (brokerChoice (aloneStates s n)) := by
  have stays : ∀ n, Inv (aloneStates s n) ∧ ∀ t, (aloneStates s n).lock ≠ some (.thread t) := by
    intro n
    induction n with
    | zero => exact ⟨inv, free⟩
    | succ n ih =>
      obtain ⟨next, taken⟩ := brokerGoes ih.1 ih.2
      have same : aloneStates s (n + 1) = next := by rw [aloneStates, taken, Option.getD_some]
      have move : step (aloneStates s n) (.broker (brokerChoice (aloneStates s n))) = some (next, ()) := by rw [step, taken]; rfl
      rw [same]
      exact ⟨invKept (stepMoves move) ih.1, brokerLeavesFree ih.1 ih.2 taken⟩
  refine ⟨fun n => ?_, fun n => ⟨n, le_rfl, _, rfl⟩⟩
  obtain ⟨next, taken⟩ := brokerGoes (stays n).1 (stays n).2
  rw [step, aloneStates, taken]
  rfl

end Alone

def addedRefusedQueued : List (Action Bool Bool) :=
  [.submit true .add true .ok, .thread true .ok, .thread true .ok, .thread true .ok, .thread true .ok,
    .broker (.waited (some [⟨some .event, 1⟩])), .broker (.drained true), .broker (.drained true),
    .submit false .add false .ok, .thread false .ok, .thread false .ok, .thread false .busy,
    .thread false .ok, .thread false .ok, .thread false .ok,
    .broker .next, .broker .next, .broker .next, .broker (.executes true .ok), .broker .next, .broker .next,
    .thread true .ok, .thread true .ok, .thread true .ok,
    .submit false .remove true .ok, .thread false .ok, .thread false .ok, .thread false .ok, .thread false .ok]

/- The remove is still queued, and is executed when the broker goes on alone. -/
theorem rendezvousOfTwo : ∃ (s : State Bool Bool) (states : Nat → State Bool Bool) (actions : Nat → Action Bool Bool),
    s.returned = [(false, 1, .busy), (true, 0, .ok)] ∧ s.accepted = [0, 2] ∧ s.executed = [(0, .ok)] ∧ s.registered true = true ∧
      Rendezvous s ∧ states 0 = s ∧ Endless states actions ∧ ∃ m ≥ 0, 2 ∈ (states m).executed.map Prod.fst := by
  have runs : ∃ s, executeAllowed step (fun _ _ => True) initial addedRefusedQueued = some s ∧
      s.returned = [(false, 1, .busy), (true, 0, .ok)] ∧ s.accepted = [0, 2] ∧ s.executed = [(0, .ok)] ∧
      s.registered true = true ∧ s.lock = none :=
    anyResult (by decide +kernel)
  obtain ⟨s, ran, returned, accepted, executed, inside, unlocked⟩ := runs
  have reach : Reachable Starts step (fun _ _ => True) s := executeAllowedReachable (.start initialStarts) ran
  obtain ⟨safe, progress⟩ := addRemoveRendezvous reach
  have endless := aloneEndless (invReachable reach) fun t => by simp [unlocked]
  exact ⟨s, _, _, returned, accepted, executed, inside, safe, rfl, endless,
    progress _ _ rfl endless 0 2 (by show 2 ∈ s.accepted; simp [accepted])⟩

end Nanosig.Broker
