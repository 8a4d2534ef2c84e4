import Nanosig.Broker.Progress

/-! Removing a watcher while its event may be in the batch at hand: the completions of
removed watchers are nulled before the remover is woken, the others are dispatched once. -/
namespace Nanosig.Broker

open TransitionSystem RequestLedger

section Passes

variable {τ ω : Type} [DecidableEq τ] [DecidableEq ω] {s s' : State τ ω}

/- The platform reports registered watchers only, and each waitable at most once. -/
def Honest (s : State τ ω) : Action τ ω → Prop
  | .broker (.waited (some batch)) =>
      (batch.map Completion.waitable).Nodup ∧
        ∀ c ∈ batch, ∀ w, c.waitable = some (.watcher w) → s.registered w = true
  | _ => True

/- A completion of the batch after the removes of `removed`. -/
def without (removed : List ω) (c : Completion ω) : Completion ω :=
  match c.waitable with
  | some (.watcher w) => if w ∈ removed then { c with waitable := none } else c
  | _ => c

def CallsMade (s : State τ ω) : Prop :=
  match s.broker with
  | .dispatch i => s.calls = (s.completions.take i).flatMap (handled s)
  | .timers => s.calls = s.completions.flatMap (handled s)
  | .wait => True
  | _ => s.calls = []

structure Pass (s : State τ ω) : Prop where
  nulled : s.broker ≠ .wait → s.completions = s.batch.map (without s.removed)
  distinct : s.broker ≠ .wait → (s.batch.map Completion.waitable).Nodup
  present : s.broker ≠ .wait → ∀ c ∈ s.batch, ∀ w, c.waitable = some (.watcher w) → w ∈ s.removed ∨ s.registered w = true
  calls : CallsMade s
  userData : ∀ w, s.registered w = true → s.spoiled w = true ∨ s.userData w = true

theorem nullCompletionsMap (w : ω) (removed : List ω) (batch : List (Completion ω)) :
    nullCompletions w (batch.map (without removed)) = batch.map (without (w :: removed)) := by
  rw [nullCompletions, List.map_map]
  refine List.map_congr_left fun c _ => ?_
  rcases c with ⟨_ | _ | v, events⟩
  · simp [without]
  · simp [without]
  · by_cases same : v = w
    · subst same
      by_cases gone : v ∈ removed <;> simp [without, gone]
    · by_cases gone : v ∈ removed <;> simp [without, gone, same]

omit [DecidableEq τ] in
theorem passKeep (pass : Pass s) (completions : s'.completions = s.completions) (batch : s'.batch = s.batch)
    (removed : s'.removed = s.removed) (registered : s'.registered = s.registered) (userData : s'.userData = s.userData)
    (spoiled : s'.spoiled = s.spoiled) (busy : s.broker = .wait → s'.broker = .wait) (made : CallsMade s') : Pass s' where
  nulled waits := by
    rw [completions, batch, removed]
    exact pass.nulled fun idle => waits (busy idle)
  distinct waits := by
    rw [batch]
    exact pass.distinct fun idle => waits (busy idle)
  present waits := by
    rw [batch, removed, registered]
    exact pass.present fun idle => waits (busy idle)
  calls := made
  userData := by
    rw [registered, spoiled, userData]
    exact pass.userData

omit [DecidableEq τ] in
theorem passExecutes (pass : Pass s) {id : Nat} (r : Request τ ω) (initialized : Bool) (rc : Status)
    (pc : s.broker = .execute id) (requests : Nat → Option (Request τ ω)) (executed : List (Nat × Status)) (next : Status) :
    Pass { (doOp s r initialized rc).1 with
      requests := requests
      executed := executed
      broker := .setRc id next } := by
  have busy : s.broker ≠ .wait := by simp [pc]
  have nulled := pass.nulled busy
  have none : s.calls = [] := by simpa [CallsMade, pc] using pass.calls
  unfold doOp
  cases r.op with
  | add =>
    dsimp only
    unfold doAdd
    split_ifs <;> dsimp only
    · exact {
        nulled := fun _ => nulled
        distinct := fun _ => pass.distinct busy
        present := fun _ c member w at_ => by
          by_cases same : w = r.watcher
          · exact .inr (by simp [same])
          · exact (pass.present busy c member w at_).imp_right fun before => by simpa [same] using before
        calls := none
        userData := fun w before => by
          by_cases same : w = r.watcher
          · exact .inr (by simp [same])
          · exact (pass.userData w (by simpa [same] using before)).imp (by simp [same]) (by simp [same]) }
    · exact {
        nulled := fun _ => nulled
        distinct := fun _ => pass.distinct busy
        present := fun _ => pass.present busy
        calls := none
        userData := fun w before => by
          by_cases same : w = r.watcher
          · exact .inl (by simp [same])
          · exact (pass.userData w before).imp (by simp [same]) (by simp [same]) }
    · exact passKeep pass rfl rfl rfl rfl rfl rfl (by simp [pc]) none
  | remove =>
    dsimp only
    unfold doRemove
    split_ifs <;> dsimp only
    · exact {
        nulled := fun _ => (congrArg (nullCompletions r.watcher) nulled).trans (nullCompletionsMap _ _ _)
        distinct := fun _ => pass.distinct busy
        present := fun _ c member w at_ => by
          by_cases same : w = r.watcher
          · exact .inl (by simp [same])
          · exact (pass.present busy c member w at_).imp (List.mem_cons_of_mem _) fun before => by simpa [same] using before
        calls := none
        userData := fun w before => by
          by_cases same : w = r.watcher
          · simp [same] at before
          · exact (pass.userData w (by simpa [same] using before)).imp_right (by simp [same]) }
    · exact passKeep pass rfl rfl rfl rfl rfl rfl (by simp [pc]) none
    · exact passKeep pass rfl rfl rfl rfl rfl rfl (by simp [pc]) none

omit [DecidableEq ω] in
theorem threadStepBroker {t : τ} {rc : Status} (taken : threadStep s t rc = some s') : s'.broker = s.broker := by
  unfold threadStep at taken
  cases pc : s.threads t <;> simp only [pc, reduceCtorEq] at taken
  case signal id => split_ifs at taken <;> cases taken <;> rfl
  case lock id | wait id => split_ifs at taken <;> cases taken <;> rfl
  case readRc id =>
    obtain ⟨rc, -, same⟩ := Option.map_eq_some_iff.mp taken
    cases same
    rfl
  all_goals
    cases taken
    rfl

theorem stepBatch {a : Action τ ω} {e : Unit} (permitted : Honest s a) (taken : step s a = some (s', e))
    (idle : s.broker = .wait) (busy : s'.broker ≠ .wait) :
    (s'.batch.map Completion.waitable).Nodup ∧ ∀ c ∈ s'.batch, ∀ w, c.waitable = some (.watcher w) → s.registered w = true := by
  cases a with
  | submit t op w wakeupRc =>
    obtain ⟨next, ran, same⟩ := Option.map_eq_some_iff.mp taken
    cases same
    unfold submitStep at ran
    split at ran
    · split_ifs at ran <;> cases ran <;> exact absurd idle busy
    · contradiction
  | thread t rc =>
    obtain ⟨next, ran, same⟩ := Option.map_eq_some_iff.mp taken
    cases same
    exact absurd ((threadStepBroker ran).trans idle) busy
  | notify =>
    cases taken
    exact absurd idle busy
  | broker choice =>
    obtain ⟨next, ran, same⟩ := Option.map_eq_some_iff.mp taken
    cases same
    unfold brokerStep at ran
    rw [idle] at ran
    cases choice with
    | waited batch =>
      obtain ⟨-, same⟩ := Option.ite_none_left_eq_some.mp ran
      cases same
      cases batch with
      | none => simp
      | some batch => exact permitted
    | _ => contradiction

theorem passKept {a : Action τ ω} {e : Unit} (permitted : Honest s a) (taken : step s a = some (s', e)) (pass : Pass s) :
    Pass s' := by
  have batch := stepBatch permitted taken
  have calls := pass.calls
  have move := stepMoves taken
  cases move with
  | submit t op w idle => exact passKeep pass rfl rfl rfl rfl rfl rfl (fun idle => idle) calls
  | noWakeup t op w rc idle failed => exact passKeep pass rfl rfl rfl rfl rfl rfl (fun idle => idle) calls
  | lock t id pc unlocked => exact passKeep pass rfl rfl rfl rfl rfl rfl (fun idle => idle) calls
  | push t id pc => exact passKeep pass rfl rfl rfl rfl rfl rfl (fun idle => idle) calls
  | signal t id pc => exact passKeep pass rfl rfl rfl rfl rfl rfl (fun idle => idle) calls
  | signalFails t id rc pc failed => exact passKeep pass rfl rfl rfl rfl rfl rfl (fun idle => idle) calls
  | rollback t id rc pc => exact passKeep pass rfl rfl rfl rfl rfl rfl (fun idle => idle) calls
  | unlock t id pc => exact passKeep pass rfl rfl rfl rfl rfl rfl (fun idle => idle) calls
  | unlockRefused t id rc pc => exact passKeep pass rfl rfl rfl rfl rfl rfl (fun idle => idle) calls
  | wakeup t id r pc given woken => exact passKeep pass rfl rfl rfl rfl rfl rfl (fun idle => idle) calls
  | retry => exact pass
  | readRc t id r rc pc given value => exact passKeep pass rfl rfl rfl rfl rfl rfl (fun idle => idle) calls
  | leave t id rc pc => exact passKeep pass rfl rfl rfl rfl rfl rfl (fun idle => idle) calls
  | notify => exact passKeep pass rfl rfl rfl rfl rfl rfl (fun idle => idle) calls
  | waited batch' pc signaled =>
    obtain ⟨distinct, registered⟩ := batch pc (by simp)
    exact {
      nulled := fun _ => by
        show batch' = batch'.map (without [])
        refine (List.map_id'' (fun c => ?_) batch').symm
        rcases c with ⟨_ | _ | v, events⟩ <;> simp [without]
      distinct := fun _ => distinct
      present := fun _ c member w at_ => .inr (registered c member w at_)
      calls := rfl
      userData := pass.userData }
  | drainLast i pc last =>
    exact passKeep pass rfl rfl rfl rfl rfl rfl (by simp [pc]) (by simpa [CallsMade, pc] using calls)
  | drain i event c pc here =>
    exact passKeep pass rfl rfl rfl rfl rfl rfl (by simp [pc]) (by simpa [CallsMade, pc] using calls)
  | brokerLock pc unlocked =>
    exact passKeep pass rfl rfl rfl rfl rfl rfl (by simp [pc]) (by simpa [CallsMade, pc] using calls)
  | takeNone pc empty =>
    exact passKeep pass rfl rfl rfl rfl rfl rfl (by simp [pc]) (by simpa [CallsMade, pc] using calls)
  | take id rest pc queue =>
    exact passKeep pass rfl rfl rfl rfl rfl rfl (by simp [pc]) (by simpa [CallsMade, pc, State.setRequest] using calls)
  | unlockEmpty pc =>
    exact passKeep pass rfl rfl rfl rfl rfl rfl (by simp [pc]) (by simpa [CallsMade, pc] using calls)
  | unlockTaken id pc =>
    exact passKeep pass rfl rfl rfl rfl rfl rfl (by simp [pc]) (by simpa [CallsMade, pc] using calls)
  | execute id r initialized rc pc given => exact passExecutes pass r initialized rc pc _ _ _
  | setRc id rc pc =>
    exact passKeep pass rfl rfl rfl rfl rfl rfl (by simp [pc]) (by simpa [CallsMade, pc, State.setRequest] using calls)
  | wake id pc =>
    exact passKeep pass rfl rfl rfl rfl rfl rfl (by simp [pc]) (by simpa [CallsMade, pc, State.setRequest] using calls)
  | dispatchLast i pc last =>
    refine passKeep pass rfl rfl rfl rfl rfl rfl (by simp [pc]) ?_
    simp only [CallsMade, pc, List.take_of_length_le (List.getElem?_eq_none_iff.mp last)] at calls
    exact calls
  | dispatch i c pc here =>
    refine passKeep pass rfl rfl rfl rfl rfl rfl (by simp [pc]) ?_
    simp only [CallsMade, pc] at calls
    show s.calls ++ handled s c = (s.completions.take (i + 1)).flatMap (handled s)
    rw [calls, List.take_add_one, here]
    simp
  | timers pc => exact passKeep pass rfl rfl rfl rfl rfl rfl (fun _ => rfl) trivial

omit [DecidableEq τ] in
theorem startPass (first : Starts s) : Pass s where
  nulled busy := absurd first.broker busy
  distinct busy := absurd first.broker busy
  present busy := absurd first.broker busy
  calls := by simp [CallsMade, first.broker]
  userData w registered := by simp [first.registered w] at registered

def AddedLater (s : State τ ω) (id : Nat) (w : ω) : Prop :=
  ∃ before rc after, s.executed = before ++ (id, rc) :: after ∧
    ∃ later r, (later, .ok) ∈ after ∧ s.requests later = some r ∧ r.op = .add ∧ r.watcher = w

def Away (s : State τ ω) (w : ω) : Prop := s.registered w = false ∧ ∀ c ∈ s.completions, c.waitable ≠ some (.watcher w)

def RemovedAway (s : State τ ω) : Prop :=
  ∀ id r, (id, .ok) ∈ s.executed → s.requests id = some r → r.op = .remove → AddedLater s id r.watcher ∨ Away s r.watcher

theorem taskKept (move : Move s s') (inv : Requests s) {id : Nat} {r : Request τ ω} (given : s.requests id = some r) :
    ∃ r', s'.requests id = some r' ∧ r'.op = r.op ∧ r'.watcher = r.watcher := by
  have used : id ≠ s.fresh := by
    rintro rfl
    rw [inv.freshFree] at given
    contradiction
  have kept : ∀ (other : Nat) (f : Request τ ω → Request τ ω), (∀ r, (f r).op = r.op ∧ (f r).watcher = r.watcher) →
      ∃ r', Function.update s.requests other ((s.requests other).map f) id = some r' ∧ r'.op = r.op ∧ r'.watcher = r.watcher := by
    intro other f same
    by_cases here : id = other
    · subst here
      exact ⟨f r, by simp [given], same r⟩
    · exact ⟨r, by simp [here, given], rfl, rfl⟩
  cases move with
  | submit t op w idle => exact ⟨r, by simp [used, given], rfl, rfl⟩
  | noWakeup t op w rc idle failed => exact ⟨r, by simp [used, given], rfl, rfl⟩
  | push t other pc => exact kept other (stageTo .pushed) fun _ => ⟨rfl, rfl⟩
  | signal t other pc => exact kept other (stageTo .queued) fun _ => ⟨rfl, rfl⟩
  | rollback t other rc pc => exact kept other (stageTo (.refused rc)) fun _ => ⟨rfl, rfl⟩
  | leave t other rc pc => exact kept other (stageTo .returned) fun _ => ⟨rfl, rfl⟩
  | take other rest pc queue => exact kept other (stageTo .taken) fun _ => ⟨rfl, rfl⟩
  | execute other r₀ initialized rc pc given₀ =>
    obtain ⟨_, _, _, _, _, same⟩ := doOpFrame s r₀ initialized rc
    rw [same]
    exact kept other (stageTo (.ran (doOp s r₀ initialized rc).2)) fun _ => ⟨rfl, rfl⟩
  | setRc other rc pc => exact kept other (fun r => { r with rc := some rc, stage := .answered rc }) fun _ => ⟨rfl, rfl⟩
  | wake other pc =>
    exact kept other (fun r => { r with woken := true, stage := .done (r.rc.getD .inval) }) fun _ => ⟨rfl, rfl⟩
  | _ => exact ⟨r, given, rfl, rfl⟩

omit [DecidableEq τ] [DecidableEq ω] in
theorem executedGiven (inv : Inv s) {id : Nat} {rc : Status} (executed : (id, rc) ∈ s.executed) :
    ∃ r, s.requests id = some r := by
  obtain ⟨r, given, -⟩ := inv.answered executed
  exact ⟨r, given⟩

theorem AddedLater.kept (move : Move s s') (inv : Inv s) {id : Nat} {w : ω} (added : AddedLater s id w)
    (grows : s.executed <+: s'.executed) : AddedLater s' id w := by
  obtain ⟨before, rc, after, split, later, r, member, given, op, watcher⟩ := added
  obtain ⟨more, grown⟩ := grows
  obtain ⟨r', given', op', watcher'⟩ := taskKept move inv.requests given
  refine ⟨before, rc, after ++ more, ?_, later, r', List.mem_append_left _ member, given', op'.trans op, watcher'.trans watcher⟩
  rw [← grown, split]
  simp

omit [DecidableEq τ] in
theorem doOpAway (r : Request τ ω) (initialized : Bool) (rc : Status) {w : ω} (away : Away s w) :
    r.op = .add ∧ r.watcher = w ∧ (doOp s r initialized rc).2 = .ok ∨ Away (doOp s r initialized rc).1 w := by
  unfold doOp
  cases r.op with
  | add =>
    dsimp only
    unfold doAdd
    split_ifs with ready ok
    · dsimp only
      by_cases same : r.watcher = w
      · exact .inl ⟨rfl, same, ok⟩
      · exact .inr ⟨by simpa [Ne.symm same] using away.1, away.2⟩
    · exact .inr away
    · exact .inr away
  | remove =>
    refine .inr ?_
    dsimp only
    unfold doRemove
    split_ifs with ready ok
    · dsimp only
      refine ⟨?_, fun c member here => ?_⟩
      · by_cases same : w = r.watcher
        · simp [same]
        · simpa [same] using away.1
      · obtain ⟨old, before, same⟩ := List.mem_map.mp member
        split at same
        · rw [← same] at here
          contradiction
        · exact away.2 old before (same ▸ here)
    · exact away
    · exact away

omit [DecidableEq τ] in
theorem doOpRemoves (r : Request τ ω) (initialized : Bool) (rc : Status) (op : r.op = .remove)
    (ok : (doOp s r initialized rc).2 = .ok) : Away (doOp s r initialized rc).1 r.watcher := by
  unfold doOp at ok ⊢
  rw [op] at ok ⊢
  dsimp only at ok ⊢
  unfold doRemove at ok ⊢
  split_ifs at ok ⊢ with ready removed
  · dsimp only
    refine ⟨by simp, fun c member here => ?_⟩
    obtain ⟨old, before, same⟩ := List.mem_map.mp member
    split at same
    · rw [← same] at here
      contradiction
    · rw [← same] at here
      contradiction
  · exact absurd ok removed

theorem removedAwayKept {a : Action τ ω} {e : Unit} (permitted : Honest s a) (taken : step s a = some (s', e)) (inv : Inv s)
    (gone : RemovedAway s) : RemovedAway s' := by
  have batch := stepBatch permitted taken
  have move := stepMoves taken
  have known : ∀ id r', (id, .ok) ∈ s.executed → s'.requests id = some r' → r'.op = .remove → s.executed <+: s'.executed →
      AddedLater s' id r'.watcher ∨ Away s r'.watcher := by
    intro id r' executed given' op' grows
    obtain ⟨r, given⟩ := executedGiven inv executed
    obtain ⟨same, given'', op, watcher⟩ := taskKept move inv.requests given
    cases given'.symm.trans given''
    rw [watcher]
    exact (gone id r executed given (op.symm.trans op')).imp_left fun added => added.kept move inv grows
  cases move with
  | waited batch' pc signaled =>
    intro id r' executed given' op'
    refine (known id r' executed given' op' List.prefix_rfl).imp_right fun away => ⟨away.1, fun c member here => ?_⟩
    have registered := (batch pc (by simp)).2 c member r'.watcher here
    rw [away.1] at registered
    contradiction
  | execute other r₀ initialized rc pc given₀ =>
    intro id r' executed given' op'
    obtain ⟨r₁, given₁, op₁, watcher₁⟩ := taskKept (stepMoves taken) inv.requests given₀
    rcases List.mem_append.mp executed with old | last
    · rcases known id r' old given' op' (List.prefix_append _ _) with added | away
      · exact .inl added
      · rcases doOpAway r₀ initialized rc away with ⟨op, watcher, ok⟩ | away
        · obtain ⟨before, after, split⟩ := List.append_of_mem old
          refine .inl ⟨before, .ok, after ++ [(other, (doOp s r₀ initialized rc).2)], ?_, other, r₁, ?_, given₁,
            op₁.trans op, watcher₁.trans watcher⟩
          · show s.executed ++ [(other, (doOp s r₀ initialized rc).2)] = _
            rw [split]
            simp
          · simp [ok]
        · exact .inr away
    · obtain ⟨rfl, ok⟩ := Prod.mk.inj (List.mem_singleton.mp last)
      cases given'.symm.trans given₁
      rw [watcher₁]
      exact .inr (doOpRemoves r₀ initialized rc (op₁.symm.trans op') ok.symm)
  | _ => exact fun id r' executed given' op' => known id r' executed given' op' List.prefix_rfl

/- The handler calls of the broker's next access, and the watchers that access reads. -/
def invokes (s : State τ ω) : List (ω × Nat) :=
  match s.broker with
  | .dispatch i => (s.completions[i]?.map (handled s)).getD []
  | _ => []

def Reads (s : State τ ω) (w : ω) : Prop :=
  match s.broker with
  | .dispatch i => ∃ c, s.completions[i]? = some c ∧ c.waitable = some (.watcher w)
  | .execute id => ∃ r, s.requests id = some r ∧ r.watcher = w
  | _ => False

omit [DecidableEq τ] [DecidableEq ω] in
theorem handledFrom {c : Completion ω} {call : ω × Nat} (made : call ∈ handled s c) :
    c.waitable = some (.watcher call.1) ∧ call.2 = c.triggeredEvents := by
  rcases c with ⟨_ | _ | w, events⟩
  · simp [handled] at made
  · simp [handled] at made
  · simp only [handled] at made
    split_ifs at made
    · obtain rfl := List.mem_singleton.mp made
      exact ⟨rfl, rfl⟩
    · contradiction

theorem withoutWatcher {removed : List ω} {c : Completion ω} {w : ω} (here : (without removed c).waitable = some (.watcher w)) :
    c.waitable = some (.watcher w) ∧ w ∉ removed ∧ (without removed c).triggeredEvents = c.triggeredEvents := by
  rcases c with ⟨_ | _ | v, events⟩
  · simp [without] at here
  · simp [without] at here
  · by_cases gone : v ∈ removed
    · simp [without, gone] at here
    · simp only [without, gone, if_false] at here ⊢
      cases here
      exact ⟨rfl, gone, trivial⟩

omit [DecidableEq τ] [DecidableEq ω] in
theorem invokesReads {call : ω × Nat} (made : call ∈ invokes s) : Reads s call.1 := by
  unfold invokes at made
  unfold Reads
  split at made
  case h_1 i pc =>
    cases here : s.completions[i]? with
    | none => simp [here] at made
    | some c =>
      rw [here] at made
      simp only [pc]
      exact ⟨c, here, (handledFrom made).1⟩
  case h_2 => contradiction

omit [DecidableEq τ] in
theorem Pass.callsFrom (pass : Pass s) (pc : s.broker = .timers) {call : ω × Nat} (made : call ∈ s.calls) :
    ∃ c ∈ s.batch, c.waitable = some (.watcher call.1) ∧ call.2 = c.triggeredEvents ∧ call.1 ∉ s.removed := by
  have calls := pass.calls
  simp only [CallsMade, pc] at calls
  rw [calls, pass.nulled (by simp [pc])] at made
  obtain ⟨gone, member, from_⟩ := List.mem_flatMap.mp made
  obtain ⟨c, inside, rfl⟩ := List.mem_map.mp member
  obtain ⟨here, events⟩ := handledFrom from_
  obtain ⟨watcher, kept, same⟩ := withoutWatcher here
  exact ⟨c, inside, watcher, events.trans same, kept⟩

omit [DecidableEq τ] in
theorem Pass.callsOf (pass : Pass s) (pc : s.broker = .timers) {w : ω} {c : Completion ω} (member : c ∈ s.batch)
    (here : c.waitable = some (.watcher w)) (kept : w ∉ s.removed) (data : s.userData w = true) :
    s.calls.filter (·.1 = w) = [(w, c.triggeredEvents)] := by
  have busy : s.broker ≠ .wait := by simp [pc]
  have calls := pass.calls
  simp only [CallsMade, pc] at calls
  have other : ∀ part : List (Completion ω), some (Source.watcher w) ∉ part.map Completion.waitable →
      ((part.map (without s.removed)).flatMap (handled s)).filter (·.1 = w) = [] := by
    intro part absent
    refine List.filter_eq_nil_iff.mpr fun call made => ?_
    obtain ⟨gone, member, from_⟩ := List.mem_flatMap.mp made
    obtain ⟨d, inside, rfl⟩ := List.mem_map.mp member
    have watcher := (withoutWatcher (handledFrom from_).1).1
    intro same
    rw [of_decide_eq_true same] at watcher
    exact absent (List.mem_map.mpr ⟨d, inside, watcher⟩)
  obtain ⟨front, back, split⟩ := List.append_of_mem member
  have distinct := pass.distinct busy
  rw [split, List.map_append, List.map_cons, here] at distinct
  obtain ⟨-, tail, apart⟩ := List.nodup_append.mp distinct
  have mine : handled s (without s.removed c) = [(w, c.triggeredEvents)] := by
    simp [without, handled, here, kept, data]
  rw [calls, pass.nulled busy, split]
  simp only [List.map_append, List.map_cons, List.flatMap_append, List.flatMap_cons, List.filter_append, mine]
  rw [other front fun inside => apart _ inside _ List.mem_cons_self rfl, other back (List.nodup_cons.mp tail).1]
  simp

structure RefusedErrors (s : State τ ω) : Prop where
  refused : ∀ id rc, (id, rc) ∈ s.refused → rc ≠ .ok
  rollback : ∀ t id rc, s.threads t = .rollback id rc → rc ≠ .ok

omit [DecidableEq ω] in
theorem RefusedErrors.thread (errors : RefusedErrors s) {t : τ} {pc : SubmitPc} (refused : s'.refused = s.refused)
    (threads : s'.threads = Function.update s.threads t pc) (error : ∀ id rc, pc = .rollback id rc → rc ≠ .ok) : RefusedErrors s' where
  refused := by
    rw [refused]
    exact errors.refused
  rollback u id rc at_ := by
    rw [threads] at at_
    by_cases same : u = t
    · rw [same, Function.update_self] at at_
      exact error id rc at_
    · rw [Function.update_of_ne same] at at_
      exact errors.rollback u id rc at_

theorem refusedErrorsKept (move : Move s s') (errors : RefusedErrors s) : RefusedErrors s' := by
  cases move with
  | submit t op w idle => exact errors.thread rfl rfl (by simp)
  | noWakeup t op w rc idle failed =>
    refine ⟨fun id rc' member => ?_, errors.rollback⟩
    rcases List.mem_append.mp member with before | last
    · exact errors.refused id rc' before
    · cases List.mem_singleton.mp last
      exact failed
  | lock t id pc unlocked => exact errors.thread rfl rfl (by simp)
  | push t id pc => exact errors.thread rfl rfl (by simp)
  | signal t id pc => exact errors.thread rfl rfl (by simp)
  | signalFails t id rc pc failed =>
    refine errors.thread rfl rfl fun id' rc' same => ?_
    cases same
    exact failed
  | rollback t id rc pc =>
    have kept : RefusedErrors (s.setThread t (.unlock id (some rc))) := errors.thread rfl rfl (by simp)
    refine ⟨fun id' rc' member => ?_, kept.rollback⟩
    rcases List.mem_append.mp member with before | last
    · exact errors.refused id' rc' before
    · cases List.mem_singleton.mp last
      exact errors.rollback t id rc pc
  | unlock t id pc => exact errors.thread rfl rfl (by simp)
  | unlockRefused t id rc pc => exact errors.thread rfl rfl (by simp)
  | wakeup t id r pc given woken => exact errors.thread rfl rfl (by simp)
  | readRc t id r rc pc given value => exact errors.thread rfl rfl (by simp)
  | leave t id rc pc => exact errors.thread rfl rfl (by simp)
  | execute id r initialized rc pc given =>
    obtain ⟨_, _, _, _, _, same⟩ := doOpFrame s r initialized rc
    rw [same]
    exact ⟨errors.refused, errors.rollback⟩
  | _ => exact ⟨errors.refused, errors.rollback⟩

structure RemovalInv (s : State τ ω) : Prop where
  inv : Inv s
  pass : Pass s
  gone : RemovedAway s
  errors : RefusedErrors s

theorem removalInvReachable (reach : Reachable Starts step Honest s) : RemovalInv s := by
  refine reach.invariant (fun s first => ?_) fun s a s' e inv permitted taken => ?_
  · exact ⟨startInv first, startPass first, fun id r executed => by simp [first.executed] at executed,
      ⟨by simp [first.refused], by simp [first.threads]⟩⟩
  · have move := stepMoves taken
    exact ⟨invKept move inv.inv, passKept permitted taken inv.pass, removedAwayKept permitted taken inv.inv inv.gone,
      refusedErrorsKept move inv.errors⟩

/- A remove of `w` returned `NS_OK` and no add of it succeeded since. -/
def RemoveReturned (s : State τ ω) (w : ω) : Prop :=
  ∃ t id r, (t, id, .ok) ∈ s.returned ∧ s.requests id = some r ∧ r.op = .remove ∧ r.watcher = w ∧ ¬AddedLater s id w

theorem removedIsAway (reach : Reachable Starts step Honest s) {w : ω} (removed : RemoveReturned s w) : Away s w := by
  obtain ⟨t, id, r, returned, given, op, rfl, unadded⟩ := removed
  have inv := removalInvReachable reach
  rcases (inv.inv.sound.returned t id .ok returned).2 with executed | refused
  · exact (inv.gone id r executed given op).resolve_left unadded
  · exact absurd rfl (inv.errors.refused id .ok refused)

/- Once a remove of a watcher has returned `NS_OK` and until an add of it succeeds, the
broker does not invoke its handler and reads it only for an add or a remove of it that a
thread waits for. In every pass a watcher of the batch that was not removed in it is still
registered and, unless an add of it failed while it was registered, its handler is called
once, with its events; no other calls are made. -/
theorem noHandlerAfterRemove (reach : Reachable Starts step Honest s) :
    (∀ w, RemoveReturned s w →
      (∀ call ∈ invokes s, call.1 ≠ w) ∧
        (Reads s w → ∃ id r, s.broker = .execute id ∧ s.requests id = some r ∧ r.watcher = w ∧ s.threads r.owner = .wait id)) ∧
    (s.broker = .timers →
      (∀ w, ∀ c ∈ s.batch, c.waitable = some (.watcher w) → w ∉ s.removed →
        s.registered w = true ∧ (s.spoiled w = false → s.calls.filter (·.1 = w) = [(w, c.triggeredEvents)])) ∧
      ∀ call ∈ s.calls, ∃ c ∈ s.batch, c.waitable = some (.watcher call.1) ∧ call.2 = c.triggeredEvents ∧ call.1 ∉ s.removed) := by
  have inv := removalInvReachable reach
  have unread : ∀ w, RemoveReturned s w → Reads s w →
      ∃ id r, s.broker = .execute id ∧ s.requests id = some r ∧ r.watcher = w ∧ s.threads r.owner = .wait id := by
    intro w removed reads
    have away := removedIsAway reach removed
    unfold Reads at reads
    split at reads
    case h_1 i pc =>
      obtain ⟨c, here, watcher⟩ := reads
      exact absurd watcher (away.2 c (List.mem_of_getElem? here))
    case h_2 id pc =>
      obtain ⟨r, given, watcher⟩ := reads
      obtain ⟨r', given', waiting, -⟩ := inv.inv.requests.inHand id (by rw [pc]; rfl)
      cases given.symm.trans given'
      exact ⟨id, r, pc, given, watcher, waiting⟩
    case h_3 => exact reads.elim
  refine ⟨fun w removed => ⟨fun call made same => ?_, unread w removed⟩, fun pc => ⟨fun w c member here kept => ?_, fun call made => ?_⟩⟩
  · obtain ⟨id, r, pc, -⟩ := unread w removed (same ▸ invokesReads made)
    simp [invokes, pc] at made
  · have registered := (inv.pass.present (by simp [pc]) c member w here).resolve_left kept
    refine ⟨registered, fun clean => ?_⟩
    have data := (inv.pass.userData w registered).resolve_left (by simp [clean])
    exact inv.pass.callsOf pc member here kept data
  · exact inv.pass.callsFrom pc made

end Passes

instance (s : State Bool Bool) (a : Action Bool Bool) : Decidable (Honest s a) :=
  match a with
  | .broker (.waited (some batch)) =>
      inferInstanceAs (Decidable ((batch.map Completion.waitable).Nodup ∧
        ∀ c ∈ batch, ∀ w, c.waitable = some (.watcher w) → s.registered w = true))
  | .broker (.waited none) | .broker .next | .broker (.drained _) | .broker (.executes _ _) => .isTrue trivial
  | .submit _ _ _ _ | .thread _ _ | .notify => .isTrue trivial

def passBegins (batch : List (Completion Bool)) : List (Action Bool Bool) :=
  .broker (.waited (some batch)) :: List.replicate (batch.length + 1) (.broker (.drained true))

def queues (t : Bool) (op : Op) (w : Bool) : List (Action Bool Bool) :=
  .submit t op w .ok :: List.replicate 4 (.thread t .ok)

def executes (rc : Status) : List (Action Bool Bool) :=
  [.broker .next, .broker .next, .broker .next, .broker (.executes true rc), .broker .next, .broker .next]

def operation (t : Bool) (op : Op) (w : Bool) : List (Action Bool Bool) :=
  queues t op w ++ executes .ok ++ List.replicate 3 (.thread t .ok)

/- One watcher is added and removed, the other is added and called. -/
theorem otherWatcherCalled : ∃ s : State Bool Bool,
    s.calls = [(true, 5)] ∧ s.registered false = false ∧ Reachable Starts step Honest s ∧
      ∀ call ∈ s.calls, ∃ c ∈ s.batch, c.waitable = some (.watcher call.1) ∧ call.2 = c.triggeredEvents ∧ call.1 ∉ s.removed := by
  have runs : ∃ s, executeAllowed step Honest initial
      (passBegins [] ++ operation true .add false ++ operation true .remove false ++ operation true .add true ++
        List.replicate 5 (.broker .next) ++ passBegins [⟨some (.watcher true), 5⟩] ++ List.replicate 5 (.broker .next)) = some s ∧
      s.calls = [(true, 5)] ∧ s.registered false = false ∧ s.broker = .timers :=
    anyResult (by decide +kernel)
  obtain ⟨s, ran, calls, registered, pc⟩ := runs
  have reach : Reachable Starts step Honest s := executeAllowedReachable (.start initialStarts) ran
  exact ⟨s, calls, registered, reach, ((noHandlerAfterRemove reach).2 pc).2⟩

/- A second remove of the watcher, queued beside the first, reads it after the first has
returned `NS_OK`; and after a second add of a registered watcher its handler is not called. -/
theorem readAfterRemove :
    (∃ s : State Bool Bool, Reachable Starts step Honest s ∧ RemoveReturned s true ∧ Reads s true) ∧
      ∃ s : State Bool Bool, Reachable Starts step Honest s ∧ s.broker = .timers ∧ s.registered true = true ∧
        s.removed = [] ∧ s.batch.getLast? = some ⟨some (.watcher true), 5⟩ ∧ s.calls = [] := by
  have two : ∃ s, executeAllowed step Honest initial
      (passBegins [] ++ operation true .add true ++ queues true .remove true ++ queues false .remove true ++ executes .ok ++
        List.replicate 3 (.thread true .ok) ++ List.replicate 3 (.broker .next)) = some s ∧
      (true, 1, .ok) ∈ s.returned ∧ s.executed = [(0, .ok), (1, .ok)] ∧ s.broker = .execute 2 ∧
      (s.requests 1).map (fun r => (r.op, r.watcher)) = some (.remove, true) ∧
      (s.requests 2).map (fun r => r.watcher) = some true :=
    anyResult (by decide +kernel)
  have again : ∃ s, executeAllowed step Honest initial
      (passBegins [] ++ operation true .add true ++ List.replicate 5 (.broker .next) ++ queues true .add true ++
        passBegins [⟨some .event, 1⟩, ⟨some (.watcher true), 5⟩] ++ executes .exists ++ List.replicate 6 (.broker .next)) = some s ∧
      s.broker = .timers ∧ s.registered true = true ∧ s.removed = [] ∧
      s.batch.getLast? = some ⟨some (.watcher true), 5⟩ ∧ s.calls = [] :=
    anyResult (by decide +kernel)
  constructor
  · obtain ⟨s, ran, returned, executed, pc, first, second⟩ := two
    refine ⟨s, executeAllowedReachable (.start initialStarts) ran, ?_, ?_⟩
    · obtain ⟨r, given, same⟩ := Option.map_eq_some_iff.mp first
      obtain ⟨op, watcher⟩ := Prod.mk.inj same
      refine ⟨true, 1, r, returned, given, op, watcher, ?_⟩
      rintro ⟨before, rc, after, split, later, -, member, -⟩
      rw [executed] at split
      rcases before with _ | ⟨_, _ | ⟨_, before⟩⟩ <;> simp_all
    · obtain ⟨r, given, watcher⟩ := Option.map_eq_some_iff.mp second
      unfold Reads
      rw [pc]
      exact ⟨r, given, watcher⟩
  · obtain ⟨s, ran, pc, registered, removed, batch, calls⟩ := again
    exact ⟨s, executeAllowedReachable (.start initialStarts) ran, pc, registered, removed, batch, calls⟩

end Nanosig.Broker
