import Nanosig.MpscRecordRing.Calls
import Nanosig.Lib.Progress

/-! Who waits for whom on the ring. From its CAS to its store of `write_pos` a producer is in a section that no other
enters; it needs nobody to leave it, nor to return afterwards. The consumer needs nobody at all. -/
namespace Nanosig.MpscRecordRing

open TransitionSystem

variable {abi : Abi} {ι : Type} [DecidableEq ι]

def Action.ofProducer (p : ι) : Action abi ι → Bool
  | .producer q _ => q = p
  | _ => false

def Action.ofConsumer : Action abi ι → Bool
  | .consumer => true
  | _ => false

theorem stepLeaves {s s' : State abi ι} {a : Action abi ι} {e : Event ι} {p : ι} (inside : s.producers p ≠ .idle)
    (taken : step s a = some (s', e)) (other : a.ofProducer p = false) : s'.producers p = s.producers p := by
  cases a with
  | push q parts =>
    simp only [step, pushStep] at taken
    split at taken
    · split at taken
      · cases taken
        rfl
      · cases taken
        refine Function.update_of_ne ?_ _ _
        rintro rfl
        exact inside ‹_›
    · contradiction
  | producer q spurious =>
    refine (producerStepElsewhere taken).producers p ?_
    rintro rfl
    simp [Action.ofProducer] at other
  | acquire =>
    simp only [step, acquireStep] at taken
    split_ifs at taken <;> cases taken <;> rfl
  | release =>
    simp only [step, releaseStep] at taken
    split at taken
    · contradiction
    · split at taken
      · contradiction
      · split at taken <;> cases taken <;> rfl
  | consumer => exact congrFun (consumerStepEffect taken).1.producers p

section Writing

def ProducerPc.remaining : ProducerPc abi ι → Nat
  | .writing stage r => stage.remaining r
  | _ => 0

def Writes (p : ι) (s : State abi ι) : Prop := ∃ stage r, s.producers p = .writing stage r

omit [DecidableEq ι] in
theorem remainingMost (stage : WriteStage abi) (r : Reservation abi ι) {s : State abi ι} {p : ι} (inv : Inv s)
    (at_ : s.producers p = .writing stage r) : stage.remaining r ≤ r.push.parts.length + 4 := by
  have holds := inv.producers p
  rw [at_] at holds
  obtain ⟨-, -, -, here⟩ := holds
  cases stage with
  | copy written rest =>
    obtain ⟨done, parts, -⟩ := here
    simp only [WriteStage.remaining, parts, List.length_append]
    omega
  | _ => simp [WriteStage.remaining]

/- Every access of a writing producer brings it nearer to its `NS_OK`. -/
theorem writingNearer {s s' : State abi ι} {p : ι} {spurious : Bool} {e : Event ι} (writes : Writes p s)
    (taken : step s (.producer p spurious) = some (s', e)) :
    e = .pushReturned p .ok ∨ Writes p s' ∧ (s'.producers p).remaining < (s.producers p).remaining := by
  obtain ⟨stage, r, at_⟩ := writes
  simp only [step, producerStep, at_] at taken
  have onward : ∀ stage', s'.producers p = .writing stage' r → stage'.remaining r < stage.remaining r →
      Writes p s' ∧ (s'.producers p).remaining < (s.producers p).remaining := by
    intro stage' here less
    rw [here, at_]
    exact ⟨⟨stage', r, here⟩, less⟩
  cases stage with
  | storeFake =>
    cases taken
    exact .inr (onward .markUncommitted (Function.update_self ..) (by simp [WriteStage.remaining]))
  | markUncommitted =>
    cases taken
    exact .inr (onward .publish (Function.update_self ..) (by simp [WriteStage.remaining]))
  | publish =>
    cases taken
    exact .inr (onward (.copy 0 r.push.parts) (Function.update_self ..) (by simp [WriteStage.remaining]))
  | copy written rest =>
    cases rest with
    | nil =>
      cases taken
      exact .inl rfl
    | cons part rest =>
      cases taken
      exact .inr (onward (.copy (written + part.size) rest) (Function.update_self ..) (by simp [WriteStage.remaining]))

theorem ofProducerIs {a : Action abi ι} {p : ι} (own : a.ofProducer p = true) : ∃ spurious, a = .producer p spurious := by
  cases a with
  | producer q spurious =>
    obtain rfl := of_decide_eq_true own
    exact ⟨spurious, rfl⟩
  | _ => simp [Action.ofProducer] at own

theorem writingKept {s s' : State abi ι} {a : Action abi ι} {e : Event ι} {p : ι} (writes : Writes p s)
    (taken : step s a = some (s', e)) : e = .pushReturned p .ok ∨ Writes p s' ∧
      (s'.producers p).remaining ≤ (s.producers p).remaining ∧
      (a.ofProducer p = true → (s'.producers p).remaining < (s.producers p).remaining) := by
  cases own : a.ofProducer p with
  | true =>
    obtain ⟨spurious, rfl⟩ := ofProducerIs own
    rcases writingNearer writes taken with here | ⟨writes', less⟩
    · exact .inl here
    · exact .inr ⟨writes', less.le, fun _ => less⟩
  | false =>
    obtain ⟨stage, r, at_⟩ := writes
    have same := stepLeaves (p := p) (by simp [at_]) taken own
    exact .inr ⟨⟨stage, r, same.trans at_⟩, by rw [same], fun own => by cases own⟩

theorem writingApproach (p : ι) : Approach (step : State abi ι → Action abi ι → _) NoLap (Writes p)
    (fun s => (s.producers p).remaining) (Action.ofProducer p) (· = .pushReturned p .ok) :=
  ⟨fun _ _ _ _ writes _ taken => writingKept writes taken⟩

theorem writesWithin {s s' : State abi ι} {p : ι} {stage : WriteStage abi} {r : Reservation abi ι}
    {visits : List (Visit (State abi ι) (Action abi ι) (Event ι))} (inv : Inv s) (at_ : s.producers p = .writing stage r)
    (run : Run step NoLap s visits s') : (∃ v ∈ visits, v.event = .pushReturned p .ok) ∨
      visits.countP (fun v => v.label.ofProducer p) < r.push.parts.length + 4 := by
  have most := remainingMost stage r inv at_
  rcases (writingApproach p).bounded run ⟨stage, r, at_⟩ with returned | ⟨⟨stage', r', here⟩, count⟩
  · exact .inl returned
  · have positive : 0 < stage'.remaining r' := by
      cases stage' <;> simp [WriteStage.remaining]
    rw [here, at_] at count
    simp only [ProducerPc.remaining] at count
    exact .inr (by omega)

end Writing

section Reserving

/- Between its CAS and its store of `write_pos`. -/
def InSection (p : ι) (s : State abi ι) : Prop := ∃ stage r, s.producers p = .writing stage r ∧ stage.Unpublished

variable {s s' : State abi ι} {p q : ι}

omit [DecidableEq ι] in
theorem sectionBounds (inv : Inv s) {stage : WriteStage abi} {r : Reservation abi ι}
    (at_ : s.producers p = .writing stage r) (unpublished : stage.Unpublished) :
    r ∈ s.window ∧ r.producer = p ∧ r.start = s.published ∧ r.stop = s.reserved := by
  have holds := inv.producers p
  rw [at_] at holds
  exact ⟨holds.1, holds.2.1, holds.2.2.1 unpublished⟩

omit [DecidableEq ι] in
theorem sectionUnpublished (inv : Inv s) (inside : InSection p s) : s.published < s.reserved := by
  obtain ⟨stage, r, at_, unpublished⟩ := inside
  obtain ⟨member, -, start, stop⟩ := sectionBounds inv at_ unpublished
  have := (inv.reservations r member).startLtStop
  omega

omit [DecidableEq ι] in
theorem sectionAlone (inv : Inv s) (mine : InSection p s) (theirs : InSection q s) : p = q := by
  obtain ⟨stage, r, at_, unpublished⟩ := mine
  obtain ⟨stage', r', at', unpublished'⟩ := theirs
  obtain ⟨member, producer, start, -⟩ := sectionBounds inv at_ unpublished
  obtain ⟨member', producer', start', -⟩ := sectionBounds inv at' unpublished'
  obtain rfl := inv.sameStart member member' (start.trans start'.symm)
  exact producer.symm.trans producer'

theorem sectionShut (inv : Inv s) (inside : InSection p s) {a : Action abi ι} {e : Event ι} (fresh : NoLap s a)
    (taken : step s a = some (s', e)) (other : a.ofProducer p = false) : InSection p s' ∧ s'.log = s.log := by
  have unpublished := sectionUnpublished inv inside
  obtain ⟨stage, r, at_, here⟩ := inside
  have kept := stepLeaves (p := p) (by simp [at_]) taken other
  refine ⟨⟨stage, r, kept.trans at_, here⟩, ?_⟩
  cases a with
  | push q parts =>
    simp only [step, pushStep] at taken
    split at taken
    · split at taken <;> cases taken <;> rfl
    · contradiction
  | producer q spurious =>
    simp only [step, producerStep] at taken
    split at taken
    · contradiction
    · cases taken
      rfl
    · split at taken <;> cases taken <;> rfl
    · rename_i push writePos plan seen seenReleased pc
      split at taken
      · rename_i agrees
        -- Its CAS would have found `reserve_pos` at a published position.
        have lap : s.reserved < seen + abi.modulus := by
          simpa only [NoLap, pc] using fresh
        obtain ⟨reserved, published, -⟩ := inv.casFresh pc agrees.1 lap
        omega
      · cases taken
        rfl
    · rename_i stage' r' pc
      have state : (writeStep s q r' stage').1 = s' := congrArg Prod.fst (Option.some.inj taken)
      rw [← state]
      exact (writeStepCounts s q r' stage').1
  | acquire =>
    simp only [step, acquireStep] at taken
    split_ifs at taken <;> cases taken <;> rfl
  | release =>
    simp only [step, releaseStep] at taken
    split at taken
    · contradiction
    · split at taken
      · contradiction
      · split at taken <;> cases taken <;> rfl
  | consumer => exact (consumerStepEffect taken).1.log

theorem sectionShutRun {visits : List (Visit (State abi ι) (Action abi ι) (Event ι))} (inv : Inv s)
    (inside : InSection p s) (run : Run step NoLap s visits s') (still : ∀ v ∈ visits, v.label.ofProducer p = false) :
    Inv s' ∧ InSection p s' ∧ s'.log = s.log := by
  induction run with
  | done => exact ⟨inv, inside, rfl⟩
  | @next s' s'' visits a e before permitted taken ih =>
    obtain ⟨inv', inside', same⟩ := ih fun v member => still v (List.mem_append_left _ member)
    have other : a.ofProducer p = false := still ⟨s', a, e⟩ (by simp)
    obtain ⟨inside'', same'⟩ := sectionShut inv' inside' permitted taken other
    exact ⟨inv'.step permitted taken, inside'', same'.trans same⟩

end Reserving

section Pushing

/- A producer inside a push while nobody writes: `reserve_pos` is where it will find `write_pos`. -/
structure Waits (p : ι) (s : State abi ι) : Prop where
  inv : Inv s
  quiet : ∀ q, (s.producers q).Quiet
  inside : s.producers p ≠ .idle

/- The accesses left to a CAS that succeeds; a stale load costs one more round. -/
def ProducerPc.toCas (reservePos : Nat) : ProducerPc abi ι → Nat
  | .idle => 0
  | .casReserve _ writePos _ _ _ => if writePos = reservePos then 1 else 4
  | .loadRead _ writePos _ => if writePos = reservePos then 2 else 5
  | .loadWrite _ => 3
  | .writing _ _ => 0

variable {s s' : State abi ι} {p q : ι}

omit [DecidableEq ι] in
theorem quietMeets (inv : Inv s) (quiet : ∀ q, (s.producers q).Quiet) : s.ring.writePos = s.ring.reservePos := by
  rw [inv.writePos, inv.reservePos, inv.allPublished quiet]

theorem setQuietly (quiet : ∀ q, (s.producers q).Quiet) {pc : ProducerPc abi ι} (still : pc.Quiet) (q : ι) :
    ((s.setProducer p pc).producers q).Quiet := by
  unfold State.setProducer
  dsimp only
  by_cases same : q = p
  · subst same
    rwa [Function.update_self]
  · rw [Function.update_of_ne same]
    exact quiet q

theorem quietAccess (inv : Inv s) (quiet : ∀ q, (s.producers q).Quiet) {spurious : Bool} {e : Event ι}
    (taken : step s (.producer p spurious) = some (s', e)) :
    (∃ rc, e = .pushReturned p rc) ∨ Writes p s' ∨
      (∀ q, (s'.producers q).Quiet) ∧ s'.ring = s.ring ∧ s'.producers p ≠ .idle ∧
        (spurious = false → (s'.producers p).toCas s.ring.reservePos < (s.producers p).toCas s.ring.reservePos) := by
  simp only [step, producerStep] at taken
  cases at_ : s.producers p with
  | idle => simp [at_] at taken
  | loadWrite push =>
    simp only [at_] at taken
    cases taken
    refine .inr (.inr ⟨setQuietly quiet trivial, rfl, ?_, fun _ => ?_⟩)
    · simp [State.setProducer]
    · simp [State.setProducer, ProducerPc.toCas, quietMeets inv quiet]
  | loadRead push writePos seen =>
    simp only [at_] at taken
    split at taken
    · cases taken
      exact .inl ⟨_, rfl⟩
    · cases taken
      refine .inr (.inr ⟨setQuietly quiet trivial, rfl, ?_, fun _ => ?_⟩)
      · simp [State.setProducer]
      · simp only [State.setProducer, ProducerPc.toCas, Function.update_self]
        split <;> omega
  | casReserve push writePos plan seen seenReleased =>
    simp only [at_] at taken
    split at taken
    · cases taken
      exact .inr (.inl ⟨_, _, Function.update_self ..⟩)
    · rename_i fails
      cases taken
      refine .inr (.inr ⟨setQuietly quiet trivial, rfl, ?_, fun genuine => ?_⟩)
      · simp [State.setProducer]
      · have stale : writePos ≠ s.ring.reservePos := fun meets => fails ⟨meets.symm, genuine⟩
        simp [State.setProducer, ProducerPc.toCas, stale]
  | writing stage r =>
    have := quiet p
    rw [at_] at this
    exact this.elim

theorem waitsKept {a : Action abi ι} {e : Event ι} (waits : Waits p s) (fresh : NoLap s a)
    (genuine : a ≠ .producer p true) (taken : step s a = some (s', e)) :
    ((∃ q rc, e = .pushReturned q rc) ∨ ∃ q, Writes q s') ∨ Waits p s' ∧
      (s'.producers p).toCas s'.ring.reservePos ≤ (s.producers p).toCas s.ring.reservePos ∧
      (a.ofProducer p = true → (s'.producers p).toCas s'.ring.reservePos < (s.producers p).toCas s.ring.reservePos) := by
  obtain ⟨inv, quiet, inside⟩ := waits
  have inv' := inv.step fresh taken
  -- What others do without reserving moves neither `reserve_pos` nor this producer.
  have aside : a.ofProducer p = false → (∀ q, (s'.producers q).Quiet) → s'.ring.reservePos = s.ring.reservePos →
      Waits p s' ∧ (s'.producers p).toCas s'.ring.reservePos ≤ (s.producers p).toCas s.ring.reservePos ∧
        (a.ofProducer p = true →
          (s'.producers p).toCas s'.ring.reservePos < (s.producers p).toCas s.ring.reservePos) := by
    intro other quiet' same
    have kept := stepLeaves inside taken other
    rw [same, kept]
    refine ⟨⟨inv', quiet', by rw [kept]; exact inside⟩, le_rfl, fun own => ?_⟩
    rw [other] at own
    contradiction
  have unreserved : s'.reserved = s.reserved → s'.ring.reservePos = s.ring.reservePos := by
    intro same
    rw [inv'.reservePos, inv.reservePos, same]
  cases a with
  | push q parts =>
    simp only [step, pushStep] at taken
    split at taken
    · split at taken
      · cases taken
        exact .inl (.inl ⟨q, _, rfl⟩)
      · cases taken
        exact .inr (aside rfl (setQuietly quiet trivial) rfl)
    · contradiction
  | producer q spurious =>
    rcases quietAccess inv quiet taken with ⟨rc, returned⟩ | writes | ⟨quiet', ring, inside', less⟩
    · exact .inl (.inl ⟨q, rc, returned⟩)
    · exact .inl (.inr ⟨q, writes⟩)
    · by_cases own : q = p
      · subst own
        have less := less (by rcases spurious with _ | _; rfl; exact absurd rfl genuine)
        rw [← congrArg Ring.reservePos ring] at less
        rw [congrArg Ring.reservePos ring] at less ⊢
        exact .inr ⟨⟨inv', quiet', inside'⟩, less.le, fun _ => less⟩
      · exact .inr (aside (decide_eq_false own) quiet' (congrArg Ring.reservePos ring))
  | acquire =>
    simp only [step, acquireStep] at taken
    split_ifs at taken <;> cases taken <;> exact .inr (aside rfl quiet rfl)
  | release =>
    simp only [step, releaseStep] at taken
    split at taken
    · contradiction
    · split at taken
      · contradiction
      · split at taken <;> cases taken <;> exact .inr (aside rfl quiet rfl)
  | consumer =>
    have same := (consumerStepEffect taken).1
    exact .inr (aside rfl (by rw [same.producers]; exact quiet) (unreserved same.reserved))

theorem insideKept {a : Action abi ι} {e : Event ι} (inside : s.producers p ≠ .idle) (taken : step s a = some (s', e)) :
    (∃ q rc, e = .pushReturned q rc) ∨ s'.producers p ≠ .idle := by
  cases own : a.ofProducer p with
  | false =>
    rw [stepLeaves inside taken own]
    exact .inr inside
  | true =>
    obtain ⟨spurious, rfl⟩ := ofProducerIs own
    have going : ∀ (t : State abi ι) pc, pc ≠ ProducerPc.idle → (t.setProducer p pc).producers p ≠ .idle := by
      intro t pc busy
      simpa [State.setProducer] using busy
    by_cases writes : Writes p s
    · rcases writingNearer writes taken with returned | ⟨⟨stage, r, at_⟩, -⟩
      · exact .inl ⟨p, _, returned⟩
      · exact .inr (by simp [at_])
    · simp only [step, producerStep] at taken
      split at taken
      · contradiction
      · cases taken
        exact .inr (going s _ (by simp))
      · split at taken <;> cases taken
        · exact .inl ⟨p, _, rfl⟩
        · exact .inr (going s _ (by simp))
      · split at taken <;> cases taken
        · exact .inr (going _ _ (by simp))
        · exact .inr (going s _ (by simp))
      · exact absurd ⟨_, _, ‹_›⟩ writes

variable {states : Nat → State abi ι} {labels : Nat → Action abi ι} {events : Nat → Event ι}

def Fair (states : Nat → State abi ι) (labels : Nat → Action abi ι) : Prop :=
  ∀ p n, (states n).producers p ≠ .idle → ∃ m ≥ n, (labels m).ofProducer p = true

theorem writerReturns (endless : Endless step NoLap states labels events) (fair : Fair states labels) {n : Nat}
    (writes : Writes p (states n)) : ∃ m ≥ n, ∃ q rc, events m = .pushReturned q rc := by
  have turns : ∀ m ≥ 0, Writes p (states m) → ∃ k ≥ m, (labels k).ofProducer p = true := by
    intro m _ writes
    obtain ⟨stage, r, at_⟩ := writes
    exact fair p m (by simp [at_])
  obtain ⟨m, later, returned⟩ := getsThere (Writes p) (fun s => (s.producers p).remaining)
    (fun a : Action abi ι => a.ofProducer p = true) (fun m => events m = .pushReturned p .ok)
    (fun m _ writes => writingKept writes (endless.taken m)) turns (Nat.zero_le n) writes
  exact ⟨m, later, p, _, returned⟩

/- Some push returns: either somebody is writing, or the next CAS finds `reserve_pos` where it looks for it. -/
theorem pushesGoOn (first : Inv (states 0)) (endless : Endless step NoLap states labels events)
    (fair : Fair states labels) {since : Nat} (genuine : ∀ m ≥ since, labels m ≠ .producer p true) {n : Nat}
    (inside : (states n).producers p ≠ .idle) : ∃ m ≥ n, ∃ q rc, events m = .pushReturned q rc := by
  have inv := endless.invariant (I := Inv) (fun _ _ _ _ inv fresh taken => inv.step fresh taken) first
  rcases staysOnWay (fun s : State abi ι => s.producers p ≠ .idle) (fun _ => 0)
    (fun m => ∃ q rc, events m = .pushReturned q rc)
    (fun m _ inside => (insideKept inside (endless.taken m)).imp_right fun inside => ⟨inside, le_rfl⟩)
    (Nat.zero_le n) inside since with returned | ⟨inside, -⟩
  · exact returned
  · have late : since ≤ n + since := Nat.le_add_left ..
    by_cases quiet : ∀ q, ((states (n + since)).producers q).Quiet
    · obtain ⟨m, later, here⟩ := getsThere (Waits p) (fun s => (s.producers p).toCas s.ring.reservePos)
        (fun a : Action abi ι => a.ofProducer p = true)
        (fun m => (∃ q rc, events m = .pushReturned q rc) ∨ ∃ q, Writes q (states (m + 1)))
        (fun m late waits => waitsKept waits (endless.permitted m) (genuine m late) (endless.taken m))
        (fun m _ waits => fair p m waits.inside) late ⟨inv _, quiet, inside⟩
      rcases here with returned | ⟨q, writes⟩
      · exact ⟨m, by omega, returned⟩
      · obtain ⟨k, after, returned⟩ := writerReturns endless fair writes
        exact ⟨k, by omega, returned⟩
    · obtain ⟨q, busy⟩ := not_forall.mp quiet
      have writes : Writes q (states (n + since)) := by
        cases at_ : (states (n + since)).producers q with
        | writing stage r => exact ⟨stage, r, at_⟩
        | _ =>
          rw [at_] at busy
          exact absurd trivial busy
      obtain ⟨k, after, returned⟩ := writerReturns endless fair writes
      exact ⟨k, by omega, returned⟩

end Pushing

section Consuming

variable {s s' : State abi ι}

def State.onRecord (s : State abi ι) : Bool := s.window.head?.any fun r => s.released = r.recordAt

/- The accesses left to the consumer inside a call, one fake record to be skipped included. -/
def ConsumerPc.remaining (onRecord : Bool) : ConsumerPc → Nat
  | .idle => 0
  | .acquireLoadRead => if onRecord then 3 else 8
  | .acquireLoadWrite _ => if onRecord then 2 else 7
  | .acquireLoadMeta _ _ => if onRecord then 1 else 6
  | .acquireClearFake _ _ _ => 5
  | .acquireStoreRead _ _ => 4
  | .releaseLoadRead _ => 5
  | .releaseLoadWrite _ _ => 4
  | .releaseLoadMeta _ _ _ => 3
  | .releaseClear _ _ _ => 2
  | .releaseStoreRead _ _ => 1

omit [DecidableEq ι] in
theorem remainingFalls (pc : ConsumerPc) {before after : Bool} (onward : before = true → after = true) :
    pc.remaining after ≤ pc.remaining before := by
  cases before
  · cases after <;> cases pc <;> simp [ConsumerPc.remaining]
  · rw [onward rfl]

omit [DecidableEq ι] in
theorem remainingPositive {pc : ConsumerPc} (busy : pc ≠ .idle) (onRecord : Bool) :
    0 < pc.remaining onRecord ∧ pc.remaining onRecord ≤ 8 := by
  cases onRecord <;> cases pc <;> simp [ConsumerPc.remaining] at busy ⊢

theorem logGrows {p : ι} {spurious : Bool} {e : Event ι} (taken : step s (.producer p spurious) = some (s', e)) :
    s.log <+: s'.log := by
  simp only [step, producerStep] at taken
  split at taken
  · contradiction
  · cases taken
    exact List.prefix_rfl
  · split at taken <;> cases taken <;> exact List.prefix_rfl
  · split at taken <;> cases taken
    · exact List.prefix_append _ _
    · exact List.prefix_rfl
  · rename_i stage r pc
    have state : (writeStep s p r stage).1 = s' := congrArg Prod.fst (Option.some.inj taken)
    rw [← state, (writeStepCounts s p r stage).1]

omit [DecidableEq ι] in
theorem onRecordKept (inv : Inv s) (log : s.log <+: s'.log) (returned : s'.returned = s.returned)
    (released : s'.released = s.released) (onRecord : s.onRecord = true) : s'.onRecord = true := by
  obtain ⟨more, grown⟩ := log
  unfold State.onRecord State.window at *
  obtain ⟨r, head, place⟩ := (Option.any_eq_true _ _).mp onRecord
  rw [← grown, returned, released, List.drop_append_of_le_length inv.counted]
  refine (Option.any_eq_true _ _).mpr ⟨r, ?_, place⟩
  rw [List.head?_append, head]
  rfl

/- The access ended the consumer's call, or the consumer has fewer accesses left. -/
def Nearer (s s' : State abi ι) (e : Event ι) : Prop :=
  (∃ rc, e.consumerResult = some rc) ∨
    s'.consumer ≠ .idle ∧ s'.consumer.remaining s'.onRecord < s.consumer.remaining s.onRecord

omit [DecidableEq ι] in
theorem acquireWriteNearer {readPos : Nat} {e : Event ι} (at_ : s.consumer = .acquireLoadWrite readPos)
    (taken : consumerStep s = some (s', e)) : Nearer s s' e := by
  simp only [consumerStep, at_] at taken
  split at taken
  · cases taken
    exact .inl ⟨_, rfl⟩
  · split at taken <;> cases taken
    · exact .inl ⟨_, rfl⟩
    · refine .inr ⟨by simp, ?_⟩
      change ConsumerPc.remaining s.onRecord _ < _
      rw [at_]
      cases s.onRecord <;> simp [ConsumerPc.remaining]

omit [DecidableEq ι] in
/- On the record the load of the header answers, before it the fake record is cleared. -/
theorem acquireMetaNearer (inv : Inv s) {readPos used : Nat} {e : Event ι} (at_ : s.consumer = .acquireLoadMeta readPos used)
    (taken : consumerStep s = some (s', e)) : Nearer s s' e := by
  have consumer := inv.consumer
  unfold ConsumerHolds at consumer
  rw [at_] at consumer
  obtain ⟨-, -, r, rest, window, -⟩ := consumer
  obtain ⟨fake, pending, committed⟩ := inv.acquireMetaSpec at_ window
  simp only [consumerStep, at_] at taken
  have state := Option.some.inj taken
  by_cases place : s.released = r.recordAt
  · by_cases done : s.progress r = r.committed
    · rw [committed place done] at state
      cases state
      exact .inl ⟨_, rfl⟩
    · rw [pending place done] at state
      cases state
      exact .inl ⟨_, rfl⟩
  · have off : s.onRecord = false := by
      simp [State.onRecord, window, place]
    rw [fake place] at state
    cases state
    exact .inr ⟨by simp, by simp [ConsumerPc.remaining, at_, off]⟩

omit [DecidableEq ι] in
theorem acquireStoreNearer (inv : Inv s) {readPos stride : Nat} {e : Event ι} (at_ : s.consumer = .acquireStoreRead readPos stride)
    (taken : consumerStep s = some (s', e)) : Nearer s s' e := by
  have consumer := inv.consumer
  unfold ConsumerHolds at consumer
  rw [at_] at consumer
  obtain ⟨-, -, r, rest, window, place, -, same, -⟩ := consumer
  simp only [consumerStep, at_] at taken
  cases taken
  -- Behind the fake record stands the record it made room for.
  have on : s.released + stride = r.recordAt := by
    rw [place, same]
    rfl
  have onRecord : ({ s with
      ring := { s.ring with readPos := abi.wrap (readPos + stride) }
      consumer := .acquireLoadRead
      released := s.released + stride } : State abi ι).onRecord = true := by
    unfold State.onRecord
    change (s.window.head?.any fun r => decide (s.released + stride = r.recordAt)) = true
    simp [window, on]
  refine .inr ⟨by simp, ?_⟩
  rw [onRecord, at_]
  simp [ConsumerPc.remaining]

omit [DecidableEq ι] in
theorem releaseWriteNearer {record readPos : Nat} {e : Event ι} (at_ : s.consumer = .releaseLoadWrite record readPos)
    (taken : consumerStep s = some (s', e)) : Nearer s s' e := by
  simp only [consumerStep, at_] at taken
  split at taken
  · cases taken
    exact .inl ⟨_, rfl⟩
  · split at taken
    · cases taken
      exact .inl ⟨_, rfl⟩
    · split at taken <;> cases taken
      · exact .inl ⟨_, rfl⟩
      · exact .inr ⟨by simp, by simp [ConsumerPc.remaining, at_]⟩

omit [DecidableEq ι] in
theorem releaseMetaNearer {header readPos used : Nat} {e : Event ι} (at_ : s.consumer = .releaseLoadMeta header readPos used)
    (taken : consumerStep s = some (s', e)) : Nearer s s' e := by
  simp only [consumerStep, at_] at taken
  have state := Option.some.inj taken
  unfold releaseMetaStep at state
  dsimp only at state
  split at state
  · cases state
    exact .inl ⟨_, rfl⟩
  · split at state
    · cases state
      exact .inl ⟨_, rfl⟩
    · split at state <;> cases state
      · exact .inl ⟨_, rfl⟩
      · exact .inr ⟨by simp, by simp [ConsumerPc.remaining, at_]⟩

omit [DecidableEq ι] in
theorem consumingNearer (inv : Inv s) {e : Event ι} (taken : consumerStep s = some (s', e)) : Nearer s s' e := by
  cases at_ : s.consumer with
  | idle => simp [consumerStep, at_] at taken
  | acquireLoadRead =>
    simp only [consumerStep, at_] at taken
    cases taken
    refine .inr ⟨by simp, ?_⟩
    change ConsumerPc.remaining s.onRecord _ < _
    rw [at_]
    cases s.onRecord <;> simp [ConsumerPc.remaining]
  | acquireLoadWrite readPos => exact acquireWriteNearer at_ taken
  | acquireLoadMeta readPos used => exact acquireMetaNearer inv at_ taken
  | acquireStoreRead readPos stride => exact acquireStoreNearer inv at_ taken
  | releaseLoadWrite record readPos => exact releaseWriteNearer at_ taken
  | releaseLoadMeta header readPos used => exact releaseMetaNearer at_ taken
  | releaseStoreRead readPos stride =>
    simp only [consumerStep, at_] at taken
    cases taken
    exact .inl ⟨_, rfl⟩
  | acquireClearFake header readPos stride | releaseLoadRead record | releaseClear header readPos stride =>
    simp only [consumerStep, at_] at taken
    cases taken
    exact .inr ⟨by simp, by simp [ConsumerPc.remaining, at_]⟩

theorem consumingApproach : Approach (step : State abi ι → Action abi ι → _) NoLap
    (fun s => Inv s ∧ s.consumer ≠ .idle) (fun s => s.consumer.remaining s.onRecord) Action.ofConsumer
    (fun e => ∃ rc, e.consumerResult = some rc) := by
  refine ⟨?_⟩
  rintro s a s' e ⟨inv, busy⟩ fresh taken
  have inv' := inv.step fresh taken
  have aside : s.log <+: s'.log → s'.returned = s.returned → s'.released = s.released → s'.consumer = s.consumer →
      a.ofConsumer = false → (∃ rc, e.consumerResult = some rc) ∨ (Inv s' ∧ s'.consumer ≠ .idle) ∧
        s'.consumer.remaining s'.onRecord ≤ s.consumer.remaining s.onRecord ∧
        (a.ofConsumer = true → s'.consumer.remaining s'.onRecord < s.consumer.remaining s.onRecord) := by
    intro log returned released same other
    rw [same, other]
    exact .inr ⟨⟨inv', busy⟩, remainingFalls _ (onRecordKept inv log returned released),
      fun own => by cases own⟩
  cases a with
  | push p parts =>
    simp only [step, pushStep] at taken
    split at taken
    · split at taken <;> cases taken <;> exact aside List.prefix_rfl rfl rfl rfl rfl
    · contradiction
  | producer p spurious =>
    have same := producerStepElsewhere taken
    exact aside (logGrows taken) same.returned same.released same.consumer rfl
  | acquire =>
    simp only [step, acquireStep, if_pos busy] at taken
    contradiction
  | release =>
    simp only [step, releaseStep, if_pos busy] at taken
    contradiction
  | consumer =>
    rcases consumingNearer inv taken with returned | ⟨busy', less⟩
    · exact .inl returned
    · exact .inr ⟨⟨inv', busy'⟩, less.le, fun _ => less⟩

theorem consumesWithin {visits : List (Visit (State abi ι) (Action abi ι) (Event ι))} (inv : Inv s)
    (busy : s.consumer ≠ .idle) (run : Run step NoLap s visits s') :
    (∃ v ∈ visits, ∃ rc, v.event.consumerResult = some rc) ∨ visits.countP (fun v => v.label.ofConsumer) < 8 := by
  rcases consumingApproach.bounded run ⟨inv, busy⟩ with returned | ⟨⟨-, busy'⟩, count⟩
  · exact .inl returned
  · have left := (remainingPositive busy' s'.onRecord).1
    have most := (remainingPositive busy s.onRecord).2
    exact .inr (by omega)

end Consuming

structure Turns (s : State abi ι) : Prop where
  alone : ∀ p q, InSection p s → InSection q s → p = q
  shut : ∀ p, InSection p s → ∀ visits s', Run step NoLap s visits s' →
    (∀ v ∈ visits, v.label.ofProducer p = false) → s'.log = s.log
  writes : ∀ p stage r, s.producers p = .writing stage r → ∀ visits s', Run step NoLap s visits s' →
    (∃ v ∈ visits, v.event = .pushReturned p .ok) ∨
      visits.countP (fun v => v.label.ofProducer p) < r.push.parts.length + 4
  consumes : s.consumer ≠ .idle → ∀ visits s', Run step NoLap s visits s' →
    (∃ v ∈ visits, ∃ rc, v.event.consumerResult = some rc) ∨ visits.countP (fun v => v.label.ofConsumer) < 8
  goesOn : ∀ states labels events, states 0 = s → Endless step NoLap states labels events → Fair states labels →
    ∀ p, (∃ since, ∀ m ≥ since, labels m ≠ .producer p true) → ∀ n, (states n).producers p ≠ .idle →
      ∃ m ≥ n, ∃ q rc, events m = .pushReturned q rc

/- From its CAS to its store of `write_pos` a producer is alone and nobody else reserves, whatever the others do; it then
needs none of them to finish, nor does the consumer in any call. And while the producers that are inside a push keep
taking steps, and the weak CAS does not fail without cause for ever, some push always returns. -/
theorem ringTurns {s : State abi ι} (reach : ReachableNoLap s) : Turns s where
  alone := fun _ _ mine theirs => sectionAlone (reachableInv reach) mine theirs
  shut := fun _ inside _ _ run still => (sectionShutRun (reachableInv reach) inside run still).2.2
  writes := fun _ _ _ at_ _ _ run => writesWithin (reachableInv reach) at_ run
  consumes := fun busy _ _ run => consumesWithin (reachableInv reach) busy run
  goesOn := fun _ _ _ same endless fair _ genuine _ inside => by
    obtain ⟨since, genuine⟩ := genuine
    exact pushesGoOn (same ▸ reachableInv reach) endless fair genuine inside

def againAction (record : Part .lp64) (s : State .lp64 Unit) : Action .lp64 Unit :=
  match s.producers () with
  | .idle => .push () (some [record])
  | _ => .producer () false

def againStates (record : Part .lp64) (s : State .lp64 Unit) : Nat → State .lp64 Unit
  | 0 => s
  | n + 1 =>
      let t := againStates record s n
      ((step t (againAction record t)).getD (t, .access)).1

theorem againTaken (record : Part .lp64) (s : State .lp64 Unit) :
    ∃ s' e, step s (againAction record s) = some (s', e) := by
  unfold againAction
  cases at_ : s.producers () with
  | idle =>
    simp only [step, pushStep, at_]
    split <;> exact ⟨_, _, rfl⟩
  | loadWrite push => exact ⟨_, _, by simp only [step, producerStep, at_]; rfl⟩
  | loadRead push writePos seen =>
    simp only [step, producerStep, at_]
    split <;> exact ⟨_, _, rfl⟩
  | casReserve push writePos plan seen seenReleased =>
    simp only [step, producerStep, at_]
    split <;> exact ⟨_, _, rfl⟩
  | writing stage r => exact ⟨_, _, by simp only [step, producerStep, at_]; rfl⟩

theorem againAlone (record : Part .lp64) {s s' : State .lp64 Unit} {e : Event Unit} (alone : Alone () s)
    (taken : step s (againAction record s) = some (s', e)) : NoLap s (againAction record s) ∧ Alone () s' := by
  unfold againAction at taken ⊢
  split at taken
  · refine ⟨trivial, alone.inv.pushStep taken, fun q other => absurd rfl other, ?_⟩
    simp only [step, pushStep] at taken
    split at taken
    · rename_i at_
      split at taken <;> cases taken
      · rw [at_]
        trivial
      · simp [State.setProducer]
    · contradiction
  · exact aloneStep alone taken

theorem againEndless (record : Part .lp64) {s : State .lp64 Unit} (alone : Alone () s) :
    Endless step NoLap (againStates record s) (fun n => againAction record (againStates record s n))
      (fun n => ((step (againStates record s n) (againAction record (againStates record s n))).getD (s, .access)).2) := by
  have stays : ∀ n, Alone () (againStates record s n) := by
    intro n
    induction n with
    | zero => exact alone
    | succ n ih =>
      obtain ⟨s', e, taken⟩ := againTaken record (againStates record s n)
      have same : againStates record s (n + 1) = s' := by
        simp only [againStates, taken, Option.getD_some]
      rw [same]
      exact (againAlone record ih taken).2
  refine ⟨fun n => ?_, fun n => ?_⟩
  · obtain ⟨s', e, taken⟩ := againTaken record (againStates record s n)
    exact (againAlone record (stays n) taken).1
  · obtain ⟨s', e, taken⟩ := againTaken record (againStates record s n)
    simp only [againStates, taken, Option.getD_some]

theorem againOwn (record : Part .lp64) {s : State .lp64 Unit} (inside : s.producers () ≠ .idle) :
    (againAction record s).ofProducer () = true := by
  unfold againAction
  split
  · exact absurd ‹_› inside
  · rfl

theorem againGenuine (record : Part .lp64) (s : State .lp64 Unit) : againAction record s ≠ .producer () true := by
  unfold againAction
  split <;> simp

def fourBytes : Part .lp64 := .ofBytes [1, 2, 3, 4] (by decide)

/- It is inside its first push after one step, and that push, or a later one, returns. -/
theorem pushesForever : ∃ (states : Nat → State .lp64 Unit) (labels : Nat → Action .lp64 Unit) (events : Nat → Event Unit),
    Endless step NoLap states labels events ∧ (states 1).producers () ≠ .idle ∧
      ∃ m ≥ 1, ∃ q rc, events m = .pushReturned q rc := by
  have made : ((init .lp64 4096 (fun _ => 0) 64).any fun ring =>
      ((againStates fourBytes (State.initial ring) 1).producers ()).toCas 0 = 3) = true := by
    decide +kernel
  obtain ⟨ring, made, entered⟩ := (Option.any_eq_true _ _).mp made
  have starts : ReachableNoLap (State.initial ring : State .lp64 Unit) :=
    .start ⟨4096, fun _ => 0, 64, ring, made, rfl⟩
  have alone : Alone () (State.initial ring : State .lp64 Unit) :=
    ⟨reachableInv starts, fun q other => absurd rfl other, trivial⟩
  have endless := againEndless fourBytes alone
  have inside : (againStates fourBytes (State.initial ring) 1).producers () ≠ .idle := by
    intro idle
    rw [idle] at entered
    exact absurd entered (by decide)
  have first : againStates fourBytes (State.initial ring) 0 = State.initial ring := rfl
  exact ⟨_, _, _, endless, inside, (ringTurns starts).goesOn _ _ _ first endless
    (fun p n busy => ⟨n, le_rfl, againOwn fourBytes busy⟩) () ⟨0, fun m _ => againGenuine fourBytes _⟩ 1 inside⟩

end Nanosig.MpscRecordRing
