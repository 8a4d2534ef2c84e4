import Nanosig.MpscRecordRing.Consumer

/-! Calls that no other thread interrupts: a whole `try_pushv`, `try_acquire` or
`release`, run by repeating the accesses of one thread until it returns. -/
namespace Nanosig.MpscRecordRing
open ByteStore Segments TransitionSystem

variable {abi : Abi} {ι : Type} [DecidableEq ι]

def Event.pushResult : Event ι → Option Status
  | .pushReturned _ rc => some rc
  | _ => none

def Event.consumerResult : Event ι → Option Status
  | .acquireReturned rc => some rc
  | .releaseReturned rc => some rc
  | _ => none

def pushFuel (parts : Nat) : Nat := parts + 8

def finishPush (p : ι) (fuel : Nat) (s : State abi ι) : Option (State abi ι × Status) :=
  untilReturn step (.producer p false) Event.pushResult fuel s

def consumerFuel : Nat := 8

def finishConsumer (fuel : Nat) (s : State abi ι) : Option (State abi ι × Status) :=
  untilReturn step .consumer Event.consumerResult fuel s

def pushCall (s : State abi ι) (p : ι) (parts : Option (List (Part abi))) : Option (State abi ι × Status) :=
  (pushStep s p parts).bind fun moved =>
    match moved.2.pushResult with
    | some rc => some (moved.1, rc)
    | none => finishPush p (pushFuel ((parts.getD []).length + 1)) moved.1

def acquireCall (s : State abi ι) : Option (State abi ι × Status) :=
  (acquireStep s).bind fun moved =>
    match moved.2.consumerResult with
    | some rc => some (moved.1, rc)
    | none => finishConsumer consumerFuel moved.1

def releaseCall (s : State abi ι) : Option (State abi ι × Status) :=
  (releaseStep s).bind fun moved =>
    match moved.2.consumerResult with
    | some rc => some (moved.1, rc)
    | none => finishConsumer consumerFuel moved.1

structure ElsewhereSame (p : ι) (s s' : State abi ι) : Prop where
  producers : ∀ q, q ≠ p → s'.producers q = s.producers q
  consumer : s'.consumer = s.consumer
  held : s'.held = s.held
  returned : s'.returned = s.returned
  released : s'.released = s.released
  storage : s'.ring.storage = s.ring.storage
  capacity : s'.ring.capacity = s.ring.capacity
  readPos : s'.ring.readPos = s.ring.readPos

namespace ElsewhereSame

variable {p : ι}

omit [DecidableEq ι] in
theorem trans {s s' s'' : State abi ι} (first : ElsewhereSame p s s') (second : ElsewhereSame p s' s'') :
    ElsewhereSame p s s'' where
  producers q other := (second.producers q other).trans (first.producers q other)
  consumer := second.consumer.trans first.consumer
  held := second.held.trans first.held
  returned := second.returned.trans first.returned
  released := second.released.trans first.released
  storage := second.storage.trans first.storage
  capacity := second.capacity.trans first.capacity
  readPos := second.readPos.trans first.readPos

end ElsewhereSame

theorem writeStepElsewhere (s : State abi ι) (p : ι) (r : Reservation abi ι) (stage : WriteStage abi) :
    ElsewhereSame p s (writeStep s p r stage).1 := by
  unfold writeStep
  split
  case h_4 =>
    dsimp only
    split <;> exact ⟨fun q other => Function.update_of_ne other _ _, rfl, rfl, rfl, rfl, rfl, rfl, rfl⟩
  all_goals exact ⟨fun q other => Function.update_of_ne other _ _, rfl, rfl, rfl, rfl, rfl, rfl, rfl⟩

theorem writeStepPc (s : State abi ι) (p : ι) (r : Reservation abi ι) (stage : WriteStage abi) :
    (∃ stage', (writeStep s p r stage).1.producers p = .writing stage' r) ∨
      (writeStep s p r stage).1.producers p = .idle := by
  unfold writeStep
  split
  case h_5 => exact Or.inr (Function.update_self ..)
  all_goals exact Or.inl ⟨_, Function.update_self ..⟩

theorem producerStepElsewhere {s s' : State abi ι} {p : ι} {spurious : Bool} {e : Event ι}
    (taken : producerStep s p spurious = some (s', e)) : ElsewhereSame p s s' := by
  unfold producerStep at taken
  split at taken
  · contradiction
  · cases Option.some.inj taken
    exact ⟨fun q other => Function.update_of_ne other _ _, rfl, rfl, rfl, rfl, rfl, rfl, rfl⟩
  · split at taken
    · cases Option.some.inj taken
      exact ⟨fun q other => Function.update_of_ne other _ _, rfl, rfl, rfl, rfl, rfl, rfl, rfl⟩
    · cases Option.some.inj taken
      exact ⟨fun q other => Function.update_of_ne other _ _, rfl, rfl, rfl, rfl, rfl, rfl, rfl⟩
  · split at taken
    · cases Option.some.inj taken
      exact ⟨fun q other => Function.update_of_ne other _ _, rfl, rfl, rfl, rfl, rfl, rfl, rfl⟩
    · cases Option.some.inj taken
      exact ⟨fun q other => Function.update_of_ne other _ _, rfl, rfl, rfl, rfl, rfl, rfl, rfl⟩
  · rename_i stage r at_
    have state := congrArg Prod.fst (Option.some.inj taken)
    dsimp only at state
    rw [← state]
    exact writeStepElsewhere s p r stage

theorem finishPushElsewhere {s s' : State abi ι} {p : ι} {fuel : Nat} {rc : Status}
    (ok : finishPush p fuel s = some (s', rc)) : ElsewhereSame p s s' :=
  untilReturnKeeps (R := ElsewhereSame p) (fun _ _ _ first second => first.trans second)
    (fun s s' e (taken : step s (.producer p false) = some (s', e)) => producerStepElsewhere taken) ok

def WriteStage.remaining (r : Reservation abi ι) : WriteStage abi → Nat
  | .storeFake => r.push.parts.length + 4
  | .markUncommitted => r.push.parts.length + 3
  | .publish => r.push.parts.length + 2
  | .copy _ rest => rest.length + 1

theorem writeStepCounts (s : State abi ι) (p : ι) (r : Reservation abi ι) (stage : WriteStage abi) :
    (writeStep s p r stage).1.log = s.log ∧ (writeStep s p r stage).1.reserved = s.reserved := by
  cases stage with
  | storeFake => exact ⟨rfl, rfl⟩
  | markUncommitted => exact ⟨rfl, rfl⟩
  | publish => exact ⟨rfl, rfl⟩
  | copy written rest => cases rest <;> exact ⟨rfl, rfl⟩

/- A producer that holds a reservation and is not interrupted returns `NS_OK`, and what each of
its accesses keeps is kept. -/
theorem writingKeeps {P : State abi ι → Prop} {s : State abi ι} {p : ι} {stage : WriteStage abi} {r : Reservation abi ι} {fuel : Nat}
    (keeps : ∀ s stage, s.producers p = .writing stage r → P s → P (writeStep s p r stage).1)
    (holds : P s) (at_ : s.producers p = .writing stage r) (enough : stage.remaining r ≤ fuel) :
    ∃ s', finishPush p fuel s = some (s', .ok) ∧ P s' ∧ s'.producers p = .idle := by
  induction fuel generalizing s stage with
  | zero => cases stage <;> simp [WriteStage.remaining] at enough
  | succ fuel ih =>
    have next := keeps s stage at_ holds
    have taken : step s (.producer p false) = some (writeStep s p r stage) := by
      simp only [step, producerStep, at_]
    -- Every stage but the last only moves the program counter to the next stage.
    have onward : ∀ stage', (writeStep s p r stage).1.producers p = .writing stage' r →
        (writeStep s p r stage).2 = .access → stage'.remaining r ≤ fuel →
        ∃ s', finishPush p (fuel + 1) s = some (s', .ok) ∧ P s' ∧ s'.producers p = .idle := by
      intro stage' pc silent less
      obtain ⟨s', ok, kept, idle⟩ := ih next pc less
      have quiet : (writeStep s p r stage).2.pushResult = none := by
        rw [silent]
        rfl
      exact ⟨s', (untilReturnNext taken quiet fuel).trans ok, kept, idle⟩
    cases stage with
    | storeFake =>
      exact onward .markUncommitted (Function.update_self ..) rfl (by simp only [WriteStage.remaining] at *; omega)
    | markUncommitted =>
      exact onward .publish (Function.update_self ..) rfl (by simp only [WriteStage.remaining] at *; omega)
    | publish =>
      exact onward (.copy 0 r.push.parts) (Function.update_self ..) rfl (by simp only [WriteStage.remaining] at *; omega)
    | copy written rest =>
      cases rest with
      | cons part rest =>
        refine onward (.copy (written + part.size) rest) (Function.update_self ..) rfl ?_
        simp only [WriteStage.remaining, List.length_cons] at *
        omega
      | nil =>
        have returns : (writeStep s p r (.copy written [])).2.pushResult = some .ok := rfl
        exact ⟨_, untilReturnLast taken returns fuel, next, Function.update_self ..⟩

theorem finishWriting {s : State abi ι} {p : ι} {stage : WriteStage abi} {r : Reservation abi ι} {fuel : Nat}
    (inv : Inv s) (at_ : s.producers p = .writing stage r) (enough : stage.remaining r ≤ fuel) :
    ∃ s', finishPush p fuel s = some (s', .ok) ∧ Inv s' ∧ s'.producers p = .idle ∧
      s'.log = s.log ∧ s'.reserved = s.reserved := by
  have keeps (t : State abi ι) (stage : WriteStage abi) (at_ : t.producers p = .writing stage r)
      (holds : Inv t ∧ t.log = s.log ∧ t.reserved = s.reserved) : Inv (writeStep t p r stage).1 ∧
        (writeStep t p r stage).1.log = s.log ∧ (writeStep t p r stage).1.reserved = s.reserved := by
    obtain ⟨inv, log, reserved⟩ := holds
    obtain ⟨sameLog, sameReserved⟩ := writeStepCounts t p r stage
    exact ⟨inv.writeStep at_, sameLog.trans log, sameReserved.trans reserved⟩
  obtain ⟨s', ok, ⟨inv', log, reserved⟩, idle⟩ := writingKeeps keeps ⟨inv, rfl, rfl⟩ at_ enough
  exact ⟨s', ok, inv', idle, log, reserved⟩

def needed (abi : Abi) (capacity writeAt recordSize : Nat) : Nat :=
  tailPadding capacity writeAt (recordTotal abi recordSize) + recordTotal abi recordSize

inductive PushEnds (s s' : State abi ι) (push : Push abi) : Status → Prop where
  | queueFull (full : s.released + s.ring.capacity <
      s.published + needed abi s.ring.capacity s.published push.recordSize)
      (log : s'.log = s.log) (reserved : s'.reserved = s.reserved) : PushEnds s s' push .queueFull
  | ok (fits : s.published + needed abi s.ring.capacity s.published push.recordSize ≤
      s.released + s.ring.capacity) (r : Reservation abi ι) (pushed : r.push = push)
      (log : s'.log = s.log ++ [r])
      (reserved : s'.reserved = s.published + needed abi s.ring.capacity s.published push.recordSize) :
      PushEnds s s' push .ok

/- The loads of `write_pos` and `read_pos` up to the plan. -/
theorem loadsUninterrupted {s : State abi ι} {p : ι} {push : Push abi} (at_ : s.producers p = .loadWrite push) (fuel : Nat) :
    ∃ s₁, s₁.producers p = .loadRead push s.ring.writePos s.published ∧ s₁.ring = s.ring ∧ s₁.log = s.log ∧
      s₁.reserved = s.reserved ∧ s₁.released = s.released ∧ (Inv s → Inv s₁) ∧
      finishPush p (fuel + 1) s = finishPush p fuel s₁ := by
  have loadWrite : step s (.producer p false) =
      some (s.setProducer p (.loadRead push s.ring.writePos s.published), .access) := by
    simp only [step, producerStep, at_]
  refine ⟨s.setProducer p (.loadRead push s.ring.writePos s.published), Function.update_self .., rfl, rfl, rfl, rfl,
    fun inv => inv.producerStep (by simp only [NoLap, at_]) loadWrite, ?_⟩
  unfold finishPush
  rw [untilReturnNext loadWrite rfl]

/- With a plan and `reserve_pos` still at `write_pos`, the CAS succeeds. -/
theorem reserveUninterrupted {s : State abi ι} {p : ι} {push : Push abi} {plan : PushPlan} (at_ : s.producers p = .loadWrite push)
    (reserve : s.ring.reservePos = s.ring.writePos)
    (planned : planPush abi s.ring push.recordSize s.ring.writePos s.ring.readPos = some plan) (fuel : Nat) :
    ∃ s₂, s₂.producers p = .casReserve push s.ring.writePos plan s.published s.released ∧ s₂.ring = s.ring ∧ s₂.log = s.log ∧
      s₂.reserved = s.reserved ∧ (Inv s → Inv s₂) ∧
      finishPush p (fuel + 3) s = finishPush p fuel (s₂.reserve p push s.ring.writePos plan) := by
  obtain ⟨s₁, at₁, ring₁, log₁, reserved₁, released₁, inv₁, onward⟩ := loadsUninterrupted at_ (fuel + 2)
  have loadRead : step s₁ (.producer p false) =
      some (s₁.setProducer p (.casReserve push s.ring.writePos plan s.published s.released), .access) := by
    simp only [step, producerStep, at₁, ring₁, planned, released₁]
  generalize made : s₁.setProducer p (.casReserve push s.ring.writePos plan s.published s.released) = s₂ at loadRead
  have at₂ : s₂.producers p = .casReserve push s.ring.writePos plan s.published s.released := by
    rw [← made]
    exact Function.update_self ..
  have same : s₂.ring = s.ring ∧ s₂.log = s.log ∧ s₂.reserved = s.reserved := by
    rw [← made]
    exact ⟨ring₁, log₁, reserved₁⟩
  have cas : step s₂ (.producer p false) = some (s₂.reserve p push s.ring.writePos plan, .access) := by
    simp only [step, producerStep, at₂, same.1, reserve, and_self, if_true]
  refine ⟨s₂, at₂, same.1, same.2.1, same.2.2,
    fun inv => (inv₁ inv).producerStep (by simp only [NoLap, at₁]) loadRead, ?_⟩
  rw [onward]
  unfold finishPush
  rw [untilReturnNext loadRead rfl, untilReturnNext cas rfl]

/- A producer that has loaded `write_pos` and is not interrupted from there on. -/
theorem finishFromLoadWrite {s : State abi ι} {p : ι} {push : Push abi} {fuel : Nat} (inv : Inv s)
    (quiet : ∀ q, (s.producers q).Quiet) (at_ : s.producers p = .loadWrite push)
    (enough : push.parts.length + 7 ≤ fuel) :
    ∃ s' rc, finishPush p fuel s = some (s', rc) ∧ Inv s' ∧ s'.producers p = .idle ∧ PushEnds s s' push rc := by
  obtain ⟨more, rfl⟩ : ∃ more, fuel = more + 3 := ⟨fuel - 3, by omega⟩
  have published := inv.allPublished quiet
  have order := inv.readWrite
  have room := inv.room
  have g := inv.geometry
  have valid : push.Valid s.ring.capacity := by
    have holds := inv.producers p
    rw [at_] at holds
    exact holds
  have spec := planPushSpec g valid.fits order (by omega : s.published ≤ s.released + s.ring.capacity)
  rw [← inv.writePos, ← inv.readPos] at spec
  cases planned : planPush abi s.ring push.recordSize s.ring.writePos s.ring.readPos with
  | none =>
    rw [planned] at spec
    obtain ⟨s₁, at₁, ring₁, log₁, reserved₁, -, inv₁, onward⟩ := loadsUninterrupted at_ (more + 2)
    have loadRead : step s₁ (.producer p false) = some (s₁.setProducer p .idle, .pushReturned p .queueFull) := by
      simp only [step, producerStep, at₁, ring₁, planned]
    have returns : Event.pushResult (.pushReturned p .queueFull) = some Status.queueFull := rfl
    rw [onward]
    exact ⟨_, _, untilReturnLast loadRead returns _, (inv₁ inv).producerStep (by simp only [NoLap, at₁]) loadRead,
      Function.update_self .., .queueFull spec log₁ reserved₁⟩
  | some plan =>
    rw [planned] at spec
    obtain ⟨fits, inside⟩ := spec
    have size : plan.publishSize = needed abi s.ring.capacity s.published push.recordSize := by
      unfold needed
      rw [fits.publish, fits.fake, fits.total]
    have agree : s.ring.reservePos = s.ring.writePos := by
      rw [inv.reservePos, inv.writePos, published]
    obtain ⟨s₂, at₂, ring₂, log₂, reserved₂, inv₂, onward⟩ := reserveUninterrupted at_ agree planned more
    have lap := abi.modulusPos
    have reserve := (inv₂ inv).casReserve at₂ (by rw [ring₂, agree]) (by omega)
    rw [onward]
    obtain ⟨s', ok, inv', idle, log, reserved⟩ := finishWriting reserve (Function.update_self ..)
      (by split <;> simp only [WriteStage.remaining] <;> omega : WriteStage.remaining _ _ ≤ more)
    exact ⟨s', .ok, ok, inv', idle, .ok (by omega) _ rfl (by rw [log, ← log₂]; rfl)
      (by rw [reserved, ← size, published, ← reserved₂]; rfl)⟩

theorem pushCallSpec {s : State abi ι} {p : ι} (inv : Inv s) (quiet : ∀ q, (s.producers q).Quiet)
    (idle : s.producers p = .idle) (given : Option (List (Part abi))) :
    match tryPushvChecks abi s.ring given with
    | none => pushCall s p given = some (s, .inval)
    | some (parts, recordSize) =>
        ∃ s' rc, pushCall s p given = some (s', rc) ∧ Inv s' ∧ ElsewhereSame p s s' ∧ s'.producers p = .idle ∧
          PushEnds s s' ⟨parts, recordSize⟩ rc := by
  unfold pushCall pushStep
  rw [idle]
  cases checked : tryPushvChecks abi s.ring given with
  | none => rfl
  | some pair =>
    obtain ⟨parts, recordSize⟩ := pair
    have valid := tryPushvChecksValid inv.geometry checked
    have inv₁ : Inv (s.setProducer p (.loadWrite ⟨parts, recordSize⟩)) := inv.setQuiet (quiet p) trivial valid
    have quiet₁ : ∀ q, ((s.setProducer p (.loadWrite ⟨parts, recordSize⟩)).producers q).Quiet := by
      intro q
      unfold State.setProducer
      dsimp only
      by_cases same : q = p
      · rw [same, Function.update_self]
        trivial
      · rw [Function.update_of_ne same]
        exact quiet q
    have length : parts.length ≤ (given.getD []).length + 1 := by
      unfold tryPushvChecks at checked
      cases given with
      | none => contradiction
      | some list =>
        dsimp only at checked
        split at checked <;> try contradiction
        split at checked <;> try contradiction
        split at checked <;> try contradiction
        cases Option.some.inj checked
        simp only [Option.getD_some]
        split <;> simp
    obtain ⟨s', rc, ok, inv', idle', ends⟩ := finishFromLoadWrite inv₁ quiet₁ (Function.update_self ..)
      (by unfold pushFuel; omega : parts.length + 7 ≤ pushFuel ((given.getD []).length + 1))
    have elsewhere : ElsewhereSame p s (s.setProducer p (.loadWrite ⟨parts, recordSize⟩)) :=
      ⟨fun q other => Function.update_of_ne other _ _, rfl, rfl, rfl, rfl, rfl, rfl, rfl⟩
    refine ⟨s', rc, ok, inv', elsewhere.trans (finishPushElsewhere ok), idle', ?_⟩
    cases ends with
    | queueFull full log reserved => exact .queueFull full log reserved
    | ok fits r pushed log reserved => exact .ok fits r pushed log reserved

structure ProducersSame (s s' : State abi ι) : Prop where
  producers : s'.producers = s.producers
  log : s'.log = s.log
  reserved : s'.reserved = s.reserved
  published : s'.published = s.published
  storage : s'.ring.storage = s.ring.storage
  capacity : s'.ring.capacity = s.ring.capacity
  released : s.released ≤ s'.released

omit [DecidableEq ι] in
theorem ProducersSame.trans {s s' s'' : State abi ι} (first : ProducersSame s s') (second : ProducersSame s' s'') :
    ProducersSame s s'' :=
  ⟨second.producers.trans first.producers, second.log.trans first.log, second.reserved.trans first.reserved,
    second.published.trans first.published, second.storage.trans first.storage,
    second.capacity.trans first.capacity, Nat.le_trans first.released second.released⟩

omit [DecidableEq ι] in
theorem acquireMetaEffect (s : State abi ι) (readPos used : Nat) :
    ProducersSame s (acquireMetaStep s readPos used).1 ∧ (acquireMetaStep s readPos used).2.pushResult = none := by
  unfold acquireMetaStep
  dsimp only
  split
  · exact ⟨⟨rfl, rfl, rfl, rfl, rfl, rfl, Nat.le_refl _⟩, rfl⟩
  · split
    · exact ⟨⟨rfl, rfl, rfl, rfl, rfl, rfl, Nat.le_refl _⟩, rfl⟩
    · split
      · exact ⟨⟨rfl, rfl, rfl, rfl, rfl, rfl, Nat.le_refl _⟩, rfl⟩
      · split <;> exact ⟨⟨rfl, rfl, rfl, rfl, rfl, rfl, Nat.le_refl _⟩, rfl⟩

omit [DecidableEq ι] in
theorem releaseMetaEffect (s : State abi ι) (header readPos used : Nat) :
    ProducersSame s (releaseMetaStep s header readPos used).1 ∧
      (releaseMetaStep s header readPos used).2.pushResult = none := by
  unfold releaseMetaStep
  dsimp only
  split
  · exact ⟨⟨rfl, rfl, rfl, rfl, rfl, rfl, Nat.le_refl _⟩, rfl⟩
  · split
    · exact ⟨⟨rfl, rfl, rfl, rfl, rfl, rfl, Nat.le_refl _⟩, rfl⟩
    · split <;> exact ⟨⟨rfl, rfl, rfl, rfl, rfl, rfl, Nat.le_refl _⟩, rfl⟩

omit [DecidableEq ι] in
theorem consumerStepEffect {s s' : State abi ι} {e : Event ι} (taken : consumerStep s = some (s', e)) :
    ProducersSame s s' ∧ e.pushResult = none := by
  unfold consumerStep at taken
  split at taken
  · contradiction
  · cases Option.some.inj taken
    exact ⟨⟨rfl, rfl, rfl, rfl, rfl, rfl, Nat.le_refl _⟩, rfl⟩
  · dsimp only at taken
    split at taken
    · cases Option.some.inj taken
      exact ⟨⟨rfl, rfl, rfl, rfl, rfl, rfl, Nat.le_refl _⟩, rfl⟩
    · split at taken <;> cases Option.some.inj taken <;>
        exact ⟨⟨rfl, rfl, rfl, rfl, rfl, rfl, Nat.le_refl _⟩, rfl⟩
  · rename_i readPos used at_
    have effect := acquireMetaEffect s readPos used
    rw [Option.some.inj taken] at effect
    exact effect
  · cases Option.some.inj taken
    exact ⟨⟨rfl, rfl, rfl, rfl, rfl, rfl, Nat.le_refl _⟩, rfl⟩
  · cases Option.some.inj taken
    exact ⟨⟨rfl, rfl, rfl, rfl, rfl, rfl, Nat.le_add_right _ _⟩, rfl⟩
  · cases Option.some.inj taken
    exact ⟨⟨rfl, rfl, rfl, rfl, rfl, rfl, Nat.le_refl _⟩, rfl⟩
  · dsimp only at taken
    split at taken
    · cases Option.some.inj taken
      exact ⟨⟨rfl, rfl, rfl, rfl, rfl, rfl, Nat.le_refl _⟩, rfl⟩
    · split at taken
      · cases Option.some.inj taken
        exact ⟨⟨rfl, rfl, rfl, rfl, rfl, rfl, Nat.le_refl _⟩, rfl⟩
      · split at taken <;> cases Option.some.inj taken <;>
          exact ⟨⟨rfl, rfl, rfl, rfl, rfl, rfl, Nat.le_refl _⟩, rfl⟩
  · rename_i header readPos used at_
    have effect := releaseMetaEffect s header readPos used
    rw [Option.some.inj taken] at effect
    exact effect
  · cases Option.some.inj taken
    exact ⟨⟨rfl, rfl, rfl, rfl, rfl, rfl, Nat.le_refl _⟩, rfl⟩
  · cases Option.some.inj taken
    exact ⟨⟨rfl, rfl, rfl, rfl, rfl, rfl, Nat.le_add_right _ _⟩, rfl⟩

theorem finishConsumerSame {s s' : State abi ι} {fuel : Nat} {rc : Status}
    (ok : finishConsumer fuel s = some (s', rc)) : ProducersSame s s' :=
  untilReturnKeeps (R := ProducersSame) (fun _ _ _ first second => first.trans second)
    (fun s s' e (taken : step s .consumer = some (s', e)) => (consumerStepEffect taken).1) ok

/- The two loads of `try_acquire` when something is published. -/
theorem acquireLoads {s : State abi ι} (inv : Inv s) (at_ : s.consumer = .acquireLoadRead)
    (some_ : s.released < s.published) (fuel : Nat) :
    finishConsumer (fuel + 2) s =
      finishConsumer fuel { s with consumer := .acquireLoadMeta s.ring.readPos (s.published - s.released) } ∧
      Inv { s with consumer := .acquireLoadMeta s.ring.readPos (s.published - s.released) } := by
  have loadRead : step s .consumer = some ({ s with consumer := .acquireLoadWrite s.ring.readPos }, .access) := by
    simp only [step, consumerStep, at_]
  have inv₁ := (inv.consumerStep loadRead).1
  have small := inv.usedLe
  have used : abi.sub s.ring.writePos s.ring.readPos = s.published - s.released := by
    rw [inv.readPos]
    exact inv.usedExact
  have loadWrite : step { s with consumer := .acquireLoadWrite s.ring.readPos } .consumer =
      some ({ s with consumer := .acquireLoadMeta s.ring.readPos (s.published - s.released) }, .access) := by
    simp only [step, consumerStep, used]
    rw [if_neg (by omega), if_neg (by omega)]
  have inv₂ := (inv₁.consumerStep loadWrite).1
  refine ⟨?_, inv₂⟩
  unfold finishConsumer
  rw [untilReturnNext loadRead rfl, untilReturnNext loadWrite rfl]

theorem acquireSkips {s : State abi ι} (inv : Inv s) {readPos used : Nat}
    (at_ : s.consumer = .acquireLoadMeta readPos used) {r : Reservation abi ι} {rest : List (Reservation abi ι)}
    (window : s.window = r :: rest) (off : s.released ≠ r.recordAt) (fuel : Nat) :
    ∃ s', finishConsumer (fuel + 3) s = finishConsumer fuel s' ∧ Inv s' ∧ s'.consumer = .acquireLoadRead ∧
      s'.released = r.recordAt ∧ s'.log = s.log ∧ s'.returned = s.returned ∧ ProducersSame s s' := by
  obtain ⟨found, _, _⟩ := inv.acquireMetaSpec at_ window
  have loadMeta : step s .consumer = some ({ s with
      consumer := .acquireClearFake (s.released % s.ring.capacity) readPos r.plan.fakeSize }, .access) := by
    simp only [step, consumerStep, at_, found off]
  have inv₁ := (inv.consumerStep loadMeta).1
  have same₁ := (consumerStepEffect loadMeta).1
  generalize made₁ : ({ s with
    consumer := .acquireClearFake (s.released % s.ring.capacity) readPos r.plan.fakeSize } : State abi ι) = s₁
    at loadMeta inv₁ same₁
  have at₁ : s₁.consumer = .acquireClearFake (s.released % s.ring.capacity) readPos r.plan.fakeSize := by
    rw [← made₁]
  have clear : step s₁ .consumer = some ({ s₁ with
      ring := s₁.ring.storeMeta abi (s.released % s.ring.capacity) 0
      consumer := .acquireStoreRead readPos r.plan.fakeSize }, .access) := by
    simp only [step, consumerStep, at₁]
  have inv₂ := (inv₁.consumerStep clear).1
  have same₂ := (consumerStepEffect clear).1
  generalize made₂ : ({ s₁ with
    ring := s₁.ring.storeMeta abi (s.released % s.ring.capacity) 0
    consumer := .acquireStoreRead readPos r.plan.fakeSize } : State abi ι) = s₂ at clear inv₂ same₂
  have at₂ : s₂.consumer = .acquireStoreRead readPos r.plan.fakeSize := by
    rw [← made₂]
  have advance : step s₂ .consumer = some ({ s₂ with
      ring := { s₂.ring with readPos := abi.wrap (readPos + r.plan.fakeSize) }
      consumer := .acquireLoadRead
      released := s₂.released + r.plan.fakeSize }, .access) := by
    simp only [step, consumerStep, at₂]
  have inv₃ := (inv₂.consumerStep advance).1
  have same₃ := (consumerStepEffect advance).1
  have released : s₂.released = s.released ∧ s₂.log = s.log ∧ s₂.returned = s.returned := by
    rw [← made₂, ← made₁]
    exact ⟨rfl, rfl, rfl⟩
  refine ⟨_, ?_, inv₃, rfl, ?_, released.2.1, released.2.2, (same₁.trans same₂).trans same₃⟩
  · unfold finishConsumer
    rw [untilReturnNext loadMeta rfl, untilReturnNext clear rfl, untilReturnNext advance rfl]
  · change s₂.released + r.plan.fakeSize = r.recordAt
    rw [released.1]
    rcases inv.headPlace window with atStart | ⟨_, atRecord⟩
    · unfold Reservation.recordAt
      omega
    · exact absurd atRecord off

theorem acquireAtRecord {s : State abi ι} (inv : Inv s) (at_ : s.consumer = .acquireLoadRead)
    {r : Reservation abi ι} {rest : List (Reservation abi ι)} (window : s.window = r :: rest)
    (published : r.stop ≤ s.published) (place : s.released = r.recordAt) (done : s.progress r = r.committed)
    (fuel : Nat) :
    ∃ s' loan, finishConsumer (fuel + 3) s = some (s', .ok) ∧ Inv s' ∧ s'.consumer = .idle ∧
      s'.held = some loan ∧ loan.bytes = r.payload ∧ s'.returned = s.returned := by
  have v := inv.reservations r (by simp [window])
  have ends := v.recordStop
  have total := v.planned.totalPos
  have word := sizeofSizeTPos abi
  obtain ⟨loads, inv₂⟩ := acquireLoads inv at_ (by omega) (fuel + 1)
  obtain ⟨_, _, found⟩ := inv₂.acquireMetaSpec rfl window
  have loadMeta : step { s with consumer := .acquireLoadMeta s.ring.readPos (s.published - s.released) } .consumer =
      some (_, .acquireReturned .ok) := congrArg some (found place done)
  have inv₃ := (inv₂.consumerStep loadMeta).1
  have returns : Event.consumerResult (.acquireReturned .ok : Event ι) = some .ok := rfl
  exact ⟨_, _, loads.trans (untilReturnLast loadMeta returns fuel), inv₃, rfl, rfl, rfl, rfl⟩

theorem acquireCallSpec {s : State abi ι} (inv : Inv s) (quiet : ∀ q, (s.producers q).Quiet)
    (idle : s.consumer = .idle) :
    ∃ s' rc, acquireCall s = some (s', rc) ∧ Inv s' ∧ ProducersSame s s' ∧ s'.consumer = .idle ∧
      s'.returned = s.returned ∧
      match s.window with
      | [] => rc = .empty ∧ s'.held = none ∧ s'.released = s.released
      | r :: _ => rc = .ok ∧ ∃ loan, s'.held = some loan ∧ loan.bytes = r.payload := by
  have begin_ : acquireStep s = some ({ s with held := none, consumer := .acquireLoadRead }, .access) := by
    simp [acquireStep, idle, inv.valid]
  have inv₁ := (inv.acquireStep begin_).1
  have call : acquireCall s = finishConsumer consumerFuel { s with held := none, consumer := .acquireLoadRead } := by
    simp only [acquireCall, begin_, Option.bind_some]
    rfl
  rw [call]
  have same₁ : ProducersSame s { s with held := none, consumer := .acquireLoadRead } := ⟨rfl, rfl, rfl, rfl, rfl, rfl, Nat.le_refl _⟩
  generalize made : ({ s with held := none, consumer := .acquireLoadRead } : State abi ι) = s₁ at inv₁ same₁
  have at₁ : s₁.consumer = .acquireLoadRead := by rw [← made]
  have returned₁ : s₁.returned = s.returned := by rw [← made]
  have released₁ : s₁.released = s.released := by rw [← made]
  have window₁ : s₁.window = s.window := by rw [← made]; rfl
  have quiet₁ : ∀ q, (s₁.producers q).Quiet := by
    rw [← made]
    exact quiet
  have all := inv₁.allPublished quiet₁
  have committed : ∀ r, s₁.progress r = r.committed := fun r => quietProgress (quiet₁ _) r
  cases window : s.window with
  | nil =>
    have none_ : s₁.published = s₁.released := by
      by_contra some_
      have order := inv₁.readWrite
      obtain ⟨r, rest, front, _⟩ := inv₁.headPublished (by omega)
      rw [window₁, window] at front
      contradiction
    have loadRead : step s₁ .consumer = some ({ s₁ with consumer := .acquireLoadWrite s₁.ring.readPos }, .access) := by
      simp only [step, consumerStep, at₁]
    have inv₂ := (inv₁.consumerStep loadRead).1
    have used : abi.sub s₁.ring.writePos s₁.ring.readPos = 0 := by
      rw [inv₁.readPos, inv₁.usedExact, none_, Nat.sub_self]
    have loadWrite : step { s₁ with consumer := .acquireLoadWrite s₁.ring.readPos } .consumer =
        some ({ s₁ with consumer := .idle }, .acquireReturned .empty) := by
      simp [step, consumerStep, used]
    have inv₃ := (inv₂.consumerStep loadWrite).1
    have returns : Event.consumerResult (.acquireReturned .empty : Event ι) = some .empty := rfl
    have ok : finishConsumer consumerFuel s₁ = some ({ s₁ with consumer := .idle }, .empty) := by
      unfold finishConsumer consumerFuel
      rw [untilReturnNext loadRead rfl]
      exact untilReturnLast loadWrite returns _
    have held : s₁.held = none := by rw [← made]
    exact ⟨_, _, ok, inv₃, same₁.trans (finishConsumerSame ok), rfl, returned₁, rfl, held, released₁⟩
  | cons r rest =>
    have front : s₁.window = r :: rest := window₁.trans window
    have member : r ∈ s₁.window := by simp [front]
    have v := inv₁.reservations r member
    have published : r.stop ≤ s₁.published := by
      rw [all]
      exact inv₁.stopLeReserved member
    have ends := v.recordStop
    have total := v.planned.totalPos
    have word := sizeofSizeTPos abi
    by_cases place : s₁.released = r.recordAt
    · obtain ⟨s', loan, ok, inv', idle', held, bytes, returned⟩ :=
        acquireAtRecord inv₁ at₁ front published place (committed r) 5
      exact ⟨s', .ok, ok, inv', same₁.trans (finishConsumerSame ok), idle', returned.trans returned₁, rfl, loan, held,
        bytes⟩
    · -- The read position stands on the fake record before it; skip that first.
      have below := inv₁.releasedLeRecord member
      obtain ⟨loads, inv₂⟩ := acquireLoads inv₁ at₁ (by omega) 6
      obtain ⟨s₃, skips, inv₃, at₃, place₃, log₃, returned₃, same₃⟩ := acquireSkips inv₂ rfl front place 3
      have front₃ : s₃.window = r :: rest := by
        unfold State.window
        rw [log₃, returned₃]
        exact front
      have done₃ : s₃.progress r = r.committed := by
        unfold State.progress
        rw [same₃.producers]
        exact committed r
      have published₃ : r.stop ≤ s₃.published := by
        rw [same₃.published]
        exact published
      obtain ⟨s', loan, ok, inv', idle', held, bytes, returned⟩ :=
        acquireAtRecord inv₃ at₃ front₃ published₃ place₃ done₃ 0
      have whole : finishConsumer consumerFuel s₁ = some (s', .ok) := loads.trans (skips.trans ok)
      exact ⟨s', .ok, whole, inv', same₁.trans (finishConsumerSame whole), idle',
        returned.trans (returned₃.trans returned₁), rfl, loan, held, bytes⟩

theorem releaseCallSpec {s : State abi ι} (inv : Inv s) (idle : s.consumer = .idle) {loan : Loan}
    (held : s.held = some loan) :
    ∃ s', releaseCall s = some (s', .ok) ∧ Inv s' ∧ ProducersSame s s' ∧ s'.consumer = .idle ∧ s'.held = none ∧
      s'.returned = s.returned ++ [loan.bytes] ∧
      ∀ r rest, s.window = r :: rest → s'.released = r.stop := by
  have lent : Borrowed s loan := by
    have consumer := inv.consumer
    unfold ConsumerHolds at consumer
    rw [idle] at consumer
    exact consumer loan held
  obtain ⟨r, rest, window, place, published, done, record, _, bytes⟩ := id lent
  have member : r ∈ s.window := by simp [window]
  have v := inv.reservations r member
  have g := inv.geometry
  have ends := v.recordStop
  have total := v.planned.totalPos
  have half := v.planned.totalHalf
  have word := sizeofSizeTPos abi
  have small := inv.usedLe
  have nonzero := inv.storageNonzero
  have used : abi.sub s.ring.writePos s.ring.readPos = s.published - s.released := by
    rw [inv.readPos]
    exact inv.usedExact
  have begin_ : releaseStep s = some ({ s with consumer := .releaseLoadRead loan.record }, .access) := by
    simp only [releaseStep, idle, held, inv.valid]
    rw [if_neg (by simp), if_neg (by simp; omega)]
  have inv₁ := (inv.releaseStep begin_).1
  have loadRead : step { s with consumer := .releaseLoadRead loan.record } .consumer =
      some ({ s with consumer := .releaseLoadWrite loan.record s.ring.readPos }, .access) := rfl
  have inv₂ := (inv₁.consumerStep loadRead).1
  have header := inv.releaseHeaderExact lent
  rw [← inv.readPos] at header
  have loadWrite : step { s with consumer := .releaseLoadWrite loan.record s.ring.readPos } .consumer =
      some ({ s with consumer := .releaseLoadMeta (s.released % s.ring.capacity) s.ring.readPos
                      (s.published - s.released) }, .access) := by
    simp only [step, consumerStep, used, header]
    rw [if_neg (by omega), if_neg (by omega)]
  have inv₃ := (inv₂.consumerStep loadWrite).1
  have loadMeta : step { s with
        consumer := .releaseLoadMeta (s.released % s.ring.capacity) s.ring.readPos (s.published - s.released) }
      .consumer = some ({ s with
        consumer := .releaseClear (s.released % s.ring.capacity) s.ring.readPos r.plan.recordTotalSize }, .access) := by
    have spec := inv₃.releaseMetaSpec rfl window
    exact congrArg some spec
  have inv₄ := (inv₃.consumerStep loadMeta).1
  have clear : step { s with
        consumer := .releaseClear (s.released % s.ring.capacity) s.ring.readPos r.plan.recordTotalSize }
      .consumer = some ({ s with
        ring := s.ring.storeMeta abi (s.released % s.ring.capacity) 0
        consumer := .releaseStoreRead s.ring.readPos r.plan.recordTotalSize }, .access) := rfl
  have inv₅ := (inv₄.consumerStep clear).1
  have advance : step { s with
        ring := s.ring.storeMeta abi (s.released % s.ring.capacity) 0
        consumer := .releaseStoreRead s.ring.readPos r.plan.recordTotalSize }
      .consumer = some ({ s with
        ring := { s.ring.storeMeta abi (s.released % s.ring.capacity) 0 with
          readPos := abi.wrap (s.ring.readPos + r.plan.recordTotalSize) }
        consumer := .idle
        held := none
        returned := s.returned ++ (s.held.map Loan.bytes).toList
        released := s.released + r.plan.recordTotalSize }, .releaseReturned .ok) := rfl
  have inv₆ := (inv₅.consumerStep advance).1
  have returns : Event.consumerResult (.releaseReturned .ok : Event ι) = some .ok := rfl
  refine ⟨_, ?_, inv₆, ⟨rfl, rfl, rfl, rfl, rfl, rfl, Nat.le_add_right _ _⟩, rfl, rfl, ?_, ?_⟩
  · unfold releaseCall
    rw [begin_]
    change finishConsumer consumerFuel _ = _
    unfold finishConsumer consumerFuel
    rw [untilReturnNext loadRead rfl, untilReturnNext loadWrite rfl, untilReturnNext loadMeta rfl,
      untilReturnNext clear rfl]
    exact untilReturnLast advance returns _
  · rw [held]
    rfl
  · intro r' rest' window'
    obtain ⟨rfl, rfl⟩ := List.cons.inj (window.symm.trans window')
    change s.released + r.plan.recordTotalSize = r.stop
    omega

structure Alone (p : ι) (s : State abi ι) : Prop where
  inv : Inv s
  others : ∀ q, q ≠ p → (s.producers q).Quiet
  loads : match s.producers p with
    | .loadRead _ _ seen => s.reserved = seen
    | .casReserve _ _ _ seen _ => s.reserved = seen
    | _ => True

theorem aloneStep {p : ι} {s s' : State abi ι} {e : Event ι} (alone : Alone p s)
    (taken : step s (.producer p false) = some (s', e)) : NoLap s (.producer p false) ∧ Alone p s' := by
  obtain ⟨inv, others, loads⟩ := alone
  have lap := abi.modulusPos
  have fresh : NoLap s (.producer p false) := by
    unfold NoLap
    dsimp only
    split
    · rename_i push writePos plan seen seenReleased at_
      rw [at_] at loads
      dsimp only at loads
      omega
    · trivial
  have elsewhere := producerStepElsewhere taken
  refine ⟨fresh, inv.producerStep fresh taken, ?_, ?_⟩
  · intro q other
    rw [elsewhere.producers q other]
    exact others q other
  · simp only [step, producerStep] at taken
    cases at_ : s.producers p with
    | idle => simp [at_] at taken
    | loadWrite push =>
      rw [at_] at taken
      cases Option.some.inj taken
      have quiet : ∀ q, (s.producers q).Quiet := by
        intro q
        by_cases same : q = p
        · rw [same, at_]
          trivial
        · exact others q same
      unfold State.setProducer
      dsimp only
      rw [Function.update_self]
      exact (inv.allPublished quiet).symm
    | loadRead push writePos seen =>
      rw [at_] at taken loads
      dsimp only at taken
      split at taken <;> cases Option.some.inj taken <;> unfold State.setProducer <;> dsimp only <;>
        rw [Function.update_self]
      · trivial
      · exact loads
    | casReserve push writePos plan seen seenReleased =>
      rw [at_] at taken
      dsimp only at taken
      split at taken
      · cases Option.some.inj taken
        unfold State.reserve State.setProducer
        dsimp only
        rw [Function.update_self]
        trivial
      · cases Option.some.inj taken
        unfold State.setProducer
        dsimp only
        rw [Function.update_self]
        trivial
    | writing stage r =>
      rw [at_] at taken
      have state := congrArg Prod.fst (Option.some.inj taken)
      dsimp only at state
      rcases writeStepPc s p r stage with ⟨stage', h⟩ | h
      · rw [← state, h]
        trivial
      · rw [← state, h]
        trivial

theorem pushCallRun {s s' : State abi ι} {p : ι} {parts : Option (List (Part abi))} {rc : Status} (inv : Inv s)
    (others : ∀ q, q ≠ p → (s.producers q).Quiet) (ok : pushCall s p parts = some (s', rc)) :
    ∃ visits, Run step NoLap s visits s' := by
  simp only [pushCall, Option.bind_eq_some_iff] at ok
  obtain ⟨⟨s₁, e⟩, begin_, rest⟩ := ok
  have first : step s (.push p parts) = some (s₁, e) := begin_
  have permitted : NoLap s (.push p parts) := trivial
  dsimp only at rest
  split at rest
  · cases Option.some.inj rest
    exact ⟨_, Run.single permitted first⟩
  · rename_i silent
    have alone : Alone p s₁ := by
      have inv₁ := inv.pushStep begin_
      unfold pushStep at begin_
      split at begin_
      · split at begin_
        · cases Option.some.inj begin_
          contradiction
        · cases Option.some.inj begin_
          refine ⟨inv₁, ?_, ?_⟩
          · intro q other
            unfold State.setProducer
            dsimp only
            rw [Function.update_of_ne other]
            exact others q other
          · unfold State.setProducer
            dsimp only
            rw [Function.update_self]
            trivial
      · contradiction
    obtain ⟨visits, more⟩ := untilReturnRun (fun _ _ _ => aloneStep) alone rest
    exact ⟨_, (Run.single permitted first).append more⟩

theorem finishConsumerRun {s s' : State abi ι} {fuel : Nat} {rc : Status}
    (ok : finishConsumer fuel s = some (s', rc)) : ∃ visits, Run step NoLap s visits s' := by
  have free : ∀ s s' e, True → step s .consumer = some (s', e) →
      NoLap s (.consumer : Action abi ι) ∧ True := fun _ _ _ _ _ => ⟨trivial, trivial⟩
  exact untilReturnRun free trivial ok

theorem acquireCallRun {s s' : State abi ι} {rc : Status} (ok : acquireCall s = some (s', rc)) :
    ∃ visits, Run step NoLap s visits s' := by
  simp only [acquireCall, Option.bind_eq_some_iff] at ok
  obtain ⟨⟨s₁, e⟩, begin_, rest⟩ := ok
  have first : step s .acquire = some (s₁, e) := begin_
  have permitted : NoLap s .acquire := trivial
  dsimp only at rest
  split at rest
  · cases Option.some.inj rest
    exact ⟨_, Run.single permitted first⟩
  · obtain ⟨visits, more⟩ := finishConsumerRun rest
    exact ⟨_, (Run.single permitted first).append more⟩

theorem releaseCallRun {s s' : State abi ι} {rc : Status} (ok : releaseCall s = some (s', rc)) :
    ∃ visits, Run step NoLap s visits s' := by
  simp only [releaseCall, Option.bind_eq_some_iff] at ok
  obtain ⟨⟨s₁, e⟩, begin_, rest⟩ := ok
  have first : step s .release = some (s₁, e) := begin_
  have permitted : NoLap s .release := trivial
  dsimp only at rest
  split at rest
  · cases Option.some.inj rest
    exact ⟨_, Run.single permitted first⟩
  · obtain ⟨visits, more⟩ := finishConsumerRun rest
    exact ⟨_, (Run.single permitted first).append more⟩

structure Drained (s : State abi ι) : Prop where
  inv : Inv s
  quiet : ∀ q, (s.producers q).Quiet
  consumer : s.consumer = .idle
  window : s.window = []
  level : s.released = s.published

structure OthersStill (p : ι) (s s' : State abi ι) : Prop where
  others : ∀ q, q ≠ p → s'.producers q = s.producers q
  mine : s'.producers p = .idle
  capacity : s'.ring.capacity = s.ring.capacity
  storage : s'.ring.storage = s.ring.storage

theorem pushFitsCall {s : State abi ι} {p : ι} {given : Option (List (Part abi))} {parts : List (Part abi)}
    {recordSize : Nat} (inv : Inv s) (quiet : ∀ q, (s.producers q).Quiet) (idle : s.producers p = .idle)
    (checked : tryPushvChecks abi s.ring given = some (parts, recordSize))
    (fits : s.published + needed abi s.ring.capacity s.published recordSize ≤ s.released + s.ring.capacity) :
    ∃ s' r, pushCall s p given = some (s', .ok) ∧ Inv s' ∧ (∀ q, (s'.producers q).Quiet) ∧
      OthersStill p s s' ∧ ElsewhereSame p s s' ∧ s'.log = s.log ++ [r] ∧ r.payload = payload parts ∧
      s'.published = s.published + needed abi s.ring.capacity s.published recordSize := by
  have spec := pushCallSpec inv quiet idle given
  rw [checked] at spec
  obtain ⟨s', rc, ok, inv', elsewhere, idle', ends⟩ := spec
  have quiet' : ∀ q, (s'.producers q).Quiet := by
    intro q
    by_cases same : q = p
    · rw [same, idle']
      trivial
    · rw [elsewhere.producers q same]
      exact quiet q
  have published' := inv'.allPublished quiet'
  cases ends with
  | queueFull full =>
    dsimp only at full
    omega
  | ok _ r pushed log reserved =>
    refine ⟨s', r, ok, inv', quiet', ⟨elsewhere.producers, idle', elsewhere.capacity, elsewhere.storage⟩, elsewhere,
      log, ?_, published'.trans reserved⟩
    unfold Reservation.payload
    rw [pushed]

theorem pushFits {s : State abi ι} {p : ι} {given : Option (List (Part abi))} {parts : List (Part abi)}
    {recordSize : Nat} (inv : Inv s) (quiet : ∀ q, (s.producers q).Quiet) (idle : s.producers p = .idle)
    (checked : tryPushvChecks abi s.ring given = some (parts, recordSize))
    (fits : s.published + needed abi s.ring.capacity s.published recordSize ≤ s.released + s.ring.capacity) :
    ∃ s' r, (∃ visits, Run step NoLap s visits s') ∧ Inv s' ∧ (∀ q, (s'.producers q).Quiet) ∧
      OthersStill p s s' ∧ ElsewhereSame p s s' ∧ s'.log = s.log ++ [r] ∧ r.payload = payload parts ∧
      s'.published = s.published + needed abi s.ring.capacity s.published recordSize := by
  obtain ⟨s', r, ok, rest⟩ := pushFitsCall inv quiet idle checked fits
  exact ⟨s', r, pushCallRun inv (fun q _ => quiet q) ok, rest⟩

structure Cycle (p : ι) (given : Option (List (Part abi))) (s s₁ s₂ s' : State abi ι) : Prop where
  pushed : pushCall s p given = some (s₁, .ok)
  pushedIdle : s₁.consumer = .idle
  acquired : acquireCall s₁ = some (s₂, .ok)
  acquiredIdle : s₂.consumer = .idle
  held : ∃ loan, s₂.held = some loan
  released : releaseCall s₂ = some (s', .ok)

theorem drainedCycle {s : State abi ι} {p : ι} {given : Option (List (Part abi))} {parts : List (Part abi)}
    {recordSize : Nat} (drained : Drained s) (idle : s.producers p = .idle)
    (checked : tryPushvChecks abi s.ring given = some (parts, recordSize))
    (fits : needed abi s.ring.capacity s.published recordSize ≤ s.ring.capacity) :
    ∃ s₁ s₂ s', Cycle p given s s₁ s₂ s' ∧ Drained s' ∧ OthersStill p s s' ∧
      s'.published = s.published + needed abi s.ring.capacity s.published recordSize := by
  obtain ⟨inv, quiet, consumer, window, level⟩ := drained
  obtain ⟨s₁, r, pushed, inv₁, quiet₁, still, elsewhere, log, _, published⟩ :=
    pushFitsCall inv quiet idle checked (by omega)
  have front : s₁.window = [r] := by
    unfold State.window
    rw [log, elsewhere.returned, List.drop_append_of_le_length inv.counted]
    change s.window ++ [r] = [r]
    rw [window]
    rfl
  have consumer₁ := elsewhere.consumer.trans consumer
  obtain ⟨s₂, rc, acquired, inv₂, same₂, idle₂, returned₂, outcome⟩ := acquireCallSpec inv₁ quiet₁ consumer₁
  rw [front] at outcome
  obtain ⟨rfl, loan, held, _⟩ := outcome
  obtain ⟨s₃, released, inv₃, same₃, idle₃, _, returned₃, moved⟩ := releaseCallSpec inv₂ idle₂ held
  have front₂ : s₂.window = [r] := by
    unfold State.window
    rw [same₂.log, returned₂]
    exact front
  have last₃ : s₃.window = [] := by
    unfold State.window at front₂ ⊢
    rw [same₃.log, returned₃, List.length_append, ← List.drop_drop, front₂]
    rfl
  have same := same₂.trans same₃
  have quiet₃ : ∀ q, (s₃.producers q).Quiet := by
    rw [same.producers]
    exact quiet₁
  refine ⟨s₁, s₂, s₃, ⟨pushed, consumer₁, acquired, idle₂, ⟨loan, held⟩, released⟩,
    ⟨inv₃, quiet₃, idle₃, last₃, ?_⟩, ?_, ?_⟩
  · have all := inv₃.allPublished quiet₃
    obtain ⟨first, laid, atFirst | ⟨_, _, impossible, _⟩⟩ := inv₃.laid
    · rw [last₃] at laid
      have level₃ : first = s₃.reserved := laid
      omega
    · rw [last₃] at impossible
      contradiction
  · exact ⟨fun q other => (congrFun same.producers q).trans (still.others q other),
      (congrFun same.producers p).trans still.mine, same.capacity.trans still.capacity,
      same.storage.trans still.storage⟩
  · rw [same.published, published]

theorem pushAcquireRelease {s : State abi ι} {p : ι} {given : Option (List (Part abi))} {parts : List (Part abi)}
    {recordSize : Nat} (drained : Drained s) (idle : s.producers p = .idle)
    (checked : tryPushvChecks abi s.ring given = some (parts, recordSize))
    (fits : needed abi s.ring.capacity s.published recordSize ≤ s.ring.capacity) :
    ∃ s', (∃ visits, Run step NoLap s visits s') ∧ Drained s' ∧ OthersStill p s s' ∧
      s'.published = s.published + needed abi s.ring.capacity s.published recordSize := by
  obtain ⟨s₁, s₂, s', cycle, drained', still, published⟩ := drainedCycle drained idle checked fits
  obtain ⟨_, run₁⟩ := pushCallRun drained.inv (fun q _ => drained.quiet q) cycle.pushed
  obtain ⟨_, run₂⟩ := acquireCallRun cycle.acquired
  obtain ⟨_, run₃⟩ := releaseCallRun cycle.released
  exact ⟨s', ⟨_, (run₁.append run₂).append run₃⟩, drained', still, published⟩

end Nanosig.MpscRecordRing
