import Nanosig.MpscRecordRing.SpaceSafety

/-! Exactly-once delivery in reservation order, read off the visited steps of a
run: what the CASes reserved against what the releases handed back. -/
namespace Nanosig.MpscRecordRing
open ByteStore TransitionSystem

variable {abi : Abi} {ι : Type} [DecidableEq ι]

def reservedPayload (v : Visit (State abi ι) (Action abi ι) (Event ι)) : Option (List UInt8) :=
  match v.label with
  | .producer p spurious =>
      match v.state.producers p with
      | .casReserve push writePos _ _ _ =>
          if v.state.ring.reservePos = writePos ∧ spurious = false then some (payload push.parts) else none
      | _ => none
  | _ => none

def consumedPayload (v : Visit (State abi ι) (Action abi ι) (Event ι)) : Option (List UInt8) :=
  match v.label, v.event with
  | .consumer, .releaseReturned .ok => v.state.held.map Loan.bytes
  | _, _ => none

theorem writeStepLog (s : State abi ι) (p : ι) (r : Reservation abi ι) (stage : WriteStage abi) :
    (writeStep s p r stage).1.log = s.log := by
  unfold writeStep
  split <;> rfl

theorem producerStepLog {s s' : State abi ι} {p : ι} {spurious : Bool} {e : Event ι}
    (taken : producerStep s p spurious = some (s', e)) :
    s'.log.map Reservation.payload =
      s.log.map Reservation.payload ++ (reservedPayload ⟨s, .producer p spurious, e⟩).toList := by
  unfold producerStep at taken
  unfold reservedPayload
  dsimp only
  cases at_ : s.producers p with
  | idle => simp [at_] at taken
  | loadWrite push =>
    rw [at_] at taken
    cases Option.some.inj taken
    exact (List.append_nil _).symm
  | loadRead push writePos seen =>
    rw [at_] at taken
    dsimp only at taken
    split at taken <;> cases Option.some.inj taken <;> exact (List.append_nil _).symm
  | casReserve push writePos plan seen seenReleased =>
    rw [at_] at taken
    dsimp only at taken ⊢
    split at taken
    · rename_i agrees
      cases Option.some.inj taken
      rw [if_pos agrees]
      exact List.map_append
    · rename_i fails
      cases Option.some.inj taken
      rw [if_neg fails]
      exact (List.append_nil _).symm
  | writing stage r =>
    rw [at_] at taken
    have state := congrArg Prod.fst (Option.some.inj taken)
    dsimp only at state
    rw [← state, writeStepLog]
    exact (List.append_nil _).symm

omit [DecidableEq ι] in
theorem consumerStepReturned {s s' : State abi ι} {e : Event ι} (inv : Inv s)
    (taken : consumerStep s = some (s', e)) :
    s'.returned = s.returned ++ (consumedPayload ⟨s, .consumer, e⟩).toList := by
  have sound := (inv.consumerStep taken).2
  unfold consumerStep at taken
  unfold consumedPayload
  cases at_ : s.consumer with
  | idle => simp [at_] at taken
  | releaseStoreRead readPos stride =>
    rw [at_] at taken
    cases Option.some.inj taken
    rfl
  | acquireLoadMeta readPos used =>
    rw [at_] at taken
    have both := Option.some.inj taken
    unfold acquireMetaStep at both
    dsimp only at both
    split at both
    · cases both
      exact (List.append_nil _).symm
    · split at both
      · cases both
        exact (List.append_nil _).symm
      · split at both
        · cases both
          exact (List.append_nil _).symm
        · split at both <;> cases both <;> exact (List.append_nil _).symm
  | releaseLoadMeta header readPos used =>
    rw [at_] at taken
    have both := Option.some.inj taken
    unfold releaseMetaStep at both
    dsimp only at both
    split at both
    · cases both
      cases sound
    · split at both
      · cases both
        cases sound
      · split at both
        · cases both
          cases sound
        · cases both
          exact (List.append_nil _).symm
  | acquireLoadWrite readPos =>
    rw [at_] at taken
    dsimp only at taken
    split at taken
    · cases Option.some.inj taken
      exact (List.append_nil _).symm
    · split at taken <;> cases Option.some.inj taken <;> exact (List.append_nil _).symm
  | releaseLoadWrite record readPos =>
    rw [at_] at taken
    dsimp only at taken
    split at taken
    · cases Option.some.inj taken
      cases sound
    · split at taken
      · cases Option.some.inj taken
        cases sound
      · split at taken
        · cases Option.some.inj taken
          cases sound
        · cases Option.some.inj taken
          exact (List.append_nil _).symm
  | acquireLoadRead | acquireClearFake | acquireStoreRead | releaseLoadRead | releaseClear =>
    rw [at_] at taken
    cases Option.some.inj taken
    exact (List.append_nil _).symm

theorem pushStepSame {s s' : State abi ι} {p : ι} {parts : Option (List (Part abi))} {e : Event ι}
    (taken : pushStep s p parts = some (s', e)) : s'.log = s.log ∧ s'.returned = s.returned := by
  unfold pushStep at taken
  split at taken
  · split at taken <;> cases Option.some.inj taken <;> exact ⟨rfl, rfl⟩
  · contradiction

omit [DecidableEq ι] in
theorem acquireStepSame {s s' : State abi ι} {e : Event ι} (taken : acquireStep s = some (s', e)) :
    s'.log = s.log ∧ s'.returned = s.returned := by
  unfold acquireStep at taken
  split at taken
  · contradiction
  · split at taken <;> cases Option.some.inj taken <;> exact ⟨rfl, rfl⟩

omit [DecidableEq ι] in
theorem releaseStepSame {s s' : State abi ι} {e : Event ι} (taken : releaseStep s = some (s', e)) :
    s'.log = s.log ∧ s'.returned = s.returned := by
  unfold releaseStep at taken
  split at taken
  · contradiction
  · split at taken
    · contradiction
    · split at taken <;> cases Option.some.inj taken <;> exact ⟨rfl, rfl⟩

theorem stepHistory {s s' : State abi ι} {a : Action abi ι} {e : Event ι} (inv : Inv s)
    (taken : step s a = some (s', e)) :
    s'.log.map Reservation.payload = s.log.map Reservation.payload ++ (reservedPayload ⟨s, a, e⟩).toList ∧
      s'.returned = s.returned ++ (consumedPayload ⟨s, a, e⟩).toList := by
  cases a with
  | push p parts =>
    obtain ⟨log, returned⟩ := pushStepSame taken
    rw [log, returned]
    exact ⟨(List.append_nil _).symm, (List.append_nil _).symm⟩
  | producer p spurious =>
    refine ⟨producerStepLog taken, ?_⟩
    rw [(producerStepElsewhere taken).returned]
    exact (List.append_nil _).symm
  | acquire =>
    obtain ⟨log, returned⟩ := acquireStepSame taken
    rw [log, returned]
    exact ⟨(List.append_nil _).symm, (List.append_nil _).symm⟩
  | release =>
    obtain ⟨log, returned⟩ := releaseStepSame taken
    rw [log, returned]
    exact ⟨(List.append_nil _).symm, (List.append_nil _).symm⟩
  | consumer =>
    refine ⟨?_, consumerStepReturned inv taken⟩
    rw [(consumerStepEffect taken).1.log]
    exact (List.append_nil _).symm

theorem runHistory {first s : State abi ι} {visits : List (Visit (State abi ι) (Action abi ι) (Event ι))}
    (starts : Starts abi first) (run : Run step NoLap first visits s) :
    Inv s ∧ s.log.map Reservation.payload = visits.filterMap reservedPayload ∧
      s.returned = visits.filterMap consumedPayload := by
  induction run with
  | done =>
    obtain ⟨storage, bytes, capacity, ring, ok, rfl⟩ := starts
    exact ⟨initInv ok, rfl, rfl⟩
  | @next s s' visits a e before permitted taken ih =>
    obtain ⟨inv, log, returned⟩ := ih
    obtain ⟨moreLog, moreReturned⟩ := stepHistory inv taken
    refine ⟨inv.step permitted taken, ?_, ?_⟩
    · rw [moreLog, log, List.filterMap_append]
      rfl
    · rw [moreReturned, returned, List.filterMap_append]
      rfl

omit [DecidableEq ι] in
theorem Inv.loanIntact {s : State abi ι} (inv : Inv s) {loan : Loan} (held : s.held = some loan) :
    ∃ r, s.log[s.returned.length]? = some r ∧ loan.bytes = r.payload ∧ loan.readable s = r.payload ∧
      s.ring.storage + abi.sizeofSizeT ≤ loan.record ∧
      loan.record + loan.size ≤ s.ring.storage + s.ring.capacity := by
  obtain ⟨r, rest, window, place, published, done, record, size, bytes⟩ := inv.heldBorrowed held
  have member : r ∈ s.window := by simp [window]
  have v := inv.reservations r member
  have stored := (inv.stored r member).copied
  rw [done] at stored
  have whole : r.payload.take r.push.recordSize = r.payload := List.take_of_length_le (Nat.le_of_eq v.payloadLength)
  simp only [Reservation.committed, v.payloadLength, whole] at stored
  refine ⟨r, ?_, bytes, ?_, by omega, ?_⟩
  · have front : (s.log.drop s.returned.length)[0]? = some r := by
      change s.window[0]? = some r
      rw [window]
      rfl
    rw [List.getElem?_drop] at front
    exact front
  · unfold Loan.readable
    rw [record, size, Nat.add_sub_cancel_left]
    exact stored
  · have block := v.planned.recordContiguous inv.geometry.positive
    have split := v.recordSplit
    have length := v.payloadLength
    unfold Contiguous at block
    change r.recordAt % s.ring.capacity + r.plan.recordTotalSize ≤ s.ring.capacity at block
    omega

omit [DecidableEq ι] in
/- With no reservation in flight the ring only looks empty when everything was returned. -/
theorem Inv.emptyMeansDrained {s s' : State abi ι} (inv : Inv s) (quiet : ∀ p, (s.producers p).Quiet)
    (taken : MpscRecordRing.consumerStep s = some (s', .acquireReturned .empty)) :
    s.returned.length = s.log.length := by
  have all := inv.allPublished quiet
  have drained : s.released = s.published → s.returned.length = s.log.length := by
    intro level
    have counted := inv.counted
    by_contra more
    have some_ : s.window ≠ [] := by
      intro none_
      have := List.drop_eq_nil_iff.mp none_
      omega
    obtain ⟨r, rest, window⟩ := List.exists_cons_of_ne_nil some_
    have member : r ∈ s.window := by simp [window]
    have below := inv.releasedLeRecord member
    have above := inv.stopLeReserved member
    have v := inv.reservations r member
    have ends := v.recordStop
    have total := v.planned.totalPos
    have word := sizeofSizeTPos abi
    omega
  have consumer := inv.consumer
  unfold ConsumerHolds at consumer
  have small := inv.usedLe
  have order := inv.readWrite
  unfold MpscRecordRing.consumerStep at taken
  cases at_ : s.consumer with
  | acquireLoadWrite readPos =>
    rw [at_] at taken consumer
    simp only [consumer.2, inv.usedExact, if_neg (by omega : ¬ s.published - s.released > s.ring.capacity)] at taken
    split at taken
    · exact drained (by omega)
    · cases Option.some.inj taken
  | acquireLoadMeta readPos used =>
    -- Every reservation is committed, so the word at the read position is not zero.
    rw [at_] at taken consumer
    obtain ⟨held, pos, r, rest, window, inside, published⟩ := consumer
    obtain ⟨fake, _, committed⟩ := inv.acquireMetaSpec at_ window
    have both := Option.some.inj taken
    by_cases place : s.released = r.recordAt
    · rw [committed place (quietProgress (quiet _) r)] at both
      cases congrArg Prod.snd both
    · rw [fake place] at both
      cases congrArg Prod.snd both
  | releaseLoadWrite record readPos =>
    rw [at_] at taken
    dsimp only at taken
    split at taken
    · cases Option.some.inj taken
    · split at taken
      · cases Option.some.inj taken
      · split at taken <;> cases Option.some.inj taken
  | releaseLoadMeta header readPos used =>
    rw [at_] at taken consumer
    obtain ⟨loan, held, lent, pos, place, r, rest, window, _⟩ := consumer
    have both := Option.some.inj taken
    rw [inv.releaseMetaSpec at_ window] at both
    cases congrArg Prod.snd both
  | idle =>
    rw [at_] at taken
    contradiction
  | _ =>
    rw [at_] at taken
    cases Option.some.inj taken

/- The payloads the consumer gave back are a prefix of the payloads reserved, in
CAS order; a loan shows the next of them untorn for as long as it lasts; and a
`try_acquire` that reports an empty ring with no push in flight is right. -/
theorem deliveredExactlyOnceInOrder {first s : State abi ι}
    {visits : List (Visit (State abi ι) (Action abi ι) (Event ι))}
    (starts : Starts abi first) (run : Run step NoLap first visits s) :
    visits.filterMap consumedPayload <+: visits.filterMap reservedPayload ∧
    (∀ loan, s.held = some loan → ∃ next,
      (visits.filterMap reservedPayload)[(visits.filterMap consumedPayload).length]? = some next ∧
      loan.bytes = next ∧ loan.readable s = next ∧ s.ring.storage + abi.sizeofSizeT ≤ loan.record ∧
      loan.record + loan.size ≤ s.ring.storage + s.ring.capacity) ∧
    (∀ s', step s .consumer = some (s', .acquireReturned .empty) → (∀ p, s.producers p = .idle) →
      visits.filterMap consumedPayload = visits.filterMap reservedPayload) := by
  obtain ⟨inv, log, returned⟩ := runHistory starts run
  rw [← log, ← returned]
  refine ⟨?_, ?_, ?_⟩
  · have delivered := inv.delivered
    rw [delivered]
    exact (List.take_prefix _ _).map _
  · intro loan held
    obtain ⟨r, next, bytes, readable, low, high⟩ := inv.loanIntact held
    exact ⟨r.payload, by rw [List.getElem?_map, next]; rfl, bytes, readable, low, high⟩
  · intro s' taken idle
    have quiet : ∀ p, (s.producers p).Quiet := by
      intro p
      rw [idle p]
      trivial
    have drained := inv.emptyMeansDrained quiet taken
    have delivered := inv.delivered
    rw [drained, List.take_length] at delivered
    exact delivered

def pushThenConsume : List (Action .lp64 Unit) :=
  Action.push () (some [.ofBytes [1, 2] (by decide), .ofBytes [3] (by decide)]) ::
    List.replicate 8 (Action.producer () false) ++
    Action.acquire :: List.replicate 3 Action.consumer ++ Action.release :: List.replicate 5 Action.consumer

theorem deliveredOnePush : ∃ (ring : Ring) (visits : List (Visit (State .lp64 Unit) (Action .lp64 Unit) (Event Unit)))
    (s : State .lp64 Unit), init .lp64 4096 (fun _ => 0) 64 = some ring ∧
      Run step NoLap (State.initial ring) visits s ∧ visits.filterMap consumedPayload = [[1, 2, 3]] ∧
      [[1, 2, 3]] <+: visits.filterMap reservedPayload := by
  have evaluated : ((init .lp64 4096 (fun _ => 0) 64).any fun ring =>
      (execute step (State.initial ring) pushThenConsume).any fun ran =>
        (∀ v ∈ ran.1, NoLap v.state v.label) ∧ ran.1.filterMap consumedPayload = [[1, 2, 3]]) = true := by
    decide +kernel
  obtain ⟨ring, made, rest⟩ := (Option.any_eq_true _ _).mp evaluated
  obtain ⟨⟨visits, s⟩, ran, checked⟩ := (Option.any_eq_true _ _).mp rest
  obtain ⟨fresh, consumed⟩ := of_decide_eq_true checked
  have run := executeRun ran fresh
  have delivered := (deliveredExactlyOnceInOrder ⟨4096, fun _ => 0, 64, ring, made, rfl⟩ run).1
  exact ⟨ring, visits, s, made, run, consumed, consumed ▸ delivered⟩

/-! Counting only published bytes as the lap is not enough: a reservation still
being written completes the lap, and the stale CAS then lands behind it. -/

/- Fewer than `2^w` bytes were published since the producer loaded `write_pos`. -/
def FewerPublished (s : State abi ι) : Action abi ι → Prop
  | .producer p _ =>
      match s.producers p with
      | .casReserve _ _ _ seenPublished _ => s.published < seenPublished + abi.modulus
      | _ => True
  | _ => True

def decideFewerPublished (published : Nat) (pc : ProducerPc abi ι) : Decidable (match pc with
    | .casReserve _ _ _ seenPublished _ => published < seenPublished + abi.modulus
    | _ => True) :=
  match pc with
  | .casReserve _ _ _ seenPublished _ => inferInstanceAs (Decidable (published < seenPublished + abi.modulus))
  | .idle | .loadWrite _ | .loadRead .. | .writing .. => isTrue trivial

instance (s : State abi ι) (a : Action abi ι) : Decidable (FewerPublished s a) :=
  match a with
  | .producer p _ => decideFewerPublished s.published (s.producers p)
  | .push .. | .acquire | .release | .consumer => isTrue trivial

theorem noLapFewer {first s : State abi ι} {visits : List (Visit (State abi ι) (Action abi ι) (Event ι))}
    (starts : Starts abi first) (run : Run step NoLap first visits s) :
    Inv s ∧ Run step FewerPublished first visits s := by
  induction run with
  | done =>
    obtain ⟨storage, bytes, capacity, ring, ok, rfl⟩ := starts
    exact ⟨initInv ok, .done _⟩
  | @next s s' visits a e before permitted taken ih =>
    obtain ⟨inv, fewer⟩ := ih
    refine ⟨inv.step permitted taken, .next fewer ?_ taken⟩
    have order := inv.writeReserve
    unfold FewerPublished
    cases a with
    | producer p spurious =>
      dsimp only
      split
      · rename_i at_
        simp only [NoLap, at_] at permitted
        omega
      · trivial
    | push | acquire | release | consumer => trivial

/- The drained ring 8 bytes before the lap, producer `true` stopped before its CAS. -/
def lateState (bytes : Store) (held : Option Loan) (log : List (Reservation .ilp32 Bool))
    (returned : List (List UInt8)) : State .ilp32 Bool where
  ring := ⟨2 ^ 32 - 8, 2 ^ 32 - 8, 2 ^ 32 - 8, 4096, bytes, 16⟩
  producers p := cond p (.casReserve latePush 0 latePlan 0 0) .idle
  consumer := .idle
  held := held
  log := log
  returned := returned
  reserved := 2 ^ 32 - 8
  published := 2 ^ 32 - 8
  released := 2 ^ 32 - 8

theorem lateReached : ∃ bytes held log returned, ReachableNoLap (lateState bytes held log returned) ∧
    returned = log.map Reservation.payload := by
  obtain ⟨s, ⟨reach, idle, stopped, capacity, storage⟩, drained, published⟩ := lateCycles (2 ^ 29 - 1)
  have all := drained.inv.allPublished drained.quiet
  have level := drained.level
  have write := drained.inv.writePos
  have read := drained.inv.readPos
  have reserve := drained.inv.reservePos
  have consumer := drained.consumer
  have delivered := drained.inv.delivered
  have counted := drained.inv.counted
  have none_ := List.drop_eq_nil_iff.mp drained.window
  rw [List.take_of_length_le none_] at delivered
  obtain ⟨⟨reservePos, writePos, readPos, base, bytes, size⟩, producers, pc, held, log, returned, reserved, pub, rel⟩ := s
  dsimp only at *
  subst capacity storage consumer published level all
  have functions : producers = fun p => cond p (.casReserve latePush 0 latePlan 0 0) .idle := by
    funext p
    cases p
    · exact idle
    · exact stopped
  subst functions
  rw [reserve, write, read] at reach
  exact ⟨bytes, held, log, returned, reach, delivered⟩

/- `false` reserves the last 8 bytes of the lap; `true` reserves, publishes and
commits behind it; `false` publishes, moving `write_pos` back over that record. -/
def swapped : List (Action .ilp32 Bool) :=
  Action.push false (some [word4]) :: List.replicate 3 (Action.producer false false) ++
    List.replicate 5 (Action.producer true false) ++ List.replicate 4 (Action.producer false false) ++
    Action.acquire :: List.replicate 3 Action.consumer ++ Action.release :: List.replicate 5 Action.consumer ++
    [Action.acquire, Action.consumer]

theorem swappedRuns (bytes : Store) (held : Option Loan) (log : List (Reservation .ilp32 Bool))
    (returned : List (List UInt8)) :
    ((execute step (lateState bytes held log returned) swapped).any fun ran =>
      (∀ v ∈ ran.1, FewerPublished v.state v.label) ∧ ran.1.filterMap consumedPayload = [[0, 0, 0, 0]] ∧
      ran.1.filterMap reservedPayload = [[0, 0, 0, 0], [0, 0, 0, 0]] ∧
      (ran.2.producers true matches .idle) ∧ (ran.2.producers false matches .idle) ∧
      (step ran.2 .consumer).any (fun moved => moved.2 = .acquireReturned .empty)) = true := by
  cbv

theorem lapWhilePublishingLosesRecord : ∃ (first s s' : State .ilp32 Bool)
    (visits : List (Visit (State .ilp32 Bool) (Action .ilp32 Bool) (Event Bool))),
    Starts .ilp32 first ∧ Run step FewerPublished first visits s ∧ (∀ p, s.producers p = .idle) ∧
      step s .consumer = some (s', .acquireReturned .empty) ∧
      visits.filterMap consumedPayload ≠ visits.filterMap reservedPayload := by
  obtain ⟨bytes, held, log, returned, reach, delivered⟩ := lateReached
  obtain ⟨first, before, starts, run⟩ := reach.run
  obtain ⟨_, reservedBefore, consumedBefore⟩ := runHistory starts run
  obtain ⟨⟨after, s⟩, ran, checked⟩ := (Option.any_eq_true _ _).mp (swappedRuns bytes held log returned)
  obtain ⟨fewer, consumed, reserved, idleTrue, idleFalse, empty⟩ := of_decide_eq_true checked
  obtain ⟨⟨s', e⟩, taken, returns⟩ := (Option.any_eq_true _ _).mp empty
  have event : e = .acquireReturned .empty := of_decide_eq_true returns
  refine ⟨first, s, s', before ++ after, starts, (noLapFewer starts run).2.append (executeRun ran fewer), ?_, ?_, ?_⟩
  · intro p
    cases p
    · dsimp only at idleFalse
      split at idleFalse
      · assumption
      · contradiction
    · dsimp only at idleTrue
      split at idleTrue
      · assumption
      · contradiction
  · rw [taken, event]
  · intro same
    have lengths := congrArg List.length same
    simp only [List.filterMap_append, List.length_append] at lengths
    dsimp only at consumed reserved
    rw [consumed, reserved, ← consumedBefore, ← reservedBefore] at lengths
    change (returned).length + 1 = (log.map Reservation.payload).length + 2 at lengths
    rw [delivered] at lengths
    omega

end Nanosig.MpscRecordRing
