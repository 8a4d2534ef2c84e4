import Nanosig.MpscRecordRing.Calls

/-! When `NS_E_QUEUE_FULL` tells the truth. `write_pos` and `read_pos` are loaded
one after the other; once the consumer has moved past the loaded `write_pos` the
unsigned difference is almost `2^w` and the push fails on a ring with room. -/
namespace Nanosig.MpscRecordRing
open ByteStore TransitionSystem

variable {abi : Abi} {ι : Type} [DecidableEq ι]

def full (abi : Abi) (ring : Ring) (recordSize : Nat) : Bool :=
  ring.capacity - abi.sub ring.writePos ring.readPos < needed abi ring.capacity ring.writePos recordSize

def callVisits (p : ι) (visits : List (Visit (State abi ι) (Action abi ι) (Event ι))) :
    List (Visit (State abi ι) (Action abi ι) (Event ι)) :=
  visits.foldl (fun call v =>
    match v.label with
    | .push q _ => if q = p then [v] else call ++ [v]
    | _ => call ++ [v]) []

def requested (call : List (Visit (State abi ι) (Action abi ι) (Event ι))) : Option Nat :=
  match call with
  | ⟨s, .push _ given, _⟩ :: _ => (tryPushvChecks abi s.ring given).map Prod.snd
  | _ => none

/- Every push that reports a full ring ran while the ring really was too full for
its record at some instant between its call and its return. -/
def QueueFullTruthful (visits : List (Visit (State abi ι) (Action abi ι) (Event ι))) : Prop :=
  ∀ left v right p, visits = left ++ v :: right → v.event = .pushReturned p .queueFull →
    ∃ recordSize, requested (callVisits p left) = some recordSize ∧
      ∃ u ∈ callVisits p left ++ [v], full abi u.state.ring recordSize = true

/- The load of `read_pos` finds it not ahead of the `write_pos` loaded before it,
and no CAS is a lap late. -/
def FreshLoads (s : State abi ι) (a : Action abi ι) : Prop :=
  NoLap s a ∧
    match a with
    | .producer p _ =>
        match s.producers p with
        | .loadRead _ _ seenPublished => s.released ≤ seenPublished
        | _ => True
    | _ => True

instance (s : State abi ι) (a : Action abi ι) : Decidable (FreshLoads s a) := by
  unfold FreshLoads
  refine @instDecidableAnd _ _ inferInstance ?_
  split
  · split <;> infer_instance
  · infer_instance

theorem callVisitsPush (p : ι) (visits : List (Visit (State abi ι) (Action abi ι) (Event ι)))
    (s : State abi ι) (given : Option (List (Part abi))) (e : Event ι) :
    callVisits p (visits ++ [⟨s, .push p given, e⟩]) = [⟨s, .push p given, e⟩] := by
  simp [callVisits]

theorem callVisitsOther (p : ι) (visits : List (Visit (State abi ι) (Action abi ι) (Event ι)))
    {v : Visit (State abi ι) (Action abi ι) (Event ι)} (other : ∀ given, v.label ≠ .push p given) :
    callVisits p (visits ++ [v]) = callVisits p visits ++ [v] := by
  unfold callVisits
  rw [List.foldl_append, List.foldl_cons, List.foldl_nil]
  split
  · rename_i q given same
    rw [if_neg]
    rintro rfl
    exact other given same
  · rfl

omit [DecidableEq ι] in
theorem requestedAppend {call more : List (Visit (State abi ι) (Action abi ι) (Event ι))} {recordSize : Nat}
    (known : requested call = some recordSize) : requested (call ++ more) = some recordSize := by
  cases call with
  | nil => contradiction
  | cons v rest =>
    obtain ⟨s, label, e⟩ := v
    cases label <;> exact known

omit [DecidableEq ι] in
theorem neededWrap {capacity : Nat} (g : Geometry abi capacity) (pos recordSize : Nat) :
    needed abi capacity (abi.wrap pos) recordSize = needed abi capacity pos recordSize := by
  unfold needed tailPadding Abi.wrap
  rw [Nat.mod_mod_of_dvd pos g.dvdModulus]

/- The call of `p` that is open in `s`, and what its loaded write position stood for. -/
def Traced (visits : List (Visit (State abi ι) (Action abi ι) (Event ι))) (s : State abi ι) (p : ι) : Prop :=
  match s.producers p with
  | .idle => True
  | .writing _ _ => True
  | .loadWrite push => requested (callVisits p visits) = some push.recordSize
  | .casReserve push _ _ _ _ => requested (callVisits p visits) = some push.recordSize
  | .loadRead push _ seen => requested (callVisits p visits) = some push.recordSize ∧
      ∃ u ∈ callVisits p visits, Inv u.state ∧ u.state.published = seen ∧ u.state.released ≤ s.released ∧
        u.state.ring.capacity = s.ring.capacity

theorem Traced.others {visits : List (Visit (State abi ι) (Action abi ι) (Event ι))} {s s' : State abi ι} {p : ι}
    {v : Visit (State abi ι) (Action abi ι) (Event ι)} (traced : Traced visits s p)
    (same : s'.producers p = s.producers p) (released : s.released ≤ s'.released)
    (capacity : s'.ring.capacity = s.ring.capacity) (other : ∀ given, v.label ≠ .push p given) :
    Traced (visits ++ [v]) s' p := by
  unfold Traced at *
  rw [same, callVisitsOther p visits other]
  cases at_ : s.producers p with
  | idle => trivial
  | writing stage r => trivial
  | loadWrite push =>
    rw [at_] at traced
    exact requestedAppend traced
  | casReserve push writePos plan seen seenReleased =>
    rw [at_] at traced
    exact requestedAppend traced
  | loadRead push writePos seen =>
    rw [at_] at traced
    obtain ⟨known, u, member, inv, published, before, cap⟩ := traced
    exact ⟨requestedAppend known, u, List.mem_append_left _ member, inv, published, by omega,
      cap.trans capacity.symm⟩

theorem Traced.own {visits : List (Visit (State abi ι) (Action abi ι) (Event ι))} {s s' : State abi ι} {p : ι}
    {spurious : Bool} {e : Event ι} (inv : Inv s) (traced : Traced visits s p)
    (taken : producerStep s p spurious = some (s', e)) :
    Traced (visits ++ [⟨s, .producer p spurious, e⟩]) s' p := by
  have known : ∀ push : Push abi, requested (callVisits p visits) = some push.recordSize →
      requested (callVisits p (visits ++ [⟨s, .producer p spurious, e⟩])) = some push.recordSize := by
    intro push size
    rw [callVisitsOther p visits (by simp)]
    exact requestedAppend size
  unfold Traced at traced
  unfold producerStep at taken
  cases at_ : s.producers p with
  | idle => simp [at_] at taken
  | loadWrite push =>
    rw [at_] at taken traced
    cases Option.some.inj taken
    unfold Traced State.setProducer
    dsimp only
    rw [Function.update_self]
    refine ⟨known push traced, ⟨s, .producer p spurious, .access⟩, ?_, inv, rfl, Nat.le_refl _, rfl⟩
    rw [callVisitsOther p visits (by simp)]
    simp
  | loadRead push writePos seen =>
    rw [at_] at taken traced
    dsimp only at taken
    split at taken <;> cases Option.some.inj taken <;> unfold Traced State.setProducer <;> dsimp only <;>
      rw [Function.update_self]
    · trivial
    · exact known push traced.1
  | casReserve push writePos plan seen seenReleased =>
    rw [at_] at taken traced
    dsimp only at taken
    split at taken
    · cases Option.some.inj taken
      unfold Traced State.reserve State.setProducer
      dsimp only
      rw [Function.update_self]
      trivial
    · cases Option.some.inj taken
      unfold Traced State.setProducer
      dsimp only
      rw [Function.update_self]
      exact known push traced
  | writing stage r =>
    rw [at_] at taken
    have state := congrArg Prod.fst (Option.some.inj taken)
    dsimp only at state
    have pc := writeStepPc s p r stage
    rw [state] at pc
    unfold Traced
    rcases pc with ⟨stage', h⟩ | h <;> rw [h] <;> trivial

theorem stepTraced {visits : List (Visit (State abi ι) (Action abi ι) (Event ι))} {s s' : State abi ι}
    {a : Action abi ι} {e : Event ι} (inv : Inv s) (traced : ∀ p, Traced visits s p)
    (taken : step s a = some (s', e)) : ∀ p, Traced (visits ++ [⟨s, a, e⟩]) s' p := by
  intro p
  cases a with
  | push q given =>
    simp only [step, pushStep] at taken
    split at taken
    · rename_i idle
      by_cases mine : q = p
      · subst mine
        split at taken
        · cases Option.some.inj taken
          unfold Traced
          rw [idle]
          trivial
        · rename_i parts recordSize checked
          cases Option.some.inj taken
          unfold Traced State.setProducer
          dsimp only
          rw [Function.update_self, callVisitsPush]
          simp [requested, checked]
      · have other : ∀ given', (⟨s, .push q given, e⟩ : Visit (State abi ι) (Action abi ι) (Event ι)).label ≠
            .push p given' := by
          intro given' same
          injection same with same
          exact mine same
        split at taken
        · cases Option.some.inj taken
          exact (traced p).others rfl (Nat.le_refl _) rfl other
        · cases Option.some.inj taken
          exact (traced p).others (Function.update_of_ne (Ne.symm mine) ..) (Nat.le_refl _) rfl other
    · contradiction
  | producer q spurious =>
    by_cases mine : q = p
    · subst mine
      exact (traced q).own inv taken
    · have elsewhere := producerStepElsewhere taken
      exact (traced p).others (elsewhere.producers p (Ne.symm mine)) (Nat.le_of_eq elsewhere.released.symm)
        elsewhere.capacity (by simp)
  | acquire =>
    have same : s'.producers = s.producers ∧ s'.released = s.released ∧ s'.ring = s.ring := by
      simp only [step, acquireStep] at taken
      split at taken
      · contradiction
      · split at taken <;> cases Option.some.inj taken <;> exact ⟨rfl, rfl, rfl⟩
    exact (traced p).others (congrFun same.1 p) (Nat.le_of_eq same.2.1.symm) (congrArg Ring.capacity same.2.2) (by simp)
  | release =>
    have same : s'.producers = s.producers ∧ s'.released = s.released ∧ s'.ring = s.ring := by
      simp only [step, releaseStep] at taken
      split at taken
      · contradiction
      · split at taken
        · contradiction
        · split at taken <;> cases Option.some.inj taken <;> exact ⟨rfl, rfl, rfl⟩
    exact (traced p).others (congrFun same.1 p) (Nat.le_of_eq same.2.1.symm) (congrArg Ring.capacity same.2.2) (by simp)
  | consumer =>
    have same := (consumerStepEffect taken).1
    exact (traced p).others (congrFun same.producers p) same.released same.capacity (by simp)

theorem runTraced {first s : State abi ι} {visits : List (Visit (State abi ι) (Action abi ι) (Event ι))}
    (starts : Starts abi first) (run : Run step FreshLoads first visits s) :
    Inv s ∧ ∀ p, Traced visits s p := by
  induction run with
  | done =>
    obtain ⟨storage, bytes, capacity, ring, ok, rfl⟩ := starts
    exact ⟨initInv ok, fun _ => trivial⟩
  | next before permitted taken ih =>
    obtain ⟨inv, traced⟩ := ih
    exact ⟨inv.step permitted.1 taken, stepTraced inv traced taken⟩

/- Where a `NS_E_QUEUE_FULL` comes from. -/
theorem queueFullFrom {s s' : State abi ι} {a : Action abi ι} {p : ι}
    (taken : step s a = some (s', .pushReturned p .queueFull)) :
    ∃ spurious push writePos seen, a = .producer p spurious ∧ s.producers p = .loadRead push writePos seen ∧
      planPush abi s.ring push.recordSize writePos s.ring.readPos = none := by
  cases a with
  | push q given =>
    simp only [step, pushStep] at taken
    split at taken
    · split at taken <;> cases Option.some.inj taken
    · contradiction
  | producer q spurious =>
    simp only [step, producerStep] at taken
    cases at_ : s.producers q with
    | idle => simp [at_] at taken
    | loadWrite push =>
      rw [at_] at taken
      cases Option.some.inj taken
    | loadRead push writePos seen =>
      rw [at_] at taken
      dsimp only at taken
      split at taken
      · rename_i none_
        cases Option.some.inj taken
        exact ⟨spurious, push, writePos, seen, rfl, at_, none_⟩
      · cases Option.some.inj taken
    | casReserve push writePos plan seen seenReleased =>
      rw [at_] at taken
      dsimp only at taken
      split at taken <;> cases Option.some.inj taken
    | writing stage r =>
      rw [at_] at taken
      have event := congrArg Prod.snd (Option.some.inj taken)
      dsimp only at event
      unfold writeStep at event
      split at event <;> cases event
  | acquire =>
    simp only [step, acquireStep] at taken
    split at taken
    · contradiction
    · split at taken <;> cases Option.some.inj taken
  | release =>
    simp only [step, releaseStep] at taken
    split at taken
    · contradiction
    · split at taken
      · contradiction
      · split at taken <;> cases Option.some.inj taken
  | consumer =>
    have silent := (consumerStepEffect taken).2
    contradiction

/- When the loaded positions can have coexisted, a full ring was full. -/
theorem queueFullTruthful {first s : State abi ι}
    {visits : List (Visit (State abi ι) (Action abi ι) (Event ι))}
    (starts : Starts abi first) (run : Run step FreshLoads first visits s) : QueueFullTruthful visits := by
  rintro left ⟨here, a, e⟩ right p rfl returns
  obtain ⟨next, before, permitted, taken, _⟩ := run.split
  dsimp only at before permitted taken returns
  rw [returns] at taken
  obtain ⟨inv, traced⟩ := runTraced starts before
  obtain ⟨spurious, push, writePos, seen, rfl, at_, fails⟩ := queueFullFrom taken
  have open_ := traced p
  have holds := inv.producers p
  unfold Traced at open_
  rw [at_] at open_ holds
  obtain ⟨known, u, member, invU, published, earlier, capacity⟩ := open_
  obtain ⟨valid, wrapped, behind, room, _⟩ := holds
  have fresh : here.released ≤ seen := by
    have := permitted.2
    simpa only [at_] using this
  have spec := planPushSpec inv.geometry valid.fits fresh room
  rw [← wrapped, ← inv.readPos, fails] at spec
  refine ⟨push.recordSize, known, u, List.mem_append_left _ member, ?_⟩
  -- At the load of `write_pos` the ring was at least as full as the plan saw it.
  obtain ⟨used, _⟩ := invU.wrappedPositions
  have order := invU.readWrite
  unfold full
  rw [decide_eq_true_eq, used, invU.writePos, neededWrap invU.geometry, capacity, published]
  unfold needed
  omega

def filled : List (Action .lp64 Unit) :=
  let record := Action.push () (some [.ofBytes (List.replicate 24 0) (by decide)])
  record :: List.replicate 7 (Action.producer () false) ++ record :: List.replicate 7 (Action.producer () false) ++
    record :: List.replicate 2 (Action.producer () false)

theorem filledTruthfullyFull : ∃ (ring : Ring)
    (visits : List (Visit (State .lp64 Unit) (Action .lp64 Unit) (Event Unit))) (s : State .lp64 Unit),
    init .lp64 4096 (fun _ => 0) 64 = some ring ∧ Run step FreshLoads (State.initial ring) visits s ∧
      (∃ v ∈ visits, v.event = .pushReturned () .queueFull) ∧ QueueFullTruthful visits := by
  have evaluated : ((init .lp64 4096 (fun _ => 0) 64).any fun ring =>
      (execute step (State.initial ring) filled).any fun ran =>
        (∀ v ∈ ran.1, FreshLoads v.state v.label) ∧
          ∃ v ∈ ran.1, v.event = .pushReturned () .queueFull) = true := by
    decide +kernel
  obtain ⟨ring, made, rest⟩ := (Option.any_eq_true _ _).mp evaluated
  obtain ⟨⟨visits, s⟩, ran, checked⟩ := (Option.any_eq_true _ _).mp rest
  obtain ⟨fresh, full⟩ := of_decide_eq_true checked
  have run := executeRun ran fresh
  exact ⟨ring, visits, s, made, run, full, queueFullTruthful ⟨4096, fun _ => 0, 64, ring, made, rfl⟩ run⟩

/- Conversely a load of `read_pos` that finds it ahead always fails. -/
theorem staleLoadFails {s : State abi ι} (inv : Inv s) {p : ι} {push : Push abi} {writePos seen : Nat}
    (at_ : s.producers p = .loadRead push writePos seen) (ahead : seen < s.released)
    (lap : s.released + s.ring.capacity < seen + abi.modulus) (spurious : Bool) :
    producerStep s p spurious = some (s.setProducer p .idle, .pushReturned p .queueFull) := by
  have holds := inv.producers p
  rw [at_] at holds
  have behind := WrappingCounter.diffBehind (m := abi.modulus) ahead (by omega)
  have used : abi.sub writePos s.ring.readPos = abi.modulus - (s.released - seen) := by
    rw [holds.2.1, inv.readPos]
    exact behind
  have fails : planPush abi s.ring push.recordSize writePos s.ring.readPos = none := by
    unfold planPush
    dsimp only
    rw [used, if_pos (by omega)]
  simp only [producerStep, at_, fails]

/- Producer `true` loads `write_pos`, producer `false` pushes 8 bytes that the
consumer takes at once, then `true` loads `read_pos`. -/
def overtaken : List (Action .lp64 Bool) :=
  [Action.push true (some [.ofBytes (List.replicate 8 0) (by decide)]), Action.producer true false,
    Action.push false (some [.ofBytes (List.replicate 8 0) (by decide)])] ++ List.replicate 7 (Action.producer false false) ++
    Action.acquire :: List.replicate 3 Action.consumer ++ Action.release :: List.replicate 5 Action.consumer ++
    [Action.producer true false]

theorem overtakenSpuriouslyFull : ∃ (ring : Ring)
    (visits : List (Visit (State .lp64 Bool) (Action .lp64 Bool) (Event Bool))) (s : State .lp64 Bool),
    init .lp64 4096 (fun _ => 0) 64 = some ring ∧ Run step (fun _ _ => True) (State.initial ring) visits s ∧
      ¬ QueueFullTruthful visits := by
  have evaluated : ((init .lp64 4096 (fun _ => 0) 64).any fun ring =>
      (execute step (State.initial ring) overtaken).any fun ran =>
        match ran.1.reverse with
        | [] => false
        | v :: rest => v.event = .pushReturned true .queueFull ∧
            requested (callVisits true rest.reverse) = some 8 ∧
            ∀ u ∈ callVisits true rest.reverse ++ [v], full .lp64 u.state.ring 8 = false) = true := by
    decide +kernel
  obtain ⟨ring, made, rest⟩ := (Option.any_eq_true _ _).mp evaluated
  obtain ⟨⟨visits, s⟩, ran, checked⟩ := (Option.any_eq_true _ _).mp rest
  refine ⟨ring, visits, s, made, executeRun ran (fun _ _ => trivial), ?_⟩
  intro truthful
  dsimp only at checked
  cases backwards : visits.reverse with
  | nil => simp [backwards] at checked
  | cons v rest =>
    rw [backwards] at checked
    dsimp only at checked
    rw [decide_eq_true_eq] at checked
    obtain ⟨event, size, room⟩ := checked
    have forwards : visits = rest.reverse ++ v :: [] := by
      have back := congrArg List.reverse backwards
      rw [List.reverse_reverse, List.reverse_cons] at back
      exact back
    obtain ⟨recordSize, known, u, member, tooFull⟩ := truthful _ _ _ _ forwards event
    rw [size] at known
    cases known
    exact Bool.noConfusion (tooFull.symm.trans (room u member))

end Nanosig.MpscRecordRing
