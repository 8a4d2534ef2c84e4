import Nanosig.MpscRecordRing.Calls

/-! The largest record: what `try_pushv` rejects by size, that an empty ring takes every other
record at every write position, and that the meta words of its plan decode to it. -/
namespace Nanosig.MpscRecordRing
open TransitionSystem

variable {abi : Abi}

structure PlanDecodes (abi : Abi) (recordSize : Nat) (plan : PushPlan) : Prop where
  record : MetaDecodes abi (metaEncodeValid abi plan.recordTotalSize plan.paddingSize) plan.recordTotalSize plan.paddingSize false
  recordStride : 0 < plan.recordTotalSize ∧ abi.sizeofSizeT ∣ plan.recordTotalSize
  recordSize : plan.recordTotalSize - abi.sizeofSizeT - plan.paddingSize = recordSize ∧
    payloadSize abi (metaEncodeValid abi plan.recordTotalSize plan.paddingSize) = some recordSize
  fake : plan.fakeSize ≠ 0 → MetaDecodes abi (metaEncodeFake abi plan.fakeSize) plan.fakeSize 0 true
  fakeStride : abi.sizeofSizeT ∣ plan.fakeSize
  publishStride : abi.sizeofSizeT ∣ plan.publishSize

theorem sizeofPadMask (abi : Abi) : abi.sizeofSizeT ≤ Abi.metaPadMask := by
  cases abi <;> decide

theorem sizeofDvdModulus (abi : Abi) : abi.sizeofSizeT ∣ abi.modulus := by
  cases abi <;> decide

theorem Planned.decodes {capacity writeAt recordSize : Nat} {plan : PushPlan} (planned : Planned abi capacity writeAt recordSize plan)
    (g : Geometry abi capacity) (aligned : abi.sizeofSizeT ∣ writeAt) : PlanDecodes abi recordSize plan := by
  have stride := g.stride
  have half := planned.totalHalf
  have split := planned.split
  have word := sizeofSizeTPos abi
  have padding : plan.paddingSize ≤ Abi.metaPadMask := Nat.le_trans (Nat.le_of_lt planned.padding) (sizeofPadMask abi)
  have record : MetaDecodes abi (metaEncodeValid abi plan.recordTotalSize plan.paddingSize) plan.recordTotalSize plan.paddingSize false :=
    metaRoundTrip abi false (Nat.le_trans half stride) padding
  exact {
    record := record
    recordStride := ⟨by omega, planned.totalAligned⟩
    recordSize := ⟨by omega, payloadSizeRoundTrip record split⟩
    fake := fun fake => by
      refine metaRoundTrip abi true ?_ (Nat.zero_le _)
      rcases planned.fakeCases with none_ | ⟨-, -, less⟩
      · exact absurd none_ fake
      · omega
    fakeStride := planned.fakeAligned g aligned
    publishStride := (Nat.dvd_add_right aligned).mp (planned.publishAligned g aligned) }

/- A plan made from two `size_t` positions is one of the unbounded positions behind them. -/
theorem planPushUnbounded (ring : Ring) (recordSize : Nat) {writePos readPos : Nat} (write : writePos < abi.modulus) (read : readPos < abi.modulus) :
    ∃ writeAt, writePos = abi.wrap writeAt ∧ readPos ≤ writeAt ∧ writeAt = readPos + abi.sub writePos readPos ∧
      planPush abi ring recordSize writePos readPos = planPush abi ring recordSize (abi.wrap writeAt) (abi.wrap readPos) := by
  have used : abi.wrap (readPos + abi.sub writePos readPos) = writePos := by
    unfold Abi.wrap Abi.sub WrappingCounter.diff
    rw [Nat.add_mod_mod, show readPos + (writePos + (abi.modulus - readPos)) = writePos + abi.modulus by omega, Nat.add_mod_right,
      Nat.mod_eq_of_lt write]
  refine ⟨readPos + abi.sub writePos readPos, used.symm, Nat.le_add_right _ _, rfl, ?_⟩
  rw [used, Abi.wrap, Nat.mod_eq_of_lt read]

theorem planPushPlanned {ring : Ring} (g : Geometry abi ring.capacity) {recordSize writePos readPos : Nat} {plan : PushPlan}
    (size : recordSize ≤ ring.capacity / 2 - abi.sizeofSizeT) (write : writePos < abi.modulus) (read : readPos < abi.modulus)
    (aligned : abi.sizeofSizeT ∣ writePos) (made : planPush abi ring recordSize writePos readPos = some plan) :
    PlanDecodes abi recordSize plan := by
  obtain ⟨writeAt, wrapped, order, exact_, same⟩ := planPushUnbounded ring recordSize write read
  have window : abi.sub writePos readPos ≤ ring.capacity := by
    by_contra crowded
    simp only [planPush, gt_iff_lt, if_pos (Nat.lt_of_not_le crowded)] at made
    cases made
  have spec := planPushSpec g size order (by omega : writeAt ≤ readPos + ring.capacity)
  rw [same] at made
  rw [made] at spec
  refine spec.1.decodes g ?_
  rw [wrapped, Abi.wrap] at aligned
  exact (Nat.dvd_mod_iff (sizeofDvdModulus abi)).mp aligned

theorem planPushEmpty {ring : Ring} (g : Geometry abi ring.capacity) {recordSize pos : Nat}
    (size : recordSize ≤ ring.capacity / 2 - abi.sizeofSizeT) (small : pos < abi.modulus) :
    ∃ plan, planPush abi ring recordSize pos pos = some plan := by
  have spec := planPushSpec g size (le_refl pos) (Nat.le_add_right pos ring.capacity)
  rw [Abi.wrap, Nat.mod_eq_of_lt small] at spec
  cases made : planPush abi ring recordSize pos pos with
  | some plan => exact ⟨plan, rfl⟩
  | none =>
    rw [made] at spec
    have three := g.threeHeaders
    have small : recordSize + 2 * abi.sizeofSizeT ≤ abi.sizeMax := by
      have lap := g.ltModulus
      unfold Abi.sizeMax
      omega
    obtain ⟨padding, -, aligned, split⟩ := recordTotalSpec small
    have half := recordTotalHalf g size
    unfold tailPadding at spec
    dsimp only at spec
    split at spec <;> omega

theorem maxRecordSizeExact {ring : Ring} (valid : ring.isValid abi = true) (g : Geometry abi ring.capacity) :
    ring.maxRecordSize abi = ring.capacity / 2 - abi.sizeofSizeT := by
  have header : alignUp abi abi.sizeofSizeT = abi.sizeofSizeT := by cases abi <;> decide
  have three := g.threeHeaders
  have word := sizeofSizeTPos abi
  simp only [Ring.maxRecordSize, valid, Bool.not_true, Bool.false_eq_true, if_false, header]
  rw [if_neg (by omega)]

section Checks

variable {parts : List (Part abi)}

structure WellFormed (parts : List (Part abi)) : Prop where
  readable : ∀ part ∈ parts, part.data = none → part.size = 0
  fits : (parts.map Part.size).sum < abi.modulus

theorem sumPartsWellFormed {start : Nat} (readable : ∀ part ∈ parts, part.data = none → part.size = 0)
    (fits : start + (parts.map Part.size).sum < abi.modulus) : sumParts abi start parts = some (start + (parts.map Part.size).sum) := by
  induction parts generalizing start with
  | nil => rfl
  | cons part rest ih =>
    rw [List.map_cons, List.sum_cons] at fits ⊢
    have proper : ¬ (part.data.isNone = true ∧ part.size ≠ 0) := fun ⟨null, sized⟩ =>
      sized (readable part List.mem_cons_self (Option.isNone_iff_eq_none.mp null))
    have next : abi.wrap (start + part.size) = start + part.size := Nat.mod_eq_of_lt (by omega)
    rw [sumParts, if_neg proper]
    simp only [next]
    rw [if_neg (by omega), ih (fun part inside => readable part (List.mem_cons_of_mem _ inside)) (by omega), Nat.add_assoc]

/- The size check of `try_pushv`. -/
theorem tryPushvChecksSize {ring : Ring} (valid : ring.isValid abi = true) (formed : WellFormed parts) :
    tryPushvChecks abi ring (some parts) =
      if ring.maxRecordSize abi < (parts.map Part.size).sum then none
      else some (if parts.isEmpty then [Part.null abi] else parts, (parts.map Part.size).sum) := by
  have sum : sumParts abi 0 (if parts.isEmpty then [Part.null abi] else parts) = some (parts.map Part.size).sum := by
    split
    · rename_i empty
      obtain rfl := List.isEmpty_iff.mp empty
      rfl
    · rw [sumPartsWellFormed formed.readable (by simpa using formed.fits), Nat.zero_add]
  simp only [tryPushvChecks, valid, Bool.not_true, Bool.false_eq_true, if_false, sum, gt_iff_lt]

end Checks

section States

variable {ι : Type} [DecidableEq ι] {s s' : State abi ι} {p : ι}

def PcAligned (abi : Abi) (most : Nat) : ProducerPc abi ι → Prop
  | .idle => True
  | .loadWrite push => push.recordSize ≤ most
  | .loadRead push writePos _ => push.recordSize ≤ most ∧ writePos < abi.modulus ∧ abi.sizeofSizeT ∣ writePos
  | .casReserve push writePos plan _ _ =>
      push.recordSize ≤ most ∧ writePos < abi.modulus ∧ abi.sizeofSizeT ∣ writePos ∧ PlanDecodes abi push.recordSize plan
  | .writing _ r => abi.sizeofSizeT ∣ r.reservePos ∧ PlanDecodes abi r.push.recordSize r.plan

structure OnSlots (s : State abi ι) : Prop where
  valid : s.ring.isValid abi = true
  write : s.ring.writePos < abi.modulus ∧ abi.sizeofSizeT ∣ s.ring.writePos
  read : s.ring.readPos < abi.modulus
  producers : ∀ p, PcAligned abi (s.ring.capacity / 2 - abi.sizeofSizeT) (s.producers p)

omit [DecidableEq ι] in
theorem OnSlots.geometry (inv : OnSlots s) : Geometry abi s.ring.capacity :=
  capacityIsValidGeometry ((Bool.and_eq_true _ _).mp inv.valid).2

theorem OnSlots.setProducer (inv : OnSlots s) {ring : Ring} {pc : ProducerPc abi ι} {t : State abi ι} (ringT : t.ring = ring)
    (producers : t.producers = s.producers) (storage : ring.storage = s.ring.storage) (capacity : ring.capacity = s.ring.capacity)
    (write : ring.writePos < abi.modulus ∧ abi.sizeofSizeT ∣ ring.writePos) (read : ring.readPos = s.ring.readPos)
    (aligned : PcAligned abi (s.ring.capacity / 2 - abi.sizeofSizeT) pc) : OnSlots (t.setProducer p pc) where
  valid := by
    change t.ring.isValid abi = true
    rw [ringT]
    unfold Ring.isValid
    rw [storage, capacity]
    exact inv.valid
  write := by
    change t.ring.writePos < _ ∧ _ ∣ t.ring.writePos
    rw [ringT]
    exact write
  read := by
    change t.ring.readPos < _
    rw [ringT, read]
    exact inv.read
  producers := fun q => by
    change PcAligned abi (t.ring.capacity / 2 - abi.sizeofSizeT) (Function.update t.producers p pc q)
    rw [ringT, capacity, producers]
    by_cases same : q = p
    · rw [same, Function.update_self]
      exact aligned
    · rw [Function.update_of_ne same]
      exact inv.producers q

theorem onSlotsProducer (inv : OnSlots s) {spurious : Bool} {e : Event ι} (taken : producerStep s p spurious = some (s', e)) : OnSlots s' := by
  have holds := inv.producers p
  have g := inv.geometry
  unfold producerStep at taken
  cases pc : s.producers p with
  | idle => simp [pc] at taken
  | loadWrite push =>
    rw [pc] at taken holds
    cases taken
    exact inv.setProducer rfl rfl rfl rfl inv.write rfl ⟨holds, inv.write⟩
  | loadRead push writePos seen =>
    rw [pc] at taken holds
    obtain ⟨size, small, aligned⟩ := holds
    dsimp only at taken
    cases planned : planPush abi s.ring push.recordSize writePos s.ring.readPos with
    | none =>
      rw [planned] at taken
      cases taken
      exact inv.setProducer rfl rfl rfl rfl inv.write rfl trivial
    | some plan =>
      rw [planned] at taken
      cases taken
      have decodes := planPushPlanned g size small inv.read aligned planned
      exact inv.setProducer rfl rfl rfl rfl inv.write rfl ⟨size, small, aligned, decodes⟩
  | casReserve push writePos plan seen seenReleased =>
    rw [pc] at taken holds
    obtain ⟨size, small, aligned, decodes⟩ := holds
    dsimp only at taken
    split at taken
    · cases taken
      exact inv.setProducer rfl rfl rfl rfl inv.write rfl ⟨aligned, decodes⟩
    · cases taken
      exact inv.setProducer rfl rfl rfl rfl inv.write rfl size
  | writing stage r =>
    rw [pc] at taken holds
    obtain ⟨aligned, decodes⟩ := holds
    cases stage with
    | storeFake =>
      cases taken
      exact inv.setProducer rfl rfl rfl rfl inv.write rfl ⟨aligned, decodes⟩
    | markUncommitted =>
      cases taken
      exact inv.setProducer rfl rfl rfl rfl inv.write rfl ⟨aligned, decodes⟩
    | publish =>
      cases taken
      have onward : abi.wrap (r.reservePos + r.plan.publishSize) < abi.modulus ∧
          abi.sizeofSizeT ∣ abi.wrap (r.reservePos + r.plan.publishSize) :=
        ⟨Nat.mod_lt _ abi.modulusPos, (Nat.dvd_mod_iff (sizeofDvdModulus abi)).mpr (Nat.dvd_add aligned decodes.publishStride)⟩
      exact inv.setProducer rfl rfl rfl rfl onward rfl ⟨aligned, decodes⟩
    | copy written rest =>
      cases rest with
      | nil =>
        cases taken
        exact inv.setProducer rfl rfl rfl rfl inv.write rfl trivial
      | cons part rest =>
        by_cases some_ : part.size ≠ 0
        · simp only [writeStep, if_pos some_] at taken
          cases taken
          exact inv.setProducer rfl rfl rfl rfl inv.write rfl ⟨aligned, decodes⟩
        · simp only [writeStep, if_neg some_] at taken
          cases taken
          exact inv.setProducer rfl rfl rfl rfl inv.write rfl ⟨aligned, decodes⟩

theorem onSlotsPush (inv : OnSlots s) {given : Option (List (Part abi))} {e : Event ι} (taken : pushStep s p given = some (s', e)) :
    OnSlots s' := by
  unfold pushStep at taken
  cases pc : s.producers p with
  | idle =>
    rw [pc] at taken
    dsimp only at taken
    cases checked : tryPushvChecks abi s.ring given with
    | none =>
      rw [checked] at taken
      cases taken
      exact inv
    | some pair =>
      rw [checked] at taken
      cases taken
      exact inv.setProducer rfl rfl rfl rfl inv.write rfl (tryPushvChecksValid inv.geometry checked).fits
  | _ => simp [pc] at taken

omit [DecidableEq ι] in
theorem consumerStepPositions {e : Event ι} (taken : consumerStep s = some (s', e)) :
    s'.ring.writePos = s.ring.writePos ∧
      (s'.ring.readPos = s.ring.readPos ∨ ∃ pos, s'.ring.readPos = abi.wrap pos) := by
  have same : ∀ {t : State abi ι}, t.ring.writePos = s.ring.writePos → t.ring.readPos = s.ring.readPos → t = s' →
      s'.ring.writePos = s.ring.writePos ∧ (s'.ring.readPos = s.ring.readPos ∨ ∃ pos, s'.ring.readPos = abi.wrap pos) := by
    rintro t write read rfl
    exact ⟨write, Or.inl read⟩
  unfold consumerStep at taken
  cases pc : s.consumer with
  | idle => simp [pc] at taken
  | acquireLoadRead =>
    rw [pc] at taken
    cases taken
    exact ⟨rfl, Or.inl rfl⟩
  | acquireLoadWrite readPos =>
    rw [pc] at taken
    dsimp only at taken
    split at taken
    · cases taken
      exact ⟨rfl, Or.inl rfl⟩
    · split at taken <;> cases taken <;> exact ⟨rfl, Or.inl rfl⟩
  | acquireLoadMeta readPos used =>
    rw [pc] at taken
    refine same ?_ ?_ (congrArg Prod.fst (Option.some.inj taken)) <;> unfold acquireMetaStep <;> dsimp only <;>
      (repeat' split) <;> rfl
  | acquireClearFake header readPos stride =>
    rw [pc] at taken
    cases taken
    exact ⟨rfl, Or.inl rfl⟩
  | acquireStoreRead readPos stride =>
    rw [pc] at taken
    cases taken
    exact ⟨rfl, Or.inr ⟨_, rfl⟩⟩
  | releaseLoadRead record =>
    rw [pc] at taken
    cases taken
    exact ⟨rfl, Or.inl rfl⟩
  | releaseLoadWrite record readPos =>
    rw [pc] at taken
    dsimp only at taken
    split at taken
    · cases taken
      exact ⟨rfl, Or.inl rfl⟩
    · split at taken
      · cases taken
        exact ⟨rfl, Or.inl rfl⟩
      · split at taken <;> cases taken <;> exact ⟨rfl, Or.inl rfl⟩
  | releaseLoadMeta header readPos used =>
    rw [pc] at taken
    refine same ?_ ?_ (congrArg Prod.fst (Option.some.inj taken)) <;> unfold releaseMetaStep <;> dsimp only <;>
      (repeat' split) <;> rfl
  | releaseClear header readPos stride =>
    rw [pc] at taken
    cases taken
    exact ⟨rfl, Or.inl rfl⟩
  | releaseStoreRead readPos stride =>
    rw [pc] at taken
    cases taken
    exact ⟨rfl, Or.inr ⟨_, rfl⟩⟩

omit [DecidableEq ι] in
theorem onSlotsConsumer (inv : OnSlots s) {e : Event ι} (taken : consumerStep s = some (s', e)) : OnSlots s' := by
  obtain ⟨write, read⟩ := consumerStepPositions taken
  have same := (consumerStepEffect taken).1
  refine ⟨?_, by rw [write]; exact inv.write, ?_, fun p => by rw [same.capacity, same.producers]; exact inv.producers p⟩
  · unfold Ring.isValid
    rw [same.storage, same.capacity]
    exact inv.valid
  · rcases read with read | ⟨pos, read⟩ <;> rw [read]
    · exact inv.read
    · exact Nat.mod_lt _ abi.modulusPos

theorem onSlotsStep (inv : OnSlots s) {a : Action abi ι} {e : Event ι} (taken : step s a = some (s', e)) : OnSlots s' := by
  cases a with
  | push p given => exact onSlotsPush inv taken
  | producer p spurious => exact onSlotsProducer inv taken
  | consumer => exact onSlotsConsumer inv taken
  | acquire =>
    have ring : s'.ring = s.ring ∧ s'.producers = s.producers := by
      simp only [step, acquireStep] at taken
      split at taken
      · cases taken
      · split at taken <;> cases taken <;> exact ⟨rfl, rfl⟩
    obtain ⟨ring, producers⟩ := ring
    exact ⟨ring ▸ inv.valid, ring ▸ inv.write, ring ▸ inv.read, by rw [ring, producers]; exact inv.producers⟩
  | release =>
    have ring : s'.ring = s.ring ∧ s'.producers = s.producers := by
      simp only [step, releaseStep] at taken
      split at taken
      · cases taken
      · split at taken
        · cases taken
        · split at taken <;> cases taken <;> exact ⟨rfl, rfl⟩
    obtain ⟨ring, producers⟩ := ring
    exact ⟨ring ▸ inv.valid, ring ▸ inv.write, ring ▸ inv.read, by rw [ring, producers]; exact inv.producers⟩

theorem reachableOnSlots (reach : Reachable s) : OnSlots s :=
  reach.invariant
    (fun first starts => by
      have inv := startsInv first starts
      obtain ⟨storage, bytes, capacity, ring, ok, rfl⟩ := starts
      refine ⟨inv.valid, ?_, ?_, fun _ => trivial⟩
      · rw [inv.writePos]
        exact ⟨Nat.mod_lt _ abi.modulusPos, by
          change _ ∣ abi.wrap 0
          rw [Abi.wrap, Nat.zero_mod]
          exact Nat.dvd_zero _⟩
      · rw [inv.readPos]
        exact Nat.mod_lt _ abi.modulusPos)
    fun _ _ _ _ inv _ taken => onSlotsStep inv taken

/- An uninterrupted push that finds a plan and whose CAS meets its `write_pos` is accepted. -/
theorem plannedReturns {push : Push abi} {plan : PushPlan} {fuel : Nat} (at_ : s.producers p = .loadWrite push)
    (reserve : s.ring.reservePos = s.ring.writePos)
    (planned : planPush abi s.ring push.recordSize s.ring.writePos s.ring.readPos = some plan)
    (enough : push.parts.length + 7 ≤ fuel) : ∃ s', finishPush p fuel s = some (s', .ok) := by
  obtain ⟨more, rfl⟩ : ∃ more, fuel = more + 3 := ⟨fuel - 3, by omega⟩
  obtain ⟨s₂, -, -, -, -, -, onward⟩ := reserveUninterrupted at_ reserve planned more
  have at₃ : (s₂.reserve p push s.ring.writePos plan).producers p = .writing _ _ := Function.update_self ..
  rw [onward]
  -- nothing has to be kept: the producer returns `NS_OK` whatever the ring holds
  obtain ⟨s', ok, -, -⟩ := writingKeeps (P := fun _ => True) (fun _ _ _ _ => trivial) trivial at₃
    (by split <;> simp only [WriteStage.remaining] <;> omega : WriteStage.remaining _ _ ≤ more)
  exact ⟨s', ok⟩

structure EmptyRing (ring : Ring) : Prop where
  reserve : ring.reservePos = ring.writePos
  read : ring.readPos = ring.writePos

theorem emptyRingAccepts (inv : OnSlots s) (idle : s.producers p = .idle) (empty : EmptyRing s.ring) {parts : List (Part abi)}
    (formed : WellFormed parts) (size : (parts.map Part.size).sum ≤ s.ring.maxRecordSize abi) :
    ∃ s', pushCall s p (some parts) = some (s', .ok) := by
  have checked := tryPushvChecksSize inv.valid formed
  rw [if_neg (by omega)] at checked
  have fits : (parts.map Part.size).sum ≤ s.ring.capacity / 2 - abi.sizeofSizeT := by
    rw [← maxRecordSizeExact inv.valid inv.geometry]
    exact size
  obtain ⟨plan, planned⟩ := planPushEmpty inv.geometry fits inv.write.1
  unfold pushCall pushStep
  simp only [idle, checked, Option.bind_some, Event.pushResult]
  have here : planPush abi s.ring (parts.map Part.size).sum s.ring.writePos s.ring.readPos = some plan := by
    rw [empty.read]
    exact planned
  refine plannedReturns (Function.update_self ..) empty.reserve here ?_
  unfold pushFuel
  simp only [Option.getD_some]
  split <;> simp

theorem pushStepRejects (valid : s.ring.isValid abi = true) (idle : s.producers p = .idle) {parts : List (Part abi)}
    (formed : WellFormed parts) :
    pushStep s p (some parts) = some (s, .pushReturned p .inval) ↔ s.ring.maxRecordSize abi < (parts.map Part.size).sum := by
  have checked := tryPushvChecksSize valid formed
  unfold pushStep
  rw [idle, checked]
  by_cases large : s.ring.maxRecordSize abi < (parts.map Part.size).sum
  · simp [large]
  · simp [large]

/- Past its checks no push returns `NS_E_INVAL`. -/
theorem producerStepReturns {spurious : Bool} {q : ι} {rc : Status} (taken : producerStep s p spurious = some (s', .pushReturned q rc)) :
    rc = .ok ∨ rc = .queueFull := by
  unfold producerStep at taken
  cases pc : s.producers p with
  | idle => simp [pc] at taken
  | loadWrite push => simp [pc] at taken
  | loadRead push writePos seen =>
    rw [pc] at taken
    dsimp only at taken
    split at taken <;> cases taken
    exact Or.inr rfl
  | casReserve push writePos plan seen seenReleased =>
    rw [pc] at taken
    dsimp only at taken
    split at taken <;> cases taken
  | writing stage r =>
    rw [pc] at taken
    cases stage with
    | copy written rest =>
      cases rest with
      | nil =>
        cases taken
        exact Or.inl rfl
      | cons part rest => cases taken
    | _ => cases taken

structure SizesDecided (s : State abi ι) : Prop where
  exactMax : s.ring.maxRecordSize abi = s.ring.capacity / 2 - abi.sizeofSizeT
  rejects : ∀ p parts, s.producers p = .idle → WellFormed parts →
    (pushStep s p (some parts) = some (s, .pushReturned p .inval) ↔ s.ring.maxRecordSize abi < (parts.map Part.size).sum)
  onlyBySize : ∀ p spurious s' q rc, producerStep s p spurious = some (s', .pushReturned q rc) → rc ≠ .inval
  accepts : EmptyRing s.ring → ∀ p parts, s.producers p = .idle → WellFormed parts →
    (parts.map Part.size).sum ≤ s.ring.maxRecordSize abi → ∃ s', pushCall s p (some parts) = some (s', .ok)

/- What the plans of a ring encode: those a producer makes from the `write_pos` it
loaded, those it is storing, and those made from any two positions. -/
structure PlansDecode (s : State abi ι) : Prop where
  made : ∀ p push writePos seen plan, s.producers p = .loadRead push writePos seen →
    planPush abi s.ring push.recordSize writePos s.ring.readPos = some plan → PlanDecodes abi push.recordSize plan
  stored : ∀ p stage r, s.producers p = .writing stage r → PlanDecodes abi r.push.recordSize r.plan
  anywhere : ∀ recordSize writePos readPos plan, recordSize ≤ s.ring.maxRecordSize abi → writePos < abi.modulus → readPos < abi.modulus →
    abi.sizeofSizeT ∣ writePos → planPush abi s.ring recordSize writePos readPos = some plan → PlanDecodes abi recordSize plan
  emptyPlans : ∀ recordSize writePos, recordSize ≤ s.ring.maxRecordSize abi → writePos < abi.modulus →
    ∃ plan, planPush abi s.ring recordSize writePos writePos = some plan

end States

variable {ι : Type} [DecidableEq ι]

/- The size check, the half-capacity limit, the tail padding and the meta word fit
together in every state that any number of producers and the consumer can reach. -/
theorem largestRecord {s : State abi ι} (reach : Reachable s) : SizesDecided s ∧ PlansDecode s := by
  have inv := reachableOnSlots reach
  have most := maxRecordSizeExact inv.valid inv.geometry
  constructor
  · exact {
      exactMax := most
      rejects := fun p parts idle formed => pushStepRejects inv.valid idle formed
      onlyBySize := fun p spurious s' q rc taken => by
        rcases producerStepReturns taken with rfl | rfl <;> exact Status.noConfusion
      accepts := fun empty p parts idle formed size => emptyRingAccepts inv idle empty formed size }
  · exact {
      made := fun p push writePos seen plan pc planned => by
        have holds := inv.producers p
        rw [pc] at holds
        exact planPushPlanned inv.geometry holds.1 holds.2.1 inv.read holds.2.2 planned
      stored := fun p stage r pc => by
        have holds := inv.producers p
        rw [pc] at holds
        exact holds.2
      anywhere := fun recordSize writePos readPos plan size write read aligned planned =>
        planPushPlanned inv.geometry (by rw [← most]; exact size) write read aligned planned
      emptyPlans := fun recordSize writePos size write => planPushEmpty inv.geometry (by rw [← most]; exact size) write }

theorem largestRecordMidPush : ∃ s : State .ilp32 Unit,
    (∃ stage r, s.producers () = .writing stage r ∧ s.ring.capacity = 16) ∧ SizesDecided s ∧ PlansDecode s := by
  have evaluated : ((init .ilp32 4096 (fun _ => 0) 16).any fun ring =>
      (execute step (State.initial ring : State .ilp32 Unit) (.push () (some [.ofBytes [1, 2, 3] (by decide)]) ::
        List.replicate 4 (.producer () false))).any fun ran =>
        (∀ v ∈ ran.1, True) ∧
          (ran.2.producers ()).isWriting = true ∧ ran.2.ring.capacity = 16) = true := by
    decide +kernel
  obtain ⟨ring, made, rest⟩ := (Option.any_eq_true _ _).mp evaluated
  obtain ⟨⟨visits, s⟩, ran, checked⟩ := (Option.any_eq_true _ _).mp rest
  obtain ⟨every, middle, sixteen⟩ := of_decide_eq_true checked
  have reach : Reachable s := (executeRun ran every).reachable (.start ⟨4096, fun _ => 0, 16, ring, made, rfl⟩)
  refine ⟨s, ?_, largestRecord reach⟩
  obtain ⟨stage, r, at_⟩ := isWritingIff.mp middle
  exact ⟨stage, r, at_, sixteen⟩

end Nanosig.MpscRecordRing
