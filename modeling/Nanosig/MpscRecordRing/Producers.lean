import Nanosig.MpscRecordRing.Invariant

/-! Every step of a producer keeps the ring invariant. The CAS is the only step
that needs the lap assumption: it turns equal counters into equal positions. -/
namespace Nanosig.MpscRecordRing
open ByteStore Segments

variable {abi : Abi} {ι : Type}

/-! Arguments. -/

theorem sumPartsExact {parts : List (Part abi)} {start total : Nat} (fits : start < abi.modulus)
    (ok : sumParts abi start parts = some total) :
    start + (payload parts).length = total ∧ ∀ part ∈ parts, part.copied.length = part.size := by
  induction parts generalizing start with
  | nil =>
    cases Option.some.inj ok
    exact ⟨rfl, by simp⟩
  | cons part rest ih =>
    unfold sumParts at ok
    split at ok
    · contradiction
    · rename_i proper
      dsimp only at ok
      split at ok
      · contradiction
      · rename_i noOverflow
        have own : part.copied.length = part.size := by
          unfold Part.copied
          cases data : part.data with
          | none =>
            simp only [data, Option.isNone_none, true_and, not_not] at proper
            simp [proper]
          | some raw => exact part.readable raw data
        have size := part.sizeFits
        have exact_ : abi.wrap (start + part.size) = start + part.size := by
          unfold Abi.wrap at *
          by_contra wrapped
          have big : abi.modulus ≤ start + part.size := by
            by_contra small
            exact wrapped (Nat.mod_eq_of_lt (by omega))
          rw [Nat.mod_eq_sub_mod big, Nat.mod_eq_of_lt (by omega)] at noOverflow
          omega
        rw [exact_] at ok noOverflow
        have next : start + part.size < abi.modulus := by
          rw [← exact_]
          exact Nat.mod_lt _ abi.modulusPos
        obtain ⟨sum, all⟩ := ih next ok
        refine ⟨?_, ?_⟩
        · simp only [payload, List.flatMap_cons, List.length_append] at sum ⊢
          omega
        · intro p member
          rcases List.mem_cons.mp member with rfl | tail
          · exact own
          · exact all p tail

theorem maxRecordSizeSpec {ring : Ring} (g : Geometry abi ring.capacity) :
    ring.maxRecordSize abi ≤ ring.capacity / 2 - abi.sizeofSizeT := by
  have word : alignUp abi abi.sizeofSizeT = abi.sizeofSizeT := by
    cases abi <;> rfl
  unfold Ring.maxRecordSize
  split
  · omega
  · dsimp only
    rw [word]
    split <;> omega

theorem tryPushvChecksValid {ring : Ring} (g : Geometry abi ring.capacity)
    {given : Option (List (Part abi))} {parts : List (Part abi)} {recordSize : Nat}
    (ok : tryPushvChecks abi ring given = some (parts, recordSize)) :
    Push.Valid ring.capacity ⟨parts, recordSize⟩ := by
  unfold tryPushvChecks at ok
  cases given with
  | none => contradiction
  | some list =>
    dsimp only at ok
    split at ok
    · contradiction
    · split at ok
      · contradiction
      · rename_i total sum
        split at ok
        · contradiction
        · rename_i fits
          cases Option.some.inj ok
          obtain ⟨length, all⟩ := sumPartsExact abi.modulusPos sum
          have bound := maxRecordSizeSpec g
          exact ⟨by dsimp only; omega, by dsimp only; omega, all⟩

/-! Facts about one party that another party's step leaves alone. -/

theorem PcHolds.mono {s s' : State abi ι} {p : ι} {pc : ProducerPc abi ι}
    (holds : PcHolds s p pc) (capacity : s'.ring.capacity = s.ring.capacity)
    (published : s.published ≤ s'.published) (released : s.released ≤ s'.released)
    (kept : ∀ stage r, pc = .writing stage r → r ∈ s.window → r ∈ s'.window)
    (span : ∀ stage r, pc = .writing stage r → stage.Unpublished →
      s'.published = s.published ∧ s'.reserved = s.reserved) : PcHolds s' p pc := by
  cases pc with
  | idle => trivial
  | loadWrite push =>
    unfold PcHolds at *
    rw [capacity]
    exact holds
  | loadRead push writePos seen =>
    obtain ⟨valid, wrapped, behind, room, aligned⟩ := holds
    refine ⟨?_, wrapped, by omega, by omega, aligned⟩
    rw [capacity]
    exact valid
  | casReserve push writePos plan seen seenReleased =>
    obtain ⟨valid, wrapped, behind, aligned, before, planned⟩ := holds
    unfold PcHolds
    rw [capacity]
    exact ⟨valid, wrapped, by omega, aligned, by omega, planned⟩
  | writing stage r =>
    obtain ⟨member, mine, ends, shape⟩ := holds
    refine ⟨kept stage r rfl member, mine, ?_, shape⟩
    intro unpublished
    obtain ⟨samePublished, sameReserved⟩ := span stage r rfl unpublished
    rw [samePublished, sameReserved]
    exact ends unpublished

theorem ConsumerHolds.mono {s s' : State abi ι} (holds : ConsumerHolds s)
    (consumer : s'.consumer = s.consumer) (held : s'.held = s.held)
    (storage : s'.ring.storage = s.ring.storage) (capacity : s'.ring.capacity = s.ring.capacity)
    (released : s'.released = s.released) (published : s.published ≤ s'.published)
    (window : ∀ r rest, s.window = r :: rest → ∃ rest', s'.window = r :: rest')
    (committed : ∀ r rest, s.window = r :: rest → s.progress r = r.committed →
      s'.progress r = r.committed) : ConsumerHolds s' := by
  have borrowed : ∀ loan, Borrowed s loan → Borrowed s' loan := by
    rintro loan ⟨r, rest, front, place, before, done, record, size, bytes⟩
    obtain ⟨rest', front'⟩ := window r rest front
    refine ⟨r, rest', front', by rw [released, place], by omega, committed r rest front done, ?_, size, bytes⟩
    rw [storage, capacity, record]
  have seen : ∀ used, Seen s used → Seen s' used := by
    rintro used ⟨r, rest, front, inside, before⟩
    obtain ⟨rest', front'⟩ := window r rest front
    exact ⟨r, rest', front', by rw [released]; exact inside, by rw [released]; omega⟩
  have onFake : ∀ stride, OnFake s stride → OnFake s' stride := by
    rintro stride ⟨r, rest, front, place, fake, same, before⟩
    obtain ⟨rest', front'⟩ := window r rest front
    exact ⟨r, rest', front', by rw [released, place], fake, same, by omega⟩
  have front : ∀ stride, (∃ loan, Borrowed s loan) →
      (∀ r ∈ s.window.head?, stride = r.plan.recordTotalSize) →
      ∀ r ∈ s'.window.head?, stride = r.plan.recordTotalSize := by
    rintro stride ⟨loan, r, rest, at_, _⟩ same x member
    obtain ⟨rest', at'⟩ := window r rest at_
    rw [at'] at member
    rw [at_] at same
    exact same x member
  unfold ConsumerHolds at *
  rw [consumer]
  cases pc : s.consumer with
  | idle =>
    rw [pc] at holds
    intro loan here
    exact borrowed loan (holds loan (by rw [← held]; exact here))
  | acquireLoadRead =>
    rw [pc] at holds
    exact held.trans holds
  | acquireLoadWrite readPos =>
    rw [pc] at holds
    exact ⟨held.trans holds.1, by rw [released]; exact holds.2⟩
  | acquireLoadMeta readPos used =>
    rw [pc] at holds
    exact ⟨held.trans holds.1, by rw [released]; exact holds.2.1, seen used holds.2.2⟩
  | acquireClearFake header readPos stride =>
    rw [pc] at holds
    obtain ⟨none_, pos, place, fake⟩ := holds
    exact ⟨held.trans none_, by rw [released]; exact pos, by rw [released, capacity]; exact place,
      onFake stride fake⟩
  | acquireStoreRead readPos stride =>
    rw [pc] at holds
    exact ⟨held.trans holds.1, by rw [released]; exact holds.2.1, onFake stride holds.2.2⟩
  | releaseLoadRead record =>
    rw [pc] at holds
    obtain ⟨loan, here, lent, same⟩ := holds
    exact ⟨loan, held.trans here, borrowed loan lent, same⟩
  | releaseLoadWrite record readPos =>
    rw [pc] at holds
    obtain ⟨loan, here, lent, same, pos⟩ := holds
    exact ⟨loan, held.trans here, borrowed loan lent, same, by rw [released]; exact pos⟩
  | releaseLoadMeta header readPos used =>
    rw [pc] at holds
    obtain ⟨loan, here, lent, pos, place, look⟩ := holds
    exact ⟨loan, held.trans here, borrowed loan lent, by rw [released]; exact pos,
      by rw [released, capacity]; exact place, seen used look⟩
  | releaseClear header readPos stride =>
    rw [pc] at holds
    obtain ⟨loan, here, lent, pos, place, total⟩ := holds
    exact ⟨loan, held.trans here, borrowed loan lent, by rw [released]; exact pos,
      by rw [released, capacity]; exact place, front stride ⟨loan, lent⟩ total⟩
  | releaseStoreRead readPos stride =>
    rw [pc] at holds
    obtain ⟨loan, here, lent, pos, total⟩ := holds
    exact ⟨loan, held.trans here, borrowed loan lent, by rw [released]; exact pos,
      front stride ⟨loan, lent⟩ total⟩

def ProducerPc.Quiet : ProducerPc abi ι → Prop
  | .writing _ _ => False
  | _ => True

theorem quietProgress {pc : ProducerPc abi ι} (quiet : pc.Quiet) (r : Reservation abi ι) :
    pc.progress r = r.committed := by
  cases pc with
  | writing stage held => exact quiet.elim
  | _ => rfl

theorem Inv.allPublished {s : State abi ι} (inv : Inv s) (quiet : ∀ q, (s.producers q).Quiet) :
    s.published = s.reserved := by
  rcases inv.newest with all | ⟨q, stage, r, at_, _⟩
  · exact all
  · have := quiet q
    rw [at_] at this
    exact this.elim

variable [DecidableEq ι]

namespace Inv

variable {s : State abi ι} (inv : Inv s)
include inv

theorem setQuiet {p : ι} {pc : ProducerPc abi ι} (before : (s.producers p).Quiet) (after : pc.Quiet)
    (holds : PcHolds s p pc) : Inv (s.setProducer p pc) := by
  have progress : ∀ r, (s.setProducer p pc).progress r = s.progress r := by
    intro r
    unfold State.progress State.setProducer
    dsimp only
    by_cases mine : r.producer = p
    · subst mine
      rw [Function.update_self, quietProgress after, quietProgress before]
    · rw [Function.update_of_ne mine]
  refine { inv with producers := ?_, newest := ?_, stored := ?_, consumer := ?_ }
  · intro q
    have same : PcHolds s q ((s.setProducer p pc).producers q) := by
      unfold State.setProducer
      dsimp only
      by_cases mine : q = p
      · subst mine
        rw [Function.update_self]
        exact holds
      · rw [Function.update_of_ne mine]
        exact inv.producers q
    exact same.mono rfl (Nat.le_refl _) (Nat.le_refl _) (fun _ _ _ h => h) (fun _ _ _ _ => ⟨rfl, rfl⟩)
  · rcases inv.newest with all | ⟨q, stage, r, at_, unpublished⟩
    · exact Or.inl all
    · refine Or.inr ⟨q, stage, r, ?_, unpublished⟩
      have other : q ≠ p := by
        rintro rfl
        rw [at_] at before
        exact before
      unfold State.setProducer
      dsimp only
      rw [Function.update_of_ne other, at_]
  · intro r member
    rw [progress]
    exact inv.stored r member
  · exact inv.consumer.mono rfl rfl rfl rfl rfl (Nat.le_refl _) (fun r rest h => ⟨rest, h⟩)
      (fun r _ _ committed => by rw [progress]; exact committed)

theorem progressOther {p : ι} {stage : WriteStage abi} {r : Reservation abi ι}
    (at_ : s.producers p = .writing stage r) {pc : ProducerPc abi ι}
    (own : pc = .idle ∨ ∃ stage', pc = .writing stage' r) {r' : Reservation abi ι}
    (member : r' ∈ s.window) (different : r' ≠ r) :
    (Function.update s.producers p pc r'.producer).progress r' = s.progress r' := by
  unfold State.progress
  by_cases mine : r'.producer = p
  · have apart : r.start ≠ r'.start := fun same =>
      different (inv.sameStart member (inv.writing at_).1 same.symm)
    rw [mine, Function.update_self, at_]
    rcases own with rfl | ⟨stage', rfl⟩
    · exact (if_neg apart).symm
    · exact (if_neg apart).trans (if_neg apart).symm
  · rw [Function.update_of_ne mine]

/- A store a writing producer makes into its own reservation, `m` being storage after it. -/
theorem store {p : ι} {stage : WriteStage abi} {r : Reservation abi ι}
    (at_ : s.producers p = .writing stage r) {m : Store} {pc : ProducerPc abi ι}
    (own : pc = .idle ∨ ∃ stage', pc = .writing stage' r)
    (still : stage.Unpublished → ∃ stage', pc = .writing stage' r ∧ stage'.Unpublished)
    (frame : ∀ r' ∈ s.window, r' ≠ r →
      Holds abi s.ring.capacity m s.released s.cleared r' (s.progress r'))
    (written : Holds abi s.ring.capacity m s.released s.cleared r (pc.progress r))
    (holds : PcHolds s p pc) :
    Inv ({ s with ring := { s.ring with bytes := m } }.setProducer p pc) := by
  obtain ⟨member, mine, span⟩ := inv.writing at_
  refine { inv with producers := ?_, newest := ?_, stored := ?_, consumer := ?_ }
  · intro q
    have same : PcHolds s q (Function.update s.producers p pc q) := by
      by_cases here : q = p
      · subst here
        rw [Function.update_self]
        exact holds
      · rw [Function.update_of_ne here]
        exact inv.producers q
    exact same.mono rfl (Nat.le_refl _) (Nat.le_refl _) (fun _ _ _ h => h) (fun _ _ _ _ => ⟨rfl, rfl⟩)
  · rcases inv.newest with all | ⟨q, stage', r', newest, unpublished⟩
    · exact Or.inl all
    · right
      by_cases here : q = p
      · subst here
        rw [at_] at newest
        cases newest
        obtain ⟨next, rfl, pending⟩ := still unpublished
        exact ⟨q, next, r, Function.update_self .., pending⟩
      · exact ⟨q, stage', r', (Function.update_of_ne here ..).trans newest, unpublished⟩
  · intro r' member'
    by_cases same : r' = r
    · subst same
      change Holds abi s.ring.capacity m s.released s.cleared r'
        ((Function.update s.producers p pc r'.producer).progress r')
      rw [mine, Function.update_self]
      exact written
    · change Holds abi s.ring.capacity m s.released s.cleared r'
        ((Function.update s.producers p pc r'.producer).progress r')
      rw [inv.progressOther at_ own member' same]
      exact frame r' member' same
  · refine inv.consumer.mono rfl rfl rfl rfl rfl (Nat.le_refl _) (fun r rest h => ⟨rest, h⟩) ?_
    intro head rest front committed
    have headMember : head ∈ s.window := by simp [front]
    have different : head ≠ r := by
      rintro rfl
      rw [inv.writingProgress at_] at committed
      exact (inv.reservations head headMember).writingNotCommitted inv.geometry stage committed
    exact (inv.progressOther at_ own headMember different).trans committed

end Inv

namespace Inv

variable {s : State abi ι} (inv : Inv s) {p : ι} {r : Reservation abi ι}
include inv

theorem storeFake (at_ : s.producers p = .writing .storeFake r) :
    Inv (writeStep s p r .storeFake).1 := by
  obtain ⟨member, mine, span⟩ := inv.writing at_
  have holds := inv.producers p
  rw [at_] at holds
  have fake : r.plan.fakeSize ≠ 0 := holds.2.2.2
  obtain ⟨begins, ends⟩ := span trivial
  have v := inv.reservations r member
  have g := inv.geometry
  have place : r.plan.fakeHeader.getD 0 = r.start % s.ring.capacity := v.planned.fakePlace fake
  have live := inv.readWrite
  have word := v.fakeWord g fake
  have whole := v.recordStop
  have block := v.fakeBlock g fake
  unfold writeStep Ring.storeMeta storeWord
  dsimp only
  rw [place]
  refine inv.store at_ (Or.inr ⟨_, rfl⟩) (fun _ => ⟨_, rfl, trivial⟩) ?_ ?_ ?_
  · unfold Reservation.recordAt at whole
    refine inv.frameOthers member (by omega) (Nat.le_refl _) ?_ ?_
    · rw [wordBytesLength]
      omega
    · rw [wordBytesLength]
      exact block
  · rw [show ProducerPc.progress (.writing .markUncommitted r) r = ⟨true, none, 0⟩ from if_pos rfl]
    refine ⟨?_, (fun w none_ => nomatch none_), rfl⟩
    intro _ _ _
    rw [if_neg (fun h => (inv.notClearedWriting at_ h.1).2 trivial h.2)]
    exact loadStored _ _ _ (abi.modulusBytes ▸ (v.fakeMeta g).fits)
  · exact ⟨member, mine, span, trivial⟩

theorem markUncommitted (at_ : s.producers p = .writing .markUncommitted r) :
    Inv (writeStep s p r .markUncommitted).1 := by
  obtain ⟨member, mine, span⟩ := inv.writing at_
  obtain ⟨begins, ends⟩ := span trivial
  have v := inv.reservations r member
  have g := inv.geometry
  have live := inv.readWrite
  have whole := v.recordStop
  have total := v.planned.totalPos
  have start : r.start ≤ r.recordAt := Nat.le_add_right _ _
  have stored := inv.stored r member
  rw [inv.writingProgress at_] at stored
  have block := v.headerBlock g
  unfold writeStep Ring.storeMeta storeWord
  dsimp only
  rw [v.recordHeader]
  refine inv.store at_ (Or.inr ⟨_, rfl⟩) (fun _ => ⟨_, rfl, trivial⟩) ?_ ?_ ?_
  · refine inv.frameOthers member (by omega) start ?_ ?_
    · rw [wordBytesLength]
      omega
    · rw [wordBytesLength]
      exact block
  · rw [show ProducerPc.progress (.writing .publish r) r = ⟨true, some 0, 0⟩ from if_pos rfl]
    refine ⟨?_, ?_, rfl⟩
    · intro _ fake before
      rw [inv.fakeKept member fake before (Nat.le_refl _) (by rw [wordBytesLength]; omega)
        (by rw [wordBytesLength]; exact block)]
      exact stored.fake rfl fake before
    · intro w zero
      cases zero
      rw [ite_self]
      exact loadStored _ _ _ (Nat.pow_pos (by decide))
  · exact ⟨member, mine, span, trivial⟩

theorem publish (at_ : s.producers p = .writing .publish r) :
    Inv (writeStep s p r .publish).1 := by
  obtain ⟨member, mine, span⟩ := inv.writing at_
  obtain ⟨begins, ends⟩ := span trivial
  have v := inv.reservations r member
  have all : s.published + r.plan.publishSize = s.reserved := by
    unfold Reservation.stop at ends
    omega
  have progress : ∀ r' ∈ s.window,
      (Function.update s.producers p (.writing (.copy 0 r.push.parts) r) r'.producer).progress r' =
        s.progress r' := by
    intro r' member'
    by_cases same : r' = r
    · subst same
      rw [mine, Function.update_self, inv.writingProgress at_]
      exact if_pos rfl
    · exact inv.progressOther at_ (Or.inr ⟨_, rfl⟩) member' same
  unfold writeStep
  refine { inv with
    writePos := ?_, readWrite := ?_, writeReserve := Nat.le_of_eq all, alignedWrite := ?_
    producers := ?_, newest := Or.inl all, stored := ?_, consumer := ?_ }
  · change abi.wrap (r.reservePos + r.plan.publishSize) = abi.wrap (s.published + r.plan.publishSize)
    rw [v.reservePos, ← begins]
    simp [Abi.wrap]
  · have := inv.readWrite
    change s.released ≤ s.published + r.plan.publishSize
    omega
  · change abi.sizeofSizeT ∣ s.published + r.plan.publishSize
    rw [all]
    exact inv.alignedReserve
  · intro q
    by_cases here : q = p
    · subst here
      change PcHolds _ q (Function.update s.producers q _ q)
      rw [Function.update_self]
      exact ⟨member, mine, fun impossible => impossible.elim, [], rfl, rfl⟩
    · change PcHolds _ q (Function.update s.producers p _ q)
      rw [Function.update_of_ne here]
      refine (inv.producers q).mono rfl (Nat.le_add_right _ _) (Nat.le_refl _) (fun _ _ _ h => h) ?_
      -- Two unpublished reservations would both start at the write position.
      intro stage r' other unpublished
      obtain ⟨member', mine', span'⟩ := inv.writing other
      have same := inv.sameStart member' member ((span' unpublished).1.trans begins.symm)
      exact absurd (by rw [← mine', same, mine]) here
  · intro r' member'
    change Holds _ _ _ _ _ _ ((Function.update s.producers p _ r'.producer).progress r')
    rw [progress r' member']
    exact inv.stored r' member'
  · refine inv.consumer.mono rfl rfl rfl rfl rfl (Nat.le_add_right _ _) (fun r rest h => ⟨rest, h⟩) ?_
    intro head rest front committed
    exact (progress head (by simp [front])).trans committed

theorem copyPart {written : Nat} {part : Part abi} {rest : List (Part abi)}
    (at_ : s.producers p = .writing (.copy written (part :: rest)) r) :
    Inv (writeStep s p r (.copy written (part :: rest))).1 := by
  obtain ⟨member, mine, span⟩ := inv.writing at_
  have holds := inv.producers p
  rw [at_] at holds
  obtain ⟨_, _, _, done, parts, count⟩ := holds
  have v := inv.reservations r member
  have g := inv.geometry
  have sizes := v.push.parts part (by rw [parts]; simp)
  have whole : r.payload = payload done ++ (part.copied ++ payload rest) := by
    unfold Reservation.payload payload
    rw [parts, List.flatMap_append, List.flatMap_cons]
  have fits : written + part.size ≤ r.payload.length := by
    rw [whole, List.length_append, List.length_append]
    omega
  have split := v.recordSplit
  have ends := v.recordStop
  have stored := inv.stored r member
  rw [inv.writingProgress at_] at stored
  have pcHolds : PcHolds s p (.writing (.copy (written + part.size) rest) r) := by
    refine ⟨member, mine, fun impossible => impossible.elim, done ++ [part], ?_, ?_⟩
    · rw [parts, List.append_assoc]
      rfl
    · simp only [payload, List.flatMap_append, List.flatMap_cons, List.flatMap_nil, List.append_nil,
        List.length_append] at count ⊢
      omega
  have progress : ProducerPc.progress (.writing (.copy (written + part.size) rest) r) r =
      ⟨true, some 0, written + part.size⟩ := if_pos rfl
  unfold writeStep
  dsimp only
  by_cases nothing : part.size = 0
  · rw [if_neg (by simpa using nothing)]
    refine inv.store at_ (Or.inr ⟨_, rfl⟩) (fun impossible => impossible.elim)
      (fun r' member' _ => inv.stored r' member') ?_ pcHolds
    rw [progress, nothing]
    exact stored
  · rw [if_pos nothing]
    have bound : abi.sizeofSizeT + written + part.size ≤ r.plan.recordTotalSize := by omega
    obtain ⟨place, block⟩ := v.recordBlock g (abi.sizeofSizeT + written) bound (by omega)
    have dst : s.ring.offset (abi.wrap (r.plan.recordPos + abi.sizeofSizeT)) + written =
        (r.recordAt + (abi.sizeofSizeT + written)) % s.ring.capacity := by
      rw [v.copyPlace g rfl (by omega), place]
      omega
    rw [dst]
    have live := inv.releasedLeRecord member
    have start : r.start ≤ r.recordAt := Nat.le_add_right _ _
    refine inv.store at_ (Or.inr ⟨_, rfl⟩) (fun impossible => impossible.elim) ?_ ?_ pcHolds
    · refine inv.frameOthers member (by omega) (by omega) ?_ ?_
      · rw [sizes]
        omega
      · rw [sizes]
        exact block
    · rw [progress]
      refine ⟨?_, ?_, ?_⟩
      · intro _ fake before
        rw [inv.fakeKept member fake before (Nat.le_add_right _ _) (by omega) (by rw [sizes]; exact block)]
        exact stored.fake rfl fake before
      · intro w zero
        rw [loadFrame (by rw [place]; omega)]
        exact stored.header w zero
      · have earlier := stored.copied
        simp only [WriteStage.progress] at earlier
        rw [readAppend, readFrame (by rw [place]; omega), earlier]
        have back := ByteStore.readWrite s.ring.bytes (r.recordAt % s.ring.capacity + abi.sizeofSizeT + written)
          part.copied
        rw [sizes] at back
        rw [place, ← Nat.add_assoc, back, whole, ← sizes]
        rw [count, List.take_left, ← List.append_assoc, ← List.length_append, List.take_left]

theorem commit {written : Nat} (at_ : s.producers p = .writing (.copy written []) r) :
    Inv (writeStep s p r (.copy written [])).1 := by
  obtain ⟨member, mine, span⟩ := inv.writing at_
  have holds := inv.producers p
  rw [at_] at holds
  obtain ⟨_, _, _, done, parts, count⟩ := holds
  have v := inv.reservations r member
  have g := inv.geometry
  have all : written = r.payload.length := by
    rw [count]
    unfold Reservation.payload
    rw [parts, List.append_nil]
  have split := v.recordSplit
  have ends := v.recordStop
  have stored := inv.stored r member
  rw [inv.writingProgress at_] at stored
  have live := inv.releasedLeRecord member
  have start : r.start ≤ r.recordAt := Nat.le_add_right _ _
  have block := v.headerBlock g
  unfold writeStep Ring.storeMeta storeWord
  dsimp only
  rw [v.recordHeader]
  refine inv.store at_ (Or.inl rfl) (fun impossible => impossible.elim) ?_ ?_ trivial
  · refine inv.frameOthers member live start ?_ ?_
    · rw [wordBytesLength]
      omega
    · rw [wordBytesLength]
      exact block
  · change Holds _ _ _ _ _ _ r.committed
    refine ⟨?_, ?_, ?_⟩
    · intro _ fake before
      rw [inv.fakeKept member fake before (Nat.le_refl _) (by rw [wordBytesLength]; omega)
        (by rw [wordBytesLength]; exact block)]
      exact stored.fake rfl fake before
    · intro w valid
      cases valid
      rw [if_neg (fun h => (inv.notClearedWriting at_ h.1).1 h.2)]
      exact loadStored _ _ _ (abi.modulusBytes ▸ (v.validMeta g).fits)
    · have payload := stored.copied
      simp only [WriteStage.progress] at payload
      simp only [Reservation.committed]
      rw [readFrame (by rw [wordBytesLength]; right; exact Nat.le_refl _), ← all]
      exact payload

end Inv

/- What the invariant says where the CAS of the reserve position succeeds: all before the reservation is
published, and its producer is writing none. -/
structure Reserves (s : State abi ι) (p : ι) (push : Push abi) (writePos : Nat) (plan : PushPlan) : Prop where
  atReserved : writePos = abi.wrap s.reserved
  published : s.published = s.reserved
  planned : Planned abi s.ring.capacity s.reserved push.recordSize plan
  room : s.reserved + plan.publishSize ≤ s.released + s.ring.capacity
  valid : (⟨p, push, plan, writePos, s.reserved⟩ : Reservation abi ι).Valid s.ring.capacity
  written : ∀ r, (s.producers p).progress r = r.committed

namespace Inv

variable {s : State abi ι} (inv : Inv s) {p : ι}
include inv

theorem writeStep {stage : WriteStage abi} {r : Reservation abi ι}
    (at_ : s.producers p = .writing stage r) : Inv (MpscRecordRing.writeStep s p r stage).1 := by
  cases stage with
  | storeFake => exact inv.storeFake at_
  | markUncommitted => exact inv.markUncommitted at_
  | publish => exact inv.publish at_
  | copy written rest =>
    cases rest with
    | nil => exact inv.commit at_
    | cons part rest => exact inv.copyPart at_

omit [DecidableEq ι] in
theorem reserves {push : Push abi} {writePos seen seenReleased : Nat} {plan : PushPlan}
    (at_ : s.producers p = .casReserve push writePos plan seen seenReleased)
    (agree : s.ring.reservePos = writePos) (lap : s.reserved < seen + abi.modulus) :
    Reserves s p push writePos plan := by
  obtain ⟨same, published, planned, room⟩ := inv.casFresh at_ agree lap
  have holds := inv.producers p
  rw [at_] at holds
  obtain ⟨valid, wrapped, _, _, _, _⟩ := holds
  have atReserved : writePos = abi.wrap s.reserved := by rw [wrapped, same]
  exact ⟨atReserved, published.trans same.symm, planned, room,
    ⟨valid, planned, inv.alignedReserve, atReserved⟩, fun r => by rw [at_]; rfl⟩

section Reserving

variable {push : Push abi} {writePos : Nat} {plan : PushPlan}

theorem reserveWindow : (s.reserve p push writePos plan).window = s.window ++ [⟨p, push, plan, writePos, s.reserved⟩] :=
  List.drop_append_of_le_length inv.counted

variable (new : Reserves s p push writePos plan)
include new

theorem reserveProgress {r : Reservation abi ι} (member : r ∈ s.window) :
    (s.reserve p push writePos plan).progress r = s.progress r := by
  have before := inv.stopLeReserved member
  have proper := (inv.reservations r member).startLtStop
  change (Function.update s.producers p _ r.producer).progress r = (s.producers r.producer).progress r
  by_cases mine : r.producer = p
  · rw [mine, Function.update_self, new.written]
    exact if_neg (by dsimp only; omega)
  · rw [Function.update_of_ne mine]

theorem reserveLaid : ∃ first,
    Laid Reservation.start Reservation.stop first (s.reserve p push writePos plan).window (s.reserved + plan.publishSize) ∧
      (s.released = first ∨ ∃ r rest, (s.reserve p push writePos plan).window = r :: rest ∧ r.plan.fakeSize ≠ 0 ∧
        s.released = r.recordAt) := by
  obtain ⟨first, laid, place⟩ := inv.laid
  rw [inv.reserveWindow]
  refine ⟨first, laidAppend laid rfl new.valid.startLtStop, ?_⟩
  rcases place with atFirst | ⟨head, rest, front, fake, atRecord⟩
  · exact Or.inl atFirst
  · refine Or.inr ⟨head, rest ++ [⟨p, push, plan, writePos, s.reserved⟩], ?_, fake, atRecord⟩
    rw [front]
    rfl

theorem reserveProducers (q : ι) :
    PcHolds (s.reserve p push writePos plan) q ((s.reserve p push writePos plan).producers q) := by
  change PcHolds _ q (Function.update s.producers p _ q)
  by_cases here : q = p
  · subst here
    rw [Function.update_self]
    refine ⟨by rw [inv.reserveWindow]; simp, rfl, fun _ => ⟨new.published.symm, rfl⟩, ?_⟩
    cases fake : plan.fakeHeader.isSome with
    | true => exact new.planned.fakeIsSome.mp fake
    | false => trivial
  · rw [Function.update_of_ne here]
    refine (inv.producers q).mono rfl (Nat.le_refl _) (Nat.le_refl _) ?_ ?_
    · intro stage r _ member
      rw [inv.reserveWindow]
      exact List.mem_append_left _ member
    · -- With every reservation published no other producer is unpublished.
      intro stage r other unpublished
      obtain ⟨member, _, span⟩ := inv.writing other
      obtain ⟨begins, ends⟩ := span unpublished
      have := (inv.reservations r member).startLtStop
      have := new.published
      omega

theorem reserveStored {r : Reservation abi ι} (member : r ∈ (s.reserve p push writePos plan).window) :
    Holds abi s.ring.capacity s.ring.bytes s.released s.cleared r ((s.reserve p push writePos plan).progress r) := by
  rw [inv.reserveWindow, List.mem_append, List.mem_singleton] at member
  rcases member with old | rfl
  · rw [inv.reserveProgress new old]
    exact inv.stored r old
  · -- Of the new record nothing is stored, and without a fake record there is none to store.
    change Holds _ _ _ _ _ _ ((Function.update s.producers p _ p).progress _)
    rw [Function.update_self]
    cases fake : plan.fakeHeader.isSome with
    | true =>
      rw [if_pos rfl]
      change Holds _ _ _ _ _ _ (if s.reserved = s.reserved then _ else _)
      rw [if_pos rfl]
      exact ⟨(fun no => by cases no), (fun w no => by cases no), rfl⟩
    | false =>
      rw [if_neg Bool.false_ne_true]
      change Holds _ _ _ _ _ _ (if s.reserved = s.reserved then _ else _)
      rw [if_pos rfl]
      refine ⟨fun _ some_ _ => ?_, (fun w no => by cases no), rfl⟩
      rw [new.planned.fakeIsSome.mpr some_] at fake
      contradiction

end Reserving

theorem casReserve {push : Push abi} {writePos seen seenReleased : Nat} {plan : PushPlan}
    (at_ : s.producers p = .casReserve push writePos plan seen seenReleased)
    (agree : s.ring.reservePos = writePos) (lap : s.reserved < seen + abi.modulus) :
    Inv (s.reserve p push writePos plan) := by
  have new := inv.reserves at_ agree lap
  refine { inv with
    reservePos := ?_, writeReserve := ?_, room := new.room, alignedReserve := ?_, counted := ?_, delivered := ?_
    laid := inv.reserveLaid new, reservations := ?_, producers := inv.reserveProducers new, newest := ?_
    stored := fun _ => inv.reserveStored new, consumer := ?_ }
  · change abi.wrap (writePos + plan.publishSize) = abi.wrap (s.reserved + plan.publishSize)
    rw [new.atReserved]
    simp [Abi.wrap]
  · have := inv.writeReserve
    change s.published ≤ s.reserved + plan.publishSize
    omega
  · change abi.sizeofSizeT ∣ s.reserved + plan.publishSize
    exact new.planned.publishAligned inv.geometry inv.alignedReserve
  · have := inv.counted
    change s.returned.length ≤ (s.log ++ [_]).length
    rw [List.length_append]
    omega
  · change s.returned = ((s.log ++ [_]).take s.returned.length).map Reservation.payload
    rw [List.take_append_of_le_length inv.counted]
    exact inv.delivered
  · intro r member
    rw [inv.reserveWindow, List.mem_append, List.mem_singleton] at member
    rcases member with old | rfl
    · exact inv.reservations r old
    · exact new.valid
  · refine Or.inr ⟨p, _, _, Function.update_self .., ?_⟩
    split <;> trivial
  · refine inv.consumer.mono rfl rfl rfl rfl rfl (Nat.le_refl _) ?_ ?_
    · intro head rest front
      refine ⟨rest ++ [⟨p, push, plan, writePos, s.reserved⟩], ?_⟩
      rw [inv.reserveWindow, front]
      rfl
    · intro head rest front committed
      exact (inv.reserveProgress new (by simp [front])).trans committed

theorem pushStep {parts : Option (List (Part abi))} {s' : State abi ι} {e : Event ι}
    (taken : MpscRecordRing.pushStep s p parts = some (s', e)) : Inv s' := by
  unfold MpscRecordRing.pushStep at taken
  split at taken
  · rename_i idle
    have quiet : (s.producers p).Quiet := by
      rw [idle]
      trivial
    split at taken
    · cases Option.some.inj taken
      exact inv
    · rename_i parts recordSize checked
      cases Option.some.inj taken
      exact inv.setQuiet quiet trivial (tryPushvChecksValid inv.geometry checked)
  · contradiction

theorem producerStep {spurious : Bool} {s' : State abi ι} {e : Event ι}
    (fresh : NoLap s (.producer p spurious))
    (taken : MpscRecordRing.producerStep s p spurious = some (s', e)) : Inv s' := by
  have holds := inv.producers p
  unfold MpscRecordRing.producerStep at taken
  cases pc : s.producers p with
  | idle => simp [pc] at taken
  | loadWrite push =>
    rw [pc] at taken holds
    cases Option.some.inj taken
    refine inv.setQuiet (by rw [pc]; trivial) trivial ?_
    have order := inv.writeReserve
    have room := inv.room
    exact ⟨holds, inv.writePos, Nat.le_refl _, by omega, inv.alignedWrite⟩
  | loadRead push writePos seen =>
    rw [pc] at taken holds
    obtain ⟨valid, wrapped, behind, room, aligned⟩ := holds
    dsimp only at taken
    split at taken
    · cases Option.some.inj taken
      exact inv.setQuiet (by rw [pc]; trivial) trivial trivial
    · rename_i plan planned
      cases Option.some.inj taken
      refine inv.setQuiet (by rw [pc]; trivial) trivial ⟨valid, wrapped, behind, aligned, Nat.le_refl _, ?_⟩
      intro order
      have spec := planPushSpec inv.geometry valid.fits order room
      rw [wrapped, inv.readPos] at planned
      rw [planned] at spec
      exact spec
  | casReserve push writePos plan seen seenReleased =>
    rw [pc] at taken holds
    dsimp only at taken
    split at taken
    · rename_i agrees
      cases Option.some.inj taken
      have lap : s.reserved < seen + abi.modulus := by
        simpa only [NoLap, pc] using fresh
      exact inv.casReserve pc agrees.1 lap
    · cases Option.some.inj taken
      exact inv.setQuiet (by rw [pc]; trivial) trivial holds.1
  | writing stage r =>
    rw [pc] at taken
    have state := congrArg Prod.fst (Option.some.inj taken)
    dsimp only at state
    rw [← state]
    exact inv.writeStep pc

end Inv

end Nanosig.MpscRecordRing
