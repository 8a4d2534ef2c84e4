import Nanosig.MpscRecordRing.Producers

/-! Every step of the consumer keeps the ring invariant and takes no corruption
branch. What it finds at the read position is decided by the oldest reservation. -/
namespace Nanosig.MpscRecordRing
open ByteStore Segments

variable {abi : Abi} {ι : Type}

/- The word at the read position, read off the reservation it belongs to. -/
inductive AtHead (s : State abi ι) (r : Reservation abi ι) : Nat → Prop where
  | fake (padding : r.plan.fakeSize ≠ 0) (place : s.released = r.start) :
      AtHead s r (metaEncodeFake abi r.plan.fakeSize)
  | uncommitted (place : s.released = r.recordAt) (pending : s.progress r ≠ r.committed) : AtHead s r 0
  | committed (place : s.released = r.recordAt) (done : s.progress r = r.committed) :
      AtHead s r (metaEncodeValid abi r.plan.recordTotalSize r.plan.paddingSize)

def Event.Sound : Event ι → Prop
  | .acquireReturned rc => rc = .ok ∨ rc = .empty
  | .releaseReturned rc => rc = .ok
  | _ => True

namespace Inv

variable {s : State abi ι} (inv : Inv s)
include inv

theorem headWord (uncleared : s.cleared = false) {r : Reservation abi ι} {rest : List (Reservation abi ι)}
    (window : s.window = r :: rest) (published : r.stop ≤ s.published) :
    AtHead s r (loadWord abi.sizeofSizeT s.ring.bytes (s.released % s.ring.capacity)) := by
  have member : r ∈ s.window := by simp [window]
  have stored := inv.stored r member
  obtain ⟨fakeStored, header⟩ := inv.publishedProgress member published
  have fakeWord : r.plan.fakeSize ≠ 0 → s.released = r.start →
      AtHead s r (loadWord abi.sizeofSizeT s.ring.bytes (s.released % s.ring.capacity)) := by
    intro padding place
    have word := stored.fake fakeStored padding (Nat.le_of_eq place)
    rw [uncleared, if_neg (by simp)] at word
    rw [place, word]
    exact .fake padding place
  have recordWord : s.released = r.recordAt →
      AtHead s r (loadWord abi.sizeofSizeT s.ring.bytes (s.released % s.ring.capacity)) := by
    intro place
    rcases header with pending | done
    · have word := stored.header 0 pending
      rw [ite_self] at word
      rw [place, word]
      refine .uncommitted place ?_
      intro done
      rw [done] at pending
      exact (inv.reservations r member).committedNonzero inv.geometry (Option.some.inj pending)
    · have word := stored.header _ (congrArg Progress.header done)
      rw [uncleared, if_neg (by simp)] at word
      rw [place, word]
      exact .committed place done
  rcases inv.headPlace window with place | ⟨_, place⟩
  · by_cases padding : r.plan.fakeSize = 0
    · exact recordWord (by unfold Reservation.recordAt; omega)
    · exact fakeWord padding place
  · exact recordWord place

theorem moveConsumer {pc : ConsumerPc} {held : Option Loan} (before : s.cleared = false)
    (after : State.cleared { s with consumer := pc, held := held } = false)
    (holds : ConsumerHolds { s with consumer := pc, held := held }) :
    Inv { s with consumer := pc, held := held } := by
  refine { inv with producers := ?_, stored := ?_, consumer := holds }
  · intro p
    exact (inv.producers p).mono rfl (Nat.le_refl _) (Nat.le_refl _) (fun _ _ _ h => h)
      (fun _ _ _ _ => ⟨rfl, rfl⟩)
  · intro r member
    rw [after, ← before]
    exact inv.stored r member

theorem usedExact : abi.sub s.ring.writePos (abi.wrap s.released) = s.published - s.released := by
  rw [inv.writePos]
  have order := inv.readWrite
  have behind := inv.writeReserve
  have room := inv.room
  have lap := inv.geometry.ltModulus
  exact WrappingCounter.diffExact order (by omega)

theorem wrappedPositions : abi.sub s.ring.writePos s.ring.readPos = s.published - s.released ∧
    abi.sub s.ring.reservePos s.ring.readPos = s.reserved - s.released := by
  have used := inv.usedExact
  rw [← inv.readPos] at used
  refine ⟨used, ?_⟩
  rw [inv.reservePos, inv.readPos]
  have order := inv.readWrite
  have behind := inv.writeReserve
  have room := inv.room
  have lap := inv.geometry.ltModulus
  exact WrappingCounter.diffExact (by omega) (by omega)

theorem usedLe : s.published - s.released ≤ s.ring.capacity := by
  have order := inv.writeReserve
  have room := inv.room
  omega

theorem headBlock {r : Reservation abi ι} (member : r ∈ s.window)
    (place : (r.plan.fakeSize ≠ 0 ∧ s.released = r.start) ∨ s.released = r.recordAt) :
    r.start ≤ s.released ∧ s.released + abi.sizeofSizeT ≤ r.stop ∧
      Contiguous s.ring.capacity s.released abi.sizeofSizeT := by
  have v := inv.reservations r member
  have ends := v.recordStop
  have total := v.planned.totalPos
  have start : r.start ≤ r.recordAt := Nat.le_add_right _ _
  rcases place with ⟨padding, h⟩ | h
  · exact ⟨by omega, by omega, h ▸ v.fakeBlock inv.geometry padding⟩
  · exact ⟨by omega, by omega, h ▸ v.headerBlock inv.geometry⟩

theorem clearOwn {r : Reservation abi ι} (member : r ∈ s.window) (before : s.cleared = false)
    (place : (r.plan.fakeSize ≠ 0 ∧ s.released = r.start) ∨ s.released = r.recordAt) :
    Holds abi s.ring.capacity (storeWord abi.sizeofSizeT s.ring.bytes (s.released % s.ring.capacity) 0)
      s.released true r (s.progress r) := by
  have v := inv.reservations r member
  have g := inv.geometry
  have ends := v.recordStop
  have room := inv.stopInRoom member
  obtain ⟨_, _, block⟩ := inv.headBlock member place
  have stored := inv.stored r member
  rw [before] at stored
  have zero : loadWord abi.sizeofSizeT (storeWord abi.sizeofSizeT s.ring.bytes
      (s.released % s.ring.capacity) 0) (s.released % s.ring.capacity) = 0 :=
    loadStored _ _ _ (Nat.pow_pos (by decide))
  rcases place with ⟨padding, here⟩ | here
  · -- On the fake record: the record behind it lies apart from the cleared word.
    have split := v.recordSplit
    have copied := inv.copiedLe member
    have word := v.fakeWord g padding
    have piece := (v.recordBlock g 0
      (by omega : 0 + (abi.sizeofSizeT + (s.progress r).copied) ≤ _)
      (Nat.add_pos_left (sizeofSizeTPos abi) _)).2
    have apart := apartInStorage block (by unfold Reservation.recordAt; omega) (by omega) piece
    refine ⟨?_, ?_, ?_⟩
    · intro _ _ _
      rw [← here, if_pos ⟨rfl, rfl⟩]
      exact zero
    · intro w header
      have off : s.released ≠ r.recordAt := by
        unfold Reservation.recordAt
        omega
      have kept := stored.header w header
      rw [if_neg (by simp)] at kept
      rw [storeWord, loadFrame (by rw [wordBytesLength]; simp only [Nat.add_zero] at apart; omega), if_neg (fun h => off h.2)]
      exact kept
    · rw [storeWord, readFrame (by rw [wordBytesLength]; simp only [Nat.add_zero] at apart; omega)]
      exact stored.copied
  · -- On the record itself: its payload lies behind the cleared word.
    refine ⟨?_, ?_, ?_⟩
    · intro _ padding live
      unfold Reservation.recordAt at here
      omega
    · intro w _
      rw [← here, if_pos ⟨rfl, rfl⟩]
      exact zero
    · rw [storeWord, readFrame (by rw [wordBytesLength, here]; omega)]
      exact stored.copied

theorem clear {pc : ConsumerPc} {r : Reservation abi ι} {rest : List (Reservation abi ι)}
    (window : s.window = r :: rest) (before : s.cleared = false)
    (after : State.cleared { s with consumer := pc } = true)
    (place : (r.plan.fakeSize ≠ 0 ∧ s.released = r.start) ∨ s.released = r.recordAt)
    (holds : ConsumerHolds { s with consumer := pc }) :
    Inv { s with ring := s.ring.storeMeta abi (s.released % s.ring.capacity) 0, consumer := pc } := by
  have member : r ∈ s.window := by simp [window]
  obtain ⟨low, high, block⟩ := inv.headBlock member place
  refine { inv with producers := ?_, stored := ?_, consumer := ?_ }
  · intro p
    exact (inv.producers p).mono rfl (Nat.le_refl _) (Nat.le_refl _) (fun _ _ _ h => h)
      (fun _ _ _ _ => ⟨rfl, rfl⟩)
  · intro r' member'
    change r' ∈ s.window at member'
    change Holds abi s.ring.capacity
      (storeWord abi.sizeofSizeT s.ring.bytes (s.released % s.ring.capacity) 0) s.released
      (State.cleared { s with consumer := pc }) r' (s.progress r')
    rw [after]
    by_cases same : r' = r
    · subst same
      exact inv.clearOwn member before place
    · have zeroWord := wordBytesLength abi.sizeofSizeT 0
      have framed := inv.frameOthers member (Nat.le_refl _) low
        (zeroWord.symm ▸ high) (zeroWord.symm ▸ block) r' member' same
      rw [window] at member'
      have tail : r' ∈ rest := (List.mem_cons.mp member').resolve_left same
      have beyond := inv.later window tail
      have start : r'.start ≤ r'.recordAt := Nat.le_add_right _ _
      have word := sizeofSizeTPos abi
      exact framed.elsewhere id (fun h => by rw [before] at h; contradiction) (fun _ => by omega)
  · exact holds.mono rfl rfl rfl rfl rfl (Nat.le_refl _) (fun r rest h => ⟨rest, h⟩) (fun _ _ _ h => h)

theorem skipFake {readPos stride : Nat} (at_ : s.consumer = .acquireStoreRead readPos stride) :
    Inv { s with
      ring := { s.ring with readPos := abi.wrap (readPos + stride) }
      consumer := .acquireLoadRead
      released := s.released + stride } := by
  have consumer := inv.consumer
  unfold ConsumerHolds at consumer
  rw [at_] at consumer
  obtain ⟨held, pos, r, rest, window, place, padding, same, published⟩ := consumer
  have member : r ∈ s.window := by simp [window]
  have v := inv.reservations r member
  have ends := v.recordStop
  have total := v.planned.totalPos
  have word := sizeofSizeTPos abi
  have atRecord : s.released + stride = r.recordAt := by
    unfold Reservation.recordAt
    omega
  have cleared : s.cleared = true := by
    unfold State.cleared
    rw [at_]
  refine { inv with
    readPos := ?_, readWrite := ?_, room := ?_, laid := ?_, producers := ?_, stored := ?_, consumer := held }
  · change abi.wrap (readPos + stride) = abi.wrap (s.released + stride)
    rw [pos]
    simp [Abi.wrap]
  · change s.released + stride ≤ s.published
    omega
  · have := inv.room
    change s.reserved ≤ s.released + stride + s.ring.capacity
    omega
  · obtain ⟨first, laid, _⟩ := inv.laid
    exact ⟨first, laid, Or.inr ⟨r, rest, window, padding, atRecord⟩⟩
  · intro p
    exact (inv.producers p).mono rfl (Nat.le_refl _) (Nat.le_add_right _ _) (fun _ _ _ h => h)
      (fun _ _ _ _ => ⟨rfl, rfl⟩)
  · intro r' member'
    change r' ∈ s.window at member'
    change Holds abi s.ring.capacity s.ring.bytes (s.released + stride) false r' (s.progress r')
    have stored := inv.stored r' member'
    rw [cleared] at stored
    by_cases same : r' = r
    · subst same
      refine ⟨fun _ _ live => ?_, ?_, stored.copied⟩
      · unfold Reservation.recordAt at atRecord
        omega
      · intro w header
        have kept := stored.header w header
        rw [if_neg (fun h => by unfold Reservation.recordAt at h; omega)] at kept
        rw [if_neg (fun h => by cases h.1)]
        exact kept
    · rw [window] at member'
      have tail : r' ∈ rest := (List.mem_cons.mp member').resolve_left same
      have beyond := inv.later window tail
      have start : r'.start ≤ r'.recordAt := Nat.le_add_right _ _
      exact stored.elsewhere (fun _ => by omega) (fun _ => by omega) (fun h => by cases h)

theorem releaseHead {readPos stride : Nat} (at_ : s.consumer = .releaseStoreRead readPos stride) :
    Inv { s with
      ring := { s.ring with readPos := abi.wrap (readPos + stride) }
      consumer := .idle
      held := none
      returned := s.returned ++ (s.held.map Loan.bytes).toList
      released := s.released + stride } := by
  have consumer := inv.consumer
  unfold ConsumerHolds at consumer
  rw [at_] at consumer
  obtain ⟨loan, held, ⟨r, rest, window, place, published, done, _, _, bytes⟩, pos, total⟩ := consumer
  have same : stride = r.plan.recordTotalSize := total r (by simp [window])
  have member : r ∈ s.window := by simp [window]
  have v := inv.reservations r member
  have ends := v.recordStop
  have atStop : s.released + stride = r.stop := by omega
  have cleared : s.cleared = true := by
    unfold State.cleared
    rw [at_]
  have some_ : s.returned.length < s.log.length := by
    by_contra all
    have none_ : s.window = [] := List.drop_eq_nil_of_le (by omega)
    rw [none_] at window
    contradiction
  have split : s.log.drop s.returned.length =
      s.log[s.returned.length] :: s.log.drop (s.returned.length + 1) := List.drop_eq_getElem_cons some_
  have front : s.log[s.returned.length] = r ∧ s.log.drop (s.returned.length + 1) = rest := by
    have both := split.symm.trans window
    exact List.cons.inj both
  have count : (s.returned ++ (s.held.map Loan.bytes).toList).length = s.returned.length + 1 := by
    rw [held]
    simp
  have rest' : s.log.drop (s.returned ++ (s.held.map Loan.bytes).toList).length = rest := by
    rw [count]
    exact front.2
  have within : ∀ r' ∈ rest, r' ∈ s.window := by
    intro r' tail
    rw [window]
    exact List.mem_cons_of_mem r tail
  refine { inv with
    readPos := ?_, readWrite := ?_, room := ?_, counted := ?_, delivered := ?_, laid := ?_
    reservations := ?_, producers := ?_, stored := ?_, consumer := ?_ }
  · change abi.wrap (readPos + stride) = abi.wrap (s.released + stride)
    rw [pos]
    simp [Abi.wrap]
  · change s.released + stride ≤ s.published
    omega
  · have := inv.room
    change s.reserved ≤ s.released + stride + s.ring.capacity
    omega
  · change (s.returned ++ (s.held.map Loan.bytes).toList).length ≤ s.log.length
    omega
  · change s.returned ++ (s.held.map Loan.bytes).toList =
      (s.log.take (s.returned ++ (s.held.map Loan.bytes).toList).length).map Reservation.payload
    rw [count, List.take_succ_eq_append_getElem some_, List.map_append, ← inv.delivered, front.1, held]
    simp [bytes]
  · obtain ⟨first, laid, _⟩ := inv.laid
    rw [window] at laid
    refine ⟨r.stop, ?_, Or.inl atStop⟩
    change Laid Reservation.start Reservation.stop r.stop (s.log.drop _) s.reserved
    rw [rest']
    exact laid.2.2
  · intro r' member'
    change r' ∈ s.log.drop _ at member'
    rw [rest'] at member'
    exact inv.reservations r' (within r' member')
  · intro p
    refine (inv.producers p).mono rfl (Nat.le_refl _) (Nat.le_add_right _ _) ?_ (fun _ _ _ _ => ⟨rfl, rfl⟩)
    -- The record returned is committed, so no producer is still writing it.
    intro stage r' writing member'
    change r' ∈ s.log.drop _
    rw [rest']
    rw [window] at member'
    refine (List.mem_cons.mp member').resolve_left ?_
    rintro rfl
    rw [inv.writingProgress writing] at done
    exact v.writingNotCommitted inv.geometry stage done
  · intro r' member'
    change r' ∈ s.log.drop _ at member'
    rw [rest'] at member'
    change Holds abi s.ring.capacity s.ring.bytes (s.released + stride) false r' (s.progress r')
    have stored := inv.stored r' (within r' member')
    rw [cleared] at stored
    have beyond := inv.later window member'
    have start : r'.start ≤ r'.recordAt := Nat.le_add_right _ _
    have total' := v.planned.totalPos
    have word := sizeofSizeTPos abi
    exact stored.elsewhere (fun _ => by omega) (fun _ => by omega) (fun h => by cases h)
  · intro loan' none_
    contradiction

end Inv

namespace Inv

variable {s : State abi ι} (inv : Inv s)
include inv

theorem acquireStep {s' : State abi ι} {e : Event ι}
    (taken : MpscRecordRing.acquireStep s = some (s', e)) : Inv s' ∧ e.Sound := by
  unfold MpscRecordRing.acquireStep at taken
  split at taken
  · contradiction
  · rename_i idle
    have at_ : s.consumer = .idle := not_not.mp idle
    have before : s.cleared = false := by
      unfold State.cleared
      rw [at_]
    rw [inv.valid] at taken
    cases Option.some.inj taken
    exact ⟨inv.moveConsumer before rfl rfl, trivial⟩

theorem releaseStep {s' : State abi ι} {e : Event ι}
    (taken : MpscRecordRing.releaseStep s = some (s', e)) : Inv s' ∧ e.Sound := by
  unfold MpscRecordRing.releaseStep at taken
  split at taken
  · contradiction
  · rename_i idle
    have at_ : s.consumer = .idle := not_not.mp idle
    have before : s.cleared = false := by
      unfold State.cleared
      rw [at_]
    have consumer := inv.consumer
    unfold ConsumerHolds at consumer
    rw [at_] at consumer
    cases held : s.held with
    | none => simp [held] at taken
    | some loan =>
      have lent := consumer loan held
      obtain ⟨r, rest, _, _, _, _, record, _, _⟩ := lent
      have nonzero : loan.record ≠ 0 := by
        have := inv.storageNonzero
        omega
      rw [held] at taken
      simp only [inv.valid, Bool.not_true, Bool.false_or, decide_eq_true_eq, if_neg nonzero] at taken
      cases Option.some.inj taken
      refine ⟨inv.moveConsumer before rfl ?_, trivial⟩
      exact ⟨loan, rfl, consumer loan held, rfl⟩

/- Dispatching on the header word in `try_acquire`, by what the read position stands on. -/
theorem acquireMetaSpec {readPos used : Nat} (at_ : s.consumer = .acquireLoadMeta readPos used)
    {r : Reservation abi ι} {rest : List (Reservation abi ι)} (window : s.window = r :: rest) :
    (s.released ≠ r.recordAt → acquireMetaStep s readPos used =
      ({ s with consumer := .acquireClearFake (s.released % s.ring.capacity) readPos r.plan.fakeSize }, .access)) ∧
    (s.released = r.recordAt → s.progress r ≠ r.committed →
      acquireMetaStep s readPos used = ({ s with consumer := .idle }, .acquireReturned .empty)) ∧
    (s.released = r.recordAt → s.progress r = r.committed → acquireMetaStep s readPos used =
      ({ s with
          consumer := .idle
          held := some ⟨s.ring.storage + (r.recordAt % s.ring.capacity + abi.sizeofSizeT), r.push.recordSize,
            r.payload⟩ }, .acquireReturned .ok)) := by
  have consumer := inv.consumer
  unfold ConsumerHolds at consumer
  rw [at_] at consumer
  obtain ⟨held, pos, r', rest', window', inside, published⟩ := consumer
  obtain ⟨rfl, rfl⟩ := List.cons.inj (window.symm.trans window')
  have member : r ∈ s.window := by simp [window]
  have v := inv.reservations r member
  have g := inv.geometry
  have before : s.cleared = false := by
    unfold State.cleared
    rw [at_]
  have header : s.ring.offset readPos = s.released % s.ring.capacity := by
    rw [pos]
    exact g.offsetMod rfl s.released
  have used' := inv.usedLe
  have ends := v.recordStop
  have half := v.planned.totalHalf
  have start : r.start ≤ r.recordAt := Nat.le_add_right _ _
  unfold acquireMetaStep Ring.loadMeta
  dsimp only
  rw [header]
  have found := inv.headWord before window (by omega)
  generalize loadWord abi.sizeofSizeT s.ring.bytes (s.released % s.ring.capacity) = word at found ⊢
  cases found with
  | fake padding place =>
    have decodes := v.fakeMeta g
    have off : s.released ≠ r.recordAt := by
      unfold Reservation.recordAt
      omega
    unfold Reservation.recordAt at ends
    refine ⟨fun _ => ?_, fun on => absurd on off, fun on => absurd on off⟩
    rw [decodes.valid, decodes.stride, decodes.fake, if_neg (by simp), if_neg (by omega), if_pos rfl]
  | uncommitted place pending =>
    refine ⟨fun off => absurd place off, fun _ _ => ?_, fun _ done => absurd done pending⟩
    rw [metaZeroInvalid, if_pos (by simp)]
  | committed place done =>
    have decodes := v.validMeta g
    have total := v.planned.totalPos
    have word := sizeofSizeTPos abi
    have bytes := (inv.stored r member).copied
    rw [done] at bytes
    have whole : r.payload.take r.push.recordSize = r.payload := List.take_of_length_le (Nat.le_of_eq v.payloadLength)
    simp only [Reservation.committed, v.payloadLength, whole] at bytes
    refine ⟨fun off => absurd place off, fun _ pending => absurd done pending, fun _ _ => ?_⟩
    rw [decodes.valid, decodes.stride, decodes.fake, if_neg (by simp), if_neg (by omega), if_neg (by simp),
      payloadSizeRoundTrip decodes v.planned.split, place]
    dsimp only
    rw [bytes]

theorem acquireMeta {readPos used : Nat} (at_ : s.consumer = .acquireLoadMeta readPos used) :
    Inv (acquireMetaStep s readPos used).1 ∧ (acquireMetaStep s readPos used).2.Sound := by
  have consumer := inv.consumer
  unfold ConsumerHolds at consumer
  rw [at_] at consumer
  obtain ⟨held, pos, r, rest, window, inside, published⟩ := consumer
  have visible : r.stop ≤ s.published := by omega
  have before : s.cleared = false := by
    unfold State.cleared
    rw [at_]
  obtain ⟨fake, uncommitted, committed⟩ := inv.acquireMetaSpec at_ window
  by_cases place : s.released = r.recordAt
  · by_cases done : s.progress r = r.committed
    · rw [committed place done]
      refine ⟨inv.moveConsumer before rfl ?_, Or.inl rfl⟩
      intro loan lent
      cases Option.some.inj lent
      exact ⟨r, rest, window, place, visible, done, rfl, rfl, rfl⟩
    · rw [uncommitted place done]
      refine ⟨inv.moveConsumer before rfl ?_, Or.inr rfl⟩
      intro loan impossible
      rw [held] at impossible
      contradiction
  · rw [fake place]
    refine ⟨inv.moveConsumer before rfl ?_, trivial⟩
    rcases inv.headPlace window with atStart | ⟨_, atRecord⟩
    · have padding : r.plan.fakeSize ≠ 0 := by
        intro none_
        unfold Reservation.recordAt at place
        omega
      exact ⟨held, pos, rfl, r, rest, window, atStart, padding, rfl, visible⟩
    · exact absurd atRecord place

theorem releaseMetaSpec {header readPos used : Nat} (at_ : s.consumer = .releaseLoadMeta header readPos used)
    {r : Reservation abi ι} {rest : List (Reservation abi ι)} (window : s.window = r :: rest) :
    releaseMetaStep s header readPos used =
      ({ s with consumer := .releaseClear (s.released % s.ring.capacity) readPos r.plan.recordTotalSize },
        .access) := by
  have consumer := inv.consumer
  unfold ConsumerHolds at consumer
  rw [at_] at consumer
  obtain ⟨loan, held, lent, pos, place, r', rest', window', inside, published⟩ := consumer
  obtain ⟨rfl, rfl⟩ := List.cons.inj (window.symm.trans window')
  have member : r ∈ s.window := by simp [window]
  have v := inv.reservations r member
  have g := inv.geometry
  have before : s.cleared = false := by
    unfold State.cleared
    rw [at_]
  have used' := inv.usedLe
  have ends := v.recordStop
  have half := v.planned.totalHalf
  have total := v.planned.totalPos
  have word := sizeofSizeTPos abi
  obtain ⟨r'', rest'', window'', atRecord, _, done, _⟩ := lent
  obtain ⟨rfl, rfl⟩ := List.cons.inj (window.symm.trans window'')
  have decodes := v.validMeta g
  have value : loadWord abi.sizeofSizeT s.ring.bytes (s.released % s.ring.capacity) =
      metaEncodeValid abi r.plan.recordTotalSize r.plan.paddingSize := by
    have stored := (inv.stored r member).header _ (congrArg Progress.header done)
    rw [before, if_neg (by simp)] at stored
    rw [atRecord]
    exact stored
  unfold releaseMetaStep Ring.loadMeta
  dsimp only
  rw [place, value, decodes.valid, decodes.stride, decodes.fake, if_neg (by simp), if_neg (by omega),
    payloadSizeRoundTrip decodes v.planned.split]

theorem releaseMeta {header readPos used : Nat} (at_ : s.consumer = .releaseLoadMeta header readPos used) :
    Inv (releaseMetaStep s header readPos used).1 ∧ (releaseMetaStep s header readPos used).2.Sound := by
  have consumer := inv.consumer
  unfold ConsumerHolds at consumer
  rw [at_] at consumer
  obtain ⟨loan, held, lent, pos, place, r, rest, window, _⟩ := consumer
  have before : s.cleared = false := by
    unfold State.cleared
    rw [at_]
  rw [inv.releaseMetaSpec at_ window]
  refine ⟨inv.moveConsumer before rfl ⟨loan, held, lent, pos, rfl, ?_⟩, trivial⟩
  intro x front
  change x ∈ s.window.head? at front
  rw [window] at front
  cases Option.some.inj front
  rfl

theorem releaseHeaderExact {loan : Loan} (lent : Borrowed s loan) :
    releaseHeader abi s.ring loan.record (abi.wrap s.released) = some (s.released % s.ring.capacity) := by
  obtain ⟨r, rest, window, place, _, _, record, _, _⟩ := lent
  have member : r ∈ s.window := by simp [window]
  have g := inv.geometry
  have block := (inv.reservations r member).headerBlock g
  unfold Contiguous at block
  unfold releaseHeader
  dsimp only
  rw [g.offsetMod rfl, place, record, if_neg (by omega), if_neg (by omega)]

theorem consumerStep {s' : State abi ι} {e : Event ι}
    (taken : MpscRecordRing.consumerStep s = some (s', e)) : Inv s' ∧ e.Sound := by
  have consumer := inv.consumer
  unfold ConsumerHolds at consumer
  unfold MpscRecordRing.consumerStep at taken
  have uncleared : s.cleared = s.cleared := rfl
  conv at uncleared => rhs; unfold State.cleared
  have small := inv.usedLe
  cases at_ : s.consumer with
  | idle => simp [at_] at taken
  | acquireLoadRead =>
    rw [at_] at taken consumer uncleared
    cases Option.some.inj taken
    exact ⟨inv.moveConsumer uncleared rfl ⟨consumer, inv.readPos⟩, trivial⟩
  | acquireLoadWrite readPos =>
    rw [at_] at taken consumer uncleared
    obtain ⟨held, pos⟩ := consumer
    simp only [pos, inv.usedExact, if_neg (by omega : ¬ s.published - s.released > s.ring.capacity)] at taken
    split at taken
    · cases Option.some.inj taken
      refine ⟨inv.moveConsumer uncleared rfl ?_, Or.inr rfl⟩
      intro loan impossible
      rw [held] at impossible
      contradiction
    · cases Option.some.inj taken
      obtain ⟨r, rest, window, published⟩ := inv.headPublished (by omega)
      refine ⟨inv.moveConsumer uncleared rfl ⟨held, rfl, r, rest, window, ?_, ?_⟩, trivial⟩
      · change r.stop ≤ s.released + (s.published - s.released)
        omega
      · change s.released + (s.published - s.released) ≤ s.published
        omega
  | acquireLoadMeta readPos used =>
    rw [at_] at taken
    have both := Option.some.inj taken
    have result := inv.acquireMeta at_
    rw [both] at result
    exact result
  | acquireClearFake header readPos stride =>
    rw [at_] at taken consumer uncleared
    obtain ⟨held, pos, place, r, rest, window, atStart, padding, same, published⟩ := consumer
    cases Option.some.inj taken
    rw [place]
    exact ⟨inv.clear window uncleared rfl (Or.inl ⟨padding, atStart⟩)
      ⟨held, pos, r, rest, window, atStart, padding, same, published⟩, trivial⟩
  | acquireStoreRead readPos stride =>
    rw [at_] at taken
    cases Option.some.inj taken
    exact ⟨inv.skipFake at_, trivial⟩
  | releaseLoadRead record =>
    rw [at_] at taken consumer uncleared
    obtain ⟨loan, held, lent, same⟩ := consumer
    cases Option.some.inj taken
    exact ⟨inv.moveConsumer uncleared rfl ⟨loan, held, lent, same, inv.readPos⟩, trivial⟩
  | releaseLoadWrite record readPos =>
    rw [at_] at taken consumer uncleared
    obtain ⟨loan, held, lent, same, pos⟩ := consumer
    obtain ⟨r, rest, window, place, published, _⟩ := id lent
    have member : r ∈ s.window := by simp [window]
    have ends := (inv.reservations r member).recordStop
    have total := (inv.reservations r member).planned.totalPos
    have word := sizeofSizeTPos abi
    simp only [pos, inv.usedExact, same, inv.releaseHeaderExact lent,
      if_neg (by omega : ¬ s.published - s.released > s.ring.capacity),
      if_neg (by omega : ¬ s.published - s.released = 0)] at taken
    cases Option.some.inj taken
    refine ⟨inv.moveConsumer uncleared rfl ⟨loan, held, lent, rfl, rfl, r, rest, window, ?_, ?_⟩, trivial⟩
    · change r.stop ≤ s.released + (s.published - s.released)
      omega
    · change s.released + (s.published - s.released) ≤ s.published
      omega
  | releaseLoadMeta header readPos used =>
    rw [at_] at taken
    have both := Option.some.inj taken
    have result := inv.releaseMeta at_
    rw [both] at result
    exact result
  | releaseClear header readPos stride =>
    rw [at_] at taken consumer uncleared
    obtain ⟨loan, held, lent, pos, place, total⟩ := consumer
    obtain ⟨r, rest, window, atRecord, _⟩ := id lent
    cases Option.some.inj taken
    rw [place]
    exact ⟨inv.clear window uncleared rfl (Or.inr atRecord) ⟨loan, held, lent, pos, total⟩, trivial⟩
  | releaseStoreRead readPos stride =>
    rw [at_] at taken
    cases Option.some.inj taken
    exact ⟨inv.releaseHead at_, rfl⟩

end Inv

theorem Inv.heldBorrowed {s : State abi ι} (inv : Inv s) {loan : Loan} (held : s.held = some loan) :
    Borrowed s loan := by
  have consumer := inv.consumer
  unfold ConsumerHolds at consumer
  split at consumer
  · exact consumer loan held
  · rw [consumer] at held
    contradiction
  · rw [consumer.1] at held
    contradiction
  · rw [consumer.1] at held
    contradiction
  · rw [consumer.1] at held
    contradiction
  · rw [consumer.1] at held
    contradiction
  all_goals
    obtain ⟨loan', held', lent, _⟩ := consumer
    rw [held] at held'
    cases Option.some.inj held'
    exact lent

/-! Whole runs. -/

theorem initInv {storage capacity : Nat} {bytes : Store} {ring : Ring}
    (ok : init abi storage bytes capacity = some ring) : Inv (State.initial ring : State abi ι) := by
  unfold init at ok
  split at ok
  · contradiction
  · rename_i given
    split at ok
    · contradiction
    · split at ok
      · contradiction
      · rename_i accepted
        cases Option.some.inj ok
        have valid : capacityIsValid abi capacity = true := by simpa using accepted
        have zero : 0 = abi.wrap 0 := (Nat.zero_mod _).symm
        refine ⟨?_, zero, zero, zero, Nat.le_refl _, Nat.le_refl _, Nat.zero_le _, Nat.dvd_zero _, Nat.dvd_zero _,
          Nat.le_refl _, rfl, ⟨0, rfl, Or.inl rfl⟩, by simp [State.window, State.initial], fun _ => trivial, Or.inl rfl,
          by simp [State.window, State.initial], ?_⟩
        · simp [Ring.isValid, State.initial, given, valid]
        · intro loan none_
          contradiction

theorem startsInv (s : State abi ι) (starts : Starts abi s) : Inv s := by
  obtain ⟨storage, bytes, capacity, ring, ok, rfl⟩ := starts
  exact initInv ok

variable [DecidableEq ι]

theorem Inv.step {s s' : State abi ι} (inv : Inv s) {a : Action abi ι} {e : Event ι} (fresh : NoLap s a)
    (taken : MpscRecordRing.step s a = some (s', e)) : Inv s' := by
  cases a with
  | push p parts => exact inv.pushStep taken
  | producer p spurious => exact inv.producerStep fresh taken
  | acquire => exact (inv.acquireStep taken).1
  | release => exact (inv.releaseStep taken).1
  | consumer => exact (inv.consumerStep taken).1

theorem reachableInv {s : State abi ι} (reach : ReachableNoLap s) : Inv s :=
  reach.invariant startsInv fun _ _ _ _ inv fresh taken => inv.step fresh taken

end Nanosig.MpscRecordRing
