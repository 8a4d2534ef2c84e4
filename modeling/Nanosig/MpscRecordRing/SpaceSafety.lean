import Nanosig.MpscRecordRing.Calls

/-! Space safety: what each unreleased reservation owns in storage, who writes
there, and what the consumer's calls return. Without the lap assumption a CAS
one lap late breaks it; the end of the module runs that schedule. -/
namespace Nanosig.MpscRecordRing
open ByteStore TransitionSystem

variable {abi : Abi} {ι : Type}

/- The blocks a reservation still owns, by position: its fake record until the
read position has passed it, and its record. -/
def Reservation.blocks (r : Reservation abi ι) (released : Nat) : List (Nat × Nat) :=
  (if r.plan.fakeSize ≠ 0 ∧ released ≤ r.start then [(r.start, r.plan.fakeSize)] else []) ++
    [(r.recordAt, r.plan.recordTotalSize)]

def Inside (capacity : Nat) (block : Nat × Nat) (a : Nat) : Prop :=
  block.1 % capacity ≤ a ∧ a < block.1 % capacity + block.2

def Describes (s : State abi ι) (r : Reservation abi ι) (word : Nat) : Prop :=
  (r.plan.fakeSize ≠ 0 ∧ s.ring.readPos = abi.wrap r.start ∧ MetaDecodes abi word r.plan.fakeSize 0 true) ∨
  (s.ring.readPos = abi.wrap r.recordAt ∧
    MetaDecodes abi word r.plan.recordTotalSize r.plan.paddingSize false ∧
    payloadSize abi word = some r.payload.length)

structure SpaceSafe [DecidableEq ι] (s : State abi ι) : Prop where
  used : abi.sub s.ring.writePos s.ring.readPos ≤ abi.sub s.ring.reservePos s.ring.readPos
  fits : abi.sub s.ring.reservePos s.ring.readPos ≤ s.ring.capacity
  contiguous : ∀ r ∈ s.window, ∀ b ∈ r.blocks s.released, Contiguous s.ring.capacity b.1 b.2
  apart : ∀ r ∈ s.window, ∀ r' ∈ s.window, r ≠ r' → ∀ b ∈ r.blocks s.released, ∀ b' ∈ r'.blocks s.released,
    ∀ a, Inside s.ring.capacity b a → ¬ Inside s.ring.capacity b' a
  writers : ∀ p spurious s' e, step s (.producer p spurious) = some (s', e) →
    ∀ a, s'.ring.bytes a ≠ s.ring.bytes a → ∃ stage r, s.producers p = .writing stage r ∧ r ∈ s.window ∧
      ∃ b ∈ r.blocks s.released, Inside s.ring.capacity b a
  header : s.ring.readPos ≠ s.ring.writePos → ∃ r rest, s.window = r :: rest ∧
    (s.ring.loadMeta abi (s.ring.offset s.ring.readPos) = 0 ∨
      Describes s r (s.ring.loadMeta abi (s.ring.offset s.ring.readPos)))
  acquired : ∀ a s' rc, step s a = some (s', .acquireReturned rc) → rc = .ok ∨ rc = .empty
  released : ∀ a s' rc, step s a = some (s', .releaseReturned rc) → rc = .ok ∧
    ∃ loan r rest, s.held = some loan ∧ s.window = r :: rest ∧ loan.size = r.payload.length ∧
      s'.ring.readPos = abi.wrap (s.ring.readPos + r.plan.recordTotalSize)

theorem changedInside {capacity start len at_ : Nat} {m : Store} {bytes : List UInt8} {a : Nat}
    (changed : write m at_ bytes a ≠ m a) (place : at_ = start % capacity) (length : bytes.length ≤ len) :
    Inside capacity (start, len) a := by
  have within := writeChanged changed
  unfold Inside
  dsimp only
  omega

namespace Inv

variable {s : State abi ι} (inv : Inv s)
include inv

theorem blockBounds {r : Reservation abi ι} (member : r ∈ s.window) {b : Nat × Nat}
    (block : b ∈ r.blocks s.released) :
    s.released ≤ b.1 ∧ r.start ≤ b.1 ∧ b.1 + b.2 ≤ r.stop ∧ Contiguous s.ring.capacity b.1 b.2 := by
  have v := inv.reservations r member
  have g := inv.geometry
  have ends := v.recordStop
  have start : r.start ≤ r.recordAt := Nat.le_add_right _ _
  unfold Reservation.blocks at block
  rcases List.mem_append.mp block with fake | record
  · split at fake
    · rename_i owned
      obtain rfl := List.mem_singleton.mp fake
      unfold Reservation.recordAt at ends
      exact ⟨owned.2, Nat.le_refl _, by dsimp only; omega, v.planned.fakeContiguous owned.1⟩
    · simp at fake
  · obtain rfl := List.mem_singleton.mp record
    exact ⟨inv.releasedLeRecord member, start, Nat.le_of_eq ends, v.planned.recordContiguous g.positive⟩

theorem blocksApart {r r' : Reservation abi ι} (member : r ∈ s.window) (member' : r' ∈ s.window)
    (different : r ≠ r') {b b' : Nat × Nat} (block : b ∈ r.blocks s.released)
    (block' : b' ∈ r'.blocks s.released) {a : Nat} (inside : Inside s.ring.capacity b a) :
    ¬ Inside s.ring.capacity b' a := by
  obtain ⟨low, start, stop, piece⟩ := inv.blockBounds member block
  obtain ⟨low', start', stop', piece'⟩ := inv.blockBounds member' block'
  have room := inv.stopInRoom member
  have room' := inv.stopInRoom member'
  unfold Inside at *
  rcases inv.apart member' member different with before | after
  · have := apartInStorage piece (by omega) (by omega) piece'
    omega
  · have := apartInStorage piece' (by omega) (by omega) piece
    omega

theorem writersInside [DecidableEq ι] {p : ι} {stage : WriteStage abi} {r : Reservation abi ι}
    (at_ : s.producers p = .writing stage r) {a : Nat}
    (changed : (MpscRecordRing.writeStep s p r stage).1.ring.bytes a ≠ s.ring.bytes a) :
    r ∈ s.window ∧ ∃ b ∈ r.blocks s.released, Inside s.ring.capacity b a := by
  obtain ⟨member, _, span⟩ := inv.writing at_
  refine ⟨member, ?_⟩
  have holds := inv.producers p
  rw [at_] at holds
  have v := inv.reservations r member
  have g := inv.geometry
  have total := v.planned.totalPos
  have split := v.recordSplit
  have record : (r.recordAt, r.plan.recordTotalSize) ∈ r.blocks s.released := List.mem_append_right _ (by simp)
  cases stage with
  | storeFake =>
    have fake : r.plan.fakeSize ≠ 0 := holds.2.2.2
    have word := v.fakeWord g fake
    have begins := (span trivial).1
    have order := inv.readWrite
    have owned : r.plan.fakeSize ≠ 0 ∧ s.released ≤ r.start := ⟨fake, by omega⟩
    have place : r.plan.fakeHeader.getD 0 = r.start % s.ring.capacity := v.planned.fakePlace fake
    refine ⟨(r.start, r.plan.fakeSize), List.mem_append_left _ ?_, ?_⟩
    · rw [if_pos owned]
      simp
    · exact changedInside changed place (by rw [wordBytesLength]; exact word)
  | markUncommitted =>
    exact ⟨_, record, changedInside changed v.recordHeader (by rw [wordBytesLength]; exact total)⟩
  | publish => exact absurd rfl changed
  | copy written rest =>
    cases rest with
    | nil =>
      exact ⟨_, record, changedInside changed v.recordHeader (by rw [wordBytesLength]; exact total)⟩
    | cons part rest =>
      unfold MpscRecordRing.writeStep at changed
      dsimp only at changed
      split at changed
      · rename_i nonempty
        obtain ⟨_, _, _, done, parts, count⟩ := holds
        have sizes := v.push.parts part (by rw [parts]; simp)
        have fits : written + part.size ≤ r.payload.length := by
          have whole : r.payload = payload done ++ (part.copied ++ payload rest) := by
            unfold Reservation.payload payload
            rw [parts, List.flatMap_append, List.flatMap_cons]
          rw [whole, List.length_append, List.length_append]
          omega
        obtain ⟨place, block⟩ := v.recordBlock g (abi.sizeofSizeT + written)
          (by omega : abi.sizeofSizeT + written + part.size ≤ _) (by omega)
        have dst := v.copyPlace g rfl (by omega : abi.sizeofSizeT < r.plan.recordTotalSize)
        rw [dst] at changed
        have inside : Inside s.ring.capacity (r.recordAt + (abi.sizeofSizeT + written), part.size) a :=
          changedInside changed (by omega) (Nat.le_of_eq sizes)
        refine ⟨_, record, ?_⟩
        unfold Inside at inside ⊢
        dsimp only at inside ⊢
        omega
      · exact absurd rfl changed

theorem producerInside [DecidableEq ι] {p : ι} {spurious : Bool} {s' : State abi ι} {e : Event ι}
    (taken : MpscRecordRing.step s (.producer p spurious) = some (s', e)) {a : Nat}
    (changed : s'.ring.bytes a ≠ s.ring.bytes a) :
    ∃ stage r, s.producers p = .writing stage r ∧ r ∈ s.window ∧
      ∃ b ∈ r.blocks s.released, Inside s.ring.capacity b a := by
  simp only [MpscRecordRing.step, MpscRecordRing.producerStep] at taken
  cases at_ : s.producers p with
  | idle => simp [at_] at taken
  | loadWrite push =>
    rw [at_] at taken
    cases Option.some.inj taken
    exact absurd rfl changed
  | loadRead push writePos seen =>
    rw [at_] at taken
    dsimp only at taken
    split at taken <;> cases Option.some.inj taken <;> exact absurd rfl changed
  | casReserve push writePos plan seen seenReleased =>
    rw [at_] at taken
    dsimp only at taken
    split at taken <;> cases Option.some.inj taken <;> exact absurd rfl changed
  | writing stage r =>
    rw [at_] at taken
    have state := congrArg Prod.fst (Option.some.inj taken)
    dsimp only at state
    rw [← state] at changed
    exact ⟨stage, r, rfl, inv.writersInside at_ changed⟩

theorem headerDescribes (apart : s.ring.readPos ≠ s.ring.writePos) : ∃ r rest, s.window = r :: rest ∧
    (s.ring.loadMeta abi (s.ring.offset s.ring.readPos) = 0 ∨
      Describes s r (s.ring.loadMeta abi (s.ring.offset s.ring.readPos))) := by
  have g := inv.geometry
  have some_ : s.released < s.published := by
    by_contra none_
    have same : s.released = s.published := by
      have := inv.readWrite
      omega
    exact apart (by rw [inv.readPos, inv.writePos, same])
  obtain ⟨r, rest, window, published⟩ := inv.headPublished some_
  have member : r ∈ s.window := by simp [window]
  have v := inv.reservations r member
  have stored := inv.stored r member
  refine ⟨r, rest, window, ?_⟩
  have offset : s.ring.offset s.ring.readPos = s.released % s.ring.capacity := by
    rw [inv.readPos]
    exact g.offsetMod rfl s.released
  unfold Ring.loadMeta
  rw [offset]
  cases cleared : s.cleared with
  | false =>
    have found := inv.headWord cleared window published
    generalize loadWord abi.sizeofSizeT s.ring.bytes (s.released % s.ring.capacity) = word at found ⊢
    cases found with
    | fake padding place =>
      exact Or.inr (Or.inl ⟨padding, by rw [inv.readPos, place], v.fakeMeta g⟩)
    | uncommitted place pending => exact Or.inl rfl
    | committed place done =>
      refine Or.inr (Or.inr ⟨by rw [inv.readPos, place], v.validMeta g, ?_⟩)
      rw [v.payloadLength]
      exact payloadSizeRoundTrip (v.validMeta g) v.planned.split
  | true =>
    -- Between the consumer's two stores the word is zero.
    left
    obtain ⟨fakeStored, header⟩ := inv.publishedProgress member published
    rw [cleared] at stored
    have atRecord : s.released = r.recordAt →
        loadWord abi.sizeofSizeT s.ring.bytes (s.released % s.ring.capacity) = 0 := by
      intro place
      have word : ∃ w, (s.progress r).header = some w := by
        rcases header with pending | done
        · exact ⟨0, pending⟩
        · exact ⟨_, congrArg Progress.header done⟩
      obtain ⟨w, hw⟩ := word
      have zero := stored.header w hw
      rw [if_pos ⟨rfl, place⟩] at zero
      rw [place]
      exact zero
    rcases inv.headPlace window with place | ⟨_, place⟩
    · by_cases padding : r.plan.fakeSize = 0
      · exact atRecord (by unfold Reservation.recordAt; omega)
      · have zero := stored.fake fakeStored padding (Nat.le_of_eq place)
        rw [if_pos ⟨rfl, place⟩] at zero
        rw [place]
        exact zero
    · exact atRecord place

theorem releaseAdvances {s' : State abi ι} {rc : Status}
    (taken : MpscRecordRing.consumerStep s = some (s', .releaseReturned rc)) :
    rc = .ok ∧ ∃ loan r rest, s.held = some loan ∧ s.window = r :: rest ∧ loan.size = r.payload.length ∧
      s'.ring.readPos = abi.wrap (s.ring.readPos + r.plan.recordTotalSize) := by
  have sound : rc = .ok := (inv.consumerStep taken).2
  refine ⟨sound, ?_⟩
  have consumer := inv.consumer
  unfold ConsumerHolds at consumer
  unfold MpscRecordRing.consumerStep at taken
  cases at_ : s.consumer with
  | releaseStoreRead readPos stride =>
    rw [at_] at taken consumer
    obtain ⟨loan, held, ⟨r, rest, window, _, _, _, _, size, _⟩, pos, total⟩ := consumer
    have v := inv.reservations r (by simp [window])
    cases Option.some.inj taken
    refine ⟨loan, r, rest, held, window, by rw [size, v.payloadLength], ?_⟩
    rw [total r (by simp [window]), pos, inv.readPos]
  | releaseLoadWrite record readPos =>
    rw [at_] at taken consumer
    obtain ⟨loan, held, lent, same, pos⟩ := consumer
    rw [sound] at taken
    dsimp only at taken
    split at taken
    · cases Option.some.inj taken
    · split at taken
      · cases Option.some.inj taken
      · split at taken <;> cases Option.some.inj taken
  | releaseLoadMeta header readPos used =>
    rw [at_] at taken consumer
    obtain ⟨loan, held, lent, pos, place, r, rest, window, _⟩ := consumer
    have both := Option.some.inj taken
    rw [inv.releaseMetaSpec at_ window] at both
    cases congrArg Prod.snd both
  | acquireLoadWrite readPos =>
    rw [at_] at taken
    dsimp only at taken
    split at taken
    · cases Option.some.inj taken
    · split at taken <;> cases Option.some.inj taken
  | acquireLoadMeta readPos used =>
    rw [at_] at taken consumer
    obtain ⟨held, pos, r, rest, window, inside, published⟩ := consumer
    obtain ⟨fake, uncommitted, committed⟩ := inv.acquireMetaSpec at_ window
    have both := Option.some.inj taken
    by_cases place : s.released = r.recordAt
    · by_cases done : s.progress r = r.committed
      · rw [committed place done] at both
        cases congrArg Prod.snd both
      · rw [uncommitted place done] at both
        cases congrArg Prod.snd both
    · rw [fake place] at both
      cases congrArg Prod.snd both
  | idle =>
    rw [at_] at taken
    contradiction
  | _ =>
    rw [at_] at taken
    cases Option.some.inj taken

end Inv

variable [DecidableEq ι]

theorem writeStepEvent (s : State abi ι) (p : ι) (r : Reservation abi ι) (stage : WriteStage abi) :
    (writeStep s p r stage).2 = .access ∨ (writeStep s p r stage).2 = .pushReturned p .ok := by
  unfold writeStep
  split
  all_goals first
    | exact Or.inl rfl
    | exact Or.inr rfl

theorem producerEvent {s s' : State abi ι} {p : ι} {spurious : Bool} {e : Event ι}
    (taken : producerStep s p spurious = some (s', e)) : e = .access ∨ ∃ rc, e = .pushReturned p rc := by
  unfold producerStep at taken
  split at taken
  · contradiction
  · cases Option.some.inj taken
    exact Or.inl rfl
  · split at taken <;> cases Option.some.inj taken
    · exact Or.inr ⟨_, rfl⟩
    · exact Or.inl rfl
  · split at taken <;> cases Option.some.inj taken <;> exact Or.inl rfl
  · rename_i stage r at_
    have event := congrArg Prod.snd (Option.some.inj taken)
    dsimp only at event
    rcases writeStepEvent s p r stage with h | h
    · exact Or.inl (event.symm.trans h)
    · exact Or.inr ⟨_, event.symm.trans h⟩

theorem pushEvent {s s' : State abi ι} {p : ι} {parts : Option (List (Part abi))} {e : Event ι}
    (taken : pushStep s p parts = some (s', e)) : e = .access ∨ ∃ rc, e = .pushReturned p rc := by
  unfold pushStep at taken
  split at taken
  · split at taken <;> cases Option.some.inj taken
    · exact Or.inr ⟨_, rfl⟩
    · exact Or.inl rfl
  · contradiction

/- Every state reached while no CAS is a full lap late is space safe. -/
theorem spaceSafe {s : State abi ι} (reach : ReachableNoLap s) : SpaceSafe s := by
  have inv := reachableInv reach
  obtain ⟨used, reserved⟩ := inv.wrappedPositions
  have order := inv.writeReserve
  have room := inv.room
  refine ⟨by omega, by omega, ?_, ?_, ?_, inv.headerDescribes, ?_, ?_⟩
  · intro r member b block
    exact (inv.blockBounds member block).2.2.2
  · intro r member r' member' different b block b' block' a inside
    exact inv.blocksApart member member' different block block' inside
  · intro p spurious s' e taken a changed
    exact inv.producerInside taken changed
  · intro a s' rc taken
    cases a with
    | push p parts =>
      rcases pushEvent taken with h | ⟨_, h⟩ <;> contradiction
    | producer p spurious =>
      rcases producerEvent taken with h | ⟨_, h⟩ <;> contradiction
    | acquire => exact (inv.acquireStep taken).2
    | release =>
      simp only [step, releaseStep] at taken
      split at taken
      · contradiction
      · split at taken
        · contradiction
        · split at taken <;> cases Option.some.inj taken
    | consumer => exact (inv.consumerStep taken).2
  · intro a s' rc taken
    cases a with
    | push p parts =>
      rcases pushEvent taken with h | ⟨_, h⟩ <;> contradiction
    | producer p spurious =>
      rcases producerEvent taken with h | ⟨_, h⟩ <;> contradiction
    | acquire =>
      simp only [step, acquireStep] at taken
      split at taken
      · contradiction
      · split at taken <;> cases Option.some.inj taken
    | release =>
      have impossible := taken
      simp only [step, releaseStep] at impossible
      split at impossible
      · contradiction
      · rename_i idle
        split at impossible
        · contradiction
        · rename_i loan held
          have lent := inv.heldBorrowed held
          obtain ⟨r, rest, _, _, _, _, record, _, _⟩ := lent
          have nonzero := inv.storageNonzero
          rw [if_neg (by simp only [inv.valid]; simp; omega)] at impossible
          cases Option.some.inj impossible
    | consumer => exact inv.releaseAdvances taken

/- A state in the middle of a push, reached by the first five accesses of one producer. -/
theorem spaceSafeMidPush : ∃ s : State .lp64 Unit,
    (∃ stage r, s.producers () = .writing stage r) ∧ SpaceSafe s := by
  have evaluated : ((init .lp64 4096 (fun _ => 0) 64).any fun ring =>
      (execute step (State.initial ring : State .lp64 Unit) (.push () (some [.ofBytes [1, 2, 3] (by decide)]) ::
        List.replicate 4 (.producer () false))).any fun ran =>
        (∀ v ∈ ran.1, NoLap v.state v.label) ∧
          (ran.2.producers ()).isWriting = true) = true := by
    decide +kernel
  obtain ⟨ring, made, rest⟩ := (Option.any_eq_true _ _).mp evaluated
  obtain ⟨⟨visits, s⟩, ran, checked⟩ := (Option.any_eq_true _ _).mp rest
  obtain ⟨fresh, middle⟩ := of_decide_eq_true checked
  have reach : ReachableNoLap s := (executeRun ran fresh).reachable (.start ⟨4096, fun _ => 0, 64, ring, made, rfl⟩)
  exact ⟨s, isWritingIff.mp middle, spaceSafe reach⟩

/-! The schedule one lap late. Producer `true` loads both positions and stops
before its CAS; producer `false` and the consumer move the ring by `2^w` bytes. -/

def word4 : Part .ilp32 := .ofBytes [0, 0, 0, 0] (by decide)

def latePush : Push .ilp32 := ⟨[word4], 4⟩

def latePlan : PushPlan := ⟨4, 8, 8, 0, 0, 0, none, 0⟩

def Late (s : State .ilp32 Bool) : Prop :=
  ReachableNoLap s ∧ s.producers false = .idle ∧ s.producers true = .casReserve latePush 0 latePlan 0 0 ∧
    s.ring.capacity = 16 ∧ s.ring.storage = 4096

theorem lateChecked {s : State .ilp32 Bool} (inv : Inv s) (capacity : s.ring.capacity = 16) :
    tryPushvChecks .ilp32 s.ring (some [word4]) = some ([word4], 4) := by
  have most : s.ring.maxRecordSize .ilp32 = 4 := by
    unfold Ring.maxRecordSize
    rw [inv.valid, capacity]
    rfl
  have sum : sumParts .ilp32 0 [word4] = some 4 := rfl
  unfold tryPushvChecks
  rw [inv.valid]
  simp [sum, most]

theorem lateNeeded (k : Nat) : needed .ilp32 16 (8 * k) 4 = 8 := by
  have total : recordTotal .ilp32 4 = 8 := rfl
  unfold needed tailPadding
  rw [total, if_neg (by omega)]

theorem lateStart : ∃ s : State .ilp32 Bool, Late s ∧ Drained s ∧ s.published = 0 := by
  obtain ⟨ring, made⟩ : ∃ ring, init .ilp32 4096 (fun _ => 0) 16 = some ring := ⟨_, rfl⟩
  have inv : Inv (State.initial ring : State .ilp32 Bool) := initInv made
  have capacity : ring.capacity = 16 ∧ ring.writePos = 0 ∧ ring.readPos = 0 ∧ ring.storage = 4096 := by
    cases Option.some.inj made
    exact ⟨rfl, rfl, rfl, rfl⟩
  obtain ⟨sixteen, write, read, storage⟩ := capacity
  have checked := lateChecked inv sixteen
  have planned : planPush .ilp32 ring 4 0 0 = some latePlan := by
    unfold planPush Ring.offset
    rw [sixteen]
    rfl
  let s₁ : State .ilp32 Bool := (State.initial ring).setProducer true (.loadWrite latePush)
  let s₂ := s₁.setProducer true (.loadRead latePush 0 0)
  let s₃ := s₂.setProducer true (.casReserve latePush 0 latePlan 0 0)
  have push : step (State.initial ring) (.push true (some [word4])) = some (s₁, .access) := by
    simp only [step, pushStep, checked]
    rfl
  have loadWrite : step s₁ (.producer true false) = some (s₂, .access) := by
    simp only [step, producerStep, s₁, State.setProducer, Function.update_self]
    change some ((s₁.setProducer true (.loadRead latePush ring.writePos 0)), _) = _
    rw [write]
  have loadRead : step s₂ (.producer true false) = some (s₃, .access) := by
    simp only [step, producerStep, s₂, State.setProducer, Function.update_self]
    have again : planPush .ilp32 s₁.ring latePush.recordSize 0 s₁.ring.readPos = some latePlan := by
      rw [show s₁.ring.readPos = 0 from read]
      exact planned
    rw [again]
    rfl
  have free : NoLap (State.initial ring : State .ilp32 Bool) (.push true (some [word4])) := trivial
  have reach₁ : ReachableNoLap s₁ := .next (.start ⟨_, _, _, ring, made, rfl⟩) free push
  have reach₂ : ReachableNoLap s₂ := .next reach₁ (by simp [NoLap, s₁, State.setProducer]) loadWrite
  have reach : ReachableNoLap s₃ := .next reach₂ (by simp [NoLap, s₂, State.setProducer]) loadRead
  have inv₃ := reachableInv reach
  refine ⟨s₃, ⟨reach, rfl, rfl, sixteen, storage⟩, ⟨inv₃, ?_, rfl, rfl, rfl⟩, rfl⟩
  intro q
  cases q <;> trivial

theorem lateCycles (k : Nat) : ∃ s : State .ilp32 Bool, Late s ∧ Drained s ∧ s.published = 8 * k := by
  induction k with
  | zero => exact lateStart
  | succ k ih =>
    obtain ⟨s, ⟨reach, idle, stopped, capacity, storage⟩, drained, published⟩ := ih
    have step8 : needed .ilp32 s.ring.capacity s.published 4 = 8 := by
      rw [capacity, published]
      exact lateNeeded k
    obtain ⟨s', ⟨_, run⟩, drained', still, moved⟩ :=
      pushAcquireRelease drained idle (lateChecked drained.inv capacity) (by omega)
    refine ⟨s', ⟨run.reachable reach, still.mine, ?_, still.capacity.trans capacity,
      still.storage.trans storage⟩, drained', by omega⟩
    exact (still.others true (by decide)).trans stopped

theorem lateFull : ∃ s : State .ilp32 Bool, Late s ∧ Inv s ∧ (∀ q, (s.producers q).Quiet) ∧
    s.published = 2 ^ 32 ∧ s.reserved = 2 ^ 32 ∧ s.released = 2 ^ 32 - 16 := by
  obtain ⟨s, ⟨reach, idle, stopped, capacity, storage⟩, drained, published⟩ := lateCycles (2 ^ 29 - 2)
  have first := lateNeeded (2 ^ 29 - 2)
  rw [← published, ← capacity] at first
  have level := drained.level
  obtain ⟨s₁, _, ⟨_, run₁⟩, inv₁, quiet₁, still₁, elsewhere₁, _, _, moved₁⟩ :=
    pushFits drained.inv drained.quiet idle (lateChecked drained.inv capacity) (by omega)
  have capacity₁ := still₁.capacity.trans capacity
  have second := lateNeeded (2 ^ 29 - 1)
  rw [show 8 * (2 ^ 29 - 1) = s₁.published by omega, ← capacity₁] at second
  have released₁ := elsewhere₁.released
  obtain ⟨s₂, _, ⟨_, run₂⟩, inv₂, quiet₂, still₂, elsewhere₂, _, _, moved₂⟩ :=
    pushFits inv₁ quiet₁ still₁.mine (lateChecked inv₁ capacity₁) (by omega)
  have all := inv₂.allPublished quiet₂
  have released₂ := elsewhere₂.released
  refine ⟨s₂, ⟨(run₁.append run₂).reachable reach, still₂.mine, ?_, still₂.capacity.trans capacity₁,
    still₂.storage.trans (still₁.storage.trans storage)⟩, inv₂, quiet₂, by omega, by omega, by omega⟩
  exact (still₂.others true (by decide)).trans ((still₁.others true (by decide)).trans stopped)

theorem lateCas {s : State .ilp32 Bool} (late : Late s) (inv : Inv s) (reserved : s.reserved = 2 ^ 32) :
    step s (.producer true false) = some (s.reserve true latePush 0 latePlan, .access) := by
  obtain ⟨_, _, stopped, _⟩ := late
  have agree : s.ring.reservePos = 0 := by
    rw [inv.reservePos, reserved]
    rfl
  simp only [step, producerStep, stopped, agree, and_self, if_true]

/- Without the lap assumption more is reserved than the ring holds. -/
theorem lapBreaksSpace : ∃ s : State .ilp32 Bool, Reachable s ∧ ¬ SpaceSafe s ∧
    s.ring.capacity < Abi.ilp32.sub s.ring.reservePos s.ring.readPos := by
  obtain ⟨s, late, inv, _, _, reserved, released⟩ := lateFull
  have taken := lateCas late inv reserved
  have excess : (s.reserve true latePush 0 latePlan).ring.capacity <
      Abi.ilp32.sub (s.reserve true latePush 0 latePlan).ring.reservePos
        (s.reserve true latePush 0 latePlan).ring.readPos := by
    change s.ring.capacity < Abi.ilp32.sub (Abi.ilp32.wrap (0 + latePlan.publishSize)) s.ring.readPos
    rw [late.2.2.2.1, inv.readPos, released]
    decide
  have reach : Reachable s := late.1.mono fun _ _ _ => trivial
  exact ⟨_, .next reach trivial taken, fun safe => absurd safe.fits (by omega), excess⟩

end Nanosig.MpscRecordRing
