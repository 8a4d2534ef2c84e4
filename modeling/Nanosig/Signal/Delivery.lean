import Nanosig.MpscRecordRing.Delivery
import Nanosig.Signal.SlotList

/-! Emits and dispatch: an emit appends one record a connection to the queues of their
loops, up to the first push that fails, and each loop calls what was appended, in order. -/
namespace Nanosig.Signal

open CircularList MpscRecordRing TransitionSystem

section Queue

variable {abi : Abi} {queue : MpscRecordRing.State abi Unit}

structure QueueHolds (queue : MpscRecordRing.State abi Unit) : Prop where
  inv : MpscRecordRing.Inv queue
  producer : queue.producers () = .idle
  consumer : queue.consumer = .idle

def recordsOf (queue : MpscRecordRing.State abi Unit) : List (List UInt8) := queue.log.map Reservation.payload

theorem QueueHolds.quiet (holds : QueueHolds queue) (p : Unit) : (queue.producers p).Quiet := by
  cases p
  rw [holds.producer]
  trivial

theorem acceptedReadable {payloadSize : Nat} {payload : Part abi} (accepted : emitRawAccepts payloadSize payload = true) :
    payload.copied.length = payload.size := by
  unfold emitRawAccepts at accepted
  split_ifs at accepted with size null
  cases data : payload.data with
  | some raw => simpa [Part.copied, data] using payload.readable raw data
  | none =>
    have zero : payload.size = 0 := by
      by_contra positive
      exact null ⟨Nat.pos_of_ne_zero positive, by simp [data]⟩
    simp [Part.copied, data, zero]

theorem slotCallChecks {ring : Ring} {slot : Slot abi} {payload : Part abi} {parts : List (Part abi)} {recordSize : Nat}
    (checked : tryPushvChecks abi ring (some (slotCallParts slot payload)) = some (parts, recordSize)) :
    parts = slotCallParts slot payload := by
  unfold tryPushvChecks at checked
  simp only [slotCallParts, List.isEmpty_cons, Bool.false_eq_true, if_false] at checked
  split_ifs at checked
  split at checked
  · contradiction
  · split_ifs at checked
    exact (Prod.mk.inj (Option.some.inj checked)).1.symm

theorem pushQueueSpec (holds : QueueHolds queue) (slot : Slot abi) (payload : Part abi) :
    ∃ queue' rc, pushCall queue () (some (slotCallParts slot payload)) = some (queue', rc) ∧ QueueHolds queue' ∧
      queue'.returned = queue.returned ∧ queue'.held = queue.held ∧
      recordsOf queue' = recordsOf queue ++ if rc = .ok then [MpscRecordRing.payload (slotCallParts slot payload)] else [] := by
  have spec := pushCallSpec holds.inv holds.quiet holds.producer (some (slotCallParts slot payload))
  cases checked : tryPushvChecks abi queue.ring (some (slotCallParts slot payload)) with
  | none =>
    rw [checked] at spec
    exact ⟨queue, .inval, spec, holds, rfl, rfl, by simp⟩
  | some pair =>
    obtain ⟨parts, recordSize⟩ := pair
    rw [checked] at spec
    obtain ⟨queue', rc, ran, inv, elsewhere, idle, ends⟩ := spec
    refine ⟨queue', rc, ran, ⟨inv, idle, elsewhere.consumer.trans holds.consumer⟩, elsewhere.returned, elsewhere.held, ?_⟩
    cases ends with
    | queueFull full log reserved => simp [recordsOf, log]
    | ok fits r pushed log reserved =>
      have record : r.payload = MpscRecordRing.payload (slotCallParts slot payload) := by
        rw [Reservation.payload, pushed, slotCallChecks checked]
      simp [recordsOf, log, record]

theorem acquireQueueSpec (holds : QueueHolds queue) :
    ∃ queue' rc, acquireCall queue = some (queue', rc) ∧ QueueHolds queue' ∧ queue'.returned = queue.returned ∧
      recordsOf queue' = recordsOf queue ∧
      match (recordsOf queue)[queue.returned.length]? with
      | none => rc = .empty ∧ queue'.held = none
      | some record => rc = .ok ∧ ∃ loan, queue'.held = some loan ∧ loan.readable queue' = record := by
  obtain ⟨queue', rc, ran, inv, same, idle, returned, lent⟩ := acquireCallSpec holds.inv holds.quiet holds.consumer
  have records : recordsOf queue' = recordsOf queue := by rw [recordsOf, same.log]; rfl
  refine ⟨queue', rc, ran, ⟨inv, by rw [same.producers]; exact holds.producer, idle⟩, returned, records, ?_⟩
  have head : (recordsOf queue)[queue.returned.length]? = queue.window.head?.map Reservation.payload := by
    rw [recordsOf, List.getElem?_map, State.window, List.head?_drop]
  rw [head]
  cases window : queue.window with
  | nil =>
    rw [window] at lent
    exact ⟨lent.1, lent.2.1⟩
  | cons r rest =>
    rw [window] at lent
    obtain ⟨ok, loan, held, bytes⟩ := lent
    obtain ⟨r', -, same', readable, -⟩ := inv.loanIntact held
    exact ⟨ok, loan, held, readable.trans (same'.symm.trans bytes)⟩

theorem releaseQueueSpec (holds : QueueHolds queue) {loan : Loan} (held : queue.held = some loan) :
    ∃ queue', releaseCall queue = some (queue', .ok) ∧ QueueHolds queue' ∧ queue'.held = none ∧
      queue'.returned.length = queue.returned.length + 1 ∧ recordsOf queue' = recordsOf queue := by
  obtain ⟨queue', ran, inv, same, idle, unheld, returned, -⟩ := releaseCallSpec holds.inv holds.consumer held
  exact ⟨queue', ran, ⟨inv, by rw [same.producers]; exact holds.producer, idle⟩, unheld, by simp [returned],
    by rw [recordsOf, same.log]; rfl⟩

theorem loanQueue (holds : QueueHolds queue) {loan : Loan} (held : queue.held = some loan) :
    (recordsOf queue)[queue.returned.length]? = some (loan.readable queue) := by
  obtain ⟨r, given, -, readable, -⟩ := holds.inv.loanIntact held
  rw [recordsOf, List.getElem?_map, given, readable]
  rfl

end Queue

section Emit

variable {abi : Abi} {σ κ ℓ : Type} [DecidableEq σ] [DecidableEq κ] [DecidableEq ℓ] {s s' s'' : State abi σ κ ℓ}

def sentTo (s : State abi σ κ ℓ) (sent : List κ) (target : ℓ) : List (Connection abi σ ℓ) :=
  (sent.filterMap s.connections).filter (·.targetLoop = target)

structure Emits (payload : Part abi) (sent : List κ) (s s' : State abi σ κ ℓ) : Prop where
  links : s'.links = s.links
  payloadSize : s'.payloadSize = s.payloadSize
  connections : s'.connections = s.connections
  connected : s'.connected = s.connected
  called : s'.called = s.called
  returned : ∀ l, (s'.queues l).returned = (s.queues l).returned
  held : ∀ l, (s'.queues l).held = (s.queues l).held
  records : ∀ l, recordsOf (s'.queues l) = recordsOf (s.queues l) ++
    (sentTo s sent l).map fun conn => MpscRecordRing.payload (slotCallParts conn.slot payload)
  emitted : ∀ l, s'.emitted l = s.emitted l ++ (sentTo s sent l).map fun conn => invocation conn.slot payload
  queues : ∀ l, QueueHolds (s'.queues l)

omit [DecidableEq σ] [DecidableEq κ] in
theorem emitsNothing (payload : Part abi) (queues : ∀ l, QueueHolds (s.queues l)) : Emits payload [] s s := by
  constructor <;> simp [sentTo, queues]

omit [DecidableEq σ] [DecidableEq κ] in
theorem Emits.trans {payload : Part abi} {first more : List κ} (emits : Emits payload first s s') (then_ : Emits payload more s' s'') :
    Emits payload (first ++ more) s s'' where
  links := then_.links.trans emits.links
  payloadSize := then_.payloadSize.trans emits.payloadSize
  connections := then_.connections.trans emits.connections
  connected := then_.connected.trans emits.connected
  called := then_.called.trans emits.called
  returned l := (then_.returned l).trans (emits.returned l)
  held l := (then_.held l).trans (emits.held l)
  records l := by
    rw [then_.records, emits.records]
    simp [sentTo, emits.connections]
  emitted l := by
    rw [then_.emitted, emits.emitted]
    simp [sentTo, emits.connections]
  queues := then_.queues

omit [DecidableEq σ] [DecidableEq κ] in
theorem emitsOne {payload : Part abi} {c : κ} {conn : Connection abi σ ℓ} {queue : MpscRecordRing.State abi Unit}
    (queues : ∀ l, QueueHolds (s.queues l)) (given : s.connections c = some conn) (holds : QueueHolds queue)
    (returned : queue.returned = (s.queues conn.targetLoop).returned) (held : queue.held = (s.queues conn.targetLoop).held)
    (records : recordsOf queue = recordsOf (s.queues conn.targetLoop) ++ [MpscRecordRing.payload (slotCallParts conn.slot payload)]) :
    Emits payload [c] s (noteEmitted (setQueue s conn.targetLoop queue) conn.targetLoop (invocation conn.slot payload)) := by
  have here : ∀ l, sentTo s [c] l = if conn.targetLoop = l then [conn] else [] := fun l => by
    simp [sentTo, given, List.filter_singleton]
  refine ⟨rfl, rfl, rfl, rfl, rfl, fun l => ?_, fun l => ?_, fun l => ?_, fun l => ?_, fun l => ?_⟩ <;>
    by_cases same : conn.targetLoop = l
  · subst same
    simp [noteEmitted, setQueue, returned]
  · simp [noteEmitted, setQueue, Ne.symm same]
  · subst same
    simp [noteEmitted, setQueue, held]
  · simp [noteEmitted, setQueue, Ne.symm same]
  · subst same
    simp [noteEmitted, setQueue, records, here]
  · simp [noteEmitted, setQueue, Ne.symm same, same, here]
  · subst same
    simp [noteEmitted, setQueue, here]
  · simp [noteEmitted, setQueue, Ne.symm same, same, here]
  · subst same
    simpa [noteEmitted, setQueue] using holds
  · simpa [noteEmitted, setQueue, Ne.symm same] using queues l

omit [DecidableEq σ] [DecidableEq κ] in
theorem emitsFailed {payload : Part abi} {target : ℓ} {queue : MpscRecordRing.State abi Unit}
    (queues : ∀ l, QueueHolds (s.queues l)) (holds : QueueHolds queue) (returned : queue.returned = (s.queues target).returned)
    (held : queue.held = (s.queues target).held) (records : recordsOf queue = recordsOf (s.queues target)) :
    Emits payload [] s (setQueue s target queue) := by
  refine ⟨rfl, rfl, rfl, rfl, rfl, fun l => ?_, fun l => ?_, fun l => ?_, fun l => ?_, fun l => ?_⟩ <;>
    by_cases same : l = target
  · simp [setQueue, same, returned]
  · simp [setQueue, same]
  · simp [setQueue, same, held]
  · simp [setQueue, same]
  · simp [setQueue, same, records, sentTo]
  · simp [setQueue, same, sentTo]
  · simp [setQueue, sentTo]
  · simp [setQueue, sentTo]
  · simpa [setQueue, same] using holds
  · simpa [setQueue, same] using queues l

/- How an emit over `rest` ends: after all of it, or at the connection whose push fails. -/
inductive EmitEnds (payload : Part abi) (rest : List κ) (s s' : State abi σ κ ℓ) : Status → Prop where
  | all (emits : Emits payload rest s s') : EmitEnds payload rest s s' .ok
  | failed (sent after : List κ) (c : κ) (conn : Connection abi σ ℓ) (rc : Status) (failed : rc ≠ .ok)
      (split : rest = sent ++ c :: after) (given : s.connections c = some conn)
      (push : ∃ before, recordsOf before = recordsOf (s'.queues conn.targetLoop) ∧
        pushCall before () (some (slotCallParts conn.slot payload)) = some (s'.queues conn.targetLoop, rc))
      (emits : Emits payload sent s s') : EmitEnds payload rest s s' rc

omit [DecidableEq κ] in
theorem emitLoopSpec (g : σ) (payload : Part abi) (rest : List κ) (queues : ∀ l, QueueHolds (s.queues l))
    (path : List.IsChain (Linked s.links) (rest.map Sum.inr ++ [Sum.inl g]))
    (given : ∀ c ∈ rest, ∃ conn, s.connections c = some conn) {fuel : Nat} (enough : rest.length < fuel) :
    ∃ s' rc, emitLoop s g payload fuel (rest.map Sum.inr ++ [Sum.inl g]).head? = some (s', rc) ∧
      EmitEnds payload rest s s' rc := by
  induction rest generalizing s fuel with
  | nil =>
    obtain ⟨more, rfl⟩ : ∃ more, fuel = more + 1 := ⟨fuel - 1, by simp at enough; omega⟩
    exact ⟨s, .ok, by simp [emitLoop], .all (emitsNothing payload queues)⟩
  | cons c rest ih =>
    obtain ⟨more, rfl⟩ : ∃ more, fuel = more + 1 := ⟨fuel - 1, by simp at enough; omega⟩
    obtain ⟨conn, here⟩ := given c List.mem_cons_self
    obtain ⟨queue, rc, ran, holds, returned, held, records⟩ := pushQueueSpec (queues conn.targetLoop) conn.slot payload
    by_cases ok : rc = .ok
    · subst ok
      rw [if_pos rfl] at records
      have one := emitsOne queues here holds returned held records
      have next : s.links.next (.inr c) = (rest.map Sum.inr ++ [Sum.inl g]).head? := by
        cases rest with
        | nil => exact (List.isChain_cons_cons.mp path).1.1
        | cons d rest => exact (List.isChain_cons_cons.mp path).1.1
      obtain ⟨s', rc', more_, ends⟩ := ih one.queues path.of_cons
        (fun d member => given d (List.mem_cons_of_mem _ member)) (Nat.lt_of_succ_lt_succ enough)
      refine ⟨s', rc', ?_, ?_⟩
      · simp only [List.map_cons, List.cons_append, List.head?_cons, emitLoop, here, Option.bind_some, ran, if_true]
        rw [← next] at more_
        exact more_
      · cases ends with
        | all emits => exact .all (one.trans emits)
        | failed sent after d other _ failed split given' push emits =>
          exact .failed (c :: sent) after d other _ failed (by rw [split]; rfl) given' push (one.trans emits)
    · rw [if_neg ok, List.append_nil] at records
      refine ⟨setQueue s conn.targetLoop queue, rc, ?_, ?_⟩
      · simp [emitLoop, here, ran, ok]
      · refine .failed [] rest c conn rc ok rfl here ⟨s.queues conn.targetLoop, ?_, ?_⟩ (emitsFailed queues holds returned held records)
        · simp [setQueue, records]
        · simp [setQueue, ran]

end Emit

section Delivery

variable {abi : Abi} {σ κ ℓ : Type} [DecidableEq σ] [DecidableEq κ] [DecidableEq ℓ] {s s' : State abi σ κ ℓ}

structure Inv (s : State abi σ κ ℓ) : Prop where
  lists : Lists s
  queues : ∀ l, QueueHolds (s.queues l)
  recorded : ∀ l, (recordsOf (s.queues l)).map (readSlotCall abi) = (s.emitted l).map some
  called : ∀ l, s.called l =
    (s.emitted l).take ((s.queues l).returned.length + if (s.queues l).held.isSome then 1 else 0)

omit [DecidableEq σ] [DecidableEq κ] [DecidableEq ℓ] in
theorem Inv.sameLength (inv : Inv s) (l : ℓ) : (recordsOf (s.queues l)).length = (s.emitted l).length := by
  have same := congrArg List.length (inv.recorded l)
  simpa using same

omit [DecidableEq σ] [DecidableEq κ] [DecidableEq ℓ] in
theorem Inv.within (inv : Inv s) (l : ℓ) :
    (s.queues l).returned.length + (if (s.queues l).held.isSome then 1 else 0) ≤ (s.emitted l).length := by
  rw [← inv.sameLength l]
  cases held : (s.queues l).held with
  | none => simpa [recordsOf] using (inv.queues l).inv.counted
  | some loan =>
    have lent := loanQueue (inv.queues l) held
    simpa using Nat.succ_le_of_lt (List.getElem?_eq_some_iff.mp lent).1

omit [DecidableEq σ] [DecidableEq κ] [DecidableEq ℓ] in
theorem Inv.calledLength (inv : Inv s) (l : ℓ) :
    (s.called l).length = (s.queues l).returned.length + if (s.queues l).held.isSome then 1 else 0 := by
  rw [inv.called l, List.length_take, Nat.min_eq_left (inv.within l)]

omit [DecidableEq σ] [DecidableEq κ] [DecidableEq ℓ] in
theorem Inv.readsNext (inv : Inv s) {l : ℓ} {n : Nat} {record : List UInt8} (here : (recordsOf (s.queues l))[n]? = some record) :
    ∃ slot, (s.emitted l)[n]? = some slot ∧ readSlotCall abi record = some slot := by
  have read := congrArg (·[n]?) (inv.recorded l)
  simp only [List.getElem?_map, here, Option.map_some] at read
  obtain ⟨slot, given, same⟩ := Option.map_eq_some_iff.mp read.symm
  exact ⟨slot, given, same.symm⟩

omit [DecidableEq σ] [DecidableEq κ] [DecidableEq ℓ] in
theorem Inv.relink (inv : Inv s) (lists : Lists s') (queues : s'.queues = s.queues) (emitted : s'.emitted = s.emitted)
    (called : s'.called = s.called) : Inv s' where
  lists := lists
  queues := by rw [queues]; exact inv.queues
  recorded := by rw [queues, emitted]; exact inv.recorded
  called := by rw [queues, emitted, called]; exact inv.called

omit [DecidableEq σ] [DecidableEq κ] in
theorem Inv.emits (inv : Inv s) {payload : Part abi} {sent : List κ} (readable : payload.copied.length = payload.size)
    (emits : Emits payload sent s s') : Inv s' where
  lists := ⟨by rw [emits.links, emits.connected]; exact inv.lists.lists,
    by rw [emits.connections, emits.connected]; exact inv.lists.own,
    by rw [emits.connections, emits.connected, emits.links]; exact inv.lists.alone⟩
  queues := emits.queues
  recorded l := by
    rw [emits.records, emits.emitted, List.map_append, List.map_append, inv.recorded, List.map_map, List.map_map]
    congr 1
    exact List.map_congr_left fun conn _ => readSlotCallParts conn.slot payload readable
  called l := by
    rw [emits.called, emits.returned, emits.held, emits.emitted, List.take_append_of_le_length (inv.within l)]
    exact inv.called l

omit [DecidableEq κ] in
theorem emitSpec (inv : Inv s) (g : σ) (payload : Part abi) {fuel : Nat} (enough : (s.connected g).length < fuel)
    (accepted : emitRawAccepts (s.payloadSize g) payload = true) :
    ∃ s' rc, emitRaw s g payload fuel = some (s', rc) ∧ EmitEnds payload (s.connected g) s s' rc ∧ Inv s' := by
  have list := inv.lists.lists g
  have path : List.IsChain (Linked s.links) ((s.connected g).map Sum.inr ++ [Sum.inl g]) := list.linked.of_cons
  have first : s.links.next (.inl g) = ((s.connected g).map Sum.inr ++ [Sum.inl g]).head? := by
    have linked := list.linked
    cases given : s.connected g with
    | nil =>
      rw [given] at linked
      exact (List.isChain_cons_cons.mp linked).1.1
    | cons c rest =>
      rw [given] at linked
      exact (List.isChain_cons_cons.mp linked).1.1
  have given : ∀ c ∈ s.connected g, ∃ conn, s.connections c = some conn := fun c member => by
    obtain ⟨conn, here, -⟩ := inv.lists.own g c member
    exact ⟨conn, here⟩
  obtain ⟨s', rc, ran, ends⟩ := emitLoopSpec g payload (s.connected g) inv.queues path given enough
  refine ⟨s', rc, by rw [emitRaw, if_pos accepted, first]; exact ran, ends, ?_⟩
  cases ends with
  | all emits => exact inv.emits (acceptedReadable accepted) emits
  | failed sent after c conn _ failed split given push emits => exact inv.emits (acceptedReadable accepted) emits

omit [DecidableEq σ] [DecidableEq κ] in
theorem acquireSpec (inv : Inv s) (l : ℓ) (free : (s.queues l).held = none) :
    ∃ s', Inv s' ∧ s'.connected = s.connected ∧ s'.emitted = s.emitted ∧
      (s'.queues l).held.isSome = ((s.emitted l)[(s.called l).length]?).isSome ∧
      match (s.emitted l)[(s.called l).length]? with
      | none => dispatchAcquire s l = some (s', .empty) ∧ s'.called = s.called
      | some slot => dispatchAcquire s l = some (s', .called slot) ∧
          s'.called = Function.update s.called l (s.called l ++ [slot]) := by
  have count : (s.called l).length = (s.queues l).returned.length := by simp [inv.calledLength l, free]
  obtain ⟨queue, rc, ran, holds, returned, records, lent⟩ := acquireQueueSpec (inv.queues l)
  have queues : ∀ k, QueueHolds (Function.update s.queues l queue k) := fun k => by
    by_cases same : k = l
    · subst same
      simpa using holds
    · simpa [same] using inv.queues k
  have recorded : ∀ k, (recordsOf (Function.update s.queues l queue k)).map (readSlotCall abi) = (s.emitted k).map some := fun k => by
    by_cases same : k = l
    · subst same
      simpa [records] using inv.recorded k
    · simpa [same] using inv.recorded k
  cases here : (recordsOf (s.queues l))[(s.queues l).returned.length]? with
  | none =>
    rw [here] at lent
    obtain ⟨rfl, unheld⟩ := lent
    have past : (s.emitted l)[(s.called l).length]? = none := by
      rw [count, List.getElem?_eq_none_iff, ← inv.sameLength l]
      exact List.getElem?_eq_none_iff.mp here
    rw [past]
    refine ⟨setQueue s l queue, ⟨⟨inv.lists.lists, inv.lists.own, inv.lists.alone⟩, queues, recorded, fun k => ?_⟩, rfl, rfl,
      by simp [setQueue, unheld], ?_, rfl⟩
    · show s.called k = (s.emitted k).take _
      by_cases same : k = l
      · subst same
        simp only [setQueue, Function.update_self, returned, unheld]
        simpa [free] using inv.called k
      · simpa [setQueue, same] using inv.called k
    · simp [dispatchAcquire, free, ran]
  | some record =>
    rw [here] at lent
    obtain ⟨rfl, loan, held, readable⟩ := lent
    obtain ⟨slot, given, reads⟩ := inv.readsNext here
    rw [count, given]
    refine ⟨{ setQueue s l queue with called := Function.update s.called l (s.called l ++ [slot]) },
      ⟨⟨inv.lists.lists, inv.lists.own, inv.lists.alone⟩, queues, recorded, fun k => ?_⟩, rfl, rfl,
      by simp [setQueue, held], ?_, rfl⟩
    · show Function.update s.called l (s.called l ++ [slot]) k = (s.emitted k).take _
      by_cases same : k = l
      · subst same
        have before : s.called k = (s.emitted k).take (s.queues k).returned.length := by simpa [free] using inv.called k
        simp only [setQueue, Function.update_self, returned, held, Option.isSome_some, if_true]
        rw [List.take_add_one, given, ← before]
        rfl
      · simpa [setQueue, same] using inv.called k
    · simp [dispatchAcquire, free, ran, held, readable, reads, setQueue]

omit [DecidableEq σ] [DecidableEq κ] in
theorem releaseSpec (inv : Inv s) (l : ℓ) {loan : Loan} (held : (s.queues l).held = some loan) :
    ∃ s', dispatchRelease s l = some (s', .released) ∧ Inv s' ∧ (s'.queues l).held = none ∧ s'.connected = s.connected ∧
      s'.emitted = s.emitted ∧ s'.called = s.called := by
  obtain ⟨queue, ran, holds, unheld, returned, records⟩ := releaseQueueSpec (inv.queues l) held
  refine ⟨setQueue s l queue, by simp [dispatchRelease, held, ran],
    ⟨⟨inv.lists.lists, inv.lists.own, inv.lists.alone⟩, fun k => ?_, fun k => ?_, fun k => ?_⟩, by simp [setQueue, unheld], rfl, rfl, rfl⟩
  · by_cases same : k = l
    · subst same
      simpa [setQueue] using holds
    · simpa [setQueue, same] using inv.queues k
  · by_cases same : k = l
    · subst same
      simpa [setQueue, records] using inv.recorded k
    · simpa [setQueue, same] using inv.recorded k
  · show s.called k = (s.emitted k).take _
    by_cases same : k = l
    · subst same
      simp only [setQueue, Function.update_self, returned, unheld]
      simpa [held] using inv.called k
    · simpa [setQueue, same] using inv.called k

theorem popAllMore {α : Type} [DecidableEq α] {links ended : Links α} {head : α} {fuel : Nat}
    (ran : popAll links head fuel = some ended) (more : Nat) : popAll links head (fuel + more) = some ended := by
  induction fuel generalizing links with
  | zero => contradiction
  | succ fuel ih =>
    rw [Nat.succ_add]
    unfold popAll at ran ⊢
    split_ifs at ran ⊢ with empty
    · exact ran
    · cases popped : links.popFront head with
      | none => simp [popped] at ran
      | some pair =>
        obtain ⟨node, links'⟩ := pair
        cases node with
        | none => simp [popped] at ran
        | some node =>
          simp only [popped] at ran ⊢
          exact ih ran

omit [DecidableEq κ] in
theorem emitLoopMore {g : σ} {payload : Part abi} {fuel : Nat} {node : Option (σ ⊕ κ)} {ended : State abi σ κ ℓ × Status}
    (ran : emitLoop s g payload fuel node = some ended) (more : Nat) :
    emitLoop s g payload (fuel + more) node = some ended := by
  induction fuel generalizing s node with
  | zero => cases node <;> contradiction
  | succ fuel ih =>
    rw [Nat.succ_add]
    rcases node with _ | h | c
    · contradiction
    · exact ran
    · simp only [emitLoop, Option.bind_eq_some_iff] at ran ⊢
      obtain ⟨conn, given, pushed, push, rest⟩ := ran
      refine ⟨conn, given, pushed, push, ?_⟩
      split_ifs at rest ⊢ with ok
      · exact ih rest
      · exact rest

theorem invKept {a : Action abi σ κ ℓ} {e : Event} (inv : Inv s) (permitted : Unlinked s a) (taken : step s a = some (s', e)) :
    Inv s' := by
  cases a with
  | connect g slot target c =>
    obtain ⟨⟨next, rc⟩, ran, same⟩ := Option.map_eq_some_iff.mp taken
    cases same
    by_cases null : slot.slotFn = 0
    · rw [connect, if_pos null] at ran
      cases ran
      exact inv
    · obtain ⟨links', made, lists⟩ := connectSpec inv.lists g slot target c permitted null
      cases made.symm.trans ran
      exact inv.relink lists rfl rfl rfl
  | disconnect c =>
    obtain ⟨⟨next, rc⟩, ran, same⟩ := Option.map_eq_some_iff.mp taken
    cases same
    obtain ⟨conn, given, -⟩ := Option.bind_eq_some_iff.mp ran
    obtain ⟨links', made, lists⟩ := disconnectSpec inv.lists c given
    cases made.symm.trans ran
    exact inv.relink lists rfl rfl rfl
  | disconnectAll g fuel =>
    obtain ⟨⟨next, rc⟩, ran, same⟩ := Option.map_eq_some_iff.mp taken
    cases same
    obtain ⟨links, popped, same⟩ := Option.map_eq_some_iff.mp ran
    cases same
    obtain ⟨links', made, lists⟩ := disconnectAllSpec inv.lists g
      (by omega : (s.connected g).length < fuel + ((s.connected g).length + 1))
    rw [disconnectAll, popAllMore popped] at made
    cases made
    exact inv.relink lists rfl rfl rfl
  | emit g payload fuel =>
    obtain ⟨⟨next, rc⟩, ran, same⟩ := Option.map_eq_some_iff.mp taken
    cases same
    by_cases accepted : emitRawAccepts (s.payloadSize g) payload = true
    · obtain ⟨ended, rc', made, -, after⟩ := emitSpec inv g payload
        (by omega : (s.connected g).length < fuel + ((s.connected g).length + 1)) accepted
      rw [emitRaw, if_pos accepted] at ran made
      rw [emitLoopMore ran] at made
      cases made
      exact after
    · rw [emitRaw, if_neg accepted] at ran
      cases ran
      exact inv
  | acquire l =>
    by_cases free : (s.queues l).held = none
    · obtain ⟨ended, after, -, -, -, ran⟩ := acquireSpec inv l free
      split at ran
      · cases ran.1.symm.trans taken
        exact after
      · cases ran.1.symm.trans taken
        exact after
    · have held : (s.queues l).held.isSome = true := by
        cases here : (s.queues l).held <;> simp_all
      simp [step, dispatchAcquire, held] at taken
  | release l =>
    cases held : (s.queues l).held with
    | none => simp [step, dispatchRelease, held] at taken
    | some loan =>
      obtain ⟨ended, ran, after, -⟩ := releaseSpec inv l held
      cases ran.symm.trans taken
      exact after

omit [DecidableEq σ] [DecidableEq κ] [DecidableEq ℓ] in
theorem startInv (first : Starts s) : Inv s where
  lists := {
    lists := fun g => by
      rw [first.connected g]
      exact circularNil.mpr (first.slotList g)
    own := by simp [first.connected]
    alone := by simp [first.connections] }
  queues l := by
    obtain ⟨storage, bytes, capacity, ring, ok, same⟩ := first.queues l
    exact ⟨startsInv _ (first.queues l), by rw [same]; rfl, by rw [same]; rfl⟩
  recorded l := by
    obtain ⟨storage, bytes, capacity, ring, ok, same⟩ := first.queues l
    rw [same, first.emitted]
    rfl
  called l := by simp [first.called, first.emitted]

theorem invReachable (reach : Reachable Starts step Unlinked s) : Inv s :=
  reach.invariant (fun _ first => startInv first) fun _ _ _ _ inv permitted taken => invKept inv permitted taken

structure EndToEnd (s : State abi σ κ ℓ) : Prop where
  slotLists : ∀ g, Circular s.links (.inl g) ((s.connected g).map .inr)
  connects : ∀ g slot target c, slot.slotFn ≠ 0 → Unlinked s (.connect g slot target c) →
    ∃ links', connect s g slot target c = some ({ s with
      connections := Function.update s.connections c (some ⟨g, slot, target⟩)
      links := links'
      connected := Function.update s.connected g (s.connected g ++ [c]) }, .ok)
  disconnects : ∀ c conn, s.connections c = some conn →
    ∃ links', disconnect s c = some ({ s with
      links := links'
      connected := Function.update s.connected conn.signal ((s.connected conn.signal).erase c) }, .ok)
  disconnectsAll : ∀ g fuel, (s.connected g).length < fuel →
    ∃ links', disconnectAll s g fuel = some ({ s with
      links := links'
      connected := Function.update s.connected g [] }, .ok)
  emits : ∀ g payload fuel, (s.connected g).length < fuel → emitRawAccepts (s.payloadSize g) payload = true →
    ∃ s' rc, emitRaw s g payload fuel = some (s', rc) ∧ EmitEnds payload (s.connected g) s s' rc
  rejects : ∀ g payload fuel, emitRawAccepts (s.payloadSize g) payload = false → emitRaw s g payload fuel = some (s, .inval)
  calledInOrder : ∀ l, s.called l <+: s.emitted l ∧ (recordsOf (s.queues l)).map (readSlotCall abi) = (s.emitted l).map some
  callsNext : ∀ l, (s.queues l).held = none → ∃ s', s'.connected = s.connected ∧ s'.emitted = s.emitted ∧
    match (s.emitted l)[(s.called l).length]? with
    | none => dispatchAcquire s l = some (s', .empty) ∧ s'.called = s.called
    | some slot => dispatchAcquire s l = some (s', .called slot) ∧ s'.called = Function.update s.called l (s.called l ++ [slot])
  payloadKept : ∀ l loan, (s.queues l).held = some loan →
    readSlotCall abi (loan.readable (s.queues l)) = (s.called l).getLast? ∧
      ∃ s', dispatchRelease s l = some (s', .released) ∧ (s'.queues l).held = none ∧ s'.called = s.called ∧ s'.emitted = s.emitted

/- Signal delivery end to end, over all connects, disconnects, emits and dispatches. -/
theorem deliveryEndToEnd (reach : Reachable Starts step Unlinked s) : EndToEnd s := by
  have inv := invReachable reach
  exact {
    slotLists := inv.lists.lists
    connects := fun g slot target c named permitted => by
      obtain ⟨links', made, -⟩ := connectSpec inv.lists g slot target c permitted named
      exact ⟨links', made⟩
    disconnects := fun c conn given => by
      obtain ⟨links', made, -⟩ := disconnectSpec inv.lists c given
      exact ⟨links', made⟩
    disconnectsAll := fun g fuel enough => by
      obtain ⟨links', made, -⟩ := disconnectAllSpec inv.lists g enough
      exact ⟨links', made⟩
    emits := fun g payload fuel enough accepted => by
      obtain ⟨s', rc, ran, ends, -⟩ := emitSpec inv g payload enough accepted
      exact ⟨s', rc, ran, ends⟩
    rejects := fun g payload fuel refused => by simp [emitRaw, refused]
    calledInOrder := fun l => ⟨by rw [inv.called l]; exact List.take_prefix _ _, inv.recorded l⟩
    callsNext := fun l free => by
      obtain ⟨s', -, connected, emitted, -, ran⟩ := acquireSpec inv l free
      exact ⟨s', connected, emitted, ran⟩
    payloadKept := fun l loan held => by
      obtain ⟨s', ran, -, unheld, -, emitted, called⟩ := releaseSpec inv l held
      refine ⟨?_, s', ran, unheld, called, emitted⟩
      obtain ⟨slot, given, reads⟩ := inv.readsNext (loanQueue (inv.queues l) held)
      have taken : s.called l = (s.emitted l).take ((s.queues l).returned.length + 1) := by simpa [held] using inv.called l
      rw [reads, taken, List.take_add_one, given]
      simp }

end Delivery

def idle (ring : Ring) : State .lp64 Bool Bool Bool where
  links := ⟨fun a => some a, fun a => some a⟩
  payloadSize := fun _ => 2
  connections := fun _ => none
  queues := fun _ => .initial ring
  connected := fun _ => []
  emitted := fun _ => []
  called := fun _ => []

def emitThenDisconnect : List (Action .lp64 Bool Bool Bool) :=
  [.connect true ⟨1, 2, by decide, by decide⟩ true true, .connect true ⟨3, 4, by decide, by decide⟩ true false,
    .emit true (.ofBytes [7, 8] (by decide)) 3, .disconnect true, .disconnect true,
    .acquire true, .release true, .acquire true]

theorem twoSlotsCalled : ∃ s : State .lp64 Bool Bool Bool, s.connected true = [false] ∧
    s.called true = [⟨1, 2, some [7, 8]⟩, ⟨3, 4, some [7, 8]⟩] ∧ EndToEnd s := by
  have evaluated : ((init .lp64 4096 (fun _ => 0) 128).any fun ring =>
      (executeAllowed step Unlinked (idle ring) emitThenDisconnect).any fun s =>
        s.connected true = [false] ∧ s.called true = [⟨1, 2, some [7, 8]⟩, ⟨3, 4, some [7, 8]⟩]) = true := by
    decide +kernel
  obtain ⟨ring, made, rest⟩ := (Option.any_eq_true _ _).mp evaluated
  obtain ⟨s, ran, checked⟩ := (Option.any_eq_true _ _).mp rest
  obtain ⟨connected, called⟩ := of_decide_eq_true checked
  have starts : Starts (idle ring) := ⟨fun _ => ⟨rfl, rfl⟩, fun _ => rfl, fun _ => ⟨4096, fun _ => 0, 128, ring, made, rfl⟩,
    fun _ => rfl, fun _ => rfl, fun _ => rfl⟩
  exact ⟨s, connected, called, deliveryEndToEnd (executeAllowedReachable (.start starts) ran)⟩

end Nanosig.Signal
