import Nanosig.Platform.EpollWaitset

/-! What the kernel and the waits of the Linux backend keep: nothing that has not been reported leaves the ready list but
for the hands of the waiting thread, and no timer outlives its wait. -/
namespace Nanosig.Platform.Linux
open TransitionSystem Registry

section Readiness

variable {β : Type} {t t' : EpollWaitset β} {level level' : Int → BitVec 32} {here here' : BitVec 32} {e : Stored β}
  {i i' : Item β}

structure Tells (here : BitVec 32) (e : Stored β) (i : Item β) : Prop where
  ptr : e.ptr = some i.entry.waitable
  counted : e.edges ≤ i.edges
  nonzero : e.events ≠ 0
  within : e.events &&& i.watched = e.events
  since : here &&& i.watched ≠ 0 → e.edges < i.edges → i.ready = true

/- What has not been reported is in the ready list or in the hands of the thread. -/
structure Offered (level : Int → BitVec 32) (t : EpollWaitset β) : Prop where
  levelTriggered : ∀ fd i, t.interest fd = some i → level fd &&& i.watched ≠ 0 → i.entry.edgeTriggered = false → i.ready = true
  edges : ∀ fd i, t.interest fd = some i → level fd &&& i.watched ≠ 0 → i.reported < i.edges →
    i.ready = true ∨ ∃ e ∈ t.pc.inHand, e.key = some fd
  stored : ∀ e ∈ t.pc.inHand, ∀ fd, e.key = some fd → ∃ i, t.interest fd = some i ∧ Tells (level fd) e i
  timers : ∀ e ∈ t.pc.inHand, e.key = none → e.ptr = none
  once : (t.pc.inHand.map (·.key)).Nodup

structure Moves (here here' : BitVec 32) (i i' : Item β) : Prop where
  entry : i'.entry = i.entry
  reported : i'.reported = i.reported
  edges : i.edges ≤ i'.edges
  ready : here' &&& i.watched ≠ 0 → i'.ready = true ∨ (here &&& i.watched ≠ 0 ∧ i'.edges = i.edges ∧ i.ready = false)

theorem Moves.watched (moves : Moves here here' i i') : i'.watched = i.watched := by
  rw [Item.watched, Item.watched, moves.entry]

theorem Moves.stay (fewer : here' &&& i.watched ≠ 0 → here &&& i.watched ≠ 0) : Moves here here' i i := by
  refine ⟨rfl, rfl, le_rfl, fun holds => ?_⟩
  cases ready : i.ready with
  | true => exact .inl rfl
  | false => exact .inr ⟨fewer holds, rfl, rfl⟩

theorem Moves.arrive (mask : BitVec 32) : Moves here (here ||| mask) i (i.arrive mask) := by
  unfold Item.arrive
  split
  · exact ⟨rfl, rfl, Nat.le_succ _, fun _ => .inl rfl⟩
  · rename_i apart
    refine Moves.stay fun holds => ?_
    have apart : mask &&& i.watched = 0 := not_not.mp apart
    rw [BitVec.and_comm, BitVec.and_or_distrib_left, BitVec.and_comm i.watched mask, apart, BitVec.and_comm] at holds
    simpa using holds

theorem Moves.forget (ended : here &&& i.watched = 0) : Moves here here i i.forget :=
  ⟨rfl, rfl, le_rfl, fun holds => absurd ended holds⟩

theorem Offered.moves (offered : Offered level t) (inHand : t'.pc.inHand = t.pc.inHand)
    (forth : ∀ fd i, t.interest fd = some i → ∃ i', t'.interest fd = some i' ∧ Moves (level fd) (level' fd) i i')
    (back : ∀ fd i', t'.interest fd = some i' → ∃ i, t.interest fd = some i ∧ Moves (level fd) (level' fd) i i') :
    Offered level' t' := by
  refine ⟨fun fd i' found holds levelTriggered => ?_, fun fd i' found holds fresh => ?_, ?_, ?_, ?_⟩
  · obtain ⟨i, before, moves⟩ := back fd i' found
    rw [moves.watched] at holds
    rcases moves.ready holds with ready | ⟨held, -, unready⟩
    · exact ready
    · rw [moves.entry] at levelTriggered
      have := offered.levelTriggered fd i before held levelTriggered
      rw [unready] at this
      contradiction
  · obtain ⟨i, before, moves⟩ := back fd i' found
    rw [moves.watched] at holds
    rcases moves.ready holds with ready | ⟨held, same, unready⟩
    · exact .inl ready
    · rw [moves.reported, same] at fresh
      rcases offered.edges fd i before held fresh with ready | stored
      · rw [unready] at ready
        contradiction
      · rw [inHand]
        exact .inr stored
  · rw [inHand]
    intro e member fd key
    obtain ⟨i, before, tells⟩ := offered.stored e member fd key
    obtain ⟨i', found, moves⟩ := forth fd i before
    refine ⟨i', found, tells.ptr.trans (by rw [moves.entry]), tells.counted.trans moves.edges, tells.nonzero,
      by rw [moves.watched]; exact tells.within, fun holds later => ?_⟩
    rw [moves.watched] at holds
    rcases moves.ready holds with ready | ⟨held, same, unready⟩
    · exact ready
    · have := tells.since held (same ▸ later)
      rw [unready] at this
      contradiction
  · rw [inHand]
    exact offered.timers
  · rw [inHand]
    exact offered.once

theorem mapItemsFound {f : Int → Item β → Item β} {fd : Int} {i' : Item β} :
    (t.mapItems f).interest fd = some i' ↔ ∃ i, t.interest fd = some i ∧ f fd i = i' := Option.map_eq_some_iff

theorem Offered.mapItems (offered : Offered level t) {f : Int → Item β → Item β}
    (moves : ∀ fd i, t.interest fd = some i → Moves (level fd) (level' fd) i (f fd i)) : Offered level' (t.mapItems f) := by
  refine offered.moves rfl (fun fd i found => ⟨f fd i, mapItemsFound.mpr ⟨i, found, rfl⟩, moves fd i found⟩) fun fd i' found => ?_
  obtain ⟨i, before, rfl⟩ := mapItemsFound.mp found
  exact ⟨i, before, moves fd i before⟩

theorem Offered.congr (offered : Offered level t) (interest : t'.interest = t.interest) (inHand : t'.pc.inHand = t.pc.inHand) :
    Offered level t' := by
  refine offered.moves inHand (fun fd i found => ⟨i, by rwa [interest], Moves.stay id⟩) fun fd i found => ?_
  rw [interest] at found
  exact ⟨i, found, Moves.stay id⟩

theorem offered {fd : Int} (offer : t.offer level (some fd) = some e) :
    ∃ i, t.interest fd = some i ∧ e = ⟨some i.entry.waitable, level fd &&& i.watched, some fd, i.edges⟩ ∧
      level fd &&& i.watched ≠ 0 := by
  obtain ⟨i, found, offer⟩ := Option.bind_eq_some_iff.mp offer
  obtain ⟨⟨-, holds⟩, same⟩ := Option.ite_none_right_eq_some.mp offer
  exact ⟨i, found, (Option.some.inj same).symm, holds⟩

theorem offeredTimer (offer : t.offer level none = some e) : t.timer = .expired ∧ e = ⟨none, epollIn, none, 0⟩ := by
  obtain ⟨fired, same⟩ := Option.ite_none_right_eq_some.mp offer
  exact ⟨fired, (Option.some.inj same).symm⟩

theorem offerKey {k : Option Int} (offer : t.offer level k = some e) : e.key = k := by
  cases k with
  | none => rw [(offeredTimer offer).2]
  | some fd =>
    obtain ⟨i, -, rfl, -⟩ := offered offer
    rfl

theorem offerKeys (keys : List (Option Int)) : ((keys.filterMap (t.offer level)).map (·.key)).Sublist keys := by
  induction keys with
  | nil => exact List.Sublist.slnil
  | cons k rest ih =>
    cases offer : t.offer level k with
    | none =>
      rw [List.filterMap_cons_none offer]
      exact ih.cons k
    | some e =>
      rw [List.filterMap_cons_some offer, List.map_cons, offerKey offer]
      exact ih.cons_cons k

theorem takeKeeps (i : Item β) : i.take.entry = i.entry ∧ i.take.edges = i.edges ∧ i.take.reported = i.reported ∧
    (i.entry.edgeTriggered = false → i.take = i) := by
  unfold Item.take Item.forget
  split
  · rename_i edge
    exact ⟨rfl, rfl, rfl, fun levelTriggered => by rw [edge] at levelTriggered; contradiction⟩
  · exact ⟨rfl, rfl, rfl, fun _ => rfl⟩

/- What `epoll_wait` takes out of the ready list, it has stored. -/
theorem Offered.chosen (before : Offered level t) (empty : t.pc.inHand = []) {keys : List (Option Int)} {wait : Wait}
    (once : keys.Nodup) (all : ∀ k ∈ keys, (t.offer level k).isSome) :
    Offered level (({ t with pc := .behind wait (.events (keys.filterMap (t.offer level))) } : EpollWaitset β).mapItems
      fun fd i => if some fd ∈ keys then i.take else i) := by
  have stored : ∀ fd, some fd ∈ keys → ∃ e ∈ keys.filterMap (t.offer level), e.key = some fd := fun fd chosen => by
    obtain ⟨e, offer⟩ := Option.isSome_iff_exists.mp (all _ chosen)
    exact ⟨e, List.mem_filterMap.mpr ⟨_, chosen, offer⟩, offerKey offer⟩
  refine ⟨fun fd i' found holds levelTriggered => ?_, fun fd i' found holds fresh => ?_, fun e member fd key => ?_,
    fun e member key => ?_, (offerKeys keys).nodup once⟩
  · obtain ⟨i, was, rfl⟩ := mapItemsFound.mp found
    obtain ⟨entry, -, -, keeps⟩ := takeKeeps i
    by_cases chosen : some fd ∈ keys
    · simp only [if_pos chosen] at holds levelTriggered ⊢
      rw [entry] at levelTriggered
      rw [keeps levelTriggered] at holds ⊢
      exact before.levelTriggered fd i was holds levelTriggered
    · simp only [if_neg chosen] at holds levelTriggered ⊢
      exact before.levelTriggered fd i was holds levelTriggered
  · obtain ⟨i, was, rfl⟩ := mapItemsFound.mp found
    by_cases chosen : some fd ∈ keys
    · exact .inr (stored fd chosen)
    · simp only [if_neg chosen] at holds fresh ⊢
      rcases before.edges fd i was holds fresh with ready | ⟨e, member, -⟩
      · exact .inl ready
      · rw [empty] at member
        contradiction
  · obtain ⟨k, chosen, offer⟩ := List.mem_filterMap.mp member
    obtain rfl : k = some fd := (offerKey offer).symm.trans key
    obtain ⟨i, was, rfl, holds⟩ := offered offer
    obtain ⟨entry, edges, -, -⟩ := takeKeeps i
    have watched : i.take.watched = i.watched := by rw [Item.watched, Item.watched, entry]
    refine ⟨i.take, mapItemsFound.mpr ⟨i, was, if_pos chosen⟩, congrArg some (by rw [entry]), edges.ge, holds, ?_, fun _ later => ?_⟩
    · rw [watched, BitVec.and_assoc, BitVec.and_self]
    · rw [edges] at later
      exact absurd later (lt_irrefl _)
  · obtain ⟨k, -, offer⟩ := List.mem_filterMap.mp member
    obtain rfl : k = none := (offerKey offer).symm.trans key
    rw [(offeredTimer offer).2]

def completionOf (e : Stored β) : Option (Completion β) := e.ptr.map fun b => ⟨b, fromEpollEvents e.events⟩

theorem collectAll (maxCompletions : Nat) (stored : List (Stored β)) (out : List (Completion β))
    (room : out.length + stored.length ≤ maxCompletions) :
    collect maxCompletions stored out = out ++ stored.filterMap completionOf := by
  induction stored generalizing out with
  | nil => simp [collect]
  | cons e rest ih =>
    rw [List.length_cons] at room
    rw [collect, if_pos (by omega)]
    cases ptr : e.ptr with
    | none =>
      rw [List.filterMap_cons_none (by rw [completionOf, ptr]; rfl)]
      exact ih out (by omega)
    | some b =>
      rw [List.filterMap_cons_some (b := ⟨b, fromEpollEvents e.events⟩) (by rw [completionOf, ptr]; rfl)]
      dsimp only
      rw [ih _ (by simp; omega), List.append_assoc]
      rfl

theorem Offered.finished [DecidableEq β] (before : Offered level t) {stored : List (Stored β)} (inHand : t.pc.inHand = stored)
    {timer : Timer} {leftArmed : Bool} :
    Offered level (({ t with timer := timer, leftArmed := leftArmed, pc := .idle } : EpollWaitset β).mapItems
      (Item.reportedBy stored (stored.filterMap completionOf))) := by
  have keeps : ∀ fd i, (Item.reportedBy stored (stored.filterMap completionOf) fd i).entry = i.entry ∧
      (Item.reportedBy stored (stored.filterMap completionOf) fd i).ready = i.ready ∧
      (Item.reportedBy stored (stored.filterMap completionOf) fd i).edges = i.edges := fun fd i => by
    unfold Item.reportedBy
    split <;> exact ⟨rfl, rfl, rfl⟩
  refine ⟨fun fd i' found holds levelTriggered => ?_, fun fd i' found holds fresh => ?_, by rintro _ ⟨⟩, by rintro _ ⟨⟩,
    List.nodup_nil⟩
  · obtain ⟨i, was, rfl⟩ := mapItemsFound.mp found
    obtain ⟨entry, ready, -⟩ := keeps fd i
    rw [Item.watched, entry] at holds
    rw [entry] at levelTriggered
    rw [ready]
    exact before.levelTriggered fd i was holds levelTriggered
  · obtain ⟨i, was, rfl⟩ := mapItemsFound.mp found
    obtain ⟨entry, ready, edges⟩ := keeps fd i
    have was : t.interest fd = some i := was
    rw [Item.watched, entry] at holds
    rw [ready]
    rw [edges] at fresh
    left
    unfold Item.reportedBy at fresh
    split at fresh
    · cases search : stored.find? (·.key = some fd) with
      | none =>
        -- No event is about the item, so it is as it was.
        simp only [search, Option.map_none, Option.getD_none] at fresh
        rcases before.edges fd i was holds fresh with ready | ⟨e, member, key⟩
        · exact ready
        · rw [inHand] at member
          have := List.find?_eq_none.mp search e member
          simp [key] at this
      | some e =>
        simp only [search, Option.map_some, Option.getD_some] at fresh
        have key : e.key = some fd := by simpa using List.find?_some search
        obtain ⟨j, again, tells⟩ := before.stored e (inHand ▸ List.mem_of_find?_eq_some search) fd key
        rw [was] at again
        cases again
        exact tells.since holds fresh
    · rename_i unreported
      rcases before.edges fd i was holds fresh with ready | ⟨e, member, key⟩
      · exact ready
      · obtain ⟨j, again, tells⟩ := before.stored e member fd key
        rw [was] at again
        cases again
        rw [inHand] at member
        refine absurd (List.any_eq_true.mpr ⟨⟨i.entry.waitable, fromEpollEvents e.events⟩, ?_, by simp⟩) unreported
        exact List.mem_filterMap.mpr ⟨e, member, by rw [completionOf, tells.ptr]; rfl⟩

theorem Offered.update (before : Offered level t) (idle : t.pc.inHand = []) {fd : Int} {item : Option (Item β)}
    (same : t'.interest = Function.update t.interest fd item) (idle' : t'.pc.inHand = [])
    (ready : ∀ i, item = some i → level fd &&& i.watched ≠ 0 → i.ready = true) : Offered level t' := by
  refine ⟨fun x i found holds levelTriggered => ?_, fun x i found holds fresh => ?_, by rw [idle']; rintro _ ⟨⟩,
    by rw [idle']; rintro _ ⟨⟩, by rw [idle']; exact List.nodup_nil⟩
  · rw [same] at found
    by_cases there : x = fd
    · subst there
      rw [Function.update_self] at found
      exact ready i found holds
    · rw [Function.update_of_ne there] at found
      exact before.levelTriggered x i found holds levelTriggered
  · rw [same] at found
    by_cases there : x = fd
    · subst there
      rw [Function.update_self] at found
      exact .inl (ready i found holds)
    · rw [Function.update_of_ne there] at found
      rcases before.edges x i found holds fresh with ready | ⟨e, member, -⟩
      · exact .inl ready
      · rw [idle] at member
        contradiction

theorem newItemReady (entry : Entry β) (here : BitVec 32) (holds : here &&& (newItem entry here).watched ≠ 0) :
    (newItem entry here).ready = true := by
  rw [Item.watched, newItemEntry] at holds
  unfold newItem Item.arrive
  rw [if_pos (by exact holds)]

end Readiness

section Waits

variable {ω β : Type} [DecidableEq ω] [DecidableEq β] {s s' : State ω β} {t t' : EpollWaitset β} {level : Int → BitVec 32}
  {w : ω}

def WaitPc.wait? : WaitPc β → Option Wait
  | .idle => none
  | .inside wait => some wait
  | .behind wait _ => some wait

def WaitPc.armed (pc : WaitPc β) : Bool := pc.wait?.any (·.timerArmed)

/- A wait does not block only if it was told so, and one without bound that has a waitable to wait for has no timer. -/
structure Begun (count : Nat) (wait : Wait) : Prop where
  blocks : wait.timeoutMs = 0 → wait.timeoutUs = 0
  unbounded : wait.timeoutUs = waitInfiniteUs → 0 < count → wait.timerArmed = false

/- The timer is armed for a wait in progress or left so by one that could not disarm it. -/
structure Timed (t : EpollWaitset β) : Prop where
  disarmed : t.leftArmed = false → t.pc.armed = false → t.timer = .disarmed
  begun : ∀ wait, t.pc.wait? = some wait → Begun t.count wait
  room : ∀ wait stored, t.pc = .behind wait (.events stored) →
    stored.length ≤ maxEvents wait ∧ (stored = [] → wait.timeoutMs = 0)
  fired : ∀ e ∈ t.pc.inHand, e.key = none → t.pc.armed = false → t.leftArmed = true

structure Sound (s : State ω β) (w : ω) (r : Report β) : Prop where
  few : r.completions.length ≤ maxEvents r.wait
  distinct : (r.completions.map (·.waitable)).Nodup
  registered : ∀ c ∈ r.completions, s.registered c.waitable = some w ∧ c.triggeredEvents ≠ 0 ∧
    (c.triggeredEvents &&& waitableEventOut ≠ 0 → (s.waitables c.waitable).events &&& waitableEventOut ≠ 0)
  failed : r.status ≠ .ok → r.completions = []
  quiet : r.status = .ok → r.completions = [] → r.interrupted = false → 0 < r.wait.maxCompletions → 0 < r.wait.timeoutUs →
    r.timerFired = true
  unbounded : r.timerFired = true → r.wait.timeoutUs = waitInfiniteUs → 0 < (s.waitsets w).count →
    (s.waitsets w).leftArmed = true

omit [DecidableEq ω] [DecidableEq β] in
theorem soundEmpty {r : Report β} (none : r.completions = []) (unfired : r.timerFired = false)
    (excused : r.status = .ok → r.interrupted = false → r.wait.maxCompletions = 0) : Sound s w r := by
  refine ⟨by simp [none], by simp [none], by simp [none], fun _ => none, fun ok _ uninterrupted room => ?_, fun fired => ?_⟩
  · exact absurd (excused ok uninterrupted) room.ne'
  · rw [unfired] at fired
    contradiction

omit [DecidableEq ω] [DecidableEq β] in
theorem isIdle {pc : WaitPc β} (idle : pc.isIdle = true) : pc = .idle := by
  cases pc with
  | idle => rfl
  | inside => contradiction
  | behind => contradiction

omit [DecidableEq β] in
theorem waitBeginsKeeps (before : Timed t) (idle : t.pc = .idle) (timeoutUs maxCompletions : Nat) (settime : Bool) :
    let (t', report) := waitBegins t timeoutUs maxCompletions settime
    SameEntries t t' ∧ t'.interest = t.interest ∧ t'.pc.inHand = [] ∧ Timed t' ∧
      ∀ r, report = some r → r.completions = [] ∧ r.timerFired = false ∧ (r.status = .ok → r.wait.maxCompletions = 0) := by
  have positive : emptyMaxUs ≠ 0 := by decide
  have unarmed : t.leftArmed = false → t.timer = .disarmed := fun left => before.disarmed left (by rw [idle]; rfl)
  have capped : 0 < t.count → cappedTimeout emptyMaxUs t.count timeoutUs = timeoutUs := fun members =>
    if_neg fun empty => members.ne' empty.1
  have empty : t.pc.inHand = [] := by rw [idle]; rfl
  unfold waitBegins
  dsimp only
  split_ifs with none bounded refused polls
  · exact ⟨⟨rfl, rfl, fun _ => rfl⟩, rfl, empty, before, fun r same => by cases same; exact ⟨rfl, rfl, fun _ => none⟩⟩
  · refine ⟨⟨rfl, rfl, fun _ => rfl⟩, rfl, rfl, ⟨fun _ armed => ?_, fun wait same => ?_, by rintro _ _ ⟨⟩, by rintro _ ⟨⟩⟩, by rintro _ ⟨⟩⟩
    · contradiction
    · cases same
      refine ⟨by rintro ⟨⟩, fun unbounded members => ?_⟩
      rw [capped members] at bounded
      exact absurd unbounded bounded.2
  · exact ⟨⟨rfl, rfl, fun _ => rfl⟩, rfl, empty, before, fun r same => by cases same; exact ⟨rfl, rfl, by rintro ⟨⟩⟩⟩
  · refine ⟨⟨rfl, rfl, fun _ => rfl⟩, rfl, rfl, ⟨fun left _ => unarmed left, fun wait same => ?_, by rintro _ _ ⟨⟩, by rintro _ ⟨⟩⟩,
      by rintro _ ⟨⟩⟩
    cases same
    refine ⟨fun _ => ?_, fun _ _ => rfl⟩
    unfold cappedTimeout at polls
    split at polls
    · exact absurd polls positive
    · exact polls
  · refine ⟨⟨rfl, rfl, fun _ => rfl⟩, rfl, rfl, ⟨fun left _ => unarmed left, fun wait same => ?_, by rintro _ _ ⟨⟩, by rintro _ ⟨⟩⟩,
      by rintro _ ⟨⟩⟩
    cases same
    exact ⟨by rintro ⟨⟩, fun _ _ => rfl⟩

omit [DecidableEq β] in
theorem waitReturnsKeeps (before : Timed t) (offered : Offered level t) {ends : Ends}
    (returned : waitReturns t level ends = some t') : SameEntries t t' ∧ Offered level t' ∧ Timed t' := by
  unfold waitReturns at returned
  split at returned
  · rename_i wait pc
    have empty : t.pc.inHand = [] := by rw [pc]; rfl
    have begun := before.begun wait (by rw [pc]; rfl)
    have unarmed : t.leftArmed = false → wait.timerArmed = false → t.timer = .disarmed := fun left armed =>
      before.disarmed left (by rw [pc]; exact armed)
    cases ends with
    | interrupted =>
      cases returned
      refine ⟨⟨rfl, rfl, fun _ => rfl⟩, offered.congr rfl empty.symm, ⟨unarmed, fun _ same => ?_, by rintro _ _ ⟨⟩, by rintro _ ⟨⟩⟩⟩
      cases same
      exact begun
    | failed =>
      cases returned
      refine ⟨⟨rfl, rfl, fun _ => rfl⟩, offered.congr rfl empty.symm, ⟨unarmed, fun _ same => ?_, by rintro _ _ ⟨⟩, by rintro _ ⟨⟩⟩⟩
      cases same
      exact begun
    | chooses keys =>
      obtain ⟨⟨once, few, all, blocks⟩, same⟩ := Option.ite_none_right_eq_some.mp returned
      cases same
      refine ⟨?_, offered.chosen empty once all, ⟨unarmed, fun _ same => ?_, fun _ stored same => ?_, fun e member key armed => ?_⟩⟩
      · have same := mapItemsSame (t := t) (f := fun fd i => if some fd ∈ keys then i.take else i) fun fd i => by
          split
          · exact (takeKeeps i).1
          · rfl
        exact ⟨same.count, same.listed, same.entry⟩
      · cases same
        exact begun
      · cases same
        refine ⟨(List.length_filterMap_le _ _).trans few, fun none => blocks ?_⟩
        cases keys with
        | nil => rfl
        | cons k rest =>
          obtain ⟨e, offer⟩ := Option.isSome_iff_exists.mp (all k List.mem_cons_self)
          rw [List.filterMap_cons_some offer] at none
          contradiction
      · -- The timer is ready, so it was armed, and not by this wait.
        obtain ⟨k, -, offer⟩ := List.mem_filterMap.mp member
        obtain rfl : k = none := (offerKey offer).symm.trans key
        have expired := (offeredTimer offer).1
        cases left : t.leftArmed with
        | true => rfl
        | false =>
          rw [unarmed left armed] at expired
          contradiction
  · contradiction

omit [DecidableEq ω] in
theorem waitFinishesKeeps (before : Timed t) (offered : Offered level t) {disarmed : Bool} {r : Report β}
    (finished : waitFinishes t disarmed = some (t', r)) : SameEntries t t' ∧ Offered level t' ∧ Timed t' := by
  unfold waitFinishes at finished
  split at finished
  · rename_i wait returned pc
    have timed : ∀ interest, Timed ({ t with
        interest := interest, timer := timerAfter wait t.timer disarmed,
        leftArmed := if wait.timerArmed then !disarmed else t.leftArmed, pc := .idle } : EpollWaitset β) := by
      refine fun interest => ⟨fun left _ => ?_, by rintro _ ⟨⟩, by rintro _ _ ⟨⟩, by rintro _ ⟨⟩⟩
      change timerAfter wait t.timer disarmed = .disarmed
      have left : (if wait.timerArmed then !disarmed else t.leftArmed) = false := left
      unfold timerAfter
      cases armed : wait.timerArmed with
      | true =>
        rw [armed, if_pos rfl] at left
        rw [if_pos ⟨rfl, .inl (by simpa using left)⟩]
      | false =>
        rw [armed, if_neg (by simp)] at left
        rw [if_neg (by simp)]
        exact before.disarmed left (by rw [pc]; exact armed)
    cases returned with
    | interrupted =>
      cases finished
      exact ⟨⟨rfl, rfl, fun _ => rfl⟩, offered.congr rfl (by rw [pc]; rfl), timed _⟩
    | failed =>
      cases finished
      exact ⟨⟨rfl, rfl, fun _ => rfl⟩, offered.congr rfl (by rw [pc]; rfl), timed _⟩
    | events stored =>
      have room := (before.room wait stored pc).1
      have all : collect wait.maxCompletions stored [] = stored.filterMap completionOf := by
        refine collectAll _ _ _ ?_
        rw [List.length_nil, Nat.zero_add]
        refine room.trans ?_
        unfold maxEvents
        split <;> omega
      dsimp only at finished
      rw [all] at finished
      cases finished
      refine ⟨?_, offered.finished (by rw [pc]; rfl), timed _⟩
      have same := mapItemsSame (t := t) (f := Item.reportedBy stored (stored.filterMap completionOf)) fun fd i => by
        unfold Item.reportedBy
        split <;> rfl
      exact ⟨same.count, same.listed, same.entry⟩
  · contradiction

omit [DecidableEq β] in
/- A wait that returns before `epoll_wait` has nothing to report. -/
theorem waitBeginsReports {timeoutUs maxCompletions : Nat} {settime : Bool} {r : Report β}
    (reported : (waitBegins t timeoutUs maxCompletions settime).2 = some r) :
    (waitBegins t timeoutUs maxCompletions settime).1 = t ∧ r.completions = [] := by
  unfold waitBegins at reported ⊢
  dsimp only at reported ⊢
  split_ifs at reported ⊢
  all_goals
    cases reported
    exact ⟨rfl, rfl⟩

omit [DecidableEq β] in
theorem collectFrom {maxCompletions : Nat} {stored : List (Stored β)} {out : List (Completion β)} {c : Completion β}
    (member : c ∈ collect maxCompletions stored out) : c ∈ out ∨ ∃ e ∈ stored, e.ptr = some c.waitable := by
  induction stored generalizing out with
  | nil => exact .inl member
  | cons e rest ih =>
    unfold collect at member
    split at member
    · split at member
      · exact (ih member).imp_right fun ⟨e', inside, ptr⟩ => ⟨e', List.mem_cons_of_mem _ inside, ptr⟩
      · rename_i b ptr
        rcases ih member with earlier | ⟨e', inside, ptr'⟩
        · rcases List.mem_append.mp earlier with earlier | new
          · exact .inl earlier
          · rw [List.mem_singleton.mp new]
            exact .inr ⟨e, List.mem_cons_self, ptr⟩
        · exact .inr ⟨e', List.mem_cons_of_mem _ inside, ptr'⟩
    · exact .inl member

omit [DecidableEq ω] in
theorem waitFinishesFrom {disarmed : Bool} {r : Report β} (finished : waitFinishes t disarmed = some (t', r)) :
    t'.pc = .idle ∧ ∀ c ∈ r.completions, ∃ e ∈ t.pc.inHand, e.ptr = some c.waitable := by
  unfold waitFinishes at finished
  split at finished
  · rename_i wait returned pc
    cases returned with
    | interrupted =>
      cases finished
      exact ⟨rfl, fun c member => by contradiction⟩
    | failed =>
      cases finished
      exact ⟨rfl, fun c member => by contradiction⟩
    | events stored =>
      cases finished
      refine ⟨rfl, fun c member => ?_⟩
      rw [pc]
      exact (collectFrom member).resolve_left (by simp)
  · contradiction

structure Inv (s : State ω β) : Prop where
  kept : Kept s
  offered : ∀ w, Offered s.level (s.waitsets w)
  timed : ∀ w, Timed (s.waitsets w)

omit [DecidableEq ω] in
theorem waitFinishesSound (inv : Inv s) {disarmed : Bool} {r : Report β}
    (finished : waitFinishes (s.waitsets w) disarmed = some (t', r)) : Sound s w r := by
  unfold waitFinishes at finished
  split at finished
  · rename_i wait returned pc
    cases returned with
    | interrupted =>
      cases finished
      exact soundEmpty rfl rfl fun _ uninterrupted => by contradiction
    | failed =>
      cases finished
      exact soundEmpty rfl rfl fun ok => by contradiction
    | events stored =>
      have timed := inv.timed w
      have offered := inv.offered w
      obtain ⟨room, blocks⟩ := timed.room wait stored pc
      have begun := timed.begun wait (by rw [pc]; rfl)
      have inHand : (s.waitsets w).pc.inHand = stored := by rw [pc]; rfl
      have atMost : maxEvents wait ≤ wait.maxCompletions := by
        unfold maxEvents
        split <;> omega
      have all : collect wait.maxCompletions stored [] = stored.filterMap completionOf :=
        collectAll _ _ _ (by rw [List.length_nil, Nat.zero_add]; exact room.trans atMost)
      dsimp only at finished
      rw [all] at finished
      cases finished
      -- A completion comes from a stored event, and that from an item.
      have origin : ∀ e ∈ stored, ∀ c, completionOf e = some c → ∃ fd i, e.key = some fd ∧
          (s.waitsets w).interest fd = some i ∧ Tells (s.level fd) e i ∧ c = ⟨i.entry.waitable, fromEpollEvents e.events⟩ := by
        intro e member c completion
        cases key : e.key with
        | none =>
          rw [completionOf, offered.timers e (inHand ▸ member) key] at completion
          contradiction
        | some fd =>
          obtain ⟨i, found, tells⟩ := offered.stored e (inHand ▸ member) fd key
          rw [completionOf, tells.ptr] at completion
          cases completion
          exact ⟨fd, i, rfl, found, tells, rfl⟩
      refine ⟨(List.length_filterMap_le _ _).trans room, ?_, fun c member => ?_, fun failed => absurd rfl failed,
        fun _ none _ _ bounded => ?_, fun fired unbounded members => ?_⟩
      · rw [List.Nodup, List.pairwise_map, List.pairwise_filterMap]
        have once : (stored.map (·.key)).Pairwise (· ≠ ·) := inHand ▸ offered.once
        rw [List.pairwise_map] at once
        refine once.imp_of_mem fun first second different c completion c' completion' same => ?_
        obtain ⟨fd, i, key, found, -, rfl⟩ := origin _ first c completion
        obtain ⟨fd', i', key', found', -, rfl⟩ := origin _ second c' completion'
        have same : i.entry.waitable = i'.entry.waitable := same
        refine different ?_
        rw [key, key', ← (inv.kept.ownerOf found).2.1, ← (inv.kept.ownerOf found').2.1, same]
      · obtain ⟨e, there, completion⟩ := List.mem_filterMap.mp member
        obtain ⟨fd, i, key, found, tells, rfl⟩ := origin e there c completion
        obtain ⟨registered, -, entry⟩ := inv.kept.ownerOf found
        have within := tells.within
        rw [Item.watched, entry] at within
        exact ⟨registered, fromEpollSome within tells.nonzero, fromEpollOut within⟩
      · cases stored with
        | nil => exact absurd (begun.blocks (blocks rfl)) bounded.ne'
        | cons e rest =>
          rw [List.any_cons, Bool.or_eq_true]
          left
          cases key : e.key with
          | none => rfl
          | some fd =>
            obtain ⟨i, -, tells⟩ := offered.stored e (inHand ▸ List.mem_cons_self) fd key
            have none : (e :: rest).filterMap completionOf = [] := none
            rw [List.filterMap_cons_some (b := ⟨i.entry.waitable, fromEpollEvents e.events⟩)
              (by rw [completionOf, tells.ptr]; rfl)] at none
            contradiction
      · obtain ⟨e, member, key⟩ := List.any_eq_true.mp fired
        have armed := begun.unbounded unbounded members
        exact timed.fired e (inHand ▸ member) (of_decide_eq_true key) (by rw [pc]; exact armed)
  · contradiction

omit [DecidableEq β] in
theorem Inv.setWaitset (inv : Inv s) (same : SameEntries (s.waitsets w) t) (offered : Offered s.level t) (timed : Timed t) :
    Inv (s.setWaitset w t) := by
  refine ⟨inv.kept.setWaitset same, fun v => ?_, fun v => ?_⟩
  · by_cases here : v = w
    · subst here
      simpa [State.setWaitset] using offered
    · simpa [State.setWaitset, here] using inv.offered v
  · by_cases here : v = w
    · subst here
      simpa [State.setWaitset] using timed
    · simpa [State.setWaitset, here] using inv.timed v

theorem Inv.link (inv : Inv s) {b : β} {r : Option ω} (kept : Kept (s.link w t b r)) (idle : (s.waitsets w).pc = .idle)
    {fd : Int} {item : Option (Item β)} (interest : t.interest = Function.update (s.waitsets w).interest fd item)
    (ready : ∀ i, item = some i → s.level fd &&& i.watched ≠ 0 → i.ready = true) (pc : t.pc = .idle)
    (timer : t.timer = (s.waitsets w).timer) (left : t.leftArmed = (s.waitsets w).leftArmed) : Inv (s.link w t b r) := by
  have waitsets : (s.link w t b r).waitsets = Function.update s.waitsets w t := rfl
  refine ⟨kept, fun v => ?_, fun v => ?_⟩
  · rw [waitsets]
    by_cases here : v = w
    · subst here
      rw [Function.update_self]
      exact (inv.offered v).update (by rw [idle]; rfl) interest (by rw [pc]; rfl) ready
    · rw [Function.update_of_ne here]
      exact inv.offered v
  · rw [waitsets]
    by_cases here : v = w
    · subst here
      rw [Function.update_self]
      refine ⟨fun unarmed _ => ?_, fun _ same => ?_, fun _ _ same => ?_, fun _ member => ?_⟩
      · rw [timer]
        exact (inv.timed v).disarmed (left ▸ unarmed) (by rw [idle]; rfl)
      · rw [pc] at same
        contradiction
      · rw [pc] at same
        contradiction
      · rw [pc] at member
        contradiction
    · rw [Function.update_of_ne here]
      exact inv.timed v

theorem addInv (inv : Inv s) (idle : (s.waitsets w).pc = .idle) (b : β) (refuses : Bool) : Inv (add s w b refuses).1 := by
  have kept := addKept inv.kept w b refuses
  unfold add at kept ⊢
  dsimp only at kept ⊢
  split_ifs at kept ⊢
  · exact inv
  · exact inv
  · exact inv
  · exact inv
  · exact inv
  · refine inv.link kept idle rfl (fun i same => ?_) idle rfl rfl
    cases same
    exact newItemReady _ _

theorem removeInv (inv : Inv s) (idle : (s.waitsets w).pc = .idle) (b : β) (refuses : Bool) : Inv (remove s w b refuses).1 := by
  have kept := removeKept inv.kept w b refuses
  unfold remove at kept ⊢
  dsimp only at kept ⊢
  split_ifs at kept ⊢
  · exact inv
  · exact inv
  · exact inv
  · refine inv.link kept idle rfl (fun i same => ?_) idle rfl rfl
    contradiction

omit [DecidableEq ω] in
theorem prepareInv (inv : Inv s) {b : β} (free : s.registered b = none) (primitive : Int) (events : BitVec 32)
    (edgeTriggered : Bool) :
    Inv (s.prepare b
      { s.waitables b with primitive := primitive, events := events, edgeTriggered := edgeTriggered }) := by
  refine ⟨⟨⟨inv.kept.agrees.once, fun w x => ?_⟩, inv.kept.counted, inv.kept.few, fun w fd e => ?_⟩, inv.offered, inv.timed⟩
  · refine (inv.kept.agrees.listed w x).trans ?_
    by_cases here : x = b
    · subst here
      simp [State.registered, State.prepare]
    · simp [State.registered, State.prepare, here]
  · refine (inv.kept.described w fd e).trans ?_
    unfold Describes State.registered State.prepare
    by_cases here : e.waitable = b
    · have free : (s.waitables e.waitable).registeredWaitset = none := here ▸ free
      rw [← here]
      simp [free]
    · simp [here]

omit [DecidableEq ω] [DecidableEq β] in
theorem ariseInv (inv : Inv s) (fd : Int) (mask : BitVec 32) : Inv (s.arise fd mask) := by
  have entry : ∀ x (i : Item β), (if x = fd then i.arrive mask else i).entry = i.entry := fun x i => by
    unfold Item.arrive
    split
    · split <;> rfl
    · rfl
  refine ⟨inv.kept.same rfl fun w => mapItemsSame entry, fun w => ?_, fun w => ?_⟩
  · refine (inv.offered w).mapItems fun x i _ => ?_
    change Moves _ (Function.update s.level fd (s.level fd ||| mask) x) _ _
    by_cases here : x = fd
    · subst here
      rw [if_pos rfl, Function.update_self]
      exact Moves.arrive mask
    · rw [if_neg here, Function.update_of_ne here]
      exact Moves.stay id
  · obtain ⟨disarmed, begun, room, fired⟩ := inv.timed w
    exact ⟨disarmed, begun, room, fired⟩

omit [DecidableEq ω] [DecidableEq β] in
theorem ceaseInv (inv : Inv s) (fd : Int) (mask : BitVec 32) :
    Inv { s with level := Function.update s.level fd (s.level fd &&& mask) } := by
  have stays : ∀ x (i : Item β), Moves (s.level x) (Function.update s.level fd (s.level fd &&& mask) x) i i := fun x i => by
    refine Moves.stay fun holds => ?_
    by_cases here : x = fd
    · subst here
      rw [Function.update_self] at holds
      intro zero
      refine holds ?_
      rw [BitVec.and_assoc, BitVec.and_comm mask, ← BitVec.and_assoc, zero]
      exact BitVec.zero_and
    · rwa [Function.update_of_ne here] at holds
  refine ⟨inv.kept.same rfl fun w => ⟨rfl, rfl, fun _ => rfl⟩, fun w => ?_, inv.timed⟩
  exact (inv.offered w).moves rfl (fun x i found => ⟨i, found, stays x i⟩) fun x i found => ⟨i, found, stays x i⟩

omit [DecidableEq β] in
theorem forgetInv (inv : Inv s) (w : ω) (fd : Int) : Inv (s.setWaitset w ((s.waitsets w).forget s.level fd)) := by
  refine inv.setWaitset (mapItemsSame fun x i => ?_) ((inv.offered w).mapItems fun x i _ => ?_) ?_
  · split <;> rfl
  · split
    · rename_i dropped
      obtain ⟨rfl, ended⟩ := dropped
      exact Moves.forget ended
    · exact Moves.stay id
  · obtain ⟨disarmed, begun, room, fired⟩ := inv.timed w
    exact ⟨disarmed, begun, room, fired⟩

theorem stepInv (inv : Inv s) {a : Action ω β} {e : Event ω β} (allowed : Allowed s a) (taken : step s a = some (s', e)) :
    Inv s' ∧ ∀ w r, e = .waited w r → Sound s w r := by
  cases a with
  | add w b refuses =>
    cases taken
    exact ⟨addInv inv (isIdle allowed) b refuses, by rintro _ _ ⟨⟩⟩
  | remove w b refuses =>
    cases taken
    exact ⟨removeInv inv (isIdle allowed) b refuses, by rintro _ _ ⟨⟩⟩
  | prepare b primitive events edgeTriggered =>
    cases taken
    exact ⟨prepareInv inv allowed primitive events edgeTriggered, by rintro _ _ ⟨⟩⟩
  | waitBegins w timeoutUs maxCompletions settime =>
    have idle : (s.waitsets w).pc = .idle := isIdle allowed
    have keeps := waitBeginsKeeps (inv.timed w) idle timeoutUs maxCompletions settime
    cases began : waitBegins (s.waitsets w) timeoutUs maxCompletions settime with
    | mk t report =>
      rw [began] at keeps
      obtain ⟨same, interest, inHand, timed, reports⟩ := keeps
      simp only [step, began] at taken
      cases taken
      refine ⟨inv.setWaitset same ((inv.offered w).congr interest (by rw [inHand, idle]; rfl)) timed, fun v r waited => ?_⟩
      cases report with
      | none => contradiction
      | some r' =>
        cases waited
        obtain ⟨none, unfired, excused⟩ := reports r rfl
        exact soundEmpty none unfired fun ok _ => excused ok
  | waitReturns w ends =>
    obtain ⟨t, returned, same⟩ := Option.map_eq_some_iff.mp taken
    cases same
    obtain ⟨entries, offered, timed⟩ := waitReturnsKeeps (inv.timed w) (inv.offered w) returned
    exact ⟨inv.setWaitset entries offered timed, by rintro _ _ ⟨⟩⟩
  | waitFinishes w disarmed =>
    obtain ⟨⟨t, r⟩, finished, same⟩ := Option.map_eq_some_iff.mp taken
    cases same
    obtain ⟨entries, offered, timed⟩ := waitFinishesKeeps (inv.timed w) (inv.offered w) finished
    refine ⟨inv.setWaitset entries offered timed, fun v r' waited => ?_⟩
    cases waited
    exact waitFinishesSound inv finished
  | arises fd mask =>
    cases taken
    exact ⟨ariseInv inv fd mask, by rintro _ _ ⟨⟩⟩
  | ceases fd mask =>
    cases taken
    exact ⟨ceaseInv inv fd mask, by rintro _ _ ⟨⟩⟩
  | forgets w fd =>
    cases taken
    exact ⟨forgetInv inv w fd, by rintro _ _ ⟨⟩⟩
  | expires w =>
    obtain ⟨armed, same⟩ := Option.ite_none_right_eq_some.mp taken
    cases same
    refine ⟨inv.setWaitset ⟨rfl, rfl, fun _ => rfl⟩ ((inv.offered w).congr rfl rfl) ?_, by rintro _ _ ⟨⟩⟩
    obtain ⟨disarmed, begun, room, fired⟩ := inv.timed w
    refine ⟨fun left idle => ?_, begun, room, fired⟩
    rw [disarmed left idle] at armed
    contradiction

omit [DecidableEq ω] [DecidableEq β] in
theorem startsInv (starts : Starts s) : Inv s := by
  refine ⟨⟨⟨fun w => ?_, fun w b => ?_⟩, fun w => ?_, fun w => ?_, fun w fd e => ?_⟩, fun w => ?_, fun w => ?_⟩ <;>
    obtain ⟨count, interest, timer, pc, listed, left⟩ := starts.new w
  · rw [listed]
    exact List.nodup_nil
  · rw [listed, starts.free b]
    simp
  · rw [count, listed]
    rfl
  · rw [count]
    exact Nat.zero_le _
  · rw [EpollWaitset.entry, interest, Describes, starts.free]
    simp
  · refine ⟨fun fd i found => ?_, fun fd i found => ?_, ?_, ?_, ?_⟩
    · rw [interest] at found
      contradiction
    · rw [interest] at found
      contradiction
    · rw [pc]
      rintro _ ⟨⟩
    · rw [pc]
      rintro _ ⟨⟩
    · rw [pc]
      exact List.nodup_nil
  · refine ⟨fun _ _ => timer, fun _ same => ?_, fun _ _ same => ?_, fun _ member => ?_⟩
    · rw [pc] at same
      contradiction
    · rw [pc] at same
      contradiction
    · rw [pc] at member
      contradiction

theorem reachableInv (reach : Reachable Starts step Allowed s) : Inv s :=
  reach.invariant (fun _ starts => startsInv starts) fun _ _ _ _ inv allowed taken => (stepInv inv allowed taken).1

end Waits

structure EpollWaits {ω β : Type} [DecidableEq ω] [DecidableEq β] (s : State ω β) : Prop where
  kept : Kept s
  levelTriggered : ∀ w b i, s.registered b = some w → (s.waitsets w).interest (s.waitables b).primitive = some i →
    s.level (s.waitables b).primitive &&& i.watched ≠ 0 → (s.waitables b).edgeTriggered = false → i.ready = true
  edges : ∀ w b i, s.registered b = some w → (s.waitsets w).interest (s.waitables b).primitive = some i →
    s.level (s.waitables b).primitive &&& i.watched ≠ 0 → i.reported < i.edges →
      i.ready = true ∨ ∃ e ∈ (s.waitsets w).pc.inHand, e.ptr = some b ∧ e.edges = i.edges
  timer : ∀ w, (s.waitsets w).pc = .idle → (s.waitsets w).leftArmed = false → (s.waitsets w).timer = .disarmed
  waits : ∀ a s' w r, Allowed s a → step s a = some (s', .waited w r) → Sound s w r

theorem invWaits {ω β : Type} [DecidableEq ω] [DecidableEq β] {s : State ω β} (inv : Inv s) : EpollWaits s := by
  have entryOf : ∀ w b i, s.registered b = some w → (s.waitsets w).interest (s.waitables b).primitive = some i →
      i.entry = waitableEntry b (s.waitables b) := fun w b i there found => by
    obtain ⟨j, again, entry⟩ := inv.kept.entryOf there
    rw [found] at again
    cases again
    exact entry
  refine ⟨inv.kept, fun w b i there found holds levelTriggered => ?_, fun w b i there found holds fresh => ?_,
    fun w idle left => ?_, fun a s' w r allowed taken => (stepInv inv allowed taken).2 w r rfl⟩
  · exact (inv.offered w).levelTriggered _ i found holds (by rw [entryOf w b i there found]; exact levelTriggered)
  · rcases (inv.offered w).edges _ i found holds fresh with ready | ⟨e, member, key⟩
    · exact .inl ready
    · obtain ⟨j, again, tells⟩ := (inv.offered w).stored e member _ key
      rw [found] at again
      cases again
      rcases Nat.lt_or_eq_of_le tells.counted with later | same
      · exact .inl (tells.since holds later)
      · exact .inr ⟨e, member, by rw [tells.ptr, entryOf w b i there found]; rfl, same⟩
  · exact (inv.timed w).disarmed left (by rw [idle]; rfl)

instance {ω β : Type} (s : State ω β) : (a : Action ω β) → Decidable (Allowed s a)
  | .add w _ _ | .remove w _ _ | .waitBegins w _ _ _ => inferInstanceAs (Decidable ((s.waitsets w).pc.isIdle = true))
  | .prepare b _ _ _ => inferInstanceAs (Decidable (s.registered b = none))
  | .waitReturns _ _ | .waitFinishes _ _ | .arises _ _ | .ceases _ _ | .forgets _ _ | .expires _ =>
      inferInstanceAs (Decidable True)

end Nanosig.Platform.Linux
