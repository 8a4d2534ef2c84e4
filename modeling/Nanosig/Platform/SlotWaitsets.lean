import Nanosig.Platform.Waitset

/-! The two waitsets that keep their waitables in slots. On FreeRTOS a waitset also keeps
the sum and the maximum of the capacities of its members, since the tokens of all members
must fit its queue set. -/
namespace Nanosig.Platform
open Registry

variable {ω β η : Type} [DecidableEq ω] [DecidableEq β] [DecidableEq η]

structure SlotTable (cap : Nat) (slots : List (Option β)) (count : Nat) : Prop where
  length : slots.length = cap
  counted : count = slots.reduceOption.length

omit [DecidableEq β] in
theorem SlotTable.room {cap count : Nat} {slots : List (Option β)} (table : SlotTable cap slots count) (below : count < cap) :
    freeSlot slots < cap := by
  rw [← table.length]
  exact freeSlotFound (by rw [← table.counted, table.length]; exact below)

omit [DecidableEq β] in
theorem SlotTable.fill {cap count : Nat} {slots : List (Option β)} (table : SlotTable cap slots count) {b : β}
    (found : freeSlot slots < cap) : SlotTable cap (slots.set (freeSlot slots) (some b)) (count + 1) := by
  rw [← table.length] at found
  exact ⟨by rw [List.length_set, table.length], by rw [(fillPerm found).length_eq, table.counted]; rfl⟩

theorem SlotTable.clear {cap count : Nat} {slots : List (Option β)} (table : SlotTable cap slots count) {b : β}
    (found : slotOf slots b < cap) : SlotTable cap (slots.set (slotOf slots b) none) (count - 1) := by
  rw [← table.length] at found
  have fewer := (clearPerm found).length_eq
  rw [List.length_cons, ← table.counted] at fewer
  exact ⟨by rw [List.length_set, table.length], by omega⟩

theorem SlotTable.found {cap count : Nat} {slots : List (Option β)} (table : SlotTable cap slots count) {b : β}
    (member : b ∈ slots.reduceOption) : slotOf slots b < cap := by
  rw [← table.length]
  exact slotOfFound member

/-! Zephyr. -/

structure ZephyrWaitset (β : Type) where
  count : Nat
  slots : List (Option β)

namespace Zephyr

def add (cap : Nat) (s : Memory ω β η (ZephyrWaitset β)) (w : ω) (b : β) :
    Option (Memory ω β η (ZephyrWaitset β) × Status) :=
  let waitset := s.waitsets w
  let waitable := s.waitables b
  if waitable.inOnly = false then some (s, .inval)
  else if waitable.registeredWaitset ≠ none then some (s, .exists)
  else if waitset.count ≥ cap then some (s, .tooManyHandles)
  else if waitable.primitive.isValid = false then some (s, .inval)
  else
    let i := freeSlot waitset.slots
    if i < cap then
      some (s.link w { count := waitset.count + 1, slots := waitset.slots.set i (some b) } b (some w), .ok)
    else none

def remove (cap : Nat) (s : Memory ω β η (ZephyrWaitset β)) (w : ω) (b : β) :
    Option (Memory ω β η (ZephyrWaitset β) × Status) :=
  let waitset := s.waitsets w
  if (s.waitables b).registeredWaitset ≠ some w then some (s, .inval)
  else
    let i := slotOf waitset.slots b
    if i ≥ cap then some (s, .inval)
    else some (s.link w { count := waitset.count - 1, slots := waitset.slots.set i none } b none, .ok)

def backend (cap : Nat) : Backend ω β η (ZephyrWaitset β) Unit Empty where
  add := fun s w b _ => add cap s w b
  remove := fun s w b _ => remove cap s w b
  system := fun _ event => nomatch event

/- `ns_platform_waitset_init`. -/
def init (cap : Nat) : ZephyrWaitset β := { count := 0, slots := List.replicate cap none }

def members (waitset : ZephyrWaitset β) : List β := waitset.slots.reduceOption

def Table (cap : Nat) (_ : β → Handle η) (waitset : ZephyrWaitset β) : Prop := SlotTable cap waitset.slots waitset.count

omit [DecidableEq β] in
theorem initTable (cap : Nat) : members (init cap : ZephyrWaitset β) = [] ∧ SlotTable cap (init cap : ZephyrWaitset β).slots 0 := by
  simp only [members, init, List.reduceOption_replicate_none, true_and]
  exact ⟨List.length_replicate, by simp⟩

omit [DecidableEq η] in
theorem lawful (cap : Nat) : Lawful (backend cap : Backend ω β η (ZephyrWaitset β) Unit Empty) (fun _ _ _ _ => True) members
    (Table cap) fun _ t t' => t' = t where
  congr := fun _ inOrder => inOrder
  unchanged := by
    rintro _ t _ rfl
    exact ⟨rfl, id⟩
  system := fun _ _ event => nomatch event
  add := by
    intro s w b _ kept _
    have refuse : ∀ status, status ≠ Status.ok → ∃ s' status', some (s, status) = some (s', status') ∧
        Added members (Table cap) (fun _ t t' => t' = t) s w b s' status' := fun status refusal =>
      ⟨s, status, rfl, .refused refusal rfl fun _ => rfl⟩
    change ∃ s' status, add cap s w b = some (s', status) ∧ _
    unfold add
    dsimp only
    split_ifs with mask registered full invalid room
    · exact refuse _ nofun
    · exact refuse _ nofun
    · exact refuse _ nofun
    · exact refuse _ nofun
    · have table : SlotTable cap (s.waitsets w).slots (s.waitsets w).count := kept.tables w
      refine ⟨_, _, rfl, .added (by simpa [Memory.registered] using registered) ?_ (table.fill room)⟩
      exact fillPerm (by rw [table.length]; exact room)
    · exact absurd (SlotTable.room (kept.tables w) (by omega)) room
  remove := by
    intro s w b _ kept
    change ∃ s' status, remove cap s w b = some (s', status) ∧ _
    unfold remove
    dsimp only
    split_ifs with registered missing
    · exact ⟨s, _, rfl, .refused nofun⟩
    · exact ⟨s, _, rfl, .refused nofun⟩
    · have table : SlotTable cap (s.waitsets w).slots (s.waitsets w).count := kept.tables w
      refine ⟨_, _, rfl, .removed ?_ (table.clear (by omega))⟩
      exact clearPerm (by rw [table.length]; omega)

end Zephyr

/-! FreeRTOS. -/

structure FreertosWaitset (β η : Type) where
  /- The tokens in the queue set. -/
  set : List (Handle η)
  count : Nat
  sumCap : Nat
  maxCap : Nat
  slots : List (Option β)

namespace Freertos

/- The port: the width of `UBaseType_t`, the size of the queue sets, and the capacity of
every object, which its messages and spaces always add up to. -/
structure Port (η : Type) where
  ubaseBits : Nat
  cap : Nat
  capacity : Handle η → Nat

/- What the kernel answers during a call: `uxQueueMessagesWaiting`, and whether
`xQueueAddToSet` or `xQueueRemoveFromSet` return `pdPASS`. -/
structure Answers where
  messagesWaiting : Nat
  pass : Bool

def findActiveMember (primitive : β → Handle η) (slots : List (Option β)) (member : Handle η) : Option β :=
  slots.findSome? fun slot => slot.filter fun wp => primitive wp = member

/- `ns_freertos_flush_stale_tokens`: what is in the set afterwards. -/
def flushStaleTokens (cap : Nat) (primitive : β → Handle η) (slots : List (Option β)) (set : List (Handle η)) : List (Handle η) :=
  (set.take cap).filter fun member => (findActiveMember primitive slots member).isSome

section Calls

variable (port : Port η)

def newSum (waitset : FreertosWaitset β η) (capacity : Nat) : Nat := (waitset.sumCap + capacity) % 2 ^ port.ubaseBits

def newMax (waitset : FreertosWaitset β η) (capacity : Nat) : Nat :=
  if capacity > waitset.maxCap then capacity else waitset.maxCap

/- `(uint64_t)new_sum + (uint64_t)new_max > (uint64_t)NANOSIG_FREERTOS_WAITSET_CAP`. -/
def tooLarge (waitset : FreertosWaitset β η) (capacity : Nat) : Prop :=
  (newSum port waitset capacity + newMax waitset capacity) % 2 ^ 64 > port.cap

instance (waitset : FreertosWaitset β η) (capacity : Nat) : Decidable (tooLarge port waitset capacity) :=
  inferInstanceAs (Decidable (_ > _))

def add (s : Memory ω β η (FreertosWaitset β η)) (w : ω) (b : β) (k : Answers) :
    Option (Memory ω β η (FreertosWaitset β η) × Status) :=
  let waitset := s.waitsets w
  let waitable := s.waitables b
  if waitable.inOnly = false then some (s, .inval)
  else if waitable.registeredWaitset ≠ none then some (s, .exists)
  else if waitset.count ≥ port.cap then some (s, .tooManyHandles)
  else if waitable.primitive.isValid = false then some (s, .inval)
  else if k.messagesWaiting ≠ 0 then some (s, .inval)
  else
    let capacity := port.capacity waitable.primitive
    if tooLarge port waitset capacity then some (s, .tooManyHandles)
    else
      let set := flushStaleTokens port.cap s.primitive waitset.slots waitset.set
      if k.pass = false then
        some ({ s with waitsets := Function.update s.waitsets w { waitset with set := set } }, .inval)
      else
        let i := freeSlot waitset.slots
        if i < port.cap then
          some (s.link w { set := set
                           count := waitset.count + 1
                           sumCap := newSum port waitset capacity
                           maxCap := newMax waitset capacity
                           slots := waitset.slots.set i (some b) } b (some w), .ok)
        else none

def largestCapacity (primitive : β → Handle η) (slots : List (Option β)) : Nat :=
  slots.foldl (fun maxCap slot =>
    match slot with
    | some wp => if port.capacity (primitive wp) > maxCap then port.capacity (primitive wp) else maxCap
    | none => maxCap) 0

def remove (s : Memory ω β η (FreertosWaitset β η)) (w : ω) (b : β) (k : Answers) :
    Option (Memory ω β η (FreertosWaitset β η) × Status) :=
  let waitset := s.waitsets w
  if (s.waitables b).registeredWaitset ≠ some w then some (s, .inval)
  else
    let i := slotOf waitset.slots b
    if i ≥ port.cap then some (s, .inval)
    else
      let capacity := port.capacity (s.waitables b).primitive
      if k.pass = false then some (s, .inval)
      else
        let slots := waitset.slots.set i none
        some (s.link w { waitset with
          count := waitset.count - 1
          sumCap := if capacity ≤ waitset.sumCap then waitset.sumCap - capacity else 0
          maxCap := largestCapacity port s.primitive slots
          slots := slots } b none, .ok)

/- Between the calls the kernel sends and takes tokens; the queue set holds `cap` of them. -/
def backend : Backend ω β η (FreertosWaitset β η) Answers { tokens : List (Handle η) // tokens.length ≤ port.cap } where
  add := add port
  remove := remove port
  system := fun waitset tokens => { waitset with set := tokens.1 }

/- `ns_platform_waitset_init`. -/
def init : FreertosWaitset β η :=
  { set := [], count := 0, sumCap := 0, maxCap := 0, slots := List.replicate port.cap none }

/- The capacity check of an add passes although the capacities do not fit: they wrap around. -/
def Wraps (s : Memory ω β η (FreertosWaitset β η)) (w : ω) (b : β) (k : Answers) : Prop :=
  let waitset := s.waitsets w
  let waitable := s.waitables b
  let capacity := port.capacity waitable.primitive
  waitable.inOnly = true ∧ waitable.registeredWaitset = none ∧ waitset.count < port.cap ∧
    waitable.primitive.isValid = true ∧ k.messagesWaiting = 0 ∧ k.pass = true ∧ ¬ tooLarge port waitset capacity ∧
    (waitset.sumCap + capacity ≥ 2 ^ port.ubaseBits ∨ waitset.sumCap + capacity + newMax waitset capacity > port.cap)

end Calls

def members (waitset : FreertosWaitset β η) : List β := waitset.slots.reduceOption

def capacities (port : Port η) (primitive : β → Handle η) (bs : List β) : List Nat := bs.map fun b => port.capacity (primitive b)

def maximum (capacities : List Nat) : Nat := capacities.foldr max 0

structure Table (port : Port η) (primitive : β → Handle η) (waitset : FreertosWaitset β η) : Prop where
  slots : SlotTable port.cap waitset.slots waitset.count
  tokens : waitset.set.length ≤ port.cap
  sum : waitset.sumCap = (capacities port primitive (members waitset)).sum
  max : waitset.maxCap = maximum (capacities port primitive (members waitset))
  fits : waitset.sumCap + waitset.maxCap ≤ port.cap

/- A refused add may drop tokens of waitables that are no longer listed, and nothing else. -/
structure Same (primitive : β → Handle η) (t t' : FreertosWaitset β η) : Prop where
  count : t'.count = t.count
  sumCap : t'.sumCap = t.sumCap
  maxCap : t'.maxCap = t.maxCap
  slots : t'.slots = t.slots
  tokens : t'.set.filter (fun member => (findActiveMember primitive t.slots member).isSome) =
    t.set.filter fun member => (findActiveMember primitive t.slots member).isSome
  fewer : t'.set.length ≤ t.set.length

section Tables

variable {port : Port η} {primitive : β → Handle η}

omit [DecidableEq β] [DecidableEq η] in
theorem largestSpec (slots : List (Option β)) :
    largestCapacity port primitive slots = maximum (capacities port primitive slots.reduceOption) := by
  have folded : ∀ start, slots.foldl (fun maxCap slot =>
      match slot with
      | some wp => if port.capacity (primitive wp) > maxCap then port.capacity (primitive wp) else maxCap
      | none => maxCap) start = max start (maximum (capacities port primitive slots.reduceOption)) := by
    induction slots with
    | nil => intro start; simp [maximum, capacities]
    | cons slot rest ih =>
      intro start
      cases slot with
      | none =>
        rw [List.foldl_cons, ih, List.reduceOption_cons_of_none]
      | some wp =>
        rw [List.foldl_cons, ih, List.reduceOption_cons_of_some]
        simp only [capacities, maximum, List.map_cons, List.foldr_cons]
        split <;> omega
  rw [largestCapacity, folded 0]
  exact Nat.zero_max _

omit [DecidableEq β] [DecidableEq η] in
theorem sumPerm {bs bs' : List β} (perm : bs.Perm bs') :
    (capacities port primitive bs).sum = (capacities port primitive bs').sum := (perm.map _).sum_eq

omit [DecidableEq β] [DecidableEq η] in
theorem maximumPerm {bs bs' : List β} (perm : bs.Perm bs') :
    maximum (capacities port primitive bs) = maximum (capacities port primitive bs') := (perm.map _).foldr_eq 0

omit [DecidableEq β] [DecidableEq η] in
theorem newMaxEq (waitset : FreertosWaitset β η) (capacity : Nat) : newMax waitset capacity = max capacity waitset.maxCap := by
  unfold newMax
  split <;> omega

omit [DecidableEq β] in
theorem flushed {t : FreertosWaitset β η} (tokens : t.set.length ≤ port.cap) :
    Same primitive t { t with set := flushStaleTokens port.cap primitive t.slots t.set } := by
  refine ⟨rfl, rfl, rfl, rfl, ?_, ?_⟩
  · simp [flushStaleTokens, List.take_of_length_le tokens]
  · rw [flushStaleTokens, List.take_of_length_le tokens]
    exact List.length_filter_le _ _

omit [DecidableEq β] in
theorem Table.flush {t : FreertosWaitset β η} (table : Table port primitive t) :
    (flushStaleTokens port.cap primitive t.slots t.set).length ≤ port.cap :=
  Nat.le_trans (flushed table.tokens).fewer table.tokens

omit [DecidableEq β] in
theorem Table.fill {t : FreertosWaitset β η} (table : Table port primitive t) {b : β} (found : freeSlot t.slots < port.cap)
    (exact_ : t.sumCap + port.capacity (primitive b) < 2 ^ port.ubaseBits)
    (small : t.sumCap + port.capacity (primitive b) + newMax t (port.capacity (primitive b)) ≤ port.cap) :
    Table port primitive { set := flushStaleTokens port.cap primitive t.slots t.set
                           count := t.count + 1
                           sumCap := newSum port t (port.capacity (primitive b))
                           maxCap := newMax t (port.capacity (primitive b))
                           slots := t.slots.set (freeSlot t.slots) (some b) } := by
  have filled : (t.slots.set (freeSlot t.slots) (some b)).reduceOption.Perm (b :: t.slots.reduceOption) :=
    fillPerm (by rw [table.slots.length]; exact found)
  have sum : newSum port t (port.capacity (primitive b)) = t.sumCap + port.capacity (primitive b) := Nat.mod_eq_of_lt exact_
  refine ⟨table.slots.fill found, table.flush, ?_, ?_, ?_⟩
  · change newSum port t _ = (capacities port primitive (t.slots.set (freeSlot t.slots) (some b)).reduceOption).sum
    rw [sumPerm filled, sum, table.sum, capacities, capacities, List.map_cons, List.sum_cons, Nat.add_comm]
    rfl
  · change newMax t _ = maximum (capacities port primitive (t.slots.set (freeSlot t.slots) (some b)).reduceOption)
    rw [maximumPerm filled, newMaxEq, table.max]
    rfl
  · change newSum port t _ + newMax t _ ≤ port.cap
    rw [sum]
    exact small

omit [DecidableEq η] in
theorem Table.clear {t : FreertosWaitset β η} (table : Table port primitive t) {b : β} (found : slotOf t.slots b < port.cap) :
    Table port primitive { t with
      count := t.count - 1
      sumCap := if port.capacity (primitive b) ≤ t.sumCap then t.sumCap - port.capacity (primitive b) else 0
      maxCap := largestCapacity port primitive (t.slots.set (slotOf t.slots b) none)
      slots := t.slots.set (slotOf t.slots b) none } := by
  have cleared : t.slots.reduceOption.Perm (b :: (t.slots.set (slotOf t.slots b) none).reduceOption) :=
    clearPerm (by rw [table.slots.length]; exact found)
  have sum := table.sum
  have max := table.max
  have fits := table.fits
  rw [members, sumPerm cleared, capacities, List.map_cons, List.sum_cons] at sum
  rw [members, maximumPerm cleared, capacities, List.map_cons, maximum, List.foldr_cons] at max
  refine ⟨table.slots.clear found, table.tokens, ?_, ?_, ?_⟩
  · dsimp only [members, capacities]
    rw [if_pos (by omega)]
    omega
  · dsimp only [members]
    rw [largestSpec]
  · dsimp only
    rw [if_pos (by omega), largestSpec]
    simp only [maximum, capacities]
    omega

omit [DecidableEq ω] [DecidableEq β] [DecidableEq η] in
/- A `UBaseType_t` of fewer than 63 bits with room for two sets never wraps around unseen. -/
theorem Table.notWraps {s : Memory ω β η (FreertosWaitset β η)} {w : ω} {b : β} {k : Answers}
    (table : Table port s.primitive (s.waitsets w)) (narrow : port.ubaseBits < 63) (room : 2 * port.cap < 2 ^ port.ubaseBits)
    (bound : port.capacity (s.primitive b) < 2 ^ port.ubaseBits) : ¬ Wraps port s w b k := by
  rintro ⟨-, -, -, -, -, -, checked, wraps⟩
  change port.capacity (s.waitables b).primitive < _ at bound
  have fits := table.fits
  have half : 2 ^ port.ubaseBits ≤ 2 ^ 62 := Nat.pow_le_pow_right (by omega) (by omega)
  have below : newSum port (s.waitsets w) (port.capacity (s.waitables b).primitive) < 2 ^ port.ubaseBits :=
    Nat.mod_lt _ (by omega)
  rw [newMaxEq] at wraps
  rw [tooLarge, newMaxEq, Nat.mod_eq_of_lt (by omega)] at checked
  have sum : newSum port (s.waitsets w) (port.capacity (s.waitables b).primitive) =
      (s.waitsets w).sumCap + port.capacity (s.waitables b).primitive := Nat.mod_eq_of_lt (by omega)
  omega

end Tables

theorem lawfulFor (port : Port η) {fits : Memory ω β η (FreertosWaitset β η) → ω → β → Answers → Prop}
    {table : (β → Handle η) → FreertosWaitset β η → Prop}
    (congr : ∀ {primitive primitive' t}, (∀ b ∈ members t, primitive' b = primitive b) → table primitive t → table primitive' t)
    (same : ∀ {primitive t t'}, Same primitive t t' → table primitive t → table primitive t')
    (system : ∀ {primitive t} (tokens : List (Handle η)), tokens.length ≤ port.cap → table primitive t →
      table primitive { t with set := tokens })
    (slots : ∀ {primitive t}, table primitive t → SlotTable port.cap t.slots t.count ∧ t.set.length ≤ port.cap)
    (fill : ∀ {s : Memory ω β η (FreertosWaitset β η)} {w b} k, table s.primitive (s.waitsets w) → fits s w b k →
      (Wraps port s w b k ∨
        (s.waitsets w).sumCap + port.capacity (s.primitive b) < 2 ^ port.ubaseBits ∧
          (s.waitsets w).sumCap + port.capacity (s.primitive b) + newMax (s.waitsets w) (port.capacity (s.primitive b)) ≤
            port.cap) →
      freeSlot (s.waitsets w).slots < port.cap →
      table s.primitive { set := flushStaleTokens port.cap s.primitive (s.waitsets w).slots (s.waitsets w).set
                          count := (s.waitsets w).count + 1
                          sumCap := newSum port (s.waitsets w) (port.capacity (s.primitive b))
                          maxCap := newMax (s.waitsets w) (port.capacity (s.primitive b))
                          slots := (s.waitsets w).slots.set (freeSlot (s.waitsets w).slots) (some b) })
    (clear : ∀ {primitive t} b, table primitive t → slotOf t.slots b < port.cap →
      table primitive { t with
        count := t.count - 1
        sumCap := if port.capacity (primitive b) ≤ t.sumCap then t.sumCap - port.capacity (primitive b) else 0
        maxCap := largestCapacity port primitive (t.slots.set (slotOf t.slots b) none)
        slots := t.slots.set (slotOf t.slots b) none }) :
    Lawful (backend port) fits members table Same where
  congr := congr
  unchanged := fun unchanged => ⟨by rw [members, unchanged.slots]; rfl, same unchanged⟩
  system := fun _ _ tokens => ⟨rfl, system tokens.1 tokens.2⟩
  add := by
    intro s w b k kept fit
    obtain ⟨order, tokens⟩ := slots (kept.tables w)
    have refuse : ∀ status, status ≠ Status.ok → ∃ s' status', some (s, status) = some (s', status') ∧
        Added members table Same s w b s' status' := fun status refusal =>
      ⟨s, status, rfl, .refused refusal rfl fun _ => ⟨rfl, rfl, rfl, rfl, rfl, Nat.le_refl _⟩⟩
    change ∃ s' status, add port s w b k = some (s', status) ∧ _
    unfold add
    dsimp only
    split_ifs with mask registered full invalid waiting large failed room
    · exact refuse _ nofun
    · exact refuse _ nofun
    · exact refuse _ nofun
    · exact refuse _ nofun
    · exact refuse _ nofun
    · exact refuse _ nofun
    · refine ⟨_, _, rfl, .refused nofun rfl fun v => ?_⟩
      by_cases here : v = w
      · subst here
        simpa only [Function.update_self] using flushed tokens
      · simp only [Function.update_of_ne here]
        exact ⟨rfl, rfl, rfl, rfl, rfl, Nat.le_refl _⟩
    · simp only [Bool.not_eq_false] at mask invalid failed
      have free : (s.waitables b).registeredWaitset = none := by simpa using registered
      -- the check passes, so either the sum fits or it has wrapped around
      have checked : Wraps port s w b k ∨
          (s.waitsets w).sumCap + port.capacity (s.primitive b) < 2 ^ port.ubaseBits ∧
            (s.waitsets w).sumCap + port.capacity (s.primitive b) + newMax (s.waitsets w) (port.capacity (s.primitive b)) ≤
              port.cap := by
        by_cases wraps : (s.waitsets w).sumCap + port.capacity (s.primitive b) ≥ 2 ^ port.ubaseBits ∨
            (s.waitsets w).sumCap + port.capacity (s.primitive b) + newMax (s.waitsets w) (port.capacity (s.primitive b)) >
              port.cap
        · exact .inl ⟨mask, free, by omega, invalid, not_not.mp waiting, failed, large, wraps⟩
        · rw [not_or] at wraps
          exact .inr ⟨Nat.lt_of_not_ge wraps.1, Nat.le_of_not_gt wraps.2⟩
      refine ⟨_, _, rfl, .added free ?_ (fill k (kept.tables w) fit checked room)⟩
      exact fillPerm (by rw [order.length]; exact room)
    · exact absurd (order.room (by omega)) room
  remove := by
    intro s w b k kept
    obtain ⟨order, -⟩ := slots (kept.tables w)
    have refuse : ∀ status, status ≠ Status.ok → ∃ s' status', some (s, status) = some (s', status') ∧
        Removed members table s w b s' status' := fun status refusal => ⟨s, status, rfl, .refused refusal⟩
    change ∃ s' status, remove port s w b k = some (s', status) ∧ _
    unfold remove
    by_cases registered : (s.waitables b).registeredWaitset ≠ some w
    · rw [if_pos registered]
      exact refuse _ nofun
    · by_cases missing : slotOf (s.waitsets w).slots b ≥ port.cap
      · rw [if_neg registered, if_pos missing]
        exact refuse _ nofun
      · by_cases failed : k.pass = false
        · rw [if_neg registered, if_neg missing, if_pos failed]
          exact refuse _ nofun
        · rw [if_neg registered, if_neg missing, if_neg failed]
          refine ⟨_, _, rfl, .removed ?_ (clear b (kept.tables w) (by omega))⟩
          exact clearPerm (by rw [order.length]; omega)

theorem lawful (port : Port η) :
    Lawful (ω := ω) (backend port : Backend ω β η _ _ _) (fun s w b k => ¬ Wraps port s w b k) members (Table port) Same := by
  refine lawfulFor port ?_ ?_ ?_ ?_ ?_ ?_
  · intro primitive primitive' t agree table
    have same : capacities port primitive' (members t) = capacities port primitive (members t) :=
      List.map_congr_left fun b member => by rw [agree b member]
    exact ⟨table.slots, table.tokens, by rw [same]; exact table.sum, by rw [same]; exact table.max, table.fits⟩
  · intro primitive t t' same table
    have listing : members t' = members t := by rw [members, same.slots]; rfl
    refine ⟨?_, Nat.le_trans same.fewer table.tokens, ?_, ?_, ?_⟩
    · rw [same.slots, same.count]
      exact table.slots
    · rw [same.sumCap, listing]
      exact table.sum
    · rw [same.maxCap, listing]
      exact table.max
    · rw [same.sumCap, same.maxCap]
      exact table.fits
  · exact fun tokens fewer table => ⟨table.slots, fewer, table.sum, table.max, table.fits⟩
  · exact fun table => ⟨table.slots, table.tokens⟩
  · intro s w b k table exact_ checked room
    obtain ⟨noWrap, small⟩ := checked.resolve_left exact_
    exact table.fill room noWrap small
  · exact fun b table found => table.clear found

/- In every history, wrapped or not, the slots are counted and the tokens fit the queue set. -/
theorem lawfulSlots (port : Port η) :
    Lawful (ω := ω) (backend port : Backend ω β η _ _ _) (fun _ _ _ _ => True) members
      (fun _ t => SlotTable port.cap t.slots t.count ∧ t.set.length ≤ port.cap) Same := by
  refine lawfulFor port ?_ ?_ ?_ ?_ ?_ ?_
  · exact fun _ order => order
  · intro primitive t t' same order
    rw [same.slots, same.count]
    exact ⟨order.1, Nat.le_trans same.fewer order.2⟩
  · exact fun tokens fewer order => ⟨order.1, fewer⟩
  · exact fun order => order
  · exact fun k order _ _ room => ⟨order.1.fill room, Nat.le_trans (flushed order.2).fewer order.2⟩
  · exact fun b order found => ⟨order.1.clear found, order.2⟩

end Freertos

end Nanosig.Platform
