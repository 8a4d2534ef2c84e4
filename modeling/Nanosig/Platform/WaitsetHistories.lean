import Nanosig.Platform.SlotWaitsets
import Nanosig.Platform.WindowsWaitset

/-! The bookkeeping of the waitsets after any history of calls. -/
namespace Nanosig.Platform
open TransitionSystem Registry

structure Served {ω β η T κ ε : Type} [DecidableEq ω] [DecidableEq β] (backend : Backend ω β η T κ ε)
    (fits : Memory ω β η T → ω → β → κ → Prop) (members : T → List β) (table : (β → Handle η) → T → Prop)
    (same : (β → Handle η) → T → T → Prop) (s : Memory ω β η T) : Prop where
  kept : Kept members table s
  returns : ∀ call, Allowed fits s call → ∃ s' status, step backend s call = some (s', status)
  refused : ∀ w b k s' status, fits s w b k → backend.add s w b k = some (s', status) → status ≠ .ok →
    s'.waitables = s.waitables ∧ ∀ v, same s.primitive (s.waitsets v) (s'.waitsets v)

theorem Lawful.served {ω β η T κ ε : Type} [DecidableEq ω] [DecidableEq β] {backend : Backend ω β η T κ ε}
    {fits : Memory ω β η T → ω → β → κ → Prop} {members : T → List β} {table : (β → Handle η) → T → Prop}
    {same : (β → Handle η) → T → T → Prop} (lawful : Lawful backend fits members table same) {s : Memory ω β η T}
    (kept : Kept members table s) : Served backend fits members table same s where
  kept := kept
  returns := fun call allowed => by
    obtain ⟨s', status, taken, -⟩ := callKept lawful kept allowed
    exact ⟨s', status, taken⟩
  refused := fun w b k s' status fit taken refusal => by
    obtain ⟨s'', status', took, added⟩ := lawful.add k kept fit
    rw [taken] at took
    cases took
    cases added with
    | refused _ waitables waitsets => exact ⟨waitables, waitsets⟩
    | added => exact absurd rfl refusal

variable {ω β η : Type} [DecidableEq ω] [DecidableEq β] [DecidableEq η]

omit [DecidableEq β] [DecidableEq η] in
theorem newWindows (cap : Nat) (primitive : β → Handle η) (t : WindowsWaitset β η) (new : Windows.New t) :
    Windows.members t = [] ∧ Windows.Table cap primitive t := by
  rw [Windows.New] at new
  exact ⟨by simp [Windows.members, new], ⟨fun i inside => by omega, fun i j inside => by omega, by omega⟩⟩

omit [DecidableEq β] [DecidableEq η] in
theorem newFreertos (port : Freertos.Port η) (primitive : β → Handle η) (t : FreertosWaitset β η) (new : t = Freertos.init port) :
    Freertos.members t = [] ∧ Freertos.Table port primitive t := by
  subst new
  have empty : Freertos.members (Freertos.init port : FreertosWaitset β η) = [] := List.reduceOption_replicate_none
  refine ⟨empty, ⟨⟨List.length_replicate, ?_⟩, Nat.zero_le _, ?_, ?_, Nat.zero_le _⟩⟩
  · exact congrArg List.length empty.symm
  · rw [empty]
    rfl
  · rw [empty]
    rfl

/- After any history of calls a waitable stands in a table, once, exactly when it points
back to its waitset; counts, capacities and handles agree with the table; a free slot is
found whenever the count allows an add, and a removal finds its entry. On FreeRTOS this
needs that no add passes the capacity check by wrapping around. -/
theorem historiesKept :
    (∀ (cap : Nat) (s : Memory ω β η (ZephyrWaitset β)),
      Reachable (Starts (· = Zephyr.init cap)) (step (Zephyr.backend cap)) (Allowed fun _ _ _ _ => True) s →
      Served (Zephyr.backend cap) (fun _ _ _ _ => True) Zephyr.members (Zephyr.Table cap) (fun _ t t' => t' = t) s ∧
        (∀ w, (s.waitsets w).count < cap → freeSlot (s.waitsets w).slots < cap) ∧
        ∀ w b, s.registered b = some w → slotOf (s.waitsets w).slots b < cap) ∧
    (∀ (port : Freertos.Port η) (s : Memory ω β η (FreertosWaitset β η)),
      Reachable (Starts (· = Freertos.init port)) (step (Freertos.backend port))
        (Allowed fun s w b k => ¬ Freertos.Wraps port s w b k) s →
      Served (Freertos.backend port) (fun s w b k => ¬ Freertos.Wraps port s w b k) Freertos.members (Freertos.Table port)
          Freertos.Same s ∧
        (∀ w, (s.waitsets w).count < port.cap → freeSlot (s.waitsets w).slots < port.cap) ∧
        ∀ w b, s.registered b = some w → slotOf (s.waitsets w).slots b < port.cap) ∧
    ∀ (cap : Nat) (s : Memory ω β η (WindowsWaitset β η)),
      Reachable (Starts Windows.New) (step (Windows.backend cap)) (Allowed fun _ _ _ _ => True) s →
      Served (Windows.backend cap) (fun _ _ _ _ => True) Windows.members (Windows.Table cap) (fun _ t t' => t' = t) s ∧
        ∀ w b, s.registered b = some w →
          ∃ i, Windows.find (s.waitsets w) (s.primitive b) = some i ∧ i < (s.waitsets w).count ∧ (s.waitsets w).waitables i = b := by
  refine ⟨fun cap s reach => ?_, fun port s reach => ?_, fun cap s reach => ?_⟩
  · have kept := reachableKept (Zephyr.lawful cap) (fun _ t new => by subst new; exact Zephyr.initTable cap) reach
    exact ⟨(Zephyr.lawful cap).served kept, fun w below => (kept.tables w).room below,
      fun w b registered => (kept.tables w).found ((kept.agrees.listed w b).mpr registered)⟩
  · have kept := reachableKept (Freertos.lawful port) (newFreertos port) reach
    exact ⟨(Freertos.lawful port).served kept, fun w below => (kept.tables w).slots.room below,
      fun w b registered => (kept.tables w).slots.found ((kept.agrees.listed w b).mpr registered)⟩
  · have kept := reachableKept (Windows.lawful cap) (newWindows cap) reach
    exact ⟨(Windows.lawful cap).served kept,
      fun w b registered => (kept.tables w).found ((kept.agrees.listed w b).mpr registered)⟩

/- A port with queue sets of 32 tokens whose objects all have the given capacity. -/
def portOf {η : Type} (ubaseBits capacity : Nat) : Freertos.Port η where
  ubaseBits := ubaseBits
  cap := 32
  capacity := fun _ => capacity

def pair {T : Type} (t : T) : Memory Unit Bool Bool T where
  waitsets := fun _ => t
  waitables := fun b => { primitive := .object b, registeredWaitset := none, events := waitableEventIn }

/- A new Windows waitset, whose arrays happen to hold the same entry everywhere. -/
def emptyArrays : WindowsWaitset Bool Bool where
  handles := fun _ => .null
  waitables := fun _ => false
  count := 0

/- Both waitables are added and the first is removed again: on Windows the entry of the other moves
into its place, in the slot tables it stays where it is. -/
theorem historiesCompacted :
    (∃ s : Memory Unit Bool Bool (ZephyrWaitset Bool), s.registered false = none ∧ s.registered true = some () ∧
      slotOf (s.waitsets ()).slots true = 1 ∧ slotOf (s.waitsets ()).slots true < 32 ∧ freeSlot (s.waitsets ()).slots < 32) ∧
    (∃ s : Memory Unit Bool Bool (FreertosWaitset Bool Bool), s.registered false = none ∧ s.registered true = some () ∧
      (s.waitsets ()).count = 1 ∧ (s.waitsets ()).sumCap = 4 ∧ Freertos.Table (portOf 32 4) s.primitive (s.waitsets ())) ∧
    ∃ s : Memory Unit Bool Bool (WindowsWaitset Bool Bool), s.registered false = none ∧ (s.waitsets ()).handles 0 = .object true ∧
      ∃ i, Windows.find (s.waitsets ()) (s.primitive true) = some i ∧ i < (s.waitsets ()).count ∧ (s.waitsets ()).waitables i = true := by
  refine ⟨?_, ?_, ?_⟩
  · have starts : Reachable (Starts (· = Zephyr.init 32)) (step (Zephyr.backend 32)) (Allowed fun _ _ _ _ => True)
        (pair (Zephyr.init 32)) := .start ⟨fun _ => rfl, fun _ => rfl⟩
    have added := Reachable.next (a := Call.add (some ()) (some false) ()) starts trivial rfl
    have both := Reachable.next (a := Call.add (some ()) (some true) ()) added trivial rfl
    have removed := Reachable.next (a := Call.remove (some ()) (some false) ()) both trivial rfl
    obtain ⟨-, room, found⟩ := historiesKept.1 _ _ removed
    exact ⟨_, rfl, rfl, rfl, found () true rfl, room () (by decide)⟩
  · have starts : Reachable (Starts (· = Freertos.init (portOf 32 4))) (step (Freertos.backend (portOf 32 4)))
        (Allowed fun s w b k => ¬ Freertos.Wraps (portOf 32 4) s w b k) (pair (Freertos.init (portOf 32 4))) :=
      .start ⟨fun _ => rfl, fun _ => rfl⟩
    have fits : ¬ Freertos.Wraps (portOf 32 4) (pair (Freertos.init (portOf 32 4))) () false ⟨0, true⟩ := by
      rintro ⟨-, -, -, -, -, -, -, wraps⟩
      revert wraps
      decide
    have added := Reachable.next (a := Call.add (some ()) (some false) (⟨0, true⟩ : Freertos.Answers)) starts fits rfl
    have both := Reachable.next (a := Call.add (some ()) (some true) (⟨0, true⟩ : Freertos.Answers)) added (by
      rintro ⟨-, -, -, -, -, -, -, wraps⟩
      revert wraps
      decide) rfl
    have removed := Reachable.next (a := Call.remove (some ()) (some false) (⟨0, true⟩ : Freertos.Answers)) both trivial rfl
    exact ⟨_, rfl, rfl, rfl, rfl, (historiesKept.2.1 _ _ removed).1.kept.tables ()⟩
  · have starts : Reachable (Starts Windows.New) (step (Windows.backend 63)) (Allowed fun _ _ _ _ => True) (pair emptyArrays) :=
      .start ⟨fun _ => rfl, fun _ => rfl⟩
    have added := Reachable.next (a := Call.add (some ()) (some false) ()) starts trivial rfl
    have both := Reachable.next (a := Call.add (some ()) (some true) ()) added trivial rfl
    have removed := Reachable.next (a := Call.remove (some ()) (some false) ()) both trivial rfl
    exact ⟨_, rfl, rfl, (historiesKept.2.2 _ _ removed).2 () true rfl⟩

def single {T : Type} (t : T) : Memory Unit Unit Unit T where
  waitsets := fun _ => t
  waitables := fun _ => { primitive := .object (), registeredWaitset := none, events := waitableEventIn }

/- With a 64-bit `UBaseType_t` a counting semaphore of 2^63 passes the check of every empty waitset. -/
theorem wrapsOnce : ∃ s : Memory Unit Unit Unit (FreertosWaitset Unit Unit),
    Reachable (Starts (· = Freertos.init (portOf 64 (2 ^ 63)))) (step (Freertos.backend (portOf 64 (2 ^ 63))))
      (Allowed fun _ _ _ _ => True) s ∧
    ¬ (s.waitsets ()).sumCap + (s.waitsets ()).maxCap ≤ (portOf 64 (2 ^ 63) : Freertos.Port Unit).cap := by
  have starts : Reachable (Starts (· = Freertos.init (portOf 64 (2 ^ 63)))) (step (Freertos.backend (portOf 64 (2 ^ 63))))
      (Allowed fun _ _ _ _ => True) (single (Freertos.init (portOf 64 (2 ^ 63)))) :=
    .start ⟨fun _ => rfl, fun _ => rfl⟩
  exact ⟨_, Reachable.next (a := Call.add (some ()) (some ()) (⟨0, true⟩ : Freertos.Answers)) starts trivial rfl, by decide⟩

end Nanosig.Platform
