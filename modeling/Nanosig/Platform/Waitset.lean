import Nanosig.Lib.Registry
import Nanosig.Lib.TransitionSystem
import Nanosig.Status

/-! What the waitsets of all backends share: the waitables with their back pointers,
the calls that register and remove them, and what any history of these calls keeps. -/
namespace Nanosig.Platform
open TransitionSystem Registry

/- `ns_waitable_handle_t`: NULL, the `(void *)~0` that `ns_waitable_init` writes, or an object of the system. -/
inductive Handle (η : Type) where
  | null
  | sentinel
  | object (id : η)
  deriving DecidableEq

/- `ns_waitable_handle_is_valid`. -/
def Handle.isValid {η : Type} : Handle η → Bool
  | .object _ => true
  | _ => false

def waitableEventIn : BitVec 32 := 1
def waitableEventOut : BitVec 32 := 2
def waitableEventErr : BitVec 32 := 4

structure Waitable (ω η : Type) where
  primitive : Handle η
  registeredWaitset : Option ω
  events : BitVec 32

def Waitable.inOnly {ω η : Type} (waitable : Waitable ω η) : Bool :=
  waitable.events &&& waitableEventIn ≠ 0 ∧ waitable.events &&& (waitableEventOut ||| waitableEventErr) = 0

structure Memory (ω β η T : Type) where
  waitsets : ω → T
  waitables : β → Waitable ω η

section Memory

variable {ω β η T : Type} [DecidableEq ω] [DecidableEq β]

def Memory.link (s : Memory ω β η T) (w : ω) (t : T) (b : β) (registered : Option ω) : Memory ω β η T where
  waitsets := Function.update s.waitsets w t
  waitables := Function.update s.waitables b { s.waitables b with registeredWaitset := registered }

def Memory.primitive (s : Memory ω β η T) (b : β) : Handle η := (s.waitables b).primitive

def Memory.registered (s : Memory ω β η T) (b : β) : Option ω := (s.waitables b).registeredWaitset

@[simp] theorem primitiveLink (s : Memory ω β η T) (w : ω) (t : T) (b : β) (r : Option ω) :
    (s.link w t b r).primitive = s.primitive := by
  funext x
  by_cases same : x = b
  · subst same
    simp [Memory.primitive, Memory.link]
  · simp [Memory.primitive, Memory.link, same]

@[simp] theorem registeredLink (s : Memory ω β η T) (w : ω) (t : T) (b : β) (r : Option ω) :
    (s.link w t b r).registered = Function.update s.registered b r := by
  funext x
  by_cases same : x = b
  · subst same
    simp [Memory.registered, Memory.link]
  · simp [Memory.registered, Memory.link, same]

@[simp] theorem waitsetsLink (s : Memory ω β η T) (w : ω) (t : T) (b : β) (r : Option ω) :
    (s.link w t b r).waitsets = Function.update s.waitsets w t := rfl

end Memory

/- A call of the program, with what the system answers to it; between two calls the program
may fill in a waitable and the system may change a waitset. -/
inductive Call (ω β η κ ε : Type) where
  | add (waitset : Option ω) (waitable : Option β) (answers : κ)
  | remove (waitset : Option ω) (waitable : Option β) (answers : κ)
  | prepare (waitable : β) (primitive : Handle η) (events : BitVec 32)
  | system (waitset : ω) (event : ε)

/- `ns_platform_waitset_add` and `ns_platform_waitset_remove` of a backend behind their NULL
checks, and what the system does to a waitset by itself. No result stands for a write
outside the table. -/
structure Backend (ω β η T κ ε : Type) where
  add : Memory ω β η T → ω → β → κ → Option (Memory ω β η T × Status)
  remove : Memory ω β η T → ω → β → κ → Option (Memory ω β η T × Status)
  system : T → ε → T

section Histories

variable {ω β η T κ ε : Type} [DecidableEq ω] [DecidableEq β]

def step (backend : Backend ω β η T κ ε) (s : Memory ω β η T) : Call ω β η κ ε → Option (Memory ω β η T × Status)
  | .add (some w) (some b) k => backend.add s w b k
  | .remove (some w) (some b) k => backend.remove s w b k
  | .add _ _ _ | .remove _ _ _ => some (s, .inval)
  | .prepare b primitive events => some
      ({ s with waitables := Function.update s.waitables b { s.waitables b with primitive := primitive, events := events } }, .ok)
  | .system w e => some ({ s with waitsets := Function.update s.waitsets w (backend.system (s.waitsets w) e) }, .ok)

/- The program leaves registered waitables alone; `fits` restricts the calls that add. -/
def Allowed (fits : Memory ω β η T → ω → β → κ → Prop) (s : Memory ω β η T) : Call ω β η κ ε → Prop
  | .add (some w) (some b) k => fits s w b k
  | .prepare b _ _ => s.registered b = none
  | _ => True

/- New waitsets, and waitables that no waitset has seen. -/
def Starts (new : T → Prop) (s : Memory ω β η T) : Prop := (∀ w, new (s.waitsets w)) ∧ ∀ b, s.registered b = none

structure Kept (members : T → List β) (table : (β → Handle η) → T → Prop) (s : Memory ω β η T) : Prop where
  agrees : Agrees (fun w => members (s.waitsets w)) s.registered
  tables : ∀ w, table s.primitive (s.waitsets w)

inductive Added (members : T → List β) (table : (β → Handle η) → T → Prop) (same : (β → Handle η) → T → T → Prop)
    (s : Memory ω β η T) (w : ω) (b : β) : Memory ω β η T → Status → Prop where
  | refused {s' : Memory ω β η T} {status : Status} (refusal : status ≠ .ok) (waitables : s'.waitables = s.waitables)
      (waitsets : ∀ v, same s.primitive (s.waitsets v) (s'.waitsets v)) : Added members table same s w b s' status
  | added {t : T} (free : s.registered b = none) (listed : (members t).Perm (b :: members (s.waitsets w)))
      (kept : table s.primitive t) : Added members table same s w b (s.link w t b (some w)) .ok

inductive Removed (members : T → List β) (table : (β → Handle η) → T → Prop) (s : Memory ω β η T) (w : ω) (b : β) :
    Memory ω β η T → Status → Prop where
  | refused {status : Status} (refusal : status ≠ .ok) : Removed members table s w b s status
  | removed {t : T} (unlisted : (members (s.waitsets w)).Perm (b :: members t)) (kept : table s.primitive t) :
      Removed members table s w b (s.link w t b none) .ok

/- What a backend owes to its callers. `same` says that a waitset has not changed. -/
structure Lawful (backend : Backend ω β η T κ ε) (fits : Memory ω β η T → ω → β → κ → Prop) (members : T → List β)
    (table : (β → Handle η) → T → Prop) (same : (β → Handle η) → T → T → Prop) : Prop where
  congr : ∀ {primitive primitive' t}, (∀ b ∈ members t, primitive' b = primitive b) → table primitive t → table primitive' t
  unchanged : ∀ {primitive t t'}, same primitive t t' → members t' = members t ∧ (table primitive t → table primitive t')
  system : ∀ primitive t e, members (backend.system t e) = members t ∧
    (table primitive t → table primitive (backend.system t e))
  add : ∀ {s : Memory ω β η T} {w b} k, Kept members table s → fits s w b k →
    ∃ s' status, backend.add s w b k = some (s', status) ∧ Added members table same s w b s' status
  remove : ∀ {s : Memory ω β η T} {w b} k, Kept members table s →
    ∃ s' status, backend.remove s w b k = some (s', status) ∧ Removed members table s w b s' status

variable {backend : Backend ω β η T κ ε} {fits : Memory ω β η T → ω → β → κ → Prop} {members : T → List β}
  {table : (β → Handle η) → T → Prop} {same : (β → Handle η) → T → T → Prop}

theorem Kept.link {s : Memory ω β η T} {w : ω} {t : T} {b : β} {r : Option ω} (kept : Kept members table s)
    (agrees : Agrees (fun v => members (Function.update s.waitsets w t v)) (Function.update s.registered b r))
    (inOrder : table s.primitive t) : Kept members table (s.link w t b r) := by
  refine ⟨by simpa using agrees, fun v => ?_⟩
  by_cases here : v = w
  · subst here
    simpa using inOrder
  · simpa [here] using kept.tables v

theorem Added.kept (lawful : Lawful backend fits members table same) {s s' : Memory ω β η T} {w : ω} {b : β} {status : Status}
    (kept : Kept members table s) (added : Added members table same s w b s' status) : Kept members table s' := by
  cases added with
  | refused refusal waitables waitsets =>
    have primitive : s'.primitive = s.primitive := by
      funext x
      rw [Memory.primitive, Memory.primitive, waitables]
    have registered : s'.registered = s.registered := by
      funext x
      rw [Memory.registered, Memory.registered, waitables]
    have listing : (fun v => members (s'.waitsets v)) = fun v => members (s.waitsets v) :=
      funext fun v => (lawful.unchanged (waitsets v)).1
    refine ⟨by rw [listing, registered]; exact kept.agrees, fun v => ?_⟩
    rw [primitive]
    exact (lawful.unchanged (waitsets v)).2 (kept.tables v)
  | added free listed inOrder =>
    refine kept.link (kept.agrees.register free (w := w) (by simpa using listed) fun v other => ?_) inOrder
    simp [other]

theorem Removed.kept {s s' : Memory ω β η T} {w : ω} {b : β} {status : Status} (kept : Kept members table s)
    (removed : Removed members table s w b s' status) : Kept members table s' := by
  cases removed with
  | refused refusal => exact kept
  | removed unlisted inOrder =>
    refine kept.link (kept.agrees.unregister (w := w) (by simpa using unlisted) fun v other => ?_) inOrder
    simp [other]

theorem callKept (lawful : Lawful backend fits members table same) {s : Memory ω β η T} (kept : Kept members table s)
    {call : Call ω β η κ ε} (allowed : Allowed fits s call) :
    ∃ s' status, step backend s call = some (s', status) ∧ Kept members table s' := by
  cases call with
  | add waitset waitable k =>
    cases waitset with
    | none => exact ⟨s, .inval, rfl, kept⟩
    | some w =>
      cases waitable with
      | none => exact ⟨s, .inval, rfl, kept⟩
      | some b =>
        obtain ⟨s', status, taken, added⟩ := lawful.add k kept allowed
        exact ⟨s', status, taken, added.kept lawful kept⟩
  | remove waitset waitable k =>
    cases waitset with
    | none => exact ⟨s, .inval, rfl, kept⟩
    | some w =>
      cases waitable with
      | none => exact ⟨s, .inval, rfl, kept⟩
      | some b =>
        obtain ⟨s', status, taken, removed⟩ := lawful.remove (w := w) (b := b) k kept
        exact ⟨s', status, taken, removed.kept kept⟩
  | prepare b primitive events =>
    refine ⟨_, .ok, rfl, ⟨?_, fun w => ?_⟩⟩
    · have registered : ∀ x, (Function.update s.waitables b
          { s.waitables b with primitive := primitive, events := events } x).registeredWaitset = s.registered x := fun x => by
        by_cases here : x = b
        · subst here
          simp [Memory.registered]
        · simp [Memory.registered, here]
      exact ⟨kept.agrees.once, fun w x => by
        rw [kept.agrees.listed]
        simp only [Memory.registered, registered]⟩
    · refine lawful.congr (fun x member => ?_) (kept.tables w)
      have other : x ≠ b := by
        rintro rfl
        have := (kept.agrees.listed w x).mp member
        rw [allowed] at this
        cases this
      simp [Memory.primitive, other]
  | system w e =>
    have listing : (fun v => members (Function.update s.waitsets w (backend.system (s.waitsets w) e) v)) =
        fun v => members (s.waitsets v) := by
      funext v
      by_cases here : v = w
      · subst here
        simp [(lawful.system s.primitive (s.waitsets v) e).1]
      · simp [here]
    refine ⟨_, .ok, rfl, ⟨?_, fun v => ?_⟩⟩
    · rw [listing]
      exact kept.agrees
    · change table s.primitive (Function.update s.waitsets w (backend.system (s.waitsets w) e) v)
      by_cases here : v = w
      · subst here
        simpa using (lawful.system _ _ e).2 (kept.tables v)
      · simpa [here] using kept.tables v

omit [DecidableEq ω] [DecidableEq β] in
theorem startsKept {new : T → Prop} (order : ∀ primitive t, new t → members t = [] ∧ table primitive t)
    {s : Memory ω β η T} (starts : Starts new s) : Kept members table s := by
  refine ⟨⟨fun w => ?_, fun w b => ?_⟩, fun w => (order _ _ (starts.1 w)).2⟩
  · rw [(order s.primitive _ (starts.1 w)).1]
    exact List.nodup_nil
  · rw [(order s.primitive _ (starts.1 w)).1, starts.2 b]
    simp

theorem reachableKept (lawful : Lawful backend fits members table same) {new : T → Prop}
    (order : ∀ primitive t, new t → members t = [] ∧ table primitive t) {s : Memory ω β η T}
    (reach : Reachable (Starts new) (step backend) (Allowed fits) s) : Kept members table s := by
  refine reach.invariant (fun s starts => startsKept order starts) fun s call s' status kept allowed taken => ?_
  obtain ⟨s'', status', took, kept'⟩ := callKept lawful kept allowed
  rw [taken] at took
  cases took
  exact kept'

end Histories

end Nanosig.Platform
