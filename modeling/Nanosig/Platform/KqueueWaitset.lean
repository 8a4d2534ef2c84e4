import Nanosig.Platform.WaitsetWaits

/-! The waitset of the macOS backend. Its table is a kernel queue keyed by descriptor and filter, which takes one change at
a time and may refuse any of them; `kevent` calls that were interrupted are repeated and stand here for one call. -/
namespace Nanosig.Platform.Macos
open TransitionSystem Registry

inductive Filter where
  | read
  | write
  deriving DecidableEq

/- An entry of the queue: the waitable it reports and whether it has EV_CLEAR. -/
structure Knote (β : Type) where
  udata : β
  clear : Bool
  deriving DecidableEq

structure KqueueWaitset (β η : Type) where
  count : Nat
  knotes : η × Filter → Option (Knote β)

/- `ns_platform_waitable_t`; none is a negative descriptor. -/
structure Waitable (ω η : Type) where
  primitive : Option η
  events : BitVec 32
  edgeTriggered : Bool
  registeredWaitset : Option ω

/- `listed` is for the proofs. -/
structure Memory (ω β η : Type) where
  waitsets : ω → KqueueWaitset β η
  waitables : β → Waitable ω η
  listed : ω → List β

structure Change (η : Type) where
  ident : η
  filter : Filter
  add : Option Bool

def Change.key {η : Type} (c : Change η) : η × Filter := (c.ident, c.filter)

structure Answers where
  changes : List Bool
  reverts : Bool

section Calls

variable {ω β η : Type} [DecidableEq ω] [DecidableEq β] [DecidableEq η]

def KqueueWaitset.set (t : KqueueWaitset β η) (key : η × Filter) (knote : Option (Knote β)) : KqueueWaitset β η :=
  { t with knotes := Function.update t.knotes key knote }

/- One change. To delete what is not there is an error. -/
def kevent (t : KqueueWaitset β η) (udata : β) (c : Change η) (granted : Bool) : Option (KqueueWaitset β η) :=
  if ¬granted then none
  else
    match c.add with
    | some clear => some (t.set c.key (some ⟨udata, clear⟩))
    | none => if (t.knotes c.key).isSome then some (t.set c.key none) else none

/- `ns_macos_waitset_make_changes`, with EV_ADD or with EV_DELETE. -/
def makeChanges (fd : η) (events : BitVec 32) (add : Option Bool) : List (Change η) :=
  (if events &&& waitableEventIn ≠ 0 then [⟨fd, .read, add⟩] else []) ++
    if events &&& waitableEventOut ≠ 0 then [⟨fd, .write, add⟩] else []

/- `ns_macos_waitset_revert_change`; its failure is not reported. -/
def revertChange (edgeTriggered : Bool) (udata : β) (reverts : Bool) (t : KqueueWaitset β η) (applied : Change η) :
    KqueueWaitset β η :=
  let inverse : Change η := { applied with add := if applied.add.isSome then none else some edgeTriggered }
  (kevent t udata inverse reverts).getD t

/- `ns_macos_waitset_apply_changes`; `applied` are the changes made, the last one first. -/
def applyChanges (edgeTriggered : Bool) (udata : β) (reverts : Bool) :
    KqueueWaitset β η → List (Change η) → List (Change η) → List Bool → KqueueWaitset β η × Bool
  | t, _, [], _ => (t, true)
  | t, applied, c :: rest, answers =>
      match kevent t udata c (answers.headD true) with
      | some t => applyChanges edgeTriggered udata reverts t (c :: applied) rest answers.tail
      | none => (applied.foldl (revertChange edgeTriggered udata reverts) t, false)

def Memory.setWaitset (s : Memory ω β η) (w : ω) (t : KqueueWaitset β η) : Memory ω β η :=
  { s with waitsets := Function.update s.waitsets w t }

def Memory.link (s : Memory ω β η) (w : ω) (t : KqueueWaitset β η) (b : β) (registered : Option ω) (listed : List β) :
    Memory ω β η where
  waitsets := Function.update s.waitsets w t
  waitables := Function.update s.waitables b { s.waitables b with registeredWaitset := registered }
  listed := Function.update s.listed w listed

/- `ns_platform_waitset_add`. -/
def add (cap : Nat) (s : Memory ω β η) (w : ω) (b : β) (k : Answers) : Memory ω β η × Status :=
  let waitable := s.waitables b
  match waitable.primitive with
  | none => (s, .inval)
  | some fd =>
      if waitable.registeredWaitset ≠ none then (s, .exists)
      else if (s.waitsets w).count ≥ cap then (s, .tooManyHandles)
      else
        let changes := makeChanges fd waitable.events (some waitable.edgeTriggered)
        let (t, applied) := applyChanges waitable.edgeTriggered b k.reverts (s.waitsets w) [] changes k.changes
        if ¬applied then (s.setWaitset w t, .inval)
        else (s.link w { t with count := t.count + 1 } b (some w) (b :: s.listed w), .ok)

/- `ns_platform_waitset_remove`. -/
def remove (s : Memory ω β η) (w : ω) (b : β) (k : Answers) : Memory ω β η × Status :=
  let waitable := s.waitables b
  match waitable.primitive with
  | none => (s, .inval)
  | some fd =>
      if waitable.registeredWaitset ≠ some w then (s, .inval)
      else
        let changes := makeChanges fd waitable.events none
        let (t, applied) := applyChanges waitable.edgeTriggered b k.reverts (s.waitsets w) [] changes k.changes
        if ¬applied then (s.setWaitset w t, .inval)
        else (s.link w { t with count := t.count - 1 } b none ((s.listed w).erase b), .ok)

def Memory.prepare (s : Memory ω β η) (b : β) (waitable : Waitable ω η) : Memory ω β η :=
  { s with waitables := Function.update s.waitables b waitable }

inductive Call (ω β η : Type) where
  | add (w : ω) (b : β) (k : Answers)
  | remove (w : ω) (b : β) (k : Answers)
  | prepare (b : β) (primitive : Option η) (events : BitVec 32) (edgeTriggered : Bool)

def step (cap : Nat) (s : Memory ω β η) : Call ω β η → Option (Memory ω β η × Status)
  | .add w b k => some (add cap s w b k)
  | .remove w b k => some (remove s w b k)
  | .prepare b primitive events edgeTriggered =>
      let waitable := { s.waitables b with primitive := primitive, events := events, edgeTriggered := edgeTriggered }
      some (s.prepare b waitable, .ok)

def Memory.registered (s : Memory ω β η) (b : β) : Option ω := (s.waitables b).registeredWaitset

/- A descriptor is registered for one waitable of a waitset at a time, registered waitables are left alone, and what was
granted before is granted again to take a change back. -/
def Allowed (s : Memory ω β η) : Call ω β η → Prop
  | .add w b k => k.reverts = true ∧
      ∀ other, s.registered other = some w → (s.waitables other).primitive ≠ (s.waitables b).primitive
  | .remove _ _ k => k.reverts = true
  | .prepare b _ _ _ => s.registered b = none

def Starts (s : Memory ω β η) : Prop :=
  (∀ w, (s.waitsets w).count = 0 ∧ (s.waitsets w).knotes = (fun _ => none) ∧ s.listed w = []) ∧ ∀ b, s.registered b = none

end Calls

section Changes

variable {β η : Type} [DecidableEq β] [DecidableEq η] {t t' : KqueueWaitset β η} {edge : Bool} {udata : β}

def Change.result (c : Change η) (udata : β) : Option (Knote β) := c.add.map fun clear => ⟨udata, clear⟩

omit [DecidableEq β] in
theorem setSet (t : KqueueWaitset β η) (key : η × Filter) (knote knote' : Option (Knote β)) :
    (t.set key knote).set key knote' = t.set key knote' := by
  simp [KqueueWaitset.set]

omit [DecidableEq β] in
theorem setSelf {key : η × Filter} {knote : Option (Knote β)} (here : t.knotes key = knote) : t.set key knote = t := by
  rw [KqueueWaitset.set, ← here, Function.update_eq_self]

omit [DecidableEq β] in
theorem keventSets {c : Change η} {granted : Bool} (done : kevent t udata c granted = some t') :
    t' = t.set c.key (c.result udata) ∧ (c.add = none → (t.knotes c.key).isSome = true) := by
  unfold kevent at done
  split at done
  · contradiction
  · cases add : c.add with
    | some clear =>
      simp only [add] at done
      cases done
      exact ⟨by rw [Change.result, add]; rfl, fun none => by cases none⟩
    | none =>
      simp only [add] at done
      split at done
      · cases done
        exact ⟨by rw [Change.result, add]; rfl, fun _ => ‹_›⟩
      · contradiction

def Reversible (edge : Bool) (udata : β) (t : KqueueWaitset β η) (c : Change η) : Prop :=
  match c.add with
  | some _ => t.knotes c.key = none
  | none => ∀ knote, t.knotes c.key = some knote → knote = ⟨udata, edge⟩

omit [DecidableEq β] in
theorem revertsChange {c : Change η} {granted : Bool} (reversible : Reversible edge udata t c)
    (done : kevent t udata c granted = some t') : revertChange edge udata true t' c = t := by
  obtain ⟨rfl, present⟩ := keventSets done
  unfold Reversible at reversible
  cases add : c.add with
  | some clear =>
    simp only [add] at reversible
    have here : ((t.set c.key (c.result udata)).knotes c.key).isSome = true := by
      simp [KqueueWaitset.set, Change.result, add]
    have same : ({ c with add := none } : Change η).key = c.key := rfl
    simp only [revertChange, add, Option.isSome_some, if_true, kevent, same, here, not_true_eq_false, if_false,
      Option.getD_some, setSet]
    exact setSelf reversible
  | none =>
    simp only [add] at reversible
    obtain ⟨knote, found⟩ := Option.isSome_iff_exists.mp (present add)
    have same : ({ c with add := some edge } : Change η).key = c.key := rfl
    simp only [revertChange, add, Option.isSome_none, Bool.false_eq_true, if_false, kevent, same, not_true_eq_false,
      Option.getD_some, setSet]
    exact setSelf (found.trans (by rw [reversible knote found]))

omit [DecidableEq β] in
/- Either every change is made, or the queue is what it was before the first one. -/
theorem applyChangesExact {first : KqueueWaitset β η} {changes : List (Change η)} (applied : List (Change η))
    (answers : List Bool) (undone : applied.foldl (revertChange edge udata true) t = first)
    (reversible : ∀ c ∈ changes, Reversible edge udata t c) (distinct : (changes.map Change.key).Nodup) :
    (∃ t', applyChanges edge udata true t applied changes answers = (t', true) ∧ t'.count = t.count ∧
      (∀ c ∈ changes, t'.knotes c.key = c.result udata) ∧
      ∀ key, key ∉ changes.map Change.key → t'.knotes key = t.knotes key) ∨
    applyChanges edge udata true t applied changes answers = (first, false) := by
  induction changes generalizing t applied answers with
  | nil => exact .inl ⟨t, rfl, rfl, by simp, fun _ _ => rfl⟩
  | cons c rest ih =>
    rw [List.map_cons, List.nodup_cons] at distinct
    unfold applyChanges
    cases done : kevent t udata c (answers.headD true) with
    | none => exact .inr (by rw [undone])
    | some t₁ =>
      have back := revertsChange (reversible c List.mem_cons_self) done
      obtain ⟨same, -⟩ := keventSets done
      have elsewhere : ∀ key, key ≠ c.key → t₁.knotes key = t.knotes key := by
        intro key other
        rw [same]
        exact Function.update_of_ne other _ _
      have later : ∀ c' ∈ rest, Reversible edge udata t₁ c' := by
        intro c' member
        have other : c'.key ≠ c.key := fun equal => distinct.1 (equal ▸ List.mem_map_of_mem member)
        have before := reversible c' (List.mem_cons_of_mem _ member)
        unfold Reversible at before ⊢
        rwa [elsewhere _ other]
      rcases ih (c :: applied) answers.tail (by rw [List.foldl_cons, back, undone]) later distinct.2 with
        ⟨t', all, count, made, others⟩ | none
      · refine .inl ⟨t', all, count.trans (by rw [same]; rfl), fun c' member => ?_, fun key outside => ?_⟩
        · rcases List.mem_cons.mp member with rfl | member
          · rw [others _ distinct.1, same]
            exact Function.update_self ..
          · exact made c' member
        · rw [List.map_cons, List.mem_cons, not_or] at outside
          rw [others key outside.2, elsewhere key outside.1]
      · exact .inr none

def asks (events : BitVec 32) : Filter → Bool
  | .read => events &&& waitableEventIn ≠ 0
  | .write => events &&& waitableEventOut ≠ 0

omit [DecidableEq η] in
theorem makeChangesMem {fd : η} {events : BitVec 32} {add : Option Bool} {c : Change η} :
    c ∈ makeChanges fd events add ↔ ∃ f, asks events f = true ∧ c = ⟨fd, f, add⟩ := by
  unfold makeChanges
  constructor
  · intro member
    rcases List.mem_append.mp member with here | here <;> split at here
    · rename_i asked
      exact ⟨.read, decide_eq_true asked, by simpa using here⟩
    · simp at here
    · rename_i asked
      exact ⟨.write, decide_eq_true asked, by simpa using here⟩
    · simp at here
  · rintro ⟨f, asked, rfl⟩
    cases f with
    | read =>
      have asked : events &&& waitableEventIn ≠ 0 := of_decide_eq_true asked
      rw [if_pos asked]
      exact List.mem_append_left _ (List.mem_singleton.mpr rfl)
    | write =>
      have asked : events &&& waitableEventOut ≠ 0 := of_decide_eq_true asked
      rw [if_pos asked]
      exact List.mem_append_right _ (List.mem_singleton.mpr rfl)

omit [DecidableEq η] in
theorem makeChangesDistinct (fd : η) (events : BitVec 32) (add : Option Bool) :
    ((makeChanges fd events add).map Change.key).Nodup := by
  unfold makeChanges
  split <;> split <;> simp [Change.key]

omit [DecidableEq η] in
theorem makeChangesKeys {fd fd' : η} {events : BitVec 32} {add : Option Bool} {f : Filter} :
    (fd', f) ∈ (makeChanges fd events add).map Change.key ↔ fd' = fd ∧ asks events f = true := by
  simp only [List.mem_map, makeChangesMem]
  constructor
  · rintro ⟨_, ⟨f', asked, rfl⟩, same⟩
    cases same
    exact ⟨rfl, asked⟩
  · rintro ⟨rfl, asked⟩
    exact ⟨_, ⟨f, asked, rfl⟩, rfl⟩

end Changes

section Histories

variable {ω β η : Type} [DecidableEq ω] [DecidableEq β] [DecidableEq η] {cap : Nat} {s s' : Memory ω β η} {w : ω} {b : β}

def Asks (s : Memory ω β η) (w : ω) (fd : η) (f : Filter) (knote : Knote β) : Prop :=
  s.registered knote.udata = some w ∧ (s.waitables knote.udata).primitive = some fd ∧
    asks (s.waitables knote.udata).events f = true ∧ knote.clear = (s.waitables knote.udata).edgeTriggered

structure Kept (cap : Nat) (s : Memory ω β η) : Prop where
  agrees : Agrees s.listed s.registered
  counted : ∀ w, (s.waitsets w).count = (s.listed w).length
  few : ∀ w, (s.waitsets w).count ≤ cap
  described : ∀ w fd f knote, (s.waitsets w).knotes (fd, f) = some knote ↔ Asks s w fd f knote
  apart : ∀ w b b', s.registered b = some w → s.registered b' = some w →
    (s.waitables b).primitive = (s.waitables b').primitive → b = b'

omit [DecidableEq η] in
theorem registeredLink (s : Memory ω β η) (w : ω) (t : KqueueWaitset β η) (b : β) (r : Option ω) (listed : List β) :
    (s.link w t b r listed).registered = Function.update s.registered b r := by
  funext x
  by_cases same : x = b
  · subst same
    simp [Memory.registered, Memory.link]
  · simp [Memory.registered, Memory.link, same]

omit [DecidableEq η] in
theorem fieldsLink (s : Memory ω β η) (w : ω) (t : KqueueWaitset β η) (b : β) (r : Option ω) (listed : List β) (x : β) :
    ((s.link w t b r listed).waitables x).primitive = (s.waitables x).primitive ∧
      ((s.link w t b r listed).waitables x).events = (s.waitables x).events ∧
      ((s.link w t b r listed).waitables x).edgeTriggered = (s.waitables x).edgeTriggered := by
  by_cases same : x = b
  · subst same
    simp [Memory.link]
  · simp [Memory.link, same]

omit [DecidableEq η] in
theorem asksLink (s : Memory ω β η) (w : ω) (t : KqueueWaitset β η) (b : β) (r : Option ω) (listed : List β) (v : ω) (fd : η)
    (f : Filter) (knote : Knote β) : Asks (s.link w t b r listed) v fd f knote ↔
      Function.update s.registered b r knote.udata = some v ∧ (s.waitables knote.udata).primitive = some fd ∧
        asks (s.waitables knote.udata).events f = true ∧ knote.clear = (s.waitables knote.udata).edgeTriggered := by
  obtain ⟨primitive, events, edge⟩ := fieldsLink s w t b r listed knote.udata
  rw [Asks, registeredLink, primitive, events, edge]

omit [DecidableEq β] [DecidableEq η] in
theorem setWaitsetSelf (s : Memory ω β η) (w : ω) : s.setWaitset w (s.waitsets w) = s := by
  rw [Memory.setWaitset, Function.update_eq_self]

section Link

variable {t : KqueueWaitset β η} {r : Option ω} {listed : List β} {fd : η} (primitive : (s.waitables b).primitive = some fd)
  (after : r = none ∨ r = some w)
  (alone : ∀ other, other ≠ b → s.registered other = some w → (s.waitables other).primitive ≠ some fd)
include primitive after alone

/- The entries of the waitable are those its changes set, and all others are as they were. -/
theorem linkDescribed (kept : Kept cap s) (before : s.registered b = none ∨ s.registered b = some w)
    (made : ∀ f, asks (s.waitables b).events f = true →
      t.knotes (fd, f) = if r = some w then some ⟨b, (s.waitables b).edgeTriggered⟩ else none)
    (others : ∀ fd' f, ¬(fd' = fd ∧ asks (s.waitables b).events f = true) →
      t.knotes (fd', f) = (s.waitsets w).knotes (fd', f)) (v : ω) (fd' : η) (f : Filter) (knote : Knote β) :
    ((s.link w t b r listed).waitsets v).knotes (fd', f) = some knote ↔ Asks (s.link w t b r listed) v fd' f knote := by
  rw [asksLink]
  have described := kept.described v fd' f knote
  rw [Asks] at described
  by_cases here : v = w
  · subst here
    have queue : ((s.link v t b r listed).waitsets v).knotes = t.knotes := by simp [Memory.link]
    rw [queue]
    by_cases mine : knote.udata = b
    · by_cases asked : fd' = fd ∧ asks (s.waitables b).events f = true
      · -- The entries of this waitable are those its changes set.
        obtain ⟨rfl, asked⟩ := asked
        obtain ⟨udata, clear⟩ := knote
        obtain rfl : udata = b := mine
        rw [made f asked, Function.update_self]
        split
        · rename_i there
          constructor
          · intro same
            cases same
            exact ⟨there, primitive, asked, rfl⟩
          · rintro ⟨-, -, -, same⟩
            have same : clear = (s.waitables udata).edgeTriggered := same
            rw [same]
        · rename_i away
          constructor
          · intro same
            contradiction
          · rintro ⟨there, -⟩
            exact absurd there away
      · rw [others fd' f asked, described, mine]
        constructor
        · rintro ⟨-, same, asks, -⟩
          exact absurd ⟨Option.some.inj (same.symm.trans primitive), asks⟩ asked
        · rintro ⟨-, same, asks, -⟩
          exact absurd ⟨Option.some.inj (same.symm.trans primitive), asks⟩ asked
    · rw [Function.update_of_ne mine]
      by_cases asked : fd' = fd ∧ asks (s.waitables b).events f = true
      · obtain ⟨rfl, asked⟩ := asked
        rw [made f asked]
        constructor
        · intro same
          split at same
          · cases same
            exact absurd rfl mine
          · contradiction
        · rintro ⟨registered, same, -, -⟩
          exact absurd same (alone _ mine registered)
      · rw [others fd' f asked, described]
  · have queue : (s.link w t b r listed).waitsets v = s.waitsets v := by simp [Memory.link, here]
    rw [queue, described, backElsewhere before after here]

omit [DecidableEq η] in
/- Nobody else in `w` has the descriptor of the waitable. -/
theorem linkApart (kept : Kept cap s) (v : ω) (x y : β) (registeredX : (s.link w t b r listed).registered x = some v)
    (registeredY : (s.link w t b r listed).registered y = some v)
    (same : ((s.link w t b r listed).waitables x).primitive = ((s.link w t b r listed).waitables y).primitive) : x = y := by
  rw [registeredLink] at registeredX registeredY
  rw [(fieldsLink s w t b r listed x).1, (fieldsLink s w t b r listed y).1] at same
  have clash : ∀ z, z ≠ b → r = some v → s.registered z = some v → (s.waitables z).primitive ≠ (s.waitables b).primitive := by
    intro z other there registered
    obtain rfl : v = w := by
      rcases after with none | inside
      · simp [none] at there
      · exact Option.some.inj (there.symm.trans inside)
    rw [primitive]
    exact alone z other registered
  by_cases mineX : x = b
  · subst mineX
    by_cases mineY : y = x
    · exact mineY.symm
    · rw [Function.update_self] at registeredX
      rw [Function.update_of_ne mineY] at registeredY
      exact absurd same.symm (clash y mineY registeredX registeredY)
  · rw [Function.update_of_ne mineX] at registeredX
    by_cases mineY : y = b
    · subst mineY
      rw [Function.update_self] at registeredY
      exact absurd same (clash x mineX registeredY registeredX)
    · rw [Function.update_of_ne mineY] at registeredY
      exact kept.apart v x y registeredX registeredY same

end Link

theorem linkKept (kept : Kept cap s) {t : KqueueWaitset β η} {r : Option ω} {listed : List β} {fd : η}
    (primitive : (s.waitables b).primitive = some fd)
    (before : s.registered b = none ∨ s.registered b = some w) (after : r = none ∨ r = some w)
    (alone : ∀ other, other ≠ b → s.registered other = some w → (s.waitables other).primitive ≠ some fd)
    (agrees : Agrees (Function.update s.listed w listed) (Function.update s.registered b r))
    (count : t.count = listed.length) (few : t.count ≤ cap)
    (made : ∀ f, asks (s.waitables b).events f = true →
      t.knotes (fd, f) = if r = some w then some ⟨b, (s.waitables b).edgeTriggered⟩ else none)
    (others : ∀ fd' f, ¬(fd' = fd ∧ asks (s.waitables b).events f = true) →
      t.knotes (fd', f) = (s.waitsets w).knotes (fd', f)) : Kept cap (s.link w t b r listed) := by
  refine ⟨?_, fun v => ?_, fun v => ?_, linkDescribed primitive after alone kept before made others,
    linkApart primitive after alone kept⟩
  · rw [registeredLink]
    exact agrees
  · by_cases here : v = w
    · subst here
      simpa [Memory.link] using count
    · simpa [Memory.link, here] using kept.counted v
  · by_cases here : v = w
    · subst here
      simpa [Memory.link] using few
    · simpa [Memory.link, here] using kept.few v

theorem addKept (kept : Kept cap s) {k : Answers} (allowed : Allowed s (.add w b k)) :
    (add cap s w b k).2 ≠ .ok ∧ (add cap s w b k).1 = s ∨
      (add cap s w b k).2 = .ok ∧ s.registered b = none ∧ (add cap s w b k).1.registered b = some w ∧
        Kept cap (add cap s w b k).1 := by
  obtain ⟨reverts, alone⟩ := allowed
  unfold add
  dsimp only
  cases primitive : (s.waitables b).primitive with
  | none => exact .inl ⟨by simp, rfl⟩
  | some fd =>
    dsimp only
    split
    · exact .inl ⟨by simp, rfl⟩
    · rename_i free
      have free : s.registered b = none := not_not.mp free
      split
      · exact .inl ⟨by simp, rfl⟩
      · rename_i room
        rw [reverts]
        -- The descriptor has no entry yet.
        have empty : ∀ f, (s.waitsets w).knotes (fd, f) = none := by
          intro f
          by_contra found
          obtain ⟨knote, found⟩ := Option.ne_none_iff_exists'.mp found
          obtain ⟨registered, same, -⟩ := (kept.described w fd f knote).mp found
          exact alone knote.udata registered (same.trans primitive.symm)
        have reversible : ∀ c ∈ makeChanges fd (s.waitables b).events (some (s.waitables b).edgeTriggered),
            Reversible (s.waitables b).edgeTriggered b (s.waitsets w) c := by
          intro c member
          obtain ⟨f, -, rfl⟩ := makeChangesMem.mp member
          exact empty f
        rcases applyChangesExact [] k.changes rfl reversible (makeChangesDistinct _ _ _) with
          ⟨t, all, count, made, others⟩ | none
        · rw [all]
          have registered : (s.link w { t with count := t.count + 1 } b (some w) (b :: s.listed w)).registered b = some w := by
            rw [registeredLink, Function.update_self]
          refine .inr ⟨rfl, free, registered, ?_⟩
          have counted := kept.counted w
          refine linkKept kept primitive (.inl free) (.inr rfl) ?_ ?_ ?_ ?_ ?_ ?_
          · intro other _ registered same
            exact alone other registered (same.trans primitive.symm)
          · exact kept.agrees.register free (by simp) fun v other => by simp [other]
          · simp only [List.length_cons, count, counted]
          · simp only [count]
            omega
          · intro f asked
            rw [if_pos rfl]
            exact made _ (makeChangesMem.mpr ⟨f, asked, rfl⟩)
          · intro fd' f outside
            exact others _ fun member => outside (makeChangesKeys.mp member)
        · rw [none]
          exact .inl ⟨by simp, setWaitsetSelf s w⟩

theorem removeKept (kept : Kept cap s) {k : Answers} (allowed : Allowed s (.remove w b k)) :
    (remove s w b k).2 ≠ .ok ∧ (remove s w b k).1 = s ∨
      (remove s w b k).2 = .ok ∧ s.registered b = some w ∧ (remove s w b k).1.registered b = none ∧
        Kept cap (remove s w b k).1 := by
  have reverts : k.reverts = true := allowed
  unfold remove
  dsimp only
  cases primitive : (s.waitables b).primitive with
  | none => exact .inl ⟨by simp, rfl⟩
  | some fd =>
    dsimp only
    split
    · exact .inl ⟨by simp, rfl⟩
    · rename_i here
      have here : s.registered b = some w := not_not.mp here
      rw [reverts]
      -- What the descriptor has in the queue is this waitable's.
      have reversible : ∀ c ∈ makeChanges fd (s.waitables b).events none,
          Reversible (s.waitables b).edgeTriggered b (s.waitsets w) c := by
        intro c member
        obtain ⟨f, -, rfl⟩ := makeChangesMem.mp member
        intro knote found
        obtain ⟨registered, same, -, clear⟩ := (kept.described w fd f knote).mp found
        obtain ⟨udata, flag⟩ := knote
        obtain rfl : udata = b := kept.apart w _ _ registered here (same.trans primitive.symm)
        have clear : flag = (s.waitables udata).edgeTriggered := clear
        rw [clear]
      rcases applyChangesExact [] k.changes rfl reversible (makeChangesDistinct _ _ _) with
        ⟨t, all, count, made, others⟩ | none
      · rw [all]
        have registered : (s.link w { t with count := t.count - 1 } b none ((s.listed w).erase b)).registered b = none := by
          rw [registeredLink, Function.update_self]
        refine .inr ⟨rfl, here, registered, ?_⟩
        have member : b ∈ s.listed w := (kept.agrees.listed w b).mpr here
        have counted := kept.counted w
        have few := kept.few w
        refine linkKept kept primitive (.inr here) (.inl rfl) ?_ ?_ ?_ ?_ ?_ ?_
        · intro other differs registered same
          exact differs (kept.apart w _ _ registered here (same.trans primitive.symm))
        · exact kept.agrees.unregister (w := w) (by simpa using List.perm_cons_erase member) fun v other => by simp [other]
        · simp only [List.length_erase_of_mem member, count, counted]
        · simp only [count]
          omega
        · intro f asked
          exact made _ (makeChangesMem.mpr ⟨f, asked, rfl⟩)
        · intro fd' f outside
          exact others _ fun member => outside (makeChangesKeys.mp member)
      · rw [none]
        exact .inl ⟨by simp, setWaitsetSelf s w⟩

omit [DecidableEq ω] [DecidableEq η] in
theorem prepareKept (kept : Kept cap s) (free : s.registered b = none) (waitable : Waitable ω η)
    (same : waitable.registeredWaitset = (s.waitables b).registeredWaitset) : Kept cap (s.prepare b waitable) := by
  have registered : (s.prepare b waitable).registered = s.registered := by
    funext x
    by_cases mine : x = b
    · subst mine
      simp [Memory.registered, Memory.prepare, same]
    · simp [Memory.registered, Memory.prepare, mine]
  have others : ∀ x w, s.registered x = some w → (s.prepare b waitable).waitables x = s.waitables x := by
    intro x w there
    refine Function.update_of_ne ?_ _ _
    rintro rfl
    simp [free] at there
  refine ⟨by rw [registered]; exact kept.agrees, kept.counted, kept.few, fun w fd f knote => ?_, ?_⟩
  · rw [Asks, registered]
    refine (kept.described w fd f knote).trans ⟨?_, ?_⟩
    · rintro ⟨there, rest⟩
      exact ⟨there, by rw [others _ w there]; exact rest⟩
    · rintro ⟨there, rest⟩
      rw [others _ w there] at rest
      exact ⟨there, rest⟩
  · intro w x y thereX thereY equal
    rw [registered] at thereX thereY
    rw [others x w thereX, others y w thereY] at equal
    exact kept.apart w x y thereX thereY equal

theorem stepKept (kept : Kept cap s) {call : Call ω β η} {status : Status} (allowed : Allowed s call)
    (taken : step cap s call = some (s', status)) : Kept cap s' := by
  cases call with
  | add w b k =>
    have state : (add cap s w b k).1 = s' := congrArg Prod.fst (Option.some.inj taken)
    rw [← state]
    rcases addKept kept allowed with ⟨-, same⟩ | ⟨-, -, -, kept'⟩
    · rw [same]
      exact kept
    · exact kept'
  | remove w b k =>
    have state : (remove s w b k).1 = s' := congrArg Prod.fst (Option.some.inj taken)
    rw [← state]
    rcases removeKept kept allowed with ⟨-, same⟩ | ⟨-, -, -, kept'⟩
    · rw [same]
      exact kept
    · exact kept'
  | prepare b primitive events edgeTriggered =>
    cases taken
    exact prepareKept kept allowed _ rfl

omit [DecidableEq ω] [DecidableEq β] [DecidableEq η] in
theorem startsKept (starts : Starts s) : Kept cap s := by
  obtain ⟨empty, free⟩ := starts
  refine ⟨⟨fun w => by simp [(empty w).2.2], fun w b => by simp [(empty w).2.2, free b]⟩, fun w => by simp [(empty w).1, (empty w).2.2],
    fun w => by simp [(empty w).1], fun w fd f knote => by simp [(empty w).2.1, Asks, free], ?_⟩
  intro w x y there
  simp [free] at there

end Histories

section Waits

variable {ω β η : Type} [DecidableEq ω] [DecidableEq β] [DecidableEq η] {cap : Nat}

/- `struct kevent` as the wait reads it; `error` is EV_ERROR. -/
structure Kevent (β η : Type) where
  ident : η
  filter : Filter
  error : Bool
  udata : Option β

def Kevent.key (e : Kevent β η) : η × Filter := (e.ident, e.filter)

/- `ns_macos_waitset_from_kevent`. -/
def fromKevent (e : Kevent β η) : BitVec 32 :=
  (if e.filter = .read then waitableEventIn else 0) ||| (if e.filter = .write then waitableEventOut else 0) |||
    if e.error then waitableEventErr else 0

inductive WaitAnswer (β η : Type) where
  | interrupted
  | failed
  | ready (events : List (Kevent β η))

/- The inner loop: the bits go to the completion of the waitable, if there is one already. -/
def merge (completions : List (Completion β)) (b : β) (bits : BitVec 32) : List (Completion β) :=
  if completions.any (fun c => c.waitable = b) then
    completions.map fun c => if c.waitable = b then { c with triggeredEvents := c.triggeredEvents ||| bits } else c
  else completions ++ [⟨b, bits⟩]

def waitLoop (maxCompletions : Nat) : List (Kevent β η) → List (Completion β) → List (Completion β)
  | [], completions => completions
  | e :: rest, completions =>
      if completions.length < maxCompletions then
        waitLoop maxCompletions rest
          (match e.udata with
            | none => completions
            | some b => merge completions b (fromKevent e))
      else completions

/- `ns_platform_waitset_wait` behind its checks; its timeout only goes to `kevent`. -/
def wait (maxCompletions : Nat) (answer : WaitAnswer β η) : Status × List (Completion β) :=
  if maxCompletions = 0 then (.ok, [])
  else
    match answer with
    | .interrupted => (.ok, [])
    | .failed => (.inval, [])
    | .ready events => (.ok, waitLoop maxCompletions events [])

/- The queue reports entries it has, each at most once, and as many as it was asked for. -/
structure Answered (cap : Nat) (t : KqueueWaitset β η) (maxCompletions : Nat) (events : List (Kevent β η)) : Prop where
  few : events.length ≤ min maxCompletions cap
  distinct : (events.map Kevent.key).Nodup
  entries : ∀ e ∈ events, ∃ knote, t.knotes e.key = some knote ∧ e.udata = some knote.udata

def bitsOf (events : List (Kevent β η)) (b : β) : BitVec 32 :=
  events.foldl (fun bits e => if e.udata = some b then bits ||| fromKevent e else bits) 0

structure Merged (events : List (Kevent β η)) (completions : List (Completion β)) : Prop where
  distinct : (completions.map Completion.waitable).Nodup
  exact : ∀ c ∈ completions, c.triggeredEvents = bitsOf events c.waitable
  complete : ∀ b, b ∈ completions.map Completion.waitable ↔ ∃ e ∈ events, e.udata = some b
  few : completions.length ≤ events.length

omit [DecidableEq η] in
theorem bitsBehind (events : List (Kevent β η)) (e : Kevent β η) (b : β) :
    bitsOf (events ++ [e]) b = if e.udata = some b then bitsOf events b ||| fromKevent e else bitsOf events b := by
  simp [bitsOf]

omit [DecidableEq η] in
theorem Merged.step {events : List (Kevent β η)} {completions : List (Completion β)} (merged : Merged events completions)
    {e : Kevent β η} {b : β} (udata : e.udata = some b) : Merged (events ++ [e]) (merge completions b (fromKevent e)) := by
  have others : ∀ x, x ≠ b → bitsOf (events ++ [e]) x = bitsOf events x := by
    intro x other
    rw [bitsBehind, udata, if_neg fun same => other (Option.some.inj same).symm]
  have own : bitsOf (events ++ [e]) b = bitsOf events b ||| fromKevent e := by
    rw [bitsBehind, if_pos udata]
  have reported : ∀ x, (∃ e' ∈ events ++ [e], e'.udata = some x) ↔ x ∈ completions.map Completion.waitable ∨ x = b := by
    intro x
    rw [merged.complete]
    simp [udata, or_and_right, exists_or, eq_comm]
  unfold merge
  split
  · rename_i found
    have found : b ∈ completions.map Completion.waitable := by simpa using found
    have same : (completions.map fun c =>
        if c.waitable = b then { c with triggeredEvents := c.triggeredEvents ||| fromKevent e } else c).map Completion.waitable =
        completions.map Completion.waitable := by
      rw [List.map_map]
      refine List.map_congr_left fun c _ => ?_
      dsimp only [Function.comp]
      split <;> rfl
    refine ⟨by rw [same]; exact merged.distinct, fun c member => ?_, fun x => ?_, ?_⟩
    · obtain ⟨c, before, rfl⟩ := List.mem_map.mp member
      split
      · rename_i mine
        rw [mine, own, ← mine]
        exact congrArg (· ||| fromKevent e) (merged.exact c before)
      · rename_i other
        rw [others _ other]
        exact merged.exact c before
    · rw [same, reported]
      refine ⟨.inl, fun inside => inside.elim id ?_⟩
      rintro rfl
      exact found
    · have few := merged.few
      simp only [List.length_map, List.length_append, List.length_singleton]
      omega
  · rename_i new
    have new : b ∉ completions.map Completion.waitable := by simpa using new
    -- Nothing was reported for it before.
    have empty : bitsOf events b = 0 := by
      have silent : ∀ e ∈ events, e.udata ≠ some b := fun e member same => new ((merged.complete b).mpr ⟨e, member, same⟩)
      exact List.foldlRecOn (motive := fun bits => bits = 0) events _ rfl fun bits zero e member => by
        rw [if_neg (silent e member), zero]
    refine ⟨?_, fun c member => ?_, fun x => ?_, ?_⟩
    · rw [List.map_append, List.nodup_append]
      refine ⟨merged.distinct, List.nodup_singleton b, ?_⟩
      intro x inside y last same
      obtain rfl : y = b := List.mem_singleton.mp last
      exact new (same ▸ inside)
    · rcases List.mem_append.mp member with before | last
      · have other : c.waitable ≠ b := by
          rintro rfl
          exact new (List.mem_map_of_mem before)
        rw [others _ other]
        exact merged.exact c before
      · obtain rfl := List.mem_singleton.mp last
        dsimp only
        rw [own, empty]
        simp
    · rw [List.map_append, List.mem_append, reported]
      simp
    · have few := merged.few
      simp only [List.length_append, List.length_singleton]
      omega

omit [DecidableEq η] in
theorem waitLoopMerged {maxCompletions : Nat} {done rest : List (Kevent β η)} {completions : List (Completion β)}
    (merged : Merged done completions) (few : done.length + rest.length ≤ maxCompletions)
    (owned : ∀ e ∈ rest, ∃ b, e.udata = some b) : Merged (done ++ rest) (waitLoop maxCompletions rest completions) := by
  induction rest generalizing done completions with
  | nil => simpa [waitLoop] using merged
  | cons e rest ih =>
    obtain ⟨b, udata⟩ := owned e List.mem_cons_self
    have room := merged.few
    rw [List.length_cons] at few
    have next := ih (merged.step udata) (by rw [List.length_append, List.length_singleton]; omega)
      fun e member => owned e (List.mem_cons_of_mem _ member)
    rw [List.append_assoc, List.singleton_append] at next
    unfold waitLoop
    rw [if_pos (by omega), udata]
    exact next

structure Sound (s : Memory ω β η) (w : ω) (maxCompletions : Nat) (events : List (Kevent β η))
    (completions : List (Completion β)) : Prop where
  few : completions.length ≤ maxCompletions
  distinct : (completions.map Completion.waitable).Nodup
  registered : ∀ c ∈ completions, s.registered c.waitable = some w
  exact : ∀ c ∈ completions, c.triggeredEvents = bitsOf events c.waitable
  complete : ∀ e ∈ events, ∃ c ∈ completions, e.udata = some c.waitable ∧ asks (s.waitables c.waitable).events e.filter = true

omit [DecidableEq ω] [DecidableEq η] in
theorem waitSound {s : Memory ω β η} (kept : Kept cap s) {w : ω} {maxCompletions : Nat} (some_ : 1 ≤ maxCompletions)
    {events : List (Kevent β η)} (answered : Answered cap (s.waitsets w) maxCompletions events) :
    (wait maxCompletions (.ready events)).1 = .ok ∧ Sound s w maxCompletions events (wait maxCompletions (.ready events)).2 := by
  have few := answered.few
  have asked : ∀ e ∈ events, ∃ b, e.udata = some b ∧ s.registered b = some w ∧ asks (s.waitables b).events e.filter = true := by
    intro e member
    obtain ⟨knote, entry, udata⟩ := answered.entries e member
    obtain ⟨registered, -, asks, -⟩ := (kept.described w e.ident e.filter knote).mp entry
    exact ⟨_, udata, registered, asks⟩
  have start : Merged ([] : List (Kevent β η)) ([] : List (Completion β)) :=
    ⟨by simp, by simp, by simp, by simp⟩
  have merged : Merged ([] ++ events) (waitLoop maxCompletions events []) :=
    waitLoopMerged start (by simp only [List.length_nil]; omega) fun e member => by
      obtain ⟨b, udata, -⟩ := asked e member
      exact ⟨b, udata⟩
  rw [List.nil_append] at merged
  unfold wait
  rw [if_neg (by omega)]
  have bound := merged.few
  dsimp only
  refine ⟨rfl, by omega, merged.distinct, fun c member => ?_, merged.exact, fun e member => ?_⟩
  · obtain ⟨e, inside, udata⟩ := (merged.complete c.waitable).mp (List.mem_map_of_mem member)
    obtain ⟨b, same, registered, -⟩ := asked e inside
    obtain rfl := Option.some.inj (udata.symm.trans same)
    exact registered
  · obtain ⟨b, udata, -, asks⟩ := asked e member
    obtain ⟨c, inside, same⟩ := List.mem_map.mp ((merged.complete b).mpr ⟨e, member, udata⟩)
    subst same
    exact ⟨c, inside, udata, asks⟩

end Waits

/- After any history of calls the queue holds exactly what the registered waitables ask for and the count is theirs; a
refused add or removal changes nothing; and a wait reports each waitable the queue names once, with all its bits. -/
theorem kqueueHistories {ω β η : Type} [DecidableEq ω] [DecidableEq β] [DecidableEq η] {cap : Nat} {s : Memory ω β η}
    (reach : Reachable Starts (step cap) Allowed s) :
    Kept cap s ∧
      (∀ w b k, Allowed s (.add w b k) → (add cap s w b k).2 ≠ .ok → (add cap s w b k).1 = s) ∧
      (∀ w b k, Allowed s (.remove w b k) → (remove s w b k).2 ≠ .ok → (remove s w b k).1 = s) ∧
      ∀ w maxCompletions events, 1 ≤ maxCompletions → Answered cap (s.waitsets w) maxCompletions events →
        (wait maxCompletions (.ready events)).1 = .ok ∧
          Sound s w maxCompletions events (wait maxCompletions (.ready events)).2 := by
  have kept : Kept cap s := reach.invariant (fun _ starts => startsKept starts) fun _ _ _ _ kept allowed taken =>
    stepKept kept allowed taken
  refine ⟨kept, fun w b k allowed refused => ?_, fun w b k allowed refused => ?_, fun w maxCompletions events some_ answered =>
    waitSound kept some_ answered⟩
  · rcases addKept kept allowed with ⟨-, same⟩ | ⟨ok, -⟩
    · exact same
    · exact absurd ok refused
  · rcases removeKept kept allowed with ⟨-, same⟩ | ⟨ok, -⟩
    · exact same
    · exact absurd ok refused

def bothFilters : Memory Unit Unit Unit where
  waitsets := fun _ => { count := 0, knotes := fun _ => none }
  waitables := fun _ =>
    { primitive := some (), events := waitableEventIn ||| waitableEventOut, edgeTriggered := true, registeredWaitset := none }
  listed := fun _ => []

/- The first add is refused its second change and takes the first one back; after the second add both filters are ready. -/
theorem bothFiltersMerged : (add 64 bothFilters () () ⟨[true, false], true⟩).1 = bothFilters ∧
    ∃ s : Memory Unit Unit Unit, Kept 64 s ∧ (s.waitsets ()).count = 1 ∧
    (wait 8 (.ready [⟨(), .read, false, some ()⟩, ⟨(), .write, true, some ()⟩])).2.map (fun c => c.triggeredEvents) = [7] ∧
    Sound s () 8 [⟨(), .read, false, some ()⟩, ⟨(), .write, true, some ()⟩]
      (wait 8 (.ready [⟨(), .read, false, some ()⟩, ⟨(), .write, true, some ()⟩])).2 := by
  have starts : Reachable Starts (step 64) Allowed bothFilters :=
    .start ⟨fun _ => ⟨rfl, rfl, rfl⟩, fun _ => rfl⟩
  have alone : ∀ k : Answers, k.reverts = true → Allowed bothFilters (.add () () k) := by
    intro k reverts
    refine ⟨reverts, fun other there => ?_⟩
    contradiction
  have refused : (add 64 bothFilters () () ⟨[true, false], true⟩).2 = .inval := by decide
  have unchanged : (add 64 bothFilters () () ⟨[true, false], true⟩).1 = bothFilters :=
    (kqueueHistories starts).2.1 () () _ (alone _ rfl) (by simp [refused])
  have added := Reachable.next (a := Call.add () () ⟨[true, true], true⟩) starts (alone _ rfl) rfl
  refine ⟨unchanged, _, (kqueueHistories added).1, rfl, by decide, ?_⟩
  refine ((kqueueHistories added).2.2.2 () 8 _ (by decide) ⟨by decide, by decide, ?_⟩).2
  intro e member
  rcases List.mem_cons.mp member with rfl | member
  · exact ⟨⟨(), true⟩, rfl, rfl⟩
  · obtain rfl := List.mem_singleton.mp member
    exact ⟨⟨(), true⟩, rfl, rfl⟩

end Nanosig.Platform.Macos
