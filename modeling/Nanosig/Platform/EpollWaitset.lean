import Nanosig.Platform.WaitsetWaits

/-! The waitset of the Linux backend: an epoll instance with a timerfd in it, whose timer bounds a wait. Each waitset is
used by one thread; the descriptors get ready, and the timers expire, between any two system calls of these threads. -/
namespace Nanosig.Platform.Linux
open TransitionSystem Registry

def epollIn : BitVec 32 := 1
def epollOut : BitVec 32 := 4
def epollErr : BitVec 32 := 8
def epollHup : BitVec 32 := 16

/- `ns_waitset_to_epoll_events` -/
def toEpollEvents (events : BitVec 32) : BitVec 32 :=
  (if events &&& waitableEventIn ≠ 0 then epollIn else 0) ||| (if events &&& waitableEventOut ≠ 0 then epollOut else 0) |||
    if events &&& waitableEventErr ≠ 0 then epollErr else 0

/- `ns_waitset_from_epoll_events`; a hangup is reported as IN. -/
def fromEpollEvents (ep : BitVec 32) : BitVec 32 :=
  (if ep &&& epollIn ≠ 0 then waitableEventIn else 0) ||| (if ep &&& epollOut ≠ 0 then waitableEventOut else 0) |||
    (if ep &&& epollErr ≠ 0 then waitableEventErr else 0) ||| if ep &&& epollHup ≠ 0 then waitableEventIn else 0

/- What `epoll_ctl` is given: `data.ptr`, the events, and whether EPOLLET is among them. -/
structure Entry (β : Type) where
  waitable : β
  events : BitVec 32
  edgeTriggered : Bool
  deriving DecidableEq

/- An item of the interest list, and whether it is in the ready list. For the proofs it counts the times it was made
ready, and how many of them the completions so far tell of. -/
structure Item (β : Type) where
  entry : Entry β
  ready : Bool
  edges : Nat
  reported : Nat

/- What the kernel watches: errors and hangups always. -/
def Item.watched {β : Type} (i : Item β) : BitVec 32 := i.entry.events ||| epollErr ||| epollHup

def Item.arrive {β : Type} (mask : BitVec 32) (i : Item β) : Item β :=
  if mask &&& i.watched ≠ 0 then { i with ready := true, edges := i.edges + 1 } else i

def Item.forget {β : Type} (i : Item β) : Item β := { i with ready := false }

/- `epoll_wait` returns the item: only a level-triggered one stays in the ready list. -/
def Item.take {β : Type} (i : Item β) : Item β := if i.entry.edgeTriggered then i.forget else i

inductive Timer where
  | disarmed
  | armed
  | expired
  deriving DecidableEq

/- A `struct epoll_event` that `epoll_wait` has stored. `ptr` is none for NS_WAITSET_TIMER_SENTINEL; `key` is the
descriptor it is about and `edges` the count of its item, for the proofs. -/
structure Stored (β : Type) where
  ptr : Option β
  events : BitVec 32
  key : Option Int
  edges : Nat

structure Wait where
  timeoutUs : Nat
  maxCompletions : Nat
  timerArmed : Bool
  timeoutMs : Int

inductive Returned (β : Type) where
  | interrupted
  | failed
  | events (stored : List (Stored β))

/- A thread in `ns_platform_waitset_wait`: inside `epoll_wait`, or behind it. -/
inductive WaitPc (β : Type) where
  | idle
  | inside (wait : Wait)
  | behind (wait : Wait) (returned : Returned β)

/- The events that `epoll_wait` has stored and the call has not looked at. -/
def WaitPc.inHand {β : Type} : WaitPc β → List (Stored β)
  | .behind _ (.events stored) => stored
  | _ => []

/- `ns_platform_waitset_t` with the objects behind its descriptors. `listed` are the registered waitables and `leftArmed`
tells that the timer was last left without being disarmed, both for the proofs. -/
structure EpollWaitset (β : Type) where
  count : Nat
  timerFd : Int
  interest : Int → Option (Item β)
  timer : Timer
  pc : WaitPc β
  listed : List β
  leftArmed : Bool

/- `ns_platform_waitable_t` -/
structure Waitable (ω : Type) where
  primitive : Int
  events : BitVec 32
  edgeTriggered : Bool
  registeredWaitset : Option ω

/- All waitsets and waitables; `level` are the conditions that hold of each descriptor. -/
structure State (ω β : Type) where
  waitsets : ω → EpollWaitset β
  waitables : β → Waitable ω
  level : Int → BitVec 32

/- What a wait returns, and for the proofs how it came about: whether `epoll_wait` was interrupted, and whether the timer
was among what it stored. -/
structure Report (β : Type) where
  wait : Wait
  interrupted : Bool
  timerFired : Bool
  status : Status
  completions : List (Completion β)

section Calls

variable {ω β : Type} [DecidableEq ω] [DecidableEq β]

def State.setWaitset (s : State ω β) (w : ω) (t : EpollWaitset β) : State ω β :=
  { s with waitsets := Function.update s.waitsets w t }

def State.link (s : State ω β) (w : ω) (t : EpollWaitset β) (b : β) (registered : Option ω) : State ω β :=
  { s.setWaitset w t with
    waitables := Function.update s.waitables b { s.waitables b with registeredWaitset := registered } }

def State.prepare (s : State ω β) (b : β) (waitable : Waitable ω) : State ω β :=
  { s with waitables := Function.update s.waitables b waitable }

def State.registered (s : State ω β) (b : β) : Option ω := (s.waitables b).registeredWaitset

def EpollWaitset.mapItems (t : EpollWaitset β) (f : Int → Item β → Item β) : EpollWaitset β :=
  { t with interest := fun fd => (t.interest fd).map (f fd) }

def newItem (entry : Entry β) (level : BitVec 32) : Item β :=
  (⟨entry, false, 0, 0⟩ : Item β).arrive level

def waitableEntry (b : β) (waitable : Waitable ω) : Entry β :=
  ⟨b, toEpollEvents waitable.events, waitable.edgeTriggered⟩

def maxEntries : Nat := 64

/- `ns_platform_waitset_add`; `refuses` is a failure of `epoll_ctl` other than EEXIST. -/
def add (s : State ω β) (w : ω) (b : β) (refuses : Bool) : State ω β × Status :=
  let waitable := s.waitables b
  let t := s.waitsets w
  let fd := waitable.primitive
  if fd < 0 then (s, .inval)
  else if waitable.registeredWaitset ≠ none then (s, .exists)
  else if t.count ≥ maxEntries then (s, .tooManyHandles)
  else if fd = t.timerFd ∨ (t.interest fd).isSome then (s, .exists)
  else if refuses then (s, .inval)
  else
    (s.link w { t with
      count := t.count + 1
      interest := Function.update t.interest fd (some (newItem (waitableEntry b waitable) (s.level fd)))
      listed := b :: t.listed } b (some w), .ok)

/- `ns_platform_waitset_remove` -/
def remove (s : State ω β) (w : ω) (b : β) (refuses : Bool) : State ω β × Status :=
  let waitable := s.waitables b
  let t := s.waitsets w
  let fd := waitable.primitive
  if fd < 0 then (s, .inval)
  else if waitable.registeredWaitset ≠ some w then (s, .inval)
  else if refuses ∨ (t.interest fd).isNone then (s, .inval)
  else
    (s.link w { t with
      count := t.count - 1
      interest := Function.update t.interest fd none
      listed := t.listed.erase b } b none, .ok)

/- `NS_PLATFORM_WAIT_EMPTY_MAX_US` has its default. -/
def emptyMaxUs : Nat := 1000000

/- The entry of `ns_platform_waitset_wait` up to `epoll_wait`; `settime` is the success of `timerfd_settime`. -/
def waitBegins (t : EpollWaitset β) (timeoutUs maxCompletions : Nat) (settime : Bool) :
    EpollWaitset β × Option (Report β) :=
  let wait := { timeoutUs, maxCompletions, timerArmed := false, timeoutMs := -1 }
  if maxCompletions = 0 then (t, some ⟨wait, false, false, .ok, []⟩)
  else
    let bounded := cappedTimeout emptyMaxUs t.count timeoutUs
    if bounded ≠ 0 ∧ bounded ≠ waitInfiniteUs then
      if ¬settime then (t, some ⟨wait, false, false, .inval, []⟩)
      else ({ t with timer := .armed, pc := .inside { wait with timerArmed := true } }, none)
    else if bounded = 0 then ({ t with pc := .inside { wait with timeoutMs := 0 } }, none)
    else ({ t with pc := .inside wait }, none)

/- What `epoll_wait` stores for the timer (none) or a descriptor that is ready. -/
def EpollWaitset.offer (t : EpollWaitset β) (level : Int → BitVec 32) : Option Int → Option (Stored β)
  | none => if t.timer = .expired then some ⟨none, epollIn, none, 0⟩ else none
  | some fd =>
      (t.interest fd).bind fun i =>
        if i.ready ∧ level fd &&& i.watched ≠ 0 then some ⟨some i.entry.waitable, level fd &&& i.watched, some fd, i.edges⟩
        else none

/- How `epoll_wait` ends: it is interrupted, it fails, or it stores what it has chosen from the ready list. -/
inductive Ends where
  | interrupted
  | failed
  | chooses (keys : List (Option Int))

def maxEvents (wait : Wait) : Nat := if wait.maxCompletions > maxEntries then maxEntries else wait.maxCompletions

/- `epoll_wait` returns. It stores nothing only where it does not block. -/
def waitReturns (t : EpollWaitset β) (level : Int → BitVec 32) (ends : Ends) : Option (EpollWaitset β) :=
  match t.pc with
  | .inside wait =>
      match ends with
      | .interrupted => some { t with pc := .behind wait .interrupted }
      | .failed => some { t with pc := .behind wait .failed }
      | .chooses keys =>
          if keys.Nodup ∧ keys.length ≤ maxEvents wait ∧ (∀ k ∈ keys, (t.offer level k).isSome) ∧
              (keys = [] → wait.timeoutMs = 0) then
            let stored := keys.filterMap (t.offer level)
            some ({ t with pc := .behind wait (.events stored) }.mapItems fun fd i => if some fd ∈ keys then i.take else i)
          else none
  | _ => none

def collect (maxCompletions : Nat) : List (Stored β) → List (Completion β) → List (Completion β)
  | [], out => out
  | e :: rest, out =>
      if out.length < maxCompletions then
        match e.ptr with
        | none => collect maxCompletions rest out
        | some b => collect maxCompletions rest (out ++ [⟨b, fromEpollEvents e.events⟩])
      else out

/- The completions tell of the edges up to those that their events were stored with. -/
def Item.reportedBy (stored : List (Stored β)) (out : List (Completion β)) (fd : Int) (i : Item β) : Item β :=
  if out.any (·.waitable = i.entry.waitable) then
    { i with reported := ((stored.find? (·.key = some fd)).map (·.edges)).getD i.reported }
  else i

/- The timer when the call is over: one that cannot be disarmed is read, which only clears what has expired. -/
def timerAfter (wait : Wait) (timer : Timer) (disarmed : Bool) : Timer :=
  if wait.timerArmed ∧ (disarmed ∨ timer = .expired) then .disarmed else timer

/- From behind `epoll_wait` to the return; `disarmed` is the success of `timerfd_settime`. -/
def waitFinishes (t : EpollWaitset β) (disarmed : Bool) : Option (EpollWaitset β × Report β) :=
  match t.pc with
  | .behind wait returned =>
      let t := { t with
        timer := timerAfter wait t.timer disarmed
        leftArmed := if wait.timerArmed then !disarmed else t.leftArmed
        pc := .idle }
      match returned with
      | .interrupted => some (t, ⟨wait, true, false, .ok, []⟩)
      | .failed => some (t, ⟨wait, false, false, .inval, []⟩)
      | .events stored =>
          let out := collect wait.maxCompletions stored []
          some (t.mapItems (Item.reportedBy stored out), ⟨wait, false, stored.any (·.key = none), .ok, out⟩)
  | _ => none

/- A step of a thread, of the program that fills in a waitable, or of the kernel: conditions of a descriptor arise or
cease, an item none of whose conditions holds leaves the ready list, a timer expires. -/
inductive Action (ω β : Type) where
  | add (w : ω) (b : β) (refuses : Bool)
  | remove (w : ω) (b : β) (refuses : Bool)
  | prepare (b : β) (primitive : Int) (events : BitVec 32) (edgeTriggered : Bool)
  | waitBegins (w : ω) (timeoutUs maxCompletions : Nat) (settime : Bool)
  | waitReturns (w : ω) (ends : Ends)
  | waitFinishes (w : ω) (disarmed : Bool)
  | arises (fd : Int) (mask : BitVec 32)
  | ceases (fd : Int) (mask : BitVec 32)
  | forgets (w : ω) (fd : Int)
  | expires (w : ω)

inductive Event (ω β : Type) where
  | silent
  | called (status : Status)
  | waited (w : ω) (report : Report β)

def EpollWaitset.forget (t : EpollWaitset β) (level : Int → BitVec 32) (fd : Int) : EpollWaitset β :=
  t.mapItems fun x i => if x = fd ∧ level fd &&& i.watched = 0 then i.forget else i

def State.arise (s : State ω β) (fd : Int) (mask : BitVec 32) : State ω β :=
  { s with
    waitsets := fun w => (s.waitsets w).mapItems fun x i => if x = fd then i.arrive mask else i
    level := Function.update s.level fd (s.level fd ||| mask) }

def step (s : State ω β) : Action ω β → Option (State ω β × Event ω β)
  | .add w b refuses => let (s, status) := add s w b refuses; some (s, .called status)
  | .remove w b refuses => let (s, status) := remove s w b refuses; some (s, .called status)
  | .prepare b primitive events edgeTriggered =>
      let waitable := { s.waitables b with primitive := primitive, events := events, edgeTriggered := edgeTriggered }
      some (s.prepare b waitable, .silent)
  | .waitBegins w timeoutUs maxCompletions settime =>
      let (t, report) := waitBegins (s.waitsets w) timeoutUs maxCompletions settime
      some (s.setWaitset w t, (report.map (Event.waited w)).getD .silent)
  | .waitReturns w ends => (waitReturns (s.waitsets w) s.level ends).map fun t => (s.setWaitset w t, .silent)
  | .waitFinishes w disarmed =>
      (waitFinishes (s.waitsets w) disarmed).map fun (t, report) => (s.setWaitset w t, .waited w report)
  | .arises fd mask => some (s.arise fd mask, .silent)
  | .ceases fd mask => some ({ s with level := Function.update s.level fd (s.level fd &&& mask) }, .silent)
  | .forgets w fd => some (s.setWaitset w ((s.waitsets w).forget s.level fd), .silent)
  | .expires w =>
      let t := s.waitsets w
      if t.timer = .armed then some (s.setWaitset w { t with timer := .expired }, .silent) else none

def WaitPc.isIdle : WaitPc β → Bool
  | .idle => true
  | _ => false

/- The thread of a waitset does one thing at a time, and registered waitables are left alone. -/
def Allowed (s : State ω β) : Action ω β → Prop
  | .add w _ _ | .remove w _ _ | .waitBegins w _ _ _ => (s.waitsets w).pc.isIdle = true
  | .prepare b _ _ _ => s.registered b = none
  | _ => True

/- `ns_platform_waitset_init` for every waitset. -/
structure Starts (s : State ω β) : Prop where
  new : ∀ w, (s.waitsets w).count = 0 ∧ (s.waitsets w).interest = (fun _ => none) ∧ (s.waitsets w).timer = .disarmed ∧
    (s.waitsets w).pc = .idle ∧ (s.waitsets w).listed = [] ∧ (s.waitsets w).leftArmed = false
  free : ∀ b, s.registered b = none

end Calls

section Masks

theorem andSame {x y z : BitVec 32} (within : x &&& y = x) (apart : y &&& z = 0) : x &&& z = 0 := by
  rw [← within, BitVec.and_assoc, apart]
  exact BitVec.and_zero

theorem toEpollParts (events : BitVec 32) :
    (toEpollEvents events ||| epollErr ||| epollHup) &&& (epollIn ||| epollOut ||| epollErr ||| epollHup) =
      toEpollEvents events ||| epollErr ||| epollHup := by
  unfold toEpollEvents
  split_ifs <;> decide

theorem fromEpollSome {ep events : BitVec 32} (within : ep &&& (toEpollEvents events ||| epollErr ||| epollHup) = ep)
    (some_ : ep ≠ 0) : fromEpollEvents ep ≠ 0 := by
  have parts : ep &&& (epollIn ||| epollOut ||| epollErr ||| epollHup) = ep := by
    rw [← within, BitVec.and_assoc, toEpollParts]
  unfold fromEpollEvents
  by_cases a : ep &&& epollIn = 0 <;> by_cases b : ep &&& epollOut = 0 <;> by_cases c : ep &&& epollErr = 0 <;>
    by_cases d : ep &&& epollHup = 0 <;>
    simp only [a, b, c, d, ne_eq, not_true_eq_false, not_false_eq_true, if_true, if_false]
  · -- None of the four bits is set.
    refine absurd ?_ some_
    rw [← parts, BitVec.and_or_distrib_left, BitVec.and_or_distrib_left, BitVec.and_or_distrib_left, a, b, c, d]
    rfl
  all_goals decide

theorem fromEpollOut {ep events : BitVec 32} (within : ep &&& (toEpollEvents events ||| epollErr ||| epollHup) = ep)
    (out : fromEpollEvents ep &&& waitableEventOut ≠ 0) : events &&& waitableEventOut ≠ 0 := by
  intro unasked
  have apart : (toEpollEvents events ||| epollErr ||| epollHup) &&& epollOut = 0 := by
    unfold toEpollEvents
    simp only [unasked, ne_eq, not_true_eq_false, if_false]
    split_ifs <;> decide
  have unset := andSame within apart
  refine out ?_
  unfold fromEpollEvents
  simp only [unset, ne_eq, not_true_eq_false, if_false]
  split_ifs <;> decide

end Masks

section Bookkeeping

variable {ω β : Type} [DecidableEq ω] [DecidableEq β] {s s' : State ω β} {t t' : EpollWaitset β} {w : ω} {b : β}

def EpollWaitset.entry (t : EpollWaitset β) (fd : Int) : Option (Entry β) := (t.interest fd).map (·.entry)

def Describes (s : State ω β) (w : ω) (fd : Int) (e : Entry β) : Prop :=
  s.registered e.waitable = some w ∧ (s.waitables e.waitable).primitive = fd ∧
    e = waitableEntry e.waitable (s.waitables e.waitable)

structure Kept (s : State ω β) : Prop where
  agrees : Agrees (fun w => (s.waitsets w).listed) s.registered
  counted : ∀ w, (s.waitsets w).count = (s.waitsets w).listed.length
  few : ∀ w, (s.waitsets w).count ≤ maxEntries
  described : ∀ w fd e, (s.waitsets w).entry fd = some e ↔ Describes s w fd e

structure SameEntries (t t' : EpollWaitset β) : Prop where
  count : t'.count = t.count
  listed : t'.listed = t.listed
  entry : ∀ fd, t'.entry fd = t.entry fd

omit [DecidableEq β] in
theorem mapItemsSame {f : Int → Item β → Item β} (keeps : ∀ fd i, (f fd i).entry = i.entry) :
    SameEntries t (t.mapItems f) := by
  refine ⟨rfl, rfl, fun fd => ?_⟩
  unfold EpollWaitset.entry EpollWaitset.mapItems
  cases found : t.interest fd with
  | none => simp [found]
  | some i => simp [found, keeps]

omit [DecidableEq ω] [DecidableEq β] in
theorem Kept.same (kept : Kept s) (waitables : s'.waitables = s.waitables)
    (same : ∀ w, SameEntries (s.waitsets w) (s'.waitsets w)) : Kept s' := by
  have registered : s'.registered = s.registered := by
    funext x
    rw [State.registered, State.registered, waitables]
  have listed : (fun w => (s'.waitsets w).listed) = fun w => (s.waitsets w).listed := funext fun w => (same w).listed
  refine ⟨by rw [listed, registered]; exact kept.agrees, fun w => ?_, fun w => ?_, fun w fd e => ?_⟩
  · rw [(same w).count, (same w).listed, kept.counted]
  · rw [(same w).count]
    exact kept.few w
  · rw [(same w).entry, kept.described, Describes, Describes, registered, waitables]

omit [DecidableEq β] in
theorem Kept.setWaitset (kept : Kept s) (same : SameEntries (s.waitsets w) t) : Kept (s.setWaitset w t) := by
  refine kept.same rfl fun v => ?_
  by_cases here : v = w
  · subst here
    simpa [State.setWaitset] using same
  · simp only [State.setWaitset, Function.update_of_ne here]
    exact ⟨rfl, rfl, fun _ => rfl⟩

@[simp] theorem registeredLink (s : State ω β) (w : ω) (t : EpollWaitset β) (b : β) (r : Option ω) :
    (s.link w t b r).registered = Function.update s.registered b r := by
  funext x
  by_cases same : x = b
  · subst same
    simp [State.registered, State.link]
  · simp [State.registered, State.link, same]

theorem fieldsLink (s : State ω β) (w : ω) (t : EpollWaitset β) (b : β) (r : Option ω) (x : β) :
    ((s.link w t b r).waitables x).primitive = (s.waitables x).primitive ∧
      waitableEntry x ((s.link w t b r).waitables x) = waitableEntry x (s.waitables x) := by
  by_cases same : x = b
  · subst same
    simp [State.link, waitableEntry]
  · simp [State.link, same]

theorem Kept.link (kept : Kept s) {r : Option ω} {fd : Int} (primitive : (s.waitables b).primitive = fd)
    (before : s.registered b = none ∨ s.registered b = some w) (after : r = none ∨ r = some w)
    (alone : ∀ other, other ≠ b → s.registered other = some w → (s.waitables other).primitive ≠ fd)
    (agrees : Agrees (fun v => (Function.update s.waitsets w t v).listed) (Function.update s.registered b r))
    (counted : t.count = t.listed.length) (few : t.count ≤ maxEntries)
    (made : t.entry fd = if r = some w then some (waitableEntry b (s.waitables b)) else none)
    (others : ∀ fd', fd' ≠ fd → t.entry fd' = (s.waitsets w).entry fd') : Kept (s.link w t b r) := by
  have waitsets : (s.link w t b r).waitsets = Function.update s.waitsets w t := rfl
  refine ⟨by rw [waitsets, registeredLink]; exact agrees, fun v => ?_, fun v => ?_, fun v fd' e => ?_⟩
  · by_cases here : v = w
    · subst here
      simpa [waitsets] using counted
    · simpa [waitsets, here] using kept.counted v
  · by_cases here : v = w
    · subst here
      simpa [waitsets] using few
    · simpa [waitsets, here] using kept.few v
  · obtain ⟨samePrimitive, sameEntry⟩ := fieldsLink s w t b r e.waitable
    rw [waitsets, Describes, registeredLink, samePrimitive, sameEntry]
    have described := kept.described v fd' e
    rw [Describes] at described
    by_cases here : v = w
    · subst here
      rw [Function.update_self]
      by_cases mine : e.waitable = b
      · rw [mine, Function.update_self]
        by_cases same : fd' = fd
        · subst same
          rw [made]
          split
          · rename_i there
            exact ⟨fun eq => ⟨there, primitive, (Option.some.inj eq).symm⟩, fun ⟨_, _, eq⟩ => congrArg some eq.symm⟩
          · rename_i away
            exact ⟨fun eq => by contradiction, fun ⟨there, _⟩ => absurd there away⟩
        · rw [others fd' same, described, mine]
          constructor
          · rintro ⟨-, eq, -⟩
            exact absurd (eq.symm.trans primitive) same
          · rintro ⟨-, eq, -⟩
            exact absurd (eq.symm.trans primitive) same
      · rw [Function.update_of_ne mine]
        by_cases same : fd' = fd
        · subst same
          rw [made]
          constructor
          · intro eq
            split at eq
            · cases eq
              exact absurd rfl mine
            · contradiction
          · rintro ⟨registered, eq, -⟩
            exact absurd eq (alone _ mine registered)
        · rw [others fd' same, described]
    · rw [Function.update_of_ne here, described, backElsewhere before after here]

omit [DecidableEq ω] [DecidableEq β] in
theorem Kept.entryOf (kept : Kept s) (registered : s.registered b = some w) :
    ∃ i, (s.waitsets w).interest (s.waitables b).primitive = some i ∧ i.entry = waitableEntry b (s.waitables b) := by
  have there := (kept.described w _ (waitableEntry b (s.waitables b))).mpr ⟨registered, rfl, rfl⟩
  exact Option.map_eq_some_iff.mp there

omit [DecidableEq ω] [DecidableEq β] in
theorem Kept.ownerOf (kept : Kept s) {fd : Int} {i : Item β} (found : (s.waitsets w).interest fd = some i) :
    Describes s w fd i.entry :=
  (kept.described w fd i.entry).mp (by rw [EpollWaitset.entry, found]; rfl)

omit [DecidableEq β] in
theorem newItemEntry (entry : Entry β) (level : BitVec 32) : (newItem entry level).entry = entry := by
  unfold newItem Item.arrive
  split <;> rfl

theorem addOutcome (s : State ω β) (w : ω) (b : β) (refuses : Bool) :
    ((add s w b refuses).2 ≠ .ok ∧ (add s w b refuses).1 = s) ∨
      ((add s w b refuses).2 = .ok ∧ ∃ t, (add s w b refuses).1 = s.link w t b (some w) ∧ t.pc = (s.waitsets w).pc) := by
  unfold add
  dsimp only
  split_ifs
  · exact .inl ⟨by simp, rfl⟩
  · exact .inl ⟨by simp, rfl⟩
  · exact .inl ⟨by simp, rfl⟩
  · exact .inl ⟨by simp, rfl⟩
  · exact .inl ⟨by simp, rfl⟩
  · exact .inr ⟨rfl, _, rfl, rfl⟩

theorem removeOutcome (s : State ω β) (w : ω) (b : β) (refuses : Bool) :
    ((remove s w b refuses).2 ≠ .ok ∧ (remove s w b refuses).1 = s) ∨
      ((remove s w b refuses).2 = .ok ∧ ∃ t, (remove s w b refuses).1 = s.link w t b none ∧ t.pc = (s.waitsets w).pc) := by
  unfold remove
  dsimp only
  split_ifs
  · exact .inl ⟨by simp, rfl⟩
  · exact .inl ⟨by simp, rfl⟩
  · exact .inl ⟨by simp, rfl⟩
  · exact .inr ⟨rfl, _, rfl, rfl⟩

theorem addKept (kept : Kept s) (w : ω) (b : β) (refuses : Bool) : Kept (add s w b refuses).1 := by
  unfold add
  dsimp only
  split_ifs with negative registered full taken refused
  · exact kept
  · exact kept
  · exact kept
  · exact kept
  · exact kept
  · have free : s.registered b = none := not_not.mp registered
    obtain ⟨-, vacant⟩ := not_or.mp taken
    have vacant : (s.waitsets w).interest (s.waitables b).primitive = none := Option.not_isSome_iff_eq_none.mp vacant
    refine kept.link rfl (.inl free) (.inr rfl) (fun other _ there same => ?_) ?_ ?_ (Nat.lt_of_not_le full) ?_ fun fd other => ?_
    · obtain ⟨i, found, -⟩ := kept.entryOf there
      rw [same, vacant] at found
      contradiction
    · refine kept.agrees.register free (w := w) (by simp) fun v other => ?_
      simp [other]
    · simp [kept.counted w]
    · simp [EpollWaitset.entry, newItemEntry]
    · simp [EpollWaitset.entry, other]

theorem removeKept (kept : Kept s) (w : ω) (b : β) (refuses : Bool) : Kept (remove s w b refuses).1 := by
  unfold remove
  dsimp only
  split_ifs with negative registered refused
  · exact kept
  · exact kept
  · exact kept
  · have there : s.registered b = some w := not_not.mp registered
    have member : b ∈ (s.waitsets w).listed := (kept.agrees.listed w b).mpr there
    have fewer : ((s.waitsets w).listed.erase b).length = (s.waitsets w).listed.length - 1 := List.length_erase_of_mem member
    refine kept.link rfl (.inr there) (.inl rfl) (fun other different elsewhere same => ?_) ?_ ?_ ?_ ?_ fun fd other => ?_
    · obtain ⟨i, found, mine⟩ := kept.entryOf there
      obtain ⟨j, found', theirs⟩ := kept.entryOf elsewhere
      rw [same, found] at found'
      cases found'
      exact different (congrArg Entry.waitable (theirs.symm.trans mine))
    · refine kept.agrees.unregister (w := w) (by simpa using List.perm_cons_erase member) fun v other => ?_
      simp [other]
    · simp only [kept.counted w, fewer]
    · exact (Nat.sub_le _ _).trans (kept.few w)
    · simp [EpollWaitset.entry]
    · simp [EpollWaitset.entry, other]

end Bookkeeping

end Nanosig.Platform.Linux
