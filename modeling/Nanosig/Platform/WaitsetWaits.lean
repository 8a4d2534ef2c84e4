import Nanosig.Platform.Timeouts
import Nanosig.Platform.WaitsetHistories

/-! `ns_platform_waitset_wait` of the two backends that consume readiness while they
collect completions: what a call takes from the system, it reports. -/
namespace Nanosig.Platform
open TransitionSystem Registry

variable {ω β η : Type} [DecidableEq ω] [DecidableEq β] [DecidableEq η]

structure Completion (β : Type) where
  waitable : β
  triggeredEvents : BitVec 32

def completionIn {β : Type} (b : β) : Completion β := { waitable := b, triggeredEvents := waitableEventIn }

/-! FreeRTOS: one token after the other is taken from the queue set. -/
namespace Freertos

/- `ns_freertos_completion_contains`. -/
def completionContains (completions : List (Completion β)) (waitable : β) : Bool :=
  completions.any fun completion => completion.waitable = waitable

/- The loop. `arrivals` are the tokens that reach the queue set before each of its turns;
the first turn blocks, so that its arrivals are those of the whole wait. The result holds
the completions and what is left in the queue set. -/
def waitLoop (primitive : β → Handle η) (slots : List (Option β)) (maxCompletions : Nat) :
    Nat → List (List (Handle η)) → List (Handle η) → List (Completion β) → Option (List (Completion β) × List (Handle η))
  | 0, _, _, _ => none
  | fuel + 1, arrivals, set, completions =>
      match set ++ arrivals.headD [] with
      | [] => some (completions, [])
      | member :: set =>
          match findActiveMember primitive slots member with
          | none => waitLoop primitive slots maxCompletions fuel arrivals.tail set completions
          | some wp =>
              let completions := if completionContains completions wp then completions else completions ++ [completionIn wp]
              if completions.length ≥ maxCompletions then some (completions, set)
              else waitLoop primitive slots maxCompletions fuel arrivals.tail set completions

def wait (s : Memory ω β η (FreertosWaitset β η)) (w : ω) (maxCompletions : Nat) (arrivals : List (List (Handle η))) :
    Option (Status × List (Completion β) × List (Handle η)) :=
  let waitset := s.waitsets w
  if maxCompletions = 0 then some (.ok, [], waitset.set)
  else
    (waitLoop s.primitive waitset.slots maxCompletions (waitset.set.length + arrivals.flatten.length + 1) arrivals
      waitset.set []).map fun (completions, set) => (.ok, completions, set)

structure Collected (primitive : β → Handle η) (slots : List (Option β)) (maxCompletions : Nat) (consumed : List (Handle η))
    (completions : List (Completion β)) : Prop where
  few : completions.length ≤ maxCompletions
  listed : ∀ completion ∈ completions, completion.waitable ∈ slots.reduceOption ∧ completion.triggeredEvents = waitableEventIn
  distinct : (completions.map Completion.waitable).Nodup
  owned : ∀ member ∈ consumed, ∀ wp, findActiveMember primitive slots member = some wp →
    wp ∈ completions.map Completion.waitable

variable {primitive : β → Handle η} {slots : List (Option β)}

omit [DecidableEq β] in
theorem findActiveSpec {member : Handle η} {wp : β} (found : findActiveMember primitive slots member = some wp) :
    wp ∈ slots.reduceOption ∧ primitive wp = member := by
  obtain ⟨slot, inside, kept⟩ := List.exists_of_findSome?_eq_some found
  obtain ⟨rfl, same⟩ := Option.filter_eq_some_iff.mp kept
  exact ⟨List.reduceOption_mem_iff.mpr inside, by simpa using same⟩

omit [DecidableEq β] in
theorem findActiveFound {member : Handle η} {b : β} (listed : b ∈ slots.reduceOption) (same : primitive b = member) :
    ∃ wp, findActiveMember primitive slots member = some wp := by
  refine Option.isSome_iff_exists.mp ?_
  rw [findActiveMember, List.findSome?_isSome_iff]
  exact ⟨some b, List.reduceOption_mem_iff.mp listed, by simp [same]⟩

omit [DecidableEq η] in
theorem containsIff {completions : List (Completion β)} {wp : β} :
    completionContains completions wp = true ↔ wp ∈ completions.map Completion.waitable := by
  simp [completionContains]

omit [DecidableEq β] in
theorem Collected.stale {maxCompletions : Nat} {consumed : List (Handle η)} {completions : List (Completion β)}
    (collected : Collected primitive slots maxCompletions consumed completions) {member : Handle η}
    (missing : findActiveMember primitive slots member = none) :
    Collected primitive slots maxCompletions (consumed ++ [member]) completions := by
  refine ⟨collected.few, collected.listed, collected.distinct, fun x inside wp found => ?_⟩
  rcases List.mem_append.mp inside with earlier | last
  · exact collected.owned x earlier wp found
  · rw [List.mem_singleton.mp last, missing] at found
    cases found

theorem Collected.report {maxCompletions : Nat} {consumed : List (Handle η)} {completions : List (Completion β)}
    (collected : Collected primitive slots maxCompletions consumed completions) (room : completions.length < maxCompletions)
    {member : Handle η} {wp : β} (found : findActiveMember primitive slots member = some wp) :
    Collected primitive slots maxCompletions (consumed ++ [member])
      (if completionContains completions wp then completions else completions ++ [completionIn wp]) := by
  have owned : ∀ completions' : List (Completion β), (∀ b ∈ completions.map Completion.waitable, b ∈ completions'.map Completion.waitable) →
      wp ∈ completions'.map Completion.waitable → ∀ x ∈ consumed ++ [member], ∀ wp',
        findActiveMember primitive slots x = some wp' → wp' ∈ completions'.map Completion.waitable := by
    intro completions' more reported x inside wp' found'
    rcases List.mem_append.mp inside with earlier | last
    · exact more wp' (collected.owned x earlier wp' found')
    · rw [List.mem_singleton.mp last, found] at found'
      cases found'
      exact reported
  by_cases merged : completionContains completions wp = true
  · rw [if_pos merged]
    exact ⟨collected.few, collected.listed, collected.distinct, owned _ (fun _ inside => inside) (containsIff.mp merged)⟩
  · rw [if_neg merged]
    have fresh : wp ∉ completions.map Completion.waitable := fun inside => merged (containsIff.mpr inside)
    refine ⟨by rw [List.length_append]; exact room, fun completion inside => ?_, ?_, owned _ (fun _ inside => by simp [inside]) (by simp [completionIn])⟩
    · rcases List.mem_append.mp inside with earlier | last
      · exact collected.listed completion earlier
      · rw [List.mem_singleton.mp last]
        exact ⟨(findActiveSpec found).1, rfl⟩
    · rw [List.map_append, List.map_singleton]
      exact List.nodup_append.mpr ⟨collected.distinct, by simp, by
        intro a inA b inB same
        rw [List.mem_singleton.mp inB] at same
        rw [same] at inA
        exact fresh inA⟩

theorem waitLoopSpec {maxCompletions fuel : Nat} {arrivals : List (List (Handle η))} {set consumed : List (Handle η)}
    {completions : List (Completion β)} (collected : Collected primitive slots maxCompletions consumed completions)
    (room : completions.length < maxCompletions) (enough : set.length + arrivals.flatten.length < fuel) :
    ∃ completions' left taken rounds, waitLoop primitive slots maxCompletions fuel arrivals set completions = some (completions', left) ∧
      Collected primitive slots maxCompletions (consumed ++ taken) completions' ∧
      set ++ (arrivals.take rounds).flatten = taken ++ left := by
  induction fuel generalizing arrivals set consumed completions with
  | zero => omega
  | succ fuel ih =>
    rw [waitLoop]
    have arrived : (arrivals.take 1).flatten = arrivals.headD [] := by cases arrivals <;> simp
    have later : ∀ n, (arrivals.take (n + 1)).flatten = arrivals.headD [] ++ (arrivals.tail.take n).flatten := by
      intro n
      cases arrivals <;> simp
    have total : arrivals.flatten.length = (arrivals.headD []).length + arrivals.tail.flatten.length := by
      cases arrivals <;> simp
    cases queue : set ++ arrivals.headD [] with
    | nil => exact ⟨completions, [], [], 1, rfl, by simpa using collected, by rw [arrived]; exact queue⟩
    | cons member rest =>
      have lengths := congrArg List.length queue
      rw [List.length_append, List.length_cons] at lengths
      -- the rest of the walk sees what is behind this token
      have continue_ : ∀ {completions'}, Collected primitive slots maxCompletions (consumed ++ [member]) completions' →
          completions'.length < maxCompletions →
          ∃ completions'' left taken rounds,
            waitLoop primitive slots maxCompletions fuel arrivals.tail rest completions' = some (completions'', left) ∧
            Collected primitive slots maxCompletions (consumed ++ taken) completions'' ∧
            set ++ (arrivals.take rounds).flatten = taken ++ left := by
        intro completions' collected' room'
        have shorter : rest.length + arrivals.tail.flatten.length < fuel := by omega
        obtain ⟨completions'', left, taken, rounds, looped, collected'', seen⟩ := ih collected' room' shorter
        refine ⟨completions'', left, member :: taken, rounds + 1, looped, by simpa using collected'', ?_⟩
        rw [later, ← List.append_assoc, queue, List.cons_append, seen, List.cons_append]
      dsimp only
      cases found : findActiveMember primitive slots member with
      | none => exact continue_ (collected.stale found) room
      | some wp =>
        have reported := collected.report room found
        dsimp only
        by_cases full : (if completionContains completions wp then completions
            else completions ++ [completionIn wp]).length ≥ maxCompletions
        · rw [if_pos full]
          exact ⟨_, rest, [member], 1, rfl, reported, by rw [arrived]; exact queue⟩
        · rw [if_neg full]
          exact continue_ reported (by omega)

structure Sound (s : Memory ω β η (FreertosWaitset β η)) (w : ω) (maxCompletions : Nat) (arrived : List (Handle η))
    (completions : List (Completion β)) (left : List (Handle η)) : Prop where
  few : completions.length ≤ maxCompletions
  registered : ∀ completion ∈ completions, s.registered completion.waitable = some w ∧
    completion.triggeredEvents = waitableEventIn
  distinct : (completions.map Completion.waitable).Nodup
  taken : ∃ taken, (s.waitsets w).set ++ arrived = taken ++ left ∧ ∀ member ∈ taken,
    (∃ b, s.registered b = some w ∧ s.primitive b = member) →
      ∃ completion ∈ completions, s.primitive completion.waitable = member
  stays : ∀ b, s.registered b = some w → (∀ completion ∈ completions, s.primitive completion.waitable ≠ s.primitive b) →
    s.primitive b ∈ (s.waitsets w).set ++ arrived → s.primitive b ∈ left

omit [DecidableEq ω] in
theorem waitSound {s : Memory ω β η (FreertosWaitset β η)} (agrees : Agrees (fun w => members (s.waitsets w)) s.registered)
    (w : ω) {maxCompletions : Nat} (some_ : 1 ≤ maxCompletions) (arrivals : List (List (Handle η))) :
    ∃ completions left rounds, wait s w maxCompletions arrivals = some (.ok, completions, left) ∧
      Sound s w maxCompletions (arrivals.take rounds).flatten completions left := by
  have nothing : Collected s.primitive (s.waitsets w).slots maxCompletions ([] : List (Handle η)) [] :=
    ⟨Nat.zero_le _, by simp, by simp, by simp⟩
  obtain ⟨completions, left, taken, rounds, looped, collected, seen⟩ :=
    waitLoopSpec nothing some_ (Nat.lt_succ_self ((s.waitsets w).set.length + arrivals.flatten.length))
  rw [List.nil_append] at collected
  have owned : ∀ member ∈ taken, (∃ b, s.registered b = some w ∧ s.primitive b = member) →
      ∃ completion ∈ completions, s.primitive completion.waitable = member := by
    rintro member inside ⟨b, registered, same⟩
    obtain ⟨wp, found⟩ := findActiveFound ((agrees.listed w b).mpr registered) same
    obtain ⟨completion, reported, rfl⟩ := List.mem_map.mp (collected.owned member inside wp found)
    exact ⟨completion, reported, (findActiveSpec found).2⟩
  refine ⟨completions, left, rounds, ?_, collected.few, fun completion inside => ?_, collected.distinct, ⟨taken, seen, owned⟩, ?_⟩
  · rw [wait]
    dsimp only
    rw [if_neg (by omega), looped]
    rfl
  · obtain ⟨listed, events⟩ := collected.listed completion inside
    exact ⟨(agrees.listed w completion.waitable).mp listed, events⟩
  · intro b registered unreported ready
    rw [seen] at ready
    rcases List.mem_append.mp ready with inside | inside
    · obtain ⟨completion, reported, same⟩ := owned _ inside ⟨b, registered, rfl⟩
      exact absurd same (unreported completion reported)
    · exact inside

end Freertos

/-! Windows: one wait for all handles, then a look at each of the others. -/
namespace Windows

/- The handles as the system sees them. `acquired` records the auto-reset handles that
wait calls have acquired; no code reads it. -/
structure Objects (η : Type) where
  signaled : Handle η → Bool
  autoReset : Handle η → Bool
  acquired : List (Handle η)

def Objects.raise (k : Objects η) (handles : List (Handle η)) : Objects η :=
  { k with signaled := fun h => k.signaled h || handles.contains h }

/- A wait call returns the handle: an auto-reset one is reset. -/
def Objects.acquire (k : Objects η) (handle : Handle η) : Objects η :=
  if k.autoReset handle then
    { k with signaled := Function.update k.signaled handle false, acquired := k.acquired ++ [handle] }
  else k

inductive WaitResult where
  | timeout
  | object (index : Nat)
  | failed

/- The scan of the remaining handles; `raised` are the handles signaled before each look. -/
def scan (primitive : β → Handle η) (waitables : Nat → β) (result maxCompletions : Nat) :
    List Nat → List (List (Handle η)) → Objects η → List (Completion β) → List (Completion β) × Objects η
  | [], _, k, completions => (completions, k)
  | i :: rest, raised, k, completions =>
      if completions.length ≥ maxCompletions then (completions, k)
      else if i = result then scan primitive waitables result maxCompletions rest raised k completions
      else
        let k := k.raise (raised.headD [])
        -- `WaitForSingleObject(handles[i], 0u) == WAIT_OBJECT_0`
        if k.signaled (primitive (waitables i)) then
          scan primitive waitables result maxCompletions rest raised.tail (k.acquire (primitive (waitables i)))
            (completions ++ [completionIn (waitables i)])
        else scan primitive waitables result maxCompletions rest raised.tail k completions

/- What the system answers: whether `SetWaitableTimer` succeeds, what `WaitForMultipleObjects`
returns, and which handles are signaled before each call. -/
structure Answers (η : Type) where
  timerSet : Bool
  result : WaitResult
  raised : List (List (Handle η))

def wait (emptyMaxUs : Nat) (s : Memory ω β η (WindowsWaitset β η)) (w : ω) (timeoutUs maxCompletions : Nat) (k : Objects η)
    (answers : Answers η) : Status × List (Completion β) × Objects η :=
  let waitset := s.waitsets w
  if maxCompletions = 0 then (.ok, [], k)
  else if waitset.count = 0 ∧ timeoutUs = 0 then (.ok, [], k)
  else
    let timeoutUs := cappedTimeout emptyMaxUs waitset.count timeoutUs
    let timerArmed : Bool := timeoutUs ≠ 0 ∧ timeoutUs ≠ waitInfiniteUs
    if timerArmed = true ∧ answers.timerSet = false then (.inval, [], k)
    else
      let handleCount := if timerArmed then waitset.count + 1 else waitset.count
      let k := k.raise (answers.raised.headD [])
      match answers.result with
      | .timeout => (.ok, [], k)
      | .failed => (.inval, [], k)
      | .object i =>
          if i < handleCount then
            if timerArmed = true ∧ i = waitset.count then (.ok, [], k)
            else
              let (completions, k) := scan s.primitive waitset.waitables i maxCompletions (List.range waitset.count)
                answers.raised.tail (k.acquire (s.primitive (waitset.waitables i))) [completionIn (waitset.waitables i)]
              (.ok, completions, k)
          else (.inval, [], k)

structure Taken (primitive : β → Handle η) (k k' : Objects η) (reported : List β) : Prop where
  acquired : ∃ more, k'.acquired = k.acquired ++ more ∧ ∀ h ∈ more, ∃ b ∈ reported, primitive b = h
  stays : ∀ h, k.signaled h = true → (∀ b ∈ reported, primitive b ≠ h) → k'.signaled h = true

section Taken

variable {primitive : β → Handle η} {k k' k'' : Objects η} {reported reported' : List β}

omit [DecidableEq β] [DecidableEq η] in
theorem Taken.trans (first : Taken primitive k k' reported) (second : Taken primitive k' k'' reported') :
    Taken primitive k k'' (reported ++ reported') := by
  obtain ⟨more, acquired, owned⟩ := first.acquired
  obtain ⟨more', acquired', owned'⟩ := second.acquired
  refine ⟨⟨more ++ more', by rw [acquired', acquired, List.append_assoc], fun h inside => ?_⟩, fun h signaled unreported => ?_⟩
  · rcases List.mem_append.mp inside with left | right
    · obtain ⟨b, member, same⟩ := owned h left
      exact ⟨b, List.mem_append_left _ member, same⟩
    · obtain ⟨b, member, same⟩ := owned' h right
      exact ⟨b, List.mem_append_right _ member, same⟩
  · exact second.stays h (first.stays h signaled fun b member => unreported b (List.mem_append_left _ member))
      fun b member => unreported b (List.mem_append_right _ member)

omit [DecidableEq β] in
theorem takenRaise (k : Objects η) (handles : List (Handle η)) : Taken primitive k (k.raise handles) [] :=
  ⟨⟨[], by simp [Objects.raise], by simp⟩, fun h signaled _ => by simp [Objects.raise, signaled]⟩

omit [DecidableEq β] in
theorem takenAcquire (k : Objects η) (b : β) : Taken primitive k (k.acquire (primitive b)) [b] := by
  by_cases auto : k.autoReset (primitive b) = true
  · refine ⟨⟨[primitive b], by simp [Objects.acquire, auto], by simp⟩, fun h signaled unreported => ?_⟩
    have other : h ≠ primitive b := fun same => unreported b List.mem_cons_self same.symm
    simpa [Objects.acquire, auto, other] using signaled
  · refine ⟨⟨[], by simp [Objects.acquire, auto], by simp⟩, fun h signaled _ => ?_⟩
    simpa [Objects.acquire, auto] using signaled

end Taken

omit [DecidableEq β] in
theorem scanSpec (primitive : β → Handle η) (waitables : Nat → β) (result : Nat) {maxCompletions : Nat} (indices : List Nat)
    (raised : List (List (Handle η))) (k : Objects η) (completions : List (Completion β)) (few : completions.length ≤ maxCompletions) :
    ∃ reported : List β, (scan primitive waitables result maxCompletions indices raised k completions).1 =
        completions ++ reported.map completionIn ∧
      Taken primitive k (scan primitive waitables result maxCompletions indices raised k completions).2 reported ∧
      reported.Sublist ((indices.filter (· ≠ result)).map waitables) ∧ completions.length + reported.length ≤ maxCompletions := by
  induction indices generalizing raised k completions with
  | nil => exact ⟨[], by simp [scan], ⟨⟨[], by simp [scan], by simp⟩, fun h signaled _ => signaled⟩, by simp, by simpa using few⟩
  | cons i rest ih =>
    rw [scan]
    by_cases full : completions.length ≥ maxCompletions
    · rw [if_pos full]
      exact ⟨[], by simp, ⟨⟨[], by simp, by simp⟩, fun h signaled _ => signaled⟩, by simp, by simpa using few⟩
    · rw [if_neg full]
      by_cases first : i = result
      · rw [if_pos first]
        obtain ⟨reported, listed, taken, order, room⟩ := ih raised k completions few
        exact ⟨reported, listed, taken, by simpa [first] using order, room⟩
      · rw [if_neg first]
        dsimp only
        by_cases ready : (k.raise (raised.headD [])).signaled (primitive (waitables i)) = true
        · rw [if_pos ready]
          obtain ⟨reported, listed, taken, order, room⟩ := ih raised.tail
            ((k.raise (raised.headD [])).acquire (primitive (waitables i))) (completions ++ [completionIn (waitables i)])
            (by rw [List.length_append]; exact Nat.lt_of_not_ge full)
          refine ⟨waitables i :: reported, by rw [listed]; simp, ?_, ?_, ?_⟩
          · exact ((takenRaise k _).trans (takenAcquire _ (waitables i))).trans taken
          · simpa [first] using order
          · simp only [List.length_append, List.length_cons, List.length_nil] at room ⊢
            omega
        · rw [if_neg ready]
          obtain ⟨reported, listed, taken, order, room⟩ := ih raised.tail (k.raise (raised.headD [])) completions few
          exact ⟨reported, listed, (takenRaise k _).trans taken, by
            rw [List.filter_cons_of_pos (by simpa using first), List.map_cons]
            exact order.cons _, room⟩

structure Sound (s : Memory ω β η (WindowsWaitset β η)) (w : ω) (maxCompletions : Nat) (k : Objects η)
    (completions : List (Completion β)) (k' : Objects η) : Prop where
  few : completions.length ≤ maxCompletions
  registered : ∀ completion ∈ completions, s.registered completion.waitable = some w ∧
    completion.triggeredEvents = waitableEventIn
  distinct : (completions.map Completion.waitable).Nodup
  acquired : ∃ more, k'.acquired = k.acquired ++ more ∧
    ∀ h ∈ more, ∃ completion ∈ completions, s.primitive completion.waitable = h
  stays : ∀ b, s.registered b = some w → b ∉ completions.map Completion.waitable → k.signaled (s.primitive b) = true →
    k'.signaled (s.primitive b) = true

omit [DecidableEq ω] [DecidableEq β] [DecidableEq η] in
theorem soundOf {cap : Nat} {s : Memory ω β η (WindowsWaitset β η)} (kept : Kept members (Table cap) s) {w : ω}
    {maxCompletions : Nat} {k k' : Objects η} (reported : List β) (taken : Taken s.primitive k k' reported)
    (listed : ∀ b ∈ reported, b ∈ members (s.waitsets w)) (distinct : reported.Nodup) (few : reported.length ≤ maxCompletions) :
    Sound s w maxCompletions k (reported.map completionIn) k' := by
  have waitables : (reported.map completionIn).map Completion.waitable = reported := by simp [completionIn, Function.comp_def]
  refine ⟨by simpa using few, fun completion inside => ?_, by rw [waitables]; exact distinct, ?_, ?_⟩
  · obtain ⟨b, member, rfl⟩ := List.mem_map.mp inside
    exact ⟨(kept.agrees.listed w b).mp (listed b member), rfl⟩
  · obtain ⟨more, acquired, owned⟩ := taken.acquired
    refine ⟨more, acquired, fun h inside => ?_⟩
    obtain ⟨b, member, same⟩ := owned h inside
    exact ⟨completionIn b, List.mem_map_of_mem member, same⟩
  · intro b registered unreported signaled
    rw [waitables] at unreported
    refine taken.stays _ signaled fun c member same => ?_
    obtain ⟨i, insideI, hereI⟩ := membersMem.mp (listed c member)
    obtain ⟨j, insideJ, hereJ⟩ := membersMem.mp ((kept.agrees.listed w b).mpr registered)
    have table := kept.tables w
    have equal : i = j := table.distinct i j insideI insideJ (by
      rw [table.handles i insideI, table.handles j insideJ, hereI, hereJ, same])
    subst equal
    exact unreported (hereJ.symm.trans hereI ▸ member)

omit [DecidableEq ω] [DecidableEq β] in
theorem scanSound {cap : Nat} {s : Memory ω β η (WindowsWaitset β η)} (kept : Kept members (Table cap) s) {w : ω}
    {maxCompletions : Nat} (some_ : 1 ≤ maxCompletions) {k k' : Objects η} (raised : Taken s.primitive k k' []) {i : Nat}
    (inside : i < (s.waitsets w).count) (later : List (List (Handle η))) :
    let scanned := scan s.primitive (s.waitsets w).waitables i maxCompletions (List.range (s.waitsets w).count) later
      (k'.acquire (s.primitive ((s.waitsets w).waitables i))) [completionIn ((s.waitsets w).waitables i)]
    Sound s w maxCompletions k scanned.1 scanned.2 := by
  intro scanned
  obtain ⟨reported, completions, taken, order, room⟩ := scanSpec s.primitive (s.waitsets w).waitables i (List.range (s.waitsets w).count)
    later (k'.acquire (s.primitive ((s.waitsets w).waitables i))) [completionIn ((s.waitsets w).waitables i)] some_
  have all := raised.trans ((takenAcquire k' ((s.waitsets w).waitables i)).trans taken)
  -- the handle that ended the wait and the scanned ones are different entries of the table
  have perm : ((s.waitsets w).waitables i :: ((List.range (s.waitsets w).count).filter (· ≠ i)).map (s.waitsets w).waitables).Perm
      (members (s.waitsets w)) := by
    have others : (List.range (s.waitsets w).count).filter (· ≠ i) = (List.range (s.waitsets w).count).erase i := by
      rw [List.nodup_range.erase_eq_filter]
      exact List.filter_congr fun j _ => by rw [Bool.eq_iff_iff]; simp
    rw [others, ← List.map_cons]
    exact ((List.perm_cons_erase (List.mem_range.mpr inside)).map _).symm
  have order' : ((s.waitsets w).waitables i :: reported).Subperm (members (s.waitsets w)) :=
    (order.cons_cons _).subperm.trans perm.subperm
  have few : ((s.waitsets w).waitables i :: reported).length ≤ maxCompletions := by
    simp only [List.length_cons, List.length_nil] at room ⊢
    omega
  have result := soundOf kept ((s.waitsets w).waitables i :: reported) all (fun b member => order'.subset member)
    (perm.nodup_iff.mpr (kept.agrees.once w) |>.sublist (order.cons_cons _)) few
  rw [List.map_cons] at result
  rw [show scanned.1 = _ from completions]
  exact result

omit [DecidableEq ω] [DecidableEq β] in
theorem waitSound {cap : Nat} {s : Memory ω β η (WindowsWaitset β η)} (kept : Kept members (Table cap) s) (emptyMaxUs : Nat)
    (w : ω) (timeoutUs : Nat) {maxCompletions : Nat} (some_ : 1 ≤ maxCompletions) (k : Objects η) (answers : Answers η) :
    ∃ status completions k', wait emptyMaxUs s w timeoutUs maxCompletions k answers = (status, completions, k') ∧
      Sound s w maxCompletions k completions k' := by
  have nothing : Sound s w maxCompletions k [] k :=
    soundOf kept [] ⟨⟨[], by simp, by simp⟩, fun h signaled _ => signaled⟩ (by simp) List.nodup_nil (Nat.zero_le _)
  have raises : Taken s.primitive k (k.raise (answers.raised.headD [])) [] := takenRaise k _
  have raised : Sound s w maxCompletions k [] (k.raise (answers.raised.headD [])) :=
    soundOf kept [] raises (by simp) List.nodup_nil (Nat.zero_le _)
  rw [wait]
  dsimp only
  rw [if_neg (by omega)]
  by_cases idle : (s.waitsets w).count = 0 ∧ timeoutUs = 0
  · rw [if_pos idle]
    exact ⟨_, _, _, rfl, nothing⟩
  · rw [if_neg idle]
    generalize decide (cappedTimeout emptyMaxUs (s.waitsets w).count timeoutUs ≠ 0 ∧
      cappedTimeout emptyMaxUs (s.waitsets w).count timeoutUs ≠ waitInfiniteUs) = timerArmed
    by_cases refused : timerArmed = true ∧ answers.timerSet = false
    · rw [if_pos refused]
      exact ⟨_, _, _, rfl, nothing⟩
    · rw [if_neg refused]
      cases answers.result with
      | timeout => exact ⟨_, _, _, rfl, raised⟩
      | failed => exact ⟨_, _, _, rfl, raised⟩
      | object i =>
        dsimp only
        by_cases inside : i < if timerArmed = true then (s.waitsets w).count + 1 else (s.waitsets w).count
        · rw [if_pos inside]
          by_cases timer : timerArmed = true ∧ i = (s.waitsets w).count
          · rw [if_pos timer]
            exact ⟨_, _, _, rfl, raised⟩
          · rw [if_neg timer]
            have user : i < (s.waitsets w).count := by
              cases timerArmed with
              | true =>
                simp only [if_true, true_and] at inside timer
                omega
              | false => simpa using inside
            exact ⟨_, _, _, rfl, scanSound kept some_ raises user _⟩
        · rw [if_neg inside]
          exact ⟨_, _, _, rfl, raised⟩

end Windows

/- In every reachable state a wait of either backend reports registered waitables, none
twice and no more than asked for, and whatever it consumes belongs to one of them. -/
theorem completionsSound :
    (∀ (cap : Nat) (s : Memory ω β η (WindowsWaitset β η)),
      Reachable (Starts Windows.New) (step (Windows.backend cap)) (Allowed fun _ _ _ _ => True) s →
      ∀ (emptyMaxUs : Nat) (w : ω) (timeoutUs maxCompletions : Nat) (k : Windows.Objects η) (answers : Windows.Answers η),
        1 ≤ maxCompletions → ∃ status completions k',
          Windows.wait emptyMaxUs s w timeoutUs maxCompletions k answers = (status, completions, k') ∧
            Windows.Sound s w maxCompletions k completions k') ∧
    ∀ (port : Freertos.Port η) (s : Memory ω β η (FreertosWaitset β η)),
      Reachable (Starts (· = Freertos.init port)) (step (Freertos.backend port)) (Allowed fun _ _ _ _ => True) s →
      ∀ (w : ω) (maxCompletions : Nat) (arrivals : List (List (Handle η))),
        1 ≤ maxCompletions → ∃ completions left rounds,
          Freertos.wait s w maxCompletions arrivals = some (.ok, completions, left) ∧
            Freertos.Sound s w maxCompletions (arrivals.take rounds).flatten completions left := by
  refine ⟨fun cap s reach emptyMaxUs w timeoutUs maxCompletions k answers some_ => ?_,
    fun port s reach w maxCompletions arrivals some_ => ?_⟩
  · have kept := reachableKept (Windows.lawful cap) (newWindows cap) reach
    exact Windows.waitSound kept emptyMaxUs w timeoutUs some_ k answers
  · have order : ∀ (_ : β → Handle η) (t : FreertosWaitset β η), t = Freertos.init port →
        Freertos.members t = [] ∧ SlotTable port.cap t.slots t.count ∧ t.set.length ≤ port.cap := fun primitive t new =>
      have inOrder := newFreertos port primitive t new
      ⟨inOrder.1, inOrder.2.slots, inOrder.2.tokens⟩
    have kept := reachableKept (Freertos.lawfulSlots port) order reach
    exact Freertos.waitSound kept.agrees w some_ arrivals

def bothSignaled : Windows.Objects Bool where
  signaled := fun _ => true
  autoReset := fun _ => true
  acquired := []

/- A Windows wait with room for one completion leaves the other member signaled; a FreeRTOS wait
skips the token of a waitable that is gone and reports the other once for its two tokens. -/
theorem completionsOfTwo :
    (∃ s : Memory Unit Bool Bool (WindowsWaitset Bool Bool), ∃ status k',
      Windows.wait 1000 s () 500 1 bothSignaled ⟨true, .object 0, []⟩ = (status, [completionIn false], k') ∧
        Windows.Sound s () 1 bothSignaled [completionIn false] k' ∧ k'.signaled (.object true) = true) ∧
    ∃ s : Memory Unit Bool Bool (FreertosWaitset Bool Bool), s.registered false = none ∧
      (s.waitsets ()).set = [.object false, .object true] ∧ ∃ left rounds,
        Freertos.wait s () 4 [[.object true]] = some (.ok, [completionIn true], left) ∧
          Freertos.Sound s () 4 ([[Handle.object true]].take rounds).flatten [completionIn true] left := by
  constructor
  · have starts : Reachable (Starts Windows.New) (step (Windows.backend 63)) (Allowed fun _ _ _ _ => True) (pair emptyArrays) :=
      .start ⟨fun _ => rfl, fun _ => rfl⟩
    have added := Reachable.next (a := Call.add (some ()) (some false) ()) starts trivial rfl
    have both := Reachable.next (a := Call.add (some ()) (some true) ()) added trivial rfl
    obtain ⟨status, completions, k', called, sound⟩ :=
      completionsSound.1 _ _ both 1000 () 500 1 bothSignaled ⟨true, .object 0, []⟩ (by decide)
    obtain rfl : [completionIn false] = completions := congrArg (fun outcome => outcome.2.1) called
    exact ⟨_, status, k', called, sound, sound.stays true rfl (by decide) rfl⟩
  · have starts : Reachable (Starts (· = Freertos.init (portOf 32 4))) (step (Freertos.backend (portOf 32 4)))
        (Allowed fun _ _ _ _ => True) (pair (Freertos.init (portOf 32 4))) :=
      .start ⟨fun _ => rfl, fun _ => rfl⟩
    have added := Reachable.next (a := Call.add (some ()) (some false) (⟨0, true⟩ : Freertos.Answers)) starts trivial rfl
    have both := Reachable.next (a := Call.add (some ()) (some true) (⟨0, true⟩ : Freertos.Answers)) added trivial rfl
    have signaled := Reachable.next (a := Call.system () ⟨[.object false, .object true], by decide⟩) both trivial rfl
    have removed := Reachable.next (a := Call.remove (some ()) (some false) (⟨0, true⟩ : Freertos.Answers)) signaled trivial rfl
    obtain ⟨completions, left, rounds, called, sound⟩ := completionsSound.2 _ _ removed () 4 [[.object true]] (by decide)
    obtain rfl : [completionIn true] = completions := congrArg (fun outcome => outcome.2.1) (Option.some.inj called)
    exact ⟨_, rfl, rfl, left, rounds, called, sound⟩

end Nanosig.Platform
