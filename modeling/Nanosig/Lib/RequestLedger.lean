import Mathlib

/-! Requests that are refused, or accepted into an order, executed in that order and
returned: what a record of it says after any steps. Identifiers, callers and results are
of any types. -/
namespace RequestLedger

inductive Phase (ρ : Type*) where
  | pending
  | refused (r : ρ)
  | accepted
  | executed (r : ρ)
  | returned

structure Ledger (ι τ ρ : Type*) where
  phase : ι → Option (τ × Phase ρ)
  accepted : List ι
  executed : List (ι × ρ)
  refused : List (ι × ρ)
  returned : List (τ × ι × ρ)

variable {ι τ ρ : Type*} [DecidableEq ι] {l l' : Ledger ι τ ρ}

inductive Step (l : Ledger ι τ ρ) : Ledger ι τ ρ → Prop where
  | enter (id : ι) (t : τ) (unused : l.phase id = none) :
      Step l { l with phase := Function.update l.phase id (some (t, .pending)) }
  | refuse (id : ι) (t : τ) (r : ρ) (given : l.phase id = some (t, .pending)) :
      Step l { l with
        phase := Function.update l.phase id (some (t, .refused r))
        refused := l.refused ++ [(id, r)] }
  | accept (id : ι) (t : τ) (given : l.phase id = some (t, .pending)) :
      Step l { l with
        phase := Function.update l.phase id (some (t, .accepted))
        accepted := l.accepted ++ [id] }
  | execute (id : ι) (t : τ) (r : ρ) (rest : List ι) (given : l.phase id = some (t, .accepted))
      (first : l.accepted = l.executed.map Prod.fst ++ id :: rest) :
      Step l { l with
        phase := Function.update l.phase id (some (t, .executed r))
        executed := l.executed ++ [(id, r)] }
  | finish (id : ι) (t : τ) (r : ρ)
      (given : l.phase id = some (t, .executed r) ∨ l.phase id = some (t, .refused r)) :
      Step l { l with
        phase := Function.update l.phase id (some (t, .returned))
        returned := l.returned ++ [(t, id, r)] }

theorem turnedAway (id : ι) (t : τ) (r : ρ) (unused : l.phase id = none) :
    Relation.ReflTransGen Step l { l with
      phase := Function.update l.phase id (some (t, .returned))
      refused := l.refused ++ [(id, r)]
      returned := l.returned ++ [(t, id, r)] } := by
  refine .tail (.tail (.single (.enter id t unused)) (.refuse id t r (by simp))) ?_
  have finish := Step.finish (l := { l with
    phase := Function.update l.phase id (some (t, .refused r))
    refused := l.refused ++ [(id, r)] }) id t r (by simp)
  simpa using finish

def Phase.isAccepted : Phase ρ → Bool
  | .accepted | .executed _ | .returned => true
  | _ => false

structure Sound (l : Ledger ι τ ρ) : Prop where
  accepted : ∀ id ∈ l.accepted, ∃ t p, l.phase id = some (t, p) ∧ p.isAccepted = true
  distinct : l.accepted.Nodup
  order : l.executed.map Prod.fst <+: l.accepted
  result : ∀ id t r, l.phase id = some (t, .executed r) → (id, r) ∈ l.executed
  refused : ∀ id r, (id, r) ∈ l.refused → ∃ t p, l.phase id = some (t, p) ∧ (p = .refused r ∨ p = .returned)
  error : ∀ id t r, l.phase id = some (t, .refused r) → (id, r) ∈ l.refused
  apart : ∀ id r, (id, r) ∈ l.refused → id ∉ l.accepted
  oneError : (l.refused.map Prod.fst).Nodup
  returned : ∀ t id r, (t, id, r) ∈ l.returned →
    l.phase id = some (t, .returned) ∧ ((id, r) ∈ l.executed ∨ (id, r) ∈ l.refused)
  once : (l.returned.map fun entry => entry.2.1).Nodup
  executed : ∀ id r, (id, r) ∈ l.executed → ∃ t, l.phase id = some (t, .executed r) ∨ l.phase id = some (t, .returned)
  recorded : ∀ id t, l.phase id = some (t, .returned) → ∃ r, (t, id, r) ∈ l.returned

omit [DecidableEq ι] in
theorem Sound.start (phase : ∀ id, l.phase id = none) (accepted : l.accepted = []) (executed : l.executed = [])
    (refused : l.refused = []) (returned : l.returned = []) : Sound l := by
  constructor <;> simp [phase, accepted, executed, refused, returned]

theorem Sound.enter (sound : Sound l) {id : ι} (t : τ) (unused : l.phase id = none) :
    Sound { l with phase := Function.update l.phase id (some (t, .pending)) } := by
  have differs : ∀ other p, l.phase other = some p → other ≠ id := by
    rintro other p given rfl
    rw [unused] at given
    contradiction
  exact {
    accepted := fun other member => by
      obtain ⟨u, p, given, phase⟩ := sound.accepted other member
      exact ⟨u, p, by simp [differs _ _ given, given], phase⟩
    distinct := sound.distinct
    order := sound.order
    result := fun other u r given => by
      by_cases same : other = id
      · simp [same] at given
      · exact sound.result other u r (by simpa [same] using given)
    refused := fun other r member => by
      obtain ⟨u, p, given, phase⟩ := sound.refused other r member
      exact ⟨u, p, by simp [differs _ _ given, given], phase⟩
    error := fun other u r given => by
      by_cases same : other = id
      · simp [same] at given
      · exact sound.error other u r (by simpa [same] using given)
    apart := sound.apart
    oneError := sound.oneError
    returned := fun u other r member => by
      obtain ⟨given, from_⟩ := sound.returned u other r member
      exact ⟨by simp [differs _ _ given, given], from_⟩
    once := sound.once
    executed := fun other r member => by
      obtain ⟨u, phase⟩ := sound.executed other r member
      have same : other ≠ id := phase.elim (differs _ _) (differs _ _)
      exact ⟨u, by simpa [same] using phase⟩
    recorded := fun other u given => by
      by_cases same : other = id
      · simp [same] at given
      · exact sound.recorded other u (by simpa [same] using given) }

theorem Sound.refuse (sound : Sound l) {id : ι} {t : τ} (r : ρ) (given : l.phase id = some (t, .pending)) :
    Sound { l with
      phase := Function.update l.phase id (some (t, .refused r))
      refused := l.refused ++ [(id, r)] } := by
  have outside : id ∉ l.accepted := fun member => by
    obtain ⟨u, p, given', phase⟩ := sound.accepted id member
    cases given.symm.trans given'
    contradiction
  have unrefused : ∀ r', (id, r') ∉ l.refused := fun r' member => by
    obtain ⟨u, p, given', phase⟩ := sound.refused id r' member
    cases given.symm.trans given'
    rcases phase with phase | phase <;> contradiction
  exact {
    accepted := fun other member => by
      have same : other ≠ id := fun same => outside (same ▸ member)
      simpa [same] using sound.accepted other member
    distinct := sound.distinct
    order := sound.order
    result := fun other u r' given' => by
      by_cases same : other = id
      · simp [same] at given'
      · exact sound.result other u r' (by simpa [same] using given')
    refused := fun other r' member => by
      rcases List.mem_append.mp member with before | last
      · have same : other ≠ id := fun same => unrefused r' (same ▸ before)
        simpa [same] using sound.refused other r' before
      · cases List.mem_singleton.mp last
        exact ⟨t, _, by simp, .inl rfl⟩
    error := fun other u r' given' => by
      by_cases same : other = id
      · subst same
        simp only [Function.update_self, Option.some.injEq, Prod.mk.injEq, Phase.refused.injEq] at given'
        simp [given'.2]
      · exact List.mem_append_left _ (sound.error other u r' (by simpa [same] using given'))
    apart := fun other r' member => by
      rcases List.mem_append.mp member with before | last
      · exact sound.apart other r' before
      · cases List.mem_singleton.mp last
        exact outside
    oneError := by
      simp only [List.map_append, List.map_cons, List.map_nil]
      refine sound.oneError.append (List.nodup_singleton _) ?_
      simpa using unrefused
    returned := fun u other r' member => by
      obtain ⟨given', from_⟩ := sound.returned u other r' member
      have same : other ≠ id := by
        rintro rfl
        rw [given] at given'
        cases given'
      refine ⟨by simpa [same] using given', from_.imp_right (List.mem_append_left _)⟩
    once := sound.once
    executed := fun other r' member => by
      have same : other ≠ id := fun same => outside (same ▸ sound.order.subset (List.mem_map_of_mem member))
      simpa [same] using sound.executed other r' member
    recorded := fun other u given' => by
      by_cases same : other = id
      · simp [same] at given'
      · exact sound.recorded other u (by simpa [same] using given') }

theorem Sound.accept (sound : Sound l) {id : ι} {t : τ} (given : l.phase id = some (t, .pending)) :
    Sound { l with
      phase := Function.update l.phase id (some (t, .accepted))
      accepted := l.accepted ++ [id] } := by
  have outside : id ∉ l.accepted := fun member => by
    obtain ⟨u, p, given', phase⟩ := sound.accepted id member
    cases given.symm.trans given'
    contradiction
  have unrefused : ∀ r', (id, r') ∉ l.refused := fun r' member => by
    obtain ⟨u, p, given', phase⟩ := sound.refused id r' member
    cases given.symm.trans given'
    rcases phase with phase | phase <;> contradiction
  exact {
    accepted := fun other member => by
      by_cases same : other = id
      · exact ⟨t, .accepted, by simp [same], rfl⟩
      · have before : other ∈ l.accepted := by simpa [same] using member
        simpa [same] using sound.accepted other before
    distinct := sound.distinct.append (List.nodup_singleton _) (by simpa using outside)
    order := sound.order.trans (List.prefix_append _ _)
    result := fun other u r' given' => by
      by_cases same : other = id
      · simp [same] at given'
      · exact sound.result other u r' (by simpa [same] using given')
    refused := fun other r' member => by
      have same : other ≠ id := fun same => unrefused r' (same ▸ member)
      simpa [same] using sound.refused other r' member
    error := fun other u r' given' => by
      by_cases same : other = id
      · simp [same] at given'
      · exact sound.error other u r' (by simpa [same] using given')
    apart := fun other r' member => by
      have same : other ≠ id := fun same => unrefused r' (same ▸ member)
      simpa [same] using sound.apart other r' member
    oneError := sound.oneError
    returned := fun u other r' member => by
      obtain ⟨given', from_⟩ := sound.returned u other r' member
      have same : other ≠ id := by
        rintro rfl
        rw [given] at given'
        cases given'
      exact ⟨by simpa [same] using given', from_⟩
    once := sound.once
    executed := fun other r' member => by
      have same : other ≠ id := fun same => outside (same ▸ sound.order.subset (List.mem_map_of_mem member))
      simpa [same] using sound.executed other r' member
    recorded := fun other u given' => by
      by_cases same : other = id
      · simp [same] at given'
      · exact sound.recorded other u (by simpa [same] using given') }

theorem Sound.execute (sound : Sound l) {id : ι} {t : τ} (r : ρ) {rest : List ι} (given : l.phase id = some (t, .accepted))
    (first : l.accepted = l.executed.map Prod.fst ++ id :: rest) :
    Sound { l with
      phase := Function.update l.phase id (some (t, .executed r))
      executed := l.executed ++ [(id, r)] } := by
  have member : id ∈ l.accepted := by simp [first]
  exact {
    accepted := fun other member => by
      by_cases same : other = id
      · exact ⟨t, .executed r, by simp [same], rfl⟩
      · simpa [same] using sound.accepted other member
    distinct := sound.distinct
    order := ⟨rest, by simp [first]⟩
    result := fun other u r' given' => by
      by_cases same : other = id
      · subst same
        simp only [Function.update_self, Option.some.injEq, Prod.mk.injEq, Phase.executed.injEq] at given'
        simp [given'.2]
      · exact List.mem_append_left _ (sound.result other u r' (by simpa [same] using given'))
    refused := fun other r' refused => by
      have same : other ≠ id := fun same => sound.apart other r' refused (same ▸ member)
      simpa [same] using sound.refused other r' refused
    error := fun other u r' given' => by
      by_cases same : other = id
      · simp [same] at given'
      · exact sound.error other u r' (by simpa [same] using given')
    apart := sound.apart
    oneError := sound.oneError
    returned := fun u other r' member => by
      obtain ⟨given', from_⟩ := sound.returned u other r' member
      have same : other ≠ id := by
        rintro rfl
        rw [given] at given'
        cases given'
      exact ⟨by simpa [same] using given', from_.imp_left (List.mem_append_left _)⟩
    once := sound.once
    executed := fun other r' member => by
      rcases List.mem_append.mp member with before | last
      · have same : other ≠ id := by
          rintro rfl
          obtain ⟨u, phase⟩ := sound.executed other r' before
          rcases phase with phase | phase <;> cases given.symm.trans phase
        simpa [same] using sound.executed other r' before
      · cases List.mem_singleton.mp last
        exact ⟨t, .inl (by simp)⟩
    recorded := fun other u given' => by
      by_cases same : other = id
      · simp [same] at given'
      · exact sound.recorded other u (by simpa [same] using given') }

theorem Sound.finish (sound : Sound l) {id : ι} {t : τ} {r : ρ}
    (given : l.phase id = some (t, .executed r) ∨ l.phase id = some (t, .refused r)) :
    Sound { l with
      phase := Function.update l.phase id (some (t, .returned))
      returned := l.returned ++ [(t, id, r)] } := by
  have origin : (id, r) ∈ l.executed ∨ (id, r) ∈ l.refused := given.imp (sound.result id t r) (sound.error id t r)
  have unreturned : ∀ u r', (u, id, r') ∉ l.returned := fun u r' member => by
    obtain ⟨given', -⟩ := sound.returned u id r' member
    rcases given with given | given <;> cases given.symm.trans given'
  exact {
    accepted := fun other member => by
      by_cases same : other = id
      · exact ⟨t, .returned, by simp [same], rfl⟩
      · simpa [same] using sound.accepted other member
    distinct := sound.distinct
    order := sound.order
    result := fun other u r' given' => by
      by_cases same : other = id
      · simp [same] at given'
      · exact sound.result other u r' (by simpa [same] using given')
    refused := fun other r' member => by
      by_cases same : other = id
      · exact ⟨t, .returned, by simp [same], .inr rfl⟩
      · simpa [same] using sound.refused other r' member
    error := fun other u r' given' => by
      by_cases same : other = id
      · simp [same] at given'
      · exact sound.error other u r' (by simpa [same] using given')
    apart := sound.apart
    oneError := sound.oneError
    returned := fun u other r' member => by
      rcases List.mem_append.mp member with before | last
      · obtain ⟨given', from_⟩ := sound.returned u other r' before
        have same : other ≠ id := fun same => unreturned u r' (same ▸ before)
        exact ⟨by simpa [same] using given', from_⟩
      · cases List.mem_singleton.mp last
        exact ⟨by simp, origin⟩
    once := by
      simp only [List.map_append, List.map_cons, List.map_nil]
      refine sound.once.append (List.nodup_singleton _) ?_
      simpa using unreturned
    executed := fun other r' member => by
      by_cases same : other = id
      · exact ⟨t, .inr (by simp [same])⟩
      · simpa [same] using sound.executed other r' member
    recorded := fun other u given' => by
      by_cases same : other = id
      · subst same
        simp only [Function.update_self, Option.some.injEq, Prod.mk.injEq, and_true] at given'
        exact ⟨r, by simp [given']⟩
      · obtain ⟨r', member⟩ := sound.recorded other u (by simpa [same] using given')
        exact ⟨r', List.mem_append_left _ member⟩ }

theorem Sound.step (sound : Sound l) (step : Step l l') : Sound l' := by
  cases step with
  | enter id t unused => exact sound.enter t unused
  | refuse id t r given => exact sound.refuse r given
  | accept id t given => exact sound.accept given
  | execute id t r rest given first => exact sound.execute r given first
  | finish id t r given => exact sound.finish given

theorem Sound.run (sound : Sound l) (run : Relation.ReflTransGen Step l l') : Sound l' := by
  induction run with
  | refl => exact sound
  | tail before step ih => exact ih.step step

omit [DecidableEq ι] in
theorem Sound.oneResult (sound : Sound l) {id : ι} {r r' : ρ} (executed : (id, r) ∈ l.executed) (again : (id, r') ∈ l.executed) :
    r = r' := by
  have distinct : (l.executed.map Prod.fst).Nodup := sound.order.sublist.nodup sound.distinct
  have same := List.inj_on_of_nodup_map distinct executed again rfl
  exact (Prod.mk.inj same).2

omit [DecidableEq ι] in
theorem Sound.executedAccepted (sound : Sound l) {id : ι} {r : ρ} (executed : (id, r) ∈ l.executed) : id ∈ l.accepted :=
  sound.order.subset (List.mem_map.mpr ⟨_, executed, rfl⟩)

omit [DecidableEq ι] in
theorem Sound.ownResult (sound : Sound l) {id : ι} {t : τ} {r r' : ρ} (returned : (t, id, r) ∈ l.returned)
    (executed : (id, r') ∈ l.executed) : r = r' := by
  rcases (sound.returned t id r returned).2 with own | refused
  · exact sound.oneResult own executed
  · exact absurd (sound.executedAccepted executed) (sound.apart id r refused)

omit [DecidableEq ι] in
theorem Sound.ownError (sound : Sound l) {id : ι} {t : τ} {r r' : ρ} (returned : (t, id, r) ∈ l.returned)
    (refused : (id, r') ∈ l.refused) : r = r' := by
  rcases (sound.returned t id r returned).2 with executed | own
  · exact absurd (sound.executedAccepted executed) (sound.apart id r' refused)
  · have same := List.inj_on_of_nodup_map sound.oneError own refused rfl
    exact (Prod.mk.inj same).2

end RequestLedger
