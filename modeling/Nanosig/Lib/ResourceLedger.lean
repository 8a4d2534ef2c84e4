import Mathlib

/-! Resources that depend on each other: a ledger of the ones held, on which a
second acquisition, a release of what is not held and a release of what another
held resource needs have no result; and the ladder of an initialization that
gives back what it has made when a later stage fails. -/
namespace ResourceLedger

section Ledger

variable {ρ : Type*} [DecidableEq ρ] {needs : ρ → List ρ}

/- `leaked` are the resources given up although their release was refused. -/
structure Ledger (ρ : Type*) where
  held : Finset ρ
  leaked : List ρ

def acquire (needs : ρ → List ρ) (l : Ledger ρ) (r : ρ) : Option (Ledger ρ) :=
  if r ∉ l.held ∧ ∀ q ∈ needs r, q ∈ l.held then some { l with held := insert r l.held } else none

def release (needs : ρ → List ρ) (l : Ledger ρ) (r : ρ) (accepted : Bool) : Option (Ledger ρ) :=
  if r ∈ l.held ∧ ∀ q ∈ l.held, r ∉ needs q then
    some { held := l.held.erase r, leaked := if accepted then l.leaked else r :: l.leaked }
  else none

def Closed (needs : ρ → List ρ) (held : Finset ρ) : Prop := ∀ r ∈ held, ∀ q ∈ needs r, q ∈ held

theorem acquireExact {l l' : Ledger ρ} {r : ρ} (h : acquire needs l r = some l') :
    r ∉ l.held ∧ (∀ q ∈ needs r, q ∈ l.held) ∧ l' = { l with held := insert r l.held } := by
  unfold acquire at h
  split at h
  · rename_i free
    exact ⟨free.1, free.2, (Option.some.inj h).symm⟩
  · contradiction

theorem acquireClosed {l l' : Ledger ρ} {r : ρ} (h : acquire needs l r = some l') (closed : Closed needs l.held) :
    Closed needs l'.held := by
  obtain ⟨_, met, rfl⟩ := acquireExact h
  intro q member p needed
  rcases Finset.mem_insert.mp member with rfl | member
  · exact Finset.mem_insert_of_mem (met p needed)
  · exact Finset.mem_insert_of_mem (closed q member p needed)

omit [DecidableEq ρ] in
theorem Closed.unneeded {held : Finset ρ} (closed : Closed needs held) {r : ρ} (free : r ∉ held) :
    ∀ q ∈ held, r ∉ needs q := fun q member needed => free (closed q member r needed)

end Ledger

section Ladder

variable {σ ε : Type*} [DecidableEq ε]

structure Stage (σ ε : Type*) where
  up : σ → Option (σ × ε)
  down : σ → Option σ

def ladder (good : ε) (last : σ → Option (σ × ε)) : List (Stage σ ε) → σ → Option (σ × ε)
  | [], s => last s
  | stage :: rest, s =>
      (stage.up s).bind fun (s, rc) =>
        if rc ≠ good then some (s, rc)
        else (ladder good last rest s).bind fun (s, rc) =>
          if rc = good then some (s, good) else (stage.down s).map fun s => (s, rc)

def firstFailure (good : ε) : List ε → ε
  | [] => good
  | rc :: rest => if rc = good then firstFailure good rest else rc

theorem firstFailureGood {good : ε} {codes : List ε} :
    firstFailure good codes = good ↔ ∀ rc ∈ codes, rc = good := by
  induction codes with
  | nil => simp [firstFailure]
  | cons rc rest ih =>
    by_cases passed : rc = good
    · simp [firstFailure, passed, ih]
    · simp [firstFailure, passed]

/- An initializer answering `codes` from the states with `pre`: it ends with
`post`, or `Same` as before. -/
def Transactional (good : ε) (Same : σ → σ → Prop) (pre post : σ → Prop) (codes : List ε)
    (init : σ → Option (σ × ε)) : Prop :=
  ∀ s, pre s → ∃ s', init s = some (s', firstFailure good codes) ∧
    (firstFailure good codes = good → post s') ∧ (firstFailure good codes ≠ good → Same s s')

theorem Transactional.bottom {good : ε} {Same : σ → σ → Prop} {pre post : σ → Prop} {codes : List ε}
    {last : σ → Option (σ × ε)} (rest : Transactional good Same pre post codes last) :
    Transactional good Same pre post codes (ladder good last []) := rest

structure Stage.Undoable (good : ε) (Same : σ → σ → Prop) (pre post : σ → Prop) (code : ε) (stage : Stage σ ε) :
    Prop where
  passes : code = good → ∀ s, pre s → ∃ s', stage.up s = some (s', good) ∧ post s' ∧
    ∀ t, Same s' t → ∃ u, stage.down t = some u ∧ Same s u
  fails : code ≠ good → ∀ s, pre s → ∃ s', stage.up s = some (s', code) ∧ Same s s'

theorem Stage.Undoable.ladder {good : ε} {Same : σ → σ → Prop} {pre mid post : σ → Prop} {code : ε}
    {codes : List ε} {stage : Stage σ ε} {stages : List (Stage σ ε)} {last : σ → Option (σ × ε)}
    (undoable : stage.Undoable good Same pre mid code)
    (rest : Transactional good Same mid post codes (ladder good last stages)) :
    Transactional good Same pre post (code :: codes) (ladder good last (stage :: stages)) := by
  intro s before
  by_cases passed : code = good
  · obtain ⟨s', taken, after, undone⟩ := undoable.passes passed s before
    obtain ⟨s'', later, ended, kept⟩ := rest s' after
    rw [firstFailure, if_pos passed]
    by_cases all : firstFailure good codes = good
    · refine ⟨s'', ?_, ended, fun failed => absurd all failed⟩
      simp [ResourceLedger.ladder, taken, later, all]
    · obtain ⟨u, down, same⟩ := undone s'' (kept all)
      refine ⟨u, ?_, fun good => absurd good all, fun _ => same⟩
      simp [ResourceLedger.ladder, taken, later, all, down]
  · obtain ⟨s', taken, same⟩ := undoable.fails passed s before
    rw [firstFailure, if_neg passed]
    refine ⟨s', ?_, fun good => absurd good passed, fun _ => same⟩
    simp [ResourceLedger.ladder, taken, passed]

end Ladder

end ResourceLedger
