import Mathlib

/-! Alarms on a time line without end, in the order they ring: by the time they are due, and
those of one time in the order they were set. -/
namespace AlarmClock

variable {τ : Type*}

abbrev Alarms (τ : Type*) := List (τ × Int)

/- Behind all alarms that are not later. -/
def set (alarms : Alarms τ) (who : τ) (due : Int) : Alarms τ :=
  alarms.takeWhile (fun a => a.2 ≤ due) ++ (who, due) :: alarms.dropWhile fun a => a.2 ≤ due

def unset [DecidableEq τ] (alarms : Alarms τ) (who : τ) : Alarms τ := alarms.filter fun a => a.1 ≠ who

/- Those that are due ring, in order; then each is set again, where `again` has a time for it. -/
def rings (alarms : Alarms τ) (now : Int) : Alarms τ := alarms.takeWhile fun a => a.2 ≤ now

def setAgain (again : τ → Int → Option Int) (rung rest : Alarms τ) : Alarms τ :=
  rung.foldl (fun alarms a => (again a.1 a.2).elim alarms (set alarms a.1)) rest

def ring (again : τ → Int → Option Int) (alarms : Alarms τ) (now : Int) : Alarms τ :=
  setAgain again (rings alarms now) (alarms.dropWhile fun a => a.2 ≤ now)

theorem setAtPlace {alarms earlier later : Alarms τ} {who : τ} {due : Int} (split : alarms = earlier ++ later)
    (front : ∀ a ∈ earlier, a.2 ≤ due) (back : ∀ a ∈ later, due < a.2) : set alarms who due = earlier ++ (who, due) :: later := by
  subst split
  have frontAll : ∀ a ∈ earlier, decide (a.2 ≤ due) = true := fun a member => by simpa using front a member
  have ends : later.takeWhile (fun a => decide (a.2 ≤ due)) = [] ∧ later.dropWhile (fun a => decide (a.2 ≤ due)) = later := by
    cases later with
    | nil => simp
    | cons a rest => simp [back a List.mem_cons_self]
  rw [set, List.takeWhile_append_of_pos frontAll, List.dropWhile_append_of_pos frontAll, ends.1, ends.2, List.append_nil]

theorem ringsSet {alarms : Alarms τ} {who : τ} {due now : Int} (ahead : now < due) :
    rings (set alarms who due) now = rings alarms now ∧
      (set alarms who due).dropWhile (fun a => a.2 ≤ now) = set (alarms.dropWhile fun a => a.2 ≤ now) who due := by
  induction alarms with
  | nil => simp [rings, set, ahead]
  | cons a rest ih =>
    obtain ⟨same, left⟩ := ih
    by_cases soon : a.2 ≤ now
    · have before : a.2 ≤ due := by omega
      have put : set (a :: rest) who due = a :: set rest who due := by simp [set, before]
      rw [put]
      simp only [rings] at same ⊢
      simp [soon, same, left]
    · by_cases before : a.2 ≤ due <;> simp [rings, set, soon, before, ahead]

theorem ringFirst {again : τ → Int → Option Int} {who : τ} {due now : Int} {rest : Alarms τ} (isDue : due ≤ now)
    (ahead : ∀ next, again who due = some next → now < next) :
    rings ((who, due) :: rest) now = (who, due) :: rings ((again who due).elim rest (set rest who)) now ∧
      ring again ((who, due) :: rest) now = ring again ((again who due).elim rest (set rest who)) now := by
  cases next : again who due with
  | none => simp [ring, rings, setAgain, isDue, next]
  | some next' =>
    obtain ⟨same, left⟩ := (ringsSet (ahead next' next) : rings (set rest who next') now = rings rest now ∧ _)
    simp only [Option.elim_some, ring, same, left]
    simp [rings, setAgain, isDue, next]

theorem ringNothing {again : τ → Int → Option Int} {alarms : Alarms τ} {now : Int}
    (nothing : ∀ a, alarms.head? = some a → now < a.2) : rings alarms now = [] ∧ ring again alarms now = alarms := by
  cases alarms with
  | nil => exact ⟨rfl, rfl⟩
  | cons a rest =>
    have late : ¬a.2 ≤ now := not_le.mpr (nothing a rfl)
    simp [ring, rings, setAgain, late]

end AlarmClock
