import Mathlib

/-! Paths of single links. A link is read at a place, and every node has a place of its own;
other places (the head of a list) only begin paths. -/
namespace LinkedPath

variable {α π : Type*} (place : α → π)

def Path (next : π → Option α) : π → List α → Option α → Prop
  | p, [], stop => next p = stop
  | p, x :: xs, stop => next p = some x ∧ Path next (place x) xs stop

def lastPlace (p : π) : List α → π
  | [] => p
  | x :: xs => lastPlace (place x) xs

variable {place} {next next' : π → Option α} {p : π} {xs ys : List α} {stop stop' : Option α}

theorem lastPlaceMember : lastPlace place p xs ∈ p :: xs.map place := by
  induction xs generalizing p with
  | nil => exact List.mem_cons_self
  | cons x xs ih => exact List.mem_cons_of_mem _ ih

@[simp]
theorem lastPlaceAppend : lastPlace place p (xs ++ ys) = lastPlace place (lastPlace place p xs) ys := by
  induction xs generalizing p with
  | nil => rfl
  | cons x xs ih => exact ih

theorem lastPlaceLast {x : α} (last : xs.getLast? = some x) : lastPlace place p xs = place x := by
  obtain ⟨init, rfl⟩ := List.getLast?_eq_some_iff.mp last
  rw [lastPlaceAppend]
  rfl

theorem Path.congr (path : Path place next p xs stop) (same : ∀ q ∈ p :: xs.map place, next' q = next q) :
    Path place next' p xs stop := by
  induction xs generalizing p with
  | nil => exact (same p List.mem_cons_self).trans path
  | cons x xs ih =>
    exact ⟨(same p List.mem_cons_self).trans path.1, ih path.2 fun q member => same q (List.mem_cons_of_mem _ member)⟩

theorem Path.moved (path : Path place next p xs stop) {q : π} (begins : next' q = next p)
    (same : ∀ r ∈ xs.map place, next' r = next r) : Path place next' q xs stop := by
  cases xs with
  | nil => exact begins.trans path
  | cons x xs => exact ⟨begins.trans path.1, path.2.congr same⟩

theorem Path.first (path : Path place next p xs stop) : next p = xs.head?.or stop := by
  cases xs with
  | nil => exact path
  | cons x xs => exact path.1

theorem Path.ends (path : Path place next p xs stop) : next (lastPlace place p xs) = stop := by
  induction xs generalizing p with
  | nil => exact path
  | cons x xs ih => exact ih path.2

theorem pathAppend : Path place next p (xs ++ ys) stop ↔
    Path place next p xs (ys.head?.or stop) ∧ Path place next (lastPlace place p xs) ys stop := by
  induction xs generalizing p with
  | nil => exact ⟨fun path => ⟨path.first, path⟩, fun both => both.2⟩
  | cons x xs ih => exact (and_congr_right fun _ => ih).trans and_assoc.symm

theorem pathCons {x : α} : Path place next p (xs ++ x :: ys) stop ↔
    Path place next p xs (some x) ∧ Path place next (place x) ys stop := by
  rw [pathAppend]
  exact ⟨fun both => ⟨both.1, both.2.2⟩, fun both => ⟨both.1, both.1.ends, both.2⟩⟩

variable [DecidableEq π]

theorem Path.redirect (path : Path place next p xs stop) (distinct : (p :: xs.map place).Nodup) (stop' : Option α) :
    Path place (Function.update next (lastPlace place p xs) stop') p xs stop' := by
  induction xs generalizing p with
  | nil => exact Function.update_self ..
  | cons x xs ih =>
    obtain ⟨outside, distinct⟩ := List.nodup_cons.mp distinct
    refine ⟨?_, ih path.2 distinct⟩
    have apart : p ≠ lastPlace place (place x) xs := fun same => outside (same ▸ lastPlaceMember)
    rw [lastPlace, Function.update_of_ne apart]
    exact path.1

theorem Path.unchanged (path : Path place next p xs stop) {q : π} (outside : q ∉ p :: xs.map place) (value : Option α) :
    Path place (Function.update next q value) p xs stop :=
  path.congr fun r member => Function.update_of_ne (fun same : r = q => outside (same ▸ member)) ..

end LinkedPath
