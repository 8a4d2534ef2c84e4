import Mathlib

/-! Buckets that double in number: the members of all buckets in order, what changes of
single buckets do to them, and the buckets a hash value passes as the mask shrinks. -/
namespace Buckets

section Members

variable {κ : Type*}

def gather (n : Nat) (bucket : Nat → List κ) : List κ := (List.range n).flatMap bucket

variable {n i : Nat} {bucket bucket' : Nat → List κ}

theorem memGather {x : κ} : x ∈ gather n bucket ↔ ∃ i < n, x ∈ bucket i := by
  simp [gather]

theorem gatherCongr (same : ∀ i < n, bucket' i = bucket i) : gather n bucket' = gather n bucket := by
  induction n with
  | zero => rfl
  | succ n ih =>
    have before := ih fun i below => same i (Nat.lt_succ_of_lt below)
    simp only [gather, List.range_succ, List.flatMap_append, List.flatMap_singleton] at before ⊢
    rw [before, same n (Nat.lt_succ_self n)]

theorem gatherEmptyAbove (larger : n ≤ i) (empty : ∀ j, n ≤ j → j < i → bucket j = []) : gather i bucket = gather n bucket := by
  induction i, larger using Nat.le_induction with
  | base => rfl
  | succ i larger ih =>
    have before := ih fun j low high => empty j low (Nat.lt_succ_of_lt high)
    simp only [gather, List.range_succ, List.flatMap_append, List.flatMap_singleton] at before ⊢
    rw [before, empty i larger (Nat.lt_succ_self i), List.append_nil]

theorem gatherOnly (inside : i < n) (empty : ∀ j, j ≠ i → bucket j = []) : gather n bucket = bucket i := by
  induction n with
  | zero => omega
  | succ n ih =>
    simp only [gather, List.range_succ, List.flatMap_append, List.flatMap_singleton]
    by_cases last : i = n
    · subst last
      have before : (List.range i).flatMap bucket = [] := by
        rw [List.flatMap_eq_nil_iff]
        exact fun j below => empty j (Nat.ne_of_lt (List.mem_range.mp below))
      rw [before, List.nil_append]
    · rw [empty n (Ne.symm last), List.append_nil]
      exact ih (by omega)

theorem gatherUpdate (inside : i < n) (xs : List κ) :
    (gather n (Function.update bucket i xs) ++ bucket i).Perm (gather n bucket ++ xs) := by
  induction n with
  | zero => omega
  | succ n ih =>
    simp only [gather, List.range_succ, List.flatMap_append, List.flatMap_singleton]
    by_cases last : i = n
    · subst last
      have same : (List.range i).flatMap (Function.update bucket i xs) = (List.range i).flatMap bucket :=
        gatherCongr fun j below => Function.update_of_ne (Nat.ne_of_lt below) _ _
      rw [same, Function.update_self, List.append_assoc, List.append_assoc]
      exact List.perm_append_comm.append_left _
    · rw [Function.update_of_ne (Ne.symm last), List.append_assoc, List.append_assoc]
      have before := ih (by omega)
      refine (List.perm_append_comm.append_left _).trans ?_
      rw [← List.append_assoc]
      refine (before.append_right _).trans ?_
      rw [List.append_assoc]
      exact List.perm_append_comm.append_left _

theorem gatherCons (inside : i < n) (x : κ) : (gather n (Function.update bucket i (x :: bucket i))).Perm (x :: gather n bucket) := by
  have changed : (gather n (Function.update bucket i (x :: bucket i)) ++ bucket i).Perm (gather n bucket ++ x :: bucket i) :=
    gatherUpdate inside (x :: bucket i)
  have moved : (gather n bucket ++ x :: bucket i).Perm (x :: gather n bucket ++ bucket i) := List.perm_middle
  exact (List.perm_append_right_iff _).mp (changed.trans moved)

variable [DecidableEq κ]

theorem gatherErase (distinct : (gather n bucket).Nodup) (x : κ) :
    gather n (fun i => (bucket i).erase x) = (gather n bucket).erase x := by
  have parts := (List.nodup_flatMap.mp distinct).1
  rw [distinct.erase_eq_filter, gather, gather, List.filter_flatMap]
  exact gatherCongr fun i below => (parts i (List.mem_range.mpr below)).erase_eq_filter x

end Members

section Homes

/- A member with hash value `h` belongs into the live bucket of the largest of the masks
`2 ^ k - 1`, .., `1`, `0`: no bucket of a larger one is live. -/
def Home (live : Nat → Prop) (k h i : Nat) : Prop :=
  ∃ j ≤ k, i = h % 2 ^ j ∧ ∀ j' ≤ k, j < j' → ¬ live (h % 2 ^ j')

variable {live live' : Nat → Prop} {k h i old : Nat}

theorem homeSelf : Home live k h (h % 2 ^ k) :=
  ⟨k, le_refl k, rfl, fun _ within beyond => absurd beyond (Nat.not_lt.mpr within)⟩

theorem modMod {j : Nat} (within : j ≤ k) : h % 2 ^ k % 2 ^ j = h % 2 ^ j :=
  Nat.mod_mod_of_dvd h (Nat.pow_dvd_pow 2 within)

theorem homeMod : Home live k (h % 2 ^ k) i ↔ Home live k h i := by
  constructor
  · rintro ⟨j, within, at_, dead⟩
    refine ⟨j, within, by rw [at_, modMod within], fun j' within' beyond => ?_⟩
    rw [← modMod within']
    exact dead j' within' beyond
  · rintro ⟨j, within, at_, dead⟩
    refine ⟨j, within, by rw [at_, modMod within], fun j' within' beyond => ?_⟩
    rw [modMod within']
    exact dead j' within' beyond

theorem homeLive (home : Home live k h i) (full : live (h % 2 ^ k)) : i = h % 2 ^ k := by
  obtain ⟨j, within, at_, dead⟩ := home
  rcases Nat.lt_or_eq_of_le within with below | whole
  · exact absurd full (dead k (le_refl k) below)
  · rw [at_, whole]

theorem homeUnique (first : Home live k h i) (second : Home live k h old) (live₁ : live i) (live₂ : live old) : i = old := by
  obtain ⟨a, within', at₁, dead₁⟩ := first
  obtain ⟨b, within, at₂, dead₂⟩ := second
  rcases Nat.lt_trichotomy a b with less | same | more
  · exact absurd (at₂ ▸ live₂) (dead₁ b within less)
  · rw [at₁, at₂, same]
  · exact absurd (at₁ ▸ live₁) (dead₂ a within' more)

theorem homeDouble (home : Home live k h i) (added : ∀ b, 2 ^ k ≤ b → ¬ live b) : Home live (k + 1) h i := by
  obtain ⟨j, within, at_, dead⟩ := home
  rcases Nat.lt_or_ge (h % 2 ^ (k + 1)) (2 ^ k) with low | high
  · have same : h % 2 ^ (k + 1) = h % 2 ^ k := by
      rw [← Nat.mod_eq_of_lt low, modMod (Nat.le_succ k)]
    rcases Nat.lt_or_eq_of_le within with below | whole
    · refine ⟨j, by omega, at_, fun j' within' beyond => ?_⟩
      rcases Nat.lt_or_eq_of_le within' with inside | last
      · exact dead j' (by omega) beyond
      · rw [last, same]
        exact dead k (le_refl k) below
    · exact ⟨k + 1, le_refl _, by rw [at_, whole, same], fun j' within' beyond => by omega⟩
  · refine ⟨j, by omega, at_, fun j' within' beyond => ?_⟩
    rcases Nat.lt_or_eq_of_le within' with inside | last
    · exact dead j' (by omega) beyond
    · rw [last]
      exact added _ high

theorem homeKept (source : live old) (made : ∀ b, live' b → ¬ live b → Home live k b old)
    (home : Home live k h i) (stays : live i) (apart : i ≠ old) : Home live' k h i := by
  obtain ⟨j, within, at_, dead⟩ := home
  refine ⟨j, within, at_, fun j' within' beyond alive => ?_⟩
  have fresh : ¬ live (h % 2 ^ j') := dead j' within' beyond
  obtain ⟨a, -, atOld, deadOld⟩ := made _ alive fresh
  have below : h % 2 ^ j' % 2 ^ j = i := by
    rw [at_]
    exact Nat.mod_mod_of_dvd h (Nat.pow_dvd_pow 2 (Nat.le_of_lt beyond))
  rcases Nat.lt_trichotomy a j with less | same | more
  · exact deadOld j within less (below ▸ stays)
  · exact apart (by rw [← below, atOld, same])
  · rcases Nat.lt_or_ge j' a with past | inside
    · have whole : h % 2 ^ j' % 2 ^ a = h % 2 ^ j' :=
        Nat.mod_eq_of_lt (Nat.lt_of_lt_of_le (Nat.mod_lt _ (Nat.two_pow_pos j')) (Nat.pow_le_pow_right (by decide) (Nat.le_of_lt past)))
      exact fresh (whole ▸ atOld ▸ source)
    · have between : h % 2 ^ j' % 2 ^ a = h % 2 ^ a := Nat.mod_mod_of_dvd h (Nat.pow_dvd_pow 2 inside)
      exact dead a (by omega) more (between ▸ atOld ▸ source)

end Homes

end Buckets
