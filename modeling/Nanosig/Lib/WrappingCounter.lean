import Mathlib

/-! Counters kept modulo `m`, compared through their wrapped difference. Each
counter represents an unbounded position; the difference of two positions less
than one lap apart is recovered exactly from the wrapped values. -/
namespace WrappingCounter

def diff (m a b : Nat) : Nat := (a + (m - b)) % m

theorem diffExact {m a b : Nat} (order : b ≤ a) (lap : a - b < m) :
    diff m (a % m) (b % m) = a - b := by
  have positive : 0 < m := by omega
  have small := Nat.mod_lt b positive
  have exact : (a % m + (m - b % m)) % m = (a - b) % m := by
    have left : (a % m + (m - b % m)) ≡ a - b [MOD m] := by
      have base : a % m + (m - b % m) + b ≡ (a - b) + b [MOD m] := by
        have split : a % m + (m - b % m) + b = a % m + m + (b - b % m) := by
          have := Nat.mod_le b m
          omega
        rw [split, Nat.sub_add_cancel order]
        have lapped : m ∣ b - b % m := Nat.dvd_sub_mod b
        have zero : b - b % m ≡ 0 [MOD m] := (Nat.modEq_zero_iff_dvd).mpr lapped
        calc a % m + m + (b - b % m) ≡ a + 0 + 0 [MOD m] :=
              ((Nat.mod_modEq a m).add ((Nat.modEq_zero_iff_dvd).mpr dvd_rfl)).add zero
          _ = a := by ring
      exact Nat.ModEq.add_right_cancel' b base
    exact left
  unfold diff
  rw [exact, Nat.mod_eq_of_lt lap]

/- A position behind the one it is subtracted from shows as almost a full lap. -/
theorem diffBehind {m a b : Nat} (order : a < b) (lap : b - a < m) :
    diff m (a % m) (b % m) = m - (b - a) := by
  have shifted : (a + m) % m = a % m := Nat.add_mod_right a m
  have exact := diffExact (m := m) (a := a + m) (b := b) (by omega) (by omega)
  rw [shifted] at exact
  rw [exact]
  omega

theorem diffLt {m : Nat} (positive : 0 < m) (a b : Nat) : diff m a b < m :=
  Nat.mod_lt _ positive

theorem diffSelf {m a : Nat} (small : a < m) : diff m a a = 0 := by
  have whole : a + (m - a) = m := by omega
  simp [diff, whole]

theorem sameOfModEq {m a b : Nat} (order : b ≤ a) (lap : a < b + m) (same : a % m = b % m) :
    a = b := by
  have exact := diffExact order (by omega : a - b < m)
  rw [same, diffSelf (Nat.mod_lt b (by omega))] at exact
  omega

def signedDiff (m a b : Nat) : Int :=
  if 2 * diff m a b < m then diff m a b else (diff m a b : Int) - m

theorem signedDiffRange {m : Nat} (positive : 0 < m) (a b : Nat) :
    -(m : Int) ≤ 2 * signedDiff m a b ∧ 2 * signedDiff m a b < m := by
  have small := diffLt positive a b
  unfold signedDiff
  split <;> omega

theorem signedDiffMod {m a b : Nat} (small : b ≤ m) : ∃ k : Int, signedDiff m a b = a - b + k * m := by
  have whole := Nat.div_add_mod (a + (m - b)) m
  have shifted : (diff m a b : Int) = a - b + (1 - ((a + (m - b)) / m : Nat)) * m := by
    have cast : (m : Int) * ((a + (m - b)) / m : Nat) + (diff m a b : Nat) = a + (m - b) := by
      rw [← Nat.cast_sub small, diff]
      exact_mod_cast whole
    linarith
  unfold signedDiff
  split
  · exact ⟨_, shifted⟩
  · exact ⟨-((a + (m - b)) / m : Nat), by rw [shifted]; ring⟩

theorem signedDiffUnique {m a b : Nat} {x k : Int} (positive : 0 < m) (small : b ≤ m)
    (congruent : x = a - b + k * m) (low : -(m : Int) ≤ 2 * x) (high : 2 * x < m) : signedDiff m a b = x := by
  obtain ⟨j, same⟩ := signedDiffMod (a := a) small
  obtain ⟨low', high'⟩ := signedDiffRange positive a b
  have apart : signedDiff m a b - x = (j - k) * m := by
    rw [same, congruent]
    ring
  have none : j - k = 0 := by
    by_contra other
    rcases lt_or_gt_of_ne other with negative | positive'
    · have : (j - k) * (m : Int) ≤ -1 * m := Int.mul_le_mul_of_nonneg_right (by omega) (by omega)
      omega
    · have : 1 * (m : Int) ≤ (j - k) * m := Int.mul_le_mul_of_nonneg_right (by omega) (by omega)
      omega
  rw [none, Int.zero_mul] at apart
  omega

end WrappingCounter
