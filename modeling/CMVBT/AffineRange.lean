import Mathlib.Data.List.Range
import Mathlib.Data.List.NodupEquivFin
import Mathlib.Data.Nat.ModEq
import Mathlib.Algebra.Order.Ring.Nat

/-!
# Affine maps on a range

For a factor that is coprime to `n`, the map `i ↦ (i * a + b) % n` permutes the
numbers below `n`. Counting the images by their value is then counting the numbers.
-/
namespace CMVBT.AffineRange

def affine (a b n i : ℕ) : ℕ := (i * a + b) % n

section Affine
variable {a b n : ℕ}

theorem affine_lt (hn : 0 < n) (i : ℕ) : affine a b n i < n := Nat.mod_lt _ hn

theorem affine_injOn (ha : Nat.Coprime a n) {i j : ℕ} (hi : i < n) (hj : j < n)
    (h : affine a b n i = affine a b n j) : i = j := by
  have hsum : i * a + b ≡ j * a + b [MOD n] := h
  have hmul : i * a ≡ j * a [MOD n] := Nat.ModEq.add_right_cancel' b hsum
  have hmod : i ≡ j [MOD n] := Nat.ModEq.cancel_right_of_coprime ha.symm hmul
  exact Nat.ModEq.eq_of_lt_of_lt hmod hi hj

theorem map_affine_perm (hn : 0 < n) (ha : Nat.Coprime a n) (b : ℕ) :
    ((List.range n).map (affine a b n)).Perm (List.range n) := by
  have hnodup : ((List.range n).map (affine a b n)).Nodup := by
    refine List.Nodup.map_on ?_ List.nodup_range
    intro i hi j hj h
    exact affine_injOn ha (List.mem_range.mp hi) (List.mem_range.mp hj) h
  refine List.Subperm.perm_of_length_le (List.subperm_of_subset hnodup ?_) (by simp)
  intro k hk
  obtain ⟨i, -, rfl⟩ := List.mem_map.mp hk
  exact List.mem_range.mpr (affine_lt hn i)

/-- As many images satisfy a test as numbers below `n` do. -/
theorem countP_affine (hn : 0 < n) (ha : Nat.Coprime a n) (b : ℕ) (p : ℕ → Bool) :
    (List.range n).countP (fun i => p (affine a b n i)) = (List.range n).countP p := by
  rw [← (map_affine_perm hn ha b).countP_eq p, List.countP_map]
  rfl

end Affine

theorem countP_between (lo hi n : ℕ) :
    (List.range n).countP (fun i => decide (lo ≤ i ∧ i < hi)) = min n hi - lo := by
  induction n with
  | zero => simp
  | succ n ih =>
    rw [List.range_succ, List.countP_append, ih, List.countP_singleton]
    by_cases h : lo ≤ n ∧ n < hi
    · rw [if_pos (by simpa using h)]
      omega
    · rw [if_neg (by simpa using h)]
      omega

end CMVBT.AffineRange
