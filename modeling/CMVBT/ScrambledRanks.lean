import CMVBT.AffineRange
import Mathlib.Data.Nat.GCD.Basic
import Mathlib.Data.Set.Function

/-!
# Ranks of a skewed workload, scrambled

The workload draws ranks, the hottest first, and maps them to keys by `i * a + b`
modulo the number of records. The factor is searched for from a start value that
comes from a float product, in steps of two through the odd numbers.
-/
namespace CMVBT.ScrambledRanks
open AffineRange

def gcd (a b : ℕ) : ℕ := if b = 0 then a else gcd b (a % b)
termination_by b
decreasing_by exact Nat.mod_lt a (Nat.pos_of_ne_zero ‹_›)

theorem gcd_eq (a b : ℕ) : gcd a b = Nat.gcd a b := by
  induction a, b using gcd.induct with
  | case1 a =>
    rw [gcd, if_pos rfl, Nat.gcd_zero_right]
  | case2 a b hb ih =>
    rw [gcd, if_neg hb, ih, Nat.gcd_comm b, ← Nat.gcd_rec b a, Nat.gcd_comm]

/-- What stops the search before it has found a factor. -/
inductive Stop where
  | overflow
  | outOfFuel
deriving DecidableEq, Repr

/-- `while gcd(a, n) != 1 { a += 2 }` -/
def search (n : ℕ) : ℕ → ℕ → Except Stop ℕ
  | 0, _ => .error .outOfFuel
  | fuel + 1, a =>
    if gcd a n ≠ 1 then
      if a + 2 < 2 ^ 64 then search n fuel (a + 2) else .error .overflow
    else
      .ok a

structure Scramble where
  n : ℕ
  a : ℕ
  b : ℕ
deriving DecidableEq, Repr

/-- `scaled` is `(n as f64 * 0.6180339887) as u64`. -/
def Scramble.new (fuel n scaled : ℕ) : Except Stop Scramble :=
  (search n fuel (scaled ||| 1)).map fun a => ⟨n, a, n / 3⟩

/-- The product of two `u64` and a third one fit in `u128`. -/
def Scramble.apply (s : Scramble) (rank : ℕ) : ℕ := (rank * s.a + s.b) % s.n

theorem apply_fits {s : Scramble} {rank : ℕ} (ha : s.a < 2 ^ 64) (hb : s.b < 2 ^ 64)
    (hrank : rank < 2 ^ 64) : rank * s.a + s.b < 2 ^ 128 := by
  have hmul : rank * s.a ≤ (2 ^ 64 - 1) * (2 ^ 64 - 1) := Nat.mul_le_mul (by omega) (by omega)
  omega

/-- One of the next two numbers after `n` is odd, and it has no factor in common with `n`. -/
theorem exists_odd_coprime (n : ℕ) : ∃ c, n < c ∧ c ≤ n + 2 ∧ c % 2 = 1 ∧ Nat.Coprime c n := by
  rcases Nat.mod_two_eq_zero_or_one n with heven | hodd
  · refine ⟨n + 1, Nat.lt_succ_self n, by omega, by omega, ?_⟩
    exact Nat.coprime_self_add_left.mpr (Nat.coprime_one_left n)
  · refine ⟨n + 2, by omega, le_rfl, by omega, ?_⟩
    have htwo : Nat.Coprime 2 n := by
      rw [Nat.Coprime, Nat.gcd_rec, hodd]
      rfl
    exact Nat.coprime_self_add_left.mpr htwo

/-- An odd number with no common factor ahead of `a` stops the search, at the latest there. -/
theorem search_finds {n c : ℕ} (hc : Nat.Coprime c n) (hsmall : c < 2 ^ 64) (hodd : c % 2 = 1)
    (fuel a : ℕ) (ha : a % 2 = 1) (hle : a ≤ c) (hfuel : c < a + 2 * fuel) :
    ∃ a', (∀ more, search n (fuel + more) a = .ok a') ∧ a' ≤ c ∧ Nat.Coprime a' n := by
  induction fuel generalizing a with
  | zero => omega
  | succ fuel ih =>
    by_cases hgcd : gcd a n = 1
    · refine ⟨a, ?_, hle, ?_⟩
      · intro more
        rw [Nat.add_right_comm, search, if_neg (not_not.mpr hgcd)]
      · rwa [gcd_eq] at hgcd
    · -- `c` is not `a`, and both are odd
      have hne : a ≠ c := by
        rintro rfl
        exact hgcd ((gcd_eq a n).trans hc)
      have hnext : a + 2 ≤ c := by omega
      obtain ⟨a', hfound, hle', hcop⟩ := ih (a + 2) (by omega) hnext (by omega)
      refine ⟨a', ?_, hle', hcop⟩
      intro more
      rw [Nat.add_right_comm, search, if_pos hgcd, if_pos (hnext.trans_lt hsmall)]
      exact hfound more

theorem or_one_odd (a : ℕ) : (a ||| 1) % 2 = 1 := by
  have h := Nat.or_mod_two_pow (a := a) (b := 1) (n := 1)
  rw [pow_one] at h
  rw [h]
  rcases Nat.mod_two_eq_zero_or_one a with h | h <;> rw [h] <;> rfl

theorem new_finds {n scaled : ℕ} (hn : 1 ≤ n) (hsmall : n < 2 ^ 62)
    (hstart : scaled ||| 1 ≤ n + 1) :
    ∃ a, (∀ fuel, n < fuel → Scramble.new fuel n scaled = .ok ⟨n, a, n / 3⟩) ∧
      a ≤ n + 2 ∧ Nat.Coprime a n := by
  obtain ⟨c, hlt, hle, hodd, hcop⟩ := exists_odd_coprime n
  have hstartOdd := or_one_odd scaled
  obtain ⟨a, hfound, hbound, hacop⟩ := search_finds hcop (by omega) hodd (n + 1) (scaled ||| 1)
    hstartOdd (by omega) (by omega)
  refine ⟨a, ?_, hbound.trans hle, hacop⟩
  intro fuel hfuel
  obtain ⟨more, rfl⟩ := Nat.exists_eq_add_of_le hfuel
  rw [Scramble.new, hfound more]
  rfl

/-- The image of the ranks is the set of keys. -/
theorem apply_bijOn {s : Scramble} (hn : 0 < s.n) (ha : Nat.Coprime s.a s.n) :
    Set.BijOn s.apply (Set.Iio s.n) (Set.Iio s.n) := by
  refine ⟨fun rank _ => affine_lt hn rank, ?_, ?_⟩
  · intro i hi j hj heq
    exact affine_injOn ha hi hj heq
  · intro key hkey
    have hmem := (map_affine_perm hn ha s.b).mem_iff.mpr (List.mem_range.mpr hkey)
    obtain ⟨rank, hrank, heq⟩ := List.mem_map.mp hmem
    exact ⟨rank, List.mem_range.mp hrank, heq⟩

/-- The search ends without overflow, and the scrambled ranks are all keys, each once. -/
theorem scramble_permutes_ranks {n scaled : ℕ} (hn : 1 ≤ n) (hsmall : n < 2 ^ 62)
    (hstart : scaled ||| 1 ≤ n + 1) :
    ∃ s : Scramble, (∀ fuel, n < fuel → Scramble.new fuel n scaled = .ok s) ∧
      s.n = n ∧ gcd s.a n = 1 ∧ Set.BijOn s.apply (Set.Iio n) (Set.Iio n) := by
  obtain ⟨a, hnew, -, hcop⟩ := new_finds hn hsmall hstart
  refine ⟨⟨n, a, n / 3⟩, hnew, rfl, (gcd_eq a n).trans hcop, ?_⟩
  exact apply_bijOn (s := ⟨n, a, n / 3⟩) hn hcop

/-- Here the first two candidates, 5 and 7, have a factor in common with the number of records. -/
theorem scramble_permutes_ranks_thirty_five :
    (4 ||| 1 = 5 ∧ Nat.gcd 5 35 = 5 ∧ Nat.gcd 7 35 = 7) ∧
      ∃ s : Scramble, (∀ fuel, 35 < fuel → Scramble.new fuel 35 4 = .ok s) ∧
        s.n = 35 ∧ gcd s.a 35 = 1 ∧ Set.BijOn s.apply (Set.Iio 35) (Set.Iio 35) :=
  ⟨by decide, scramble_permutes_ranks (by decide) (by decide) (by decide)⟩

end CMVBT.ScrambledRanks
