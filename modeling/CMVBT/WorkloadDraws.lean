import CMVBT.ScrambledRanks
import CMVBT.WordPermutation

/-!
# Random draws of the workloads

The generator of the drivers and the chooser that folds the rank it draws onto the
window of live keys. The samplers of the skewed distributions compute in floating
point; they are a parameter, as is the share of the keys that are hot, and the
chooser stays in the window whatever they draw.
-/
namespace CMVBT.WorkloadDraws
open ScrambledRanks WordPermutation

/-! ## The generator -/

/-- The state of xoshiro256**. -/
structure Rng where
  s0 : UInt64
  s1 : UInt64
  s2 : UInt64
  s3 : UInt64
deriving DecidableEq, Repr

/-- The output function of SplitMix64. -/
def splitMix (z : UInt64) : UInt64 :=
  let x := (z ^^^ (z >>> 30)) * 0xBF58476D1CE4E5B9
  let x := (x ^^^ (x >>> 27)) * 0x94D049BB133111EB
  x ^^^ (x >>> 31)

def Rng.new (seed : UInt64) : Rng :=
  let z₀ := seed + 0x9E3779B97F4A7C15
  let z₁ := z₀ + 0x9E3779B97F4A7C15
  let z₂ := z₁ + 0x9E3779B97F4A7C15
  let z₃ := z₂ + 0x9E3779B97F4A7C15
  ⟨splitMix z₀, splitMix z₁, splitMix z₂, splitMix z₃⟩

def rotateLeft (x k : UInt64) : UInt64 := (x <<< k) ||| (x >>> (64 - k))

def Rng.nextU64 (rng : Rng) : UInt64 × Rng :=
  let result := rotateLeft (rng.s1 * 5) 7 * 9
  let t := rng.s1 <<< 17
  let s2 := rng.s2 ^^^ rng.s0
  let s3 := rng.s3 ^^^ rng.s1
  let s1 := rng.s1 ^^^ s2
  let s0 := rng.s0 ^^^ s3
  let s2 := s2 ^^^ t
  let s3 := rotateLeft s3 45
  (result, ⟨s0, s1, s2, s3⟩)

/-- A number below `n`; the product is one of 128 bits. -/
def Rng.below (rng : Rng) (n : ℕ) : ℕ × Rng :=
  (rng.nextU64.1.toNat * n / 2 ^ 64, rng.nextU64.2)

theorem Rng.below_lt (rng : Rng) {n : ℕ} (h : 0 < n) : (rng.below n).1 < n := by
  unfold Rng.below
  apply Nat.div_lt_of_lt_mul
  exact Nat.mul_lt_mul_of_pos_right rng.nextU64.1.toNat_lt h

/-! ## Keys -/

/-- What the code computes in floating point: `ZipfParams::sample`, the number of
hot keys and the draw that decides for them. -/
structure Sampler where
  zipf : Rng → ℕ × Rng
  hot : ℕ
  isHot : Rng → Bool × Rng

inductive Dist where
  | uniform
  | zipfian
  | latest
  | hotspot
deriving DecidableEq, Repr

structure KeyChooser where
  dist : Dist
  records : ℕ
  sampler : Sampler
  scramble : Option Scramble

/-- The id of a rank. -/
def KeyChooser.idOf (chooser : KeyChooser) (rank : ℕ) : ℕ :=
  match chooser.scramble with
  | some s => s.apply rank
  | none => rank

/-- A key of the window `[lo, hi]`. -/
def KeyChooser.next (chooser : KeyChooser) (rng : Rng) (lo hi : ℕ) : ℕ × Rng :=
  let window := hi - lo + 1
  match chooser.dist with
  | .uniform =>
    let (key, rng) := rng.below window
    (lo + key, rng)
  | .zipfian =>
    let (rank, rng) := chooser.sampler.zipf rng
    (lo + chooser.idOf rank % window, rng)
  | .latest =>
    let (back, rng) := chooser.sampler.zipf rng
    (hi - min back (window - 1), rng)
  | .hotspot =>
    let (isHot, rng) := chooser.sampler.isHot rng
    let (rank, rng) :=
      if isHot then rng.below chooser.sampler.hot
      else
        let (cold, rng) := rng.below (max (chooser.records - chooser.sampler.hot) 1)
        (chooser.sampler.hot + cold, rng)
    (lo + chooser.idOf rank % window, rng)

/-- Every key that is chosen lies in the window. -/
theorem KeyChooser.next_mem (chooser : KeyChooser) (rng : Rng) {lo hi : ℕ} (h : lo ≤ hi) :
    lo ≤ (chooser.next rng lo hi).1 ∧ (chooser.next rng lo hi).1 ≤ hi := by
  have hfold : ∀ rank, lo ≤ lo + chooser.idOf rank % (hi - lo + 1) ∧
      lo + chooser.idOf rank % (hi - lo + 1) ≤ hi := by
    intro rank
    have : chooser.idOf rank % (hi - lo + 1) < hi - lo + 1 := Nat.mod_lt _ (Nat.succ_pos _)
    omega
  unfold KeyChooser.next
  cases chooser.dist with
  | uniform =>
    have := rng.below_lt (Nat.succ_pos (hi - lo))
    simp only [Nat.succ_eq_add_one] at this ⊢
    omega
  | zipfian => exact hfold _
  | latest =>
    simp only
    omega
  | hotspot =>
    simp only
    split_ifs
    · exact hfold _
    · exact hfold _

end CMVBT.WorkloadDraws
