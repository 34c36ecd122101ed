import Mathlib.Data.List.Induction
import Mathlib.Data.List.Sort
import Mathlib.Data.Nat.Bitwise
import Mathlib.Algebra.Order.Group.Nat

/-!
# Latency histograms

A sample falls into one of 256 buckets: four for the samples below 4, and four for
each power of two from 4 on. The buckets 4 to 7 are never used. The quantile scan
adds up the buckets until it has seen the wanted number of samples, and answers with
the lower bound of the bucket where it stops.

`Histogram` counts the operations of a benchmark, `Latency` those of an online run,
which also adds up the samples and keeps the largest.
-/
namespace CMVBT.LatencyHistogram

/-! ## Buckets -/

def leadingZeros (ns : ℕ) : ℕ := if ns = 0 then 64 else 63 - Nat.log2 ns

def bucketOf (ns : ℕ) : ℕ :=
  if ns < 4 then ns
  else
    let e := 63 - leadingZeros ns
    e * 4 + ((ns >>> (e - 2)) &&& 3)

/-- No value when the shift width underflows. -/
def lowerBound (idx : ℕ) : Option ℕ :=
  if idx < 4 then some idx
  else if idx / 4 < 2 then none
  else some (((4 + idx % 4) <<< (idx / 4 - 2)) % 2 ^ 64)

theorem bucketOf_small {ns : ℕ} (h : ns < 4) : bucketOf ns = ns := if_pos h

/-- A sample from 4 on by its power of two and the two bits that follow the leading one. -/
theorem bucketOf_large {ns : ℕ} (h : 4 ≤ ns) (hfits : ns < 2 ^ 64) :
    ∃ e d, 2 ≤ e ∧ e < 64 ∧ d < 4 ∧ bucketOf ns = 4 * e + d ∧
      (4 + d) * 2 ^ (e - 2) ≤ ns ∧ ns < (4 + d + 1) * 2 ^ (e - 2) := by
  have hne : ns ≠ 0 := by omega
  have hlow : 2 ≤ Nat.log2 ns := (Nat.le_log2 hne).mpr h
  have hhigh : Nat.log2 ns < 64 := (Nat.log2_lt hne).mpr hfits
  have he : 63 - leadingZeros ns = Nat.log2 ns := by
    rw [leadingZeros, if_neg hne]
    omega
  have hbit : 2 ^ Nat.log2 ns = 4 * 2 ^ (Nat.log2 ns - 2) := by
    rw [show (4 : ℕ) = 2 ^ 2 from rfl, ← pow_add]
    congr 1
    omega
  have hself := Nat.log2_self_le hne
  have hnext := Nat.lt_log2_self (n := ns)
  rw [pow_succ] at hnext
  have hpos : 0 < 2 ^ (Nat.log2 ns - 2) := Nat.two_pow_pos _
  -- the leading three bits
  have hge : 4 ≤ ns / 2 ^ (Nat.log2 ns - 2) := (Nat.le_div_iff_mul_le hpos).mpr (by omega)
  have hlt : ns / 2 ^ (Nat.log2 ns - 2) < 8 := (Nat.div_lt_iff_lt_mul hpos).mpr (by omega)
  refine ⟨Nat.log2 ns, ns / 2 ^ (Nat.log2 ns - 2) - 4, hlow, hhigh, by omega, ?_, ?_, ?_⟩
  · have hand : ns / 2 ^ (Nat.log2 ns - 2) &&& 3 = ns / 2 ^ (Nat.log2 ns - 2) % 4 :=
      Nat.and_two_pow_sub_one_eq_mod _ 2
    simp only [bucketOf, if_neg (Nat.not_lt.mpr h), he, Nat.shiftRight_eq_div_pow, hand]
    omega
  · rw [Nat.add_sub_cancel' hge]
    exact Nat.div_mul_le_self ns _
  · rw [Nat.add_sub_cancel' hge]
    exact Nat.lt_mul_of_div_lt (Nat.lt_succ_self _) hpos

theorem bucketOf_lt {ns : ℕ} (hfits : ns < 2 ^ 64) : bucketOf ns < 256 := by
  rcases Nat.lt_or_ge ns 4 with h | h
  · rw [bucketOf_small h]
    omega
  · obtain ⟨e, d, -, he, hd, heq, -, -⟩ := bucketOf_large h hfits
    omega

/-- A bucket that begins before another one ends comes first. -/
theorem place_le {e d e' d' : ℕ} (hd : d < 4) (hd' : d' < 4) (he : 2 ≤ e) (he' : 2 ≤ e')
    (hlt : (4 + d) * 2 ^ (e - 2) < (4 + d' + 1) * 2 ^ (e' - 2)) : 4 * e + d ≤ 4 * e' + d' := by
  rcases Nat.lt_trichotomy e e' with h | rfl | h
  · omega
  · have hd := Nat.lt_of_mul_lt_mul_right hlt
    omega
  · -- the other one ends at the next power of two or before it
    have hpow : 2 ^ (e' - 2 + 1) ≤ 2 ^ (e - 2) := Nat.pow_le_pow_right (by omega) (by omega)
    have hend : (4 + d' + 1) * 2 ^ (e' - 2) ≤ 4 * 2 ^ (e' - 2 + 1) := by
      rw [pow_succ, ← mul_assoc, mul_right_comm]
      exact Nat.mul_le_mul_right _ (by omega)
    have hbegin : 4 * 2 ^ (e' - 2 + 1) ≤ (4 + d) * 2 ^ (e - 2) := Nat.mul_le_mul (by omega) hpow
    omega

theorem bucketOf_mono {x y : ℕ} (hle : x ≤ y) (hfits : y < 2 ^ 64) : bucketOf x ≤ bucketOf y := by
  rcases Nat.lt_or_ge x 4 with hx | hx
  · rw [bucketOf_small hx]
    rcases Nat.lt_or_ge y 4 with hy | hy
    · rwa [bucketOf_small hy]
    · obtain ⟨e, d, he, -, -, heq, -, -⟩ := bucketOf_large hy hfits
      omega
  · obtain ⟨e, d, he, -, hd, heq, hlow, -⟩ := bucketOf_large hx (hle.trans_lt hfits)
    obtain ⟨e', d', he', -, hd', heq', -, hhigh⟩ := bucketOf_large (hx.trans hle) hfits
    rw [heq, heq']
    exact place_le hd hd' he he' (hlow.trans_lt (hle.trans_lt hhigh))

/-- `b` is the least sample of its bucket, and `x` is another one not far from it. -/
structure Approximates (b x : ℕ) : Prop where
  below : b ≤ x
  bucket : bucketOf b = bucketOf x
  least : ∀ y, bucketOf y = bucketOf x → y < 2 ^ 64 → b ≤ y
  exact : x < 4 → b = x
  zero : b = 0 → x = 0
  close : ∀ e, 2 ^ e ≤ b → b < 2 ^ (e + 1) → x < b + max 1 (2 ^ (e - 2))

/-- The value for which a bucket of a power of two stands. -/
theorem lowerBound_large {e d : ℕ} (he : 2 ≤ e) (hsmall : e < 64) (hd : d < 4) :
    lowerBound (4 * e + d) = some ((4 + d) * 2 ^ (e - 2)) := by
  have hdiv : (4 * e + d) / 4 = e := by omega
  have hmod : (4 * e + d) % 4 = d := by omega
  have hfits : (4 + d) * 2 ^ (e - 2) < 2 ^ 64 := by
    calc (4 + d) * 2 ^ (e - 2) < 8 * 2 ^ (e - 2) :=
          Nat.mul_lt_mul_of_pos_right (by omega) (Nat.two_pow_pos _)
      _ = 2 ^ (3 + (e - 2)) := by rw [pow_add]; rfl
      _ ≤ 2 ^ 64 := Nat.pow_le_pow_right (by omega) (by omega)
  rw [lowerBound, if_neg (by omega), hdiv, if_neg (by omega), hmod, Nat.shiftLeft_eq,
    Nat.mod_eq_of_lt hfits]

/-- A power of two between two others. -/
theorem pow_between {e e' d : ℕ} (hd : d < 4) (he : 2 ≤ e) (hlow : 2 ^ e' ≤ (4 + d) * 2 ^ (e - 2))
    (hhigh : (4 + d) * 2 ^ (e - 2) < 2 ^ (e' + 1)) : e' = e := by
  have hbit : 2 ^ e = 4 * 2 ^ (e - 2) := by
    rw [show (4 : ℕ) = 2 ^ 2 from rfl, ← pow_add]
    congr 1
    omega
  have hnext : 2 ^ (e + 1) = 8 * 2 ^ (e - 2) := by
    rw [pow_succ, hbit]
    omega
  have hlow' : 2 ^ e' < 2 ^ (e + 1) := by
    rw [hnext]
    exact hlow.trans_lt (Nat.mul_lt_mul_of_pos_right (by omega) (Nat.two_pow_pos _))
  have hhigh' : 2 ^ e < 2 ^ (e' + 1) := by
    rw [hbit]
    exact (Nat.mul_le_mul_right _ (by omega)).trans_lt hhigh
  have h := (Nat.pow_lt_pow_iff_right (by omega)).mp hlow'
  have h' := (Nat.pow_lt_pow_iff_right (by omega)).mp hhigh'
  omega

theorem lowerBound_bucketOf {x : ℕ} (hfits : x < 2 ^ 64) :
    ∃ b, lowerBound (bucketOf x) = some b ∧ Approximates b x := by
  rcases Nat.lt_or_ge x 4 with hx | hx
  · refine ⟨x, by rw [bucketOf_small hx, lowerBound, if_pos hx], le_rfl, rfl, ?_, fun _ => rfl,
      fun h => h, ?_⟩
    · intro y hy hyfits
      by_contra hlt
      rw [bucketOf_small hx, bucketOf_small (by omega)] at hy
      omega
    · intro e _ _
      exact Nat.lt_add_of_pos_right (Nat.lt_of_lt_of_le Nat.one_pos (le_max_left _ _))
  · obtain ⟨e, d, he, hsmall, hd, heq, hlow, hhigh⟩ := bucketOf_large hx hfits
    have hpos : 0 < 2 ^ (e - 2) := Nat.two_pow_pos _
    have hsplit : (4 + d + 1) * 2 ^ (e - 2) = (4 + d) * 2 ^ (e - 2) + 2 ^ (e - 2) :=
      Nat.succ_mul (4 + d) _
    have hfour : 4 ≤ (4 + d) * 2 ^ (e - 2) := Nat.le_trans (by omega) (Nat.le_mul_of_pos_right _ hpos)
    refine ⟨(4 + d) * 2 ^ (e - 2), by rw [heq, lowerBound_large he hsmall hd], hlow, ?_, ?_, ?_, ?_,
      ?_⟩
    · have hbfits : (4 + d) * 2 ^ (e - 2) < 2 ^ 64 := hlow.trans_lt hfits
      apply Nat.le_antisymm (bucketOf_mono hlow hfits)
      obtain ⟨e', d', he', -, hd', heq', -, hhigh'⟩ := bucketOf_large hfour hbfits
      rw [heq, heq']
      exact place_le hd hd' he he' hhigh'
    · intro y hy hyfits
      rcases Nat.lt_or_ge y 4 with hysmall | hylarge
      · rw [bucketOf_small hysmall] at hy
        omega
      · obtain ⟨e', d', -, -, hd', heq', hlow', -⟩ := bucketOf_large hylarge hyfits
        have hsame : e' = e ∧ d' = d := by omega
        rwa [hsame.1, hsame.2] at hlow'
    · omega
    · omega
    · intro e' hlow' hhigh'
      have hsame := pow_between hd he hlow' hhigh'
      subst hsame
      have hmax : 2 ^ (e' - 2) ≤ max 1 (2 ^ (e' - 2)) := le_max_right _ _
      omega

/-! ## Counting -/

/-- `self.buckets[idx] += 1`; no value when there is no such bucket. -/
def bump (buckets : List ℕ) (idx : ℕ) : Option (List ℕ) :=
  buckets[idx]?.map fun c => buckets.set idx (c + 1)

/-- `iter_mut().zip(..)`: buckets without a partner stay. -/
def mergeBuckets : List ℕ → List ℕ → List ℕ
  | a :: as, b :: bs => (a + b) :: mergeBuckets as bs
  | as, _ => as

/-- The first bucket with which `target` samples are seen. -/
def firstReaching (target : ℕ) : ℕ → ℕ → List ℕ → Option ℕ
  | _, _, [] => none
  | seen, idx, c :: rest =>
    if target ≤ seen + c then some idx else firstReaching target (seen + c) (idx + 1) rest

/-- The number of samples in each bucket. -/
def counts (samples : List ℕ) : List ℕ :=
  (List.range 256).map fun idx => samples.countP fun ns => bucketOf ns = idx

theorem counts_nil : counts [] = List.replicate 256 0 := by
  simp [counts, List.map_const']

theorem bump_counts (samples : List ℕ) {ns : ℕ} (hfits : ns < 2 ^ 64) :
    bump (counts samples) (bucketOf ns) = some (counts (samples ++ [ns])) := by
  have hidx := bucketOf_lt hfits
  have hget : (counts samples)[bucketOf ns]? =
      some (samples.countP fun other => bucketOf other = bucketOf ns) := by
    simp [counts, hidx]
  rw [bump, hget, Option.map_some, Option.some_inj]
  apply List.ext_getElem
  · simp [counts]
  · intro i hi hi'
    by_cases heq : bucketOf ns = i
    · subst heq
      simp [counts]
    · simp [counts, heq]

theorem mergeBuckets_map (f g : ℕ → ℕ) (idxs : List ℕ) :
    mergeBuckets (idxs.map f) (idxs.map g) = idxs.map fun idx => f idx + g idx := by
  induction idxs with
  | nil => rfl
  | cons idx rest ih => rw [List.map_cons, List.map_cons, mergeBuckets, ih, List.map_cons]

theorem mergeBuckets_counts (samples others : List ℕ) :
    mergeBuckets (counts samples) (counts others) = counts (samples ++ others) := by
  rw [counts, counts, mergeBuckets_map, counts]
  congr 1
  funext idx
  exact List.countP_append.symm

/-- The scan stops where the running sum reaches the target. -/
theorem firstReaching_finds {f g : ℕ → ℕ} (hsum : ∀ k, g (k + 1) = g k + f k) {target k : ℕ}
    (hbefore : g k < target) (hreached : target ≤ g (k + 1)) (n start : ℕ)
    (hstart : start ≤ k) (hk : k < start + n) :
    firstReaching target (g start) start ((List.range' start n).map f) = some k := by
  induction n generalizing start with
  | zero => omega
  | succ n ih =>
    rw [List.range'_succ, List.map_cons, firstReaching, ← hsum]
    rcases hstart.eq_or_lt with rfl | hlt
    · exact if_pos hreached
    · have hmono : Monotone g := monotone_nat_of_le_succ fun j => by
        rw [hsum]
        exact Nat.le_add_right _ _
      rw [if_neg (Nat.not_le.mpr ((hmono hlt).trans_lt hbefore))]
      exact ih (start + 1) hlt (by omega)

theorem countP_lt_succ (samples : List ℕ) (k : ℕ) :
    (samples.countP fun ns => bucketOf ns < k + 1) =
      (samples.countP fun ns => bucketOf ns < k) + samples.countP fun ns => bucketOf ns = k := by
  induction samples with
  | nil => rfl
  | cons ns rest ih =>
    simp only [List.countP_cons, ih, decide_eq_true_eq]
    split_ifs <;> omega

/-! ## The sample of a rank -/

/-- The `t`-th smallest sample. -/
def nthSmallest (samples : List ℕ) (t : ℕ) : Option ℕ :=
  (samples.insertionSort (· ≤ ·))[t - 1]?

/-- Fewer samples than its position are smaller, and more are not greater. -/
theorem countP_of_sorted {sorted : List ℕ} (hsorted : sorted.Pairwise (· ≤ ·)) {k x : ℕ}
    (hx : sorted[k]? = some x) :
    (sorted.countP fun y => y < x) ≤ k ∧ k < sorted.countP fun y => y ≤ x := by
  induction sorted generalizing k with
  | nil => simp at hx
  | cons y rest ih =>
    obtain ⟨hhead, htail⟩ := List.pairwise_cons.mp hsorted
    cases k with
    | zero =>
      obtain rfl : y = x := by simpa using hx
      have hnone : (rest.countP fun z => z < y) = 0 := by
        rw [List.countP_eq_zero]
        intro z hz
        simpa using hhead z hz
      simp [hnone]
    | succ k =>
      have hget : rest[k]? = some x := by simpa using hx
      have hle : y ≤ x := hhead x (List.mem_of_getElem? hget)
      obtain ⟨hlow, hhigh⟩ := ih htail hget
      simp only [List.countP_cons, decide_eq_true_eq, if_pos hle]
      split_ifs <;> omega

theorem nthSmallest_spec {samples : List ℕ} {t : ℕ} (ht : 1 ≤ t) (hlen : t ≤ samples.length) :
    ∃ x ∈ samples, nthSmallest samples t = some x ∧
      (samples.countP fun y => y < x) < t ∧ t ≤ samples.countP fun y => y ≤ x := by
  have hperm := List.perm_insertionSort (· ≤ ·) samples
  have hbound : t - 1 < (samples.insertionSort (· ≤ ·)).length := by
    rw [hperm.length_eq]
    omega
  obtain ⟨x, hx⟩ : ∃ x, (samples.insertionSort (· ≤ ·))[t - 1]? = some x :=
    ⟨_, List.getElem?_eq_getElem hbound⟩
  obtain ⟨hlow, hhigh⟩ := countP_of_sorted (List.pairwise_insertionSort (· ≤ ·) samples) hx
  rw [hperm.countP_eq] at hlow hhigh
  exact ⟨x, hperm.mem_iff.mp (List.mem_of_getElem? hx), hx, by omega, by omega⟩

/-- The scan for `t` stops in the bucket of the `t`-th smallest sample. -/
theorem firstReaching_counts {samples : List ℕ} (hfits : ∀ ns ∈ samples, ns < 2 ^ 64) {t x : ℕ}
    (hx : x ∈ samples) (hlow : (samples.countP fun y => y < x) < t)
    (hhigh : t ≤ samples.countP fun y => y ≤ x) :
    firstReaching t 0 0 (counts samples) = some (bucketOf x) := by
  have hbefore : (samples.countP fun ns => bucketOf ns < bucketOf x) < t := by
    refine (List.countP_mono_left ?_).trans_lt hlow
    intro y _ hy
    simp only [decide_eq_true_eq] at hy ⊢
    by_contra hle
    exact absurd (bucketOf_mono (Nat.le_of_not_lt hle) (hfits y ‹_›)) hy.not_ge
  have hreached : t ≤ samples.countP fun ns => bucketOf ns < bucketOf x + 1 := by
    refine hhigh.trans (List.countP_mono_left ?_)
    intro y _ hy
    simp only [decide_eq_true_eq] at hy ⊢
    exact Nat.lt_succ_of_le (bucketOf_mono hy (hfits x hx))
  have hstart : (samples.countP fun ns => bucketOf ns < 0) = 0 := by simp
  have h := firstReaching_finds (g := fun k => samples.countP fun ns => bucketOf ns < k)
    (countP_lt_succ samples) hbefore hreached 256 0 (Nat.zero_le _)
    (by rw [Nat.zero_add]; exact bucketOf_lt (hfits x hx))
  rw [hstart, ← List.range_eq_range'] at h
  exact h

/-! ## The histogram of a benchmark -/

structure Histogram where
  buckets : List ℕ
  count : ℕ
deriving DecidableEq, Repr

namespace Histogram

def new : Histogram := ⟨List.replicate (64 * 4) 0, 0⟩

def record (h : Histogram) (ns : ℕ) : Option Histogram :=
  (bump h.buckets (bucketOf ns)).map fun buckets => ⟨buckets, h.count + 1⟩

def merge (h other : Histogram) : Histogram :=
  ⟨mergeBuckets h.buckets other.buckets, h.count + other.count⟩

/-- `scaled` is `(self.count as f64 * q).ceil() as u64`. -/
def quantile (h : Histogram) (scaled : ℕ) : Option ℕ :=
  if h.count = 0 then some 0
  else
    match firstReaching (max scaled 1) 0 0 h.buckets with
    | some idx => lowerBound idx
    | none => some 0

def ofSamples (samples : List ℕ) : Option Histogram := samples.foldlM record new

theorem ofSamples_eq {samples : List ℕ} (hfits : ∀ ns ∈ samples, ns < 2 ^ 64) :
    ofSamples samples = some ⟨counts samples, samples.length⟩ := by
  induction samples using List.reverseRecOn with
  | nil =>
    rw [counts_nil]
    rfl
  | append_singleton samples ns ih =>
    have hinit := ih fun other hother => hfits other (List.mem_append_left _ hother)
    have hlast : ns < 2 ^ 64 := hfits ns (by simp)
    rw [ofSamples] at hinit ⊢
    rw [List.foldlM_append, hinit]
    simp [record, bump_counts samples hlast]

end Histogram

/-! ## The latencies of an online run -/

structure Latency where
  buckets : List ℕ
  count : ℕ
  totalNs : ℕ
  maxNs : ℕ
deriving DecidableEq, Repr

namespace Latency

def new : Latency := ⟨List.replicate 256 0, 0, 0, 0⟩

def record (l : Latency) (ns : ℕ) : Option Latency :=
  (bump l.buckets (bucketOf ns)).map fun buckets =>
    ⟨buckets, l.count + 1, l.totalNs + ns, max l.maxNs ns⟩

def merge (l other : Latency) : Latency :=
  ⟨mergeBuckets l.buckets other.buckets, l.count + other.count, l.totalNs + other.totalNs,
    max l.maxNs other.maxNs⟩

def quantile (l : Latency) (scaled : ℕ) : Option ℕ :=
  if l.count = 0 then some 0
  else
    match firstReaching (max scaled 1) 0 0 l.buckets with
    | some idx => lowerBound idx
    | none => some l.maxNs

def ofSamples (samples : List ℕ) : Option Latency := samples.foldlM record new

theorem ofSamples_eq {samples : List ℕ} (hfits : ∀ ns ∈ samples, ns < 2 ^ 64) :
    ofSamples samples =
      some ⟨counts samples, samples.length, samples.sum, samples.foldl max 0⟩ := by
  induction samples using List.reverseRecOn with
  | nil =>
    rw [counts_nil]
    rfl
  | append_singleton samples ns ih =>
    have hinit := ih fun other hother => hfits other (List.mem_append_left _ hother)
    have hlast : ns < 2 ^ 64 := hfits ns (by simp)
    rw [ofSamples] at hinit ⊢
    rw [List.foldlM_append, hinit]
    simp [record, bump_counts samples hlast]

theorem foldl_max_append (samples others : List ℕ) :
    (samples ++ others).foldl max 0 = max (samples.foldl max 0) (others.foldl max 0) := by
  have h : others.foldl max (max (samples.foldl max 0) 0) =
      max (samples.foldl max 0) (others.foldl max 0) := List.foldl_assoc
  rwa [Nat.max_zero, ← List.foldl_append] at h

end Latency

/-! ## Both -/

/-- Both answer with the lower bound of the bucket that the scan stops in. -/
theorem quantile_found {samples : List ℕ} {t idx : ℕ} (hne : samples ≠ []) (ht : 1 ≤ t)
    (hscan : firstReaching t 0 0 (counts samples) = some idx) (total largest : ℕ) :
    Histogram.quantile ⟨counts samples, samples.length⟩ t = lowerBound idx ∧
      Latency.quantile ⟨counts samples, samples.length, total, largest⟩ t = lowerBound idx := by
  have hlen : samples.length ≠ 0 := fun h => hne (List.length_eq_zero_iff.mp h)
  have hmax : max t 1 = t := max_eq_left ht
  constructor
  · simp only [Histogram.quantile, if_neg hlen, hmax, hscan]
  · simp only [Latency.quantile, if_neg hlen, hmax, hscan]

theorem histograms_sound {samples others : List ℕ} (hsamples : ∀ ns ∈ samples, ns < 2 ^ 64)
    (hothers : ∀ ns ∈ others, ns < 2 ^ 64) :
    (∀ ns, ns < 2 ^ 64 → bucketOf ns < 256) ∧
    (∀ x y, x ≤ y → y < 2 ^ 64 → bucketOf x ≤ bucketOf y) ∧
    ∃ h other : Histogram, ∃ l more : Latency,
      Histogram.ofSamples samples = some h ∧ Histogram.ofSamples others = some other ∧
      Latency.ofSamples samples = some l ∧ Latency.ofSamples others = some more ∧
      Histogram.ofSamples (samples ++ others) = some (h.merge other) ∧
      Latency.ofSamples (samples ++ others) = some (l.merge more) ∧
      ∀ t, 1 ≤ t → t ≤ h.count → ∃ x b, nthSmallest samples t = some x ∧
        h.quantile t = some b ∧ l.quantile t = some b ∧ lowerBound (bucketOf x) = some b ∧
        Approximates b x := by
  have hall : ∀ ns ∈ samples ++ others, ns < 2 ^ 64 := fun ns hns =>
    (List.mem_append.mp hns).elim (hsamples ns) (hothers ns)
  refine ⟨fun ns => bucketOf_lt, fun x y => bucketOf_mono, _, _, _, _,
    Histogram.ofSamples_eq hsamples, Histogram.ofSamples_eq hothers,
    Latency.ofSamples_eq hsamples, Latency.ofSamples_eq hothers, ?_, ?_, ?_⟩
  · rw [Histogram.ofSamples_eq hall, Histogram.merge, mergeBuckets_counts, List.length_append]
  · rw [Latency.ofSamples_eq hall, Latency.merge, mergeBuckets_counts, List.length_append,
      List.sum_append, Latency.foldl_max_append]
  · intro t ht hlen
    obtain ⟨x, hx, hnth, hlow, hhigh⟩ := nthSmallest_spec ht hlen
    obtain ⟨b, hb, happrox⟩ := lowerBound_bucketOf (hsamples x hx)
    have hscan := firstReaching_counts hsamples hx hlow hhigh
    obtain ⟨hh, hl⟩ := quantile_found (List.ne_nil_of_mem hx) ht hscan samples.sum
      (samples.foldl max 0)
    exact ⟨x, b, hnth, hh.trans hb, hl.trans hb, hb, happrox⟩

/-- The median of three samples comes out as the lower bound of its bucket. -/
theorem histograms_sound_three : ∃ h x b, Histogram.ofSamples [7, 1000, 2] = some h ∧
    nthSmallest [7, 1000, 2] 2 = some x ∧ h.quantile 2 = some b ∧ Approximates b x := by
  have hsamples : ∀ ns ∈ [7, 1000, 2], ns < 2 ^ 64 := by decide
  have hothers : ∀ ns ∈ ([] : List ℕ), ns < 2 ^ 64 := by decide
  obtain ⟨-, -, h, -, l, -, hh, -, -, -, -, -, hall⟩ := histograms_sound hsamples hothers
  have hcount : h.count = 3 := by
    rw [Histogram.ofSamples_eq (by decide)] at hh
    rw [← Option.some.inj hh]
    rfl
  obtain ⟨x, b, hx, hb, -, -, happrox⟩ := hall 2 (by decide) (by omega)
  exact ⟨h, x, b, hh, hx, hb, happrox⟩

end CMVBT.LatencyHistogram
