import Mathlib.Order.MinMax
import Mathlib.Tactic.Order

/-!
# Key intervals and key spaces

`Interval` is the closed key range used both as the argument of a range query
and as the fence of a page. A `KeySpace` holds the four key fields of a tree:
the two borders and the saturating neighbour functions `inc_key`, `dec_key`.
The laws are what `make_standard` provides for 64-bit keys and all that the
tree ever uses of them.
-/
namespace CMVBT

structure Interval (K : Type) where
  lower : K
  upper : K
deriving DecidableEq, Repr

variable {K : Type} [LinearOrder K]

namespace Interval

instance : Membership K (Interval K) where
  mem i k := i.lower ≤ k ∧ k ≤ i.upper

theorem mem_def {i : Interval K} {k : K} : k ∈ i ↔ i.lower ≤ k ∧ k ≤ i.upper := Iff.rfl

def contains (i : Interval K) (value : K) : Bool :=
  decide (i.lower ≤ value) && decide (value ≤ i.upper)

@[simp] theorem contains_eq_true {i : Interval K} {k : K} : i.contains k = true ↔ k ∈ i := by
  simp [contains, mem_def]

def isDisjoint (i other : Interval K) : Bool :=
  decide (other.upper < i.lower) || decide (i.upper < other.lower)

def overlap (i other : Interval K) : Bool := !i.isDisjoint other

theorem overlap_eq_true {i j : Interval K} :
    i.overlap j = true ↔ i.lower ≤ j.upper ∧ j.lower ≤ i.upper := by
  simp [overlap, isDisjoint]

/-- The in-place `merged` of the source, as the new value of its receiver. -/
def merged (i interval : Interval K) : Interval K :=
  ⟨min interval.lower i.lower, max interval.upper i.upper⟩

/-- A usable fence has its borders in order. -/
def Proper (i : Interval K) : Prop := i.lower ≤ i.upper

def Within (i j : Interval K) : Prop := ∀ k, k ∈ i → k ∈ j

def Disjoint (i j : Interval K) : Prop := ∀ k, k ∈ i → k ∉ j

theorem Disjoint.symm {i j : Interval K} (h : Disjoint i j) : Disjoint j i :=
  fun k hj hi => h k hi hj

theorem Proper.lower_mem {i : Interval K} (h : i.Proper) : i.lower ∈ i := ⟨le_rfl, h⟩

theorem Proper.upper_mem {i : Interval K} (h : i.Proper) : i.upper ∈ i := ⟨h, le_rfl⟩

theorem overlap_of_mem {i j : Interval K} {k : K} (hi : k ∈ i) (hj : k ∈ j) :
    i.overlap j = true := overlap_eq_true.mpr ⟨hi.1.trans hj.2, hj.1.trans hi.2⟩

theorem exists_mem_of_overlap {i j : Interval K} (h : i.overlap j = true) (hi : i.Proper)
    (hj : j.Proper) : ∃ k, k ∈ i ∧ k ∈ j := by
  obtain ⟨hij, hji⟩ := overlap_eq_true.mp h
  refine ⟨max i.lower j.lower, ⟨le_max_left _ _, ?_⟩, ⟨le_max_right _ _, ?_⟩⟩
  · exact max_le hi hji
  · exact max_le hij hj

theorem Within.trans {i j l : Interval K} (h : i.Within j) (h' : j.Within l) : i.Within l :=
  fun k hk => h' k (h k hk)

theorem Disjoint.mono {i i' j j' : Interval K} (h : Disjoint i j) (hi : i'.Within i)
    (hj : j'.Within j) : Disjoint i' j' :=
  fun k hk hk' => h k (hi k hk) (hj k hk')

/-- Two proper disjoint intervals are ordered by their lower borders. -/
theorem Disjoint.upper_lt {i j : Interval K} (h : Disjoint i j) (hj : j.Proper)
    (hlt : i.lower ≤ j.lower) : i.upper < j.lower := by
  by_contra hge
  exact h j.lower ⟨hlt, not_lt.mp hge⟩ hj.lower_mem

end Interval

namespace KeyInterval

/-- Borders and neighbour functions of a tree, with their laws. -/
structure KeySpace (K : Type) [LinearOrder K] where
  minKey : K
  maxKey : K
  incKey : K → K
  decKey : K → K
  min_le : ∀ k, minKey ≤ k
  le_max : ∀ k, k ≤ maxKey
  le_dec : ∀ m, minKey < m → ∀ k, k ≤ decKey m ↔ k < m
  inc_le : ∀ k, k < maxKey → ∀ m, incKey k ≤ m ↔ k < m
  inc_max : incKey maxKey = maxKey

namespace KeySpace
variable (S : KeySpace K)

/-- The fence of every root. -/
def full : Interval K := ⟨S.minKey, S.maxKey⟩

@[simp] theorem mem_full (k : K) : k ∈ S.full := ⟨S.min_le k, S.le_max k⟩

theorem full_proper : S.full.Proper := S.min_le _

theorem lt_inc {k : K} (h : k < S.maxKey) : k < S.incKey k := (S.inc_le k h _).mp le_rfl

theorem dec_lt {m : K} (h : S.minKey < m) : S.decKey m < m := (S.le_dec m h _).mp le_rfl

/-- The fences on both sides of a separator. -/
theorem cut_disjoint {f : Interval K} {m : K} (h : f.lower < m) :
    Interval.Disjoint ⟨f.lower, S.decKey m⟩ ⟨m, f.upper⟩ := fun k hk hk' =>
  absurd hk'.1 (not_le.mpr ((S.le_dec m ((S.min_le _).trans_lt h) k).mp hk.2))

theorem mem_cut {f : Interval K} {m k : K} (h : f.lower < m) (h' : m ≤ f.upper) :
    (k ∈ (⟨f.lower, S.decKey m⟩ : Interval K) ∨ k ∈ (⟨m, f.upper⟩ : Interval K)) ↔ k ∈ f := by
  have hdec := S.le_dec m ((S.min_le _).trans_lt h) k
  constructor
  · rintro (hk | hk)
    · exact ⟨hk.1, (hdec.mp hk.2).le.trans h'⟩
    · exact ⟨h.le.trans hk.1, hk.2⟩
  · intro hk
    rcases lt_or_ge k m with hlt | hge
    · exact .inl ⟨hk.1, hdec.mpr hlt⟩
    · exact .inr ⟨hge, hk.2⟩

end KeySpace

/-- The order of `u64`. -/
instance u64LinearOrder : LinearOrder UInt64 where
  le_refl := UInt64.le_refl
  le_trans _ _ _ := UInt64.le_trans
  le_antisymm _ _ := UInt64.le_antisymm
  le_total := UInt64.le_total
  lt_iff_le_not_ge a b := by
    simp only [UInt64.le_iff_toNat_le, UInt64.lt_iff_toNat_lt]
    omega
  toDecidableLE := inferInstance
  toDecidableLT := inferInstance
  toDecidableEq := inferInstance

/-- `k.checked_add(1).unwrap_or(u64::MAX)`. -/
def incU64 (k : UInt64) : UInt64 := if k = 0xFFFFFFFFFFFFFFFF then k else k + 1

/-- `k.checked_sub(1).unwrap_or(u64::MIN)`. -/
def decU64 (k : UInt64) : UInt64 := if k = 0 then k else k - 1

/-- The key space that `make_standard` passes to `make`. -/
def u64Space : KeySpace UInt64 where
  minKey := 0
  maxKey := 0xFFFFFFFFFFFFFFFF
  incKey := incU64
  decKey := decU64
  min_le k := by simp [UInt64.le_iff_toNat_le]
  le_max k := by
    have := k.toNat_lt
    simp only [UInt64.le_iff_toNat_le, UInt64.reduceToNat]
    omega
  le_dec m hm k := by
    have hne : m ≠ 0 := by rintro rfl; exact absurd hm (by decide)
    have hpos : 0 < m.toNat := by
      rw [UInt64.lt_iff_toNat_lt] at hm
      simpa using hm
    have hsub : (m - 1).toNat = m.toNat - 1 := by
      have hle : (1 : UInt64) ≤ m := by
        rw [UInt64.le_iff_toNat_le]
        exact hpos
      rw [UInt64.toNat_sub_of_le _ _ hle]
      rfl
    simp only [decU64, hne, if_false, UInt64.le_iff_toNat_le, UInt64.lt_iff_toNat_lt, hsub]
    omega
  inc_le k hk m := by
    have hne : k ≠ 0xFFFFFFFFFFFFFFFF := by rintro rfl; exact absurd hk (by decide)
    have hlt : k.toNat + 1 < 2 ^ 64 := by
      rw [UInt64.lt_iff_toNat_lt] at hk
      simp only [UInt64.reduceToNat] at hk
      omega
    have hadd : (k + 1).toNat = k.toNat + 1 := by
      rw [UInt64.toNat_add]
      simpa using Nat.mod_eq_of_lt hlt
    simp only [incU64, hne, if_false, UInt64.le_iff_toNat_le, UInt64.lt_iff_toNat_lt, hadd]
    omega
  inc_max := by decide

end KeyInterval

end CMVBT
