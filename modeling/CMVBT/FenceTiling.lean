import CMVBT.KeyInterval
import CMVBT.Halving
import Mathlib.Data.List.Pairwise

/-!
# Tilings of an interval

Units with pairwise disjoint spans inside an interval `f`, together covering
every key that needs to be covered. The records of a leaf tile its fence with
single keys, only the stored keys being needed; the entries of a directory tile
its fence without gaps. The rules say how a tiling is cut at a key, how two
neighbouring ones are joined, and which of the tiles is next to a given one.
-/
namespace CMVBT.FenceTiling
open KeyInterval Halving

variable {α K : Type} [LinearOrder K]

structure Tiling (span : α → Interval K) (good : α → Prop) (needed : K → Prop) (f : Interval K)
    (us : List α) : Prop where
  proper : ∀ u ∈ us, (span u).Proper
  within : ∀ u ∈ us, (span u).Within f
  good : ∀ u ∈ us, good u
  disjoint : us.Pairwise (fun a b => (span a).Disjoint (span b))
  complete : ∀ k ∈ f, needed k → ∃ u ∈ us, k ∈ span u

namespace Tiling
variable {span : α → Interval K} {good : α → Prop} {needed : K → Prop} {f f' : Interval K}
  {us vs : List α}

theorem perm (h : Tiling span good needed f us) (hp : us.Perm vs) :
    Tiling span good needed f vs where
  proper u hu := h.proper u (hp.mem_iff.mpr hu)
  within u hu := h.within u (hp.mem_iff.mpr hu)
  good u hu := h.good u (hp.mem_iff.mpr hu)
  disjoint := hp.pairwise h.disjoint Interval.Disjoint.symm
  complete k hk hn := by
    obtain ⟨u, hu, hku⟩ := h.complete k hk hn
    exact ⟨u, hp.mem_iff.mp hu, hku⟩

/-- Some units give way to others: the new ones stay clear of the rest, and
every key that is needed now is covered by a new unit or was covered by the rest. -/
theorem exchange {good' : α → Prop} {needed' : K → Prop} (old new : List α) {rest : List α}
    (h : Tiling span good needed f (old ++ rest)) (hproper : ∀ u ∈ new, (span u).Proper)
    (hwithin : ∀ u ∈ new, (span u).Within f)
    (hdisjoint : new.Pairwise (fun a b => (span a).Disjoint (span b)))
    (hclear : ∀ u ∈ new, ∀ x ∈ rest, (span u).Disjoint (span x)) (hgood : ∀ u ∈ new, good' u)
    (hrest : ∀ u ∈ rest, good u → good' u)
    (hneeded : ∀ k ∈ f, needed' k → (∃ u ∈ new, k ∈ span u) ∨
      (needed k ∧ ∀ u ∈ old, k ∉ span u)) :
    Tiling span good' needed' f (rest ++ new) where
  proper u hu := (List.mem_append.mp hu).elim
    (fun hu => h.proper u (List.mem_append_right _ hu)) (hproper u)
  within u hu := (List.mem_append.mp hu).elim
    (fun hu => h.within u (List.mem_append_right _ hu)) (hwithin u)
  good u hu := (List.mem_append.mp hu).elim
    (fun hu => hrest u hu (h.good u (List.mem_append_right _ hu))) (hgood u)
  disjoint := List.pairwise_append.mpr ⟨(List.pairwise_append.mp h.disjoint).2.1, hdisjoint,
    fun x hx u hu => (hclear u hu x hx).symm⟩
  complete k hk hn := by
    rcases hneeded k hk hn with ⟨u, hu, hku⟩ | ⟨hold, hnot⟩
    · exact ⟨u, List.mem_append_right _ hu, hku⟩
    · obtain ⟨u, hu, hku⟩ := h.complete k hk hold
      rcases List.mem_append.mp hu with hu | hu
      · exact absurd hku (hnot u hu)
      · exact ⟨u, List.mem_append_left _ hu, hku⟩

theorem congr {good' : α → Prop} {needed' : K → Prop} (h : Tiling span good needed f us)
    (hgood : ∀ u ∈ us, good u → good' u) (hneeded : ∀ k ∈ f, needed' k → needed k) :
    Tiling span good' needed' f us where
  proper := h.proper
  within := h.within
  good u hu := hgood u hu (h.good u hu)
  disjoint := h.disjoint
  complete k hk hn := h.complete k hk (hneeded k hk hn)

/-- A key lies in at most one span. -/
theorem eq_of_mem (h : Tiling span good needed f us) {u v : α} {k : K} (hu : u ∈ us) (hv : v ∈ us)
    (hku : k ∈ span u) (hkv : k ∈ span v) : u = v := by
  by_contra hne
  have : Std.Symm (fun a b : α => (span a).Disjoint (span b)) := ⟨fun _ _ => Interval.Disjoint.symm⟩
  exact h.disjoint.forall hu hv hne k hku hkv

theorem nodup (h : Tiling span good needed f us) : (us.map (fun u => (span u).lower)).Nodup := by
  rw [List.Nodup, List.pairwise_map]
  refine h.disjoint.imp_of_mem ?_
  intro a b ha hb hd heq
  have hk : (span a).lower ∈ span b := by
    rw [heq]
    exact (h.proper b hb).lower_mem
  exact hd _ (h.proper a ha).lower_mem hk

/-- Sorted by lower border, the spans follow each other. -/
theorem sorted_strict (h : Tiling span good needed f us) :
    (sortedBy (fun u => (span u).lower) us).Pairwise
      (fun a b => (span a).lower < (span b).lower) :=
  sortedBy_strict h.nodup

/-- Cutting a tiling in the middle of its sorted units. -/
theorem cut {stamp : α → ℕ} {joined left right : List α} {m : K} {S : KeySpace K}
    (h : Tiling span good needed f joined)
    (hc : Cut (fun u => (span u).lower) stamp joined left m right) (hlen : 2 ≤ joined.length) :
    Tiling span good needed ⟨f.lower, S.decKey m⟩ left ∧
      Tiling span good needed ⟨m, f.upper⟩ right ∧ f.lower < m ∧ m ≤ f.upper := by
  have hmem : ∀ u, u ∈ left ∨ u ∈ right ↔ u ∈ joined := fun u => by
    rw [← List.mem_append, hc.perm.mem_iff]
  obtain ⟨x, hx, hxm⟩ := hc.sep_mem
  have hxj := (hmem x).mp (.inr hx)
  obtain ⟨y, hy⟩ : ∃ y, y ∈ left := by
    apply List.exists_mem_of_length_pos
    rw [hc.left_length]
    omega
  have hyj := (hmem y).mp (.inl hy)
  -- both borders of the cut lie strictly inside `f`
  have hlow : f.lower < m :=
    (h.within y hyj _ (h.proper y hyj).lower_mem).1.trans_lt (hc.left_lt y hy)
  have hupp : m ≤ f.upper := by
    rw [← hxm]
    exact (h.within x hxj _ (h.proper x hxj).lower_mem).2
  have hmin : S.minKey < m := (S.min_le _).trans_lt hlow
  have hdisj := (hc.perm.symm.pairwise h.disjoint Interval.Disjoint.symm)
  rw [List.pairwise_append] at hdisj
  -- a left unit ends before the separator, where the unit `x` starts
  have hleft : ∀ u ∈ left, (span u).upper < m := by
    intro u hu
    rw [← hxm]
    exact (hdisj.2.2 u hu x hx).upper_lt (h.proper x hxj) (hxm ▸ (hc.left_lt u hu).le)
  refine ⟨?_, ?_, hlow, hupp⟩
  · refine ⟨fun u hu => h.proper u ((hmem u).mp (.inl hu)), ?_,
      fun u hu => h.good u ((hmem u).mp (.inl hu)), hdisj.1, ?_⟩
    · intro u hu k hk
      have hkf := h.within u ((hmem u).mp (.inl hu)) k hk
      exact ⟨hkf.1, (S.le_dec m hmin k).mpr (hk.2.trans_lt (hleft u hu))⟩
    · intro k hk hn
      have hkm : k < m := (S.le_dec m hmin k).mp hk.2
      obtain ⟨u, hu, hku⟩ := h.complete k ⟨hk.1, hkm.le.trans hupp⟩ hn
      rcases (hmem u).mpr hu with hu | hu
      · exact ⟨u, hu, hku⟩
      · exact absurd ((hc.right_ge u hu).trans hku.1) (not_le.mpr hkm)
  · refine ⟨fun u hu => h.proper u ((hmem u).mp (.inr hu)), ?_,
      fun u hu => h.good u ((hmem u).mp (.inr hu)), hdisj.2.1, ?_⟩
    · intro u hu k hk
      have hkf := h.within u ((hmem u).mp (.inr hu)) k hk
      exact ⟨(hc.right_ge u hu).trans hk.1, hkf.2⟩
    · intro k hk hn
      obtain ⟨u, hu, hku⟩ := h.complete k ⟨hlow.le.trans hk.1, hk.2⟩ hn
      rcases (hmem u).mpr hu with hu | hu
      · exact absurd (hk.1.trans hku.2) (not_le.mpr (hleft u hu))
      · exact ⟨u, hu, hku⟩

/-- Two disjoint fences without a key between them. -/
structure Adjacent (f f' : Interval K) : Prop where
  disjoint : f.Disjoint f'
  merged : ∀ k, k ∈ f.merged f' ↔ k ∈ f ∨ k ∈ f'

theorem append (h : Tiling span good needed f us) (h' : Tiling span good needed f' vs)
    (ha : Adjacent f f') : Tiling span good needed (f.merged f') (us ++ vs) where
  proper u hu := (List.mem_append.mp hu).elim (h.proper u) (h'.proper u)
  within u hu k hk := (ha.merged k).mpr ((List.mem_append.mp hu).imp
    (fun hu => h.within u hu k hk) (fun hu => h'.within u hu k hk))
  good u hu := (List.mem_append.mp hu).elim (h.good u) (h'.good u)
  disjoint := List.pairwise_append.mpr ⟨h.disjoint, h'.disjoint, fun a hma b hmb =>
    ha.disjoint.mono (h.within a hma) (h'.within b hmb)⟩
  complete k hk hn := by
    rcases (ha.merged k).mp hk with hk | hk
    · obtain ⟨u, hu, hku⟩ := h.complete k hk hn
      exact ⟨u, List.mem_append.mpr (.inl hu), hku⟩
    · obtain ⟨u, hu, hku⟩ := h'.complete k hk hn
      exact ⟨u, List.mem_append.mpr (.inr hu), hku⟩

/-- The first tile that does not start before `a`, other than `a`, or else the
last tile before `a`, is next to `a`. -/
theorem adjacent_of_nearest (h : Tiling span good (fun _ => True) f us) {a c : α} (ha : a ∈ us)
    (hc : c ∈ us) (hne : c ≠ a)
    (hnear : ((span a).lower ≤ (span c).lower ∧
        ∀ u ∈ us, u ≠ a → (span a).lower ≤ (span u).lower → (span c).lower ≤ (span u).lower) ∨
      ((∀ u ∈ us, u ≠ a → (span u).lower < (span a).lower) ∧
        ∀ u ∈ us, u ≠ a → (span u).lower ≤ (span c).lower)) :
    Adjacent (span a) (span c) := by
  have hd : (span a).Disjoint (span c) :=
    fun k hka hkc => hne (h.eq_of_mem hc ha hkc hka)
  refine ⟨hd, fun k => ⟨fun hk => ?_, ?_⟩⟩
  · -- a key between the two fences would lie in a third tile, nearer to `a`
    by_contra hno
    simp only [not_or, Interval.mem_def, not_and, not_le] at hno
    have hkf : k ∈ f := by
      have ha₁ := h.within a ha
      have hc₁ := h.within c hc
      constructor
      · rcases le_total (span c).lower (span a).lower with hle | hle
        · exact (hc₁ _ (h.proper c hc).lower_mem).1.trans (by simpa [Interval.merged, hle] using hk.1)
        · exact (ha₁ _ (h.proper a ha).lower_mem).1.trans (by simpa [Interval.merged, hle] using hk.1)
      · rcases le_total (span c).upper (span a).upper with hle | hle
        · exact le_trans (by simpa [Interval.merged, hle] using hk.2)
            (ha₁ _ (h.proper a ha).upper_mem).2
        · exact le_trans (by simpa [Interval.merged, hle] using hk.2)
            (hc₁ _ (h.proper c hc).upper_mem).2
    obtain ⟨u, hu, hku⟩ := h.complete k hkf trivial
    have hua : u ≠ a := by
      rintro rfl
      exact absurd hku.2 (not_le.mpr (hno.1 hku.1))
    have huc : u ≠ c := by
      rintro rfl
      exact absurd hku.2 (not_le.mpr (hno.2 hku.1))
    have hda : (span u).Disjoint (span a) := fun x hxu hxa => hua (h.eq_of_mem hu ha hxu hxa)
    have hdc : (span u).Disjoint (span c) := fun x hxu hxc => huc (h.eq_of_mem hu hc hxu hxc)
    have hpa := h.proper a ha
    have hpc := h.proper c hc
    have hpu := h.proper u hu
    have hk₁ := hku.1
    have hk₂ := hku.2
    have hm₁ := hk.1
    have hm₂ := hk.2
    simp only [Interval.merged] at hm₁ hm₂
    unfold Interval.Proper at hpa hpc hpu
    rcases hnear with ⟨hac, hmin⟩ | ⟨hlast, hmax⟩
    · have hup := hd.upper_lt hpc hac
      rw [min_eq_right hac] at hm₁
      have hge : (span a).lower ≤ (span u).lower := by
        by_contra hlt
        have := hda.upper_lt hpa (not_le.mp hlt).le
        order
      have hcu := hmin u hu hua hge
      have := hdc.symm.upper_lt hpu hcu
      have h₁ := hno.1 hm₁
      rw [max_eq_left (show (span a).upper ≤ (span c).upper by order)] at hm₂
      order
    · have hca := hlast c hc hne
      have hup := hd.symm.upper_lt hpa hca.le
      rw [min_eq_left hca.le] at hm₁
      have huca := hmax u hu hua
      have := hdc.upper_lt hpc huca
      have h₁ := hno.2 hm₁
      order
  · rintro (hk | hk)
    · exact ⟨(min_le_right _ _).trans hk.1, hk.2.trans (le_max_right _ _)⟩
    · exact ⟨(min_le_left _ _).trans hk.1, hk.2.trans (le_max_left _ _)⟩

end Tiling

end CMVBT.FenceTiling
