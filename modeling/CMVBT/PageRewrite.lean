import CMVBT.BlockSupply
import CMVBT.FenceTiling

/-!
# Splits and merges of pages of one kind

What `split` and `merge` compute for one kind of page: which blocks they build
and how the active units of the old pages are spread over them. Both page kinds
satisfy the same small set of laws, so each function has one specification.
-/
namespace CMVBT.PageRewrite
open KeyInterval Halving FenceTiling PageModel CMVBT.Tree BlockSupply

variable {K P α : Type} [LinearOrder K] [PageUnit K α]

/-- The laws of the accessors of a page kind. -/
structure Lawful (kind : PageKind K P α) : Prop where
  unwrap_wrap : ∀ p, kind.unwrap (kind.wrap p) = some p
  eq_wrap : ∀ {n p}, kind.unwrap n = some p → n = kind.wrap p
  isLeaf_wrap : ∀ p, (kind.wrap p).isLeaf = kind.isLeaf
  count_wrap : ∀ p, (kind.wrap p).activeDeadCount = p.activeDeadCount
  fresh : (freshNode kind.isLeaf : Node K P) = kind.wrap Page.new
  used_new : kind.used Page.new = 0
  takeFirst : ∀ a b, (PageUnit.key a : K) ≠ PageUnit.key b →
    (kind.takeFirst a b = true ↔ (PageUnit.key a : K) < PageUnit.key b)

theorem leafKind_lawful : Lawful (leafKind : PageKind K P (RecordPoint K P)) where
  unwrap_wrap _ := rfl
  eq_wrap {n p} h := by
    cases n with
    | leaf q => cases h; rfl
    | internal q => cases h
  isLeaf_wrap _ := rfl
  count_wrap _ := rfl
  fresh := rfl
  used_new := by simp [leafKind, Page.sumLen, fromLenSum, activeLen, deadLen, Page.new]
  takeFirst a b hne := by
    simp only [leafKind, decide_eq_true_eq]
    exact ⟨fun h => lt_of_le_of_ne h hne, le_of_lt⟩

theorem internalKind_lawful : Lawful (internalKind : PageKind K P (Entry K)) where
  unwrap_wrap _ := rfl
  eq_wrap {n p} h := by
    cases n with
    | leaf q => cases h
    | internal q => cases h; rfl
  isLeaf_wrap _ := rfl
  count_wrap _ := rfl
  fresh := rfl
  used_new := by simp [internalKind, activeLen, Page.new]
  takeFirst a b _ := by
    simp only [internalKind, decide_eq_true_eq]
    rfl

/-- A page that was filled once with active units. -/
def filledPage (us : List α) : Page α := ⟨fromActiveDead us.length 0, us⟩

section Fill
variable {cfg : Config K} {kind : PageKind K P α} {t t' : MVBTSt K P}

theorem bulkPush_fresh (hk : Lawful kind) (hcap : kind.cap cfg < 2 ^ 16) {b : ℕ} {us : List α}
    (hb : t.heap b = freshNode kind.isLeaf) (hlen : us.length ≤ kind.cap cfg)
    (ha : ∀ u ∈ us, PageUnit.isActive u = true) :
    kind.bulkPush cfg t b us = .ok (t.setNode b (kind.wrap (filledPage us))) := by
  simp only [PageKind.bulkPush, hb, hk.fresh, hk.unwrap_wrap, hk.used_new,
    (Page.bulkPush_new hcap hlen ha).1]
  rfl

/-- Allocating one block and filling it. -/
theorem fill_one (hk : Lawful kind) (hcap : kind.cap cfg < 2 ^ 16) (hg : GraveyardOk t)
    {us : List α} (hlen : us.length ≤ kind.cap cfg) (ha : ∀ u ∈ us, PageUnit.isActive u = true) :
    ∃ t₁ b, t.allocBlock kind.isLeaf = (t₁, b) ∧ Built t t₁ [(b, freshNode kind.isLeaf)] ∧
      ∃ t₂, kind.bulkPush cfg t₁ b us = .ok t₂ ∧ Built t t₂ [(b, kind.wrap (filledPage us))] := by
  cases hal : t.allocBlock kind.isLeaf with
  | mk t₁ b =>
    have hb := (Built.refl hg).alloc hal
    refine ⟨t₁, b, rfl, hb, _, ?_, Built.fill_last _ hb⟩
    exact bulkPush_fresh hk hcap (hb.heap_new _ (List.mem_singleton_self _)) hlen ha

/-- Allocating two blocks and filling them. -/
theorem fill_two (hk : Lawful kind) (hcap : kind.cap cfg < 2 ^ 16) (hg : GraveyardOk t)
    {us vs : List α} (hus : us.length ≤ kind.cap cfg) (hvs : vs.length ≤ kind.cap cfg)
    (hua : ∀ u ∈ us, PageUnit.isActive u = true) (hva : ∀ u ∈ vs, PageUnit.isActive u = true) :
    ∃ t₁ l, t.allocBlock kind.isLeaf = (t₁, l) ∧ ∃ t₂ r, t₁.allocBlock kind.isLeaf = (t₂, r) ∧
      Built t t₂ [(l, freshNode kind.isLeaf), (r, freshNode kind.isLeaf)] ∧
      ∃ t₃, kind.bulkPush cfg t₂ l us = .ok t₃ ∧ ∃ t₄, kind.bulkPush cfg t₃ r vs = .ok t₄ ∧
        Built t t₄ [(l, kind.wrap (filledPage us)), (r, kind.wrap (filledPage vs))] := by
  cases hal : t.allocBlock kind.isLeaf with
  | mk t₁ l =>
    have h₁ := (Built.refl hg).alloc hal
    cases har : t₁.allocBlock kind.isLeaf with
    | mk t₂ r =>
      have h₂ := h₁.alloc har
      have h₃ := Built.fill_last (kind.wrap (filledPage us))
        (show Built t t₂ ([_] ++ [_]) from h₂.perm (List.Perm.swap _ _ []))
      have h₄ := Built.fill_last (kind.wrap (filledPage vs))
        (show Built t _ ([_] ++ [_]) from h₃.perm (List.Perm.swap _ _ []))
      have hl := bulkPush_fresh hk hcap (h₂.heap_new _ List.mem_cons_self) hus hua
      have hr := bulkPush_fresh hk hcap (h₃.heap_new _ List.mem_cons_self) hvs hva
      exact ⟨t₁, l, rfl, t₂, r, har, h₂, _, hl, _, hr, h₄⟩

omit [LinearOrder K] in
theorem active_eq {b : ℕ} {p : Page α} {cap : ℕ} (hb : kind.unwrap (t.heap b) = some p)
    (hc : p.Counted cap) : kind.active t b = .ok (p.units.filter PageUnit.isActive) := by
  simp only [PageKind.active, hb, hc.activeUnits]

end Fill

section Split
variable {cfg : Config K} {kind : PageKind K P α} {t : MVBTSt K P} {good : α → Prop}
  {needed : K → Prop} {f : Interval K} {b : ℕ} {p : Page α}

/-- A block in use of the given kind, whose active units tile the fence `f`. -/
structure Source (cfg : Config K) (kind : PageKind K P α) (t : MVBTSt K P) (good : α → Prop)
    (needed : K → Prop) (f : Interval K) (b : ℕ) (p : Page α) : Prop where
  page : kind.unwrap (t.heap b) = some p
  counted : p.Counted (kind.cap cfg)
  used : b < t.nextBlock
  kept : ∀ d ∈ graveyard t, d.block ≠ b
  tiling : Tiling PageUnit.span good needed f (p.units.filter PageUnit.isActive)

theorem Source.active (hk : Lawful kind) (h : Source cfg kind t good needed f b p) :
    (t.heap b).activeDeadCount.1 = (p.units.filter PageUnit.isActive).length := by
  rw [hk.eq_wrap h.page, hk.count_wrap, ← List.countP_eq_length_filter]
  exact h.counted.active

theorem Source.active_after (h : Source cfg kind t good needed f b p) {t' : MVBTSt K P}
    {bs : List (ℕ × Node K P)} (hb : Built t t' bs) :
    kind.active t' b = .ok (p.units.filter PageUnit.isActive) := by
  apply active_eq _ h.counted
  rw [hb.heap_kept h.used h.kept]
  exact h.page

/-- The two pages of a cut. -/
structure Halves (good : α → Prop) (needed : K → Prop) (S : KeySpace K) (f : Interval K) (n : ℕ)
    (us : List α) (m : K) (vs : List α) : Prop where
  left : Tiling PageUnit.span good needed ⟨f.lower, S.decKey m⟩ us
  right : Tiling PageUnit.span good needed ⟨m, f.upper⟩ vs
  lower_lt : f.lower < m
  le_upper : m ≤ f.upper
  left_length : us.length = n / 2
  right_length : vs.length = n - n / 2
  left_sorted : InVersionOrder us
  right_sorted : InVersionOrder vs

theorem halves_of_cut {joined us vs : List α} {m : K} {S : KeySpace K}
    (ht : Tiling PageUnit.span good needed f joined)
    (hc : Cut PageUnit.key PageUnit.stamp joined us m vs) (hlen : 2 ≤ joined.length) :
    Halves good needed S f joined.length us m vs := by
  obtain ⟨hl, hr, hlt, hle⟩ := ht.cut (S := S) hc hlen
  exact ⟨hl, hr, hlt, hle, hc.left_length, hc.right_length, hc.left_sorted, hc.right_sorted⟩

/-- The key split in full: the units sorted by key, cut in the middle. -/
theorem splitPage_cut (hk : Lawful kind) (hg : GraveyardOk t)
    (h : Source cfg kind t good needed f b p)
    (hfull : filling80Percent cfg (t.heap b) ≤ (t.heap b).activeDeadCount.1)
    (htwo : 2 ≤ (t.heap b).activeDeadCount.1) :
    ∃ t' l r us m vs, splitPage cfg kind t b f =
        .ok (t', .byKey ⟨f.lower, cfg.keys.decKey m⟩ l ⟨m, f.upper⟩ r) ∧
      Built t t' [(l, kind.wrap (filledPage us)), (r, kind.wrap (filledPage vs))] ∧
      Cut PageUnit.key PageUnit.stamp
        (sortedBy (PageUnit.key : α → K) (p.units.filter PageUnit.isActive)) us m vs := by
  have hactive := h.active hk
  have hlen : (sortedBy (PageUnit.key : α → K) (p.units.filter PageUnit.isActive)).length =
      (t.heap b).activeDeadCount.1 := by rw [length_sortedBy, hactive]
  have hne : sortedBy (PageUnit.key : α → K) (p.units.filter PageUnit.isActive) ≠ [] := by
    rintro hnil
    rw [hnil, List.length_nil] at hlen
    omega
  have hstrict : (sortedBy (PageUnit.key : α → K) (p.units.filter PageUnit.isActive)).Pairwise
      (fun a b => (PageUnit.key a : K) < PageUnit.key b) := h.tiling.sorted_strict
  obtain ⟨us, m, vs, hcut, hc⟩ := halve_cut PageUnit.stamp hne hstrict
  have hmem : ∀ u ∈ us ++ vs, PageUnit.isActive u = true := fun u hu =>
    (List.mem_filter.mp (mem_sortedBy.mp (hc.perm.mem_iff.mp hu))).2
  have hle : (t.heap b).activeDeadCount.1 ≤ kind.cap cfg := by
    rw [hactive]
    exact (List.length_filter_le _ _).trans h.counted.length_le
  have hus := hc.left_length
  have hvs := hc.right_length
  rw [hlen] at hus hvs
  have husle : us.length ≤ kind.cap cfg := by omega
  have hvsle : vs.length ≤ kind.cap cfg := by omega
  obtain ⟨t₁, l, hal, t₂, r, har, hb₂, t₃, h₃, t₄, h₄, hb₄⟩ := fill_two hk
    h.counted.cap_lt hg husle hvsle
    (fun u hu => hmem u (List.mem_append_left _ hu))
    (fun u hu => hmem u (List.mem_append_right _ hu))
  refine ⟨t₄, l, r, us, m, vs, ?_, hb₄, hc⟩
  rw [splitPage, if_pos hfull, hal]
  simp only [har, h.active_after hb₂, cutAtMiddle, hcut, h₃, h₄, bind, Except.bind, pure,
    Except.pure]

theorem splitPage_byKey (hk : Lawful kind) (hg : GraveyardOk t)
    (h : Source cfg kind t good needed f b p)
    (hfull : filling80Percent cfg (t.heap b) ≤ (t.heap b).activeDeadCount.1)
    (htwo : 2 ≤ (t.heap b).activeDeadCount.1) :
    ∃ t' l r us m vs, splitPage cfg kind t b f =
        .ok (t', .byKey ⟨f.lower, cfg.keys.decKey m⟩ l ⟨m, f.upper⟩ r) ∧
      Built t t' [(l, kind.wrap (filledPage us)), (r, kind.wrap (filledPage vs))] ∧
      Halves good needed cfg.keys f (t.heap b).activeDeadCount.1 us m vs ∧
      ∀ u ∈ us ++ vs, u ∈ p.units ∧ PageUnit.isActive u = true := by
  obtain ⟨t', l, r, us, m, vs, heq, hb, hc⟩ := splitPage_cut hk hg h hfull htwo
  have hlen : (sortedBy (PageUnit.key : α → K) (p.units.filter PageUnit.isActive)).length =
      (t.heap b).activeDeadCount.1 := by rw [length_sortedBy, h.active hk]
  have hh := halves_of_cut (S := cfg.keys)
    (h.tiling.perm (sortedBy_perm PageUnit.key _).symm) hc (by rw [hlen]; exact htwo)
  rw [hlen] at hh
  refine ⟨t', l, r, us, m, vs, heq, hb, hh, fun u hu => ?_⟩
  exact List.mem_filter.mp (mem_sortedBy.mp (hc.perm.mem_iff.mp hu))

theorem splitPage_byVersion (hk : Lawful kind) (hg : GraveyardOk t)
    (h : Source cfg kind t good needed f b p)
    (hsmall : ¬ filling80Percent cfg (t.heap b) ≤ (t.heap b).activeDeadCount.1) :
    ∃ t' c, splitPage cfg kind t b f = .ok (t', .byVersion c) ∧
      Built t t' [(c, kind.wrap (filledPage (p.units.filter PageUnit.isActive)))] := by
  obtain ⟨t₁, c, hal, hb₁, t₂, h₂, hb₂⟩ := fill_one hk h.counted.cap_lt hg
    ((List.length_filter_le PageUnit.isActive p.units).trans h.counted.length_le)
    (fun u hu => (List.mem_filter.mp hu).2)
  refine ⟨t₂, c, ?_, hb₂⟩
  rw [splitPage, if_neg hsmall, hal]
  simp only [h.active_after hb₁, h₂, bind, Except.bind, pure, Except.pure]

end Split

section Merge
variable {cfg : Config K} {kind : PageKind K P α} {t : MVBTSt K P} {good : α → Prop}
  {needed : K → Prop} {f fc : Interval K} {b c i : ℕ} {p q : Page α}

/-- The merge in full: the active units of both pages on one, in version order. -/
theorem mergePages_joined (hk : Lawful kind) (hg : GraveyardOk t)
    (hs : Source cfg kind t good needed f b p) (hc : Source cfg kind t good needed fc c q)
    (hsmall : (t.heap c).activeDeadCount.1 + (t.heap b).activeDeadCount.1 ≤
      4 * maxUnits cfg (t.heap b) / 5)
    (hmax : 4 * maxUnits cfg (t.heap b) / 5 ≤ kind.cap cfg) :
    ∃ t' d, mergePages cfg kind t b f (i, c, fc) = .ok (t', .merged i fc d) ∧
      Built t t' [(d, kind.wrap (filledPage ((p.units.filter PageUnit.isActive).merge
        (q.units.filter PageUnit.isActive)
        (fun f s => decide (PageUnit.stamp f ≤ PageUnit.stamp s)))))] := by
  have hperm : ((p.units.filter PageUnit.isActive).merge (q.units.filter PageUnit.isActive)
      (fun f s => decide (PageUnit.stamp f ≤ PageUnit.stamp s))).Perm
      (p.units.filter PageUnit.isActive ++ q.units.filter PageUnit.isActive) :=
    List.merge_perm_append _
  have hlen := hperm.length_eq
  rw [List.length_append, ← hs.active hk, ← hc.active hk, add_comm] at hlen
  have hmem : ∀ u ∈ (p.units.filter PageUnit.isActive).merge (q.units.filter PageUnit.isActive)
      (fun f s => decide (PageUnit.stamp f ≤ PageUnit.stamp s)), PageUnit.isActive u = true := by
    intro u hu
    rcases List.mem_append.mp (hperm.mem_iff.mp hu) with hu | hu <;>
      exact (List.mem_filter.mp hu).2
  obtain ⟨t₁, d, hal, hb₁, t₂, h₂, hb₂⟩ := fill_one hk hs.counted.cap_lt hg
    (by rw [hlen]; exact hsmall.trans hmax) hmem
  refine ⟨t₂, d, ?_, hb₂⟩
  rw [mergePages]
  simp only [if_pos hsmall, hal, hs.active_after hb₁, hc.active_after hb₁, h₂, bind, Except.bind,
    pure, Except.pure]

theorem mergePages_merged (hk : Lawful kind) (hg : GraveyardOk t)
    (hs : Source cfg kind t good needed f b p) (hc : Source cfg kind t good needed fc c q)
    (hadj : Tiling.Adjacent f fc)
    (hsmall : (t.heap c).activeDeadCount.1 + (t.heap b).activeDeadCount.1 ≤
      4 * maxUnits cfg (t.heap b) / 5)
    (hmax : 4 * maxUnits cfg (t.heap b) / 5 ≤ kind.cap cfg) :
    ∃ t' d us, mergePages cfg kind t b f (i, c, fc) = .ok (t', .merged i fc d) ∧
      Built t t' [(d, kind.wrap (filledPage us))] ∧
      Tiling PageUnit.span good needed (f.merged fc) us ∧
      us.length = (t.heap c).activeDeadCount.1 + (t.heap b).activeDeadCount.1 ∧
      (∀ u ∈ us, (u ∈ p.units ∨ u ∈ q.units) ∧ PageUnit.isActive u = true) ∧
      (InVersionOrder p.units → InVersionOrder q.units → InVersionOrder us) := by
  have hperm : ((p.units.filter PageUnit.isActive).merge (q.units.filter PageUnit.isActive)
      (fun f s => decide (PageUnit.stamp f ≤ PageUnit.stamp s))).Perm
      (p.units.filter PageUnit.isActive ++ q.units.filter PageUnit.isActive) :=
    List.merge_perm_append _
  obtain ⟨t', d, heq, hb⟩ := mergePages_joined (i := i) hk hg hs hc hsmall hmax
  refine ⟨t', d, _, heq, hb, (hs.tiling.append hc.tiling hadj).perm hperm.symm, ?_, ?_,
    fun hp hq => (hp.filter _).merge (hq.filter _)⟩
  · rw [hperm.length_eq, List.length_append, ← hs.active hk, ← hc.active hk, add_comm]
  · intro u hu
    rcases List.mem_append.mp (hperm.mem_iff.mp hu) with hu | hu
    · exact ⟨.inl (List.mem_filter.mp hu).1, (List.mem_filter.mp hu).2⟩
    · exact ⟨.inr (List.mem_filter.mp hu).1, (List.mem_filter.mp hu).2⟩

/-- The redistribution in full: the active units of both pages in key order, cut in
the middle. -/
theorem mergePages_cut (hk : Lawful kind) (hg : GraveyardOk t)
    (hs : Source cfg kind t good needed f b p) (hc : Source cfg kind t good needed fc c q)
    (hadj : Tiling.Adjacent f fc)
    (hlarge : ¬ (t.heap c).activeDeadCount.1 + (t.heap b).activeDeadCount.1 ≤
      4 * maxUnits cfg (t.heap b) / 5) :
    ∃ t' l r us m vs joined, mergePages cfg kind t b f (i, c, fc) = .ok (t', .keySplit i (.byKey
        ⟨min fc.lower f.lower, cfg.keys.decKey m⟩ l ⟨m, max fc.upper f.upper⟩ r)) ∧
      Built t t' [(l, kind.wrap (filledPage us)), (r, kind.wrap (filledPage vs))] ∧
      Cut PageUnit.key PageUnit.stamp joined us m vs ∧
      joined.Perm (p.units.filter PageUnit.isActive ++ q.units.filter PageUnit.isActive) := by
  have hperm : ((sortedBy (PageUnit.key : α → K) (q.units.filter PageUnit.isActive)).merge
      (sortedBy (PageUnit.key : α → K) (p.units.filter PageUnit.isActive)) kind.takeFirst).Perm
      (p.units.filter PageUnit.isActive ++ q.units.filter PageUnit.isActive) :=
    ((List.merge_perm_append _).trans ((sortedBy_perm _ _).append (sortedBy_perm _ _))).trans
      List.perm_append_comm
  have hlen := hperm.length_eq
  rw [List.length_append, ← hs.active hk, ← hc.active hk] at hlen
  -- the keys of the two pages lie in disjoint fences
  have hne : ∀ a ∈ sortedBy (PageUnit.key : α → K) (q.units.filter PageUnit.isActive),
      ∀ a' ∈ sortedBy (PageUnit.key : α → K) (p.units.filter PageUnit.isActive),
      (PageUnit.key a : K) ≠ PageUnit.key a' := by
    intro a ha a' ha' heq
    have hq := hc.tiling.within a (mem_sortedBy.mp ha) _
      (hc.tiling.proper a (mem_sortedBy.mp ha)).lower_mem
    have hp := hs.tiling.within a' (mem_sortedBy.mp ha') _
      (hs.tiling.proper a' (mem_sortedBy.mp ha')).lower_mem
    have heq' : (PageUnit.span a).lower = (PageUnit.span a').lower := heq
    rw [heq'] at hq
    exact hadj.disjoint _ hp hq
  have hsorted := merge_strict
    (fun a ha a' ha' => hk.takeFirst a a' (hne a ha a' ha')) hc.tiling.sorted_strict
    hs.tiling.sorted_strict hne
  obtain ⟨us, m, vs, hcut, hjoin⟩ := halve_cut PageUnit.stamp
    (List.ne_nil_of_length_pos (by rw [hlen]; omega)) hsorted
  have hmem : ∀ u ∈ us ++ vs, PageUnit.isActive u = true := by
    intro u hu
    rcases List.mem_append.mp (hperm.mem_iff.mp (hjoin.perm.mem_iff.mp hu)) with hu | hu <;>
      exact (List.mem_filter.mp hu).2
  have hcapb : (t.heap b).activeDeadCount.1 ≤ kind.cap cfg := by
    rw [hs.active hk]
    exact (List.length_filter_le _ _).trans hs.counted.length_le
  have hcapc : (t.heap c).activeDeadCount.1 ≤ kind.cap cfg := by
    rw [hc.active hk]
    exact (List.length_filter_le _ _).trans hc.counted.length_le
  have hus := hjoin.left_length
  have hvs := hjoin.right_length
  rw [hlen] at hus hvs
  have husle : us.length ≤ kind.cap cfg := by omega
  have hvsle : vs.length ≤ kind.cap cfg := by omega
  obtain ⟨t₁, l, hal, t₂, r, har, hb₂, t₃, h₃, t₄, h₄, hb₄⟩ := fill_two hk
    hs.counted.cap_lt hg husle hvsle
    (fun u hu => hmem u (List.mem_append_left _ hu))
    (fun u hu => hmem u (List.mem_append_right _ hu))
  refine ⟨t₄, l, r, us, m, vs, _, ?_, hb₄, hjoin, hperm⟩
  have hact := active_eq hs.page hs.counted
  have hact' := active_eq hc.page hc.counted
  rw [mergePages]
  simp only [if_neg hlarge, hact, hact', cutAtMiddle, hcut, hal, har, h₃, h₄, bind, Except.bind,
    pure, Except.pure]

theorem mergePages_keySplit (hk : Lawful kind) (hg : GraveyardOk t)
    (hs : Source cfg kind t good needed f b p) (hc : Source cfg kind t good needed fc c q)
    (hadj : Tiling.Adjacent f fc)
    (hlarge : ¬ (t.heap c).activeDeadCount.1 + (t.heap b).activeDeadCount.1 ≤
      4 * maxUnits cfg (t.heap b) / 5)
    (htwo : 2 ≤ (t.heap c).activeDeadCount.1 + (t.heap b).activeDeadCount.1) :
    ∃ t' l r us m vs, mergePages cfg kind t b f (i, c, fc) = .ok (t', .keySplit i (.byKey
        ⟨min fc.lower f.lower, cfg.keys.decKey m⟩ l ⟨m, max fc.upper f.upper⟩ r)) ∧
      Built t t' [(l, kind.wrap (filledPage us)), (r, kind.wrap (filledPage vs))] ∧
      Halves good needed cfg.keys (f.merged fc)
        ((t.heap c).activeDeadCount.1 + (t.heap b).activeDeadCount.1) us m vs ∧
      ∀ u ∈ us ++ vs, (u ∈ p.units ∨ u ∈ q.units) ∧ PageUnit.isActive u = true := by
  obtain ⟨t', l, r, us, m, vs, joined, heq, hb, hjoin, hperm⟩ :=
    mergePages_cut (i := i) hk hg hs hc hadj hlarge
  have hlen := hperm.length_eq
  rw [List.length_append, ← hs.active hk, ← hc.active hk, add_comm] at hlen
  have hh := halves_of_cut (S := cfg.keys)
    ((hs.tiling.append hc.tiling hadj).perm hperm.symm) hjoin (by rw [hlen]; exact htwo)
  rw [hlen] at hh
  refine ⟨t', l, r, us, m, vs, heq, hb, hh, fun u hu => ?_⟩
  rcases List.mem_append.mp (hperm.mem_iff.mp (hjoin.perm.mem_iff.mp hu)) with hu | hu
  · exact ⟨.inl (List.mem_filter.mp hu).1, (List.mem_filter.mp hu).2⟩
  · exact ⟨.inr (List.mem_filter.mp hu).1, (List.mem_filter.mp hu).2⟩

end Merge

end CMVBT.PageRewrite
