import CMVBT.NewPages

/-!
# What a split does to the content of a page

The earlier modules follow the pages of a tree through its histories. Here a page
stands alone: any block in use whose slots satisfy the page invariant, at any fence.
A split loses no active unit, makes none up and changes none, and the fresh pages
satisfy the page invariant for the fences that the split returns.
-/
namespace CMVBT.PageContent
open KeyInterval Halving FenceTiling PageModel CMVBT.Tree BlockSupply LeafHistory PageRewrite
open NewPages

variable {K P : Type} [LinearOrder K]

/-- A slot of either page type. -/
inductive Content (K P : Type) where
  | record (r : RecordPoint K P)
  | entry (e : Entry K)
deriving DecidableEq, Repr

instance contentUnit : PageUnit K (Content K P) where
  span
    | .record r => PageUnit.span r
    | .entry e => PageUnit.span e
  stamp
    | .record r => PageUnit.stamp r
    | .entry e => PageUnit.stamp e
  isActive
    | .record r => PageUnit.isActive r
    | .entry e => PageUnit.isActive e

/-- The slots in use. -/
def content : Node K P → List (Content K P)
  | .leaf p => p.asUnits.map .record
  | .internal p => p.asUnits.map .entry

def activeContent (n : Node K P) : List (Content K P) := (content n).filter PageUnit.isActive

def CountedNode (cfg : Config K) : Node K P → Prop
  | .leaf p => p.Counted cfg.numRecords
  | .internal p => p.Counted cfg.fanOut

/-- The page invariant: the packed counters are right, the slots are in version order,
and the active ones lie in the fence `f` without overlap. In a directory they leave no
key of the fence out. -/
structure Sound (cfg : Config K) (f : Interval K) (n : Node K P) : Prop where
  counted : CountedNode cfg n
  ordered : (content n).Pairwise (fun a b => PageUnit.stamp a ≤ PageUnit.stamp b)
  tiling : Tiling PageUnit.span (fun _ => True) (fun _ => n.isLeaf = false) f (activeContent n)

/-- A block that is allocated and not dead. -/
structure InUse (t : MVBTSt K P) (b : ℕ) : Prop where
  used : b < t.nextBlock
  kept : ∀ d ∈ graveyard t, d.block ≠ b

/-- A page that holds exactly the units `us`, all of them active. -/
structure Holds (cfg : Config K) (f : Interval K) (us : List (Content K P)) (n : Node K P) :
    Prop where
  sound : Sound cfg f n
  units : (content n).Perm us
  counts : n.activeDeadCount = (us.length, 0)

/-- The two answers of a split of block `b` with the fence `f`. -/
inductive SplitKeeps (cfg : Config K) (t t' : MVBTSt K P) (b : ℕ) (f : Interval K) :
    BlockSplit K → Prop
  | byVersion {c : ℕ} :
      (t.heap b).activeDeadCount.1 < filling80Percent cfg (t.heap b) →
      Built t t' [(c, t'.heap c)] → Holds cfg f (activeContent (t.heap b)) (t'.heap c) →
      SplitKeeps cfg t t' b f (.byVersion c)
  | byKey {l r : ℕ} {m : K} {us vs : List (Content K P)} :
      filling80Percent cfg (t.heap b) ≤ (t.heap b).activeDeadCount.1 →
      Built t t' [(l, t'.heap l), (r, t'.heap r)] → cfg.keys.minKey < m →
      (us ++ vs).Perm (activeContent (t.heap b)) → us ≠ [] → vs ≠ [] →
      Holds cfg ⟨f.lower, cfg.keys.decKey m⟩ us (t'.heap l) →
      Holds cfg ⟨m, f.upper⟩ vs (t'.heap r) →
      SplitKeeps cfg t t' b f (.byKey ⟨f.lower, cfg.keys.decKey m⟩ l ⟨m, f.upper⟩ r)

/-! ## Both page types at once -/

section Kind
variable {α : Type} [PageUnit K α]

/-- How the units of one page type are slots. -/
structure Embeds (kind : PageKind K P α) (inj : α → Content K P) : Prop where
  lawful : Lawful kind
  content_wrap : ∀ p, content (kind.wrap p) = p.asUnits.map inj
  counted_wrap : ∀ cfg p, CountedNode cfg (kind.wrap p) ↔ p.Counted (kind.cap cfg)
  span : ∀ u, PageUnit.span (inj u) = PageUnit.span u
  stamp : ∀ u, PageUnit.stamp (inj u) = PageUnit.stamp u
  isActive : ∀ u, PageUnit.isActive (inj u) = PageUnit.isActive u

theorem embeds_leaf : Embeds (leafKind : PageKind K P (RecordPoint K P)) .record where
  lawful := leafKind_lawful
  content_wrap _ := rfl
  counted_wrap _ _ := Iff.rfl
  span _ := rfl
  stamp _ := rfl
  isActive _ := rfl

theorem embeds_internal : Embeds (internalKind : PageKind K P (Entry K)) .entry where
  lawful := internalKind_lawful
  content_wrap _ := rfl
  counted_wrap _ _ := Iff.rfl
  span _ := rfl
  stamp _ := rfl
  isActive _ := rfl

variable {cfg : Config K} {kind : PageKind K P α} {inj : α → Content K P} {t : MVBTSt K P}
  {needed : K → Prop} {f : Interval K} {b : ℕ} {p : Page α} {us : List α}

theorem Embeds.filter_map (he : Embeds kind inj) (us : List α) :
    (us.map inj).filter PageUnit.isActive = (us.filter PageUnit.isActive).map inj := by
  rw [List.filter_map]
  congr 1
  apply List.filter_congr
  intro u _
  exact he.isActive u

theorem Embeds.active_wrap (he : Embeds kind inj) (hp : p.Counted (kind.cap cfg)) :
    activeContent (kind.wrap p) = (p.units.filter PageUnit.isActive).map inj := by
  rw [activeContent, he.content_wrap, hp.asUnits, he.filter_map]

theorem Embeds.tiling_map (he : Embeds kind inj) :
    Tiling PageUnit.span (fun _ => True) needed f (us.map inj) ↔
      Tiling PageUnit.span (fun _ => True) needed f us := by
  constructor
  · intro h
    refine ⟨?_, ?_, fun _ _ => trivial, ?_, ?_⟩
    · intro u hu
      rw [← he.span]
      exact h.proper _ (List.mem_map_of_mem hu)
    · intro u hu
      rw [← he.span]
      exact h.within _ (List.mem_map_of_mem hu)
    · refine (List.pairwise_map.mp h.disjoint).imp ?_
      intro a b hd
      rwa [he.span, he.span] at hd
    · intro k hk hn
      obtain ⟨x, hx, hkx⟩ := h.complete k hk hn
      obtain ⟨u, hu, rfl⟩ := List.mem_map.mp hx
      exact ⟨u, hu, he.span u ▸ hkx⟩
  · intro h
    refine ⟨?_, ?_, fun _ _ => trivial, ?_, ?_⟩
    · intro x hx
      obtain ⟨u, hu, rfl⟩ := List.mem_map.mp hx
      rw [he.span]
      exact h.proper u hu
    · intro x hx
      obtain ⟨u, hu, rfl⟩ := List.mem_map.mp hx
      rw [he.span]
      exact h.within u hu
    · refine List.pairwise_map.mpr (h.disjoint.imp ?_)
      intro a b hd
      rwa [he.span, he.span]
    · intro k hk hn
      obtain ⟨u, hu, hku⟩ := h.complete k hk hn
      exact ⟨_, List.mem_map_of_mem hu, (he.span u).symm ▸ hku⟩

/-- A block of this page type whose page satisfies the page invariant. -/
theorem Embeds.source (he : Embeds kind inj) (hb : InUse t b)
    (hp : kind.unwrap (t.heap b) = some p) (hs : Sound cfg f (t.heap b)) :
    Source cfg kind t (fun _ => True) (fun _ => kind.isLeaf = false) f b p := by
  have heq := he.lawful.eq_wrap hp
  have hcounted := hs.counted
  rw [heq, he.counted_wrap] at hcounted
  refine ⟨hp, hcounted, hb.used, hb.kept, ?_⟩
  have htiling := hs.tiling
  rw [heq, he.active_wrap hcounted, he.lawful.isLeaf_wrap] at htiling
  exact he.tiling_map.mp htiling

theorem Embeds.ordered (he : Embeds kind inj) (hp : p.Counted (kind.cap cfg))
    (hs : Sound cfg f (kind.wrap p)) :
    (p.units.filter PageUnit.isActive).Pairwise
      (fun a b => PageUnit.stamp a ≤ PageUnit.stamp b) := by
  have hordered := hs.ordered
  rw [he.content_wrap, hp.asUnits, List.pairwise_map] at hordered
  refine (hordered.filter _).imp ?_
  intro a b hab
  rwa [he.stamp, he.stamp] at hab

/-- A page that was filled once satisfies the page invariant. -/
theorem Embeds.holds (he : Embeds kind inj) (hcap : kind.cap cfg < 2 ^ 16)
    (hlen : us.length ≤ kind.cap cfg)
    (ha : ∀ u ∈ us, PageUnit.isActive u = true)
    (ht : Tiling PageUnit.span (fun _ => True) (fun _ => kind.isLeaf = false) f us)
    (ho : us.Pairwise (fun a b => PageUnit.stamp a ≤ PageUnit.stamp b)) :
    Holds cfg f (us.map inj) (kind.wrap (filledPage us)) := by
  have hcounted : (filledPage us).Counted (kind.cap cfg) := (Page.bulkPush_new hcap hlen ha).2
  have hcontent : content (kind.wrap (filledPage us)) = us.map inj := by
    rw [he.content_wrap, hcounted.asUnits]
    rfl
  have hactive : activeContent (kind.wrap (filledPage us)) = us.map inj := by
    rw [he.active_wrap hcounted]
    exact congrArg _ (List.filter_eq_self.mpr ha)
  refine ⟨⟨(he.counted_wrap _ _).mpr hcounted, ?_, ?_⟩, ?_, ?_⟩
  · rw [hcontent, List.pairwise_map]
    refine ho.imp ?_
    intro a b hab
    rwa [he.stamp, he.stamp]
  · rw [hactive, he.lawful.isLeaf_wrap]
    exact he.tiling_map.mpr ht
  · rw [hcontent]
  · rw [he.lawful.count_wrap, filledPage_count (by omega), List.length_map]

/-- The two halves of a cut, as pages. -/
theorem Embeds.holds_cut (he : Embeds kind inj) (hcap : kind.cap cfg < 2 ^ 16) {joined vs : List α}
    {m : K} (ht : Tiling PageUnit.span (fun _ => True) (fun _ => kind.isLeaf = false) f joined)
    (ha : ∀ u ∈ joined, PageUnit.isActive u = true)
    (hc : Cut PageUnit.key PageUnit.stamp joined us m vs) (htwo : 2 ≤ joined.length)
    (hmax : joined.length ≤ 2 * kind.cap cfg) :
    f.lower < m ∧ m ≤ f.upper ∧ us ≠ [] ∧ vs ≠ [] ∧
      Holds cfg ⟨f.lower, cfg.keys.decKey m⟩ (us.map inj) (kind.wrap (filledPage us)) ∧
      Holds cfg ⟨m, f.upper⟩ (vs.map inj) (kind.wrap (filledPage vs)) := by
  have hh := halves_of_cut (S := cfg.keys) ht hc htwo
  have hus := hh.left_length
  have hvs := hh.right_length
  have hmem : ∀ u ∈ us ++ vs, PageUnit.isActive u = true :=
    fun u hu => ha u (hc.perm.mem_iff.mp hu)
  refine ⟨hh.lower_lt, hh.le_upper, List.ne_nil_of_length_pos (by omega),
    List.ne_nil_of_length_pos (by omega), ?_, ?_⟩
  · exact he.holds hcap (by omega) (fun u hu => hmem u (List.mem_append_left _ hu)) hh.left
      hc.left_sorted
  · exact he.holds hcap (by omega) (fun u hu => hmem u (List.mem_append_right _ hu)) hh.right
      hc.right_sorted

/-- A split of a page of one type. -/
theorem Embeds.splitPage_keeps (he : Embeds kind inj) (hg : GraveyardOk t) (hb : InUse t b)
    (hp : kind.unwrap (t.heap b) = some p) (hs : Sound cfg f (t.heap b))
    (htwo : 2 ≤ (t.heap b).activeDeadCount.1) :
    ∃ t' s, splitPage cfg kind t b f = .ok (t', s) ∧ SplitKeeps cfg t t' b f s := by
  have hsrc := he.source hb hp hs
  have heq := he.lawful.eq_wrap hp
  have hactive := hsrc.active he.lawful
  have hcontent : activeContent (t.heap b) = (p.units.filter PageUnit.isActive).map inj := by
    rw [heq, he.active_wrap hsrc.counted]
  have hle : (p.units.filter PageUnit.isActive).length ≤ kind.cap cfg :=
    (List.length_filter_le _ _).trans hsrc.counted.length_le
  by_cases hfull : filling80Percent cfg (t.heap b) ≤ (t.heap b).activeDeadCount.1
  · obtain ⟨t', l, r, us, m, vs, hrun, hbuilt, hc⟩ := splitPage_cut he.lawful hg hsrc hfull htwo
    have hperm := sortedBy_perm (PageUnit.key : α → K) (p.units.filter PageUnit.isActive)
    obtain ⟨hlt, -, hus, hvs, hl, hr⟩ := he.holds_cut hsrc.counted.cap_lt
      (hsrc.tiling.perm hperm.symm)
      (fun u hu => (List.mem_filter.mp (mem_sortedBy.mp hu)).2) hc
      (by rw [length_sortedBy]; omega) (by rw [length_sortedBy]; omega)
    have hheapl : t'.heap l = kind.wrap (filledPage us) := hbuilt.heap_new (l, _) (by simp)
    have hheapr : t'.heap r = kind.wrap (filledPage vs) := hbuilt.heap_new (r, _) (by simp)
    rw [← hheapl] at hl
    rw [← hheapr] at hr
    rw [← hheapl, ← hheapr] at hbuilt
    refine ⟨t', _, hrun, .byKey hfull hbuilt ((cfg.keys.min_le _).trans_lt hlt) ?_
      (by simpa using hus) (by simpa using hvs) hl hr⟩
    rw [hcontent, ← List.map_append]
    exact (hc.perm.trans hperm).map inj
  · obtain ⟨t', c, hrun, hbuilt⟩ := splitPage_byVersion he.lawful hg hsrc hfull
    have hheap : t'.heap c = kind.wrap (filledPage (p.units.filter PageUnit.isActive)) :=
      hbuilt.heap_new (c, _) (by simp)
    have hholds := he.holds hsrc.counted.cap_lt hle
      (fun u hu => (List.mem_filter.mp hu).2) hsrc.tiling (he.ordered hsrc.counted (heq ▸ hs))
    rw [← hheap, ← hcontent] at hholds
    rw [← hheap] at hbuilt
    exact ⟨t', _, hrun, .byVersion (not_le.mp hfull) hbuilt hholds⟩

end Kind

/-- In a leaf the page invariant asks for distinct live keys inside the fence. -/
theorem sound_leaf_iff {cfg : Config K} {f : Interval K} {p : LeafPage K P} :
    Sound cfg f (.leaf p) ↔ p.Counted cfg.numRecords ∧
      p.asUnits.Pairwise (fun a b => a.version.insertVersion ≤ b.version.insertVersion) ∧
      (∀ r ∈ p.activeUnits, r.key ∈ f) ∧ p.activeUnits.Pairwise (fun a b => a.key ≠ b.key) := by
  have hactive : activeContent (.leaf p) = p.activeUnits.map Content.record :=
    embeds_leaf.filter_map p.asUnits
  constructor
  · rintro ⟨hc, ho, ht⟩
    rw [hactive] at ht
    have ht := embeds_leaf.tiling_map.mp ht
    change (p.asUnits.map Content.record).Pairwise _ at ho
    rw [List.pairwise_map] at ho
    refine ⟨hc, ho, ?_, ?_⟩
    · exact fun r hr => ht.within r hr r.key ⟨le_rfl, le_rfl⟩
    · exact ht.disjoint.imp (fun hd => span_disjoint.mp hd)
  · rintro ⟨hc, ho, hk, hd⟩
    refine ⟨hc, List.pairwise_map.mpr (ho.imp id), ?_⟩
    rw [hactive, embeds_leaf.tiling_map]
    refine ⟨fun r _ => le_refl r.key, fun r hr k hkr => ?_, fun _ _ => trivial,
      hd.imp (fun h => span_disjoint.mpr h), nofun⟩
    obtain rfl := mem_span.mp hkr
    exact hk r hr

/-- A split of any page with at least two active units returns one page with exactly
these units, or two pages and two fences that share them out. -/
theorem split_keeps_content {cfg : Config K} {t : MVBTSt K P} {b : ℕ} {f : Interval K}
    (hg : GraveyardOk t) (hb : InUse t b) (hs : Sound cfg f (t.heap b))
    (htwo : 2 ≤ (t.heap b).activeDeadCount.1) :
    ∃ t' s, split cfg t b f = .ok (t', s) ∧ SplitKeeps cfg t t' b f s := by
  cases hp : t.heap b with
  | leaf p =>
    rw [split, hp, Node.isLeaf, if_pos rfl]
    exact embeds_leaf.splitPage_keeps hg hb (by rw [hp]; rfl) hs htwo
  | internal p =>
    rw [split, hp, Node.isLeaf, if_neg Bool.false_ne_true]
    exact embeds_internal.splitPage_keeps hg hb (by rw [hp]; rfl) hs htwo

/-- Four records of a page with four slots, not in key order. -/
def fullLeaf : Node UInt64 ℕ :=
  .leaf ⟨fromActiveDead 4 0, [⟨30, .new 1, 0⟩, ⟨10, .new 2, 0⟩, ⟨40, .new 3, 0⟩, ⟨20, .new 4, 0⟩]⟩

theorem fullLeaf_sound : Sound ⟨4, 4, u64Space⟩ u64Space.full fullLeaf :=
  sound_leaf_iff.mpr ⟨⟨by decide, by decide, by decide⟩, by decide,
    fun r _ => u64Space.mem_full r.key, by decide⟩

/-- A tree with that page as its only block. -/
def fullLeafTree : MVBTSt UInt64 ℕ :=
  ⟨fun _ => fullLeaf, 1, FrugalList.new (0, 1) 1, fun _ => .next,
    CommitClock.CommitState.new 1, 0, none, false⟩

theorem split_keeps_content_full_leaf :
    ∃ t' s, split ⟨4, 4, u64Space⟩ fullLeafTree 0 u64Space.full = .ok (t', s) ∧
      SplitKeeps ⟨4, 4, u64Space⟩ fullLeafTree t' 0 u64Space.full s :=
  split_keeps_content ⟨nofun, List.nodup_nil⟩ ⟨by decide, nofun⟩ fullLeaf_sound (by decide)

end CMVBT.PageContent
