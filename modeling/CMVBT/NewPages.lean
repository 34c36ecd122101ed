import CMVBT.PageRewrite
import CMVBT.TreeInvariant

/-!
# The pages that a split or a merge leaves behind

A structure modification replaces one or two living blocks by fresh ones. The
fresh pages hold active units only, tile the fences that the modification
announces, and those fences together are the fence of what they replace. Except
after the version split of a nearly empty root, none of them needs a repair.
-/
namespace CMVBT.NewPages
open KeyInterval LastMatch FenceTiling VersionedLog PageModel CMVBT.Tree BlockSupply PageRewrite
open TreeInvariant DirectoryHistory LeafHistory

variable {K P : Type} [LinearOrder K]

/-- Pages large enough for the percentages to be apart, small enough for the
packed length. The two capacities in use are 125 and 127. -/
structure Roomy (cfg : Config K) : Prop where
  fanOut_ge : 10 ≤ cfg.fanOut
  fanOut_lt : cfg.fanOut < 2 ^ 16
  numRecords_ge : 10 ≤ cfg.numRecords
  numRecords_lt : cfg.numRecords < 2 ^ 16

/-- The two capacities that the source is built with. -/
theorem roomy_of_capacity {N : ℕ} (hN : N = 125 ∨ N = 127) (keys : KeySpace K) :
    Roomy (⟨N, N, keys⟩ : Config K) := by
  refine ⟨?_, ?_, ?_, ?_⟩ <;> simp only <;> omega

/-- The smallest capacity. -/
theorem roomy_ten (keys : KeySpace K) : Roomy (⟨10, 10, keys⟩ : Config K) :=
  ⟨le_rfl, by simp, le_rfl, by simp⟩

/-- A page of active units that tile the fence `f`. -/
def FreshInv (cfg : Config K) (clock : ℕ) (log : Log K P) (link : ℕ → Entry K → Prop) (level : ℕ)
    (f : Interval K) : Node K P → Prop
  | .leaf p => level = 1 ∧ p.Counted cfg.numRecords ∧
    (∀ r ∈ p.units, PageUnit.isActive r = true ∧ r.version.insertVersion < clock) ∧
    Tiling PageUnit.span (fun r => live log r.key = some r.payload)
      (fun k => (live log k).isSome = true) f p.units ∧ InVersionOrder p.units
  | .internal p => 1 < level ∧ p.Counted cfg.fanOut ∧
    (∀ e ∈ p.units, PageUnit.isActive e = true ∧ e.version ≤ clock) ∧
    Tiling Entry.fence (link level) (fun _ => True) f p.units ∧ InVersionOrder p.units

section Fresh
variable {cfg : Config K} {clock : ℕ} {log : Log K P} {link link' : ℕ → Entry K → Prop}
  {level : ℕ} {f : Interval K}

/-- A fresh page starts a life at the version it is linked with. -/
theorem FreshInv.nodeInv {n : Node K P} (h : FreshInv cfg clock log link level f n)
    (hlog : Before log clock) : NodeInv cfg (clock + 1) log link ⟨f, level, clock, none⟩ n := by
  cases n with
  | leaf p =>
    obtain ⟨hlevel, hc, hunits, ht, ho⟩ := h
    have hdel : ∀ r ∈ p.units, r.version.deleteVersion = none := by
      intro r hr
      have := (hunits r hr).1
      simpa [PageUnit.isActive, VersionInfo.isDeleted] using this
    refine ⟨hlevel, hc, ?_, ?_, ?_, ho, ?_⟩
    · intro r hr
      refine ⟨(hunits r hr).2.trans (Nat.lt_succ_self _), fun d hd => ?_⟩
      rw [hdel r hr] at hd
      cases hd
    · intro v hv _
      have hfilter : p.units.filter (fun r => r.version.matches v) = p.units := by
        rw [List.filter_eq_self]
        intro r hr
        rw [matches_eq_true]
        refine ⟨(hunits r hr).2.le.trans hv, fun d hd => ?_⟩
        rw [hdel r hr] at hd
        cases hd
      unfold Shows
      rw [hfilter]
      refine ht.congr ?_ ?_
      · intro r _ hg
        rw [liveAt_of_before hlog hv]
        exact hg
      · intro k _ hn
        rwa [liveAt_of_before hlog hv] at hn
    · refine ht.disjoint.imp ?_
      intro x r hd hkey
      exact absurd hkey (span_disjoint.mp hd)
    · intro r hr
      exact known_of_live (ht.good r hr)
  | internal p =>
    obtain ⟨hlevel, hc, hunits, ht, ho⟩ := h
    have hact : p.units.filter PageUnit.isActive = p.units :=
      List.filter_eq_self.mpr (fun e he => (hunits e he).1)
    have ht' : Tiling Entry.fence (link level) (fun _ => True) f
        (p.units.filter PageUnit.isActive) := by
      rwa [hact]
    have hnew : NewestActive p.units f :=
      newestActive_of_active ht (fun e he => (hunits e he).1)
    refine ⟨hlevel, hc, ?_, ?_, fun _ => ht', fun _ => hnew, ho⟩
    · intro e he
      exact ⟨ht.proper e he, ht.within e he, Nat.lt_succ_of_le (hunits e he).2⟩
    · intro v hv
      exact partitions_newest ht' hnew (fun e he => (hunits e he).2.trans hv)

theorem FreshInv.mono {n : Node K P} (h : FreshInv cfg clock log link level f n)
    (hlink : ∀ e, link level e → link' level e) : FreshInv cfg clock log link' level f n := by
  cases n with
  | leaf p => exact h
  | internal p =>
    obtain ⟨hlevel, hc, hunits, ht, ho⟩ := h
    exact ⟨hlevel, hc, hunits, ht.congr (fun e _ hg => hlink e hg) (fun _ _ hn => hn), ho⟩

theorem FreshInv.units_link {p : InternalPage K}
    (h : FreshInv cfg clock log link level f (.internal p)) : ∀ e ∈ p.units, link level e :=
  h.2.2.2.1.good

omit [LinearOrder K] in
theorem filledPage_count {α : Type} [PageUnit K α] {us : List α} (h : us.length < 2 ^ 16) :
    (filledPage us).activeDeadCount = (us.length, 0) := by
  simp only [Page.activeDeadCount, filledPage, activeLen_fromActiveDead h (Nat.two_pow_pos 16),
    deadLen_fromActiveDead h (Nat.two_pow_pos 16)]

theorem freshInv_leaf {us : List (RecordPoint K P)} (hcap : cfg.numRecords < 2 ^ 16)
    (hlen : us.length ≤ cfg.numRecords)
    (hus : ∀ r ∈ us, PageUnit.isActive r = true ∧ r.version.insertVersion < clock)
    (ht : Tiling PageUnit.span (fun r => live log r.key = some r.payload)
      (fun k => (live log k).isSome = true) f us) (ho : InVersionOrder us) :
    FreshInv cfg clock log link 1 f (leafKind.wrap (filledPage us)) :=
  ⟨rfl, (Page.bulkPush_new hcap hlen (fun r hr => (hus r hr).1)).2, hus, ht, ho⟩

theorem freshInv_internal {us : List (Entry K)} (hcap : cfg.fanOut < 2 ^ 16)
    (hlen : us.length ≤ cfg.fanOut) (hlevel : 1 < level)
    (hus : ∀ e ∈ us, PageUnit.isActive e = true ∧ e.version ≤ clock)
    (ht : Tiling Entry.fence (link level) (fun _ => True) f us) (ho : InVersionOrder us) :
    FreshInv cfg clock log link level f (internalKind.wrap (filledPage us) : Node K P) :=
  ⟨hlevel, (Page.bulkPush_new hcap hlen (fun e he => (hus e he).1)).2, hus, ht, ho⟩

/-- A page without dead units that is neither nearly empty nor nearly full. -/
theorem unsafeDegree_ok {n : Node K P} {a : ℕ} (hn : n.activeDeadCount = (a, 0))
    (hlow : filling20Percent cfg n < a) (hupp : a < overflowUnitsCount cfg n) :
    unsafeDegree cfg n = .ok := by
  simp only [unsafeDegree, hn]
  rw [if_neg (not_le.mpr hlow)]
  simp [not_le.mpr hupp]

end Fresh

/-! ## Both kinds at once -/

/-- The invariant as splits and merges of one page kind see it, at one level. -/
structure Handles {α : Type} [PageUnit K α] (cfg : Config K) (t : MVBTSt K P) (g : Ghost K P)
    (kind : PageKind K P α) (level : ℕ) (good : α → Prop) (needed : K → Prop) : Prop where
  lawful : Lawful kind
  cap_ge : 10 ≤ kind.cap cfg
  cap_lt : kind.cap cfg < 2 ^ 16
  source : ∀ b < t.nextBlock, (g.life b).death = none → (g.life b).level = level →
    ∃ p, Source cfg kind t good needed (g.life b).fence b p ∧
      (∀ u ∈ p.units, PageUnit.stamp u < t.commit.clock) ∧ InVersionOrder p.units
  fresh : ∀ f us, us.length ≤ kind.cap cfg →
    (∀ u ∈ us, PageUnit.isActive u = true ∧ PageUnit.stamp u < t.commit.clock) →
    Tiling PageUnit.span good needed f us → InVersionOrder us →
    FreshInv cfg t.commit.clock g.log (Link g.life t.nextBlock) level f (kind.wrap (filledPage us))

section Handles
variable {cfg : Config K} {t : MVBTSt K P} {g : Ghost K P}

theorem handles_leaf (h : Living cfg t g) (hc : Roomy cfg) :
    Handles cfg t g leafKind 1 (fun r => live g.log r.key = some r.payload)
      (fun k => (live g.log k).isSome = true) where
  lawful := leafKind_lawful
  cap_ge := hc.numRecords_ge
  cap_lt := hc.numRecords_lt
  source b hb halive hlevel := by
    have hnode := h.node b hb
    have hleaf := (h.isLeaf_iff hb).mpr hlevel
    cases hn : t.heap b with
    | internal p => simp [hn, Node.isLeaf] at hleaf
    | leaf p =>
      rw [hn] at hnode
      refine ⟨p, ⟨by rw [hn]; rfl, hnode.2.counted, hb, h.not_buried halive, ?_⟩, ?_, hnode.2.sorted⟩
      · exact hnode.2.tiling h.logged halive (h.born b hb).2.1
      · exact fun r hr => (hnode.2.stamps r hr).1
  fresh f us hlen hus ht ho := freshInv_leaf hc.numRecords_lt hlen hus ht ho

theorem handles_internal (h : Living cfg t g) (hc : Roomy cfg) {level : ℕ}
    (hlevel : 1 < level) :
    Handles cfg t g (internalKind : PageKind K P (Entry K)) level
      (Link g.life t.nextBlock level) (fun _ => True) where
  lawful := internalKind_lawful
  cap_ge := hc.fanOut_ge
  cap_lt := hc.fanOut_lt
  source b hb halive hl := by
    have hnode := h.node b hb
    have hleaf := h.isLeaf_iff hb
    cases hn : t.heap b with
    | leaf p =>
      simp only [hn, Node.isLeaf, true_iff] at hleaf
      omega
    | internal p =>
      rw [hn] at hnode
      obtain ⟨-, hdir⟩ := hnode
      rw [hl] at hdir
      refine ⟨p, ⟨by rw [hn]; rfl, hdir.counted, hb, h.not_buried halive, ?_⟩, ?_, hdir.sorted⟩
      · exact hdir.tiling halive
      · exact fun e he => (hdir.inside e he).2.2
  fresh f us hlen hus ht ho := freshInv_internal hc.fanOut_lt hlen hlevel
    (fun e he => ⟨(hus e he).1, (hus e he).2.le⟩) ht ho

end Handles

/-- Fences and blocks that a modification announces to the parent. -/
abbrev NewLinks (K : Type) := List (Interval K × ℕ)

/-- The blocks behind `xs` are fresh pages at `level`, and their fences cut the
set of keys `keys`. -/
structure Pieces (cfg : Config K) (t t' : MVBTSt K P) (g : Ghost K P) (level : ℕ)
    (keys : K → Prop) (xs : NewLinks K) : Prop where
  built : Built t t' (xs.map (fun x => (x.2, t'.heap x.2)))
  fresh : ∀ x ∈ xs, FreshInv cfg t.commit.clock g.log (Link g.life t.nextBlock) level x.1
    (t'.heap x.2)
  proper : ∀ x ∈ xs, x.1.Proper
  disjoint : xs.Pairwise (fun x y => x.1.Disjoint y.1)
  cover : ∀ k, (∃ x ∈ xs, k ∈ x.1) ↔ keys k

def splitFences (f : Interval K) : BlockSplit K → NewLinks K
  | .byKey leftFence left rightFence right => [(leftFence, left), (rightFence, right)]
  | .byVersion fresh => [(f, fresh)]

section Pieces
variable {α : Type} [PageUnit K α] {cfg : Config K} {t t' : MVBTSt K P} {g : Ghost K P}
  {kind : PageKind K P α} {level : ℕ} {good : α → Prop} {needed : K → Prop} {f : Interval K}

theorem Handles.degree_ok (hh : Handles cfg t g kind level good needed) {us : List α}
    (hlow : (kind.cap cfg + 4) / 5 < us.length) (hupp : us.length < kind.cap cfg - 1) :
    unsafeDegree cfg (kind.wrap (filledPage us)) = .ok := by
  have hcount := filledPage_count (show us.length < 2 ^ 16 by have := hh.cap_lt; omega)
  refine unsafeDegree_ok (hh.lawful.count_wrap _ ▸ hcount) ?_ ?_
  · simp only [filling20Percent, maxUnits, hh.lawful.isLeaf_wrap]
    exact hlow
  · simp only [overflowUnitsCount, hh.lawful.isLeaf_wrap]
    simp only [PageKind.cap] at hupp
    split_ifs at hupp ⊢ <;> omega

/-- The two halves of a cut are pieces. -/
theorem Handles.pieces_two (hh : Handles cfg t g kind level good needed) {l r n : ℕ} {m : K}
    {us vs : List α} (hhalf : Halves good needed cfg.keys f n us m vs)
    (hb : Built t t' [(l, kind.wrap (filledPage us)), (r, kind.wrap (filledPage vs))])
    (hn : n ≤ 2 * kind.cap cfg - 1)
    (hunits : ∀ u ∈ us ++ vs, PageUnit.isActive u = true ∧ PageUnit.stamp u < t.commit.clock) :
    Pieces cfg t t' g level (· ∈ f) [(⟨f.lower, cfg.keys.decKey m⟩, l), (⟨m, f.upper⟩, r)] := by
  have hl : t'.heap l = kind.wrap (filledPage us) := hb.heap_new (l, _) (by simp)
  have hr : t'.heap r = kind.wrap (filledPage vs) := hb.heap_new (r, _) (by simp)
  have hmin : cfg.keys.minKey < m := (cfg.keys.min_le _).trans_lt hhalf.lower_lt
  have hleft := hhalf.left_length
  have hright := hhalf.right_length
  refine ⟨by simpa [hl, hr] using hb, ?_, ?_, ?_, ?_⟩
  · intro x hx
    rcases List.mem_cons.mp hx with rfl | hx
    · rw [hl]
      exact hh.fresh _ us (by omega) (fun u hu => hunits u (List.mem_append_left _ hu)) hhalf.left
        hhalf.left_sorted
    · obtain rfl := List.mem_singleton.mp hx
      rw [hr]
      exact hh.fresh _ vs (by omega) (fun u hu => hunits u (List.mem_append_right _ hu)) hhalf.right
        hhalf.right_sorted
  · intro x hx
    rcases List.mem_cons.mp hx with rfl | hx
    · exact (cfg.keys.le_dec m hmin _).mpr hhalf.lower_lt
    · obtain rfl := List.mem_singleton.mp hx
      exact hhalf.le_upper
  · exact List.pairwise_pair.mpr (cfg.keys.cut_disjoint hhalf.lower_lt)
  · intro k
    simp only [List.mem_cons, List.not_mem_nil, or_false, exists_eq_or_imp, exists_eq_left]
    exact cfg.keys.mem_cut hhalf.lower_lt hhalf.le_upper

theorem Handles.pieces_one (hh : Handles cfg t g kind level good needed) {c : ℕ} {us : List α}
    (ht : Tiling PageUnit.span good needed f us) (hf : f.Proper)
    (hb : Built t t' [(c, kind.wrap (filledPage us))]) (hlen : us.length ≤ kind.cap cfg)
    (hunits : ∀ u ∈ us, PageUnit.isActive u = true ∧ PageUnit.stamp u < t.commit.clock)
    (ho : InVersionOrder us) : Pieces cfg t t' g level (· ∈ f) [(f, c)] := by
  have hc : t'.heap c = kind.wrap (filledPage us) := hb.heap_new (c, _) (by simp)
  refine ⟨by simpa [hc] using hb, ?_, by simpa using hf, by simp, by simp⟩
  intro x hx
  obtain rfl := List.mem_singleton.mp hx
  rw [hc]
  exact hh.fresh f us hlen hunits ht ho

/-! ## Split -/

/-- How the pages after a split are filled. -/
inductive SplitOutcome (cfg : Config K) (t t' : MVBTSt K P) (b : ℕ) : BlockSplit K → Prop
  | byKey {leftFence rightFence : Interval K} {left right : ℕ} :
      unsafeDegree cfg (t'.heap left) = .ok → unsafeDegree cfg (t'.heap right) = .ok →
      SplitOutcome cfg t t' b (.byKey leftFence left rightFence right)
  | byVersion {fresh : ℕ} :
      (t.heap b).activeDeadCount.1 < filling80Percent cfg (t.heap b) →
      (t'.heap fresh).activeDeadCount = ((t.heap b).activeDeadCount.1, 0) →
      (t'.heap fresh).isLeaf = (t.heap b).isLeaf →
      SplitOutcome cfg t t' b (.byVersion fresh)

theorem Source.maxUnits_eq {b : ℕ} {p : Page α} (hk : Lawful kind)
    (h : Source cfg kind t good needed f b p) : maxUnits cfg (t.heap b) = kind.cap cfg := by
  rw [hk.eq_wrap h.page, maxUnits, hk.isLeaf_wrap]
  rfl

theorem Source.active_le {b : ℕ} {p : Page α} (hk : Lawful kind)
    (h : Source cfg kind t good needed f b p) : (t.heap b).activeDeadCount.1 ≤ kind.cap cfg := by
  rw [h.active hk]
  exact (List.length_filter_le _ _).trans h.counted.length_le

theorem Handles.splitPage_pieces (hh : Handles cfg t g kind level good needed)
    (hg : GraveyardOk t) {b : ℕ} (hb : b < t.nextBlock) (halive : (g.life b).death = none)
    (hlevel : (g.life b).level = level) (hproper : (g.life b).fence.Proper) :
    ∃ t' s, splitPage cfg kind t b (g.life b).fence = .ok (t', s) ∧
      Pieces cfg t t' g level (· ∈ (g.life b).fence) (splitFences (g.life b).fence s) ∧
      SplitOutcome cfg t t' b s := by
  obtain ⟨p, hsrc, hstamp, ho⟩ := hh.source b hb halive hlevel
  have hcap := hh.cap_ge
  have hcap' := hh.cap_lt
  have hmax := Source.maxUnits_eq hh.lawful hsrc
  have hle := Source.active_le hh.lawful hsrc
  by_cases hfull : filling80Percent cfg (t.heap b) ≤ (t.heap b).activeDeadCount.1
  · have hfull' : (4 * kind.cap cfg + 4) / 5 ≤ (t.heap b).activeDeadCount.1 := by
      rwa [filling80Percent, hmax] at hfull
    obtain ⟨t', l, r, us, m, vs, heq, hbuilt, hhalf, hmem⟩ :=
      splitPage_byKey hh.lawful hg hsrc hfull (by omega)
    have hus := hhalf.left_length
    have hvs := hhalf.right_length
    refine ⟨t', _, heq, hh.pieces_two hhalf hbuilt (by omega)
      (fun u hu => ⟨(hmem u hu).2, hstamp u (hmem u hu).1⟩), .byKey ?_ ?_⟩
    · rw [hbuilt.heap_new (l, kind.wrap (filledPage us)) (by simp)]
      exact hh.degree_ok (by omega) (by omega)
    · rw [hbuilt.heap_new (r, kind.wrap (filledPage vs)) (by simp)]
      exact hh.degree_ok (by omega) (by omega)
  · obtain ⟨t', c, heq, hbuilt⟩ := splitPage_byVersion hh.lawful hg hsrc hfull
    have hactive := hsrc.active hh.lawful
    have hheap := hbuilt.heap_new _ (List.mem_singleton_self _)
    refine ⟨t', _, heq, hh.pieces_one hsrc.tiling hproper hbuilt (by omega) ?_ (ho.filter _),
      .byVersion ?_ ?_ ?_⟩
    · intro u hu
      obtain ⟨hu, ha⟩ := List.mem_filter.mp hu
      exact ⟨ha, hstamp u hu⟩
    · omega
    · rw [hheap, hh.lawful.count_wrap, filledPage_count (by omega), hactive]
    · rw [hheap, hh.lawful.isLeaf_wrap, hh.lawful.eq_wrap hsrc.page, hh.lawful.isLeaf_wrap]

/-! ## Merge -/

def mergeFences (f : Interval K) : MergeResult K → NewLinks K
  | .merged _ siblingFence block => [(f.merged siblingFence, block)]
  | .keySplit _ split => splitFences f split
  | .error => []

/-- The two answers of a merge that found a sibling. -/
inductive MergeOutcome (sibling : ℕ) (siblingFence : Interval K) : MergeResult K → Prop
  | merged (block : ℕ) : MergeOutcome sibling siblingFence (.merged sibling siblingFence block)
  | keySplit (leftFence : Interval K) (left : ℕ) (rightFence : Interval K) (right : ℕ) :
      MergeOutcome sibling siblingFence
        (.keySplit sibling (.byKey leftFence left rightFence right))

theorem Handles.mergePages_pieces (hh : Handles cfg t g kind level good needed)
    (hg : GraveyardOk t) {b c i : ℕ} (hb : b < t.nextBlock) (hc : c < t.nextBlock)
    (hbl : (g.life b).death = none) (hcl : (g.life c).death = none)
    (hbv : (g.life b).level = level) (hcv : (g.life c).level = level)
    (hproper : (g.life b).fence.Proper)
    (hadj : Tiling.Adjacent (g.life b).fence (g.life c).fence)
    (hfew : (t.heap b).activeDeadCount.1 ≤ 2 * ((kind.cap cfg + 4) / 5))
    (hbmin : (kind.cap cfg + 4) / 5 ≤ (t.heap b).activeDeadCount.1)
    (hcmin : (kind.cap cfg + 4) / 5 ≤ (t.heap c).activeDeadCount.1) :
    ∃ t' res, mergePages cfg kind t b (g.life b).fence (i, c, (g.life c).fence) = .ok (t', res) ∧
      MergeOutcome i (g.life c).fence res ∧
      Pieces cfg t t' g level (fun k => k ∈ (g.life b).fence ∨ k ∈ (g.life c).fence)
        (mergeFences (g.life b).fence res) ∧
      ∀ x ∈ mergeFences (g.life b).fence res, unsafeDegree cfg (t'.heap x.2) = .ok := by
  obtain ⟨p, hp, hpstamp, hpo⟩ := hh.source b hb hbl hbv
  obtain ⟨q, hq, hqstamp, hqo⟩ := hh.source c hc hcl hcv
  have hcap := hh.cap_ge
  have hmax := Source.maxUnits_eq hh.lawful hp
  have hcle := Source.active_le hh.lawful hq
  have hkeys : (fun k => k ∈ (g.life b).fence ∨ k ∈ (g.life c).fence) =
      (· ∈ (g.life b).fence.merged (g.life c).fence) := by
    funext k
    exact propext (hadj.merged k).symm
  rw [hkeys]
  by_cases hsmall : (t.heap c).activeDeadCount.1 + (t.heap b).activeDeadCount.1 ≤
      4 * maxUnits cfg (t.heap b) / 5
  · obtain ⟨t', d, us, heq, hbuilt, htiling, hlen, hmem, hsorted⟩ :=
      mergePages_merged (i := i) hh.lawful hg hp hq hadj hsmall (by omega)
    rw [hmax] at hsmall
    refine ⟨t', _, heq, .merged d, ?_, ?_⟩
    · refine hh.pieces_one htiling ?_ hbuilt (by omega) ?_ (hsorted hpo hqo)
      · exact le_trans (min_le_right _ _) (le_trans hproper (le_max_right _ _))
      · intro u hu
        obtain ⟨hor, ha⟩ := hmem u hu
        exact ⟨ha, hor.elim (hpstamp u) (hqstamp u)⟩
    · intro x hx
      obtain rfl := List.mem_singleton.mp hx
      rw [hbuilt.heap_new (d, kind.wrap (filledPage us)) (by simp)]
      exact hh.degree_ok (by omega) (by omega)
  · obtain ⟨t', l, r, us, m, vs, heq, hbuilt, hhalf, hmem⟩ :=
      mergePages_keySplit (i := i) hh.lawful hg hp hq hadj hsmall (by omega)
    rw [hmax] at hsmall
    have hus := hhalf.left_length
    have hvs := hhalf.right_length
    refine ⟨t', _, heq, .keySplit _ _ _ _, ?_, ?_⟩
    · refine hh.pieces_two hhalf hbuilt (by omega) ?_
      intro u hu
      obtain ⟨hor, ha⟩ := hmem u hu
      exact ⟨ha, hor.elim (hpstamp u) (hqstamp u)⟩
    · intro x hx
      rcases List.mem_cons.mp hx with rfl | hx
      · rw [hbuilt.heap_new (l, kind.wrap (filledPage us)) (by simp)]
        exact hh.degree_ok (by omega) (by omega)
      · obtain rfl := List.mem_singleton.mp hx
        rw [hbuilt.heap_new (r, kind.wrap (filledPage vs)) (by simp)]
        exact hh.degree_ok (by omega) (by omega)

end Pieces

section Candidate
variable {candidates : List (ℕ × ℕ × Interval K)} {lower : K}

/-- The binary search returns the nearest sibling. -/
theorem computeCandidate_nearest
    (hs : candidates.Pairwise (fun x y => x.2.2.lower ≤ y.2.2.lower)) (hne : candidates ≠ []) :
    ∃ c ∈ candidates, computeCandidate candidates lower = some c ∧
      ((lower ≤ c.2.2.lower ∧
          ∀ x ∈ candidates, lower ≤ x.2.2.lower → c.2.2.lower ≤ x.2.2.lower) ∨
        ((∀ x ∈ candidates, x.2.2.lower < lower) ∧
          ∀ x ∈ candidates, x.2.2.lower ≤ c.2.2.lower)) := by
  unfold computeCandidate
  cases hf : candidates.find? (fun c => decide (lower ≤ c.2.2.lower)) with
  | some c =>
    obtain ⟨hc, as, bs, heq, has⟩ := List.find?_eq_some_iff_append.mp hf
    simp only [decide_eq_true_eq] at hc
    refine ⟨c, by simp [heq], rfl, .inl ⟨hc, ?_⟩⟩
    intro x hx hle
    rw [heq, List.mem_append] at hx
    rw [heq, List.pairwise_append, List.pairwise_cons] at hs
    rcases hx with hx | hx
    · simpa [hle] using has x hx
    · rcases List.mem_cons.mp hx with rfl | hx
      · exact le_rfl
      · exact hs.2.1.1 x hx
  | none =>
    rw [List.find?_eq_none] at hf
    refine ⟨candidates.getLast hne, List.getLast_mem hne, ?_, .inr ⟨?_, ?_⟩⟩
    · rw [Option.none_or, List.getLast?_eq_some_getLast hne]
    · intro x hx
      simpa using hf x hx
    · intro x hx
      have hsplit := List.dropLast_append_getLast hne
      rw [← hsplit, List.pairwise_append] at hs
      rw [← hsplit, List.mem_append, List.mem_singleton] at hx
      rcases hx with hx | hx
      · exact hs.2.2 x hx _ (by simp)
      · rw [hx]

theorem mem_mergeCandidates {p : InternalPage K} {cap index : ℕ} (hp : p.Counted cap)
    {c : ℕ × ℕ × Interval K} : c ∈ mergeCandidates p index ↔
      ∃ e, p.units[c.1]? = some e ∧ c.1 ≠ index ∧ PageUnit.isActive e = true ∧
        c.2 = (e.pointer, e.fence) := by
  obtain ⟨i, b, f⟩ := c
  simp only [mergeCandidates, Halving.mem_sortedBy, List.mem_map, List.mem_filter, hp.asUnits,
    Prod.exists, List.mem_zipIdx_iff_getElem?, Bool.and_eq_true, bne_iff_ne, ne_eq, Prod.mk.injEq]
  constructor
  · rintro ⟨e, j, ⟨hget, hne, ha⟩, rfl, rfl, rfl⟩
    exact ⟨e, hget, hne, ha, rfl, rfl⟩
  · rintro ⟨e, hget, hne, ha, rfl, rfl⟩
    exact ⟨e, i, ⟨hget, hne, ha⟩, rfl, rfl, rfl⟩

/-- Two positions never hold the same active entry. -/
theorem active_ne {link : Entry K → Prop} {needed : K → Prop} {f : Interval K}
    {units : List (Entry K)} (ht : Tiling Entry.fence link needed f
      (units.filter PageUnit.isActive)) {i j : ℕ} {e e' : Entry K} (hi : units[i]? = some e)
    (hj : units[j]? = some e') (ha : PageUnit.isActive e = true)
    (ha' : PageUnit.isActive e' = true) (hij : i ≠ j) : e ≠ e' := by
  rintro rfl
  have hmem : e ∈ units.filter PageUnit.isActive :=
    List.mem_filter.mpr ⟨List.mem_of_getElem? hi, ha⟩
  have hself : ¬ e.fence.Disjoint e.fence := fun hd =>
    hd _ (ht.proper e hmem).lower_mem (ht.proper e hmem).lower_mem
  have hpw := List.pairwise_filter.mp ht.disjoint
  obtain ⟨hi, hgi⟩ := List.getElem?_eq_some_iff.mp hi
  obtain ⟨hj, hgj⟩ := List.getElem?_eq_some_iff.mp hj
  rcases Nat.lt_or_gt_of_ne hij with hlt | hgt
  · have := List.pairwise_iff_getElem.mp hpw i j hi hj hlt
    rw [hgi, hgj] at this
    exact hself (this ha ha)
  · have := List.pairwise_iff_getElem.mp hpw j i hj hi hgt
    rw [hgi, hgj] at this
    exact hself (this ha ha)

/-- The entry that `e` is merged with: next to it among the entries `us`, on the right
if there is one there. -/
structure Neighbour (us : List (Entry K)) (e e' : Entry K) : Prop where
  adjacent : Tiling.Adjacent e.fence e'.fence
  right_first : e.fence.upper < e'.fence.lower ∨
    ∀ u ∈ us, u ≠ e → u.fence.upper < e.fence.lower

/-- Among at least two active entries, each one has a neighbour to merge with. -/
theorem candidate_neighbour {p : InternalPage K} {cap index : ℕ} {link : Entry K → Prop}
    {f : Interval K} {e : Entry K} (hp : p.Counted cap)
    (ht : Tiling Entry.fence link (fun _ => True) f (p.units.filter PageUnit.isActive))
    (hi : p.units[index]? = some e) (ha : PageUnit.isActive e = true)
    (htwo : 2 ≤ (p.units.filter PageUnit.isActive).length) :
    ∃ j e', computeCandidate (mergeCandidates p index) e.fence.lower =
        some (j, e'.pointer, e'.fence) ∧ j ≠ index ∧ p.units[j]? = some e' ∧
      PageUnit.isActive e' = true ∧ Neighbour (p.units.filter PageUnit.isActive) e e' := by
  have hmem : e ∈ p.units.filter PageUnit.isActive :=
    List.mem_filter.mpr ⟨List.mem_of_getElem? hi, ha⟩
  -- every other active entry is a candidate
  have hcand : ∀ u ∈ p.units.filter PageUnit.isActive, u ≠ e →
      ∃ i, (i, u.pointer, u.fence) ∈ mergeCandidates p index := by
    intro u hu hne
    obtain ⟨hu, hua⟩ := List.mem_filter.mp hu
    obtain ⟨i, hi'⟩ := List.mem_iff_getElem?.mp hu
    refine ⟨i, (mem_mergeCandidates hp).mpr ⟨u, hi', ?_, hua, rfl⟩⟩
    rintro rfl
    rw [hi] at hi'
    exact hne (Option.some.inj hi').symm
  have hne : mergeCandidates p index ≠ [] := by
    obtain ⟨u, hu, hue⟩ : ∃ u ∈ p.units.filter PageUnit.isActive, u ≠ e := by
      by_contra hall
      simp only [not_exists, not_and, not_not] at hall
      have hrep := List.eq_replicate_of_mem hall
      have hd := ht.disjoint
      rw [hrep] at hd
      have hpos := List.pairwise_replicate.mp hd
      rcases hpos with hlen | hdis
      · omega
      · exact hdis _ (ht.proper e hmem).lower_mem (ht.proper e hmem).lower_mem
    obtain ⟨i, hi'⟩ := hcand u hu hue
    exact List.ne_nil_of_mem hi'
  obtain ⟨⟨j, b, fc⟩, hc, hcomp, hnear⟩ := computeCandidate_nearest
    (Halving.sortedBy_sorted _ _) hne
  obtain ⟨e', hj, hji, ha', heq⟩ := (mem_mergeCandidates hp).mp hc
  obtain ⟨rfl, rfl⟩ : b = e'.pointer ∧ fc = e'.fence := by simpa using heq
  have hne' : e' ≠ e := active_ne ht hj hi ha' ha hji
  have hmem' := List.mem_filter.mpr ⟨List.mem_of_getElem? hj, ha'⟩
  have hadj : Tiling.Adjacent e.fence e'.fence := by
    refine ht.adjacent_of_nearest hmem hmem' hne' ?_
    refine hnear.imp (fun ⟨hle, hmin⟩ => ⟨hle, ?_⟩) (fun ⟨hlt, hmax⟩ => ⟨?_, ?_⟩)
    · intro u hu hue hle'
      obtain ⟨i, hi'⟩ := hcand u hu hue
      exact hmin _ hi' hle'
    · intro u hu hue
      obtain ⟨i, hi'⟩ := hcand u hu hue
      exact hlt _ hi'
    · intro u hu hue
      obtain ⟨i, hi'⟩ := hcand u hu hue
      exact hmax _ hi'
  refine ⟨j, e', hcomp, hji, hj, ha', hadj, ?_⟩
  refine hnear.imp (fun ⟨hle, _⟩ => ?_) (fun ⟨hlt, _⟩ u hu hue => ?_)
  · exact hadj.disjoint.upper_lt (ht.proper e' hmem') hle
  · obtain ⟨i, hi'⟩ := hcand u hu hue
    have hdisj : u.fence.Disjoint e.fence := fun k hku hke => hue (ht.eq_of_mem hu hmem hku hke)
    exact hdisj.upper_lt (ht.proper e hmem) (hlt _ hi').le

theorem candidate_adjacent {p : InternalPage K} {cap index : ℕ} {link : Entry K → Prop}
    {f : Interval K} {e : Entry K} (hp : p.Counted cap)
    (ht : Tiling Entry.fence link (fun _ => True) f (p.units.filter PageUnit.isActive))
    (hi : p.units[index]? = some e) (ha : PageUnit.isActive e = true)
    (htwo : 2 ≤ (p.units.filter PageUnit.isActive).length) :
    ∃ j e', computeCandidate (mergeCandidates p index) e.fence.lower =
        some (j, e'.pointer, e'.fence) ∧ j ≠ index ∧ p.units[j]? = some e' ∧
      PageUnit.isActive e' = true ∧ Tiling.Adjacent e.fence e'.fence := by
  obtain ⟨j, e', hcomp, hji, hj, ha', hn⟩ := candidate_neighbour hp ht hi ha htwo
  exact ⟨j, e', hcomp, hji, hj, ha', hn.adjacent⟩

end Candidate

section Tree
variable {cfg : Config K} {t : MVBTSt K P} {g : Ghost K P}

theorem split_pieces (h : Living cfg t g) (hc : Roomy cfg) {b : ℕ} (hb : b < t.nextBlock)
    (halive : (g.life b).death = none) :
    ∃ t' s, split cfg t b (g.life b).fence = .ok (t', s) ∧
      Pieces cfg t t' g (g.life b).level (· ∈ (g.life b).fence)
        (splitFences (g.life b).fence s) ∧ SplitOutcome cfg t t' b s := by
  have hleaf := h.isLeaf_iff hb
  by_cases hl : (t.heap b).isLeaf = true
  · rw [split, if_pos hl, hleaf.mp hl]
    exact (handles_leaf h hc).splitPage_pieces h.grave_ok hb halive (hleaf.mp hl) (h.born b hb).1
  · have hlevel : 1 < (g.life b).level := by
      have hnode := h.node b hb
      cases hn : t.heap b with
      | leaf p => simp [hn, Node.isLeaf] at hl
      | internal p =>
        rw [hn] at hnode
        exact hnode.1
    rw [split, if_neg hl]
    exact (handles_internal h hc hlevel).splitPage_pieces h.grave_ok hb halive rfl (h.born b hb).1

/-- A living directory with one of its active entries. -/
structure Child (t : MVBTSt K P) (g : Ghost K P) (mufasa index : ℕ) (p : InternalPage K)
    (e : Entry K) : Prop where
  used : mufasa < t.nextBlock
  alive : (g.life mufasa).death = none
  page : t.heap mufasa = .internal p
  entry : p.units[index]? = some e
  active : PageUnit.isActive e = true

namespace Child
variable {mufasa index : ℕ} {p : InternalPage K} {e : Entry K}

omit [LinearOrder K] in
theorem mem (hx : Child t g mufasa index p e) : e ∈ p.units.filter PageUnit.isActive :=
  List.mem_filter.mpr ⟨List.mem_of_getElem? hx.entry, hx.active⟩

theorem dir (hx : Child t g mufasa index p e) (h : Living cfg t g) :
    DirInv cfg.fanOut t.commit.clock (Link g.life t.nextBlock (g.life mufasa).level)
      (g.life mufasa) p := by
  have hnode := h.node mufasa hx.used
  rw [hx.page] at hnode
  exact hnode.2

theorem tiling (hx : Child t g mufasa index p e) (h : Living cfg t g) :
    Tiling Entry.fence (Link g.life t.nextBlock (g.life mufasa).level) (fun _ => True)
      (g.life mufasa).fence (p.units.filter PageUnit.isActive) :=
  (hx.dir h).tiling hx.alive

theorem link (hx : Child t g mufasa index p e) (h : Living cfg t g) :
    Link g.life t.nextBlock (g.life mufasa).level e := (hx.tiling h).good e hx.mem

theorem child_life (hx : Child t g mufasa index p e) (h : Living cfg t g) :
    (g.life e.pointer).death = none ∧ (g.life e.pointer).fence = e.fence ∧
      (g.life e.pointer).level + 1 = (g.life mufasa).level := by
  obtain ⟨-, below, hlevel, hlife⟩ := hx.link h
  rw [hlife]
  exact ⟨rfl, rfl, hlevel.symm⟩

theorem ne_root (hx : Child t g mufasa index p e) (h : Living cfg t g) :
    e.pointer ≠ t.currentRoot.1 := by
  intro heq
  obtain ⟨birth, hroot⟩ := h.root_life
  obtain ⟨-, -, hlevel⟩ := hx.child_life h
  rw [heq, hroot] at hlevel
  have := h.level_le mufasa hx.used hx.alive
  simp only at hlevel
  omega

end Child

theorem merge_pieces (h : Living cfg t g) (hc : Roomy cfg) {mufasa index : ℕ}
    {p : InternalPage K} {e : Entry K} (hx : Child t g mufasa index p e)
    (htwo : 2 ≤ (p.units.filter PageUnit.isActive).length)
    (hfew : (t.heap e.pointer).activeDeadCount.1 ≤ 2 * filling20Percent cfg (t.heap e.pointer)) :
    ∃ t' res j e', merge cfg t mufasa e.pointer index = .ok (t', res) ∧
      MergeOutcome j e'.fence res ∧ j ≠ index ∧ Child t g mufasa j p e' ∧
      Pieces cfg t t' g (g.life e.pointer).level (fun k => k ∈ e.fence ∨ k ∈ e'.fence)
        (mergeFences e.fence res) ∧
      ∀ x ∈ mergeFences e.fence res, unsafeDegree cfg (t'.heap x.2) = .ok := by
  obtain ⟨j, e', hcand, hji, hj, ha', hadj⟩ := candidate_adjacent (hx.dir h).counted (hx.tiling h)
    hx.entry hx.active htwo
  have hy : Child t g mufasa j p e' := ⟨hx.used, hx.alive, hx.page, hj, ha'⟩
  obtain ⟨hdeath, hfence, hlevel⟩ := hx.child_life h
  obtain ⟨hdeath', hfence', hlevel'⟩ := hy.child_life h
  have hlt := (hx.link h).1
  have hlt' := (hy.link h).1
  have hfill := h.filled e.pointer hlt hdeath (hx.ne_root h)
  have hfill' := h.filled e'.pointer hlt' hdeath' (hy.ne_root h)
  have hsame : (g.life e'.pointer).level = (g.life e.pointer).level := by omega
  have hproper := (h.born e.pointer hlt).1
  have hstart : merge cfg t mufasa e.pointer index =
      if (t.heap e.pointer).isLeaf then
        mergePages cfg leafKind t e.pointer e.fence (j, e'.pointer, e'.fence)
      else mergePages cfg internalKind t e.pointer e.fence (j, e'.pointer, e'.fence) := by
    simp only [merge, MVBTSt.asInternalPage, hx.page, bind, Except.bind, hx.entry, hcand]
  rw [← hfence, ← hfence'] at hadj hstart
  rw [← hfence]
  have hleaf := h.isLeaf_iff hlt
  have hleaf' := h.isLeaf_iff hlt'
  by_cases hl : (t.heap e.pointer).isLeaf = true
  · have hl' := hleaf'.mpr (hsame.trans (hleaf.mp hl))
    simp only [filling20Percent, maxUnits, hl, hl', if_true] at hfew hfill hfill'
    rw [if_pos hl] at hstart
    obtain ⟨t', res, heq, hout, hpieces, hok⟩ :=
      (handles_leaf h hc).mergePages_pieces (i := j) h.grave_ok hlt hlt' hdeath hdeath'
        (hleaf.mp hl) (hsame.trans (hleaf.mp hl)) hproper hadj hfew hfill hfill'
    refine ⟨t', res, j, e', hstart.trans heq, ?_, hji, hy, ?_, hok⟩
    · rwa [hfence'] at hout
    · rw [hleaf.mp hl]
      rwa [hfence'] at hpieces
  · have hl' : ¬ (t.heap e'.pointer).isLeaf = true := fun hc' =>
      hl (hleaf.mpr (hsame ▸ hleaf'.mp hc'))
    have hone : 1 < (g.life e.pointer).level := by
      have hnode := h.node e.pointer hlt
      cases hn : t.heap e.pointer with
      | leaf p => simp [hn, Node.isLeaf] at hl
      | internal p =>
        rw [hn] at hnode
        exact hnode.1
    simp only [filling20Percent, maxUnits, hl, hl'] at hfew hfill hfill'
    rw [if_neg hl] at hstart
    obtain ⟨t', res, heq, hout, hpieces, hok⟩ :=
      (handles_internal h hc hone).mergePages_pieces (i := j) h.grave_ok hlt hlt' hdeath hdeath'
        rfl hsame hproper hadj hfew hfill hfill'
    refine ⟨t', res, j, e', hstart.trans heq, ?_, hji, hy, ?_, hok⟩
    · rwa [hfence'] at hout
    · rwa [hfence'] at hpieces

end Tree

end CMVBT.NewPages
