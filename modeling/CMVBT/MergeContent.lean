import CMVBT.PageContent
import CMVBT.ChildRepair

/-!
# What a merge does to the content of two pages

`merge` looks for the sibling on the right of a child, or on the left if there is none
on the right, and puts the active units of both on one page or shares them out over
two. `on_underflow_node` then exchanges two entries of the parent for one or two. The
parent is any directory in use whose active fences partition its fence, and its
children are pages of one type that satisfy the page invariant.
-/
namespace CMVBT.MergeContent
open KeyInterval Halving FenceTiling PageModel CMVBT.Tree BlockSupply DirectoryHistory PageRewrite
open NewPages
open ParentRewrite ChildRepair PageContent

variable {K P : Type} [LinearOrder K]

/-- A directory with two active entries, room for two more, and sound children. -/
structure Parent (cfg : Config K) (t : MVBTSt K P) (m : ℕ) (f : Interval K) (p : InternalPage K) :
    Prop where
  inUse : InUse t m
  page : t.heap m = .internal p
  counted : p.Counted cfg.fanOut
  tiling : Tiling Entry.fence (fun _ => True) (fun _ => True) f (p.units.filter PageUnit.isActive)
  two : 2 ≤ p.activeDeadCount.1
  room : p.sumLen + 2 ≤ cfg.fanOut
  children : ∀ e ∈ p.units, PageUnit.isActive e = true →
    InUse t e.pointer ∧ Sound cfg e.fence (t.heap e.pointer)
  same_type : ∀ e ∈ p.units, ∀ e' ∈ p.units, PageUnit.isActive e = true →
    PageUnit.isActive e' = true → (t.heap e.pointer).isLeaf = (t.heap e'.pointer).isLeaf

/-- Sound pages that share out the units `us` over the fence `f`. -/
inductive Shares (cfg : Config K) (t' : MVBTSt K P) (f : Interval K) (us : List (Content K P)) :
    NewLinks K → Prop
  | one {c : ℕ} : Holds cfg f us (t'.heap c) → Shares cfg t' f us [(f, c)]
  | two {l r : ℕ} {m : K} {us₁ us₂ : List (Content K P)} :
      f.lower < m → m ≤ f.upper → (us₁ ++ us₂).Perm us →
      Holds cfg ⟨f.lower, cfg.keys.decKey m⟩ us₁ (t'.heap l) →
      Holds cfg ⟨m, f.upper⟩ us₂ (t'.heap r) →
      Shares cfg t' f us [(⟨f.lower, cfg.keys.decKey m⟩, l), (⟨m, f.upper⟩, r)]

/-- The parent after the entries `es` have given way to `fresh`. -/
structure Exchanged (cfg : Config K) (f : Interval K) (p : InternalPage K)
    (es fresh : List (Entry K)) (p' : InternalPage K) : Prop where
  counted : p'.Counted cfg.fanOut
  active : ∃ rest, (p.units.filter PageUnit.isActive).Perm (es ++ rest) ∧
    p'.units.filter PageUnit.isActive = rest ++ fresh
  tiling : Tiling Entry.fence (fun _ => True) (fun _ => True) f
    (p'.units.filter PageUnit.isActive)

section Pages
variable {α : Type} [PageUnit K α] {cfg : Config K} {kind : PageKind K P α} {inj : α → Content K P}
  {t : MVBTSt K P} {f fc : Interval K} {b c i : ℕ} {p q : Page α}

/-- A merge of two pages of one type with neighbouring fences. -/
theorem Embeds.mergePages_keeps (he : Embeds kind inj) (hg : GraveyardOk t) (hb : InUse t b)
    (hc : InUse t c) (hp : kind.unwrap (t.heap b) = some p) (hq : kind.unwrap (t.heap c) = some q)
    (hs : Sound cfg f (t.heap b)) (hs' : Sound cfg fc (t.heap c)) (hadj : Tiling.Adjacent f fc)
    (hcap : 2 ≤ kind.cap cfg) :
    ∃ t₁ res, mergePages cfg kind t b f (i, c, fc) = .ok (t₁, res) ∧ MergeOutcome i fc res ∧
      Built t t₁ ((mergeFences f res).map (fun x => (x.2, t₁.heap x.2))) ∧
      Shares cfg t₁ (f.merged fc) (activeContent (t.heap b) ++ activeContent (t.heap c))
        (mergeFences f res) := by
  have hsrc := he.source hb hp hs
  have hsrc' := he.source hc hq hs'
  have hcap' := hsrc.counted.cap_lt
  have hmax := Source.maxUnits_eq he.lawful hsrc
  have hactive := hsrc.active he.lawful
  have hactive' := hsrc'.active he.lawful
  have hcontent : activeContent (t.heap b) ++ activeContent (t.heap c) =
      (p.units.filter PageUnit.isActive ++ q.units.filter PageUnit.isActive).map inj := by
    rw [he.lawful.eq_wrap hp, he.lawful.eq_wrap hq, he.active_wrap hsrc.counted,
      he.active_wrap hsrc'.counted, List.map_append]
  have htiling := hsrc.tiling.append hsrc'.tiling hadj
  have hmem : ∀ u ∈ p.units.filter PageUnit.isActive ++ q.units.filter PageUnit.isActive,
      PageUnit.isActive u = true := by
    intro u hu
    rcases List.mem_append.mp hu with hu | hu <;> exact (List.mem_filter.mp hu).2
  by_cases hsmall : (t.heap c).activeDeadCount.1 + (t.heap b).activeDeadCount.1 ≤
      4 * maxUnits cfg (t.heap b) / 5
  · obtain ⟨t₁, d, hrun, hbuilt⟩ := mergePages_joined (i := i) he.lawful hg hsrc hsrc' hsmall
      (by omega)
    have hperm : ((p.units.filter PageUnit.isActive).merge (q.units.filter PageUnit.isActive)
        (fun f s => decide (PageUnit.stamp f ≤ PageUnit.stamp s))).Perm
        (p.units.filter PageUnit.isActive ++ q.units.filter PageUnit.isActive) :=
      List.merge_perm_append _
    have hlen := hperm.length_eq
    rw [List.length_append] at hlen
    -- both pages are in version order, so the merged list is
    have hord := he.ordered hsrc.counted (he.lawful.eq_wrap hp ▸ hs)
    have hord' := he.ordered hsrc'.counted (he.lawful.eq_wrap hq ▸ hs')
    have hsorted := @List.pairwise_merge α
      (fun f s : α => decide (PageUnit.stamp f ≤ PageUnit.stamp s))
      (fun a b c hab hbc => by simp only [decide_eq_true_eq] at *; omega)
      (fun a b => by simp only [Bool.or_eq_true, decide_eq_true_eq]; omega) _ _
      (hord.imp (by simp)) (hord'.imp (by simp))
    have hholds := he.holds hcap' (by omega)
      (fun u hu => hmem u (hperm.mem_iff.mp hu)) (htiling.perm hperm.symm)
      (hsorted.imp (by simp))
    have hheap : t₁.heap d = kind.wrap (filledPage ((p.units.filter PageUnit.isActive).merge
        (q.units.filter PageUnit.isActive)
        (fun f s => decide (PageUnit.stamp f ≤ PageUnit.stamp s)))) :=
      hbuilt.heap_new (d, _) (by simp)
    refine ⟨t₁, _, hrun, .merged d, ?_, .one ?_⟩
    · rw [← hheap] at hbuilt
      exact hbuilt
    · rw [← hheap] at hholds
      refine ⟨hholds.sound, hholds.units.trans ?_, ?_⟩
      · rw [hcontent]
        exact hperm.map inj
      · rw [hholds.counts, hcontent, List.length_map, List.length_map, hperm.length_eq]
  · obtain ⟨t₁, l, r, us, m, vs, joined, hrun, hbuilt, hcut, hperm⟩ :=
      mergePages_cut (i := i) he.lawful hg hsrc hsrc' hadj hsmall
    have hlen := hperm.length_eq
    rw [List.length_append] at hlen
    have hle := (List.length_filter_le PageUnit.isActive p.units).trans hsrc.counted.length_le
    have hle' := (List.length_filter_le PageUnit.isActive q.units).trans hsrc'.counted.length_le
    obtain ⟨hlt, hupp, -, -, hl, hr⟩ := he.holds_cut hcap' (htiling.perm hperm.symm)
      (fun u hu => hmem u (hperm.mem_iff.mp hu)) hcut (by omega) (by omega)
    have hheapl : t₁.heap l = kind.wrap (filledPage us) := hbuilt.heap_new (l, _) (by simp)
    have hheapr : t₁.heap r = kind.wrap (filledPage vs) := hbuilt.heap_new (r, _) (by simp)
    rw [← hheapl] at hl
    rw [← hheapr] at hr
    rw [← hheapl, ← hheapr] at hbuilt
    refine ⟨t₁, _, hrun, .keySplit _ _ _ _, hbuilt, .two hlt hupp ?_ hl hr⟩
    rw [hcontent, ← List.map_append]
    exact (hcut.perm.trans hperm).map inj

end Pages

section Parent
variable {cfg : Config K} {t t' t₁ : MVBTSt K P} {f : Interval K} {m i : ℕ} {p : InternalPage K}
  {e : Entry K} {us : List (Content K P)} {xs : NewLinks K}

theorem Shares.congr (h : Shares cfg t₁ f us xs)
    (hheap : ∀ x ∈ xs, t'.heap x.2 = t₁.heap x.2) : Shares cfg t' f us xs := by
  cases h with
  | one hc => exact .one (by rwa [hheap _ List.mem_cons_self])
  | two hlt hle hperm hl hr =>
    refine .two hlt hle hperm ?_ ?_
    · rwa [hheap _ List.mem_cons_self]
    · rwa [hheap _ (List.mem_cons_of_mem _ (List.mem_singleton_self _))]

/-- The fences of the fresh pages cut the fence. -/
theorem Shares.fences (h : Shares cfg t' f us xs) (hf : f.Proper) :
    (∀ x ∈ xs, x.1.Proper) ∧ xs.Pairwise (fun x y => x.1.Disjoint y.1) ∧
      ∀ k, (∃ x ∈ xs, k ∈ x.1) ↔ k ∈ f := by
  cases h with
  | one hc => exact ⟨by simpa using hf, by simp, by simp⟩
  | two hlt hle hperm hl hr =>
    refine ⟨?_, List.pairwise_pair.mpr (cfg.keys.cut_disjoint hlt), ?_⟩
    · intro x hx
      rcases List.mem_cons.mp hx with rfl | hx
      · exact (cfg.keys.le_dec _ ((cfg.keys.min_le _).trans_lt hlt) _).mpr hlt
      · obtain rfl := List.mem_singleton.mp hx
        exact hle
    · intro k
      simp only [List.mem_cons, List.not_mem_nil, or_false, exists_eq_or_imp, exists_eq_left]
      exact cfg.keys.mem_cut hlt hle

/-- `merge` on a child that has a sibling. -/
theorem merge_keeps (hg : GraveyardOk t) (hp : Parent cfg t m f p) (hrec : 2 ≤ cfg.numRecords)
    (hi : p.units[i]? = some e) (ha : PageUnit.isActive e = true) :
    ∃ t₁ res j e', merge cfg t m e.pointer i = .ok (t₁, res) ∧ MergeOutcome j e'.fence res ∧
      j ≠ i ∧ p.units[j]? = some e' ∧ PageUnit.isActive e' = true ∧
      Neighbour (p.units.filter PageUnit.isActive) e e' ∧
      Built t t₁ ((mergeFences e.fence res).map (fun x => (x.2, t₁.heap x.2))) ∧
      Shares cfg t₁ (e.fence.merged e'.fence)
        (activeContent (t.heap e.pointer) ++ activeContent (t.heap e'.pointer))
        (mergeFences e.fence res) := by
  have htwo : 2 ≤ (p.units.filter PageUnit.isActive).length := by
    rw [← List.countP_eq_length_filter, ← hp.counted.active]
    exact hp.two
  obtain ⟨j, e', hcand, hji, hj, ha', hnear⟩ := candidate_neighbour hp.counted hp.tiling hi ha htwo
  have hmem := List.mem_of_getElem? hi
  have hmem' := List.mem_of_getElem? hj
  obtain ⟨hb, hs⟩ := hp.children e hmem ha
  obtain ⟨hc, hs'⟩ := hp.children e' hmem' ha'
  have htype := hp.same_type e hmem e' hmem' ha ha'
  have hstart : merge cfg t m e.pointer i =
      if (t.heap e.pointer).isLeaf then
        mergePages cfg leafKind t e.pointer e.fence (j, e'.pointer, e'.fence)
      else mergePages cfg internalKind t e.pointer e.fence (j, e'.pointer, e'.fence) := by
    simp only [merge, MVBTSt.asInternalPage, hp.page, bind, Except.bind, hi, hcand]
  cases hq : t.heap e.pointer with
  | leaf q =>
    cases hq' : t.heap e'.pointer with
    | internal q' => rw [hq, hq'] at htype; cases htype
    | leaf q' =>
      obtain ⟨t₁, res, hrun, hout, hbuilt, hshares⟩ := Embeds.mergePages_keeps (i := j)
        embeds_leaf hg hb hc (by rw [hq]; rfl) (by rw [hq']; rfl) hs hs' hnear.adjacent hrec
      rw [hq, Node.isLeaf, if_pos rfl] at hstart
      rw [hq] at hshares
      exact ⟨t₁, res, j, e', hstart.trans hrun, hout, hji, hj, ha', hnear, hbuilt, hshares⟩
  | internal q =>
    cases hq' : t.heap e'.pointer with
    | leaf q' => rw [hq, hq'] at htype; cases htype
    | internal q' =>
      have hcap : 2 ≤ (internalKind : PageKind K P (Entry K)).cap cfg := by
        have := hp.room
        change 2 ≤ cfg.fanOut
        omega
      obtain ⟨t₁, res, hrun, hout, hbuilt, hshares⟩ := Embeds.mergePages_keeps (i := j)
        embeds_internal hg hb hc (by rw [hq]; rfl) (by rw [hq']; rfl) hs hs' hnear.adjacent hcap
      rw [hq, Node.isLeaf, if_neg Bool.false_ne_true] at hstart
      rw [hq] at hshares
      exact ⟨t₁, res, j, e', hstart.trans hrun, hout, hji, hj, ha', hnear, hbuilt, hshares⟩

/-- Entries give way to fresh ones for the same keys. -/
theorem exchanged_of_swap {es : List (Entry K)} {index : List ℕ} (hp : Parent cfg t m f p) (w : ℕ)
    (hnodup : index.Nodup) (hentries : index.map (p.units[·]?) = es.map some)
    (hactive : ∀ e ∈ es, PageUnit.isActive e = true)
    (hroom : p.units.length + xs.length ≤ cfg.fanOut) (hproper : ∀ x ∈ xs, x.1.Proper)
    (hdisjoint : xs.Pairwise (fun x y => x.1.Disjoint y.1))
    (hcover : ∀ k, (∃ x ∈ xs, k ∈ x.1) ↔ ∃ e ∈ es, k ∈ e.fence) :
    Exchanged cfg f p es (freshEntries w xs)
      (swappedPage p w xs index (xs.length - es.length) es.length) := by
  have hmarked := markAll_marked hnodup hentries hactive
  have hrefit : Refit es (freshEntries w xs) := by
    refine ⟨?_, List.pairwise_map.mpr hdisjoint, ?_, ?_⟩
    · intro a ha
      obtain ⟨x, hx, rfl⟩ := List.mem_map.mp ha
      exact hproper x hx
    · intro k
      rw [← hcover k]
      constructor
      · rintro ⟨a, ha, hk⟩
        obtain ⟨x, hx, rfl⟩ := List.mem_map.mp ha
        exact ⟨x, hx, hk⟩
      · rintro ⟨x, hx, hk⟩
        exact ⟨_, List.mem_map_of_mem hx, hk⟩
    · intro a ha
      obtain ⟨x, -, rfl⟩ := List.mem_map.mp ha
      rfl
  have hlen : (markAll index p.units ++ freshEntries w xs).length = p.units.length + xs.length := by
    rw [List.length_append, ← hmarked.related.length_eq]
    simp [freshEntries]
  have hfresh : (freshEntries w xs).countP PageUnit.isActive = xs.length := by
    rw [List.countP_eq_length.mpr hrefit.active]
    simp [freshEntries]
  have hact : (markAll index p.units ++ freshEntries w xs).countP PageUnit.isActive + es.length =
      p.units.countP PageUnit.isActive + xs.length := by
    have := hmarked.active.length_eq
    rw [List.length_append] at this
    rw [List.countP_append, hfresh, List.countP_eq_length_filter, List.countP_eq_length_filter, this]
    omega
  have h₁ := Page.countP_add_countP_not PageUnit.isActive
    (markAll index p.units ++ freshEntries w xs)
  have h₂ := Page.countP_add_countP_not PageUnit.isActive p.units
  refine ⟨hp.counted.commit (by rw [hlen]; exact hroom) (by omega) (by omega), ?_, ?_⟩
  · exact ⟨_, hmarked.active, Marked.filter_append hrefit⟩
  · exact hmarked.tiling hrefit hp.tiling (fun _ _ _ => trivial) (fun _ _ => trivial)

end Parent

/-- Below any directory with at least two active entries and room for two more, a merge
of the child at any active entry takes the sibling next to it, on the right if there is
one, and `on_underflow_node` shares the active units of both out over one or two fresh
pages and leaves a parent whose active fences partition its fence. -/
theorem merge_keeps_content {cfg : Config K} {t : MVBTSt K P} {f : Interval K} {m i : ℕ}
    {p : InternalPage K} {e : Entry K} (hg : GraveyardOk t) (hp : Parent cfg t m f p)
    (hrec : 2 ≤ cfg.numRecords) (hi : p.units[i]? = some e) (ha : PageUnit.isActive e = true) :
    ∃ t₁ res j e' t' p', merge cfg t m e.pointer i = .ok (t₁, res) ∧
      MergeOutcome j e'.fence res ∧ j ≠ i ∧ p.units[j]? = some e' ∧
      PageUnit.isActive e' = true ∧ Neighbour (p.units.filter PageUnit.isActive) e e' ∧
      Built t t₁ ((mergeFences e.fence res).map (fun x => (x.2, t₁.heap x.2))) ∧
      onUnderflowNode cfg t m e.pointer i = .ok (some t') ∧
      Shares cfg t' (e.fence.merged e'.fence)
        (activeContent (t.heap e.pointer) ++ activeContent (t.heap e'.pointer))
        (mergeFences e.fence res) ∧
      t'.heap m = .internal p' ∧ Exchanged cfg f p [e', e]
        (freshEntries t.commit.clock (mergeFences e.fence res)) p' := by
  obtain ⟨t₁, res, j, e', hmerge, hout, hji, hj, ha', hnear, hbuilt, hshares⟩ :=
    merge_keeps hg hp hrec hi ha
  have hnew := hbuilt.not_new hp.inUse.used hp.inUse.kept
  have hheap : t₁.heap m = .internal p :=
    (hbuilt.heap_kept hp.inUse.used hp.inUse.kept).trans hp.page
  have hlen := hp.counted.sumLen
  have hroom := hp.room
  have hrun := onUnderflowNode_run hmerge hout hheap hp.counted hi hj (by omega)
    hbuilt.frame.clock
  have hmem : e ∈ p.units.filter PageUnit.isActive :=
    List.mem_filter.mpr ⟨List.mem_of_getElem? hi, ha⟩
  have hproper : (e.fence.merged e'.fence).Proper :=
    (min_le_right _ _).trans ((hp.tiling.proper e hmem).trans (le_max_right _ _))
  obtain ⟨hprop, hdisj, hcover⟩ := hshares.fences hproper
  have htwo : (mergeFences e.fence res).length ≤ 2 := by
    cases hout <;> simp [mergeFences, splitFences]
  refine ⟨t₁, res, j, e', _, _, hmerge, hout, hji, hj, ha', hnear, hbuilt, hrun, ?_,
    Function.update_self m _ _, ?_⟩
  · refine hshares.congr (fun x hx => ?_)
    exact Function.update_of_ne (hnew _ (List.mem_map_of_mem hx)) _ _
  · have hentries : [j, i].map (p.units[·]?) = [e', e].map some := by simp [hi, hj]
    refine exchanged_of_swap hp t.commit.clock (by simpa using hji) hentries (by simp [ha, ha'])
      (by omega) hprop hdisj ?_
    intro k
    rw [hcover k, hnear.adjacent.merged k]
    simp [or_comm]

/-- Two entries that cut the keys at 30. -/
def twoEntries : List (Entry UInt64) :=
  [.new ⟨0, u64Space.decKey 30⟩ 1 1, .new ⟨30, 0xFFFFFFFFFFFFFFFF⟩ 2 2]

/-- A directory over two leaves with a record each. -/
def twoLeafTree : MVBTSt UInt64 ℕ :=
  ⟨fun b => if b = 0 then .internal ⟨fromActiveDead 2 0, twoEntries⟩
    else .leaf ⟨fromActiveDead 1 0, [⟨if b = 1 then 10 else 30, .new b, 0⟩]⟩,
    3, FrugalList.new (0, 2) 1, fun _ => .next, CommitClock.CommitState.new 1, 0, none, false⟩

theorem twoLeafTree_parent : Parent ⟨4, 4, u64Space⟩ twoLeafTree 0 u64Space.full
    ⟨fromActiveDead 2 0, twoEntries⟩ := by
  have hlt : u64Space.full.lower < 30 := by decide
  have hle : 30 ≤ u64Space.full.upper := by decide
  have hproper : ∀ e ∈ twoEntries.filter PageUnit.isActive, e.fence.lower ≤ e.fence.upper := by
    decide
  have hsound : ∀ b, 0 < b → ∀ f : Interval UInt64, (if b = 1 then 10 else 30) ∈ f →
      Sound ⟨4, 4, u64Space⟩ f (twoLeafTree.heap b) := by
    intro b hb f hk
    have hheap : twoLeafTree.heap b =
        .leaf ⟨fromActiveDead 1 0, [⟨if b = 1 then 10 else 30, .new b, 0⟩]⟩ := if_neg hb.ne'
    rw [hheap]
    have hcounted : (⟨fromActiveDead 1 0, [⟨if b = 1 then 10 else 30, .new b, 0⟩]⟩ :
        LeafPage UInt64 ℕ).Counted 4 := ⟨rfl, Nat.le_of_ble_eq_true rfl, by decide⟩
    refine sound_leaf_iff.mpr ⟨hcounted, ?_, ?_, ?_⟩
    · rw [hcounted.asUnits]
      exact List.pairwise_singleton _ _
    · rw [hcounted.activeUnits]
      intro r hr
      obtain rfl := List.mem_singleton.mp (List.mem_filter.mp hr).1
      exact hk
    · rw [hcounted.activeUnits]
      exact List.pairwise_singleton _ _
  have hentry : ∀ e ∈ twoEntries, (0 < e.pointer ∧ e.pointer < 3) ∧
      e.fence.contains (if e.pointer = 1 then 10 else 30) = true := by decide
  refine ⟨⟨by decide, nofun⟩, rfl, ⟨by decide, by decide, by decide⟩, ?_, by decide, by decide,
    ?_, ?_⟩
  · refine ⟨hproper, ?_, fun _ _ => trivial, ?_, ?_⟩
    · intro e he k hk
      rcases List.mem_cons.mp he with rfl | he
      · exact (u64Space.mem_cut hlt hle).mp (.inl hk)
      · obtain rfl := List.mem_singleton.mp he
        exact (u64Space.mem_cut hlt hle).mp (.inr hk)
    · exact List.pairwise_pair.mpr (u64Space.cut_disjoint hlt)
    · intro k hk _
      rcases (u64Space.mem_cut hlt hle).mpr hk with hk | hk
      · exact ⟨_, List.mem_cons_self, hk⟩
      · exact ⟨_, List.mem_cons_of_mem _ (List.mem_singleton_self _), hk⟩
  · intro e he _
    obtain ⟨⟨hpos, hlt⟩, hk⟩ := hentry e he
    exact ⟨⟨hlt, nofun⟩, hsound _ hpos _ (Interval.contains_eq_true.mp hk)⟩
  · intro e he e' he' _ _
    obtain ⟨⟨hpos, -⟩, -⟩ := hentry e he
    obtain ⟨⟨hpos', -⟩, -⟩ := hentry e' he'
    simp only [twoLeafTree, if_neg hpos.ne', if_neg hpos'.ne', Node.isLeaf]

theorem merge_keeps_content_two_leaves :
    ∃ t₁ res j e' t' p', merge ⟨4, 4, u64Space⟩ twoLeafTree 0 1 0 = .ok (t₁, res) ∧
      MergeOutcome j e'.fence res ∧
      onUnderflowNode ⟨4, 4, u64Space⟩ twoLeafTree 0 1 0 = .ok (some t') ∧
      t'.heap 0 = .internal p' ∧ Exchanged ⟨4, 4, u64Space⟩ u64Space.full
        ⟨fromActiveDead 2 0, twoEntries⟩ [e', .new ⟨0, u64Space.decKey 30⟩ 1 1]
        (freshEntries 1 (mergeFences ⟨0, u64Space.decKey 30⟩ res)) p' := by
  obtain ⟨t₁, res, j, e', t', p', hmerge, hout, -, -, -, -, -, hrun, -, hheap, hex⟩ :=
    merge_keeps_content (i := 0) (e := .new ⟨0, u64Space.decKey 30⟩ 1 1)
      (show GraveyardOk twoLeafTree from ⟨nofun, List.nodup_nil⟩) twoLeafTree_parent (by decide) rfl rfl
  exact ⟨t₁, res, j, e', t', p', hmerge, hout, hrun, hheap, hex⟩

end CMVBT.MergeContent
