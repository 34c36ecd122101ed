import CMVBT.RetainedVersions
import CMVBT.VersionSplit
import CMVBT.ScanRounds

/-!
# When a scan up to the border ends

A scan whose range contains `maxKey` ends if no record at the snapshot has that
key, or if the snapshot is a single leaf. Otherwise it never does: behind the last
leaf it looks for `maxKey` from the directory above, and finds the leaf again.

The scan also gives up at an empty leaf in front of the border. No fence ends
there: the block behind it would have a single key, and every block but the root
is filled with several when it is built.
-/
namespace CMVBT.ScanTermination
open KeyInterval LastMatch FenceTiling VersionedLog PageModel FrugalList CommitClock Tracker
open CMVBT.Tree
open BlockSupply WritePath ReadPath DirectoryHistory LeafHistory TreeInvariant NewPages
open ChildRepair RootRewrite Descent Reference WriteOperations FreshTree SnapshotRead
open InPlaceUpdate ReaderHistory Graveyard DescentTrace VersionSplit RangeScan ScanRounds
open RetainedVersions

variable {K P : Type} [LinearOrder K]

/-! ## No fence ends right before the border -/

section Fences
variable {cfg : Config K} {t t' : MVBTSt K P} {g g' : Ghost K P}

/-- A key is covered on every level of the tree. -/
theorem exists_alive_at_level (h : Living cfg t g) (k : K) (n : ℕ) :
    ∀ b < t.nextBlock, (g.life b).death = none → k ∈ (g.life b).fence → ∀ level,
      (g.life b).level = level + n → 1 ≤ level → ∃ c < t.nextBlock, (g.life c).death = none ∧
        (g.life c).level = level ∧ k ∈ (g.life c).fence := by
  induction n with
  | zero =>
    intro b hb halive hk level hlevel _
    exact ⟨b, hb, halive, hlevel, hk⟩
  | succ n ih =>
    intro b hb halive hk level hlevel hone
    have hnode := h.node b hb
    cases hp : t.heap b with
    | leaf p =>
      rw [hp] at hnode
      have := hnode.1
      omega
    | internal p =>
      rw [hp] at hnode
      have htiling := hnode.2.tiling halive
      obtain ⟨e, he, hke⟩ := htiling.complete k hk trivial
      obtain ⟨hlt, below, hbelow, hlife⟩ := htiling.good e he
      refine ih e.pointer hlt (by rw [hlife]) (by rw [hlife]; exact hke) level ?_ hone
      rw [hlife]
      simp only
      omega

/-- Units over a single key. -/
theorem length_le_one_of_single {α : Type} {span : α → Interval K} {good : α → Prop}
    {needed : K → Prop} {f : Interval K} {us : List α} (h : Tiling span good needed f us) {m : K}
    (hf : ∀ k ∈ f, k = m) : us.length ≤ 1 := by
  have hall : ∀ u ∈ us, m ∈ span u := by
    intro u hu
    have hmem := (h.proper u hu).lower_mem
    rwa [hf _ (h.within u hu _ hmem)] at hmem
  rcases us with _ | ⟨u, _ | ⟨w, us⟩⟩
  · exact Nat.zero_le _
  · exact le_rfl
  · have hd := (List.pairwise_cons.mp h.disjoint).1 w List.mem_cons_self
    exact absurd (hall w (by simp)) (hd m (hall u (by simp)))

/-- Below the root every block holds several keys. -/
theorem not_single (h : Living cfg t g) (hc : Roomy cfg) {b : ℕ} (hb : b < t.nextBlock)
    (halive : (g.life b).death = none) (hroot : b ≠ t.currentRoot.1) {m : K} :
    ¬ ∀ k ∈ (g.life b).fence, k = m := by
  intro hall
  have hfilled := h.filled b hb halive hroot
  have hnode := h.node b hb
  have hge := hc.fanOut_ge
  have hge' := hc.numRecords_ge
  cases hp : t.heap b with
  | leaf p =>
    rw [hp] at hnode hfilled
    have hone := length_le_one_of_single
      (hnode.2.tiling h.logged halive (h.born b hb).2.1) hall
    rw [← List.countP_eq_length_filter, ← hnode.2.counted.active] at hone
    simp only [filling20Percent, maxUnits, Node.isLeaf, Node.activeDeadCount, Page.activeDeadCount,
      if_true] at hfilled
    omega
  | internal p =>
    rw [hp] at hnode hfilled
    have hone := length_le_one_of_single (hnode.2.tiling halive) hall
    rw [← List.countP_eq_length_filter, ← hnode.2.counted.active] at hone
    simp only [filling20Percent, maxUnits, Node.isLeaf, Node.activeDeadCount, Page.activeDeadCount,
      Bool.false_eq_true, if_false] at hfilled
    omega

/-- The fence of a living block does not end right before the border. -/
theorem fence_clear (h : Living cfg t g) (hc : Roomy cfg) {b : ℕ} (hb : b < t.nextBlock)
    (halive : (g.life b).death = none) (hlt : (g.life b).fence.upper < cfg.keys.maxKey) :
    cfg.keys.incKey (g.life b).fence.upper ≠ cfg.keys.maxKey := by
  intro hinc
  obtain ⟨birth, hlife⟩ := h.root_life
  have hlevel := h.level_le b hb halive
  have hpos : 1 ≤ (g.life b).level := by
    have hnode := h.node b hb
    cases hp : t.heap b with
    | leaf p => rw [hp] at hnode; exact hnode.1.ge
    | internal p => rw [hp] at hnode; exact hnode.1.le
  -- the block behind the fence, on the same level
  obtain ⟨c, hcb, hcalive, hclevel, hcmax⟩ := exists_alive_at_level h cfg.keys.maxKey
    (t.currentRoot.2 - (g.life b).level) t.currentRoot.1 h.root_lt (by rw [hlife])
    (by rw [hlife]; exact cfg.keys.mem_full _) (g.life b).level
    (by rw [hlife]; simp only; omega) hpos
  have hne : b ≠ c := by
    rintro rfl
    exact absurd hcmax.2 (not_le.mpr hlt)
  have hdisjoint := h.disjoint b hb c hcb halive hcalive hclevel.symm hne
  have hup := (h.born b hb).1.upper_mem
  have hsingle : ∀ k ∈ (g.life c).fence, k = cfg.keys.maxKey := by
    intro k hk
    refine le_antisymm (cfg.keys.le_max k) ?_
    rw [← hinc, cfg.keys.inc_le _ hlt]
    by_contra hcon
    exact hdisjoint _ hup ⟨hk.1.trans (not_lt.mp hcon), hlt.le.trans hcmax.2⟩
  refine not_single h hc hcb hcalive ?_ hsingle
  rintro rfl
  rw [hlife] at hdisjoint
  exact hdisjoint _ hup (cfg.keys.mem_full _)

/-- The entries of all directories, old ones included, end well before the border. -/
def ClearOfBorder (cfg : Config K) (t : MVBTSt K P) : Prop :=
  ∀ b < t.nextBlock, ∀ p, t.heap b = .internal p → ∀ e ∈ p.units,
    e.fence.upper < cfg.keys.maxKey → cfg.keys.incKey e.fence.upper ≠ cfg.keys.maxKey

/-- Every step keeps that: new entries are links to living blocks. -/
theorem ClearOfBorder.advance (h : ClearOfBorder cfg t) (hc : Roomy cfg)
    (ha : Advance t g t' g') (h' : Living cfg t' g') : ClearOfBorder cfg t' := by
  intro b hb p hp e he hlt
  rcases ha.entries b hb p hp e he with ⟨hptr, below, -, hlife⟩ |
    ⟨hold, -, p₀, hp₀, e₀, he₀, hfence, -, -⟩
  · have hclear := fence_clear h' hc hptr (by rw [hlife])
    rw [hlife] at hclear
    exact hclear hlt
  · rw [hfence] at hlt ⊢
    exact h b hold p₀ hp₀ e₀ he₀ hlt

theorem ClearOfBorder.quiet (h : ClearOfBorder cfg t) (hq : Quiet t t')
    (hnext : t'.nextBlock = t.nextBlock) : ClearOfBorder cfg t' := by
  intro b hb p hp
  rw [hnext] at hb
  exact h b hb p ((hq.directory b p).mp hp)

theorem ClearOfBorder.fresh (h : Fresh t) : ClearOfBorder cfg t := by
  intro b hb p hp
  rw [h.next] at hb
  obtain rfl : b = 0 := by omega
  rw [h.heap] at hp
  cases hp

theorem ClearOfBorder.uppers (h : ClearOfBorder cfg t) {u : K} (hu : u ∈ allUppers t)
    (hlt : u < cfg.keys.maxKey) : cfg.keys.incKey u ≠ cfg.keys.maxKey := by
  obtain ⟨b, hb, hmem⟩ := Finset.mem_biUnion.mp hu
  cases hp : t.heap b with
  | leaf p =>
    rw [hp] at hmem
    exact absurd hmem (Finset.notMem_empty u)
  | internal p =>
    rw [hp] at hmem
    simp only [List.mem_toFinset, List.mem_map] at hmem
    obtain ⟨e, he, rfl⟩ := hmem
    exact h b (Finset.mem_range.mp hb) p hp e he hlt

/-! ## Along a history -/

theorem retrieveRoot_clear (h : Inv cfg t g) (hc : Roomy cfg) (hclear : ClearOfBorder cfg t) :
    ∃ t' g', retrieveRootWriteOlc cfg t = .ok (t', t'.currentRoot.1) ∧ Inv cfg t' g' ∧
      RootReady cfg (t'.heap t'.currentRoot.1) ∧ ClearOfBorder cfg t' := by
  cases hdeg : unsafeDegreeRoot cfg (t.heap t.currentRoot.1) with
  | ok =>
    exact ⟨t, g, by simp only [retrieveRootWriteOlc, hdeg], h, rootReady_of_ok h.living hdeg,
      hclear⟩
  | overflow =>
    obtain ⟨t', news, heq, hr⟩ := retrieveRoot_overflow h hc hdeg
    obtain ⟨g', hre⟩ := hr.rerooted h
    exact ⟨t', g', heq, hre.inv, hre.ready, hclear.advance hc hre.advance hre.inv.living⟩
  | activeUnderflow =>
    obtain ⟨c, t', news, heq, -, hr⟩ := retrieveRoot_collapse h hc hdeg
    obtain ⟨g', hre⟩ := hr.rerooted h
    exact ⟨t', g', heq, hre.inv, hre.ready, hclear.advance hc hre.advance hre.inv.living⟩

theorem descends_clear (hc : Roomy cfg) {key : K} {b leaf : ℕ}
    (hd : Descends cfg key t b t' leaf) : ∀ g, Inv cfg t g → OnPath cfg t g b key →
      ClearOfBorder cfg t → ClearOfBorder cfg t' := by
  induction hd with
  | arrive _ => exact fun _ _ _ hclear => hclear
  | @enter t t' b c leaf hround _ _ ih =>
    intro g h ho hclear
    have hlevel := directory_of_round h.living ho hround (nomatch ·)
    rcases descendRound_cases h.living hc ho hlevel with ⟨c', hround', hon, -⟩ |
      ⟨e, t₁, hround', -⟩
    · rw [hround] at hround'
      cases hround'
      exact ih g h hon hclear
    · rw [hround] at hround'
      cases hround'
  | @repair t t₁ t' b c leaf hround _ hnext _ _ ih =>
    intro g h ho hclear
    have hlevel := directory_of_round h.living ho hround (nomatch ·)
    rcases descendRound_cases h.living hc ho hlevel with ⟨c', hround', -⟩ |
      ⟨e, t₂, hround', hke, hr⟩
    · rw [hround] at hround'
      cases hround'
    · rw [hround] at hround'
      cases hround'
      obtain ⟨g', hr⟩ := hr.repaired h
      obtain ⟨c', hnext', hon, -⟩ := Repaired.enters hr ho hlevel hke
      rw [hnext] at hnext'
      cases hnext'
      exact ih g' hr.inv hon (hclear.advance hc hr.advance hr.inv.living)

/-- The descent of a write ends at a leaf. -/
theorem traversal_clear (h : Inv cfg t g) (hc : Roomy cfg) (hclear : ClearOfBorder cfg t) (key : K) :
    ∃ t' leaf p, traversalWriteOlc cfg t key = .ok (t', leaf) ∧ t'.heap leaf = .leaf p ∧
      ClearOfBorder cfg t' := by
  obtain ⟨t₁, g₁, hret, hinv, hready, hclear₁⟩ := retrieveRoot_clear h hc hclear
  obtain ⟨birth, hlife⟩ := hinv.living.root_life
  have hon : OnPath cfg t₁ g₁ t₁.currentRoot.1 key := by
    refine ⟨hinv.living.root_lt, by rw [hlife], ?_, by rwa [Safe, if_pos rfl]⟩
    rw [hlife]
    exact cfg.keys.mem_full key
  obtain ⟨t', g', leaf, hd, ha⟩ := descends_arrives hc _ t₁ g₁ _ hinv hon rfl
  obtain ⟨t'', g'', leaf', hrun, -⟩ := descend_arrives hc _ t₁ g₁ _ hinv hon rfl
    (2 * t₁.currentRoot.2) (by rw [hlife]; exact Nat.le_succ _)
  have heq := hd.eq_of_descend _ _ hrun
  cases heq
  have hleaf := (ha.inv.living.isLeaf_iff ha.onPath.used).mpr ha.level
  cases hp : t'.heap leaf with
  | internal p =>
    rw [hp] at hleaf
    cases hleaf
  | leaf p =>
    refine ⟨t', leaf, p, ?_, hp, descends_clear hc hd g₁ hinv hon hclear₁⟩
    simp only [traversalWriteOlc, hret, bind, Except.bind, hrun]

theorem dispatchWrite_clear (hc : Roomy cfg) {log : Log K P} (h : Carries cfg t log)
    (hclear : ClearOfBorder cfg t) {op : WriteOperation K P} {r : WriteResult}
    (hrun : dispatchWrite cfg t op = .ok (t', r)) : ClearOfBorder cfg t' := by
  rcases h with ⟨hfresh, -⟩ | ⟨g, hinv, -⟩
  · obtain ⟨hq, hnext⟩ := dispatchWrite_leaf hrun (traversalWrite_fresh hc hfresh _) hfresh.heap
    exact hclear.quiet hq hnext
  · obtain ⟨t₁, leaf, p, htr, hp, hclear₁⟩ := traversal_clear hinv hc hclear (operationKey op)
    obtain ⟨hq, hnext⟩ := dispatchWrite_leaf hrun htr hp
    exact hclear₁.quiet hq hnext

theorem runWrites_clear (hc : Roomy cfg) (ops : List (WriteOperation K P)) :
    ∀ (t : MVBTSt K P) (log : Log K P), Carries cfg t log → ClearOfBorder cfg t →
      ∀ t' rs, runWrites cfg t ops = .ok (t', rs) → ClearOfBorder cfg t' := by
  induction ops with
  | nil =>
    intro t log _ hclear t' rs hrun
    cases hrun
    exact hclear
  | cons op ops ih =>
    intro t log h hclear t' rs hrun
    obtain ⟨t₁, r, log₁, hwrite, h₁, -⟩ := h.write hc op
    simp only [runWrites, hwrite, bind, Except.bind] at hrun
    cases hrest : runWrites cfg t₁ ops with
    | error e =>
      rw [hrest] at hrun
      cases hrun
    | ok x =>
      rw [hrest] at hrun
      cases hrun
      exact ih t₁ log₁ h₁ (dispatchWrite_clear hc h hclear hwrite) _ _ hrest

end Fences

/-! ## The scan -/

/-- A new iterator over the range answers `None` after finitely many calls. -/
def ReachesNone (cfg : Config K) (t : MVBTSt K P) (v : ℕ) (range : Interval K) : Prop :=
  ∃ s it fuel calls s' it' found, RangeQueryIter.new cfg t v range = .ok (s, it) ∧
    it.drain cfg fuel calls s = .ok (s', it', found)

/-- The snapshot at `v` is a single leaf. -/
def RootIsLeaf (t : MVBTSt K P) (v : ℕ) : Prop :=
  ∃ root page, t.rootFor v = .ok root ∧ t.heap root.1 = .leaf page

section Scan
variable {cfg : Config K} {t s : MVBTSt K P} {g : Ghost K P} {v : ℕ} {root : ℕ × ℕ}

/-- A scan of a single leaf. -/
theorem scan_of_leaf (h : Inv cfg t g) (hs : s.heap = t.heap)
    (hroot : Visible t g v root.1 cfg.keys.full root.2) {p : LeafPage K P}
    (hp : t.heap root.1 = .leaf p) (lo : K) :
    ∃ rs, Scans cfg s (scanFrom P v cfg.keys.maxKey [(cfg.keys.full, root.1)] lo) rs ∧
      Exact g.log v cfg.keys.maxKey lo rs := by
  have hshow := hroot.shows h hp
  have hns : s.heap root.1 = .leaf p := by rw [hs]; exact hp
  have hle := cfg.keys.le_max lo
  refine ⟨leafFound p v ⟨lo, cfg.keys.maxKey⟩, ?_, leafFound_nodup hshow _, ?_⟩
  · by_cases hfound : leafFound p v ⟨lo, cfg.keys.maxKey⟩ = []
    · rw [hfound]
      exact scans_leaf_end hle hns hfound cfg.keys.inc_max
    · rw [← List.append_nil (leafFound p v _)]
      exact scans_leaf_found hle hns hfound scans_nil
  · intro k payload
    rw [mem_leafFound hshow]
    exact ⟨fun hk => hk.2, fun hk => ⟨cfg.keys.mem_full k, hk⟩⟩

/-- The two kinds of snapshots that a scan up to the border gets through. -/
theorem scan_of_bounded (h : Inv cfg t g) (hr : Readable cfg t g v) (hs : s.heap = t.heap)
    (hfor : t.rootFor v = .ok root) (hroot : Visible t g v root.1 cfg.keys.full root.2)
    (hbounded : liveAt g.log cfg.keys.maxKey v = none ∨ RootIsLeaf t v) (lo : K) :
    ∃ rs, Scans cfg s (scanFrom P v cfg.keys.maxKey [(cfg.keys.full, root.1)] lo) rs ∧
      Exact g.log v cfg.keys.maxKey lo rs := by
  rcases hbounded with hmax | ⟨root', p, hfor', hp⟩
  · obtain ⟨root', hfor', hscan⟩ := scansFrom_root h hr hs (.inl hmax) lo
    rw [hfor, Except.ok.injEq] at hfor'
    rw [hfor']
    exact hscan
  · rw [hfor, Except.ok.injEq] at hfor'
    rw [← hfor'] at hp
    exact scan_of_leaf h hs hroot hp lo

theorem reachesNone_iff (h : Inv cfg t g) (hr : Readable cfg t g v)
    (hclear : ClearOfBorder cfg t) (lo : K) :
    ReachesNone cfg t v ⟨lo, cfg.keys.maxKey⟩ ↔
      liveAt g.log cfg.keys.maxKey v = none ∨ RootIsLeaf t v := by
  obtain ⟨root, hfor, hroot⟩ := readable_root h hr
  obtain ⟨s, hnew, hs⟩ := new_of_root cfg lo cfg.keys.maxKey hfor
  constructor
  · rintro ⟨s₀, it₀, fuel, calls, s', it', found, hnew₀, hdrain⟩
    rw [hnew] at hnew₀
    cases hnew₀
    have hrounds := drain_rounds h hr hroot hs hdrain
    cases hlive : liveAt g.log cfg.keys.maxKey v with
    | none => exact .inl rfl
    | some payload =>
      cases hp : t.heap root.1 with
      | leaf p => exact .inr ⟨root, p, hfor, hp⟩
      | internal p =>
        exact absurd rfl (hrounds.endless h hp hlive
          (fun u hu _ hlt => hclear.uppers hu hlt) (le_refl lo))
  · intro hbounded
    obtain ⟨rs, hscan, -⟩ := scan_of_bounded h hr hs hfor hroot hbounded lo
    obtain ⟨bound, s', it', hdrain⟩ := hscan.drain rfl rfl
    exact ⟨s, _, bound, bound, s', it', rs, hnew, hdrain bound bound le_rfl le_rfl⟩

/-- A scan that ends has yielded each record once. -/
theorem drained_exact (h : Inv cfg t g) (hr : Readable cfg t g v) (hclear : ClearOfBorder cfg t)
    {lo : K} {it it' : RangeQueryIter K P} {s' : MVBTSt K P} {fuel calls : ℕ}
    {found : List (RecordPointResult K P)}
    (hnew : RangeQueryIter.new cfg t v ⟨lo, cfg.keys.maxKey⟩ = .ok (s, it))
    (hdrain : it.drain cfg fuel calls s = .ok (s', it', found)) :
    Exact g.log v cfg.keys.maxKey lo found := by
  have hbounded := (reachesNone_iff h hr hclear lo).mp
    ⟨s, it, fuel, calls, s', it', found, hnew, hdrain⟩
  obtain ⟨root, hfor, hroot⟩ := readable_root h hr
  obtain ⟨s₀, hnew₀, hs⟩ := new_of_root cfg lo cfg.keys.maxKey hfor
  rw [hnew] at hnew₀
  cases hnew₀
  obtain ⟨rs, hscan, hexact⟩ := scan_of_bounded h hr hs hfor hroot hbounded lo
  rw [scans_unique hscan found (scans_of_drain calls _ _ rfl rfl hdrain)]
  exact hexact

/-- Before the start version there is no root to scan from. -/
theorem new_rooted {range : Interval K} {it : RangeQueryIter K P}
    (hnew : RangeQueryIter.new cfg t v range = .ok (s, it)) : ∃ root, t.rootFor v = .ok root := by
  cases hfor : t.rootFor v with
  | ok root => exact ⟨root, rfl⟩
  | error e =>
    change (do let root ← t.rootFor v; _) = _ at hnew
    rw [hfor] at hnew
    cases hnew

end Scan

/-- After every history of a tree of any kind, at every version that it retains, a scan
up to the border ends exactly if no record there has the key `maxKey` or the snapshot
is a single leaf; and then it yields each record of the range once. The records of a
version are what its point reads return. -/
theorem scan_to_border_ends_iff {cfg : Config K} (hc : Roomy cfg) (gc : Option Bool)
    (tosses : ℕ → Toss) (threads tid : ℕ) (ops : List (WriteOperation K P)) :
    ∃ t rs log, runWrites cfg (opened gc tosses threads tid) ops = .ok (t, rs) ∧
      (gc ≠ some true → Replay [] ops rs log) ∧
      ∀ v, v < t.commit.clock → Retains t v →
        (startVersion ≤ v → ∀ key, (dispatchPoint t key v).map Prod.snd =
          .ok ((liveAt log key v).map (fun payload => (key, payload))).toList) ∧
        ∀ lo, (ReachesNone cfg t v ⟨lo, cfg.keys.maxKey⟩ ↔
          startVersion ≤ v ∧ (liveAt log cfg.keys.maxKey v = none ∨ RootIsLeaf t v)) ∧
        ∀ s it fuel calls s' it' found,
          RangeQueryIter.new cfg t v ⟨lo, cfg.keys.maxKey⟩ = .ok (s, it) →
          it.drain cfg fuel calls s = .ok (s', it', found) →
          (found.map Prod.fst).Nodup ∧
            ∀ k payload, (k, payload) ∈ found ↔ lo ≤ k ∧ liveAt log k v = some payload := by
  have hfresh := opened_fresh (K := K) (P := P) gc tosses threads tid
  obtain ⟨t, rs, log, hrun, hcar, hreplay, -⟩ := runWrites_opened hc gc tosses threads tid ops
  have hclear := runWrites_clear hc ops _ [] (.inl ⟨hfresh, rfl⟩) (.fresh hfresh) t rs hrun
  refine ⟨t, rs, log, hrun, hreplay, ?_⟩
  intro v hlt hretains
  refine ⟨fun hv key => carries_point hcar hv hlt hretains key, fun lo => ?_⟩
  by_cases hv : startVersion ≤ v
  · obtain ⟨g, h, rfl, hr⟩ := carries_readable hcar hv hlt hretains
    refine ⟨?_, fun s it fuel calls s' it' found hnew hdrain => ?_⟩
    · rw [reachesNone_iff h hr hclear]
      exact (and_iff_right hv).symm
    · have hexact := drained_exact h hr hclear hnew hdrain
      refine ⟨hexact.nodup, fun k payload => ?_⟩
      rw [hexact.mem]
      exact and_congr_left' (and_iff_left (cfg.keys.le_max k))
  · have hno : ∀ root, t.rootFor v ≠ .ok root := by
      intro root hroot
      rw [Carries.unrooted hcar (not_le.mp hv)] at hroot
      cases hroot
    refine ⟨⟨?_, fun hcon => absurd hcon.1 hv⟩, ?_⟩
    · rintro ⟨s, it, fuel, calls, s', it', found, hnew, -⟩
      obtain ⟨root, hroot⟩ := new_rooted hnew
      exact absurd hroot (hno root)
    · intro s it fuel calls s' it' found hnew
      obtain ⟨root, hroot⟩ := new_rooted hnew
      exact absurd hroot (hno root)

/-- The border and ten further keys: at capacity 10 the last insert splits the root leaf. -/
def borderAndTen : List (WriteOperation UInt64 ℕ) :=
  .insert u64Space.maxKey 7 :: (List.range 10).map (fun i => .insert (UInt64.ofNat i) i)

/-- The scan up to the border ends at version 10, where the root is still a leaf, and
not at version 12, where it is a directory. -/
theorem scan_to_border_ends_iff_two_leaves :
    ∃ t rs, runWrites ⟨10, 10, u64Space⟩ (opened none (fun _ => .next) 1 0) borderAndTen =
        .ok (t, rs) ∧
      (dispatchPoint t u64Space.maxKey 12).map Prod.snd = .ok [(u64Space.maxKey, 7)] ∧
      ReachesNone ⟨10, 10, u64Space⟩ t 10 ⟨0, u64Space.maxKey⟩ ∧
      ¬ ReachesNone ⟨10, 10, u64Space⟩ t 12 ⟨0, u64Space.maxKey⟩ := by
  obtain ⟨t, rs, log, hrun, -, hreads⟩ := scan_to_border_ends_iff (roomy_ten u64Space) none
    (fun _ => .next) 1 0 borderAndTen
  have hstate : (runWrites ⟨10, 10, u64Space⟩ (opened none (fun _ => .next) 1 0)
      borderAndTen).map (fun x => (x.1.commit.clock, x.1.tracker.isNone, (x.1.heap 0).isLeaf,
        (x.1.heap 3).isLeaf)) = .ok (13, true, true, false) := by
    decide +kernel
  have hroots : (runWrites ⟨10, 10, u64Space⟩ (opened none (fun _ => .next) 1 0)
      borderAndTen).map (fun x => (x.1.rootFor 10, x.1.rootFor 12)) =
      .ok (.ok (0, 1), .ok (3, 2)) := by
    decide +kernel
  have hpoint : (runWrites ⟨10, 10, u64Space⟩ (opened none (fun _ => .next) 1 0)
      borderAndTen).map (fun x => (dispatchPoint x.1 u64Space.maxKey 12).map Prod.snd) =
      .ok (.ok [(u64Space.maxKey, 7)]) := by
    decide +kernel
  rw [hrun] at hstate hroots hpoint
  simp only [Except.map, Except.ok.injEq, Prod.mk.injEq] at hstate hroots
  obtain ⟨hclock, hnone, hleaf, hdirectory⟩ := hstate
  obtain ⟨hten, htwelve⟩ := hroots
  have hfound : (dispatchPoint t u64Space.maxKey 12).map Prod.snd = .ok [(u64Space.maxKey, 7)] :=
    Except.ok.inj hpoint
  have hretains : ∀ v, Retains t v := fun v => .inl (Option.isNone_iff_eq_none.mp hnone)
  obtain ⟨-, hends⟩ := hreads 10 (by omega) (hretains 10)
  obtain ⟨hanswers, hnever⟩ := hreads 12 (by omega) (hretains 12)
  refine ⟨t, rs, hrun, hfound, (hends 0).1.mpr ⟨by decide, .inr ?_⟩, fun hend => ?_⟩
  · cases hp : t.heap 0 with
    | internal p =>
      rw [hp] at hleaf
      cases hleaf
    | leaf p => exact ⟨(0, 1), p, hten, hp⟩
  · obtain ⟨-, hgone | ⟨root, p, hroot, hp⟩⟩ := (hnever 0).1.mp hend
    · have hlive := hanswers (by decide) u64Space.maxKey
      rw [hgone, hfound] at hlive
      cases hlive
    · rw [htwelve, Except.ok.injEq] at hroot
      rw [← hroot] at hp
      rw [hp] at hdirectory
      cases hdirectory

/-- The border and the keys 0 to 124 fill two leaves. -/
def borderWrites : List (WriteOperation UInt64 ℕ) :=
  .insert u64Space.maxKey 7 :: (List.range 125).map (fun i => .insert (UInt64.ofNat i) i)

/-- The scan of everything never ends. -/
theorem scan_to_border_endless :
    ∃ t rs s it, runWrites ⟨125, 125, u64Space⟩ (newTree false (fun _ => .next) 1 0) borderWrites =
        .ok (t, rs) ∧ 127 < t.commit.clock ∧
      RangeQueryIter.new ⟨125, 125, u64Space⟩ t 127 ⟨0, u64Space.maxKey⟩ = .ok (s, it) ∧
      ∀ fuel calls s' it' found,
        it.drain ⟨125, 125, u64Space⟩ fuel calls s ≠ .ok (s', it', found) := by
  have hc := roomy_of_capacity (.inl rfl) u64Space
  have hfresh : Fresh (newTree false (fun _ => .next) 1 0 : MVBTSt UInt64 ℕ) :=
    newTree_fresh false (fun _ => .next) 1 0
  obtain ⟨t, rs, log, hrun, -, htr, -, hend⟩ := runWrites_reached hc borderWrites _ hfresh
    (newTree_in_place false (fun _ => .next) 1 0)
  have hclear := runWrites_clear hc borderWrites _ [] (.inl ⟨hfresh, rfl⟩) (.fresh hfresh) t rs hrun
  -- a directory, and the record is there
  have hstate : (runWrites ⟨125, 125, u64Space⟩ (newTree false (fun _ => .next) 1 0)
      borderWrites).map (fun x => (x.1.commit.clock, (x.1.rootFor 127).map (fun root =>
        (x.1.heap root.1).isLeaf), (dispatchPoint x.1 u64Space.maxKey 127).map Prod.snd)) =
      .ok (128, .ok false, .ok [(u64Space.maxKey, 7)]) := by
    decide +kernel
  rw [hrun] at hstate
  simp only [Except.map, Except.ok.injEq, Prod.mk.injEq] at hstate
  obtain ⟨hclock, hleaf, hpoint⟩ := hstate
  rcases hend with ⟨hfresh', -⟩ | ⟨g, h, -⟩
  · have := hfresh'.clock
    rw [hclock] at this
    cases this
  have hr : Readable ⟨125, 125, u64Space⟩ t g 127 :=
    readable_untracked h (by simpa [newTree, make] using htr) (by decide)
  obtain ⟨root, hfor, -⟩ := readable_root h hr
  obtain ⟨s, hnew, -⟩ := new_of_root ⟨125, 125, u64Space⟩ 0 u64Space.maxKey hfor
  refine ⟨t, rs, s, _, hrun, by omega, hnew, fun fuel calls s' it' found hdrain => ?_⟩
  rcases (reachesNone_iff h hr hclear 0).mp ⟨s, _, fuel, calls, s', it', found, hnew, hdrain⟩ with
    hnone | ⟨root', p, hfor', hp⟩
  · rw [dispatchPoint_reference h hr, hnone] at hpoint
    cases hpoint
  · rw [hfor'] at hleaf
    simp only [Except.ok.injEq, hp, Node.isLeaf] at hleaf
    cases hleaf

end CMVBT.ScanTermination
