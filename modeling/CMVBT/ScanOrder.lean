import CMVBT.RetainedVersions
import CMVBT.ScanRounds

/-!
# The order of a range scan

The iterator takes the records of a leaf in the order in which the leaf stores
them, which is the order of their versions. From leaf to leaf the keys ascend.
So a scan comes in key order exactly if every leaf that it meets happens to store
the records of the range in that order.
-/
namespace CMVBT.ScanOrder
open KeyInterval LastMatch FenceTiling VersionedLog PageModel FrugalList CommitClock Tracker
open CMVBT.Tree
open BlockSupply WritePath ReadPath DirectoryHistory LeafHistory TreeInvariant NewPages
open Reference WriteOperations FreshTree SnapshotRead RangeScan ScanRounds ReaderHistory
open RetainedVersions

variable {K P : Type} [LinearOrder K]

def Ascending (rs : List (RecordPointResult K P)) : Prop :=
  (rs.map Prod.fst).Pairwise (· < ·)

/-- The leaves that point reads from `root` of the keys of the range end at store
the records of the range in key order. -/
def StoredAscending (t : MVBTSt K P) (root : ℕ × ℕ) (v : ℕ) (range : Interval K) : Prop :=
  ∀ k ∈ range, ∀ page, traverseReadKey t root.2 root.1 k v = .ok page →
    Ascending (leafFound page v range)

/-! ## One leaf -/

section Leaf
variable {log : Log K P} {v : ℕ} {hi lower lower' : K} {f : Interval K} {p : LeafPage K P}

theorem leafFound_sublist (hle : lower ≤ lower') :
    (leafFound p v ⟨lower', hi⟩).Sublist (leafFound p v ⟨lower, hi⟩) := by
  refine (List.monotone_filter_right _ (fun r hr => ?_)).map _
  simp only [Bool.and_eq_true, Interval.contains_eq_true] at hr ⊢
  exact ⟨hr.1, hle.trans hr.2.1, hr.2.2⟩

theorem leafFound_congr (hle : lower ≤ lower')
    (hall : ∀ x ∈ leafFound p v ⟨lower, hi⟩, lower' ≤ x.1) :
    leafFound p v ⟨lower', hi⟩ = leafFound p v ⟨lower, hi⟩ := by
  refine congrArg (List.map RecordPoint.result) (List.filter_congr (fun r hr => ?_))
  rw [Bool.eq_iff_iff]
  simp only [Bool.and_eq_true, Interval.contains_eq_true]
  constructor
  · rintro ⟨hm, hk⟩
    exact ⟨hm, hle.trans hk.1, hk.2⟩
  · rintro ⟨hm, hk⟩
    refine ⟨hm, ?_, hk.2⟩
    refine hall (RecordPoint.result r) (List.mem_map.mpr ⟨r, List.mem_filter.mpr ⟨hr, ?_⟩, rfl⟩)
    simp only [Bool.and_eq_true, Interval.contains_eq_true]
    exact ⟨hm, hk⟩

theorem Ascending.sublist {rs rs' : List (RecordPointResult K P)} (h : Ascending rs)
    (hsub : rs'.Sublist rs) : Ascending rs' :=
  List.Pairwise.sublist (hsub.map _) h

/-- There is at most one record at the border. -/
theorem ascending_border (S : KeySpace K) (hs : Shows log f p.asUnits v) :
    Ascending (leafFound p v ⟨S.maxKey, hi⟩) := by
  have hall : ∀ k ∈ (leafFound p v ⟨S.maxKey, hi⟩).map Prod.fst, k = S.maxKey := by
    intro k hk
    obtain ⟨x, hx, rfl⟩ := List.mem_map.mp hk
    obtain ⟨-, ⟨hle, -⟩, -⟩ := (mem_leafFound hs).mp hx
    exact le_antisymm (S.le_max _) hle
  refine List.Pairwise.imp_of_mem ?_ (leafFound_nodup hs ⟨S.maxKey, hi⟩)
  intro a b ha hb hne
  rw [hall a ha, hall b hb] at hne
  exact absurd rfl hne

end Leaf

/-! ## From leaf to leaf -/

section Order
variable {cfg : Config K} {t : MVBTSt K P} {g : Ghost K P} {v : ℕ} {root : ℕ × ℕ}
  {hi lower : K} {path : List (Interval K × ℕ)} {rs : List (RecordPointResult K P)}

/-- A point read ends at a leaf that shows all the keys that are read there. -/
theorem reads_leaf (h : Inv cfg t g) (hr : Readable cfg t g v)
    (hroot : Visible t g v root.1 cfg.keys.full root.2) {k : K} {page : LeafPage K P}
    (hread : traverseReadKey t root.2 root.1 k v = .ok page) :
    ∃ f, k ∈ f ∧ Shows g.log f page.asUnits v ∧
      ∀ k' ∈ f, traverseReadKey t root.2 root.1 k' v = .ok page := by
  have htop : Searched t g v root cfg.keys.full root.1 := ⟨root.2, hroot, fun _ _ => rfl⟩
  obtain ⟨f, b, p, hsearch, hp, hk⟩ :=
    Searched.exists_leaf h hr _ cfg.keys.full root.1 rfl htop (cfg.keys.mem_full k)
  have hsame := hsearch.leaf h hp hk
  rw [hread, Except.ok.injEq] at hsame
  subst hsame
  obtain ⟨level, hvis, -⟩ := id hsearch
  exact ⟨f, hk, hvis.shows h hp, fun k' hk' => hsearch.leaf h hp hk'⟩

/-- A key of the range that is read at another leaf has nothing there up to the
fence of this one. -/
theorem reads_beyond (h : Inv cfg t g) (hr : Readable cfg t g v)
    (hroot : Visible t g v root.1 cfg.keys.full root.2) {f : Interval K} {b : ℕ}
    {p page : LeafPage K P} (hleaf : Searched t g v root f b) (hp : t.heap b = .leaf p)
    (hlow : lower ∈ f) {k : K} (hk : lower ≤ k)
    (hread : traverseReadKey t root.2 root.1 k v = .ok page) :
    page = p ∨ f.upper < k ∧
      leafFound page v ⟨lower, hi⟩ = leafFound page v ⟨cfg.keys.incKey f.upper, hi⟩ := by
  have hsame : ∀ k' ∈ f, traverseReadKey t root.2 root.1 k' v = .ok page → page = p := by
    intro k' hk' hread'
    rw [hleaf.leaf h hp hk', Except.ok.injEq] at hread'
    exact hread'.symm
  by_cases hne : page = p
  · exact .inl hne
  have hbehind : ∀ k' : K, lower ≤ k' → traverseReadKey t root.2 root.1 k' v = .ok page →
      f.upper < k' := by
    intro k' hle hread'
    by_contra hcon
    exact hne (hsame k' ⟨hlow.1.trans hle, not_lt.mp hcon⟩ hread')
  refine .inr ⟨hbehind k hk hread, (leafFound_congr (hlow.2.trans (le_inc _ _)) ?_).symm⟩
  intro x hx
  obtain ⟨f', -, hshow, hall⟩ := reads_leaf h hr hroot hread
  obtain ⟨hmem, ⟨hle, -⟩, -⟩ := (mem_leafFound hshow).mp hx
  have hlt := hbehind x.1 hle (hall x.1 hmem)
  exact (cfg.keys.inc_le _ (hlt.trans_le (cfg.keys.le_max _)) _).mpr hlt

/-- What comes after a leaf lies behind its fence. -/
theorem route_behind (h : Inv cfg t g) {f : Interval K} {b : ℕ} {rest : List (Interval K × ℕ)}
    (hpath : Route cfg t g v root ((f, b) :: rest))
    (hrest : Rounds cfg t g v hi root rest (cfg.keys.incKey f.upper) rs) :
    ∀ x ∈ rs, f.upper < x.1 := by
  intro x hx
  obtain ⟨⟨hle, hhi⟩, hlive⟩ := hrest.sound h x hx
  rcases (cfg.keys.le_max f.upper).lt_or_eq with hlt | heq
  · exact (cfg.keys.lt_inc hlt).trans_le hle
  -- behind the border the scan would not have ended
  · exfalso
    rw [heq, cfg.keys.inc_max] at hle hrest
    have hmax : x.1 = cfg.keys.maxKey := le_antisymm (cfg.keys.le_max _) hle
    rw [hmax] at hlive hhi
    obtain rfl : hi = cfg.keys.maxKey := le_antisymm (cfg.keys.le_max _) hhi
    by_cases hne : rest = []
    · subst hne
      cases hrest with
      | exhausted => exact absurd hx List.not_mem_nil
      | past _ => exact absurd hx List.not_mem_nil
    · obtain ⟨top, htop⟩ := hpath.top_internal hne
      have hclear : ∀ u ∈ allUppers t, cfg.keys.maxKey ≤ u → u < cfg.keys.maxKey →
          cfg.keys.incKey u ≠ cfg.keys.maxKey :=
        fun _ _ hle' hlt' => absurd hlt' (not_lt.mpr hle')
      exact hrest.endless h htop hlive hclear le_rfl (hpath.tail hne).top

/-- The order of what a scan yields is the order inside the leaves. -/
theorem rounds_ascending_iff (h : Inv cfg t g) (hr : Readable cfg t g v)
    (hroot : Visible t g v root.1 cfg.keys.full root.2)
    (hrounds : Rounds cfg t g v hi root path lower rs) :
    Ascending rs ↔ StoredAscending t root v ⟨lower, hi⟩ := by
  induction hrounds with
  | exhausted =>
    refine ⟨fun _ k _ page hread => ?_, fun _ => List.Pairwise.nil⟩
    obtain ⟨f, -, hshow, -⟩ := reads_leaf h hr hroot hread
    exact ascending_border cfg.keys hshow
  | past hlt =>
    refine ⟨fun _ k hk => ?_, fun _ => List.Pairwise.nil⟩
    exact absurd (hk.1.trans hk.2) (not_le.mpr hlt)
  | enter _ ih => exact ih
  | leave _ _ _ ih => exact ih
  | stop hpath hn hlow hnone hmax =>
    refine ⟨fun _ k hk page hread => ?_, fun _ => List.Pairwise.nil⟩
    rcases reads_beyond h hr hroot hpath.head hn hlow hk.1 hread with rfl | ⟨-, heq⟩
    · rw [hnone]
      exact List.Pairwise.nil
    · obtain ⟨f, -, hshow, -⟩ := reads_leaf h hr hroot hread
      rw [heq, hmax]
      exact ascending_border cfg.keys hshow
  | @leaf f b rest lower p rs hpath hn hlow hrest ih =>
    obtain ⟨level, hvis, -⟩ := hpath.head
    have hshow := hvis.shows h hn
    constructor
    · intro hasc k hk page hread
      rw [Ascending, List.map_append, List.pairwise_append] at hasc
      rcases reads_beyond h hr hroot hpath.head hn hlow hk.1 hread with rfl | ⟨hlt, heq⟩
      · exact hasc.1
      · have hinc := (cfg.keys.inc_le _ (hlt.trans_le (cfg.keys.le_max k)) k).mpr hlt
        rw [heq]
        exact ih.mp hasc.2.1 k ⟨hinc, hk.2⟩ page hread
    · intro hall
      rw [Ascending, List.map_append, List.pairwise_append]
      refine ⟨?_, ih.mpr (fun k hk page hread => ?_), ?_⟩
      · rcases hfound : leafFound p v ⟨lower, hi⟩ with _ | ⟨x, more⟩
        · exact List.Pairwise.nil
        · have hx : x ∈ leafFound p v ⟨lower, hi⟩ := by rw [hfound]; exact List.mem_cons_self
          obtain ⟨hmem, hrange, -⟩ := (mem_leafFound hshow).mp hx
          rw [← hfound]
          exact hall x.1 hrange p (hpath.head.leaf h hn hmem)
      · have hle := hlow.2.trans (le_inc cfg.keys f.upper)
        exact (hall k ⟨hle.trans hk.1, hk.2⟩ page hread).sublist (leafFound_sublist hle)
      · intro a ha c hc
        obtain ⟨x, hx, rfl⟩ := List.mem_map.mp ha
        obtain ⟨y, hy, rfl⟩ := List.mem_map.mp hc
        exact ((mem_leafFound hshow).mp hx).1.2.trans_lt (route_behind h hpath hrest y hy)

end Order

/-! ## The operation -/

/-- The leaves of the snapshot store the records of the range in key order. -/
def LeavesAscending (t : MVBTSt K P) (v : ℕ) (range : Interval K) : Prop :=
  ∀ root, t.rootFor v = .ok root → StoredAscending t root v range

/-- After every history of a tree of any kind, at every version that it retains, a
range scan that returns comes in key order exactly if the leaves store its records in
that order. -/
theorem range_scan_ascending_iff {cfg : Config K} (hc : Roomy cfg) (gc : Option Bool)
    (tosses : ℕ → Toss) (threads tid : ℕ) (ops : List (WriteOperation K P)) :
    ∃ t rs, runWrites cfg (opened gc tosses threads tid) ops = .ok (t, rs) ∧
      ∀ lo hi v, v < t.commit.clock → Retains t v →
        ∀ fuel calls t' found, dispatchRange cfg fuel calls t ⟨lo, hi⟩ v = .ok (t', found) →
          (Ascending found ↔ LeavesAscending t v ⟨lo, hi⟩) := by
  obtain ⟨t, rs, log, hrun, hcar, -, -⟩ := runWrites_opened hc gc tosses threads tid ops
  refine ⟨t, rs, hrun, ?_⟩
  intro lo hi v hlt hretains fuel calls t' found hscan
  by_cases hv : startVersion ≤ v
  · obtain ⟨g, h, -, hr⟩ := carries_readable hcar hv hlt hretains
    obtain ⟨root, hfor, hroot⟩ := readable_root h hr
    rw [rounds_ascending_iff h hr hroot (dispatchRange_rounds h hr hroot hfor hscan),
      LeavesAscending]
    refine ⟨fun hall root' hfor' => ?_, fun hall => hall root hfor⟩
    rw [hfor, Except.ok.injEq] at hfor'
    rwa [← hfor']
  · obtain ⟨root, hroot⟩ := dispatchRange_rooted hscan
    rw [Carries.unrooted hcar (not_le.mp hv)] at hroot
    cases hroot

/-- At capacity 10 the keys 0 to 10 lie in two leaves, in ascending order. -/
def ascendingWrites : List (WriteOperation UInt64 ℕ) :=
  (List.range 11).map (fun i => .insert (UInt64.ofNat i) i)

/-- A scan of both leaves, in a tree with updates in place. -/
theorem range_scan_ascending_iff_two_leaves :
    ∃ t rs t' found, runWrites ⟨10, 10, u64Space⟩ (opened (some true) (fun _ => .next) 1 0)
        ascendingWrites = .ok (t, rs) ∧
      dispatchRange ⟨10, 10, u64Space⟩ 9 9 t ⟨3, 8⟩ 12 = .ok (t', found) ∧
      found = [(3, 3), (4, 4), (5, 5), (6, 6), (7, 7), (8, 8)] ∧ LeavesAscending t 12 ⟨3, 8⟩ := by
  obtain ⟨t, rs, hrun, hiff⟩ := range_scan_ascending_iff (roomy_ten u64Space) (some true)
    (fun _ => .next) 1 0 ascendingWrites
  have hstate : (runWrites ⟨10, 10, u64Space⟩ (opened (some true) (fun _ => .next) 1 0)
      ascendingWrites).bind (fun x => (dispatchRange ⟨10, 10, u64Space⟩ 9 9 x.1 ⟨3, 8⟩ 12).map
        (fun y => (x.1.commit.clock, y.2))) =
      .ok (13, [(3, 3), (4, 4), (5, 5), (6, 6), (7, 7), (8, 8)]) := by
    decide +kernel
  rw [hrun] at hstate
  obtain ⟨⟨t', found⟩, hscan, hfound⟩ := of_map_ok hstate
  obtain ⟨hclock, rfl⟩ : t.commit.clock = 13 ∧ found = _ := Prod.mk.inj hfound
  refine ⟨t, rs, t', _, hrun, hscan, rfl, ?_⟩
  exact (hiff 3 8 12 (by omega) (.inr (.inr hclock.le)) 9 9 t' _ hscan).mp
    (by simp only [Ascending]; decide)

/-- Two keys inserted in descending order come back in that order. -/
theorem scan_in_version_order :
    ∃ t rs t' found, runWrites ⟨125, 125, u64Space⟩ (newTree false (fun _ => .next) 1 0)
        ([.insert 2 20, .insert 1 10] : List (WriteOperation UInt64 ℕ)) = .ok (t, rs) ∧
      2 < t.commit.clock ∧
      dispatchRange ⟨125, 125, u64Space⟩ 5 5 t ⟨0, 9⟩ 2 = .ok (t', found) ∧ ¬ Ascending found := by
  have hstate : (runWrites ⟨125, 125, u64Space⟩ (newTree false (fun _ => .next) 1 0)
      ([.insert 2 20, .insert 1 10] : List (WriteOperation UInt64 ℕ))).bind (fun x =>
        (dispatchRange ⟨125, 125, u64Space⟩ 5 5 x.1 ⟨0, 9⟩ 2).map (fun y =>
          (x.1.commit.clock, y.2))) = .ok (3, [(2, 20), (1, 10)]) := by
    decide
  obtain ⟨⟨t, rs⟩, hrun, hstate⟩ := of_bind_ok hstate
  obtain ⟨⟨t', found⟩, hscan, hfound⟩ := of_map_ok hstate
  obtain ⟨hclock, rfl⟩ : t.commit.clock = 3 ∧ found = _ := Prod.mk.inj hfound
  refine ⟨t, rs, t', _, hrun, by omega, hscan, ?_⟩
  simp [Ascending]

end CMVBT.ScanOrder
