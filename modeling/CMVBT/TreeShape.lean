import CMVBT.RetainedVersions

/-!
# Fences and occupancy of all reachable trees

`Linked` collects every page that some root or entry ever pointed to, `Current`
those of the current tree, `Searched` those that searches at one version pass. All
carry the fence of the link, so what follows says nothing about ghosts any more.

Where blocks are recycled, entries of old pages point to blocks that hold other
pages by now, and a search at a version that was given up can miss. The pages of
the retained versions are intact.
-/
namespace CMVBT.TreeShape
open KeyInterval LastMatch FenceTiling VersionedLog PageModel FrugalList CommitClock Tracker
open CMVBT.Tree
open BlockSupply WritePath ReadPath DirectoryHistory TreeInvariant NewPages Reference
open WriteOperations FreshTree SnapshotRead ReaderHistory RetainedVersions

variable {K P : Type} [LinearOrder K]

/-- Block, fence and first version of a page that is or was linked. -/
inductive Linked (cfg : Config K) (t : MVBTSt K P) : ℕ → Interval K → ℕ → Prop
  | root {b height w : ℕ} : ((b, height), w) ∈ values t.root → Linked cfg t b cfg.keys.full w
  | child {b w : ℕ} {f : Interval K} {p : InternalPage K} {e : Entry K} : Linked cfg t b f w →
      t.heap b = .internal p → e ∈ p.asUnits → Linked cfg t e.pointer e.fence e.version

/-- Block, fence and first version of a page of the current tree. -/
inductive Current (cfg : Config K) (t : MVBTSt K P) : ℕ → Interval K → ℕ → Prop
  | root : Current cfg t t.currentRoot.1 cfg.keys.full t.root.insertVersion
  | child {b w : ℕ} {f : Interval K} {p : InternalPage K} {e : Entry K} : Current cfg t b f w →
      t.heap b = .internal p → e ∈ p.asUnits → PageUnit.isActive e = true →
      Current cfg t e.pointer e.fence e.version

/-- Block and fence of a page that a search at the version passes. -/
inductive Searched (cfg : Config K) (t : MVBTSt K P) (v : ℕ) : ℕ → Interval K → Prop
  | root {root : ℕ × ℕ} : t.rootFor v = .ok root → Searched cfg t v root.1 cfg.keys.full
  | child {b : ℕ} {f : Interval K} {p : InternalPage K} {k : K} {next : Interval K × ℕ} :
      Searched cfg t v b f → t.heap b = .internal p → k ∈ f →
      routeAt p.asUnits v k = some next → Searched cfg t v next.2 next.1

section Lives
variable {cfg : Config K} {t : MVBTSt K P} {g : Ghost K P} {b w : ℕ} {f : Interval K}

theorem Linked.life (h : Inv cfg t g) (ht : t.tracker = none) (hl : Linked cfg t b f w) :
    b < t.nextBlock ∧ (g.life b).fence = f ∧ (g.life b).birth = w := by
  induction hl with
  | root hmem =>
    rw [h.timeline.chain.values] at hmem
    obtain ⟨hlt, hf, -, hb⟩ := h.timeline.roots_life ht _ hmem
    exact ⟨hlt, hf, hb⟩
  | @child b w f p e _ hp he ih =>
    have hnode := h.living.node b ih.1
    rw [hp] at hnode
    rw [hnode.counted_internal] at he
    obtain ⟨hlt, hf, hb, -⟩ := h.timeline.links ht b ih.1 p hp e he
    exact ⟨hlt, hf, hb⟩

theorem Current.life (h : Inv cfg t g) (hc : Current cfg t b f w) :
    b < t.nextBlock ∧ ∃ level, g.life b = ⟨f, level, w, none⟩ := by
  induction hc with
  | root =>
    obtain ⟨birth, hlife⟩ := h.living.root_life
    have hbirth := h.timeline.root_birth
    rw [hlife] at hbirth
    exact ⟨h.living.root_lt, _, by rw [hlife, ← hbirth]⟩
  | @child b w f p e _ hp he ha ih =>
    obtain ⟨hlt, level, hlife⟩ := ih
    have hnode := h.living.node b hlt
    rw [hp] at hnode
    rw [hnode.counted_internal] at he
    obtain ⟨hlt', below, -, hlife'⟩ :=
      (hnode.2.tiling (by rw [hlife])).good e (List.mem_filter.mpr ⟨he, ha⟩)
    exact ⟨hlt', below, hlife'⟩

/-- A search at a readable version stays among the blocks of that version. -/
theorem Searched.visible (h : Inv cfg t g) {v : ℕ} (hr : Readable cfg t g v)
    (hs : Searched cfg t v b f) : ∃ level, Visible t g v b f level := by
  induction hs with
  | root hroot =>
    obtain ⟨x, hx, hvisible⟩ := hr.root
    rw [rootFor_eq h hx] at hroot
    cases hroot
    exact ⟨_, hvisible⟩
  | child _ hp _ hroute ih =>
    obtain ⟨level, hvisible⟩ := ih
    obtain ⟨below, -, hchild⟩ := hr.child h hvisible hp hroute
    exact ⟨below, hchild⟩

/-- Every directory page in memory, also one that waits to be recycled. -/
theorem directory_partitions (h : Inv cfg t g) {p : InternalPage K} (hb : b < t.nextBlock)
    (hp : t.heap b = .internal p) :
    (∀ e ∈ p.asUnits, e.fence.Within (g.life b).fence) ∧
      ∀ v, (g.life b).birth ≤ v → Partitions p.asUnits (g.life b).fence v := by
  have hnode := h.living.node b hb
  rw [hp] at hnode
  rw [hnode.counted_internal]
  exact ⟨fun e he => (hnode.2.inside e he).2.1, hnode.2.history⟩

theorem Current.tiles (h : Inv cfg t g) (hc : Current cfg t b f w) {p : InternalPage K}
    (hp : t.heap b = .internal p) :
    p.activeUnits.Pairwise (fun e e' => e.fence.Disjoint e'.fence) ∧
      ∀ k, k ∈ f ↔ ∃ e ∈ p.activeUnits, k ∈ e.fence := by
  obtain ⟨hlt, level, hlife⟩ := hc.life h
  have hnode := h.living.node b hlt
  rw [hp, hlife] at hnode
  rw [hnode.2.counted.activeUnits]
  have htiling := hnode.2.tiling rfl
  refine ⟨htiling.disjoint, fun k => ⟨fun hk => htiling.complete k hk trivial, ?_⟩⟩
  rintro ⟨e, he, hk⟩
  exact htiling.within e he k hk

end Lives

/-! ## A tree that has not drawn a version -/

section Fresh
variable {cfg : Config K} {t : MVBTSt K P} {b w : ℕ} {f : Interval K}

theorem Linked.fresh (h : Fresh t) (hl : Linked cfg t b f w) : b = 0 := by
  induction hl with
  | root hmem =>
    rw [h.root] at hmem
    have := List.mem_singleton.mp hmem
    simp only [Prod.mk.injEq] at this
    exact this.1.1
  | child _ hp _ ih =>
    rw [ih, h.heap] at hp
    cases hp

theorem Searched.fresh (h : Fresh t) {v : ℕ} (hs : Searched cfg t v b f) : b = 0 := by
  induction hs with
  | root hroot =>
    rw [MVBTSt.rootFor, h.root] at hroot
    by_cases hv : startVersion ≤ v
    · simp [FrugalList.new, FrugalList.findFrom, hv, bind, Except.bind, pure, Except.pure,
        FrugalNode.payload] at hroot
      rw [← hroot]
    · simp [FrugalList.new, FrugalList.findFrom, hv, bind, Except.bind] at hroot
  | child _ hp _ _ ih =>
    rw [ih, h.heap] at hp
    cases hp

theorem Current.fresh (h : Fresh t) (hc : Current cfg t b f w) : b = 0 := by
  induction hc with
  | root => rw [MVBTSt.currentRoot, h.root]; rfl
  | child _ hp _ _ ih =>
    rw [ih, h.heap] at hp
    cases hp

omit [LinearOrder K] in
theorem fresh_no_directory (h : Fresh t) {p : InternalPage K} (hb : b = 0) :
    t.heap b ≠ .internal p := by
  rw [hb, h.heap]
  exact fun hp => by cases hp

theorem fresh_traverse (h : Fresh t) (key : K) {v : ℕ} (hv : startVersion ≤ v) :
    ∃ root page, t.rootFor v = .ok root ∧ traverseReadKey t root.2 root.1 key v = .ok page := by
  refine ⟨(0, 1), Page.new, ?_, ?_⟩
  · rw [MVBTSt.rootFor, h.root]
    simp [FrugalList.new, FrugalList.findFrom, hv, bind, Except.bind, pure, Except.pure,
      FrugalNode.payload]
  · rw [traverseReadKey, h.heap]
    rfl

end Fresh

/-! ## Fences -/

/-- The fences of a directory at every version. Every history of a new tree of any
kind returns, so the descent of a write always finds its child. Afterwards, if no
block is recycled, every page that is or was linked partitions its fence at each
version since its link. With or without recycling, at every version that the tree
retains the pages that searches pass partition their fences and the search for a key
ends at a leaf; the active entries of the pages of the current tree moreover tile the
fence; and every directory in memory partitions the fence that its entries cover. -/
theorem fences_partition {cfg : Config K} (hc : Roomy cfg) (gc : Option Bool) (tosses : ℕ → Toss)
    (threads tid : ℕ) (ops : List (WriteOperation K P)) :
    ∃ t rs, runWrites cfg (opened gc tosses threads tid) ops = .ok (t, rs) ∧
      (gc = none → ∀ b f w p, Linked cfg t b f w → t.heap b = .internal p →
        ∀ v, w ≤ v → Partitions p.asUnits f v) ∧
      (∀ v, startVersion ≤ v → Retains t v →
        (∀ b f p, Searched cfg t v b f → t.heap b = .internal p → Partitions p.asUnits f v) ∧
        ∀ key, ∃ root page, t.rootFor v = .ok root ∧
          traverseReadKey t root.2 root.1 key v = .ok page) ∧
      (∀ b f w p, Current cfg t b f w → t.heap b = .internal p →
        (∀ v, w ≤ v → Partitions p.asUnits f v) ∧
        p.activeUnits.Pairwise (fun e e' => e.fence.Disjoint e'.fence) ∧
        ∀ k, k ∈ f ↔ ∃ e ∈ p.activeUnits, k ∈ e.fence) ∧
      ∀ b p, b < t.nextBlock → t.heap b = .internal p → ∃ f w, f.Proper ∧ w < t.commit.clock ∧
        (∀ e ∈ p.asUnits, e.fence.Within f) ∧ ∀ v, w ≤ v → Partitions p.asUnits f v := by
  obtain ⟨t, rs, log, hrun, hcar, -⟩ := runWrites_opened hc gc tosses threads tid ops
  refine ⟨t, rs, hrun, ?_⟩
  rcases hcar with ⟨hfresh, -⟩ | ⟨g, h, -⟩
  · refine ⟨fun _ b f w p hl hp => absurd hp (fresh_no_directory hfresh (hl.fresh hfresh)),
      fun v hv _ => ⟨fun b f p hs hp => absurd hp (fresh_no_directory hfresh (hs.fresh hfresh)),
        fun key => fresh_traverse hfresh key hv⟩,
      fun b f w p hl hp => absurd hp (fresh_no_directory hfresh (hl.fresh hfresh)),
      fun b p hb hp => absurd hp (fresh_no_directory hfresh ?_)⟩
    rw [hfresh.next] at hb
    omega
  · refine ⟨?_, ?_, ?_, ?_⟩
    · rintro rfl b f w p hl hp v hv
      obtain ⟨t', rs', -, hrun', -, htracked, -⟩ := runWrites_reached hc ops _
        (make_fresh tosses threads tid) rfl
      rw [opened, hrun', Except.ok.injEq, Prod.mk.injEq] at hrun
      obtain ⟨rfl, -⟩ := hrun
      have hnone : t'.tracker = none := by simpa [make] using htracked
      obtain ⟨hlt, rfl, rfl⟩ := hl.life h hnone
      exact (directory_partitions h hlt hp).2 v hv
    · intro v hv hretains
      have hr := readable_retained h hv hretains
      refine ⟨fun b f p hs hp => ?_, fun key => ?_⟩
      · obtain ⟨level, hvisible⟩ := hs.visible h hr
        exact hvisible.route h hp
      · obtain ⟨x, hx, hroot⟩ := hr.root
        obtain ⟨page, -, hread, -⟩ := traverseReadKey_shows h hr key _ _ _ hroot
          (cfg.keys.mem_full key)
        exact ⟨x.1, page, rootFor_eq h hx, hread⟩
    · intro b f w p hcur hp
      obtain ⟨hlt, level, hlife⟩ := hcur.life h
      have hpart := (directory_partitions h hlt hp).2
      rw [hlife] at hpart
      exact ⟨hpart, hcur.tiles h hp⟩
    · intro b p hb hp
      obtain ⟨hproper, hborn, -⟩ := h.living.born b hb
      obtain ⟨hwithin, hpart⟩ := directory_partitions h hb hp
      exact ⟨_, _, hproper, hborn, hwithin, hpart⟩

omit [LinearOrder K] in
theorem heap_of_asInternalPage {t : MVBTSt K P} {b : ℕ} {p : InternalPage K}
    (h : t.asInternalPage b = .ok p) : t.heap b = .internal p := by
  unfold MVBTSt.asInternalPage at h
  cases hp : t.heap b with
  | leaf page =>
    rw [hp] at h
    cases h
  | internal page =>
    rw [hp] at h
    cases h
    rfl

/-- Keys that fill more than one leaf. -/
def ascendingKeys (n : ℕ) : List (WriteOperation UInt64 ℕ) :=
  (List.range n).map (fun i => .insert (UInt64.ofNat i) i)

/-- The root directory above two leaves, where blocks are recycled. -/
theorem fences_partition_u64 :
    ∃ t rs p, runWrites ⟨127, 127, u64Space⟩ (opened (some false) (fun _ => .next) 1 0)
        (ascendingKeys 128) = .ok (t, rs) ∧
      t.heap t.currentRoot.1 = .internal p ∧ p.activeUnits.length = 2 ∧
      (∀ v, t.root.insertVersion ≤ v → Partitions p.asUnits u64Space.full v) ∧
      p.activeUnits.Pairwise (fun e e' => e.fence.Disjoint e'.fence) := by
  obtain ⟨t, rs, hrun, -, -, hcurrent, -⟩ := fences_partition
    (roomy_of_capacity (.inr rfl) u64Space) (some false) (fun _ => .next) 1 0 (ascendingKeys 128)
  have hstate : (runWrites ⟨127, 127, u64Space⟩ (opened (some false) (fun _ => .next) 1 0)
      (ascendingKeys 128)).bind (fun x => (x.1.asInternalPage x.1.currentRoot.1).map
        (fun p => p.activeUnits.length)) = .ok 2 := by
    decide +kernel
  rw [hrun] at hstate
  obtain ⟨p, hpage, hlen⟩ := of_map_ok hstate
  have hroot := heap_of_asInternalPage hpage
  obtain ⟨hpart, hdisjoint, -⟩ := hcurrent _ _ _ p .root hroot
  exact ⟨t, rs, p, hrun, hroot, hlen, hpart, hdisjoint⟩

/-- Updates of one key split its leaf by version until the root directory is full. -/
def oneHotKey : List (WriteOperation UInt64 ℕ) :=
  ascendingKeys 11 ++ (List.range 40).map (fun i => .update 1 i)

/-- Where blocks are recycled, a search at an old version can miss: the block that an
entry of the old root directory points to is the new root directory by now. -/
theorem recycled_page_misses :
    ∃ t rs page, runWrites ⟨10, 10, u64Space⟩ (opened (some false) (fun _ => .next) 1 0)
        oneHotKey = .ok (t, rs) ∧ 11 < t.commit.clock ∧
      Linked ⟨10, 10, u64Space⟩ t 1 ⟨0, 4⟩ 11 ∧ t.heap 1 = .internal page ∧
      ¬ Partitions page.asUnits ⟨0, 4⟩ 11 ∧ t.rootFor 11 = .ok (3, 2) ∧
      traverseReadKey t 2 3 0 11 = .error .unwrapNone := by
  have hpages : (runWrites ⟨10, 10, u64Space⟩ (opened (some false) (fun _ => .next) 1 0)
      oneHotKey).bind (fun x => (x.1.asInternalPage 3).bind (fun old =>
        (x.1.asInternalPage 1).map (fun page => decide (11 < x.1.commit.clock ∧
          ((3, 2), 11) ∈ values x.1.root ∧ ⟨⟨0, 4⟩, 11, true, 1⟩ ∈ old.asUnits ∧
          routeAt old.asUnits 11 0 = some (⟨0, 4⟩, 1) ∧ routeAt page.asUnits 11 0 = none)))) =
      .ok true := by
    decide +kernel
  have hroot : (runWrites ⟨10, 10, u64Space⟩ (opened (some false) (fun _ => .next) 1 0)
      oneHotKey).map (fun x => x.1.rootFor 11) = .ok (.ok (3, 2)) := by
    decide +kernel
  obtain ⟨⟨t, rs⟩, hrun, hpages⟩ := of_bind_ok hpages
  obtain ⟨old, hold, hpages⟩ := of_bind_ok hpages
  obtain ⟨page, hpage, hvalues⟩ := of_map_ok hpages
  obtain ⟨hclock, hmem, hentry, hchild, hmiss⟩ := of_decide_eq_true hvalues
  have hdirectory : t.heap 3 = .internal old := heap_of_asInternalPage hold
  have hnew : t.heap 1 = .internal page := heap_of_asInternalPage hpage
  rw [hrun] at hroot
  refine ⟨t, rs, page, hrun, hclock, .child (.root hmem) hdirectory hentry, hnew, fun hpart => ?_,
    Except.ok.inj hroot, ?_⟩
  · obtain ⟨next, hnext, -⟩ := hpart 0 ⟨le_rfl, by decide⟩
    rw [hmiss] at hnext
    cases hnext
  · simp only [traverseReadKey, hdirectory, hchild, hnew, hmiss]

/-! ## Occupancy -/

/-- The units of every page fit into its array. -/
theorem active_dead_le {cfg : Config K} {t : MVBTSt K P} {g : Ghost K P} (h : Inv cfg t g) {b : ℕ}
    (hb : b < t.nextBlock) :
    (t.heap b).activeDeadCount.1 + (t.heap b).activeDeadCount.2 ≤ maxUnits cfg (t.heap b) := by
  have hnode := h.living.node b hb
  cases hn : t.heap b with
  | leaf p =>
    rw [hn] at hnode
    have hle := hnode.2.counted.length_le
    rw [← hnode.2.counted.sumLen] at hle
    exact hle
  | internal p =>
    rw [hn] at hnode
    have hle := hnode.2.counted.length_le
    rw [← hnode.2.counted.sumLen] at hle
    exact hle

/-- Occupancy and capacity. Every history of a new tree returns, so no slot write
goes past the end of its page. Afterwards every page but the root of the current
tree is at least a fifth full with active units, no page holds more units than it
has slots, and a root that is a directory has a child. -/
theorem occupancy_of_reachable {N : ℕ} (hN : N = 125 ∨ N = 127) (keys : KeySpace K) (gc : Bool)
    (tosses : ℕ → Toss) (threads tid : ℕ) (ops : List (WriteOperation K P)) :
    ∃ t rs, runWrites ⟨N, N, keys⟩ (newTree gc tosses threads tid) ops = .ok (t, rs) ∧
      (∀ b f w, Current ⟨N, N, keys⟩ t b f w → b ≠ t.currentRoot.1 →
        (N + 4) / 5 ≤ (t.heap b).activeDeadCount.1) ∧
      (∀ b < t.nextBlock, (t.heap b).activeDeadCount.1 + (t.heap b).activeDeadCount.2 ≤ N) ∧
      ((t.heap t.currentRoot.1).isLeaf = false →
        1 ≤ (t.heap t.currentRoot.1).activeDeadCount.1) := by
  obtain ⟨t, rs, log, hrun, -, -, -, hend⟩ := runWrites_reached (roomy_of_capacity hN keys) ops _
    (newTree_fresh gc tosses threads tid) (newTree_in_place gc tosses threads tid)
  refine ⟨t, rs, hrun, ?_⟩
  have hmax : ∀ n : Node K P, maxUnits (⟨N, N, keys⟩ : Config K) n = N := by
    intro n
    simp [maxUnits]
  rcases hend with ⟨hfresh, -⟩ | ⟨g, h, -⟩
  · have hroot : t.currentRoot.1 = 0 := by rw [MVBTSt.currentRoot, hfresh.root]; rfl
    refine ⟨fun b f w hcur hne => absurd ((hcur.fresh hfresh).trans hroot.symm) hne, ?_, ?_⟩
    · intro b hb
      rw [hfresh.next] at hb
      obtain rfl : b = 0 := by omega
      rw [hfresh.heap]
      simp [Node.activeDeadCount, Node.newLeaf, Page.activeDeadCount, Page.new, activeLen, deadLen]
    · rw [hroot, hfresh.heap]
      intro hleaf
      cases hleaf
  · refine ⟨?_, ?_, h.living.root_child⟩
    · intro b f w hcur hne
      obtain ⟨hlt, level, hlife⟩ := hcur.life h
      have := h.living.filled b hlt (by rw [hlife]) hne
      rwa [filling20Percent, hmax] at this
    · intro b hb
      have := active_dead_le h hb
      rwa [hmax] at this

/-- The two leaves below the root directory. -/
theorem occupancy_of_reachable_u64 :
    ∃ t rs p, runWrites ⟨125, 125, u64Space⟩ (newTree true (fun _ => .next) 1 0)
        (ascendingKeys 126) = .ok (t, rs) ∧
      t.heap t.currentRoot.1 = .internal p ∧ p.activeUnits.length = 2 ∧
      (∀ e ∈ p.activeUnits, 25 ≤ (t.heap e.pointer).activeDeadCount.1) ∧
      ∀ b < t.nextBlock, (t.heap b).activeDeadCount.1 + (t.heap b).activeDeadCount.2 ≤ 125 := by
  obtain ⟨t, rs, hrun, hfilled, hcap, -⟩ := occupancy_of_reachable (.inl rfl) u64Space true
    (fun _ => .next) 1 0 (ascendingKeys 126)
  have hstate : (runWrites ⟨125, 125, u64Space⟩ (newTree true (fun _ => .next) 1 0)
      (ascendingKeys 126)).bind (fun x => (x.1.asInternalPage x.1.currentRoot.1).map
        (fun p => (p.activeUnits.length,
          p.activeUnits.all (fun e => e.pointer != x.1.currentRoot.1)))) = .ok (2, true) := by
    decide +kernel
  rw [hrun] at hstate
  obtain ⟨p, hpage, hvalues⟩ := of_map_ok hstate
  simp only [Prod.mk.injEq, List.all_eq_true, bne_iff_ne] at hvalues
  obtain ⟨hlen, hne⟩ := hvalues
  have hroot := heap_of_asInternalPage hpage
  refine ⟨t, rs, p, hrun, hroot, hlen, fun e he => ?_, hcap⟩
  obtain ⟨hmem, ha⟩ := List.mem_filter.mp he
  exact hfilled _ _ _ (.child .root hroot hmem ha) (hne e he)

end CMVBT.TreeShape
