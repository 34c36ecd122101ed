import CMVBT.FreshTree

/-!
# Point reads at a version

A search at version `v` only meets blocks that live at `v`, and the last one is
the leaf that shows the key. Without a tracker this holds at every version since
the start; with one it holds at the newest version.
-/
namespace CMVBT.SnapshotRead
open KeyInterval LastMatch FenceTiling VersionedLog PageModel FrugalList CommitClock Tracker
open CMVBT.Tree
open BlockSupply WritePath ReadPath DirectoryHistory LeafHistory TreeInvariant NewPages
open Reference WriteOperations FreshTree

variable {K P : Type} [LinearOrder K]

section Readable
variable {cfg : Config K} {t : MVBTSt K P} {g : Ghost K P} {v : ℕ}

/-- Without a tracker no block is ever recycled. -/
theorem readable_untracked (h : Inv cfg t g) (ht : t.tracker = none) (hv : startVersion ≤ v) :
    Readable cfg t g v := by
  refine ⟨?_, ?_⟩
  · obtain ⟨y, hy, hle⟩ := h.timeline.roots_start
    cases hx : g.roots.find? (fun x => decide (x.2 ≤ v)) with
    | none =>
      have := List.find?_eq_none.mp hx y hy
      simp only [decide_eq_true_eq] at this
      omega
    | some x =>
      obtain ⟨hlt, hun⟩ := h.timeline.roots_until v x hx
      obtain ⟨-, hf, hl, hb⟩ := h.timeline.roots_life ht x (List.mem_of_find?_eq_some hx)
      have hxv : x.2 ≤ v := by simpa using List.find?_some hx
      exact ⟨x, rfl, hlt, hf, hl, by omega, hun⟩
  · intro b f level p hb hp k next hroute
    obtain ⟨hlt, hun⟩ := h.timeline.routes b hb.used p hp v k next hb.alive hroute
    obtain ⟨e, he, hf, hptr, hver, -⟩ := routeAt_mem hroute
    obtain ⟨-, hfe, hbe, hle⟩ := h.timeline.links ht b hb.used p hp e he
    rw [hptr] at hfe hbe hle
    refine ⟨(g.life next.2).level, ?_, hlt, hfe.trans hf, rfl, by omega, hun⟩
    rw [hle, hb.level_eq]

/-- The newest version is readable, also when blocks are recycled. -/
theorem readable_newest (h : Inv cfg t g) (hv : t.commit.clock ≤ v + 1) : Readable cfg t g v := by
  obtain ⟨rest, hroots⟩ := h.timeline.chain.head
  exact h.living.readable h.timeline.roots_lt hroots hv

/-- `traverse_read_key` ends at the leaf that shows the key; its `unwrap` never
meets a missing entry. -/
theorem traverseReadKey_shows (h : Inv cfg t g) (hr : Readable cfg t g v) (key : K) :
    ∀ (level b : ℕ) (f : Interval K), Visible t g v b f level → key ∈ f →
      ∃ page f', traverseReadKey t level b key v = .ok page ∧ key ∈ f' ∧
        Shows g.log f' page.asUnits v := by
  intro level
  induction level with
  | zero =>
    intro b f hb _
    have hnode := h.living.node b hb.used
    cases hn : t.heap b with
    | leaf p => exact absurd (hb.level_leaf h hn) (by omega)
    | internal p =>
      rw [hn] at hnode
      have h₁ := hnode.1
      have h₂ := hb.level_eq
      omega
  | succ level ih =>
    intro b f hb hk
    cases hn : t.heap b with
    | leaf p => exact ⟨p, f, by rw [traverseReadKey, hn], hk, hb.shows h hn⟩
    | internal p =>
      obtain ⟨next, hroute, hkn, -, -⟩ := hb.route h hn key hk
      obtain ⟨below, hlevel, hchild⟩ := hr.child h hb hn hroute
      obtain rfl : below = level := by omega
      obtain ⟨page, f', hread, hkf, hshow⟩ := ih next.2 next.1 hchild hkn
      exact ⟨page, f', by rw [traverseReadKey, hn]; simp only [hroute]; exact hread, hkf, hshow⟩

/-- The root index answers with the root of the version. -/
theorem rootFor_eq (h : Inv cfg t g) {x : (ℕ × ℕ) × ℕ}
    (hx : g.roots.find? (fun x => decide (x.2 ≤ v)) = some x) : t.rootFor v = .ok x.1 := by
  obtain ⟨res, hfind, hval⟩ := h.timeline.chain.findFrom v
  rw [hx] at hval
  obtain ⟨n, rfl, rfl⟩ := Option.map_eq_some_iff.mp hval
  simp only [MVBTSt.rootFor, hfind]
  rfl

end Readable

/-! ## The operation -/

section Point
variable {cfg : Config K} {t : MVBTSt K P} {g : Ghost K P} {v : ℕ}

/-- Only the heap matters for a search. -/
theorem traverseReadKey_congr {t t' : MVBTSt K P} (h : t'.heap = t.heap) (key : K) (v : ℕ) :
    ∀ fuel b, traverseReadKey t' fuel b key v = traverseReadKey t fuel b key v := by
  intro fuel
  induction fuel with
  | zero => exact fun _ => rfl
  | succ fuel ih =>
    intro b
    simp only [traverseReadKey, h, ih]

theorem keyPointRead_reference (h : Inv cfg t g) (hr : Readable cfg t g v) (key : K) :
    ∃ root, t.rootFor v = .ok root ∧
      keyPointReadFromRoot t root key v =
        .ok ((liveAt g.log key v).map (fun payload => (key, payload))).toList := by
  obtain ⟨x, hx, hroot⟩ := hr.root
  obtain ⟨page, f, hread, hk, hshow⟩ := traverseReadKey_shows h hr key x.1.2 x.1.1 _ hroot
    (cfg.keys.mem_full key)
  refine ⟨x.1, rootFor_eq h hx, ?_⟩
  simp only [keyPointReadFromRoot, hread, bind, Except.bind, pure, Except.pure, hshow.lookup hk]

/-- `Point(key, v)` reads the reference at `v`. -/
theorem dispatchPoint_reference (h : Inv cfg t g) (hr : Readable cfg t g v) (key : K) :
    dispatchPoint t key v = .ok (onReleaseReaderSnapshot (onAcquireReaderSnapshot t v) v,
      ((liveAt g.log key v).map (fun payload => (key, payload))).toList) := by
  obtain ⟨root, hroot, hread⟩ := keyPointRead_reference h hr key
  have hroot' : (onAcquireReaderSnapshot t v).rootFor v = .ok root := hroot
  have hread' : keyPointReadFromRoot (onAcquireReaderSnapshot t v) root key v =
      keyPointReadFromRoot t root key v := by
    rw [keyPointReadFromRoot,
      traverseReadKey_congr (show (onAcquireReaderSnapshot t v).heap = t.heap from rfl)]
    rfl
  simp only [dispatchPoint, hroot', hread', hread, bind, Except.bind, pure, Except.pure]

omit [LinearOrder K] in
theorem acquire_release_untracked (ht : t.tracker = none) (v : ℕ) :
    onReleaseReaderSnapshot (onAcquireReaderSnapshot t v) v = t := by
  cases t
  simp only at ht
  subst ht
  rfl

end Point

/-- The multiversion map. From a new tree without tracker every history of
operations is answered as the reference says, successful operations get
increasing versions, and afterwards a point read at any version between the
start and the clock returns the payload that was live then. -/
theorem writes_then_point_reads {N : ℕ} (hN : N = 125 ∨ N = 127) (tosses : ℕ → Toss)
    (threads tid : ℕ) (ops : List (WriteOperation UInt64 P)) :
    ∃ t rs log, runWrites ⟨N, N, u64Space⟩ (make tosses threads tid) ops = .ok (t, rs) ∧
      Replay [] ops rs log ∧ (rs.filterMap committed).Pairwise (· < ·) ∧
      ∀ key v, startVersion ≤ v → v < t.commit.clock →
        dispatchPoint t key v =
          .ok (t, ((liveAt log key v).map (fun payload => (key, payload))).toList) := by
  obtain ⟨t, rs, log, hrun, hreplay, htr, -, hend⟩ := runWrites_reached
    (roomy_of_capacity hN u64Space) ops _ (make_fresh tosses threads tid) rfl
  refine ⟨t, rs, log, hrun, hreplay, hreplay.increasing, ?_⟩
  intro key v hv hlt
  rcases hend with ⟨hfresh, -⟩ | ⟨g, hinv, rfl⟩
  · have := hfresh.clock
    omega
  · have ht : t.tracker = none := by simpa [make] using htr
    rw [dispatchPoint_reference hinv (readable_untracked hinv ht hv) key,
      acquire_release_untracked ht v]

/-- Two versions of one key and its deletion. -/
theorem point_reads_after_three_writes :
    ∃ t rs log, runWrites ⟨125, 125, u64Space⟩ (make (fun _ => .next) 1 0)
        [.insert 7 10, .update 7 (20 : ℕ), .delete 7] = .ok (t, rs) ∧
      Replay [] [.insert 7 10, .update 7 20, .delete 7] rs log ∧
      (rs.filterMap committed).Pairwise (· < ·) ∧
      ∀ key v, startVersion ≤ v → v < t.commit.clock →
        dispatchPoint t key v =
          .ok (t, ((liveAt log key v).map (fun payload => (key, payload))).toList) :=
  writes_then_point_reads (.inl rfl) (fun _ => .next) 1 0 _

end CMVBT.SnapshotRead
