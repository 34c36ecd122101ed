import CMVBT.ReadAtomicity
import CMVBT.ScanTermination

/-!
# What concurrent readers hand out

The way of a reader through a tree that nobody changes is the point read or the range
scan of the sequential model. So a reader among writers hands out what the sequential
read at its version returns, both on the tree of the moment when the version was drawn
and on the tree of the moment when it is done. For a version that was committed before
the writers began this is the reference.
-/
namespace CMVBT.ConcurrentReads
open KeyInterval VersionedLog PageModel FrugalList CommitClock CMVBT.Tree WritePath ReadPath
open Reference
open WriteOperations TreeInvariant NewPages FreshTree SnapshotRead RangeScan PageContent
open ScanTermination PageStores LatchFreeRead ReadAtomicity
open Interleaving (Run Anytime)

variable {K P : Type} [LinearOrder K]

/-- The sequential read at version `v` returns `out`. -/
def Answers (cfg : Config K) (t : MVBTSt K P) (v : ℕ) :
    Request K → List (RecordPointResult K P) → Prop
  | .point key, out => ∃ root fuel, t.rootFor v = .ok root ∧
      keyPointReadFromRoot t (root.1, fuel) key v = .ok out
  | .range interval, out => ∃ bound, ∀ fuel calls, bound ≤ fuel → bound ≤ calls →
      (dispatchRange cfg fuel calls t interval v).map Prod.snd = .ok out

section Walks
variable {cfg : Config K} {t s : MVBTSt K P} {v : ℕ} {out : List (RecordPointResult K P)}

/-- A reader that is done stays so. -/
theorem walks_done {acc : List (RecordPointResult K P)} (h : Walks cfg t v (.done acc) (.done out)) :
    out = acc := by
  cases h.cases_head with
  | inl heq =>
    cases heq
    rfl
  | inr hstep =>
    obtain ⟨reader, hadv, -⟩ := hstep
    cases hadv

/-- A point read that finds its way is the sequential one. -/
theorem point_of_walks {key : K} {b : ℕ} (h : Walks cfg t v (.point key b) (.done out)) :
    ∃ fuel, keyPointReadFromRoot t (b, fuel) key v = .ok out := by
  generalize hr : (.point key b : Reader K P) = reader at h
  induction h using Relation.ReflTransGen.head_induction_on generalizing b with
  | refl => cases hr
  | @head r r' hstep hwalk ih =>
    subst hr
    cases hp : t.heap b with
    | leaf page =>
      simp only [advance, Reader.visit, answerOf, hp, Reader.resume, Option.some.injEq] at hstep
      subst hstep
      obtain rfl := walks_done hwalk
      refine ⟨1, ?_⟩
      simp only [keyPointReadFromRoot, traverseReadKey, hp, bind, Except.bind, pure, Except.pure]
    | internal page =>
      simp only [advance, Reader.visit, answerOf, hp] at hstep
      cases hroute : routeAt page.asUnits v key with
      | none =>
        rw [hroute] at hstep
        cases hstep
      | some next =>
        rw [hroute] at hstep
        cases hstep
        obtain ⟨fuel, hread⟩ := ih rfl
        refine ⟨fuel + 1, ?_⟩
        rw [keyPointReadFromRoot] at hread ⊢
        simp only [traverseReadKey, hp, hroute]
        exact hread

/-- An iterator that is collected yields what the sequential one yields. -/
theorem scans_of_walks (hs : s.heap = t.heap) {reader : Reader K P}
    (h : Walks cfg t v reader (.done out)) :
    ∀ path (range : Interval K) acc, reader = Reader.scanOn path range acc →
      ∃ found, out = acc ++ found ∧
        Scans cfg s (scanFrom P v range.upper path range.lower) found := by
  induction h using Relation.ReflTransGen.head_induction_on with
  | refl =>
    intro path range acc hr
    unfold Reader.scanOn at hr
    split_ifs at hr with hend
    · cases hr
      refine ⟨[], (List.append_nil _).symm, ?_⟩
      rcases hend with rfl | hpast
      · exact scans_nil
      · exact scans_past hpast path
  | @head r r' hstep hwalk ih =>
    intro path range acc hr
    unfold Reader.scanOn at hr
    split_ifs at hr with hend
    · subst hr
      cases hstep
    · rw [not_or, not_lt] at hend
      obtain ⟨hpath, hle⟩ := hend
      obtain ⟨⟨f, b⟩, rest, rfl⟩ := List.exists_cons_of_ne_nil hpath
      subst hr
      cases hp : t.heap b with
      | internal page =>
        have hp' : s.heap b = .internal page := by rw [hs, hp]
        simp only [advance, Reader.visit, answerOf, hp] at hstep
        cases hroute : routeAt page.asUnits v range.lower with
        | none =>
          rw [hroute] at hstep
          cases hstep
          obtain ⟨found, hout, hscan⟩ := ih _ _ _ rfl
          exact ⟨found, hout, scans_pop hle hp' hroute hscan⟩
        | some next =>
          rw [hroute] at hstep
          cases hstep
          obtain ⟨found, hout, hscan⟩ := ih _ _ _ rfl
          exact ⟨found, hout, scans_route hle hp' hroute hscan⟩
      | leaf page =>
        have hp' : s.heap b = .leaf page := by rw [hs, hp]
        simp only [advance, Reader.visit, answerOf, hp, Reader.resume] at hstep
        by_cases hnone : leafFound page v range = []
        · by_cases hmax : cfg.keys.incKey f.upper = cfg.keys.maxKey
          · rw [if_pos ⟨hnone, hmax⟩] at hstep
            cases hstep
            obtain rfl := walks_done hwalk
            exact ⟨[], (List.append_nil _).symm, scans_leaf_end hle hp' hnone hmax⟩
          · rw [if_neg (fun h => hmax h.2), hnone, List.append_nil] at hstep
            cases hstep
            obtain ⟨found, hout, hscan⟩ := ih _ _ _ rfl
            exact ⟨found, hout, scans_leaf_silent hle hp' hnone hmax hscan⟩
        · rw [if_neg (fun h => hnone h.1)] at hstep
          cases hstep
          obtain ⟨found, hout, hscan⟩ := ih _ _ _ rfl
          refine ⟨leafFound page v range ++ found, ?_, scans_leaf_found hle hp' hnone hscan⟩
          rw [hout, List.append_assoc]

/-- A walk from the root of a version is the sequential read. -/
theorem answers_of_walks {root : ℕ × ℕ} (hroot : t.rootFor v = .ok root) {request : Request K}
    (h : Walks cfg t v (request.start cfg root.1) (.done out)) : Answers cfg t v request out := by
  cases request with
  | point key =>
    obtain ⟨fuel, hread⟩ := point_of_walks h
    exact ⟨root, fuel, hroot, hread⟩
  | range interval =>
    let s : MVBTSt K P := { onAcquireReaderSnapshot t v with
      commit := (t.commit.currentVersionForReader t.tid).1 }
    obtain ⟨found, rfl, hscan⟩ := scans_of_walks (s := s) rfl h _ _ _ rfl
    obtain ⟨bound, s', it', hdrain⟩ := hscan.drain rfl rfl
    refine ⟨bound, fun fuel calls hf hcalls => ?_⟩
    have hnew : RangeQueryIter.new cfg t v interval =
        .ok (s, scanFrom P v interval.upper [(cfg.keys.full, root.1)] interval.lower) := by
      change (do let root ← s.rootFor v; _) = _
      rw [show s.rootFor v = .ok root from hroot]
      rfl
    simp only [dispatchRange, hnew, bind, Except.bind, hdrain fuel calls hf hcalls, pure,
      Except.pure, Except.map]

end Walks

/-- A reader that is done hands out the answer of the tree of its query, and every tree
that looks the same gives that answer. -/
theorem answers_of_reader {cfg : Config K} {s : Shared K P} {q : Query K P}
    {out : List (RecordPointResult K P)} (h : ReaderOk cfg s q (.ready (.done out)))
    {t : MVBTSt K P} (hu : Undisturbed q.snapshot q.since t) :
    Answers cfg t q.snapshot q.request out := by
  obtain ⟨root, hroot, hwalk⟩ := h.progress.walked
  have hin := within_start (P := P) cfg (h.closed.roots _ root hroot) q.request
  exact answers_of_walks (hu.root.trans hroot) ((hu.walks_iff h.closed hin).mpr hwalk)

/-! ## Any run of writers and readers -/

theorem atRest_of_inv {cfg : Config K} {t : MVBTSt K P} {g : Ghost K P} (h : Inv cfg t g)
    (ht : t.tracker = none) : AtRest cfg t := by
  have hvalues := h.timeline.chain.values
  constructor
  · intro b hb
    have hnode := h.living.node b hb
    cases hp : t.heap b with
    | leaf p =>
      rw [hp] at hnode
      exact hnode.2.counted
    | internal p =>
      rw [hp] at hnode
      exact hnode.2.counted
  · exact fun b hb p hp e he => (h.timeline.links ht b hb p hp e he).1
  · rw [hvalues]
    exact h.timeline.chain
  · intro x hx
    rw [hvalues] at hx
    exact ⟨(h.timeline.roots_life ht x hx).1, h.timeline.roots_lt x hx⟩

/-- A history that has drawn a version leaves a tree at rest. -/
theorem runWrites_atRest {cfg : Config K} (hc : Roomy cfg) {tosses : ℕ → Toss} {threads tid : ℕ}
    {ops : List (WriteOperation K P)} {t : MVBTSt K P} {rs : List WriteResult}
    (hrun : runWrites cfg (make tosses threads tid) ops = .ok (t, rs))
    (hdrawn : startVersion < t.commit.clock) : AtRest cfg t := by
  obtain ⟨t', rs', log, hrun', -, htr, -, hend⟩ := runWrites_reached hc ops _
    (make_fresh tosses threads tid) rfl
  rw [hrun] at hrun'
  cases hrun'
  have ht : t.tracker = none := by simpa [make] using htr
  rcases hend with ⟨hfresh, -⟩ | ⟨g, hinv, -⟩
  · exact absurd hfresh.clock hdrawn.ne'
  · exact atRest_of_inv hinv ht

/-- The moment `c₀` at which thread `i` draws the version of its query `q` in a run to `c`. -/
structure DrawnAt (cfg : Config K) (t : MVBTSt K P) (i : ℕ) (q : Query K P)
    (c₀ c : State K P) : Prop where
  before : Runs cfg (begin t) c₀
  draws : c₀.pc i = .idle ∧ Step cfg i c₀.shared .idle c₀.shared (.reading q .root)
  after : Runs cfg (c₀.move i c₀.shared (.reading q .root)) c

/-- No version up to that of the query is running when it is drawn, and the tree of the
query is the tree of that moment. -/
theorem DrawnAt.below {cfg : Config K} {t : MVBTSt K P} {i : ℕ} {q : Query K P} {c₀ c : State K P}
    (h : DrawnAt cfg t i q c₀ c) : q.since = c₀.shared.tree ∧ Below c₀.shared q.snapshot := by
  rcases reading_step h.draws.2 rfl with ⟨-, -, -, hsince, hbelow⟩ | ⟨p, -, hidle, -⟩
  · exact ⟨hsince, hbelow⟩
  · cases hidle

/-- Whoever reads has drawn its version before. -/
theorem drawn_of_runs {cfg : Config K} {t : MVBTSt K P} {c : State K P}
    (h : Runs cfg (begin t) c) :
    ∀ i q p, c.pc i = .reading q p → ∃ c₀ : State K P, DrawnAt cfg t i q c₀ c := by
  induction h with
  | refl =>
    intro i q p hpc
    cases hpc
  | @tail c c' hrun hmove ih =>
    cases hmove with
    | @mk i s l _ hs =>
      have hlast : Runs cfg c (c.move i s l) := (Run.refl c).move i hs
      intro j q p hpc
      by_cases hj : j = i
      · subst hj
        rw [c.move_pc_self] at hpc
        rcases reading_step hs hpc with ⟨rfl, hidle, rfl, -, -⟩ | ⟨p₀, -, hold, -⟩
        · rw [hidle, hpc] at hs
          exact ⟨c, hrun, ⟨hidle, hs⟩, hpc ▸ Run.refl _⟩
        · obtain ⟨c₀, h₀⟩ := ih j q p₀ hold
          exact ⟨c₀, h₀.before, h₀.draws, h₀.after.trans hlast⟩
      · rw [c.move_pc_other i s l hj] at hpc
        obtain ⟨c₀, h₀⟩ := ih j q p hpc
        exact ⟨c₀, h₀.before, h₀.draws, h₀.after.trans hlast⟩

/-- Reads without latches are atomic. Start any number of threads on a tree that some
history has left. Whatever writers and readers do, and in whatever order their loads
and stores fall, a point read or a range scan that is done hands out what the
sequential read at its version returns on the tree of the moment when that version was
drawn, when nobody was writing at it or below. It also is what the sequential read
returns on the tree of the moment when the reader is done. -/
theorem latch_free_reads_atomic {cfg : Config K} (hc : Roomy cfg) {tosses : ℕ → Toss}
    {threads tid : ℕ} {ops : List (WriteOperation K P)} {t : MVBTSt K P} {rs : List WriteResult}
    (hrun : runWrites cfg (make tosses threads tid) ops = .ok (t, rs))
    (hdrawn : startVersion < t.commit.clock) {c : State K P} (hruns : Runs cfg (begin t) c)
    {i : ℕ} {q : Query K P} {out : List (RecordPointResult K P)}
    (hdone : c.pc i = .reading q (.ready (.done out))) :
    (∃ c₀ : State K P, DrawnAt cfg t i q c₀ c ∧ Below c₀.shared q.snapshot ∧
      Answers cfg c₀.shared.tree q.snapshot q.request out) ∧
    Answers cfg c.shared.tree q.snapshot q.request out := by
  have hrest := runWrites_atRest hc hrun hdrawn
  have hreader := (sound_of_runs hrest hruns).readers i q _ hdone
  obtain ⟨c₀, h₀⟩ := drawn_of_runs hruns i q _ hdone
  obtain ⟨hsince, hbelow⟩ := h₀.below
  constructor
  · refine ⟨c₀, h₀, hbelow, ?_⟩
    rw [← hsince]
    exact answers_of_reader hreader (Undisturbed.refl _ _)
  · exact answers_of_reader hreader hreader.undisturbed

/-- The page of the one record. -/
def onePage : LeafPage UInt64 ℕ := ⟨fromActiveDead 1 0, [⟨7, .new 1, 70⟩]⟩

/-- A tree with one record. -/
theorem one_insert : ∃ t : MVBTSt UInt64 ℕ,
    runWrites ⟨125, 125, u64Space⟩ (make (fun _ => .next) 2 0) [.insert 7 70] =
      .ok (t, [.inserted 1]) ∧
    t.heap 0 = .leaf onePage ∧ t.commit.clock = 2 ∧
    t.nextBlock = 1 ∧ t.rootFor 1 = .ok (0, 1) := ⟨_, rfl, rfl, rfl, rfl, rfl⟩

theorem onePage_counted : onePage.Counted 125 := by
  constructor
  · rfl
  · decide
  · decide

theorem read_on {cfg : Config K} {c c' : State K P} (h : Runs cfg c c') {i : ℕ} {q : Query K P}
    {p p' : Progress K P} (hpc : c'.pc i = .reading q p)
    (hs : ReaderStep cfg c'.shared.tree q.request q.snapshot p p') :
    Runs cfg c (c'.move i c'.shared (.reading q p')) := by
  apply h.move i
  rw [hpc]
  exact .read hs

/-- A reader of version 1 loads the length of a page in which the slot of version 2 has
been written; that slot is published before the reader goes on. -/
theorem read_beside_insert {t : MVBTSt UInt64 ℕ} (hheap : t.heap 0 = .leaf onePage)
    (hclock : t.commit.clock = 2) (hnext : t.nextBlock = 1) (hroot : t.rootFor 1 = .ok (0, 1)) :
    ∃ c, Runs ⟨125, 125, u64Space⟩ (begin t) c ∧
      c.pc 0 = .reading ⟨.point 7, 1, t⟩ (.ready (.done [(7, 70)])) := by
  have hlt : 1 < (begin t).shared.tree.commit.clock := by
    change 1 < t.commit.clock
    rw [hclock]
    exact Nat.one_lt_two
  have r : Runs ⟨125, 125, u64Space⟩ (begin t) (begin t) := Run.refl _
  replace r := r.move 0 (@Step.draw _ _ _ _ _ _ (.point 7) 1 hlt (fun j w hw => by cases hw))
  replace r := r.move 0 (.read (.root hroot))
  replace r := r.move 1 (@Step.latch _ _ _ _ _ _ (some 0) rfl (fun b hb => by
    cases hb
    exact hnext ▸ Nat.one_pos))
  replace r := r.move 1 .start
  replace r := r.move 1 (.plan (@Plans.insert _ _ _ _ _ _ _ _ 9 90 hheap (by decide) rfl))
  replace r := r.move 1 (.store (show Plan.next _ (t.heap 0) = _ by rw [hheap]; rfl))
  replace r := r.move 0 (.read (.enterFind rfl rfl))
  replace r := r.move 1 (.store rfl)
  obtain ⟨c, hc, hpc, hleaf⟩ : ∃ c, Runs ⟨125, 125, u64Space⟩ (begin t) c ∧
      c.pc 0 = .reading ⟨.point 7, 1, t⟩ (.skipping (.point 7 0) 0 7 onePage.sumLen) ∧
      c.shared.tree.heap 0 =
        .leaf (runStores onePage (insertStores onePage 9 90 t.commit.clock)) := ⟨_, r, rfl, rfl⟩
  rw [insertStores_page onePage_counted] at hleaf
  rw [onePage_counted.sumLen] at hpc
  have hskip := read_on hc hpc (.skipEnd (i := 0) hleaf rfl (lt_irrefl 1))
  have hhit := read_on hskip (c.move_pc_self _ _ _) (.findHit (i := 0) hleaf rfl rfl)
  exact ⟨_, hhit.move 0 (.read (.resume rfl)), rfl⟩

theorem read_beside_insert_atomic : ∃ (t : MVBTSt UInt64 ℕ) (c₀ c : State UInt64 ℕ),
    DrawnAt ⟨125, 125, u64Space⟩ t 0 ⟨.point 7, 1, t⟩ c₀ c ∧
    c.pc 0 = .reading ⟨.point 7, 1, t⟩ (.ready (.done [(7, 70)])) ∧
    Answers ⟨125, 125, u64Space⟩ c₀.shared.tree 1 (.point 7) [(7, 70)] ∧
    Answers ⟨125, 125, u64Space⟩ c.shared.tree 1 (.point 7) [(7, 70)] := by
  obtain ⟨t, hrun, hheap, hclock, hnext, hroot⟩ := one_insert
  obtain ⟨c, hc, hpc⟩ := read_beside_insert hheap hclock hnext hroot
  have hdrawn : startVersion < t.commit.clock := by
    rw [hclock]
    exact Nat.one_lt_two
  obtain ⟨⟨c₀, h₀, -, hthen⟩, hnow⟩ :=
    latch_free_reads_atomic (roomy_of_capacity (.inl rfl) u64Space) hrun hdrawn hc hpc
  exact ⟨t, c₀, c, h₀, hpc, hthen, hnow⟩

/-! ## Versions committed before the writers began -/

/-- The reference at version `v` for a request. -/
def Reference (log : Log K P) (v : ℕ) : Request K → List (RecordPointResult K P) → Prop
  | .point key, out => out = ((liveAt log key v).map (fun payload => (key, payload))).toList
  | .range interval, out => Exact log v interval.upper interval.lower out

/-- No step is noticed at a version that was committed before the run. -/
theorem undisturbed_of_runs {cfg : Config K} {t : MVBTSt K P} (h : AtRest cfg t) {c : State K P}
    (hruns : Runs cfg (begin t) c) {v : ℕ} (hv : v < t.commit.clock) :
    Undisturbed v t c.shared.tree := by
  have hstep : ∀ (c : State K P) i s l, Anytime i c → Step cfg i c.shared (c.pc i) s l →
      (Sound cfg c ∧ Below c.shared v ∧ Undisturbed v t c.shared.tree) →
      Sound cfg (c.move i s l) ∧ Below s v ∧ Undisturbed v t s.tree := by
    intro c i s l _ hs hold
    obtain ⟨hsound, hbelow, hu⟩ := hold
    exact ⟨hsound.step hs, hbelow.step hs, hu.trans (hsound.orderly.undisturbed hs hbelow)⟩
  have hstart : Below (begin t).shared v := ⟨hv, fun j w hw => by cases hw⟩
  exact (hruns.preserves hstep ⟨sound_begin h, hstart, Undisturbed.refl v t⟩).2.2

theorem traverseReadKey_add {t : MVBTSt K P} {key : K} {v fuel b : ℕ} {page : LeafPage K P}
    (h : traverseReadKey t fuel b key v = .ok page) (more : ℕ) :
    traverseReadKey t (fuel + more) b key v = .ok page := by
  induction fuel generalizing b with
  | zero => cases h
  | succ fuel ih =>
    rw [Nat.succ_add]
    unfold traverseReadKey at h ⊢
    cases hp : t.heap b with
    | leaf p => rw [hp] at h; exact h
    | internal p =>
      rw [hp] at h
      simp only at h ⊢
      cases hroute : routeAt p.asUnits v key with
      | none => rw [hroute] at h; cases h
      | some next =>
        rw [hroute] at h
        exact ih h

/-- The bound on the number of pages plays no part in the answer. -/
theorem keyPointRead_unique {t : MVBTSt K P} {key : K} {v b fuel fuel' : ℕ}
    {out out' : List (RecordPointResult K P)}
    (h : keyPointReadFromRoot t (b, fuel) key v = .ok out)
    (h' : keyPointReadFromRoot t (b, fuel') key v = .ok out') : out = out' := by
  obtain ⟨page, hpage, hout⟩ := of_bind_ok h
  obtain ⟨page', hpage', hout'⟩ := of_bind_ok h'
  have hadd := traverseReadKey_add hpage fuel'
  have hadd' := traverseReadKey_add hpage' fuel
  rw [Nat.add_comm] at hadd'
  rw [hadd] at hadd'
  cases hadd'
  rw [hout] at hout'
  exact Except.ok.inj hout'

/-- The ways to read a range with enough fuel agree, and a range up to the border that is
read to its end holds what the reference says. -/
theorem range_of_answers {cfg : Config K} {t : MVBTSt K P} {g : Ghost K P} {v : ℕ}
    {interval : Interval K} {out : List (RecordPointResult K P)} (h : Inv cfg t g)
    (hr : Readable cfg t g v) (hclear : ClearOfBorder cfg t)
    (hout : Answers cfg t v (.range interval) out) :
    Exact g.log v interval.upper interval.lower out := by
  obtain ⟨bound, hout⟩ := hout
  rcases (cfg.keys.le_max interval.upper).lt_or_eq with hlt | hborder
  · obtain ⟨bound', t', found, hfound, hexact⟩ :=
      dispatchRange_exact h hr interval.lower interval.upper (.inr hlt)
    have h₁ := hout (max bound bound') (max bound bound') (le_max_left _ _) (le_max_left _ _)
    have h₂ := hfound (max bound bound') (max bound bound') (le_max_right _ _) (le_max_right _ _)
    rw [h₂] at h₁
    cases h₁
    exact hexact
  · obtain ⟨lower, upper⟩ := interval
    cases hborder
    have hdone := hout bound bound le_rfl le_rfl
    cases hnew : RangeQueryIter.new cfg t v ⟨lower, cfg.keys.maxKey⟩ with
    | error e =>
      simp only [dispatchRange, hnew, bind, Except.bind, Except.map] at hdone
      cases hdone
    | ok x =>
      simp only [dispatchRange, hnew, bind, Except.bind] at hdone
      cases hdrain : x.2.drain cfg bound bound x.1 with
      | error e =>
        rw [hdrain] at hdone
        cases hdone
      | ok y =>
        rw [hdrain] at hdone
        cases hdone
        exact drained_exact h hr hclear hnew hdrain

/-- Committed versions are read as the reference says while others write. -/
theorem committed_reads_under_writers {cfg : Config K} (hc : Roomy cfg) {tosses : ℕ → Toss}
    {threads tid : ℕ} {ops : List (WriteOperation K P)} {t : MVBTSt K P} {rs : List WriteResult}
    (hrun : runWrites cfg (make tosses threads tid) ops = .ok (t, rs)) :
    ∃ log, Replay [] ops rs log ∧ ∀ (c : State K P), Runs cfg (begin t) c → ∀ i q out,
      c.pc i = .reading q (.ready (.done out)) → startVersion ≤ q.snapshot →
      q.snapshot < t.commit.clock → Reference log q.snapshot q.request out := by
  obtain ⟨t', rs', log, hrun', hreplay, htr, -, hend⟩ := runWrites_reached hc ops _
    (make_fresh tosses threads tid) rfl
  rw [hrun] at hrun'
  cases hrun'
  refine ⟨log, hreplay, ?_⟩
  intro c hruns i q out hdone hstart hlt
  have ht : t.tracker = none := by simpa [make] using htr
  have hfresh := make_fresh (K := K) (P := P) tosses threads tid
  have hclear := runWrites_clear hc ops _ [] (.inl ⟨hfresh, rfl⟩) (.fresh hfresh) t rs hrun
  rcases hend with ⟨hfresh, -⟩ | ⟨g, hinv, rfl⟩
  · have := hfresh.clock
    omega
  · have hrest := atRest_of_inv hinv ht
    have hreader := (sound_of_runs hrest hruns).readers i q _ hdone
    obtain ⟨c₀, h₀⟩ := drawn_of_runs hruns i q _ hdone
    have hu : Undisturbed q.snapshot t q.since :=
      h₀.below.1 ▸ undisturbed_of_runs hrest h₀.before hlt
    have hclosed : ClosedTree t := (sound_begin hrest).orderly.closedTree
    obtain ⟨root, hroot, hwalk⟩ := hreader.progress.walked
    rw [hu.root] at hroot
    have hin := within_start (P := P) cfg (hclosed.roots _ root hroot) q.request
    have hanswers := answers_of_walks hroot ((hu.walks_iff hclosed hin).mp hwalk)
    have hread := readable_untracked hinv ht hstart
    cases hreq : q.request with
    | point key =>
      rw [hreq] at hanswers
      obtain ⟨root, fuel, hroot, hout⟩ := hanswers
      obtain ⟨root', hroot', hreference⟩ := keyPointRead_reference hinv hread key
      rw [hroot] at hroot'
      cases hroot'
      exact keyPointRead_unique hout hreference
    | range interval =>
      rw [hreq] at hanswers
      exact range_of_answers hinv hread hclear hanswers

theorem committed_read_beside_insert :
    ∃ (c : State UInt64 ℕ) (t : MVBTSt UInt64 ℕ) (log : Log UInt64 ℕ),
    Replay [] [.insert 7 70] [.inserted 1] log ∧
    c.pc 0 = .reading ⟨.point 7, 1, t⟩ (.ready (.done [(7, 70)])) ∧
    Reference log 1 (.point 7) [(7, 70)] := by
  obtain ⟨t, hrun, hheap, hclock, hnext, hroot⟩ := one_insert
  obtain ⟨c, hc, hpc⟩ := read_beside_insert hheap hclock hnext hroot
  obtain ⟨log, hreplay, hread⟩ := committed_reads_under_writers
    (roomy_of_capacity (.inl rfl) u64Space) hrun
  have hlt : 1 < t.commit.clock := by
    rw [hclock]
    exact Nat.one_lt_two
  exact ⟨c, t, log, hreplay, hpc, hread c hc 0 _ _ hpc le_rfl hlt⟩

end CMVBT.ConcurrentReads
