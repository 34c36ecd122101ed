import CMVBT.RangeScan

/-!
# A pinned snapshot survives block recycling

Two states of a tree look alike at a version when the blocks that searches at
that version can reach show the same to them. Point reads and range scans then
give the same answers in both. The blocks that an announced reader reaches are
never recycled, so the states before and after any history of writes look alike
to it.
-/
namespace CMVBT.PinnedSnapshot
open KeyInterval LastMatch FenceTiling VersionedLog PageModel FrugalList CommitClock Tracker
open CMVBT.Tree
open BlockSupply WritePath ReadPath DirectoryHistory LeafHistory TreeInvariant NewPages
open Reference WriteOperations FreshTree SnapshotRead RangeScan

variable {K P : Type} [LinearOrder K]

/-- Searches at version `v` stay in `reach` and see the same in both heaps. -/
structure Alike (v : ℕ) (reach : ℕ → Prop) (heap heap' : ℕ → Node K P) : Prop where
  same : ∀ b, reach b → SameAt v (heap b) (heap' b)
  closed : ∀ b p k next, reach b → heap b = .internal p →
    routeAt p.asUnits v k = some next → reach next.2

section Alike
variable {v : ℕ} {reach : ℕ → Prop} {heap heap' : ℕ → Node K P}

/-- What a reader of version `v` sees of a leaf. -/
def leafView (v : ℕ) (page : LeafPage K P) : List (RecordPointResult K P) :=
  (page.asUnits.filter (fun r => r.version.matches v)).map RecordPoint.result

theorem leafLookup_view (v : ℕ) (page : LeafPage K P) (key : K) :
    (leafLookup page.asUnits v key).map RecordPoint.result =
      (leafView v page).findRev? (fun r => r.1 == key) := by
  rw [leafLookup_eq, leafView]
  simp only [List.findRev?_eq_find?_reverse, ← List.map_reverse, ← List.filter_reverse]
  rw [List.find?_map, List.find?_filter]
  congr 2
  funext r
  rw [Bool.decide_and, Bool.decide_eq_true, Bool.decide_eq_true]
  exact Bool.and_comm _ _

theorem leafFound_view (v : ℕ) (page : LeafPage K P) (range : Interval K) :
    leafFound page v range = (leafView v page).filter (fun r => range.contains r.1) := by
  rw [leafFound, leafView, List.filter_map, List.filter_filter]
  congr 2
  funext r
  simp [RecordPoint.result, Bool.and_comm]

/-- Both heaps have the same kind of page at a block within reach. -/
theorem Alike.leaf (h : Alike v reach heap heap') {b : ℕ} (hb : reach b) {p : LeafPage K P}
    (hp : heap b = .leaf p) : ∃ p', heap' b = .leaf p' ∧ leafView v p' = leafView v p := by
  have hs := h.same b hb
  rw [hp] at hs
  cases hn : heap' b with
  | leaf p' =>
    rw [hn] at hs
    exact ⟨p', rfl, hs⟩
  | internal p' =>
    rw [hn] at hs
    exact absurd hs id

theorem Alike.internal (h : Alike v reach heap heap') {b : ℕ} (hb : reach b) {p : InternalPage K}
    (hp : heap b = .internal p) :
    ∃ p', heap' b = .internal p' ∧ ∀ k, routeAt p'.asUnits v k = routeAt p.asUnits v k := by
  have hs := h.same b hb
  rw [hp] at hs
  cases hn : heap' b with
  | leaf p' =>
    rw [hn] at hs
    exact absurd hs id
  | internal p' =>
    rw [hn] at hs
    exact ⟨p', rfl, hs⟩

/-! ## Point reads -/

theorem traverseReadKey_alike {t t' : MVBTSt K P} (h : Alike v reach t.heap t'.heap) (key : K) :
    ∀ fuel b, reach b → (traverseReadKey t' fuel b key v).map (leafView v) =
      (traverseReadKey t fuel b key v).map (leafView v) := by
  intro fuel
  induction fuel with
  | zero => exact fun _ _ => rfl
  | succ fuel ih =>
    intro b hb
    rw [traverseReadKey, traverseReadKey]
    cases hn : t.heap b with
    | leaf p =>
      obtain ⟨p', hp', hview⟩ := h.leaf hb hn
      rw [hp']
      exact congrArg Except.ok hview
    | internal p =>
      obtain ⟨p', hp', hroute⟩ := h.internal hb hn
      rw [hp']
      simp only [hroute]
      cases hr : routeAt p.asUnits v key with
      | none => rfl
      | some next => exact ih next.2 (h.closed b p key next hb hn hr)

theorem keyPointRead_alike {t t' : MVBTSt K P} (h : Alike v reach t.heap t'.heap) (key : K)
    (root : ℕ × ℕ) (hroot : reach root.1) :
    keyPointReadFromRoot t' root key v = keyPointReadFromRoot t root key v := by
  have hview := traverseReadKey_alike h key root.2 root.1 hroot
  rw [keyPointReadFromRoot, keyPointReadFromRoot]
  cases hr : traverseReadKey t root.2 root.1 key v with
  | error e =>
    cases hr' : traverseReadKey t' root.2 root.1 key v with
    | error e' =>
      rw [hr, hr'] at hview
      cases hview
      rfl
    | ok page' =>
      rw [hr, hr'] at hview
      cases hview
  | ok page =>
    cases hr' : traverseReadKey t' root.2 root.1 key v with
    | error e' =>
      rw [hr, hr'] at hview
      cases hview
    | ok page' =>
      rw [hr, hr'] at hview
      have heq : leafView v page' = leafView v page := Except.ok.inj hview
      simp only [bind, Except.bind, pure, Except.pure, leafLookup_view, heq]

/-! ## Range scans -/

/-- Two outcomes that differ in nothing but what readers do not see. -/
inductive SameOutcome (v : ℕ) (reach : ℕ → Prop) (heap heap' : ℕ → Node K P) {α : Type} :
    Except Fault (MVBTSt K P × RangeQueryIter K P × α) →
    Except Fault (MVBTSt K P × RangeQueryIter K P × α) → Prop
  | error (e : Fault) : SameOutcome v reach heap heap' (.error e) (.error e)
  | ok {s s' : MVBTSt K P} {it : RangeQueryIter K P} {a : α} : s.heap = heap → s'.heap = heap' →
      it.snapshot = v → (∀ x ∈ it.path, reach x.2) →
      SameOutcome v reach heap heap' (.ok (s, it, a)) (.ok (s', it, a))

theorem round_alike (cfg : Config K) (h : Alike v reach heap heap') {s s' : MVBTSt K P}
    (hs : s.heap = heap) (hs' : s'.heap = heap') {it : RangeQueryIter K P} (hv : it.snapshot = v)
    (hpath : ∀ x ∈ it.path, reach x.2) :
    (it.round cfg s').2 = (it.round cfg s).2 ∧ (it.round cfg s).1.heap = heap ∧
      (it.round cfg s').1.heap = heap' ∧ (it.round cfg s).2.1.snapshot = v ∧
      ∀ x ∈ (it.round cfg s).2.1.path, reach x.2 := by
  subst hv hs hs'
  rw [RangeQueryIter.round, RangeQueryIter.round]
  cases hp : it.path with
  | nil => simp [onReleaseReaderSnapshot]
  | cons x rest =>
    obtain ⟨f, b⟩ := x
    rw [hp] at hpath
    have hb : reach b := hpath (f, b) (by simp)
    have hrest : ∀ y ∈ rest, reach y.2 := fun y hy => hpath y (List.mem_cons_of_mem _ hy)
    by_cases hpast : it.range.upper < it.range.lower
    · simp only [hpast, if_true, true_and]
      exact ⟨rfl, rfl, hpath⟩
    · simp only [hpast, if_false]
      cases hn : s.heap b with
      | internal p =>
        obtain ⟨p', hp', hroute⟩ := h.internal hb hn
        simp only [hp', hroute]
        cases hr : routeAt p.asUnits it.snapshot it.range.lower with
        | none => exact ⟨rfl, rfl, rfl, rfl, hrest⟩
        | some next =>
          refine ⟨rfl, rfl, rfl, rfl, ?_⟩
          intro y hy
          rcases List.mem_cons.mp hy with rfl | hy
          · exact h.closed b p _ _ hb hn hr
          · exact hpath y hy
      | leaf p =>
        obtain ⟨p', hp', hview⟩ := h.leaf hb hn
        have hfound : leafFound p' it.snapshot it.range = leafFound p it.snapshot it.range := by
          rw [leafFound_view, leafFound_view, hview]
        rw [leafFound, leafFound] at hfound
        simp only [hp', hfound]
        split_ifs
        · exact ⟨rfl, rfl, rfl, rfl, hrest⟩
        · exact ⟨rfl, rfl, rfl, rfl, hrest⟩

theorem loop_alike (cfg : Config K) (h : Alike v reach heap heap') :
    ∀ (fuel : ℕ) (s s' : MVBTSt K P) (it : RangeQueryIter K P), s.heap = heap → s'.heap = heap' →
      it.snapshot = v → (∀ x ∈ it.path, reach x.2) →
      SameOutcome v reach heap heap' (it.loop cfg fuel s) (it.loop cfg fuel s') := by
  intro fuel
  induction fuel with
  | zero => exact fun _ _ _ _ _ _ _ => .error _
  | succ fuel ih =>
    intro s s' it hs hs' hv hpath
    obtain ⟨heq, hheap, hheap', hsnap, hreach⟩ := round_alike cfg h hs hs' hv hpath
    rw [RangeQueryIter.loop, RangeQueryIter.loop]
    generalize it.round cfg s = r at heq hheap hsnap hreach ⊢
    generalize it.round cfg s' = r' at heq hheap' ⊢
    obtain ⟨s₁, it₁, ans⟩ := r
    obtain ⟨s₁', it₁', ans'⟩ := r'
    simp only [Prod.mk.injEq] at heq
    obtain ⟨rfl, rfl⟩ := heq
    cases ans' with
    | some answer => exact .ok hheap hheap' hsnap hreach
    | none => exact ih s₁ s₁' it₁' hheap hheap' hsnap hreach

theorem next_alike (cfg : Config K) (h : Alike v reach heap heap') (fuel : ℕ) {s s' : MVBTSt K P}
    {it : RangeQueryIter K P} (hs : s.heap = heap) (hs' : s'.heap = heap') (hv : it.snapshot = v)
    (hpath : ∀ x ∈ it.path, reach x.2) :
    SameOutcome v reach heap heap' (it.next cfg fuel s) (it.next cfg fuel s') := by
  rw [RangeQueryIter.next, RangeQueryIter.next]
  cases hb : it.buff with
  | cons r buff => exact .ok hs hs' hv hpath
  | nil =>
    by_cases hc : it.isCompleted = true
    · simp only [hc, if_true]
      exact .ok hs hs' hv hpath
    · simp only [hc]
      exact loop_alike cfg h fuel s s' it hs hs' hv hpath

theorem drain_alike (cfg : Config K) (h : Alike v reach heap heap') (fuel : ℕ) :
    ∀ (calls : ℕ) (s s' : MVBTSt K P) (it : RangeQueryIter K P), s.heap = heap →
      s'.heap = heap' → it.snapshot = v → (∀ x ∈ it.path, reach x.2) →
      SameOutcome v reach heap heap' (it.drain cfg fuel calls s) (it.drain cfg fuel calls s') := by
  intro calls
  induction calls with
  | zero => exact fun _ _ _ _ _ _ _ => .error _
  | succ calls ih =>
    intro s s' it hs hs' hv hpath
    have hnext := next_alike cfg h fuel hs hs' hv hpath
    rw [drain_succ, drain_succ]
    generalize it.next cfg fuel s = x at hnext ⊢
    generalize it.next cfg fuel s' = x' at hnext ⊢
    cases hnext with
    | error e => exact .error e
    | @ok s₁ s₁' it₁ ans h₁ h₁' hsnap hreach =>
      cases ans with
      | none => exact .ok h₁ h₁' hsnap hreach
      | some r =>
        have hrest := ih s₁ s₁' it₁ h₁ h₁' hsnap hreach
        simp only [collectAfter]
        generalize it₁.drain cfg fuel calls s₁ = y at hrest ⊢
        generalize it₁.drain cfg fuel calls s₁' = y' at hrest ⊢
        cases hrest with
        | error e => exact .error e
        | ok h₂ h₂' hsnap' hreach' => exact .ok h₂ h₂' hsnap' hreach'

end Alike

/-! ## The two states -/

section States
variable {cfg : Config K} {t t' : MVBTSt K P} {v : ℕ} {reach : ℕ → Prop}

theorem dispatchPoint_alike (h : Alike v reach t.heap t'.heap) (hroot : t'.rootFor v = t.rootFor v)
    (hreach : ∀ root, t.rootFor v = .ok root → reach root.1) (key : K) :
    (dispatchPoint t' key v).map Prod.snd = (dispatchPoint t key v).map Prod.snd := by
  have hr : (onAcquireReaderSnapshot t v).rootFor v = t.rootFor v := rfl
  have hr' : (onAcquireReaderSnapshot t' v).rootFor v = t.rootFor v := hroot
  simp only [dispatchPoint, hr, hr']
  cases hroot₀ : t.rootFor v with
  | error e => rfl
  | ok root =>
    have heq := keyPointRead_alike
      (show Alike v reach (onAcquireReaderSnapshot t v).heap (onAcquireReaderSnapshot t' v).heap
        from h) key root (hreach root hroot₀)
    simp only [bind, Except.bind, heq]
    cases keyPointReadFromRoot (onAcquireReaderSnapshot t v) root key v <;> rfl

theorem dispatchRange_alike (h : Alike v reach t.heap t'.heap) (hroot : t'.rootFor v = t.rootFor v)
    (hreach : ∀ root, t.rootFor v = .ok root → reach root.1) (fuel calls : ℕ)
    (range : Interval K) :
    (dispatchRange cfg fuel calls t' range v).map Prod.snd =
      (dispatchRange cfg fuel calls t range v).map Prod.snd := by
  let started (t : MVBTSt K P) : MVBTSt K P := { onAcquireReaderSnapshot t v with
    commit := (t.commit.currentVersionForReader t.tid).1 }
  have hnew : ∀ t : MVBTSt K P, RangeQueryIter.new cfg t v range =
      (t.rootFor v).map (fun root =>
        (started t, ⟨v, range, [(cfg.keys.full, root.1)], [], false⟩)) := by
    intro t
    change (do let root ← t.rootFor v; _) = _
    cases t.rootFor v <;> rfl
  simp only [dispatchRange, hnew, hroot]
  cases hroot₀ : t.rootFor v with
  | error e => rfl
  | ok root =>
    have hdrain := drain_alike cfg h fuel calls (started t) (started t')
      ⟨v, range, [(cfg.keys.full, root.1)], [], false⟩ rfl rfl rfl
      (by simpa using hreach root hroot₀)
    simp only [Except.map, bind, Except.bind]
    generalize RangeQueryIter.drain cfg fuel calls (started t) _ = x at hdrain ⊢
    generalize RangeQueryIter.drain cfg fuel calls (started t') _ = x' at hdrain ⊢
    cases hdrain with
    | error e => rfl
    | ok _ _ _ _ => rfl

/-- The invariant does not look at the registered readers. -/
theorem inv_announced {g : Ghost K P} (h : Inv cfg t g) {tracker : Option TrackerHandle}
    (hgrave : graveyard { t with tracker := tracker } = graveyard t)
    (hnone : tracker = none → t.tracker = none) : Inv cfg { t with tracker := tracker } g := by
  have hl := h.living
  have htl := h.timeline
  exact
    { living :=
        { logged := hl.logged
          born := hl.born
          node := hl.node
          disjoint := hl.disjoint
          filled := hl.filled
          root_lt := hl.root_lt
          root_life := hl.root_life
          root_child := hl.root_child
          level_le := hl.level_le
          grave := by rw [hgrave]; exact hl.grave
          grave_ok := ⟨by rw [hgrave]; exact hl.grave_ok.below,
            by rw [hgrave]; exact hl.grave_ok.nodup⟩ }
      timeline :=
        { chain := htl.chain
          roots_lt := htl.roots_lt
          roots_start := htl.roots_start
          roots_ge := htl.roots_ge
          root_birth := htl.root_birth
          roots_until := htl.roots_until
          routes := htl.routes
          succession := htl.succession
          roots_life := fun ht => htl.roots_life (hnone ht)
          links := fun ht => htl.links (hnone ht)
          retained := fun v hv hlow =>
            (htl.retained v hv hlow).congr rfl rfl rfl (fun _ _ hp => hp)
          watermark := htl.watermark } }

theorem rootFor_roots {g : Ghost K P} (h : Inv cfg t g) (v : ℕ) :
    t.rootFor v = match g.roots.find? (fun x => decide (x.2 ≤ v)) with
      | some x => .ok x.1
      | none => .error .unwrapNone := by
  obtain ⟨res, hfind, hval⟩ := h.timeline.chain.findFrom v
  rw [← hval]
  simp only [MVBTSt.rootFor, hfind, bind, Except.bind]
  cases res <;> rfl

/-- What searches at version `v` reach is there in both states and looks the same. -/
structure Steady (v : ℕ) (t : MVBTSt K P) (g : Ghost K P) (t' : MVBTSt K P) (g' : Ghost K P) :
    Prop where
  roots : g'.roots.find? (fun x => decide (x.2 ≤ v)) = g.roots.find? (fun x => decide (x.2 ≤ v))
  blocks : ∀ b < t.nextBlock, (g.life b).Until v →
    b < t'.nextBlock ∧ (g'.life b).Until v ∧ SameAt v (t.heap b) (t'.heap b)

omit [LinearOrder K] in
theorem Steady.trans [LinearOrder K] {t'' : MVBTSt K P} {g g' g'' : Ghost K P}
    (h : Steady v t g t' g') (h' : Steady v t' g' t'' g'') : Steady v t g t'' g'' := by
  refine ⟨h'.roots.trans h.roots, ?_⟩
  intro b hb hu
  obtain ⟨hb', hu', hsame⟩ := h.blocks b hb hu
  obtain ⟨hb'', hu'', hsame'⟩ := h'.blocks b hb' hu'
  exact ⟨hb'', hu'', hsame.trans hsame'⟩

/-- A snapshot that is announced is steady. -/
theorem Intact.steady {g g' : Ghost K P} (hi : Intact t g t' g') (hv : Announced t v)
    (hlt : v < t.commit.clock) : Steady v t g t' g' :=
  ⟨hi.roots v hlt, hi.blocks v hv hlt⟩

/-- A steady snapshot reads the same in both states. -/
theorem Steady.alike {g g' : Ghost K P} (h : Inv cfg t g) (h' : Inv cfg t' g')
    (hs : Steady v t g t' g') :
    Alike v (fun b => b < t.nextBlock ∧ (g.life b).Until v) t.heap t'.heap ∧
      t'.rootFor v = t.rootFor v ∧
      ∀ root, t.rootFor v = .ok root → root.1 < t.nextBlock ∧ (g.life root.1).Until v := by
  refine ⟨⟨?_, ?_⟩, ?_, ?_⟩
  · rintro b ⟨hb, hu⟩
    exact (hs.blocks b hb hu).2.2
  · rintro b p k next ⟨hb, hu⟩ hp hroute
    have hnode := h.living.node b hb
    rw [hp] at hnode
    rw [hnode.counted_internal] at hroute
    exact h.timeline.routes b hb p hp v k next hu hroute
  · rw [rootFor_roots h', rootFor_roots h, hs.roots]
  · intro root hroot
    rw [rootFor_roots h] at hroot
    cases hx : g.roots.find? (fun x => decide (x.2 ≤ v)) with
    | none =>
      rw [hx] at hroot
      cases hroot
    | some x =>
      rw [hx] at hroot
      cases hroot
      exact h.timeline.roots_until v x hx

end States

/-! ## Announcing a reader -/

/-- The two ways in which a reader keeps its snapshot. -/
inductive Announcement where
  | pin
  | registration
deriving DecidableEq, Repr

def Announcement.apply (how : Announcement) (t : MVBTSt K P) (snapshot : ℕ) : MVBTSt K P :=
  match how with
  | .pin => pinReader t snapshot
  | .registration => onAcquireReaderSnapshot t snapshot

section Announce
variable {cfg : Config K} {t : MVBTSt K P} {g : Ghost K P}

theorem announced_inv (how : Announcement) (h : Inv cfg t g) (s : ℕ) :
    Inv cfg (how.apply t s) g := by
  cases how
  · refine inv_announced h ?_ ?_ <;> cases ht : t.tracker <;>
      simp [graveyard, ht, TrackerHandle.pinReader]
  · refine inv_announced h ?_ ?_ <;> cases ht : t.tracker <;>
      simp [graveyard, ht, TrackerHandle.onTxStart]

omit [LinearOrder K] in
theorem announced_live (how : Announcement) (ht : t.tracker.isSome = true) (s : ℕ) :
    ∃ ticket ∈ liveReaders (how.apply t s), ticket.1 = s := by
  obtain ⟨tracker, htr⟩ := Option.isSome_iff_exists.mp ht
  refine ⟨(s, tracker.liveTx.sequence), ?_, rfl⟩
  cases how
  · simp [Announcement.apply, pinReader, liveReaders, htr, TrackerHandle.pinReader,
      TransactionTrace.pin]
  · simp [Announcement.apply, onAcquireReaderSnapshot, liveReaders, htr, TrackerHandle.onTxStart,
      TransactionTrace.onTxStart]

end Announce

/-- A pinned snapshot survives block recycling. A reader announces the version of
the latest successful operation of a tree with garbage collection; whatever is
written afterwards, point reads and range scans at that version answer as they
did when the reader was announced. If no version was drawn since that operation,
the answers are those of the reference. -/
theorem announced_snapshot_survives {cfg : Config K} (hc : Roomy cfg) (tosses : ℕ → Toss)
    (threads tid : ℕ) (ops ops' : List (WriteOperation K P))
    (hops : ∀ payload, .insert cfg.keys.maxKey payload ∉ ops) (how : Announcement) (s : ℕ) :
    ∃ t rs log, runWrites cfg (enableGc (make tosses threads tid) false) ops = .ok (t, rs) ∧
      Replay [] ops rs log ∧
      ((rs.filterMap committed).getLast? = some s →
        ∃ t' rs', runWrites cfg (how.apply t s) ops' = .ok (t', rs') ∧
          (∀ key, (dispatchPoint t' key s).map Prod.snd = (dispatchPoint t key s).map Prod.snd) ∧
          (∀ range fuel calls, (dispatchRange cfg fuel calls t' range s).map Prod.snd =
            (dispatchRange cfg fuel calls t range s).map Prod.snd) ∧
          (s + 1 = t.commit.clock →
            (∀ key, (dispatchPoint t key s).map Prod.snd =
              .ok ((liveAt log key s).map (fun payload => (key, payload))).toList) ∧
            ∀ lo hi, ∃ bound found, Exact log s hi lo found ∧
              ∀ fuel calls, bound ≤ fuel → bound ≤ calls →
                (dispatchRange cfg fuel calls t ⟨lo, hi⟩ s).map Prod.snd = .ok found)) := by
  obtain ⟨t, rs, log, hrun, hreplay, htr, hflag, hend⟩ := runWrites_reached hc ops _
    (enableGc_fresh (make_fresh tosses threads tid) false) rfl
  refine ⟨t, rs, log, hrun, hreplay, ?_⟩
  intro hlast
  obtain ⟨stamp, hstamp, hversion⟩ := hreplay.committed_mem (List.mem_of_getLast? hlast)
  rcases hend with ⟨-, rfl⟩ | ⟨g, hinv, rfl⟩
  · simp at hstamp
  · have hlt : s < t.commit.clock := hversion ▸ hinv.living.logged stamp hstamp
    obtain ⟨ticket, hticket, rfl⟩ := announced_live how (t := t) (by rw [htr]; rfl) s
    have hinv₁ := announced_inv how hinv ticket.1
    have hclock : (how.apply t ticket.1).commit = t.commit := by cases how <;> rfl
    have hheap : (how.apply t ticket.1).heap = t.heap := by cases how <;> rfl
    have hnext : (how.apply t ticket.1).nextBlock = t.nextBlock := by cases how <;> rfl
    have hroot : (how.apply t ticket.1).rootFor ticket.1 = t.rootFor ticket.1 := by cases how <;> rfl
    obtain ⟨t', rs', g', hrun', hinv', hintact, -⟩ := runWrites_performed hc ops' _ g hinv₁
      (by cases how <;> exact hflag)
    obtain ⟨halike, hsame, hreach⟩ := Steady.alike hinv₁ hinv'
      (Intact.steady hintact (announced_of_live hticket) (by rw [hclock]; exact hlt))
    rw [hroot] at hsame hreach
    rw [hheap, hnext] at halike
    rw [hnext] at hreach
    refine ⟨t', rs', hrun', dispatchPoint_alike halike hsame hreach,
      fun range fuel calls => dispatchRange_alike halike hsame hreach fuel calls range, ?_⟩
    intro hnewest
    have hread := readable_newest hinv hnewest.ge
    refine ⟨fun key => by rw [dispatchPoint_reference hinv hread]; rfl, fun lo hi => ?_⟩
    obtain ⟨bound, t₂, found, hrange, hexact⟩ := dispatchRange_exact hinv hread lo hi
      (.inl (liveAt_absent (hreplay.key_absent hops (by simp)) _))
    exact ⟨bound, found, hexact, fun fuel calls hf hcalls => by rw [hrange fuel calls hf hcalls]; rfl⟩

/-- A pin on the first version, followed by the deletion of its record. -/
theorem pinned_first_version_survives :
    ∃ t t' rs', runWrites ⟨125, 125, u64Space⟩ (enableGc (make (fun _ => .next) 1 0) false)
        ([.insert 7 70] : List (WriteOperation UInt64 ℕ)) = .ok (t, [.inserted 1]) ∧
      runWrites ⟨125, 125, u64Space⟩ (pinReader t 1) [.delete 7] = .ok (t', rs') ∧
      (∀ key, (dispatchPoint t' key 1).map Prod.snd = (dispatchPoint t key 1).map Prod.snd) ∧
      ∀ range fuel calls,
        (dispatchRange ⟨125, 125, u64Space⟩ fuel calls t' range 1).map Prod.snd =
          (dispatchRange ⟨125, 125, u64Space⟩ fuel calls t range 1).map Prod.snd := by
  obtain ⟨t, rs, log, hrun, -, h⟩ := announced_snapshot_survives
    (roomy_of_capacity (.inl rfl) u64Space) (fun _ => .next) 1 0
    ([.insert 7 70] : List (WriteOperation UInt64 ℕ)) [.delete 7]
    (fun payload hmem => by
      simp only [List.mem_singleton, WriteOperation.insert.injEq] at hmem
      exact absurd hmem.1 (by decide)) .pin 1
  have hanswers : (runWrites ⟨125, 125, u64Space⟩ (enableGc (make (fun _ => .next) 1 0) false)
      ([.insert 7 70] : List (WriteOperation UInt64 ℕ))).map Prod.snd = .ok [.inserted 1] := by
    decide
  rw [hrun] at hanswers
  cases hanswers
  obtain ⟨t', rs', hrun', hpoint, hrange, -⟩ := h rfl
  exact ⟨t, t', rs', hrun, hrun', hpoint, hrange⟩

end CMVBT.PinnedSnapshot
