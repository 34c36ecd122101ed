import CMVBT.ChildRepair

/-!
# Replacing the root

`split_root` and `merge_root` replace the topmost block that carries the keys:
the root itself when it is full, its last child when no other one is left. The
old root stays in the index for the versions before the step.
-/
namespace CMVBT.RootRewrite
open KeyInterval FenceTiling VersionedLog PageModel FrugalList CommitClock Tracker CMVBT.Tree
open BlockSupply
open WritePath ReadPath DirectoryHistory LeafHistory TreeInvariant PageRewrite NewPages
open Reorganization ParentRewrite ChildRepair

variable {K P : Type} [LinearOrder K]

/-- Block `c` covers all keys, and every living block outside `dead` is below it. -/
structure Topmost (cfg : Config K) (t : MVBTSt K P) (g : Ghost K P) (c : ℕ) (dead : List ℕ) :
    Prop where
  used : c < t.nextBlock
  alive : (g.life c).death = none
  fence : (g.life c).fence = cfg.keys.full
  root_mem : t.currentRoot.1 ∈ dead
  self_mem : c ∈ dead
  dead_alive : ∀ b ∈ dead, b < t.nextBlock ∧ (g.life b).death = none ∧
    (g.life c).level ≤ (g.life b).level
  below : ∀ b < t.nextBlock, (g.life b).death = none → b ∉ dead →
    (g.life b).level < (g.life c).level
  children : (t.heap c).isLeaf = false → 2 ≤ (t.heap c).activeDeadCount.1

section Topmost
variable {cfg : Config K} {t t' : MVBTSt K P} {g : Ghost K P} {c : ℕ} {dead : List ℕ}
  {news : List (ℕ × Life K)}

theorem Topmost.link_renew (ht : Topmost cfg t g c dead) (h : Living cfg t g)
    {bs : List (ℕ × Node K P)} {buried : List ℕ} (hs : Smo t t' bs none buried)
    (hnews : ∀ x ∈ news, ∃ y ∈ bs, y.1 = x.1) {w : ℕ} {e : Entry K}
    (hl : Link g.life t.nextBlock (g.life c).level e) :
    Link (renew g.life w news dead) t'.nextBlock (g.life c).level e := by
  refine hs.link_renew h hnews hl ?_
  intro hd
  obtain ⟨-, -, hle⟩ := ht.dead_alive _ hd
  obtain ⟨-, below, hlevel, hlife⟩ := hl
  rw [hlife] at hle
  simp only at hle
  omega

/-- The side conditions that are left when the topmost block is replaced. -/
theorem Topmost.reorg (ht : Topmost cfg t g c dead) (h : Living cfg t g)
    (hs : Smo t t' (news.map (fun x => (x.1, t'.heap x.1))) none [c])
    (hfresh : ∀ x ∈ news, x.2.birth = t.commit.clock ∧ x.2.death = none ∧ x.2.fence.Proper ∧
      FreshInv cfg t.commit.clock g.log
        (Link (renew g.life t.commit.clock news dead) t'.nextBlock) x.2.level x.2.fence
        (t'.heap x.1))
    (hnew : ∀ x ∈ news, ∀ y ∈ news, x.2.level = y.2.level → x.1 ≠ y.1 →
      x.2.fence.Disjoint y.2.fence)
    (hfilled : ∀ x ∈ news, x.1 ≠ t'.currentRoot.1 →
      filling20Percent cfg (t'.heap x.1) ≤ (t'.heap x.1).activeDeadCount.1)
    (hlevel : ∀ x ∈ news, (g.life c).level ≤ x.2.level ∧ x.2.level ≤ t'.currentRoot.2)
    (hroot : (t'.currentRoot.1, ⟨cfg.keys.full, t'.currentRoot.2, t.commit.clock, none⟩) ∈ news)
    (hchild : (t'.heap t'.currentRoot.1).isLeaf = false →
      1 ≤ (t'.heap t'.currentRoot.1).activeDeadCount.1) :
    Reorg cfg t g t' news none dead := by
  have hnd : (news.map Prod.fst).Nodup := by
    have := hs.nodup
    rwa [List.map_map] at this
  refine
    { smo := ⟨[c], hs, by simpa using ht.self_mem⟩
      fresh := hfresh
      dead_alive := fun b hb => ⟨(ht.dead_alive b hb).1, (ht.dead_alive b hb).2.1⟩
      parent := fun x hx => by cases hx
      orphans := ?_
      new_new := hnew
      new_old := ?_
      filled_new := hfilled
      filled_par := fun x hx => by cases hx
      root_kept := .inl ht.root_mem
      root_lt := (hs.next _).mpr (.inr ⟨_, List.mem_map_of_mem hroot, rfl⟩)
      root_life := ⟨t.commit.clock, renew_new hnd hroot⟩
      root_child := hchild
      level_new := fun x hx => (hlevel x hx).2
      level_old := ?_ }
  · intro b hb halive hd _ p hp e he ha hmem
    obtain ⟨i, hi⟩ := List.mem_iff_getElem?.mp he
    have hx : Child t g b i p e := ⟨hb, halive, hp, hi, ha⟩
    obtain ⟨-, -, hlevel⟩ := hx.child_life h
    have h₁ := ht.below b hb halive hd
    have h₂ := (ht.dead_alive _ hmem).2.2
    omega
  · intro x hx b hb halive hd heq
    have h₁ := ht.below b hb halive hd
    have h₂ := (hlevel x hx).1
    omega
  · intro b hb halive hd
    have h₁ := ht.below b hb halive hd
    have h₂ := hlevel _ hroot
    simp only at h₂
    omega

end Topmost

/-- A root that the write descent may start at. -/
def RootReady (cfg : Config K) (n : Node K P) : Prop :=
  n.activeDeadCount.1 + n.activeDeadCount.2 < overflowUnitsCount cfg n ∧
    (n.isLeaf = false → 2 ≤ n.activeDeadCount.1)

/-- The state after the root was replaced. -/
structure Rerooted (cfg : Config K) (t : MVBTSt K P) (g : Ghost K P) (t' : MVBTSt K P)
    (g' : Ghost K P) : Prop where
  inv : Inv cfg t' g'
  advance : Advance t g t' g'
  log : g'.log = g.log
  ready : RootReady cfg (t'.heap t'.currentRoot.1)

/-- The root gave way to fresh blocks, at the version `t.commit.clock`. Of the blocks
in `dead` only `c` went to the graveyard. -/
structure Replanted (cfg : Config K) (t : MVBTSt K P) (g : Ghost K P) (c : ℕ) (dead : List ℕ)
    (t' : MVBTSt K P) (news : List (ℕ × Life K)) : Prop where
  reorg : Reorg cfg t g t' news none dead
  smo : Smo t t' (news.map (fun x => (x.1, t'.heap x.1))) none [c]
  chain : Chain t'.root ((t'.currentRoot, t.commit.clock) :: g.roots)
  birth : (renew g.life t.commit.clock news dead t'.currentRoot.1).birth = t.commit.clock
  ready : RootReady cfg (t'.heap t'.currentRoot.1)
  safe : ∀ x ∈ news, x.1 ≠ t'.currentRoot.1 → unsafeDegree cfg (t'.heap x.1) = .ok

section SplitRoot
variable {cfg : Config K} {t : MVBTSt K P} {g : Ghost K P} {c : ℕ} {dead : List ℕ}

theorem Replanted.rerooted {t' : MVBTSt K P} {news : List (ℕ × Life K)}
    (hr : Replanted cfg t g c dead t' news) (h : Inv cfg t g) : ∃ g', Rerooted cfg t g t' g' := by
  have hadv := hr.reorg.advance (.inr ⟨hr.chain, rfl, hr.birth⟩)
  exact ⟨_, hadv.inv h (hr.reorg.living h.living _), hadv, rfl, hr.ready⟩

omit [LinearOrder K] in
theorem appendRoot_ok {roots : List ((ℕ × ℕ) × ℕ)} (hchain : Chain t.root roots) {v : ℕ}
    (hlt : ∀ x ∈ roots, x.2 < v) (b height : ℕ) :
    ∃ t', t.appendRoot b v height = .ok t' ∧ Chain t'.root (((b, height), v) :: roots) ∧
      t'.currentRoot = (b, height) ∧ t'.heap = t.heap := by
  obtain ⟨n, hn, hc⟩ := hchain.append (p := (b, height)) hlt (t.tosses 0)
  refine ⟨{ t with root := n, tosses := fun i => t.tosses (i + 1) }, ?_, hc, ?_, rfl⟩
  · simp only [MVBTSt.appendRoot, hn, bind, Except.bind, pure, Except.pure]
  · obtain ⟨rest, hrest⟩ := hc.head
    exact (Prod.mk.inj (List.cons.inj hrest).1).1.symm

theorem splitRoot_byVersion (h : Inv cfg t g) (hc : Roomy cfg) (ht : Topmost cfg t g c dead)
    {t₁ : MVBTSt K P} {fresh : ℕ}
    (hsplit : split cfg t c cfg.keys.full = .ok (t₁, .byVersion fresh))
    (hpieces : Pieces cfg t t₁ g (g.life c).level (· ∈ cfg.keys.full) [(cfg.keys.full, fresh)])
    (hsmall : (t.heap c).activeDeadCount.1 < filling80Percent cfg (t.heap c))
    (hcount : (t₁.heap fresh).activeDeadCount = ((t.heap c).activeDeadCount.1, 0))
    (hleaf : (t₁.heap fresh).isLeaf = (t.heap c).isLeaf) :
    ∃ t' news, splitRoot cfg t c (g.life c).level = .ok (t', t'.currentRoot.1) ∧
      Replanted cfg t g c dead t' news := by
  have hbuilt := hpieces.built
  have hclock : t₁.startTxCommit.2 = t.commit.clock := hbuilt.frame.clock
  have hchain : Chain t₁.startTxCommit.1.root g.roots := by
    rw [show t₁.startTxCommit.1.root = t₁.root from rfl, hbuilt.frame.root]
    exact h.timeline.chain
  obtain ⟨t₂, happ, hchain', hroot, hheap⟩ :=
    appendRoot_ok hchain h.timeline.roots_lt fresh (g.life c).level
  have hsmo := (((Smo.start hbuilt).append_root happ).end_commit t.commit.clock).bury ht.used
    (h.living.not_buried ht.alive) (by simp)
  have hfresh : t₂.heap fresh = t₁.heap fresh := by rw [hheap]; rfl
  generalize ht' : (t₂.endTxCommit t.commit.clock).registerDead t.commit.clock c = t' at hsmo
  have hroot' : t'.currentRoot = (fresh, (g.life c).level) := by rw [← ht']; exact hroot
  have hheap' : t'.heap fresh = t₁.heap fresh := by rw [← ht']; exact hfresh
  have hready : RootReady cfg (t'.heap fresh) := by
    rw [hheap']
    refine ⟨?_, fun hl => ?_⟩
    · have h₁ := hc.fanOut_ge
      have h₂ := hc.numRecords_ge
      rw [hcount]
      simp only [filling80Percent, maxUnits, overflowUnitsCount, hleaf] at hsmall ⊢
      split_ifs at hsmall ⊢ <;> omega
    · rw [hcount]
      exact ht.children (hleaf ▸ hl)
  have hsmo' : Smo t t' ([(fresh, (⟨cfg.keys.full, (g.life c).level, t.commit.clock, none⟩ :
      Life K))].map (fun x => (x.1, t'.heap x.1))) none [c] := by simpa [hheap'] using hsmo
  have hreorg : Reorg cfg t g t' [(fresh, ⟨cfg.keys.full, (g.life c).level, t.commit.clock, none⟩)]
      none dead := by
    refine ht.reorg h.living hsmo' ?_ (by simp) (by simp [hroot'])
      (by simp [hroot']) (by simp [hroot']) ?_
    · intro x hx
      obtain rfl := List.mem_singleton.mp hx
      refine ⟨rfl, rfl, cfg.keys.full_proper, ?_⟩
      rw [hheap']
      refine (hpieces.fresh _ (List.mem_singleton_self _)).mono (fun e hl => ?_)
      exact ht.link_renew h.living hsmo (by simp) hl
    · intro hl
      rw [hroot'] at hl ⊢
      have := hready.2 hl
      simp only
      omega
  have hbirth : (renew g.life t.commit.clock
      [(fresh, ⟨cfg.keys.full, (g.life c).level, t.commit.clock, none⟩)] dead
      t'.currentRoot.1).birth = t.commit.clock := by
    rw [hroot']
    exact congrArg Life.birth (renew_new hreorg.nodup (List.mem_singleton_self _))
  refine ⟨t', _, ?_, hreorg, hsmo', by rw [hroot', ← ht']; exact hchain', hbirth,
    by rw [hroot']; exact hready, by simp [hroot']⟩
  simp only [splitRoot, hsplit, bind, Except.bind]
  rw [hclock, happ, hroot', ← ht']
  rfl

/-- The directory above two fresh halves. -/
theorem freshInv_newRoot (hc : Roomy cfg) {w level : ℕ} {log : Log K P}
    {link : ℕ → Entry K → Prop} {f : Interval K} {xs : NewLinks K} (hlevel : 1 < level)
    (hlen : xs.length = 2) (hproper : ∀ x ∈ xs, x.1.Proper)
    (hdisjoint : xs.Pairwise (fun x y => x.1.Disjoint y.1))
    (hcover : ∀ k, (∃ x ∈ xs, k ∈ x.1) ↔ k ∈ f) (hlink : ∀ e ∈ freshEntries w xs, link level e) :
    FreshInv cfg w log link level f
        (.internal (swappedPage Page.new w xs [] 2 0) : Node K P) ∧
      (swappedPage Page.new w xs [] 2 0).activeDeadCount = (2, 0) := by
  have hge := hc.fanOut_ge
  have hactive : ∀ e ∈ freshEntries w xs, PageUnit.isActive e = true := by
    intro e he
    obtain ⟨x, -, rfl⟩ := List.mem_map.mp he
    rfl
  have hcountA : (freshEntries w xs).countP PageUnit.isActive = 2 := by
    rw [List.countP_eq_length.mpr hactive]
    simp [freshEntries, hlen]
  have hcountD : (freshEntries w xs).countP (fun u => !PageUnit.isActive u) = 0 := by
    rw [List.countP_eq_zero]
    intro e he
    simp [hactive e he]
  have hcounted : (swappedPage Page.new w xs [] 2 0).Counted cfg.fanOut := by
    refine (Page.new_counted (α := Entry K) hc.fanOut_lt).commit ?_ ?_ ?_
    · simp [markAll, Page.new, freshEntries, hlen]
      omega
    · simp [markAll, Page.new, hcountA]
    · simp [markAll, Page.new, hcountD]
  refine ⟨⟨hlevel, hcounted, ?_, ?_, ?_⟩, ?_⟩
  · intro e he
    obtain ⟨x, -, rfl⟩ := List.mem_map.mp he
    exact ⟨rfl, le_rfl⟩
  · refine ⟨?_, ?_, hlink, List.pairwise_map.mpr hdisjoint, ?_⟩
    · intro e he
      obtain ⟨x, hx, rfl⟩ := List.mem_map.mp he
      exact hproper x hx
    · intro e he k hk
      obtain ⟨x, hx, rfl⟩ := List.mem_map.mp he
      exact (hcover k).mp ⟨x, hx, hk⟩
    · intro k hk _
      obtain ⟨x, hx, hkx⟩ := (hcover k).mpr hk
      exact ⟨_, List.mem_map_of_mem hx, hkx⟩
  · refine InVersionOrder.append (w := w) List.Pairwise.nil (List.forall_mem_nil _) ?_
    intro e he
    obtain ⟨x, -, rfl⟩ := List.mem_map.mp he
    rfl
  · simp only [Page.activeDeadCount, hcounted.active, hcounted.dead]
    exact Prod.ext (by simpa [swappedPage, markAll, Page.new] using hcountA)
      (by simpa [swappedPage, markAll, Page.new] using hcountD)

theorem splitRoot_byKey (h : Inv cfg t g) (hc : Roomy cfg) (ht : Topmost cfg t g c dead)
    {t₁ : MVBTSt K P} {lf rf : Interval K} {l r : ℕ}
    (hsplit : split cfg t c cfg.keys.full = .ok (t₁, .byKey lf l rf r))
    (hpieces : Pieces cfg t t₁ g (g.life c).level (· ∈ cfg.keys.full) [(lf, l), (rf, r)])
    (hl : unsafeDegree cfg (t₁.heap l) = .ok) (hr : unsafeDegree cfg (t₁.heap r) = .ok) :
    ∃ t' news, splitRoot cfg t c (g.life c).level = .ok (t', t'.currentRoot.1) ∧
      Replanted cfg t g c dead t' news := by
  have hlevel : 1 ≤ (g.life c).level := by
    have := h.living.node c ht.used
    cases hn : t.heap c with
    | leaf p => rw [hn] at this; exact this.1.ge
    | internal p => rw [hn] at this; exact this.1.le
  cases hal : t₁.allocBlock false with
  | mk t₂ n =>
    have hbuilt := hpieces.built.alloc hal
    have hnodup := hbuilt.nodup
    simp only [List.map_cons, List.map_nil, List.cons_append, List.nil_append, List.nodup_cons,
      List.mem_cons, List.not_mem_nil, or_false, not_or] at hnodup
    obtain ⟨⟨hlr, hln⟩, hrn, -⟩ := hnodup
    have hclock : t₂.startTxCommit.2 = t.commit.clock := hbuilt.frame.clock
    have hrep : replaceEntries cfg t₂.startTxCommit.1 n
        (freshEntries t.commit.clock [(lf, l), (rf, r)]) 2 0 [] = .ok (t₂.startTxCommit.1.setNode n
          (.internal (swappedPage Page.new t.commit.clock [(lf, l), (rf, r)] [] 2 0))) := by
      have hge := hc.fanOut_ge
      refine replaceEntries_eq (p := Page.new) ?_ (Page.new_counted hc.fanOut_lt) ?_ (by simp)
      · exact hbuilt.heap_new (n, freshNode false) (by simp)
      · simp [Page.new]
        omega
    have hsmo₁ := (Smo.start hbuilt).fill_last
      (.internal (swappedPage Page.new t.commit.clock [(lf, l), (rf, r)] [] 2 0))
    have hchain : Chain (t₂.startTxCommit.1.setNode n (.internal (swappedPage Page.new
        t.commit.clock [(lf, l), (rf, r)] [] 2 0))).root g.roots := by
      change Chain t₂.root g.roots
      rw [hbuilt.frame.root]
      exact h.timeline.chain
    obtain ⟨t₃, happ, hchain', hroot, hheap⟩ :=
      appendRoot_ok hchain h.timeline.roots_lt n ((g.life c).level + 1)
    have hsmo := ((hsmo₁.append_root happ).end_commit t.commit.clock).bury ht.used
      (h.living.not_buried ht.alive) (by simp)
    generalize ht' : (t₃.endTxCommit t.commit.clock).registerDead t.commit.clock c = t' at hsmo
    have hroot' : t'.currentRoot = (n, (g.life c).level + 1) := by rw [← ht']; exact hroot
    have hheapl : t'.heap l = t₁.heap l := hsmo.heap_new (l, t₁.heap l) (by simp)
    have hheapr : t'.heap r = t₁.heap r := hsmo.heap_new (r, t₁.heap r) (by simp)
    have hheapn : t'.heap n =
        .internal (swappedPage Page.new t.commit.clock [(lf, l), (rf, r)] [] 2 0) :=
      hsmo.heap_new (n, _) (by simp)
    -- the lives of the two halves and of the directory above them
    obtain ⟨news, hnews⟩ : ∃ news : List (ℕ × Life K), news =
        [(l, ⟨lf, (g.life c).level, t.commit.clock, none⟩),
          (r, ⟨rf, (g.life c).level, t.commit.clock, none⟩),
          (n, ⟨cfg.keys.full, (g.life c).level + 1, t.commit.clock, none⟩)] := ⟨_, rfl⟩
    have hnd : (news.map Prod.fst).Nodup := by simp [hnews, hlr, hln, hrn]
    have hlink : ∀ e ∈ freshEntries t.commit.clock [(lf, l), (rf, r)],
        Link (renew g.life t.commit.clock news dead) t'.nextBlock ((g.life c).level + 1) e := by
      intro e he
      obtain ⟨x, hx, rfl⟩ := List.mem_map.mp he
      have hmem : (x.2, (⟨x.1, (g.life c).level, t.commit.clock, none⟩ : Life K)) ∈ news := by
        rw [hnews]
        rcases List.mem_cons.mp hx with rfl | hx
        · simp
        · obtain rfl := List.mem_singleton.mp hx
          simp
      refine ⟨(hsmo.next _).mpr (.inr ?_), _, rfl, renew_new hnd hmem⟩
      rcases List.mem_cons.mp hx with rfl | hx
      · exact ⟨(l, t₁.heap l), by simp, rfl⟩
      · obtain rfl := List.mem_singleton.mp hx
        exact ⟨(r, t₁.heap r), by simp, rfl⟩
    obtain ⟨hfreshn, hcountn⟩ := freshInv_newRoot (f := cfg.keys.full)
      hc (show 1 < (g.life c).level + 1 by omega) rfl hpieces.proper
      hpieces.disjoint hpieces.cover hlink
    have hready : RootReady cfg (t'.heap n) := by
      have hge := hc.fanOut_ge
      rw [hheapn]
      simp only [RootReady, Node.activeDeadCount, hcountn, overflowUnitsCount, Node.isLeaf]
      exact ⟨by simp; omega, fun _ => le_rfl⟩
    have hpiece : ∀ x ∈ [(lf, l), (rf, r)], x.1.Proper ∧ FreshInv cfg t.commit.clock g.log
        (Link (renew g.life t.commit.clock news dead) t'.nextBlock) (g.life c).level x.1
        (t₁.heap x.2) := by
      intro x hx
      refine ⟨hpieces.proper x hx, (hpieces.fresh x hx).mono (fun e hle => ?_)⟩
      refine ht.link_renew h.living hsmo ?_ hle
      simp [hnews]
    have hsmo' : Smo t t' (news.map (fun x => (x.1, t'.heap x.1))) none [c] := by
      simpa [hnews, hheapl, hheapr, hheapn] using hsmo
    have hreorg : Reorg cfg t g t' news none dead := by
      refine ht.reorg h.living hsmo' ?_ ?_ ?_ ?_ (by simp [hnews, hroot']) ?_
      · simp only [hnews, List.mem_cons, List.not_mem_nil, or_false]
        rintro x (rfl | rfl | rfl)
        · rw [hnews] at hpiece
          exact ⟨rfl, rfl, (hpiece (lf, l) (by simp)).1, hheapl ▸ (hpiece (lf, l) (by simp)).2⟩
        · rw [hnews] at hpiece
          exact ⟨rfl, rfl, (hpiece (rf, r) (by simp)).1, hheapr ▸ (hpiece (rf, r) (by simp)).2⟩
        · rw [hnews] at hfreshn
          exact ⟨rfl, rfl, cfg.keys.full_proper, hheapn ▸ hfreshn⟩
      · have hd := List.pairwise_pair.mp hpieces.disjoint
        simp only [hnews, List.mem_cons, List.not_mem_nil, or_false]
        rintro x (rfl | rfl | rfl) y (rfl | rfl | rfl) hlv hne
        · exact absurd rfl hne
        · exact hd
        · simp at hlv
        · exact hd.symm
        · exact absurd rfl hne
        · simp at hlv
        · simp at hlv
        · simp at hlv
        · exact absurd rfl hne
      · simp only [hnews, List.mem_cons, List.not_mem_nil, or_false]
        rintro x (rfl | rfl | rfl) hne
        · simp only [hheapl]
          exact (filled_of_ok hl).1.le
        · simp only [hheapr]
          exact (filled_of_ok hr).1.le
        · exact absurd (by rw [hroot']) hne
      · simp [hnews, hroot']
      · intro hleaf
        rw [hroot'] at hleaf ⊢
        have := hready.2 hleaf
        simp only
        omega
    have hbirth : (renew g.life t.commit.clock news dead t'.currentRoot.1).birth =
        t.commit.clock := by
      rw [hroot']
      exact congrArg Life.birth (renew_new hnd (x := (n, ⟨cfg.keys.full, (g.life c).level + 1,
        t.commit.clock, none⟩)) (by simp [hnews]))
    have hsafe : ∀ x ∈ news, x.1 ≠ t'.currentRoot.1 → unsafeDegree cfg (t'.heap x.1) = .ok := by
      simp only [hnews, List.mem_cons, List.not_mem_nil, or_false]
      rintro x (rfl | rfl | rfl) hne
      · simpa only [hheapl] using hl
      · simpa only [hheapr] using hr
      · exact absurd (by rw [hroot']) hne
    refine ⟨t', news, ?_, hreorg, hsmo', by rw [hroot', ← ht']; exact hchain', hbirth,
      by rw [hroot']; exact hready, hsafe⟩
    have hrep' : replaceEntries cfg t₂.startTxCommit.1 n
        [.new lf t.commit.clock l, .new rf t.commit.clock r] 2 0 [] = _ := hrep
    simp only [splitRoot, hsplit, bind, Except.bind, hal]
    rw [hclock, hrep']
    simp only [happ, hroot', pure, Except.pure, ht']

theorem splitRoot_replanted (h : Inv cfg t g) (hc : Roomy cfg) (ht : Topmost cfg t g c dead) :
    ∃ t' news, splitRoot cfg t c (g.life c).level = .ok (t', t'.currentRoot.1) ∧
      Replanted cfg t g c dead t' news := by
  obtain ⟨t₁, s, hsplit, hpieces, hout⟩ := split_pieces h.living hc ht.used ht.alive
  rw [ht.fence] at hsplit hpieces
  cases hout with
  | byKey hl hr => exact splitRoot_byKey h hc ht hsplit hpieces hl hr
  | byVersion hsmall hcount hleaf =>
    exact splitRoot_byVersion h hc ht hsplit hpieces hsmall hcount hleaf

end SplitRoot

section Retrieve
variable {cfg : Config K} {t : MVBTSt K P} {g : Ghost K P}

/-- No other living block is on the level of one that covers all keys. -/
theorem eq_of_full (h : Living cfg t g) {b c : ℕ} (hb : b < t.nextBlock) (hc : c < t.nextBlock)
    (hbl : (g.life b).death = none) (hcl : (g.life c).death = none)
    (hfull : (g.life c).fence = cfg.keys.full) (hlevel : (g.life b).level = (g.life c).level) :
    b = c := by
  by_contra hne
  have hd := h.disjoint b hb c hc hbl hcl hlevel hne
  rw [hfull] at hd
  exact hd _ (h.born b hb).1.lower_mem (cfg.keys.mem_full _)

theorem topmost_root (h : Living cfg t g)
    (hdeg : unsafeDegreeRoot cfg (t.heap t.currentRoot.1) = .overflow) :
    Topmost cfg t g t.currentRoot.1 [t.currentRoot.1] := by
  obtain ⟨birth, hlife⟩ := h.root_life
  have halive : (g.life t.currentRoot.1).death = none := by rw [hlife]
  have hfence : (g.life t.currentRoot.1).fence = cfg.keys.full := by rw [hlife]
  have hlevel : (g.life t.currentRoot.1).level = t.currentRoot.2 := by rw [hlife]
  refine ⟨h.root_lt, halive, hfence, by simp, by simp, ?_, ?_, ?_⟩
  · intro b hb
    obtain rfl := List.mem_singleton.mp hb
    exact ⟨h.root_lt, halive, le_rfl⟩
  · intro b hb hbl hne
    have hle := h.level_le b hb hbl
    by_contra hge
    refine hne (List.mem_singleton.mpr (eq_of_full h hb h.root_lt hbl halive hfence ?_))
    omega
  · intro hleaf
    have hone := h.root_child hleaf
    simp only [unsafeDegreeRoot] at hdeg
    split_ifs at hdeg with h₁ h₂
    simp only [hleaf, and_true] at h₁
    omega

/-- The last child of a root that has no other one. -/
theorem topmost_child (h : Living cfg t g) (hc : Roomy cfg)
    (hdeg : unsafeDegreeRoot cfg (t.heap t.currentRoot.1) = .activeUnderflow) :
    ∃ p e, t.heap t.currentRoot.1 = .internal p ∧ p.units[p.sumLen - 1]? = some e ∧
      (g.life e.pointer).level = t.currentRoot.2 - 1 ∧
      Topmost cfg t g e.pointer [e.pointer, t.currentRoot.1] := by
  obtain ⟨birth, hlife⟩ := h.root_life
  have halive : (g.life t.currentRoot.1).death = none := by rw [hlife]
  have hfence : (g.life t.currentRoot.1).fence = cfg.keys.full := by rw [hlife]
  have hlevel : (g.life t.currentRoot.1).level = t.currentRoot.2 := by rw [hlife]
  have hone : (t.heap t.currentRoot.1).activeDeadCount.1 = 1 ∧
      (t.heap t.currentRoot.1).isLeaf = false := by
    simp only [unsafeDegreeRoot] at hdeg
    split_ifs at hdeg with h₁
    exact h₁
  have hnode := h.node _ h.root_lt
  cases hp : t.heap t.currentRoot.1 with
  | leaf p => simp [hp, Node.isLeaf] at hone
  | internal p =>
    rw [hp] at hnode hone
    obtain ⟨hlv, hdir⟩ := hnode
    have hactive : (p.units.filter PageUnit.isActive).length = 1 := by
      rw [← List.countP_eq_length_filter, ← hdir.counted.active]
      exact hone.1
    have hne : p.units ≠ [] := by
      rintro hnil
      simp [hnil] at hactive
    have hsplit := List.dropLast_append_getLast hne
    obtain ⟨e, he⟩ : ∃ e, p.units.getLast hne = e := ⟨_, rfl⟩
    rw [he] at hsplit
    have hlast : p.units[p.sumLen - 1]? = some e := by
      rw [hdir.counted.sumLen, ← List.getLast?_eq_getElem?, List.getLast?_eq_some_getLast hne, he]
    have ha : PageUnit.isActive e = true :=
      last_active (fun e he => ⟨(hdir.inside e he).1, (hdir.inside e he).2.1⟩) (hdir.newest halive)
        hsplit.symm
    have hx : Child t g t.currentRoot.1 (p.sumLen - 1) p e :=
      ⟨h.root_lt, halive, hp, hlast, ha⟩
    obtain ⟨hcl, hcf, hcv⟩ := hx.child_life h
    have hclt := (hx.link h).1
    -- the only active entry covers every key
    have hefull : e.fence = cfg.keys.full := by
      have ht := hdir.tiling halive
      rw [hfence] at ht
      obtain ⟨a, hall⟩ := List.length_eq_one_iff.mp hactive
      have hea : e = a := by simpa [hall] using hx.mem
      have hcover : ∀ k, k ∈ e.fence := by
        intro k
        obtain ⟨u, hu, hk⟩ := ht.complete k (cfg.keys.mem_full k) trivial
        rw [hall, List.mem_singleton, ← hea] at hu
        rwa [← hu]
      have h₁ := (hcover cfg.keys.minKey).1
      have h₂ := (hcover cfg.keys.maxKey).2
      cases hf : e.fence with
      | mk lo up =>
        rw [hf] at h₁ h₂
        have hlo : lo = cfg.keys.minKey := le_antisymm h₁ (cfg.keys.min_le lo)
        have hup : up = cfg.keys.maxKey := le_antisymm (cfg.keys.le_max up) h₂
        rw [KeySpace.full, hlo, hup]
    refine ⟨p, e, rfl, hlast, by omega, hclt, hcl, hcf.trans hefull, by simp, by simp, ?_, ?_, ?_⟩
    · intro b hb
      rcases List.mem_cons.mp hb with rfl | hb
      · exact ⟨hclt, hcl, le_rfl⟩
      · obtain rfl := List.mem_singleton.mp hb
        exact ⟨h.root_lt, halive, by omega⟩
    · intro b hb hbl hnb
      simp only [List.mem_cons, List.not_mem_nil, or_false, not_or] at hnb
      have hle := h.level_le b hb hbl
      by_contra hge
      by_cases hlb : (g.life b).level = t.currentRoot.2
      · exact hnb.2 (eq_of_full h hb h.root_lt hbl halive hfence (hlb.trans hlevel.symm))
      · exact hnb.1 (eq_of_full h hb hclt hbl hcl (hcf.trans hefull) (by omega))
    · intro hleaf
      have hfill := h.filled e.pointer hclt hcl (hx.ne_root h)
      have hge := hc.fanOut_ge
      simp only [filling20Percent, maxUnits, hleaf] at hfill
      simp only [Bool.false_eq_true, if_false] at hfill
      omega

theorem rootReady_of_ok (h : Living cfg t g)
    (hdeg : unsafeDegreeRoot cfg (t.heap t.currentRoot.1) = .ok) :
    RootReady cfg (t.heap t.currentRoot.1) := by
  simp only [unsafeDegreeRoot] at hdeg
  split_ifs at hdeg with h₁ h₂
  refine ⟨not_le.mp h₂, fun hleaf => ?_⟩
  have := h.root_child hleaf
  simp only [hleaf, and_true] at h₁
  omega

theorem retrieveRoot_overflow (h : Inv cfg t g) (hc : Roomy cfg)
    (hdeg : unsafeDegreeRoot cfg (t.heap t.currentRoot.1) = .overflow) :
    ∃ t' news, retrieveRootWriteOlc cfg t = .ok (t', t'.currentRoot.1) ∧
      Replanted cfg t g t.currentRoot.1 [t.currentRoot.1] t' news := by
  obtain ⟨birth, hlife⟩ := h.living.root_life
  obtain ⟨t', news, heq, hr⟩ := splitRoot_replanted h hc (topmost_root h.living hdeg)
  have hlevel : (g.life t.currentRoot.1).level = t.currentRoot.2 := by rw [hlife]
  rw [hlevel] at heq
  exact ⟨t', news, by simp only [retrieveRootWriteOlc, hdeg, heq], hr⟩

/-- A root with a single child gives way to it; its block is not buried. -/
theorem retrieveRoot_collapse (h : Inv cfg t g) (hc : Roomy cfg)
    (hdeg : unsafeDegreeRoot cfg (t.heap t.currentRoot.1) = .activeUnderflow) :
    ∃ c t' news, retrieveRootWriteOlc cfg t = .ok (t', t'.currentRoot.1) ∧
      c ≠ t.currentRoot.1 ∧ Replanted cfg t g c [c, t.currentRoot.1] t' news := by
  obtain ⟨birth, hlife⟩ := h.living.root_life
  obtain ⟨p, e, hp, hlast, hlevel, htop⟩ := topmost_child h.living hc hdeg
  obtain ⟨t', news, heq, hr⟩ := splitRoot_replanted h hc htop
  refine ⟨e.pointer, t', news, ?_, ?_, hr⟩
  · rw [hlevel] at heq
    simp only [retrieveRootWriteOlc, hdeg]
    simp only [mergeRoot, MVBTSt.asInternalPage, getPointer, hp, bind, Except.bind, hlast, pure,
      Except.pure, heq]
  · intro hself
    have hnode := h.living.node _ h.living.root_lt
    rw [hp] at hnode
    have hone := hnode.1
    rw [hself, hlife] at hlevel
    rw [hlife] at hone
    simp only at hlevel hone
    omega

/-- The root that a write starts at. -/
theorem retrieveRoot_ready (h : Inv cfg t g) (hc : Roomy cfg) :
    ∃ t' g', retrieveRootWriteOlc cfg t = .ok (t', t'.currentRoot.1) ∧ Inv cfg t' g' ∧
      Intact t g t' g' ∧ g'.log = g.log ∧ RootReady cfg (t'.heap t'.currentRoot.1) := by
  cases hdeg : unsafeDegreeRoot cfg (t.heap t.currentRoot.1) with
  | ok =>
    exact ⟨t, g, by simp only [retrieveRootWriteOlc, hdeg], h, .refl t g, rfl,
      rootReady_of_ok h.living hdeg⟩
  | overflow =>
    obtain ⟨t', news, heq, hr⟩ := retrieveRoot_overflow h hc hdeg
    obtain ⟨g', hre⟩ := hr.rerooted h
    exact ⟨t', g', heq, hre.inv, hre.advance.intact h.living, hre.log, hre.ready⟩
  | activeUnderflow =>
    obtain ⟨c, t', news, heq, -, hr⟩ := retrieveRoot_collapse h hc hdeg
    obtain ⟨g', hre⟩ := hr.rerooted h
    exact ⟨t', g', heq, hre.inv, hre.advance.intact h.living, hre.log, hre.ready⟩

end Retrieve

end CMVBT.RootRewrite
