import CMVBT.Reorganization

/-!
# Replacing children of a living directory

The four repairs of the write descent (key split, version split, merge and
redistribution of a child) all replace one or two children of a directory by one
or two fresh ones. `Swap` lists what they have in common; a swap preserves the
invariant.
-/
namespace CMVBT.ParentRewrite
open KeyInterval FenceTiling VersionedLog PageModel FrugalList CommitClock Tracker CMVBT.Tree
open BlockSupply
open WritePath ReadPath DirectoryHistory LeafHistory TreeInvariant PageRewrite NewPages
open Reorganization

variable {K P : Type} [LinearOrder K]

/-- The entries that announce fresh blocks at version `w`. -/
def freshEntries (w : ℕ) (xs : NewLinks K) : List (Entry K) :=
  xs.map (fun x => Entry.new x.1 w x.2)

/-- The parent after new entries went in and old ones were marked. -/
def swappedPage (p : InternalPage K) (w : ℕ) (xs : NewLinks K) (index : List ℕ)
    (activeDelta deadDelta : ℤ) : InternalPage K :=
  ⟨commitLen p.len activeDelta deadDelta, markAll index p.units ++ freshEntries w xs⟩

section Writes
variable {cfg : Config K} {t : MVBTSt K P}

omit [LinearOrder K] in
theorem push_all {cap : ℕ} {len : ℕ} {fresh : List (Entry K)} {i : ℕ} {page : InternalPage K}
    (hlen : page.units.length = len + i) (hcap : len + i + fresh.length ≤ cap) :
    (fresh.zipIdx i).foldlM
      (fun page (e, i) => page.pushUncommitted cap e (len + i)) page =
      (.ok { page with units := page.units ++ fresh } : Except Fault (InternalPage K)) := by
  induction fresh generalizing i page with
  | nil => simp [pure, Except.pure]
  | cons e fresh ih =>
    rw [List.length_cons] at hcap
    have hpush : page.pushUncommitted cap e (len + i) =
        .ok { page with units := page.units ++ [e] } := by
      rw [Page.pushUncommitted, if_pos (by omega), ← hlen, List.take_length,
        List.drop_eq_nil_of_le (Nat.le_succ _)]
    rw [List.zipIdx_cons, List.foldlM_cons]
    simp only [hpush, bind, Except.bind]
    have := ih (i := i + 1)
      (show ({ page with units := page.units ++ [e] } : InternalPage K).units.length =
        len + (i + 1) by simp; omega) (by omega)
    simpa using this

omit [LinearOrder K] in
theorem markVersionObsolete_all (dead : List ℕ) (page : InternalPage K) :
    dead.foldl InternalPage.markVersionObsolete page =
      { page with units := markAll dead page.units } := by
  induction dead generalizing page with
  | nil => rfl
  | cons i dead ih =>
    rw [List.foldl_cons, ih]
    rfl

theorem replaceEntries_eq {m w : ℕ} {p : InternalPage K} {xs : NewLinks K} {index : List ℕ}
    {a d : ℤ} (hp : t.heap m = .internal p) (hc : p.Counted cfg.fanOut)
    (hroom : p.units.length + xs.length ≤ cfg.fanOut) (hidx : ∀ i ∈ index, i < p.units.length) :
    replaceEntries cfg t m (freshEntries w xs) a d index =
      .ok (t.setNode m (.internal (swappedPage p w xs index a d))) := by
  have hpush := push_all (i := 0) rfl
    (show p.units.length + 0 + (freshEntries w xs).length ≤ cfg.fanOut by
      simpa [freshEntries] using hroom)
  simp only [replaceEntries, MVBTSt.asInternalPage, hp, bind, Except.bind, hc.sumLen, hpush,
    Page.commitDelta, markVersionObsolete_all, markAll_append hidx, pure, Except.pure]
  rfl

end Writes

/-- Children `es` of the directory `m` at positions `index` give way to `xs`. -/
structure Swap (cfg : Config K) (t : MVBTSt K P) (g : Ghost K P) (t₁ t' : MVBTSt K P) (m : ℕ)
    (p : InternalPage K) (index : List ℕ) (es : List (Entry K)) (level : ℕ) (xs : NewLinks K) :
    Prop where
  index_nodup : index.Nodup
  entries : index.map (p.units[·]?) = es.map some
  some_entry : es ≠ []
  child : ∀ e ∈ es, ∃ i, Child t g m i p e
  level_eq : (g.life m).level = level + 1
  pieces : Pieces cfg t t₁ g level (fun k => ∃ e ∈ es, k ∈ e.fence) xs
  filled : ∀ x ∈ xs, filling20Percent cfg (t₁.heap x.2) ≤ (t₁.heap x.2).activeDeadCount.1
  room : p.units.length + xs.length ≤ cfg.fanOut
  active : if m = t.currentRoot.1 then
      1 + es.length ≤ (p.units.filter PageUnit.isActive).length + xs.length
    else (cfg.fanOut + 4) / 5 + es.length ≤ (p.units.filter PageUnit.isActive).length + xs.length
  smo : Smo t t' (xs.map (fun x => (x.2, t₁.heap x.2)))
    (some (m, .internal (swappedPage p t.commit.clock xs index (xs.length - es.length) es.length)))
    (es.map Entry.pointer)
  root : t'.root = t.root

namespace Swap
variable {cfg : Config K} {t t₁ t' : MVBTSt K P} {g : Ghost K P} {m level : ℕ}
  {p : InternalPage K} {index : List ℕ} {es : List (Entry K)} {xs : NewLinks K}

/-- The lives of the fresh blocks. -/
def news (w level : ℕ) (xs : NewLinks K) : List (ℕ × Life K) :=
  xs.map (fun x => (x.2, ⟨x.1, level, w, none⟩))

/-- The page of the parent after the swap. -/
abbrev page (t : MVBTSt K P) (p : InternalPage K) (index : List ℕ) (es : List (Entry K))
    (xs : NewLinks K) : InternalPage K :=
  swappedPage p t.commit.clock xs index (xs.length - es.length) es.length

theorem some_child (hs : Swap cfg t g t₁ t' m p index es level xs) :
    ∃ i e, e ∈ es ∧ Child t g m i p e := by
  obtain ⟨e, he⟩ := List.exists_mem_of_ne_nil _ hs.some_entry
  obtain ⟨i, hi⟩ := hs.child e he
  exact ⟨i, e, he, hi⟩

theorem dir (hs : Swap cfg t g t₁ t' m p index es level xs) (h : Living cfg t g) :
    m < t.nextBlock ∧ (g.life m).death = none ∧ t.heap m = .internal p ∧
      DirInv cfg.fanOut t.commit.clock (Link g.life t.nextBlock (level + 1)) (g.life m) p := by
  obtain ⟨i, e, -, hx⟩ := hs.some_child
  have hdir := hx.dir h
  rw [hs.level_eq] at hdir
  exact ⟨hx.used, hx.alive, hx.page, hdir⟩

theorem marked (hs : Swap cfg t g t₁ t' m p index es level xs) :
    Marked es p.units (markAll index p.units) := by
  refine markAll_marked hs.index_nodup hs.entries ?_
  intro e he
  obtain ⟨i, hx⟩ := hs.child e he
  exact hx.active

theorem refit (hs : Swap cfg t g t₁ t' m p index es level xs) (w : ℕ) :
    Refit es (freshEntries w xs) where
  proper e he := by
    obtain ⟨x, hx, rfl⟩ := List.mem_map.mp he
    exact hs.pieces.proper x hx
  disjoint := List.pairwise_map.mpr hs.pieces.disjoint
  cover k := by
    rw [← hs.pieces.cover k]
    constructor
    · rintro ⟨e, he, hk⟩
      obtain ⟨x, hx, rfl⟩ := List.mem_map.mp he
      exact ⟨x, hx, hk⟩
    · rintro ⟨x, hx, hk⟩
      exact ⟨_, List.mem_map_of_mem hx, hk⟩
  active e he := by
    obtain ⟨x, -, rfl⟩ := List.mem_map.mp he
    rfl

/-- A replaced child and its life. -/
theorem dead_life (hs : Swap cfg t g t₁ t' m p index es level xs) (h : Living cfg t g) {e : Entry K}
    (he : e ∈ es) : e.pointer < t.nextBlock ∧ g.life e.pointer = ⟨e.fence, level, e.version, none⟩ := by
  obtain ⟨i, hx⟩ := hs.child e he
  obtain ⟨hlt, below, hlevel, hlife⟩ := hx.link h
  rw [hs.level_eq] at hlevel
  obtain rfl : level = below := by omega
  exact ⟨hlt, hlife⟩

omit [LinearOrder K] in
theorem dead_iff {b : ℕ} : b ∈ es.map Entry.pointer ↔ ∃ e ∈ es, e.pointer = b := by
  simp

omit [LinearOrder K] in
theorem news_mem {x : ℕ × Life K} {w : ℕ} : x ∈ news w level xs ↔
    ∃ y ∈ xs, x = (y.2, ⟨y.1, level, w, none⟩) := by
  simp [news, eq_comm]

theorem link_renew (hs : Swap cfg t g t₁ t' m p index es level xs) (h : Living cfg t g) {l : ℕ}
    {e : Entry K} (hl : Link g.life t.nextBlock l e) (hd : e.pointer ∉ es.map Entry.pointer) :
    Link (renew g.life t.commit.clock (news t.commit.clock level xs) (es.map Entry.pointer))
      t'.nextBlock l e := by
  refine hs.smo.link_renew h ?_ hl hd
  intro x hx
  obtain ⟨y, hy, rfl⟩ := news_mem.mp hx
  exact ⟨_, List.mem_map_of_mem hy, rfl⟩

theorem news_nodup (hs : Swap cfg t g t₁ t' m p index es level xs) (w : ℕ) :
    ((news w level xs).map Prod.fst).Nodup := by
  have := hs.smo.nodup
  simpa [news, List.map_map, Function.comp_def] using this

/-- The new entries link the fresh blocks. -/
theorem link_fresh (hs : Swap cfg t g t₁ t' m p index es level xs) {e : Entry K}
    (he : e ∈ freshEntries t.commit.clock xs) :
    Link (renew g.life t.commit.clock (news t.commit.clock level xs) (es.map Entry.pointer))
      t'.nextBlock (level + 1) e := by
  obtain ⟨x, hx, rfl⟩ := List.mem_map.mp he
  refine ⟨(hs.smo.next x.2).mpr (.inr ⟨_, List.mem_map_of_mem hx, rfl⟩), level, rfl, ?_⟩
  exact renew_new (hs.news_nodup _) (x := (x.2, ⟨x.1, level, t.commit.clock, none⟩))
    (List.mem_map_of_mem hx)

/-- Entries that stay active do not point to a replaced child. -/
theorem rest_not_dead (hs : Swap cfg t g t₁ t' m p index es level xs) (h : Living cfg t g)
    {e : Entry K} (he : e ∈ (markAll index p.units).filter PageUnit.isActive) :
    e ∈ p.units.filter PageUnit.isActive ∧ e.pointer ∉ es.map Entry.pointer := by
  obtain ⟨-, halive, -, hdir⟩ := hs.dir h
  have ht := (hdir.tiling halive).perm hs.marked.active
  have hmem : e ∈ p.units.filter PageUnit.isActive :=
    hs.marked.active.mem_iff.mpr (List.mem_append_right _ he)
  refine ⟨hmem, ?_⟩
  intro hd
  obtain ⟨e₀, he₀, heq⟩ := dead_iff.mp hd
  obtain ⟨-, hlife₀⟩ := hs.dead_life h he₀
  obtain ⟨-, below, -, hlife⟩ := (hdir.tiling halive).good e hmem
  rw [heq, hlife] at hlife₀
  have hfence : e.fence = e₀.fence := (Life.mk.injEq .. ▸ hlife₀).1
  have hdisj := (List.pairwise_append.mp ht.disjoint).2.2 e₀ he₀ e he
  rw [hfence] at hdisj
  have hproper := ht.proper e₀ (List.mem_append_left _ he₀)
  exact hdisj _ hproper.lower_mem hproper.lower_mem

theorem count_active (hs : Swap cfg t g t₁ t' m p index es level xs) :
    (markAll index p.units ++ freshEntries t.commit.clock xs).countP PageUnit.isActive +
      es.length = p.units.countP PageUnit.isActive + xs.length := by
  have hlen := hs.marked.active.length_eq
  rw [List.length_append] at hlen
  have hfresh : (freshEntries t.commit.clock xs).countP PageUnit.isActive = xs.length := by
    rw [List.countP_eq_length.mpr (hs.refit t.commit.clock).active]
    simp [freshEntries]
  rw [List.countP_append, hfresh, List.countP_eq_length_filter, List.countP_eq_length_filter, hlen]
  omega

theorem counted (hs : Swap cfg t g t₁ t' m p index es level xs) (h : Living cfg t g) :
    (page t p index es xs).Counted cfg.fanOut := by
  obtain ⟨-, -, -, hdir⟩ := hs.dir h
  have hact := hs.count_active
  have hlen : (markAll index p.units ++ freshEntries t.commit.clock xs).length =
      p.units.length + xs.length := by
    rw [List.length_append, ← hs.marked.related.length_eq]
    simp [freshEntries]
  have h₁ := Page.countP_add_countP_not PageUnit.isActive
    (markAll index p.units ++ freshEntries t.commit.clock xs)
  have h₂ := Page.countP_add_countP_not PageUnit.isActive p.units
  refine hdir.counted.commit (by rw [hlen]; exact hs.room) ?_ ?_ <;> omega

theorem dirInv (hs : Swap cfg t g t₁ t' m p index es level xs) (h : Living cfg t g) :
    DirInv cfg.fanOut (t.commit.clock + 1)
      (Link (renew g.life t.commit.clock (news t.commit.clock level xs) (es.map Entry.pointer))
        t'.nextBlock (level + 1)) (g.life m) (page t p index es xs) := by
  obtain ⟨-, halive, -, hdir⟩ := hs.dir h
  have hm := hs.marked
  have hr := hs.refit t.commit.clock
  have hversion : ∀ e ∈ freshEntries t.commit.clock xs, e.version = t.commit.clock := by
    intro e he
    obtain ⟨x, -, rfl⟩ := List.mem_map.mp he
    rfl
  have hinside : ∀ e ∈ (page t p index es xs).units, e.fence.Proper ∧
      e.fence.Within (g.life m).fence ∧ e.version < t.commit.clock + 1 := by
    intro e he
    rcases List.mem_append.mp he with he | he
    · obtain ⟨e₀, he₀, hrel⟩ := hm.mem_related he
      obtain ⟨hf, hv, -⟩ := hrel.same
      obtain ⟨hp, hw, hlt⟩ := hdir.inside e₀ he₀
      rw [hf, hv]
      exact ⟨hp, hw, hlt.trans (Nat.lt_succ_self _)⟩
    · refine ⟨hr.proper e he, ?_, by rw [hversion e he]; exact Nat.lt_succ_self _⟩
      intro k hk
      obtain ⟨e₀, he₀, hk₀⟩ := (hr.cover k).mp ⟨e, he, hk⟩
      obtain ⟨i, hx⟩ := hs.child e₀ he₀
      exact (hdir.tiling halive).within e₀ hx.mem k hk₀
  have ht := hm.tiling hr (hdir.tiling halive)
   
    (fun e he hl => hs.link_renew h hl (hs.rest_not_dead h he).2) (fun e he => hs.link_fresh he)
  have hn := hm.newest hr (hdir.newest halive)
  have hsorted : InVersionOrder (page t p index es xs).units := by
    have hmarked : InVersionOrder (markAll index p.units) :=
      hdir.sorted.congr (markAll_stamp index p.units)
    refine hmarked.append (fun e he => ?_) hversion
    obtain ⟨e₀, he₀, hrel⟩ := hm.mem_related he
    exact hrel.same.2.1.trans_le (hdir.inside e₀ he₀).2.2.le
  refine ⟨hs.counted h, hinside, ?_, fun _ => ht, fun _ => hn, hsorted⟩
  intro v hv
  by_cases hlt : v < t.commit.clock
  · intro k hk
    obtain ⟨nxt, hroute, hkn, hwithin, hall⟩ := hdir.history v hv k hk
    refine ⟨nxt, ?_, hkn, hwithin, fun k' hk' => ?_⟩
    · exact (hm.routeAt_before hlt hversion k).trans hroute
    · exact (hm.routeAt_before hlt hversion k').trans (hall k' hk')
  · refine partitions_newest ht hn (fun e he => ?_)
    have := (hinside e he).2.2
    omega

theorem sameAt (hs : Swap cfg t g t₁ t' m p index es level xs) (h : Living cfg t g) {v : ℕ}
    (hv : v < t.commit.clock) :
    SameAt v (t.heap m) (.internal (page t p index es xs) : Node K P) := by
  obtain ⟨-, -, hp, hdir⟩ := hs.dir h
  rw [hp]
  intro k
  rw [(hs.counted h).asUnits, hdir.counted.asUnits]
  refine hs.marked.routeAt_before hv ?_ k
  intro e he
  obtain ⟨x, -, rfl⟩ := List.mem_map.mp he
  rfl

/-- No other living directory points to a replaced child. -/
theorem orphans (hs : Swap cfg t g t₁ t' m p index es level xs) (h : Living cfg t g) {b : ℕ}
    (hb : b < t.nextBlock) (halive : (g.life b).death = none) (hne : m ≠ b) {q : InternalPage K}
    (hq : t.heap b = .internal q) {e : Entry K} (he : e ∈ q.units)
    (ha : PageUnit.isActive e = true) : e.pointer ∉ es.map Entry.pointer := by
  intro hd
  obtain ⟨e₀, he₀, heq⟩ := dead_iff.mp hd
  obtain ⟨-, hlife₀⟩ := hs.dead_life h he₀
  obtain ⟨i, hx⟩ := hs.child e₀ he₀
  obtain ⟨i', hi'⟩ := List.mem_iff_getElem?.mp he
  have hy : Child t g b i' q e := ⟨hb, halive, hq, hi', ha⟩
  obtain ⟨-, hfence, hlevel⟩ := hy.child_life h
  rw [← heq, hlife₀] at hfence hlevel
  -- both parents cover the fence of the child at the same level
  have hdisj := h.disjoint m hx.used b hb hx.alive halive (hs.level_eq.trans hlevel) hne
  have hproper := (hx.tiling h).proper e₀ hx.mem
  refine hdisj _ ((hx.tiling h).within e₀ hx.mem _ hproper.lower_mem) ?_
  refine (hy.tiling h).within e hy.mem _ ?_
  rw [← hfence]
  exact hproper.lower_mem

theorem new_old (hs : Swap cfg t g t₁ t' m p index es level xs) (h : Living cfg t g)
    {x : Interval K × ℕ} (hx : x ∈ xs) {b : ℕ} (hb : b < t.nextBlock)
    (halive : (g.life b).death = none) (hd : b ∉ es.map Entry.pointer)
    (hlevel : level = (g.life b).level) : x.1.Disjoint (g.life b).fence := by
  intro k hk
  obtain ⟨e, he, hke⟩ := (hs.pieces.cover k).mp ⟨x, hx, hk⟩
  obtain ⟨hlt, hlife⟩ := hs.dead_life h he
  have hne : e.pointer ≠ b := fun heq => hd (dead_iff.mpr ⟨e, he, heq⟩)
  have hdisj := h.disjoint e.pointer hlt b hb (by rw [hlife]) halive (by rw [hlife]; exact hlevel) hne
  rw [hlife] at hdisj
  exact hdisj k hke

/-- The parent loses an active entry for each replaced child and gains one for each
fresh block. -/
theorem activeDeadCount_page (hs : Swap cfg t g t₁ t' m p index es level xs) (h : Living cfg t g) :
    (page t p index es xs).activeDeadCount.1 + es.length =
      (p.units.filter PageUnit.isActive).length + xs.length := by
  rw [← List.countP_eq_length_filter, ← hs.count_active]
  have := (hs.counted h).active
  simp only [Page.activeDeadCount]
  rw [this]
  rfl

omit [LinearOrder K] in
theorem heap_fresh {par : Option (ℕ × Node K P)} {dead : List ℕ}
    (hs : Smo t t' (xs.map (fun x => (x.2, t₁.heap x.2))) par dead) {x : Interval K × ℕ}
    (hx : x ∈ xs) : t'.heap x.2 = t₁.heap x.2 := hs.heap_new _ (List.mem_map_of_mem hx)

/-- The modification, in terms of the lives of the fresh blocks. -/
theorem smo_news (hs : Swap cfg t g t₁ t' m p index es level xs) :
    Smo t t' ((news t.commit.clock level xs).map (fun x => (x.1, t'.heap x.1)))
      (some (m, .internal (page t p index es xs))) (es.map Entry.pointer) := by
  have heq : (news t.commit.clock level xs).map (fun x => (x.1, t'.heap x.1)) =
      xs.map (fun x => (x.2, t₁.heap x.2)) := by
    rw [news, List.map_map]
    exact List.map_congr_left (fun x hx => by simp [heap_fresh hs.smo hx])
  rw [heq]
  exact hs.smo

theorem reorg (hs : Swap cfg t g t₁ t' m p index es level xs) (h : Living cfg t g) :
    Reorg cfg t g t' (news t.commit.clock level xs)
      (some (m, .internal (page t p index es xs))) (es.map Entry.pointer) := by
  obtain ⟨hm, halive, hp, hdir⟩ := hs.dir h
  have hheap : ∀ x ∈ xs, t'.heap x.2 = t₁.heap x.2 := fun x hx => heap_fresh hs.smo hx
  have hroot : t'.currentRoot = t.currentRoot := by rw [MVBTSt.currentRoot, hs.root]; rfl
  have hroot_dead : t.currentRoot.1 ∉ es.map Entry.pointer := by
    intro hd
    obtain ⟨e, he, heq⟩ := dead_iff.mp hd
    obtain ⟨i, hx⟩ := hs.child e he
    exact hx.ne_root h heq
  obtain ⟨birth, hrl⟩ := h.root_life
  have hroot_new : ∀ y ∈ xs.map (fun x => (x.2, t₁.heap x.2)), y.1 ≠ t.currentRoot.1 :=
    hs.smo.not_new h.root_lt (h.not_buried (by rw [hrl]))
  have hcount := hs.activeDeadCount_page h
  have hactive := hs.active
  refine
    { smo := ⟨es.map Entry.pointer, hs.smo_news, fun _ hb => hb⟩
      fresh := ?_
      dead_alive := ?_
      parent := ?_
      orphans := ?_
      new_new := ?_
      new_old := ?_
      filled_new := ?_
      filled_par := ?_
      root_kept := .inr (by rw [hroot])
      root_lt := ?_
      root_life := ?_
      root_child := ?_
      level_new := ?_
      level_old := ?_ }
  · intro x hx
    obtain ⟨y, hy, rfl⟩ := news_mem.mp hx
    refine ⟨rfl, rfl, hs.pieces.proper y hy, ?_⟩
    simp only
    rw [hheap y hy]
    refine (hs.pieces.fresh y hy).mono ?_
    intro e hl
    refine hs.link_renew h hl ?_
    intro hd
    obtain ⟨e₀, he₀, heq⟩ := dead_iff.mp hd
    obtain ⟨-, hlife₀⟩ := hs.dead_life h he₀
    obtain ⟨-, below, hlevel, hlife⟩ := hl
    rw [heq, hlife] at hlife₀
    have := congrArg Life.level hlife₀
    simp only at this
    omega
  · intro b hb
    obtain ⟨e, he, rfl⟩ := dead_iff.mp hb
    obtain ⟨hlt, hlife⟩ := hs.dead_life h he
    exact ⟨hlt, by rw [hlife]⟩
  · intro x hx
    obtain rfl := Option.some.inj hx
    have hm_dead : m ∉ es.map Entry.pointer := by
      intro hd
      obtain ⟨e, he, heq⟩ := dead_iff.mp hd
      obtain ⟨-, hlife⟩ := hs.dead_life h he
      have := hs.level_eq
      rw [← heq, hlife] at this
      simp only at this
      omega
    refine ⟨hm, halive, hm_dead, ⟨?_, ?_⟩, fun v hv => hs.sameAt h hv, ?_⟩
    · have hnode := h.node m hm
      rw [hp] at hnode
      exact hnode.1
    · simp only [hs.level_eq]
      exact hs.dirInv h
    · intro p' hp' e' he'
      obtain rfl := Node.internal.inj hp'
      rcases List.mem_append.mp he' with he' | he'
      · right
        obtain ⟨e, he, hrel⟩ := hs.marked.mem_related he'
        exact ⟨p, hp, e, he, hrel.same⟩
      · left
        simp only [hs.level_eq]
        exact hs.link_fresh he'
  · intro b hb hlb _ hne q hq e he ha
    exact hs.orphans h hb hlb (hne _ rfl) hq he ha
  · intro x hx y hy _ hne
    obtain ⟨a, ha, rfl⟩ := news_mem.mp hx
    obtain ⟨b, hb, rfl⟩ := news_mem.mp hy
    have : Std.Symm (fun x y : Interval K × ℕ => x.1.Disjoint y.1) :=
      ⟨fun _ _ => Interval.Disjoint.symm⟩
    exact hs.pieces.disjoint.forall ha hb (fun heq => hne (by rw [heq]))
  · intro x hx b hb hlb hd hlevel
    obtain ⟨a, ha, rfl⟩ := news_mem.mp hx
    exact hs.new_old h ha hb hlb hd hlevel
  · intro x hx _
    obtain ⟨a, ha, rfl⟩ := news_mem.mp hx
    simp only [hheap a ha]
    exact hs.filled a ha
  · intro x hx hne
    obtain rfl := Option.some.inj hx
    rw [hroot] at hne
    rw [if_neg hne] at hactive
    change (cfg.fanOut + 4) / 5 ≤ (page t p index es xs).activeDeadCount.1
    omega
  · rw [hroot]
    exact (hs.smo.next _).mpr (.inl h.root_lt)
  · refine ⟨birth, ?_⟩
    rw [hroot, renew_old ?_ hroot_dead, hrl]
    intro x hx
    obtain ⟨a, ha, rfl⟩ := news_mem.mp hx
    exact hroot_new _ (List.mem_map_of_mem ha)
  · rw [hroot]
    intro hleaf
    by_cases hmr : m = t.currentRoot.1
    · rw [if_pos hmr] at hactive
      rw [← hmr, hs.smo.heap_par _ rfl]
      change 1 ≤ (page t p index es xs).activeDeadCount.1
      omega
    · have hsame : t'.heap t.currentRoot.1 = t.heap t.currentRoot.1 := by
        refine hs.smo.heap_old _ hroot_new ?_
        intro x hx
        obtain rfl := Option.some.inj hx
        exact hmr
      rw [hsame] at hleaf ⊢
      exact h.root_child hleaf
  · intro x hx
    obtain ⟨a, ha, rfl⟩ := news_mem.mp hx
    have := h.level_le m hm halive
    have := hs.level_eq
    rw [hroot]
    simp only
    omega
  · intro b hb hlb _
    rw [hroot]
    exact h.level_le b hb hlb

/-- The lives after the swap. -/
def after (t : MVBTSt K P) (g : Ghost K P) (es : List (Entry K)) (level : ℕ) (xs : NewLinks K) :
    Ghost K P :=
  ⟨renew g.life t.commit.clock (news t.commit.clock level xs) (es.map Entry.pointer), g.roots,
    g.log⟩

/-- A swap preserves the invariant; the fresh blocks get the announced fences. -/
theorem step (hs : Swap cfg t g t₁ t' m p index es level xs) (h : Inv cfg t g) :
    Inv cfg t' (after t g es level xs) ∧ Advance t g t' (after t g es level xs) ∧
      (after t g es level xs).life m = g.life m ∧
      ∀ x ∈ xs, (after t g es level xs).life x.2 = ⟨x.1, level, t.commit.clock, none⟩ := by
  have hr := hs.reorg h.living
  have ha : Advance t g t' (after t g es level xs) := hr.advance (.inl ⟨hs.root, rfl⟩)
  obtain ⟨hm, halive, -, -⟩ := hs.dir h.living
  refine ⟨ha.inv h (hr.living h.living g.roots), ha, ?_, ?_⟩
  · exact renew_old (hr.alive_not_new h.living hm halive) (hr.parent _ rfl).2.2.1
  · intro x hx
    exact renew_new (hs.news_nodup _) (x := (x.2, ⟨x.1, level, t.commit.clock, none⟩))
      (List.mem_map_of_mem hx)

end Swap

end CMVBT.ParentRewrite
