import CMVBT.NewPages

/-!
# One structure modification as a step of the invariant

All structure modifications have the same shape: fresh blocks are built, a
version is drawn, either the parent directory or the root index is changed at
that version, and the replaced blocks go to the graveyard. `Smo` records what
this does to the state, `Reorg` what has to hold for the step to preserve the
invariant of the tree.
-/
namespace CMVBT.Reorganization
open KeyInterval FenceTiling VersionedLog PageModel FrugalList CommitClock Tracker CMVBT.Tree
open BlockSupply
open WritePath ReadPath DirectoryHistory LeafHistory TreeInvariant PageRewrite NewPages

variable {K P : Type}

/-- The state after blocks `bs` were built, a version was drawn, `par` was
written and the blocks `dead` were buried. -/
structure Smo (t t' : MVBTSt K P) (bs : List (ℕ × Node K P)) (par : Option (ℕ × Node K P))
    (dead : List ℕ) : Prop where
  heap_new : ∀ x ∈ bs, t'.heap x.1 = x.2
  heap_par : ∀ x, par = some x → t'.heap x.1 = x.2
  heap_old : ∀ b, (∀ x ∈ bs, x.1 ≠ b) → (∀ x, par = some x → x.1 ≠ b) → t'.heap b = t.heap b
  nodup : (bs.map Prod.fst).Nodup
  source : ∀ x ∈ bs, t.nextBlock ≤ x.1 ∨
    ∃ d ∈ graveyard t, d.block = x.1 ∧ Forgotten t t'.commit.globalMin d
  next : ∀ b, b < t'.nextBlock ↔ b < t.nextBlock ∨ ∃ x ∈ bs, x.1 = b
  grave : ∀ d ∈ graveyard t', (d ∈ graveyard t ∧ ∀ x ∈ bs, x.1 ≠ d.block) ∨
    (d.block ∈ dead ∧ d.deathVersion = t.commit.clock)
  grave_kept : ∀ d ∈ graveyard t, (∀ x ∈ bs, x.1 ≠ d.block) → d ∈ graveyard t'
  grave_new : t.tracker.isSome = true → ∀ b ∈ dead, ∃ d ∈ graveyard t', d.block = b ∧
    d.deathVersion = t.commit.clock
  grave_ok : GraveyardOk t'
  clock : t'.commit.clock = t.commit.clock + 1
  raised : t.commit.globalMin ≤ t'.commit.globalMin
  tracked : t'.tracker.isSome = t.tracker.isSome
  in_place : t'.updateInPlace = t.updateInPlace
  readers : trace t' = trace t

section Register
variable {t : MVBTSt K P} {w b : ℕ}

theorem graveyard_registerDead {d : DeadBlock} (hd : d ∈ graveyard (t.registerDead w b)) :
    d ∈ graveyard t ∨ (d.block = b ∧ d.deathVersion = w) := by
  cases ht : t.tracker with
  | none => simp [graveyard, MVBTSt.registerDead, ht] at hd
  | some tracker =>
    simp only [graveyard, MVBTSt.registerDead, ht, Option.map_some, TrackerHandle.registerDiedPage,
      BlockTrace.registerDiedPage, List.mem_cons] at hd ⊢
    rcases hd with rfl | hd
    · exact .inr ⟨rfl, rfl⟩
    · exact .inl hd

theorem mem_registerDead {d : DeadBlock} (hd : d ∈ graveyard t) :
    d ∈ graveyard (t.registerDead w b) := by
  cases ht : t.tracker with
  | none => simp [graveyard, ht] at hd
  | some tracker =>
    simp only [graveyard, MVBTSt.registerDead, ht, Option.map_some, TrackerHandle.registerDiedPage,
      BlockTrace.registerDiedPage, List.mem_cons] at hd ⊢
    exact .inr hd

theorem registered (ht : t.tracker.isSome = true) :
    ∃ d ∈ graveyard (t.registerDead w b), d.block = b ∧ d.deathVersion = w := by
  obtain ⟨tracker, htr⟩ := Option.isSome_iff_exists.mp ht
  refine ⟨⟨w, tracker.deadBlocks.sequence, b⟩, ?_, rfl, rfl⟩
  simp [graveyard, MVBTSt.registerDead, htr, TrackerHandle.registerDiedPage,
    BlockTrace.registerDiedPage]

theorem registerDead_ok (h : GraveyardOk t) (hb : b < t.nextBlock)
    (hnew : ∀ d ∈ graveyard t, d.block ≠ b) : GraveyardOk (t.registerDead w b) := by
  refine ⟨fun d hd => ?_, ?_⟩
  · rcases graveyard_registerDead hd with hd | ⟨rfl, -⟩
    · exact h.below d hd
    · exact hb
  · have hnd := h.nodup
    cases ht : t.tracker with
    | none => simp [graveyard, MVBTSt.registerDead, ht]
    | some tracker =>
      simp only [graveyard, MVBTSt.registerDead, ht, Option.map_some,
        TrackerHandle.registerDiedPage, BlockTrace.registerDiedPage, List.map_cons,
        List.nodup_cons] at hnd hnew ⊢
      refine ⟨?_, hnd⟩
      intro hmem
      obtain ⟨d, hd, heq⟩ := List.mem_map.mp hmem
      exact hnew d hd heq

theorem trace_registerDead : trace (t.registerDead w b) = trace t := by
  cases ht : t.tracker with
  | none => simp [trace, MVBTSt.registerDead, ht]
  | some tracker => simp [trace, MVBTSt.registerDead, ht, TrackerHandle.registerDiedPage]

end Register

namespace Smo
variable {t t' : MVBTSt K P} {bs : List (ℕ × Node K P)} {par : Option (ℕ × Node K P)}
  {dead : List ℕ}

/-- Drawing the version after the blocks were built. -/
theorem start (h : Built t t' bs) : Smo t t'.startTxCommit.1 bs none [] where
  heap_new := h.heap_new
  heap_par := by simp
  heap_old b hb _ := h.heap_old b hb
  nodup := h.nodup
  source := h.source
  next := h.next
  grave d hd := .inl ((h.grave d).mp hd)
  grave_kept d hd hn := (h.grave d).mpr ⟨hd, hn⟩
  grave_new := by simp
  grave_ok := ⟨h.grave_ok.below, h.grave_ok.nodup⟩
  clock := by
    change t'.commit.clock + 1 = _
    rw [h.frame.clock]
  raised := h.frame.raised
  tracked := h.frame.tracked
  in_place := h.frame.inPlace
  readers := h.frame.readers

theorem write_parent (h : Smo t t' bs none dead) {m : ℕ} {n : Node K P}
    (hm : ∀ x ∈ bs, x.1 ≠ m) : Smo t (t'.setNode m n) bs (some (m, n)) dead :=
  { h with
    heap_new := fun x hx => by
      simp only [MVBTSt.setNode, Function.update_of_ne (hm x hx)]
      exact h.heap_new x hx
    heap_par := fun x hx => by
      obtain rfl := Option.some.inj hx
      simp [MVBTSt.setNode]
    heap_old := fun b hb hp => by
      have hne : b ≠ m := fun heq => hp (m, n) rfl heq.symm
      simp only [MVBTSt.setNode, Function.update_of_ne hne]
      exact h.heap_old b hb (by simp)
    grave_ok := ⟨h.grave_ok.below, h.grave_ok.nodup⟩ }

/-- Filling the block that was built last. -/
theorem fill_last {b : ℕ} {n : Node K P} (h : Smo t t' (bs ++ [(b, n)]) none dead)
    (n' : Node K P) :
    Smo t (t'.setNode b n') (bs ++ [(b, n')]) none dead := by
  have hb : ∀ x ∈ bs, x.1 ≠ b := by
    have := h.nodup
    rw [List.map_append, List.nodup_append] at this
    intro x hx
    exact this.2.2 x.1 (List.mem_map_of_mem hx) b (by simp)
  have hblocks : ∀ c, (∀ x ∈ bs ++ [(b, n')], x.1 ≠ c) ↔ ∀ x ∈ bs ++ [(b, n)], x.1 ≠ c := by
    intro c
    simp [or_imp, forall_and]
  refine
    { h with
      heap_new := ?_
      heap_old := ?_
      nodup := by simpa using h.nodup
      source := ?_
      next := ?_
      grave := fun d hd => by rw [hblocks]; exact h.grave d hd
      grave_kept := fun d hd hn => h.grave_kept d hd ((hblocks d.block).mp hn)
      heap_par := by simp
      grave_ok := ⟨h.grave_ok.below, h.grave_ok.nodup⟩ }
  · intro x hx
    rcases List.mem_append.mp hx with hx | hx
    · simp only [MVBTSt.setNode, Function.update_of_ne (hb x hx)]
      exact h.heap_new x (List.mem_append_left _ hx)
    · obtain rfl : x = (b, n') := by simpa using hx
      simp [MVBTSt.setNode]
  · intro c hc _
    have hcb : c ≠ b := fun heq => hc (b, n') (by simp) heq.symm
    simp only [MVBTSt.setNode, Function.update_of_ne hcb]
    refine h.heap_old c (fun x hx => ?_) (by simp)
    rcases List.mem_append.mp hx with hx | hx
    · exact hc x (List.mem_append_left _ hx)
    · obtain rfl : x = (b, n) := by simpa using hx
      exact fun heq => hcb heq.symm
  · intro x hx
    rcases List.mem_append.mp hx with hx | hx
    · exact h.source x (List.mem_append_left _ hx)
    · obtain rfl : x = (b, n') := by simpa using hx
      exact h.source (b, n) (by simp)
  · intro c
    have hc : (∃ x ∈ bs ++ [(b, n')], x.1 = c) ↔ ∃ x ∈ bs ++ [(b, n)], x.1 = c := by simp
    rw [hc]
    exact h.next c

theorem end_commit (h : Smo t t' bs par dead) (v : ℕ) : Smo t (t'.endTxCommit v) bs par dead :=
  { h with grave_ok := ⟨h.grave_ok.below, h.grave_ok.nodup⟩ }

/-- A new root only changes the index. -/
theorem append_root (h : Smo t t' bs par dead) {t'' : MVBTSt K P} {b v height : ℕ}
    (heq : t'.appendRoot b v height = .ok t'') : Smo t t'' bs par dead := by
  simp only [MVBTSt.appendRoot, bind, Except.bind, pure, Except.pure] at heq
  split at heq
  · cases heq
  · cases heq
    exact { h with grave_ok := ⟨h.grave_ok.below, h.grave_ok.nodup⟩ }

/-- Burying a block that was in use before the step. -/
theorem bury (h : Smo t t' bs par dead) {b : ℕ} (hb : b < t.nextBlock)
    (hg : ∀ d ∈ graveyard t, d.block ≠ b) (hd : b ∉ dead) :
    Smo t (t'.registerDead t.commit.clock b) bs par (b :: dead) :=
  { h with
    grave := fun d hd' => by
      rcases graveyard_registerDead hd' with hd' | ⟨rfl, hv⟩
      · rcases h.grave d hd' with hold | ⟨hmem, hv⟩
        · exact .inl hold
        · exact .inr ⟨List.mem_cons_of_mem _ hmem, hv⟩
      · exact .inr ⟨List.mem_cons_self, hv⟩
    grave_ok := by
      refine registerDead_ok h.grave_ok ((h.next b).mpr (.inl hb)) ?_
      rintro d hd' rfl
      rcases h.grave d hd' with ⟨hold, -⟩ | ⟨hmem, -⟩
      · exact hg d hold rfl
      · exact hd hmem
    grave_kept := fun d hd' hn => mem_registerDead (h.grave_kept d hd' hn)
    grave_new := fun ht b' hb' => by
      rcases List.mem_cons.mp hb' with rfl | hb'
      · exact registered (by rw [h.tracked]; exact ht)
      · obtain ⟨d, hd', heq⟩ := h.grave_new ht b' hb'
        exact ⟨d, mem_registerDead hd', heq⟩
    tracked := by simpa [MVBTSt.registerDead] using h.tracked
    readers := trace_registerDead.trans h.readers }

/-- Living blocks are not among the new ones. -/
theorem not_new (h : Smo t t' bs par dead) {b : ℕ} (hb : b < t.nextBlock)
    (hg : ∀ d ∈ graveyard t, d.block ≠ b) : ∀ x ∈ bs, x.1 ≠ b := by
  rintro x hx rfl
  rcases h.source x hx with hle | ⟨d, hd, heq, -⟩
  · exact absurd hb (not_lt.mpr hle)
  · exact hg d hd heq

end Smo

/-! ## The lives after a step -/

/-- The lives after blocks `news` were born and blocks `dead` died at `w`. -/
def renew (life : ℕ → Life K) (w : ℕ) (news : List (ℕ × Life K)) (dead : List ℕ) (b : ℕ) :
    Life K :=
  match news.find? (fun x => x.1 == b) with
  | some x => x.2
  | none => if b ∈ dead then (life b).ended w else life b

section Renew
variable {life : ℕ → Life K} {w : ℕ} {news : List (ℕ × Life K)} {dead : List ℕ} {b : ℕ}

theorem renew_new (hnd : (news.map Prod.fst).Nodup) {x : ℕ × Life K} (hx : x ∈ news) :
    renew life w news dead x.1 = x.2 := by
  have : news.find? (fun y => y.1 == x.1) = some x := by
    induction news with
    | nil => simp at hx
    | cons y news ih =>
      rw [List.map_cons, List.nodup_cons] at hnd
      rcases List.mem_cons.mp hx with rfl | hx
      · simp
      · have hne : y.1 ≠ x.1 := fun heq => hnd.1 (heq ▸ List.mem_map_of_mem hx)
        rw [List.find?_cons_of_neg (by simpa using hne)]
        exact ih hnd.2 hx
  simp only [renew, this]

theorem renew_not_new (hb : ∀ x ∈ news, x.1 ≠ b) :
    renew life w news dead b = if b ∈ dead then (life b).ended w else life b := by
  have : news.find? (fun x => x.1 == b) = none := by
    rw [List.find?_eq_none]
    intro x hx
    simpa using hb x hx
  simp only [renew, this]

theorem renew_old (hb : ∀ x ∈ news, x.1 ≠ b) (hd : b ∉ dead) :
    renew life w news dead b = life b := by
  rw [renew_not_new hb, if_neg hd]

theorem renew_dead (hb : ∀ x ∈ news, x.1 ≠ b) (hd : b ∈ dead) :
    renew life w news dead b = (life b).ended w := by
  rw [renew_not_new hb, if_pos hd]

end Renew

variable [LinearOrder K]

section Pages
variable {cfg : Config K} {clock : ℕ} {log : Log K P} {link link' : ℕ → Entry K → Prop}
  {l : Life K} {n : Node K P}

/-- A page that is not written keeps its invariant one version further. -/
theorem nodeInv_stays (h : NodeInv cfg clock log link l n)
    (hlink : l.death = none → ∀ p, n = .internal p → ∀ e ∈ p.units, PageUnit.isActive e = true →
      link l.level e → link' l.level e) : NodeInv cfg (clock + 1) log link' l n := by
  cases n with
  | leaf p =>
    refine ⟨h.1, h.2.counted, ?_, h.2.shows, h.2.ordered, h.2.sorted, h.2.known⟩
    intro r hr
    obtain ⟨hi, hd⟩ := h.2.stamps r hr
    exact ⟨hi.trans (Nat.lt_succ_self _), fun d hdel => (hd d hdel).trans (Nat.lt_succ_self _)⟩
  | internal p =>
    refine ⟨h.1, h.2.counted, ?_, h.2.history, ?_, h.2.newest, h.2.sorted⟩
    · intro e he
      obtain ⟨hp, hw, hv⟩ := h.2.inside e he
      exact ⟨hp, hw, hv.trans (Nat.lt_succ_self _)⟩
    · intro halive
      refine (h.2.tiling halive).congr ?_ (fun _ _ hn => hn)
      intro e he hg
      obtain ⟨hmem, ha⟩ := List.mem_filter.mp he
      exact hlink halive p rfl e hmem ha hg

/-- A page that dies is only asked about the past. -/
theorem nodeInv_dies (h : NodeInv cfg clock log link l n) (halive : l.death = none) :
    NodeInv cfg (clock + 1) log link' (l.ended clock) n := by
  cases n with
  | leaf p =>
    refine ⟨h.1, h.2.counted, ?_, fun v hv _ => h.2.shows v hv (.of_alive halive v), h.2.ordered,
      h.2.sorted, h.2.known⟩
    intro r hr
    obtain ⟨hi, hd⟩ := h.2.stamps r hr
    exact ⟨hi.trans (Nat.lt_succ_self _), fun d hdel => (hd d hdel).trans (Nat.lt_succ_self _)⟩
  | internal p =>
    refine ⟨h.1, h.2.counted, ?_, h.2.history, fun hd => ?_, fun hd => ?_, h.2.sorted⟩
    · intro e he
      obtain ⟨hp, hw, hv⟩ := h.2.inside e he
      exact ⟨hp, hw, hv.trans (Nat.lt_succ_self _)⟩
    · cases hd
    · cases hd

end Pages

/-- Links to blocks that are not replaced stay links. -/
theorem Smo.link_renew {cfg : Config K} {t t' : MVBTSt K P} {g : Ghost K P}
    {bs : List (ℕ × Node K P)} {par : Option (ℕ × Node K P)} {buried dead : List ℕ}
    {news : List (ℕ × Life K)} {w level : ℕ} {e : Entry K} (hs : Smo t t' bs par buried)
    (h : Living cfg t g) (hnews : ∀ x ∈ news, ∃ y ∈ bs, y.1 = x.1)
    (hl : Link g.life t.nextBlock level e) (hd : e.pointer ∉ dead) :
    Link (renew g.life w news dead) t'.nextBlock level e := by
  obtain ⟨hlt, below, hlevel, hlife⟩ := hl
  refine ⟨(hs.next _).mpr (.inl hlt), below, hlevel, ?_⟩
  rw [renew_old ?_ hd, hlife]
  intro x hx
  obtain ⟨y, hy, heq⟩ := hnews x hx
  rw [← heq]
  exact hs.not_new hlt (h.not_buried (by rw [hlife])) y hy

/-- The side conditions of a structure modification. -/
structure Reorg (cfg : Config K) (t : MVBTSt K P) (g : Ghost K P) (t' : MVBTSt K P)
    (news : List (ℕ × Life K)) (par : Option (ℕ × Node K P)) (dead : List ℕ) : Prop where
  smo : ∃ buried, Smo t t' (news.map (fun x => (x.1, t'.heap x.1))) par buried ∧
    ∀ b ∈ buried, b ∈ dead
  fresh : ∀ x ∈ news, x.2.birth = t.commit.clock ∧ x.2.death = none ∧ x.2.fence.Proper ∧
    FreshInv cfg t.commit.clock g.log
      (Link (renew g.life t.commit.clock news dead) t'.nextBlock) x.2.level x.2.fence
      (t'.heap x.1)
  dead_alive : ∀ b ∈ dead, b < t.nextBlock ∧ (g.life b).death = none
  parent : ∀ x, par = some x → x.1 < t.nextBlock ∧ (g.life x.1).death = none ∧ x.1 ∉ dead ∧
    NodeInv cfg (t.commit.clock + 1) g.log
      (Link (renew g.life t.commit.clock news dead) t'.nextBlock) (g.life x.1) x.2 ∧
    (∀ v < t.commit.clock, SameAt v (t.heap x.1) x.2) ∧
    ∀ p', x.2 = .internal p' → ∀ e' ∈ p'.units,
      Link (renew g.life t.commit.clock news dead) t'.nextBlock (g.life x.1).level e' ∨
      ∃ p, t.heap x.1 = .internal p ∧ ∃ e ∈ p.units,
        e'.fence = e.fence ∧ e'.version = e.version ∧ e'.pointer = e.pointer
  orphans : ∀ b < t.nextBlock, (g.life b).death = none → b ∉ dead →
    (∀ x, par = some x → x.1 ≠ b) → ∀ p, t.heap b = .internal p → ∀ e ∈ p.units,
    PageUnit.isActive e = true → e.pointer ∉ dead
  new_new : ∀ x ∈ news, ∀ y ∈ news, x.2.level = y.2.level → x.1 ≠ y.1 →
    x.2.fence.Disjoint y.2.fence
  new_old : ∀ x ∈ news, ∀ b < t.nextBlock, (g.life b).death = none → b ∉ dead →
    x.2.level = (g.life b).level → x.2.fence.Disjoint (g.life b).fence
  filled_new : ∀ x ∈ news, x.1 ≠ t'.currentRoot.1 →
    filling20Percent cfg (t'.heap x.1) ≤ (t'.heap x.1).activeDeadCount.1
  filled_par : ∀ x, par = some x → x.1 ≠ t'.currentRoot.1 →
    filling20Percent cfg x.2 ≤ x.2.activeDeadCount.1
  root_kept : t.currentRoot.1 ∈ dead ∨ t'.currentRoot.1 = t.currentRoot.1
  root_lt : t'.currentRoot.1 < t'.nextBlock
  root_life : ∃ birth, renew g.life t.commit.clock news dead t'.currentRoot.1 =
    ⟨cfg.keys.full, t'.currentRoot.2, birth, none⟩
  root_child : (t'.heap t'.currentRoot.1).isLeaf = false →
    1 ≤ (t'.heap t'.currentRoot.1).activeDeadCount.1
  level_new : ∀ x ∈ news, x.2.level ≤ t'.currentRoot.2
  level_old : ∀ b < t.nextBlock, (g.life b).death = none → b ∉ dead →
    (g.life b).level ≤ t'.currentRoot.2

namespace Reorg
variable {cfg : Config K} {t t' : MVBTSt K P} {g : Ghost K P} {news : List (ℕ × Life K)}
  {par : Option (ℕ × Node K P)} {dead : List ℕ}

theorem nodup (hr : Reorg cfg t g t' news par dead) : (news.map Prod.fst).Nodup := by
  obtain ⟨buried, hs, -⟩ := hr.smo
  have := hs.nodup
  rwa [List.map_map] at this

theorem alive_not_new (hr : Reorg cfg t g t' news par dead) (h : Living cfg t g) {b : ℕ}
    (hb : b < t.nextBlock) (halive : (g.life b).death = none) : ∀ x ∈ news, x.1 ≠ b := by
  obtain ⟨buried, hs, -⟩ := hr.smo
  intro x hx
  exact hs.not_new hb (h.not_buried halive) (x.1, t'.heap x.1) (List.mem_map_of_mem hx)

theorem next_le (hr : Reorg cfg t g t' news par dead) {b : ℕ} (hb : b < t.nextBlock) :
    b < t'.nextBlock := by
  obtain ⟨buried, hs, -⟩ := hr.smo
  exact (hs.next b).mpr (.inl hb)

theorem block_cases (hr : Reorg cfg t g t' news par dead) {b : ℕ} (hb : b < t'.nextBlock) :
    (∃ x ∈ news, x.1 = b) ∨ (b < t.nextBlock ∧ ∀ x ∈ news, x.1 ≠ b) := by
  obtain ⟨buried, hs, -⟩ := hr.smo
  by_cases hn : ∃ x ∈ news, x.1 = b
  · exact .inl hn
  · rcases (hs.next b).mp hb with hb | ⟨x, hx, rfl⟩
    · exact .inr ⟨hb, fun x hx heq => hn ⟨x, hx, heq⟩⟩
    · obtain ⟨y, hy, rfl⟩ := List.mem_map.mp hx
      exact absurd ⟨y, hy, rfl⟩ hn

theorem heap_kept (hr : Reorg cfg t g t' news par dead) {b : ℕ} (hb : ∀ x ∈ news, x.1 ≠ b)
    (hp : ∀ x, par = some x → x.1 ≠ b) : t'.heap b = t.heap b := by
  obtain ⟨buried, hs, -⟩ := hr.smo
  refine hs.heap_old b (fun x hx => ?_) hp
  obtain ⟨y, hy, rfl⟩ := List.mem_map.mp hx
  exact hb y hy

theorem heap_parent (hr : Reorg cfg t g t' news par dead) {x : ℕ × Node K P} (hx : par = some x) :
    t'.heap x.1 = x.2 := by
  obtain ⟨buried, hs, -⟩ := hr.smo
  exact hs.heap_par x hx

omit [LinearOrder K] in
/-- A kept block that is alive afterwards was alive before and was not replaced. -/
theorem kept_alive {b w : ℕ} {life : ℕ → Life K} (hb : ∀ x ∈ news, x.1 ≠ b)
    (halive : (renew life w news dead b).death = none) :
    b ∉ dead ∧ renew life w news dead b = life b ∧ (life b).death = none := by
  by_cases hd : b ∈ dead
  · rw [renew_dead hb hd] at halive
    cases halive
  · have heq : renew life w news dead b = life b := renew_old hb hd
    rw [heq] at halive
    exact ⟨hd, heq, halive⟩

theorem link_mono (hr : Reorg cfg t g t' news par dead) (h : Living cfg t g) {level : ℕ}
    {e : Entry K} (hl : Link g.life t.nextBlock level e) (hd : e.pointer ∉ dead) :
    Link (renew g.life t.commit.clock news dead) t'.nextBlock level e := by
  obtain ⟨buried, hs, -⟩ := hr.smo
  exact hs.link_renew h (fun x hx => ⟨_, List.mem_map_of_mem hx, rfl⟩) hl hd

theorem node (hr : Reorg cfg t g t' news par dead) (h : Living cfg t g) :
    ∀ b < t'.nextBlock, NodeInv cfg (t.commit.clock + 1) g.log
      (Link (renew g.life t.commit.clock news dead) t'.nextBlock)
      (renew g.life t.commit.clock news dead b) (t'.heap b) := by
  intro b hb
  rcases hr.block_cases hb with ⟨x, hx, rfl⟩ | ⟨hb, hn⟩
  · obtain ⟨hbirth, hdeath, -, hf⟩ := hr.fresh x hx
    rw [renew_new hr.nodup hx]
    have heq : x.2 = ⟨x.2.fence, x.2.level, t.commit.clock, none⟩ := by
      rw [← hbirth, ← hdeath]
    rw [heq]
    exact hf.nodeInv h.logged
  · by_cases hp : ∃ x, par = some x ∧ x.1 = b
    · obtain ⟨x, hx, rfl⟩ := hp
      obtain ⟨-, -, hd, hnode, -⟩ := hr.parent x hx
      rw [renew_old hn hd, hr.heap_parent hx]
      exact hnode
    · have hp' : ∀ x, par = some x → x.1 ≠ b := fun x hx heq => hp ⟨x, hx, heq⟩
      rw [hr.heap_kept hn hp']
      by_cases hd : b ∈ dead
      · rw [renew_dead hn hd]
        exact nodeInv_dies (h.node b hb) (hr.dead_alive b hd).2
      · rw [renew_old hn hd]
        refine nodeInv_stays (h.node b hb) ?_
        intro halive p hpage e he ha hl
        exact hr.link_mono h hl (hr.orphans b hb halive hd hp' p hpage e he ha)

theorem living (hr : Reorg cfg t g t' news par dead) (h : Living cfg t g)
    (roots : List ((ℕ × ℕ) × ℕ)) :
    Living cfg t' ⟨renew g.life t.commit.clock news dead, roots, g.log⟩ := by
  obtain ⟨buried, hs, hburied⟩ := hr.smo
  have hclock := hs.clock
  refine
    { logged := h.logged.mono (by omega)
      born := ?_
      node := ?_
      disjoint := ?_
      filled := ?_
      root_lt := hr.root_lt
      root_life := hr.root_life
      root_child := hr.root_child
      level_le := ?_
      grave := ?_
      grave_ok := hs.grave_ok }
  · intro b hb
    rcases hr.block_cases hb with ⟨x, hx, rfl⟩ | ⟨hb, hn⟩
    · obtain ⟨hbirth, hdeath, hproper, -⟩ := hr.fresh x hx
      simp only [renew_new hr.nodup hx, hbirth, hdeath, hclock]
      exact ⟨hproper, Nat.lt_succ_self _, fun d hd => by cases hd⟩
    · obtain ⟨hproper, hbirth, hdeath⟩ := h.born b hb
      by_cases hd : b ∈ dead
      · simp only [renew_dead hn hd, Life.ended, hclock]
        refine ⟨hproper, by omega, fun d hd => ?_⟩
        cases hd
        exact Nat.lt_succ_self _
      · simp only [renew_old hn hd, hclock]
        exact ⟨hproper, by omega, fun d hd => (hdeath d hd).trans (Nat.lt_succ_self _)⟩
  · rw [hclock]
    exact hr.node h
  · intro a ha b hb hla hlb hlevel hne
    simp only at hla hlb hlevel ⊢
    rcases hr.block_cases ha with ⟨x, hx, rfl⟩ | ⟨ha, hna⟩
    · rw [renew_new hr.nodup hx] at hlevel ⊢
      rcases hr.block_cases hb with ⟨y, hy, rfl⟩ | ⟨hb, hnb⟩
      · rw [renew_new hr.nodup hy] at hlevel ⊢
        exact hr.new_new x hx y hy hlevel hne
      · obtain ⟨hd, heq, halive⟩ := kept_alive hnb hlb
        rw [heq] at hlevel ⊢
        exact hr.new_old x hx b hb halive hd hlevel
    · obtain ⟨hd, heq, halive⟩ := kept_alive hna hla
      rw [heq] at hlevel ⊢
      rcases hr.block_cases hb with ⟨y, hy, rfl⟩ | ⟨hb, hnb⟩
      · rw [renew_new hr.nodup hy] at hlevel ⊢
        exact (hr.new_old y hy a ha halive hd hlevel.symm).symm
      · obtain ⟨hd', heq', halive'⟩ := kept_alive hnb hlb
        rw [heq'] at hlevel ⊢
        exact h.disjoint a ha b hb halive halive' hlevel hne
  · intro b hb hlb hne
    simp only at hlb
    rcases hr.block_cases hb with ⟨x, hx, rfl⟩ | ⟨hb, hn⟩
    · exact hr.filled_new x hx hne
    · obtain ⟨hd, -, halive⟩ := kept_alive hn hlb
      by_cases hp : ∃ x, par = some x ∧ x.1 = b
      · obtain ⟨x, hx, rfl⟩ := hp
        rw [hr.heap_parent hx]
        exact hr.filled_par x hx hne
      · rw [hr.heap_kept hn (fun x hx heq => hp ⟨x, hx, heq⟩)]
        refine h.filled b hb halive ?_
        rintro rfl
        rcases hr.root_kept with hmem | heq
        · exact hd hmem
        · exact hne heq.symm
  · intro b hb hlb
    simp only at hlb ⊢
    rcases hr.block_cases hb with ⟨x, hx, rfl⟩ | ⟨hb, hn⟩
    · rw [renew_new hr.nodup hx]
      exact hr.level_new x hx
    · obtain ⟨hd, heq, halive⟩ := kept_alive hn hlb
      rw [heq]
      exact hr.level_old b hb halive hd
  · intro d hd
    simp only
    rcases hs.grave d hd with ⟨hold, hnew⟩ | ⟨hmem, hv⟩
    · have hn : ∀ x ∈ news, x.1 ≠ d.block :=
        fun x hx => hnew (x.1, t'.heap x.1) (List.mem_map_of_mem hx)
      have hnd : d.block ∉ dead := by
        intro hmem
        have := (hr.dead_alive _ hmem).2
        rw [h.grave d hold] at this
        cases this
      rw [renew_old hn hnd]
      exact h.grave d hold
    · have hmem := hburied _ hmem
      obtain ⟨hlt, halive⟩ := hr.dead_alive _ hmem
      rw [renew_dead (hr.alive_not_new h hlt halive) hmem, hv]
      rfl

theorem advance (hr : Reorg cfg t g t' news par dead) {roots : List ((ℕ × ℕ) × ℕ)}
    (hroots : (t'.root = t.root ∧ roots = g.roots) ∨
      (Chain t'.root roots ∧ roots = (t'.currentRoot, t.commit.clock) :: g.roots ∧
        (renew g.life t.commit.clock news dead t'.currentRoot.1).birth = t.commit.clock)) :
    Advance t g t' ⟨renew g.life t.commit.clock news dead, roots, g.log⟩ := by
  obtain ⟨buried, hs, hburied⟩ := hr.smo
  have hkept : ∀ b < t.nextBlock, (∀ x ∈ news, x.1 ≠ b) →
      Kept t.commit.clock (g.life b) (renew g.life t.commit.clock news dead b) (t.heap b)
        (t'.heap b) := by
    intro b hb hn
    by_cases hp : ∃ x, par = some x ∧ x.1 = b
    · obtain ⟨x, hx, rfl⟩ := hp
      obtain ⟨-, -, hd, -, hview, -⟩ := hr.parent x hx
      refine ⟨.inl (renew_old hn hd), ?_⟩
      rw [hr.heap_parent hx]
      exact hview
    · rw [hr.heap_kept hn (fun x hx heq => hp ⟨x, hx, heq⟩)]
      refine ⟨?_, fun _ _ => .refl _ _⟩
      by_cases hd : b ∈ dead
      · exact .inr ⟨(hr.dead_alive b hd).2, renew_dead hn hd⟩
      · exact .inl (renew_old hn hd)
  refine
    { clock := hs.clock
      raised := hs.raised
      tracked := hs.tracked
      in_place := hs.in_place
      readers := hs.readers
      next := ?_
      births := ?_
      old := ?_
      entries := ?_
      roots := hroots }
  · by_contra hlt
    have := hr.next_le (not_le.mp hlt)
    exact lt_irrefl _ this
  · intro b hb
    rcases hr.block_cases hb with ⟨x, hx, rfl⟩ | ⟨hb, hn⟩
    · obtain ⟨hbirth, hdeath, -⟩ := hr.fresh x hx
      right
      simp only [renew_new hr.nodup hx]
      exact ⟨hbirth, hdeath⟩
    · exact .inl ⟨hb, (hkept b hb hn).life⟩
  · intro b hb
    by_cases hn : ∃ x ∈ news, x.1 = b
    · obtain ⟨x, hx, rfl⟩ := hn
      right
      obtain ⟨-, hdeath, -⟩ := hr.fresh x hx
      rcases hs.source (x.1, t'.heap x.1) (List.mem_map_of_mem hx) with hle | hburied
      · exact absurd hb (not_lt.mpr hle)
      · refine ⟨?_, ?_, hburied⟩
        · simp only [renew_new hr.nodup hx, hdeath]
        · obtain ⟨d, hd, -⟩ := hburied
          cases ht : t.tracker with
          | none => simp [graveyard, ht] at hd
          | some _ => rfl
    · exact .inl (hkept b hb (fun x hx heq => hn ⟨x, hx, heq⟩))
  · intro b hb p' hp' e' he'
    simp only
    rcases hr.block_cases hb with ⟨x, hx, rfl⟩ | ⟨hb, hn⟩
    · left
      obtain ⟨-, -, -, hf⟩ := hr.fresh x hx
      rw [hp'] at hf
      rw [renew_new hr.nodup hx]
      exact hf.units_link e' he'
    · by_cases hp : ∃ x, par = some x ∧ x.1 = b
      · obtain ⟨x, hx, rfl⟩ := hp
        obtain ⟨-, -, hd, -, -, hent⟩ := hr.parent x hx
        rw [hr.heap_parent hx] at hp'
        rcases hent p' hp' e' he' with hl | hold
        · left
          rwa [renew_old hn hd]
        · exact .inr ⟨hb, hkept _ hb hn, hold⟩
      · have hheap := hr.heap_kept hn (fun x hx heq => hp ⟨x, hx, heq⟩)
        rw [hheap] at hp'
        exact .inr ⟨hb, hkept b hb hn, p', hp', e', he', rfl, rfl, rfl⟩

end Reorg

end CMVBT.Reorganization
