import CMVBT.RandomOperations
import CMVBT.TreeShape

/-!
# The packed lengths count the units

Plain operations, updates in place, reader events and operations on random keys
in any order. In every state of the current tree the two halves of a page's length
are the numbers of its live and of its dead units, as long as two defects are not
met: the in-place branch of `UpdateRand`, which shifts the lengths although the
record it overwrites is live, and the random descent that goes on repairing the
children of a directory which is full, or left with too few of them.
-/
namespace CMVBT.PackedCounters
open KeyInterval LastMatch FenceTiling VersionedLog PageModel FrugalList CommitClock Tracker
open CMVBT.Tree
open BlockSupply WritePath ReadPath LeafHistory TreeInvariant PageRewrite NewPages ChildRepair
open RootRewrite Descent LeafWrite Reference WriteOperations FreshTree TreeShape InPlaceUpdate
open ReaderHistory RandomOperations

/-! ## The random descent -/

section Descent
variable {K P : Type} [LinearOrder K]

/-- The entry that the next draw picks in a directory. -/
def drawnEntry (t : MVBTSt K P) (curr : ℕ) (draws : Draws) : Option (Entry K) :=
  match t.heap curr with
  | .leaf _ => none
  | .internal page =>
    let live := (t.heap curr).activeDeadCount.1
    page.asUnits[activePosition page.asUnits 0 (if live = 0 then 0 else draws 0 % live)]?

/-- The active entries that a directory is left with at least. -/
def fewestEntries (cfg : Config K) (t : MVBTSt K P) (b : ℕ) : ℕ :=
  if b = t.currentRoot.1 then 1 else filling20Percent cfg (t.heap b)

/-- The directory is not full, and a merge of its child with another leaves it filled. -/
def TakesRepair (cfg : Config K) (t : MVBTSt K P) (b : ℕ) (child : Node K P) : Prop :=
  (t.heap b).activeDeadCount.1 + (t.heap b).activeDeadCount.2 <
      overflowUnitsCount cfg (t.heap b) ∧
    (unsafeDegree cfg child = .activeUnderflow →
      fewestEntries cfg t b < (t.heap b).activeDeadCount.1)

/-- If the drawn child needs a repair, its directory takes it. -/
def RepairFits (cfg : Config K) (t : MVBTSt K P) (curr : ℕ) (draws : Draws) : Prop :=
  ∀ e ∈ drawnEntry t curr draws, unsafeDegree cfg (t.heap e.pointer) ≠ .ok →
    TakesRepair cfg t curr (t.heap e.pointer)

instance (cfg : Config K) (t : MVBTSt K P) (b : ℕ) (child : Node K P) :
    Decidable (TakesRepair cfg t b child) :=
  inferInstanceAs (Decidable (_ ∧ _))

instance (cfg : Config K) (t : MVBTSt K P) (curr : ℕ) (draws : Draws) :
    Decidable (RepairFits cfg t curr draws) :=
  inferInstanceAs (Decidable (∀ e ∈ drawnEntry t curr draws, _))

/-- The descent repairs a child only below a directory that takes the repair. -/
def RepairsSafely (cfg : Config K) : ℕ → MVBTSt K P → Option (ℕ × Interval K) → Draws → Prop
  | 0, _, _, _ => True
  | fuel + 1, t, none, draws => ∀ t' root, retrieveRootWriteOlc cfg t = .ok (t', root) →
      RepairsSafely cfg fuel t' (some (root, cfg.keys.full)) draws
  | fuel + 1, t, some (curr, _), draws =>
      (∀ fence next, randomRound cfg t curr draws = .ok (.enter fence next) →
        RepairsSafely cfg fuel t (some (next, fence)) (drawsAfter t curr draws)) ∧
      (∀ fence t', randomRound cfg t curr draws = .ok (.repair fence t') →
        RepairFits cfg t curr draws ∧
          RepairsSafely cfg fuel t' (some (curr, fence)) (drawsAfter t curr draws)) ∧
      ∀ t', randomRound cfg t curr draws = .ok (.restart t') →
        RepairFits cfg t curr draws ∧ RepairsSafely cfg fuel t' none (drawsAfter t curr draws)

variable {cfg : Config K} {t : MVBTSt K P} {g : Ghost K P} {curr : ℕ} {fence : Interval K}

/-- A living block that the random descent stands on. A leaf is entered only if it
needs no repair. -/
structure Standing (cfg : Config K) (t : MVBTSt K P) (g : Ghost K P) (curr : ℕ)
    (fence : Interval K) : Prop where
  used : curr < t.nextBlock
  alive : (g.life curr).death = none
  leaf : (g.life curr).level = 1 → Safe cfg t curr ∧ (g.life curr).fence = fence

section Takes
variable {i : ℕ} {p : InternalPage K} {e : Entry K}

theorem TakesRepair.slots (h : Living cfg t g) (hx : Child t g curr i p e) {child : Node K P}
    (ht : TakesRepair cfg t curr child) : p.units.length + 2 ≤ cfg.fanOut := by
  have hroom := ht.1
  have hsum : p.activeDeadCount.1 + p.activeDeadCount.2 = p.units.length :=
    (hx.dir h).counted.sumLen
  rw [hx.page] at hroom
  simp only [overflowUnitsCount, Node.isLeaf, Node.activeDeadCount, Bool.false_eq_true,
    if_false] at hroom
  omega

theorem TakesRepair.ready (h : Living cfg t g) (hx : Child t g curr i p e) {child : Node K P}
    (ht : TakesRepair cfg t curr child) (hdeg : unsafeDegree cfg child = .activeUnderflow) :
    Ready cfg t curr p := by
  refine ⟨ht.slots h hx, ?_⟩
  have hfew := ht.2 hdeg
  have hactive : p.activeDeadCount.1 = p.units.countP PageUnit.isActive :=
    (hx.dir h).counted.active
  rw [← List.countP_eq_length_filter, ← hactive]
  simp only [fewestEntries, hx.page, filling20Percent, maxUnits, Node.isLeaf,
    Node.activeDeadCount, Bool.false_eq_true, if_false] at hfew
  split_ifs at hfew ⊢ <;> omega

end Takes

/-- A repair leaves the descent on the same directory. -/
theorem Standing.repaired (h : Inv cfg t g) (hs : Standing cfg t g curr fence)
    {p : InternalPage K} (hp : t.heap curr = .internal p) {f : Interval K} {t' : MVBTSt K P}
    {g' : Ghost K P} (hr : Repaired cfg t g curr f t' g') (fence' : Interval K) :
    Standing cfg t' g' curr fence' := by
  have hnode := h.living.node curr hs.used
  rw [hp] at hnode
  refine ⟨hs.used.trans_le hr.advance.next, by rw [hr.life]; exact hs.alive, fun hone => ?_⟩
  rw [hr.life] at hone
  have := hnode.1
  omega

/-- The three things a round can do below a directory. -/
theorem randomRound_internal (h : Inv cfg t g) (hc : Roomy cfg) (hs : Standing cfg t g curr fence)
    {p : InternalPage K} (hp : t.heap curr = .internal p) {draws : Draws} {r : RandomRound K P}
    (hrun : randomRound cfg t curr draws = .ok r) :
    (∃ f next, r = .enter f next ∧ Standing cfg t g next f) ∨
    ∃ f t', (r = .repair f t' ∨ r = .restart t') ∧ (RepairFits cfg t curr draws →
      ∃ g', Inv cfg t' g' ∧ Standing cfg t' g' curr f) := by
  have hnode := h.living.node curr hs.used
  rw [hp] at hnode
  simp only [randomRound, hp, hnode.counted_internal] at hrun
  have hdrawn : drawnEntry t curr draws = p.units[activePosition p.units 0
      (if (t.heap curr).activeDeadCount.1 = 0 then 0
        else draws 0 % (t.heap curr).activeDeadCount.1)]? := by
    simp only [drawnEntry, hp, hnode.counted_internal]
  rw [hp] at hdrawn
  generalize activePosition p.units 0 _ = i at hrun hdrawn
  cases he : p.units[i]? with
  | none =>
    rw [he] at hrun
    cases hrun
  | some e =>
    simp only [he] at hrun
    split_ifs at hrun with hobs
    have hx : Child t g curr i p e := ⟨hs.used, hs.alive, hp, he, by simp [PageUnit.isActive, hobs]⟩
    obtain ⟨hel, hef, hev⟩ := hx.child_life h.living
    have htakes : RepairFits cfg t curr draws → unsafeDegree cfg (t.heap e.pointer) ≠ .ok →
        TakesRepair cfg t curr (t.heap e.pointer) := fun hn => hn e (hdrawn.trans he)
    have hafter : ∀ t' : MVBTSt K P, afterRepair cfg t' curr e.fence = .repair e.fence t' ∨
        afterRepair cfg t' curr e.fence = .restart t' := by
      intro t'
      unfold afterRepair
      split_ifs
      · exact .inr rfl
      · exact .inl rfl
    cases hdeg : unsafeDegree cfg (t.heap e.pointer) with
    | ok =>
      simp only [hdeg] at hrun
      cases hrun
      refine .inl ⟨e.fence, e.pointer, rfl, (hx.link h.living).1, hel, fun _ => ⟨?_, hef⟩⟩
      rw [Safe, if_neg (hx.ne_root h.living)]
      exact hdeg
    | overflow =>
      simp only [hdeg, bind, Except.bind] at hrun
      cases hov : onOverflowNode cfg t curr e.pointer i with
      | error fault =>
        rw [hov] at hrun
        cases hrun
      | ok t' =>
        rw [hov] at hrun
        cases hrun
        refine .inr ⟨e.fence, t', hafter t', fun hn => ?_⟩
        obtain ⟨t₂, g₂, heq, hr⟩ := onOverflowNode_repaired h hc hx hdeg
          ((htakes hn (by rw [hdeg]; decide)).slots h.living hx)
        rw [hov] at heq
        cases heq
        exact ⟨g₂, hr.inv, hs.repaired h hp hr e.fence⟩
    | activeUnderflow =>
      simp only [hdeg, bind, Except.bind] at hrun
      cases hun : onUnderflowNode cfg t curr e.pointer i with
      | error fault =>
        rw [hun] at hrun
        cases hrun
      | ok out =>
        rw [hun] at hrun
        cases out with
        | none =>
          cases hrun
          exact .inr ⟨fence, t, .inr rfl, fun _ => ⟨g, h, hs⟩⟩
        | some t' =>
          cases hrun
          refine .inr ⟨e.fence, t', hafter t', fun hn => ?_⟩
          obtain ⟨t₂, g₂, heq, hr⟩ := onUnderflowNode_repaired h hc hx hdeg
            ((htakes hn (by rw [hdeg]; decide)).ready h.living hx hdeg)
          rw [hun] at heq
          cases heq
          exact ⟨g₂, hr.inv, hs.repaired h hp hr e.fence⟩

/-- The random descent ends at a leaf that may be written. -/
theorem traversalWriteRand_standing (hc : Roomy cfg) :
    ∀ (fuel : ℕ) (t : MVBTSt K P) (g : Ghost K P) (pos : Option (ℕ × Interval K)) (draws : Draws),
      Inv cfg t g → (∀ x, pos = some x → Standing cfg t g x.1 x.2) →
      RepairsSafely cfg fuel t pos draws →
      ∀ t' fence leaf draws',
        traversalWriteRand cfg fuel t pos draws = .ok (t', fence, leaf, draws') →
        ∃ g', Inv cfg t' g' ∧ Standing cfg t' g' leaf fence ∧ (g'.life leaf).level = 1 := by
  intro fuel
  induction fuel with
  | zero =>
    intro t g pos draws _ _ _ t' fence leaf draws' hrun
    cases hrun
  | succ fuel ih =>
    intro t g pos draws h hpos hsafe t' fence' leaf draws' hrun
    cases pos with
    | none =>
      obtain ⟨t₁, g₁, hret, hinv, -, -, hready⟩ := retrieveRoot_ready h hc
      simp only [traversalWriteRand, hret, bind, Except.bind] at hrun
      refine ih t₁ g₁ _ draws hinv ?_ (hsafe t₁ _ hret) t' fence' leaf draws' hrun
      intro x hx
      obtain rfl := Option.some.inj hx
      obtain ⟨birth, hlife⟩ := hinv.living.root_life
      refine ⟨hinv.living.root_lt, by rw [hlife], fun _ => ⟨?_, by rw [hlife]⟩⟩
      rwa [Safe, if_pos rfl]
    | some x =>
      obtain ⟨curr, fence⟩ := x
      have hs : Standing cfg t g curr fence := hpos _ rfl
      obtain ⟨henter, hrepair, hrestart⟩ := hsafe
      cases hr : randomRound cfg t curr draws with
      | error fault =>
        simp only [traversalWriteRand, hr, bind, Except.bind] at hrun
        cases hrun
      | ok r =>
        simp only [traversalWriteRand, hr, bind, Except.bind] at hrun
        cases hp : t.heap curr with
        | leaf p =>
          have hleaf : r = .arrive := by
            simp only [randomRound, hp] at hr
            exact (Except.ok.inj hr).symm
          subst hleaf
          have hnode := h.living.node curr hs.used
          rw [hp] at hnode
          cases hrun
          exact ⟨g, h, hs, hnode.1⟩
        | internal p =>
          rcases randomRound_internal h hc hs hp hr with ⟨f, next, rfl, hnext⟩ |
            ⟨f, t₁, rfl | rfl, hkeeps⟩
          · refine ih t g _ _ h ?_ (henter f next hr) t' fence' leaf draws' hrun
            intro x hx
            obtain rfl := Option.some.inj hx
            exact hnext
          · obtain ⟨hn, hrest⟩ := hrepair f t₁ hr
            obtain ⟨g₁, hinv, hs₁⟩ := hkeeps hn
            refine ih t₁ g₁ _ _ hinv ?_ hrest t' fence' leaf draws' hrun
            intro x hx
            obtain rfl := Option.some.inj hx
            exact hs₁
          · obtain ⟨hn, hrest⟩ := hrestart t₁ hr
            obtain ⟨g₁, hinv, -⟩ := hkeeps hn
            exact ih t₁ g₁ none _ hinv (fun x hx => by cases hx) hrest t' fence' leaf draws' hrun

/-- On a tree that has drawn no version the descent stays where it is. -/
theorem traversalWriteRand_fresh_eq (hc : Roomy cfg) (h : Fresh t) (fuel : ℕ) (draws : Draws) :
    traversalWriteRand cfg fuel t none draws = .error .outOfFuel ∨
      traversalWriteRand cfg fuel t none draws =
        .ok (t, cfg.keys.full, 0, drawsAfter t 0 draws) := by
  rcases fuel with _ | _ | fuel
  · exact .inl rfl
  · refine .inl ?_
    simp only [traversalWriteRand, retrieveRoot_fresh hc h, bind, Except.bind]
  · have hround : randomRound cfg t 0 draws = .ok .arrive := by
      simp only [randomRound, h.heap, Node.newLeaf]
    refine .inr ?_
    simp only [traversalWriteRand, retrieveRoot_fresh hc h, hround, bind, Except.bind, pure,
      Except.pure]

end Descent

/-! ## The operations -/

section Operations
variable {K P : Type} [LinearOrder K] {cfg : Config K} {t : MVBTSt K P} {g : Ghost K P}
  {leaf : ℕ} {fence : Interval K}

/-- The leaf that the descent stands on, for a key of its fence. -/
theorem Standing.leafAt (h : Inv cfg t g) (hs : Standing cfg t g leaf fence)
    (hlevel : (g.life leaf).level = 1) {key : K} (hk : key ∈ fence) :
    ∃ p, LeafAt cfg t g leaf key p := by
  obtain ⟨hsafe, hfence⟩ := hs.leaf hlevel
  exact leafAt_onPath h ⟨hs.used, hs.alive, by rwa [hfence], hsafe⟩ hlevel

theorem Standing.page (h : Inv cfg t g) (hs : Standing cfg t g leaf fence)
    (hlevel : (g.life leaf).level = 1) :
    ∃ p, t.heap leaf = .leaf p ∧ LeafInv cfg.numRecords t.commit.clock g.log (g.life leaf) p := by
  obtain ⟨-, hfence⟩ := hs.leaf hlevel
  obtain ⟨p, hl⟩ := hs.leafAt h hlevel (hfence ▸ (h.living.born leaf hs.used).1.lower_mem)
  exact ⟨p, hl.page, hl.leaf⟩

/-- A random live record of the leaf, with its key in the fence. -/
theorem Standing.liveRecord [Inhabited K] (h : Inv cfg t g) (hs : Standing cfg t g leaf fence)
    (hlevel : (g.life leaf).level = 1) {p : LeafPage K P} (hp : t.heap leaf = .leaf p)
    (hleaf : LeafInv cfg.numRecords t.commit.clock g.log (g.life leaf) p)
    (hlive : p.activeDeadCount.1 ≠ 0) (draw : ℕ) :
    ∃ r, liveKey p (draw % p.activeDeadCount.1) = r.key ∧ PageUnit.isActive r = true ∧
      lastRecord p r.key = some r ∧ LeafAt cfg t g leaf r.key p := by
  have hcount : p.activeDeadCount.1 = (p.units.filter PageUnit.isActive).length := by
    rw [← List.countP_eq_length_filter]
    exact hleaf.counted.active
  have hlt : draw % p.activeDeadCount.1 < (p.units.filter PageUnit.isActive).length := by
    rw [← hcount]
    exact Nat.mod_lt _ (Nat.pos_of_ne_zero hlive)
  have hget := List.getElem?_eq_getElem hlt
  have hmem := List.getElem_mem hlt
  generalize (p.units.filter PageUnit.isActive)[draw % p.activeDeadCount.1] = r at hget hmem
  obtain ⟨hr, ha⟩ := List.mem_filter.mp hmem
  have hk : r.key ∈ (g.life leaf).fence := span_within.mp
    ((hleaf.tiling h.living.logged hs.alive (h.living.born leaf hs.used).2.1).within r hmem)
  rw [(hs.leaf hlevel).2] at hk
  obtain ⟨p', hl⟩ := hs.leafAt h hlevel hk
  obtain rfl : p' = p := by
    have := hl.page.symm.trans hp
    cases this
    rfl
  refine ⟨r, ?_, ha, ?_, hl⟩
  · simp only [liveKey, hleaf.counted.asUnits, hget, Option.map_some, Option.getD_some]
  · rw [lastRecord_eq hleaf]
    exact hleaf.newest hr ha

/-- A leaf without live records is the root, and the tree holds no key. -/
theorem Standing.nothing_live (h : Inv cfg t g) (hs : Standing cfg t g leaf fence)
    (hlevel : (g.life leaf).level = 1) {p : LeafPage K P} (hp : t.heap leaf = .leaf p)
    (hnone : p.activeDeadCount.1 = 0) (k : K) : live g.log k = none := by
  have hl : ∀ key ∈ (g.life leaf).fence, LeafAt cfg t g leaf key p := by
    intro key hk
    rw [(hs.leaf hlevel).2] at hk
    obtain ⟨p', hl⟩ := hs.leafAt h hlevel hk
    have := hl.page.symm.trans hp
    cases this
    exact hl
  have hlower := hl _ (h.living.born leaf hs.used).1.lower_mem
  have hcount : p.units.countP PageUnit.isActive = 0 := by
    rw [← hlower.leaf.counted.active]
    exact hnone
  have hroot : leaf = t.currentRoot.1 := by
    by_contra hne
    have := hlower.filled hne
    omega
  obtain ⟨birth, hlife⟩ := h.living.root_life
  have hk := hl k (by rw [hroot, hlife]; exact cfg.keys.mem_full k)
  cases hlive : live g.log k with
  | none => rfl
  | some q =>
    obtain ⟨r, hr, ha, -⟩ := hk.live_iff.mp hlive
    rw [lastRecord_eq hk.leaf] at hr
    exact absurd ha (List.countP_eq_zero.mp hcount r (findRev?_mem hr))

/-- `UpdateRand` would overwrite a record in place. -/
def overwritesRand [Inhabited K] (cfg : Config K) (fuel : ℕ) (t : MVBTSt K P) (draws : Draws) :
    Bool :=
  match traversalWriteRand cfg fuel t none draws with
  | .error _ => false
  | .ok (t, _, leaf, draws) =>
    match asLeafPage t leaf with
    | .error _ => false
    | .ok page =>
      (inPlaceTarget t page (liveKey page (draws 0 % page.activeDeadCount.1))).isSome

variable [Inhabited K] [Inhabited P] {fuel : ℕ} {draws : Draws} {t' : MVBTSt K P}
  {res : RandomResult K}

variable {t₁ : MVBTSt K P} {g₁ : Ghost K P} {draws₁ : Draws}

/-- What `UpdateRand` does at the leaf it has come to. -/
theorem dispatchUpdateRand_landed
    (htr : traversalWriteRand cfg fuel t none draws = .ok (t₁, fence, leaf, draws₁))
    (h : Inv cfg t₁ g₁) (hs : Standing cfg t₁ g₁ leaf fence) (hlevel : (g₁.life leaf).level = 1)
    (hplain : overwritesRand cfg fuel t draws = false) :
    (dispatchUpdateRand cfg fuel t draws = .error .emptyRange ∧ ∀ k, live g₁.log k = none) ∨
    ∃ t' key old, dispatchUpdateRand cfg fuel t draws =
        .ok (t', .updatedRand key t₁.commit.clock) ∧ live g₁.log key = some old ∧
      Carries cfg t' (⟨t₁.commit.clock, key, some default⟩ :: g₁.log) ∧
      t'.updateInPlace = t₁.updateInPlace := by
  obtain ⟨p, hp, hleaf⟩ := hs.page h hlevel
  have hpage : asLeafPage t₁ leaf = .ok p := by rw [asLeafPage, hp]
  simp only [dispatchUpdateRand, htr, bind, Except.bind, hpage]
  simp only [overwritesRand, htr, hpage] at hplain
  by_cases hlive : p.activeDeadCount.1 = 0
  · rw [if_pos hlive]
    exact .inl ⟨rfl, hs.nothing_live h hlevel hp hlive⟩
  · rw [if_neg hlive]
    obtain ⟨r, hkey, ha, hlast, hl⟩ := hs.liveRecord h hlevel hp hleaf hlive (draws₁ 0)
    have hin := Option.not_isSome_iff_eq_none.mp (Bool.eq_false_iff.mp hplain)
    obtain ⟨p₁, p', info, hpush, hdel, hinv', hint⟩ := hl.update_active hlast ha (default : P)
    rw [hkey] at hin
    simp only [hkey, hin]
    rw [show (⟨r.key, .new t₁.startTxCommit.2, default⟩ : RecordPoint K P) =
      pushed r.key t₁.commit.clock default from rfl, hpush]
    simp only [show t₁.startTxCommit.2 = t₁.commit.clock from rfl, hdel, pure, Except.pure]
    exact .inr ⟨_, r.key, r.payload, rfl, hl.live_iff.mpr ⟨r, hlast, ha, rfl⟩,
      .inr ⟨_, hinv', rfl⟩, hint.in_place⟩

theorem dispatchUpdateRand_inv (hc : Roomy cfg) (h : Inv cfg t g)
    (hsafe : RepairsSafely cfg fuel t none draws) (hplain : overwritesRand cfg fuel t draws = false)
    (hrun : dispatchUpdateRand cfg fuel t draws = .ok (t', res)) :
    ∃ log, Carries cfg t' log := by
  cases htr : traversalWriteRand cfg fuel t none draws with
  | error fault =>
    simp only [dispatchUpdateRand, htr, bind, Except.bind] at hrun
    cases hrun
  | ok out =>
    obtain ⟨t₁, fence, leaf, draws₁⟩ := out
    obtain ⟨g₁, hinv, hs, hlevel⟩ := traversalWriteRand_standing hc fuel t g none draws h
      (fun x hx => by cases hx) hsafe t₁ fence leaf draws₁ htr
    rcases dispatchUpdateRand_landed htr hinv hs hlevel hplain with ⟨hrun', -⟩ |
      ⟨t₂, key, old, hrun', -, hcar, -⟩
    · rw [hrun'] at hrun
      cases hrun
    · rw [hrun'] at hrun
      cases hrun
      exact ⟨_, hcar⟩

omit [Inhabited P] in
/-- What `DeleteRand` does at the leaf it has come to. -/
theorem dispatchDeleteRand_landed
    (htr : traversalWriteRand cfg fuel t none draws = .ok (t₁, fence, leaf, draws₁))
    (h : Inv cfg t₁ g₁) (hs : Standing cfg t₁ g₁ leaf fence) (hlevel : (g₁.life leaf).level = 1) :
    (dispatchDeleteRand cfg fuel t draws = .error .emptyRange ∧ ∀ k, live g₁.log k = none) ∨
    ∃ t' key old, dispatchDeleteRand cfg fuel t draws =
        .ok (t', .deletedRand key t₁.commit.clock) ∧ live g₁.log key = some old ∧
      Carries cfg t' (⟨t₁.commit.clock, key, none⟩ :: g₁.log) ∧
      t'.updateInPlace = t₁.updateInPlace := by
  obtain ⟨p, hp, hleaf⟩ := hs.page h hlevel
  have hpage : asLeafPage t₁ leaf = .ok p := by rw [asLeafPage, hp]
  simp only [dispatchDeleteRand, htr, bind, Except.bind, hpage]
  by_cases hlive : p.activeDeadCount.1 = 0
  · rw [if_pos hlive]
    exact .inl ⟨rfl, hs.nothing_live h hlevel hp hlive⟩
  · rw [if_neg hlive]
    obtain ⟨r, hkey, ha, hlast, hl⟩ := hs.liveRecord h hlevel hp hleaf hlive (draws₁ 0)
    obtain ⟨p', info, hdel, hinv', hint⟩ := hl.delete_active hlast ha
    rw [hkey]
    simp only [show t₁.startTxCommit.2 = t₁.commit.clock from rfl, hdel, pure, Except.pure]
    exact .inr ⟨_, r.key, r.payload, rfl, hl.live_iff.mpr ⟨r, hlast, ha, rfl⟩,
      .inr ⟨_, hinv', rfl⟩, hint.in_place⟩

omit [Inhabited P] in
theorem dispatchDeleteRand_inv (hc : Roomy cfg) (h : Inv cfg t g)
    (hsafe : RepairsSafely cfg fuel t none draws)
    (hrun : dispatchDeleteRand cfg fuel t draws = .ok (t', res)) :
    ∃ log, Carries cfg t' log := by
  cases htr : traversalWriteRand cfg fuel t none draws with
  | error fault =>
    simp only [dispatchDeleteRand, htr, bind, Except.bind] at hrun
    cases hrun
  | ok out =>
    obtain ⟨t₁, fence, leaf, draws₁⟩ := out
    obtain ⟨g₁, hinv, hs, hlevel⟩ := traversalWriteRand_standing hc fuel t g none draws h
      (fun x hx => by cases hx) hsafe t₁ fence leaf draws₁ htr
    rcases dispatchDeleteRand_landed htr hinv hs hlevel with ⟨hrun', -⟩ |
      ⟨t₂, key, old, hrun', -, hcar, -⟩
    · rw [hrun'] at hrun
      cases hrun
    · rw [hrun'] at hrun
      cases hrun
      exact ⟨_, hcar⟩

omit [LinearOrder K] [Inhabited K] [Inhabited P] in
theorem activeDeadCount_new : (Page.new : LeafPage K P).activeDeadCount.1 = 0 := by
  simp [Page.activeDeadCount, Page.new, activeLen]

/-- On a tree that has drawn no version there is no live record to choose from. -/
theorem dispatchUpdateRand_fresh (hc : Roomy cfg) (h : Fresh t) :
    dispatchUpdateRand cfg fuel t draws = .error .outOfFuel ∨
      dispatchUpdateRand cfg fuel t draws = .error .emptyRange := by
  rcases traversalWriteRand_fresh_eq hc h fuel draws with htr | htr
  · left
    simp only [dispatchUpdateRand, htr, bind, Except.bind]
  · right
    simp only [dispatchUpdateRand, htr, bind, Except.bind, asLeafPage_fresh h,
      activeDeadCount_new, if_true]

omit [Inhabited P] in
theorem dispatchDeleteRand_fresh (hc : Roomy cfg) (h : Fresh t) :
    dispatchDeleteRand cfg fuel t draws = .error .outOfFuel ∨
      dispatchDeleteRand cfg fuel t draws = .error .emptyRange := by
  rcases traversalWriteRand_fresh_eq hc h fuel draws with htr | htr
  · left
    simp only [dispatchDeleteRand, htr, bind, Except.bind]
  · right
    simp only [dispatchDeleteRand, htr, bind, Except.bind, asLeafPage_fresh h,
      activeDeadCount_new, if_true]

end Operations

section Insert
variable {P : Type} [Inhabited P] {cfg : Config UInt64} {t t' : MVBTSt UInt64 P}
  {fuel : ℕ} {draws draws' : Draws} {fence : Interval UInt64}

theorem randomKey_mem (hle : fence.lower ≤ fence.upper) (draw : ℕ) :
    randomKey fence draw ∈ fence := by
  have hmod : draw % (fence.upper.toNat - fence.lower.toNat + 1) <
      fence.upper.toNat - fence.lower.toNat + 1 := Nat.mod_lt _ (Nat.succ_pos _)
  have hle' := UInt64.le_iff_toNat_le.mp hle
  have hlt := fence.upper.toNat_lt
  have hnat : (randomKey fence draw).toNat = fence.lower.toNat +
      draw % (fence.upper.toNat - fence.lower.toNat + 1) := by
    rw [randomKey, UInt64.toNat_ofNat']
    exact Nat.mod_eq_of_lt (by omega)
  constructor
  · rw [UInt64.le_iff_toNat_le, hnat]
    omega
  · rw [UInt64.le_iff_toNat_le, hnat]
    omega

omit [Inhabited P] in
/-- A generated key lies in the fence and is not live in the leaf. -/
theorem generateKey_some {page : LeafPage UInt64 P} (hle : fence.lower ≤ fence.upper) {key : UInt64} :
    ∀ (left : ℕ) (draws : Draws), generateKey page fence left draws = (some key, draws') →
      key ∈ fence ∧ ((lastRecord page key).map (fun r => !r.version.isDeleted)).getD false = false := by
  intro left
  induction left with
  | zero =>
    intro draws hgen
    rw [generateKey] at hgen
    split_ifs at hgen with hlive
    · cases hgen
    · cases hgen
      exact ⟨randomKey_mem hle _, Bool.eq_false_iff.mpr hlive⟩
  | succ left ih =>
    intro draws hgen
    rw [generateKey] at hgen
    split_ifs at hgen with hlive
    · exact ih draws.rest hgen
    · cases hgen
      exact ⟨randomKey_mem hle _, Bool.eq_false_iff.mpr hlive⟩

/-- What one call of `InsertRand` does at the leaf it has come to. -/
theorem insertRandOnce_landed {t₁ : MVBTSt UInt64 P} {g₁ : Ghost UInt64 P} {leaf : ℕ}
    {draws₁ : Draws}
    (htr : traversalWriteRand cfg fuel t none draws = .ok (t₁, fence, leaf, draws₁))
    (h : Inv cfg t₁ g₁) (hs : Standing cfg t₁ g₁ leaf fence) (hlevel : (g₁.life leaf).level = 1) :
    (∃ draws', insertRandOnce cfg fuel t draws = .ok (t₁, none, draws')) ∨
    ∃ t' key draws', insertRandOnce cfg fuel t draws =
        .ok (t', some (.insertedRand key t₁.commit.clock), draws') ∧ key ∈ fence ∧
      live g₁.log key = none ∧
      Carries cfg t' (⟨t₁.commit.clock, key, some default⟩ :: g₁.log) ∧
      t'.updateInPlace = t₁.updateInPlace := by
  obtain ⟨p, hp, hleaf⟩ := hs.page h hlevel
  have hpage : asLeafPage t₁ leaf = .ok p := by rw [asLeafPage, hp]
  have hproper := (h.living.born leaf hs.used).1
  rw [(hs.leaf hlevel).2] at hproper
  have hle : fence.lower ≤ fence.upper := hproper.lower_mem.2
  simp only [insertRandOnce, htr, bind, Except.bind, hpage, if_neg (not_lt.mpr hle)]
  cases hgen : generateKey p fence randAttemptsMax draws₁ with
  | mk found draws₂ =>
    cases found with
    | none => exact .inl ⟨draws₂, rfl⟩
    | some key =>
      obtain ⟨hk, hno⟩ := generateKey_some hle _ _ hgen
      obtain ⟨p', hl⟩ := hs.leafAt h hlevel hk
      obtain rfl : p' = p := by
        have := hl.page.symm.trans hp
        cases this
        rfl
      have hnone : live g₁.log key = none := by
        cases hlive : live g₁.log key with
        | none => rfl
        | some q =>
          obtain ⟨r, hr, ha, -⟩ := hl.live_iff.mp hlive
          have hd : r.version.isDeleted = false := by simpa [PageUnit.isActive] using ha
          simp [hr, hd] at hno
      obtain ⟨p₁, hpush, hinv', hint⟩ := hl.push hnone (default : P)
      simp only
      rw [show (⟨key, .new t₁.startTxCommit.2, default⟩ : RecordPoint UInt64 P) =
        pushed key t₁.commit.clock default from rfl, hpush]
      exact .inr ⟨_, key, draws₂, rfl, hk, hnone, .inr ⟨_, hinv', rfl⟩, hint.in_place⟩

/-- One call keeps the invariant, whether or not it finds a key. -/
theorem insertRandOnce_inv (hc : Roomy cfg) {g : Ghost UInt64 P} (h : Inv cfg t g)
    (hsafe : RepairsSafely cfg fuel t none draws) {res : Option (RandomResult UInt64)}
    (hrun : insertRandOnce cfg fuel t draws = .ok (t', res, draws')) :
    ∃ log, Carries cfg t' log := by
  cases htr : traversalWriteRand cfg fuel t none draws with
  | error fault =>
    simp only [insertRandOnce, htr, bind, Except.bind] at hrun
    cases hrun
  | ok out =>
    obtain ⟨t₁, fence, leaf, draws₁⟩ := out
    obtain ⟨g₁, hinv, hs, hlevel⟩ := traversalWriteRand_standing hc fuel t g none draws h
      (fun x hx => by cases hx) hsafe t₁ fence leaf draws₁ htr
    rcases insertRandOnce_landed htr hinv hs hlevel with ⟨draws₂, hrun'⟩ |
      ⟨t₂, key, draws₂, hrun', -, -, hcar, -⟩
    · rw [hrun'] at hrun
      cases hrun
      exact ⟨g₁.log, .inr ⟨g₁, hinv, rfl⟩⟩
    · rw [hrun'] at hrun
      cases hrun
      exact ⟨_, hcar⟩

/-- On a tree that has drawn no version the first key drawn is inserted. -/
theorem insertRandOnce_fresh (hc : Roomy cfg) (h : Fresh t) :
    insertRandOnce cfg fuel t draws = .error .outOfFuel ∨
    ∃ t' key draws', insertRandOnce cfg fuel t draws =
        .ok (t', some (.insertedRand key startVersion), draws') ∧ key ∈ cfg.keys.full ∧
      Carries cfg t' [⟨startVersion, key, some default⟩] ∧
      t'.updateInPlace = t.updateInPlace := by
  rcases traversalWriteRand_fresh_eq hc h fuel draws with htr | htr
  · left
    simp only [insertRandOnce, htr, bind, Except.bind]
  · right
    have hle : cfg.keys.full.lower ≤ cfg.keys.full.upper := cfg.keys.full_proper.lower_mem.2
    have hgen : generateKey (Page.new : LeafPage UInt64 P) cfg.keys.full randAttemptsMax
        (drawsAfter t 0 draws) = (some (randomKey cfg.keys.full (drawsAfter t 0 draws 0)),
          (drawsAfter t 0 draws).rest) := by
      rw [randAttemptsMax, generateKey]
      simp only [lastRecord_new, Option.map_none, Option.getD_none, Bool.false_eq_true, if_false]
    have hpush : (Page.new : LeafPage UInt64 P).pushUncommitted cfg.numRecords
        (pushed (randomKey cfg.keys.full (drawsAfter t 0 draws 0)) t.startTxCommit.2 default)
        (Page.sumLen (Page.new : LeafPage UInt64 P)) =
        .ok ⟨0, [pushed (randomKey cfg.keys.full (drawsAfter t 0 draws 0)) t.startTxCommit.2
          default]⟩ := by
      refine (Page.new_counted hc.numRecords_lt).pushUncommitted ?_ _
      have := hc.numRecords_ge
      simp only [Page.new, List.length_nil]
      omega
    have hversion : t.startTxCommit.2 = startVersion := h.clock
    have hsingle := (h.insert hc (randomKey cfg.keys.full (drawsAfter t 0 draws 0))
      (default : P)).inv
    rw [written, h.clock] at hsingle
    refine ⟨_, randomKey cfg.keys.full (drawsAfter t 0 draws 0), (drawsAfter t 0 draws).rest, ?_,
      randomKey_mem hle _, .inr ⟨_, hsingle, rfl⟩, rfl⟩
    simp only [insertRandOnce, htr, bind, Except.bind, asLeafPage_fresh h,
      if_neg (not_lt.mpr hle), hgen]
    rw [show (⟨randomKey cfg.keys.full (drawsAfter t 0 draws 0), .new t.startTxCommit.2, default⟩ :
      RecordPoint UInt64 P) = pushed (randomKey cfg.keys.full (drawsAfter t 0 draws 0))
      t.startTxCommit.2 default from rfl, hpush]
    simp only [hversion]
    rfl

end Insert

/-! ## Histories -/

inductive Operation (P : Type) where
  | event (event : Event UInt64 P)
  | insertRand
  | updateRand
  | deleteRand

section Histories
variable {P : Type} [Inhabited P]

/-- One operation with the outcomes of the random generator; `fuel` bounds the
rounds of a random descent and the calls of an insert. -/
def execute (cfg : Config UInt64) (fuel : ℕ) (draws : Draws) (t : MVBTSt UInt64 P) :
    Operation P → Except Fault (MVBTSt UInt64 P)
  | .event event => (perform cfg t event).map Prod.fst
  | .insertRand => (dispatchInsertRand cfg fuel fuel t draws).map Prod.fst
  | .updateRand => (dispatchUpdateRand cfg fuel t draws).map Prod.fst
  | .deleteRand => (dispatchDeleteRand cfg fuel t draws).map Prod.fst

/-- The descents of all calls of an insert repair safely. -/
def InsertsSafely (cfg : Config UInt64) (fuel : ℕ) : ℕ → MVBTSt UInt64 P → Draws → Prop
  | 0, _, _ => True
  | calls + 1, t, draws => RepairsSafely cfg fuel t none draws ∧
      ∀ t' draws', insertRandOnce cfg fuel t draws = .ok (t', none, draws') →
        InsertsSafely cfg fuel calls t' draws'

/-- The operation does not reach one of the two defects. -/
def Careful (cfg : Config UInt64) (fuel : ℕ) (draws : Draws) (t : MVBTSt UInt64 P) :
    Operation P → Prop
  | .event _ => True
  | .insertRand => InsertsSafely cfg fuel fuel t draws
  | .updateRand => RepairsSafely cfg fuel t none draws ∧ overwritesRand cfg fuel t draws = false
  | .deleteRand => RepairsSafely cfg fuel t none draws

/-- A new tree without tracker, or with one and updates in place or not. -/
def startTree (tracker : Option Bool) (tosses : ℕ → Toss) (threads tid : ℕ) : MVBTSt UInt64 P :=
  match tracker with
  | none => make tosses threads tid
  | some inPlace => enableGc (make tosses threads tid) inPlace

/-- The states of histories whose operations are all `allowed`. -/
inductive Reached (cfg : Config UInt64)
    (allowed : ℕ → Draws → MVBTSt UInt64 P → Operation P → Prop) : MVBTSt UInt64 P → Prop
  | start (tracker : Option Bool) (tosses : ℕ → Toss) (threads tid : ℕ) :
      Reached cfg allowed (startTree tracker tosses threads tid)
  | step {t t' : MVBTSt UInt64 P} {fuel : ℕ} {draws : Draws} {op : Operation P} :
      Reached cfg allowed t → allowed fuel draws t op → execute cfg fuel draws t op = .ok t' →
      Reached cfg allowed t'

variable {cfg : Config UInt64}

theorem dispatchInsertRand_inv (hc : Roomy cfg) {fuel : ℕ} {res : RandomResult UInt64} :
    ∀ (calls : ℕ) (t : MVBTSt UInt64 P) (draws : Draws), (∃ log, Carries cfg t log) →
      InsertsSafely cfg fuel calls t draws →
      ∀ t', dispatchInsertRand cfg fuel calls t draws = .ok (t', res) →
        ∃ log, Carries cfg t' log := by
  intro calls
  induction calls with
  | zero =>
    intro t draws _ _ t' hrun
    cases hrun
  | succ calls ih =>
    intro t draws h hsafe t' hrun
    obtain ⟨hfirst, hnext⟩ := hsafe
    cases hone : insertRandOnce cfg fuel t draws with
    | error fault =>
      simp only [dispatchInsertRand, hone, bind, Except.bind] at hrun
      cases hrun
    | ok out =>
      obtain ⟨t₁, found, draws₁⟩ := out
      have hcar : ∃ log, Carries cfg t₁ log := by
        obtain ⟨log, ⟨hfresh, -⟩ | ⟨g, hinv, -⟩⟩ := h
        · rcases @insertRandOnce_fresh P _ cfg t fuel draws hc hfresh with hrun' |
            ⟨t₂, key, draws₂, hrun', -, hcar, -⟩
          · rw [hrun'] at hone
            cases hone
          · rw [hrun'] at hone
            cases hone
            exact ⟨_, hcar⟩
        · exact insertRandOnce_inv hc hinv hfirst hone
      simp only [dispatchInsertRand, hone, bind, Except.bind] at hrun
      cases found with
      | some result =>
        cases hrun
        exact hcar
      | none => exact ih t₁ draws₁ hcar (hnext t₁ draws₁ hone) t' hrun

theorem execute_carries (hc : Roomy cfg) {t t' : MVBTSt UInt64 P} {fuel : ℕ} {draws : Draws}
    {op : Operation P} (h : ∃ log, Carries cfg t log) (hcareful : Careful cfg fuel draws t op)
    (hrun : execute cfg fuel draws t op = .ok t') : ∃ log, Carries cfg t' log := by
  cases op with
  | event event =>
    obtain ⟨log, h⟩ := h
    cases event with
    | write op =>
      obtain ⟨t₁, r, log₁, hwrite, h₁, -⟩ := h.write hc op
      simp only [execute, perform, hwrite, Except.map] at hrun
      cases hrun
      exact ⟨log₁, h₁⟩
    | reader event =>
      cases hrun
      exact ⟨log, h.apply event⟩
  | insertRand =>
    cases hins : dispatchInsertRand cfg fuel fuel t draws with
    | error fault =>
      rw [execute, hins] at hrun
      cases hrun
    | ok out =>
      rw [execute, hins] at hrun
      cases hrun
      exact dispatchInsertRand_inv hc fuel t draws h hcareful out.1 hins
  | updateRand =>
    cases hupd : dispatchUpdateRand cfg fuel t draws with
    | error fault =>
      rw [execute, hupd] at hrun
      cases hrun
    | ok out =>
      rw [execute, hupd] at hrun
      cases hrun
      obtain ⟨log, ⟨hfresh, -⟩ | ⟨g, hinv, -⟩⟩ := h
      · rcases @dispatchUpdateRand_fresh UInt64 P _ cfg t _ _ fuel draws hc hfresh with h' | h' <;>
          rw [h'] at hupd <;> cases hupd
      · exact dispatchUpdateRand_inv hc hinv hcareful.1 hcareful.2 hupd
  | deleteRand =>
    cases hdel : dispatchDeleteRand cfg fuel t draws with
    | error fault =>
      rw [execute, hdel] at hrun
      cases hrun
    | ok out =>
      rw [execute, hdel] at hrun
      cases hrun
      obtain ⟨log, ⟨hfresh, -⟩ | ⟨g, hinv, -⟩⟩ := h
      · rcases @dispatchDeleteRand_fresh UInt64 P _ cfg t _ fuel draws hc hfresh with h' | h' <;>
          rw [h'] at hdel <;> cases hdel
      · exact dispatchDeleteRand_inv hc hinv hcareful hdel

theorem reached_carries (hc : Roomy cfg) {t : MVBTSt UInt64 P} (h : Reached cfg (Careful cfg) t) :
    ∃ log, Carries cfg t log := by
  induction h with
  | start tracker tosses threads tid =>
    refine ⟨[], .inl ⟨?_, rfl⟩⟩
    cases tracker with
    | none => exact make_fresh tosses threads tid
    | some inPlace => exact enableGc_fresh (make_fresh tosses threads tid) inPlace
  | step _ hcareful hrun ih => exact execute_carries hc ih hcareful hrun

end Histories

/-- The halves of the packed length are the numbers of live and of dead units, and
all units are in the slots of the page. -/
def CountersMatch {K P : Type} [LinearOrder K] (cfg : Config K) : Node K P → Prop
  | .leaf p => p.activeDeadCount = (p.units.countP PageUnit.isActive,
      p.units.countP (fun r => !PageUnit.isActive r)) ∧ p.units.length ≤ cfg.numRecords
  | .internal p => p.activeDeadCount = (p.units.countP PageUnit.isActive,
      p.units.countP (fun e => !PageUnit.isActive e)) ∧ p.units.length ≤ cfg.fanOut

/-- In every state that a history reaches without meeting one of the two defects,
the packed length of every page of the current tree counts its units. -/
theorem counters_match {P : Type} [Inhabited P] {cfg : Config UInt64} (hc : Roomy cfg)
    {t : MVBTSt UInt64 P} (h : Reached cfg (Careful cfg) t) {b w : ℕ} {f : Interval UInt64}
    (hb : Current cfg t b f w) : CountersMatch cfg (t.heap b) := by
  obtain ⟨log, hfresh | ⟨g, hinv, -⟩⟩ := reached_carries hc h
  · rw [hb.fresh hfresh.1, hfresh.1.heap]
    have hcounted := Page.new_counted (α := RecordPoint UInt64 P) hc.numRecords_lt
    exact ⟨Prod.ext hcounted.active hcounted.dead, hcounted.length_le⟩
  · have hnode := hinv.living.node b (hb.life hinv).1
    cases hp : t.heap b with
    | leaf p =>
      rw [hp] at hnode
      have hcounted := hnode.2.counted
      exact ⟨Prod.ext hcounted.active hcounted.dead, hcounted.length_le⟩
    | internal p =>
      rw [hp] at hnode
      have hcounted := hnode.2.counted
      exact ⟨Prod.ext hcounted.active hcounted.dead, hcounted.length_le⟩

/-- On a leaf the random descent has nothing to repair. -/
theorem repairsSafely_leaf {K P : Type} [LinearOrder K] {cfg : Config K} {t : MVBTSt K P}
    {curr fuel : ℕ} (h : (t.heap curr).isLeaf = true) (fence : Interval K) (draws : Draws) :
    RepairsSafely cfg fuel t (some (curr, fence)) draws := by
  cases hp : t.heap curr with
  | internal p =>
    rw [hp] at h
    cases h
  | leaf p =>
    have hround : randomRound cfg t curr draws = .ok .arrive := by simp only [randomRound, hp]
    cases fuel with
    | zero => trivial
    | succ fuel =>
      refine ⟨fun _ _ hr => ?_, fun _ _ hr => ?_, fun _ hr => ?_⟩ <;>
        · rw [hround] at hr
          cases hr

/-- A record that is inserted and deleted again at random. -/
theorem counters_match_delete_rand :
    ∃ t t' : MVBTSt UInt64 ℕ,
      execute ⟨125, 125, u64Space⟩ 2 (fun _ => 0) (startTree (some true) (fun _ => .next) 1 0)
        (.event (.write (.insert 7 70))) = .ok t ∧
      execute ⟨125, 125, u64Space⟩ 2 (fun _ => 0) t .deleteRand = .ok t' ∧
      (t'.heap t'.currentRoot.1).activeDeadCount = (0, 1) ∧
      CountersMatch ⟨125, 125, u64Space⟩ (t'.heap t'.currentRoot.1) := by
  let cfg : Config UInt64 := ⟨125, 125, u64Space⟩
  have hinsert : ((execute cfg 2 (fun _ => 0) (startTree (some true) (fun _ => .next) 1 0)
      (.event (.write (.insert 7 (70 : ℕ))))).bind (fun t => retrieveRootWriteOlc cfg t)).map
      (fun x => (x.1.heap x.2).isLeaf) = .ok true := by
    decide
  have hdelete : ((execute cfg 2 (fun _ => 0) (startTree (some true) (fun _ => .next) 1 0)
      (.event (.write (.insert 7 (70 : ℕ))))).bind
      (fun t => execute cfg 2 (fun _ => 0) t .deleteRand)).map
      (fun t => (t.heap t.currentRoot.1).activeDeadCount) = .ok (0, 1) := by
    decide
  cases ht : execute cfg 2 (fun _ => 0) (startTree (some true) (fun _ => .next) 1 0)
      (.event (.write (.insert 7 (70 : ℕ)))) with
  | error fault =>
    rw [ht] at hinsert
    cases hinsert
  | ok t =>
    rw [ht] at hinsert hdelete
    have hsafe : RepairsSafely cfg 2 t none (fun _ => 0) := by
      intro t₁ root hroot
      have hleaf : (retrieveRootWriteOlc cfg t).map (fun x => (x.1.heap x.2).isLeaf) = .ok true :=
        hinsert
      rw [hroot] at hleaf
      exact repairsSafely_leaf (Except.ok.inj hleaf) _ _
    have hafter : (execute cfg 2 (fun _ => 0) t .deleteRand).map
        (fun t => (t.heap t.currentRoot.1).activeDeadCount) = .ok (0, 1) := hdelete
    cases ht' : execute cfg 2 (fun _ => 0) t .deleteRand with
    | error fault =>
      rw [ht'] at hafter
      cases hafter
    | ok t' =>
      rw [ht'] at hafter
      have hplain : Careful cfg 2 (fun _ => 0) (startTree (some true) (fun _ => .next) 1 0)
          (.event (.write (.insert 7 (70 : ℕ)))) := trivial
      have hcareful : Careful cfg 2 (fun _ => 0) t .deleteRand := hsafe
      have hdeleted := Reached.step (.step (.start _ _ _ _) hplain ht) hcareful ht'
      exact ⟨t, t', rfl, ht', Except.ok.inj hafter,
        counters_match (roomy_of_capacity (.inl rfl) u64Space) hdeleted .root⟩

/-- `UpdateRand` on a tree with in-place updates: the only record is live, its
overwrite counts it twice and takes one from the zero dead records. -/
theorem update_rand_miscounts :
    ∃ t : MVBTSt UInt64 ℕ, Reached ⟨125, 125, u64Space⟩ (fun _ _ _ _ => True) t ∧
      (t.heap t.currentRoot.1).activeDeadCount = (65535, 65535) ∧
      ¬ CountersMatch ⟨125, 125, u64Space⟩ (t.heap t.currentRoot.1) := by
  let cfg : Config UInt64 := ⟨125, 125, u64Space⟩
  have hcount : ((execute cfg 2 (fun _ => 0) (startTree (some true) (fun _ => .next) 1 0)
      (.event (.write (.insert 7 (70 : ℕ))))).bind
      (fun t => execute cfg 2 (fun _ => 0) t .updateRand)).map
      (fun t => (t.heap t.currentRoot.1).activeDeadCount) = .ok (65535, 65535) := by
    decide
  cases ht : execute cfg 2 (fun _ => 0) (startTree (some true) (fun _ => .next) 1 0)
      (.event (.write (.insert 7 (70 : ℕ)))) with
  | error fault =>
    rw [ht] at hcount
    cases hcount
  | ok t =>
    rw [ht] at hcount
    have hafter : (execute cfg 2 (fun _ => 0) t .updateRand).map
        (fun t => (t.heap t.currentRoot.1).activeDeadCount) = .ok (65535, 65535) := hcount
    cases ht' : execute cfg 2 (fun _ => 0) t .updateRand with
    | error fault =>
      rw [ht'] at hafter
      cases hafter
    | ok t' =>
      rw [ht'] at hafter
      have hlen : (t'.heap t'.currentRoot.1).activeDeadCount = (65535, 65535) :=
        Except.ok.inj hafter
      refine ⟨t', .step (.step (.start _ _ _ _) trivial ht) trivial ht', hlen, fun hm => ?_⟩
      cases hp : t'.heap t'.currentRoot.1 with
      | leaf p =>
        rw [hp] at hm hlen
        have hle : p.units.length ≤ 125 := hm.2
        have hcounts := List.countP_le_length (p := PageUnit.isActive) (l := p.units)
        have := congrArg Prod.fst (hm.1.symm.trans hlen)
        simp only at this
        omega
      | internal p =>
        rw [hp] at hm hlen
        have hle : p.units.length ≤ 125 := hm.2
        have hcounts := List.countP_le_length (p := PageUnit.isActive) (l := p.units)
        have := congrArg Prod.fst (hm.1.symm.trans hlen)
        simp only at this
        omega

end CMVBT.PackedCounters
