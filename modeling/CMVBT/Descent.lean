import CMVBT.RootRewrite

/-!
# The write descent reaches a leaf

From a root that is ready the loop enters, level by level, children that need no
repair; a child that does is repaired once. Two rounds per level are enough, the
search for a child never fails, and the leaf at the end has a free slot.
-/
namespace CMVBT.Descent
open KeyInterval LastMatch FenceTiling VersionedLog PageModel FrugalList CommitClock Tracker
open CMVBT.Tree
open BlockSupply WritePath ReadPath DirectoryHistory LeafHistory TreeInvariant PageRewrite NewPages
open Reorganization ParentRewrite ChildRepair RootRewrite

variable {K P : Type} [LinearOrder K]

/-- A block that may be entered without a repair. -/
def Safe (cfg : Config K) (t : MVBTSt K P) (b : ℕ) : Prop :=
  if b = t.currentRoot.1 then RootReady cfg (t.heap b) else unsafeDegree cfg (t.heap b) = .ok

/-- A living block on the search path of `key`. -/
structure OnPath (cfg : Config K) (t : MVBTSt K P) (g : Ghost K P) (b : ℕ) (key : K) : Prop where
  used : b < t.nextBlock
  alive : (g.life b).death = none
  key_mem : key ∈ (g.life b).fence
  safe : Safe cfg t b

/-- What one round of the loop does. -/
inductive DescentRound (K P : Type) where
  | arrive
  | enter (next : ℕ)
  | repair (t : MVBTSt K P)

/-- One round of `descend` at block `curr`. -/
def descendRound (cfg : Config K) (t : MVBTSt K P) (curr : ℕ) (key : K) :
    Except Fault (DescentRound K P) :=
  match t.heap curr with
  | .leaf _ => .ok .arrive
  | .internal page =>
    match activeIndex page key with
    | none => .error .retry
    | some index => do
      let next ← getPointer t curr index
      match unsafeDegree cfg (t.heap next) with
      | .overflow => return .repair (← onOverflowNode cfg t curr next index)
      | .activeUnderflow =>
        match ← onUnderflowNode cfg t curr next index with
        | some t => return .repair t
        | none => .error .retry
      | .ok => return .enter next

/-- The rounds that are left after this one. -/
def DescentRound.resume (cfg : Config K) (fuel : ℕ) (t : MVBTSt K P) (curr : ℕ) (key : K) :
    DescentRound K P → Except Fault (MVBTSt K P × ℕ)
  | arrive => .ok (t, curr)
  | enter next => descend cfg fuel t next key
  | repair t => descend cfg fuel t curr key

theorem descend_succ (cfg : Config K) (fuel : ℕ) (t : MVBTSt K P) (b : ℕ) (key : K) :
    descend cfg (fuel + 1) t b key =
      (descendRound cfg t b key).bind (DescentRound.resume cfg fuel t b key) := by
  rw [descend, descendRound]
  cases t.heap b with
  | leaf p => rfl
  | internal p =>
    cases hi : activeIndex p key with
    | none => simp only [hi, Except.bind]
    | some i =>
      cases hn : getPointer t b i with
      | error fault => simp only [hi, hn, bind, Except.bind]
      | ok next =>
        simp only [hi, hn, bind, Except.bind]
        cases unsafeDegree cfg (t.heap next) with
        | ok => rfl
        | overflow => cases onOverflowNode cfg t b next i <;> rfl
        | activeUnderflow =>
          cases onUnderflowNode cfg t b next i with
          | error fault => rfl
          | ok out => cases out <;> rfl

section Rounds
variable {cfg : Config K} {t : MVBTSt K P} {g : Ghost K P} {b : ℕ} {key : K}

theorem OnPath.ready (ho : OnPath cfg t g b key) (h : Living cfg t g) (hc : Roomy cfg)
    {p : InternalPage K} (hp : t.heap b = .internal p) : Ready cfg t b p := by
  have hnode := h.node b ho.used
  rw [hp] at hnode
  have hcounted := hnode.2.counted
  have hge := hc.fanOut_ge
  have hsum : p.activeDeadCount.1 + p.activeDeadCount.2 = p.units.length := hcounted.sumLen
  have hactive : p.activeDeadCount.1 = (p.units.filter PageUnit.isActive).length := by
    rw [← List.countP_eq_length_filter]
    exact hcounted.active
  have hsafe := ho.safe
  unfold Safe at hsafe
  unfold Ready
  split_ifs at hsafe ⊢
  · rw [hp] at hsafe
    obtain ⟨h₁, h₂⟩ := hsafe
    have h₂ := h₂ rfl
    simp only [overflowUnitsCount, Node.isLeaf, Node.activeDeadCount, Bool.false_eq_true,
      if_false] at h₁ h₂
    omega
  · rw [hp] at hsafe
    obtain ⟨h₁, h₂⟩ := filled_of_ok hsafe
    simp only [overflowUnitsCount, filling20Percent, maxUnits, Node.isLeaf, Node.activeDeadCount,
      Bool.false_eq_true, if_false] at h₁ h₂
    omega

/-- The search for a child finds the active entry that covers the key. -/
theorem activeIndex_child (h : Living cfg t g) (hb : b < t.nextBlock)
    (halive : (g.life b).death = none) (hk : key ∈ (g.life b).fence) {p : InternalPage K}
    (hp : t.heap b = .internal p) :
    ∃ i e, activeIndex p key = some i ∧ Child t g b i p e ∧ key ∈ e.fence := by
  have hnode := h.node b hb
  rw [hp] at hnode
  have hunits := hnode.2.counted.asUnits
  obtain ⟨u, hu, hku⟩ := (hnode.2.tiling halive).complete key hk trivial
  obtain ⟨hu, hua⟩ := List.mem_filter.mp hu
  cases hi : activeIndex p key with
  | none =>
    have := lastIdx?_eq_none.mp hi u (by rwa [hunits])
    simp [hua, Interval.contains_eq_true.mpr hku] at this
  | some i =>
    obtain ⟨l₁, e, l₂, heq, hlen, he, -⟩ := lastIdx?_eq_some.mp hi
    simp only [Bool.and_eq_true, Interval.contains_eq_true] at he
    refine ⟨i, e, rfl, ⟨hb, halive, hp, ?_, he.1⟩, he.2⟩
    rw [← hunits, heq, ← hlen]
    simp

/-- A round whose child needs no repair enters it. -/
theorem descendRound_enter (h : Living cfg t g) (hb : b < t.nextBlock)
    (halive : (g.life b).death = none) (hk : key ∈ (g.life b).fence) (hlevel : 1 < (g.life b).level)
    {c : ℕ} (hc : c < t.nextBlock) (hcl : (g.life c).death = none)
    (hcv : (g.life c).level + 1 = (g.life b).level) (hck : key ∈ (g.life c).fence)
    (hok : unsafeDegree cfg (t.heap c) = .ok) :
    descendRound cfg t b key = .ok (.enter c) ∧ OnPath cfg t g c key := by
  have hnode := h.node b hb
  cases hp : t.heap b with
  | leaf p =>
    rw [hp] at hnode
    have := hnode.1
    omega
  | internal p =>
    obtain ⟨i, e, hi, hx, hke⟩ := activeIndex_child h hb halive hk hp
    obtain ⟨hel, hef, hev⟩ := hx.child_life h
    -- the child found has the key in its fence, so it is `c`
    have hec : e.pointer = c := by
      by_contra hne
      refine h.disjoint e.pointer (hx.link h).1 c hc hel hcl (by omega) hne key ?_ hck
      rwa [hef]
    refine ⟨?_, hc, hcl, hck, ?_⟩
    · simp only [descendRound, hp, hi, getPointer, MVBTSt.asInternalPage, bind, Except.bind,
        hx.entry, pure, Except.pure, hec, hok]
    · rw [Safe, if_neg (hec ▸ hx.ne_root h)]
      exact hok

/-- A round at a directory enters a child that needs no repair or repairs it. -/
theorem descendRound_cases (h : Living cfg t g) (hc : Roomy cfg) (ho : OnPath cfg t g b key)
    (hlevel : 1 < (g.life b).level) :
    (∃ c, descendRound cfg t b key = .ok (.enter c) ∧ OnPath cfg t g c key ∧
      (g.life c).level + 1 = (g.life b).level) ∨
    ∃ e t', descendRound cfg t b key = .ok (.repair t') ∧ key ∈ e.fence ∧
      Replaced cfg t g b e t' := by
  have hnode := h.node b ho.used
  cases hp : t.heap b with
  | leaf p =>
    rw [hp] at hnode
    have := hnode.1
    omega
  | internal p =>
    obtain ⟨i, e, hi, hx, hke⟩ := activeIndex_child h ho.used ho.alive ho.key_mem hp
    have hready := ho.ready h hc hp
    obtain ⟨hel, hef, hev⟩ := hx.child_life h
    have hpointer : getPointer t b i = .ok e.pointer := by
      simp only [getPointer, MVBTSt.asInternalPage, hp, bind, Except.bind, hx.entry, pure,
        Except.pure]
    cases hdeg : unsafeDegree cfg (t.heap e.pointer) with
    | ok =>
      obtain ⟨hround, hon⟩ := descendRound_enter h ho.used ho.alive ho.key_mem hlevel
        (hx.link h).1 hel hev (by rwa [hef]) hdeg
      exact .inl ⟨e.pointer, hround, hon, hev⟩
    | overflow =>
      obtain ⟨t', heq, hr⟩ := onOverflowNode_replaced h hc hx hdeg hready.1
      refine .inr ⟨e, t', ?_, hke, hr⟩
      simp only [descendRound, hp, hi, hpointer, hdeg, heq, bind, Except.bind, pure, Except.pure]
    | activeUnderflow =>
      obtain ⟨t', heq, hr⟩ := onUnderflowNode_replaced h hc hx hdeg hready
      refine .inr ⟨e, t', ?_, hke, hr⟩
      simp only [descendRound, hp, hi, hpointer, hdeg, heq, bind, Except.bind, pure, Except.pure]

/-- After a repair the next round enters. -/
theorem Repaired.enters {t' : MVBTSt K P} {g' : Ghost K P} {f : Interval K}
    (hr : Repaired cfg t g b f t' g') (ho : OnPath cfg t g b key) (hlevel : 1 < (g.life b).level)
    (hk : key ∈ f) :
    ∃ c, descendRound cfg t' b key = .ok (.enter c) ∧ OnPath cfg t' g' c key ∧
      (g'.life c).level + 1 = (g.life b).level := by
  obtain ⟨c, hclt, hcl, hcv, hck, hok⟩ := hr.safe key hk
  have hlife := hr.life
  obtain ⟨hround, hon⟩ := descendRound_enter hr.inv.living (ho.used.trans_le hr.advance.next)
    (by rw [hlife]; exact ho.alive) (by rw [hlife]; exact ho.key_mem)
    (by rw [hlife]; exact hlevel) hclt hcl hcv hck hok
  exact ⟨c, hround, hon, by rw [← hlife]; exact hcv⟩

/-- One level down, with a repair on the way if the child needs one. -/
theorem descend_level (h : Inv cfg t g) (hc : Roomy cfg) (ho : OnPath cfg t g b key)
    (hlevel : 1 < (g.life b).level) :
    ∃ t' g' c, Inv cfg t' g' ∧ Intact t g t' g' ∧ g'.log = g.log ∧ t'.root = t.root ∧
      OnPath cfg t' g' c key ∧ (g'.life c).level + 1 = (g.life b).level ∧
      ∀ fuel, ∃ fuel', fuel ≤ fuel' ∧ fuel' ≤ fuel + 1 ∧
        descend cfg (fuel + 2) t b key = descend cfg fuel' t' c key := by
  rcases descendRound_cases h.living hc ho hlevel with ⟨c, hround, hon, hcv⟩ |
    ⟨e, t', hround, hke, hr⟩
  · refine ⟨t, g, c, h, .refl t g, rfl, rfl, hon, hcv, fun fuel => ?_⟩
    refine ⟨fuel + 1, Nat.le_succ _, le_rfl, ?_⟩
    rw [descend_succ, hround]
    rfl
  · obtain ⟨g', hr⟩ := hr.repaired h
    obtain ⟨c, hnext, hon, hcv⟩ := Repaired.enters hr ho hlevel hke
    refine ⟨t', g', c, hr.inv, hr.advance.intact h.living, hr.log, hr.root, hon, hcv,
      fun fuel => ⟨fuel, le_rfl, Nat.le_succ _, ?_⟩⟩
    rw [descend_succ, hround]
    change descend cfg (fuel + 1) t' b key = _
    rw [descend_succ, hnext]
    rfl

end Rounds

/-- The end of a descent: a leaf for the key with a free slot. -/
structure Arrived (cfg : Config K) (t : MVBTSt K P) (g : Ghost K P) (key : K) (t' : MVBTSt K P)
    (g' : Ghost K P) (leaf : ℕ) : Prop where
  inv : Inv cfg t' g'
  intact : Intact t g t' g'
  log : g'.log = g.log
  onPath : OnPath cfg t' g' leaf key
  level : (g'.life leaf).level = 1

theorem descend_arrives {cfg : Config K} (hc : Roomy cfg) {key : K} :
    ∀ (level : ℕ) (t : MVBTSt K P) (g : Ghost K P) (b : ℕ), Inv cfg t g →
      OnPath cfg t g b key → (g.life b).level = level → ∀ fuel, 2 * level ≤ fuel + 1 →
      ∃ t' g' leaf, descend cfg fuel t b key = .ok (t', leaf) ∧ t'.root = t.root ∧
        Arrived cfg t g key t' g' leaf := by
  intro level
  induction level with
  | zero =>
    intro t g b h ho hlevel
    have hnode := h.living.node b ho.used
    cases hp : t.heap b with
    | leaf p => rw [hp] at hnode; have := hnode.1; omega
    | internal p => rw [hp] at hnode; have := hnode.1; omega
  | succ level ih =>
    intro t g b h ho hlevel fuel hfuel
    cases hp : t.heap b with
    | leaf p =>
      have hnode := h.living.node b ho.used
      rw [hp] at hnode
      obtain ⟨fuel, rfl⟩ : ∃ n, fuel = n + 1 := ⟨fuel - 1, by omega⟩
      exact ⟨t, g, b, by simp only [descend, hp], rfl, h, .refl t g, rfl, ho, hnode.1⟩
    | internal p =>
      have hnode := h.living.node b ho.used
      rw [hp] at hnode
      have hone := hnode.1
      obtain ⟨t₁, g₁, c, hinv, hint, hlog, hroot, hon, hcv, hstep⟩ := descend_level h hc ho hone
      obtain ⟨fuel, rfl⟩ : ∃ n, fuel = n + 2 := ⟨fuel - 2, by omega⟩
      obtain ⟨fuel', hle, -, heq⟩ := hstep fuel
      obtain ⟨t', g', leaf, hd, hroot', ha⟩ := ih t₁ g₁ c hinv hon (by omega) fuel' (by omega)
      exact ⟨t', g', leaf, heq.trans hd, hroot'.trans hroot, ha.inv, hint.trans ha.intact,
        ha.log.trans hlog, ha.onPath, ha.level⟩

/-- Every write reaches a leaf that it can write to. -/
theorem traversalWrite_arrives {cfg : Config K} (hc : Roomy cfg) {t : MVBTSt K P} {g : Ghost K P}
    (h : Inv cfg t g) (key : K) :
    ∃ t' g' leaf, traversalWriteOlc cfg t key = .ok (t', leaf) ∧ Arrived cfg t g key t' g' leaf := by
  obtain ⟨t₁, g₁, hret, hinv, hint, hlog, hready⟩ := retrieveRoot_ready h hc
  obtain ⟨birth, hlife⟩ := hinv.living.root_life
  have hon : OnPath cfg t₁ g₁ t₁.currentRoot.1 key := by
    refine ⟨hinv.living.root_lt, by rw [hlife], ?_, ?_⟩
    · rw [hlife]
      exact cfg.keys.mem_full key
    · rwa [Safe, if_pos rfl]
  obtain ⟨t', g', leaf, hd, -, ha⟩ := descend_arrives hc t₁.currentRoot.2 t₁ g₁ t₁.currentRoot.1
    hinv hon (by rw [hlife]) (2 * t₁.currentRoot.2) (by omega)
  refine ⟨t', g', leaf, ?_, ha.inv, hint.trans ha.intact, ha.log.trans hlog, ha.onPath, ha.level⟩
  simp only [traversalWriteOlc, hret, bind, Except.bind, hd]

end CMVBT.Descent
