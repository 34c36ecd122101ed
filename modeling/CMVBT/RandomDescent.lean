import CMVBT.PackedCounters

/-!
# The random descent stays inside its pages

The random descent stays at a directory and repairs whichever children it draws.
Each repair adds one or two entries to the directory. As long as no child is
repaired below a full directory, and none merged below one that has too few
children, every repair finds room and the descent meets no fault.

The check after a repair asks for `Overflow` only. A full directory with few
active entries is in `ActiveUnderflow`, so the descent goes on there, and the next
repair writes behind the end of the page.
-/
namespace CMVBT.RandomDescent
open KeyInterval LastMatch FenceTiling VersionedLog PageModel FrugalList CommitClock Tracker
open CMVBT.Tree
open BlockSupply WritePath ReadPath LeafHistory TreeInvariant PageRewrite NewPages ChildRepair
open RootRewrite Descent LeafWrite Reference WriteOperations FreshTree TreeShape InPlaceUpdate
open ReaderHistory RandomOperations PackedCounters

section Rounds
variable {K P : Type} [LinearOrder K]

/-- Whenever the descent is about to repair a child, the directory takes the repair. -/
def DescendsSoundly (cfg : Config K) : ℕ → MVBTSt K P → Option (ℕ × Interval K) → Draws → Prop
  | 0, _, _, _ => True
  | fuel + 1, t, none, draws => ∀ t' root, retrieveRootWriteOlc cfg t = .ok (t', root) →
      DescendsSoundly cfg fuel t' (some (root, cfg.keys.full)) draws
  | fuel + 1, t, some (curr, _), draws =>
      RepairFits cfg t curr draws ∧
      (∀ fence next, randomRound cfg t curr draws = .ok (.enter fence next) →
        DescendsSoundly cfg fuel t (some (next, fence)) (drawsAfter t curr draws)) ∧
      (∀ fence t', randomRound cfg t curr draws = .ok (.repair fence t') →
        DescendsSoundly cfg fuel t' (some (curr, fence)) (drawsAfter t curr draws)) ∧
      ∀ t', randomRound cfg t curr draws = .ok (.restart t') →
        DescendsSoundly cfg fuel t' none (drawsAfter t curr draws)

/-- The same as a computation. -/
def descendsSoundly (cfg : Config K) : ℕ → MVBTSt K P → Option (ℕ × Interval K) → Draws → Bool
  | 0, _, _, _ => true
  | fuel + 1, t, none, draws =>
    match retrieveRootWriteOlc cfg t with
    | .error _ => true
    | .ok (t', root) => descendsSoundly cfg fuel t' (some (root, cfg.keys.full)) draws
  | fuel + 1, t, some (curr, _), draws =>
    decide (RepairFits cfg t curr draws) &&
      match randomRound cfg t curr draws with
      | .ok (.enter fence next) =>
        descendsSoundly cfg fuel t (some (next, fence)) (drawsAfter t curr draws)
      | .ok (.repair fence t') =>
        descendsSoundly cfg fuel t' (some (curr, fence)) (drawsAfter t curr draws)
      | .ok (.restart t') => descendsSoundly cfg fuel t' none (drawsAfter t curr draws)
      | _ => true

theorem descendsSoundly_iff (cfg : Config K) (fuel : ℕ) :
    ∀ (t : MVBTSt K P) (pos : Option (ℕ × Interval K)) (draws : Draws),
      DescendsSoundly cfg fuel t pos draws ↔ descendsSoundly cfg fuel t pos draws = true := by
  induction fuel with
  | zero => exact fun _ _ _ => ⟨fun _ => rfl, fun _ => trivial⟩
  | succ fuel ih =>
    intro t pos draws
    cases pos with
    | none =>
      simp only [DescendsSoundly, descendsSoundly, ih]
      cases retrieveRootWriteOlc cfg t with
      | error fault => simp
      | ok x => simp [Prod.ext_iff]
    | some x =>
      obtain ⟨curr, fence⟩ := x
      simp only [DescendsSoundly, descendsSoundly, ih, Bool.and_eq_true, decide_eq_true_eq]
      cases randomRound cfg t curr draws with
      | error fault => simp
      | ok r => cases r <;> simp

instance (cfg : Config K) (fuel : ℕ) (t : MVBTSt K P) (pos : Option (ℕ × Interval K))
    (draws : Draws) : Decidable (DescendsSoundly cfg fuel t pos draws) :=
  decidable_of_iff' _ (descendsSoundly_iff cfg fuel t pos draws)

variable {cfg : Config K} {t : MVBTSt K P} {g : Ghost K P} {curr : ℕ} {fence : Interval K}
  {draws : Draws}

/-- A descent that has come to its end goes no further with more fuel. -/
theorem DescendsSoundly.ended (n : ℕ) :
    ∀ (t : MVBTSt K P) (pos : Option (ℕ × Interval K)) (draws : Draws)
      (x : MVBTSt K P × Interval K × ℕ × Draws), traversalWriteRand cfg n t pos draws = .ok x →
      DescendsSoundly cfg n t pos draws → ∀ fuel, DescendsSoundly cfg fuel t pos draws := by
  induction n with
  | zero =>
    intro t pos draws x hrun
    cases hrun
  | succ n ih =>
    intro t pos draws x hrun hsound fuel
    cases fuel with
    | zero => trivial
    | succ fuel =>
      cases pos with
      | none =>
        intro t' root hret
        simp only [traversalWriteRand, hret, bind, Except.bind] at hrun
        exact ih t' _ draws x hrun (hsound t' root hret) fuel
      | some y =>
        obtain ⟨curr, fence⟩ := y
        obtain ⟨hnow, henter, hrepair, hrestart⟩ := hsound
        refine ⟨hnow, fun f next hround => ?_, fun f t' hround => ?_, fun t' hround => ?_⟩
        · simp only [traversalWriteRand, hround, bind, Except.bind] at hrun
          exact ih _ _ _ x hrun (henter f next hround) fuel
        · simp only [traversalWriteRand, hround, bind, Except.bind] at hrun
          exact ih _ _ _ x hrun (hrepair f t' hround) fuel
        · simp only [traversalWriteRand, hround, bind, Except.bind] at hrun
          exact ih _ _ _ x hrun (hrestart t' hround) fuel

omit [LinearOrder K] in
/-- The number of an active entry is turned into the position of one. -/
theorem activePosition_spec (units : List (Entry K)) :
    ∀ k i, i < units.countP PageUnit.isActive → ∃ j e, activePosition units k i = k + j ∧
      units[j]? = some e ∧ PageUnit.isActive e = true := by
  induction units with
  | nil => exact fun k i hi => absurd hi (Nat.not_lt_zero i)
  | cons e units ih =>
    intro k i hi
    by_cases ha : PageUnit.isActive e = true
    · rw [List.countP_cons_of_pos ha] at hi
      by_cases hzero : i = 0
      · refine ⟨0, e, ?_, rfl, ha⟩
        simp only [activePosition, ha, if_true, hzero, Nat.add_zero]
      · obtain ⟨j, e', hpos, hj, ha'⟩ := ih (k + 1) (i - 1) (by omega)
        refine ⟨j + 1, e', ?_, by simpa using hj, ha'⟩
        simp only [activePosition, ha, if_true, if_neg hzero, hpos]
        omega
    · rw [List.countP_cons_of_neg ha] at hi
      obtain ⟨j, e', hpos, hj, ha'⟩ := ih (k + 1) i hi
      refine ⟨j + 1, e', ?_, by simpa using hj, ha'⟩
      rw [activePosition, if_neg ha, hpos]
      omega

/-- A directory of the tree has a child. -/
theorem standing_live (h : Living cfg t g) (hc : Roomy cfg) (hs : Standing cfg t g curr fence)
    {p : InternalPage K} (hp : t.heap curr = .internal p) : 0 < p.activeDeadCount.1 := by
  by_cases hroot : curr = t.currentRoot.1
  · have hchild := h.root_child
    rw [← hroot, hp] at hchild
    exact hchild rfl
  · have hfilled := h.filled curr hs.used hs.alive hroot
    have hge := hc.fanOut_ge
    rw [hp] at hfilled
    simp only [filling20Percent, maxUnits, Node.isLeaf, Node.activeDeadCount, Bool.false_eq_true,
      if_false] at hfilled
    omega

/-- The draw always picks an active entry; both assertions of the source hold. -/
theorem standing_draws (h : Living cfg t g) (hc : Roomy cfg) (hs : Standing cfg t g curr fence)
    {p : InternalPage K} (hp : t.heap curr = .internal p) (draws : Draws) :
    ∃ i e, Child t g curr i p e ∧ drawnEntry t curr draws = some e ∧
      activePosition p.asUnits 0 (if (t.heap curr).activeDeadCount.1 = 0 then 0
        else draws 0 % (t.heap curr).activeDeadCount.1) = i ∧ p.asUnits[i]? = some e := by
  have hnode := h.node curr hs.used
  rw [hp] at hnode
  have hpos := standing_live h hc hs hp
  have hcount : p.activeDeadCount.1 = p.units.countP PageUnit.isActive := hnode.2.counted.active
  have hlive : (t.heap curr).activeDeadCount.1 = p.activeDeadCount.1 := by rw [hp]; rfl
  obtain ⟨j, e, hindex, he, ha⟩ := activePosition_spec p.units 0
    (draws 0 % p.activeDeadCount.1) (by rw [← hcount]; exact Nat.mod_lt _ hpos)
  rw [Nat.zero_add] at hindex
  refine ⟨j, e, ⟨hs.used, hs.alive, hp, he, ha⟩, ?_, ?_, ?_⟩
  · simp only [drawnEntry, hp]
    rw [← hp, hlive, if_neg (by omega), hnode.counted_internal, hindex]
    exact he
  · rw [hlive, if_neg (by omega), hnode.counted_internal]
    exact hindex
  · rw [hnode.counted_internal]
    exact he

/-- A round is at a leaf, enters a child that needs no repair, or repairs one. -/
theorem soundRound_cases (h : Inv cfg t g) (hc : Roomy cfg) (hs : Standing cfg t g curr fence)
    (hsound : RepairFits cfg t curr draws) :
    (randomRound cfg t curr draws = .ok .arrive ∧ (g.life curr).level = 1) ∨
    (∃ f next, randomRound cfg t curr draws = .ok (.enter f next) ∧ Standing cfg t g next f ∧
      (g.life next).level + 1 = (g.life curr).level) ∨
    ∃ p i e t', (randomRound cfg t curr draws = .ok (.repair e.fence t') ∨
        randomRound cfg t curr draws = .ok (.restart t')) ∧
      Child t g curr i p e ∧ unsafeDegree cfg (t.heap e.pointer) ≠ .ok ∧
      Replaced cfg t g curr e t' := by
  have hnode := h.living.node curr hs.used
  cases hp : t.heap curr with
  | leaf p =>
    rw [hp] at hnode
    refine .inl ⟨?_, hnode.1⟩
    simp only [randomRound, hp]
  | internal p =>
    obtain ⟨i, e, hx, hdrawn, hindex, he⟩ := standing_draws h.living hc hs hp draws
    obtain ⟨hel, hef, hev⟩ := hx.child_life h.living
    have hobs : e.obsolete = false := by simpa [PageUnit.isActive] using hx.active
    have hafter : ∀ t' : MVBTSt K P, afterRepair cfg t' curr e.fence = .repair e.fence t' ∨
        afterRepair cfg t' curr e.fence = .restart t' := by
      intro t'
      unfold afterRepair
      split_ifs
      · exact .inr rfl
      · exact .inl rfl
    have htakes := hsound e hdrawn
    rw [hp] at hindex
    simp only [randomRound, hp, hindex, he, hobs, Bool.false_eq_true, if_false]
    cases hdeg : unsafeDegree cfg (t.heap e.pointer) with
    | ok =>
      refine .inr (.inl ⟨e.fence, e.pointer, rfl, ⟨(hx.link h.living).1, hel, fun _ => ⟨?_, hef⟩⟩,
        hev⟩)
      rw [Safe, if_neg (hx.ne_root h.living)]
      exact hdeg
    | overflow =>
      have hunsafe : unsafeDegree cfg (t.heap e.pointer) ≠ .ok := by rw [hdeg]; decide
      obtain ⟨t', heq, hr⟩ := onOverflowNode_replaced h.living hc hx hdeg
        ((htakes hunsafe).slots h.living hx)
      refine .inr (.inr ⟨p, i, e, t', ?_, hx, hunsafe, hr⟩)
      simp only [heq, bind, Except.bind, pure, Except.pure, Except.ok.injEq]
      exact hafter t'
    | activeUnderflow =>
      have hunsafe : unsafeDegree cfg (t.heap e.pointer) ≠ .ok := by rw [hdeg]; decide
      obtain ⟨t', heq, hr⟩ := onUnderflowNode_replaced h.living hc hx hdeg
        ((htakes hunsafe).ready h.living hx hdeg)
      refine .inr (.inr ⟨p, i, e, t', ?_, hx, hunsafe, hr⟩)
      simp only [heq, bind, Except.bind, pure, Except.pure, Except.ok.injEq]
      exact hafter t'

/-- The end of a random descent. -/
structure Landed (cfg : Config K) (t : MVBTSt K P) (g : Ghost K P) (t' : MVBTSt K P)
    (g' : Ghost K P) (leaf : ℕ) (fence : Interval K) : Prop where
  inv : Inv cfg t' g'
  intact : Intact t g t' g'
  log : g'.log = g.log
  standing : Standing cfg t' g' leaf fence
  level : (g'.life leaf).level = 1

theorem Landed.after {t₁ t' : MVBTSt K P} {g₁ g' : Ghost K P} {leaf : ℕ}
    (h : Landed cfg t₁ g₁ t' g' leaf fence) (hint : Intact t g t₁ g₁) (hlog : g₁.log = g.log) :
    Landed cfg t g t' g' leaf fence :=
  ⟨h.inv, hint.trans h.intact, h.log.trans hlog, h.standing, h.level⟩

/-- The descent only ever stops because the fuel is used up, or it lands at a leaf. -/
theorem traversalWriteRand_sound (hc : Roomy cfg) (fuel : ℕ) :
    ∀ (t : MVBTSt K P) (g : Ghost K P) (pos : Option (ℕ × Interval K)) (draws : Draws),
      Inv cfg t g → (∀ x, pos = some x → Standing cfg t g x.1 x.2) →
      DescendsSoundly cfg fuel t pos draws →
      traversalWriteRand cfg fuel t pos draws = .error .outOfFuel ∨
      ∃ t' g' fence leaf draws', traversalWriteRand cfg fuel t pos draws =
        .ok (t', fence, leaf, draws') ∧ Landed cfg t g t' g' leaf fence := by
  induction fuel with
  | zero =>
    intro t g pos draws _ _ _
    exact .inl rfl
  | succ fuel ih =>
    intro t g pos draws h hpos hsound
    cases pos with
    | none =>
      obtain ⟨t₁, g₁, hret, hinv, hint, hlog, hready⟩ := retrieveRoot_ready h hc
      obtain ⟨birth, hlife⟩ := hinv.living.root_life
      simp only [traversalWriteRand, hret, bind, Except.bind]
      have hstand : Standing cfg t₁ g₁ t₁.currentRoot.1 cfg.keys.full := by
        refine ⟨hinv.living.root_lt, by rw [hlife], fun _ => ⟨?_, by rw [hlife]⟩⟩
        rwa [Safe, if_pos rfl]
      rcases ih t₁ g₁ (some (t₁.currentRoot.1, cfg.keys.full)) draws hinv
        (fun x hx => Option.some.inj hx ▸ hstand) (hsound t₁ _ hret) with
        hfuel | ⟨t', g', f, leaf, draws', hrun, hl⟩
      · exact .inl hfuel
      · exact .inr ⟨t', g', f, leaf, draws', hrun, hl.after hint hlog⟩
    | some x =>
      obtain ⟨curr, fence⟩ := x
      have hs : Standing cfg t g curr fence := hpos _ rfl
      obtain ⟨hnow, henter, hrepair, hrestart⟩ := hsound
      rcases soundRound_cases h hc hs hnow with ⟨hround, hlevel⟩ | ⟨f, next, hround, hnext, -⟩ |
        ⟨p, i, e, t₁, hround | hround, hx, -, hr⟩
      · simp only [traversalWriteRand, hround, bind, Except.bind]
        exact .inr ⟨t, g, fence, curr, _, rfl, h, .refl t g, rfl, hs, hlevel⟩
      · simp only [traversalWriteRand, hround, bind, Except.bind]
        exact ih t g (some (next, f)) _ h (fun x hx => Option.some.inj hx ▸ hnext)
          (henter f next hround)
      · simp only [traversalWriteRand, hround, bind, Except.bind]
        obtain ⟨g₁, hrep⟩ := hr.repaired h
        have hstand := hs.repaired h hx.page hrep e.fence
        rcases ih t₁ g₁ (some (curr, e.fence)) _ hrep.inv
          (fun x hx => Option.some.inj hx ▸ hstand) (hrepair e.fence t₁ hround) with
          hfuel | ⟨t', g', f, leaf, draws', hrun, hl⟩
        · exact .inl hfuel
        · exact .inr ⟨t', g', f, leaf, draws', hrun,
            hl.after (hrep.advance.intact h.living) hrep.log⟩
      · simp only [traversalWriteRand, hround, bind, Except.bind]
        obtain ⟨g₁, hrep⟩ := hr.repaired h
        rcases ih t₁ g₁ none _ hrep.inv (fun x hx => by cases hx) (hrestart t₁ hround) with
          hfuel | ⟨t', g', f, leaf, draws', hrun, hl⟩
        · exact .inl hfuel
        · exact .inr ⟨t', g', f, leaf, draws', hrun,
            hl.after (hrep.advance.intact h.living) hrep.log⟩

theorem DescendsSoundly.safely (fuel : ℕ) :
    ∀ (t : MVBTSt K P) (pos : Option (ℕ × Interval K)) (draws : Draws),
      DescendsSoundly cfg fuel t pos draws → RepairsSafely cfg fuel t pos draws := by
  induction fuel with
  | zero => exact fun _ _ _ _ => trivial
  | succ fuel ih =>
    intro t pos draws hsound
    cases pos with
    | none => exact fun t' root hret => ih t' _ draws (hsound t' root hret)
    | some x =>
      obtain ⟨curr, fence⟩ := x
      obtain ⟨hnow, henter, hrepair, hrestart⟩ := hsound
      exact ⟨fun f next hround => ih _ _ _ (henter f next hround),
        fun f t' hround => ⟨hnow, ih _ _ _ (hrepair f t' hround)⟩,
        fun t' hround => ⟨hnow, ih _ _ _ (hrestart t' hround)⟩⟩

end Rounds

/-! ## Histories -/

section Histories
variable {P : Type} [Inhabited P] {cfg : Config UInt64}

omit [Inhabited P] in
/-- Without updates in place `UpdateRand` overwrites nothing. -/
theorem overwritesRand_plain {t t' : MVBTSt UInt64 P} {fuel leaf : ℕ} {draws draws' : Draws}
    {fence : Interval UInt64}
    (hrun : traversalWriteRand cfg fuel t none draws = .ok (t', fence, leaf, draws'))
    (hplain : t'.updateInPlace = false) : overwritesRand cfg fuel t draws = false := by
  simp only [overwritesRand, hrun]
  cases asLeafPage t' leaf with
  | error fault => rfl
  | ok page =>
    simp only [inPlaceTarget, hplain, Bool.false_eq_true, if_false]
    cases t'.tracker <;> rfl

/-- The descents of all calls of an insert are sound. -/
def InsertsSoundly (cfg : Config UInt64) (fuel : ℕ) : ℕ → MVBTSt UInt64 P → Draws → Prop
  | 0, _, _ => True
  | calls + 1, t, draws => DescendsSoundly cfg fuel t none draws ∧
      ∀ t' draws', insertRandOnce cfg fuel t draws = .ok (t', none, draws') →
        InsertsSoundly cfg fuel calls t' draws'

/-- An operation on a tree without updates in place whose random descents are sound. -/
def Soundly (cfg : Config UInt64) (fuel : ℕ) (draws : Draws) (t : MVBTSt UInt64 P)
    (op : Operation P) : Prop :=
  t.updateInPlace = false ∧
    match op with
    | .event _ => True
    | .insertRand => InsertsSoundly cfg fuel fuel t draws
    | .updateRand => DescendsSoundly cfg fuel t none draws
    | .deleteRand => DescendsSoundly cfg fuel t none draws

theorem InsertsSoundly.safely {fuel : ℕ} (calls : ℕ) :
    ∀ (t : MVBTSt UInt64 P) (draws : Draws), InsertsSoundly cfg fuel calls t draws →
      InsertsSafely cfg fuel calls t draws := by
  induction calls with
  | zero => exact fun _ _ _ => trivial
  | succ calls ih =>
    intro t draws h
    exact ⟨h.1.safely, fun t' draws' hrun => ih t' draws' (h.2 t' draws' hrun)⟩

theorem Soundly.careful (hc : Roomy cfg) {t : MVBTSt UInt64 P} {fuel : ℕ} {draws : Draws}
    {op : Operation P} (hstate : ∃ log, Carries cfg t log) (h : Soundly cfg fuel draws t op) :
    Careful cfg fuel draws t op := by
  obtain ⟨hplain, hop⟩ := h
  cases op with
  | event event => trivial
  | insertRand => exact InsertsSoundly.safely fuel t draws hop
  | deleteRand => exact DescendsSoundly.safely fuel t none draws hop
  | updateRand =>
    refine ⟨DescendsSoundly.safely fuel t none draws hop, ?_⟩
    have hlands : traversalWriteRand cfg fuel t none draws = .error .outOfFuel ∨
        ∃ t' fence leaf draws', traversalWriteRand cfg fuel t none draws =
          .ok (t', fence, leaf, draws') ∧ t'.updateInPlace = t.updateInPlace := by
      obtain ⟨log, ⟨hfresh, -⟩ | ⟨g, hinv, -⟩⟩ := hstate
      · rcases traversalWriteRand_fresh_eq hc hfresh fuel draws with hrun | hrun
        · exact .inl hrun
        · exact .inr ⟨_, _, _, _, hrun, rfl⟩
      · rcases traversalWriteRand_sound hc fuel t g none draws hinv (fun x hx => by cases hx) hop
          with hrun | ⟨t', g', fence, leaf, draws', hrun, hl⟩
        · exact .inl hrun
        · exact .inr ⟨_, _, _, _, hrun, hl.intact.in_place⟩
    rcases hlands with hrun | ⟨t', fence, leaf, draws', hrun, hflag⟩
    · simp only [overwritesRand, hrun]
    · exact overwritesRand_plain hrun (hflag.trans hplain)

theorem reached_soundly (hc : Roomy cfg) {t : MVBTSt UInt64 P} (h : Reached cfg (Soundly cfg) t) :
    ∃ log, Carries cfg t log := by
  induction h with
  | start tracker tosses threads tid =>
    exact reached_carries hc (.start tracker tosses threads tid)
  | step _ hsound hrun ih => exact execute_carries hc ih (hsound.careful hc ih) hrun

end Histories

/-- In every state that a history with sound descents reaches, a sound descent writes
no entry behind the end of a page. -/
theorem random_descent_in_bounds {P : Type} [Inhabited P] {cfg : Config UInt64} (hc : Roomy cfg)
    {t : MVBTSt UInt64 P} (h : Reached cfg (Soundly cfg) t) {fuel : ℕ} {draws : Draws}
    (hsound : DescendsSoundly cfg fuel t none draws) :
    traversalWriteRand cfg fuel t none draws ≠ .error .outOfBounds := by
  obtain ⟨log, ⟨hfresh, -⟩ | ⟨g, hinv, -⟩⟩ := reached_soundly hc h
  · rcases traversalWriteRand_fresh_eq hc hfresh fuel draws with hrun | hrun <;> rw [hrun] <;> simp
  · rcases traversalWriteRand_sound hc fuel t g none draws hinv (fun x hx => by cases hx) hsound
      with hrun | ⟨t', g', fence, leaf, draws', hrun, -⟩ <;> rw [hrun] <;> simp

/-- On a leaf there is nothing to repair. -/
theorem descendsSoundly_leaf {K P : Type} [LinearOrder K] {cfg : Config K} {t : MVBTSt K P}
    {curr fuel : ℕ} (h : (t.heap curr).isLeaf = true) (fence : Interval K) (draws : Draws) :
    DescendsSoundly cfg fuel t (some (curr, fence)) draws := by
  cases hp : t.heap curr with
  | internal p =>
    rw [hp] at h
    cases h
  | leaf p =>
    have hround : randomRound cfg t curr draws = .ok .arrive := by simp only [randomRound, hp]
    cases fuel with
    | zero => trivial
    | succ fuel =>
      refine ⟨?_, fun _ _ hr => ?_, fun _ _ hr => ?_, fun _ hr => ?_⟩
      · intro e he
        simp only [drawnEntry, hp] at he
        cases he
      all_goals
        rw [hround] at hr
        cases hr

theorem descendsSoundly_root_leaf {K P : Type} [LinearOrder K] {cfg : Config K} {t : MVBTSt K P}
    (h : (retrieveRootWriteOlc cfg t).map (fun x => (x.1.heap x.2).isLeaf) = .ok true) (fuel : ℕ)
    (draws : Draws) : DescendsSoundly cfg fuel t none draws := by
  cases fuel with
  | zero => trivial
  | succ fuel =>
    intro t' root hret
    rw [hret] at h
    exact descendsSoundly_leaf (Except.ok.inj h) _ _

/-- A history of plain operations reaches its end. -/
theorem reached_writes {P : Type} [Inhabited P] {cfg : Config UInt64} (hc : Roomy cfg)
    {allowed : ℕ → Draws → MVBTSt UInt64 P → Operation P → Prop}
    (hall : ∀ t op, t.updateInPlace = false → allowed 0 (fun _ => 0) t (.event (.write op)))
    (ops : List (WriteOperation UInt64 P)) :
    ∀ (t : MVBTSt UInt64 P) (log : Log UInt64 P), Carries cfg t log → t.updateInPlace = false →
      Reached cfg allowed t → ∀ t' rs, runWrites cfg t ops = .ok (t', rs) →
        Reached cfg allowed t' ∧ t'.updateInPlace = false := by
  induction ops with
  | nil =>
    intro t log _ hplain h t' rs hrun
    cases hrun
    exact ⟨h, hplain⟩
  | cons op ops ih =>
    intro t log hcar hplain h t' rs hrun
    obtain ⟨t₁, r, log₁, hwrite, hcar₁, -, hflag, -⟩ := hcar.write hc op
    simp only [runWrites, hwrite, bind, Except.bind] at hrun
    cases hrest : runWrites cfg t₁ ops with
    | error fault =>
      rw [hrest] at hrun
      cases hrun
    | ok y =>
      rw [hrest] at hrun
      cases hrun
      refine ih t₁ log₁ hcar₁ (hflag.trans hplain) (.step h (hall t op hplain) ?_) _ _ hrest
      simp only [execute, perform, hwrite, Except.map]

/-- Two full leaves below a directory, at capacity 10: one holds ten keys, the other
five keys and five old versions. -/
def filledWrites : List (WriteOperation UInt64 ℕ) :=
  (List.range 15).map (fun i => .insert (UInt64.ofNat (i + 1)) i) ++ List.replicate 5 (.update 1 7)

/-- A descent that repairs both leaves before it leaves their directory. -/
theorem random_descent_in_bounds_two_repairs :
    ∃ (t t' : MVBTSt UInt64 ℕ) (rs : List WriteResult) (fence : Interval UInt64) (leaf : ℕ)
        (draws : Draws),
      runWrites ⟨10, 10, u64Space⟩ (startTree none (fun _ => .next) 1 0) filledWrites =
        .ok (t, rs) ∧
      traversalWriteRand ⟨10, 10, u64Space⟩ 6 t none (fun i => if i = 0 then 1 else 0) =
        .ok (t', fence, leaf, draws) ∧
      t'.currentRoot = t.currentRoot ∧ (t.heap t.currentRoot.1).activeDeadCount = (2, 0) ∧
      (t'.heap t'.currentRoot.1).activeDeadCount = (3, 2) ∧
      traversalWriteRand ⟨10, 10, u64Space⟩ 6 t none (fun i => if i = 0 then 1 else 0) ≠
        .error .outOfBounds := by
  have hstate : (runWrites ⟨10, 10, u64Space⟩ (startTree none (fun _ => .next) 1 0)
      filledWrites).bind (fun x => (traversalWriteRand ⟨10, 10, u64Space⟩ 6 x.1 none
        (fun i => if i = 0 then 1 else 0)).map (fun y =>
          decide (DescendsSoundly ⟨10, 10, u64Space⟩ 6 x.1 none (fun i => if i = 0 then 1 else 0) ∧
            y.1.currentRoot = x.1.currentRoot ∧
            (x.1.heap x.1.currentRoot.1).activeDeadCount = (2, 0) ∧
            (y.1.heap y.1.currentRoot.1).activeDeadCount = (3, 2)))) = .ok true := by
    decide +kernel
  have hc : Roomy (⟨10, 10, u64Space⟩ : Config UInt64) := roomy_ten u64Space
  obtain ⟨x, hrun, hstate⟩ := of_bind_ok hstate
  obtain ⟨y, hdescent, hvalues⟩ := of_map_ok hstate
  obtain ⟨hsound, hroot, hbefore, hafter⟩ := of_decide_eq_true hvalues
  have hreached : Reached ⟨10, 10, u64Space⟩ (Soundly ⟨10, 10, u64Space⟩) x.1 :=
    (reached_writes hc (fun _ _ hplain => ⟨hplain, trivial⟩) filledWrites _ []
      (.inl ⟨make_fresh _ 1 0, rfl⟩) rfl (.start none _ 1 0) x.1 x.2 hrun).1
  have hbounds := random_descent_in_bounds hc hreached hsound
  exact ⟨x.1, y.1, x.2, y.2.1, y.2.2.1, y.2.2.2, hrun, hdescent, hroot, hbefore, hafter,
    hbounds⟩

/-- Two leaves below a directory, at capacity 10: the first is split by version again
and again, until it, the other one and the directory are full. -/
def crowdedWrites : List (WriteOperation UInt64 ℕ) :=
  (List.range 11).map (fun i => .insert (UInt64.ofNat (i + 1)) i) ++
    List.replicate 35 (.update 1 7) ++
    (List.range 4).map (fun i => .insert (UInt64.ofNat (i + 100)) i)

/-- The descent repairs both leaves below the same directory. -/
theorem random_descent_overfills :
    ∃ t : MVBTSt UInt64 ℕ, Reached ⟨10, 10, u64Space⟩ (fun _ _ t _ => t.updateInPlace = false) t ∧
      traversalWriteRand ⟨10, 10, u64Space⟩ 4 t none (fun i => if i = 0 then 1 else 0) =
        .error .outOfBounds := by
  have hstate : (runWrites ⟨10, 10, u64Space⟩ (startTree none (fun _ => .next) 1 0)
      crowdedWrites).map (fun x => decide ((traversalWriteRand ⟨10, 10, u64Space⟩ 4 x.1 none
        (fun i => if i = 0 then 1 else 0)).map (fun _ => ()) = .error .outOfBounds)) =
      .ok true := by
    decide +kernel
  obtain ⟨⟨t, rs⟩, hrun, hvalue⟩ := of_map_ok hstate
  have hfault := of_decide_eq_true hvalue
  refine ⟨t, (reached_writes (roomy_ten u64Space) (fun _ _ h => h) crowdedWrites _ []
    (.inl ⟨make_fresh _ 1 0, rfl⟩) rfl (.start none _ 1 0) t rs hrun).1, ?_⟩
  cases hdescent : traversalWriteRand ⟨10, 10, u64Space⟩ 4 t none
      (fun i => if i = 0 then 1 else 0) with
  | ok y =>
    rw [hdescent] at hfault
    cases hfault
  | error fault =>
    rw [hdescent] at hfault
    cases hfault
    rfl

end CMVBT.RandomDescent
