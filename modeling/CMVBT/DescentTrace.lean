import CMVBT.Graveyard

/-!
# The rounds of a write descent

`Descends` records a descent round by round and leaves no room for a second try:
a child is entered at once, or after one repair of it, and a round that fails has
no case. One thread runs alone, so the latches that the source takes on the way
are free. The leaf at the end is a page of the current tree.
-/
namespace CMVBT.DescentTrace
open KeyInterval LastMatch FenceTiling VersionedLog PageModel FrugalList CommitClock Tracker
open CMVBT.Tree
open BlockSupply WritePath ReadPath TreeInvariant NewPages ChildRepair RootRewrite Descent
open FreshTree InPlaceUpdate ReaderHistory TreeShape Graveyard

variable {K P : Type} [LinearOrder K]

/-- The child for `key` is mergeable: if it is nearly empty there is a sibling. -/
def SiblingFound (cfg : Config K) (t : MVBTSt K P) (b : ℕ) (key : K) : Prop :=
  ∀ page index next, t.heap b = .internal page → activeIndex page key = some index →
    getPointer t b index = .ok next → unsafeDegree cfg (t.heap next) = .activeUnderflow →
    ∃ t' result, merge cfg t b next index = .ok (t', result) ∧ result ≠ .error

/-- A descent for `key` from block `b` of `t` to the leaf that it returns. Each level
has at most one repair, and the child entered needs none. -/
inductive Descends (cfg : Config K) (key : K) : MVBTSt K P → ℕ → MVBTSt K P → ℕ → Prop
  | arrive {t : MVBTSt K P} {b : ℕ} {page : LeafPage K P} : t.heap b = .leaf page →
      Descends cfg key t b t b
  | enter {t t' : MVBTSt K P} {b c leaf : ℕ} : descendRound cfg t b key = .ok (.enter c) →
      unsafeDegree cfg (t.heap c) = .ok → Descends cfg key t c t' leaf →
      Descends cfg key t b t' leaf
  | repair {t t₁ t' : MVBTSt K P} {b c leaf : ℕ} :
      descendRound cfg t b key = .ok (.repair t₁) → SiblingFound cfg t b key →
      descendRound cfg t₁ b key = .ok (.enter c) → unsafeDegree cfg (t₁.heap c) = .ok →
      Descends cfg key t₁ c t' leaf → Descends cfg key t b t' leaf

section Rounds
variable {cfg : Config K} {t t' : MVBTSt K P} {g : Ghost K P} {b leaf : ℕ} {key : K}

/-- A round that does not fail has found a sibling if it needed one. -/
theorem siblingFound_of_round {r : DescentRound K P} (hr : descendRound cfg t b key = .ok r) :
    SiblingFound cfg t b key := by
  intro page index next hpage hindex hnext hdeg
  simp only [descendRound, hpage, hindex, hnext, hdeg, bind, Except.bind] at hr
  cases hm : merge cfg t b next index with
  | error fault =>
    simp only [onUnderflowNode, hm, bind, Except.bind] at hr
    cases hr
  | ok out =>
    obtain ⟨t₁, result⟩ := out
    refine ⟨t₁, result, rfl, ?_⟩
    rintro rfl
    simp only [onUnderflowNode, hm, bind, Except.bind, pure, Except.pure] at hr
    cases hr

/-- The loop of the source goes through the recorded rounds. -/
theorem Descends.eq_of_descend (h : Descends cfg key t b t' leaf) :
    ∀ fuel x, descend cfg fuel t b key = .ok x → x = (t', leaf) := by
  induction h with
  | arrive hpage =>
    intro fuel x hx
    cases fuel with
    | zero => cases hx
    | succ fuel =>
      simp only [descend, hpage] at hx
      exact (Except.ok.inj hx).symm
  | enter hround _ _ ih =>
    intro fuel x hx
    cases fuel with
    | zero => cases hx
    | succ fuel =>
      rw [descend_succ, hround] at hx
      exact ih fuel x hx
  | @repair t t₁ t' b c leaf hround _ hnext _ _ ih =>
    intro fuel x hx
    cases fuel with
    | zero => cases hx
    | succ fuel =>
      rw [descend_succ, hround] at hx
      change descend cfg fuel t₁ b key = _ at hx
      cases fuel with
      | zero => cases hx
      | succ fuel =>
        rw [descend_succ, hnext] at hx
        exact ih fuel x hx

/-- Below the root a block on the path needs no repair. -/
theorem degree_ok_of_onPath (ho : OnPath cfg t g b key) (h : Living cfg t g)
    (hlevel : (g.life b).level < t.currentRoot.2) : unsafeDegree cfg (t.heap b) = .ok := by
  have hsafe := ho.safe
  rw [Safe, if_neg] at hsafe
  · exact hsafe
  · rintro rfl
    obtain ⟨birth, hlife⟩ := h.root_life
    rw [hlife] at hlevel
    exact lt_irrefl _ hlevel

/-- From a block on the path of the key the rounds lead to a leaf. -/
theorem descends_arrives (hc : Roomy cfg) :
    ∀ (level : ℕ) (t : MVBTSt K P) (g : Ghost K P) (b : ℕ), Inv cfg t g →
      OnPath cfg t g b key → (g.life b).level = level →
      ∃ t' g' leaf, Descends cfg key t b t' leaf ∧ Arrived cfg t g key t' g' leaf := by
  intro level
  induction level with
  | zero =>
    intro t g b h ho hlevel
    have hnode := h.living.node b ho.used
    cases hp : t.heap b with
    | leaf p => rw [hp] at hnode; have := hnode.1; omega
    | internal p => rw [hp] at hnode; have := hnode.1; omega
  | succ level ih =>
    intro t g b h ho hlevel
    have hnode := h.living.node b ho.used
    have hheight := h.living.level_le b ho.used ho.alive
    cases hp : t.heap b with
    | leaf p =>
      rw [hp] at hnode
      exact ⟨t, g, b, .arrive hp, h, .refl t g, rfl, ho, hnode.1⟩
    | internal p =>
      rw [hp] at hnode
      have hone := hnode.1
      rcases descendRound_cases h.living hc ho hone with ⟨c, hround, hon, hcv⟩ |
        ⟨e, t₁, hround, hke, hr⟩
      · obtain ⟨t', g', leaf, hd, ha⟩ := ih t g c h hon (by omega)
        exact ⟨t', g', leaf, .enter hround (degree_ok_of_onPath hon h.living (by omega)) hd, ha⟩
      · obtain ⟨g₁, hr⟩ := hr.repaired h
        obtain ⟨c, hnext, hon, hcv⟩ := Repaired.enters hr ho hone hke
        obtain ⟨t', g', leaf, hd, ha⟩ := ih t₁ g₁ c hr.inv hon (by omega)
        have hroot : t₁.currentRoot.2 = t.currentRoot.2 := by
          rw [MVBTSt.currentRoot, hr.root]
          rfl
        refine ⟨t', g', leaf, ?_, ha.inv, (hr.advance.intact h.living).trans ha.intact,
          ha.log.trans hr.log, ha.onPath, ha.level⟩
        exact .repair hround (siblingFound_of_round hround) hnext
          (degree_ok_of_onPath hon hr.inv.living (by omega)) hd

end Rounds

/-- A new tree without tracker, or with one and updates in place or not. -/
def initialTree (tracker : Option Bool) (tosses : ℕ → Toss) (threads tid : ℕ) : MVBTSt K P :=
  match tracker with
  | none => make tosses threads tid
  | some inPlace => enableGc (make tosses threads tid) inPlace

omit [LinearOrder K] in
theorem initialTree_fresh (tracker : Option Bool) (tosses : ℕ → Toss) (threads tid : ℕ) :
    Fresh (initialTree tracker tosses threads tid : MVBTSt K P) := by
  cases tracker with
  | none => exact make_fresh tosses threads tid
  | some inPlace => exact enableGc_fresh (make_fresh tosses threads tid) inPlace

/-- In every state that a history of writes reaches, with readers in between or not,
the descent for any key gets through at the first attempt: a root to start at, one
round for each level and at most one more for its repair, and at the end a leaf of
the current tree that has the key in its fence. -/
theorem write_descent_gets_through {cfg : Config K} (hc : Roomy cfg) (tracker : Option Bool)
    (tosses : ℕ → Toss) (threads tid : ℕ) (events : List (Event K P)) (key : K) :
    ∃ t rs, runEvents cfg (initialTree tracker tosses threads tid) events = .ok (t, rs) ∧
      ∃ t₁ root t' leaf, retrieveRootWriteOlc cfg t = .ok (t₁, root) ∧
        Descends cfg key t₁ root t' leaf ∧ traversalWriteOlc cfg t key = .ok (t', leaf) ∧
        ∃ page f w, t'.heap leaf = .leaf page ∧ Current cfg t' leaf f w ∧ key ∈ f := by
  obtain ⟨t, rs, log, hrun, hcarries⟩ := runEvents_carries hc events _ []
    (.inl ⟨initialTree_fresh tracker tosses threads tid, rfl⟩)
  refine ⟨t, rs, hrun, ?_⟩
  rcases hcarries with ⟨hfresh, -⟩ | ⟨g, h, -⟩
  · have hroot : t.currentRoot.1 = 0 := by rw [MVBTSt.currentRoot, hfresh.root]; rfl
    have hpage : t.heap 0 = .leaf Page.new := hfresh.heap
    have hcur : Current cfg t 0 cfg.keys.full t.root.insertVersion := hroot ▸ Current.root
    refine ⟨t, 0, t, 0, retrieveRoot_fresh hc hfresh, .arrive hpage,
      traversalWrite_fresh hc hfresh key, _, _, _, hpage, hcur,
      cfg.keys.mem_full key⟩
  · obtain ⟨t₁, g₁, hret, hinv, -, -, hready⟩ := retrieveRoot_ready h hc
    obtain ⟨birth, hlife⟩ := hinv.living.root_life
    have hon : OnPath cfg t₁ g₁ t₁.currentRoot.1 key := by
      refine ⟨hinv.living.root_lt, by rw [hlife], ?_, by rwa [Safe, if_pos rfl]⟩
      rw [hlife]
      exact cfg.keys.mem_full key
    obtain ⟨t', g', leaf, hd, ha⟩ := descends_arrives hc _ t₁ g₁ _ hinv hon rfl
    obtain ⟨t₂, g₂, leaf₂, htr, -⟩ := traversalWrite_arrives hc h key
    obtain ⟨rfl, rfl⟩ : t₂ = t' ∧ leaf₂ = leaf := by
      simp only [traversalWriteOlc, hret, bind, Except.bind] at htr
      exact Prod.mk.inj (hd.eq_of_descend _ _ htr)
    obtain ⟨f, w, hcur⟩ := (inTree_iff ha.inv).mpr ⟨ha.onPath.used, ha.onPath.alive⟩
    obtain ⟨-, level, hlife'⟩ := hcur.life ha.inv
    have hkey := ha.onPath.key_mem
    rw [hlife'] at hkey
    have hnode := ha.inv.living.node leaf₂ ha.onPath.used
    cases hp : t₂.heap leaf₂ with
    | internal p =>
      rw [hp] at hnode
      have := hnode.1
      have := ha.level
      omega
    | leaf p => exact ⟨t₁, _, t₂, leaf₂, hret, hd, htr, p, f, w, hp, hcur, hkey⟩

/-- At capacity 10 the last of these keys fills the second leaf. -/
def fullLeafEvents : List (Event UInt64 ℕ) :=
  (List.range 15).map (fun i => .write (.insert (UInt64.ofNat (i + 1)) i))

/-- The descent repairs the full leaf below the root directory and goes on in one half. -/
theorem write_descent_gets_through_full_leaf :
    ∃ t rs t₁ root t' leaf, runEvents ⟨10, 10, u64Space⟩
        (initialTree (some true) (fun _ => .next) 1 0) fullLeafEvents = .ok (t, rs) ∧
      retrieveRootWriteOlc ⟨10, 10, u64Space⟩ t = .ok (t₁, root) ∧
      Descends ⟨10, 10, u64Space⟩ 15 t₁ root t' leaf ∧ (t₁.heap root).isLeaf = false ∧
      (t₁.heap root).activeDeadCount = (2, 0) ∧ (t'.heap root).activeDeadCount = (3, 1) := by
  obtain ⟨t, rs, hrun, t₁, root, t', leaf, hret, hd, htr, -⟩ := write_descent_gets_through
    (roomy_ten u64Space) (some true) (fun _ => .next) 1 0 fullLeafEvents 15
  have hstate : (runEvents ⟨10, 10, u64Space⟩ (initialTree (some true) (fun _ => .next) 1 0)
      fullLeafEvents).bind (fun x => (retrieveRootWriteOlc ⟨10, 10, u64Space⟩ x.1).bind (fun y =>
        (traversalWriteOlc ⟨10, 10, u64Space⟩ x.1 15).map (fun z => ((y.1.heap y.2).isLeaf,
          (y.1.heap y.2).activeDeadCount, (z.1.heap y.2).activeDeadCount)))) =
      .ok (false, (2, 0), (3, 1)) := by
    decide +kernel
  rw [hrun] at hstate
  simp only [Except.bind, hret, htr, Except.map, Except.ok.injEq, Prod.mk.injEq] at hstate
  obtain ⟨hdirectory, hbefore, hafter⟩ := hstate
  exact ⟨t, rs, t₁, root, t', leaf, hrun, hret, hd, hdirectory, hbefore, hafter⟩

end CMVBT.DescentTrace
