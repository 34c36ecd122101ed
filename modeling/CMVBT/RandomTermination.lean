import CMVBT.RandomDescent
import Mathlib.Algebra.BigOperators.Group.Finset.Basic
import Mathlib.Algebra.Order.BigOperators.Group.Finset

/-!
# The random descent ends

A descent with sound repairs does not go on forever. A repair takes a child out of
the blocks that need one. At most the directory above it joins them, and that one
is closer to the top; the fresh blocks never do. Replacing the root adds no block
to them either, and a root that was replaced needs no repair.
-/
namespace CMVBT.RandomTermination
open KeyInterval LastMatch FenceTiling VersionedLog PageModel FrugalList CommitClock Tracker
open CMVBT.Tree
open BlockSupply WritePath ReadPath LeafHistory TreeInvariant PageRewrite NewPages Reorganization
open ParentRewrite ChildRepair RootRewrite Descent LeafWrite Reference WriteOperations FreshTree
open TreeShape RandomOperations PackedCounters RandomDescent

variable {K P : Type} [LinearOrder K]

/-! ## What is left to repair -/

/-- The living blocks below the root that need a repair. -/
def unsafeBlocks (cfg : Config K) (t : MVBTSt K P) (g : Ghost K P) : Finset ℕ :=
  (Finset.range t.nextBlock).filter (fun b => (g.life b).death = none ∧
    b ≠ t.currentRoot.1 ∧ unsafeDegree cfg (t.heap b) ≠ .ok)

/-- How far a block is below the top. -/
def depth (t : MVBTSt K P) (g : Ghost K P) (b : ℕ) : ℕ := t.currentRoot.2 + 1 - (g.life b).level

def depths (cfg : Config K) (t : MVBTSt K P) (g : Ghost K P) : ℕ :=
  ∑ b ∈ unsafeBlocks cfg t g, depth t g b

/-- One if the root has to be replaced. -/
def rootDebt (cfg : Config K) (t : MVBTSt K P) : ℕ :=
  if unsafeDegreeRoot cfg (t.heap t.currentRoot.1) = .ok then 0 else 1

/-- The levels that are left; an attempt begins above the root. -/
def levelsLeft (t : MVBTSt K P) (g : Ghost K P) : Option (ℕ × Interval K) → ℕ
  | none => t.currentRoot.2 + 1
  | some (curr, _) => (g.life curr).level

/-- The debt of a descent, most significant part first. -/
def debt (cfg : Config K) (t : MVBTSt K P) (g : Ghost K P) (pos : Option (ℕ × Interval K)) :
    ℕ ×ₗ ℕ ×ₗ ℕ ×ₗ ℕ :=
  toLex ((unsafeBlocks cfg t g).card, toLex (rootDebt cfg t, toLex (depths cfg t g,
    levelsLeft t g pos)))

section Debt
variable {cfg : Config K} {t t' : MVBTSt K P} {g g' : Ghost K P} {pos pos' : Option (ℕ × Interval K)}

theorem mem_unsafeBlocks {b : ℕ} : b ∈ unsafeBlocks cfg t g ↔ b < t.nextBlock ∧
    (g.life b).death = none ∧ b ≠ t.currentRoot.1 ∧ unsafeDegree cfg (t.heap b) ≠ .ok := by
  rw [unsafeBlocks, Finset.mem_filter, Finset.mem_range]

theorem debt_lt_of_blocks (h : (unsafeBlocks cfg t' g').card < (unsafeBlocks cfg t g).card) :
    debt cfg t' g' pos' < debt cfg t g pos :=
  Prod.Lex.toLex_lt_toLex.mpr (.inl h)

theorem debt_lt_of_root (h : (unsafeBlocks cfg t' g').card ≤ (unsafeBlocks cfg t g).card)
    (hroot : rootDebt cfg t' < rootDebt cfg t) : debt cfg t' g' pos' < debt cfg t g pos := by
  rcases h.lt_or_eq with hlt | heq
  · exact debt_lt_of_blocks hlt
  · exact Prod.Lex.toLex_lt_toLex.mpr (.inr ⟨heq, Prod.Lex.toLex_lt_toLex.mpr (.inl hroot)⟩)

theorem debt_lt_of_depths (h : (unsafeBlocks cfg t' g').card ≤ (unsafeBlocks cfg t g).card)
    (hroot : rootDebt cfg t' = rootDebt cfg t) (hdepths : depths cfg t' g' < depths cfg t g) :
    debt cfg t' g' pos' < debt cfg t g pos := by
  rcases h.lt_or_eq with hlt | heq
  · exact debt_lt_of_blocks hlt
  · exact Prod.Lex.toLex_lt_toLex.mpr (.inr ⟨heq, Prod.Lex.toLex_lt_toLex.mpr
      (.inr ⟨hroot, Prod.Lex.toLex_lt_toLex.mpr (.inl hdepths)⟩)⟩)

theorem debt_lt_of_level (h : levelsLeft t g pos' < levelsLeft t g pos) :
    debt cfg t g pos' < debt cfg t g pos :=
  Prod.Lex.toLex_lt_toLex.mpr (.inr ⟨rfl, Prod.Lex.toLex_lt_toLex.mpr
    (.inr ⟨rfl, Prod.Lex.toLex_lt_toLex.mpr (.inr ⟨rfl, h⟩)⟩)⟩)

/-- A reorganization whose fresh blocks need no repair adds at most the directory it
writes to. -/
theorem unsafe_of_reorg {news : List (ℕ × Life K)} {par : Option (ℕ × Node K P)} {dead : List ℕ}
    {roots : List ((ℕ × ℕ) × ℕ)} (hr : Reorg cfg t g t' news par dead)
    (hok : ∀ x ∈ news, x.1 ≠ t'.currentRoot.1 → unsafeDegree cfg (t'.heap x.1) = .ok) {b : ℕ}
    (hb : b ∈ unsafeBlocks cfg t' ⟨renew g.life t.commit.clock news dead, roots, g.log⟩) :
    (∃ n, par = some (b, n)) ∨ (b ∈ unsafeBlocks cfg t g ∧ b ∉ dead ∧
      renew g.life t.commit.clock news dead b = g.life b) := by
  obtain ⟨hlt, halive, hne, hdeg⟩ := mem_unsafeBlocks.mp hb
  rcases hr.block_cases hlt with ⟨x, hx, rfl⟩ | ⟨hold, hnew⟩
  · exact absurd (hok x hx hne) hdeg
  · obtain ⟨hd, hlife, hdeath⟩ := Reorg.kept_alive hnew halive
    by_cases hp : ∃ n, par = some (b, n)
    · exact .inl hp
    · have hheap : t'.heap b = t.heap b := by
        refine hr.heap_kept hnew ?_
        rintro ⟨m, n⟩ hpar rfl
        exact hp ⟨n, hpar⟩
      have hroot : b ≠ t.currentRoot.1 := by
        rcases hr.root_kept with hmem | hsame
        · rintro rfl
          exact hd hmem
        · rwa [← hsame]
      exact .inr ⟨mem_unsafeBlocks.mpr ⟨hold, hdeath, hroot, hheap ▸ hdeg⟩, hd, hlife⟩

theorem degreeRoot_of_ready (h : RootReady cfg (t.heap t.currentRoot.1)) :
    unsafeDegreeRoot cfg (t.heap t.currentRoot.1) = .ok := by
  obtain ⟨hroom, hchildren⟩ := h
  simp only [unsafeDegreeRoot]
  split_ifs with h₁ h₂
  · have := hchildren h₁.2
    omega
  · omega
  · rfl

/-- A root that was replaced is out of debt. -/
theorem replanted_debt {c : ℕ} {dead : List ℕ} {news : List (ℕ × Life K)}
    (hr : Replanted cfg t g c dead t' news) (h : Inv cfg t g)
    (hdeg : unsafeDegreeRoot cfg (t.heap t.currentRoot.1) ≠ .ok) :
    ∃ g', Rerooted cfg t g t' g' ∧ debt cfg t' g' pos' < debt cfg t g pos := by
  have hadv := hr.reorg.advance (.inr ⟨hr.chain, rfl, hr.birth⟩)
  refine ⟨_, ⟨hadv.inv h (hr.reorg.living h.living _), hadv, rfl, hr.ready⟩, ?_⟩
  apply debt_lt_of_root
  · apply Finset.card_le_card
    intro b hb
    rcases unsafe_of_reorg hr.reorg hr.safe hb with ⟨n, hn⟩ | ⟨hold, -, -⟩
    · cases hn
    · exact hold
  · rw [rootDebt, rootDebt, if_pos (degreeRoot_of_ready hr.ready), if_neg hdeg]
    exact Nat.one_pos

/-- The root that an attempt begins at. -/
theorem retrieveRoot_debt (h : Inv cfg t g) (hc : Roomy cfg) :
    ∃ t' g', retrieveRootWriteOlc cfg t = .ok (t', t'.currentRoot.1) ∧ Inv cfg t' g' ∧
      RootReady cfg (t'.heap t'.currentRoot.1) ∧
      debt cfg t' g' (some (t'.currentRoot.1, cfg.keys.full)) < debt cfg t g none := by
  cases hdeg : unsafeDegreeRoot cfg (t.heap t.currentRoot.1) with
  | ok =>
    refine ⟨t, g, by simp only [retrieveRootWriteOlc, hdeg], h, rootReady_of_ok h.living hdeg, ?_⟩
    obtain ⟨birth, hlife⟩ := h.living.root_life
    apply debt_lt_of_level
    simp only [levelsLeft, hlife]
    exact Nat.lt_succ_self _
  | overflow =>
    obtain ⟨t', news, heq, hr⟩ := retrieveRoot_overflow h hc hdeg
    obtain ⟨g', hre, hlt⟩ := replanted_debt hr h (by rw [hdeg]; decide)
    exact ⟨t', g', heq, hre.inv, hre.ready, hlt⟩
  | activeUnderflow =>
    obtain ⟨c, t', news, heq, -, hr⟩ := retrieveRoot_collapse h hc hdeg
    obtain ⟨g', hre, hlt⟩ := replanted_debt hr h (by rw [hdeg]; decide)
    exact ⟨t', g', heq, hre.inv, hre.ready, hlt⟩

/-- A repair lowers the debt, wherever the descent goes on. -/
theorem replaced_debt {m i : ℕ} {p : InternalPage K} {e : Entry K} (h : Inv cfg t g)
    (hx : Child t g m i p e) (hdeg : unsafeDegree cfg (t.heap e.pointer) ≠ .ok)
    (hr : Replaced cfg t g m e t') :
    ∃ g', Repaired cfg t g m e.fence t' g' ∧ ∀ pos pos', debt cfg t' g' pos' < debt cfg t g pos := by
  obtain ⟨t₁, p', index, es, level, xs, hs, he, hok⟩ := hr
  obtain ⟨hel, -, hev⟩ := hx.child_life h.living
  have hreorg := hs.reorg h.living
  have hrep := swap_repaired hs h he hok
  refine ⟨_, hrep, fun pos pos' => ?_⟩
  have hroot : t'.currentRoot = t.currentRoot := by rw [MVBTSt.currentRoot, hs.root]; rfl
  have hchild : e.pointer ∈ unsafeBlocks cfg t g :=
    mem_unsafeBlocks.mpr ⟨(hx.link h.living).1, hel, hx.ne_root h.living, hdeg⟩
  have hcases : ∀ b ∈ unsafeBlocks cfg t' (Swap.after t g es level xs), b = m ∨
      (b ∈ (unsafeBlocks cfg t g).erase e.pointer ∧
        (Swap.after t g es level xs).life b = g.life b) := by
    intro b hb
    have hnews : ∀ x ∈ Swap.news t.commit.clock level xs, x.1 ≠ t'.currentRoot.1 →
        unsafeDegree cfg (t'.heap x.1) = .ok := by
      intro x hx' _
      obtain ⟨y, hy, rfl⟩ := Swap.news_mem.mp hx'
      rw [Swap.heap_fresh hs.smo hy]
      exact hok y hy
    rcases unsafe_of_reorg hreorg hnews hb with ⟨n, hn⟩ | ⟨hold, hd, hlife⟩
    · cases hn
      exact .inl rfl
    · refine .inr ⟨Finset.mem_erase.mpr ⟨?_, hold⟩, hlife⟩
      rintro rfl
      exact hd (List.mem_map_of_mem he)
  have hpos := Finset.card_pos.mpr ⟨_, hchild⟩
  have herase := Finset.card_erase_of_mem hchild
  by_cases hmr : m = t.currentRoot.1
  · apply debt_lt_of_blocks
    have hsub : unsafeBlocks cfg t' (Swap.after t g es level xs) ⊆
        (unsafeBlocks cfg t g).erase e.pointer := by
      intro b hb
      rcases hcases b hb with rfl | ⟨hold, -⟩
      · exact absurd (hmr.trans (congrArg Prod.fst hroot).symm) (mem_unsafeBlocks.mp hb).2.2.1
      · exact hold
    have := Finset.card_le_card hsub
    omega
  · have hsub : unsafeBlocks cfg t' (Swap.after t g es level xs) ⊆
        insert m ((unsafeBlocks cfg t g).erase e.pointer) := by
      intro b hb
      rcases hcases b hb with rfl | ⟨hold, -⟩
      · exact Finset.mem_insert_self _ _
      · exact Finset.mem_insert_of_mem hold
    have hlevel := h.living.level_le m hx.used hx.alive
    apply debt_lt_of_depths
    · have h₁ := Finset.card_le_card hsub
      have h₂ := Finset.card_insert_le m ((unsafeBlocks cfg t g).erase e.pointer)
      omega
    · have hheap : t'.heap t.currentRoot.1 = t.heap t.currentRoot.1 := by
        refine hreorg.heap_kept (hreorg.alive_not_new h.living h.living.root_lt ?_) ?_
        · obtain ⟨birth, hlife⟩ := h.living.root_life
          rw [hlife]
        · intro x hpar
          cases hpar
          exact hmr
      rw [rootDebt, rootDebt, hroot, hheap]
    · -- the directory is one level above the child that it replaces in the sum
      have hdepth : ∀ b ∈ unsafeBlocks cfg t' (Swap.after t g es level xs),
          depth t' (Swap.after t g es level xs) b = depth t g b := by
        intro b hb
        rw [depth, depth, hroot]
        rcases hcases b hb with rfl | ⟨-, hlife⟩
        · rw [hrep.life]
        · rw [hlife]
      have hsplit := Finset.add_sum_erase (unsafeBlocks cfg t g) (depth t g) hchild
      have hinsert : ∑ b ∈ insert m ((unsafeBlocks cfg t g).erase e.pointer), depth t g b ≤
          depth t g m + ∑ b ∈ (unsafeBlocks cfg t g).erase e.pointer, depth t g b := by
        by_cases hm : m ∈ (unsafeBlocks cfg t g).erase e.pointer
        · rw [Finset.insert_eq_of_mem hm]
          exact Nat.le_add_left _ _
        · rw [Finset.sum_insert hm]
      have hlt : depth t g m < depth t g e.pointer := by
        simp only [depth]
        omega
      calc depths cfg t' (Swap.after t g es level xs)
          = ∑ b ∈ unsafeBlocks cfg t' (Swap.after t g es level xs), depth t g b :=
            Finset.sum_congr rfl hdepth
        _ ≤ ∑ b ∈ insert m ((unsafeBlocks cfg t g).erase e.pointer), depth t g b :=
            Finset.sum_le_sum_of_subset hsub
        _ ≤ depth t g m + ∑ b ∈ (unsafeBlocks cfg t g).erase e.pointer, depth t g b := hinsert
        _ < depth t g e.pointer + ∑ b ∈ (unsafeBlocks cfg t g).erase e.pointer, depth t g b :=
            Nat.add_lt_add_right hlt _
        _ = depths cfg t g := hsplit

end Debt

/-! ## The descent -/

section Descent
variable {cfg : Config K} {t : MVBTSt K P} {g : Ghost K P}

/-- With enough fuel the descent ends; the induction is on what is left to repair. -/
theorem traversalWriteRand_ends (hc : Roomy cfg) (d : ℕ ×ₗ ℕ ×ₗ ℕ ×ₗ ℕ) :
    ∀ (t : MVBTSt K P) (g : Ghost K P) (pos : Option (ℕ × Interval K)) (draws : Draws),
      debt cfg t g pos = d → Inv cfg t g → (∀ x, pos = some x → Standing cfg t g x.1 x.2) →
      (∀ fuel, DescendsSoundly cfg fuel t pos draws) →
      ∃ n, ∀ fuel, n ≤ fuel → traversalWriteRand cfg fuel t pos draws ≠ .error .outOfFuel := by
  induction d using WellFoundedLT.induction with
  | ind d ih =>
    intro t g pos draws hd h hpos hsound
    cases pos with
    | none =>
      obtain ⟨t₁, g₁, hret, hinv, hready, hlt⟩ := retrieveRoot_debt h hc
      obtain ⟨birth, hlife⟩ := hinv.living.root_life
      have hstand : Standing cfg t₁ g₁ t₁.currentRoot.1 cfg.keys.full := by
        refine ⟨hinv.living.root_lt, by rw [hlife], fun _ => ⟨?_, by rw [hlife]⟩⟩
        rwa [Safe, if_pos rfl]
      obtain ⟨n, hn⟩ := ih _ (hd ▸ hlt) t₁ g₁ _ draws rfl hinv
        (fun x hx => Option.some.inj hx ▸ hstand) (fun fuel => hsound (fuel + 1) t₁ _ hret)
      refine ⟨n + 1, fun fuel hfuel => ?_⟩
      obtain ⟨fuel, rfl⟩ : ∃ k, fuel = k + 1 := ⟨fuel - 1, by omega⟩
      simp only [traversalWriteRand, hret, bind, Except.bind]
      exact hn fuel (by omega)
    | some x =>
      obtain ⟨curr, fence⟩ := x
      have hs : Standing cfg t g curr fence := hpos _ rfl
      rcases soundRound_cases h hc hs (hsound 1).1 with ⟨hround, -⟩ |
        ⟨f, next, hround, hnext, hlevel⟩ | ⟨p, i, e, t₁, hround, hx, hdeg, hr⟩
      · refine ⟨1, fun fuel hfuel => ?_⟩
        obtain ⟨fuel, rfl⟩ : ∃ k, fuel = k + 1 := ⟨fuel - 1, by omega⟩
        simp only [traversalWriteRand, hround, bind, Except.bind, pure, Except.pure, ne_eq,
          reduceCtorEq, not_false_eq_true]
      · have hlt : debt cfg t g (some (next, f)) < d := by
          rw [← hd]
          apply debt_lt_of_level
          simp only [levelsLeft]
          omega
        obtain ⟨n, hn⟩ := ih _ hlt t g _ (drawsAfter t curr draws) rfl h
          (fun x hx => Option.some.inj hx ▸ hnext)
          (fun fuel => (hsound (fuel + 1)).2.1 f next hround)
        refine ⟨n + 1, fun fuel hfuel => ?_⟩
        obtain ⟨fuel, rfl⟩ : ∃ k, fuel = k + 1 := ⟨fuel - 1, by omega⟩
        simp only [traversalWriteRand, hround, bind, Except.bind]
        exact hn fuel (by omega)
      · obtain ⟨g₁, hrep, hlt⟩ := replaced_debt h hx hdeg hr
        rcases hround with hround | hround
        · have hstand := hs.repaired h hx.page hrep e.fence
          obtain ⟨n, hn⟩ := ih _ (hd ▸ hlt _ (some (curr, e.fence))) t₁ g₁ _
            (drawsAfter t curr draws) rfl hrep.inv (fun x hx => Option.some.inj hx ▸ hstand)
            (fun fuel => (hsound (fuel + 1)).2.2.1 e.fence t₁ hround)
          refine ⟨n + 1, fun fuel hfuel => ?_⟩
          obtain ⟨fuel, rfl⟩ : ∃ k, fuel = k + 1 := ⟨fuel - 1, by omega⟩
          simp only [traversalWriteRand, hround, bind, Except.bind]
          exact hn fuel (by omega)
        · obtain ⟨n, hn⟩ := ih _ (hd ▸ hlt _ none) t₁ g₁ none (drawsAfter t curr draws) rfl
            hrep.inv (fun x hx => by cases hx)
            (fun fuel => (hsound (fuel + 1)).2.2.2 t₁ hround)
          refine ⟨n + 1, fun fuel hfuel => ?_⟩
          obtain ⟨fuel, rfl⟩ : ∃ k, fuel = k + 1 := ⟨fuel - 1, by omega⟩
          simp only [traversalWriteRand, hround, bind, Except.bind]
          exact hn fuel (by omega)

end Descent

end CMVBT.RandomTermination
