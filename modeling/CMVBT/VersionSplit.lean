import CMVBT.DescentTrace

/-!
# The assertion in the version split of a leaf

`split` copies the live records of a leaf that is less than 80 percent live to one
fresh leaf, and asserts that they are at least 40 percent. Three callers get there.
The one in the descent has tested the leaf with `unsafe_degree`, which sends leaves
with fewer live records to a merge. The root is tested with `unsafe_degree_root`, and
the last child of a collapsing root is not tested at all.
-/
namespace CMVBT.VersionSplit
open KeyInterval LastMatch FenceTiling VersionedLog PageModel FrugalList CommitClock Tracker
open CMVBT.Tree
open WritePath TreeInvariant NewPages ChildRepair RootRewrite Descent FreshTree ReaderHistory
open TreeShape Graveyard DescentTrace

variable {K P : Type} [LinearOrder K]

/-- The `debug_assert!` of `split` on a block with the given content. -/
def DebugAssert (cfg : Config K) : Node K P → Prop
  | .leaf page => page.activeDeadCount.1 < filling80Percent cfg (.leaf page : Node K P) →
      filling40Percent cfg (.leaf page : Node K P) ≤ page.activeUnits.length
  | .internal _ => True

/-! ## The calls of split -/

/-- The block that `split_root` is called with before the descent of a write: a full
root, or the last child of a root with a single active entry. -/
inductive RootSplit (cfg : Config K) (t : MVBTSt K P) : ℕ → Prop
  | full : unsafeDegreeRoot cfg (t.heap t.currentRoot.1) = .overflow →
      RootSplit cfg t t.currentRoot.1
  | lastChild {page : InternalPage K} {child : ℕ} :
      unsafeDegreeRoot cfg (t.heap t.currentRoot.1) = .activeUnderflow →
      t.heap t.currentRoot.1 = .internal page →
      getPointer t t.currentRoot.1 (page.sumLen - 1) = .ok child → RootSplit cfg t child

/-- A descent for `key` from block `b` calls `split` on a block with this content. -/
inductive SplitBelow (cfg : Config K) (key : K) : MVBTSt K P → ℕ → Node K P → Prop
  | here {t : MVBTSt K P} {b index next : ℕ} {page : InternalPage K} :
      t.heap b = .internal page → activeIndex page key = some index →
      getPointer t b index = .ok next → unsafeDegree cfg (t.heap next) = .overflow →
      SplitBelow cfg key t b (t.heap next)
  | enter {t : MVBTSt K P} {b c : ℕ} {n : Node K P} :
      descendRound cfg t b key = .ok (.enter c) → SplitBelow cfg key t c n →
      SplitBelow cfg key t b n
  | repair {t t₁ : MVBTSt K P} {b : ℕ} {n : Node K P} :
      descendRound cfg t b key = .ok (.repair t₁) → SplitBelow cfg key t₁ b n →
      SplitBelow cfg key t b n

/-- A history calls `split` on a block with this content. -/
inductive Splits (cfg : Config K) : MVBTSt K P → List (Event K P) → Node K P → Prop
  | root {t : MVBTSt K P} {b : ℕ} {op : WriteOperation K P} {events : List (Event K P)} :
      RootSplit cfg t b → Splits cfg t (.write op :: events) (t.heap b)
  | descent {t t₁ : MVBTSt K P} {root : ℕ} {n : Node K P} {op : WriteOperation K P}
      {events : List (Event K P)} : retrieveRootWriteOlc cfg t = .ok (t₁, root) →
      SplitBelow cfg (operationKey op) t₁ root n → Splits cfg t (.write op :: events) n
  | later {t t' : MVBTSt K P} {event : Event K P} {r : Option WriteResult} {n : Node K P}
      {events : List (Event K P)} : perform cfg t event = .ok (t', r) →
      Splits cfg t' events n → Splits cfg t (event :: events) n

/-- A leaf that takes the place of the root is at least 40 percent live. -/
def RootFilled (cfg : Config K) (t : MVBTSt K P) : Prop :=
  ∀ b, RootSplit cfg t b → (t.heap b).isLeaf = true →
    filling40Percent cfg (t.heap b) ≤ (t.heap b).activeDeadCount.1

/-- That is so whenever a write of the history starts. -/
def RootFilledThroughout (cfg : Config K) (t : MVBTSt K P) : List (Event K P) → Prop
  | [] => True
  | .write op :: events => RootFilled cfg t ∧ ∀ t' r, perform cfg t (.write op) = .ok (t', r) →
      RootFilledThroughout cfg t' events
  | .reader event :: events => RootFilledThroughout cfg (event.apply t) events

/-- The block of `RootSplit`. -/
def rootSplit? (cfg : Config K) (t : MVBTSt K P) : Option ℕ :=
  match unsafeDegreeRoot cfg (t.heap t.currentRoot.1), t.heap t.currentRoot.1 with
  | .overflow, _ => some t.currentRoot.1
  | .activeUnderflow, .internal page =>
    (getPointer t t.currentRoot.1 (page.sumLen - 1)).toOption
  | _, _ => none

theorem rootSplit_iff {cfg : Config K} {t : MVBTSt K P} {b : ℕ} :
    RootSplit cfg t b ↔ b ∈ rootSplit? cfg t := by
  constructor
  · intro hs
    cases hs with
    | full hdeg => simp only [rootSplit?, hdeg, Option.mem_some]
    | lastChild hdeg hpage hchild =>
      rw [rootSplit?, hdeg, hpage]
      simp only [hchild, Except.toOption, Option.mem_some]
  · intro hmem
    simp only [rootSplit?] at hmem
    split at hmem
    · case h_1 hdeg =>
      obtain rfl := Option.mem_some.mp hmem
      exact .full hdeg
    · case h_2 page hdeg hpage =>
      cases hchild : getPointer t t.currentRoot.1 (page.sumLen - 1) with
      | error fault =>
        rw [hchild] at hmem
        cases hmem
      | ok child =>
        rw [hchild] at hmem
        obtain rfl := Option.mem_some.mp hmem
        exact .lastChild hdeg hpage hchild
    · cases hmem

instance (cfg : Config K) (t : MVBTSt K P) : Decidable (RootFilled cfg t) :=
  decidable_of_iff (∀ b ∈ rootSplit? cfg t, (t.heap b).isLeaf = true →
      filling40Percent cfg (t.heap b) ≤ (t.heap b).activeDeadCount.1)
    (forall_congr' fun _ => imp_congr_left rootSplit_iff.symm)

instance instDecidableRootFilledThroughout (cfg : Config K) :
    (t : MVBTSt K P) → (events : List (Event K P)) →
      Decidable (RootFilledThroughout cfg t events)
  | _, [] => .isTrue trivial
  | t, .reader event :: events => instDecidableRootFilledThroughout cfg (event.apply t) events
  | t, .write op :: events =>
    have : Decidable (∀ t' r, perform cfg t (.write op) = .ok (t', r) →
        RootFilledThroughout cfg t' events) :=
      match h : perform cfg t (.write op) with
      | .error _ => .isTrue nofun
      | .ok (t', r) =>
        match instDecidableRootFilledThroughout cfg t' events with
        | .isTrue hlater => .isTrue fun _ _ heq => by cases heq; exact hlater
        | .isFalse hlater => .isFalse fun hall => hlater (hall t' r rfl)
    inferInstanceAs (Decidable (_ ∧ _))

section Calls
variable {cfg : Config K} {t : MVBTSt K P} {g : Ghost K P} {b : ℕ} {key : K}

/-- The packed length of a leaf in memory counts its live records. -/
theorem debugAssert_iff (h : Living cfg t g) (hb : b < t.nextBlock) :
    DebugAssert cfg (t.heap b) ↔ ((t.heap b).isLeaf = true →
      (t.heap b).activeDeadCount.1 < filling80Percent cfg (t.heap b) →
      filling40Percent cfg (t.heap b) ≤ (t.heap b).activeDeadCount.1) := by
  have hnode := h.node b hb
  cases hp : t.heap b with
  | internal p => simp [DebugAssert, Node.isLeaf]
  | leaf p =>
    rw [hp] at hnode
    have hcounted := hnode.2.counted
    have hcount : p.activeUnits.length = p.activeDeadCount.1 := by
      rw [hcounted.activeUnits, ← List.countP_eq_length_filter]
      exact hcounted.active.symm
    simp [DebugAssert, Node.isLeaf, Node.activeDeadCount, hcount]

/-- `unsafe_degree` reports an overflow only above 40 percent. -/
theorem filled_of_overflow {n : Node K P} (h : unsafeDegree cfg n = .overflow) :
    filling40Percent cfg n ≤ n.activeDeadCount.1 := by
  simp only [unsafeDegree] at h
  split_ifs at h with h₁ h₂ h₃
  have htwice : ¬ n.activeDeadCount.1 ≤ filling20Percent cfg n * 2 := by
    simpa only [h₃, Bool.true_and, decide_eq_true_eq] using h₂
  simp only [filling40Percent]
  simp only [filling20Percent] at htwice
  omega

/-- A block that a descent is at: on the path, or just after a repair of its child. -/
def At (cfg : Config K) (t : MVBTSt K P) (g : Ghost K P) (b : ℕ) (key : K) : Prop :=
  OnPath cfg t g b key ∨ (b < t.nextBlock ∧ (g.life b).death = none ∧ key ∈ (g.life b).fence ∧
    ∃ c, descendRound cfg t b key = .ok (.enter c) ∧ OnPath cfg t g c key)

/-- A round that enters or repairs is at a directory. -/
theorem directory_of_round (h : Living cfg t g) (ho : OnPath cfg t g b key)
    {r : DescentRound K P} (hround : descendRound cfg t b key = .ok r) (hr : r ≠ .arrive) :
    1 < (g.life b).level := by
  have hnode := h.node b ho.used
  cases hp : t.heap b with
  | internal p =>
    rw [hp] at hnode
    exact hnode.1
  | leaf p =>
    rw [descendRound, hp] at hround
    exact absurd (Except.ok.inj hround).symm hr

/-- The child entered is on the path. -/
theorem At.enter {c : ℕ} (hc : Roomy cfg) (h : Living cfg t g) (ha : At cfg t g b key)
    (hround : descendRound cfg t b key = .ok (.enter c)) : OnPath cfg t g c key := by
  rcases ha with ho | ⟨-, -, -, c', hround', hon⟩
  · have hlevel := directory_of_round h ho hround (nomatch ·)
    rcases descendRound_cases h hc ho hlevel with ⟨c', hround', hon, -⟩ | ⟨e, t', hround', -⟩
    · rw [hround] at hround'
      cases hround'
      exact hon
    · rw [hround] at hround'
      cases hround'
  · rw [hround] at hround'
    cases hround'
    exact hon

/-- After a repair the descent is still at the block. -/
theorem At.repair {t' : MVBTSt K P} (hc : Roomy cfg) (h : Inv cfg t g) (ha : At cfg t g b key)
    (hround : descendRound cfg t b key = .ok (.repair t')) :
    ∃ g', Inv cfg t' g' ∧ At cfg t' g' b key := by
  rcases ha with ho | ⟨-, -, -, c', hround', -⟩
  · have hlevel := directory_of_round h.living ho hround (nomatch ·)
    rcases descendRound_cases h.living hc ho hlevel with ⟨c', hround', -⟩ |
      ⟨e, t₁, hround', hke, hr⟩
    · rw [hround] at hround'
      cases hround'
    · rw [hround] at hround'
      cases hround'
      obtain ⟨g', hr⟩ := hr.repaired h
      obtain ⟨c, hnext, hon, -⟩ := Repaired.enters hr ho hlevel hke
      refine ⟨g', hr.inv, .inr ⟨ho.used.trans_le hr.advance.next, ?_, ?_, c, hnext, hon⟩⟩
      · rw [hr.life]
        exact ho.alive
      · rw [hr.life]
        exact ho.key_mem
  · rw [hround] at hround'
    cases hround'

/-- Below the root every block that is split has passed `unsafe_degree`. -/
theorem splitBelow_asserts (hc : Roomy cfg) {n : Node K P} (hs : SplitBelow cfg key t b n) :
    ∀ g : Ghost K P, Inv cfg t g → At cfg t g b key → DebugAssert cfg n := by
  induction hs with
  | @here t b index next page hpage hindex hnext hdeg =>
    intro g h ha
    have hplace : b < t.nextBlock ∧ (g.life b).death = none ∧ key ∈ (g.life b).fence := by
      rcases ha with ho | ⟨hb, halive, hk, -⟩
      · exact ⟨ho.used, ho.alive, ho.key_mem⟩
      · exact ⟨hb, halive, hk⟩
    obtain ⟨i, e, hi, hx, -⟩ := activeIndex_child h.living hplace.1 hplace.2.1 hplace.2.2 hpage
    rw [hindex] at hi
    cases hi
    obtain rfl : next = e.pointer := by
      simp only [getPointer, MVBTSt.asInternalPage, hpage, bind, Except.bind, hx.entry, pure,
        Except.pure] at hnext
      exact (Except.ok.inj hnext).symm
    exact (debugAssert_iff h.living (hx.link h.living).1).mpr
      (fun _ _ => filled_of_overflow hdeg)
  | enter hround _ ih =>
    intro g h ha
    exact ih g h (.inl (ha.enter hc h.living hround))
  | repair hround _ ih =>
    intro g h ha
    obtain ⟨g', h', ha'⟩ := ha.repair hc h hround
    exact ih g' h' ha'

/-- The block that `split_root` is called with is in memory. -/
theorem RootSplit.used (hc : Roomy cfg) (h : Living cfg t g) (hs : RootSplit cfg t b) :
    b < t.nextBlock := by
  cases hs with
  | full _ => exact h.root_lt
  | @lastChild page _ hdeg hpage hchild =>
    obtain ⟨p, e, hp, hlast, -, htop⟩ := topmost_child h hc hdeg
    rw [hpage] at hp
    cases hp
    simp only [getPointer, MVBTSt.asInternalPage, hpage, bind, Except.bind, hlast, pure,
      Except.pure] at hchild
    cases hchild
    exact htop.used

/-- At the root the assertions are those of the leaves that take its place. -/
theorem rootFilled_iff (hc : Roomy cfg) (h : Living cfg t g) :
    RootFilled cfg t ↔ ∀ b, RootSplit cfg t b → DebugAssert cfg (t.heap b) := by
  have hle : ∀ n : Node K P, filling40Percent cfg n ≤ filling80Percent cfg n := by
    intro n
    simp only [filling40Percent, filling80Percent]
    omega
  constructor
  · intro hfilled b hs
    exact (debugAssert_iff h (hs.used hc h)).mpr (fun hleaf _ => hfilled b hs hleaf)
  · intro hall b hs hleaf
    have hassert := (debugAssert_iff h (hs.used hc h)).mp (hall b hs) hleaf
    by_cases hfew : (t.heap b).activeDeadCount.1 < filling80Percent cfg (t.heap b)
    · exact hassert hfew
    · exact (hle _).trans (not_lt.mp hfew)

theorem rootSplit_fresh (hc : Roomy cfg) (h : Fresh t) : ¬ RootSplit cfg t b := by
  intro hs
  have hok := degreeRoot_fresh hc h
  cases hs with
  | full hdeg => rw [hok] at hdeg; cases hdeg
  | lastChild hdeg => rw [hok] at hdeg; cases hdeg

theorem splitBelow_fresh (h : Fresh t) {n : Node K P} : ¬ SplitBelow cfg key t 0 n := by
  have hround : descendRound cfg t 0 key = .ok .arrive := by rw [descendRound, h.heap]; rfl
  intro hs
  cases hs with
  | here hpage => rw [h.heap] at hpage; cases hpage
  | enter hround' => rw [hround] at hround'; cases hround'
  | repair hround' => rw [hround] at hround'; cases hround'

/-- What the descent of a write splits is filled, wherever the write starts. -/
theorem descent_asserts (hc : Roomy cfg) {log : Log K P} (h : Carries cfg t log)
    {t₁ : MVBTSt K P} {root : ℕ} (hret : retrieveRootWriteOlc cfg t = .ok (t₁, root))
    {n : Node K P} (hs : SplitBelow cfg key t₁ root n) : DebugAssert cfg n := by
  rcases h with ⟨hfresh, -⟩ | ⟨g, hinv, -⟩
  · rw [retrieveRoot_fresh hc hfresh] at hret
    cases hret
    exact absurd hs (splitBelow_fresh hfresh)
  · obtain ⟨t', g', hret', hinv', -, -, hready⟩ := retrieveRoot_ready hinv hc
    rw [hret] at hret'
    cases hret'
    obtain ⟨birth, hlife⟩ := hinv'.living.root_life
    refine splitBelow_asserts hc hs g' hinv' (.inl ⟨hinv'.living.root_lt, ?_, ?_, ?_⟩)
    · rw [hlife]
    · rw [hlife]
      exact cfg.keys.mem_full key
    · rwa [Safe, if_pos rfl]

/-- The assertions at the start of a write are those of `RootFilled`. -/
theorem rootSplit_asserts (hc : Roomy cfg) {log : Log K P} (h : Carries cfg t log) :
    RootFilled cfg t ↔ ∀ b, RootSplit cfg t b → DebugAssert cfg (t.heap b) := by
  rcases h with ⟨hfresh, -⟩ | ⟨g, hinv, -⟩
  · constructor
    · intro _ b hs
      exact absurd hs (rootSplit_fresh hc hfresh)
    · intro _ b hs
      exact absurd hs (rootSplit_fresh hc hfresh)
  · exact rootFilled_iff hc hinv.living

end Calls

theorem splits_assert_iff {cfg : Config K} (hc : Roomy cfg) (events : List (Event K P)) :
    ∀ (t : MVBTSt K P) (log : Log K P), Carries cfg t log →
      ((∀ n, Splits cfg t events n → DebugAssert cfg n) ↔ RootFilledThroughout cfg t events) := by
  induction events with
  | nil =>
    intro t log h
    constructor
    · intro _
      trivial
    · intro _ n hs
      cases hs
  | cons event events ih =>
    intro t log h
    cases event with
    | reader event =>
      rw [RootFilledThroughout, ← ih _ log (h.apply event)]
      constructor
      · intro hall n hs
        exact hall n (.later rfl hs)
      · intro hall n hs
        cases hs with
        | later hperform hrest =>
          cases hperform
          exact hall n hrest
    | write op =>
      obtain ⟨t₁, r, log₁, hrun, h₁, -⟩ := h.write hc op
      have hstep : perform cfg t (.write op) = .ok (t₁, some r) := by
        simp only [perform, hrun, Except.map]
      constructor
      · intro hall
        refine ⟨(rootSplit_asserts hc h).mpr (fun b hs => hall _ (.root hs)), ?_⟩
        intro t' r' hperform
        rw [hstep] at hperform
        cases hperform
        exact (ih t₁ log₁ h₁).mp (fun n hs => hall n (.later hstep hs))
      · rintro ⟨hroot, hrest⟩ n hs
        cases hs with
        | root hsplit => exact (rootSplit_asserts hc h).mp hroot _ hsplit
        | descent hret hbelow => exact descent_asserts hc h hret hbelow
        | later hperform hlater =>
          rw [hstep] at hperform
          cases hperform
          exact (ih t₁ log₁ h₁).mpr (hrest t₁ (some r) hstep) n hlater

/-- In a run from a new tree the assertion never fires if and only if, whenever a write
starts, a leaf that takes the place of a full or collapsing root is 40 percent live. -/
theorem version_split_filled_iff {cfg : Config K} (hc : Roomy cfg) (tracker : Option Bool)
    (tosses : ℕ → Toss) (threads tid : ℕ) (events : List (Event K P)) :
    (∀ n, Splits cfg (initialTree tracker tosses threads tid) events n → DebugAssert cfg n) ↔
      RootFilledThroughout cfg (initialTree tracker tosses threads tid) events :=
  splits_assert_iff hc events _ [] (.inl ⟨initialTree_fresh tracker tosses threads tid, rfl⟩)

/-- The calls of the later part of a history are calls of the whole. -/
theorem Splits.append {cfg : Config K} {later : List (Event K P)} {n : Node K P}
    (events : List (Event K P)) :
    ∀ {t t' : MVBTSt K P} {rs : List (Option WriteResult)},
      runEvents cfg t events = .ok (t', rs) → Splits cfg t' later n →
      Splits cfg t (events ++ later) n := by
  induction events with
  | nil =>
    intro t t' rs hrun hs
    cases hrun
    exact hs
  | cons event events ih =>
    intro t t' rs hrun hs
    cases hperform : perform cfg t event with
    | error fault =>
      simp only [runEvents, hperform, bind, Except.bind] at hrun
      cases hrun
    | ok out =>
      simp only [runEvents, hperform, bind, Except.bind] at hrun
      cases hrest : runEvents cfg out.1 events with
      | error fault =>
        rw [hrest] at hrun
        cases hrun
      | ok out' =>
        rw [hrest] at hrun
        cases hrun
        exact .later hperform (ih hrest hs)

/-- At capacity 10 the keys 1 to 11 lie in two leaves, of which the left one is filled
with dead records of key 1. -/
def updatedLeft : List (Event UInt64 ℕ) :=
  (List.range 11).map (fun i => .write (.insert (UInt64.ofNat (i + 1)) i)) ++
    List.replicate 5 (.write (.update 1 0))

/-- The next update copies the five live records of the left leaf to a fresh one. -/
theorem version_split_filled_iff_updated_left :
    (∃ n, Splits ⟨10, 10, u64Space⟩ (initialTree (some false) (fun _ => .next) 1 0)
        (updatedLeft ++ [.write (.update 1 1)]) n ∧ n.isLeaf = true ∧
        n.activeDeadCount = (5, 5)) ∧
      ∀ n, Splits ⟨10, 10, u64Space⟩ (initialTree (some false) (fun _ => .next) 1 0)
        (updatedLeft ++ [.write (.update 1 1)]) n → DebugAssert ⟨10, 10, u64Space⟩ n := by
  refine ⟨?_, (version_split_filled_iff (roomy_ten u64Space) (some false) (fun _ => .next) 1 0
    (updatedLeft ++ [.write (.update 1 1)])).mpr (by decide +kernel)⟩
  obtain ⟨t, rs, log, hrun, -⟩ := runEvents_carries (roomy_ten u64Space) updatedLeft _ []
    (.inl ⟨initialTree_fresh (some false) (fun _ => .next) 1 0, rfl⟩)
  -- the directory over the two leaves
  have hstate : (runEvents ⟨10, 10, u64Space⟩ (initialTree (some false) (fun _ => .next) 1 0)
      updatedLeft).bind (fun x => (retrieveRootWriteOlc ⟨10, 10, u64Space⟩ x.1).map (fun y =>
        (y.2, y.1.heap 3, unsafeDegree ⟨10, 10, u64Space⟩ (y.1.heap 1), (y.1.heap 1).isLeaf,
          (y.1.heap 1).activeDeadCount))) =
      .ok (3, .internal ⟨131072, [⟨⟨0, 5⟩, 11, false, 1⟩,
        ⟨⟨6, 18446744073709551615⟩, 11, false, 2⟩]⟩, .overflow, true, (5, 5)) := by
    decide +kernel
  rw [hrun] at hstate
  obtain ⟨⟨t₁, root⟩, hret, hvalues⟩ := of_map_ok hstate
  simp only [Prod.mk.injEq] at hvalues
  obtain ⟨rfl, hroot, hfull, hleaf, hcount⟩ := hvalues
  have hbelow : SplitBelow ⟨10, 10, u64Space⟩ 1 t₁ 3 (t₁.heap 1) :=
    .here hroot (show activeIndex _ 1 = some 0 by decide)
      (by rw [getPointer, MVBTSt.asInternalPage, hroot]; rfl) hfull
  exact ⟨t₁.heap 1, Splits.append _ hrun (.descent hret hbelow), hleaf, hcount⟩

/-- Updates of a single key fill the root leaf with dead records. -/
theorem updated_root_underfilled :
    ¬ ∀ n, Splits ⟨125, 125, u64Space⟩ (initialTree none (fun _ => .next) 1 0)
      ((.write (.insert 7 70) :: List.replicate 124 (.write (.update 7 71)) ++
        [.write (.delete 7)]) : List (Event UInt64 ℕ)) n → DebugAssert ⟨125, 125, u64Space⟩ n := by
  intro hall
  have hc := roomy_of_capacity (.inl rfl) u64Space
  obtain ⟨t, rs, log, hrun, hcarries⟩ := runEvents_carries hc
    (.write (.insert 7 70) :: List.replicate 124 (.write (.update 7 71)) :
      List (Event UInt64 ℕ)) _ [] (.inl ⟨initialTree_fresh none (fun _ => .next) 1 0, rfl⟩)
  have hstate : (runEvents ⟨125, 125, u64Space⟩ (initialTree none (fun _ => .next) 1 0)
      (.write (.insert 7 70) :: List.replicate 124 (.write (.update 7 71)) :
        List (Event UInt64 ℕ))).map (fun x =>
          (unsafeDegreeRoot ⟨125, 125, u64Space⟩ (x.1.heap x.1.currentRoot.1),
            (x.1.heap x.1.currentRoot.1).isLeaf,
            (x.1.heap x.1.currentRoot.1).activeDeadCount.1,
            filling40Percent ⟨125, 125, u64Space⟩ (x.1.heap x.1.currentRoot.1))) =
      .ok (.overflow, true, 1, 50) := by
    decide +kernel
  rw [hrun] at hstate
  simp only [Except.map, Except.ok.injEq, Prod.mk.injEq] at hstate
  obtain ⟨hfull, hleaf, hactive, hforty⟩ := hstate
  have hfilled := (rootSplit_asserts hc hcarries).mpr
    (fun b hs => hall _ (Splits.append _ hrun (.root hs)))
  have hmany := hfilled _ (.full hfull) hleaf
  rw [hactive, hforty] at hmany
  omega

end CMVBT.VersionSplit
