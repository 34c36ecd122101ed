import CMVBT.DescentTrace
import CMVBT.RootIndex

/-!
# The heights of the roots

A root is recorded with a height, which `retrieve_root_write_internal_olc` reads
from the root index and `split_root` and `merge_root` adapt. Three of the four
indexes answer with the height of their newest root. The B+ tree answers with the
number of its own levels, which says how many roots there are and nothing about
the tree below them.
-/
namespace CMVBT.RootHeight
open KeyInterval FenceTiling PageModel FrugalList CommitClock OrderedMap RootIndex Tracker
open CMVBT.Tree
open WritePath TreeInvariant NewPages RootRewrite Descent FreshTree ReaderHistory TreeShape
open Graveyard DescentTrace

/-! ## A tree with its root index -/

section Model
variable {skipMap bPlusTree : Ordered (ℕ × ℕ)}

/-- `RootIndex::height`. The number of levels of the external B+ tree is a parameter. -/
def height (treeHeight : bPlusTree.Carrier → ℕ) : Index skipMap bPlusTree → Except Fault ℕ
  | .bTree tree => .ok (treeHeight tree)
  | .skipList map =>
    match skipMap.last map with
    | some e => .ok e.2.2
    | none => .error .unwrapNone
  | .linkedList roots =>
    match roots.getLast? with
    | some root => .ok root.height
    | none => .error .unwrapNone
  | .frugalList head => .ok head.payload.2

/-- The frugal list of `tree` gets every root too; what the code asks about roots is
answered by `index`. -/
structure IndexedTree (K P : Type) (skipMap bPlusTree : Ordered (ℕ × ℕ)) where
  tree : MVBTSt K P
  index : Index skipMap bPlusTree

/-- A call of `append_root`: whether `merge_root` made it, the height that was read
before, the new root, and the tree at that time. -/
structure RootChange (K P : Type) where
  collapse : Bool
  read : ℕ
  root : Root
  tree : MVBTSt K P

variable {K P : Type} [LinearOrder K] (cfg : Config K) (treeHeight : bPlusTree.Carrier → ℕ)

omit [LinearOrder K] in
/-- The new root enters the index. -/
def appended (s : IndexedTree K P skipMap bPlusTree) (collapse : Bool) (read : ℕ)
    (tree : MVBTSt K P) (block : ℕ) :
    Except Fault (IndexedTree K P skipMap bPlusTree × Option (RootChange K P)) := do
  let root : Root := ⟨block, tree.root.insertVersion, tree.currentRoot.2⟩
  let (index, _) ← appendRoot (s.tree.tosses 0) root s.index
  return (⟨tree, index⟩, some ⟨collapse, read, root, tree⟩)

/-- `retrieve_root_write_internal_olc` with the index of the tree. -/
def retrieveRoot (s : IndexedTree K P skipMap bPlusTree) :
    Except Fault (IndexedTree K P skipMap bPlusTree × Option (RootChange K P)) := do
  let root ← currentRoot s.index
  match unsafeDegreeRoot cfg (s.tree.heap root.block) with
  | .overflow => do
    let read ← height treeHeight s.index
    let (tree, block) ← splitRoot cfg s.tree root.block read
    appended s false read tree block
  | .activeUnderflow => do
    let read ← height treeHeight s.index
    let (tree, block) ← mergeRoot cfg s.tree root.block read
    appended s true read tree block
  | .ok => return (s, none)

/-- A history. The root that a write starts at needs no repair any more, so the rest
of the write leaves the roots alone. -/
def runIndexed : IndexedTree K P skipMap bPlusTree → List (Event K P) →
    Except Fault (IndexedTree K P skipMap bPlusTree)
  | s, [] => .ok s
  | s, .reader event :: events => runIndexed ⟨event.apply s.tree, s.index⟩ events
  | s, .write op :: events => do
    let (s, _) ← retrieveRoot cfg treeHeight s
    let (tree, _) ← dispatchWrite cfg s.tree op
    runIndexed ⟨tree, s.index⟩ events

/-- The change happens in the course of the history. -/
inductive Changes : IndexedTree K P skipMap bPlusTree → List (Event K P) → RootChange K P → Prop
  | here {s s₁ : IndexedTree K P skipMap bPlusTree} {c : RootChange K P}
      {op : WriteOperation K P} {events : List (Event K P)} :
      retrieveRoot cfg treeHeight s = .ok (s₁, some c) → Changes s (.write op :: events) c
  | later {s s₁ : IndexedTree K P skipMap bPlusTree} {change : Option (RootChange K P)}
      {c : RootChange K P} {tree : MVBTSt K P} {r : WriteResult} {op : WriteOperation K P}
      {events : List (Event K P)} : retrieveRoot cfg treeHeight s = .ok (s₁, change) →
      dispatchWrite cfg s₁.tree op = .ok (tree, r) → Changes ⟨tree, s₁.index⟩ events c →
      Changes s (.write op :: events) c
  | reader {s : IndexedTree K P skipMap bPlusTree} {c : RootChange K P} {event : ReaderEvent}
      {events : List (Event K P)} : Changes ⟨event.apply s.tree, s.index⟩ events c →
      Changes s (.reader event :: events) c

omit [LinearOrder K] in
/-- A new tree: one leaf, known to its index. -/
def start (skipMap bPlusTree : Ordered (ℕ × ℕ)) (variant : RootIndexType) (tracker : Option Bool)
    (tosses : ℕ → Toss) (threads tid : ℕ) : IndexedTree K P skipMap bPlusTree :=
  ⟨initialTree tracker tosses threads tid, new variant 0⟩

end Model

/-! ## The number of levels -/

/-- Block `b` stands on `n` levels, itself included. -/
inductive Depth {K P : Type} [LinearOrder K] (t : MVBTSt K P) : ℕ → ℕ → Prop
  | leaf {b : ℕ} {page : LeafPage K P} : t.heap b = .leaf page → Depth t b 1
  | directory {b n : ℕ} {page : InternalPage K} : t.heap b = .internal page →
      page.activeUnits ≠ [] → (∀ e ∈ page.activeUnits, Depth t e.pointer n) → Depth t b (n + 1)

section Depth
variable {K P : Type} [LinearOrder K] {t : MVBTSt K P}

theorem Depth.pos {b n : ℕ} (h : Depth t b n) : 1 ≤ n := by
  cases h with
  | leaf _ => exact le_rfl
  | directory _ _ _ => exact Nat.le_add_left _ _

theorem Depth.unique {b n : ℕ} (h : Depth t b n) : ∀ m, Depth t b m → m = n := by
  induction h with
  | leaf hp =>
    intro m hm
    cases hm with
    | leaf _ => rfl
    | directory hq _ _ => rw [hp] at hq; cases hq
  | directory hp hne _ ih =>
    intro m hm
    cases hm with
    | leaf hq => rw [hp] at hq; cases hq
    | directory hq _ hall =>
      rw [hp] at hq
      cases hq
      obtain ⟨e, he⟩ := List.exists_mem_of_ne_nil _ hne
      rw [ih e he _ (hall e he)]

/-- A living block stands on as many levels as it was built for. -/
theorem depth_of_alive {cfg : Config K} {g : Ghost K P} (h : Living cfg t g) :
    ∀ n b, b < t.nextBlock → (g.life b).death = none → (g.life b).level = n → Depth t b n := by
  intro n
  induction n with
  | zero =>
    intro b hb _ hlevel
    have hnode := h.node b hb
    cases hp : t.heap b with
    | leaf p => rw [hp] at hnode; have := hnode.1; omega
    | internal p => rw [hp] at hnode; have := hnode.1; omega
  | succ n ih =>
    intro b hb halive hlevel
    have hnode := h.node b hb
    cases hp : t.heap b with
    | leaf p =>
      rw [hp] at hnode
      obtain rfl : n = 0 := by
        have := hnode.1
        omega
      exact .leaf hp
    | internal p =>
      rw [hp] at hnode
      have htiling := hnode.2.tiling halive
      have hactive := hnode.2.counted.activeUnits
      refine .directory hp ?_ ?_
      · obtain ⟨e, he, -⟩ := htiling.complete _ (h.born b hb).1.lower_mem trivial
        rw [hactive]
        exact List.ne_nil_of_mem he
      · intro e he
        rw [hactive] at he
        obtain ⟨hlt, below, hbelow, hlife⟩ := htiling.good e he
        exact ih e.pointer hlt (by rw [hlife]) (by rw [hlife]; simp only; omega)

theorem depth_of_root {cfg : Config K} {g : Ghost K P} (h : Inv cfg t g) :
    Depth t t.currentRoot.1 t.currentRoot.2 := by
  obtain ⟨birth, hlife⟩ := h.living.root_life
  exact depth_of_alive h.living _ _ h.living.root_lt (by rw [hlife]) (by rw [hlife])

end Depth

/-! ## The height is only recorded -/

section Height
variable {K P : Type} [LinearOrder K] {cfg : Config K} {t t' : MVBTSt K P}

theorem Depth.congr (h : t'.heap = t.heap) {b n : ℕ} (hd : Depth t b n) : Depth t' b n := by
  induction hd with
  | leaf hp => exact .leaf (by rw [h]; exact hp)
  | directory hp hne _ ih => exact .directory (by rw [h]; exact hp) hne ih

omit [LinearOrder K] in
/-- The same append with another height. -/
theorem appendRoot_height {b v n : ℕ} (h : t.appendRoot b v n = .ok t') (m : ℕ) :
    t'.currentRoot = (b, n) ∧ ∃ t'', t.appendRoot b v m = .ok t'' ∧ t''.heap = t'.heap ∧
      t''.root.insertVersion = t'.root.insertVersion ∧ t''.currentRoot = (b, m) := by
  unfold MVBTSt.appendRoot at h ⊢
  cases htoss : t.tosses 0 with
  | next =>
    rw [htoss] at h
    cases h
    exact ⟨rfl, _, rfl, rfl, rfl, rfl⟩
  | tower heads =>
    rw [htoss] at h
    simp only [append, appendTower, bind, Except.bind] at h ⊢
    cases hcurr : towerFrom t.root (pickLevel heads) with
    | error fault =>
      rw [hcurr] at h
      cases h
    | ok curr =>
      rw [hcurr] at h
      cases h
      exact ⟨rfl, _, rfl, rfl, rfl, rfl⟩

/-- The state `t''` has the root `b` as `t'` has, recorded with another height. -/
structure SameRoot (t' t'' : MVBTSt K P) (b : ℕ) : Prop where
  heap : t''.heap = t'.heap
  version : t''.root.insertVersion = t'.root.insertVersion
  block : t''.currentRoot.1 = b

/-- `split_root` with another height replaces the root in the same way. -/
theorem splitRoot_height {c b n : ℕ} (h : splitRoot cfg t c n = .ok (t', b)) (m : ℕ) :
    ∃ t'', splitRoot cfg t c m = .ok (t'', b) ∧ SameRoot t' t'' b ∧
      t''.currentRoot.2 + n = t'.currentRoot.2 + m := by
  simp only [splitRoot, bind, Except.bind] at h ⊢
  cases hs : split cfg t c cfg.keys.full with
  | error fault =>
    rw [hs] at h
    cases h
  | ok out =>
    obtain ⟨t₁, s⟩ := out
    rw [hs] at h
    cases s with
    | byKey leftFence left rightFence right =>
      simp only at h ⊢
      cases hr : replaceEntries cfg (t₁.allocBlock false).1.startTxCommit.1 (t₁.allocBlock false).2
          [.new leftFence (t₁.allocBlock false).1.startTxCommit.2 left,
            .new rightFence (t₁.allocBlock false).1.startTxCommit.2 right] 2 0 [] with
      | error fault =>
        simp only [hr] at h
        cases h
      | ok t₂ =>
        simp only [hr] at h ⊢
        cases ha : t₂.appendRoot (t₁.allocBlock false).2 (t₁.allocBlock false).1.startTxCommit.2
            (n + 1) with
        | error fault =>
          simp only [ha] at h
          cases h
        | ok t₃ =>
          obtain ⟨hroot, t₄, happ, hheap, hversion, hroot'⟩ := appendRoot_height ha (m + 1)
          simp only [ha, pure, Except.pure] at h
          cases h
          refine ⟨(t₄.endTxCommit (t₁.allocBlock false).1.startTxCommit.2).registerDead
            (t₁.allocBlock false).1.startTxCommit.2 c, ?_,
            ⟨hheap, hversion, congrArg Prod.fst hroot'⟩, ?_⟩
          · simp only [happ, pure, Except.pure]
          · have h₁ : t₄.currentRoot.2 = m + 1 := congrArg Prod.snd hroot'
            have h₂ : t₃.currentRoot.2 = n + 1 := congrArg Prod.snd hroot
            change t₄.currentRoot.2 + n = t₃.currentRoot.2 + m
            omega
    | byVersion fresh =>
      simp only at h ⊢
      cases ha : t₁.startTxCommit.1.appendRoot fresh t₁.startTxCommit.2 n with
      | error fault =>
        simp only [ha] at h
        cases h
      | ok t₃ =>
        obtain ⟨hroot, t₄, happ, hheap, hversion, hroot'⟩ := appendRoot_height ha m
        simp only [ha, pure, Except.pure] at h
        cases h
        refine ⟨(t₄.endTxCommit t₁.startTxCommit.2).registerDead t₁.startTxCommit.2 c, ?_,
          ⟨hheap, hversion, congrArg Prod.fst hroot'⟩, ?_⟩
        · simp only [happ, pure, Except.pure]
        · have h₁ : t₄.currentRoot.2 = m := congrArg Prod.snd hroot'
          have h₂ : t₃.currentRoot.2 = n := congrArg Prod.snd hroot
          change t₄.currentRoot.2 + n = t₃.currentRoot.2 + m
          omega

theorem mergeRoot_height {c b n : ℕ} (h : mergeRoot cfg t c n = .ok (t', b)) (m : ℕ) :
    ∃ t'', mergeRoot cfg t c m = .ok (t'', b) ∧ SameRoot t' t'' b ∧
      t''.currentRoot.2 + (n - 1) = t'.currentRoot.2 + (m - 1) := by
  simp only [mergeRoot, bind, Except.bind] at h ⊢
  cases hp : t.asInternalPage c with
  | error fault =>
    rw [hp] at h
    cases h
  | ok page =>
    simp only [hp] at h ⊢
    cases hchild : getPointer t c (page.sumLen - 1) with
    | error fault =>
      rw [hchild] at h
      cases h
    | ok child =>
      simp only [hchild] at h ⊢
      exact splitRoot_height h (m - 1)

end Height

/-! ## One write -/

section Step
variable {K P : Type} [LinearOrder K] {cfg : Config K} {skipMap bPlusTree : Ordered (ℕ × ℕ)}
  {treeHeight : bPlusTree.Carrier → ℕ} {s : IndexedTree K P skipMap bPlusTree}
  {roots : List Root}

/-- The index and the tree agree on all roots. -/
structure Recorded (cfg : Config K) (s : IndexedTree K P skipMap bPlusTree) (roots : List Root) :
    Prop where
  holds : Holds roots s.index
  increasing : Increasing roots
  chain : Chain s.tree.root (roots.reverse.map (fun r => (r.inner, r.version)))
  state : Fresh s.tree ∨ ∃ g, Inv cfg s.tree g

/-- A B+ tree that has to answer has as many levels as the tree under the newest root. -/
def Guessed (cfg : Config K) (treeHeight : bPlusTree.Carrier → ℕ)
    (s : IndexedTree K P skipMap bPlusTree) : Prop :=
  ∀ tree root, s.index = .bTree tree → currentRoot s.index = .ok root →
    unsafeDegreeRoot cfg (s.tree.heap root.block) ≠ .ok →
    Depth s.tree root.block (treeHeight tree)

/-- What the code promises about a change of the root. -/
structure Correct (c : RootChange K P) : Prop where
  depth : Depth c.tree c.root.block c.root.height
  no_wrap : c.collapse = true → 1 ≤ c.read

theorem Recorded.newest (h : Recorded cfg s roots) : ∃ root, roots.getLast? = some root ∧
    currentRoot s.index = .ok root ∧ s.tree.currentRoot = (root.block, root.height) ∧
    s.tree.root.insertVersion = root.version := by
  obtain ⟨rest, hrest⟩ := h.chain.head
  obtain ⟨root, hroot⟩ : ∃ root, roots.getLast? = some root := by
    cases hlast : roots.getLast? with
    | some root => exact ⟨root, rfl⟩
    | none =>
      rw [List.getLast?_eq_none_iff.mp hlast] at hrest
      cases hrest
  obtain ⟨older, rfl⟩ := List.getLast?_eq_some_iff.mp hroot
  simp only [List.reverse_append, List.reverse_singleton, List.singleton_append, List.map_cons,
    List.cons.injEq] at hrest
  obtain ⟨hpayload, hversion⟩ := Prod.mk.inj hrest.1
  exact ⟨root, hroot, h.holds.currentRoot h.increasing hroot, hpayload.symm, hversion.symm⟩

theorem Recorded.depth (h : Recorded cfg s roots) :
    Depth s.tree s.tree.currentRoot.1 s.tree.currentRoot.2 := by
  rcases h.state with hfresh | ⟨g, hinv⟩
  · have hroot : s.tree.currentRoot = (0, 1) := by rw [MVBTSt.currentRoot, hfresh.root]; rfl
    rw [hroot]
    exact .leaf hfresh.heap
  · exact depth_of_root hinv

/-- The height that is read is the height of the current root. -/
theorem Recorded.height_eq (h : Recorded cfg s roots) (hguess : Guessed cfg treeHeight s)
    (hdeg : unsafeDegreeRoot cfg (s.tree.heap s.tree.currentRoot.1) ≠ .ok) :
    height treeHeight s.index = .ok s.tree.currentRoot.2 := by
  obtain ⟨root, -, hcur, htree, -⟩ := h.newest
  have hdepth := h.depth
  rw [htree] at hdepth hdeg ⊢
  unfold Guessed at hguess
  cases hi : s.index with
  | bTree tree =>
    rw [hi] at hcur hguess
    exact congrArg Except.ok (hdepth.unique _ (hguess tree root rfl hcur hdeg))
  | skipList map =>
    rw [hi] at hcur
    simp only [currentRoot, height] at hcur ⊢
    cases hlast : skipMap.last map with
    | none => rw [hlast] at hcur; cases hcur
    | some e => rw [hlast] at hcur; cases hcur; rfl
  | linkedList l =>
    rw [hi] at hcur
    simp only [currentRoot, height] at hcur ⊢
    cases hlast : l.getLast? with
    | none => rw [hlast] at hcur; cases hcur
    | some r => rw [hlast] at hcur; cases hcur; rfl
  | frugalList head =>
    rw [hi] at hcur
    cases hcur
    rfl

/-- The index takes the new root. -/
theorem Recorded.append (h : Recorded cfg s roots) (tree : MVBTSt K P) (block : ℕ)
    (hnew : ∀ r ∈ roots, r.version < tree.root.insertVersion) (collapse : Bool) (read : ℕ) :
    ∃ index, appended s collapse read tree block =
        .ok (⟨tree, index⟩, some ⟨collapse, read, ⟨block, tree.root.insertVersion,
          tree.currentRoot.2⟩, tree⟩) ∧
      Holds (roots ++ [⟨block, tree.root.insertVersion, tree.currentRoot.2⟩]) index := by
  have hroot : ∀ r ∈ roots, r.version <
      (⟨block, tree.root.insertVersion, tree.currentRoot.2⟩ : Root).version := hnew
  obtain ⟨index, hindex, hholds⟩ := h.holds.appendRoot (s.tree.tosses 0) hroot
  refine ⟨index, ?_, hholds⟩
  simp only [appended, hindex, bind, Except.bind, pure, Except.pure]

/-- The new root is younger than all others. -/
theorem Recorded.younger (h : Recorded cfg s roots) {g : Ghost K P} (hinv : Inv cfg s.tree g)
    {c : ℕ} {dead : List ℕ} {tree : MVBTSt K P} {news : List (ℕ × Life K)}
    (hr : Replanted cfg s.tree g c dead tree news) :
    (∀ r ∈ roots, r.version < tree.root.insertVersion) ∧
      Chain tree.root ((tree.currentRoot, tree.root.insertVersion) ::
        roots.reverse.map (fun r => (r.inner, r.version))) := by
  obtain ⟨rest, hrest⟩ := hr.chain.head
  obtain ⟨-, hversion⟩ := Prod.mk.inj (List.cons.inj hrest).1
  have hroots : g.roots = roots.reverse.map (fun r => (r.inner, r.version)) := by
    rw [← hinv.timeline.chain.values, h.chain.values]
  have hchain := hr.chain
  rw [hversion, hroots] at hchain
  refine ⟨fun r hmem => ?_, hchain⟩
  rw [← hversion]
  refine hinv.timeline.roots_lt (r.inner, r.version) ?_
  rw [hroots]
  exact List.mem_map.mpr ⟨r, List.mem_reverse.mpr hmem, rfl⟩

/-- After the change the index and the tree agree again. -/
theorem Recorded.replanted (h : Recorded cfg s roots) {g : Ghost K P} (hinv : Inv cfg s.tree g)
    {c : ℕ} {dead : List ℕ} {tree : MVBTSt K P} {news : List (ℕ × Life K)}
    (hr : Replanted cfg s.tree g c dead tree news) (collapse : Bool) (read : ℕ) :
    ∃ s₁ change roots₁, appended s collapse read tree tree.currentRoot.1 = .ok (s₁, some change) ∧
      s₁.tree = tree ∧ change.collapse = collapse ∧ change.read = read ∧
      Recorded cfg s₁ roots₁ ∧ Depth change.tree change.root.block change.root.height := by
  obtain ⟨hnew, hchain⟩ := h.younger hinv hr
  obtain ⟨index, happ, hholds⟩ := h.append tree tree.currentRoot.1 hnew collapse read
  obtain ⟨g', hre⟩ := hr.rerooted hinv
  have hrecorded : Recorded cfg ⟨tree, index⟩
      (roots ++ [⟨tree.currentRoot.1, tree.root.insertVersion, tree.currentRoot.2⟩]) := by
    refine ⟨hholds, ?_, ?_, .inr ⟨g', hre.inv⟩⟩
    · refine List.pairwise_append.mpr ⟨h.increasing, List.pairwise_singleton _ _, ?_⟩
      intro r hmem r' hr'
      rw [List.mem_singleton.mp hr']
      exact hnew r hmem
    · simpa [Root.inner] using hchain
  exact ⟨_, _, _, happ, rfl, rfl, rfl, hrecorded, hrecorded.depth⟩

theorem rootReady_degree {n : Node K P} (h : RootReady cfg n) : unsafeDegreeRoot cfg n = .ok := by
  obtain ⟨hroom, hchildren⟩ := h
  simp only [unsafeDegreeRoot]
  rw [if_neg, if_neg (not_le.mpr hroom)]
  rintro ⟨hone, hdir⟩
  have := hchildren hdir
  omega

theorem directory_of_underflow {n : Node K P}
    (h : unsafeDegreeRoot cfg n = .activeUnderflow) : n.isLeaf = false := by
  simp only [unsafeDegreeRoot] at h
  split_ifs at h with hone
  exact hone.2

theorem Recorded.ready (h : Recorded cfg s roots)
    (hdeg : unsafeDegreeRoot cfg (s.tree.heap s.tree.currentRoot.1) = .ok) :
    retrieveRoot cfg treeHeight s = .ok (s, none) := by
  obtain ⟨root, -, hcur, htree, -⟩ := h.newest
  rw [htree] at hdeg
  simp only [retrieveRoot, hcur, bind, Except.bind, hdeg, pure, Except.pure]

/-- A write finds a root that needs no repair, or replaces it and records the new one. -/
theorem retrieveRoot_recorded (hc : Roomy cfg) (h : Recorded cfg s roots)
    (hguess : Guessed cfg treeHeight s) :
    ∃ s₁ change roots₁, retrieveRoot cfg treeHeight s = .ok (s₁, change) ∧
      Recorded cfg s₁ roots₁ ∧ (∀ c, change = some c → Correct c) ∧
      unsafeDegreeRoot cfg (s₁.tree.heap s₁.tree.currentRoot.1) = .ok := by
  obtain ⟨root, -, hcur, htree, -⟩ := h.newest
  have hblock : s.tree.currentRoot.1 = root.block := by rw [htree]
  cases hdeg : unsafeDegreeRoot cfg (s.tree.heap s.tree.currentRoot.1) with
  | ok => exact ⟨s, none, roots, h.ready hdeg, h, fun c hc => absurd hc (Option.not_mem_none c), hdeg⟩
  | overflow =>
    have hread := h.height_eq hguess (by rw [hdeg]; decide)
    rcases h.state with hfresh | ⟨g, hinv⟩
    · rw [degreeRoot_fresh hc hfresh] at hdeg
      cases hdeg
    · obtain ⟨tree, news, hret, hr⟩ := retrieveRoot_overflow hinv hc hdeg
      obtain ⟨s₁, change, roots₁, happ, rfl, hcol, -, hrec, hdepth⟩ :=
        h.replanted hinv hr false s.tree.currentRoot.2
      simp only [retrieveRootWriteOlc, hdeg] at hret
      refine ⟨s₁, some change, roots₁, ?_, hrec, ?_, rootReady_degree hr.ready⟩
      · rw [hblock] at hdeg hret
        simp only [retrieveRoot, hcur, bind, Except.bind, hdeg, hread, hret, happ]
      · rintro c hc
        cases hc
        exact ⟨hdepth, fun hn => by rw [hcol] at hn; cases hn⟩
  | activeUnderflow =>
    have hread := h.height_eq hguess (by rw [hdeg]; decide)
    rcases h.state with hfresh | ⟨g, hinv⟩
    · rw [degreeRoot_fresh hc hfresh] at hdeg
      cases hdeg
    · obtain ⟨c, tree, news, hret, -, hr⟩ := retrieveRoot_collapse hinv hc hdeg
      obtain ⟨s₁, change, roots₁, happ, rfl, -, hold, hrec, hdepth⟩ :=
        h.replanted hinv hr true s.tree.currentRoot.2
      simp only [retrieveRootWriteOlc, hdeg] at hret
      refine ⟨s₁, some change, roots₁, ?_, hrec, ?_, rootReady_degree hr.ready⟩
      · rw [hblock] at hdeg hret
        simp only [retrieveRoot, hcur, bind, Except.bind, hdeg, hread, hret, happ]
      · rintro c' hc'
        cases hc'
        exact ⟨hdepth, fun _ => hold ▸ h.depth.pos⟩

/-- With the wrong number of levels the new root is recorded wrongly. -/
theorem retrieveRoot_misrecorded (hc : Roomy cfg) (h : Recorded cfg s roots)
    (hwrong : ¬ Guessed cfg treeHeight s) :
    ∃ s₁ c, retrieveRoot cfg treeHeight s = .ok (s₁, some c) ∧ ¬ Correct c := by
  simp only [Guessed, not_forall] at hwrong
  obtain ⟨tree, root, hi, hcur, hdeg, hlevels⟩ := hwrong
  obtain ⟨root', -, hcur', htree, -⟩ := h.newest
  rw [hcur] at hcur'
  cases hcur'
  have hread : height treeHeight s.index = .ok (treeHeight tree) := by rw [hi]; rfl
  have hdepth := h.depth
  have hblock : s.tree.currentRoot.1 = root.block := by rw [htree]
  rw [← hblock] at hdeg hlevels
  have hne : treeHeight tree ≠ s.tree.currentRoot.2 := fun heq => hlevels (heq ▸ hdepth)
  obtain ⟨g, hinv⟩ := h.state.resolve_left (fun hfresh => hdeg (degreeRoot_fresh hc hfresh))
  cases hdeg' : unsafeDegreeRoot cfg (s.tree.heap s.tree.currentRoot.1) with
  | ok => exact absurd hdeg' hdeg
  | overflow =>
    obtain ⟨t', news, hret, hr⟩ := retrieveRoot_overflow hinv hc hdeg'
    obtain ⟨g', hre⟩ := hr.rerooted hinv
    simp only [retrieveRootWriteOlc, hdeg'] at hret
    obtain ⟨t'', hsplit, hsame, hsum⟩ := splitRoot_height hret (treeHeight tree)
    obtain ⟨index, happ, -⟩ := h.append t'' t'.currentRoot.1
      (by rw [hsame.version]; exact (h.younger hinv hr).1) false (treeHeight tree)
    refine ⟨⟨t'', index⟩, ⟨false, treeHeight tree, ⟨t'.currentRoot.1, t''.root.insertVersion,
      t''.currentRoot.2⟩, t''⟩, ?_, fun hcorrect => ?_⟩
    · rw [hblock] at hdeg' hsplit
      simp only [retrieveRoot, hcur, bind, Except.bind, hdeg', hread, hsplit, happ]
    · have hnew := (hcorrect.depth.congr hsame.heap.symm).unique _ (depth_of_root hre.inv)
      simp only at hnew
      omega
  | activeUnderflow =>
    obtain ⟨c, t', news, hret, -, hr⟩ := retrieveRoot_collapse hinv hc hdeg'
    obtain ⟨g', hre⟩ := hr.rerooted hinv
    simp only [retrieveRootWriteOlc, hdeg'] at hret
    obtain ⟨t'', hmerge, hsame, hsum⟩ := mergeRoot_height hret (treeHeight tree)
    obtain ⟨index, happ, -⟩ := h.append t'' t'.currentRoot.1
      (by rw [hsame.version]; exact (h.younger hinv hr).1) true (treeHeight tree)
    refine ⟨⟨t'', index⟩, ⟨true, treeHeight tree, ⟨t'.currentRoot.1, t''.root.insertVersion,
      t''.currentRoot.2⟩, t''⟩, ?_, fun hcorrect => ?_⟩
    · rw [hblock] at hdeg' hmerge
      simp only [retrieveRoot, hcur, bind, Except.bind, hdeg', hread, hmerge, happ]
    · have hnew := (hcorrect.depth.congr hsame.heap.symm).unique _ (depth_of_root hre.inv)
      have hwrap := hcorrect.no_wrap rfl
      have hpos := hdepth.pos
      simp only at hnew hwrap
      omega

/-- Below a root that needs no repair the descent leaves the roots alone. -/
theorem traversal_root (hc : Roomy cfg) {t : MVBTSt K P} {g : Ghost K P} (h : Inv cfg t g)
    (hdeg : unsafeDegreeRoot cfg (t.heap t.currentRoot.1) = .ok) (key : K) :
    ∃ t' g' leaf, traversalWriteOlc cfg t key = .ok (t', leaf) ∧ t'.root = t.root ∧
      Arrived cfg t g key t' g' leaf := by
  obtain ⟨birth, hlife⟩ := h.living.root_life
  have hon : OnPath cfg t g t.currentRoot.1 key := by
    refine ⟨h.living.root_lt, by rw [hlife], ?_, ?_⟩
    · rw [hlife]
      exact cfg.keys.mem_full key
    · rw [Safe, if_pos rfl]
      exact rootReady_of_ok h.living hdeg
  obtain ⟨t', g', leaf, hd, hroot, ha⟩ := descend_arrives hc _ t g _ h hon rfl
    (2 * t.currentRoot.2) (by rw [hlife]; exact Nat.le_succ _)
  refine ⟨t', g', leaf, ?_, hroot, ha⟩
  simp only [traversalWriteOlc, retrieveRootWriteOlc, hdeg, bind, Except.bind, hd]

/-- The rest of the write leaves the roots alone. -/
theorem Recorded.write (hc : Roomy cfg) (h : Recorded cfg s roots)
    (hdeg : unsafeDegreeRoot cfg (s.tree.heap s.tree.currentRoot.1) = .ok)
    (op : WriteOperation K P) : ∃ tree r, dispatchWrite cfg s.tree op = .ok (tree, r) ∧
      Recorded cfg ⟨tree, s.index⟩ roots := by
  have hcarries : ∃ log, Carries cfg s.tree log := by
    rcases h.state with hfresh | ⟨g, hinv⟩
    · exact ⟨[], .inl ⟨hfresh, rfl⟩⟩
    · exact ⟨g.log, .inr ⟨g, hinv, rfl⟩⟩
  obtain ⟨log, hcarries⟩ := hcarries
  obtain ⟨tree, r, log', hrun, hcarries', -⟩ := hcarries.write hc op
  have hroot : tree.root = s.tree.root := by
    rcases h.state with hfresh | ⟨g, hinv⟩
    · exact (dispatchWrite_quiet hrun (traversalWrite_fresh hc hfresh _) hfresh.heap).root
    · obtain ⟨t₁, g₁, leaf, htr, hroot, ha⟩ := traversal_root hc hinv hdeg (operationKey op)
      have hnode := ha.inv.living.node leaf ha.onPath.used
      cases hp : t₁.heap leaf with
      | internal p =>
        rw [hp] at hnode
        have := hnode.1
        have := ha.level
        omega
      | leaf p => exact (dispatchWrite_quiet hrun htr hp).root.trans hroot
  refine ⟨tree, r, hrun, h.holds, h.increasing, by rw [hroot]; exact h.chain, ?_⟩
  rcases hcarries' with ⟨hfresh, -⟩ | ⟨g, hinv, -⟩
  · exact .inl hfresh
  · exact .inr ⟨g, hinv⟩

theorem Recorded.apply (h : Recorded cfg s roots) (event : ReaderEvent) :
    Recorded cfg ⟨event.apply s.tree, s.index⟩ roots := by
  refine ⟨h.holds, h.increasing, by rw [(quiet_apply event s.tree).root]; exact h.chain, ?_⟩
  rcases h.state with hfresh | ⟨g, hinv⟩
  · exact .inl (apply_fresh hfresh event)
  · exact .inr ⟨g, apply_inv hinv event⟩

theorem start_recorded (cfg : Config K) (variant : RootIndexType) (tracker : Option Bool)
    (tosses : ℕ → Toss) (threads tid : ℕ) :
    Recorded cfg (start skipMap bPlusTree variant tracker tosses threads tid :
      IndexedTree K P skipMap bPlusTree) [startRoot 0] := by
  have hfresh := initialTree_fresh (K := K) (P := P) tracker tosses threads tid
  refine ⟨holds_new variant 0, List.pairwise_singleton _ _, ?_, .inl hfresh⟩
  rw [show (start skipMap bPlusTree variant tracker tosses threads tid).tree.root = _
    from hfresh.root]
  exact .sentinel _ _

end Step

/-! ## Histories -/

section Histories
variable {K P : Type} [LinearOrder K] {cfg : Config K} {skipMap bPlusTree : Ordered (ℕ × ℕ)}
  {treeHeight : bPlusTree.Carrier → ℕ}

/-- Whenever a write of the history has to replace the root, a B+ tree of roots has as
many levels as the tree under the newest root. -/
def GuessedThroughout (cfg : Config K) (treeHeight : bPlusTree.Carrier → ℕ) :
    IndexedTree K P skipMap bPlusTree → List (Event K P) → Prop
  | _, [] => True
  | s, .reader event :: events =>
    GuessedThroughout cfg treeHeight ⟨event.apply s.tree, s.index⟩ events
  | s, .write op :: events => Guessed cfg treeHeight s ∧
    ∀ s₁ change tree r, retrieveRoot cfg treeHeight s = .ok (s₁, change) →
      dispatchWrite cfg s₁.tree op = .ok (tree, r) →
      GuessedThroughout cfg treeHeight ⟨tree, s₁.index⟩ events

/-- Every history returns as long as the guesses are right. -/
theorem run_recorded (hc : Roomy cfg) (events : List (Event K P)) :
    ∀ (s : IndexedTree K P skipMap bPlusTree) (roots : List Root), Recorded cfg s roots →
      GuessedThroughout cfg treeHeight s events →
      ∃ s' roots', runIndexed cfg treeHeight s events = .ok s' ∧ Recorded cfg s' roots' := by
  induction events with
  | nil =>
    intro s roots h _
    exact ⟨s, roots, rfl, h⟩
  | cons event events ih =>
    intro s roots h hguess
    cases event with
    | reader event => exact ih _ roots (h.apply event) hguess
    | write op =>
      obtain ⟨hnow, hlater⟩ := hguess
      obtain ⟨s₁, change, roots₁, hret, h₁, -, hdeg⟩ := retrieveRoot_recorded hc h hnow
      obtain ⟨tree, r, hwrite, h₂⟩ := h₁.write hc hdeg op
      obtain ⟨s', roots', hrun, h'⟩ := ih _ roots₁ h₂ (hlater s₁ change tree r hret hwrite)
      refine ⟨s', roots', ?_, h'⟩
      simp only [runIndexed, hret, hwrite, bind, Except.bind, hrun]

/-- All roots are recorded correctly if and only if the guesses are right. -/
theorem changes_correct_iff (hc : Roomy cfg) (events : List (Event K P)) :
    ∀ (s : IndexedTree K P skipMap bPlusTree) (roots : List Root), Recorded cfg s roots →
      ((∀ c, Changes cfg treeHeight s events c → Correct c) ↔
        GuessedThroughout cfg treeHeight s events) := by
  induction events with
  | nil => exact fun s roots _ => ⟨fun _ => trivial, fun _ c hch => (nomatch hch)⟩
  | cons event events ih =>
    intro s roots h
    cases event with
    | reader event =>
      refine Iff.trans ⟨fun hall c hch => hall c (.reader hch), fun hall c hch => ?_⟩
        (ih _ roots (h.apply event))
      cases hch with
      | reader hch => exact hall c hch
    | write op =>
      constructor
      · intro hall
        have hnow : Guessed cfg treeHeight s := by
          by_contra hwrong
          obtain ⟨s₁, c, hret, hbad⟩ := retrieveRoot_misrecorded hc h hwrong
          exact hbad (hall c (.here hret))
        refine ⟨hnow, fun s₁ change tree r hret hwrite => ?_⟩
        obtain ⟨s₂, change₂, roots₁, hret', h₁, -, hdeg⟩ := retrieveRoot_recorded hc h hnow
        rw [hret] at hret'
        cases hret'
        obtain ⟨tree', r', hwrite', h₂⟩ := h₁.write hc hdeg op
        rw [hwrite] at hwrite'
        cases hwrite'
        exact (ih _ roots₁ h₂).mp (fun c hch => hall c (.later hret hwrite hch))
      · rintro ⟨hnow, hlater⟩ c hch
        obtain ⟨s₁, change, roots₁, hret, h₁, hcorrect, hdeg⟩ := retrieveRoot_recorded hc h hnow
        obtain ⟨tree, r, hwrite, h₂⟩ := h₁.write hc hdeg op
        cases hch with
        | here hret' =>
          rw [hret] at hret'
          cases hret'
          exact hcorrect c rfl
        | later hret' hwrite' hch =>
          rw [hret] at hret'
          cases hret'
          rw [hwrite] at hwrite'
          cases hwrite'
          exact (ih _ roots₁ h₂).mpr (hlater s₁ change tree r hret hwrite) c hch

/-- A change of the root keeps the variant of the index. -/
def variantOf : Index skipMap bPlusTree → RootIndexType
  | .frugalList _ => .frugalList
  | .skipList _ => .skipList
  | .bTree _ => .bTree
  | .linkedList _ => .linkedList

theorem appendRoot_variant {toss : Toss} {root : Root} {index index' : Index skipMap bPlusTree}
    {b : Bool} (h : appendRoot toss root index = .ok (index', b)) :
    variantOf index' = variantOf index := by
  cases index with
  | bTree tree => cases h; rfl
  | skipList map => cases h; rfl
  | linkedList l => cases h; rfl
  | frugalList head =>
    simp only [appendRoot, bind, Except.bind] at h
    split at h
    · cases h
    · cases h
      rfl

omit [LinearOrder K] in
theorem appended_variant {s s₁ : IndexedTree K P skipMap bPlusTree} {collapse : Bool}
    {read block : ℕ} {tree : MVBTSt K P} {change : Option (RootChange K P)}
    (h : appended s collapse read tree block = .ok (s₁, change)) :
    variantOf s₁.index = variantOf s.index := by
  simp only [appended, bind, Except.bind] at h
  split at h
  · cases h
  · next happ =>
    cases h
    exact appendRoot_variant happ

theorem retrieveRoot_variant {s s₁ : IndexedTree K P skipMap bPlusTree}
    {change : Option (RootChange K P)} (h : retrieveRoot cfg treeHeight s = .ok (s₁, change)) :
    variantOf s₁.index = variantOf s.index := by
  simp only [retrieveRoot, bind, Except.bind] at h
  repeat' split at h
  all_goals first
    | exact appended_variant h
    | (cases h; rfl)
    | cases h

/-- Indexes other than the B+ tree guess nothing. -/
theorem guessed_of_variant (events : List (Event K P)) :
    ∀ s : IndexedTree K P skipMap bPlusTree, variantOf s.index ≠ .bTree →
      GuessedThroughout cfg treeHeight s events := by
  induction events with
  | nil => exact fun _ _ => trivial
  | cons event events ih =>
    intro s hne
    cases event with
    | reader event => exact ih _ hne
    | write op =>
      refine ⟨fun tree root hi => absurd (by rw [hi]; rfl) hne, ?_⟩
      intro s₁ change tree r hret _
      refine ih _ ?_
      rw [← retrieveRoot_variant hret] at hne
      exact hne

end Histories

/-- For every index and every history of a new tree: each root is recorded with the
number of levels of the tree below it, and no height wraps below zero, if and only if
a B+ tree of roots has as many levels as the tree whenever a root is replaced. Nothing
is asked of the other three indexes. -/
theorem recorded_heights_iff {K P : Type} [LinearOrder K] {cfg : Config K} (hc : Roomy cfg)
    (skipMap bPlusTree : Ordered (ℕ × ℕ)) (treeHeight : bPlusTree.Carrier → ℕ)
    (variant : RootIndexType) (tracker : Option Bool) (tosses : ℕ → Toss) (threads tid : ℕ)
    (events : List (Event K P)) :
    (Depth (initialTree tracker tosses threads tid : MVBTSt K P) (startRoot 0).block
        (startRoot 0).height ∧
      ∀ c, Changes cfg treeHeight (start skipMap bPlusTree variant tracker tosses threads tid)
        events c → Correct c) ↔
    (variant = .bTree → GuessedThroughout cfg treeHeight
      (start skipMap bPlusTree variant tracker tosses threads tid) events) := by
  have hiff : (∀ c, Changes cfg treeHeight
        (start skipMap bPlusTree variant tracker tosses threads tid) events c → Correct c) ↔
      GuessedThroughout cfg treeHeight
        (start skipMap bPlusTree variant tracker tosses threads tid) events :=
    changes_correct_iff hc events _ _ (start_recorded cfg variant tracker tosses threads tid)
  refine ⟨fun h _ => hiff.mp h.2, fun h => ⟨?_, hiff.mpr ?_⟩⟩
  · exact .leaf (initialTree_fresh tracker tosses threads tid).heap
  · by_cases hv : variant = .bTree
    · exact h hv
    · refine guessed_of_variant events _ ?_
      cases variant with
      | bTree => exact absurd rfl hv
      | _ => simp [start, RootIndex.new, variantOf]

/-- The roots of a skip list are recorded correctly. -/
theorem recorded_heights_iff_skip_list :
    Depth (initialTree none (fun _ => .next) 1 0 : MVBTSt UInt64 ℕ) (startRoot 0).block
        (startRoot 0).height ∧
      ∀ c, Changes ⟨125, 125, u64Space⟩ (fun _ => 1)
        (start (sortedList (ℕ × ℕ)).toOrdered (sortedList (ℕ × ℕ)).toOrdered .skipList none
          (fun _ => .next) 1 0) twoLeaves c → Correct c :=
  (recorded_heights_iff (roomy_of_capacity (.inl rfl) u64Space) _ _ (fun _ => 1) .skipList none
    (fun _ => .next) 1 0 twoLeaves).mpr (fun hv => (nomatch hv))

section Append
variable {K P : Type} [LinearOrder K] {cfg : Config K} {skipMap bPlusTree : Ordered (ℕ × ℕ)}
  {treeHeight : bPlusTree.Carrier → ℕ}

theorem guessedThroughout_append {later : List (Event K P)} (events : List (Event K P)) :
    ∀ {s s' : IndexedTree K P skipMap bPlusTree}, runIndexed cfg treeHeight s events = .ok s' →
      GuessedThroughout cfg treeHeight s (events ++ later) →
      GuessedThroughout cfg treeHeight s events ∧ GuessedThroughout cfg treeHeight s' later := by
  induction events with
  | nil =>
    intro s s' hrun h
    cases hrun
    exact ⟨trivial, h⟩
  | cons event events ih =>
    intro s s' hrun h
    cases event with
    | reader event => exact ih hrun h
    | write op =>
      obtain ⟨hnow, hlater⟩ := h
      simp only [runIndexed, bind, Except.bind] at hrun
      split at hrun
      · cases hrun
      · next out hret =>
        split at hrun
        · cases hrun
        · next out' hwrite =>
          obtain ⟨-, hrest⟩ := ih hrun (hlater _ _ _ _ hret hwrite)
          refine ⟨⟨hnow, fun s₁ change tree r hret' hwrite' => ?_⟩, hrest⟩
          rw [hret] at hret'
          cases hret'
          rw [hwrite] at hwrite'
          cases hwrite'
          exact (ih hrun (hlater _ _ _ _ hret hwrite)).1

end Append

/-- Two leaves under a directory become one again. The B+ tree has to hold three roots,
its height is 1, and the new root, a leaf, is recorded with the height 0. -/
theorem collapsed_root_misrecorded :
    ¬ ∀ c, Changes ⟨125, 125, u64Space⟩ (fun _ => initTreeHeight)
      (start (sortedList (ℕ × ℕ)).toOrdered (sortedList (ℕ × ℕ)).toOrdered .bTree (some false)
        (fun _ => .next) 1 0)
      (twoLeaves ++ [.write (.delete 38), .write (.delete 39)]) c → Correct c := by
  intro hall
  have hc := roomy_of_capacity (.inl rfl) u64Space
  have hstart : Recorded ⟨125, 125, u64Space⟩ (start (sortedList (ℕ × ℕ)).toOrdered
      (sortedList (ℕ × ℕ)).toOrdered .bTree (some false) (fun _ => .next) 1 0 :
        IndexedTree UInt64 ℕ _ _) [startRoot 0] := start_recorded _ _ _ _ _ _
  have hguess := (changes_correct_iff hc _ _ _ hstart).mp hall
  -- the directory over the two leaves, whose live records fit into one
  have hstate : (runIndexed ⟨125, 125, u64Space⟩ (fun _ => initTreeHeight)
      (start (sortedList (ℕ × ℕ)).toOrdered (sortedList (ℕ × ℕ)).toOrdered .bTree (some false)
        (fun _ => .next) 1 0) twoLeaves).map (fun s => (variantOf s.index, s.tree.currentRoot,
          s.tree.heap 3, unsafeDegree ⟨125, 125, u64Space⟩ (s.tree.heap 1),
          decide ((s.tree.heap 2).activeDeadCount.1 + (s.tree.heap 1).activeDeadCount.1 ≤
            4 * maxUnits ⟨125, 125, u64Space⟩ (s.tree.heap 1) / 5))) =
      .ok (.bTree, (3, 2), .internal ⟨131072, [⟨⟨0, 62⟩, 126, false, 1⟩,
        ⟨⟨63, 18446744073709551615⟩, 126, false, 2⟩]⟩, .activeUnderflow, true) := by
    decide +kernel
  cases hrun : runIndexed ⟨125, 125, u64Space⟩ (fun _ => initTreeHeight)
      (start (sortedList (ℕ × ℕ)).toOrdered (sortedList (ℕ × ℕ)).toOrdered .bTree (some false)
        (fun _ => .next) 1 0) (twoLeaves : List (Event UInt64 ℕ)) with
  | error fault =>
    rw [hrun] at hstate
    cases hstate
  | ok s =>
    rw [hrun] at hstate
    simp only [Except.map, Except.ok.injEq, Prod.mk.injEq, decide_eq_true_eq] at hstate
    obtain ⟨hvariant, hroot, hdir, hunder, hsum⟩ := hstate
    obtain ⟨hbefore, -, hafter⟩ := guessedThroughout_append _ hrun hguess
    obtain ⟨s', roots, hrun', hrec⟩ := run_recorded hc _ _ _ hstart hbefore
    rw [hrun] at hrun'
    cases hrun'
    have hdeg : unsafeDegreeRoot ⟨125, 125, u64Space⟩ (s.tree.heap s.tree.currentRoot.1) = .ok := by
      rw [hroot, hdir]
      decide
    obtain ⟨tree, r, hwrite, hrec'⟩ := hrec.write hc hdeg (.delete 38)
    obtain ⟨hwrong, -⟩ := hafter s none tree r (hrec.ready hdeg) hwrite
    obtain ⟨g, hinv⟩ := hrec.state.resolve_left (fun hfresh => by
      rw [MVBTSt.currentRoot, hfresh.root] at hroot
      cases hroot)
    have hindex : activeIndex (⟨131072, [⟨⟨0, 62⟩, 126, false, 1⟩,
        ⟨⟨63, 18446744073709551615⟩, 126, false, 2⟩]⟩ : InternalPage UInt64)
        (operationKey (.delete 38 : WriteOperation UInt64 ℕ)) = some 0 := by
      decide
    have hlast := dispatchWrite_lastChild hinv hc hdeg (by rw [hroot])
      (by rw [hroot]; exact hdir) (by decide) hindex rfl hunder rfl hsum hwrite
    obtain ⟨root, -, hcur, htree, -⟩ := hrec'.newest
    rw [htree] at hlast
    cases hi : s.index with
    | bTree tree' =>
      have hone : Depth tree root.block 1 :=
        hwrong tree' root hi hcur (by rw [hlast]; decide)
      cases hone with
      | leaf hp =>
        have hdirectory := directory_of_underflow hlast
        rw [hp] at hdirectory
        cases hdirectory
      | directory _ hne hbelow =>
        obtain ⟨e, he⟩ := List.exists_mem_of_ne_nil _ hne
        exact absurd (hbelow e he).pos (by decide)
    | _ =>
      rw [hi] at hvariant
      cases hvariant

end CMVBT.RootHeight
