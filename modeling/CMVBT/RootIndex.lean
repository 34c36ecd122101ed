import CMVBT.OrderedMap
import CMVBT.FrugalList
import CMVBT.CommitClock

/-!
# The four root indexes

`RootIndex` of `index_root.rs` keeps all roots of a tree by version. Its four
variants are a frugal list, a linked list, a skip map and a B+ tree; the last two
come from other crates and are ordered maps by assumption. A lookup that finds
nothing panics in three of them, and all of them answer the same.
-/
namespace CMVBT.RootIndex
open PageModel FrugalList CommitClock OrderedMap

structure Root where
  block : ℕ
  version : ℕ
  height : ℕ
deriving DecidableEq, Repr

inductive RootIndexType where
  | frugalList
  | skipList
  | bTree
  | linkedList
deriving DecidableEq, Repr

/-- `INIT_TREE_HEIGHT`. -/
def initTreeHeight : ℕ := 1

/-- `make_start_value_root_inner` for the first leaf. -/
def startRoot (block : ℕ) : Root := ⟨block, startVersion, initTreeHeight⟩

/-- `ValueRootInner`: block and height. -/
def Root.inner (r : Root) : ℕ × ℕ := (r.block, r.height)

def Root.new (inner : ℕ × ℕ) (version : ℕ) : Root := ⟨inner.1, version, inner.2⟩

@[simp] theorem Root.new_inner (r : Root) : Root.new r.inner r.version = r := rfl

/-- `skipMap` is the skip map of crossbeam, `bPlusTree` the external B+ tree. -/
inductive Index (skipMap bPlusTree : Ordered (ℕ × ℕ)) where
  | frugalList (head : FrugalNode (ℕ × ℕ))
  | skipList (map : skipMap.Carrier)
  | bTree (tree : bPlusTree.Carrier)
  | linkedList (roots : List Root)

section Operations
variable {skipMap bPlusTree : Ordered (ℕ × ℕ)}

def new (variant : RootIndexType) (block : ℕ) : Index skipMap bPlusTree :=
  let root := startRoot block
  match variant with
  | .bTree => .bTree (bPlusTree.insert bPlusTree.empty root.version root.inner).1
  | .skipList => .skipList (skipMap.insert skipMap.empty root.version root.inner).1
  | .linkedList => .linkedList [root]
  | .frugalList => .frugalList (FrugalList.new root.inner root.version)

def currentRoot : Index skipMap bPlusTree → Except Fault Root
  | .bTree tree =>
    match bPlusTree.last tree with
    | some e => .ok (Root.new e.2 e.1)
    | none => .error .unreachable
  | .skipList map =>
    match skipMap.last map with
    | some e => .ok (Root.new e.2 e.1)
    | none => .error .unwrapNone
  | .linkedList roots =>
    match roots.getLast? with
    | some root => .ok root
    | none => .error .unwrapNone
  | .frugalList head => .ok (Root.new head.payload head.insertVersion)

def rootFor (si : ℕ) : Index skipMap bPlusTree → Except Fault Root
  | .bTree tree =>
    match bPlusTree.floor tree si with
    | some e => .ok (Root.new e.2 e.1)
    | none => .error .unreachable
  | .skipList map =>
    match skipMap.floor map si with
    | some e => .ok (Root.new e.2 e.1)
    | none => .error .unwrapNone
  | .linkedList roots =>
    match roots.reverse.find? (fun r => decide (r.version ≤ si)) with
    | some root => .ok root
    | none =>
      match roots.head? with
      | some root => .ok root
      | none => .error .unwrapNone
  | .frugalList head => do
    match ← findFrom head si with
    | some node => return Root.new node.payload node.insertVersion
    | none => .error .unwrapNone

/-- `append_root` with the tosses of the frugal list. -/
def appendRoot (toss : Toss) (root : Root) :
    Index skipMap bPlusTree → Except Fault (Index skipMap bPlusTree × Bool)
  | .bTree tree =>
    let (tree, inserted) := bPlusTree.insert tree root.version root.inner
    .ok (.bTree tree, inserted)
  | .skipList map => .ok (.skipList (skipMap.insert map root.version root.inner).1, true)
  | .linkedList roots => .ok (.linkedList (roots ++ [root]), true)
  | .frugalList head => do
    let head ← append head root.inner root.version toss
    return (.frugalList head, true)

/-- A sequence of calls of `append_root`. -/
def appendRoots : List (Root × Toss) → Index skipMap bPlusTree → Except Fault (Index skipMap bPlusTree)
  | [], index => .ok index
  | (root, toss) :: rest, index => do
    let (index, _) ← appendRoot toss root index
    appendRoots rest index

/-! ## What an index holds -/

/-- The map holds exactly the given roots. -/
def MapHolds (get : ℕ → Option (ℕ × ℕ)) (roots : List Root) : Prop :=
  ∀ k v, get k = some v ↔ ∃ r ∈ roots, r.version = k ∧ r.inner = v

/-- The index holds the given roots, oldest first. -/
def Holds (roots : List Root) : Index skipMap bPlusTree → Prop
  | .bTree tree => MapHolds (bPlusTree.get tree) roots
  | .skipList map => MapHolds (skipMap.get map) roots
  | .linkedList l => l = roots
  | .frugalList head => Chain head (roots.reverse.map (fun r => (r.inner, r.version)))

/-- The root for a snapshot: the one with the greatest version not above it. -/
def Newest (roots : List Root) (si : ℕ) (r : Root) : Prop :=
  r ∈ roots ∧ r.version ≤ si ∧ ∀ r' ∈ roots, r'.version ≤ si → r'.version ≤ r.version

/-- Versions strictly increase. -/
def Increasing (roots : List Root) : Prop := roots.Pairwise (fun a b => a.version < b.version)

/-! ## Lookups -/

section Lookup
variable {roots : List Root} {si : ℕ} {r : Root}

theorem MapHolds.greatest {get : ℕ → Option (ℕ × ℕ)} (h : MapHolds get roots) {keys : ℕ → Prop}
    (hr : r ∈ roots) (hkey : keys r.version)
    (hmax : ∀ r' ∈ roots, keys r'.version → r'.version ≤ r.version) :
    Greatest get keys (r.version, r.inner) := by
  refine ⟨(h _ _).mpr ⟨r, hr, rfl, rfl⟩, hkey, fun k hk hget => ?_⟩
  obtain ⟨v, hv⟩ := Option.ne_none_iff_exists'.mp hget
  obtain ⟨r', hr', rfl, -⟩ := (h k v).mp hv
  exact hmax r' hr' hk

theorem MapHolds.newest {get : ℕ → Option (ℕ × ℕ)} (h : MapHolds get roots)
    (hr : Newest roots si r) : Greatest get (fun k => k ≤ si) (r.version, r.inner) :=
  h.greatest hr.1 hr.2.1 hr.2.2

/-- The roots as a sorted association list. -/
theorem mapHolds_lookup (h : Increasing roots) :
    MapHolds (lookup (roots.map (fun r => (r.version, r.inner)))) roots := by
  intro k v
  have hsorted : (roots.map (fun r => (r.version, r.inner))).Pairwise (fun a b => a.1 < b.1) :=
    List.pairwise_map.mpr h
  constructor
  · intro hget
    obtain ⟨r, hr, heq⟩ := List.mem_map.mp (mem_of_lookup hget)
    cases heq
    exact ⟨r, hr, rfl, rfl⟩
  · rintro ⟨r, hr, rfl, rfl⟩
    exact lookup_of_mem hsorted (List.mem_map.mpr ⟨r, hr, rfl⟩)

/-- The search from the newest root on finds it. -/
theorem find_newest (h : Increasing roots) (hr : Newest roots si r) :
    roots.reverse.find? (fun r => decide (r.version ≤ si)) = some r := by
  have hsorted : (roots.map (fun r => (r.version, r.inner))).Pairwise (fun a b => a.1 < b.1) :=
    List.pairwise_map.mpr h
  have hfind := (findRev_greatest hsorted (fun k => k ≤ si) _).mpr ((mapHolds_lookup h).newest hr)
  rw [← List.map_reverse, List.find?_map, Option.map_eq_some_iff] at hfind
  obtain ⟨r', hr', heq⟩ := hfind
  cases r
  cases r'
  cases heq
  exact hr'

/-- A snapshot that is not below the first root has one. -/
theorem exists_newest (h : Increasing roots) (hne : ∃ r ∈ roots, r.version ≤ si) :
    ∃ r, Newest roots si r := by
  have hsome : (roots.reverse.find? (fun r => decide (r.version ≤ si))).isSome := by
    obtain ⟨r, hr, hle⟩ := hne
    exact List.find?_isSome.mpr ⟨r, List.mem_reverse.mpr hr, by simpa using hle⟩
  obtain ⟨r, hr⟩ := Option.isSome_iff_exists.mp hsome
  obtain ⟨hle, pre, post, hsplit, hpre⟩ := List.find?_eq_some_iff_append.mp hr
  have hdesc : (pre ++ r :: post).Pairwise (fun a b => b.version < a.version) := by
    rw [← hsplit]
    exact List.pairwise_reverse.mpr h
  refine ⟨r, List.mem_reverse.mp (by rw [hsplit]; simp), by simpa using hle, ?_⟩
  intro r' hr' hle'
  have hin : r' ∈ pre ++ r :: post := by
    rw [← hsplit]
    exact List.mem_reverse.mpr hr'
  rcases List.mem_append.mp hin with hin | hin
  · exact absurd hle' (by simpa using hpre r' hin)
  rcases List.mem_cons.mp hin with rfl | hin
  · exact le_rfl
  · exact ((List.pairwise_cons.mp (List.pairwise_append.mp hdesc).2.1).1 r' hin).le

variable {index : Index skipMap bPlusTree}

theorem Holds.rootFor (h : Holds roots index) (hinc : Increasing roots)
    (hr : Newest roots si r) : rootFor si index = .ok r := by
  cases index with
  | bTree tree =>
    have hfloor := (bPlusTree.floor_eq tree si _).mpr (MapHolds.newest h hr)
    simp [RootIndex.rootFor, hfloor]
  | skipList map =>
    have hfloor := (skipMap.floor_eq map si _).mpr (MapHolds.newest h hr)
    simp [RootIndex.rootFor, hfloor]
  | linkedList l =>
    have hl : l = roots := h
    simp only [RootIndex.rootFor, hl, find_newest hinc hr]
  | frugalList head =>
    obtain ⟨res, hres, hval⟩ := Chain.findFrom h si
    rw [List.find?_map] at hval
    have hfind : res.map FrugalNode.value = some (r.inner, r.version) := by
      rw [hval]
      exact congrArg (Option.map _) (find_newest hinc hr)
    obtain ⟨node, rfl, hnode⟩ := Option.map_eq_some_iff.mp hfind
    obtain ⟨hpayload, hversion⟩ := Prod.mk.inj hnode
    simp only [RootIndex.rootFor, hres]
    change Except.ok (Root.new node.payload node.insertVersion) = _
    rw [hpayload, hversion, Root.new_inner]

theorem Holds.currentRoot (h : Holds roots index) (hinc : Increasing roots)
    (hr : roots.getLast? = some r) : currentRoot index = .ok r := by
  obtain ⟨older, rfl⟩ := List.getLast?_eq_some_iff.mp hr
  have hmax : ∀ r' ∈ older ++ [r], True → r'.version ≤ r.version := by
    intro r' hr' _
    rcases List.mem_append.mp hr' with hin | hin
    · exact ((List.pairwise_append.mp hinc).2.2 r' hin r (by simp)).le
    · rw [List.mem_singleton.mp hin]
  cases index with
  | bTree tree =>
    have hlast := (bPlusTree.last_eq tree _).mpr (MapHolds.greatest h (by simp) trivial hmax)
    simp [RootIndex.currentRoot, hlast]
  | skipList map =>
    have hlast := (skipMap.last_eq map _).mpr (MapHolds.greatest h (by simp) trivial hmax)
    simp [RootIndex.currentRoot, hlast]
  | linkedList l =>
    have hl : l = older ++ [r] := h
    simp [RootIndex.currentRoot, hl]
  | frugalList head =>
    obtain ⟨t, ht⟩ := Chain.head h
    simp only [List.reverse_append, List.reverse_singleton, List.singleton_append, List.map_cons,
      List.cons.injEq] at ht
    obtain ⟨hpayload, hversion⟩ := Prod.mk.inj ht.1
    simp only [RootIndex.currentRoot]
    rw [← hpayload, ← hversion, Root.new_inner]

end Lookup

/-! ## Appends -/

section Appends
variable {roots : List Root}

theorem MapHolds.insert {M : Ordered (ℕ × ℕ)} {m : M.Carrier} (h : MapHolds (M.get m) roots)
    {root : Root} (hnew : ∀ r ∈ roots, r.version < root.version) :
    M.get m root.version = none ∧
      MapHolds (M.get (M.insert m root.version root.inner).1) (roots ++ [root]) := by
  have hfresh : M.get m root.version = none := by
    by_contra hne
    obtain ⟨v, hv⟩ := Option.ne_none_iff_exists'.mp hne
    obtain ⟨r, hr, heq, -⟩ := (h _ v).mp hv
    exact (hnew r hr).ne heq
  refine ⟨hfresh, fun k v => ?_⟩
  rw [M.get_insert m _ _ hfresh]
  constructor
  · intro hget
    split_ifs at hget with hk
    · exact ⟨root, by simp, hk.symm, Option.some.inj hget⟩
    · obtain ⟨r, hr, hkv⟩ := (h k v).mp hget
      exact ⟨r, by simp [hr], hkv⟩
  · rintro ⟨r, hr, rfl, rfl⟩
    rcases List.mem_append.mp hr with hr | hr
    · rw [if_neg (hnew r hr).ne]
      exact (h _ _).mpr ⟨r, hr, rfl, rfl⟩
    · rw [List.mem_singleton.mp hr, if_pos rfl]

/-- Every index takes a newer root, whatever the tosses are. -/
theorem Holds.appendRoot {index : Index skipMap bPlusTree} (h : Holds roots index) (toss : Toss)
    {root : Root} (hnew : ∀ r ∈ roots, r.version < root.version) :
    ∃ index', appendRoot toss root index = .ok (index', true) ∧ Holds (roots ++ [root]) index' := by
  cases index with
  | bTree tree =>
    obtain ⟨hfresh, hholds⟩ := MapHolds.insert h hnew
    refine ⟨.bTree (bPlusTree.insert tree root.version root.inner).1, ?_, hholds⟩
    simp [RootIndex.appendRoot, bPlusTree.insert_fresh _ _ _ hfresh]
  | skipList map => exact ⟨_, rfl, (MapHolds.insert h hnew).2⟩
  | linkedList l =>
    have hl : l = roots := h
    exact ⟨_, rfl, by rw [hl]; rfl⟩
  | frugalList head =>
    have hbelow : ∀ x ∈ roots.reverse.map (fun r => (r.inner, r.version)), x.2 < root.version := by
      intro x hx
      obtain ⟨r, hr, rfl⟩ := List.mem_map.mp hx
      exact hnew r (List.mem_reverse.mp hr)
    obtain ⟨m, hm, hchain⟩ := Chain.append h hbelow toss (p := root.inner)
    refine ⟨.frugalList m, ?_, ?_⟩
    · simp only [RootIndex.appendRoot, hm]
      rfl
    · simpa [Holds] using hchain

theorem holds_new (variant : RootIndexType) (block : ℕ) :
    Holds [startRoot block] (new variant block : Index skipMap bPlusTree) := by
  have hempty : ∀ M : Ordered (ℕ × ℕ), MapHolds (M.get M.empty) [] := by
    intro M k v
    simp [M.get_empty]
  cases variant with
  | bTree => exact (MapHolds.insert (hempty bPlusTree) (by simp)).2
  | skipList => exact (MapHolds.insert (hempty skipMap) (by simp)).2
  | linkedList => rfl
  | frugalList => exact Chain.sentinel _ _

theorem Holds.appendRoots {index : Index skipMap bPlusTree} (h : Holds roots index)
    (appends : List (Root × Toss)) (hinc : Increasing (roots ++ appends.map Prod.fst)) :
    ∃ index', appendRoots appends index = .ok index' ∧
      Holds (roots ++ appends.map Prod.fst) index' := by
  induction appends generalizing roots index with
  | nil => exact ⟨index, rfl, by simpa using h⟩
  | cons a rest ih =>
    obtain ⟨root, toss⟩ := a
    have hnew : ∀ r ∈ roots, r.version < root.version := fun r hr =>
      (List.pairwise_append.mp hinc).2.2 r hr root (by simp)
    obtain ⟨index₁, hstep, hholds⟩ := h.appendRoot toss hnew
    have happend : roots ++ ((root, toss) :: rest).map Prod.fst =
        (roots ++ [root]) ++ rest.map Prod.fst := by simp
    rw [happend] at hinc ⊢
    obtain ⟨index₂, hrest, hholds₂⟩ := ih hholds hinc
    refine ⟨index₂, ?_, hholds₂⟩
    simp only [RootIndex.appendRoots, hstep]
    exact hrest

end Appends

end Operations

/-- After any appends with increasing versions, in whatever way the tosses fall,
every variant gives the newest root not above the snapshot, and the last root as
the current one. -/
theorem root_indexes_agree (skipMap bPlusTree : Ordered (ℕ × ℕ)) (block : ℕ)
    (appends : List (Root × Toss))
    (hinc : Increasing (startRoot block :: appends.map Prod.fst)) :
    (∀ variant, ∃ index : Index skipMap bPlusTree,
      appendRoots appends (new variant block) = .ok index ∧
      currentRoot index = .ok ((startRoot block :: appends.map Prod.fst).getLast (by simp))) ∧
    ∀ si, startVersion ≤ si →
      ∃ r, Newest (startRoot block :: appends.map Prod.fst) si r ∧
        ∀ variant (index : Index skipMap bPlusTree),
          appendRoots appends (new variant block) = .ok index → rootFor si index = .ok r := by
  have hbuild : ∀ variant, ∃ index : Index skipMap bPlusTree,
      appendRoots appends (new variant block) = .ok index ∧
      Holds (startRoot block :: appends.map Prod.fst) index := fun variant =>
    (holds_new variant block).appendRoots appends hinc
  refine ⟨fun variant => ?_, fun si hsi => ?_⟩
  · obtain ⟨index, hindex, hholds⟩ := hbuild variant
    exact ⟨index, hindex, hholds.currentRoot hinc (List.getLast?_eq_some_getLast _)⟩
  · obtain ⟨r, hr⟩ := exists_newest hinc ⟨startRoot block, by simp, hsi⟩
    refine ⟨r, hr, fun variant index hindex => ?_⟩
    obtain ⟨index', hindex', hholds⟩ := hbuild variant
    rw [hindex] at hindex'
    cases hindex'
    exact hholds.rootFor hinc hr

/-- Two roots after the initial one, with a tower over the sentinel. -/
theorem root_indexes_agree_two_appends :
    ∃ r, Newest [startRoot 0, ⟨4, 3, 2⟩, ⟨9, 8, 3⟩] 7 r ∧
      ∀ variant (index : Index (sortedList (ℕ × ℕ)).toOrdered (sortedList (ℕ × ℕ)).toOrdered),
        appendRoots [(⟨4, 3, 2⟩, .tower ⟨5, by decide⟩), (⟨9, 8, 3⟩, .next)] (new variant 0) =
          .ok index →
        rootFor 7 index = .ok r :=
  (root_indexes_agree _ _ 0 [(⟨4, 3, 2⟩, .tower ⟨5, by decide⟩), (⟨9, 8, 3⟩, .next)]
    (by simp [Increasing, startRoot, startVersion])).2 7 (by decide)

end CMVBT.RootIndex
