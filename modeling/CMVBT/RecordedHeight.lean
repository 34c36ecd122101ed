import CMVBT.BaselineDescent
import CMVBT.UnderflowCorrection
import Mathlib.Data.List.Nodup
import Mathlib.Logic.Relation

/-!
# The recorded height of the version-list tree

`Root` holds a height beside the block. The strategies choose latches by it, so it
should be the number of levels; but a split of the root leaves it as it is, while the
merge of a root with all its children decrements it.

One operation after the other runs here under any strategy and with or without
collection. A traversal is a sequence of visits, each with all its latch checks: they
pass, or the traversal restarts before anything is written. So no strategy does more
than this, and only `traversal_write_olc_append` depends on it. The height that a
retrieval hands out goes to `apply_for_ref` and chooses a latch there.
-/
namespace CMVBT.RecordedHeight
open PageModel hiding Node startVersion
open KeyInterval OrderedMap VersionChain VersionedLog SeparatorRow BaselinePages BaselineTree
open BaselineDescent (splitRoot_small)
open UnderflowCorrection (Corrected)

inductive LockingStrategy where
  | monoWriter
  | lockCoupling
  | orwc
  | olc
  | lightweightHybridLock
  | hybridLocking
deriving DecidableEq, Repr

def LockingStrategy.isOptimistic : LockingStrategy → Bool
  | .olc | .hybridLocking | .lightweightHybridLock => true
  | _ => false

/-- `INIT_TREE_HEIGHT`. -/
def initTreeHeight : ℕ := 1

section Code
variable {K V P : Type} [LinearOrder K]

/-- The root with its height, and the clock. -/
structure HeightTree (K V : Type) where
  block : Node K V
  height : ℕ
  globalClock : ℕ

structure HeightConfig (K V P : Type) [LinearOrder K] where
  tree : TreeConfig K V P
  lockingStrategy : LockingStrategy
  gc : Bool
  /-- `(NUM_RECORDS as f64 * 0.4f64).ceil()`. -/
  filterBelow : ℕ

variable (cfg : HeightConfig K V P)

/-- A page before its split: with few deleted records a leaf gives them up. -/
def filterSplit : Node K V → Except Fault (Node K V)
  | .leaf records =>
    if cfg.gc then do
      let live ← records.filterM fun r => cfg.tree.index.isLive r.versionIndex
      let countDeleted := records.length - live.length
      if countDeleted < cfg.filterBelow then return .leaf live else return .leaf records
    else .ok (.leaf records)
  | .index keys children => .ok (.index keys children)

/-- `retrieve_root_internal`: the height for the traversal, or none when it restarts. -/
def retrieveRootInternal (passed : Bool) (tree : HeightTree K V) :
    Except Fault (HeightTree K V × Option ℕ) :=
  if !passed then .ok (tree, none)
  else if hasOverflow cfg.tree tree.block then do
    let nHeight := tree.height + 1
    let (left, k3, right) ← halves (← filterSplit cfg tree.block)
    let tree' := { tree with block := .index [k3] [left, right] }
    if tree.block.isLeaf then return (tree', none) else return (tree', some nHeight)
  else .ok (tree, some tree.height)

/-- What a visit makes of a traversal. -/
inductive Visit (K : Type) where
  | arrived
  | next (childPos : ℕ) (fence : Interval K)
  | corrected (lowered : Bool)

/-- The fence of a child. -/
def nextFence (keys : List K) (childPos : ℕ) (fence : Interval K) : Interval K where
  upper := if childPos < keys.length then keys[childPos]?.getD fence.upper else fence.upper
  lower := if 0 < childPos then keys[childPos - 1]?.getD fence.lower else fence.lower

/-- One round of `traversal_write_internal` and of `traversal_write_olc_internal`. -/
def visit (key : K) (appendOp isRoot : Bool) (fence : Interval K) :
    Node K V → Except Fault (Node K V × Visit K)
  | .leaf records => .ok (.leaf records, .arrived)
  | .index keys children => do
    let (childPos, next) ← nextNode keys children (cfg.tree.keys.incKey key)
    if !appendOp && hasOverflow cfg.tree next then
      let page ← doOverflowCorrection cfg.tree keys children childPos (← filterSplit cfg next)
      return (page, .corrected false)
    else if !appendOp && hasUnderflow cfg.tree next then
      let after ←
        UnderflowCorrection.doUnderflowCorrection cfg.tree isRoot fence.upper keys children childPos
      return (after.page, .corrected after.lowered)
    else return (.index keys children, .next childPos (nextFence keys childPos fence))

/-- `self.root.get_mut().height -= 1` on `u16`, without overflow checks. -/
def loweredHeight (height : ℕ) : ℕ := (height + (2 ^ 16 - 1)) % 2 ^ 16

/-- The traversals of updates and deletions leave the pages as they are under some strategies. -/
def appendOp : CRUDOperation K P → Bool
  | .insert _ _ => false
  | .update _ _ | .delete _ => cfg.lockingStrategy.isOptimistic

/-- What an operation does to the page that its guard protects. -/
def writePage (version : ℕ) (toss : Bool) :
    CRUDOperation K P → Node K V → Except Fault (Node K V × CRUDOperationResult)
  | .insert key payload, page => do
    let (page, pushed) ←
      Node.pushRecordPoint cfg.tree.index cfg.tree.sizes key payload version toss page
    return (page, if pushed then .inserted version else .error)
  | .update key payload, page => do
    let (page, result) ← Node.updateRecordPoint cfg.tree.index key payload version toss page
    return (page, match result with
      | .ok (some _) => .updated version
      | .ok none => .zeroAffected .keyDoesNotExist
      | .error _ => .error)
  | .delete key, page => do
    let (page, result) ← Node.deleteKey cfg.tree.index key version toss page
    return (page, match result with
      | .ok (some _) => .deleted version
      | .ok none => .zeroAffected .keyDoesNotExist
      | .error _ => .zeroAffected .keyAlreadyDeleted)

/-- `weaver_callback` sets links in the version lists of a page. -/
def relink (link : K → V → V) : Node K V → Except Fault (Node K V × Unit)
  | .leaf records =>
    .ok (.leaf (records.map fun r => { r with versionIndex := link r.key r.versionIndex }), ())
  | .index keys children => .ok (.index keys children, ())

/-- Where the thread stands. -/
inductive Phase (K P : Type) where
  | idle
  | retrieving (operation : CRUDOperation K P)
  | descending (operation : CRUDOperation K P) (guard : List ℕ) (fence : Interval K)
  | holding (operation : CRUDOperation K P) (guard : List ℕ)

structure State (K V P : Type) where
  tree : HeightTree K V
  phase : Phase K P

inductive Step : State K V P → State K V P → Prop
  | dispatch {tree : HeightTree K V} (operation : CRUDOperation K P) :
      Step ⟨tree, .idle⟩ ⟨tree, .retrieving operation⟩
  | restart {tree tree' : HeightTree K V} {operation : CRUDOperation K P} {passed : Bool} :
      retrieveRootInternal cfg passed tree = .ok (tree', none) →
      Step ⟨tree, .retrieving operation⟩ ⟨tree', .retrieving operation⟩
  | retrieve {tree tree' : HeightTree K V} {operation : CRUDOperation K P} {height : ℕ} :
      retrieveRootInternal cfg true tree = .ok (tree', some height) →
      Step ⟨tree, .retrieving operation⟩ ⟨tree', .descending operation [] cfg.tree.keys.full⟩
  | invalid {tree : HeightTree K V} {operation : CRUDOperation K P} {guard : List ℕ}
      {fence : Interval K} :
      Step ⟨tree, .descending operation guard fence⟩ ⟨tree, .retrieving operation⟩
  | next {tree : HeightTree K V} {operation : CRUDOperation K P} {guard : List ℕ}
      {fence fence' : Interval K} {block : Node K V} {childPos : ℕ} :
      derefMut (visit cfg operation.key (appendOp cfg operation) guard.isEmpty fence) guard
        tree.block = .ok (block, .next childPos fence') →
      Step ⟨tree, .descending operation guard fence⟩
        ⟨{ tree with block }, .descending operation (guard ++ [childPos]) fence'⟩
  | correct {tree : HeightTree K V} {operation : CRUDOperation K P} {guard : List ℕ}
      {fence : Interval K} {block : Node K V} {lowered : Bool} :
      derefMut (visit cfg operation.key (appendOp cfg operation) guard.isEmpty fence) guard
        tree.block = .ok (block, .corrected lowered) →
      Step ⟨tree, .descending operation guard fence⟩
        ⟨⟨block, if lowered then loweredHeight tree.height else tree.height, tree.globalClock⟩,
          .descending operation guard fence⟩
  | arrive {tree : HeightTree K V} {operation : CRUDOperation K P} {guard : List ℕ}
      {fence : Interval K} {block : Node K V} :
      derefMut (visit cfg operation.key (appendOp cfg operation) guard.isEmpty fence) guard
        tree.block = .ok (block, .arrived) →
      Step ⟨tree, .descending operation guard fence⟩ ⟨{ tree with block }, .holding operation guard⟩
  | write {tree : HeightTree K V} {operation : CRUDOperation K P} {guard : List ℕ} {toss : Bool}
      {block : Node K V} {result : CRUDOperationResult} :
      derefMut (writePage cfg tree.globalClock toss operation) guard tree.block =
        .ok (block, result) →
      Step ⟨tree, .holding operation guard⟩
        ⟨⟨block, tree.height, tree.globalClock + 1⟩, .idle⟩
  | weave {tree : HeightTree K V} {link : K → V → V} {guard : List ℕ} {block : Node K V} :
      derefMut (relink link) guard tree.block = .ok (block, ()) →
      Step ⟨tree, .idle⟩ ⟨{ tree with block }, .idle⟩

/-- `new_with`. -/
def start : State K V P := ⟨⟨.leaf [], initTreeHeight, BaselineTree.startVersion⟩, .idle⟩

/-- Every way from the block to a leaf has `levels` blocks. -/
def HasLevels : ℕ → Node K V → Prop
  | 1, .leaf _ => True
  | levels + 1, .index _ children => children ≠ [] ∧ ∀ c ∈ children, HasLevels levels c
  | _, _ => False

/-- No retrieval meets a full root. -/
def Roomy (s : State K V P) : Prop :=
  ∀ operation, s.phase = .retrieving operation → hasOverflow cfg.tree s.tree.block = false

end Code

section Proofs
variable {K V P : Type} [LinearOrder K] {cfg : HeightConfig K V P}

/-! ## One leaf -/

theorem retrieveRootInternal_small {tree : HeightTree K V}
    (hsmall : hasOverflow cfg.tree tree.block = false) (passed : Bool) :
    retrieveRootInternal cfg passed tree =
      .ok (tree, if passed then some tree.height else none) := by
  cases passed with
  | false => rfl
  | true =>
    simp only [retrieveRootInternal, hsmall]
    rfl

theorem writePage_leaf {version : ℕ} {toss : Bool} {operation : CRUDOperation K P}
    {records : List (VersionedRecordPoint K V)} {page : Node K V} {result : CRUDOperationResult}
    (h : writePage cfg version toss operation (.leaf records) = .ok (page, result)) :
    ∃ records', page = .leaf records' := by
  cases operation with
  | insert key payload =>
    obtain ⟨⟨page₁, pushed⟩, hpush, hdone⟩ := of_bind_ok h
    cases hdone
    simp only [Node.pushRecordPoint] at hpush
    split at hpush
    · obtain ⟨records₁, -, hdone⟩ := of_bind_ok hpush
      cases hdone
      exact ⟨_, rfl⟩
    · obtain ⟨record, -, hrest⟩ := of_bind_ok hpush
      obtain ⟨versionIndex, -, hdone⟩ := of_bind_ok hrest
      cases hdone
      exact ⟨_, rfl⟩
  | update key payload =>
    obtain ⟨⟨page₁, answer⟩, hupdate, hdone⟩ := of_bind_ok h
    cases hdone
    simp only [Node.updateRecordPoint] at hupdate
    split at hupdate
    · obtain ⟨record, -, hrest⟩ := of_bind_ok hupdate
      obtain ⟨isLive, -, hrest⟩ := of_bind_ok hrest
      cases isLive with
      | true =>
        obtain ⟨versionIndex, -, hdone⟩ := of_bind_ok hrest
        cases hdone
        exact ⟨_, rfl⟩
      | false =>
        cases hrest
        exact ⟨_, rfl⟩
    · cases hupdate
      exact ⟨_, rfl⟩
  | delete key =>
    obtain ⟨⟨page₁, answer⟩, hdelete, hdone⟩ := of_bind_ok h
    cases hdone
    simp only [Node.deleteKey] at hdelete
    split at hdelete
    · obtain ⟨record, -, hrest⟩ := of_bind_ok hdelete
      obtain ⟨isLive, -, hrest⟩ := of_bind_ok hrest
      cases isLive with
      | true =>
        obtain ⟨versionIndex, -, hdone⟩ := of_bind_ok hrest
        cases hdone
        exact ⟨_, rfl⟩
      | false =>
        cases hrest
        exact ⟨_, rfl⟩
    · cases hdelete
      exact ⟨_, rfl⟩

/-- The root is a leaf, and the recorded height is the initial one. -/
structure OneLeaf (tree : HeightTree K V) : Prop where
  leaf : ∃ records, tree.block = .leaf records
  height : tree.height = initTreeHeight

omit [LinearOrder K] in
/-- Nothing lies below a leaf. -/
theorem derefMut_leaf {A : Type} {f : Node K V → Except Fault (Node K V × A)} {guard : List ℕ}
    {records : List (VersionedRecordPoint K V)} {after : Node K V × A}
    (h : derefMut f guard (.leaf records) = .ok after) : f (.leaf records) = .ok after := by
  cases guard with
  | nil => exact h
  | cons => cases h

/-- No step but the split of a full root gives a tree of one leaf another level. -/
theorem OneLeaf.step {s s' : State K V P} (h : OneLeaf s.tree) (hroomy : Roomy cfg s)
    (hs : Step cfg s s') : OneLeaf s'.tree := by
  obtain ⟨⟨records, hleaf⟩, hheight⟩ := h
  cases hs with
  | dispatch => exact ⟨⟨records, hleaf⟩, hheight⟩
  | @restart _ _ operation passed hrun =>
    rw [retrieveRootInternal_small (hroomy operation rfl)] at hrun
    cases passed with
    | true => cases hrun
    | false =>
      cases hrun
      exact ⟨⟨records, hleaf⟩, hheight⟩
  | @retrieve _ _ operation _ hrun =>
    rw [retrieveRootInternal_small (hroomy operation rfl)] at hrun
    cases hrun
    exact ⟨⟨records, hleaf⟩, hheight⟩
  | invalid => exact ⟨⟨records, hleaf⟩, hheight⟩
  | next hvisit =>
    rw [hleaf] at hvisit
    cases derefMut_leaf hvisit
  | correct hvisit =>
    rw [hleaf] at hvisit
    cases derefMut_leaf hvisit
  | arrive hvisit =>
    rw [hleaf] at hvisit
    cases derefMut_leaf hvisit
    exact ⟨⟨records, rfl⟩, hheight⟩
  | write hwrite =>
    rw [hleaf] at hwrite
    exact ⟨writePage_leaf (derefMut_leaf hwrite), hheight⟩
  | weave hweave =>
    rw [hleaf] at hweave
    cases derefMut_leaf hweave
    exact ⟨⟨_, rfl⟩, hheight⟩

/-! ## Runs -/

/-- A run in which every state before a step satisfies a condition. -/
def Run (cfg : HeightConfig K V P) (ok : State K V P → Prop) : State K V P → State K V P → Prop :=
  Relation.ReflTransGen fun s s' => ok s ∧ Step cfg s s'

theorem Run.anytime {ok : State K V P → Prop} {s s' : State K V P} (h : Run cfg ok s s') :
    Run cfg (fun _ => True) s s' := by
  induction h with
  | refl => exact .refl
  | tail _ hs ih => exact ih.tail ⟨trivial, hs.2⟩

/-- As long as no retrieval meets a full root, the recorded height is the number of levels. -/
theorem recorded_height_right {s : State K V P} (h : Run cfg (Roomy cfg) start s) :
    HasLevels s.tree.height s.tree.block := by
  have honeLeaf : OneLeaf s.tree := by
    induction h with
    | refl => exact ⟨⟨[], rfl⟩, rfl⟩
    | tail _ hs ih => exact ih.step hs.1 hs.2
  obtain ⟨records, hleaf⟩ := honeLeaf.leaf
  rw [honeLeaf.height, hleaf]
  trivial

/-! ## A second level -/

/-- The insertion of a new key into the only leaf. -/
theorem insert_once (cfg : HeightConfig K V P) {records : List (VersionedRecordPoint K V)}
    (height clock : ℕ) {key : K}
    (hsorted : Sorted VersionedRecordPoint.key records)
    (hlen : records.length < cfg.tree.sizes.numRecords) (hnew : ∀ r ∈ records, r.key ≠ key)
    (payload : P) :
    ∃ records', Run cfg (Roomy cfg) ⟨⟨.leaf records, height, clock⟩, .idle⟩
        ⟨⟨.leaf records', height, clock + 1⟩, .idle⟩ ∧
      records'.length = records.length + 1 ∧ Sorted VersionedRecordPoint.key records' ∧
      ∀ r ∈ records', r.key = key ∨ r ∈ records := by
  obtain ⟨pos, hsearch⟩ : ∃ pos, Node.searchRecords records key = .error pos := by
    cases hsearch : Node.searchRecords records key with
    | error pos => exact ⟨pos, rfl⟩
    | ok pos =>
      obtain ⟨r, hr, heq⟩ := binarySearchByKey_ok hsearch
      exact absurd heq (hnew r (List.mem_of_getElem? hr))
  obtain ⟨hpos, hbefore, hafter⟩ := binarySearchByKey_error hsorted hsearch
  have hsmall : hasOverflow cfg.tree (.leaf records : Node K V) = false :=
    decide_eq_false hlen.not_ge
  have hpush : writePage cfg clock false (.insert key payload) (.leaf records) =
      .ok (.leaf (records.insertIdx pos ⟨key, cfg.tree.index.new payload clock⟩),
        .inserted clock) := by
    simp only [writePage, Node.pushRecordPoint, hsearch, insertAt_eq hpos hlen]
    rfl
  refine ⟨records.insertIdx pos ⟨key, cfg.tree.index.new payload clock⟩, ?_, ?_, ?_, ?_⟩
  · refine .tail (.tail (.tail (.tail .refl ⟨?_, .dispatch (.insert key payload)⟩)
      ⟨?_, .retrieve (retrieveRootInternal_small hsmall true)⟩) ⟨?_, .arrive rfl⟩) ⟨?_, .write hpush⟩
    · intro operation h
      cases h
    · exact fun _ _ => hsmall
    · intro operation h
      cases h
    · intro operation h
      cases h
  · rw [List.length_insertIdx, if_pos hpos]
  · rw [insertIdx_split hpos]
    exact hsorted.insert hbefore hafter
  · intro r hr
    rw [insertIdx_split hpos] at hr
    rcases List.mem_append.mp hr with hr | hr
    · exact .inr (List.mem_of_mem_take hr)
    · rcases List.mem_cons.mp hr with rfl | hr
      · exact .inl rfl
      · exact .inr (List.mem_of_mem_drop hr)

/-- As many new keys as a leaf has room for. -/
theorem insert_all (cfg : HeightConfig K V P) (payload : P) {keys : List K} (hnodup : keys.Nodup)
    (hlen : keys.length ≤ cfg.tree.sizes.numRecords) :
    ∃ records clock, Run cfg (Roomy cfg) start ⟨⟨.leaf records, initTreeHeight, clock⟩, .idle⟩ ∧
      records.length = keys.length ∧ Sorted VersionedRecordPoint.key records ∧
      ∀ r ∈ records, r.key ∈ keys := by
  induction keys with
  | nil => exact ⟨[], _, .refl, rfl, List.Pairwise.nil, fun r hr => by cases hr⟩
  | cons key keys ih =>
    obtain ⟨hkey, hrest⟩ := List.nodup_cons.mp hnodup
    rw [List.length_cons] at hlen
    obtain ⟨records, clock, hrun, hcount, hsorted, hkeys⟩ := ih hrest (by omega)
    have hroom : records.length < cfg.tree.sizes.numRecords := by omega
    have hnew : ∀ r ∈ records, r.key ≠ key := by
      rintro r hr rfl
      exact hkey (hkeys r hr)
    obtain ⟨records', hrun', hcount', hsorted', hkeys'⟩ := 
      insert_once cfg initTreeHeight clock hsorted hroom hnew payload
    refine ⟨records', clock + 1, hrun.trans hrun', ?_, hsorted', ?_⟩
    · rw [hcount', hcount, List.length_cons]
    · intro r hr
      rcases hkeys' r hr with rfl | hr
      · exact List.mem_cons_self
      · exact List.mem_cons_of_mem key (hkeys r hr)

theorem nextNode_two (m key : K) (left right : Node K V) :
    ∃ pos c, nextNode [m] [left, right] key = .ok (pos, c) ∧ [left, right][pos]? = some c := by
  have hpos : position (binarySearchByKey id [m] key) ≤ 1 := by
    rw [position_binarySearchByKey]
    exact partitionPoint_le _ _
  obtain ⟨c, hc⟩ : ∃ c, [left, right][position (binarySearchByKey id [m] key)]? = some c :=
    ⟨_, List.getElem?_eq_getElem (Nat.lt_succ_of_le hpos)⟩
  refine ⟨_, c, ?_, hc⟩
  simp only [nextNode, getUnchecked_eq hc, ok_bind]
  rfl

theorem deleteKey_missing {records : List (VersionedRecordPoint K V)} {key : K}
    (hmissing : ∀ r ∈ records, r.key ≠ key) (clock : ℕ) :
    writePage cfg clock false (.delete key) (.leaf records) =
      .ok (.leaf records, .zeroAffected .keyAlreadyDeleted) := by
  cases hsearch : Node.searchRecords records key with
  | error pos =>
    simp only [writePage, Node.deleteKey, hsearch]
    rfl
  | ok pos =>
    obtain ⟨r, hr, heq⟩ := binarySearchByKey_ok hsearch
    exact absurd heq (hmissing r (List.mem_of_getElem? hr))

/-- A deletion without effect below a directory with two leaves. -/
theorem delete_below (holc : cfg.lockingStrategy.isOptimistic = true) {m key : K}
    {left right : List (VersionedRecordPoint K V)} {height clock : ℕ}
    (hleft : ∀ r ∈ left, r.key ≠ key) (hright : ∀ r ∈ right, r.key ≠ key) :
    Run cfg (fun _ => True)
      ⟨⟨.index [m] [.leaf left, .leaf right], height, clock⟩, .retrieving (.delete key)⟩
      ⟨⟨.index [m] [.leaf left, .leaf right], height, clock + 1⟩, .idle⟩ := by
  have hsmall : hasOverflow cfg.tree (.index [m] [.leaf left, .leaf right]) = false :=
    splitRoot_small m _ _
  obtain ⟨pos, c, hnext, hc⟩ :=
    nextNode_two m (cfg.tree.keys.incKey key) (.leaf left) (.leaf right)
  obtain ⟨part, rfl, hpart⟩ : ∃ part, c = .leaf part ∧ ∀ r ∈ part, r.key ≠ key := by
    rcases List.mem_pair.mp (List.mem_of_getElem? hc) with rfl | rfl
    · exact ⟨left, rfl, hleft⟩
    · exact ⟨right, rfl, hright⟩
  -- the leaf is written back as it was
  have hset : [(.leaf left : Node K V), .leaf right].set pos (.leaf part) =
      [.leaf left, .leaf right] := by
    obtain ⟨hlt, hget⟩ := List.getElem?_eq_some_iff.mp hc
    rw [← hget]
    exact List.set_getElem_self hlt
  have happend : appendOp cfg (.delete key : CRUDOperation K P) = true := holc
  have henter : derefMut (visit cfg key true true cfg.tree.keys.full) []
      (.index [m] [.leaf left, .leaf right]) = .ok (.index [m] [.leaf left, .leaf right],
        .next pos (nextFence [m] pos cfg.tree.keys.full)) := by
    simp only [derefMut, visit, hnext, ok_bind, Bool.not_true, Bool.false_and, Bool.false_eq_true,
      if_false]
    rfl
  have harrive : derefMut (visit cfg key true false (nextFence [m] pos cfg.tree.keys.full)) [pos]
      (.index [m] [.leaf left, .leaf right]) = .ok (.index [m] [.leaf left, .leaf right],
        .arrived) := by
    simp only [derefMut, getUnchecked_eq hc, ok_bind, visit, hset]
    rfl
  have hdelete : derefMut (writePage cfg clock false (.delete key)) [pos]
      (.index [m] [.leaf left, .leaf right]) = .ok (.index [m] [.leaf left, .leaf right],
        .zeroAffected .keyAlreadyDeleted) := by
    simp only [derefMut, getUnchecked_eq hc, ok_bind, deleteKey_missing hpart, hset]
    rfl
  have hstart : Run cfg (fun _ => True)
      ⟨⟨.index [m] [.leaf left, .leaf right], height, clock⟩, .retrieving (.delete key)⟩
      ⟨⟨.index [m] [.leaf left, .leaf right], height, clock⟩,
        .descending (.delete key) [] cfg.tree.keys.full⟩ :=
    .tail .refl ⟨trivial, .retrieve (retrieveRootInternal_small hsmall true)⟩
  have hchild : Run cfg (fun _ => True) _
      ⟨⟨.index [m] [.leaf left, .leaf right], height, clock⟩,
        .descending (.delete key) [pos] (nextFence [m] pos cfg.tree.keys.full)⟩ :=
    hstart.tail ⟨trivial, .next (by rw [happend]; exact henter)⟩
  have hleaf : Run cfg (fun _ => True) _
      ⟨⟨.index [m] [.leaf left, .leaf right], height, clock⟩, .holding (.delete key) [pos]⟩ :=
    hchild.tail ⟨trivial, .arrive (by rw [happend]; exact harrive)⟩
  exact hleaf.tail ⟨trivial, .write hdelete⟩

/-- A deletion without effect splits the full root, whose recorded height stays. -/
theorem delete_splits (holc : cfg.lockingStrategy.isOptimistic = true) (hgc : cfg.gc = false)
    {records : List (VersionedRecordPoint K V)} (height clock : ℕ) {key : K}
    (hfull : records.length = cfg.tree.sizes.numRecords) (hmissing : ∀ r ∈ records, r.key ≠ key) :
    ∃ m left right, Run cfg (fun _ => True) ⟨⟨.leaf records, height, clock⟩, .idle⟩
      ⟨⟨.index [m] [left, right], height, clock + 1⟩, .idle⟩ := by
  have hmin := cfg.tree.sizes.numRecords_min
  have hover : hasOverflow cfg.tree (.leaf records : Node K V) = true :=
    decide_eq_true hfull.ge
  obtain ⟨mid, hmid⟩ : ∃ mid, records[records.length / 2]? = some mid :=
    ⟨_, List.getElem?_eq_getElem (by omega)⟩
  have hhalves : halves (.leaf records : Node K V) =
      .ok (.leaf (records.take (records.length / 2)), mid.key,
        .leaf (records.drop (records.length / 2))) := by
    simp only [halves, getUnchecked_eq hmid, ok_bind]
    rfl
  have hsplit : retrieveRootInternal cfg true ⟨.leaf records, height, clock⟩ =
      .ok (⟨.index [mid.key] [.leaf (records.take (records.length / 2)),
        .leaf (records.drop (records.length / 2))], height, clock⟩, none) := by
    have hfilter : filterSplit cfg (.leaf records) = .ok (.leaf records) := by
      rw [filterSplit, hgc]
      rfl
    simp only [retrieveRootInternal, hover, hfilter, ok_bind, hhalves, Bool.not_true,
      Bool.false_eq_true, if_false, if_true]
    rfl
  refine ⟨_, _, _, .trans (.tail (.tail .refl ⟨trivial, .dispatch (.delete key)⟩)
    ⟨trivial, .restart hsplit⟩) (delete_below holc ?_ ?_)⟩
  · exact fun r hr => hmissing r (List.mem_of_mem_take hr)
  · exact fun r hr => hmissing r (List.mem_of_mem_drop hr)

end Proofs

/-! ## `INDEX` -/

/-- `INDEX` under `LockingStrategy::OLC`, without collection. -/
def indexHeights : HeightConfig UInt64 (VersionIndex (sortedList (RecordInfo ℕ))) ℕ where
  tree := ⟨u64Space, indexSizes, listOps .frugalSkipList, fun keys children _ =>
    .ok (.index keys children)⟩
  lockingStrategy := .olc
  gc := false
  filterBelow := 68

theorem recorded_height_right_insert :
    ∃ s, Run indexHeights (Roomy indexHeights) start s ∧ s.tree.globalClock = 2 ∧
      HasLevels s.tree.height s.tree.block := by
  have hnew : ∀ r ∈ ([] : List (VersionedRecordPoint UInt64
      (VersionIndex (sortedList (RecordInfo ℕ))))), r.key ≠ 5 := by simp
  obtain ⟨records, hrun, -⟩ :=
    insert_once indexHeights initTreeHeight 1 List.Pairwise.nil (by decide) hnew 50
  exact ⟨_, hrun, rfl, recorded_height_right hrun⟩

/-- 170 keys are inserted, and another one is deleted. -/
theorem height_stays_behind :
    ∃ s, Run indexHeights (fun _ => True) start s ∧ s.phase = .idle ∧
      ¬ HasLevels s.tree.height s.tree.block := by
  have hnodup : ((List.range 170).map UInt64.ofNat).Nodup := by
    refine List.Nodup.map_on ?_ List.nodup_range
    intro i hi j hj h
    have hi := List.mem_range.mp hi
    have hj := List.mem_range.mp hj
    have hnat := congrArg UInt64.toNat h
    rwa [UInt64.toNat_ofNat_of_lt' (hi.trans (by decide)),
      UInt64.toNat_ofNat_of_lt' (hj.trans (by decide))] at hnat
  obtain ⟨records, clock, hrun, hcount, -, hkeys⟩ := insert_all indexHeights 0 hnodup
    (by simp [indexHeights, indexSizes])
  have hmissing : ∀ r ∈ records, r.key ≠ 200 := by
    intro r hr h
    obtain ⟨i, hi, heq⟩ := List.mem_map.mp (hkeys r hr)
    have hi := List.mem_range.mp hi
    have hnat : (UInt64.ofNat i).toNat = 200 := congrArg UInt64.toNat (heq.trans h)
    rw [UInt64.toNat_ofNat_of_lt' (hi.trans (by decide))] at hnat
    omega
  have hfull : records.length = indexHeights.tree.sizes.numRecords := by
    rw [hcount]
    rfl
  have holc : indexHeights.lockingStrategy.isOptimistic = true := rfl
  obtain ⟨m, left, right, hrun'⟩ :=
    delete_splits holc rfl initTreeHeight clock hfull hmissing
  refine ⟨_, hrun.anytime.trans hrun', rfl, ?_⟩
  rintro ⟨-, hbelow⟩
  exact hbelow left List.mem_cons_self

end CMVBT.RecordedHeight
