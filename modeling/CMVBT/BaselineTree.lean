import CMVBT.BaselinePages

/-!
# The version-list tree under one thread

`MVBPlusTree` with `LockingStrategy::OLC` and without collection. A guard is the
position of its block: the child positions from the root down. With one thread
nobody else holds a latch, so every upgrade succeeds and every latch check passes;
the traversals still restart after the split of a leaf root. Pages are repaired on
the way down only for insertions. The operations of the version index and what
`do_underflow_correction` does to a page are parameters. Counts of visited nodes and
the height, which is never updated, are left out; loops are bounded by fuel.
-/
namespace CMVBT.BaselineTree
open PageModel hiding Node
open KeyInterval OrderedMap VersionChain SeparatorRow BaselinePages

variable {K V P : Type} [LinearOrder K]

structure TreeConfig (K V P : Type) [LinearOrder K] where
  keys : KeySpace K
  sizes : Sizes
  index : IndexOps V P
  doUnderflowCorrection : List K → List (Node K V) → ℕ → Except Fault (Node K V)

variable (cfg : TreeConfig K V P)

def hasOverflow (node : Node K V) : Bool :=
  match node.isLeaf with
  | true => node.isOverflow cfg.sizes.allocationLeaf
  | false => node.isOverflow (cfg.sizes.allocationDirectory - 1)

def hasUnderflow (node : Node K V) : Bool :=
  match node.isLeaf with
  | true => node.isUnderflow cfg.sizes.allocationLeaf
  | false => node.isUnderflow cfg.sizes.allocationDirectory

/-! ## Splits -/

/-- The halves of a full page and the separator between them. -/
def halves : Node K V → Except Fault (Node K V × K × Node K V)
  | .index keys children => do
    let keysMid := keys.length / 2
    let k3 ← getUnchecked keys keysMid
    return (.index (keys.take keysMid) (children.take (keysMid + 1)), k3,
      .index (keys.drop (keysMid + 1)) (children.drop (keysMid + 1)))
  | .leaf records => do
    let recordsMid := records.length / 2
    let k3 ← getUnchecked records recordsMid
    return (.leaf (records.take recordsMid), k3.key, .leaf (records.drop recordsMid))

/-- What a retrieval makes of the root, and whether it hands out the guard. -/
inductive RootResult (K V : Type) where
  | ok (root : Node K V)
  | err (root : Node K V)

/-- `retrieve_root_internal`: a full root gets a new level above it. -/
def retrieveRootInternal (root : Node K V) : Except Fault (RootResult K V) :=
  if hasOverflow cfg root then do
    let (left, k3, right) ← halves root
    let newRoot := Node.index [k3] [left, right]
    -- the guard still protects the old root block, which became the left leaf
    if root.isLeaf then return .err newRoot else return .ok newRoot
  else .ok (.ok root)

def retrieveRootOlc : ℕ → Node K V → Except Fault (Node K V)
  | 0, _ => .error .outOfFuel
  | fuel + 1, root => do
    match ← retrieveRootInternal cfg root with
    | .ok root => return root
    | .err root => retrieveRootOlc fuel root

/-- `do_overflow_correction`: the parent after the split of its child. -/
def doOverflowCorrection (keys : List K) (children : List (Node K V)) (childPos : ℕ)
    (from' : Node K V) : Except Fault (Node K V) := do
  let (left, k3, right) ← halves from'
  let children ← insertAt cfg.sizes.fanOut (children.set childPos left) (childPos + 1) right
  let keys ← insertAt (cfg.sizes.fanOut - 1) keys childPos k3
  return .index keys children

/-! ## Descents -/

/-- The child that the search for `key` leads to, with its position. -/
def nextNode (keys : List K) (children : List (Node K V)) (key : K) :
    Except Fault (ℕ × Node K V) := do
  let childPos := position (binarySearchByKey id keys key)
  return (childPos, ← getUnchecked children childPos)

/-- `traversal_write_olc_internal` from a block down: the block after the repairs
and the position of the leaf below it. -/
def traversalWriteOlcInternal (key : K) (appendOp : Bool) :
    ℕ → Node K V → Except Fault (Node K V × List ℕ)
  | 0, _ => .error .outOfFuel
  | _ + 1, .leaf records => .ok (.leaf records, [])
  | fuel + 1, .index keys children => do
    let (childPos, next) ← nextNode keys children (cfg.keys.incKey key)
    if !appendOp && hasOverflow cfg next then
      traversalWriteOlcInternal key appendOp fuel
        (← doOverflowCorrection cfg keys children childPos next)
    else if !appendOp && hasUnderflow cfg next then
      traversalWriteOlcInternal key appendOp fuel
        (← cfg.doUnderflowCorrection keys children childPos)
    else do
      let (next, guard) ← traversalWriteOlcInternal key appendOp fuel next
      return (.index keys (children.set childPos next), childPos :: guard)

def traversalWriteOlcOp (fuel : ℕ) (root : Node K V) (key : K) (appendOp : Bool) :
    Except Fault (Node K V × List ℕ) := do
  let root ← retrieveRootOlc cfg fuel root
  traversalWriteOlcInternal cfg key appendOp fuel root

/-- Applies `f` to the block that a guard protects. -/
def derefMut {A : Type} (f : Node K V → Except Fault (Node K V × A)) :
    List ℕ → Node K V → Except Fault (Node K V × A)
  | [], node => f node
  | pos :: guard, .index keys children => do
    let (child, a) ← derefMut f guard (← getUnchecked children pos)
    return (.index keys (children.set pos child), a)
  | _ :: _, .leaf _ => .error .outOfBounds

/-- `traversal_read_olc`: the records of the leaf. -/
def traversalReadOlc (key : K) :
    ℕ → Node K V → Except Fault (List (VersionedRecordPoint K V))
  | 0, _ => .error .outOfFuel
  | _ + 1, .leaf records => .ok records
  | fuel + 1, .index keys children => do
    let (_, next) ← nextNode keys children (cfg.keys.incKey key)
    traversalReadOlc key fuel next

/-! ## Writes -/

structure VersionTree (K V : Type) where
  root : Node K V
  globalClock : ℕ

def startVersion : ℕ := 1

def newWith : VersionTree K V := ⟨.leaf [], startVersion⟩

inductive CRUDOperation (K P : Type) where
  | insert (key : K) (payload : P)
  | update (key : K) (payload : P)
  | delete (key : K)
deriving DecidableEq, Repr

def CRUDOperation.key : CRUDOperation K P → K
  | .insert key _ => key
  | .update key _ => key
  | .delete key => key

inductive CRUDOperationInnerReason where
  | keyAlreadyDeleted
  | keyDoesNotExist
deriving DecidableEq, Repr

inductive CRUDOperationResult where
  | inserted (version : ℕ)
  | updated (version : ℕ)
  | deleted (version : ℕ)
  | zeroAffected (reason : CRUDOperationInnerReason)
  | error
deriving DecidableEq, Repr

/-- `CRUDOperation::Delete`. Every write draws a version, also one without effect. -/
def dispatchDelete (fuel : ℕ) (tree : VersionTree K V) (key : K) (toss : Bool) :
    Except Fault (VersionTree K V × CRUDOperationResult) := do
  let (root, guard) ← traversalWriteOlcOp cfg fuel tree.root key true
  let delVersion := tree.globalClock
  let (root, result) ← derefMut (Node.deleteKey cfg.index key delVersion toss) guard root
  let tree := ⟨root, delVersion + 1⟩
  match result with
  | .ok (some _) => return (tree, .deleted delVersion)
  | .ok none => return (tree, .zeroAffected .keyDoesNotExist)
  | .error _ => return (tree, .zeroAffected .keyAlreadyDeleted)

/-- `CRUDOperation::Insert`. -/
def dispatchInsert (fuel : ℕ) (tree : VersionTree K V) (key : K) (payload : P)
    (toss : Bool) : Except Fault (VersionTree K V × CRUDOperationResult) := do
  let (root, guard) ← traversalWriteOlcOp cfg fuel tree.root key false
  let ingestVersion := tree.globalClock
  let (root, pushed) ←
    derefMut (Node.pushRecordPoint cfg.index cfg.sizes key payload ingestVersion toss) guard root
  let tree := ⟨root, ingestVersion + 1⟩
  if pushed then return (tree, .inserted ingestVersion) else return (tree, .error)

/-- `CRUDOperation::Update`. -/
def dispatchUpdate (fuel : ℕ) (tree : VersionTree K V) (key : K) (payload : P)
    (toss : Bool) : Except Fault (VersionTree K V × CRUDOperationResult) := do
  let (root, guard) ← traversalWriteOlcOp cfg fuel tree.root key true
  let updateVersion := tree.globalClock
  let (root, result) ←
    derefMut (Node.updateRecordPoint cfg.index key payload updateVersion toss) guard root
  let tree := ⟨root, updateVersion + 1⟩
  match result with
  | .ok (some _) => return (tree, .updated updateVersion)
  | .ok none => return (tree, .zeroAffected .keyDoesNotExist)
  | .error _ => return (tree, .error)

def dispatch (fuel : ℕ) (tree : VersionTree K V) (toss : Bool) :
    CRUDOperation K P → Except Fault (VersionTree K V × CRUDOperationResult)
  | .insert key payload => dispatchInsert cfg fuel tree key payload toss
  | .update key payload => dispatchUpdate cfg fuel tree key payload toss
  | .delete key => dispatchDelete cfg fuel tree key toss

/-- Operations one after the other, each with its coin toss. -/
def TreeConfig.run (fuel : ℕ) : VersionTree K V → List (CRUDOperation K P × Bool) →
    Except Fault (VersionTree K V × List CRUDOperationResult)
  | tree, [] => .ok (tree, [])
  | tree, (operation, toss) :: rest => do
    let (tree, result) ← dispatch cfg fuel tree toss operation
    let (tree, results) ← TreeConfig.run fuel tree rest
    return (tree, result :: results)

/-! ## Point reads and range scans -/

/-- `CRUDOperation::Point`. -/
def TreeConfig.dispatchPoint (fuel : ℕ) (tree : VersionTree K V) (key : K) (version : ℕ) :
    Except Fault (Option (K × P)) := do
  let records ← traversalReadOlc cfg key fuel tree.root
  match Node.searchRecords records key with
  | .ok pos => do
    let record ← getUnchecked records pos
    return (← cfg.index.find version record.versionIndex).map (fun v => (key, v.2))
  | .error _ => return none

/-- A block on the path of a scan with the fence that the separators gave it. -/
abbrev PathEntry (K V : Type) := Interval K × Node K V

/-- The fence of the child at `pos`; at position zero `pos - 1` wraps and finds no key. -/
def childFence (keys : List K) (currInterval : Interval K) (pos : ℕ) : Interval K :=
  ⟨(if pos = 0 then none else keys[pos - 1]?).getD currInterval.lower,
    (keys[pos]?.map cfg.keys.decKey).getD currInterval.upper⟩

/-- `while !curr_interval.contains(next_key)`: the lowest block on the path, from
`parentIndex` up, whose fence holds the key. -/
def ascend (path : List (PathEntry K V)) (nextKey : K) : ℕ → Except Fault ℕ
  | 0 => do
    let (interval, _) ← getUnchecked path 0
    if interval.contains nextKey then return 0 else .error .unwrapNone
  | parentIndex + 1 => do
    let (interval, _) ← getUnchecked path (parentIndex + 1)
    if interval.contains nextKey then return parentIndex + 1 else ascend path nextKey parentIndex

def nextLeafPage (root : Node K V) (nextKey : K) :
    ℕ → List (PathEntry K V) → ℕ → Except Fault (List (PathEntry K V))
  | 0, _, _ => .error .outOfFuel
  | fuel + 1, path, parentIndex => do
    let (path, parentIndex) :=
      if path.length ≤ parentIndex then ([(cfg.keys.full, root)], 0) else (path, parentIndex)
    let parentIndex ← ascend path nextKey parentIndex
    match ← getUnchecked path parentIndex with
    | (currInterval, .index keys children) => do
      let (pos, nextPage) ← nextNode keys children (cfg.keys.incKey nextKey)
      nextLeafPage root nextKey fuel
        (path.insertIdx (parentIndex + 1) (childFence cfg keys currInterval pos, nextPage))
        (parentIndex + 1)
    | (_, .leaf _) => return path.take (parentIndex + 1)

/-- The records that are live at a version, with their payloads. -/
def findAll (index : IndexOps V P) (version : ℕ) :
    List (VersionedRecordPoint K V) → Except Fault (List (K × P))
  | [] => .ok []
  | record :: records => do
    let found ← index.find version record.versionIndex
    let rest ← findAll index version records
    return (found.map (fun v => (record.key, v.2))).toList ++ rest

/-- `range_query_leaf_results`: the path with the leaf on it, and its matches. -/
def rangeQueryLeafResults (root : Node K V) (keyInterval : Interval K) (version : ℕ) :
    ℕ → List (PathEntry K V) → Except Fault (List (PathEntry K V) × List (K × P))
  | 0, _ => .error .outOfFuel
  | fuel + 1, path =>
    match path.getLast? with
    | none => .error .unwrapNone
    | some (_, .leaf records) =>
      let start := partitionPoint (fun r => decide (r.key < keyInterval.lower)) records
      let stop := partitionPoint (fun r => decide (r.key ≤ keyInterval.upper)) records
      if start ≤ stop then do
        let results ← findAll cfg.index version ((records.take stop).drop start)
        return (path, results)
      else .error .outOfBounds
    | some (_, .index _ _) => do
      let rest := path.dropLast
      rangeQueryLeafResults root keyInterval version fuel
        (← nextLeafPage cfg root keyInterval.lower fuel rest (rest.length - 1))

def rangeQueryOlc (root : Node K V) (version : ℕ) :
    ℕ → List (PathEntry K V) → Interval K → Except Fault (List (K × P))
  | 0, _, _ => .error .outOfFuel
  | fuel + 1, path, keyInterval => do
    let (path, localResults) ← rangeQueryLeafResults cfg root keyInterval version fuel path
    match path.getLast? with
    | none => .error .unwrapNone
    | some (leafSpace, _) =>
      let path := path.dropLast
      if leafSpace.upper = cfg.keys.maxKey then return localResults
      else
        let lower := cfg.keys.incKey leafSpace.upper
        if keyInterval.upper < lower then return localResults
        else do
          let path ← nextLeafPage cfg root lower fuel path (path.length - 1)
          return localResults ++ (← rangeQueryOlc root version fuel path ⟨lower, keyInterval.upper⟩)

/-- `CRUDOperation::Range`, the lazy scan. -/
def TreeConfig.dispatchRange (fuel : ℕ) (tree : VersionTree K V) (keyInterval : Interval K)
    (version : ℕ) : Except Fault (List (K × P)) := do
  let path ← nextLeafPage cfg tree.root keyInterval.lower fuel [] 0
  rangeQueryOlc cfg tree.root version fuel path keyInterval

/-! ## The tree with version lists -/

variable {skipMap : Mutable (RecordInfo P)}

structure Config (K : Type) [LinearOrder K] {P : Type} (skipMap : Mutable (RecordInfo P)) where
  keys : KeySpace K
  sizes : Sizes
  vIndexType : VersionIndexType
  /-- Neither `weaver_callback` nor `weaver_scan_dispatch` is part of these operations. -/
  no_weaver : vIndexType ≠ .vWeaver
  doUnderflowCorrection : List K → List (Node K (VersionIndex skipMap)) → ℕ →
    Except Fault (Node K (VersionIndex skipMap))

/-- The operations with the version lists of the configuration. -/
def Config.tree (cfg : Config K skipMap) : TreeConfig K (VersionIndex skipMap) P :=
  ⟨cfg.keys, cfg.sizes, listOps cfg.vIndexType, cfg.doUnderflowCorrection⟩

abbrev MVBPlusTree (K : Type) {P : Type} (skipMap : Mutable (RecordInfo P)) :=
  VersionTree K (VersionIndex skipMap)

def run (cfg : Config K skipMap) (fuel : ℕ) (tree : MVBPlusTree K skipMap)
    (operations : List (CRUDOperation K P × Bool)) :
    Except Fault (MVBPlusTree K skipMap × List CRUDOperationResult) :=
  cfg.tree.run fuel tree operations

def dispatchPoint (cfg : Config K skipMap) (fuel : ℕ) (tree : MVBPlusTree K skipMap) (key : K)
    (version : ℕ) : Except Fault (Option (K × P)) := cfg.tree.dispatchPoint fuel tree key version

def dispatchRange (cfg : Config K skipMap) (fuel : ℕ) (tree : MVBPlusTree K skipMap)
    (keyInterval : Interval K) (version : ℕ) : Except Fault (List (K × P)) :=
  cfg.tree.dispatchRange fuel tree keyInterval version

end CMVBT.BaselineTree
