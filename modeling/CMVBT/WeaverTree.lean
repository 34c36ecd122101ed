import CMVBT.BaselineTree

/-!
# The tree with woven version lists

`MVBPlusTree` with `VersionIndexType::VWEAVER`, `LockingStrategy::OLC`, without
collection and under one thread. The nodes of a version list also hold a link
`k_ridgy` to a node of the next key, which `weaver_callback` sets in the node that a
write put behind a new head. The callback searches for the next key while the write
still holds its latch, so here the cells of the blocks have latch words. The nodes
of a key are known by their versions, which no two writes share.
-/
namespace CMVBT.WeaverTree
open PageModel hiding Node startVersion
open FrugalList KeyInterval OrderedMap VersionChain SeparatorRow BaselinePages BaselineTree

/-! ## Cells and guards -/

/-- A latch word: three flags in its top bits and a count of the writes. -/
structure LatchVersion where
  obsolete : Bool
  write : Bool
  pin : Bool
  count : ℕ
deriving DecidableEq, Repr

namespace LatchVersion

/-- No bit of `WRITE_OBSOLETE_FLAG_VERSION` is set. -/
def readable (cellVersion : LatchVersion) : Bool := !cellVersion.write && !cellVersion.obsolete

/-- `cell_version & !PIN_FLAG_VERSION`. -/
def unpinned (cellVersion : LatchVersion) : LatchVersion := { cellVersion with pin := false }

def readLock (cellVersion : LatchVersion) : Bool × LatchVersion :=
  (cellVersion.readable, cellVersion.unpinned)

def isReadValid (cellVersion readLatch : LatchVersion) : Bool :=
  decide (readLatch = cellVersion.unpinned) && cellVersion.readable

/-- No thread holds the latch. -/
def Free (cellVersion : LatchVersion) : Prop :=
  cellVersion.obsolete = false ∧ cellVersion.write = false ∧ cellVersion.pin = false

end LatchVersion

/-- A block, as the child positions from the root down. -/
abbrev Position := List ℕ

abbrev Cells := Position → LatchVersion

/-- The latch that a write holds on its leaf: `OLCWriter` or `OLCAppendPin`. -/
inductive HeldLatch where
  | writer
  | appendPin
deriving DecidableEq, Repr

def HeldLatch.take (held : HeldLatch) (cellVersion : LatchVersion) : LatchVersion :=
  match held with
  | .writer => { cellVersion with write := true }
  | .appendPin => { cellVersion with pin := true }

def latched (cells : Cells) (held : HeldLatch) (leaf : Position) : Cells :=
  fun pos => if pos = leaf then held.take (cells pos) else cells pos

/-- `OLCReader`: the cell with the word at the time of the read lock, or nothing. -/
abbrev ReadGuard := Option (Position × LatchVersion)

def borrowRead (cells : Cells) (pos : Position) : ReadGuard :=
  let (success, read) := (cells pos).readLock
  if success then some (pos, read) else none

section Guards
variable {K V : Type}

def blockAt : Position → Node K V → Option (Node K V)
  | [], node => some node
  | pos :: rest, .index _ children => children[pos]?.bind (blockAt rest)
  | _ :: _, .leaf _ => none

def derefUnsafe (root : Node K V) : ReadGuard → Option (Node K V)
  | some (pos, _) => blockAt pos root
  | none => none

def deref (cells : Cells) (root : Node K V) : ReadGuard → Option (Node K V)
  | some (pos, latch) => if (cells pos).isReadValid latch then blockAt pos root else none
  | none => none

end Guards

def isValid (cells : Cells) : ReadGuard → Bool
  | some (pos, latch) => (cells pos).isReadValid latch
  | none => false

def isReadNotObsoleteResult (cells : Cells) : ReadGuard → Bool × LatchVersion
  | some (pos, _) => ((cells pos).readable, cells pos)
  | none => (false, ⟨false, false, false, 0⟩)

def updateReadLatch (readLatch : LatchVersion) : ReadGuard → ReadGuard
  | some (pos, _) => some (pos, readLatch)
  | none => none

/-- The cell of a child: `get_child_result` and `lock_reader_olc`. -/
def childGuard (cells : Cells) (pos : ℕ) : ReadGuard → ReadGuard
  | some (parent, _) => borrowRead cells (parent ++ [pos])
  | none => none

/-! ## The search for the next leaf -/

/-- A path of guards with the fences of their blocks. -/
abbrev GuardPath (K : Type) := List (Interval K × ReadGuard)

/-- `parent_index -= 1` on `usize`. -/
def usizePred (parentIndex : ℕ) : ℕ := if parentIndex = 0 then 2 ^ 64 - 1 else parentIndex - 1

variable {K V P : Type} [LinearOrder K]

/-- `while !curr_interval.contains(next_key)`. -/
def climb (path : GuardPath K) (nextKey : K) : ℕ → Except Fault ℕ
  | 0 => do
    let (interval, _) ← getUnchecked path 0
    if interval.contains nextKey then return 0 else .error .unwrapNone
  | parentIndex + 1 => do
    let (interval, _) ← getUnchecked path (parentIndex + 1)
    if interval.contains nextKey then return parentIndex + 1 else climb path nextKey parentIndex

/-- `next_leaf_page` with the guards it takes. -/
def nextLeafPageOlc (cfg : TreeConfig K V P) (cells : Cells) (root : Node K V) (nextKey : K) :
    ℕ → GuardPath K → ℕ → Except Fault (GuardPath K)
  | 0, _, _ => .error .outOfFuel
  | fuel + 1, path, parentIndex =>
    let restart := decide (path.length ≤ parentIndex)
    let rootRead := borrowRead cells []
    if restart && !(isReadNotObsoleteResult cells rootRead).1 then
      nextLeafPageOlc cfg cells root nextKey fuel [] parentIndex
    else do
      let (path, parentIndex) :=
        if restart then ([(cfg.keys.full, rootRead)], 0) else (path, parentIndex)
      let parentIndex ← climb path nextKey parentIndex
      let (currInterval, currParent) ← getUnchecked path parentIndex
      let (read, currentReaderVersion) := isReadNotObsoleteResult cells currParent
      match derefUnsafe root currParent, read with
      | some (.index keys children), true => do
        let (pos, _) ← nextNode keys children (cfg.keys.incKey nextKey)
        let (read, readVersion) := isReadNotObsoleteResult cells currParent
        if !read || decide (readVersion ≠ currentReaderVersion) then
          nextLeafPageOlc cfg cells root nextKey fuel (path.take parentIndex)
            (usizePred parentIndex)
        else
          let path := path.set parentIndex (currInterval, updateReadLatch readVersion currParent)
          nextLeafPageOlc cfg cells root nextKey fuel
            (path.insertIdx (parentIndex + 1)
              (childFence cfg keys currInterval pos, childGuard cells pos currParent))
            (parentIndex + 1)
      | some (.leaf _), true => return path.take (parentIndex + 1)
      | _, _ =>
        nextLeafPageOlc cfg cells root nextKey fuel (path.take parentIndex) (usizePred parentIndex)

/-! ## Woven nodes -/

/-- A node of the list of a key. -/
structure WeaverNode (K P : Type) where
  key : K
  node : FrugalNode (Option P)

/-- The `k_ridgy` cells of all nodes, by the key and the version of the node. -/
abbrev Ridges (K P : Type) := K → ℕ → Option (WeaverNode K P)

def setRidge (ridges : Ridges K P) (key : K) (version : ℕ) (target : WeaverNode K P) : Ridges K P :=
  fun k v => if k = key ∧ v = version then some target else ridges k v

variable {skipMap : Mutable (RecordInfo P)}

abbrev WeaverRecord (K : Type) {P : Type} (skipMap : Mutable (RecordInfo P)) :=
  VersionedRecordPoint K (VersionIndex skipMap)

/-- `find_weaver_node_or_tombstone`. -/
def findWeaverNodeOrTombstone (record : WeaverRecord K skipMap) (version : ℕ) :
    Except Fault (Option (WeaverNode K P)) :=
  match record.versionIndex with
  | .vWeaver head => return (← findFrom head version).map fun node => ⟨record.key, node⟩
  | _ => .ok none

/-- `find_weaver_node`. -/
def findWeaverNode (record : WeaverRecord K skipMap) (version : ℕ) :
    Except Fault (Option (WeaverNode K P)) :=
  match record.versionIndex with
  | .vWeaver head => return (← findChain head version).map fun node => ⟨record.key, node⟩
  | _ => .ok none

structure WeaverConfig (K : Type) [LinearOrder K] {P : Type}
    (skipMap : Mutable (RecordInfo P)) where
  keys : KeySpace K
  sizes : Sizes
  /-- The separator of a full leaf is not its last key. -/
  numRecords_min : 3 ≤ sizes.numRecords
  doUnderflowCorrection : List K → List (Node K (VersionIndex skipMap)) → ℕ →
    Except Fault (Node K (VersionIndex skipMap))
  /-- The latch words while no operation runs; only the flags matter. -/
  cells : Cells
  free : ∀ pos, (cells pos).Free

def WeaverConfig.tree (cfg : WeaverConfig K skipMap) : TreeConfig K (VersionIndex skipMap) P :=
  ⟨cfg.keys, cfg.sizes, listOps .vWeaver, cfg.doUnderflowCorrection⟩

variable (cfg : WeaverConfig K skipMap)

/-! ## Weaving -/

/-- The loop of `weaver_callback` that searches the next key behind the leaf. -/
def findNeighbour (cells : Cells) (root : Node K (VersionIndex skipMap)) (fromKey : K)
    (fromVersion fuel : ℕ) : ℕ → GuardPath K → ℕ → Except Fault (Option (WeaverNode K P))
  | 0, _, _ => .error .outOfFuel
  | attempts + 1, path, parentIndex => do
    let path ← nextLeafPageOlc cfg.tree cells root (cfg.keys.incKey fromKey) fuel path parentIndex
    let parentIndex := path.length - 2
    match path.getLast? with
    | none => .error .unwrapNone
    | some (_, nextLeafGuard) =>
      match deref cells root nextLeafGuard with
      | none => findNeighbour cells root fromKey fromVersion fuel attempts path.dropLast parentIndex
      | some (.index _ _) => .error .unreachable
      | some (.leaf records) =>
        if isValid cells nextLeafGuard then
          match records.find? fun r => decide (fromKey < r.key) with
          | some record => findWeaverNodeOrTombstone record fromVersion
          | none => return none
        else findNeighbour cells root fromKey fromVersion fuel attempts path.dropLast parentIndex

/-- `weaver_callback` for the leaf at `guard`, on which the write holds a latch. -/
def weaverCallback (fuel : ℕ) (root : Node K (VersionIndex skipMap)) (ridges : Ridges K P)
    (guard : Position) (held : HeldLatch) (fromKey : K) (fromVersion : ℕ) :
    Except Fault (Ridges K P) :=
  match blockAt guard root with
  | some (.leaf records) =>
    match Node.searchRecords records fromKey with
    | .error _ => .error .unwrapNone
    | .ok currentRecordIndex => do
      let currentRecord ← getUnchecked records currentRecordIndex
      match ← findWeaverNodeOrTombstone currentRecord fromVersion with
      | none => .error .unwrapNone
      | some currentWeaverNode =>
        match currentWeaverNode.node.next with
        | none => return ridges
        | some currNext =>
          if (ridges fromKey currNext.insertVersion).isSome then return ridges
          else
            let neighbour ←
              if currentRecordIndex + 1 < records.length then do
                let next ← getUnchecked records (currentRecordIndex + 1)
                findWeaverNodeOrTombstone next fromVersion
              else
                let cells := latched cfg.cells held guard
                findNeighbour cfg cells root fromKey fromVersion fuel fuel [] 0
            match neighbour with
            | some nextWeaverNode =>
              return setRidge ridges fromKey currNext.insertVersion nextWeaverNode
            | none => return ridges
  | some (.index _ _) => .error .unreachable
  | none => .error .unwrapNone

/-! ## Operations -/

structure WeaverState (K : Type) {P : Type} (skipMap : Mutable (RecordInfo P)) where
  tree : MVBPlusTree K skipMap
  ridges : Ridges K P

def newWeaver : WeaverState K skipMap := ⟨newWith, fun _ _ => none⟩

/-- `CRUDOperation::Delete`. -/
def weaverDelete (fuel : ℕ) (state : WeaverState K skipMap) (key : K) (toss : Bool) :
    Except Fault (WeaverState K skipMap × CRUDOperationResult) := do
  let (root, guard) ← traversalWriteOlcOp cfg.tree fuel state.tree.root key true
  let delVersion := state.tree.globalClock
  let (root, result) ← derefMut (Node.deleteKey cfg.tree.index key delVersion toss) guard root
  let tree := ⟨root, delVersion + 1⟩
  match result with
  | .ok (some _) =>
    let ridges ← weaverCallback cfg fuel root state.ridges guard .appendPin key delVersion
    return (⟨tree, ridges⟩, .deleted delVersion)
  | .ok none => return (⟨tree, state.ridges⟩, .zeroAffected .keyDoesNotExist)
  | .error _ => return (⟨tree, state.ridges⟩, .zeroAffected .keyAlreadyDeleted)

/-- `CRUDOperation::Insert`. -/
def weaverInsert (fuel : ℕ) (state : WeaverState K skipMap) (key : K) (payload : P) (toss : Bool) :
    Except Fault (WeaverState K skipMap × CRUDOperationResult) := do
  let (root, guard) ← traversalWriteOlcOp cfg.tree fuel state.tree.root key false
  let ingestVersion := state.tree.globalClock
  let (root, pushed) ← derefMut
    (Node.pushRecordPoint cfg.tree.index cfg.sizes key payload ingestVersion toss) guard root
  let tree := ⟨root, ingestVersion + 1⟩
  if pushed then
    let ridges ← weaverCallback cfg fuel root state.ridges guard .writer key ingestVersion
    return (⟨tree, ridges⟩, .inserted ingestVersion)
  else return (⟨tree, state.ridges⟩, .error)

/-- `CRUDOperation::Update`. -/
def weaverUpdate (fuel : ℕ) (state : WeaverState K skipMap) (key : K) (payload : P) (toss : Bool) :
    Except Fault (WeaverState K skipMap × CRUDOperationResult) := do
  let (root, guard) ← traversalWriteOlcOp cfg.tree fuel state.tree.root key true
  let updateVersion := state.tree.globalClock
  let (root, result) ← derefMut
    (Node.updateRecordPoint cfg.tree.index key payload updateVersion toss) guard root
  let tree := ⟨root, updateVersion + 1⟩
  match result with
  | .ok (some _) =>
    let ridges ← weaverCallback cfg fuel root state.ridges guard .appendPin key updateVersion
    return (⟨tree, ridges⟩, .updated updateVersion)
  | .ok none => return (⟨tree, state.ridges⟩, .zeroAffected .keyDoesNotExist)
  | .error _ => return (⟨tree, state.ridges⟩, .error)

def weaverDispatch (fuel : ℕ) (state : WeaverState K skipMap) (toss : Bool) :
    CRUDOperation K P → Except Fault (WeaverState K skipMap × CRUDOperationResult)
  | .insert key payload => weaverInsert cfg fuel state key payload toss
  | .update key payload => weaverUpdate cfg fuel state key payload toss
  | .delete key => weaverDelete cfg fuel state key toss

/-- Operations one after the other, each with its coin toss. -/
def weaverRun (fuel : ℕ) : WeaverState K skipMap → List (CRUDOperation K P × Bool) →
    Except Fault (WeaverState K skipMap × List CRUDOperationResult)
  | state, [] => .ok (state, [])
  | state, (operation, toss) :: rest => do
    let (state, result) ← weaverDispatch cfg fuel state toss operation
    let (state, results) ← weaverRun fuel state rest
    return (state, result :: results)

end CMVBT.WeaverTree
