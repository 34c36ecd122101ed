import CMVBT.Tree

/-!
# The write descent and the three write operations

`traversal_write_internal_olc` starts at a root that is neither full nor down to
a single child and repairs each unsafe child before entering it. One thread runs
alone here, so an attempt fails only where the source finds no child for the key
or no sibling to merge with; such an attempt ends the model with `retry`.

The loop of the descent gets two rounds per level of the tree: one to repair the
child and one to enter it.
-/
namespace CMVBT.WritePath
open KeyInterval LastMatch PageModel CommitClock Tracker CMVBT.Tree

variable {K P : Type} [LinearOrder K] (cfg : Config K)

def retrieveRootWriteOlc (t : MVBTSt K P) : Except Fault (MVBTSt K P × ℕ) :=
  let (root, height) := t.currentRoot
  match unsafeDegreeRoot cfg (t.heap root) with
  | .overflow => splitRoot cfg t root height
  | .activeUnderflow => mergeRoot cfg t root height
  | .ok => .ok (t, root)

/-- The child that a write of `key` continues in. -/
def activeIndex (page : InternalPage K) (key : K) : Option ℕ :=
  lastIdx? (fun e => PageUnit.isActive e && e.fence.contains key) page.asUnits

/-- The loop of `traversal_write_internal_olc` from block `curr` on. -/
def descend : ℕ → MVBTSt K P → ℕ → K → Except Fault (MVBTSt K P × ℕ)
  | 0, _, _, _ => .error .outOfFuel
  | fuel + 1, t, curr, key =>
    match t.heap curr with
    | .leaf _ => .ok (t, curr)
    | .internal page =>
      match activeIndex page key with
      | none => .error .retry
      | some index => do
        let next ← getPointer t curr index
        match unsafeDegree cfg (t.heap next) with
        | .overflow =>
          let t ← onOverflowNode cfg t curr next index
          descend fuel t curr key
        | .activeUnderflow =>
          match ← onUnderflowNode cfg t curr next index with
          | some t => descend fuel t curr key
          | none => .error .retry
        | .ok => descend fuel t next key

def traversalWriteOlc (t : MVBTSt K P) (key : K) : Except Fault (MVBTSt K P × ℕ) := do
  let (t, root) ← retrieveRootWriteOlc cfg t
  descend cfg (2 * t.currentRoot.2) t root key

inductive WriteOperation (K P : Type) where
  | insert (key : K) (payload : P)
  | update (key : K) (payload : P)
  | delete (key : K)
deriving DecidableEq, Repr

inductive InnerReason where
  | keyAlreadyDeleted
  | keyDoesNotExist
  | keyAlreadyExists
deriving DecidableEq, Repr

inductive WriteResult where
  | inserted (version : ℕ)
  | updated (version : ℕ)
  | deleted (version : ℕ)
  | zeroAffected (reason : InnerReason)
deriving DecidableEq, Repr

def asLeafPage (t : MVBTSt K P) (b : ℕ) : Except Fault (LeafPage K P) :=
  match t.heap b with
  | .leaf p => .ok p
  | .internal _ => .error .unreachable

/-- The last record of `key` in a leaf. -/
def lastRecord (page : LeafPage K P) (key : K) : Option (RecordPoint K P) :=
  page.asUnits.findRev? (fun r => r.key == key)

def dispatchInsert (t : MVBTSt K P) (key : K) (payload : P) :
    Except Fault (MVBTSt K P × WriteResult) := do
  let (t, leaf) ← traversalWriteOlc cfg t key
  let page ← asLeafPage t leaf
  if ((lastRecord page key).map (fun r => !r.version.isDeleted)).getD false then
    return (t, .zeroAffected .keyAlreadyExists)
  else
    let (t, version) := t.startTxCommit
    let page ← page.pushUncommitted cfg.numRecords ⟨key, .new version, payload⟩ page.sumLen
    let t := t.setNode leaf (.leaf (page.commitDelta 1 0))
    return (t.endTxCommit version, .inserted version)

/-- The record that an update may overwrite: no reader that is registered or
about to draw its snapshot can see a version from before the overwrite. -/
def inPlaceTarget (t : MVBTSt K P) (page : LeafPage K P) (key : K) : Option ℕ :=
  match t.tracker with
  | none => none
  | some tracker =>
    if t.updateInPlace then
      match lastIdx? (fun r => r.key == key) page.asUnits with
      | none => none
      | some i =>
        match tracker.newestLiveSi with
        | some newest =>
          if (page.units[i]?.map (fun r => decide (newest < r.version.insertVersion))).getD false
          then some i else none
        | none => some i
    else none

/-- Overwrites the record in its slot and revives it if it was deleted. -/
def overwriteInPlace (page : LeafPage K P) (i : ℕ) (payload : P) : LeafPage K P :=
  match page.units[i]? with
  | none => page
  | some r =>
    let revived := { r with payload := payload, version := { r.version with deleteVersion := none } }
    let page' : LeafPage K P := { page with units := page.units.set i revived }
    if r.version.isDeleted then page'.commitDelta 1 (-1) else page'

def dispatchUpdate (t : MVBTSt K P) (key : K) (payload : P) :
    Except Fault (MVBTSt K P × WriteResult) := do
  let (t, leaf) ← traversalWriteOlc cfg t key
  let page ← asLeafPage t leaf
  match inPlaceTarget t page key with
  | some i =>
    return (t.setNode leaf (.leaf (overwriteInPlace page i payload)), .updated t.currentVersion)
  | none =>
    match lastRecord page key with
    | none => return (t, .zeroAffected .keyDoesNotExist)
    | some r =>
      if r.version.isDeleted then return (t, .zeroAffected .keyAlreadyDeleted)
      else
        let (t, version) := t.startTxCommit
        let page ← page.pushUncommitted cfg.numRecords ⟨key, .new version, payload⟩ page.sumLen
        let page := page.commitDelta 1 0
        match LeafPage.deleteAfterUpdate page key version with
        | (page, .ok (some _)) =>
          let t := t.setNode leaf (.leaf (page.commitDelta (-1) 1))
          return (t.endTxCommit version, .updated version)
        | _ => .error .unwrapNone

/-- A delete draws its version before it looks for the record; a delete that
finds nothing leaves that version unused and does not end its commit. -/
def dispatchDelete (t : MVBTSt K P) (key : K) : Except Fault (MVBTSt K P × WriteResult) := do
  let (t, leaf) ← traversalWriteOlc cfg t key
  let page ← asLeafPage t leaf
  let (t, version) := t.startTxCommit
  match LeafPage.delete page key version with
  | (page, .ok (some _)) =>
    let t := t.setNode leaf (.leaf (page.commitDelta (-1) 1))
    return (t.endTxCommit version, .deleted version)
  | (_, .ok none) => return (t, .zeroAffected .keyDoesNotExist)
  | (_, .error ()) => return (t, .zeroAffected .keyAlreadyDeleted)

def dispatchWrite (t : MVBTSt K P) : WriteOperation K P → Except Fault (MVBTSt K P × WriteResult)
  | .insert key payload => dispatchInsert cfg t key payload
  | .update key payload => dispatchUpdate cfg t key payload
  | .delete key => dispatchDelete cfg t key

/-- A history of operations, one after another, with their answers. -/
def runWrites (t : MVBTSt K P) : List (WriteOperation K P) →
    Except Fault (MVBTSt K P × List WriteResult)
  | [] => .ok (t, [])
  | op :: ops => do
    let (t, r) ← dispatchWrite cfg t op
    let (t, rs) ← runWrites t ops
    return (t, r :: rs)

/-- `MVBTSt::make` with the default root index: one empty leaf at the start
version, no tracker. -/
def make (tosses : ℕ → FrugalList.Toss) (threads tid : ℕ) : MVBTSt K P where
  heap := fun _ => Node.newLeaf
  nextBlock := 1
  root := FrugalList.new (0, 1) startVersion
  tosses := tosses
  commit := CommitState.new threads
  tid := tid
  tracker := none
  updateInPlace := false

/-- `enable_gc` on a tree. -/
def enableGc (t : MVBTSt K P) (updateInPlace : Bool) : MVBTSt K P :=
  { t with tracker := some TrackerHandle.new, updateInPlace := updateInPlace }

end CMVBT.WritePath
