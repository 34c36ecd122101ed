import CMVBT.Halving
import CMVBT.FrugalList
import CMVBT.Tracker
import Mathlib.Logic.Function.Basic

/-!
# The tree and its structure modifications

The state of a cMVBT as one thread sees it, and the functions of `smo.rs` on it.
Blocks are numbers into a heap of nodes; a reference-counted block that nobody
reaches any more simply stays there. Latches are absent: a single thread finds
every latch free, so each `upgrade_write_lock` answers `true`.

Leaves and directories are split and merged by the same code with different
accessors, collected in `PageKind`. The `debug_assert!`s of the source are not
part of the release build and have no counterpart.
-/
namespace CMVBT.Tree
open KeyInterval LastMatch Halving PageModel FrugalList CommitClock Tracker

/-- The const generics of `MVBTSt` and its key fields. -/
structure Config (K : Type) [LinearOrder K] where
  fanOut : ℕ
  numRecords : ℕ
  keys : KeySpace K

/-- `tosses` are the outcomes of the coin tosses still to come, `tid` is the
thread that executes all operations. -/
structure MVBTSt (K P : Type) where
  heap : ℕ → Node K P
  nextBlock : ℕ
  root : FrugalNode (ℕ × ℕ)
  tosses : ℕ → Toss
  commit : CommitState
  tid : ℕ
  tracker : Option TrackerHandle
  updateInPlace : Bool

/-! ## Occupancy -/

section Occupancy
variable {K P : Type} [LinearOrder K] (cfg : Config K)

inductive BlockUnsafeDegree where
  | ok
  | overflow
  | activeUnderflow
deriving DecidableEq, Repr

def maxUnits (n : Node K P) : ℕ := if n.isLeaf then cfg.numRecords else cfg.fanOut

def filling40Percent (n : Node K P) : ℕ := (2 * maxUnits cfg n + 4) / 5

def filling80Percent (n : Node K P) : ℕ := (4 * maxUnits cfg n + 4) / 5

def filling20Percent (n : Node K P) : ℕ := (maxUnits cfg n + 4) / 5

/-- Leaves overflow when full, directories one slot earlier. -/
def overflowUnitsCount (n : Node K P) : ℕ :=
  if n.isLeaf then cfg.numRecords else cfg.fanOut - 1

def unsafeDegree (n : Node K P) : BlockUnsafeDegree :=
  let (active, dead) := n.activeDeadCount
  let oneD := filling20Percent cfg n
  if active ≤ oneD then .activeUnderflow
  else
    let isOverflow := decide (overflowUnitsCount cfg n ≤ active + dead)
    if isOverflow && decide (active ≤ oneD * 2) then .activeUnderflow
    else if isOverflow then .overflow
    else .ok

def unsafeDegreeRoot (n : Node K P) : BlockUnsafeDegree :=
  let (active, dead) := n.activeDeadCount
  if active = 1 ∧ n.isLeaf = false then .activeUnderflow
  else if overflowUnitsCount cfg n ≤ active + dead then .overflow
  else .ok

end Occupancy

namespace MVBTSt
variable {K P : Type}

/-! ## Blocks, versions, roots -/

def setNode (t : MVBTSt K P) (b : ℕ) (n : Node K P) : MVBTSt K P :=
  { t with heap := Function.update t.heap b n }

theorem setNode_self (t : MVBTSt K P) (b : ℕ) (n : Node K P) : (t.setNode b n).heap b = n := by
  simp [setNode]

theorem setNode_other (t : MVBTSt K P) {b c : ℕ} (hc : c ≠ b) (n : Node K P) :
    (t.setNode b n).heap c = t.heap c := by
  simp [setNode, hc]

/-- A block of the graveyard if the tracker frees one, else a fresh block. -/
def allocBlock (t : MVBTSt K P) (leaf : Bool) : MVBTSt K P × ℕ :=
  let fresh := ({ t with nextBlock := t.nextBlock + 1 }.setNode t.nextBlock
    (if leaf then Node.newLeaf else Node.newInternal), t.nextBlock)
  match t.tracker with
  | none => fresh
  | some tracker =>
    match tracker.freeBlock t.commit with
    | (tracker, commit, some block) =>
      ({ t with tracker := some tracker, commit := commit }.setNode block
        ((t.heap block).onReuse leaf), block)
    | (tracker, commit, none) =>
      ({ fresh.1 with tracker := some tracker, commit := commit }, fresh.2)

def registerDead (t : MVBTSt K P) (version : ℕ) (page : ℕ) : MVBTSt K P :=
  { t with tracker := t.tracker.map (fun tracker => tracker.registerDiedPage version page) }

def startTxCommit (t : MVBTSt K P) : MVBTSt K P × ℕ :=
  let (commit, version) := t.commit.startCommit t.tid
  ({ t with commit := commit }, version)

def endTxCommit (t : MVBTSt K P) (version : ℕ) : MVBTSt K P :=
  { t with commit := t.commit.endCommit t.tid version }

def currentVersion (t : MVBTSt K P) : ℕ := t.commit.currentVersion

/-- Block and height of the current root. -/
def currentRoot (t : MVBTSt K P) : ℕ × ℕ := t.root.payload

def appendRoot (t : MVBTSt K P) (block : ℕ) (version : ℕ) (height : ℕ) :
    Except Fault (MVBTSt K P) := do
  let root ← append t.root (block, height) version (t.tosses 0)
  return { t with root := root, tosses := fun i => t.tosses (i + 1) }

/-- Block and height of the root for a snapshot. -/
def rootFor (t : MVBTSt K P) (si : ℕ) : Except Fault (ℕ × ℕ) := do
  match ← findFrom t.root si with
  | some node => return node.payload
  | none => .error .unwrapNone

def asInternalPage (t : MVBTSt K P) (b : ℕ) : Except Fault (InternalPage K) :=
  match t.heap b with
  | .internal p => .ok p
  | .leaf _ => .error .unreachable

end MVBTSt

/-! ## Splits and merges -/

/-- Accessors by which the code for leaves differs from the code for directories.
`takeFirst` is the comparison of the redistribution (`<=` on record keys, `<` on
fence borders), `used` the length that `bulk_push` starts at. -/
structure PageKind (K P α : Type) where
  isLeaf : Bool
  wrap : Page α → Node K P
  unwrap : Node K P → Option (Page α)
  takeFirst : α → α → Bool
  used : Page α → ℕ

section Kinds
variable {K P : Type} [LinearOrder K]

def leafKind : PageKind K P (RecordPoint K P) where
  isLeaf := true
  wrap := .leaf
  unwrap
    | .leaf p => some p
    | .internal _ => none
  takeFirst f s := decide (f.key ≤ s.key)
  used p := p.sumLen

def internalKind : PageKind K P (Entry K) where
  isLeaf := false
  wrap := .internal
  unwrap
    | .internal p => some p
    | .leaf _ => none
  takeFirst f s := decide (f.fence.lower < s.fence.lower)
  used p := activeLen p.len

end Kinds

inductive BlockSplit (K : Type) where
  | byKey (leftFence : Interval K) (left : ℕ) (rightFence : Interval K) (right : ℕ)
  | byVersion (fresh : ℕ)
deriving DecidableEq, Repr

inductive MergeResult (K : Type) where
  | merged (sibling : ℕ) (fence : Interval K) (block : ℕ)
  | keySplit (sibling : ℕ) (split : BlockSplit K)
  | error
deriving DecidableEq, Repr

section Modifications
variable {K P α : Type} [LinearOrder K] [PageUnit K α] (cfg : Config K)

def PageKind.cap (kind : PageKind K P α) : ℕ := if kind.isLeaf then cfg.numRecords else cfg.fanOut

/-- The active units of a page of the expected kind. -/
def PageKind.active (kind : PageKind K P α) (t : MVBTSt K P) (b : ℕ) :
    Except Fault (List α) :=
  match kind.unwrap (t.heap b) with
  | some p => .ok p.activeUnits
  | none => .error .unreachable

def PageKind.bulkPush (kind : PageKind K P α) (t : MVBTSt K P) (b : ℕ) (us : List α) :
    Except Fault (MVBTSt K P) :=
  match kind.unwrap (t.heap b) with
  | some p => do
    let p ← p.bulkPush (kind.cap cfg) (kind.used p) us
    return t.setNode b (kind.wrap p)
  | none => .error .unreachable

/-- The cut that key splits and redistributions share. `get_unchecked(0)` of an
empty second half reads past the slice. -/
def cutAtMiddle (joined : List α) : Except Fault (List α × K × List α) :=
  match halve PageUnit.key PageUnit.stamp joined with
  | some cut => .ok cut
  | none => .error .outOfBounds

/-- `split` on a page of one kind. -/
def splitPage (kind : PageKind K P α) (t : MVBTSt K P) (block : ℕ) (fence : Interval K) :
    Except Fault (MVBTSt K P × BlockSplit K) :=
  let node := t.heap block
  if filling80Percent cfg node ≤ node.activeDeadCount.1 then do
    let (t, left) := t.allocBlock kind.isLeaf
    let (t, right) := t.allocBlock kind.isLeaf
    let units ← kind.active t block
    let (first, m, second) ← cutAtMiddle (sortedBy PageUnit.key units)
    let t ← kind.bulkPush cfg t left first
    let t ← kind.bulkPush cfg t right second
    return (t, .byKey ⟨fence.lower, cfg.keys.decKey m⟩ left ⟨m, fence.upper⟩ right)
  else do
    let (t, fresh) := t.allocBlock kind.isLeaf
    let units ← kind.active t block
    let t ← kind.bulkPush cfg t fresh units
    return (t, .byVersion fresh)

/-- Key split from 80 percent active units on, version split below. -/
def split (t : MVBTSt K P) (block : ℕ) (fence : Interval K) :
    Except Fault (MVBTSt K P × BlockSplit K) :=
  if (t.heap block).isLeaf then splitPage cfg leafKind t block fence
  else splitPage cfg internalKind t block fence

/-- Index, child and fence of the active siblings, in key order. -/
def mergeCandidates (page : InternalPage K) (simbaIndex : ℕ) : List (ℕ × ℕ × Interval K) :=
  sortedBy (fun c => c.2.2.lower)
    ((page.asUnits.zipIdx.filter (fun (e, i) => i != simbaIndex && PageUnit.isActive e)).map
      (fun (e, i) => (i, e.pointer, e.fence)))

/-- The binary search for the lower border of simba's fence: the first sibling
from there on, else the last one before it. -/
def computeCandidate (candidates : List (ℕ × ℕ × Interval K)) (lower : K) :
    Option (ℕ × ℕ × Interval K) :=
  (candidates.find? (fun c => decide (lower ≤ c.2.2.lower))).or candidates.getLast?

/-- Both children on one page, or redistributed over two pages. -/
def mergePages (kind : PageKind K P α) (t : MVBTSt K P) (simba : ℕ) (simbaFence : Interval K)
    (candidate : ℕ × ℕ × Interval K) : Except Fault (MVBTSt K P × MergeResult K) :=
  let (candidateIndex, candidateBlock, candidateFence) := candidate
  let simbaActive := (t.heap simba).activeDeadCount.1
  let candidateActive := (t.heap candidateBlock).activeDeadCount.1
  if candidateActive + simbaActive ≤ 4 * maxUnits cfg (t.heap simba) / 5 then do
    let (t, combined) := t.allocBlock kind.isLeaf
    let units ← kind.active t simba
    let cUnits ← kind.active t candidateBlock
    let t ← kind.bulkPush cfg t combined
      (units.merge cUnits (fun f s => decide (PageUnit.stamp f ≤ PageUnit.stamp s)))
    return (t, .merged candidateIndex candidateFence combined)
  else do
    let cUnits ← kind.active t candidateBlock
    let units ← kind.active t simba
    let (first, m, second) ← cutAtMiddle
      ((sortedBy PageUnit.key cUnits).merge (sortedBy PageUnit.key units) kind.takeFirst)
    let (t, left) := t.allocBlock kind.isLeaf
    let (t, right) := t.allocBlock kind.isLeaf
    let t ← kind.bulkPush cfg t left first
    let t ← kind.bulkPush cfg t right second
    return (t, .keySplit candidateIndex (.byKey
      ⟨min candidateFence.lower simbaFence.lower, cfg.keys.decKey m⟩ left
      ⟨m, max candidateFence.upper simbaFence.upper⟩ right))

def merge (t : MVBTSt K P) (mufasa simba : ℕ) (simbaIndex : ℕ) :
    Except Fault (MVBTSt K P × MergeResult K) := do
  let page ← t.asInternalPage mufasa
  match page.units[simbaIndex]? with
  | none => .error .outOfBounds
  | some entry =>
    match computeCandidate (mergeCandidates page simbaIndex) entry.fence.lower with
    | none => return (t, .error)
    | some candidate =>
      if (t.heap simba).isLeaf then mergePages cfg leafKind t simba entry.fence candidate
      else mergePages cfg internalKind t simba entry.fence candidate

/-- The writes of a structure modification into the parent: new entries behind
the last one, the length delta, then the obsolete marks. -/
def replaceEntries (t : MVBTSt K P) (mufasa : ℕ) (fresh : List (Entry K))
    (activeDelta deadDelta : ℤ) (dead : List ℕ) : Except Fault (MVBTSt K P) := do
  let page ← t.asInternalPage mufasa
  let len := page.sumLen
  let page ← fresh.zipIdx.foldlM
    (fun page (e, i) => page.pushUncommitted cfg.fanOut e (len + i)) page
  let page := page.commitDelta activeDelta deadDelta
  let page := dead.foldl InternalPage.markVersionObsolete page
  return t.setNode mufasa (.internal page)

def getKey (t : MVBTSt K P) (b : ℕ) (index : ℕ) : Except Fault (Interval K) := do
  let page ← t.asInternalPage b
  match page.units[index]? with
  | some e => return e.fence
  | none => .error .outOfBounds

def getPointer (t : MVBTSt K P) (b : ℕ) (index : ℕ) : Except Fault ℕ := do
  let page ← t.asInternalPage b
  match page.units[index]? with
  | some e => return e.pointer
  | none => .error .outOfBounds

def onOverflowNode (t : MVBTSt K P) (mufasa simba : ℕ) (childIndex : ℕ) :
    Except Fault (MVBTSt K P) := do
  let fence ← getKey t mufasa childIndex
  let (t, split) ← split cfg t simba fence
  match split with
  | .byKey leftFence left rightFence right =>
    let (t, version) := t.startTxCommit
    let t ← replaceEntries cfg t mufasa
      [.new leftFence version left, .new rightFence version right] 1 1 [childIndex]
    let t := t.endTxCommit version
    return t.registerDead version (← getPointer t mufasa childIndex)
  | .byVersion fresh =>
    let (t, version) := t.startTxCommit
    let t ← replaceEntries cfg t mufasa [.new fence version fresh] 0 1 [childIndex]
    let t := t.endTxCommit version
    return t.registerDead version (← getPointer t mufasa childIndex)

/-- `none` is the `Err(())` of the source: there was nothing to merge with. -/
def onUnderflowNode (t : MVBTSt K P) (mufasa simba : ℕ) (indexSimba : ℕ) :
    Except Fault (Option (MVBTSt K P)) := do
  let (t, result) ← merge cfg t mufasa simba indexSimba
  match result with
  | .merged indexSibling fenceSibling mergedBlock =>
    let fence ← getKey t mufasa indexSimba
    let (t, version) := t.startTxCommit
    let t ← replaceEntries cfg t mufasa
      [.new (fence.merged fenceSibling) version mergedBlock] (-1) 2 [indexSibling, indexSimba]
    let t := t.registerDead version (← getPointer t mufasa indexSimba)
    let t := t.registerDead version (← getPointer t mufasa indexSibling)
    return some (t.endTxCommit version)
  | .keySplit indexSibling (.byKey leftInterval left rightInterval right) =>
    let (t, version) := t.startTxCommit
    let t ← replaceEntries cfg t mufasa
      [.new leftInterval version left, .new rightInterval version right] 0 2
      [indexSibling, indexSimba]
    let t := t.registerDead version (← getPointer t mufasa indexSimba)
    let t := t.registerDead version (← getPointer t mufasa indexSibling)
    return some (t.endTxCommit version)
  | _ => return none

def splitRoot (t : MVBTSt K P) (root : ℕ) (height : ℕ) :
    Except Fault (MVBTSt K P × ℕ) := do
  let (t, split) ← split cfg t root cfg.keys.full
  match split with
  | .byKey leftFence left rightFence right =>
    let (t, newRoot) := t.allocBlock false
    let (t, version) := t.startTxCommit
    let t ← replaceEntries cfg t newRoot
      [.new leftFence version left, .new rightFence version right] 2 0 []
    let t ← t.appendRoot newRoot version (height + 1)
    let t := t.endTxCommit version
    return (t.registerDead version root, newRoot)
  | .byVersion newRoot =>
    let (t, version) := t.startTxCommit
    let t ← t.appendRoot newRoot version height
    let t := t.endTxCommit version
    return (t.registerDead version root, newRoot)

/-- The last child of a root with a single active child takes its place. -/
def mergeRoot (t : MVBTSt K P) (root : ℕ) (height : ℕ) :
    Except Fault (MVBTSt K P × ℕ) := do
  let page ← t.asInternalPage root
  let child ← getPointer t root (page.sumLen - 1)
  splitRoot cfg t child (height - 1)

end Modifications

end CMVBT.Tree
