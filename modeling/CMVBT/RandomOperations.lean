import CMVBT.ReaderHistory

/-!
# Operations on random keys

`InsertRand`, `UpdateRand` and `DeleteRand` walk down to a random leaf and act on
a random key of it. The outcomes of the random generator are an argument, a draw
from `0..n` being taken modulo `n`. Keys are 64-bit words, the only kind that the
source accepts for inserts.

Unlike the descent for a key, the random one may repair several children of one
directory. It starts again from the root only when a repair leaves the directory
in `Overflow`.
-/
namespace CMVBT.RandomOperations
open KeyInterval LastMatch PageModel CommitClock Tracker CMVBT.Tree WritePath

/-- The outcomes of the random generator that are still to come. -/
abbrev Draws := ℕ → ℕ

def Draws.rest (draws : Draws) : Draws := fun i => draws (i + 1)

section Descent
variable {K P : Type} [LinearOrder K] (cfg : Config K)

/-- The loop that turns the number of an active entry into its position. -/
def activePosition : List (Entry K) → ℕ → ℕ → ℕ
  | [], _, index => index
  | e :: es, k, index =>
    if PageUnit.isActive e then
      if index = 0 then k else activePosition es (k + 1) (index - 1)
    else activePosition es (k + 1) index

/-- What one round of the loop in `traversal_write_internal_rand` does. -/
inductive RandomRound (K P : Type) where
  | arrive
  | enter (fence : Interval K) (next : ℕ)
  | repair (fence : Interval K) (t : MVBTSt K P)
  | restart (t : MVBTSt K P)

/-- After a repair the directory is checked for an overflow, and for nothing else. -/
def afterRepair (t : MVBTSt K P) (curr : ℕ) (fence : Interval K) : RandomRound K P :=
  if unsafeDegree cfg (t.heap curr) = .overflow then .restart t else .repair fence t

def randomRound (t : MVBTSt K P) (curr : ℕ) (draws : Draws) : Except Fault (RandomRound K P) :=
  let live := (t.heap curr).activeDeadCount.1
  let index := if live = 0 then 0 else draws 0 % live
  match t.heap curr with
  | .leaf _ => .ok .arrive
  | .internal page =>
    let index := activePosition page.asUnits 0 index
    -- both `assert!`s of the source
    match page.asUnits[index]? with
    | none => .error .unreachable
    | some e =>
      if e.obsolete then .error .unreachable
      else
        match unsafeDegree cfg (t.heap e.pointer) with
        | .overflow => do
          let t ← onOverflowNode cfg t curr e.pointer index
          return afterRepair cfg t curr e.fence
        | .activeUnderflow => do
          match ← onUnderflowNode cfg t curr e.pointer index with
          | some t => return afterRepair cfg t curr e.fence
          | none => return .restart t
        | .ok => .ok (.enter e.fence e.pointer)

/-- The draws after a round. -/
def drawsAfter (t : MVBTSt K P) (curr : ℕ) (draws : Draws) : Draws :=
  if (t.heap curr).activeDeadCount.1 = 0 then draws else draws.rest

/-- `traversal_write_rand_query` with the loop of its attempts: `none` is the
beginning of an attempt, `some` the guard and the fence of the loop inside. -/
def traversalWriteRand : ℕ → MVBTSt K P → Option (ℕ × Interval K) → Draws →
    Except Fault (MVBTSt K P × Interval K × ℕ × Draws)
  | 0, _, _, _ => .error .outOfFuel
  | fuel + 1, t, none, draws => do
    let (t, root) ← retrieveRootWriteOlc cfg t
    traversalWriteRand fuel t (some (root, cfg.keys.full)) draws
  | fuel + 1, t, some (curr, fence), draws => do
    match ← randomRound cfg t curr draws with
    | .arrive => return (t, fence, curr, drawsAfter t curr draws)
    | .enter fence next => traversalWriteRand fuel t (some (next, fence)) (drawsAfter t curr draws)
    | .repair fence t' => traversalWriteRand fuel t' (some (curr, fence)) (drawsAfter t curr draws)
    | .restart t' => traversalWriteRand fuel t' none (drawsAfter t curr draws)

end Descent

/-! ## The operations -/

inductive RandomResult (K : Type) where
  | insertedRand (key : K) (version : ℕ)
  | updatedRand (key : K) (version : ℕ)
  | deletedRand (key : K) (version : ℕ)
  | zeroAffected (reason : InnerReason)
deriving DecidableEq, Repr

section Operations
variable {K P : Type} [LinearOrder K] [Inhabited K] [Inhabited P] (cfg : Config K)

/-- The key of the live record with number `index`. -/
def liveKey (page : LeafPage K P) (index : ℕ) : K :=
  ((page.asUnits.filter PageUnit.isActive)[index]?.map RecordPoint.key).getD default

/-- The in-place branch of `UpdateRand`: the record is revived and the lengths are
shifted, whether or not the record was deleted. -/
def overwriteRand (page : LeafPage K P) (i : ℕ) : LeafPage K P :=
  let page : LeafPage K P := { page with units := page.units.modify i (fun r =>
    { r with payload := default, version := { r.version with deleteVersion := none } }) }
  page.commitDelta 1 (-1)

def dispatchUpdateRand (fuel : ℕ) (t : MVBTSt K P) (draws : Draws) :
    Except Fault (MVBTSt K P × RandomResult K) := do
  let (t, _, leaf, draws) ← traversalWriteRand cfg fuel t none draws
  let page ← asLeafPage t leaf
  let live := page.activeDeadCount.1
  if live = 0 then .error .emptyRange
  else
    let key := liveKey page (draws 0 % live)
    match inPlaceTarget t page key with
    | some i =>
      let (commit, version) := t.commit.currentVersionForReader t.tid
      return ({ t.setNode leaf (.leaf (overwriteRand page i)) with commit := commit },
        .updatedRand key version)
    | none =>
      let (t, version) := t.startTxCommit
      let page ← page.pushUncommitted cfg.numRecords ⟨key, .new version, default⟩ page.sumLen
      let page := page.commitDelta 1 0
      -- `undo_uncommitted` drops the slot and leaves the length word as it is
      match LeafPage.deleteAfterUpdate page key version with
      | (page, .ok (some _)) =>
        let t := t.setNode leaf (.leaf (page.commitDelta (-1) 1))
        return (t.endTxCommit version, .updatedRand key version)
      | (page, .ok none) =>
        return (t.setNode leaf (.leaf page), .zeroAffected .keyDoesNotExist)
      | (page, .error ()) =>
        return (t.setNode leaf (.leaf page), .zeroAffected .keyAlreadyDeleted)

def dispatchDeleteRand (fuel : ℕ) (t : MVBTSt K P) (draws : Draws) :
    Except Fault (MVBTSt K P × RandomResult K) := do
  let (t, _, leaf, draws) ← traversalWriteRand cfg fuel t none draws
  let page ← asLeafPage t leaf
  let live := page.activeDeadCount.1
  if live = 0 then .error .emptyRange
  else
    let key := liveKey page (draws 0 % live)
    let (t, version) := t.startTxCommit
    match LeafPage.delete page key version with
    | (page, .ok (some _)) =>
      let t := t.setNode leaf (.leaf (page.commitDelta (-1) 1))
      return (t.endTxCommit version, .deletedRand key version)
    | (_, .ok none) => return (t, .zeroAffected .keyDoesNotExist)
    | (_, .error ()) => return (t, .zeroAffected .keyAlreadyDeleted)

end Operations

section Insert
variable {P : Type} [Inhabited P] (cfg : Config UInt64)

def randAttemptsMax : ℕ := 10

/-- `random_range(min..=max)`. -/
def randomKey (fence : Interval UInt64) (draw : ℕ) : UInt64 :=
  UInt64.ofNat (fence.lower.toNat + draw % (fence.upper.toNat - fence.lower.toNat + 1))

/-- The search for a key that is not live, with the attempts that are left. -/
def generateKey (page : LeafPage UInt64 P) (fence : Interval UInt64) :
    ℕ → Draws → Option UInt64 × Draws
  | left, draws =>
    let key := randomKey fence (draws 0)
    if ((lastRecord page key).map (fun r => !r.version.isDeleted)).getD false then
      match left with
      | 0 => (none, draws.rest)
      | left + 1 => generateKey page fence left draws.rest
    else (some key, draws.rest)

/-- One call of `InsertRand`; without a key it calls itself again. -/
def insertRandOnce (fuel : ℕ) (t : MVBTSt UInt64 P) (draws : Draws) :
    Except Fault (MVBTSt UInt64 P × Option (RandomResult UInt64) × Draws) := do
  let (t, fence, leaf, draws) ← traversalWriteRand cfg fuel t none draws
  let page ← asLeafPage t leaf
  if fence.upper < fence.lower then .error .emptyRange
  else
    match generateKey page fence randAttemptsMax draws with
    | (none, draws) => return (t, none, draws)
    | (some key, draws) =>
      let (t, version) := t.startTxCommit
      let page ← page.pushUncommitted cfg.numRecords ⟨key, .new version, default⟩ page.sumLen
      let t := t.setNode leaf (.leaf (page.commitDelta 1 0))
      return (t.endTxCommit version, some (.insertedRand key version), draws)

def dispatchInsertRand (fuel : ℕ) : ℕ → MVBTSt UInt64 P → Draws →
    Except Fault (MVBTSt UInt64 P × RandomResult UInt64)
  | 0, _, _ => .error .outOfFuel
  | calls + 1, t, draws => do
    match ← insertRandOnce cfg fuel t draws with
    | (t, some result, _) => return (t, result)
    | (t, none, draws) => dispatchInsertRand fuel calls t draws

end Insert

end CMVBT.RandomOperations
