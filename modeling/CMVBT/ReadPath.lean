import CMVBT.WritePath

/-!
# Point reads and the lazy range iterator

Both start at the root that was current at the snapshot. A directory is searched
from its newest entry backwards for one that existed at the snapshot and covers
the key; the obsolete mark is ignored. The iterator keeps the path from the root
and moves its lower border behind each fence it has finished.
-/
namespace CMVBT.ReadPath
open KeyInterval LastMatch PageModel CommitClock Tracker CMVBT.Tree WritePath

variable {K P : Type} [LinearOrder K]

/-- Fence and child of the entry that a read of `key` at `lookup` follows. -/
def routeAt (units : List (Entry K)) (lookup : ℕ) (key : K) : Option (Interval K × ℕ) :=
  (units.findRev? (fun e => e.matched lookup && e.fence.contains key)).map
    (fun e => (e.fence, e.pointer))

/-- `traverse_read_key`; the first argument bounds the number of pages visited. -/
def traverseReadKey (t : MVBTSt K P) : ℕ → ℕ → K → ℕ → Except Fault (LeafPage K P)
  | 0, _, _, _ => .error .outOfFuel
  | fuel + 1, curr, key, lookup =>
    match t.heap curr with
    | .leaf page => .ok page
    | .internal page =>
      match routeAt page.asUnits lookup key with
      | some (_, next) => traverseReadKey t fuel next key lookup
      | none => .error .unwrapNone

/-- The record of `key` in a leaf at a snapshot. -/
def leafLookup (records : List (RecordPoint K P)) (lookup : ℕ) (key : K) :
    Option (RecordPoint K P) :=
  (records.reverse.dropWhile (fun r => decide (lookup < r.version.insertVersion))).find?
    (fun r => r.key == key && r.version.matches lookup)

/-- Key and payload of a record, as handed to the caller. -/
abbrev RecordPointResult (K P : Type) := K × P

def RecordPoint.result (r : RecordPoint K P) : RecordPointResult K P := (r.key, r.payload)

def keyPointReadFromRoot (t : MVBTSt K P) (root : ℕ × ℕ) (key : K) (lookup : ℕ) :
    Except Fault (List (RecordPointResult K P)) := do
  let page ← traverseReadKey t root.2 root.1 key lookup
  return ((leafLookup page.asUnits lookup key).map RecordPoint.result).toList

def onAcquireReaderSnapshot (t : MVBTSt K P) (snapshot : ℕ) : MVBTSt K P :=
  { t with tracker := t.tracker.map (fun tracker => tracker.onTxStart snapshot) }

def onReleaseReaderSnapshot (t : MVBTSt K P) (snapshot : ℕ) : MVBTSt K P :=
  { t with tracker := t.tracker.map (fun tracker => tracker.onTxCompleted snapshot) }

/-- `pin_reader` on the tracker of a tree. -/
def pinReader (t : MVBTSt K P) (lowerBound : ℕ) : MVBTSt K P :=
  { t with tracker := t.tracker.map (fun tracker => (tracker.pinReader lowerBound).1) }

/-- `CRUDOperation::Point`. -/
def dispatchPoint (t : MVBTSt K P) (key : K) (version : ℕ) :
    Except Fault (MVBTSt K P × List (RecordPointResult K P)) := do
  let t := onAcquireReaderSnapshot t version
  let res ← keyPointReadFromRoot t (← t.rootFor version) key version
  return (onReleaseReaderSnapshot t version, res)

/-! ## The iterator -/

structure RangeQueryIter (K P : Type) where
  snapshot : ℕ
  range : Interval K
  path : List (Interval K × ℕ)
  buff : List (RecordPointResult K P)
  isCompleted : Bool

/-- The constructor registers the snapshot; `snapshot_current` on the way to the
root counts as a read of the calling thread. -/
def RangeQueryIter.new (cfg : Config K) (t : MVBTSt K P) (version : ℕ) (range : Interval K) :
    Except Fault (MVBTSt K P × RangeQueryIter K P) := do
  let t := onAcquireReaderSnapshot t version
  let t := { t with commit := (t.commit.currentVersionForReader t.tid).1 }
  let root ← t.rootFor version
  return (t, ⟨version, range, [(cfg.keys.full, root.1)], [], false⟩)

/-- One round of the loop in `next`: either another round or the answer. The
path is kept with its last element first. -/
def RangeQueryIter.round (cfg : Config K) (t : MVBTSt K P) (it : RangeQueryIter K P) :
    MVBTSt K P × RangeQueryIter K P × Option (Option (RecordPointResult K P)) :=
  match it.path with
  | [] => (onReleaseReaderSnapshot t it.snapshot, { it with isCompleted := true }, some none)
  | (currFence, currBlock) :: rest =>
    if it.range.upper < it.range.lower then
      (onReleaseReaderSnapshot t it.snapshot, { it with isCompleted := true }, some none)
    else
      let lower := cfg.keys.incKey currFence.upper
      match t.heap currBlock with
      | .internal page =>
        match routeAt page.asUnits it.snapshot it.range.lower with
        | some next => (t, { it with path := next :: it.path }, none)
        | none => (t, { it with path := rest, range := { it.range with lower := lower } }, none)
      | .leaf page =>
        let found := (page.asUnits.filter (fun r =>
          r.version.matches it.snapshot && it.range.contains r.key)).map RecordPoint.result
        let it := { it with path := rest, range := { it.range with lower := lower },
                            buff := it.buff ++ found }
        if it.buff ≠ [] ∨ lower = cfg.keys.maxKey then
          (t, { it with buff := it.buff.tail }, some it.buff.head?)
        else (t, it, none)

/-- The loop of `next`, for at most `fuel` rounds. -/
def RangeQueryIter.loop (cfg : Config K) : ℕ → MVBTSt K P → RangeQueryIter K P →
    Except Fault (MVBTSt K P × RangeQueryIter K P × Option (RecordPointResult K P))
  | 0, _, _ => .error .outOfFuel
  | fuel + 1, t, it =>
    match it.round cfg t with
    | (t, it, some answer) => .ok (t, it, answer)
    | (t, it, none) => loop cfg fuel t it

def RangeQueryIter.next (cfg : Config K) (fuel : ℕ) (t : MVBTSt K P) (it : RangeQueryIter K P) :
    Except Fault (MVBTSt K P × RangeQueryIter K P × Option (RecordPointResult K P)) :=
  match it.buff with
  | r :: buff => .ok (t, { it with buff := buff }, some r)
  | [] => if it.isCompleted then .ok (t, it, none) else it.loop cfg fuel t

/-- `collect`: `next` until the first `None`. `calls` bounds the calls, `fuel`
the rounds of each. -/
def RangeQueryIter.drain (cfg : Config K) (fuel : ℕ) : ℕ → MVBTSt K P → RangeQueryIter K P →
    Except Fault (MVBTSt K P × RangeQueryIter K P × List (RecordPointResult K P))
  | 0, _, _ => .error .outOfFuel
  | calls + 1, t, it => do
    match ← it.next cfg fuel t with
    | (t, it, none) => return (t, it, [])
    | (t, it, some r) =>
      let (t, it, rs) ← drain cfg fuel calls t it
      return (t, it, r :: rs)

/-- Dropping an iterator that has not run to its end releases its snapshot. -/
def RangeQueryIter.drop (t : MVBTSt K P) (it : RangeQueryIter K P) : MVBTSt K P :=
  if it.isCompleted then t else onReleaseReaderSnapshot t it.snapshot

/-- `CRUDOperation::Range` with the lazy dispatch: collect the iterator and drop it. -/
def dispatchRange (cfg : Config K) (fuel calls : ℕ) (t : MVBTSt K P) (range : Interval K)
    (version : ℕ) : Except Fault (MVBTSt K P × List (RecordPointResult K P)) := do
  let (t, it) ← RangeQueryIter.new cfg t version range
  let (t, it, rs) ← it.drain cfg fuel calls t
  return (it.drop t, rs)

end CMVBT.ReadPath
