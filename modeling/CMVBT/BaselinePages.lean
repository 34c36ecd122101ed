import CMVBT.SeparatorRow
import CMVBT.VersionChain

/-!
# Pages of the version-list tree

`Node` and its operations of the `dexa` modules. A leaf holds one record for each
key that was ever inserted, with all its versions in a version index; a directory
holds separators and children. The operations of the index are a parameter. Every
block but the root has one parent, so a directory holds its children themselves.
Arrays are written unchecked in the source: here a write past the capacity is the
fault `outOfBounds`.
-/
namespace CMVBT.BaselinePages
open PageModel OrderedMap VersionChain SeparatorRow

/-- `FAN_OUT` and `NUM_RECORDS`. Lengths fit `ObjectCount`, and both halves of a
full page have separators or records. -/
structure Sizes where
  fanOut : ℕ
  numRecords : ℕ
  fanOut_min : 5 ≤ fanOut
  fanOut_max : fanOut < 2 ^ 16
  numRecords_min : 2 ≤ numRecords
  numRecords_max : numRecords < 2 ^ 16

namespace Sizes
variable (sizes : Sizes)

def allocationLeaf : ℕ := sizes.numRecords

def allocationDirectory : ℕ := sizes.fanOut - 1

end Sizes

/-- The sizes of `INDEX`. -/
def indexSizes : Sizes := ⟨255, 170, by decide, by decide, by decide, by decide⟩

/-- Pages that a few writes split. -/
def smallSizes : Sizes := ⟨6, 4, by decide, by decide, by decide, by decide⟩

/-! ## Arrays -/

section Arrays
variable {A : Type}

/-- `get_unchecked`. -/
def getUnchecked (xs : List A) (index : ℕ) : Except Fault A :=
  match xs[index]? with
  | some x => .ok x
  | none => .error .outOfBounds

/-- `ShadowVec::insert` into an array with `capacity` slots. -/
def insertAt (capacity : ℕ) (xs : List A) (index : ℕ) (e : A) : Except Fault (List A) :=
  if index ≤ xs.length ∧ xs.length < capacity then .ok (xs.insertIdx index e)
  else .error .outOfBounds

theorem getUnchecked_eq {xs : List A} {index : ℕ} {x : A} (h : xs[index]? = some x) :
    getUnchecked xs index = .ok x := by
  rw [getUnchecked, h]

theorem insertIdx_split {xs : List A} {index : ℕ} (h : index ≤ xs.length) (e : A) :
    xs.insertIdx index e = xs.take index ++ e :: xs.drop index := by
  induction xs generalizing index with
  | nil =>
    have hzero : index = 0 := Nat.le_zero.mp h
    subst hzero
    rfl
  | cons x xs ih =>
    cases index with
    | zero => rfl
    | succ index => simp [ih (Nat.le_of_succ_le_succ h)]

theorem insertAt_eq {capacity index : ℕ} {xs : List A} (hindex : index ≤ xs.length)
    (hlen : xs.length < capacity) (e : A) :
    insertAt capacity xs index e = .ok (xs.insertIdx index e) := if_pos ⟨hindex, hlen⟩

theorem insertAt_result {capacity index : ℕ} {xs ys : List A} {e : A}
    (h : insertAt capacity xs index e = .ok ys) : ys = xs.insertIdx index e := by
  unfold insertAt at h
  split at h
  · cases h
    rfl
  · cases h

end Arrays

/-! ## Indexes and nodes -/

/-- The operations of a version index. The toss of a coin decides how an index with
skip links grows. -/
structure IndexOps (V P : Type) where
  new : P → ℕ → V
  push : ℕ → P → Bool → V → Except Fault V
  append : ℕ → P → Bool → V → Except Fault V
  delete : ℕ → Bool → V → Except Fault V
  isLive : V → Except Fault Bool
  find : ℕ → V → Except Fault (Option (ℕ × P))

/-- The operations of `VersionIndex` for a kind of index. -/
def listOps {P : Type} {skipMap : Mutable (RecordInfo P)} (kind : VersionIndexType) :
    IndexOps (VersionIndex skipMap) P where
  new := VersionIndex.new kind
  push := VersionIndex.push
  append := VersionIndex.append
  delete := VersionIndex.delete
  isLive := VersionIndex.isLive
  find := VersionIndex.find

structure VersionedRecordPoint (K V : Type) where
  key : K
  versionIndex : V

inductive Node (K V : Type) where
  | index (keys : List K) (children : List (Node K V))
  | leaf (records : List (VersionedRecordPoint K V))

namespace Node
variable {K V P : Type}

def isLeaf : Node K V → Bool
  | .index _ _ => false
  | .leaf _ => true

/-- Separators of a directory, records of a leaf. -/
def len : Node K V → ℕ
  | .index keys _ => keys.length
  | .leaf records => records.length

def isOverflow (node : Node K V) (allocation : ℕ) : Bool := decide (allocation ≤ node.len)

def isUnderflow (node : Node K V) (allocation : ℕ) : Bool :=
  decide (node.len < allocation / 2 - 1)

variable [LinearOrder K] (index : IndexOps V P)

/-- `binary_search_by_key` among records. -/
def searchRecords (records : List (VersionedRecordPoint K V)) (key : K) : Except ℕ ℕ :=
  binarySearchByKey VersionedRecordPoint.key records key

/-- The page after the deletion and the `Result<Option<()>, ()>` of the source. -/
def deleteKey (key : K) (delVersion : ℕ) (toss : Bool) :
    Node K V → Except Fault (Node K V × Except Unit (Option Unit))
  | .leaf records =>
    match searchRecords records key with
    | .ok found => do
      let record ← getUnchecked records found
      if ← index.isLive record.versionIndex then
        let versionIndex ← index.delete delVersion toss record.versionIndex
        return (.leaf (records.set found { record with versionIndex }), .ok (some ()))
      else
        return (.leaf records, .error ())
    | .error _ => .ok (.leaf records, .error ())
  | .index keys children => .ok (.index keys children, .error ())

def updateRecordPoint (key : K) (payload : P) (version : ℕ) (toss : Bool) :
    Node K V → Except Fault (Node K V × Except Unit (Option Unit))
  | .leaf records =>
    match searchRecords records key with
    | .ok found => do
      let record ← getUnchecked records found
      if ← index.isLive record.versionIndex then
        let versionIndex ← index.append version payload toss record.versionIndex
        return (.leaf (records.set found { record with versionIndex }), .ok (some ()))
      else
        return (.leaf records, .ok none)
    | .error _ => .ok (.leaf records, .ok none)
  | .index keys children => .ok (.index keys children, .error ())

/-- An insertion into a leaf that has the key becomes a further version. -/
def pushRecordPoint (sizes : Sizes) (key : K) (payload : P) (version : ℕ) (toss : Bool) :
    Node K V → Except Fault (Node K V × Bool)
  | .leaf records =>
    match searchRecords records key with
    | .error pos => do
      let records ← insertAt sizes.numRecords records pos ⟨key, index.new payload version⟩
      return (.leaf records, true)
    | .ok pos => do
      let record ← getUnchecked records pos
      let versionIndex ← index.push version payload toss record.versionIndex
      return (.leaf (records.set pos { record with versionIndex }), true)
  | .index keys children => .ok (.index keys children, false)

end Node

end CMVBT.BaselinePages
