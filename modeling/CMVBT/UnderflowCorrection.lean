import CMVBT.BaselineContents

/-!
# The correction of underfull pages

`do_underflow_correction` and `merge` of the `dexa` tree for a directory page and
its children, with one thread. Separators and children stand in two arrays of the
page, and only the separators have a stored length: the number of children is read
off it. What is written behind it stays in the array but is not part of the page.
The fragment that is corrected ends in records, or in the children of directories,
which may be any blocks.
-/
namespace CMVBT.UnderflowCorrection
open PageModel hiding Node
open KeyInterval SeparatorRow BaselinePages BaselineTree BaselineContents

/-! ## Arrays with a capacity -/

section Arrays
variable {A : Type}

/-- `ShadowVec::extend`, `extend_from_slice` and, for one item, `push`. -/
def extendFrom (capacity : ℕ) (xs items : List A) : Except Fault (List A) :=
  if xs.length + items.length ≤ capacity then .ok (xs ++ items) else .error .outOfBounds

/-- `ShadowVec::remove`. -/
def removeAt (xs : List A) (index : ℕ) : Except Fault (List A) :=
  if index < xs.length then .ok (xs.eraseIdx index) else .error .outOfBounds

/-- An assignment to `get_unchecked_mut`; behind the length it hits a slot out of use. -/
def writeAt (capacity : ℕ) (xs : List A) (index : ℕ) (e : A) : Except Fault (List A) :=
  if index < capacity then .ok (xs.set index e) else .error .outOfBounds

/-- `Vec::insert`, which checks its position. -/
def vecInsert (xs : List A) (index : ℕ) (e : A) : Except Fault (List A) :=
  if index ≤ xs.length then .ok (xs.insertIdx index e) else .error .outOfBounds

theorem extendFrom_ok {capacity : ℕ} {xs items : List A}
    (h : xs.length + items.length ≤ capacity) :
    extendFrom capacity xs items = .ok (xs ++ items) := if_pos h

theorem extendFrom_nil {capacity : ℕ} {items : List A} (h : items.length ≤ capacity) :
    extendFrom capacity [] items = .ok items := by
  have hroom : ([] : List A).length + items.length ≤ capacity := by
    rwa [List.length_nil, Nat.zero_add]
  exact extendFrom_ok hroom

theorem extendFrom_room {capacity : ℕ} {xs items ys : List A}
    (h : extendFrom capacity xs items = .ok ys) : xs.length + items.length ≤ capacity := by
  unfold extendFrom at h
  split at h
  · next hroom => exact hroom
  · cases h

theorem extendFrom_eq {capacity : ℕ} {xs items ys : List A}
    (h : extendFrom capacity xs items = .ok ys) : ys = xs ++ items := by
  rw [extendFrom_ok (extendFrom_room h)] at h
  exact (Except.ok.inj h).symm

theorem writeAt_eq {capacity index : ℕ} {xs ys : List A} {e : A}
    (h : writeAt capacity xs index e = .ok ys) : ys = xs.set index e := by
  unfold writeAt at h
  split at h
  · exact (Except.ok.inj h).symm
  · cases h

theorem removeAt_ok {xs : List A} {index : ℕ} (h : index < xs.length) :
    removeAt xs index = .ok (xs.eraseIdx index) := if_pos h

theorem writeAt_ok {capacity : ℕ} {xs : List A} {index : ℕ} (h : index < capacity) (e : A) :
    writeAt capacity xs index e = .ok (xs.set index e) := if_pos h

end Arrays

variable {K V P : Type}

/-- `children_len` of a page with `len` separators. -/
def childrenLen : ℕ → ℕ
  | 0 => 0
  | len + 1 => len + 2

/-- A directory page after writes to its arrays. -/
def indexPage (keys : List K) (children : List (Node K V)) : Node K V :=
  .index keys (children.take (childrenLen keys.length))

theorem indexPage_row {keys : List K} {children : List (Node K V)} (hne : keys ≠ [])
    (hlen : children.length = keys.length + 1) : indexPage keys children = .index keys children := by
  cases keys with
  | nil => exact absurd rfl hne
  | cons m keys =>
    unfold indexPage childrenLen
    rw [List.take_of_length_le (by simpa using hlen.le)]

/-! ## The code -/

/-- The page that stands in the place of the corrected one, and whether its level
is gone: `merge` decrements the height of the tree. -/
structure Corrected (K V : Type) where
  page : Node K V
  lowered : Bool

variable [LinearOrder K] (cfg : TreeConfig K V P)

/-- The loop over the latched leaves. -/
def joinLeaves : List (VersionedRecordPoint K V) → List (Node K V) → Except Fault (Node K V)
  | records, [] => .ok (.leaf records)
  | records, .leaf page :: rest => do
    let records ← extendFrom cfg.sizes.numRecords records page
    joinLeaves records rest
  | _, .index _ _ :: _ => .error .unreachable

/-- The loop over the latched directories, from the one at `index` on. -/
def joinDirectories (childPos : ℕ) (childKey : K) : ℕ → List K → List (Node K V) →
    List (Node K V) → Except Fault (Node K V)
  | _, keys, children, [] => .ok (indexPage keys children)
  | index, keys, children, .index pageKeys pageChildren :: rest => do
    -- `children_mut` starts behind the children of the separators written so far
    let children ← extendFrom cfg.sizes.fanOut (children.take (childrenLen keys.length))
      pageChildren
    let keys ← if index = childPos + 1 then extendFrom (cfg.sizes.fanOut - 1) keys [childKey]
      else .ok keys
    let keys ← extendFrom (cfg.sizes.fanOut - 1) keys pageKeys
    joinDirectories childPos childKey (index + 1) keys children rest
  | _, _, _, .leaf _ :: _ => .error .unreachable

/-- `merge`: the root is replaced by one page with all that its children hold. -/
def merge (isRoot : Bool) (children : List (Node K V)) (from' : Node K V)
    (mergeGuard : Option (ℕ × Node K V)) (childPos : ℕ) (childKey : K) :
    Except Fault (Node K V) := do
  let others := children.zipIdx.filter fun c =>
    decide (c.2 ≠ childPos) && decide (mergeGuard.map Prod.fst ≠ some c.2)
  let latched ← match others.map Prod.fst with
    | [] => .ok [from']
    | pages => vecInsert pages childPos from'
  let latched ← match mergeGuard with
    | some (mergePos, page) => vecInsert latched mergePos page
    | none => .ok latched
  let first ← getUnchecked latched 0
  let block ← if first.isLeaf then joinLeaves cfg [] latched
    else joinDirectories cfg childPos childKey 0 [] [] latched
  if isRoot then return block else throw .unreachable

/-- The other children of a page, each with the separator behind it and its position. -/
def allCandidates (keys : List K) (children : List (Node K V)) (upper : K) (childPos : ℕ) :
    List ((Node K V × K) × ℕ) :=
  (children.zip (keys.merge [upper] fun a b => decide (a ≤ b))).zipIdx.filter
    fun c => decide (c.2 ≠ childPos)

/-- The sibling at which the search for `child_key` ends, or the last one. -/
def chosen (candidates : List ((Node K V × K) × ℕ)) (childKey : K) :
    Option ((Node K V × K) × ℕ) :=
  let index := position (binarySearchByKey (fun c => c.1.2) candidates childKey)
  if index < candidates.length then candidates[index]? else candidates.getLast?

/-- The branch of leaves. -/
def correctLeaves (isRoot : Bool) (keys : List K) (children : List (Node K V)) (childPos : ℕ)
    (childKey : K) (mergeIndex : ℕ) (from' mergeRecords : List (VersionedRecordPoint K V)) :
    Except Fault (Corrected K V) := do
  let numRecords := cfg.sizes.numRecords
  let fanOut := cfg.sizes.fanOut
  let fit := decide (from'.length + mergeRecords.length < numRecords)
  if decide (keys.length = 1) && fit then
    let page ← merge cfg isRoot children (.leaf from') (some (mergeIndex, .leaf mergeRecords))
      childPos childKey
    return ⟨page, true⟩
  else
    let joined := from'.merge mergeRecords fun r0 r1 => decide (r0.key < r1.key)
    let low := min childPos mergeIndex
    let high := max childPos mergeIndex
    if fit then
      let newLeaf ← extendFrom numRecords [] joined
      let keys ← removeAt keys low
      let children ← removeAt children high
      let children ← writeAt fanOut children low (.leaf newLeaf)
      return ⟨indexPage keys children, false⟩
    else
      let first := joined.take (joined.length / 2)
      let second := joined.drop (joined.length / 2)
      let leftKey ← getUnchecked second 0
      let newLeafLeft ← extendFrom numRecords [] first
      let newLeafRight ← extendFrom numRecords [] second
      let keys ← writeAt (fanOut - 1) keys low leftKey.key
      let children ← writeAt fanOut children low (.leaf newLeafLeft)
      let children ← writeAt fanOut children high (.leaf newLeafRight)
      return ⟨indexPage keys children, false⟩

/-- The branch of directories: `low` and `high` are the positions of two pages, with
the separator `between` that the one merge writes between their separators. -/
def correctDirectories (keys : List K) (children : List (Node K V)) (low high : ℕ) (between : K)
    (lowKeys highKeys : List K) (lowChildren highChildren : List (Node K V)) :
    Except Fault (Corrected K V) := do
  let fanOut := cfg.sizes.fanOut
  if lowKeys.length + highKeys.length < fanOut - 1 then
    let newChildren ← extendFrom fanOut [] lowChildren
    let newChildren ← extendFrom fanOut newChildren highChildren
    let newKeys ← extendFrom (fanOut - 1) [] lowKeys
    let newKeys ← extendFrom (fanOut - 1) newKeys [between]
    let newKeys ← extendFrom (fanOut - 1) newKeys highKeys
    let children ← removeAt children high
    let keys ← removeAt keys low
    let children ← writeAt fanOut children low (indexPage newKeys newChildren)
    return ⟨indexPage keys children, false⟩
  else
    let joinedKeys := lowKeys.merge highKeys fun a b => decide (a ≤ b)
    let joinedChildren := lowChildren.merge highChildren fun _ _ => true
    let keysLeft := joinedKeys.take (joinedKeys.length / 2)
    let splitKey ← getUnchecked (joinedKeys.drop (joinedKeys.length / 2)) 0
    let keysRight := joinedKeys.drop (joinedKeys.length / 2 + 1)
    let childrenLeft ← extendFrom fanOut [] (joinedChildren.take (keysLeft.length + 1))
    let newKeysLeft ← extendFrom (fanOut - 1) [] keysLeft
    let childrenRight ← extendFrom fanOut [] (joinedChildren.drop (keysLeft.length + 1))
    let newKeysRight ← extendFrom (fanOut - 1) [] keysRight
    let keys ← writeAt (fanOut - 1) keys high splitKey
    let children ← writeAt fanOut children low (indexPage newKeysLeft childrenLeft)
    let children ← writeAt fanOut children high (indexPage newKeysRight childrenRight)
    return ⟨indexPage keys children, false⟩

/-- `do_underflow_correction` for a page whose fence ends with `upper`. -/
def doUnderflowCorrection (isRoot : Bool) (upper : K) (keys : List K)
    (children : List (Node K V)) (childPos : ℕ) : Except Fault (Corrected K V) := do
  let from' ← getUnchecked children childPos
  let childKey := keys[childPos]?.getD upper
  let candidates := allCandidates keys children upper childPos
  if decide (candidates.length = 1) && !from'.isLeaf then
    return ⟨← merge cfg isRoot children from' none childPos childKey, true⟩
  else
    match chosen candidates childKey with
    | none => return ⟨← merge cfg isRoot children from' none childPos childKey, true⟩
    | some ((mergeBlock, mergeKey), mergeIndex) =>
      match from', mergeBlock with
      | .leaf fromRecords, .leaf mergeRecords =>
        correctLeaves cfg isRoot keys children childPos childKey mergeIndex fromRecords mergeRecords
      | .index fromKeys fromChildren, .index mergeKeys mergeChildren =>
        if childPos < mergeIndex then
          correctDirectories cfg keys children childPos mergeIndex childKey fromKeys mergeKeys
            fromChildren mergeChildren
        else
          correctDirectories cfg keys children mergeIndex childPos mergeKey mergeKeys fromKeys
            mergeChildren fromChildren
      | _, _ => .error .unreachable

/-! ## Fragments -/

/-- A child of the corrected page: a leaf, or a directory over any blocks. -/
def ChildPage (isLeaf : Bool) (g : Interval K) : Node K V → Prop
  | .leaf records => isLeaf = true ∧ Ordered cfg.keys 0 g (.leaf records : Node K V) ∧
    records.length ≤ cfg.sizes.numRecords
  | .index keys children => isLeaf = false ∧ Row cfg.keys (fun _ _ => True) g keys children ∧
    keys ≠ [] ∧ keys.length ≤ cfg.sizes.fanOut - 1

/-- A directory page and its children, which hold the keys between their separators. -/
structure Fragment (isLeaf : Bool) (keys : List K) (children : List (Node K V)) : Prop where
  row : Row cfg.keys (ChildPage cfg isLeaf) cfg.keys.full keys children
  nonempty : keys ≠ []
  fits : keys.length ≤ cfg.sizes.fanOut - 1

/-- The levels from the page to the leaves, or to the children of the directories. -/
def levels (isLeaf : Bool) : ℕ := if isLeaf then 1 else 2

def Corrected.levels (isLeaf : Bool) (after : Corrected K V) : ℕ :=
  if after.lowered then UnderflowCorrection.levels isLeaf - 1 else UnderflowCorrection.levels isLeaf

/-- The blocks some levels below a page. -/
def blocks : ℕ → Node K V → List (Node K V)
  | 0, node => [node]
  | levels + 1, .index _ children => children.flatMap (blocks levels)
  | _ + 1, .leaf _ => []

/-- The separators between the blocks some levels below a page. -/
def separators : ℕ → Node K V → List K
  | 0, _ => []
  | levels + 1, .index keys children => weave keys (children.map (separators levels))
  | _ + 1, .leaf _ => []

/-- The block that the search for a key reaches some levels below a page. -/
def descend (key : K) : ℕ → Node K V → Except Fault (Node K V)
  | 0, node => .ok node
  | levels + 1, .index keys children => do
    let (_, next) ← nextNode keys children (cfg.keys.incKey key)
    descend key levels next
  | _ + 1, .leaf _ => .error .unreachable

/-- The record that the search for a key finds in its leaf. -/
def searchRecord (key : K) (levels : ℕ) (page : Node K V) :
    Except Fault (Option (VersionedRecordPoint K V)) := do
  let records ← traversalReadOlc cfg key (levels + 1) page
  match Node.searchRecords records key with
  | .ok pos => return some (← getUnchecked records pos)
  | .error _ => return none

/-- No page of the fragment holds more than its arrays can. -/
def Fits (isLeaf : Bool) : ℕ → Node K V → Prop
  | 0, .leaf records => isLeaf = true → records.length ≤ cfg.sizes.numRecords
  | 0, .index _ _ => True
  | levels + 1, .index keys children => keys.length ≤ cfg.sizes.fanOut - 1 ∧
    children.length ≤ cfg.sizes.fanOut ∧ ∀ c ∈ children, Fits isLeaf levels c
  | _ + 1, .leaf _ => False

/-- What a correction has to keep of a fragment. -/
def Preserved (isLeaf : Bool) (page : Node K V) (after : Corrected K V) : Prop :=
  Fits cfg isLeaf (after.levels isLeaf) after.page ∧
  match isLeaf with
  | true => (contents (after.levels true) after.page).Perm (contents 1 page) ∧
    ∀ key, searchRecord cfg key (after.levels true) after.page = searchRecord cfg key 1 page
  | false => (blocks (after.levels false) after.page).Perm (blocks 2 page) ∧
    separators (after.levels false) after.page = separators 2 page ∧
    ∀ key, descend cfg key (after.levels false) after.page = descend cfg key 2 page

/-- The sibling that is merged with the page at a position. -/
def siblingPos (keys : List K) (childPos : ℕ) : ℕ :=
  if childPos < keys.length then childPos + 1 else childPos - 1

end CMVBT.UnderflowCorrection
