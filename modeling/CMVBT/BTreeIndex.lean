import CMVBT.BaselinePages

/-!
# The B-tree version index

`VersionIndexType::BTree` keeps the versions of a record in a B+ tree of another
crate, which is an ordered map here. `VersionIndex::new` builds an empty tree and
stores nothing in it. Deletions leave it empty, and `push` and `append` expect a
newest version that is not there. So the index agrees with the version chain after
no history.
-/
namespace CMVBT.BTreeIndex
open PageModel hiding Node
open CommitClock OrderedMap VersionChain BaselinePages

variable {P : Type}

/-! ## The operations -/

section Operations
variable (bPlusTree : Mutable (RecordInfo P))

/-- `CRUDOperation::Update`, and `unreachable!` when nothing was updated. -/
def updateEntry (tree : bPlusTree.Carrier) (key : ℕ) (info : RecordInfo P) :
    Except Fault bPlusTree.Carrier :=
  match bPlusTree.get tree key with
  | some _ => .ok (bPlusTree.modify tree key (fun _ => info))
  | none => .error .unreachable

/-- `CRUDOperation::Insert`, and `unreachable!` when nothing was inserted. -/
def insertEntry (tree : bPlusTree.Carrier) (key : ℕ) (info : RecordInfo P) :
    Except Fault bPlusTree.Carrier :=
  match bPlusTree.insert tree key info with
  | (tree, true) => .ok tree
  | (_, false) => .error .unreachable

/-- `new_btree().into()`: payload and version are not used. -/
def newBTree (_payload : P) (_version : ℕ) : bPlusTree.Carrier := bPlusTree.empty

def findBTree (version : ℕ) (tree : bPlusTree.Carrier) : Option (ℕ × P) :=
  (bPlusTree.get tree version).map (fun info => (version, info.payload))

def pushBTree (insertVersion : ℕ) (payload : P) (tree : bPlusTree.Carrier) :
    Except Fault bPlusTree.Carrier :=
  match bPlusTree.last tree with
  | none => .error .unreachable
  | some (oldKey, old) => do
    let tree ← if old.delVersion.get.isNone then
        updateEntry bPlusTree tree oldKey { old with delVersion := .new insertVersion }
      else .ok tree
    insertEntry bPlusTree tree insertVersion (.new payload)

/-- The body of `push` once more. -/
def appendBTree (insertVersion : ℕ) (payload : P) (tree : bPlusTree.Carrier) :
    Except Fault bPlusTree.Carrier := pushBTree bPlusTree insertVersion payload tree

def deleteBTree (delVersion : ℕ) (tree : bPlusTree.Carrier) : Except Fault bPlusTree.Carrier :=
  match bPlusTree.last tree with
  | none => .ok tree
  | some (key, info) =>
    if key < delVersion ∧ info.delVersion.get.isNone then
      updateEntry bPlusTree tree key { info with delVersion := .new delVersion }
    else .ok tree

def isLiveBTree (tree : bPlusTree.Carrier) : Bool :=
  match bPlusTree.last tree with
  | some (_, info) => info.delVersion.get.isNone
  | none => false

end Operations

/-! ## All kinds of indexes -/

variable {skipMap bPlusTree : Mutable (RecordInfo P)}

/-- `VersionIndex` with its fifth variant. -/
inductive AnyIndex (skipMap bPlusTree : Mutable (RecordInfo P)) where
  | listed (index : VersionIndex skipMap)
  | dexaBTree (tree : bPlusTree.Carrier)

inductive AnyIndexType where
  | listed (kind : VersionIndexType)
  | bTree
deriving DecidableEq, Repr

namespace AnyIndex

def new (kind : AnyIndexType) (payload : P) (version : ℕ) : AnyIndex skipMap bPlusTree :=
  match kind with
  | .listed kind => .listed (.new kind payload version)
  | .bTree => .dexaBTree (newBTree bPlusTree payload version)

def push (insertVersion : ℕ) (payload : P) (toss : Bool) :
    AnyIndex skipMap bPlusTree → Except Fault (AnyIndex skipMap bPlusTree)
  | .listed index => return .listed (← index.push insertVersion payload toss)
  | .dexaBTree tree => return .dexaBTree (← pushBTree bPlusTree insertVersion payload tree)

def append (insertVersion : ℕ) (payload : P) (toss : Bool) :
    AnyIndex skipMap bPlusTree → Except Fault (AnyIndex skipMap bPlusTree)
  | .listed index => return .listed (← index.append insertVersion payload toss)
  | .dexaBTree tree => return .dexaBTree (← appendBTree bPlusTree insertVersion payload tree)

def delete (delVersion : ℕ) (toss : Bool) :
    AnyIndex skipMap bPlusTree → Except Fault (AnyIndex skipMap bPlusTree)
  | .listed index => return .listed (← index.delete delVersion toss)
  | .dexaBTree tree => return .dexaBTree (← deleteBTree bPlusTree delVersion tree)

def isLive : AnyIndex skipMap bPlusTree → Except Fault Bool
  | .listed index => index.isLive
  | .dexaBTree tree => .ok (isLiveBTree bPlusTree tree)

def find (version : ℕ) : AnyIndex skipMap bPlusTree → Except Fault (Option (ℕ × P))
  | .listed index => index.find version
  | .dexaBTree tree => .ok (findBTree bPlusTree version tree)

/-- The operations of an index of a kind. -/
def ops (kind : AnyIndexType) : IndexOps (AnyIndex skipMap bPlusTree) P :=
  ⟨new kind, push, append, delete, isLive, find⟩

end AnyIndex

/-! ## A tree that nothing was stored in -/

section Empty

theorem last_empty (map : Mutable (RecordInfo P)) : map.last map.empty = none := by
  refine Option.eq_none_iff_forall_ne_some.mpr fun e he => ?_
  have hget := ((map.last_eq _ e).mp he).1
  rw [map.get_empty] at hget
  cases hget

@[simp] theorem findBTree_empty (version : ℕ) :
    findBTree bPlusTree version bPlusTree.empty = none := by
  rw [findBTree, bPlusTree.get_empty]
  rfl

@[simp] theorem pushBTree_empty (version : ℕ) (payload : P) :
    pushBTree bPlusTree version payload bPlusTree.empty = .error .unreachable := by
  rw [pushBTree, last_empty]

@[simp] theorem deleteBTree_empty (version : ℕ) :
    deleteBTree bPlusTree version bPlusTree.empty = .ok bPlusTree.empty := by
  rw [deleteBTree, last_empty]

@[simp] theorem isLiveBTree_empty : isLiveBTree bPlusTree bPlusTree.empty = false := by
  rw [isLiveBTree, last_empty]

end Empty

/-! ## Histories -/

/-- A change of a record. Neither the tree nor the chain tosses a coin for it. -/
inductive Change (P : Type) where
  | push (version : ℕ) (payload : P)
  | append (version : ℕ) (payload : P)
  | delete (version : ℕ)
deriving DecidableEq, Repr

def Change.run {V : Type} (index : IndexOps V P) : Change P → V → Except Fault V
  | .push version payload => index.push version payload false
  | .append version payload => index.append version payload false
  | .delete version => index.delete version false

def runChanges {V : Type} (index : IndexOps V P) : List (Change P) → V → Except Fault V
  | [], i => .ok i
  | change :: changes, i => do runChanges index changes (← change.run index i)

/-- The index of a record after `new` and changes. -/
def indexAfter {V : Type} (index : IndexOps V P) (payload : P) (version : ℕ)
    (changes : List (Change P)) : Except Fault V :=
  runChanges index changes (index.new payload version)

/-- Two kinds of indexes get through a history, and answer alike after it. -/
def AgreeAfter (skipMap bPlusTree : Mutable (RecordInfo P)) (kind kind' : AnyIndexType)
    (payload : P) (version : ℕ) (changes : List (Change P)) : Prop :=
  ∃ i i' : AnyIndex skipMap bPlusTree,
    indexAfter (AnyIndex.ops kind) payload version changes = .ok i ∧
    indexAfter (AnyIndex.ops kind') payload version changes = .ok i' ∧
    (∀ v, i.find v = i'.find v) ∧ i.isLive = i'.isLive

/-- Whatever the history, a B-tree that gets through it is empty, and the history has
only deletions. -/
theorem runChanges_empty {kind : AnyIndexType} {changes : List (Change P)}
    {i : AnyIndex skipMap bPlusTree}
    (h : runChanges (AnyIndex.ops kind) changes (.dexaBTree bPlusTree.empty) = .ok i) :
    i = .dexaBTree bPlusTree.empty ∧ ∀ change ∈ changes, ∃ version, change = .delete version := by
  induction changes with
  | nil =>
    cases h
    exact ⟨rfl, by simp⟩
  | cons change changes ih =>
    cases change with
    | push version payload =>
      simp only [runChanges, Change.run, AnyIndex.ops, AnyIndex.push, pushBTree_empty] at h
      cases h
    | append version payload =>
      simp only [runChanges, Change.run, AnyIndex.ops, AnyIndex.append, appendBTree,
        pushBTree_empty] at h
      cases h
    | delete version =>
      simp only [runChanges, Change.run, AnyIndex.ops, AnyIndex.delete, deleteBTree_empty] at h
      obtain ⟨hi, hrest⟩ := ih h
      refine ⟨hi, fun change hchange => ?_⟩
      rcases List.mem_cons.mp hchange with rfl | hchange
      · exact ⟨version, rfl⟩
      · exact hrest change hchange

/-- A chain whose only version was set at `version`. -/
structure OneVersion (payload : P) (version : ℕ) (list : VersionList P) : Prop where
  older : list.older = []
  set : list.head.payload = payload ∧ list.head.insertVersion = version
  stands : list.head.delVersion = versionMax ∨ version < list.head.delVersion

theorem OneVersion.delete {payload : P} {version : ℕ} {list : VersionList P}
    (h : OneVersion payload version list) (delVersion : ℕ) :
    OneVersion payload version (list.delete delVersion) := by
  unfold VersionList.delete
  split
  · next hcond => exact ⟨h.older, h.set, .inr (h.set.2 ▸ hcond.1)⟩
  · exact h

theorem runChanges_oneVersion {kind : AnyIndexType} {payload : P} {version : ℕ}
    {changes : List (Change P)} {list : VersionList P} {i : AnyIndex skipMap bPlusTree}
    (hone : OneVersion payload version list)
    (hdel : ∀ change ∈ changes, ∃ version, change = .delete version)
    (h : runChanges (AnyIndex.ops kind) changes (.listed (.vanilla list)) = .ok i) :
    ∃ list', i = .listed (.vanilla list') ∧ OneVersion payload version list' := by
  induction changes generalizing list with
  | nil =>
    cases h
    exact ⟨list, rfl, hone⟩
  | cons change changes ih =>
    obtain ⟨delVersion, rfl⟩ := hdel change List.mem_cons_self
    exact ih (hone.delete delVersion) (fun c hc => hdel c (List.mem_cons_of_mem _ hc)) h

/-- A chain with one version is live or shows it at the version that set it. -/
theorem OneVersion.shows {payload : P} {version : ℕ} {list : VersionList P}
    (h : OneVersion payload version list) :
    list.isLive = true ∨ list.find version ≠ none := by
  rcases h.stands with hmax | hlt
  · exact .inl (decide_eq_true hmax)
  · refine .inr ?_
    simp [VersionList.find, VersionList.entries, h.set.2, hlt]

/-- After no history does the B-tree answer as the chain does: a change other than a
deletion ends in `unreachable!`, and without one the tree is empty. -/
theorem btree_never_agrees (skipMap bPlusTree : Mutable (RecordInfo P)) (payload : P)
    (version : ℕ) (changes : List (Change P)) :
    ¬ AgreeAfter skipMap bPlusTree .bTree (.listed .vanilla) payload version changes := by
  rintro ⟨i, i', htree, hchain, hfind, hlive⟩
  obtain ⟨rfl, hdel⟩ := runChanges_empty htree
  have hone : OneVersion payload version (VersionList.new payload version none) :=
    ⟨rfl, ⟨rfl, rfl⟩, .inl rfl⟩
  obtain ⟨list, rfl, hone'⟩ := runChanges_oneVersion hone hdel hchain
  rcases hone'.shows with hlist | hlist
  · rw [show (AnyIndex.listed (.vanilla list) : AnyIndex skipMap bPlusTree).isLive =
      .ok list.isLive from rfl, hlist] at hlive
    simp [AnyIndex.isLive] at hlive
  · have hshown := hfind version
    simp only [AnyIndex.find, findBTree_empty, VersionIndex.find, Except.ok.injEq] at hshown
    exact hlist (Option.map_eq_none_iff.mp hshown.symm)

/-- A record is set to 7 at version 1: the chain finds it and is live, the tree is
not, and it cannot take another version. -/
theorem fresh_btree_differs :
    (∃ chain : AnyIndex (sortedList (RecordInfo ℕ)) (sortedList (RecordInfo ℕ)),
      indexAfter (AnyIndex.ops (.listed .vanilla)) 7 1 [] = .ok chain ∧
      chain.find 1 = .ok (some (1, 7)) ∧ chain.isLive = .ok true) ∧
    (∃ tree : AnyIndex (sortedList (RecordInfo ℕ)) (sortedList (RecordInfo ℕ)),
      indexAfter (AnyIndex.ops .bTree) 7 1 [] = .ok tree ∧
      tree.find 1 = .ok none ∧ tree.isLive = .ok false) ∧
    (indexAfter (AnyIndex.ops .bTree) 7 1 [.push 2 8] :
      Except Fault (AnyIndex (sortedList (RecordInfo ℕ)) (sortedList (RecordInfo ℕ)))) =
      .error .unreachable := ⟨⟨_, rfl, rfl, rfl⟩, ⟨_, rfl, rfl, rfl⟩, rfl⟩

end CMVBT.BTreeIndex
