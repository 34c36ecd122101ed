import CMVBT.OrderedMap
import CMVBT.FrugalList
import CMVBT.CommitClock

/-!
# The version chains of the baseline tree

`VersionIndex` of the `dexa` modules keeps all versions of one record. Four kinds
are modelled: a list of entries with a delete version each (VANILLA), two lists
with skip links and tombstones (FrugalSkipList and VWEAVER), and a skip map whose
values carry a delete version. The nodes of the two linked lists are those of the
root list; a tower gets the level of its predecessor plus one, and this addition
wraps, so a tower right above the sentinel has level zero. Outcomes of coin tosses
are arguments. Keys and key links of a VWEAVER node are not read here.
-/
namespace CMVBT.VersionChain
open PageModel CommitClock OrderedMap

/-! ## VANILLA -/

structure VersionedEntry (P : Type) where
  payload : P
  insertVersion : ℕ
  delVersion : ℕ
deriving DecidableEq, Repr

/-- `AtomicVersionList`: the head entry and the older ones behind it. -/
structure VersionList (P : Type) where
  head : VersionedEntry P
  older : List (VersionedEntry P)
deriving DecidableEq, Repr

namespace VersionList
variable {P : Type}

def entries (l : VersionList P) : List (VersionedEntry P) := l.head :: l.older

def new (payload : P) (insertVersion : ℕ) (delVersion : Option ℕ) : VersionList P :=
  ⟨⟨payload, insertVersion, delVersion.getD versionMax⟩, []⟩

def find (l : VersionList P) (version : ℕ) : Option (VersionedEntry P) :=
  l.entries.find? (fun e => decide (e.insertVersion ≤ version ∧ version < e.delVersion))

def append (l : VersionList P) (insertVersion : ℕ) (payload : P) : VersionList P :=
  let old := if l.head.delVersion = versionMax then { l.head with delVersion := insertVersion }
    else l.head
  ⟨⟨payload, insertVersion, versionMax⟩, old :: l.older⟩

def delete (l : VersionList P) (delVersion : ℕ) : VersionList P :=
  if l.head.insertVersion < delVersion ∧ l.head.delVersion = versionMax then
    { l with head := { l.head with delVersion := delVersion } }
  else l

def isLive (l : VersionList P) : Bool := decide (l.head.delVersion = versionMax)

/-- The deep copy: entries oldest first, each put in front of the copy so far. -/
def clone (l : VersionList P) : List (VersionedEntry P) :=
  l.entries.reverse.foldl (fun copy e => ⟨e.payload, e.insertVersion, e.delVersion⟩ :: copy) []

end VersionList

/-! ## FrugalSkipList and VWEAVER -/

section Chains
open FrugalList
variable {P : Type}

/-- `append_tower`: one level above the head, in wrapping arithmetic. -/
def appendTower (head : FrugalNode (Option P)) (payload : Option P) (insertVersion : ℕ) :
    Except Fault (FrugalNode (Option P)) :=
  FrugalList.appendTower head payload insertVersion ((head.level + 1) % 2 ^ 64)

/-- `append`: `toss` says whether the coin asks for a tower. -/
def appendChain (head : FrugalNode (Option P)) (payload : Option P) (insertVersion : ℕ)
    (toss : Bool) : Except Fault (FrugalNode (Option P)) :=
  if toss then appendTower head payload insertVersion
  else .ok (appendNext head payload insertVersion)

def chainIsLive (head : FrugalNode (Option P)) : Bool := head.payload.isSome

def deleteChain (head : FrugalNode (Option P)) (delVersion : ℕ) (toss : Bool) :
    Except Fault (FrugalNode (Option P)) :=
  if chainIsLive head then appendChain head none delVersion toss else .ok head

/-- `find`: the node of a tombstone does not count. -/
def findChain (head : FrugalNode (Option P)) (version : ℕ) :
    Except Fault (Option (FrugalNode (Option P))) := do
  return (← findFrom head version).filter chainIsLive

/-- Appends values one after the other. -/
def replay (tosses : ℕ → Bool) :
    List (Option P × ℕ) → FrugalNode (Option P) → Except Fault (FrugalNode (Option P))
  | [], head => .ok head
  | (payload, version) :: rest, head => do
    let head ← appendChain head payload version (tosses 0)
    replay (fun i => tosses (i + 1)) rest head

/-- `clone` of a frugal list: collect all nodes and build them anew. -/
def cloneFrugal (tosses : ℕ → Bool) (head : FrugalNode (Option P)) :
    Except Fault (FrugalNode (Option P)) :=
  match (values head).reverse with
  | (some payload, version) :: newer => replay tosses newer (FrugalList.new (some payload) version)
  | _ => .error .unwrapNone

end Chains

/-! ## SkipList -/

/-- `DeletedVersionInfo`: a word whose top bit says that there is a version. -/
structure DeletedVersionInfo where
  word : ℕ
deriving DecidableEq, Repr

namespace DeletedVersionInfo

def nonNullFlag : ℕ := 2 ^ 63

def extractor : ℕ := 2 ^ 63 - 1

def newNull : DeletedVersionInfo := ⟨0⟩

def new (delVersion : ℕ) : DeletedVersionInfo := ⟨delVersion ||| nonNullFlag⟩

def get (d : DeletedVersionInfo) : Option ℕ :=
  if d.word &&& nonNullFlag = 0 then none else some (d.word &&& extractor)

@[simp] theorem get_newNull : newNull.get = none := rfl

@[simp] theorem get_new {v : ℕ} (h : v < 2 ^ 63) : (new v).get = some v := by
  have hadd : v ||| nonNullFlag = 2 ^ 63 + v := by
    rw [Nat.or_comm]
    simpa [nonNullFlag] using (Nat.two_pow_add_eq_or_of_lt h 1).symm
  have hflag : (2 ^ 63 + v) &&& nonNullFlag ≠ 0 := by
    intro hzero
    have hbit := congrArg (fun n => n.testBit 63) hzero
    simp only [nonNullFlag, Nat.testBit_and, Nat.testBit_two_pow_self, Bool.and_true,
      Nat.zero_testBit, Nat.testBit_two_pow_add_eq, Bool.not_eq_eq_eq_not, Bool.not_false] at hbit
    rw [Nat.testBit_lt_two_pow h] at hbit
    cases hbit
  rw [get, new, hadd, if_neg hflag, extractor, Nat.and_two_pow_sub_one_eq_mod,
    Nat.add_mod_left, Nat.mod_eq_of_lt h]

end DeletedVersionInfo

structure RecordInfo (P : Type) where
  delVersion : DeletedVersionInfo
  payload : P
deriving DecidableEq, Repr

def RecordInfo.new {P : Type} (payload : P) : RecordInfo P := ⟨.newNull, payload⟩

section SkipLists
variable {P : Type} (skipMap : Mutable (RecordInfo P))

/-- `old.value().get_mut().del_version = version`. -/
def markDeleted (map : skipMap.Carrier) (key version : ℕ) : skipMap.Carrier :=
  skipMap.modify map key (fun info => { info with delVersion := .new version })

def pushSkip (map : skipMap.Carrier) (insertVersion : ℕ) (payload : P) :
    Except Fault skipMap.Carrier :=
  match skipMap.last map with
  | none => .error .unwrapNone
  | some old =>
    let map := if old.2.delVersion.get.isNone then markDeleted skipMap map old.1 insertVersion
      else map
    .ok (skipMap.insert map insertVersion (.new payload)).1

def appendSkip (map : skipMap.Carrier) (insertVersion : ℕ) (payload : P) :
    Except Fault skipMap.Carrier :=
  match skipMap.last map with
  | none => .error .unwrapNone
  | some old =>
    if old.2.delVersion.get.isNone then
      .ok (skipMap.insert (markDeleted skipMap map old.1 insertVersion) insertVersion
        (.new payload)).1
    else .ok map

def deleteSkip (map : skipMap.Carrier) (delVersion : ℕ) : Except Fault skipMap.Carrier :=
  match skipMap.last map with
  | none => .error .unwrapNone
  | some current =>
    if current.1 < delVersion ∧ current.2.delVersion.get = none then
      .ok (markDeleted skipMap map current.1 delVersion)
    else .ok map

def findSkip (map : skipMap.Carrier) (version : ℕ) : Option (ℕ × P) :=
  match skipMap.floor map version with
  | none => none
  | some entry =>
    if entry.1 ≤ version ∧ (entry.2.delVersion.get.map (fun del => decide (version < del))).getD true
    then some (entry.1, entry.2.payload)
    else none

def skipIsLive (map : skipMap.Carrier) : Except Fault Bool :=
  match skipMap.last map with
  | none => .error .unwrapNone
  | some current => .ok current.2.delVersion.get.isNone

end SkipLists

/-! ## The index -/

inductive VersionIndexType where
  | vanilla
  | frugalSkipList
  | vWeaver
  | skipList
deriving DecidableEq, Repr

inductive VersionIndex {P : Type} (skipMap : Mutable (RecordInfo P)) where
  | vanilla (list : VersionList P)
  | frugalSkipList (head : FrugalList.FrugalNode (Option P))
  | vWeaver (head : FrugalList.FrugalNode (Option P))
  | skipList (map : skipMap.Carrier)

namespace VersionIndex
variable {P : Type} {skipMap : Mutable (RecordInfo P)}

def new (kind : VersionIndexType) (payload : P) (version : ℕ) : VersionIndex skipMap :=
  match kind with
  | .frugalSkipList => .frugalSkipList (FrugalList.new (some payload) version)
  | .vanilla => .vanilla (.new payload version none)
  | .skipList => .skipList (skipMap.insert skipMap.empty version (.new payload)).1
  | .vWeaver => .vWeaver (FrugalList.new (some payload) version)

/-- The payload of a found node, which must not be a tombstone. -/
def foundNode (found : Option (FrugalList.FrugalNode (Option P))) : Except Fault (Option (ℕ × P)) :=
  match found with
  | none => .ok none
  | some node =>
    match node.payload with
    | some payload => .ok (some (node.insertVersion, payload))
    | none => .error .unwrapNone

/-- Insert version and payload of the version live at `version`. -/
def find (version : ℕ) : VersionIndex skipMap → Except Fault (Option (ℕ × P))
  | .vanilla list => .ok ((list.find version).map (fun e => (e.insertVersion, e.payload)))
  | .skipList map => .ok (findSkip skipMap map version)
  | .frugalSkipList head => do foundNode (← findChain head version)
  | .vWeaver head => do foundNode (← findChain head version)

def push (insertVersion : ℕ) (payload : P) (toss : Bool) :
    VersionIndex skipMap → Except Fault (VersionIndex skipMap)
  | .frugalSkipList head =>
    return .frugalSkipList (← appendChain head (some payload) insertVersion toss)
  | .vanilla list => .ok (.vanilla (list.append insertVersion payload))
  | .skipList map => return .skipList (← pushSkip skipMap map insertVersion payload)
  | .vWeaver head => return .vWeaver (← appendChain head (some payload) insertVersion toss)

def append (insertVersion : ℕ) (payload : P) (toss : Bool) :
    VersionIndex skipMap → Except Fault (VersionIndex skipMap)
  | .frugalSkipList head =>
    return .frugalSkipList (← appendChain head (some payload) insertVersion toss)
  | .vanilla list => .ok (.vanilla (list.append insertVersion payload))
  | .skipList map => return .skipList (← appendSkip skipMap map insertVersion payload)
  | .vWeaver head => return .vWeaver (← appendChain head (some payload) insertVersion toss)

def delete (delVersion : ℕ) (toss : Bool) :
    VersionIndex skipMap → Except Fault (VersionIndex skipMap)
  | .frugalSkipList head => return .frugalSkipList (← deleteChain head delVersion toss)
  | .vanilla list => .ok (.vanilla (list.delete delVersion))
  | .skipList map => return .skipList (← deleteSkip skipMap map delVersion)
  | .vWeaver head => return .vWeaver (← deleteChain head delVersion toss)

def isLive : VersionIndex skipMap → Except Fault Bool
  | .vanilla list => .ok list.isLive
  | .skipList map => skipIsLive skipMap map
  | .frugalSkipList head => .ok (chainIsLive head)
  | .vWeaver head => .ok (chainIsLive head)

/-- The skip map and the VWEAVER list are shared with the clone, the other two
are copied. -/
def clone (tosses : ℕ → Bool) : VersionIndex skipMap → Except Fault (VersionIndex skipMap)
  | .vanilla list =>
    match list.clone with
    | head :: older => .ok (.vanilla ⟨head, older⟩)
    | [] => .error .unwrapNone
  | .skipList map => .ok (.skipList map)
  | .frugalSkipList head => return .frugalSkipList (← cloneFrugal tosses head)
  | .vWeaver head => .ok (.vWeaver head)

end VersionIndex

/-! ## Histories -/

/-- The operations on one chain, with the tosses they use. -/
inductive Op (P : Type) where
  | push (version : ℕ) (payload : P) (toss : Bool)
  | append (version : ℕ) (payload : P) (toss : Bool)
  | delete (version : ℕ) (toss : Bool)
  | clone (tosses : ℕ → Bool)

def Op.run {P : Type} {skipMap : Mutable (RecordInfo P)} :
    Op P → VersionIndex skipMap → Except Fault (VersionIndex skipMap)
  | .push version payload toss => VersionIndex.push version payload toss
  | .append version payload toss => VersionIndex.append version payload toss
  | .delete version toss => VersionIndex.delete version toss
  | .clone tosses => VersionIndex.clone tosses

def runOps {P : Type} {skipMap : Mutable (RecordInfo P)} :
    List (Op P) → VersionIndex skipMap → Except Fault (VersionIndex skipMap)
  | [], index => .ok index
  | op :: ops, index => do runOps ops (← op.run index)

/-- The reference history of a record, newest first: what it was set to, and when;
`none` stands for a deletion. -/
abbrev Story (P : Type) := List (Option P × ℕ)

namespace Story
variable {P : Type}

/-- The newest state is live. -/
def live (story : Story P) : Bool := (story.head?.bind Prod.fst).isSome

/-- The payload live at a version, with the version that set it. -/
def liveAt (story : Story P) (version : ℕ) : Option (ℕ × P) :=
  match story.find? (fun x => decide (x.2 ≤ version)) with
  | some (some payload, w) => some (w, payload)
  | _ => none

/-- An operation on the reference history; deleting twice changes nothing. -/
def step (story : Story P) : Op P → Story P
  | .push version payload _ => (some payload, version) :: story
  | .append version payload _ => (some payload, version) :: story
  | .delete version _ => if story.live then (none, version) :: story else story
  | .clone _ => story

end Story

/-- The versions of a history strictly increase and stay below `2 ^ 63`, and
`append` is used while the record is live. -/
def Valid {P : Type} (last : ℕ) (story : Story P) : List (Op P) → Prop
  | [] => True
  | op :: ops =>
    match op with
    | .push version _ _ => last < version ∧ version < 2 ^ 63 ∧ Valid version (story.step op) ops
    | .append version _ _ => story.live = true ∧ last < version ∧ version < 2 ^ 63 ∧
        Valid version (story.step op) ops
    | .delete version _ => last < version ∧ version < 2 ^ 63 ∧ Valid version (story.step op) ops
    | .clone _ => Valid last story ops

end CMVBT.VersionChain
