import CMVBT.BaselineContents
import CMVBT.BaselineScan

/-!
# Point reads under the locking strategies

`dispatch` has two arms for `CRUDOperation::Point`, chosen by the strategy. Both go
down to the leaf of the key and search it. The optimistic one answers `None` for a
key without a record and for a record without a visible version. The other one maps
the second case to a default record. `RecordPoint` and its default belong to
another crate, so the default is a parameter.
-/
namespace CMVBT.PointLookup
open PageModel hiding Node startVersion
open OrderedMap (sortedList)
open KeyInterval VersionChain SeparatorRow BaselinePages BaselineTree
  BaselineContents BaselineScan

variable {K V P : Type} [LinearOrder K]

/-! ## The two arms -/

/-- Levels and attempts of a strategy do not matter here. -/
inductive LockingStrategy where
  | monoWriter
  | lockCoupling
  | orwc
  | olc
  | lightweightHybridLock
  | hybridLocking
deriving DecidableEq, Repr

def LockingStrategy.isOptimistic : LockingStrategy → Bool
  | .olc => true
  | .hybridLocking => true
  | .lightweightHybridLock => true
  | _ => false

/-- `traversal_read`: each lock is taken at once, and nothing is validated. -/
def traversalRead (cfg : TreeConfig K V P) (key : K) :
    ℕ → Node K V → Except Fault (List (VersionedRecordPoint K V))
  | 0, _ => .error .outOfFuel
  | _ + 1, .leaf records => .ok records
  | fuel + 1, .index keys children => do
    let (_, nextBlock) ← nextNode keys children (cfg.keys.incKey key)
    traversalRead cfg key fuel nextBlock

/-- The arm without the guard `if olc`. -/
def dispatchPointLocked (recordDefault : K × P) (cfg : TreeConfig K V P) (fuel : ℕ)
    (tree : VersionTree K V) (key : K) (version : ℕ) : Except Fault (Option (K × P)) := do
  let records ← traversalRead cfg key fuel tree.root
  match Node.searchRecords records key with
  | .ok pos => do
    let record ← getUnchecked records pos
    let found ← cfg.index.find version record.versionIndex
    -- `unwrap_or_default` inside of `map`
    return some ((found.map (fun found => (key, found.2))).getD recordDefault)
  | .error _ => return none

/-- `dispatch` of `CRUDOperation::Point`; the answer is what `MatchedRecord` holds. -/
def dispatchPointWith (recordDefault : K × P) (cfg : TreeConfig K V P) (strategy : LockingStrategy)
    (fuel : ℕ) (tree : VersionTree K V) (key : K) (version : ℕ) : Except Fault (Option (K × P)) :=
  if strategy.isOptimistic then cfg.dispatchPoint fuel tree key version
  else dispatchPointLocked recordDefault cfg fuel tree key version

/-! ## What a point read is for -/

/-- The answer of a point read over records: the version of the key that is live, if
there is one. -/
structure Looks (index : IndexOps V P) (records : List (VersionedRecordPoint K V)) (key : K)
    (version : ℕ) (answer : Except Fault (Option (K × P))) : Prop where
  stored : ∀ r ∈ records, r.key = key →
    answer = (index.find version r.versionIndex).map (fun found => found.map fun v => (key, v.2))
  absent : (∀ r ∈ records, r.key ≠ key) → answer = .ok none

/-- The records of a key that have no version for a read. -/
def Hidden (index : IndexOps V P) (records : List (VersionedRecordPoint K V)) (key : K)
    (version : ℕ) : Prop :=
  ∃ r ∈ records, r.key = key ∧ index.find version r.versionIndex = .ok none

variable {cfg : TreeConfig K V P} {tree : VersionTree K V} {h fuel : ℕ} {key : K} {version : ℕ}
  {recordDefault : K × P}

theorem traversalRead_eq (cfg : TreeConfig K V P) (key : K) (fuel : ℕ) (node : Node K V) :
    traversalRead cfg key fuel node = traversalReadOlc cfg key fuel node := by
  induction fuel generalizing node with
  | zero => rfl
  | succ fuel ih =>
    cases node with
    | leaf => rfl
    | index keys children =>
      rw [traversalRead, traversalReadOlc]
      simp only [ih]

/-- What both arms see of a search tree: the record of the key, or that there is none. -/
theorem read_cases (ho : Ordered cfg.keys h cfg.keys.full tree.root) (hfuel : h + 1 ≤ fuel)
    (key : K) (recordDefault : K × P) (version : ℕ) :
    (∃ r ∈ contents h tree.root, r.key = key ∧
      (∀ r' ∈ contents h tree.root, r'.key = key → r' = r) ∧
      cfg.dispatchPoint fuel tree key version = (do
        let found ← cfg.index.find version r.versionIndex
        return found.map (fun v => (key, v.2))) ∧
      dispatchPointLocked recordDefault cfg fuel tree key version = (do
        let found ← cfg.index.find version r.versionIndex
        return some ((found.map (fun v => (key, v.2))).getD recordDefault))) ∨
    (∀ r ∈ contents h tree.root, r.key ≠ key) ∧
      cfg.dispatchPoint fuel tree key version = .ok none ∧
      dispatchPointLocked recordDefault cfg fuel tree key version = .ok none := by
  obtain ⟨records, hrun, hsorted, hmem⟩ :=
    traversalReadOlc_ordered ho (cfg.keys.mem_full key) hfuel
  have hlocked : traversalRead cfg key fuel tree.root = .ok records := by
    rw [traversalRead_eq, hrun]
  cases hsearch : Node.searchRecords records key with
  | ok pos =>
    obtain ⟨r, hget, hr⟩ := binarySearchByKey_ok hsearch
    have hin : r ∈ records := List.mem_of_getElem? hget
    refine .inl ⟨r, (hmem r hr).mpr hin, hr, fun r' hr' hkey => ?_, ?_, ?_⟩
    · exact sorted_unique hsorted ((hmem r' hkey).mp hr') hin (hkey.trans hr.symm)
    · simp only [TreeConfig.dispatchPoint, hrun, ok_bind, hsearch, getUnchecked_eq hget]
    · simp only [dispatchPointLocked, hlocked, ok_bind, hsearch, getUnchecked_eq hget]
  | error pos =>
    obtain ⟨-, hbefore, hafter⟩ := binarySearchByKey_error hsorted hsearch
    refine .inr ⟨fun r hr hkey => ?_, ?_, ?_⟩
    · have hin := (hmem r hkey).mp hr
      rw [← List.take_append_drop pos records] at hin
      rcases List.mem_append.mp hin with hin | hin
      · exact absurd hkey (hbefore r hin).ne
      · exact absurd hkey (hafter r hin).ne'
    · simp only [TreeConfig.dispatchPoint, hrun, ok_bind, hsearch]
      rfl
    · simp only [dispatchPointLocked, hlocked, ok_bind, hsearch]
      rfl

/-- The optimistic arm looks the key up. -/
theorem dispatchPoint_looks (ho : Ordered cfg.keys h cfg.keys.full tree.root)
    (hfuel : h + 1 ≤ fuel) (key : K) (version : ℕ) (recordDefault : K × P) :
    Looks cfg.index (contents h tree.root) key version
      (cfg.dispatchPoint fuel tree key version) := by
  rcases read_cases ho hfuel key recordDefault version with
    ⟨r, hr, hkey, huniq, hpoint, -⟩ | ⟨hnone, hpoint, -⟩
  · refine ⟨fun r' hr' hkey' => ?_, fun hnone => absurd hkey (hnone r hr)⟩
    rw [huniq r' hr' hkey', hpoint]
    cases cfg.index.find version r.versionIndex <;> rfl
  · exact ⟨fun r hr hkey => absurd hkey (hnone r hr), fun _ => hpoint⟩

/-- The arms agree unless the key is stored without a version for the read. -/
theorem locked_eq_iff (ho : Ordered cfg.keys h cfg.keys.full tree.root) (hfuel : h + 1 ≤ fuel) :
    dispatchPointLocked recordDefault cfg fuel tree key version =
        cfg.dispatchPoint fuel tree key version ↔
      ¬ Hidden cfg.index (contents h tree.root) key version := by
  rcases read_cases ho hfuel key recordDefault version with
    ⟨r, hr, hkey, huniq, hpoint, hlocked⟩ | ⟨hnone, hpoint, hlocked⟩
  · have hhidden : Hidden cfg.index (contents h tree.root) key version ↔
        cfg.index.find version r.versionIndex = .ok none := by
      refine ⟨?_, fun hfind => ⟨r, hr, hkey, hfind⟩⟩
      rintro ⟨r', hr', hkey', hfind⟩
      rwa [huniq r' hr' hkey'] at hfind
    rw [hhidden, hpoint, hlocked]
    cases hfind : cfg.index.find version r.versionIndex with
    | error fault => exact iff_of_true rfl (fun hnone => by cases hnone)
    | ok found =>
      cases found with
      | none => exact iff_of_false (fun heq => by cases heq) (fun hne => hne rfl)
      | some v => exact iff_of_true rfl (fun hnone => by cases hnone)
  · rw [hpoint, hlocked]
    refine ⟨fun _ => ?_, fun _ => rfl⟩
    rintro ⟨r, hr, hkey, -⟩
    exact hnone r hr hkey

/-- For every search tree, key and version, whatever the index of the records: a
point read under a strategy that is not optimistic answers as an optimistic one, and
as it should, if and only if the tree does not store the key without a version that
is live at the one of the read. -/
theorem locked_point_agrees_iff (recordDefault : K × P) {strategy strategy' : LockingStrategy}
    (hs : strategy.isOptimistic = false) (hs' : strategy'.isOptimistic = true)
    (ho : Ordered cfg.keys h cfg.keys.full tree.root) (hfuel : h + 1 ≤ fuel) (key : K)
    (version : ℕ) :
    (dispatchPointWith recordDefault cfg strategy fuel tree key version =
        dispatchPointWith recordDefault cfg strategy' fuel tree key version ∧
      Looks cfg.index (contents h tree.root) key version
        (dispatchPointWith recordDefault cfg strategy fuel tree key version)) ↔
      ¬ Hidden cfg.index (contents h tree.root) key version := by
  have hlooks := dispatchPoint_looks ho hfuel key version recordDefault
  unfold dispatchPointWith
  rw [hs, hs', if_neg Bool.false_ne_true, if_pos rfl]
  rw [← @locked_eq_iff K V P _ cfg tree h fuel key version recordDefault ho hfuel]
  exact ⟨fun hboth => hboth.1, fun heq => ⟨heq, heq ▸ hlooks⟩⟩

/-- The keys 5, 7 and 9 in two leaves, set at the versions 1 to 3. -/
def twoLeaves : MVBPlusTree UInt64 (sortedList (RecordInfo ℕ)) :=
  ⟨.index [7] [.leaf [⟨5, .new .vanilla 50 1⟩],
    .leaf [⟨7, .new .vanilla 70 2⟩, ⟨9, .new .vanilla 90 3⟩]], 4⟩

theorem locked_point_agrees_iff_two_leaves :
    dispatchPointWith (0, 0) indexConfig.tree .monoWriter 2 twoLeaves 7 3 = .ok (some (7, 70)) ∧
      dispatchPointWith (0, 0) indexConfig.tree .monoWriter 2 twoLeaves 7 3 =
        dispatchPointWith (0, 0) indexConfig.tree .olc 2 twoLeaves 7 3 ∧
      Looks indexConfig.tree.index (contents 1 twoLeaves.root) 7 3
        (dispatchPointWith (0, 0) indexConfig.tree .monoWriter 2 twoLeaves 7 3) := by
  have hordered : Ordered indexConfig.tree.keys 1 indexConfig.tree.keys.full twoLeaves.root := by
    refine .cons (by decide) (by decide) (by decide) ⟨List.pairwise_singleton _ _, ?_⟩
      (.last ⟨List.pairwise_pair.mpr (by decide), ?_⟩)
    · rw [List.forall_mem_singleton]
      exact ⟨by decide, by decide⟩
    · rw [List.forall_mem_cons, List.forall_mem_singleton]
      exact ⟨⟨by decide, by decide⟩, by decide, by decide⟩
  refine ⟨rfl, (locked_point_agrees_iff (0, 0)
    (show LockingStrategy.monoWriter.isOptimistic = false from rfl)
    (show LockingStrategy.olc.isOptimistic = true from rfl) hordered le_rfl 7 3).mpr ?_⟩
  -- each record has a version that is live at version 3
  rintro ⟨r, hr, -, hfind⟩
  simp only [twoLeaves, contents, List.flatMap_cons, List.flatMap_nil, List.append_nil,
    List.cons_append, List.nil_append, List.mem_cons, List.not_mem_nil, or_false] at hr
  rcases hr with rfl | rfl | rfl <;> cases hfind

/-- Key 5 is set and deleted. Read at its deletion, the default record comes back
under `MonoWriter`, and nothing under `OLC`. -/
theorem locked_point_invents_record :
    ∃ tree : MVBPlusTree UInt64 (sortedList (RecordInfo ℕ)),
      run indexConfig 7 newWith [(.insert 5 50, true), (.delete 5, true)] =
        .ok (tree, [.inserted 1, .deleted 2]) ∧
      dispatchPointWith (0, 0) indexConfig.tree .monoWriter 1 tree 5 2 = .ok (some (0, 0)) ∧
      dispatchPointWith (0, 0) indexConfig.tree .olc 1 tree 5 2 = .ok none :=
  ⟨_, rfl, rfl, rfl⟩

end CMVBT.PointLookup
