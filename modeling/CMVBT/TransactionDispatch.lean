import CMVBT.ClockFrame

/-!
# Transactions and single operations

A transaction runs its operations in one isolated snapshot, and a single
operation may also be dispatched without the queue around it. The two dispatchers
resolve a missing snapshot on their own: a transaction takes `Version::MAX`, the
atomic path the committed snapshot of the moment. The atomic path looks that
snapshot up even if it has one already.
-/
namespace CMVBT.TransactionDispatch
open KeyInterval PageModel CommitClock Tracker CMVBT.Tree WritePath ReadPath RandomOperations
open Coupling ClockFrame FreshTree

/-! ## Operations -/

inductive CrudOperation (K P : Type) where
  | empty
  | insert (key : K) (payload : P)
  | update (key : K) (payload : P)
  | delete (key : K)
  | point (key : K) (version : ℕ)
  | pointSi (key : K)
  | range (range : Interval K) (version : ℕ)
  | rangeSi (range : Interval K)
  | rangeIter (range : Interval K) (version : ℕ)
  | rangeIterSi (range : Interval K)
  | updateRand
  | deleteRand
  | insertRand

inductive CrudOperationResult (K P : Type) where
  | matchedRecords (records : List (RecordPointResult K P))
  | matchedRecordIter (iter : RangeQueryIter K P)
  | inserted (version : ℕ)
  | updated (version : ℕ)
  | deleted (version : ℕ)
  | insertedRand (key : K) (version : ℕ)
  | updatedRand (key : K) (version : ℕ)
  | deletedRand (key : K) (version : ℕ)
  | zeroAffected (reason : InnerReason)
  | error

namespace CrudOperationResult
variable {K P : Type}

def ofWrite : WriteResult → CrudOperationResult K P
  | .inserted version => .inserted version
  | .updated version => .updated version
  | .deleted version => .deleted version
  | .zeroAffected reason => .zeroAffected reason

def ofRandom : RandomResult K → CrudOperationResult K P
  | .insertedRand key version => .insertedRand key version
  | .updatedRand key version => .updatedRand key version
  | .deletedRand key version => .deletedRand key version
  | .zeroAffected reason => .zeroAffected reason

end CrudOperationResult

variable {P : Type} [Inhabited P] (cfg : Config UInt64) (fuel calls : ℕ)

/-- `dispatch_crud` of the tree. `fuel` bounds the rounds of a loop, `calls` how
often an iterator is asked and a random insert starts again. -/
def dispatchCrud (draws : Draws) (t : MVBTSt UInt64 P) :
    CrudOperation UInt64 P → Except Fault (MVBTSt UInt64 P × CrudOperationResult UInt64 P)
  | .insert key payload => do
    let (t, r) ← dispatchWrite cfg t (.insert key payload)
    return (t, .ofWrite r)
  | .update key payload => do
    let (t, r) ← dispatchWrite cfg t (.update key payload)
    return (t, .ofWrite r)
  | .delete key => do
    let (t, r) ← dispatchWrite cfg t (.delete key)
    return (t, .ofWrite r)
  | .range range version => do
    let (t, records) ← dispatchRange cfg fuel calls t range version
    return (t, .matchedRecords records)
  | .point key version => do
    let (t, records) ← dispatchPoint t key version
    return (t, .matchedRecords records)
  | .rangeIter range version => do
    let (t, iter) ← RangeQueryIter.new cfg t version range
    return (t, .matchedRecordIter iter)
  | .updateRand => do
    let (t, r) ← dispatchUpdateRand cfg fuel t draws
    return (t, .ofRandom r)
  | .deleteRand => do
    let (t, r) ← dispatchDeleteRand cfg fuel t draws
    return (t, .ofRandom r)
  | .insertRand => do
    let (t, r) ← dispatchInsertRand cfg fuel calls t draws
    return (t, .ofRandom r)
  | _ => return (t, .error)

/-- `dispatch_crud` of an `IsolatedSnapShot` on the tree. -/
def dispatchCrudIsolated (snapshot : ℕ) (draws : Draws) (t : MVBTSt UInt64 P) :
    CrudOperation UInt64 P → Except Fault (MVBTSt UInt64 P × CrudOperationResult UInt64 P)
  | .pointSi key => dispatchCrud cfg fuel calls draws t (.point key snapshot)
  | .rangeSi range => dispatchCrud cfg fuel calls draws t (.range range snapshot)
  | .rangeIterSi range => dispatchCrud cfg fuel calls draws t (.rangeIter range snapshot)
  | operation => dispatchCrud cfg fuel calls draws t operation

/-! ## Transactions -/

structure Transaction (K P : Type) where
  snapshot : Option ℕ
  crud : List (CrudOperation K P)

structure AtomicTransaction (K P : Type) where
  snapshot : Option ℕ
  crud : CrudOperation K P

def AtomicTransaction.intoTransaction {K P : Type} (tx : AtomicTransaction K P) :
    Transaction K P :=
  ⟨tx.snapshot, [tx.crud]⟩

/-- The method `snapshot` of a transaction. -/
def Transaction.snapshotOrMax {K P : Type} (tx : Transaction K P) : ℕ :=
  tx.snapshot.getD versionMax

abbrev TransactionResult (K P : Type) :=
  Except (Transaction K P × List (CrudOperationResult K P)) (ℕ × List (CrudOperationResult K P))

abbrev AtomicTransactionResult (K P : Type) := Except ℕ (ℕ × CrudOperationResult K P)

/-- The loop of `dispatch_transaction` with the results so far. The operation
number `i` has random draws of its own. -/
def dispatchQueue (snapshot : ℕ) (draws : ℕ → Draws) (t : MVBTSt UInt64 P)
    (result : List (CrudOperationResult UInt64 P)) : List (CrudOperation UInt64 P) →
    Except Fault (MVBTSt UInt64 P × Except
      (List (CrudOperation UInt64 P) × List (CrudOperationResult UInt64 P))
      (List (CrudOperationResult UInt64 P)))
  | [] => return (t, .ok result)
  | crud :: queue => do
    match ← dispatchCrudIsolated cfg fuel calls snapshot (draws 0) t crud with
    | (t, .error) => return (t, .error (queue, result ++ [.error]))
    | (t, res) => dispatchQueue snapshot (fun i => draws (i + 1)) t (result ++ [res]) queue

def dispatchTransaction (draws : ℕ → Draws) (t : MVBTSt UInt64 P) (tx : Transaction UInt64 P) :
    Except Fault (MVBTSt UInt64 P × TransactionResult UInt64 P) := do
  match ← dispatchQueue cfg fuel calls tx.snapshotOrMax draws t [] tx.crud with
  | (t, .error (queue, result)) => return (t, .error ({ tx with crud := queue }, result))
  | (t, .ok result) => return (t, .ok (tx.snapshotOrMax, result))

/-- `snapshot_current` is an argument of `unwrap_or`, so the clock is asked in any case. -/
def dispatchAtomicTransaction (draws : Draws) (t : MVBTSt UInt64 P)
    (tx : AtomicTransaction UInt64 P) :
    Except Fault (MVBTSt UInt64 P × AtomicTransactionResult UInt64 P) := do
  let (commit, current) := t.commit.currentVersionForReader t.tid
  let t := { t with commit := commit }
  let snapshot := tx.snapshot.getD current
  match ← dispatchCrudIsolated cfg fuel calls snapshot draws t tx.crud with
  | (t, .error) => return (t, .error snapshot)
  | (t, result) => return (t, .ok (snapshot, result))

section Results
variable {K P : Type}

def snapshotFromTxResult : TransactionResult K P → ℕ
  | .ok (snapshot, _) => snapshot
  | .error (tx, _) => tx.snapshotOrMax

def snapshotFromAtomicTxResult : AtomicTransactionResult K P → ℕ
  | .ok (snapshot, _) => snapshot
  | .error snapshot => snapshot

def resultsOf : TransactionResult K P → List (CrudOperationResult K P)
  | .ok (_, results) => results
  | .error (_, results) => results

def resultOf : AtomicTransactionResult K P → CrudOperationResult K P
  | .ok (_, result) => result
  | .error _ => .error

/-- The same snapshot, the same result and the same tree. -/
structure SamePackage (p : MVBTSt K P × TransactionResult K P)
    (q : MVBTSt K P × AtomicTransactionResult K P) : Prop where
  snapshot : snapshotFromTxResult p.2 = snapshotFromAtomicTxResult q.2
  result : resultsOf p.2 = [resultOf q.2]
  tree : SameTree p.1 q.1

end Results

/-! ## The look at the clock -/

/-- The operations that may ask the collector for a block. -/
def CrudOperation.modifies {K P : Type} : CrudOperation K P → Bool
  | .insert _ _ | .update _ _ | .delete _ | .updateRand | .deleteRand | .insertRand => true
  | _ => false

/-- How many reads in a row may precede an operation for the look at the clock to
go unnoticed: an in-place `UpdateRand` reads once more itself. -/
def CrudOperation.readsBefore {K P : Type} : CrudOperation K P → ℕ
  | .updateRand => maxReadsInRow - 1
  | _ => maxReadsInRow

/-- With a collector at work, a look at the clock before the operation retires no
slot and has an active slot to fold. -/
def Undisturbed {K P : Type} (t : MVBTSt K P) (crud : CrudOperation K P) : Prop :=
  crud.modifies = true → t.tracker.isSome →
    Rested t.tid crud.readsBefore t.commit ∧ (t.commit.globalDirty = .clean ∨ SomeActive t.commit)

theorem undisturbed_of_read {K P : Type} (t : MVBTSt K P) {crud : CrudOperation K P}
    (h : crud.modifies = false) : Undisturbed t crud := by
  intro hmod
  rw [h] at hmod
  cases hmod

section Look

def look {K P : Type} (t : MVBTSt K P) : MVBTSt K P :=
  { t with commit := (t.commit.currentVersionForReader t.tid).1 }

theorem look_same {K P : Type} (t : MVBTSt K P) : SameTree t (look t) :=
  ⟨rfl, rfl, rfl, rfl, rfl, rfl, rfl⟩

/-- An operation that modifies the tree cannot tell whether the clock was asked before. -/
theorem look_alike {K P : Type} {t : MVBTSt K P} {crud : CrudOperation K P}
    (hmod : crud.modifies = true)
    (h : Undisturbed t crud) : ∃ C watched,
      Indistinct t.tid watched (crud = .updateRand) C ∧ Alike C t.tid watched t (look t) := by
  have hsame := look_same t
  cases htr : t.tracker with
  | none =>
    have hclock : (look t).commit.clock = t.commit.clock :=
      CommitState.committedRead_clock t.commit t.tid t.commit.clock
    refine ⟨fun c c' => c'.clock = c.clock, False, indistinct_unwatched _ _, ?_⟩
    exact { hsame with commit := hclock, thread := rfl, gc := by simp [htr] }
  | some tracker =>
    obtain ⟨hrested, hfold⟩ := h hmod (by rw [htr]; rfl)
    have hmax : Rested t.tid maxReadsInRow t.commit := by
      refine hrested.imp_right (fun hle => hle.trans ?_)
      cases crud <;> simp [CrudOperation.readsBefore]
    have hrand : crud = .updateRand → Rested t.tid (maxReadsInRow - 1) t.commit := by
      intro heq
      rwa [heq] at hrested
    obtain ⟨m, hlevel⟩ := level_look hmax hrand hfold
    refine ⟨_, True, indistinct_level t.tid m _, ?_⟩
    exact { hsame with commit := hlevel, thread := rfl, gc := fun _ => trivial }

theorem dispatchCrud_look (draws : Draws) {t : MVBTSt UInt64 P} {crud : CrudOperation UInt64 P}
    (h : Undisturbed t crud) :
    Coupled (Beside SameTree) (dispatchCrud cfg fuel calls draws t crud)
      (dispatchCrud cfg fuel calls draws (look t) crud) := by
  have hsame := look_same t
  have hwrite : ∀ op, crud.modifies = true →
      Coupled (Beside SameTree) (dispatchWrite cfg t op) (dispatchWrite cfg (look t) op) := by
    intro op hmod
    obtain ⟨C, watched, hC, halike⟩ := look_alike hmod h
    exact (dispatchWrite_alike cfg hC halike op).mono (fun p q hp => ⟨hp.1.toSameTree, hp.2⟩)
  cases crud with
  | empty | pointSi | rangeSi | rangeIterSi => exact .ok ⟨hsame, rfl⟩
  | insert key payload => exact .bind_beside (hwrite _ rfl) (fun s s' r hs => .ok ⟨hs, rfl⟩)
  | update key payload => exact .bind_beside (hwrite _ rfl) (fun s s' r hs => .ok ⟨hs, rfl⟩)
  | delete key => exact .bind_beside (hwrite _ rfl) (fun s s' r hs => .ok ⟨hs, rfl⟩)
  | point key version =>
    exact .bind_beside (hsame.dispatchPoint key version) (fun s s' r hs => .ok ⟨hs, rfl⟩)
  | range range version =>
    exact .bind_beside (hsame.dispatchRange cfg fuel calls range version)
      (fun s s' r hs => .ok ⟨hs, rfl⟩)
  | rangeIter range version =>
    exact .bind_beside (hsame.newIter cfg version range) (fun s s' it hs => .ok ⟨hs, rfl⟩)
  | updateRand =>
    obtain ⟨C, watched, hC, halike⟩ := look_alike rfl h
    exact .bind_beside (dispatchUpdateRand_alike cfg hC halike rfl fuel draws)
      (fun s s' r hs => .ok ⟨hs, rfl⟩)
  | deleteRand =>
    obtain ⟨C, watched, hC, halike⟩ := look_alike rfl h
    exact .bind_beside (dispatchDeleteRand_alike cfg hC halike fuel draws)
      (fun s s' r hs => .ok ⟨hs.toSameTree, rfl⟩)
  | insertRand =>
    obtain ⟨C, watched, hC, halike⟩ := look_alike rfl h
    exact .bind_beside (dispatchInsertRand_alike cfg hC halike fuel calls draws)
      (fun s s' r hs => .ok ⟨hs.toSameTree, rfl⟩)

theorem dispatchCrudIsolated_look (snapshot : ℕ) (draws : Draws) {t : MVBTSt UInt64 P}
    {crud : CrudOperation UInt64 P} (h : Undisturbed t crud) :
    Coupled (Beside SameTree) (dispatchCrudIsolated cfg fuel calls snapshot draws t crud)
      (dispatchCrudIsolated cfg fuel calls snapshot draws (look t) crud) := by
  cases crud with
  | pointSi key =>
    have hread : Undisturbed t (.point key snapshot : CrudOperation UInt64 P) :=
      undisturbed_of_read t rfl
    exact dispatchCrud_look cfg fuel calls draws hread
  | rangeSi range =>
    have hread : Undisturbed t (.range range snapshot : CrudOperation UInt64 P) :=
      undisturbed_of_read t rfl
    exact dispatchCrud_look cfg fuel calls draws hread
  | rangeIterSi range =>
    have hread : Undisturbed t (.rangeIter range snapshot : CrudOperation UInt64 P) :=
      undisturbed_of_read t rfl
    exact dispatchCrud_look cfg fuel calls draws hread
  | _ => exact dispatchCrud_look cfg fuel calls draws h

end Look

/-- After a hundred reads in a row the look at the clock retires the slot of the
thread, and an in-place `UpdateRand` answers with a later version. -/
example : ∃ t : MVBTSt UInt64 ℕ,
    runWrites ⟨125, 125, u64Space⟩ (enableGc (make (fun _ => .next) 1 0) true) [.insert 7 70] =
      .ok (t, [.inserted 1]) ∧
    (dispatchUpdateRand ⟨125, 125, u64Space⟩ 4 (look^[100] t) (fun _ => 0)).map Prod.snd =
      .ok (.updatedRand 7 1) ∧
    (dispatchUpdateRand ⟨125, 125, u64Space⟩ 4 (look (look^[100] t)) (fun _ => 0)).map Prod.snd =
      .ok (.updatedRand 7 2) := by
  refine ⟨_, rfl, ?_, ?_⟩
  · decide +kernel
  · decide +kernel

/-! ## The two packages -/

section Packages
variable {K P : Type}

/-- What a transaction of one operation makes of its result. -/
def packed (snapshot : Option ℕ) : CrudOperationResult K P → TransactionResult K P
  | .error => .error (⟨snapshot, []⟩, [.error])
  | result => .ok (snapshot.getD versionMax, [result])

def packedAtomic (snapshot : ℕ) : CrudOperationResult K P → AtomicTransactionResult K P
  | .error => .error snapshot
  | result => .ok (snapshot, result)

@[simp] theorem packed_snapshot (snapshot : Option ℕ) (r : CrudOperationResult K P) :
    snapshotFromTxResult (packed snapshot r) = snapshot.getD versionMax := by
  cases r <;> rfl

@[simp] theorem packed_results (snapshot : Option ℕ) (r : CrudOperationResult K P) :
    resultsOf (packed snapshot r) = [r] := by
  cases r <;> rfl

@[simp] theorem packedAtomic_snapshot (snapshot : ℕ) (r : CrudOperationResult K P) :
    snapshotFromAtomicTxResult (packedAtomic snapshot r) = snapshot := by
  cases r <;> rfl

@[simp] theorem packedAtomic_result (snapshot : ℕ) (r : CrudOperationResult K P) :
    resultOf (packedAtomic snapshot r) = r := by
  cases r <;> rfl

end Packages

theorem dispatchTransaction_single (draws : ℕ → Draws) (t : MVBTSt UInt64 P)
    (tx : AtomicTransaction UInt64 P) :
    dispatchTransaction cfg fuel calls draws t tx.intoTransaction =
      (dispatchCrudIsolated cfg fuel calls (tx.snapshot.getD versionMax) (draws 0) t tx.crud).map
        (fun p => (p.1, packed tx.snapshot p.2)) := by
  simp only [dispatchTransaction, AtomicTransaction.intoTransaction, dispatchQueue,
    Transaction.snapshotOrMax]
  cases dispatchCrudIsolated cfg fuel calls (tx.snapshot.getD versionMax) (draws 0) t tx.crud with
  | error e => rfl
  | ok p =>
    obtain ⟨s, r⟩ := p
    cases r <;> rfl

theorem dispatchAtomicTransaction_eq (draws : Draws) (t : MVBTSt UInt64 P)
    (tx : AtomicTransaction UInt64 P) :
    dispatchAtomicTransaction cfg fuel calls draws t tx =
      (dispatchCrudIsolated cfg fuel calls
        (tx.snapshot.getD (t.commit.currentVersionForReader t.tid).2) draws (look t) tx.crud).map
        (fun p => (p.1,
          packedAtomic (tx.snapshot.getD (t.commit.currentVersionForReader t.tid).2) p.2)) := by
  simp only [dispatchAtomicTransaction, look]
  cases dispatchCrudIsolated cfg fuel calls
      (tx.snapshot.getD (t.commit.currentVersionForReader t.tid).2) draws
      { t with commit := (t.commit.currentVersionForReader t.tid).1 } tx.crud with
  | error e => rfl
  | ok p =>
    obtain ⟨s, r⟩ := p
    cases r <;> rfl

/-- Both dispatchers fail alike, or both return the same package. -/
def PackagesAgree (draws : ℕ → Draws) (t : MVBTSt UInt64 P) (tx : AtomicTransaction UInt64 P) :
    Prop :=
  Coupled SamePackage (dispatchTransaction cfg fuel calls draws t tx.intoTransaction)
    (dispatchAtomicTransaction cfg fuel calls (draws 0) t tx)

/-- The transaction names its snapshot, or the committed one is `Version::MAX` anyway. -/
def SnapshotSettled {K P : Type} (t : MVBTSt K P) (tx : AtomicTransaction K P) : Prop :=
  tx.snapshot.isSome ∨ (t.commit.currentVersionForReader t.tid).2 = versionMax

theorem snapshotSettled_iff {K P : Type} {t : MVBTSt K P} {tx : AtomicTransaction K P} :
    SnapshotSettled t tx ↔ tx.snapshot.getD versionMax =
      tx.snapshot.getD (t.commit.currentVersionForReader t.tid).2 := by
  cases hsome : tx.snapshot with
  | some snapshot => simp [SnapshotSettled, hsome]
  | none => simp [SnapshotSettled, hsome, eq_comm]

theorem packagesAgree_of_settled (draws : ℕ → Draws) {t : MVBTSt UInt64 P}
    {tx : AtomicTransaction UInt64 P} (h : Undisturbed t tx.crud) (hs : SnapshotSettled t tx) :
    PackagesAgree cfg fuel calls draws t tx := by
  unfold PackagesAgree
  rw [dispatchTransaction_single, dispatchAtomicTransaction_eq, ← snapshotSettled_iff.mp hs]
  have hlook := dispatchCrudIsolated_look cfg fuel calls (tx.snapshot.getD versionMax) (draws 0) h
  revert hlook
  generalize dispatchCrudIsolated cfg fuel calls _ (draws 0) t tx.crud = left
  generalize dispatchCrudIsolated cfg fuel calls _ (draws 0) (look t) tx.crud = right
  intro hlook
  cases hlook with
  | error e => exact .error e
  | ok hp => exact .ok ⟨by simp, by simp [hp.2], hp.1⟩

/-- Each dispatcher reports the snapshot that it has taken. -/
theorem settled_of_packagesAgree {draws : ℕ → Draws} {t : MVBTSt UInt64 P}
    {tx : AtomicTransaction UInt64 P} {out : MVBTSt UInt64 P × TransactionResult UInt64 P}
    (hout : dispatchTransaction cfg fuel calls draws t tx.intoTransaction = .ok out)
    (h : PackagesAgree cfg fuel calls draws t tx) : SnapshotSettled t tx := by
  obtain ⟨out', hout', hsame⟩ := h.exists_right hout
  rw [dispatchTransaction_single] at hout
  rw [dispatchAtomicTransaction_eq] at hout'
  revert hout hout'
  generalize dispatchCrudIsolated cfg fuel calls _ (draws 0) t tx.crud = left
  generalize dispatchCrudIsolated cfg fuel calls _ (draws 0) (look t) tx.crud = right
  intro hout hout'
  cases left with
  | error e => cases hout
  | ok p =>
    cases right with
    | error e => cases hout'
    | ok q =>
      cases hout
      cases hout'
      have hsnapshot := hsame.snapshot
      simp only [packed_snapshot, packedAtomic_snapshot] at hsnapshot
      exact snapshotSettled_iff.mpr hsnapshot

/-- The package of a single operation makes no difference if the transaction names
its snapshot; with a snapshot to resolve it makes one in every call that returns. -/
theorem packages_agree_iff (draws : ℕ → Draws) {t : MVBTSt UInt64 P}
    {tx : AtomicTransaction UInt64 P} (h : Undisturbed t tx.crud) :
    (SnapshotSettled t tx → PackagesAgree cfg fuel calls draws t tx) ∧
      ∀ out, dispatchTransaction cfg fuel calls draws t tx.intoTransaction = .ok out →
        (PackagesAgree cfg fuel calls draws t tx ↔ SnapshotSettled t tx) := by
  constructor
  · exact packagesAgree_of_settled cfg fuel calls draws h
  · intro out hout
    constructor
    · exact settled_of_packagesAgree cfg fuel calls hout
    · exact packagesAgree_of_settled cfg fuel calls draws h

/-- The first insert into a tree with garbage collection, at a named snapshot. -/
theorem packages_agree_iff_insert :
    (SnapshotSettled (newTree true (fun _ => .next) 1 0)
        (⟨some 1, .insert 7 70⟩ : AtomicTransaction UInt64 ℕ) →
      PackagesAgree ⟨125, 125, u64Space⟩ 4 4 (fun _ _ => 0)
        (newTree true (fun _ => .next) 1 0) ⟨some 1, .insert 7 (70 : ℕ)⟩) ∧
      ∀ out, dispatchTransaction ⟨125, 125, u64Space⟩ 4 4 (fun _ _ => 0)
          (newTree true (fun _ => .next) 1 0) ⟨some 1, [.insert 7 70]⟩ = .ok out →
        (PackagesAgree ⟨125, 125, u64Space⟩ 4 4 (fun _ _ => 0)
            (newTree true (fun _ => .next) 1 0) ⟨some 1, .insert 7 70⟩ ↔
          SnapshotSettled (newTree true (fun _ => .next) 1 0)
            (⟨some 1, .insert 7 70⟩ : AtomicTransaction UInt64 ℕ)) :=
  packages_agree_iff ⟨125, 125, u64Space⟩ 4 4 (fun _ _ => 0)
    (fun _ _ => ⟨.inr (Nat.zero_le _), .inl rfl⟩)

/-- Behind one insert the atomic path reads at its version, the transaction at the
largest one. -/
theorem latest_snapshot_differs : ∃ t : MVBTSt UInt64 ℕ,
    runWrites ⟨125, 125, u64Space⟩ (make (fun _ => .next) 1 0) [.insert 7 70] =
      .ok (t, [.inserted 1]) ∧
    ¬ PackagesAgree ⟨125, 125, u64Space⟩ 4 4 (fun _ _ => 0) t ⟨none, .pointSi 7⟩ := by
  refine ⟨_, rfl, fun h => ?_⟩
  have hsettled := settled_of_packagesAgree _ _ _ rfl h
  simp [SnapshotSettled] at hsettled
  revert hsettled
  decide

end CMVBT.TransactionDispatch
