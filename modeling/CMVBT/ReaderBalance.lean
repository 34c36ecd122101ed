import CMVBT.ReadPath
import CMVBT.BlockSupply
import CMVBT.ActivityPool
import Mathlib.Order.Bounds.Basic

/-!
# Reader registrations balance

Readers, iterators, pins and the transactions of the manager, all on one tracker.
An activity is a value or a call that is still alive: an iterator, a pin, a task
in the queue of the thread pool, a transaction that is being executed. Calls of
different threads interleave between any two operations on the tracker. Writers
and page reads are any change that leaves the registrations and pins alone. A
call that panics is one that never goes on.
-/
namespace CMVBT.ReaderBalance
open KeyInterval PageModel CommitClock Tracker CMVBT.Tree BlockSupply WritePath ReadPath
open ActivityPool

variable {K P : Type}

/-! ## Transactions -/

inductive CRUDOperation (K P : Type) where
  | empty
  | insert (key : K) (payload : P)
  | update (key : K) (payload : P)
  | delete (key : K)
  | point (key : K) (version : ℕ)
  | pointSi (key : K)
  | range (keys : Interval K) (version : ℕ)
  | rangeSi (keys : Interval K)
  | rangeIter (keys : Interval K) (version : ℕ)
  | rangeIterSi (keys : Interval K)
  | updateRand
  | deleteRand
  | insertRand

namespace CRUDOperation

def isRead : CRUDOperation K P → Option ℕ
  | point _ version | rangeIter _ version | range _ version => some version
  | _ => none

/-- The operations that change the tree. -/
def isWriter : CRUDOperation K P → Bool
  | insert .. | update .. | delete _ | updateRand | deleteRand | insertRand => true
  | _ => false

/-- `dispatch_crud` of an `IsolatedSnapShot` fills in its snapshot; on the tree
itself (`none`) nothing is filled in. -/
def isolated (snapshot : Option ℕ) (operation : CRUDOperation K P) : CRUDOperation K P :=
  match operation, snapshot with
  | pointSi key, some si => point key si
  | rangeSi keys, some si => range keys si
  | rangeIterSi keys, some si => rangeIter keys si
  | operation, _ => operation

/-- The last arm of `dispatch_crud` on the tree. -/
def isRefused : CRUDOperation K P → Bool
  | empty | pointSi _ | rangeSi _ | rangeIterSi _ => true
  | _ => false

end CRUDOperation

inductive TransactionHolder (K P : Type) where
  | atomic (snapshot : Option ℕ) (crud : CRUDOperation K P)
  | multi (snapshot : Option ℕ) (crud : List (CRUDOperation K P))

namespace TransactionHolder

def snapshot : TransactionHolder K P → Option ℕ
  | atomic snapshot _ | multi snapshot _ => snapshot

def crud : TransactionHolder K P → List (CRUDOperation K P)
  | atomic _ crud => [crud]
  | multi _ crud => crud

def isRead (tx : TransactionHolder K P) : Bool := tx.crud.all (fun crud => crud.isRead.isSome)

/-- The snapshot a reader transaction is tracked under, `none` for non-readers. -/
def trackedSnapshot (tx : TransactionHolder K P) : Option ℕ :=
  tx.snapshot.filter (fun _ => tx.isRead)

/-- The snapshot under which `execute` isolates the operations. A single operation
without a snapshot draws the current version `now`, a list runs at `MAX`. -/
def isolation (tx : TransactionHolder K P) (now : ℕ) : ℕ :=
  match tx with
  | atomic snapshot _ => snapshot.getD now
  | multi snapshot _ => snapshot.getD versionMax

end TransactionHolder

/-- What the executing closure does with the result of `execute`: hand it to the
caller, send it and release `si`, or drop it, release `si` and go on with the rest
of the batch. -/
inductive After (K P : Type) where
  | hand
  | send (si : Option ℕ)
  | discard (si : Option ℕ) (rest : List (TransactionHolder K P))

/-- A running `dispatch_transaction`: the operations still to be dispatched and the
iterators among the results so far. -/
structure Frame (K P : Type) where
  snapshot : Option ℕ
  crud : List (CRUDOperation K P)
  result : List (RangeQueryIter K P)
  after : After K P

def TransactionHolder.frame (tx : TransactionHolder K P) (now : ℕ) (after : After K P) : Frame K P :=
  ⟨some (tx.isolation now), tx.crud, [], after⟩

inductive Activity (K P : Type) where
  /-- An iterator that is not inside a call. -/
  | iterator (it : RangeQueryIter K P)
  /-- An iterator in the loop of `next`. -/
  | advancing (it : RangeQueryIter K P) (running : it.isCompleted = false)
  | pin (ticket : Ticket)
  /-- Closures in the queue of the pool. -/
  | reader (tx : TransactionHolder K P)
  | nonReader (tx : TransactionHolder K P)
  | batch (txs : List (TransactionHolder K P))
  | dispatching (frame : Frame K P)
  /-- A point read between registration and release. -/
  | pointRead (version : ℕ) (frame : Frame K P)
  /-- `collect` before a call of `next`, in its loop, and after the last answer. -/
  | collecting (it : RangeQueryIter K P) (frame : Frame K P)
  | collectingNext (it : RangeQueryIter K P) (running : it.isCompleted = false) (frame : Frame K P)
  | collected (it : RangeQueryIter K P) (frame : Frame K P)
  /-- Results that are dropped one by one before `si` is released. -/
  | dropping (result : List (RangeQueryIter K P)) (si : Option ℕ)
      (rest : List (TransactionHolder K P))

/-! ## The book of the tracker -/

/-- A change of the tree that leaves registrations and pins alone. -/
def Quiet (t t' : MVBTSt K P) : Prop := trace t' = trace t

def enqBookkeeping (t : MVBTSt K P) (si : Option ℕ) : MVBTSt K P :=
  match si with
  | some snapshot => onAcquireReaderSnapshot t snapshot
  | none => t

def deqBookkeeping (t : MVBTSt K P) (si : Option ℕ) : MVBTSt K P :=
  match si with
  | some snapshot => onReleaseReaderSnapshot t snapshot
  | none => t

def unpinReader (t : MVBTSt K P) (ticket : Ticket) : MVBTSt K P :=
  { t with tracker := t.tracker.map (fun tracker => tracker.unpinReader ticket) }

theorem trace_acquire (t : MVBTSt K P) (s : ℕ) :
    trace (onAcquireReaderSnapshot t s) = (trace t).map (fun live => live.onTxStart s) := by
  cases ht : t.tracker <;> simp [trace, onAcquireReaderSnapshot, ht, TrackerHandle.onTxStart]

theorem trace_release (t : MVBTSt K P) (s : ℕ) :
    trace (onReleaseReaderSnapshot t s) = (trace t).map (fun live => live.onTxCompleted s) := by
  cases ht : t.tracker <;> simp [trace, onReleaseReaderSnapshot, ht, TrackerHandle.onTxCompleted]

theorem trace_pin (t : MVBTSt K P) (lowerBound : ℕ) :
    trace (pinReader t lowerBound) = (trace t).map (fun live => (live.pin lowerBound).1) := by
  cases ht : t.tracker <;> simp [trace, pinReader, ht, TrackerHandle.pinReader]

theorem trace_unpin (t : MVBTSt K P) (ticket : Ticket) :
    trace (unpinReader t ticket) = (trace t).map (fun live => live.unpin ticket) := by
  cases ht : t.tracker <;> simp [trace, unpinReader, ht, TrackerHandle.unpinReader]

/-- Registered snapshots and outstanding pins. -/
abbrev Book := Multiset ℕ × Multiset Ticket

def bookOf (live : TransactionTrace) : Book := (live.queries.map Prod.fst, live.pins)

/-- The book that the tracker of a tree keeps. -/
def book (t : MVBTSt K P) : Book := ((trace t).map bookOf).getD 0

def Tracked (t : MVBTSt K P) : Prop := (trace t).isSome = true

/-- One registration of a snapshot. -/
def registration (snapshot : ℕ) : Book := ({snapshot}, 0)

section Trace
variable {live : TransactionTrace} {rest : Book}

theorem bookOf_onTxStart (live : TransactionTrace) (s : ℕ) :
    bookOf (live.onTxStart s) = registration s + bookOf live := by
  simp [bookOf, registration, TransactionTrace.onTxStart, ← Multiset.cons_coe]

/-- Releasing a snapshot that is registered takes out one of its registrations. -/
theorem bookOf_onTxCompleted {s : ℕ} (h : bookOf live = registration s + rest) :
    bookOf (live.onTxCompleted s) = rest := by
  have hregs : (live.queries.map Prod.fst : Multiset ℕ) = s ::ₘ rest.1 := congrArg Prod.fst h
  have hpins : (live.pins : Multiset Ticket) = rest.2 :=
    (congrArg Prod.snd h).trans (zero_add _)
  have hs : s ∈ live.queries.map Prod.fst := by
    rw [← Multiset.mem_coe, hregs]
    exact Multiset.mem_cons_self s _
  obtain ⟨query, hquery, hfst⟩ := List.mem_map.mp hs
  obtain ⟨ticket, hticket⟩ := front_isSome (k := id) (b := query)
    (l := live.queries.filter (fun a => a.1 == s)) (List.mem_filter.mpr ⟨hquery, by simpa using hfst⟩)
  obtain ⟨hmem, hfirst⟩ := List.mem_filter.mp (front_mem hticket)
  have herase : (live.queries.map Prod.fst : Multiset ℕ) =
      ticket.1 ::ₘ ((live.queries.erase ticket).map Prod.fst : List ℕ) := by
    rw [Multiset.cons_coe, ← List.map_cons]
    exact Multiset.coe_eq_coe.mpr ((List.perm_cons_erase hmem).map Prod.fst)
  rw [hregs, beq_iff_eq.mp hfirst] at herase
  rw [TransactionTrace.onTxCompleted, hticket]
  exact Prod.ext (Multiset.cons_inj_right s |>.mp herase).symm hpins

theorem bookOf_pin (live : TransactionTrace) (lowerBound : ℕ) :
    bookOf (live.pin lowerBound).1 = (0, {(live.pin lowerBound).2}) + bookOf live := by
  simp [bookOf, TransactionTrace.pin, ← Multiset.cons_coe]

theorem bookOf_unpin {ticket : Ticket} (h : bookOf live = (0, {ticket}) + rest) :
    bookOf (live.unpin ticket) = rest := by
  have hregs : (live.queries.map Prod.fst : Multiset ℕ) = rest.1 :=
    (congrArg Prod.fst h).trans (zero_add _)
  have hpins : (live.pins : Multiset Ticket) = ticket ::ₘ rest.2 := congrArg Prod.snd h
  have hmem : ticket ∈ live.pins := by
    rw [← Multiset.mem_coe, hpins]
    exact Multiset.mem_cons_self ticket _
  have herase : (live.pins : Multiset Ticket) =
      ticket ::ₘ ((live.pins.erase ticket : List Ticket) : Multiset Ticket) :=
    Multiset.coe_eq_coe.mpr (List.perm_cons_erase hmem)
  rw [hpins] at herase
  exact Prod.ext hregs (Multiset.cons_inj_right ticket |>.mp herase).symm

end Trace

section Book
variable {t t' : MVBTSt K P} {rest : Book}

/-- Every operation on the tracker is one on registrations and pins. -/
theorem book_of_trace (ht : Tracked t) {f : TransactionTrace → TransactionTrace}
    (h : trace t' = (trace t).map f) :
    Tracked t' ∧ ∃ live, trace t = some live ∧ book t = bookOf live ∧ book t' = bookOf (f live) := by
  obtain ⟨live, hlive⟩ := Option.isSome_iff_exists.mp ht
  rw [hlive] at h
  exact ⟨by rw [Tracked, h]; rfl, live, hlive, by rw [book, hlive]; rfl, by rw [book, h]; rfl⟩

theorem book_quiet (ht : Tracked t) (h : Quiet t t') : Tracked t' ∧ book t' = book t :=
  ⟨by rw [Tracked, h]; exact ht, by rw [book, h]; rfl⟩

theorem book_acquire (ht : Tracked t) (s : ℕ) : Tracked (onAcquireReaderSnapshot t s) ∧
    book (onAcquireReaderSnapshot t s) = registration s + book t := by
  obtain ⟨ht', live, -, hb, hb'⟩ := book_of_trace ht (trace_acquire t s)
  exact ⟨ht', by rw [hb, hb', bookOf_onTxStart]⟩

theorem book_release (ht : Tracked t) {s : ℕ} (h : book t = registration s + rest) :
    Tracked (onReleaseReaderSnapshot t s) ∧ book (onReleaseReaderSnapshot t s) = rest := by
  obtain ⟨ht', live, -, hb, hb'⟩ := book_of_trace ht (trace_release t s)
  exact ⟨ht', hb'.trans (bookOf_onTxCompleted (hb ▸ h))⟩

theorem book_unpin (ht : Tracked t) {ticket : Ticket} (h : book t = (0, {ticket}) + rest) :
    Tracked (unpinReader t ticket) ∧ book (unpinReader t ticket) = rest := by
  obtain ⟨ht', live, -, hb, hb'⟩ := book_of_trace ht (trace_unpin t ticket)
  exact ⟨ht', hb'.trans (bookOf_unpin (hb ▸ h))⟩

end Book

/-! ## Steps -/

/-- What `next` does before its loop: an answer, or on to the loop. -/
def enter (it : RangeQueryIter K P) :
    RangeQueryIter K P × Option (Option (RecordPointResult K P)) :=
  match it.buff with
  | r :: buff => ({ it with buff := buff }, some (some r))
  | [] => if it.isCompleted then (it, some none) else (it, none)

/-- Calls that start: an operation on the tree itself, the four ways to run
transactions, a pin, and whatever other threads write meanwhile. -/
inductive Spawn : MVBTSt K P → MVBTSt K P → Multiset (Activity K P) → Prop
  | write {t t' : MVBTSt K P} : Quiet t t' → Spawn t t' 0
  | dispatchCrud {t : MVBTSt K P} (crud : CRUDOperation K P) :
      Spawn t t {.dispatching ⟨none, [crud], [], .hand⟩}
  | executeOnCallerThread {t : MVBTSt K P} (tx : TransactionHolder K P) (now : ℕ) :
      Spawn t t {.dispatching (tx.frame now .hand)}
  | executeTx {t : MVBTSt K P} (tx : TransactionHolder K P) :
      Spawn t (enqBookkeeping t tx.trackedSnapshot) {.reader tx}
  | executeTxNonReader {t : MVBTSt K P} (tx : TransactionHolder K P) :
      Spawn t (enqBookkeeping t tx.trackedSnapshot) {.nonReader tx}
  | executeTxNonReaderBatch {t : MVBTSt K P} (txs : List (TransactionHolder K P)) :
      Spawn t t {.batch txs}
  | pin {t : MVBTSt K P} {live : TransactionTrace} (lowerBound : ℕ) : trace t = some live →
      Spawn t (pinReader t lowerBound) {.pin (live.pin lowerBound).2}

variable [LinearOrder K]

/-- One step of one activity. -/
inductive React (cfg : Config K) : Activity K P → MVBTSt K P → MVBTSt K P →
    Multiset (Activity K P) → Prop
  | next {t : MVBTSt K P} {it it' : RangeQueryIter K P} {answer : Option (RecordPointResult K P)} :
      enter it = (it', some answer) → React cfg (.iterator it) t t {.iterator it'}
  | nextLoop {t : MVBTSt K P} {it : RangeQueryIter K P} (running : it.isCompleted = false) :
      enter it = (it, none) → React cfg (.iterator it) t t {.advancing it running}
  | round {t t' : MVBTSt K P} {it it' : RangeQueryIter K P} {running : it.isCompleted = false}
      (running' : it'.isCompleted = false) : it.round cfg t = (t', it', none) →
      React cfg (.advancing it running) t t' {.advancing it' running'}
  | answer {t t' : MVBTSt K P} {it it' : RangeQueryIter K P} {running : it.isCompleted = false}
      {answer : Option (RecordPointResult K P)} : it.round cfg t = (t', it', some answer) →
      React cfg (.advancing it running) t t' {.iterator it'}
  | drop {t : MVBTSt K P} {it : RangeQueryIter K P} : React cfg (.iterator it) t (it.drop t) 0
  | unpin {t : MVBTSt K P} {ticket : Ticket} :
      React cfg (.pin ticket) t (unpinReader t ticket) 0
  -- the closures of the pool
  | readerTask {t : MVBTSt K P} {tx : TransactionHolder K P} (now : ℕ) :
      React cfg (.reader tx) t t {.dispatching (tx.frame now (.send tx.trackedSnapshot))}
  | nonReaderTask {t : MVBTSt K P} {tx : TransactionHolder K P} (now : ℕ) :
      React cfg (.nonReader tx) t t {.dispatching (tx.frame now (.discard tx.trackedSnapshot []))}
  | batchTask {t : MVBTSt K P} {tx : TransactionHolder K P} {rest : List (TransactionHolder K P)}
      (now : ℕ) : React cfg (.batch (tx :: rest)) t (enqBookkeeping t tx.trackedSnapshot)
        {.dispatching (tx.frame now (.discard tx.trackedSnapshot rest))}
  | batchDone {t : MVBTSt K P} : React cfg (.batch []) t t 0
  -- `dispatch_crud` of the next operation
  | pointRead {t : MVBTSt K P} {f : Frame K P} {crud : CRUDOperation K P}
      {rest : List (CRUDOperation K P)} {key : K} {version : ℕ} : f.crud = crud :: rest →
      crud.isolated f.snapshot = .point key version →
      React cfg (.dispatching f) t (onAcquireReaderSnapshot t version)
        {.pointRead version { f with crud := rest }}
  | pointDone {t : MVBTSt K P} {f : Frame K P} {version : ℕ} :
      React cfg (.pointRead version f) t (onReleaseReaderSnapshot t version) {.dispatching f}
  | range {t t' : MVBTSt K P} {f : Frame K P} {crud : CRUDOperation K P}
      {rest : List (CRUDOperation K P)} {keys : Interval K} {version : ℕ}
      {it : RangeQueryIter K P} : f.crud = crud :: rest →
      crud.isolated f.snapshot = .range keys version →
      RangeQueryIter.new cfg t version keys = .ok (t', it) →
      React cfg (.dispatching f) t t' {.collecting it { f with crud := rest }}
  | rangeIter {t t' : MVBTSt K P} {f : Frame K P} {crud : CRUDOperation K P}
      {rest : List (CRUDOperation K P)} {keys : Interval K} {version : ℕ}
      {it : RangeQueryIter K P} : f.crud = crud :: rest →
      crud.isolated f.snapshot = .rangeIter keys version →
      RangeQueryIter.new cfg t version keys = .ok (t', it) →
      React cfg (.dispatching f) t t'
        {.dispatching { f with crud := rest, result := f.result ++ [it] }}
  | writer {t t' : MVBTSt K P} {f : Frame K P} {crud : CRUDOperation K P}
      {rest : List (CRUDOperation K P)} : f.crud = crud :: rest → crud.isWriter = true →
      Quiet t t' → React cfg (.dispatching f) t t' {.dispatching { f with crud := rest }}
  /-- An operation that answers `Error` ends the transaction. -/
  | error {t t' : MVBTSt K P} {f : Frame K P} {crud : CRUDOperation K P}
      {rest : List (CRUDOperation K P)} : f.crud = crud :: rest →
      (crud.isWriter || (crud.isolated f.snapshot).isRefused) = true → Quiet t t' →
      React cfg (.dispatching f) t t' {.dispatching { f with crud := [] }}
  -- `collect`
  | collectNext {t : MVBTSt K P} {f : Frame K P} {it it' : RangeQueryIter K P}
      {r : RecordPointResult K P} : enter it = (it', some (some r)) →
      React cfg (.collecting it f) t t {.collecting it' f}
  | collectLoop {t : MVBTSt K P} {f : Frame K P} {it : RangeQueryIter K P}
      (running : it.isCompleted = false) : enter it = (it, none) →
      React cfg (.collecting it f) t t {.collectingNext it running f}
  | collectEnd {t : MVBTSt K P} {f : Frame K P} {it it' : RangeQueryIter K P} :
      enter it = (it', some none) → React cfg (.collecting it f) t t {.collected it' f}
  | collectRound {t t' : MVBTSt K P} {f : Frame K P} {it it' : RangeQueryIter K P}
      {running : it.isCompleted = false} (running' : it'.isCompleted = false) :
      it.round cfg t = (t', it', none) →
      React cfg (.collectingNext it running f) t t' {.collectingNext it' running' f}
  | collectAnswer {t t' : MVBTSt K P} {f : Frame K P} {it it' : RangeQueryIter K P}
      {running : it.isCompleted = false} {r : RecordPointResult K P} :
      it.round cfg t = (t', it', some (some r)) →
      React cfg (.collectingNext it running f) t t' {.collecting it' f}
  | collectLast {t t' : MVBTSt K P} {f : Frame K P} {it it' : RangeQueryIter K P}
      {running : it.isCompleted = false} : it.round cfg t = (t', it', some none) →
      React cfg (.collectingNext it running f) t t' {.collected it' f}
  | collectDrop {t : MVBTSt K P} {f : Frame K P} {it : RangeQueryIter K P} :
      React cfg (.collected it f) t (it.drop t) {.dispatching f}
  -- after `execute`
  | hand {t : MVBTSt K P} {f : Frame K P} : f.crud = [] → f.after = .hand →
      React cfg (.dispatching f) t t (f.result.map Activity.iterator : List (Activity K P))
  | send {t : MVBTSt K P} {f : Frame K P} {si : Option ℕ} : f.crud = [] → f.after = .send si →
      React cfg (.dispatching f) t t
        (.dropping [] si [] ::ₘ (f.result.map Activity.iterator : List (Activity K P)))
  | discard {t : MVBTSt K P} {f : Frame K P} {si : Option ℕ}
      {rest : List (TransactionHolder K P)} : f.crud = [] → f.after = .discard si rest →
      React cfg (.dispatching f) t t {.dropping f.result si rest}
  | dropResult {t : MVBTSt K P} {it : RangeQueryIter K P} {result : List (RangeQueryIter K P)}
      {si : Option ℕ} {rest : List (TransactionHolder K P)} :
      React cfg (.dropping (it :: result) si rest) t (it.drop t) {.dropping result si rest}
  | release {t : MVBTSt K P} {si : Option ℕ} {rest : List (TransactionHolder K P)} :
      React cfg (.dropping [] si rest) t (deqBookkeeping t si) {.batch rest}

abbrev State (K P : Type) := Pool (MVBTSt K P) (Activity K P)

def Reaches (cfg : Config K) : State K P → State K P → Prop := Run Spawn (React cfg)

/-! ## Debts -/

section Debts
omit [LinearOrder K]

def iteratorOwes (it : RangeQueryIter K P) : Book :=
  if it.isCompleted then 0 else registration it.snapshot

def resultOwes (result : List (RangeQueryIter K P)) : Book := (result.map iteratorOwes).sum

def taskOwes (si : Option ℕ) : Book := (si.map registration).getD 0

def After.owes : After K P → Book
  | hand => 0
  | send si | discard si _ => taskOwes si

def Frame.owes (f : Frame K P) : Book := resultOwes f.result + f.after.owes

/-- What an activity still has to take out of the book. A queued transaction is
registered already, a batch registers its transactions one by one. -/
def Activity.owes : Activity K P → Book
  | iterator it | advancing it _ => iteratorOwes it
  | pin ticket => (0, {ticket})
  | reader tx | nonReader tx => taskOwes tx.trackedSnapshot
  | batch _ => 0
  | dispatching f => f.owes
  | pointRead version f => registration version + f.owes
  | collecting it f | collectingNext it _ f | collected it f => iteratorOwes it + f.owes
  | dropping result si _ => resultOwes result + taskOwes si

theorem debt_iterators (result : List (RangeQueryIter K P)) :
    debt Activity.owes ((result.map Activity.iterator : List (Activity K P)) :
      Multiset (Activity K P)) = resultOwes result := by
  simp [debt, resultOwes, Function.comp_def, Activity.owes]

variable {t t' : MVBTSt K P} {it it' : RangeQueryIter K P} {rest : Book}

theorem book_enq (ht : Tracked t) (si : Option ℕ) :
    Tracked (enqBookkeeping t si) ∧ book (enqBookkeeping t si) = taskOwes si + book t := by
  cases si with
  | none => exact ⟨ht, (zero_add _).symm⟩
  | some s => exact book_acquire ht s

theorem book_deq (ht : Tracked t) {si : Option ℕ} (h : book t = taskOwes si + rest) :
    Tracked (deqBookkeeping t si) ∧ book (deqBookkeeping t si) = rest := by
  cases si with
  | none => exact ⟨ht, h.trans (zero_add _)⟩
  | some s => exact book_release ht h

theorem book_drop (ht : Tracked t) (h : book t = iteratorOwes it + rest) :
    Tracked (it.drop t) ∧ book (it.drop t) = rest := by
  cases hc : it.isCompleted with
  | true =>
    simp only [iteratorOwes, hc, if_true, zero_add] at h
    simpa [RangeQueryIter.drop, hc] using ⟨ht, h⟩
  | false =>
    simp only [iteratorOwes, hc, Bool.false_eq_true, if_false] at h
    simpa [RangeQueryIter.drop, hc] using book_release ht h

theorem enter_owes {answer : Option (Option (RecordPointResult K P))}
    (h : enter it = (it', answer)) : iteratorOwes it' = iteratorOwes it := by
  unfold enter at h
  split at h
  · cases h
    rfl
  · split at h <;> cases h <;> rfl

end Debts

section Calls
variable {cfg : Config K} {t t' : MVBTSt K P} {it it' : RangeQueryIter K P} {rest : Book}

/-- A round releases the snapshot and completes the iterator, or does neither. -/
theorem round_cases {answer : Option (Option (RecordPointResult K P))}
    (h : it.round cfg t = (t', it', answer)) :
    (t' = onReleaseReaderSnapshot t it.snapshot ∧ it'.isCompleted = true) ∨
      (t' = t ∧ it'.isCompleted = it.isCompleted ∧ it'.snapshot = it.snapshot) := by
  unfold RangeQueryIter.round at h
  split at h
  · cases h
    exact .inl ⟨rfl, rfl⟩
  · split at h
    · cases h
      exact .inl ⟨rfl, rfl⟩
    · right
      dsimp only at h
      split at h
      · split at h <;> cases h <;> exact ⟨rfl, rfl, rfl⟩
      · split at h <;> cases h <;> exact ⟨rfl, rfl, rfl⟩

theorem book_round {answer : Option (Option (RecordPointResult K P))} (ht : Tracked t)
    (running : it.isCompleted = false) (h : it.round cfg t = (t', it', answer))
    (hb : book t = iteratorOwes it + rest) : Tracked t' ∧ book t' = iteratorOwes it' + rest := by
  rcases round_cases h with ⟨rfl, hc⟩ | ⟨rfl, hc, hs⟩
  · simp only [iteratorOwes, running, Bool.false_eq_true, if_false] at hb
    simpa [iteratorOwes, hc] using book_release ht hb
  · exact ⟨ht, by rw [hb, iteratorOwes, iteratorOwes, hc, hs]⟩

theorem book_new {version : ℕ} {keys : Interval K} (ht : Tracked t)
    (h : RangeQueryIter.new cfg t version keys = .ok (t', it)) :
    Tracked t' ∧ book t' = iteratorOwes it + book t := by
  unfold RangeQueryIter.new at h
  dsimp only [bind, Except.bind] at h
  split at h
  · cases h
  · cases h
    exact book_acquire ht version

end Calls

/-! ## All runs -/

omit [LinearOrder K] in
theorem book_spawn {t t' : MVBTSt K P} {new : Multiset (Activity K P)} (h : Spawn t t' new)
    (ht : Tracked t) : Tracked t' ∧ book t' = debt Activity.owes new + book t := by
  cases h with
  | write hq => simpa using book_quiet ht hq
  | dispatchCrud crud => simpa [Activity.owes, Frame.owes, resultOwes, After.owes] using ht
  | executeOnCallerThread tx now =>
    simpa [Activity.owes, Frame.owes, resultOwes, After.owes, TransactionHolder.frame] using ht
  | executeTx tx => simpa [Activity.owes] using book_enq ht _
  | executeTxNonReader tx => simpa [Activity.owes] using book_enq ht _
  | executeTxNonReaderBatch txs => simpa [Activity.owes] using ht
  | pin lowerBound hlive =>
    obtain ⟨ht', live', hlive', hb, hb'⟩ := book_of_trace ht (trace_pin t lowerBound)
    rw [hlive] at hlive'
    cases hlive'
    exact ⟨ht', by rw [debt_singleton, hb, hb', bookOf_pin]; rfl⟩

theorem book_react {cfg : Config K} {a : Activity K P} {t t' : MVBTSt K P}
    {new : Multiset (Activity K P)} {rest : Book} (h : React cfg a t t' new) (ht : Tracked t)
    (hb : book t = a.owes + rest) : Tracked t' ∧ book t' = debt Activity.owes new + rest := by
  cases h with
  | next he | collectNext he | collectEnd he =>
    simpa [Activity.owes, enter_owes he] using ⟨ht, hb⟩
  | nextLoop running he | collectLoop running he => simpa [Activity.owes] using ⟨ht, hb⟩
  | @round _ _ _ _ running running' hr | @answer _ _ _ _ running _ hr =>
    simpa [Activity.owes] using book_round ht running hr hb
  | drop => simpa using book_drop ht hb
  | unpin => simpa using book_unpin ht hb
  | readerTask now | nonReaderTask now =>
    simpa [Activity.owes, Frame.owes, resultOwes, After.owes, TransactionHolder.frame] using ⟨ht, hb⟩
  | batchTask now =>
    have hrest : book t = rest := by simpa [Activity.owes] using hb
    simpa [Activity.owes, Frame.owes, resultOwes, After.owes, TransactionHolder.frame, hrest] using
      book_enq ht _
  | batchDone => exact ⟨ht, hb⟩
  | @pointRead _ f _ _ _ version _ _ =>
    obtain ⟨ht', hb'⟩ := book_acquire ht version
    refine ⟨ht', ?_⟩
    rw [hb', hb, debt_singleton]
    simp [Activity.owes, Frame.owes, add_assoc]
  | pointDone =>
    refine book_release ht ?_
    simpa [Activity.owes, add_assoc] using hb
  | range _ _ hn =>
    obtain ⟨ht', hb'⟩ := book_new ht hn
    refine ⟨ht', ?_⟩
    rw [hb', hb, debt_singleton]
    simp [Activity.owes, Frame.owes, add_assoc]
  | @rangeIter _ _ f _ _ _ _ it _ _ hn =>
    obtain ⟨ht', hb'⟩ := book_new ht hn
    refine ⟨ht', ?_⟩
    rw [hb', hb, debt_singleton]
    simp only [Activity.owes, Frame.owes, resultOwes, List.map_append, List.sum_append,
      List.map_cons, List.map_nil, List.sum_cons, List.sum_nil, add_zero]
    ac_rfl
  | writer _ _ hq | error _ _ hq =>
    obtain ⟨ht', hb'⟩ := book_quiet ht hq
    exact ⟨ht', by rw [hb', hb, debt_singleton]; rfl⟩
  | @collectRound _ _ f _ _ running running' hr
  | @collectAnswer _ _ f _ _ running _ hr
  | @collectLast _ _ f _ _ running hr =>
    simpa [Activity.owes, add_assoc] using book_round ht running hr
      (hb.trans (add_assoc _ _ _))
  | collectDrop =>
    simpa [Activity.owes] using book_drop ht (hb.trans (add_assoc _ _ _))
  | hand _ ha =>
    refine ⟨ht, ?_⟩
    rw [debt_iterators, hb, Activity.owes, Frame.owes, ha, After.owes, add_zero]
  | send _ ha =>
    refine ⟨ht, ?_⟩
    rw [debt_cons, debt_iterators, hb, Activity.owes, Frame.owes, ha]
    simp [Activity.owes, After.owes, resultOwes, add_comm]
  | discard _ ha =>
    refine ⟨ht, ?_⟩
    rw [debt_singleton, hb, Activity.owes, Frame.owes, ha]
    rfl
  | dropResult =>
    simpa [Activity.owes, resultOwes, add_assoc] using
      book_drop ht (hb.trans (by simp [Activity.owes, resultOwes, add_assoc]))
  | release =>
    simpa [Activity.owes] using book_deq ht
      (hb.trans (by simp [Activity.owes, resultOwes]))

section Statement
omit [LinearOrder K]

/-- The iterators that have not been dropped. -/
def Activity.iterator? : Activity K P → Option (RangeQueryIter K P)
  | iterator it => some it
  | _ => none

def Activity.pin? : Activity K P → Option Ticket
  | pin ticket => some ticket
  | _ => none

def iterators (s : State K P) : Multiset (RangeQueryIter K P) := s.acts.filterMap Activity.iterator?

def heldPins (s : State K P) : Multiset Ticket := s.acts.filterMap Activity.pin?

/-- All calls have returned and all tasks are done: only iterators and pins are left. -/
def Settled (s : State K P) : Prop :=
  ∀ a ∈ s.acts, a.iterator?.isSome = true ∨ a.pin?.isSome = true

instance : DecidablePred (Settled : State K P → Prop) := fun s =>
  inferInstanceAs (Decidable (∀ a ∈ s.acts, a.iterator?.isSome = true ∨ a.pin?.isSome = true))

/-- Outstanding registrations and pins. -/
def outstanding (s : State K P) : Book := debt Activity.owes s.acts

/-- Snapshots below which nothing may be reclaimed. -/
def announced (owed : Book) : Set ℕ := {v | v ∈ owed.1 ∨ ∃ ticket ∈ owed.2, ticket.1 = v}

/-- The tracker knows exactly what is outstanding. -/
structure Balanced (live : TransactionTrace) (owed : Book) : Prop where
  registered : (live.queries.map Prod.fst : Multiset ℕ) = owed.1
  pinned : (live.pins : Multiset Ticket) = owed.2
  min_some : ∀ m, live.peekMin = some m ↔ IsLeast (announced owed) m
  min_none : live.peekMin = none ↔ owed = 0
  max_pinned : owed.2 ≠ 0 → live.peekMax = some versionMax
  max_some : owed.2 = 0 → ∀ m, live.peekMax = some m ↔ IsGreatest {v | v ∈ owed.1} m
  max_none : live.peekMax = none ↔ owed = 0

theorem mem_announced {live : TransactionTrace} {v : ℕ} : v ∈ announced (bookOf live) ↔
    ∃ ticket, (ticket ∈ live.queries ∨ ticket ∈ live.pins) ∧ ticket.1 = v := by
  simp only [announced, bookOf, Set.mem_ofPred_eq, Multiset.mem_coe, List.mem_map]
  constructor
  · rintro (⟨ticket, hm, rfl⟩ | ⟨ticket, hm, rfl⟩)
    · exact ⟨ticket, .inl hm, rfl⟩
    · exact ⟨ticket, .inr hm, rfl⟩
  · rintro ⟨ticket, hm | hm, rfl⟩
    · exact .inl ⟨ticket, hm, rfl⟩
    · exact .inr ⟨ticket, hm, rfl⟩

theorem bookOf_eq_zero {live : TransactionTrace} :
    bookOf live = 0 ↔ live.queries = [] ∧ live.pins = [] := by
  simp [bookOf, Prod.ext_iff]

theorem balanced_bookOf (live : TransactionTrace) : Balanced live (bookOf live) := by
  have hleast : ∀ m, live.peekMin = some m → IsLeast (announced (bookOf live)) m := by
    intro m hm
    refine ⟨mem_announced.mpr (TransactionTrace.peekMin_mem hm), ?_⟩
    rintro v hv
    obtain ⟨ticket, hmem, rfl⟩ := mem_announced.mp hv
    obtain ⟨m', hm', hle⟩ := TransactionTrace.peekMin_le hmem
    rw [hm] at hm'
    cases hm'
    exact hle
  have hgreatest : live.pins = [] → ∀ m, live.peekMax = some m →
      IsGreatest {v | v ∈ (bookOf live).1} m := by
    intro hp m hm
    obtain ⟨ticket, hmem, rfl⟩ := TransactionTrace.peekMax_mem hp hm
    refine ⟨by simpa [bookOf] using ⟨ticket.2, hmem⟩, ?_⟩
    rintro v hv
    obtain ⟨query, hquery, rfl⟩ := List.mem_map.mp (Multiset.mem_coe.mp hv)
    obtain ⟨m', hm', hle⟩ := TransactionTrace.le_peekMax hp hquery
    rw [hm] at hm'
    cases hm'
    exact hle
  have hpins : (bookOf live).2 = 0 → live.pins = [] := fun h => by simpa [bookOf] using h
  refine ⟨rfl, rfl, fun m => ⟨hleast m, ?_⟩, ?_, ?_, ?_, ?_⟩
  · intro hm
    obtain ⟨ticket, hmem, rfl⟩ := mem_announced.mp hm.1
    obtain ⟨m', hm', -⟩ := TransactionTrace.peekMin_le hmem
    rw [hm', (hleast m' hm').unique hm]
  · rw [bookOf_eq_zero]
    constructor
    · intro hnone
      constructor <;> refine List.eq_nil_iff_forall_not_mem.mpr fun ticket hmem => ?_
      · obtain ⟨m, hm, -⟩ := TransactionTrace.peekMin_le (t := live) (.inl hmem)
        simp [hm] at hnone
      · obtain ⟨m, hm, -⟩ := TransactionTrace.peekMin_le (t := live) (.inr hmem)
        simp [hm] at hnone
    · rintro ⟨hq, hp⟩
      simp [TransactionTrace.peekMin, hq, hp, front]
  · intro hne
    exact TransactionTrace.peekMax_pinned fun h => hne (by simp [bookOf, h])
  · intro hzero m
    refine ⟨hgreatest (hpins hzero) m, fun hm => ?_⟩
    obtain ⟨query, hquery, rfl⟩ := List.mem_map.mp (Multiset.mem_coe.mp hm.1)
    obtain ⟨m', hm', -⟩ := TransactionTrace.le_peekMax (hpins hzero) hquery
    rw [hm', (hgreatest (hpins hzero) m' hm').unique hm]
  · rw [bookOf_eq_zero]
    by_cases hp : live.pins = []
    · refine ⟨fun hnone => ⟨List.eq_nil_iff_forall_not_mem.mpr fun ticket hmem => ?_, hp⟩, ?_⟩
      · obtain ⟨m, hm, -⟩ := TransactionTrace.le_peekMax hp hmem
        simp [hm] at hnone
      · rintro ⟨hq, -⟩
        simp [TransactionTrace.peekMax, hq, hp]
    · simp [TransactionTrace.peekMax_pinned hp, hp]

theorem iteratorOwes_pins (it : RangeQueryIter K P) : (iteratorOwes it).2 = 0 := by
  unfold iteratorOwes
  split <;> rfl

theorem resultOwes_pins (result : List (RangeQueryIter K P)) : (resultOwes result).2 = 0 := by
  induction result with
  | nil => rfl
  | cons it result ih =>
    simp only [resultOwes, List.map_cons, List.sum_cons, Prod.snd_add, iteratorOwes_pins, zero_add]
    exact ih

theorem taskOwes_pins (si : Option ℕ) : (taskOwes si).2 = 0 := by cases si <;> rfl

theorem Frame.owes_pins (f : Frame K P) : f.owes.2 = 0 := by
  rw [Frame.owes, Prod.snd_add, resultOwes_pins, zero_add]
  cases f.after with
  | hand => rfl
  | send si | discard si _ => exact taskOwes_pins si

/-- An activity owes a pin iff it is that pin. -/
theorem Activity.owes_pins (a : Activity K P) :
    a.owes.2 = (a.pin?.map (fun ticket => ({ticket} : Multiset Ticket))).getD 0 := by
  cases a <;> simp [Activity.owes, Activity.pin?, iteratorOwes_pins, resultOwes_pins,
    taskOwes_pins, Frame.owes_pins, registration]

/-- The pins that activities owe are the pins that are still held. -/
theorem outstanding_pins (s : State K P) : (outstanding s).2 = heldPins s := by
  obtain ⟨t, acts⟩ := s
  simp only [outstanding, heldPins]
  induction acts using Multiset.induction with
  | empty => rfl
  | cons a acts ih =>
    rw [debt_cons, Prod.snd_add, ih, a.owes_pins]
    cases hp : a.pin? with
    | none => rw [Multiset.filterMap_cons_none _ _ hp]; simp
    | some ticket => rw [Multiset.filterMap_cons_some _ _ _ hp]; simp

/-- Once all tasks are done, the outstanding registrations are those of the
iterators that have not run to their end. -/
theorem outstanding_settled {s : State K P} (h : Settled s) :
    (outstanding s).1 =
      ((iterators s).filter (fun it => it.isCompleted = false)).map RangeQueryIter.snapshot := by
  obtain ⟨t, acts⟩ := s
  simp only [Settled, outstanding, iterators] at h ⊢
  induction acts using Multiset.induction with
  | empty => rfl
  | cons a acts ih =>
    have ih := ih fun b hb => h b (Multiset.mem_cons_of_mem hb)
    rw [debt_cons, Prod.fst_add, ih]
    rcases h a (Multiset.mem_cons_self a acts) with ha | ha
    · obtain ⟨it, hit⟩ := Option.isSome_iff_exists.mp ha
      rw [Multiset.filterMap_cons_some _ _ _ hit]
      cases a with
      | iterator it' =>
        cases hit
        cases hc : it.isCompleted <;> simp [Activity.owes, iteratorOwes, registration, hc]
      | _ => cases hit
    · obtain ⟨ticket, hticket⟩ := Option.isSome_iff_exists.mp ha
      cases a with
      | pin ticket' => rw [Multiset.filterMap_cons_none _ _ rfl]; simp [Activity.owes]
      | _ => cases hticket

end Statement

/-- Reader registrations balance. In every state of every run, the registrations of
the tracker are the outstanding ones and its pins are those still held; `peek_min`
and `peek_max` are the least and the greatest of them. Once all calls and tasks are
done, what is registered are the snapshots of the iterators that were neither
dropped nor advanced past their end. -/
theorem registrations_balance (cfg : Config K) {t : MVBTSt K P} (ht : trace t = some .new)
    {s : State K P} (h : Reaches cfg ⟨t, 0⟩ s) :
    ∃ live, trace s.shared = some live ∧ Balanced live (outstanding s) ∧
      (live.pins : Multiset Ticket) = heldPins s ∧
      (Settled s → (live.queries.map Prod.fst : Multiset ℕ) =
        ((iterators s).filter (fun it => it.isCompleted = false)).map RangeQueryIter.snapshot) := by
  have hbook := h.balanced (J := Tracked) (f := book) (d := Activity.owes)
    (fun _ _ _ hs hi => book_spawn hs hi) (fun _ _ _ _ _ hr hi hb => book_react hr hi hb)
    (by rw [Tracked, ht]; rfl) (by rw [book, ht]; rfl)
  obtain ⟨live, hlive⟩ := Option.isSome_iff_exists.mp hbook.1
  have hout : bookOf live = outstanding s := by
    rw [← show book s.shared = bookOf live by rw [book, hlive]; rfl]
    exact hbook.2
  have hbal := balanced_bookOf live
  rw [hout] at hbal
  refine ⟨live, hlive, hbal, ?_, fun hs => ?_⟩
  · rw [hbal.pinned, outstanding_pins]
  · rw [hbal.registered, outstanding_settled hs]

/-- An iterator that a transaction has handed out, next to a pin. -/
theorem registrations_balance_scan : ∃ (s : State UInt64 ℕ) (live : TransactionTrace),
    Reaches ⟨125, 125, u64Space⟩ ⟨enableGc (make (fun _ => .next) 1 0) false, 0⟩ s ∧ Settled s ∧
      trace s.shared = some live ∧ Balanced live (outstanding s) ∧
      (live.queries.map Prod.fst : Multiset ℕ) = {1} ∧ (live.pins : Multiset Ticket) = {(0, 0)} := by
  have r : Reaches ⟨125, 125, u64Space⟩
    (⟨enableGc (make (fun _ => .next) 1 0) false, 0⟩ : State UInt64 ℕ) _ := .refl _
  replace r := r.starts (.pin 0 rfl)
  replace r := r.starts (.executeTx (.atomic (some 1) (.rangeIter ⟨0, 9⟩ 1)))
  replace r := r.turns (.readerTask 1)
  replace r := r.turns (.rangeIter rfl rfl rfl)
  replace r := r.reacts (.send rfl rfl)
  rw [Multiset.cons_add] at r
  replace r := r.turns .release
  replace r := r.reacts .batchDone
  obtain ⟨live, hlive, hbal, hpins, hregs⟩ := registrations_balance _ rfl r
  refine ⟨_, live, r, by decide, hlive, hbal, ?_, ?_⟩
  · rw [hregs (by decide)]
    rfl
  · rw [hpins]
    rfl

/-- An iterator that has run past its end is alive and no longer registered. -/
theorem ended_iterator_not_registered :
    ¬ ∀ s : State UInt64 ℕ,
      Reaches ⟨125, 125, u64Space⟩ ⟨enableGc (make (fun _ => .next) 1 0) false, 0⟩ s →
      Settled s → ∀ live, trace s.shared = some live →
        (live.queries.map Prod.fst : Multiset ℕ) = (iterators s).map RangeQueryIter.snapshot := by
  intro hall
  have r : Reaches ⟨125, 125, u64Space⟩
    (⟨enableGc (make (fun _ => .next) 1 0) false, 0⟩ : State UInt64 ℕ) _ := .refl _
  replace r := r.starts (.dispatchCrud (.rangeIter ⟨0, 9⟩ 1))
  replace r := r.turns (.rangeIter rfl rfl rfl)
  replace r := r.reacts (.hand rfl rfl)
  let opened : RangeQueryIter UInt64 ℕ := ⟨1, ⟨0, 9⟩, [(u64Space.full, 0)], [], false⟩
  replace r : Reaches _ _ ⟨_, .iterator opened ::ₘ 0⟩ := r
  replace r := r.turns (.nextLoop rfl rfl)
  replace r := r.turns (.answer rfl)
  replace r := r.turns (.nextLoop rfl rfl)
  replace r := r.turns (.answer rfl)
  exact absurd (hall _ r (by decide) _ rfl) (by decide)

end CMVBT.ReaderBalance
