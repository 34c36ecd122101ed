import CMVBT.Interleaving
import CMVBT.Tracker

/-!
# The commit clock and the garbage collector, step by step

The calls of `clock.rs`, `query_tracer.rs`, `block_tracer.rs` and `free_block` as
sequences of atomic steps: every load, store, `fetch_add`, `fetch_max` and
compare-exchange on a shared variable is a step of its own, and threads
interleave in any order. A thread is its id in the slot array; `absent` says that
no thread has the id at the moment. Ordered sets and maps change in single steps.

There is one tree in the process. Writes to pages happen between `start_commit`
and `end_commit` and do not touch this state. Fields and arguments marked as
history record what happened and are never read by a step.
-/
namespace CMVBT.ClockProtocol
open PageModel CommitClock Tracker Interleaving

/-- `MAX_THREADS`. -/
def maxThreads : ℕ := 4096

structure Shared where
  clock : ℕ
  globalMin : ℕ
  globalDirty : DirtyFlag
  slots : ℕ → ℕ
  readsInRow : ℕ → ℕ
  /-- `THREAD_ID`, the number of ids handed out so far. -/
  threadId : ℕ
  freeTids : List ℕ
  liveTx : TransactionTrace
  deadBlocks : BlockTrace
  /-- History: the versions whose `end_commit` is complete. -/
  ended : List ℕ
  /-- History: the dead blocks that were handed out. -/
  handedOut : List DeadBlock

/-- What a committed snapshot is drawn for: a plain read, the lower bound of a
pin, the snapshot of a pinned reader, or an allocation. -/
inductive Purpose where
  | read
  | bound
  | draw (ticket : Ticket)
  | free
deriving DecidableEq, Repr

/-- What follows after a slot was made inactive. -/
inductive After where
  | idle
  | exit
  | snapshot (time : ℕ) (purpose : Purpose)
deriving DecidableEq, Repr

/-- A scan over the slots. History: `known` are the versions ended when the scan
was claimed, `active` says whether it has loaded an active slot so far. -/
structure Scan where
  time : ℕ
  owns : Bool
  purpose : Purpose
  known : List ℕ
  active : Bool
deriving DecidableEq, Repr

/-- Where a thread stands; each value names the step that comes next. -/
inductive Pc where
  | absent
  | idle
  | committing (version : ℕ)
  | publishing (version : ℕ)
  | retired (after : After)
  | leaving
  | enter (time : ℕ) (purpose : Purpose)
  | loadFlag (time : ℕ) (purpose : Purpose)
  | loadMin (purpose : Purpose)
  | own (time : ℕ) (purpose : Purpose)
  | count (scan : Scan)
  | fold (scan : Scan) (slot n acc : ℕ)
  | fetchMax (scan : Scan) (acc : ℕ)
  | clear (scan : Scan) (result : ℕ)
  | done (purpose : Purpose) (result : ℕ)
  | ticket (lowerBound : ℕ)
  | announce (ticket : Ticket)
  | announced (ticket : Ticket)
  | reading (ticket : Ticket) (snapshot : ℕ)
  | enroll (ticket : Ticket) (snapshot : ℕ) (query : Ticket)
  | querying (ticket : Ticket) (snapshot : ℕ)
  | peekQueries (committed : ℕ)
  | peekPins (committed : ℕ) (registered : Option ℕ)
  | peekDead (bound : ℕ)
  | claim (bound : ℕ) (entry : DeadBlock)
  | bury (entry : DeadBlock) (version : Option ℕ)
deriving DecidableEq, Repr

/-- Where a thread continues once its slot is inactive and the flag is set. -/
def After.pc : After → Pc
  | .idle => .idle
  | .exit => .leaving
  | .snapshot time purpose => .loadFlag time purpose

/-- Where a thread continues with the result of `committed_snapshot`. -/
def Purpose.pc (result : ℕ) : Purpose → Pc
  | .read => .idle
  | .bound => .ticket result
  | .draw ticket => .reading ticket result
  | .free => .peekQueries result

/-- A thread that registers a dead page is between operations or in a commit. -/
def resume : Option ℕ → Pc
  | none => .idle
  | some version => .committing version

/-- The bound of `free_block`. -/
def freeBound (committed : ℕ) (registered pinned : Option ℕ) : ℕ :=
  match registered, pinned with
  | some r, some p => min (min r p) committed
  | some r, none => min r committed
  | none, some p => min p committed
  | none, none => committed

/-- The atomic steps of the thread with id `i`. -/
inductive Step (i : ℕ) : Shared → Pc → Shared → Pc → Prop
  -- `ThreadState::new` and its `Drop`
  | spawn {s : Shared} : s.freeTids = [] → s.threadId = i → i < maxThreads →
      Step i s .absent { s with threadId := i + 1, readsInRow := Function.update s.readsInRow i 0 }
        .idle
  | respawn {s : Shared} {rest : List ℕ} : s.freeTids = i :: rest →
      Step i s .absent { s with freeTids := rest, readsInRow := Function.update s.readsInRow i 0 }
        .idle
  | exit {s : Shared} :
      Step i s .idle { s with slots := Function.update s.slots i inactive } (.retired .exit)
  | leave {s : Shared} : Step i s .leaving { s with freeTids := i :: s.freeTids } .absent
  -- `start_commit`, then `end_commit` in two stores
  | startCommit {s : Shared} :
      Step i s .idle
        { s with readsInRow := Function.update s.readsInRow i 0, clock := s.clock + 1 }
        (.committing s.clock)
  | storeSlot {s : Shared} {version : ℕ} :
      Step i s (.committing version) { s with slots := Function.update s.slots i version }
        (.publishing version)
  | storeDirty {s : Shared} {version : ℕ} :
      Step i s (.publishing version)
        { s with globalDirty := .dirty, ended := version :: s.ended } .idle
  -- `release_thread_commit`
  | release {s : Shared} :
      Step i s .idle { s with readsInRow := Function.update s.readsInRow i readInRowInactive,
                              slots := Function.update s.slots i inactive } (.retired .idle)
  | retire {s : Shared} {after : After} :
      Step i s (.retired after) { s with globalDirty := .dirty } after.pc
  -- `current_version_for_reader`: the clock, then `committed_read`
  | readVersion {s : Shared} : Step i s .idle s (.enter s.clock .read)
  | enterInactive {s : Shared} {time : ℕ} {purpose : Purpose} :
      s.readsInRow i = readInRowInactive →
      Step i s (.enter time purpose) s (.loadFlag time purpose)
  | enterRetire {s : Shared} {time : ℕ} {purpose : Purpose} :
      s.readsInRow i ≠ readInRowInactive → maxReadsInRow < s.readsInRow i →
      Step i s (.enter time purpose)
        { s with readsInRow := Function.update s.readsInRow i readInRowInactive,
                 slots := Function.update s.slots i inactive } (.retired (.snapshot time purpose))
  | enterCount {s : Shared} {time : ℕ} {purpose : Purpose} :
      s.readsInRow i ≠ readInRowInactive → s.readsInRow i ≤ maxReadsInRow →
      Step i s (.enter time purpose)
        { s with readsInRow := Function.update s.readsInRow i (s.readsInRow i + 1) }
        (.loadFlag time purpose)
  -- `committed_snapshot`
  | flagClean {s : Shared} {time : ℕ} {purpose : Purpose} : s.globalDirty = .clean →
      Step i s (.loadFlag time purpose) s (.loadMin purpose)
  | flagDirty {s : Shared} {time : ℕ} {purpose : Purpose} : s.globalDirty = .dirty →
      Step i s (.loadFlag time purpose) s (.own time purpose)
  | flagScanning {s : Shared} {time : ℕ} {purpose : Purpose} : s.globalDirty = .scanning →
      Step i s (.loadFlag time purpose) s (.count ⟨time, false, purpose, s.ended, false⟩)
  | loadMin {s : Shared} {purpose : Purpose} :
      Step i s (.loadMin purpose) s (.done purpose s.globalMin)
  | ownScan {s : Shared} {time : ℕ} {purpose : Purpose} : s.globalDirty = .dirty →
      Step i s (.own time purpose) { s with globalDirty := .scanning }
        (.count ⟨time, true, purpose, s.ended, false⟩)
  | ownFails {s : Shared} {time : ℕ} {purpose : Purpose} : s.globalDirty ≠ .dirty →
      Step i s (.own time purpose) s (.count ⟨time, false, purpose, s.ended, false⟩)
  | count {s : Shared} {scan : Scan} :
      Step i s (.count scan) s (.fold scan 0 s.threadId scan.time)
  | loadSlot {s : Shared} {scan : Scan} {slot n acc : ℕ} : slot < n →
      Step i s (.fold scan slot n acc) s
        (.fold { scan with active := scan.active || decide (s.slots slot ≠ inactive) } (slot + 1) n
          (min acc (s.slots slot)))
  | folded {s : Shared} {scan : Scan} {slot n acc : ℕ} : ¬ slot < n →
      Step i s (.fold scan slot n acc) s (.fetchMax scan acc)
  | fetchMaxOwner {s : Shared} {scan : Scan} {acc : ℕ} : scan.owns = true →
      Step i s (.fetchMax scan acc) { s with globalMin := max s.globalMin acc }
        (.clear scan (max acc s.globalMin))
  | fetchMax {s : Shared} {scan : Scan} {acc : ℕ} : scan.owns = false →
      Step i s (.fetchMax scan acc) { s with globalMin := max s.globalMin acc }
        (.done scan.purpose (max acc s.globalMin))
  | clear {s : Shared} {scan : Scan} {result : ℕ} : s.globalDirty = .scanning →
      Step i s (.clear scan result) { s with globalDirty := .clean } (.done scan.purpose result)
  | clearFails {s : Shared} {scan : Scan} {result : ℕ} : s.globalDirty ≠ .scanning →
      Step i s (.clear scan result) s (.done scan.purpose result)
  | returned {s : Shared} {purpose : Purpose} {result : ℕ} :
      Step i s (.done purpose result) s (purpose.pc result)
  -- `pinned_reader_snapshot`, the queries of the reader, the end of the pin
  | pinnedRead {s : Shared} : Step i s .idle s (.loadFlag s.clock .bound)
  | drawTicket {s : Shared} {lowerBound : ℕ} :
      Step i s (.ticket lowerBound)
        { s with liveTx := { s.liveTx with sequence := s.liveTx.sequence + 1 } }
        (.announce (lowerBound, s.liveTx.sequence))
  | pin {s : Shared} {ticket : Ticket} :
      Step i s (.announce ticket)
        { s with liveTx := { s.liveTx with pins := ticket :: s.liveTx.pins } } (.announced ticket)
  | drawSnapshot {s : Shared} {ticket : Ticket} :
      Step i s (.announced ticket) s (.enter s.clock (.draw ticket))
  | drawQuery {s : Shared} {ticket : Ticket} {snapshot : ℕ} :
      Step i s (.reading ticket snapshot)
        { s with liveTx := { s.liveTx with sequence := s.liveTx.sequence + 1 } }
        (.enroll ticket snapshot (snapshot, s.liveTx.sequence))
  | enroll {s : Shared} {ticket query : Ticket} {snapshot : ℕ} :
      Step i s (.enroll ticket snapshot query)
        { s with liveTx := { s.liveTx with queries := query :: s.liveTx.queries } }
        (.querying ticket snapshot)
  | complete {s : Shared} {ticket : Ticket} {snapshot : ℕ} :
      Step i s (.querying ticket snapshot)
        { s with liveTx := s.liveTx.onTxCompleted snapshot } (.reading ticket snapshot)
  | unpin {s : Shared} {ticket : Ticket} {snapshot : ℕ} :
      Step i s (.reading ticket snapshot) { s with liveTx := s.liveTx.unpin ticket } .idle
  -- `free_block`
  | freeBlock {s : Shared} : Step i s .idle s (.loadFlag versionMax .free)
  | peekQueries {s : Shared} {committed : ℕ} :
      Step i s (.peekQueries committed) s
        (.peekPins committed ((front id s.liveTx.queries).map Prod.fst))
  | peekPins {s : Shared} {committed : ℕ} {registered : Option ℕ} :
      Step i s (.peekPins committed registered) s
        (.peekDead (freeBound committed registered ((front id s.liveTx.pins).map Prod.fst)))
  | noDead {s : Shared} {bound : ℕ} : front DeadBlock.key s.deadBlocks.entries = none →
      Step i s (.peekDead bound) s .idle
  | keepDead {s : Shared} {bound : ℕ} {entry : DeadBlock} :
      front DeadBlock.key s.deadBlocks.entries = some entry → ¬ entry.deathVersion < bound →
      Step i s (.peekDead bound) s .idle
  | pickDead {s : Shared} {bound : ℕ} {entry : DeadBlock} :
      front DeadBlock.key s.deadBlocks.entries = some entry → entry.deathVersion < bound →
      Step i s (.peekDead bound) s (.claim bound entry)
  | handOut {s : Shared} {bound : ℕ} {entry : DeadBlock} : entry ∈ s.deadBlocks.entries →
      Step i s (.claim bound entry)
        { s with deadBlocks := { s.deadBlocks with entries := s.deadBlocks.entries.erase entry },
                 handedOut := entry :: s.handedOut } .idle
  | claimLost {s : Shared} {bound : ℕ} {entry : DeadBlock} : entry ∉ s.deadBlocks.entries →
      Step i s (.claim bound entry) s .idle
  -- `register_died_page`
  | die {s : Shared} {deathVersion page : ℕ} :
      Step i s .idle
        { s with deadBlocks := { s.deadBlocks with sequence := s.deadBlocks.sequence + 1 } }
        (.bury ⟨deathVersion, s.deadBlocks.sequence, page⟩ none)
  | dieInCommit {s : Shared} {deathVersion page version : ℕ} :
      Step i s (.committing version)
        { s with deadBlocks := { s.deadBlocks with sequence := s.deadBlocks.sequence + 1 } }
        (.bury ⟨deathVersion, s.deadBlocks.sequence, page⟩ (some version))
  | bury {s : Shared} {entry : DeadBlock} {version : Option ℕ} :
      Step i s (.bury entry version)
        { s with deadBlocks := { s.deadBlocks with entries := entry :: s.deadBlocks.entries } }
        (resume version)

abbrev State := Config ℕ Shared Pc

/-- A process that has just created its tree; no thread has an id yet. -/
def start : State where
  shared :=
    { clock := startVersion
      globalMin := startVersion
      globalDirty := .clean
      slots := fun _ => inactive
      readsInRow := fun _ => 0
      threadId := 0
      freeTids := []
      liveTx := .new
      deadBlocks := .new
      ended := []
      handedOut := [] }
  pc := fun _ => .absent

/-- The runs of the protocol. -/
abbrev Runs (c c' : State) : Prop := Run Step Anytime c c'

/-- Only thread 0 is there. -/
def Solo (c : State) : Prop := ∀ j, j ≠ 0 → c.pc j = .absent

theorem Solo.next {ok : ℕ → State → Prop} {c : State} (h : Run Step ok start c ∧ Solo c)
    (hok : ok 0 c) {s : Shared} {l : Pc} (hs : Step 0 c.shared (c.pc 0) s l) :
    Run Step ok start (c.move 0 s l) ∧ Solo (c.move 0 s l) := by
  refine ⟨h.1.next 0 hok hs, fun j hj => ?_⟩
  rw [Config.move_pc_other c 0 s l hj]
  exact h.2 j hj

end CMVBT.ClockProtocol
