import CMVBT.PageModel

/-!
# The clock and the commit watermark, one call at a time

Every structure modification and every write draws its version from the clock
of its tree. A thread publishes its last completed version in its own slot; the
watermark `GLOBAL_MIN` is the running maximum of the slot minima that readers
and the garbage collector compute. The functions here run a whole call without
interruption; the interleaved steps of the same calls are a separate model.
-/
namespace CMVBT.CommitClock
open PageModel

/-- `Version::MAX`, also the value of an inactive slot. -/
def versionMax : ℕ := 2 ^ 64 - 1

abbrev inactive : ℕ := versionMax

def maxReadsInRow : ℕ := 100

/-- `READ_IN_ROW_INACTIVE`. -/
def readInRowInactive : ℕ := 2 ^ 64 - 1

inductive DirtyFlag where
  | clean
  | dirty
  | scanning
deriving DecidableEq, Repr

/-- The clock of the tree, the process-wide watermark with its flag, and the
slots and read counters of the registered threads. -/
structure CommitState where
  clock : ℕ
  globalMin : ℕ
  globalDirty : DirtyFlag
  slots : List ℕ
  readsInRow : List ℕ
deriving Repr

namespace CommitState

/-- A process with one tree and `threads` registered threads. -/
def new (threads : ℕ) : CommitState :=
  ⟨startVersion, startVersion, .clean, List.replicate threads inactive, List.replicate threads 0⟩

def currentVersion (c : CommitState) : ℕ := c.clock

def threadLocalCommit (c : CommitState) (id : ℕ) (version : ℕ) : CommitState :=
  { c with slots := c.slots.set id version, globalDirty := .dirty }

def threadLocalCommitInactive (c : CommitState) (id : ℕ) : CommitState :=
  c.threadLocalCommit id inactive

def startCommit (c : CommitState) (tid : ℕ) : CommitState × ℕ :=
  ({ c with readsInRow := c.readsInRow.set tid 0, clock := c.clock + 1 }, c.clock)

def endCommit (c : CommitState) (tid : ℕ) (version : ℕ) : CommitState :=
  c.threadLocalCommit tid version

def setInactiveCommit (c : CommitState) (tid : ℕ) : CommitState :=
  { c with readsInRow := c.readsInRow.set tid readInRowInactive }.threadLocalCommitInactive tid

/-- The scan over the slots of all threads, folded with a clock reading. -/
def scan (c : CommitState) (clockTime : ℕ) : ℕ := c.slots.foldl min clockTime

def committedSnapshot (c : CommitState) (clockTime : ℕ) : CommitState × ℕ :=
  match c.globalDirty with
  | .clean => (c, c.globalMin)
  | .dirty =>
    let aggMinCommit := c.scan clockTime
    ({ c with globalMin := max c.globalMin aggMinCommit, globalDirty := .clean },
      max aggMinCommit c.globalMin)
  | .scanning =>
    let aggMinCommit := c.scan clockTime
    ({ c with globalMin := max c.globalMin aggMinCommit }, max aggMinCommit c.globalMin)

/-- A read also counts towards the rule that retires the slot of a thread which
has only been reading for a while. -/
def committedRead (c : CommitState) (tid : ℕ) (clockTime : ℕ) : CommitState × ℕ :=
  let reads := c.readsInRow.getD tid readInRowInactive
  let c :=
    if reads = readInRowInactive then c
    else if maxReadsInRow < reads then c.setInactiveCommit tid
    else { c with readsInRow := c.readsInRow.set tid (reads + 1) }
  c.committedSnapshot clockTime

def currentVersionForReader (c : CommitState) (tid : ℕ) : CommitState × ℕ :=
  c.committedRead tid c.clock

@[simp] theorem startCommit_clock (c : CommitState) (tid : ℕ) :
    (c.startCommit tid).1.clock = c.clock + 1 := rfl

@[simp] theorem startCommit_version (c : CommitState) (tid : ℕ) :
    (c.startCommit tid).2 = c.clock := rfl

@[simp] theorem endCommit_clock (c : CommitState) (tid : ℕ) (v : ℕ) :
    (c.endCommit tid v).clock = c.clock := rfl

@[simp] theorem committedSnapshot_clock (c : CommitState) (time : ℕ) :
    (c.committedSnapshot time).1.clock = c.clock := by
  cases h : c.globalDirty <;> simp [committedSnapshot, h]

/-- The watermark never falls, and a snapshot is the watermark afterwards. -/
theorem committedSnapshot_raised (c : CommitState) (time : ℕ) :
    c.globalMin ≤ (c.committedSnapshot time).1.globalMin := by
  cases h : c.globalDirty <;> simp [committedSnapshot, h]

theorem committedSnapshot_stored (c : CommitState) (time : ℕ) :
    (c.committedSnapshot time).1.globalMin = (c.committedSnapshot time).2 := by
  cases h : c.globalDirty <;> simp [committedSnapshot, h, max_comm]

@[simp] theorem committedRead_clock (c : CommitState) (tid : ℕ) (time : ℕ) :
    (c.committedRead tid time).1.clock = c.clock := by
  simp only [committedRead, committedSnapshot_clock]
  split_ifs <;> rfl

theorem committedRead_raised (c : CommitState) (tid : ℕ) (time : ℕ) :
    c.globalMin ≤ (c.committedRead tid time).1.globalMin := by
  refine le_trans ?_ (committedSnapshot_raised _ time)
  split_ifs <;> exact le_rfl

end CommitState

end CMVBT.CommitClock
