import CMVBT.Halving
import CMVBT.KeyWindow
import CMVBT.PaperSystems
import CMVBT.PaperWorkload
import CMVBT.WorkloadDraws
import Mathlib.Data.Prod.Lex

/-!
# The online experiment with one writer

The driver loads a system, lets one writer run the mix of operations and then scans
versions of the past. The keys are a sliding window of ids or the permuted ids of a
list of live keys. The writer asks the system for the version of every operation and
notes those at which a scan will look; the scans compute the window of live ids at
their version from the number of operations before it.
-/
namespace CMVBT.OnlineWorkload
open PageModel (Fault)
open KeyInterval KeyWindow PaperWorkload PaperSystems WorkloadDraws

/-! ## Options -/

/-- What the checks ask about the skew, a floating-point number. -/
inductive Theta where
  | invalid
  | zero
  | positive
deriving DecidableEq, Repr

/-- `Dist::parse`; the driver passes valid shares of hot keys. -/
def parseDist (name : String) (theta : Theta) : Except String Dist :=
  if theta = .invalid then .error "--theta must be a finite number >= 0"
  else if name = "uniform" then .ok .uniform
  else if name = "zipf" ∨ name = "zipfian" then
    .ok (if theta = .zero then .uniform else .zipfian)
  else if name = "latest" then .ok .latest
  else if name = "hotspot" then .ok .hotspot
  else .error s!"unknown distribution '{name}' (uniform|zipf|latest|hotspot)"

/-- The options that the run depends on; `system` and `root-index` choose the system. -/
structure Options where
  records : ℕ
  operations : ℕ
  updateRate : ℕ
  distribution : String
  theta : Theta
  writers : ℕ
  readers : ℕ
  historicalScans : ℕ
  scanRange : ℕ
  scanMode : String
  keyMode : String
  scanThreads : ℕ
  gc : Bool
  seed : UInt64

/-- The checks of `parse`, in their order. -/
def Options.check (cfg : Options) : Except String Unit := do
  if cfg.records = 0 ∨ cfg.operations = 0 ∨ cfg.writers = 0 ∨ cfg.scanThreads = 0 ∨
      cfg.scanRange = 0 then
    throw "records, operations, writers, scan-threads and scan-range must be positive"
  if cfg.scanMode = "range" ∧ cfg.records < cfg.scanRange then
    throw "scan-range must not exceed records in range mode"
  if 100 < cfg.updateRate then throw "update-rate must be in 0..=100"
  if ¬(cfg.scanMode = "range" ∨ cfg.scanMode = "full") then
    throw "scan-mode must be 'range' or 'full'"
  if ¬(cfg.keyMode = "sliding" ∨ cfg.keyMode = "random") then
    throw "key-mode must be 'sliding' or 'random'"
  if cfg.keyMode = "random" ∧ cfg.writers ≠ 1 then
    throw "paper-style random keys require exactly one writer"
  match ← parseDist cfg.distribution cfg.theta with
  | .uniform | .zipfian => pure ()
  | _ => throw "paper-ycsb supports only uniform and zipf distributions"
  if 0 < cfg.historicalScans ∧ 0 < cfg.readers then
    throw "historical scans and concurrent readers are separate paper protocols; choose one"
  if 0 < cfg.historicalScans ∧ cfg.writers ≠ 1 then
    throw "historical scans require one writer so versions map exactly to workload positions"

/-- One writer and no readers beside it, on a system that keeps every version. -/
structure Options.Solo (cfg : Options) : Prop where
  writers : cfg.writers = 1
  readers : cfg.readers = 0
  gc : cfg.gc = false

/-! ## The versions to scan -/

structure HistoricalPlan where
  completed : List ℕ
  versions : List ℕ
  ordered : List (ℕ × ℕ)
deriving DecidableEq, Repr

/-- `(0..scans).map(|_| 1 + rng.below(operations))` -/
def drawCompleted (operations : ℕ) : ℕ → Rng → List ℕ
  | 0, _ => []
  | scans + 1, rng => (1 + (rng.below operations).1) :: drawCompleted operations scans
      (rng.below operations).2

def HistoricalPlan.new (scans operations : ℕ) (seed : UInt64) : HistoricalPlan :=
  let completed := drawCompleted operations scans (.new (seed + 0x5CA9))
  ⟨completed, List.replicate scans 0, Halving.sortedBy toLex completed.zipIdx⟩

/-- The rest of the targets while they are the operation that has completed. -/
def recordFrom (completed version : ℕ) : List (ℕ × ℕ) → ℕ → List ℕ → ℕ × List ℕ
  | [], cursor, versions => (cursor, versions)
  | (target, scan) :: rest, cursor, versions =>
    if target ≠ completed then (cursor, versions)
    else recordFrom completed version rest (cursor + 1) (versions.set scan version)

def HistoricalPlan.record (plan : HistoricalPlan) (cursor completed version : ℕ) :
    ℕ × HistoricalPlan :=
  let (cursor, versions) :=
    recordFrom completed version (plan.ordered.drop cursor) cursor plan.versions
  (cursor, { plan with versions := versions })

/-! ## Keys of one thread -/

/-- Which keys an operation of a writer takes. -/
structure KeySource (W : Type) where
  /-- A new key, and the keys once it is inserted. -/
  insertKey : W → UInt64 × W
  /-- The key to delete; `none` if the thread never gets one. -/
  deleteKey : W → Rng → Option (UInt64 × W × Rng)
  /-- A key to update; `none` if there is no index to draw. -/
  updateKey : W → Rng → Option (UInt64 × Rng)
  insertFails : UInt64 → String
  deleteFails : UInt64 → String

/-- The flags that are set from `published` on; without other threads every
compare-exchange succeeds sooner or later. -/
def advanceFrom : List Bool → ℕ → ℕ
  | true :: flags, published => advanceFrom flags (published + 1)
  | _, published => published

def reserveInsert (keys : OnlineKeys) : ℕ × OnlineKeys :=
  (keys.reserved, { keys with reserved := keys.reserved + 1 })

def publishInsert (keys : OnlineKeys) (key : ℕ) : OnlineKeys :=
  let inserted := keys.inserted.set (key - keys.initial) true
  { keys with
    inserted := inserted
    published := advanceFrom (inserted.drop (keys.published - keys.initial)) keys.published }

/-- Without other threads a key that is not published stays so. -/
def reserveDelete (keys : OnlineKeys) : Option (ℕ × OnlineKeys) :=
  let key := keys.expired
  if keys.published ≤ key then none
  else some (key, { keys with expired := keys.expired + 1, returned := key :: keys.returned })

def sampleLive (keys : OnlineKeys) (chooser : KeyChooser) (rng : Rng) : ℕ × Rng :=
  chooser.next rng keys.expired (max (keys.published - 1) keys.expired)

/-- The keys of `writer`. -/
def slidingKeys (chooser : KeyChooser) : KeySource OnlineKeys where
  insertKey keys :=
    let (key, keys) := reserveInsert keys
    (.ofNat key, publishInsert keys key)
  deleteKey keys rng := (reserveDelete keys).map (fun (key, keys) => (.ofNat key, keys, rng))
  updateKey keys rng :=
    let (key, rng) := sampleLive keys chooser rng
    some (.ofNat key, rng)
  insertFails key := s!"fresh insert({key}) failed"
  deleteFails key := s!"live delete({key}) failed"

structure RandomKeys where
  live : List UInt64
  nextId : ℕ

/-- `swap_remove` of an index in range. -/
def swapRemove {A : Type} (xs : List A) (rank : ℕ) : Option (A × List A) := do
  let x ← xs[rank]?
  let last ← xs.getLast?
  return (x, (xs.set rank last).dropLast)

/-- The keys of `random_key_writer`; without live keys `live.len() - 1` overflows. -/
def randomKeys (cfg : Options) (chooser : KeyChooser) : KeySource RandomKeys where
  insertKey keys :=
    let key := paperKey (.ofNat keys.nextId) cfg.seed
    (key, ⟨keys.live ++ [key], keys.nextId + 1⟩)
  deleteKey keys rng :=
    if keys.live.length = 0 then none
    else
      let (rank, rng) := chooser.next rng 0 (keys.live.length - 1)
      (swapRemove keys.live rank).map (fun (key, live) => (key, { keys with live := live }, rng))
  updateKey keys rng :=
    if keys.live.length = 0 then none
    else
      let (rank, rng) := chooser.next rng 0 (keys.live.length - 1)
      keys.live[rank]?.map (fun key => (key, rng))
  insertFails key := s!"fresh random insert({key}) failed"
  deleteFails key := s!"random live delete({key}) failed"

/-! ## The writer -/

/-- Why a run does not come to its end. -/
inductive Halt where
  | refused (message : String)
  | panic (message : String)
  | noKey
  | retriesForEver
  | fault (fault : Fault)
deriving DecidableEq, Repr

def liftFault {A : Type} : Except Fault A → Except Halt A
  | .ok a => .ok a
  | .error fault => .error (.fault fault)

/-- The numbers of the operations; the latencies are left out. -/
structure WriterStats where
  update : ℕ
  insert : ℕ
  delete : ℕ
  internalRetries : ℕ
deriving DecidableEq, Repr

section Driver
variable {S W : Type} (index : PaperIndex S) (source : KeySource W) (cfg : Options)

structure Writer (S W : Type) where
  index : S
  keys : W
  rng : Rng
  stats : WriterStats
  cursor : ℕ
  plan : Option HistoricalPlan

def Writer.inserted (w : Writer S W) (s : S) (keys : W) : Writer S W :=
  { w with index := s, keys := keys, stats := { w.stats with insert := w.stats.insert + 1 } }

def Writer.deleted (w : Writer S W) (s : S) (keys : W) (rng : Rng) : Writer S W :=
  { w with index := s, keys := keys, rng := rng,
           stats := { w.stats with delete := w.stats.delete + 1 } }

def Writer.updated (w : Writer S W) (s : S) (rng : Rng) : Writer S W :=
  { w with index := s, rng := rng, stats := { w.stats with update := w.stats.update + 1 } }

def Writer.retried (w : Writer S W) (s : S) (rng : Rng) : Writer S W :=
  { w with index := s, rng := rng,
           stats := { w.stats with internalRetries := w.stats.internalRetries + 1 } }

/-- Updates are tried with new keys until one takes effect, `retries` times at most. -/
def updateLoop : ℕ → Writer S W → Except Halt (Writer S W × ℕ)
  | 0, _ => .error .retriesForEver
  | retries + 1, w =>
    match source.updateKey w.keys w.rng with
    | none => .error .noKey
    | some (key, rng) => do
      match ← liftFault (index.applyVersioned w.index (.update key)) with
      | (s, some version) => return (w.updated s rng, version)
      | (s, none) => updateLoop retries (w.retried s rng)

/-- One operation of a kind, and its version. -/
def perform (retries : ℕ) (w : Writer S W) : WriteKind → Except Halt (Writer S W × ℕ)
  | .insert => do
    let (key, keys) := source.insertKey w.keys
    match ← liftFault (index.applyVersioned w.index (.insert key)) with
    | (s, some version) => return (w.inserted s keys, version)
    | (_, none) => .error (.panic (source.insertFails key))
  | .delete =>
    match source.deleteKey w.keys w.rng with
    | none => .error .noKey
    | some (key, keys, rng) => do
      match ← liftFault (index.applyVersioned w.index (.delete key)) with
      | (s, some version) => return (w.deleted s keys rng, version)
      | (_, none) => .error (.panic (source.deleteFails key))
  | .update => updateLoop index source retries w

/-- The version of an operation is noted if a scan looks there. -/
def Writer.record (w : Writer S W) (completed version : ℕ) : Writer S W :=
  match w.plan with
  | none => w
  | some plan =>
    let (cursor, plan) := plan.record w.cursor completed version
    { w with cursor := cursor, plan := some plan }

def writerStep (retries : ℕ) (w : Writer S W) (operation : ℕ) : Except Halt (Writer S W) := do
  let (w, version) ← perform index source retries w
    (writeKind operation cfg.updateRate cfg.seed.toNat)
  return w.record (operation + 1) version

def writerRun (retries : ℕ) (w : Writer S W) (operations : ℕ) : Except Halt (Writer S W) :=
  (List.range operations).foldlM (writerStep index source cfg retries) w

/-! ## The experiment -/

/-- The loop of `load`; neither system has a bulk load. -/
def loadKeys (s : S) : List UInt64 → Except Halt S
  | [] => .ok s
  | key :: keys => do
    match ← liftFault (index.apply s (.insert key)) with
    | (s, true) => loadKeys s keys
    | (_, false) => .error (.refused s!"initial insert({key}) failed")

def historicalPlan : Option HistoricalPlan :=
  if 0 < cfg.historicalScans then
    some (.new cfg.historicalScans cfg.operations cfg.seed)
  else none

/-- The run up to the end of its writer. -/
def runWriter (retries : ℕ) (initial : List UInt64) (keys : W) (s : S) :
    Except Halt (Writer S W) := do
  let s ← loadKeys index s initial
  writerRun index source cfg retries
    ⟨s, keys, .new (cfg.seed + 1), ⟨0, 0, 0, 0⟩, 0, historicalPlan cfg⟩ cfg.operations

def runSliding (chooser : KeyChooser) (retries : ℕ) (s : S) : Except Halt (Writer S OnlineKeys) :=
  runWriter index (slidingKeys chooser) cfg retries
    ((List.range cfg.records).map UInt64.ofNat) (.new cfg.records cfg.operations) s

def runRandom (chooser : KeyChooser) (retries : ℕ) (s : S) : Except Halt (Writer S RandomKeys) :=
  let initial := (List.range cfg.records).map (fun id => paperKey (.ofNat id) cfg.seed)
  runWriter index (randomKeys cfg chooser) cfg retries initial ⟨initial, cfg.records⟩ s

/-- One scan of `historical_scans`, with the generator of the thread that runs it. -/
def historicalScan (plan : HistoricalPlan) (fuel : ℕ) (s : S) (scan : ℕ) (rng : Rng) :
    Except Halt (S × ℕ) :=
  match plan.completed[scan]?, plan.versions[scan]? with
  | some completed, some version =>
    if version = 0 then .error (.panic s!"historical version for scan {scan} was not recorded")
    else if cfg.scanMode = "full" then liftFault (index.scanAt fuel s version)
    else
      let (inserts, deletes) := structuralCountsBefore completed cfg.updateRate cfg.seed.toNat
      let lo := deletes
      let hi := cfg.records + inserts
      let start := lo + (rng.below (max (hi - lo - cfg.scanRange + 1) 1)).1
      liftFault (index.scanAtRange fuel s (.ofNat start) (.ofNat cfg.scanRange) version)
  | _, _ => .error (.panic "index out of bounds")

/-- The number of records that the scans find, in the order in which they are run. -/
def historicalScans (plan : HistoricalPlan) (fuel : ℕ) (s : S) :
    List (ℕ × Rng) → Except Halt (S × ℕ)
  | [] => .ok (s, 0)
  | (scan, rng) :: scans => do
    let (s, found) ← historicalScan index cfg plan fuel s scan rng
    let (s, records) ← historicalScans plan fuel s scans
    return (s, found + records)

end Driver

end CMVBT.OnlineWorkload
