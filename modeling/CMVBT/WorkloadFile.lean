import CMVBT.ByteRecords
import CMVBT.WritePath

/-!
# Workload files

`generate_query` writes nine bytes for each operation: its kind and its key. Two
loaders read them, `load_query_into_memory` of the tests and `load_workload` of the
paper's drivers, each with tags and a match of its own. A panic is an error here.
-/
namespace CMVBT.WorkloadFile
open ByteRecords WritePath

inductive LoadPanic where
  | unknownCRUDOperation
  | unknownOperationKind (other : UInt8)
  | assertionFailed
  | outOfBounds
deriving DecidableEq, Repr

/-! ## The file of `mv_test` -/

namespace Query
variable {P : Type}

def insert : UInt8 := 0

def update : UInt8 := 1

def delete : UInt8 := 2

/-- `io_handle`, for the operations on which it does not panic. -/
def ioHandle : WriteOperation UInt64 P → List UInt8
  | .insert key _ => insert :: toLeBytes key
  | .update key _ => update :: toLeBytes key
  | .delete key => delete :: toLeBytes key

/-- The file after all operations of `generate_query`. -/
def generateQuery (ops : List (WriteOperation UInt64 P)) : List UInt8 := ops.flatMap ioHandle

/-- The arms of the loop in `load_query_into_memory`. -/
def decodeRecord (payload : P) : List UInt8 → Except LoadPanic (WriteOperation UInt64 P)
  | [] => .error .outOfBounds
  | kind :: key =>
    if kind = insert then .ok (.insert (fromLeBytes key) payload)
    else if kind = update then .ok (.update (fromLeBytes key) payload)
    else if kind = delete then .ok (.delete (fromLeBytes key))
    else .error .unknownCRUDOperation

/-- The operations get the default payload. -/
def loadQueryIntoMemory (payload : P) (queryFile : List UInt8) :
    Except LoadPanic (List (WriteOperation UInt64 P)) := do
  let (loaded, rest) ← readRecords 9 (decodeRecord payload) queryFile
  if (readExact 1 rest).1.isNone then return loaded else .error .assertionFailed

end Query

/-! ## The file of `paper` -/

namespace Paper

def insert : UInt8 := 0

def update : UInt8 := 1

def delete : UInt8 := 2

inductive FileOp where
  | insert (key : UInt64)
  | update (key : UInt64)
  | delete (key : UInt64)
deriving DecidableEq, Repr

def FileOp.key : FileOp → UInt64
  | .insert key => key
  | .update key => key
  | .delete key => key

def decodeRecord : List UInt8 → Except LoadPanic FileOp
  | [] => .error .outOfBounds
  | kind :: key =>
    let key := fromLeBytes key
    if kind = insert then .ok (.insert key)
    else if kind = update then .ok (.update key)
    else if kind = delete then .ok (.delete key)
    else .error (.unknownOperationKind kind)

def loadWorkload (file : List UInt8) : Except LoadPanic (List FileOp) := do
  let (ops, _) ← readRecords 9 decodeRecord file
  return ops

end Paper

/-! ## Round trips -/

section RoundTrips
variable {P : Type}

/-- The kind and key of an operation, with the payload that the loader gives it. -/
def withPayload (payload : P) : WriteOperation UInt64 P → WriteOperation UInt64 P
  | .insert key _ => .insert key payload
  | .update key _ => .update key payload
  | .delete key => .delete key

/-- The kind and key of an operation. -/
def fileOp : WriteOperation UInt64 P → Paper.FileOp
  | .insert key _ => .insert key
  | .update key _ => .update key
  | .delete key => .delete key

/-- The operation of a kind and key. -/
def queryOp (payload : P) : Paper.FileOp → WriteOperation UInt64 P
  | .insert key => .insert key payload
  | .update key => .update key payload
  | .delete key => .delete key

/-- Every record starts with one of the three tags. -/
def ValidTags (file : List UInt8) : Prop :=
  ∀ i, 9 * i < file.length →
    ∃ kind ∈ [Query.insert, Query.update, Query.delete], file[9 * i]? = some kind

theorem ioHandle_length (op : WriteOperation UInt64 P) : (Query.ioHandle op).length = 9 := by
  cases op <;> simp [Query.ioHandle]

theorem query_decode (payload : P) (op : WriteOperation UInt64 P) :
    Query.decodeRecord payload (Query.ioHandle op) = .ok (withPayload payload op) := by
  cases op <;> simp [Query.decodeRecord, Query.ioHandle, withPayload, Query.insert, Query.update,
    Query.delete]

theorem paper_decode (op : WriteOperation UInt64 P) :
    Paper.decodeRecord (Query.ioHandle op) = .ok (fileOp op) := by
  cases op <;> simp [Paper.decodeRecord, Query.ioHandle, fileOp, Query.insert, Query.update,
    Query.delete, Paper.insert, Paper.update, Paper.delete]

/-- A record of nine bytes with a tag of the file. -/
def ValidRecord (buff : List UInt8) : Prop :=
  ∃ kind ∈ [Query.insert, Query.update, Query.delete], buff.head? = some kind

theorem record_split {buff : List UInt8} (hlen : buff.length = 9) (hvalid : ValidRecord buff) :
    ∃ kind key, buff = kind :: key ∧ key.length = 8 ∧
      (kind = Query.insert ∨ kind = Query.update ∨ kind = Query.delete) := by
  obtain ⟨kind, hkind, hhead⟩ := hvalid
  cases buff with
  | nil => cases hhead
  | cons first key =>
    obtain rfl : first = kind := Option.some.inj hhead
    exact ⟨first, key, rfl, Nat.succ.inj hlen, by simpa using hkind⟩

theorem query_rewrite (payload : P) {buff : List UInt8} (hlen : buff.length = 9)
    (hvalid : ValidRecord buff) :
    ∃ op, Query.decodeRecord payload buff = .ok op ∧ Query.ioHandle op = buff := by
  obtain ⟨kind, key, rfl, hkey, rfl | rfl | rfl⟩ := record_split hlen hvalid
  · exact ⟨.insert (fromLeBytes key) payload, rfl, by rw [Query.ioHandle, toLeBytes_fromLeBytes hkey]⟩
  · exact ⟨.update (fromLeBytes key) payload, rfl, by rw [Query.ioHandle, toLeBytes_fromLeBytes hkey]⟩
  · exact ⟨.delete (fromLeBytes key), rfl, by rw [Query.ioHandle, toLeBytes_fromLeBytes hkey]⟩

theorem paper_rewrite (payload : P) {buff : List UInt8} (hlen : buff.length = 9)
    (hvalid : ValidRecord buff) :
    ∃ op, Paper.decodeRecord buff = .ok op ∧ Query.ioHandle (queryOp payload op) = buff := by
  obtain ⟨kind, key, rfl, hkey, rfl | rfl | rfl⟩ := record_split hlen hvalid
  · exact ⟨.insert (fromLeBytes key), rfl, by
      rw [queryOp, Query.ioHandle, toLeBytes_fromLeBytes hkey]⟩
  · exact ⟨.update (fromLeBytes key), rfl, by
      rw [queryOp, Query.ioHandle, toLeBytes_fromLeBytes hkey]⟩
  · exact ⟨.delete (fromLeBytes key), rfl, by
      rw [queryOp, Query.ioHandle, toLeBytes_fromLeBytes hkey]⟩

theorem validTags_records {file : List UInt8} (hlen : 9 ∣ file.length) (htags : ValidTags file) :
    Records 9 ValidRecord file := by
  obtain ⟨n, hn⟩ := hlen
  refine records_of_dvd n (by omega) fun i hi => ?_
  obtain ⟨kind, hkind, hget⟩ := htags i (by omega)
  refine ⟨kind, hkind, ?_⟩
  rw [List.head?_take, if_neg (by omega), List.head?_drop, Nat.mul_comm]
  exact hget

/-- Both loaders read back what was written, and writing what was read gives the
file again. -/
theorem workload_file_round_trips (payload : P) :
    (∀ ops : List (WriteOperation UInt64 P),
      Query.loadQueryIntoMemory payload (Query.generateQuery ops) =
        .ok (ops.map (withPayload payload)) ∧
      Paper.loadWorkload (Query.generateQuery ops) = .ok (ops.map fileOp)) ∧
    ∀ file : List UInt8, 9 ∣ file.length → ValidTags file →
      (∃ ops, Query.loadQueryIntoMemory payload file = .ok ops ∧ Query.generateQuery ops = file) ∧
      ∃ ops, Paper.loadWorkload file = .ok ops ∧
        Query.generateQuery (ops.map (queryOp payload)) = file := by
  refine ⟨fun ops => ⟨?_, ?_⟩, fun file hlen htags => ⟨?_, ?_⟩⟩
  · rw [Query.loadQueryIntoMemory, Query.generateQuery,
      readRecords_flatMap ioHandle_length (query_decode payload)]
    rfl
  · rw [Paper.loadWorkload, Query.generateQuery, readRecords_flatMap ioHandle_length paper_decode]
    rfl
  · obtain ⟨ops, hread, hrewrite⟩ := (validTags_records hlen htags).rewrite
      (fun buff hbuff hvalid => query_rewrite payload hbuff hvalid)
    refine ⟨ops, ?_, hrewrite⟩
    rw [Query.loadQueryIntoMemory, hread]
    rfl
  · obtain ⟨ops, hread, hrewrite⟩ := (validTags_records hlen htags).rewrite
      (fun buff hbuff hvalid => paper_rewrite payload hbuff hvalid)
    refine ⟨ops, ?_, ?_⟩
    · rw [Paper.loadWorkload, hread]
      rfl
    · rw [Query.generateQuery, List.flatMap_map]
      exact hrewrite

end RoundTrips

/-- Inserting key 1, updating key 255 and deleting key 258, low bytes first. -/
def threeRecords : List UInt8 :=
  [0, 1, 0, 0, 0, 0, 0, 0, 0] ++ [1, 255, 0, 0, 0, 0, 0, 0, 0] ++ [2, 2, 1, 0, 0, 0, 0, 0, 0]

theorem workload_file_three_records :
    (∃ ops, Query.loadQueryIntoMemory 0 threeRecords = .ok ops ∧
      Query.generateQuery ops = threeRecords) ∧
    ∃ ops, Paper.loadWorkload threeRecords = .ok ops ∧
      Query.generateQuery (ops.map (queryOp 0)) = threeRecords := by
  refine (workload_file_round_trips 0).2 _ (by decide) fun i hi => ?_
  have hlength : threeRecords.length = 27 := rfl
  obtain rfl | rfl | rfl : i = 0 ∨ i = 1 ∨ i = 2 := by omega
  · exact ⟨0, by decide, rfl⟩
  · exact ⟨1, by decide, rfl⟩
  · exact ⟨2, by decide, rfl⟩

end CMVBT.WorkloadFile
