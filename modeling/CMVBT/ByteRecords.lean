import Mathlib.Data.List.Basic
import Mathlib.Tactic.Ring

/-!
# Files of records

Little-endian words as lists of bytes, and files that hold records of one size one
behind the other. A loader reads whole records until the file ends; what is too
short for a record is consumed by the read that fails.
-/
namespace CMVBT.ByteRecords

/-! ## Little-endian words -/

/-- The low `n` bytes of a number. -/
def leBytes : ℕ → ℕ → List UInt8
  | 0, _ => []
  | n + 1, word => UInt8.ofNat (word % 256) :: leBytes n (word / 256)

def ofLeBytes : List UInt8 → ℕ
  | [] => 0
  | byte :: bytes => byte.toNat + 256 * ofLeBytes bytes

theorem leBytes_length (n word : ℕ) : (leBytes n word).length = n := by
  induction n generalizing word with
  | zero => rfl
  | succ n ih => rw [leBytes, List.length_cons, ih]

theorem ofLeBytes_leBytes (n word : ℕ) : ofLeBytes (leBytes n word) = word % 256 ^ n := by
  induction n generalizing word with
  | zero => simp [leBytes, ofLeBytes, Nat.mod_one]
  | succ n ih =>
    have hbyte : (UInt8.ofNat (word % 256)).toNat = word % 256 := by simp
    rw [leBytes, ofLeBytes, ih, hbyte, Nat.pow_succ, Nat.mul_comm (256 ^ n), Nat.mod_mul]

theorem leBytes_ofLeBytes (bytes : List UInt8) : leBytes bytes.length (ofLeBytes bytes) = bytes := by
  induction bytes with
  | nil => rfl
  | cons byte bytes ih =>
    have hlt : byte.toNat < 256 := byte.toNat_lt
    have hlow : (byte.toNat + 256 * ofLeBytes bytes) % 256 = byte.toNat := by omega
    have hhigh : (byte.toNat + 256 * ofLeBytes bytes) / 256 = ofLeBytes bytes := by omega
    rw [List.length_cons, ofLeBytes, leBytes, hlow, hhigh, ih, UInt8.ofNat_toNat]

theorem ofLeBytes_lt (bytes : List UInt8) : ofLeBytes bytes < 256 ^ bytes.length := by
  induction bytes with
  | nil => exact Nat.one_pos
  | cons byte bytes ih =>
    have hlt : byte.toNat < 256 := byte.toNat_lt
    rw [ofLeBytes, List.length_cons, Nat.pow_succ]
    omega

/-- `u64::to_le_bytes`. -/
def toLeBytes (word : UInt64) : List UInt8 := leBytes 8 word.toNat

/-- `u64::from_le_bytes`, for eight bytes. -/
def fromLeBytes (bytes : List UInt8) : UInt64 := UInt64.ofNat (ofLeBytes bytes)

@[simp] theorem toLeBytes_length (word : UInt64) : (toLeBytes word).length = 8 :=
  leBytes_length 8 word.toNat

@[simp] theorem fromLeBytes_toLeBytes (word : UInt64) : fromLeBytes (toLeBytes word) = word := by
  have hlt : word.toNat < 256 ^ 8 := word.toNat_lt
  rw [fromLeBytes, toLeBytes, ofLeBytes_leBytes, Nat.mod_eq_of_lt hlt, UInt64.ofNat_toNat]

theorem toLeBytes_fromLeBytes {bytes : List UInt8} (h : bytes.length = 8) :
    toLeBytes (fromLeBytes bytes) = bytes := by
  have hlt : ofLeBytes bytes < 2 ^ 64 := by
    have hbound := ofLeBytes_lt bytes
    rw [h] at hbound
    exact hbound
  rw [toLeBytes, fromLeBytes, UInt64.toNat_ofNat_of_lt' hlt, ← h]
  exact leBytes_ofLeBytes bytes

/-! ## Records -/

/-- `Read::read_exact`: the bytes, or nothing at the end of the file, and what is
left of the file. -/
def readExact (n : ℕ) (file : List UInt8) : Option (List UInt8) × List UInt8 :=
  if n ≤ file.length then (some (file.take n), file.drop n) else (none, [])

variable {E A : Type}

theorem readExact_shorter {size : ℕ} [NeZero size] {file buff rest : List UInt8}
    (h : readExact size file = (some buff, rest)) : rest.length < file.length := by
  have hsize := NeZero.pos size
  unfold readExact at h
  split at h
  · cases h
    rw [List.length_drop]
    omega
  · cases h

/-- Reads and decodes records until `read_exact` fails. -/
def readRecords (size : ℕ) [NeZero size] (decode : List UInt8 → Except E A) (file : List UInt8) :
    Except E (List A × List UInt8) :=
  match hread : readExact size file with
  | (none, rest) => .ok ([], rest)
  | (some buff, rest) =>
    have := readExact_shorter hread
    do
      let op ← decode buff
      let (ops, rest) ← readRecords size decode rest
      return (op :: ops, rest)
termination_by file.length

variable {size : ℕ} [NeZero size] {decode : List UInt8 → Except E A}

theorem readExact_append {buff : List UInt8} (h : buff.length = size) (rest : List UInt8) :
    readExact size (buff ++ rest) = (some buff, rest) := by
  subst h
  simp [readExact]

theorem readRecords_nil : readRecords size decode [] = .ok ([], []) := by
  have hsize := NeZero.pos size
  have hread : readExact size [] = (none, []) := if_neg (by simpa using NeZero.ne size)
  rw [readRecords]
  split
  · next heq =>
    rw [hread] at heq
    cases heq
    rfl
  · next heq =>
    rw [hread] at heq
    cases heq

theorem readRecords_append {buff : List UInt8} (h : buff.length = size) (rest : List UInt8) :
    readRecords size decode (buff ++ rest) = (do
      let op ← decode buff
      let (ops, rest) ← readRecords size decode rest
      return (op :: ops, rest)) := by
  have hread := readExact_append h rest
  rw [readRecords]
  split
  · next heq =>
    rw [hread] at heq
    cases heq
  · next heq =>
    rw [hread] at heq
    cases heq
    rfl

/-- Records that were written one after the other are read back. -/
theorem readRecords_flatMap {O : Type} {encode : O → List UInt8} {result : O → A}
    (hsize : ∀ op, (encode op).length = size) (hdecode : ∀ op, decode (encode op) = .ok (result op))
    (ops : List O) :
    readRecords size decode (ops.flatMap encode) = .ok (ops.map result, []) := by
  induction ops with
  | nil => exact readRecords_nil
  | cons op ops ih =>
    rw [List.flatMap_cons, readRecords_append (hsize op), hdecode, ih]
    rfl

/-- The file consists of records that satisfy `valid`. -/
inductive Records (size : ℕ) (valid : List UInt8 → Prop) : List UInt8 → Prop
  | nil : Records size valid []
  | cons {buff rest : List UInt8} : buff.length = size → valid buff → Records size valid rest →
      Records size valid (buff ++ rest)

/-- A file of valid records is written again by writing what was read. -/
theorem Records.rewrite {valid : List UInt8 → Prop} {encode : A → List UInt8} {file : List UInt8}
    (h : Records size valid file)
    (hdecode : ∀ buff, buff.length = size → valid buff →
      ∃ op, decode buff = .ok op ∧ encode op = buff) :
    ∃ ops, readRecords size decode file = .ok (ops, []) ∧ ops.flatMap encode = file := by
  induction h with
  | nil => exact ⟨[], readRecords_nil, rfl⟩
  | @cons buff rest hlen hvalid _ ih =>
    obtain ⟨ops, hread, hrewrite⟩ := ih
    obtain ⟨op, hop, hbuff⟩ := hdecode buff hlen hvalid
    refine ⟨op :: ops, ?_, by rw [List.flatMap_cons, hbuff, hrewrite]⟩
    rw [readRecords_append hlen, hop, hread]
    rfl

omit [NeZero size] in
/-- A whole number of records, each of them valid. -/
theorem records_of_dvd {valid : List UInt8 → Prop} (n : ℕ) {file : List UInt8}
    (hlen : file.length = n * size)
    (hvalid : ∀ i < n, valid ((file.drop (i * size)).take size)) : Records size valid file := by
  induction n generalizing file with
  | zero =>
    rw [Nat.zero_mul] at hlen
    obtain rfl := List.length_eq_zero_iff.mp hlen
    exact .nil
  | succ n ih =>
    have hfirst : (file.take size).length = size := by
      rw [List.length_take, hlen, Nat.succ_mul]
      omega
    have hrest : Records size valid (file.drop size) := by
      refine ih ?_ fun i hi => ?_
      · rw [List.length_drop, hlen, Nat.succ_mul, Nat.add_sub_cancel]
      · have hnext := hvalid (i + 1) (Nat.succ_lt_succ hi)
        rwa [List.drop_drop, Nat.add_comm size, ← Nat.succ_mul]
    have hhead : valid (file.take size) := by simpa using hvalid 0 (Nat.succ_pos n)
    rw [← List.take_append_drop size file]
    exact .cons hfirst hhead hrest

end CMVBT.ByteRecords
