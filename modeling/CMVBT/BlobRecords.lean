import CMVBT.ByteRecords

/-!
# The records of the benchmark

A record of 1 KB holds its key, a tag and a pattern of words that depend on the key. The
check accepts exactly the records that were built for the key, whatever their tag is; and
in a record that was put together from the words of several records it finds every word
of another key.
-/
namespace CMVBT.BlobRecords
open ByteRecords

/-! ## Words of eight bytes -/

/-- The `i`th of `chunks_exact(8)`. -/
def chunk (bytes : List UInt8) (i : ℕ) : List UInt8 := (bytes.drop (8 * i)).take 8

theorem toLeBytes_inj {a b : UInt64} (h : toLeBytes a = toLeBytes b) : a = b := by
  rw [← fromLeBytes_toLeBytes a, h, fromLeBytes_toLeBytes]

theorem length_words (words : List UInt64) :
    (words.flatMap toLeBytes).length = 8 * words.length := by
  induction words with
  | nil => rfl
  | cons word words ih =>
    rw [List.flatMap_cons, List.length_append, ih, toLeBytes_length, List.length_cons]
    omega

theorem chunk_cons (word : UInt64) (bytes : List UInt8) (i : ℕ) :
    chunk (toLeBytes word ++ bytes) (i + 1) = chunk bytes i := by
  have hindex : 8 * (i + 1) = (toLeBytes word).length + 8 * i := by
    rw [toLeBytes_length]
    omega
  unfold chunk
  rw [hindex, ← List.drop_drop, List.drop_left]

theorem chunk_zero (word : UInt64) (bytes : List UInt8) :
    chunk (toLeBytes word ++ bytes) 0 = toLeBytes word := by
  unfold chunk
  rw [Nat.mul_zero, List.drop_zero, List.take_left' (toLeBytes_length word)]

/-- The chunks of bytes that were written word by word. -/
theorem chunk_words {words : List UInt64} {i : ℕ} {word : UInt64} (h : words[i]? = some word) :
    chunk (words.flatMap toLeBytes) i = toLeBytes word := by
  induction words generalizing i with
  | nil => cases h
  | cons first words ih =>
    rw [List.flatMap_cons]
    cases i with
    | zero =>
      cases h
      exact chunk_zero _ _
    | succ i =>
      rw [chunk_cons]
      exact ih h

/-- Bytes are told by their chunks. -/
theorem eq_words {words : List UInt64} {bytes : List UInt8}
    (hlength : bytes.length = 8 * words.length)
    (h : ∀ i word, words[i]? = some word → chunk bytes i = toLeBytes word) :
    bytes = words.flatMap toLeBytes := by
  induction words generalizing bytes with
  | nil => exact List.length_eq_zero_iff.mp hlength
  | cons first words ih =>
    have hfirst : bytes.take 8 = toLeBytes first := by
      have := h 0 first rfl
      rwa [chunk, Nat.mul_zero, List.drop_zero] at this
    rw [List.length_cons] at hlength
    have hrest : bytes.drop 8 = words.flatMap toLeBytes := by
      apply ih
      · rw [List.length_drop]
        omega
      · intro i word hword
        rw [← h (i + 1) word hword, chunk, chunk, List.drop_drop]
        congr 2
        omega
    rw [List.flatMap_cons, ← hfirst, ← hrest, List.take_append_drop]

/-! ## Records -/

/-- `RECORD_BYTES`. -/
def recordBytes : ℕ := 1024

structure Blob where
  bytes : List UInt8
  size : bytes.length = recordBytes
deriving DecidableEq

/-- `u64::rotate_left`. -/
def rotateLeft (word : UInt64) (count : ℕ) : UInt64 := ⟨word.toBitVec.rotateLeft count⟩

/-- `Blob::word`. -/
def patternWord (key : UInt64) (index : ℕ) : UInt64 :=
  rotateLeft key (index % 61) ^^^ (0x9E3779B97F4A7C15 * (.ofNat index + 1))

/-- The words of a record: the key, the tag, and the pattern up to its end. -/
def words (key tag : UInt64) : List UInt64 := key :: tag :: (List.range 126).map (patternWord key)

theorem length_recordWords (key tag : UInt64) : (words key tag).length = 128 := by
  simp only [words, List.length_cons, List.length_map, List.length_range]

def Blob.build (key tag : UInt64) : Blob where
  bytes := (words key tag).flatMap toLeBytes
  size := by rw [length_words, length_recordWords, recordBytes]

def Blob.tag (blob : Blob) : UInt64 := fromLeBytes (chunk blob.bytes 1)

def Blob.check (blob : Blob) (key : UInt64) : Bool :=
  chunk blob.bytes 0 == toLeBytes key &&
    (List.range 126).all (fun i => chunk blob.bytes (i + 2) == toLeBytes (patternWord key i))

theorem rotateLeft_inj {a b : UInt64} {count : ℕ} (hcount : count < 64)
    (h : rotateLeft a count = rotateLeft b count) : a = b := by
  have hbits : a.toBitVec.rotateLeft count = b.toBitVec.rotateLeft count :=
    congrArg UInt64.toBitVec h
  apply UInt64.toBitVec_inj.mp
  apply BitVec.eq_of_getLsbD_eq
  intro j hj
  by_cases hlow : j < 64 - count
  · have hbit := congrArg (fun x => x.getLsbD (j + count)) hbits
    simp only [BitVec.getLsbD_rotateLeft_of_le hcount] at hbit
    have hge : ¬j + count < count := by omega
    have hlt : j + count < 64 := by omega
    simpa [hge, hlt] using hbit
  · have hbit := congrArg (fun x => x.getLsbD (j - (64 - count))) hbits
    simp only [BitVec.getLsbD_rotateLeft_of_le hcount] at hbit
    have hlt : j - (64 - count) < count := by omega
    have hindex : 64 - count + (j - (64 - count)) = j := by omega
    simpa [hlt, hindex] using hbit

/-- Every word of the pattern tells the key. -/
theorem patternWord_inj {a b : UInt64} {index : ℕ} (h : patternWord a index = patternWord b index) :
    a = b := by
  unfold patternWord at h
  rw [UInt64.xor_left_inj] at h
  exact rotateLeft_inj ((Nat.mod_lt index (by decide)).trans (by decide)) h

theorem pattern_get (key tag : UInt64) {i : ℕ} (hi : i < 126) :
    (words key tag)[i + 2]? = some (patternWord key i) := by
  simp only [words, List.getElem?_cons_succ, List.getElem?_map, List.getElem?_range hi,
    Option.map_some]

theorem check_eq_true {blob : Blob} {key : UInt64} : blob.check key = true ↔
    chunk blob.bytes 0 = toLeBytes key ∧
      ∀ i < 126, chunk blob.bytes (i + 2) = toLeBytes (patternWord key i) := by
  unfold Blob.check
  rw [Bool.and_eq_true, beq_iff_eq, List.all_eq_true]
  simp only [List.mem_range, beq_iff_eq]

theorem length_chunk (blob : Blob) {i : ℕ} (hi : i < 128) : (chunk blob.bytes i).length = 8 := by
  have hsize := blob.size
  unfold recordBytes at hsize
  rw [chunk, List.length_take, List.length_drop]
  omega

@[simp] theorem tag_build (key tag : UInt64) : (Blob.build key tag).tag = tag := by
  have hchunk : chunk (Blob.build key tag).bytes 1 = toLeBytes tag := chunk_words rfl
  rw [Blob.tag, hchunk, fromLeBytes_toLeBytes]

/-- The check accepts what was built for the key, and nothing else. -/
theorem check_iff_built (blob : Blob) (key : UInt64) :
    blob.check key = true ↔ blob = .build key blob.tag := by
  rw [check_eq_true]
  constructor
  · intro h
    obtain ⟨hkey, hpattern⟩ := h
    have hbytes : blob.bytes = (words key blob.tag).flatMap toLeBytes := by
      apply eq_words
      · rw [blob.size, length_recordWords, recordBytes]
      · intro i word hword
        rcases i with _ | _ | i
        · cases hword
          exact hkey
        · cases hword
          exact (toLeBytes_fromLeBytes (length_chunk blob (by decide))).symm
        · have hi : i < 126 := by
            have := (List.getElem?_eq_some_iff.mp hword).1
            rw [length_recordWords] at this
            omega
          rw [pattern_get key blob.tag hi] at hword
          cases hword
          exact hpattern i hi
    cases blob with
    | mk bytes size => exact Blob.mk.injEq _ _ _ _ ▸ hbytes
  · intro h
    rw [h]
    exact ⟨chunk_words rfl, fun i hi => chunk_words (pattern_get key _ hi)⟩

/-- Records carry their tag and pass the check of their key only. A record whose words come
from any records at all passes the check of a key exactly when all of them, the tag apart,
come from records of that key. -/
theorem blob_records_checked :
    (∀ key tag, (Blob.build key tag).tag = tag) ∧
    (∀ blob key, Blob.check blob key = true ↔ ∃ tag, blob = .build key tag) ∧
    ∀ (blob : Blob) (origin : ℕ → UInt64),
      (∀ i < 128, i ≠ 1 → ∃ tag, chunk blob.bytes i = chunk (Blob.build (origin i) tag).bytes i) →
      ∀ key, blob.check key = true ↔ ∀ i < 128, i ≠ 1 → origin i = key := by
  refine ⟨tag_build, fun blob key => ?_, fun blob origin horigin key => ?_⟩
  · rw [check_iff_built]
    constructor
    · exact fun h => ⟨_, h⟩
    · intro h
      obtain ⟨tag, rfl⟩ := h
      rw [tag_build]
  · have hfirst : chunk blob.bytes 0 = toLeBytes (origin 0) := by
      obtain ⟨tag, htag⟩ := horigin 0 (by decide) (by decide)
      rw [htag]
      exact chunk_words rfl
    have hpattern : ∀ i < 126,
        chunk blob.bytes (i + 2) = toLeBytes (patternWord (origin (i + 2)) i) := by
      intro i hi
      obtain ⟨tag, htag⟩ := horigin (i + 2) (by omega) (by omega)
      rw [htag]
      exact chunk_words (pattern_get _ _ hi)
    rw [check_eq_true, hfirst]
    constructor
    · intro h i hi hne
      rcases i with _ | _ | i
      · exact toLeBytes_inj h.1
      · exact absurd rfl hne
      · have hword := h.2 i (by omega)
        rw [hpattern i (by omega)] at hword
        exact patternWord_inj (toLeBytes_inj hword)
    · intro h
      refine ⟨by rw [h 0 (by decide) (by decide)], fun i hi => ?_⟩
      rw [hpattern i hi, h (i + 2) (by omega) (by omega)]

/-- The first half of a record of key 5 and the second half of one of key 7. -/
def torn : Blob where
  bytes := (Blob.build 5 1).bytes.take 512 ++ (Blob.build 7 2).bytes.drop 512
  size := by rw [List.length_append, List.length_take, List.length_drop, Blob.size, Blob.size]; rfl

/-- It passes the check of no key. -/
theorem blob_records_checked_torn : ∀ key, torn.check key = false := by
  intro key
  have hiff := blob_records_checked.2.2 torn (fun i => if i < 64 then 5 else 7) ?_ key
  · by_contra h
    rw [Bool.not_eq_false, hiff] at h
    have hfive : (5 : UInt64) = key := h 0 (by decide) (by decide)
    have hseven : (7 : UInt64) = key := h 64 (by decide) (by decide)
    exact absurd (hfive.trans hseven.symm) (by decide)
  · intro i hi _
    have hlength : ((Blob.build 5 1).bytes.take 512).length = 512 := by
      rw [List.length_take, Blob.size]
      rfl
    by_cases hlow : i < 64
    · refine ⟨1, ?_⟩
      rw [if_pos hlow, chunk, chunk, torn, List.drop_append_of_le_length (by omega),
        List.take_append_of_le_length (by rw [List.length_drop, hlength]; omega),
        List.drop_take, List.take_take, min_eq_left (by omega)]
    · refine ⟨2, ?_⟩
      rw [if_neg hlow, chunk, chunk, torn, List.drop_append, List.drop_of_length_le (by omega),
        List.nil_append, List.drop_drop, hlength, show 512 + (8 * i - 512) = 8 * i by omega]

end CMVBT.BlobRecords
