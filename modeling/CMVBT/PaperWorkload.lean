import CMVBT.AffineRange
import CMVBT.WordPermutation

/-!
# The workload of the online experiment

Keys are logical ids under a mixing function on 64-bit words; no two ids get the
same key. The kinds of the operations are mixed block by block: an affine map
scatters the updates, inserts and deletes of a block of 1000 operations, so that
every block has the exact ratio and the counts of a prefix have a closed form.
-/
namespace CMVBT.PaperWorkload
open WordPermutation AffineRange

/-! ## Physical keys -/

def paperKey (id seed : UInt64) : UInt64 :=
  let key := id + seed + 0x9E3779B97F4A7C15
  let key := (key ^^^ (key >>> 30)) * 0xBF58476D1CE4E5B9
  let key := (key ^^^ (key >>> 27)) * 0x94D049BB133111EB
  key ^^^ (key >>> 31)

/-- Every physical key belongs to exactly one logical id. -/
theorem paperKey_bijective (seed : UInt64) : Function.Bijective (fun id => paperKey id seed) := by
  have hseed := add_bijective seed
  have hgolden := add_bijective 0x9E3779B97F4A7C15
  have hshift₁ := xorShift_bijective (s := 30) (by decide)
  have hmul₁ := mul_bijective (c := 0xBF58476D1CE4E5B9) (d := 0x96DE1B173F119089) (by decide)
  have hshift₂ := xorShift_bijective (s := 27) (by decide)
  have hmul₂ := mul_bijective (c := 0x94D049BB133111EB) (d := 0x319642B2D24D8EC3) (by decide)
  have hshift₃ := xorShift_bijective (s := 31) (by decide)
  exact hshift₃.comp (hmul₂.comp (hshift₂.comp (hmul₁.comp (hshift₁.comp (hgolden.comp hseed)))))

/-! ## The mix of operations -/

inductive WriteKind where
  | update
  | insert
  | delete
deriving DecidableEq, Repr

/-- The kind of the slot that an operation has in its block. -/
def kindOfSlot (updates inserts slot : ℕ) : WriteKind :=
  if slot < updates then .update
  else if slot < updates + inserts then .insert
  else .delete

/-- The shift of a block, computed in 64 bits. -/
def blockOffset (block seed : ℕ) : ℕ := (seed + block * 0x9E3779B9 % 2 ^ 64) % 2 ^ 64 % 1000

def writeKind (operation updateRate seed : ℕ) : WriteKind :=
  let updates := updateRate * 10
  let inserts := (1000 - updates) / 2
  let block := operation / 1000
  let slot := (operation % 1000 * 791 + blockOffset block seed) % 1000
  kindOfSlot updates inserts slot

/-- The counts of inserts and deletes with one more operation. -/
def countKind (counts : ℕ × ℕ) : WriteKind → ℕ × ℕ
  | .insert => (counts.1 + 1, counts.2)
  | .delete => (counts.1, counts.2 + 1)
  | .update => counts

/-- The kinds of `len` operations from `start` on. -/
def writeKinds (start len updateRate seed : ℕ) : List WriteKind :=
  (List.range' start len).map (fun operation => writeKind operation updateRate seed)

def structuralCountsBefore (operations updateRate seed : ℕ) : ℕ × ℕ :=
  let perKind := (100 - updateRate) * 5
  let fullBlocks := operations / 1000
  (writeKinds (fullBlocks * 1000) (operations - fullBlocks * 1000) updateRate seed).foldl countKind
    (fullBlocks * perKind, fullBlocks * perKind)

theorem foldl_countKind (kinds : List WriteKind) : ∀ counts : ℕ × ℕ,
    kinds.foldl countKind counts =
      (counts.1 + kinds.count .insert, counts.2 + kinds.count .delete) := by
  induction kinds with
  | nil => simp
  | cons kind kinds ih =>
    intro counts
    rw [List.foldl_cons, ih]
    cases kind <;> simp [countKind] <;> omega

section Blocks
variable {updateRate : ℕ} (seed : ℕ)

theorem writeKinds_append (start len len' updateRate : ℕ) :
    writeKinds start (len + len') updateRate seed =
      writeKinds start len updateRate seed ++ writeKinds (start + len) len' updateRate seed := by
  rw [writeKinds, writeKinds, writeKinds, ← List.map_append, List.range'_append_1]

theorem writeKinds_eq (start len updateRate : ℕ) : writeKinds start len updateRate seed =
    (List.range len).map (fun i => writeKind (start + i) updateRate seed) := by
  rw [writeKinds, List.range'_eq_map_range, List.map_map]
  rfl

theorem writeKind_block (block updateRate : ℕ) {i : ℕ} (hi : i < 1000) :
    writeKind (block * 1000 + i) updateRate seed =
      kindOfSlot (updateRate * 10) ((1000 - updateRate * 10) / 2)
        (affine 791 (blockOffset block seed) 1000 i) := by
  have hdiv : (block * 1000 + i) / 1000 = block := by omega
  have hmod : (block * 1000 + i) % 1000 = i := by omega
  simp only [writeKind, affine, hdiv, hmod]

/-- A block is the image of its slots under an affine map. -/
theorem writeKinds_block (block updateRate : ℕ) :
    writeKinds (block * 1000) 1000 updateRate seed =
      (List.range 1000).map (fun i => kindOfSlot (updateRate * 10) ((1000 - updateRate * 10) / 2)
        (affine 791 (blockOffset block seed) 1000 i)) := by
  rw [writeKinds_eq]
  apply List.map_congr_left
  intro i hi
  exact writeKind_block seed block updateRate (List.mem_range.mp hi)

theorem count_block (block : ℕ) (kind : WriteKind) :
    (writeKinds (block * 1000) 1000 updateRate seed).count kind =
      (List.range 1000).countP (fun slot =>
        kindOfSlot (updateRate * 10) ((1000 - updateRate * 10) / 2) slot == kind) := by
  rw [writeKinds_block, List.count_eq_countP, List.countP_map]
  exact countP_affine (by decide) (by decide) (blockOffset block seed)
    (fun slot => kindOfSlot (updateRate * 10) ((1000 - updateRate * 10) / 2) slot == kind)

/-- Every aligned block has the exact ratio. -/
theorem block_mix (hrate : updateRate ≤ 100) (block : ℕ) :
    (writeKinds (block * 1000) 1000 updateRate seed).count .update = 10 * updateRate ∧
    (writeKinds (block * 1000) 1000 updateRate seed).count .insert = 5 * (100 - updateRate) ∧
    (writeKinds (block * 1000) 1000 updateRate seed).count .delete = 5 * (100 - updateRate) := by
  have hinserts : (1000 - updateRate * 10) / 2 = 5 * (100 - updateRate) := by omega
  have hrange : ∀ (kind : WriteKind) (lo hi : ℕ),
      (∀ slot < 1000, kindOfSlot (updateRate * 10) ((1000 - updateRate * 10) / 2) slot = kind ↔
        lo ≤ slot ∧ slot < hi) →
      (writeKinds (block * 1000) 1000 updateRate seed).count kind = min 1000 hi - lo := by
    intro kind lo hi h
    rw [count_block, ← countP_between]
    refine List.countP_congr (fun slot hslot => ?_)
    rw [beq_iff_eq, decide_eq_true_eq]
    exact h slot (List.mem_range.mp hslot)
  refine ⟨?_, ?_, ?_⟩
  · rw [hrange .update 0 (updateRate * 10)]
    · omega
    · intro slot _
      unfold kindOfSlot
      split_ifs <;> simp <;> omega
  · rw [hrange .insert (updateRate * 10) (updateRate * 10 + 5 * (100 - updateRate))]
    · omega
    · intro slot _
      rw [hinserts]
      unfold kindOfSlot
      split_ifs <;> simp <;> omega
  · rw [hrange .delete (updateRate * 10 + 5 * (100 - updateRate)) 1000]
    · omega
    · intro slot _
      rw [hinserts]
      unfold kindOfSlot
      split_ifs <;> simp <;> omega

theorem count_blocks (hrate : updateRate ≤ 100) (blocks : ℕ) :
    (writeKinds 0 (blocks * 1000) updateRate seed).count .insert =
        blocks * ((100 - updateRate) * 5) ∧
      (writeKinds 0 (blocks * 1000) updateRate seed).count .delete =
        blocks * ((100 - updateRate) * 5) := by
  induction blocks with
  | zero => simp [writeKinds]
  | succ blocks ih =>
    obtain ⟨-, hinsert, hdelete⟩ := block_mix seed hrate blocks
    have hcomm : 5 * (100 - updateRate) = (100 - updateRate) * 5 := Nat.mul_comm ..
    rw [hcomm] at hinsert hdelete
    rw [Nat.succ_mul blocks 1000, writeKinds_append, List.count_append, List.count_append,
      Nat.zero_add, ih.1, ih.2, hinsert, hdelete, Nat.succ_mul blocks]
    exact ⟨rfl, rfl⟩

theorem structuralCountsBefore_eq (hrate : updateRate ≤ 100) (operations : ℕ) :
    structuralCountsBefore operations updateRate seed =
      ((writeKinds 0 operations updateRate seed).count .insert,
        (writeKinds 0 operations updateRate seed).count .delete) := by
  obtain ⟨hinsert, hdelete⟩ := count_blocks seed hrate (operations / 1000)
  have hsplit := writeKinds_append seed 0 (operations / 1000 * 1000)
    (operations - operations / 1000 * 1000) updateRate
  rw [Nat.zero_add, Nat.add_sub_cancel' (by omega)] at hsplit
  rw [structuralCountsBefore, foldl_countKind, hsplit, List.count_append, List.count_append,
    hinsert, hdelete]

theorem count_le_length (kinds : List WriteKind) :
    kinds.count .insert + kinds.count .delete ≤ kinds.length := by
  induction kinds with
  | nil => simp
  | cons kind kinds ih => cases kind <;> simp <;> omega

/-- The counts stay below the number of operations, so they do not overflow. -/
theorem structuralCountsBefore_le (hrate : updateRate ≤ 100) (operations : ℕ) :
    (structuralCountsBefore operations updateRate seed).1 +
      (structuralCountsBefore operations updateRate seed).2 ≤ operations := by
  have hlength : (writeKinds 0 operations updateRate seed).length = operations := by
    simp [writeKinds]
  rw [structuralCountsBefore_eq seed hrate]
  exact (count_le_length _).trans hlength.le

end Blocks

/-- The closed form counts the inserts and the deletes of every prefix, and every block
of 1000 operations has the exact ratio. -/
theorem structural_counts_exact (operations updateRate seed : ℕ) (hrate : updateRate ≤ 100) :
    structuralCountsBefore operations updateRate seed =
        ((writeKinds 0 operations updateRate seed).count .insert,
          (writeKinds 0 operations updateRate seed).count .delete) ∧
      ∀ block,
        (writeKinds (block * 1000) 1000 updateRate seed).count .update = 10 * updateRate ∧
        (writeKinds (block * 1000) 1000 updateRate seed).count .insert = 5 * (100 - updateRate) ∧
        (writeKinds (block * 1000) 1000 updateRate seed).count .delete = 5 * (100 - updateRate) :=
  ⟨structuralCountsBefore_eq seed hrate operations, block_mix seed hrate⟩

/-- The mix of the paper with 60 percent updates. -/
theorem structural_counts_exact_sixty :
    structuralCountsBefore 1731 60 42 =
      ((writeKinds 0 1731 60 42).count .insert, (writeKinds 0 1731 60 42).count .delete) :=
  (structural_counts_exact 1731 60 42 (by decide)).1

end CMVBT.PaperWorkload
