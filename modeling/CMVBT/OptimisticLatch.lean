import CMVBT.Interleaving
import Mathlib.Data.Nat.Bitwise

/-!
# The optimistic latch

`OptCell` and `SmartGuard` of `smart_cell.rs`. A cell carries a version word. A
reader notes the word without its flags, a writer exchanges the noted value for
the same value with the write flag, and gives the cell back one version later.
The word is a 64-bit word with the flags in its two top bits. Guards are the
threads of the interleaving: a thread may hold any number of them.
-/
namespace CMVBT.OptimisticLatch
open Interleaving

/-! ## Words -/

abbrev LatchVersion := BitVec 64

/-- `WRITE_FLAG_VERSION`. -/
def writeFlag : LatchVersion := 0x4000000000000000#64

/-- `WRITE_OBSOLETE_FLAG_VERSION`. -/
def writeObsoleteFlag : LatchVersion := 0xC000000000000000#64

/-- `CELL_START_VERSION`. -/
def cellStartVersion : LatchVersion := 0#64

/-- The word without its flags. -/
def stripped (word : LatchVersion) : LatchVersion := word &&& ~~~writeObsoleteFlag

/-- The word that a dropped writer stores. -/
def released (writeLatch : LatchVersion) : LatchVersion := (writeLatch + 1) ^^^ writeFlag

/-- A version number as a word without flags. -/
def word (n : ℕ) : LatchVersion := BitVec.ofNat 64 n

theorem word_toNat {n : ℕ} (h : n < 2 ^ 62) : (word n).toNat = n := by
  rw [word, BitVec.toNat_ofNat]
  exact Nat.mod_eq_of_lt (by omega)

theorem word_inj {m n : ℕ} (hm : m < 2 ^ 62) (hn : n < 2 ^ 62) : word m = word n ↔ m = n := by
  refine ⟨fun h => ?_, fun h => by rw [h]⟩
  rw [← word_toNat hm, ← word_toNat hn, h]

theorem flagged_toNat {n : ℕ} (h : n < 2 ^ 62) : (writeFlag ||| word n).toNat = 2 ^ 62 + n := by
  have hflag : writeFlag.toNat = 2 ^ 62 := by decide
  rw [BitVec.toNat_or, hflag, word_toNat h]
  simpa using (Nat.two_pow_add_eq_or_of_lt h 1).symm

theorem stripped_toNat (x : LatchVersion) : (stripped x).toNat = x.toNat % 2 ^ 62 := by
  have hmask : (~~~writeObsoleteFlag).toNat = 2 ^ 62 - 1 := by decide
  rw [stripped, BitVec.toNat_and, hmask, Nat.and_two_pow_sub_one_eq_mod]

@[simp] theorem stripped_word {n : ℕ} (h : n < 2 ^ 62) : stripped (word n) = word n := by
  apply BitVec.eq_of_toNat_eq
  rw [stripped_toNat, word_toNat h, Nat.mod_eq_of_lt h]

@[simp] theorem stripped_flagged {n : ℕ} (h : n < 2 ^ 62) :
    stripped (writeFlag ||| word n) = word n := by
  apply BitVec.eq_of_toNat_eq
  rw [stripped_toNat, flagged_toNat h, word_toNat h]
  omega

theorem flagged_ne {m n : ℕ} (hm : m < 2 ^ 62) (hn : n < 2 ^ 62) :
    writeFlag ||| word m ≠ word n := by
  intro h
  have := congrArg BitVec.toNat h
  rw [flagged_toNat hm, word_toNat hn] at this
  omega

/-- Flag and number do not share a bit. -/
theorem word_flag {n : ℕ} (h : n < 2 ^ 62) : word n &&& writeFlag = 0#64 := by
  have hflag : writeFlag = BitVec.twoPow 64 62 := by decide
  have hbit : (word n).getLsbD 62 = false := by
    rw [BitVec.getLsbD, word_toNat h]
    exact Nat.testBit_lt_two_pow h
  apply BitVec.eq_of_getLsbD_eq
  intro i _
  rw [BitVec.getLsbD_and, hflag, BitVec.getLsbD_twoPow, BitVec.getLsbD_zero]
  by_cases hi : 62 = i
  · rw [← hi, hbit, Bool.false_and]
  · simp [hi]

theorem flagged_xor {n : ℕ} (h : n < 2 ^ 62) : (writeFlag ||| word n) ^^^ writeFlag = word n := by
  apply BitVec.eq_of_getLsbD_eq
  intro i _
  have hbit := congrArg (fun x => x.getLsbD i) (word_flag h)
  simp only [BitVec.getLsbD_and, BitVec.getLsbD_zero] at hbit
  rw [BitVec.getLsbD_xor, BitVec.getLsbD_or]
  revert hbit
  cases (word n).getLsbD i <;> cases writeFlag.getLsbD i <;> simp

/-- Dropping a writer moves the cell to the next version, without a flag. -/
theorem released_flagged {n : ℕ} (h : n + 1 < 2 ^ 62) :
    released (writeFlag ||| word n) = word (n + 1) := by
  have hnext : (writeFlag ||| word n) + 1 = writeFlag ||| word (n + 1) := by
    apply BitVec.eq_of_toNat_eq
    rw [BitVec.toNat_add, flagged_toNat (by omega), flagged_toNat h]
    have hone : (1 : LatchVersion).toNat = 1 := by decide
    rw [hone]
    omega
  rw [released, hnext, flagged_xor h]

/-! ## Guards -/

/-- How many write sections had begun and how many had ended. -/
structure Sections where
  begun : ℕ
  ended : ℕ
deriving DecidableEq, Repr

/-- The cell. History: the write sections so far. -/
structure OptCell where
  cellVersion : LatchVersion
  sections : Sections

/-- A guard. History: the sections at its `borrow_read`, and for a writer the word
before it was acquired. -/
inductive SmartGuard where
  | absent
  | reader (latch : LatchVersion) (since : Sections)
  | writer (latch : LatchVersion) (since : Sections) (before : LatchVersion)
deriving DecidableEq, Repr

/-- `write_lock`; `weak` says that the weak compare-exchange fails spuriously. -/
def writeLock (cell : OptCell) (readVersion : LatchVersion) (weak : Bool) : Option LatchVersion :=
  if cell.cellVersion = readVersion ∧ weak = false then some (writeFlag ||| readVersion) else none

def borrowRead (cell : OptCell) : SmartGuard := .reader (stripped cell.cellVersion) cell.sections

/-- `upgrade_write_lock`: the answer, the cell and the guard afterwards. -/
def upgradeWriteLock (weak : Bool) (cell : OptCell) : SmartGuard → Bool × OptCell × SmartGuard
  | .reader readLatch since =>
    match writeLock cell (stripped readLatch) weak with
    | some writeLatch =>
      (true, ⟨writeLatch, cell.sections.begun + 1, cell.sections.ended⟩,
        .writer writeLatch since cell.cellVersion)
    | none => (false, cell, .reader readLatch since)
  | guard => (true, cell, guard)

def isStillLive (cell : OptCell) : SmartGuard → Bool
  | .reader stat _ => stat == cell.cellVersion
  | _ => true

/-- `Drop` of a guard. -/
def dropGuard (cell : OptCell) : SmartGuard → OptCell
  | .writer writeVersion _ _ =>
    ⟨released writeVersion, cell.sections.begun, cell.sections.ended + 1⟩
  | _ => cell

/-- The atomic steps of a guard; `is_still_live` changes nothing. -/
inductive Step (i : ℕ) : OptCell → SmartGuard → OptCell → SmartGuard → Prop
  | borrow {cell : OptCell} : Step i cell .absent cell (borrowRead cell)
  | upgrade {cell : OptCell} {guard : SmartGuard} (weak : Bool) : guard ≠ .absent →
      Step i cell guard (upgradeWriteLock weak cell guard).2.1 (upgradeWriteLock weak cell guard).2.2
  | drop {cell : OptCell} {guard : SmartGuard} : guard ≠ .absent →
      Step i cell guard (dropGuard cell guard) .absent

abbrev State := Config ℕ OptCell SmartGuard

def start : State where
  shared := ⟨cellStartVersion, 0, 0⟩
  pc := fun _ => .absent

abbrev Runs (c c' : State) : Prop := Run Step Anytime c c'

/-! ## What a step does -/

theorem writeLock_eq_some {cell : OptCell} {readVersion w : LatchVersion} {weak : Bool}
    (h : writeLock cell readVersion weak = some w) :
    cell.cellVersion = readVersion ∧ w = writeFlag ||| readVersion := by
  unfold writeLock at h
  split at h
  · next hc => exact ⟨hc.1, (Option.some.inj h).symm⟩
  · cases h

/-- Everything a guard can do to the cell. -/
inductive Effect (cell : OptCell) (guard : SmartGuard) (cell' : OptCell) (guard' : SmartGuard) :
    Prop
  | borrowed : guard = .absent → cell' = cell → guard' = borrowRead cell →
      Effect cell guard cell' guard'
  | same : cell' = cell → guard' = guard → Effect cell guard cell' guard'
  | acquired {latch : LatchVersion} {since : Sections} : guard = .reader latch since →
      cell.cellVersion = stripped latch →
      cell' = ⟨writeFlag ||| stripped latch, cell.sections.begun + 1, cell.sections.ended⟩ →
      guard' = .writer (writeFlag ||| stripped latch) since cell.cellVersion →
      Effect cell guard cell' guard'
  | dropped : cell' = cell → guard' = .absent → Effect cell guard cell' guard'
  | finished {latch before : LatchVersion} {since : Sections} :
      guard = .writer latch since before →
      cell' = ⟨released latch, cell.sections.begun, cell.sections.ended + 1⟩ → guard' = .absent →
      Effect cell guard cell' guard'

theorem effect {i : ℕ} {cell cell' : OptCell} {guard guard' : SmartGuard}
    (h : Step i cell guard cell' guard') : Effect cell guard cell' guard' := by
  cases h with
  | borrow => exact .borrowed rfl rfl rfl
  | upgrade weak hne =>
    cases guard with
    | absent => exact absurd rfl hne
    | writer latch since before => exact .same rfl rfl
    | reader latch since =>
      cases hlock : writeLock cell (stripped latch) weak with
      | none =>
        simp only [upgradeWriteLock, hlock]
        exact .same rfl rfl
      | some w =>
        obtain ⟨heq, rfl⟩ := writeLock_eq_some hlock
        simp only [upgradeWriteLock, hlock]
        exact .acquired rfl heq rfl rfl
  | drop hne =>
    cases guard with
    | absent => exact absurd rfl hne
    | reader latch since => exact .dropped rfl rfl
    | writer latch since before => exact .finished rfl rfl rfl

theorem begun_le {i : ℕ} {cell cell' : OptCell} {guard guard' : SmartGuard}
    (h : Step i cell guard cell' guard') : cell.sections.begun ≤ cell'.sections.begun := by
  cases effect h with
  | borrowed _ hcell _ => rw [hcell]
  | same hcell _ => rw [hcell]
  | acquired _ _ hcell _ => rw [hcell]; exact Nat.le_succ _
  | dropped hcell _ => rw [hcell]
  | finished _ hcell _ => rw [hcell]

theorem ended_le {i : ℕ} {cell cell' : OptCell} {guard guard' : SmartGuard}
    (h : Step i cell guard cell' guard') : cell.sections.ended ≤ cell'.sections.ended := by
  cases effect h with
  | borrowed _ hcell _ => rw [hcell]
  | same hcell _ => rw [hcell]
  | acquired _ _ hcell _ => rw [hcell]
  | dropped hcell _ => rw [hcell]
  | finished _ hcell _ => rw [hcell]; exact Nat.le_succ _

/-! ## The invariant -/

/-- The word of a cell says how many sections have ended and whether one is open. -/
inductive CellOk (cell : OptCell) : Prop
  | free : cell.sections.begun = cell.sections.ended →
      cell.cellVersion = word cell.sections.ended → CellOk cell
  | held : cell.sections.begun = cell.sections.ended + 1 →
      cell.cellVersion = writeFlag ||| word cell.sections.ended → CellOk cell

/-- What a reader noted is the number of sections that had ended, and a writer's
section is the one that is open. -/
def GuardOk (cell : OptCell) : SmartGuard → Prop
  | .absent => True
  | .reader latch since => latch = word since.ended ∧ since.ended ≤ since.begun ∧
      since.begun ≤ cell.sections.begun ∧ since.ended ≤ cell.sections.ended
  | .writer latch since before => cell.sections.begun = cell.sections.ended + 1 ∧
      latch = writeFlag ||| word cell.sections.ended ∧ before = word cell.sections.ended ∧
      since = ⟨cell.sections.ended, cell.sections.ended⟩

def isWriter : SmartGuard → Bool
  | .writer _ _ _ => true
  | _ => false

structure LatchOk (c : State) : Prop where
  cell : CellOk c.shared
  guards : ∀ i, GuardOk c.shared (c.pc i)
  unique : ∀ i j, isWriter (c.pc i) = true → isWriter (c.pc j) = true → i = j

theorem CellOk.ended_le_begun {cell : OptCell} (h : CellOk cell) :
    cell.sections.ended ≤ cell.sections.begun := by
  cases h with
  | free h _ => exact h.ge
  | held h _ => rw [h]; exact Nat.le_succ _

/-- A noted word that is still in the cell: nothing was open and nothing began. -/
theorem unchanged {cell : OptCell} (hcell : CellOk cell) (hfew : cell.sections.begun < 2 ^ 60)
    {latch : LatchVersion} {since : Sections} (h : GuardOk cell (.reader latch since))
    (heq : latch = cell.cellVersion) :
    since = ⟨cell.sections.ended, cell.sections.ended⟩ ∧
      cell.sections.begun = cell.sections.ended := by
  obtain ⟨hlatch, hle, hbegun, hended⟩ := h
  have hord := hcell.ended_le_begun
  cases hcell with
  | free hopen hword =>
    rw [hlatch, hword, word_inj (by omega) (by omega)] at heq
    cases since
    simp only [Sections.mk.injEq]
    simp only at heq hle hbegun
    omega
  | held hopen hword =>
    rw [hlatch, hword] at heq
    exact absurd heq.symm (flagged_ne (by omega) (by omega))

theorem guardOk_borrowRead {cell : OptCell} (h : CellOk cell)
    (hfew : cell.sections.begun < 2 ^ 60) : GuardOk cell (borrowRead cell) := by
  have hle := h.ended_le_begun
  refine ⟨?_, hle, le_rfl, le_rfl⟩
  cases h with
  | free _ hword => rw [hword, stripped_word (by omega)]
  | held _ hword => rw [hword, stripped_flagged (by omega)]

/-- A step that leaves the cell alone and makes no writer. -/
theorem LatchOk.quiet {c : State} (h : LatchOk c) (i : ℕ) {guard : SmartGuard}
    (hguard : GuardOk c.shared guard)
    (hwriter : isWriter guard = true → isWriter (c.pc i) = true) :
    LatchOk (c.move i c.shared guard) := by
  have hold : ∀ j, isWriter ((c.move i c.shared guard).pc j) = true → isWriter (c.pc j) = true :=
    c.forall_move i c.shared guard (A := fun j g => isWriter g = true → isWriter (c.pc j) = true)
      hwriter (fun j _ hj => hj)
  refine ⟨h.cell, ?_, fun a b ha hb => h.unique a b (hold a ha) (hold b hb)⟩
  exact c.forall_move i c.shared guard (A := fun _ g => GuardOk c.shared g) hguard
    (fun j _ => h.guards j)

/-- Sections counted later do not touch what a reader noted. -/
theorem GuardOk.later {cell cell' : OptCell} {guard : SmartGuard} (h : GuardOk cell guard)
    (hbegun : cell.sections.begun ≤ cell'.sections.begun)
    (hended : cell.sections.ended ≤ cell'.sections.ended) (hwriter : isWriter guard = false) :
    GuardOk cell' guard := by
  cases guard with
  | absent => trivial
  | reader latch since => exact ⟨h.1, h.2.1, h.2.2.1.trans hbegun, h.2.2.2.trans hended⟩
  | writer latch since before => cases hwriter

theorem LatchOk.step {c : State} (h : LatchOk c) {i : ℕ} {cell : OptCell} {guard : SmartGuard}
    (hs : Step i c.shared (c.pc i) cell guard) (hfew : c.shared.sections.begun < 2 ^ 60) :
    LatchOk (c.move i cell guard) := by
  have hself := h.guards i
  have hord := h.cell.ended_le_begun
  cases effect hs with
  | borrowed _ hcell hguard =>
    subst hcell hguard
    exact h.quiet i (guardOk_borrowRead h.cell hfew) (fun hw => by cases hw)
  | same hcell hguard =>
    subst hcell hguard
    exact h.quiet i hself id
  | dropped hcell hguard =>
    subst hcell hguard
    exact h.quiet i trivial (fun hw => by cases hw)
  | @acquired latch since hpc heq hcell hguard =>
    rw [hpc] at hself
    -- a noted word has no flags, so it is compared as it was noted
    have hlatch : stripped latch = latch := by
      rw [hself.1]
      exact stripped_word (by have := hself.2.2.2; omega)
    rw [hlatch] at heq hcell hguard
    obtain ⟨hsince, hfree⟩ := unchanged h.cell hfew hself heq.symm
    have hword : latch = word c.shared.sections.ended := by rw [hself.1, hsince]
    have hnone : ∀ j, isWriter (c.pc j) = false := by
      intro j
      have hj := h.guards j
      generalize c.pc j = g at hj
      cases g with
      | writer => exact absurd hj.1 (by omega)
      | _ => rfl
    have hmine : ∀ j, isWriter ((c.move i cell guard).pc j) = true → j = i :=
      c.forall_move i cell guard (A := fun j g => isWriter g = true → j = i) (fun _ => rfl)
        (fun j _ hj => by rw [hnone j] at hj; cases hj)
    subst hcell hguard
    refine ⟨.held (by simp [hfree]) (by simp [hword]), ?_, ?_⟩
    · refine c.forall_move i _ _ (A := fun _ g => GuardOk _ g) ?_ ?_
      · exact ⟨by simp [hfree], by simp [hword], heq.trans hword, hsince⟩
      · exact fun j _ => (h.guards j).later (Nat.le_succ _) le_rfl (hnone j)
    · exact fun a b ha hb => (hmine a ha).trans (hmine b hb).symm
  | @finished latch before since hpc hcell hguard =>
    rw [hpc] at hself
    obtain ⟨hopen, hlatch, -, -⟩ := hself
    have hnone : ∀ j, j ≠ i → isWriter (c.pc j) = false := by
      intro j hj
      by_contra hw
      exact hj (h.unique j i (by simpa using hw) (by rw [hpc]; rfl))
    have hfalse : ∀ j, isWriter ((c.move i cell guard).pc j) = false :=
      c.forall_move i cell guard (A := fun _ g => isWriter g = false) (by rw [hguard]; rfl) hnone
    subst hcell hguard
    refine ⟨.free hopen (by rw [hlatch]; exact released_flagged (by omega)), ?_, ?_⟩
    · refine c.forall_move i _ _ (A := fun _ g => GuardOk _ g) trivial ?_
      exact fun j hj => (h.guards j).later le_rfl (Nat.le_succ _) (hnone j hj)
    · intro a b ha _
      rw [hfalse a] at ha
      cases ha

theorem latchOk_start : LatchOk start := by
  refine ⟨.free rfl rfl, fun _ => trivial, ?_⟩
  rintro i j ⟨⟩

theorem runs_begun_le {c c' : State} (h : Runs c c') :
    c.shared.sections.begun ≤ c'.shared.sections.begun :=
  h.monotone (f := fun cell => cell.sections.begun) (fun _ _ _ _ _ hs => begun_le hs)

theorem runs_latchOk {c : State} (h : Runs start c) (hfew : c.shared.sections.begun < 2 ^ 60) :
    LatchOk c := by
  have hinv : c.shared.sections.begun < 2 ^ 60 → LatchOk c := by
    refine h.preserves (J := fun c => c.shared.sections.begun < 2 ^ 60 → LatchOk c) ?_
      (fun _ => latchOk_start)
    intro c i cell guard _ hs hinv hlt
    have hlt' := (begun_le hs).trans_lt hlt
    exact (hinv hlt').step hs hlt'
  exact hinv hfew

/-! ## The protocol -/

/-- Nothing was being written at the borrow and no write section has begun since. -/
def Undisturbed (cell : OptCell) (since : Sections) : Prop :=
  since.begun = since.ended ∧ cell.sections.begun = since.begun

theorem undisturbed {cell : OptCell} (hcell : CellOk cell) (hfew : cell.sections.begun < 2 ^ 60)
    {latch : LatchVersion} {since : Sections} (h : GuardOk cell (.reader latch since))
    (heq : latch = cell.cellVersion) : Undisturbed cell since := by
  obtain ⟨rfl, hopen⟩ := unchanged hcell hfew h heq
  exact ⟨rfl, hopen⟩

/-- The word after a write section is a value that the cell never had before. -/
theorem fresh_word {b c : State} (hb : Runs start b) (hbc : Runs b c)
    (hfew : c.shared.sections.begun < 2 ^ 60) (hended : c.shared.sections.ended < 2 ^ 60) :
    b.shared.cellVersion ≠ word (c.shared.sections.ended + 1) := by
  have hok := (runs_latchOk hb ((runs_begun_le hbc).trans_lt hfew)).cell
  have hle : b.shared.sections.ended ≤ c.shared.sections.ended :=
    hbc.monotone (f := fun cell => cell.sections.ended) (fun _ _ _ _ _ hs => ended_le hs)
  cases hok with
  | free _ hword =>
    rw [hword, Ne, word_inj (by omega) (by omega)]
    omega
  | held _ hword =>
    rw [hword]
    exact flagged_ne (by omega) (by omega)

/-- In every run with fewer than `2 ^ 60` write sections: there is at most one
writer; a reader is upgraded, or found to be live, only if no write section was
open when it borrowed the cell and none has begun since; and a dropped writer
leaves the word one larger than it found it, without the write flag, a value
that the cell never had before. -/
theorem latch_protocol {c : State} (h : Runs start c)
    (hfew : c.shared.sections.begun < 2 ^ 60) :
    (∀ i j, isWriter (c.pc i) = true → isWriter (c.pc j) = true → i = j) ∧
    (∀ i latch since weak, c.pc i = .reader latch since →
      (upgradeWriteLock weak c.shared (c.pc i)).1 = true → Undisturbed c.shared since) ∧
    (∀ i latch since, c.pc i = .reader latch since →
      isStillLive c.shared (c.pc i) = true → Undisturbed c.shared since) ∧
    (∀ i latch since before, c.pc i = .writer latch since before →
      (dropGuard c.shared (c.pc i)).cellVersion = before + 1 ∧
      (dropGuard c.shared (c.pc i)).cellVersion &&& writeFlag = 0#64 ∧
      ∀ b, Runs start b → Runs b c →
        b.shared.cellVersion ≠ (dropGuard c.shared (c.pc i)).cellVersion) := by
  have hok := runs_latchOk h hfew
  have hord := hok.cell.ended_le_begun
  refine ⟨hok.unique, ?_, ?_, ?_⟩
  · intro i latch since weak hpc hup
    have hguard := hok.guards i
    rw [hpc] at hup hguard
    have hlatch : stripped latch = latch := by
      rw [hguard.1]
      exact stripped_word (by have := hguard.2.2.2; omega)
    cases hlock : writeLock c.shared (stripped latch) weak with
    | none => simp [upgradeWriteLock, hlock] at hup
    | some w =>
      have heq := (writeLock_eq_some hlock).1
      exact undisturbed hok.cell hfew hguard (by rw [heq, hlatch])
  · intro i latch since hpc hlive
    have hguard := hok.guards i
    rw [hpc] at hlive hguard
    exact undisturbed hok.cell hfew hguard (by simpa [isStillLive] using hlive)
  · intro i latch since before hpc
    obtain ⟨hopen, hlatch, hbefore, -⟩ : GuardOk c.shared (.writer latch since before) := by
      rw [← hpc]
      exact hok.guards i
    have hword : (dropGuard c.shared (c.pc i)).cellVersion =
        word (c.shared.sections.ended + 1) := by
      rw [hpc, dropGuard, hlatch]
      exact released_flagged (by omega)
    rw [hword]
    refine ⟨?_, word_flag (by omega), fun b hb hbc => fresh_word hb hbc hfew (by omega)⟩
    rw [hbefore, word, word, BitVec.ofNat_add]
    rfl

/-- Two readers borrow the cell and one of them becomes a writer. -/
theorem latch_protocol_two_readers :
    ∃ c, Runs start c ∧ isWriter (c.pc 0) = true ∧ isStillLive c.shared (c.pc 1) = false ∧
      ∀ j, isWriter (c.pc j) = true → 0 = j := by
  have r := (Run.refl start : Run Step Anytime start start).move 0 .borrow
  replace r := r.move 1 .borrow
  replace r := r.move 0 (.upgrade false (by decide))
  exact ⟨_, r, by decide, by decide, fun j => (latch_protocol r (by decide)).1 0 j (by decide)⟩

end CMVBT.OptimisticLatch
