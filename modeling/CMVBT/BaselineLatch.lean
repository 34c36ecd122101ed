import CMVBT.OptimisticLatch

/-!
# The latches of the baseline

`OptCell` and `SmartGuard` of the tree with version lists. The word of a cell has one flag
more than in the other tree: a guard may pin a cell, which keeps writers out while readers
stay valid. A writer may mark its cell as obsolete. In a light-weight hybrid cell the mark
stays for ever; in an optimistic cell it lasts as long as the writer. The cells with
mutexes and read-write locks and the copies of guards are left out.
-/
namespace CMVBT.BaselineLatch
open Interleaving
open OptimisticLatch (LatchVersion OptCell Sections cellStartVersion released released_flagged word
  word_inj word_toNat writeFlag writeLock writeLock_eq_some writeObsoleteFlag)

/-! ## Words -/

/-- `OBSOLETE_FLAG_VERSION`. -/
def obsoleteFlag : LatchVersion := 0x8000000000000000#64

/-- `PIN_FLAG_VERSION`. -/
def pinFlag : LatchVersion := 0x2000000000000000#64

/-- `WRITE_PIN_OBSOLETE_FLAG_VERSION`. -/
def writePinObsoleteFlag : LatchVersion := 0xE000000000000000#64

/-- A number and flags do not share a bit. -/
theorem word_and {n : ℕ} {flags : LatchVersion} (hn : n < 2 ^ 61)
    (hflags : flags.toNat % 2 ^ 61 = 0) : word n &&& flags = 0#64 := by
  apply BitVec.eq_of_getLsbD_eq
  intro i _
  rw [BitVec.getLsbD_and, BitVec.getLsbD_zero, BitVec.getLsbD, BitVec.getLsbD,
    word_toNat (by omega)]
  by_cases hi : i < 61
  · have hbit := Nat.testBit_mod_two_pow flags.toNat 61 i
    rw [hflags, Nat.zero_testBit, decide_eq_true hi, Bool.true_and] at hbit
    rw [← hbit, Bool.and_false]
  · have hle : 2 ^ 61 ≤ 2 ^ i := Nat.pow_le_pow_right (by omega) (by omega)
    rw [Nat.testBit_lt_two_pow (hn.trans_le hle), Bool.false_and]

section Bits
variable {x flag : LatchVersion} (h : x &&& flag = 0#64)

include h in
theorem bit_and (i : ℕ) : (x.getLsbD i && flag.getLsbD i) = false := by
  rw [← BitVec.getLsbD_and, h, BitVec.getLsbD_zero]

include h in
theorem and_not : x &&& ~~~flag = x := by
  apply BitVec.eq_of_getLsbD_eq
  intro i hi
  have hbit := bit_and h i
  rw [BitVec.getLsbD_and, BitVec.getLsbD_not, decide_eq_true hi, Bool.true_and]
  revert hbit
  cases x.getLsbD i <;> cases flag.getLsbD i <;> simp

include h in
theorem or_and_not : (flag ||| x) &&& ~~~flag = x := by
  apply BitVec.eq_of_getLsbD_eq
  intro i hi
  have hbit := bit_and h i
  rw [BitVec.getLsbD_and, BitVec.getLsbD_or, BitVec.getLsbD_not, decide_eq_true hi, Bool.true_and]
  revert hbit
  cases x.getLsbD i <;> cases flag.getLsbD i <;> simp

include h in
theorem or_xor : (flag ||| x) ^^^ flag = x := by
  apply BitVec.eq_of_getLsbD_eq
  intro i _
  have hbit := bit_and h i
  rw [BitVec.getLsbD_xor, BitVec.getLsbD_or]
  revert hbit
  cases x.getLsbD i <;> cases flag.getLsbD i <;> simp

end Bits

/-- A test for flags does not see the number. -/
theorem flagged_and (flag : LatchVersion) {n : ℕ} {flags : LatchVersion} (hn : n < 2 ^ 61)
    (hflags : flags.toNat % 2 ^ 61 = 0) : (flag ||| word n) &&& flags = flag &&& flags := by
  apply BitVec.eq_of_getLsbD_eq
  intro i _
  have hbit := bit_and (word_and hn hflags) i
  rw [BitVec.getLsbD_and, BitVec.getLsbD_or, BitVec.getLsbD_and]
  revert hbit
  cases (word n).getLsbD i <;> cases flags.getLsbD i <;> simp

/-- What `downgrade` notes is what it stores. -/
theorem downgraded {n : ℕ} (h : n + 1 < 2 ^ 61) :
    ((writeFlag ||| word n) + 1) &&& ~~~writeFlag = word (n + 1) := by
  have hnext : (writeFlag ||| word n) + 1 = writeFlag ||| word (n + 1) := by
    apply BitVec.eq_of_toNat_eq
    have hone : (1 : LatchVersion).toNat = 1 := by decide
    rw [BitVec.toNat_add, OptimisticLatch.flagged_toNat (by omega),
      OptimisticLatch.flagged_toNat (by omega), hone]
    omega
  rw [hnext, or_and_not (word_and h (by decide))]

/-! ## Cells and guards -/

/-- The two kinds of `SmartFlavor` that consist of an `OptCell`. -/
inductive Flavor where
  | olc
  | lightWeightHybrid
deriving DecidableEq, Repr

/-- A guard. History: a reader's number of write sections before it noted its latch. -/
inductive SmartGuard where
  | absent
  | invalid
  | reader (latch : LatchVersion) (since : ℕ)
  | writer (latch : LatchVersion)
  | readerPin (latch : LatchVersion)
  | appendPin (latch : LatchVersion)
deriving DecidableEq, Repr

def readLock (cell : OptCell) : Bool × LatchVersion :=
  (cell.cellVersion &&& writeObsoleteFlag == 0#64, cell.cellVersion &&& ~~~pinFlag)

/-- `weak` says that the exchange fails; what was loaded is then all that is left. -/
def pinLock (cell : OptCell) (weak : Bool) : Except (Bool × LatchVersion) LatchVersion :=
  if cell.cellVersion &&& pinFlag ≠ 0#64 then .error (true, cell.cellVersion &&& ~~~pinFlag)
  else if cell.cellVersion &&& writeObsoleteFlag ≠ 0#64 then .error (false, cell.cellVersion)
  else if weak then .error (true, cell.cellVersion)
  else .ok (cell.cellVersion ||| pinFlag)

def isReadValid (cell : OptCell) (latch : LatchVersion) : Bool :=
  latch == cell.cellVersion &&& ~~~pinFlag && cell.cellVersion &&& writeObsoleteFlag == 0#64

/-- The cell with a new word, at the beginning of a write section. -/
def entered (cell : OptCell) (word : LatchVersion) : OptCell :=
  ⟨word, cell.sections.begun + 1, cell.sections.ended⟩

/-- The cell with a new word, at the end of a write section. -/
def left (cell : OptCell) (word : LatchVersion) : OptCell :=
  ⟨word, cell.sections.begun, cell.sections.ended + 1⟩

/-- The cell with a new word. -/
def stored (cell : OptCell) (word : LatchVersion) : OptCell := ⟨word, cell.sections⟩

def borrowRead (cell : OptCell) : SmartGuard :=
  let (success, read) := readLock cell
  if success then .reader read cell.sections.begun else .invalid

def borrowPin (flavor : Flavor) (weak : Bool) (cell : OptCell) : OptCell × SmartGuard :=
  match flavor with
  | .olc => (cell, .invalid)
  | .lightWeightHybrid =>
    match pinLock cell weak with
    | .ok pinLatch => (stored cell pinLatch, .readerPin pinLatch)
    | .error (true, readLatch) => (cell, .reader readLatch cell.sections.begun)
    | .error (false, _) => (cell, .invalid)

def borrowMut (weak : Bool) (cell : OptCell) : OptCell × SmartGuard :=
  if cell.cellVersion &&& writePinObsoleteFlag ≠ 0#64 then (cell, .invalid)
  else
    match writeLock cell cell.cellVersion weak with
    | some latched => (entered cell latched, .writer latched)
    | none => (cell, .invalid)

/-- `upgrade_write_lock`: the answer, the cell and the guard afterwards. An optimistic cell has
no reader pins. -/
def upgradeWriteLock (flavor : Flavor) (weak : Bool) (cell : OptCell) :
    SmartGuard → Bool × OptCell × SmartGuard
  | .writer latch => (true, cell, .writer latch)
  | .reader readLatch since =>
    match writeLock cell readLatch weak with
    | some writeLatch => (true, entered cell writeLatch, .writer writeLatch)
    | none => (false, cell, .reader readLatch since)
  | .readerPin pinLatch =>
    if flavor = .lightWeightHybrid then
      let pinWrite := writeFlag ||| (pinLatch &&& ~~~pinFlag)
      (true, entered cell pinWrite, .writer pinWrite)
    else (false, cell, .readerPin pinLatch)
  | guard => (false, cell, guard)

/-- `upgrade_append_lock`; a reader's latch is not compared with the cell. -/
def upgradeAppendLock (flavor : Flavor) (weak : Bool) (cell : OptCell) :
    SmartGuard → Bool × OptCell × SmartGuard
  | .reader readLatch since =>
    match pinLock cell weak with
    | .ok pinLatch => (true, stored cell pinLatch, .appendPin pinLatch)
    | .error _ => (false, cell, .reader readLatch since)
  | .readerPin pinLatch => (true, cell, .appendPin pinLatch)
  | guard => upgradeWriteLock flavor weak cell guard

def downgrade (flavor : Flavor) (cell : OptCell) : SmartGuard → OptCell × SmartGuard
  | .writer latch =>
    if latch &&& obsoleteFlag = 0#64 ∧ flavor = .olc then
      (left cell (released latch), .reader ((latch + 1) &&& ~~~writeFlag) cell.sections.begun)
    else (cell, .writer latch)
  | .readerPin latch =>
    if flavor = .olc then
      (stored cell (latch ^^^ pinFlag), .reader (latch ^^^ pinFlag) cell.sections.begun)
    else (cell, .readerPin latch)
  | .appendPin latch =>
    if flavor = .olc then
      (stored cell (latch ^^^ pinFlag), .reader (latch ^^^ pinFlag) cell.sections.begun)
    else (cell, .appendPin latch)
  | guard => (cell, guard)

/-- `mark_obsolete`; `ZEROED_FLAG_VERSION` keeps the drop from storing. -/
def markObsolete (flavor : Flavor) (cell : OptCell) : SmartGuard → OptCell × SmartGuard
  | .writer latch =>
    (stored cell obsoleteFlag, .writer (if flavor = .lightWeightHybrid then 0#64 else latch))
  | guard => (cell, guard)

/-- `Drop` of a guard. -/
def dropGuard (flavor : Flavor) (cell : OptCell) : SmartGuard → OptCell
  | .writer latch =>
    if flavor = .lightWeightHybrid ∧ latch = 0#64 then cell else left cell (released latch)
  | .readerPin latch =>
    if flavor = .lightWeightHybrid then stored cell (latch ^^^ pinFlag) else cell
  | .appendPin latch => stored cell (latch ^^^ pinFlag)
  | _ => cell

/-- The steps of a guard on its cell. -/
inductive Step (flavor : Flavor) (i : ℕ) : OptCell → SmartGuard → OptCell → SmartGuard → Prop
  | borrowRead {cell : OptCell} : Step flavor i cell .absent cell (borrowRead cell)
  | borrowPin {cell : OptCell} (weak : Bool) :
      Step flavor i cell .absent (borrowPin flavor weak cell).1 (borrowPin flavor weak cell).2
  | borrowMut {cell : OptCell} (weak : Bool) :
      Step flavor i cell .absent (borrowMut weak cell).1 (borrowMut weak cell).2
  | upgradeWrite {cell : OptCell} {guard : SmartGuard} (weak : Bool) :
      Step flavor i cell guard (upgradeWriteLock flavor weak cell guard).2.1
        (upgradeWriteLock flavor weak cell guard).2.2
  | upgradeAppend {cell : OptCell} {guard : SmartGuard} (weak : Bool) :
      Step flavor i cell guard (upgradeAppendLock flavor weak cell guard).2.1
        (upgradeAppendLock flavor weak cell guard).2.2
  | downgrade {cell : OptCell} {guard : SmartGuard} :
      Step flavor i cell guard (downgrade flavor cell guard).1 (downgrade flavor cell guard).2
  | markObsolete {cell : OptCell} {guard : SmartGuard} :
      Step flavor i cell guard (markObsolete flavor cell guard).1 (markObsolete flavor cell guard).2
  | drop {cell : OptCell} {guard : SmartGuard} :
      Step flavor i cell guard (dropGuard flavor cell guard) .absent

abbrev State := Config ℕ OptCell SmartGuard

def start : State := ⟨⟨cellStartVersion, 0, 0⟩, fun _ => .absent⟩

abbrev Runs (flavor : Flavor) (c c' : State) : Prop := Run (Step flavor) Anytime c c'

/-! ## The invariant -/

/-- The word of a cell says how many sections have ended and what is going on. -/
inductive CellOk (cell : OptCell) : Prop
  | free : cell.sections.begun = cell.sections.ended →
      cell.cellVersion = word cell.sections.ended → CellOk cell
  | pinned : cell.sections.begun = cell.sections.ended →
      cell.cellVersion = pinFlag ||| word cell.sections.ended → CellOk cell
  | held : cell.sections.begun = cell.sections.ended + 1 →
      cell.cellVersion = writeFlag ||| word cell.sections.ended → CellOk cell
  | obsolete : cell.sections.begun = cell.sections.ended + 1 →
      cell.cellVersion = obsoleteFlag → CellOk cell

/-- Nobody writes the cell or pins it. -/
def Free (cell : OptCell) : Prop :=
  cell.sections.begun = cell.sections.ended ∧ cell.cellVersion = word cell.sections.ended

/-- The latch of the only pin. -/
def PinOk (cell : OptCell) (latch : LatchVersion) : Prop :=
  cell.sections.begun = cell.sections.ended ∧ latch = pinFlag ||| word cell.sections.ended ∧
    cell.cellVersion = latch

/-- The latch of a writer: its word is in the cell, or the mark is. -/
inductive WriterOk (flavor : Flavor) (cell : OptCell) (latch : LatchVersion) : Prop
  | held : latch = writeFlag ||| word cell.sections.ended → cell.cellVersion = latch →
      WriterOk flavor cell latch
  | marked : latch = writeFlag ||| word cell.sections.ended → cell.cellVersion = obsoleteFlag →
      flavor = .olc → WriterOk flavor cell latch
  | zeroed : latch = 0#64 → cell.cellVersion = obsoleteFlag → flavor = .lightWeightHybrid →
      WriterOk flavor cell latch

def GuardOk (flavor : Flavor) (cell : OptCell) : SmartGuard → Prop
  | .absent | .invalid => True
  | .reader latch since => latch = word since ∧ since ≤ cell.sections.ended
  | .writer latch => cell.sections.begun = cell.sections.ended + 1 ∧ WriterOk flavor cell latch
  | .readerPin latch => PinOk cell latch ∧ flavor = .lightWeightHybrid
  | .appendPin latch => PinOk cell latch

/-- A writer or a pin. -/
def holds : SmartGuard → Bool
  | .writer _ | .readerPin _ | .appendPin _ => true
  | _ => false

structure LatchOk (flavor : Flavor) (c : State) : Prop where
  cell : CellOk c.shared
  guards : ∀ i, GuardOk flavor c.shared (c.pc i)
  unique : ∀ i j, holds (c.pc i) = true → holds (c.pc j) = true → i = j

/-- What a step of a guard can do: leave the cell alone, or change it when no other guard
writes or pins it. -/
inductive Fine (flavor : Flavor) (cell : OptCell) (guard : SmartGuard) (cell' : OptCell)
    (guard' : SmartGuard) : Prop
  | quiet : cell' = cell → GuardOk flavor cell guard' →
      (holds guard' = true → holds guard = true) → Fine flavor cell guard cell' guard'
  | alone : holds guard = true ∨ Free cell → CellOk cell' → GuardOk flavor cell' guard' →
      cell.sections.ended ≤ cell'.sections.ended → cell.sections.begun ≤ cell'.sections.begun →
      Fine flavor cell guard cell' guard'

theorem Fine.same {flavor : Flavor} {cell : OptCell} {guard : SmartGuard}
    (h : GuardOk flavor cell guard) : Fine flavor cell guard cell guard :=
  .quiet rfl h id

theorem Fine.begun_le {flavor : Flavor} {cell cell' : OptCell} {guard guard' : SmartGuard}
    (h : Fine flavor cell guard cell' guard') : cell.sections.begun ≤ cell'.sections.begun := by
  cases h with
  | quiet hcell _ _ => rw [hcell]
  | alone _ _ _ _ hle => exact hle

section Ops
variable {flavor : Flavor} {cell : OptCell} {guard : SmartGuard}

theorem CellOk.ended_le_begun (h : CellOk cell) : cell.sections.ended ≤ cell.sections.begun := by
  cases h with
  | free h _ => exact h.ge
  | pinned h _ => exact h.ge
  | held h _ => rw [h]; exact Nat.le_succ _
  | obsolete h _ => rw [h]; exact Nat.le_succ _

/-! ### What the tests tell -/

/-- A cell without a write flag and without a mark is free or pinned. -/
theorem open_of_unflagged (h : CellOk cell) (hfew : cell.sections.begun < 2 ^ 60)
    (hflags : cell.cellVersion &&& writeObsoleteFlag = 0#64) :
    cell.sections.begun = cell.sections.ended ∧
      cell.cellVersion &&& ~~~pinFlag = word cell.sections.ended := by
  have hle := h.ended_le_begun
  have hpin : word cell.sections.ended &&& pinFlag = 0#64 := word_and (by omega) (by decide)
  cases h with
  | free hopen hword => exact ⟨hopen, by rw [hword, and_not hpin]⟩
  | pinned hopen hword => exact ⟨hopen, by rw [hword, or_and_not hpin]⟩
  | held _ hword =>
    rw [hword, flagged_and _ (by omega) (by decide)] at hflags
    exact absurd hflags (by decide)
  | obsolete _ hword =>
    rw [hword] at hflags
    exact absurd hflags (by decide)

/-- Without any flag it is free. -/
theorem free_of_unflagged (h : CellOk cell) (hfew : cell.sections.begun < 2 ^ 60)
    (hflags : cell.cellVersion &&& writeObsoleteFlag = 0#64)
    (hpin : cell.cellVersion &&& pinFlag = 0#64) : Free cell := by
  have hle := h.ended_le_begun
  obtain ⟨hopen, -⟩ := open_of_unflagged h hfew hflags
  refine ⟨hopen, ?_⟩
  cases h with
  | free _ hword => exact hword
  | pinned _ hword =>
    rw [hword, flagged_and _ (by omega) (by decide)] at hpin
    exact absurd hpin (by decide)
  | held hbegun _ => omega
  | obsolete hbegun _ => omega

/-- A cell that carries the word of a reader is free. -/
theorem free_of_noted (h : CellOk cell) (hfew : cell.sections.begun < 2 ^ 60) {since : ℕ}
    (hsince : since ≤ cell.sections.ended) (hword : cell.cellVersion = word since) :
    Free cell ∧ since = cell.sections.ended := by
  have hle := h.ended_le_begun
  have hfree : Free cell := by
    apply free_of_unflagged h hfew
    · rw [hword, word_and (by omega) (by decide)]
    · rw [hword, word_and (by omega) (by decide)]
  refine ⟨hfree, ?_⟩
  rw [hfree.2, word_inj (by omega) (by omega)] at hword
  exact hword.symm

theorem entered_ok (flavor : Flavor) (h : Free cell) :
    CellOk (entered cell (writeFlag ||| cell.cellVersion)) ∧
    GuardOk flavor (entered cell (writeFlag ||| cell.cellVersion))
      (.writer (writeFlag ||| cell.cellVersion)) := by
  have hword : writeFlag ||| cell.cellVersion = writeFlag ||| word cell.sections.ended := by
    rw [h.2]
  have hbegun : cell.sections.begun + 1 = cell.sections.ended + 1 := by rw [h.1]
  exact ⟨.held hbegun hword, hbegun, .held hword rfl⟩

theorem pinned_ok (h : Free cell) :
    CellOk (stored cell (cell.cellVersion ||| pinFlag)) ∧
      PinOk (stored cell (cell.cellVersion ||| pinFlag)) (cell.cellVersion ||| pinFlag) := by
  have hword : cell.cellVersion ||| pinFlag = pinFlag ||| word cell.sections.ended := by
    rw [h.2, BitVec.or_comm]
  exact ⟨.pinned h.1 hword, h.1, hword, rfl⟩

/-- A pin that goes leaves the word it found. -/
theorem unpinned_ok {latch : LatchVersion} (h : PinOk cell latch)
    (hfew : cell.sections.begun < 2 ^ 60) :
    latch ^^^ pinFlag = word cell.sections.ended ∧ CellOk (stored cell (latch ^^^ pinFlag)) := by
  obtain ⟨hopen, hlatch, -⟩ := h
  have hword : latch ^^^ pinFlag = word cell.sections.ended := by
    rw [hlatch, or_xor (word_and (by omega) (by decide))]
  exact ⟨hword, .free hopen hword⟩

/-- A writer that goes leaves the next version, whether or not it had marked the cell. -/
theorem left_ok {latch : LatchVersion} (hopen : cell.sections.begun = cell.sections.ended + 1)
    (hlatch : latch = writeFlag ||| word cell.sections.ended)
    (hfew : cell.sections.begun < 2 ^ 60) :
    released latch = word (cell.sections.ended + 1) ∧ CellOk (left cell (released latch)) := by
  have hword : released latch = word (cell.sections.ended + 1) := by
    rw [hlatch, released_flagged (by omega)]
  exact ⟨hword, .free hopen hword⟩

/-! ### The operations -/

theorem borrowRead_fine (h : CellOk cell) (hfew : cell.sections.begun < 2 ^ 60) :
    Fine flavor cell .absent cell (borrowRead cell) := by
  unfold borrowRead readLock
  by_cases hflags : cell.cellVersion &&& writeObsoleteFlag = 0#64
  · obtain ⟨hopen, hword⟩ := open_of_unflagged h hfew hflags
    simp only [hflags, beq_self_eq_true, if_true]
    exact .quiet rfl ⟨by rw [hword, hopen], hopen.le⟩ (fun h => by cases h)
  · simp only [beq_eq_false_iff_ne.mpr hflags, Bool.false_eq_true, if_false]
    exact .quiet rfl trivial (fun h => by cases h)

/-- What `pin_lock` answers. -/
theorem pinLock_cases (h : CellOk cell) (hfew : cell.sections.begun < 2 ^ 60) (weak : Bool) :
    (pinLock cell weak = .ok (cell.cellVersion ||| pinFlag) ∧ Free cell) ∨
      (∃ latch, pinLock cell weak = .error (true, latch) ∧ latch = word cell.sections.begun ∧
        cell.sections.begun = cell.sections.ended) ∨
      ∃ latch, pinLock cell weak = .error (false, latch) := by
  have hle := h.ended_le_begun
  unfold pinLock
  split_ifs with hpin hflags hweak
  · refine .inr (.inl ⟨_, rfl, ?_⟩)
    have hopen : cell.cellVersion &&& writeObsoleteFlag = 0#64 := by
      cases h with
      | free _ hword => rw [hword, word_and (by omega) (by decide)]
      | pinned _ hword =>
        rw [hword, flagged_and _ (by omega) (by decide)]
        decide
      | held _ hword =>
        rw [hword, flagged_and _ (by omega) (by decide)] at hpin
        exact absurd (by decide) hpin
      | obsolete _ hword =>
        rw [hword] at hpin
        exact absurd (by decide) hpin
    obtain ⟨hbegun, hword⟩ := open_of_unflagged h hfew hopen
    exact ⟨by rw [hword, hbegun], hbegun⟩
  · exact .inr (.inr ⟨_, rfl⟩)
  · have hfree := free_of_unflagged h hfew (not_not.mp hflags) (not_not.mp hpin)
    exact .inr (.inl ⟨_, rfl, by rw [hfree.2, hfree.1], hfree.1⟩)
  · exact .inl ⟨rfl, free_of_unflagged h hfew (not_not.mp hflags) (not_not.mp hpin)⟩

theorem borrowPin_fine (h : CellOk cell) (hfew : cell.sections.begun < 2 ^ 60) (weak : Bool) :
    Fine flavor cell .absent (borrowPin flavor weak cell).1 (borrowPin flavor weak cell).2 := by
  cases flavor with
  | olc => exact .quiet rfl trivial (fun h => by cases h)
  | lightWeightHybrid =>
    rcases pinLock_cases h hfew weak with
      ⟨hpin, hfree⟩ | ⟨latch, hpin, hlatch, hopen⟩ | ⟨latch, hpin⟩
    · obtain ⟨hcell, hok⟩ := pinned_ok hfree
      simp only [borrowPin, hpin]
      exact .alone (.inr hfree) hcell ⟨hok, rfl⟩ le_rfl le_rfl
    · simp only [borrowPin, hpin]
      exact .quiet rfl ⟨hlatch, hopen.le⟩ (fun h => by cases h)
    · simp only [borrowPin, hpin]
      exact .quiet rfl trivial (fun h => by cases h)

theorem borrowMut_fine (h : CellOk cell) (hfew : cell.sections.begun < 2 ^ 60) (weak : Bool) :
    Fine flavor cell .absent (borrowMut weak cell).1 (borrowMut weak cell).2 := by
  have hle := h.ended_le_begun
  unfold borrowMut
  split_ifs with hflags
  · exact .quiet rfl trivial (fun h => by cases h)
  · have hfree : Free cell := by
      have hzero := not_not.mp hflags
      cases h with
      | free hopen hword => exact ⟨hopen, hword⟩
      | pinned _ hword =>
        rw [hword, flagged_and _ (by omega) (by decide)] at hzero
        exact absurd hzero (by decide)
      | held _ hword =>
        rw [hword, flagged_and _ (by omega) (by decide)] at hzero
        exact absurd hzero (by decide)
      | obsolete _ hword =>
        rw [hword] at hzero
        exact absurd hzero (by decide)
    cases hlock : writeLock cell cell.cellVersion weak with
    | none => exact .quiet rfl trivial (fun h => by cases h)
    | some latched =>
      obtain ⟨-, rfl⟩ := writeLock_eq_some hlock
      obtain ⟨hcell, hguard⟩ := entered_ok flavor hfree
      exact .alone (.inr hfree) hcell hguard le_rfl (Nat.le_succ _)

theorem upgradeWriteLock_fine (h : CellOk cell) (hguard : GuardOk flavor cell guard)
    (hfew : cell.sections.begun < 2 ^ 60) (weak : Bool) :
    Fine flavor cell guard (upgradeWriteLock flavor weak cell guard).2.1
      (upgradeWriteLock flavor weak cell guard).2.2 := by
  cases guard with
  | absent => exact .same hguard
  | invalid => exact .same hguard
  | writer latch => exact .same hguard
  | appendPin latch => exact .same hguard
  | reader latch since =>
    cases hlock : writeLock cell latch weak with
    | none =>
      simp only [upgradeWriteLock, hlock]
      exact .same hguard
    | some w =>
      obtain ⟨heq, rfl⟩ := writeLock_eq_some hlock
      obtain ⟨hlatch, hsince⟩ := hguard
      obtain ⟨hfree, -⟩ := free_of_noted h hfew hsince (heq.trans hlatch)
      obtain ⟨hcell, hwriter⟩ := entered_ok flavor hfree
      simp only [upgradeWriteLock, hlock]
      rw [heq] at hcell hwriter
      exact .alone (.inr hfree) hcell hwriter le_rfl (Nat.le_succ _)
  | readerPin latch =>
    obtain ⟨hpin, hflavor⟩ := hguard
    have hle := h.ended_le_begun
    obtain ⟨hopen, hlatch, -⟩ := hpin
    have hword : writeFlag ||| (latch &&& ~~~pinFlag) = writeFlag ||| word cell.sections.ended := by
      rw [hlatch, or_and_not (word_and (by omega) (by decide))]
    have hbegun : cell.sections.begun + 1 = cell.sections.ended + 1 := by rw [hopen]
    simp only [upgradeWriteLock, hflavor, if_true]
    exact .alone (.inl rfl) (.held hbegun hword) ⟨hbegun, .held hword rfl⟩ le_rfl (Nat.le_succ _)

theorem upgradeAppendLock_fine (h : CellOk cell) (hguard : GuardOk flavor cell guard)
    (hfew : cell.sections.begun < 2 ^ 60) (weak : Bool) :
    Fine flavor cell guard (upgradeAppendLock flavor weak cell guard).2.1
      (upgradeAppendLock flavor weak cell guard).2.2 := by
  cases guard with
  | absent => exact upgradeWriteLock_fine h hguard hfew weak
  | invalid => exact upgradeWriteLock_fine h hguard hfew weak
  | writer latch => exact upgradeWriteLock_fine h hguard hfew weak
  | appendPin latch => exact upgradeWriteLock_fine h hguard hfew weak
  | readerPin latch => exact .quiet rfl hguard.1 (fun _ => rfl)
  | reader latch since =>
    rcases pinLock_cases h hfew weak with ⟨hpin, hfree⟩ | ⟨seen, hpin, -, -⟩ | ⟨seen, hpin⟩
    · obtain ⟨hcell, hok⟩ := pinned_ok hfree
      simp only [upgradeAppendLock, hpin]
      exact .alone (.inr hfree) hcell hok le_rfl le_rfl
    · simp only [upgradeAppendLock, hpin]
      exact .same hguard
    · simp only [upgradeAppendLock, hpin]
      exact .same hguard

/-- A pin that is given back. -/
theorem unpinned_fine {latch : LatchVersion} (hpin : PinOk cell latch)
    (hfew : cell.sections.begun < 2 ^ 60) (hholds : holds guard = true) :
    Fine flavor cell guard (stored cell (latch ^^^ pinFlag)) .absent ∧
      Fine flavor cell guard (stored cell (latch ^^^ pinFlag))
        (.reader (latch ^^^ pinFlag) cell.sections.begun) := by
  obtain ⟨hword, hcell⟩ := unpinned_ok hpin hfew
  refine ⟨.alone (.inl hholds) hcell trivial le_rfl le_rfl,
    .alone (.inl hholds) hcell ⟨?_, hpin.1.le⟩ le_rfl le_rfl⟩
  rw [hword, hpin.1]

/-- The word of a writer, unless its mark has zeroed it. -/
theorem WriterOk.word_or {latch : LatchVersion} (h : WriterOk flavor cell latch) :
    latch = writeFlag ||| word cell.sections.ended ∨
      (latch = 0#64 ∧ cell.cellVersion = obsoleteFlag ∧ flavor = .lightWeightHybrid) := by
  cases h with
  | held hlatch _ => exact .inl hlatch
  | marked hlatch _ _ => exact .inl hlatch
  | zeroed hlatch hcell hflavor => exact .inr ⟨hlatch, hcell, hflavor⟩

theorem downgrade_fine (hguard : GuardOk flavor cell guard) (hfew : cell.sections.begun < 2 ^ 60) :
    Fine flavor cell guard (downgrade flavor cell guard).1 (downgrade flavor cell guard).2 := by
  cases guard with
  | absent => exact .same hguard
  | invalid => exact .same hguard
  | reader latch since => exact .same hguard
  | writer latch =>
    simp only [downgrade]
    split_ifs with hdown
    · obtain ⟨hopen, hwriter⟩ := hguard
      have hlatch : latch = writeFlag ||| word cell.sections.ended := by
        rcases hwriter.word_or with hlatch | ⟨-, -, hflavor⟩
        · exact hlatch
        · rw [hdown.2] at hflavor
          cases hflavor
      obtain ⟨-, hcell⟩ := left_ok hopen hlatch hfew
      refine .alone (.inl rfl) hcell ⟨?_, hopen.le⟩ (Nat.le_succ _) le_rfl
      rw [hlatch, downgraded (by omega), hopen]
    · exact .same hguard
  | readerPin latch =>
    simp only [downgrade]
    split_ifs
    · exact (unpinned_fine hguard.1 hfew rfl).2
    · exact .same hguard
  | appendPin latch =>
    simp only [downgrade]
    split_ifs
    · exact (unpinned_fine hguard hfew rfl).2
    · exact .same hguard

theorem markObsolete_fine (hguard : GuardOk flavor cell guard) :
    Fine flavor cell guard (markObsolete flavor cell guard).1
      (markObsolete flavor cell guard).2 := by
  cases guard with
  | absent => exact .same hguard
  | invalid => exact .same hguard
  | reader latch since => exact .same hguard
  | readerPin latch => exact .same hguard
  | appendPin latch => exact .same hguard
  | writer latch =>
    obtain ⟨hopen, hwriter⟩ := hguard
    refine .alone (.inl rfl) (.obsolete hopen rfl) ⟨hopen, ?_⟩ le_rfl le_rfl
    cases hflavor : flavor with
    | lightWeightHybrid => exact .zeroed rfl rfl rfl
    | olc =>
      rcases hwriter.word_or with hlatch | ⟨-, -, hhybrid⟩
      · exact .marked hlatch rfl rfl
      · rw [hflavor] at hhybrid
        cases hhybrid

theorem dropGuard_fine (hguard : GuardOk flavor cell guard) (hfew : cell.sections.begun < 2 ^ 60) :
    Fine flavor cell guard (dropGuard flavor cell guard) .absent := by
  cases guard with
  | absent => exact .same trivial
  | invalid => exact .quiet rfl trivial (fun h => by cases h)
  | reader latch since => exact .quiet rfl trivial (fun h => by cases h)
  | writer latch =>
    simp only [dropGuard]
    split_ifs with hzero
    · exact .quiet rfl trivial (fun h => by cases h)
    · obtain ⟨hopen, hwriter⟩ := hguard
      rcases hwriter.word_or with hlatch | ⟨hlatch, -, hflavor⟩
      · exact .alone (.inl rfl) (left_ok hopen hlatch hfew).2 trivial (Nat.le_succ _) le_rfl
      · exact absurd ⟨hflavor, hlatch⟩ hzero
  | readerPin latch =>
    simp only [dropGuard]
    rw [if_pos hguard.2]
    exact (unpinned_fine hguard.1 hfew rfl).1
  | appendPin latch => exact (unpinned_fine hguard hfew rfl).1

/-- One case for each operation. -/
theorem step_fine {i : ℕ} {cell' : OptCell} {guard' : SmartGuard} (h : CellOk cell)
    (hguard : GuardOk flavor cell guard) (hfew : cell.sections.begun < 2 ^ 60)
    (hs : Step flavor i cell guard cell' guard') : Fine flavor cell guard cell' guard' := by
  cases hs with
  | borrowRead => exact borrowRead_fine h hfew
  | borrowPin weak => exact borrowPin_fine h hfew weak
  | borrowMut weak => exact borrowMut_fine h hfew weak
  | upgradeWrite weak => exact upgradeWriteLock_fine h hguard hfew weak
  | upgradeAppend weak => exact upgradeAppendLock_fine h hguard hfew weak
  | downgrade => exact downgrade_fine hguard hfew
  | markObsolete => exact markObsolete_fine hguard
  | drop => exact dropGuard_fine hguard hfew

end Ops

/-! ## Runs -/

section Protocol
variable {flavor : Flavor} {c c' : State}

/-- Guards of a free cell do not write or pin. -/
theorem not_holds_of_free {cell : OptCell} {guard : SmartGuard} (hfree : Free cell)
    (hfew : cell.sections.begun < 2 ^ 60) (h : GuardOk flavor cell guard) :
    holds guard = false := by
  have hpinned : ∀ latch, ¬PinOk cell latch := by
    intro latch hpin
    obtain ⟨hopen, hlatch, hcell⟩ := hpin
    have hand := word_and (n := cell.sections.ended) (by have := hfree.1; omega)
      (show pinFlag.toNat % 2 ^ 61 = 0 by decide)
    rw [← hfree.2, hcell, hlatch, flagged_and _ (by omega) (by decide)] at hand
    exact absurd hand (by decide)
  cases guard with
  | writer latch =>
    have := h.1
    have := hfree.1
    omega
  | readerPin latch => exact absurd h.1 (hpinned latch)
  | appendPin latch => exact absurd h (hpinned latch)
  | _ => rfl

/-- What a guard that neither writes nor pins has noted stays true. -/
theorem GuardOk.later {cell cell' : OptCell} {guard : SmartGuard} (h : GuardOk flavor cell guard)
    (hholds : holds guard = false) (hended : cell.sections.ended ≤ cell'.sections.ended) :
    GuardOk flavor cell' guard := by
  cases guard with
  | absent => trivial
  | invalid => trivial
  | reader latch since => exact ⟨h.1, h.2.trans hended⟩
  | writer latch => cases hholds
  | readerPin latch => cases hholds
  | appendPin latch => cases hholds

theorem LatchOk.step (h : LatchOk flavor c) {i : ℕ} {cell : OptCell} {guard : SmartGuard}
    (hs : Step flavor i c.shared (c.pc i) cell guard) (hfew : c.shared.sections.begun < 2 ^ 60) :
    LatchOk flavor (c.move i cell guard) := by
  cases step_fine h.cell (h.guards i) hfew hs with
  | quiet hcell hguard hholds =>
    subst hcell
    have hold : ∀ j, holds ((c.move i c.shared guard).pc j) = true → holds (c.pc j) = true :=
      c.forall_move i c.shared guard (A := fun j g => holds g = true → holds (c.pc j) = true)
        hholds (fun j _ hj => hj)
    refine ⟨h.cell, ?_, fun a b ha hb => h.unique a b (hold a ha) (hold b hb)⟩
    exact c.forall_move i c.shared guard (A := fun _ g => GuardOk flavor c.shared g) hguard
      (fun j _ => h.guards j)
  | alone hmine hcell hguard hended _ =>
    have hothers : ∀ j, j ≠ i → holds (c.pc j) = false := by
      intro j hj
      rcases hmine with hmine | hfree
      · by_contra hholds
        exact hj (h.unique j i (by simpa using hholds) hmine)
      · exact not_holds_of_free hfree hfew (h.guards j)
    have honly : ∀ j, holds ((c.move i cell guard).pc j) = true → j = i := by
      apply c.forall_move i cell guard (A := fun j g => holds g = true → j = i) (fun _ => rfl)
      intro j hj hholds
      rw [hothers j hj] at hholds
      cases hholds
    refine ⟨hcell, ?_, fun a b ha hb => (honly a ha).trans (honly b hb).symm⟩
    exact c.forall_move i cell guard (A := fun _ g => GuardOk flavor cell g) hguard
      (fun j hj => (h.guards j).later (hothers j hj) hended)

theorem latchOk_start : LatchOk flavor start := by
  refine ⟨.free rfl rfl, fun _ => trivial, ?_⟩
  intro i j hi
  cases hi

/-- No step takes a write section back. -/
theorem begun_le {i : ℕ} {cell cell' : OptCell} {guard guard' : SmartGuard}
    (hs : Step flavor i cell guard cell' guard') :
    cell.sections.begun ≤ cell'.sections.begun := by
  have hwrite : ∀ weak guard, cell.sections.begun ≤
      (upgradeWriteLock flavor weak cell guard).2.1.sections.begun := by
    intro weak guard
    cases guard with
    | reader latch since =>
      simp only [upgradeWriteLock]
      split
      · exact Nat.le_succ _
      · exact le_rfl
    | readerPin latch =>
      simp only [upgradeWriteLock]
      split_ifs
      · exact Nat.le_succ _
      · exact le_rfl
    | _ => exact le_rfl
  cases hs with
  | borrowRead => exact le_rfl
  | borrowPin weak =>
    unfold borrowPin
    split
    · exact le_rfl
    · split <;> exact le_rfl
  | borrowMut weak =>
    unfold borrowMut
    split_ifs
    · exact le_rfl
    · split
      · exact Nat.le_succ _
      · exact le_rfl
  | upgradeWrite weak => exact hwrite weak guard
  | upgradeAppend weak =>
    cases guard with
    | reader latch since =>
      simp only [upgradeAppendLock]
      split <;> exact le_rfl
    | readerPin latch => exact le_rfl
    | _ => exact hwrite weak _
  | downgrade =>
    cases guard with
    | writer latch =>
      simp only [downgrade]
      split_ifs <;> exact le_rfl
    | readerPin latch =>
      simp only [downgrade]
      split_ifs <;> exact le_rfl
    | appendPin latch =>
      simp only [downgrade]
      split_ifs <;> exact le_rfl
    | _ => exact le_rfl
  | markObsolete => cases guard <;> exact le_rfl
  | drop =>
    cases guard with
    | writer latch =>
      simp only [dropGuard]
      split_ifs <;> exact le_rfl
    | readerPin latch =>
      simp only [dropGuard]
      split_ifs <;> exact le_rfl
    | _ => exact le_rfl

theorem runs_latchOk (h : Runs flavor start c) (hfew : c.shared.sections.begun < 2 ^ 60) :
    LatchOk flavor c := by
  have hinv : c.shared.sections.begun < 2 ^ 60 → LatchOk flavor c := by
    refine h.preserves (J := fun c => c.shared.sections.begun < 2 ^ 60 → LatchOk flavor c) ?_
      (fun _ => latchOk_start)
    intro c i cell guard _ hs hinv hlt
    have hlt' := (begun_le hs).trans_lt hlt
    exact (hinv hlt').step hs hlt'
  exact hinv hfew

/-! ## The protocol -/

/-- The mark is no word of a free, pinned or held cell. -/
theorem obsolete_ne {flag : LatchVersion} {n : ℕ} (hn : n < 2 ^ 61)
    (hflag : flag &&& obsoleteFlag = 0#64) : obsoleteFlag ≠ flag ||| word n := by
  intro h
  have hand := flagged_and flag hn (show obsoleteFlag.toNat % 2 ^ 61 = 0 by decide)
  rw [← h, hflag] at hand
  exact absurd hand (by decide)

theorem obsolete_not_free {cell : OptCell} (hfew : cell.sections.begun < 2 ^ 60)
    (hmark : cell.cellVersion = obsoleteFlag) : ¬Free cell := by
  intro h
  have hzero : (0#64 : LatchVersion) ||| word cell.sections.ended = word cell.sections.ended :=
    BitVec.zero_or
  have hopen := h.1
  have hne : obsoleteFlag ≠ 0#64 ||| word cell.sections.ended := obsolete_ne (by omega) (by decide)
  apply hne
  rw [hzero, ← h.2, hmark]

/-- A light-weight hybrid cell that is marked stays as it is. -/
theorem obsolete_step (h : LatchOk .lightWeightHybrid c) (hfew : c.shared.sections.begun < 2 ^ 60)
    (hmark : c.shared.cellVersion = obsoleteFlag) {i : ℕ} {cell : OptCell} {guard : SmartGuard}
    (hs : Step .lightWeightHybrid i c.shared (c.pc i) cell guard) : cell = c.shared := by
  have hguard := h.guards i
  have hle := h.cell.ended_le_begun
  have hstored : stored c.shared obsoleteFlag = c.shared := by
    rw [← hmark]
    rfl
  have hunpinned : ∀ latch, ¬PinOk c.shared latch := by
    intro latch hpin
    rw [PinOk, hmark] at hpin
    exact obsolete_ne (by omega) (by decide) (hpin.2.2.trans hpin.2.1)
  cases step_fine h.cell hguard hfew hs with
  | quiet hcell _ _ => exact hcell
  | alone hmine _ _ _ _ =>
    rcases hmine with hholds | hfree
    · generalize c.pc i = g at hs hguard hholds
      cases g with
      | writer latch =>
        -- the mark has zeroed the writer's latch
        have hzero : latch = 0#64 := by
          rcases hguard.2.word_or with hlatch | ⟨hlatch, -, -⟩
          · cases hguard.2 with
            | held _ hcell =>
              rw [hmark, hlatch] at hcell
              exact absurd hcell (obsolete_ne (by omega) (by decide))
            | marked _ _ hflavor => cases hflavor
            | zeroed hlatch _ _ => exact hlatch
          · exact hlatch
        subst hzero
        cases hs with
        | upgradeWrite weak => rfl
        | upgradeAppend weak => rfl
        | downgrade => rfl
        | markObsolete => exact hstored
        | drop => rfl
      | readerPin latch => exact absurd hguard.1 (hunpinned latch)
      | appendPin latch => exact absurd hguard (hunpinned latch)
      | _ => cases hholds
    · exact absurd hfree (obsolete_not_free hfew hmark)

theorem obsolete_stays (h : LatchOk .lightWeightHybrid c) (hfew : c.shared.sections.begun < 2 ^ 60)
    (hmark : c.shared.cellVersion = obsoleteFlag) (hrun : Runs .lightWeightHybrid c c') :
    c'.shared = c.shared := by
  refine (hrun.preserves
    (J := fun x => LatchOk .lightWeightHybrid x ∧ x.shared = c.shared) ?_ ⟨h, rfl⟩).2
  intro x i cell guard _ hs hx
  obtain ⟨hok, hsame⟩ := hx
  have hcell := obsolete_step hok (by rw [hsame]; exact hfew) (by rw [hsame]; exact hmark) hs
  exact ⟨hok.step hs (by rw [hsame]; exact hfew), hcell.trans hsame⟩

/-- A reader is valid exactly while no write section has begun since it noted its latch. -/
theorem valid_iff {cell : OptCell} (h : CellOk cell) (hfew : cell.sections.begun < 2 ^ 60)
    {latch : LatchVersion} {since : ℕ} (hreader : GuardOk flavor cell (.reader latch since)) :
    isReadValid cell latch = true ↔ cell.sections = ⟨since, since⟩ := by
  have hle := h.ended_le_begun
  obtain ⟨rfl, hsince⟩ := hreader
  unfold isReadValid
  rw [Bool.and_eq_true, beq_iff_eq, beq_iff_eq]
  constructor
  · intro hvalid
    obtain ⟨hopen, hword⟩ := open_of_unflagged h hfew hvalid.2
    rw [hword, word_inj (by omega) (by omega)] at hvalid
    rw [hvalid.1, ← hopen]
    exact congrArg₂ Sections.mk rfl hopen.symm
  · intro hsame
    have hended : cell.sections.ended = since := by rw [hsame]
    have hbegun : cell.sections.begun = cell.sections.ended := by rw [hsame]
    have hflags : cell.cellVersion &&& writeObsoleteFlag = 0#64 := by
      cases h with
      | free _ hword => rw [hword, word_and (by omega) (by decide)]
      | pinned _ hword =>
        rw [hword, flagged_and _ (by omega) (by decide)]
        decide
      | held hopen _ => omega
      | obsolete hopen _ => omega
    exact ⟨by rw [(open_of_unflagged h hfew hflags).2, hended], hflags⟩

/-- In every run with fewer than `2 ^ 60` write sections: at most one guard writes or pins the
cell; a reader is valid exactly while no write section is open and none has begun since it noted
its latch, and it becomes a writer only then and only while nobody pins the cell; a light-weight
hybrid cell that is marked never changes again; and an optimistic cell forgets the mark with
its writer, who leaves the next version. -/
theorem baseline_latch_protocol (h : Runs flavor start c)
    (hfew : c.shared.sections.begun < 2 ^ 60) :
    (∀ i j, holds (c.pc i) = true → holds (c.pc j) = true → i = j) ∧
    (∀ i latch since, c.pc i = .reader latch since →
      (isReadValid c.shared latch = true ↔ c.shared.sections = ⟨since, since⟩) ∧
      ∀ weak, (upgradeWriteLock flavor weak c.shared (c.pc i)).1 = true →
        c.shared.sections = ⟨since, since⟩ ∧ ∀ j, holds (c.pc j) = false) ∧
    (flavor = .lightWeightHybrid → c.shared.cellVersion = obsoleteFlag →
      ∀ c', Runs flavor c c' → c'.shared = c.shared) ∧
    (flavor = .olc → ∀ i latch, c.pc i = .writer latch →
      (dropGuard flavor c.shared (c.pc i)).cellVersion = word (c.shared.sections.ended + 1)) := by
  have hok := runs_latchOk h hfew
  have hle := hok.cell.ended_le_begun
  refine ⟨hok.unique, ?_, ?_, ?_⟩
  · intro i latch since hpc
    have hguard := hok.guards i
    rw [hpc] at hguard ⊢
    refine ⟨valid_iff hok.cell hfew hguard, fun weak hup => ?_⟩
    cases hlock : writeLock c.shared latch weak with
    | none => simp [upgradeWriteLock, hlock] at hup
    | some w =>
      have heq := (writeLock_eq_some hlock).1
      obtain ⟨hfree, hsince⟩ := free_of_noted hok.cell hfew hguard.2 (heq.trans hguard.1)
      refine ⟨?_, fun j => not_holds_of_free hfree hfew (hok.guards j)⟩
      rw [hsince]
      exact congrArg₂ Sections.mk hfree.1 rfl
  · intro hflavor hmark c' hrun
    subst hflavor
    exact obsolete_stays hok hfew hmark hrun
  · intro hflavor i latch hpc
    have hguard := hok.guards i
    rw [hpc] at hguard ⊢
    obtain ⟨hopen, hwriter⟩ := hguard
    have hlatch : latch = writeFlag ||| word c.shared.sections.ended := by
      rcases hwriter.word_or with hlatch | ⟨-, -, hhybrid⟩
      · exact hlatch
      · rw [hflavor] at hhybrid
        cases hhybrid
    rw [hflavor]
    exact (left_ok hopen hlatch hfew).1

end Protocol

/-- A pinned cell is read, written, marked and left. -/
theorem baseline_latch_protocol_marked : ∃ c, Runs .lightWeightHybrid start c ∧
    c.shared.cellVersion = obsoleteFlag ∧ (∀ i, holds (c.pc i) = false) ∧
    ∀ c', Runs .lightWeightHybrid c c' → c'.shared = c.shared := by
  have r := (Run.refl start : Run (Step .lightWeightHybrid) Anytime start start).move 0
    (.borrowPin false)
  replace r := r.move 1 .borrowRead
  replace r := r.move 0 (.upgradeWrite false)
  replace r := r.move 0 .markObsolete
  replace r := r.move 0 .drop
  refine ⟨_, r, by decide, fun j => ?_,
    (baseline_latch_protocol r (by decide)).2.2.1 rfl (by decide)⟩
  by_cases hzero : j = 0
  · subst hzero
    rfl
  · by_cases hone : j = 1
    · subst hone
      rfl
    · simp [Config.move, hzero, hone, start, holds]

end CMVBT.BaselineLatch
