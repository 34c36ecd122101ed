import CMVBT.CommitClock
import Mathlib.Data.List.MinMax
import Mathlib.Data.Prod.Lex

/-!
# Live readers and the graveyard

The tracker of a tree with garbage collection: the multiset of registered
snapshots, the pins of readers that have not drawn their snapshot yet, and the
dead blocks ordered by the version at which they died. The concurrent ordered
sets and maps of the source are lists here, with `front` as the least element.
-/
namespace CMVBT.Tracker
open PageModel CommitClock

/-- A snapshot with the sequence number that makes equal snapshots distinct. -/
abbrev Ticket := ℕ × ℕ

section OrderedSet
variable {α : Type}

/-- First element of an ordered set, by snapshot and then by sequence number. -/
def front (ticket : α → Ticket) (l : List α) : Option α := l.argmin (fun a => toLex (ticket a))

theorem front_mem {k : α → Ticket} {l : List α} {a : α} (h : front k l = some a) :
    a ∈ l := List.argmin_mem (Option.mem_def.mpr h)

theorem front_le {k : α → Ticket} {l : List α} {a b : α} (h : front k l = some a)
    (hb : b ∈ l) : (k a).1 ≤ (k b).1 := by
  have hle := List.le_of_mem_argmin hb (Option.mem_def.mpr h)
  rcases Prod.Lex.toLex_le_toLex.mp hle with hlt | ⟨heq, -⟩
  · exact hlt.le
  · exact heq.le

theorem front_isSome {k : α → Ticket} {l : List α} {b : α} (hb : b ∈ l) :
    ∃ a, front k l = some a := by
  cases h : front k l with
  | some a => exact ⟨a, rfl⟩
  | none =>
    rw [front, List.argmin_eq_none] at h
    simp [h] at hb

end OrderedSet

/-- Registered readers, pins and the shared sequence counter. -/
structure TransactionTrace where
  queries : List Ticket
  pins : List Ticket
  sequence : ℕ
deriving Repr

namespace TransactionTrace

def new : TransactionTrace := ⟨[], [], 0⟩

def peekMin (t : TransactionTrace) : Option ℕ :=
  match (front id t.queries).map Prod.fst, (front id t.pins).map Prod.fst with
  | some r, some p => some (min r p)
  | r, p => r.or p

/-- Last element of the registrations, `MAX` as soon as a pin is outstanding. -/
def peekMax (t : TransactionTrace) : Option ℕ :=
  if t.pins ≠ [] then some versionMax
  else (t.queries.argmax (fun a => toLex a)).map Prod.fst

def pin (t : TransactionTrace) (lowerBound : ℕ) : TransactionTrace × Ticket :=
  ({ t with pins := (lowerBound, t.sequence) :: t.pins, sequence := t.sequence + 1 },
    (lowerBound, t.sequence))

def unpin (t : TransactionTrace) (ticket : Ticket) : TransactionTrace :=
  { t with pins := t.pins.erase ticket }

def onTxStart (t : TransactionTrace) (snapshot : ℕ) : TransactionTrace :=
  { t with queries := (snapshot, t.sequence) :: t.queries, sequence := t.sequence + 1 }

/-- Removes the oldest registration of `snapshot`, if there is one. -/
def onTxCompleted (t : TransactionTrace) (snapshot : ℕ) : TransactionTrace :=
  match front id (t.queries.filter (fun a => a.1 == snapshot)) with
  | some ticket => { t with queries := t.queries.erase ticket }
  | none => t

/-- The bound of the garbage collector is below every announced reader. -/
theorem peekMin_le {t : TransactionTrace} {ticket : Ticket}
    (h : ticket ∈ t.queries ∨ ticket ∈ t.pins) : ∃ m, t.peekMin = some m ∧ m ≤ ticket.1 := by
  rcases h with h | h
  · obtain ⟨a, ha⟩ := front_isSome (k := id) h
    have hle : a.1 ≤ ticket.1 := front_le ha h
    cases hp : front id t.pins with
    | none => exact ⟨a.1, by simp [peekMin, ha, hp], hle⟩
    | some b => exact ⟨min a.1 b.1, by simp [peekMin, ha, hp], (min_le_left _ _).trans hle⟩
  · obtain ⟨b, hb⟩ := front_isSome (k := id) h
    have hle : b.1 ≤ ticket.1 := front_le hb h
    cases hq : front id t.queries with
    | none => exact ⟨b.1, by simp [peekMin, hb, hq], hle⟩
    | some a => exact ⟨min a.1 b.1, by simp [peekMin, hb, hq], (min_le_right _ _).trans hle⟩

theorem peekMin_mem {t : TransactionTrace} {m : ℕ} (h : t.peekMin = some m) :
    ∃ ticket, (ticket ∈ t.queries ∨ ticket ∈ t.pins) ∧ ticket.1 = m := by
  unfold peekMin at h
  cases hq : front id t.queries with
  | none =>
    cases hp : front id t.pins with
    | none => simp [hq, hp] at h
    | some b => exact ⟨b, .inr (front_mem hp), by simpa [hq, hp] using h⟩
  | some a =>
    cases hp : front id t.pins with
    | none => exact ⟨a, .inl (front_mem hq), by simpa [hq, hp] using h⟩
    | some b =>
      simp only [hq, hp, Option.map_some, Option.some.injEq] at h
      rcases min_choice a.1 b.1 with hm | hm
      · exact ⟨a, .inl (front_mem hq), hm.symm.trans h⟩
      · exact ⟨b, .inr (front_mem hp), hm.symm.trans h⟩

theorem peekMax_pinned {t : TransactionTrace} (h : t.pins ≠ []) : t.peekMax = some versionMax := by
  rw [peekMax, if_pos h]

theorem peekMax_mem {t : TransactionTrace} (hp : t.pins = []) {m : ℕ} (h : t.peekMax = some m) :
    ∃ ticket ∈ t.queries, ticket.1 = m := by
  rw [peekMax, if_neg (by simpa using hp)] at h
  obtain ⟨ticket, hticket, rfl⟩ := Option.map_eq_some_iff.mp h
  exact ⟨ticket, List.argmax_mem (Option.mem_def.mpr hticket), rfl⟩

/-- Without pins the guard of in-place updates is above every registration. -/
theorem le_peekMax {t : TransactionTrace} (hp : t.pins = []) {ticket : Ticket}
    (h : ticket ∈ t.queries) : ∃ m, t.peekMax = some m ∧ ticket.1 ≤ m := by
  rw [peekMax, if_neg (by simpa using hp)]
  cases hq : t.queries.argmax (fun a => toLex a) with
  | none =>
    rw [List.argmax_eq_none] at hq
    simp [hq] at h
  | some a =>
    refine ⟨a.1, rfl, ?_⟩
    have hle : toLex ticket ≤ toLex a := List.le_of_mem_argmax h (Option.mem_def.mpr hq)
    rcases Prod.Lex.toLex_le_toLex.mp hle with hlt | ⟨heq, -⟩
    · exact hlt.le
    · exact heq.le

end TransactionTrace

/-- A dead block under its key, the death version and a sequence number. -/
structure DeadBlock where
  deathVersion : ℕ
  sequence : ℕ
  block : ℕ
deriving DecidableEq, Repr

def DeadBlock.key (d : DeadBlock) : Ticket := (d.deathVersion, d.sequence)

structure BlockTrace where
  entries : List DeadBlock
  sequence : ℕ
deriving Repr

namespace BlockTrace

def new : BlockTrace := ⟨[], 0⟩

def registerDiedPage (t : BlockTrace) (deathVersion : ℕ) (page : ℕ) : BlockTrace :=
  ⟨⟨deathVersion, t.sequence, page⟩ :: t.entries, t.sequence + 1⟩

/-- Takes the oldest dead block out of the map iff it is reclaimable. -/
def popMinIf (t : BlockTrace) (isReclaimable : ℕ → Bool) : BlockTrace × Option ℕ :=
  match front DeadBlock.key t.entries with
  | none => (t, none)
  | some entry =>
    if isReclaimable entry.deathVersion then
      ({ t with entries := t.entries.erase entry }, some entry.block)
    else (t, none)

theorem popMinIf_some {t t' : BlockTrace} {reclaimable : ℕ → Bool} {b : ℕ}
    (h : t.popMinIf reclaimable = (t', some b)) :
    ∃ entry ∈ t.entries, entry.block = b ∧ reclaimable entry.deathVersion = true ∧
      t' = { t with entries := t.entries.erase entry } := by
  unfold popMinIf at h
  split at h
  · simp at h
  · next entry hentry =>
    split at h
    · next hr =>
      simp only [Prod.mk.injEq, Option.some.injEq] at h
      exact ⟨entry, front_mem hentry, h.2, hr, h.1.symm⟩
    · simp at h

theorem popMinIf_none {t t' : BlockTrace} {reclaimable : ℕ → Bool}
    (h : t.popMinIf reclaimable = (t', none)) : t' = t := by
  unfold popMinIf at h
  split at h
  · simpa using h.symm
  · split at h
    · simp at h
    · simpa using h.symm

end BlockTrace

structure TrackerHandle where
  liveTx : TransactionTrace
  deadBlocks : BlockTrace
deriving Repr

namespace TrackerHandle

def new : TrackerHandle := ⟨.new, .new⟩

def onTxStart (t : TrackerHandle) (snapshot : ℕ) : TrackerHandle :=
  { t with liveTx := t.liveTx.onTxStart snapshot }

def onTxCompleted (t : TrackerHandle) (snapshot : ℕ) : TrackerHandle :=
  { t with liveTx := t.liveTx.onTxCompleted snapshot }

/-- Announces a reader before it draws its snapshot. -/
def pinReader (t : TrackerHandle) (lowerBound : ℕ) : TrackerHandle × Ticket :=
  ({ t with liveTx := (t.liveTx.pin lowerBound).1 }, (t.liveTx.pin lowerBound).2)

def unpinReader (t : TrackerHandle) (ticket : Ticket) : TrackerHandle :=
  { t with liveTx := t.liveTx.unpin ticket }

def newestLiveSi (t : TrackerHandle) : Option ℕ := t.liveTx.peekMax

def registerDiedPage (t : TrackerHandle) (version : ℕ) (page : ℕ) : TrackerHandle :=
  { t with deadBlocks := t.deadBlocks.registerDiedPage version page }

/-- `committed` is the committed snapshot, read before the live readers. -/
def freeBound (t : TrackerHandle) (committed : ℕ) : ℕ :=
  (t.liveTx.peekMin.map (fun liveMin => min liveMin committed)).getD committed

def freeBlock (t : TrackerHandle) (c : CommitState) : TrackerHandle × CommitState × Option ℕ :=
  let (c, committed) := c.committedSnapshot versionMax
  let (dead, block) := t.deadBlocks.popMinIf (fun death => decide (death < t.freeBound committed))
  ({ t with deadBlocks := dead }, c, block)

/-- A registered or pinned reader bounds what may be handed out. -/
theorem freeBound_le {t : TrackerHandle} {ticket : Ticket}
    (h : ticket ∈ t.liveTx.queries ∨ ticket ∈ t.liveTx.pins) (committed : ℕ) :
    t.freeBound committed ≤ ticket.1 := by
  obtain ⟨m, hm, hle⟩ := TransactionTrace.peekMin_le h
  simp only [freeBound, hm, Option.map_some, Option.getD_some]
  exact (min_le_left _ _).trans hle

theorem freeBound_le_committed (t : TrackerHandle) (committed : ℕ) :
    t.freeBound committed ≤ committed := by
  cases hm : t.liveTx.peekMin with
  | none => simp [freeBound, hm]
  | some m => simp [freeBound, hm]

end TrackerHandle

end CMVBT.Tracker
