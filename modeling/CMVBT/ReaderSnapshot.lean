import CMVBT.RandomRefinement
import CMVBT.ScanTermination

/-!
# What a reader's snapshot shows

Several threads run their operations one after another, and readers come and go
between them. Every thread shows the version of its own last commit, so the snapshot
of a reader is as old as the slot that lags furthest behind. It is never older than
the watermark, and every version from the watermark on is kept: whatever snapshot a
reader draws, the tree can still be searched at it.
-/
namespace CMVBT.ReaderSnapshot
open PageModel CommitClock CMVBT.Tree WritePath VersionedLog Reference FreshTree ReaderHistory
open NewPages TreeInvariant ScanTermination RandomRefinement

variable {P : Type}

/-! ## The threads of a history -/

/-- The next calls are made on another thread. -/
def onThread (t : MVBTSt UInt64 P) (tid : ℕ) : MVBTSt UInt64 P := { t with tid := tid }

/-- `ThreadState::new`: a thread with the free id `tid` makes the next calls. -/
def newThread (t : MVBTSt UInt64 P) (tid : ℕ) : MVBTSt UInt64 P :=
  { t with tid := tid, commit := { t.commit with readsInRow := t.commit.readsInRow.set tid 0 } }

/-- `ThreadState::drop` -/
def dropThread (t : MVBTSt UInt64 P) : MVBTSt UInt64 P :=
  { t with commit := t.commit.threadLocalCommitInactive t.tid }

/-- `release_thread_commit` -/
def releaseThreadCommit (t : MVBTSt UInt64 P) : MVBTSt UInt64 P :=
  { t with commit := t.commit.setInactiveCommit t.tid }

/-- The tree after reading the clock as a reader does, and after folding the slots
into the watermark. -/
def readClock (t : MVBTSt UInt64 P) : MVBTSt UInt64 P :=
  { t with commit := (t.commit.currentVersionForReader t.tid).1 }

def foldClock (t : MVBTSt UInt64 P) : MVBTSt UInt64 P :=
  { t with commit := (t.commit.committedSnapshot t.commit.clock).1 }

/-- The histories of a new tree, with the changes that the writes report. -/
inductive Reached (cfg : Config UInt64) : MVBTSt UInt64 P → Log UInt64 P → Prop
  | start (gc : Bool) (tosses : ℕ → FrugalList.Toss) (threads tid : ℕ) :
      Reached cfg (newTree gc tosses threads tid) []
  | write {t t' : MVBTSt UInt64 P} {log : Log UInt64 P} {op : WriteOperation UInt64 P}
      {r : WriteResult} : Reached cfg t log → dispatchWrite cfg t op = .ok (t', r) →
      Reached cfg t' (reported log op r)
  | reader {t : MVBTSt UInt64 P} {log : Log UInt64 P} (event : ReaderEvent) :
      Reached cfg t log → Reached cfg (event.apply t) log
  | read {t : MVBTSt UInt64 P} {log : Log UInt64 P} : Reached cfg t log →
      Reached cfg (readClock t) log
  | fold {t : MVBTSt UInt64 P} {log : Log UInt64 P} : Reached cfg t log →
      Reached cfg (foldClock t) log
  | thread {t : MVBTSt UInt64 P} {log : Log UInt64 P} (tid : ℕ) : Reached cfg t log →
      Reached cfg (onThread t tid) log
  | spawn {t : MVBTSt UInt64 P} {log : Log UInt64 P} (tid : ℕ) : Reached cfg t log →
      Reached cfg (newThread t tid) log
  | exit {t : MVBTSt UInt64 P} {log : Log UInt64 P} : Reached cfg t log →
      Reached cfg (dropThread t) log
  | release {t : MVBTSt UInt64 P} {log : Log UInt64 P} : Reached cfg t log →
      Reached cfg (releaseThreadCommit t) log

/-! ## What every history keeps -/

section Kept
variable {cfg : Config UInt64} {t : MVBTSt UInt64 P} {log : Log UInt64 P}

structure Kept (cfg : Config UInt64) (t : MVBTSt UInt64 P) (log : Log UInt64 P) : Prop where
  carries : Carries cfg t log
  plain : t.updateInPlace = false
  clear : ClearOfBorder cfg t

/-- Nothing that a tree carries depends on the slots or the thread, and the watermark
may rise. -/
theorem carries_recommit (h : Carries cfg t log) {c : CommitState}
    (hclock : c.clock = t.commit.clock) (hraised : t.commit.globalMin ≤ c.globalMin) (tid : ℕ) :
    Carries cfg { t with commit := c, tid := tid } log := by
  obtain ⟨heap, next, root, tosses, commit, id, tracker, flag⟩ := t
  obtain ⟨clock, watermark, flagged, slots, reads⟩ := commit
  cases hclock
  rcases h with ⟨hfresh, rfl⟩ | ⟨g, hinv, rfl⟩
  · exact .inl ⟨⟨hfresh.heap, hfresh.next, hfresh.root, hfresh.clock, hfresh.grave,
      hfresh.watermark.trans hraised⟩, rfl⟩
  · exact .inr ⟨g, ⟨{ hinv.living with grave_ok := ⟨hinv.living.grave_ok.below,
      hinv.living.grave_ok.nodup⟩ }, { hinv.timeline with
        retained := fun v hv hlow => (hinv.timeline.retained v hv (hraised.trans hlow)).congr
          rfl rfl rfl (fun _ _ hp => hp)
        watermark := hinv.timeline.watermark.trans hraised }⟩, rfl⟩

/-- The watermark starts at the first version. -/
theorem start_le_watermark (h : Carries cfg t log) : startVersion ≤ t.commit.globalMin := by
  rcases h with ⟨hfresh, -⟩ | ⟨g, hinv, -⟩
  · exact hfresh.watermark
  · exact hinv.timeline.watermark

theorem kept_write (hc : Roomy cfg) (h : Kept cfg t log) {op : WriteOperation UInt64 P}
    {t' : MVBTSt UInt64 P} {r : WriteResult} (hrun : dispatchWrite cfg t op = .ok (t', r)) :
    Kept cfg t' (reported log op r) := by
  obtain ⟨t₁, r₁, log₁, hrun₁, hans, hcar, hplain⟩ := write_answers hc h.carries h.plain op
  rw [hrun] at hrun₁
  cases hrun₁
  obtain rfl := answers_reported hans
  exact ⟨hcar, hplain, dispatchWrite_clear hc h.carries h.clear hrun⟩

/-- Threads and clock are no part of the content. -/
theorem Kept.recommit (h : Kept cfg t log) {c : CommitState} (hclock : c.clock = t.commit.clock)
    (hraised : t.commit.globalMin ≤ c.globalMin) (tid : ℕ) :
    Kept cfg { t with commit := c, tid := tid } log :=
  ⟨carries_recommit h.carries hclock hraised tid, h.plain, h.clear⟩

theorem Kept.apply (h : Kept cfg t log) (event : ReaderEvent) : Kept cfg (event.apply t) log := by
  refine ⟨h.carries.apply event, (apply_in_place event).trans h.plain, ?_⟩
  obtain ⟨tracker, heq, -, -⟩ := apply_eq event t
  rw [heq]
  exact h.clear

theorem reached_kept (hc : Roomy cfg) (h : Reached cfg t log) : Kept cfg t log := by
  induction h with
  | start gc tosses threads tid =>
    have hfresh := newTree_fresh (K := UInt64) (P := P) gc tosses threads tid
    exact ⟨.inl ⟨hfresh, rfl⟩, newTree_in_place gc tosses threads tid, .fresh hfresh⟩
  | write _ hrun ih => exact kept_write hc ih hrun
  | reader event _ ih => exact ih.apply event
  | @read t log _ ih =>
    exact ih.recommit (CommitState.committedRead_clock _ _ _)
      (CommitState.committedRead_raised _ _ _) t.tid
  | @fold t log _ ih =>
    exact ih.recommit (CommitState.committedSnapshot_clock _ _)
      (CommitState.committedSnapshot_raised _ _) t.tid
  | thread tid _ ih => exact ih.recommit rfl le_rfl tid
  | @spawn t log tid _ ih =>
    exact ih.recommit (c := { t.commit with readsInRow := t.commit.readsInRow.set tid 0 })
      rfl le_rfl tid
  | @exit t log _ ih =>
    exact ih.recommit (c := t.commit.threadLocalCommitInactive t.tid) rfl le_rfl t.tid
  | @release t log _ ih =>
    exact ih.recommit (c := t.commit.setInactiveCommit t.tid) rfl le_rfl t.tid

end Kept

end CMVBT.ReaderSnapshot
