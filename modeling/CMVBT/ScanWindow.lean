import CMVBT.ReaderSnapshot
import CMVBT.TransactionDispatch

/-!
# Scans of a number of keys

A scan of the C interface asks for a start key and a size and turns them into the
last key with wrapping arithmetic; the adapter of the benchmark does the same with
saturating arithmetic. Both pin a reader snapshot first and hand the range to the
lazy dispatch. Near the end of the key space the two windows differ: the wrapped
one is inverted, and an inverted range is empty.
-/
namespace CMVBT.ScanWindow
open KeyInterval VersionedLog PageModel FrugalList CommitClock Tracker CMVBT.Tree WritePath ReadPath
open NewPages TreeInvariant Reference FreshTree SnapshotRead ReaderHistory ReaderBalance RangeScan
open ScanRounds ScanTermination RandomOperations Coupling ClockFrame ReaderSnapshot
open TransactionDispatch RandomRefinement

/-! ## The two entry points -/

section Scans
variable {P : Type} [Inhabited P] (cfg : Config UInt64) (fuel calls : ℕ)

/-- `pinned_reader_snapshot`: with a collector the reader is announced before it draws. -/
def pinnedReaderSnapshot (t : MVBTSt UInt64 P) : MVBTSt UInt64 P × ℕ × Option Ticket :=
  let (t, pin) :=
    match t.tracker with
    | none => (t, none)
    | some tracker =>
      let (commit, lowerBound) := t.commit.committedSnapshot t.commit.clock
      let (tracker, ticket) := tracker.pinReader lowerBound
      ({ t with tracker := some tracker, commit := commit }, some ticket)
  let (commit, snapshot) := t.commit.currentVersionForReader t.tid
  ({ t with commit := commit }, snapshot, pin)

/-- The end of the pin's scope. -/
def dropPin (t : MVBTSt UInt64 P) : Option Ticket → MVBTSt UInt64 P
  | none => t
  | some ticket => unpinReader t ticket

/-- `MVBTreeWithGCApiExport::scan`; `none` is the answer `-1`. -/
def scan (t : MVBTSt UInt64 P) (keyStart : UInt64) (scanSz : ℕ) :
    Except Fault (MVBTSt UInt64 P × Option (List (RecordPointResult UInt64 P))) := do
  let (t, queryingV, pin) := pinnedReaderSnapshot t
  let keyEnd := keyStart + UInt64.ofNat scanSz - 1
  match ← dispatchAtomicTransaction cfg fuel calls (fun _ => 0) t
      ⟨some queryingV, .range ⟨keyStart, keyEnd⟩ queryingV⟩ with
  | (t, .ok (_, .matchedRecords buff)) => return (dropPin t pin, some buff)
  | (t, _) => return (dropPin t pin, none)

def saturatingAdd (a b : UInt64) : UInt64 :=
  if a.toNat + b.toNat < 2 ^ 64 then a + b else u64Space.maxKey

/-- The records that the adapter's `scan` goes through. -/
def scanRecords (t : MVBTSt UInt64 P) (start len : UInt64) :
    Except Fault (MVBTSt UInt64 P × List (RecordPointResult UInt64 P)) := do
  let last := saturatingAdd start (len - 1)
  let (t, snapshot, pin) := pinnedReaderSnapshot t
  let (t, found) ← dispatchRange cfg fuel calls t ⟨start, last⟩ snapshot
  return (dropPin t pin, found)

end Scans

/-! ## Ranges at a reader's snapshot -/

section Ranges
variable {P : Type} {cfg : Config UInt64} {t : MVBTSt UInt64 P} {log : Log UInt64 P} {s : ℕ}

/-- With enough fuel a range read returns `found`. -/
def Settles (cfg : Config UInt64) (t : MVBTSt UInt64 P) (range : Interval UInt64) (s : ℕ)
    (found : List (RecordPointResult UInt64 P)) : Prop :=
  ∃ bound, ∀ fuel calls, bound ≤ fuel → bound ≤ calls →
    (dispatchRange cfg fuel calls t range s).map Prod.snd = .ok found

/-- A range read that returns has settled. -/
theorem settles_of_drain {range : Interval UInt64} {u : MVBTSt UInt64 P}
    {it : RangeQueryIter UInt64 P} {found : List (RecordPointResult UInt64 P)}
    (hnew : RangeQueryIter.new cfg t s range = .ok (u, it)) (hscan : Scans cfg u it found)
    (hbuff : it.buff = []) (hopen : it.isCompleted = false) : Settles cfg t range s found := by
  obtain ⟨bound, u', it', hdrain⟩ := hscan.drain hbuff hopen
  refine ⟨bound, fun fuel calls hf hc => ?_⟩
  simp only [dispatchRange, hnew, bind, Except.bind, hdrain fuel calls hf hc, pure, Except.pure,
    Except.map]

/-- A new tree has nothing to show. -/
theorem settles_fresh (h : Fresh t) (hs : startVersion ≤ s) (lo hi : UInt64) :
    Settles cfg t ⟨lo, hi⟩ s [] ∧ RootIsLeaf t s := by
  have hfor : t.rootFor s = .ok (0, 1) := by
    simp only [MVBTSt.rootFor, h.root, FrugalList.new, findFrom, lt_irrefl, false_and, if_false, hs,
      if_true, bind, Except.bind, pure, Except.pure]
    rfl
  obtain ⟨u, hnew, hu⟩ := new_of_root cfg lo hi hfor
  refine ⟨settles_of_drain hnew ?_ rfl rfl, (0, 1), Page.new, hfor, h.heap⟩
  by_cases hpast : hi < lo
  · exact scans_past hpast _
  · refine scans_leaf_end (not_lt.mp hpast) (p := Page.new) ?_ ?_ cfg.keys.inc_max
    · rw [hu, h.heap]
      rfl
    · simp [leafFound, Page.asUnits, Page.new]

/-- What the range at a snapshot is, unless the scan goes round at the border. The tree
keeps every version from the watermark on. -/
theorem settles_exact (hcar : Carries cfg t log) (hlow : t.commit.globalMin ≤ s) (lo hi : UInt64)
    (hoff : OffBorder cfg.keys log s hi ∨ (RootIsLeaf t s ∧ hi = cfg.keys.maxKey)) :
    ∃ found, Settles cfg t ⟨lo, hi⟩ s found ∧ Exact log s hi lo found := by
  have hs : startVersion ≤ s := (start_le_watermark hcar).trans hlow
  rcases hcar with ⟨hfresh, rfl⟩ | ⟨g, hinv, rfl⟩
  · refine ⟨[], (settles_fresh hfresh hs lo hi).1, by simp, fun k payload => ?_⟩
    simp [liveAt]
  · have hr := hinv.timeline.retained s hs hlow
    rcases hoff with hoff | ⟨hleaf, rfl⟩
    · obtain ⟨bound, t', found, hrange, hexact⟩ := dispatchRange_exact hinv hr lo hi hoff
      refine ⟨found, ⟨bound, fun fuel calls hf hc => ?_⟩, hexact⟩
      rw [hrange fuel calls hf hc]
      rfl
    · obtain ⟨root, hfor, hroot⟩ := readable_root hinv hr
      obtain ⟨u, hnew, hu⟩ := new_of_root cfg lo cfg.keys.maxKey hfor
      obtain ⟨found, hscan, hexact⟩ := scan_of_bounded hinv hr hu hfor hroot (.inr hleaf) lo
      exact ⟨found, settles_of_drain hnew hscan rfl rfl, hexact⟩

/-- Otherwise it does not return. -/
theorem not_settles (hcar : Carries cfg t log) (hclear : ClearOfBorder cfg t)
    (hlow : t.commit.globalMin ≤ s) {lo : UInt64} {found : List (RecordPointResult UInt64 P)}
    (h : Settles cfg t ⟨lo, cfg.keys.maxKey⟩ s found) :
    liveAt log cfg.keys.maxKey s = none ∨ RootIsLeaf t s := by
  have hs : startVersion ≤ s := (start_le_watermark hcar).trans hlow
  rcases hcar with ⟨hfresh, rfl⟩ | ⟨g, hinv, rfl⟩
  · exact .inr (@settles_fresh P cfg t s hfresh hs lo lo).2
  · refine (reachesNone_iff hinv (hinv.timeline.retained s hs hlow) hclear lo).mp ?_
    obtain ⟨bound, hrun⟩ := h
    have hrun := hrun bound bound le_rfl le_rfl
    cases hnew : RangeQueryIter.new cfg t s ⟨lo, cfg.keys.maxKey⟩ with
    | error e =>
      simp only [dispatchRange, hnew, bind, Except.bind, Except.map] at hrun
      cases hrun
    | ok x =>
      obtain ⟨u, it⟩ := x
      simp only [dispatchRange, hnew, bind, Except.bind] at hrun
      cases hdrain : it.drain cfg bound bound u with
      | error e =>
        rw [hdrain] at hrun
        cases hrun
      | ok y => exact ⟨u, it, bound, bound, y.1, y.2.1, y.2.2, hnew, hdrain⟩

end Ranges

/-! ## The snapshot that both draw -/

section Pinned
variable {P : Type} {cfg : Config UInt64} {t : MVBTSt UInt64 P} {log : Log UInt64 P}

/-- The snapshot that the two scans read at. -/
def snapshotOf (t : MVBTSt UInt64 P) : ℕ := (pinnedReaderSnapshot t).2.1

/-- A reader's snapshot is the watermark that its look at the clock leaves behind. -/
theorem readClock_watermark (t : MVBTSt UInt64 P) : (readClock t).commit.globalMin =
    (t.commit.currentVersionForReader t.tid).2 :=
  CommitState.committedSnapshot_stored _ _

/-- Pinning is a history of its own, and the watermark behind it is the snapshot. -/
theorem pinned_reached (h : Reached cfg t log) : Reached cfg (pinnedReaderSnapshot t).1 log ∧
    (pinnedReaderSnapshot t).1.commit.globalMin = snapshotOf t ∧
    (pinnedReaderSnapshot t).1.heap = t.heap ∧ (pinnedReaderSnapshot t).1.root = t.root := by
  obtain ⟨u, hu, hheap, hroot, hpinned, hsnapshot⟩ : ∃ u, Reached cfg u log ∧ u.heap = t.heap ∧
      u.root = t.root ∧ (pinnedReaderSnapshot t).1 = readClock u ∧
      snapshotOf t = (u.commit.currentVersionForReader u.tid).2 := by
    cases htr : t.tracker with
    | none =>
      refine ⟨t, h, rfl, rfl, ?_, ?_⟩
      · simp only [pinnedReaderSnapshot, htr, readClock]
      · simp only [snapshotOf, pinnedReaderSnapshot, htr]
    | some tracker =>
      refine ⟨_, .reader (.pin (t.commit.committedSnapshot t.commit.clock).2) (.fold h), ?_⟩
      have hpin : pinReader (foldClock t) (t.commit.committedSnapshot t.commit.clock).2 =
          { t with
            tracker := some (tracker.pinReader (t.commit.committedSnapshot t.commit.clock).2).1
            commit := (t.commit.committedSnapshot t.commit.clock).1 } := by
        simp only [pinReader, foldClock, htr, Option.map_some]
      rw [ReaderEvent.apply, hpin]
      refine ⟨rfl, rfl, ?_, ?_⟩
      · simp only [pinnedReaderSnapshot, htr, readClock]
      · simp only [snapshotOf, pinnedReaderSnapshot, htr]
  rw [hpinned, hsnapshot]
  exact ⟨.read hu, readClock_watermark u, hheap, hroot⟩

/-- What a pinned reader sees. -/
theorem pinned_kept (hc : Roomy cfg) (h : Reached cfg t log) :
    Kept cfg (pinnedReaderSnapshot t).1 log ∧
      (pinnedReaderSnapshot t).1.commit.globalMin ≤ snapshotOf t ∧
      (RootIsLeaf (pinnedReaderSnapshot t).1 (snapshotOf t) ↔ RootIsLeaf t (snapshotOf t)) := by
  obtain ⟨hreached, hmin, hheap, hroot⟩ := pinned_reached h
  refine ⟨reached_kept hc hreached, hmin.le, ?_⟩
  simp only [RootIsLeaf, MVBTSt.rootFor, hheap, hroot]

end Pinned

/-! ## The windows -/

theorem keyEnd_toNat (start : UInt64) {n : ℕ} (hn : 1 ≤ n) (hlt : n < 2 ^ 64) :
    (start + UInt64.ofNat n - 1).toNat = (start.toNat + n - 1) % 2 ^ 64 := by
  have hofNat : (UInt64.ofNat n).toNat = n := UInt64.toNat_ofNat_of_lt hlt
  have hstart := start.toNat_lt
  simp only [UInt64.toNat_sub, UInt64.toNat_add, hofNat, UInt64.reduceToNat]
  omega

theorem saturatingAdd_toNat (start : UInt64) {n : ℕ} (hn : 1 ≤ n) (hlt : n < 2 ^ 64) :
    (saturatingAdd start (UInt64.ofNat n - 1)).toNat = min (start.toNat + n - 1) (2 ^ 64 - 1) := by
  have hofNat : (UInt64.ofNat n).toNat = n := UInt64.toNat_ofNat_of_lt hlt
  have hpred : (UInt64.ofNat n - 1).toNat = n - 1 := by
    simp only [UInt64.toNat_sub, hofNat, UInt64.reduceToNat]
    omega
  have hmax : u64Space.maxKey.toNat = 2 ^ 64 - 1 := by decide
  unfold saturatingAdd
  rw [hpred]
  split_ifs with hsum
  · rw [UInt64.toNat_add, hpred]
    omega
  · rw [hmax]
    omega

section Window
variable {P : Type} [Inhabited P] (cfg : Config UInt64)

/-- The wrapped window as `scan` computes it. -/
def wrapped (start : UInt64) (n : ℕ) : Interval UInt64 := ⟨start, start + UInt64.ofNat n - 1⟩

def saturated (start : UInt64) (n : ℕ) : Interval UInt64 :=
  ⟨start, saturatingAdd start (UInt64.ofNat n - 1)⟩

omit [Inhabited P] in
theorem scanRecords_range (fuel calls : ℕ) (t : MVBTSt UInt64 P) (start : UInt64) (n : ℕ) :
    (scanRecords cfg fuel calls t start (UInt64.ofNat n)).map Prod.snd =
      (dispatchRange cfg fuel calls (pinnedReaderSnapshot t).1 (saturated start n)
        (snapshotOf t)).map Prod.snd := by
  simp only [scanRecords, saturated, snapshotOf, bind, Except.bind]
  cases dispatchRange cfg fuel calls (pinnedReaderSnapshot t).1
    ⟨start, saturatingAdd start (UInt64.ofNat n - 1)⟩ (pinnedReaderSnapshot t).2.1 <;> rfl

/-- The transaction around the range read looks at the clock once more, and that
does not show. -/
theorem scan_range (fuel calls : ℕ) (t : MVBTSt UInt64 P) (start : UInt64) (n : ℕ) :
    (scan cfg fuel calls t start n).map Prod.snd =
      ((dispatchRange cfg fuel calls (pinnedReaderSnapshot t).1 (wrapped start n)
        (snapshotOf t)).map Prod.snd).map some := by
  have hlook := ((look_same (pinnedReaderSnapshot t).1).dispatchRange cfg fuel calls
    (wrapped start n) (snapshotOf t)).map_snd
  rw [← hlook]
  simp only [scan, dispatchAtomicTransaction_eq, dispatchCrudIsolated, dispatchCrud, wrapped,
    snapshotOf, bind, Except.bind]
  cases dispatchRange cfg fuel calls (look (pinnedReaderSnapshot t).1)
    ⟨start, start + UInt64.ofNat n - 1⟩ (pinnedReaderSnapshot t).2.1 <;> rfl

end Window

section Ends
variable {start : UInt64} {n : ℕ}

theorem maxKey_toNat : u64Space.maxKey.toNat = 2 ^ 64 - 1 := by decide

theorem wrapped_inside (hn : 1 ≤ n) (h : start.toNat + n < 2 ^ 64) :
    saturated start n = wrapped start n ∧ (wrapped start n).upper.toNat = start.toNat + n - 1 := by
  have hwrap := keyEnd_toNat start hn (by omega)
  have hsat := saturatingAdd_toNat start hn (by omega)
  have hupper : (wrapped start n).upper.toNat = start.toNat + n - 1 := by
    rw [wrapped, hwrap, Nat.mod_eq_of_lt (by omega)]
  refine ⟨?_, hupper⟩
  have hsame : saturatingAdd start (UInt64.ofNat n - 1) = start + UInt64.ofNat n - 1 := by
    rw [← UInt64.toNat_inj, hsat, hwrap]
    omega
  rw [saturated, wrapped, hsame]

theorem saturated_border (hn : 1 ≤ n) (hlt : n < 2 ^ 64) (h : 2 ^ 64 ≤ start.toNat + n) :
    saturated start n = ⟨start, u64Space.maxKey⟩ := by
  have hsat := saturatingAdd_toNat start hn hlt
  have hmax : saturatingAdd start (UInt64.ofNat n - 1) = u64Space.maxKey := by
    rw [← UInt64.toNat_inj, hsat, maxKey_toNat]
    omega
  rw [saturated, hmax]

theorem wrapped_border (hn : 1 ≤ n) (hlt : n < 2 ^ 64) (h : start.toNat + n = 2 ^ 64) :
    wrapped start n = ⟨start, u64Space.maxKey⟩ := by
  have hwrap := keyEnd_toNat start hn hlt
  have hmax : start + UInt64.ofNat n - 1 = u64Space.maxKey := by
    rw [← UInt64.toNat_inj, hwrap, maxKey_toNat]
    omega
  rw [wrapped, hmax]

/-- Behind the border the window is inverted. -/
theorem wrapped_inverted (hn : 1 ≤ n) (hlt : n < 2 ^ 64) (h : 2 ^ 64 < start.toNat + n) :
    (wrapped start n).upper < start := by
  have hwrap := keyEnd_toNat start hn hlt
  have hstart := start.toNat_lt
  rw [UInt64.lt_iff_toNat_lt, wrapped, hwrap]
  omega

end Ends

/-! ## The window of a scan -/

section Agreement
variable {P : Type} [Inhabited P] {cfg : Config UInt64} {t : MVBTSt UInt64 P}
  {log : Log UInt64 P} {start : UInt64} {n : ℕ}

/-- Both scans return `found`, the records of the window at the snapshot, each once. -/
def ReturnsWindow (cfg : Config UInt64) (t : MVBTSt UInt64 P) (log : Log UInt64 P)
    (start : UInt64) (n : ℕ) : Prop :=
  ∃ found bound, (∀ fuel calls, bound ≤ fuel → bound ≤ calls →
      (scan cfg fuel calls t start n).map Prod.snd = .ok (some found) ∧
      (scanRecords cfg fuel calls t start (UInt64.ofNat n)).map Prod.snd = .ok found) ∧
    (found.map Prod.fst).Nodup ∧
    ∀ k payload, (k, payload) ∈ found ↔
      (start ≤ k ∧ k.toNat ≤ start.toNat + n - 1) ∧ liveAt log k (snapshotOf t) = some payload

/-- The last key of the window lies before the last key of all, or is that key and
the scan stops there, or wraps while there is nothing to find. -/
def WindowFits (t : MVBTSt UInt64 P) (log : Log UInt64 P) (start : UInt64) (n : ℕ) : Prop :=
  start.toNat + n < 2 ^ 64 ∨
  (start.toNat + n = 2 ^ 64 ∧
    (liveAt log u64Space.maxKey (snapshotOf t) = none ∨ RootIsLeaf t (snapshotOf t))) ∨
  (2 ^ 64 < start.toNat + n ∧ ∀ k, start ≤ k → liveAt log k (snapshotOf t) = none)

omit [Inhabited P] in
theorem Settles.unique {range : Interval UInt64} {s : ℕ}
    {found found' : List (RecordPointResult UInt64 P)} (h : Settles cfg t range s found)
    (h' : Settles cfg t range s found') : found = found' := by
  obtain ⟨bound, hrun⟩ := h
  obtain ⟨bound', hrun'⟩ := h'
  have heq := hrun (max bound bound') (max bound bound') (le_max_left _ _) (le_max_left _ _)
  rw [hrun' _ _ (le_max_right _ _) (le_max_right _ _)] at heq
  exact (Except.ok.inj heq).symm

theorem returnsWindow_iff : ReturnsWindow cfg t log start n ↔ ∃ found,
    Settles cfg (pinnedReaderSnapshot t).1 (wrapped start n) (snapshotOf t) found ∧
    Settles cfg (pinnedReaderSnapshot t).1 (saturated start n) (snapshotOf t) found ∧
    (found.map Prod.fst).Nodup ∧ ∀ k payload, (k, payload) ∈ found ↔
      (start ≤ k ∧ k.toNat ≤ start.toNat + n - 1) ∧
        liveAt log k (snapshotOf t) = some payload := by
  have hsome : ∀ (x : Except Fault (List (RecordPointResult UInt64 P))) found,
      x.map some = .ok (some found) ↔ x = .ok found := by
    intro x found
    cases x with
    | ok y => simp [Except.map]
    | error e => simp [Except.map]
  simp only [ReturnsWindow, scan_range, scanRecords_range, hsome]
  constructor
  · rintro ⟨found, bound, hrun, hexact⟩
    exact ⟨found, ⟨bound, fun fuel calls hf hc => (hrun fuel calls hf hc).1⟩,
      ⟨bound, fun fuel calls hf hc => (hrun fuel calls hf hc).2⟩, hexact⟩
  · rintro ⟨found, ⟨b, hb⟩, ⟨b', hb'⟩, hexact⟩
    refine ⟨found, max b b', fun fuel calls hf hc => ⟨?_, ?_⟩, hexact⟩
    · exact hb fuel calls ((le_max_left _ _).trans hf) ((le_max_left _ _).trans hc)
    · exact hb' fuel calls ((le_max_right _ _).trans hf) ((le_max_right _ _).trans hc)

omit [Inhabited P] in
/-- An inverted range is empty. -/
theorem settles_inverted {u : MVBTSt UInt64 P} {s : ℕ} (hcar : Carries cfg u log)
    (hlow : u.commit.globalMin ≤ s) {lo hi : UInt64} (hlt : hi < lo) :
    Settles cfg u ⟨lo, hi⟩ s [] := by
  obtain ⟨found, hset, hexact⟩ := settles_exact hcar hlow lo hi
    (.inl (.inr (hlt.trans_le (cfg.keys.le_max lo))))
  cases found with
  | nil => exact hset
  | cons r rest =>
    obtain ⟨hrange, -⟩ := (hexact.mem r.1 r.2).mp (List.mem_cons_self ..)
    exact absurd (hrange.1.trans hrange.2) (not_le.mpr hlt)

omit [Inhabited P] in
theorem window_le (k : UInt64) (h : 2 ^ 64 ≤ start.toNat + n) :
    k.toNat ≤ start.toNat + n - 1 := by
  have := k.toNat_lt
  omega

theorem windowFits_of_returns (hc : Roomy cfg) (hkeys : cfg.keys = u64Space)
    (h : Reached cfg t log) (hn : 1 ≤ n) (hlt : n < 2 ^ 64)
    (hreturns : ReturnsWindow cfg t log start n) : WindowFits t log start n := by
  obtain ⟨hkept, hlow, hleaf⟩ := pinned_kept hc h
  obtain ⟨found, hset, -, -, hmem⟩ := returnsWindow_iff.mp hreturns
  rcases lt_trichotomy (start.toNat + n) (2 ^ 64) with hin | heq | hover
  · exact .inl hin
  · rw [wrapped_border hn hlt heq, ← hkeys] at hset
    have hfits := not_settles hkept.carries hkept.clear hlow hset
    rw [hkeys, hleaf] at hfits
    exact .inr (.inl ⟨heq, hfits⟩)
  · have hempty := settles_inverted hkept.carries hlow (wrapped_inverted hn hlt hover)
    obtain rfl := Settles.unique hset hempty
    refine .inr (.inr ⟨hover, fun k hk => ?_⟩)
    cases hlive : liveAt log k (snapshotOf t) with
    | none => rfl
    | some payload =>
      have hfound := (hmem k payload).mpr ⟨⟨hk, window_le k hover.le⟩, hlive⟩
      cases hfound

theorem returns_of_windowFits (hc : Roomy cfg) (hkeys : cfg.keys = u64Space)
    (h : Reached cfg t log) (hn : 1 ≤ n) (hlt : n < 2 ^ 64)
    (hfits : WindowFits t log start n) : ReturnsWindow cfg t log start n := by
  obtain ⟨hkept, hlow, hleaf⟩ := pinned_kept hc h
  refine returnsWindow_iff.mpr ?_
  rcases hfits with hin | ⟨heq, hfits⟩ | ⟨hover, hnone⟩
  · obtain ⟨hsat, hupper⟩ := wrapped_inside hn hin
    have hoff : (wrapped start n).upper < cfg.keys.maxKey := by
      rw [hkeys, UInt64.lt_iff_toNat_lt, hupper, maxKey_toNat]
      omega
    obtain ⟨found, hset, hexact⟩ := settles_exact hkept.carries hlow start _
      (.inl (.inr hoff))
    refine ⟨found, hset, hsat ▸ hset, hexact.nodup, fun k payload => ?_⟩
    rw [hexact.mem, UInt64.le_iff_toNat_le (b := (wrapped start n).upper), hupper]
  · rw [← hleaf, ← hkeys] at hfits
    obtain ⟨found, hset, hexact⟩ := settles_exact hkept.carries hlow start
      cfg.keys.maxKey (hfits.imp .inl (fun hl => ⟨hl, rfl⟩))
    rw [wrapped_border hn hlt heq, saturated_border hn hlt heq.ge, ← hkeys]
    refine ⟨found, hset, hset, hexact.nodup, fun k payload => ?_⟩
    rw [hexact.mem, and_iff_left (cfg.keys.le_max k), and_iff_left (window_le k heq.ge)]
  · have hnomax : liveAt log cfg.keys.maxKey (snapshotOf t) = none :=
      hnone _ (cfg.keys.le_max start)
    obtain ⟨found, hset, hexact⟩ := settles_exact hkept.carries hlow start
      cfg.keys.maxKey (.inl (.inl hnomax))
    have hempty := settles_inverted hkept.carries hlow (wrapped_inverted hn hlt hover)
    obtain rfl : found = [] := by
      cases found with
      | nil => rfl
      | cons r rest =>
        obtain ⟨hrange, hlive⟩ := (hexact.mem r.1 r.2).mp (List.mem_cons_self ..)
        rw [hnone r.1 hrange.1] at hlive
        cases hlive
    rw [saturated_border hn hlt hover.le, ← hkeys]
    refine ⟨[], hempty, hset, hexact.nodup, fun k payload => ?_⟩
    rw [hexact.mem, and_iff_left (cfg.keys.le_max k), and_iff_left (window_le k hover.le)]

/-- A scan returns its window, and what the adapter returns, iff the window fits. -/
theorem scan_returns_window_iff (hc : Roomy cfg) (hkeys : cfg.keys = u64Space)
    (h : Reached cfg t log) (hn : 1 ≤ n) (hlt : n < 2 ^ 64) :
    ReturnsWindow cfg t log start n ↔ WindowFits t log start n :=
  ⟨windowFits_of_returns hc hkeys h hn hlt, returns_of_windowFits hc hkeys h hn hlt⟩

end Agreement

/-- The keys before `u64::MAX`, more than a leaf holds. -/
def topKeys : List (WriteOperation UInt64 ℕ) :=
  (List.range 128).map (fun i => .insert (u64Space.maxKey - 128 + UInt64.ofNat i) i)

/-- The thread that wrote the keys holds the snapshot back: what another thread deleted
since is still in the window. -/
theorem scan_returns_window_iff_lagging : ∃ (t : MVBTSt UInt64 ℕ) (log : Log UInt64 ℕ),
    Reached ⟨127, 127, u64Space⟩ t log ∧ t.commit.clock = 131 ∧ snapshotOf t = 129 ∧
      (t.heap t.currentRoot.1).isLeaf = false ∧
      (scan ⟨127, 127, u64Space⟩ 9 9 t (u64Space.maxKey - 2) 2).map Prod.snd =
        .ok (some [(u64Space.maxKey - 2, 126), (u64Space.maxKey - 1, 127)]) ∧
      WindowFits t log (u64Space.maxKey - 2) 2 ∧
      (ReturnsWindow ⟨127, 127, u64Space⟩ t log (u64Space.maxKey - 2) 2 ↔
        WindowFits t log (u64Space.maxKey - 2) 2) := by
  have hstate : (runWrites ⟨127, 127, u64Space⟩ (newTree true (fun _ => .next) 2 0) topKeys).bind
      (fun x => (dispatchWrite ⟨127, 127, u64Space⟩ (onThread x.1 1)
        (.delete (u64Space.maxKey - 1))).map (fun y =>
          (y.1.commit.clock, snapshotOf y.1, (y.1.heap y.1.currentRoot.1).isLeaf))) =
      .ok (131, 129, false) := by
    decide +kernel
  have hfound : (runWrites ⟨127, 127, u64Space⟩ (newTree true (fun _ => .next) 2 0) topKeys).bind
      (fun x => (dispatchWrite ⟨127, 127, u64Space⟩ (onThread x.1 1)
        (.delete (u64Space.maxKey - 1))).bind (fun y =>
          (scan ⟨127, 127, u64Space⟩ 9 9 y.1 (u64Space.maxKey - 2) 2).map Prod.snd)) =
      .ok (some [(u64Space.maxKey - 2, 126), (u64Space.maxKey - 1, 127)]) := by
    decide +kernel
  obtain ⟨x, hrun, hstate⟩ := of_bind_ok hstate
  obtain ⟨y, hdelete, hvalues⟩ := of_map_ok hstate
  simp only [Prod.mk.injEq] at hvalues
  obtain ⟨hclock, hsnapshot, hroot⟩ := hvalues
  rw [hrun] at hfound
  simp only [Except.bind, hdelete] at hfound
  have hwritten : Reached ⟨127, 127, u64Space⟩ x.1 (reportedAll [] topKeys x.2) :=
    runWrites_closed .write topKeys (.start true (fun _ => .next) 2 0) hrun
  have hreached := (hwritten.thread 1).write hdelete
  exact ⟨y.1, _, hreached, hclock, hsnapshot, hroot, hfound, .inl (by decide),
    scan_returns_window_iff (roomy_of_capacity (.inr rfl) u64Space) rfl hreached
      (by decide) (by decide)⟩

/-- Two keys from `u64::MAX` on: the window ends at zero, and the record is missed. -/
theorem scan_misses_last_key : ∃ (t : MVBTSt UInt64 ℕ) (log : Log UInt64 ℕ),
    Reached ⟨127, 127, u64Space⟩ t log ∧
      liveAt log u64Space.maxKey (snapshotOf t) = some 7 ∧
      (scan ⟨127, 127, u64Space⟩ 4 4 t u64Space.maxKey 2).map Prod.snd = .ok (some []) ∧
      (scanRecords ⟨127, 127, u64Space⟩ 4 4 t u64Space.maxKey 2).map Prod.snd =
        .ok [(u64Space.maxKey, 7)] ∧
      ¬ ReturnsWindow ⟨127, 127, u64Space⟩ t log u64Space.maxKey 2 := by
  obtain ⟨t, hrun, hsnapshot, hscan, hrecords⟩ : ∃ t, dispatchWrite ⟨127, 127, u64Space⟩
      (newTree false (fun _ => .next) 1 0 : MVBTSt UInt64 ℕ) (.insert u64Space.maxKey 7) =
        .ok (t, .inserted 1) ∧ snapshotOf t = 1 ∧
      (scan ⟨127, 127, u64Space⟩ 4 4 t u64Space.maxKey 2).map Prod.snd = .ok (some []) ∧
      (scanRecords ⟨127, 127, u64Space⟩ 4 4 t u64Space.maxKey 2).map Prod.snd =
        .ok [(u64Space.maxKey, 7)] := by
    refine ⟨_, rfl, ?_, ?_, ?_⟩
    · rfl
    · rfl
    · rfl
  have hreached : Reached ⟨127, 127, u64Space⟩ t (reported [] (.insert u64Space.maxKey 7)
      (.inserted 1)) := .write (.start false (fun _ => .next) 1 0) hrun
  have hlive : liveAt (reported [] (.insert u64Space.maxKey (7 : ℕ)) (.inserted 1)) u64Space.maxKey
      (snapshotOf t) = some 7 := by
    rw [hsnapshot]
    decide
  refine ⟨t, _, hreached, hlive, hscan, hrecords, fun hreturns => ?_⟩
  have hfits := windowFits_of_returns (roomy_of_capacity (.inr rfl) u64Space) rfl hreached
    (by decide) (by decide) hreturns
  rcases hfits with hin | ⟨heq, -⟩ | ⟨-, hnone⟩
  · exact absurd hin (by decide)
  · exact absurd heq (by decide)
  · rw [hnone _ le_rfl] at hlive
    cases hlive

end CMVBT.ScanWindow
