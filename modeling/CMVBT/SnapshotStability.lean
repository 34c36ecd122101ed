import CMVBT.Watermark

/-!
# Snapshots are stable

A reader gets a version `s`. Commits that have not ended, and commits that start
later, should all be above `s`. Three things break this. A thread with an inactive
slot starts a commit during a scan: the scan passes over it. A result that no active
slot stands behind is the clock reading itself, which the next commit draws. And a
scan that finds a commit between the two stores of `end_commit` counts it as done.
Away from these the promise holds in every run.
-/
namespace CMVBT.SnapshotStability
open PageModel CommitClock Tracker Interleaving ClockProtocol ReclaimSafety Watermark

/-! ## The promise and its condition -/

/-- The purposes of `current_version_for_reader`. -/
def reader : Purpose → Bool
  | .read | .draw _ => true
  | .bound | .free => false

/-- The version that a thread has started and not ended: `end_commit` is complete
with its second store. -/
def unended : Pc → Option ℕ
  | .publishing version => some version
  | pc => running pc

/-- A version handed to a reader is below every version that has not ended, and below
every version that starts later. -/
def Stable (c : State) : Prop :=
  ∀ i p r, reader p = true → c.pc i = .done p r →
    (∀ j v, unended (c.pc j) = some v → r < v) ∧
    ∀ c', Runs c c' → ∀ j s v, c'.pc j = .idle → Step j c'.shared .idle s (.committing v) → r < v

/-- While a scan is under way every running commit has an active slot. -/
def Quiet (c : State) : Prop :=
  ∀ i, folding (c.pc i) ≠ none → ∀ j v, running (c.pc j) = some v → c.shared.slots j ≠ inactive

/-- No commit is between the two stores of `end_commit`. -/
def Settled (c : State) : Prop := ∀ j v, c.pc j ≠ .publishing v

/-- The first version has been started and has ended. -/
structure Begun (c : State) : Prop where
  clock : startVersion < c.shared.clock
  passed : ∀ j, unended (c.pc j) ≠ some startVersion

/-- A result is fixed while no commit is being published, and it has an active slot
behind it or is read after the first commit. -/
def Backed (c : State) : Pc → Prop
  | .fetchMax scan _ => scan.active = true ∧ Settled c
  | .loadMin _ => Begun c
  | _ => True

def Calm (i : ℕ) (c : State) : Prop := Quiet c ∧ Backed c (c.pc i)

/-! ## Scans -/

/-- Slots from `n` on play no part. -/
def Covered (c : State) (n : ℕ) : Prop := ∀ j, c.shared.slots j ≠ inactive → j < n

/-- A scan that has loaded the slots below `k` and found the minimum `acc`. -/
structure ScanOk (c : State) (scan : Scan) (k acc : ℕ) : Prop where
  acc_ge : startVersion ≤ acc
  seen : ∀ j, j < k → c.shared.slots j ≠ inactive → scan.active = true
  running : scan.active = true → ∀ j, j < k → ∀ v, running (c.pc j) = some v → acc < v
  clock : scan.active = true → acc < c.shared.clock

def ScanAt (c : State) : Pc → Prop
  | .fold scan k n acc => Covered c n ∧ ScanOk c scan k acc
  | .fetchMax scan acc => ∃ n, Covered c n ∧ ScanOk c scan n acc
  | _ => True

section Scans
variable {c : State} {i : ℕ} {s : Shared} {l : Pc}

theorem Covered.step {n a : ℕ} (h : Covered c n) (hq : Quiet c) (ha : folding (c.pc a) ≠ none)
    (hs : Step i c.shared (c.pc i) s l) : Covered (c.move i s l) n := by
  intro j hactive
  by_cases hj : j = i
  · subst hj
    rcases slot_step hs with heq | heq | ⟨v, hpc, -, -⟩
    · exact h j (by rwa [Config.move_shared, heq] at hactive)
    · exact absurd heq hactive
    · exact h j (hq a ha j v (by rw [hpc]; rfl))
  · rw [Config.move_shared, (guarantee hs).slots_other j hj] at hactive
    exact h j hactive

/-- What a scan knows does not age: a commit that starts now is above the clock. -/
theorem ScanOk.step {scan : Scan} {k acc a : ℕ} (h : ScanOk c scan k acc) (hq : Quiet c)
    (ha : folding (c.pc a) ≠ none) (hs : Step i c.shared (c.pc i) s l) :
    ScanOk (c.move i s l) scan k acc := by
  refine ⟨h.acc_ge, fun j hj hactive => ?_, fun hscan => ?_, ?_⟩
  · by_cases hji : j = i
    · subst hji
      rcases slot_step hs with heq | heq | ⟨v, hpc, -, -⟩
      · exact h.seen j hj (by rwa [Config.move_shared, heq] at hactive)
      · exact absurd heq hactive
      · exact h.seen j hj (hq a ha j v (by rw [hpc]; rfl))
    · rw [Config.move_shared, (guarantee hs).slots_other j hji] at hactive
      exact h.seen j hj hactive
  · refine c.forall_move i s l (A := fun j pc => j < k → ∀ v, Watermark.running pc = some v →
      acc < v) ?_ ?_
    · intro hi v hv
      rcases running_step hs hv with ⟨hold, -⟩ | ⟨rfl, -, -⟩
      · exact h.running hscan i hi v hold
      · exact h.clock hscan
    · exact fun j _ => h.running hscan j
  · exact fun hscan => (h.clock hscan).trans_le (guarantee hs).clock_le

theorem ScanOk.mono {scan : Scan} {k n acc : ℕ} (h : ScanOk c scan k acc) (hle : n ≤ k) :
    ScanOk c scan n acc :=
  ⟨h.acc_ge, fun j hj => h.seen j (hj.trans_le hle),
    fun hscan j hj => h.running hscan j (hj.trans_le hle), h.clock⟩

/-- A scan loads one more slot. -/
theorem ScanOk.load {scan : Scan} {k acc a : ℕ} (h : ScanOk c scan k acc) (hv : Versions c)
    (hq : Quiet c) (ha : folding (c.pc a) ≠ none) :
    ScanOk c { scan with active := scan.active || decide (c.shared.slots k ≠ inactive) } (k + 1)
      (min acc (c.shared.slots k)) := by
  by_cases hactive : c.shared.slots k = inactive
  · -- the slot counts for nothing, and no running commit is behind it
    have hsame : (scan.active || decide (c.shared.slots k ≠ inactive)) = scan.active := by
      simp [hactive]
    rw [hsame]
    refine ⟨le_min h.acc_ge (by rw [hactive]; decide), ?_, ?_, ?_⟩
    · intro j hj hne
      rcases Nat.lt_succ_iff_lt_or_eq.mp hj with hj | rfl
      · exact h.seen j hj hne
      · exact absurd hactive hne
    · intro hscan j hj v hrun
      rcases Nat.lt_succ_iff_lt_or_eq.mp hj with hj | rfl
      · exact (min_le_left _ _).trans_lt (h.running hscan j hj v hrun)
      · exact absurd hactive (hq a ha j v hrun)
    · exact fun hscan => (min_le_left _ _).trans_lt (h.clock hscan)
  · obtain ⟨hge, hlt, -⟩ := hv.slots k hactive
    refine ⟨le_min h.acc_ge hge, fun _ _ _ => by simp [hactive], ?_, ?_⟩
    · intro _ j hj v hrun
      rcases Nat.lt_succ_iff_lt_or_eq.mp hj with hj | rfl
      · have hscan := h.seen j hj (hq a ha j v hrun)
        exact (min_le_left _ _).trans_lt (h.running hscan j hj v hrun)
      · exact (min_le_right _ _).trans_lt (((hv.threads j).running v hrun).2.2 hactive)
    · exact fun _ => (min_le_right _ _).trans_lt hlt

/-- The scan of the mover after its step. -/
theorem scanAt_self (hv : Versions c) (hunseen : ∀ j, unseen (c.pc j) = true)
    (hscan : ScanAt c (c.pc i)) (hq : Quiet c) (hs : Step i c.shared (c.pc i) s l) :
    ScanAt (c.move i s l) l := by
  rcases hl : folding l with _ | ⟨scan, acc⟩
  · cases l <;> trivial
  obtain ⟨rfl, ⟨hpc, rfl, rfl⟩ | ⟨scan₀, k, n, acc₀, hpc, -, rfl, rfl, rfl⟩ |
    ⟨k, n, hpc, hge, rfl⟩⟩ := folding_step hs hl
  · have hv' := hv.step hs
    refine ⟨fun j hj => (hv'.slots j hj).2.2, ?_, ?_, ?_, ?_⟩
    · exact ((hv.threads i).reading _ _ (by rw [hpc]; rfl)).1
    · exact fun j hj => absurd hj j.not_lt_zero
    · exact fun _ j hj => absurd hj j.not_lt_zero
    · intro hactive
      have hseen := hunseen i
      rw [hpc] at hseen
      simp [unseen, hactive] at hseen
  · have ha : folding (c.pc i) ≠ none := by rw [hpc]; simp [folding]
    rw [hpc] at hscan
    exact ⟨hscan.1.step hq ha hs, (hscan.2.load hv hq ha).step hq ha hs⟩
  · have ha : folding (c.pc i) ≠ none := by rw [hpc]; simp [folding]
    rw [hpc] at hscan
    exact ⟨n, hscan.1.step hq ha hs, (hscan.2.step hq ha hs).mono (Nat.le_of_not_lt hge)⟩

/-- The scan of another thread after the step. -/
theorem ScanAt.other {j : ℕ} (h : ScanAt c (c.pc j)) (hq : Quiet c)
    (hs : Step i c.shared (c.pc i) s l) : ScanAt (c.move i s l) (c.pc j) := by
  generalize hpc : c.pc j = pc at h
  cases pc with
  | fold scan k n acc =>
    have ha : folding (c.pc j) ≠ none := by rw [hpc]; simp [folding]
    exact ⟨h.1.step hq ha hs, h.2.step hq ha hs⟩
  | fetchMax scan acc =>
    have ha : folding (c.pc j) ≠ none := by rw [hpc]; simp [folding]
    obtain ⟨n, hcov, hok⟩ := h
    exact ⟨n, hcov.step hq ha hs, hok.step hq ha hs⟩
  | _ => trivial

end Scans

/-! ## The watermark stays below the running commits -/

/-- Where a fixed result comes from. -/
theorem result_step {i : ℕ} {s s' : Shared} {pc pc' : Pc} (h : Step i s pc s' pc') {r : ℕ}
    (hr : result pc' = some r) :
    result pc = some r ∨ (∃ p, pc = .loadMin p) ∨ ∃ scan acc, pc = .fetchMax scan acc := by
  cases h with
  | loadMin => exact .inr (.inl ⟨_, rfl⟩)
  | fetchMaxOwner => exact .inr (.inr ⟨_, _, rfl⟩)
  | fetchMax => exact .inr (.inr ⟨_, _, rfl⟩)
  | clear => exact .inl hr
  | clearFails => exact .inl hr
  | returned => simp at hr
  | retire => simp at hr
  | bury => simp at hr
  | _ => cases hr

/-- A version that has not ended was not ended before, or is drawn by this step. -/
theorem unended_step {i : ℕ} {s s' : Shared} {pc pc' : Pc} (h : Step i s pc s' pc') {v : ℕ}
    (hv : unended pc' = some v) : unended pc = some v ∨ v = s.clock := by
  have hrunning : ∀ {l : Pc}, running l = some v → unended l = some v := by
    intro l hl
    cases l <;> first | exact hl | cases hl
  by_cases hpub : ∃ w, pc' = .publishing w
  · obtain ⟨w, rfl⟩ := hpub
    cases hv
    exact .inl (hrunning (publishing_step h rfl).1)
  · have hrun : running pc' = some v := by
      cases pc' <;> first | exact hv | exact absurd ⟨_, rfl⟩ hpub
    rcases running_step h hrun with ⟨hold, -⟩ | ⟨rfl, -, -⟩
    · exact .inl (hrunning hold)
    · exact .inr rfl

theorem Begun.step {c : State} (h : Begun c) {i : ℕ} {s : Shared} {l : Pc}
    (hs : Step i c.shared (c.pc i) s l) : Begun (c.move i s l) := by
  refine ⟨h.clock.trans_le (guarantee hs).clock_le, ?_⟩
  refine c.forall_move i s l (A := fun _ pc => unended pc ≠ some startVersion) ?_
    (fun j _ => h.passed j)
  intro hopen
  rcases unended_step hs hopen with hold | heq
  · exact h.passed i hold
  · exact absurd heq h.clock.ne

/-- The watermark is below the clock and every version that has not ended. -/
def Below (c : State) : Prop :=
  c.shared.globalMin = startVersion ∨ (c.shared.globalMin < c.shared.clock ∧
    ∀ j v, unended (c.pc j) = some v → c.shared.globalMin < v)

/-- A step that leaves the watermark alone. -/
theorem Below.same {c : State} (h : Below c) {i : ℕ} {s : Shared} {l : Pc}
    (hs : Step i c.shared (c.pc i) s l) (heq : s.globalMin = c.shared.globalMin) :
    Below (c.move i s l) := by
  rw [Below, Config.move_shared, heq]
  refine h.imp_right fun ⟨hlt, hbelow⟩ => ⟨hlt.trans_le (guarantee hs).clock_le, ?_⟩
  refine c.forall_move i s l (A := fun _ pc => ∀ v, unended pc = some v →
    c.shared.globalMin < v) ?_ (fun j _ => hbelow j)
  intro v hopen
  rcases unended_step hs hopen with hold | rfl
  · exact hbelow i v hold
  · exact hlt

/-- A scan with an active slot behind it is below everything that has not ended. -/
theorem below_scan {c : State} (hq : Quiet c) (hset : Settled c) {i : ℕ} {scan : Scan} {acc n : ℕ}
    (hpc : c.pc i = .fetchMax scan acc) (hcov : Covered c n) (hok : ScanOk c scan n acc)
    (hactive : scan.active = true) :
    acc < c.shared.clock ∧ ∀ j v, unended (c.pc j) = some v → acc < v := by
  have ha : folding (c.pc i) ≠ none := by rw [hpc]; simp [folding]
  refine ⟨hok.clock hactive, fun j v hopen => ?_⟩
  have hrun : running (c.pc j) = some v := by
    generalize hpcj : c.pc j = pc at hopen
    cases pc <;> first | exact hopen | exact absurd hpcj (hset j _)
  exact hok.running hactive j (hcov j (hq i ha j v hrun)) v hrun

theorem unended_ge {c : State} (h : Versions c) {j v : ℕ} (hv : unended (c.pc j) = some v) :
    startVersion ≤ v := by
  generalize hpc : c.pc j = pc at hv
  cases pc with
  | publishing w =>
    cases hv
    exact ((h.threads j).publishing _ hpc).1
  | _ => exact ((h.threads j).running v (by rw [hpc]; exact hv)).1

structure Steady (c : State) : Prop where
  versions : Versions c
  lower : LowerOk c
  unseen : ∀ i, unseen (c.pc i) = true
  below : Below c
  begun : ∀ i r, result (c.pc i) = some r → Begun c
  scans : ∀ i, ScanAt c (c.pc i)

/-- The step that raises the watermark. -/
theorem Steady.fetchMax {c : State} (h : Steady c) {i : ℕ} (hok : Calm i c) {s : Shared} {l : Pc}
    {scan : Scan} {acc : ℕ} (hpc : c.pc i = .fetchMax scan acc)
    (heq : s = { c.shared with globalMin := max c.shared.globalMin acc })
    (hl : unended l = none) : Below (c.move i s l) ∧ Begun (c.move i s l) := by
  obtain ⟨hq, hbacked⟩ := hok
  have hscan := h.scans i
  rw [hpc] at hbacked hscan
  obtain ⟨hactive, hset⟩ := hbacked
  obtain ⟨n, hcov, hscan⟩ := hscan
  obtain ⟨hclock, hopen⟩ := below_scan hq hset hpc hcov hscan hactive
  have hmax : ∀ m, acc < m → (c.shared.globalMin = startVersion ∨ c.shared.globalMin < m) →
      max c.shared.globalMin acc < m := by
    rintro m hlt (hstart | hm)
    · rw [hstart, max_eq_right hscan.acc_ge]
      exact hlt
    · exact max_lt hm hlt
  subst heq
  refine ⟨.inr ⟨hmax _ hclock (h.below.imp_right And.left), ?_⟩,
    ⟨hscan.acc_ge.trans_lt hclock, ?_⟩⟩
  · refine c.forall_move i _ l (A := fun _ pc => ∀ v, unended pc = some v →
      max c.shared.globalMin acc < v) (fun v hv => by rw [hl] at hv; cases hv) ?_
    intro j _ v hv
    exact hmax v (hopen j v hv) (h.below.imp_right fun hb => hb.2 j v hv)
  · refine c.forall_move i _ l (A := fun _ pc => unended pc ≠ some startVersion)
      (by rw [hl]; simp) ?_
    intro j _ hv
    exact absurd (hscan.acc_ge.trans_lt (hopen j _ hv)) (lt_irrefl _)

theorem Steady.step {c : State} (h : Steady c) {i : ℕ} {s : Shared} {l : Pc} (hok : Calm i c)
    (hs : Step i c.shared (c.pc i) s l) : Steady (c.move i s l) := by
  have hscans : ∀ j, ScanAt (c.move i s l) ((c.move i s l).pc j) :=
    c.forall_move i s l (A := fun _ pc => ScanAt (c.move i s l) pc)
      (scanAt_self h.versions h.unseen (h.scans i) hok.1 hs) (fun j _ => (h.scans j).other hok.1 hs)
  have hunseen : ∀ j, Watermark.unseen ((c.move i s l).pc j) = true :=
    c.forall_move i s l (A := fun _ pc => Watermark.unseen pc = true) (unseen_step hs)
      (fun j _ => h.unseen j)
  rcases globalMin_step hs with ⟨heq, hnot⟩ | ⟨scan, acc, hpc, -, heq, hl⟩
  · refine ⟨h.versions.step hs, h.lower.step hs, hunseen, h.below.same hs heq, ?_, hscans⟩
    refine c.forall_move i s l (A := fun _ pc => ∀ r, result pc = some r → Begun (c.move i s l)) ?_
      (fun j _ r hr => (h.begun j r hr).step hs)
    intro r hr
    rcases result_step hs hr with hold | ⟨p, hpc⟩ | ⟨scan, acc, hpc⟩
    · exact (h.begun i r hold).step hs
    · have hbegun := hok.2
      rw [hpc] at hbegun
      exact hbegun.step hs
    · exact absurd hpc (hnot scan acc)
  · have hopen : unended l = none := by
      rw [Option.eq_none_iff_forall_ne_some]
      intro v hv
      cases l with
      | publishing w =>
        have := (publishing_step hs rfl).1
        rw [hpc] at this
        cases this
      | _ => exact absurd (hl.symm.trans hv) nofun
    obtain ⟨hbelow, hbegun⟩ := h.fetchMax hok hpc heq hopen
    exact ⟨h.versions.step hs, h.lower.step hs, hunseen, hbelow, fun _ _ _ => hbegun, hscans⟩

theorem steady_start : Steady start := by
  refine ⟨versions_start, guarded_start.lower, fun _ => rfl, .inl rfl, ?_, fun _ => trivial⟩
  rintro i r ⟨⟩

/-- A version is started by drawing it from the clock. -/
theorem committing_of_idle {i : ℕ} {s s' : Shared} {v : ℕ}
    (h : Step i s .idle s' (.committing v)) : v = s.clock := by
  cases h
  rfl

/-- In every run in which each scan finds the running commits in their slots, and each
result is fixed while no commit is being published and has an active slot or an ended
commit behind it, the versions given to readers are stable. -/
theorem snapshots_stable {c : State} (h : Run Step Calm start c) : Stable c := by
  have hsteady : Steady c := h.preserves (fun _ _ _ _ hok hs hinv => hinv.step hok hs) steady_start
  intro i p r _ hpc
  have hres : result (c.pc i) = some r := by rw [hpc]; rfl
  have hle := hsteady.lower.result_le i r hres
  have hbegun := hsteady.begun i r hres
  have hbelow : r < c.shared.clock ∧ ∀ j v, unended (c.pc j) = some v → r < v := by
    rcases hsteady.below with hstart | ⟨hclock, hbelow⟩
    · rw [hstart] at hle
      refine ⟨hle.trans_lt hbegun.clock, fun j v hopen => hle.trans_lt ?_⟩
      refine lt_of_le_of_ne ?_ ?_
      · exact unended_ge hsteady.versions hopen
      · rintro rfl
        exact hbegun.passed j hopen
    · exact ⟨hle.trans_lt hclock, fun j v hopen => hle.trans_lt (hbelow j v hopen)⟩
  refine ⟨hbelow.2, ?_⟩
  intro c' hrun j s v _ hs
  rw [committing_of_idle hs]
  exact hbelow.1.trans_le
    (hrun.monotone (f := Shared.clock) (fun _ _ _ _ _ hstep => (guarantee hstep).clock_le))

/-! ## Runs -/

/-- Only the threads 0 and 1 are there. -/
def Pair (c : State) : Prop := ∀ j, 1 < j → c.pc j = .absent

theorem Pair.next {ok : ℕ → State → Prop} {c : State} (h : Run Step ok start c ∧ Pair c) {i : ℕ}
    (hi : i ≤ 1) (hok : ok i c) {s : Shared} {l : Pc} (hs : Step i c.shared (c.pc i) s l) :
    Run Step ok start (c.move i s l) ∧ Pair (c.move i s l) := by
  refine ⟨h.1.next i hok hs, fun j hj => ?_⟩
  rw [Config.move_pc_other c i s l (by omega)]
  exact h.2 j hj

/-- Thread 0 does not scan and thread 1 does not commit: only the slot of thread 0 matters. -/
theorem quiet_of_pair {c : State} (h : Pair c) (hzero : folding (c.pc 0) = none)
    (hone : running (c.pc 1) = none)
    (hslot : folding (c.pc 1) = none ∨ c.shared.slots 0 ≠ inactive) : Quiet c := by
  intro i hi j v hj
  have hscan : i = 1 := by
    rcases Nat.lt_trichotomy i 1 with hlt | heq | hgt
    · obtain rfl : i = 0 := by omega
      exact absurd hzero hi
    · exact heq
    · rw [h i hgt] at hi
      exact absurd rfl hi
  subst hscan
  rcases Nat.lt_trichotomy j 1 with hlt | rfl | hgt
  · obtain rfl : j = 0 := by omega
    exact hslot.resolve_left hi
  · rw [hone] at hj
    cases hj
  · rw [h j hgt] at hj
    cases hj

theorem settled_of_pair {c : State} (h : Pair c) (hzero : ∀ v, c.pc 0 ≠ .publishing v)
    (hone : ∀ v, c.pc 1 ≠ .publishing v) : Settled c := by
  intro j v hj
  rcases Nat.lt_trichotomy j 1 with hlt | rfl | hgt
  · obtain rfl : j = 0 := by omega
    exact hzero v hj
  · exact hone v hj
  · rw [h j hgt] at hj
    cases hj

/-- Thread 0 has committed version 1 and runs version 2; thread 1 reads version 1. -/
theorem snapshots_stable_beside_commit :
    ∃ c, Run Step Calm start c ∧ c.pc 0 = .committing 2 ∧ c.pc 1 = .done .read 1 ∧ Stable c := by
  have r : Run Step Calm start start ∧ Pair start := ⟨.refl start, fun _ _ => rfl⟩
  -- the commit of thread 0
  replace r := Pair.next r (Nat.zero_le 1) ⟨quiet_of_pair r.2 rfl rfl (.inl rfl), trivial⟩
    (.spawn rfl rfl (by decide))
  replace r := Pair.next r (Nat.zero_le 1) ⟨quiet_of_pair r.2 rfl rfl (.inl rfl), trivial⟩
    .startCommit
  replace r := Pair.next r (Nat.zero_le 1) ⟨quiet_of_pair r.2 rfl rfl (.inl rfl), trivial⟩
    .storeSlot
  replace r := Pair.next r (Nat.zero_le 1) ⟨quiet_of_pair r.2 rfl rfl (.inl rfl), trivial⟩
    .storeDirty
  replace r := Pair.next r (Nat.zero_le 1) ⟨quiet_of_pair r.2 rfl rfl (.inl rfl), trivial⟩
    .startCommit
  -- from here on the slot of thread 0 holds version 1
  replace r := Pair.next r le_rfl ⟨quiet_of_pair r.2 rfl rfl (.inl rfl), trivial⟩
    (.spawn rfl rfl (by decide))
  replace r := Pair.next r le_rfl ⟨quiet_of_pair r.2 rfl rfl (.inl rfl), trivial⟩ .readVersion
  replace r := Pair.next r le_rfl ⟨quiet_of_pair r.2 rfl rfl (.inl rfl), trivial⟩
    (.enterCount (by decide) (by decide))
  replace r := Pair.next r le_rfl ⟨quiet_of_pair r.2 rfl rfl (.inl rfl), trivial⟩ (.flagDirty rfl)
  replace r := Pair.next r le_rfl ⟨quiet_of_pair r.2 rfl rfl (.inr (by decide)), trivial⟩
    (.ownScan rfl)
  replace r := Pair.next r le_rfl ⟨quiet_of_pair r.2 rfl rfl (.inr (by decide)), trivial⟩ .count
  replace r := Pair.next r le_rfl ⟨quiet_of_pair r.2 rfl rfl (.inr (by decide)), trivial⟩
    (.loadSlot (by decide))
  replace r := Pair.next r le_rfl ⟨quiet_of_pair r.2 rfl rfl (.inr (by decide)), trivial⟩
    (.loadSlot (by decide))
  replace r := Pair.next r le_rfl ⟨quiet_of_pair r.2 rfl rfl (.inr (by decide)), trivial⟩
    (.folded (by decide))
  replace r := Pair.next r le_rfl ⟨quiet_of_pair r.2 rfl rfl (.inr (by decide)), rfl,
    settled_of_pair r.2 nofun nofun⟩ (.fetchMaxOwner rfl)
  replace r := Pair.next r le_rfl ⟨quiet_of_pair r.2 rfl rfl (.inl rfl), trivial⟩ (.clear rfl)
  exact ⟨_, r.1, rfl, rfl, snapshots_stable r.1⟩

/-- Thread 0 starts version 1 with its slot inactive, thread 1 commits version 2,
and thread 2 reads 2 while version 1 is running. -/
theorem snapshot_overtakes_commit : ¬ ∀ c, Runs start c → Stable c := by
  intro hall
  have r := (Run.refl start : Run Step Anytime start start).move 0 (.spawn rfl rfl (by decide))
  replace r := r.move 1 (.spawn rfl rfl (by decide))
  replace r := r.move 2 (.spawn rfl rfl (by decide))
  replace r := r.move 0 .startCommit
  replace r := r.move 1 .startCommit
  replace r := r.move 1 .storeSlot
  replace r := r.move 1 .storeDirty
  replace r := r.move 2 .readVersion
  replace r := r.move 2 (.enterCount (by decide) (by decide))
  replace r := r.move 2 (.flagDirty rfl)
  replace r := r.move 2 (.ownScan rfl)
  replace r := r.move 2 .count
  replace r := r.move 2 (.loadSlot (by decide))
  replace r := r.move 2 (.loadSlot (by decide))
  replace r := r.move 2 (.loadSlot (by decide))
  replace r := r.move 2 (.folded (by decide))
  replace r := r.move 2 (.fetchMaxOwner rfl)
  replace r := r.move 2 (.clear rfl)
  have hlt := (hall _ r 2 .read 2 rfl rfl).1 0 1 rfl
  exact absurd hlt (by decide)

/-- Thread 1 reads the version 2 that thread 0 is publishing: it is in the slot, and the
second store is still to come. -/
theorem snapshot_meets_publication :
    ∃ c, Runs start c ∧ c.pc 1 = .done .read 2 ∧ c.pc 0 = .publishing 2 := by
  have r := (Run.refl start : Run Step Anytime start start).move 0 (.spawn rfl rfl (by decide))
  replace r := r.move 1 (.spawn rfl rfl (by decide))
  replace r := r.move 0 .startCommit
  replace r := r.move 0 .storeSlot
  replace r := r.move 0 .storeDirty
  replace r := r.move 0 .startCommit
  replace r := r.move 0 .storeSlot
  replace r := r.move 1 .readVersion
  replace r := r.move 1 (.enterCount (by decide) (by decide))
  replace r := r.move 1 (.flagDirty rfl)
  replace r := r.move 1 (.ownScan rfl)
  replace r := r.move 1 .count
  replace r := r.move 1 (.loadSlot (by decide))
  replace r := r.move 1 (.loadSlot (by decide))
  replace r := r.move 1 (.folded (by decide))
  replace r := r.move 1 (.fetchMaxOwner rfl)
  replace r := r.move 1 (.clear rfl)
  exact ⟨_, r, rfl, rfl⟩

end CMVBT.SnapshotStability
