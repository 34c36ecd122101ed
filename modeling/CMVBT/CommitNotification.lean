import CMVBT.SnapshotStability

/-!
# Commits are noticed

`end_commit` sets the flag to dirty, one reader claims a scan, and when the scan
is through it sets the flag to clean. A commit must not be lost in between: once
a thread has ended version `v` and no slot is below `v`, every snapshot drawn
from then on is at least `v`. Two owners at a time break this, since the first
one cannot tell the scanning flag of the second from its own, and so does an owner
that has read the clock before the commit started.
-/
namespace CMVBT.CommitNotification
open PageModel CommitClock Tracker Interleaving ClockProtocol ReclaimSafety Watermark
open SnapshotStability

/-! ## The promise and its condition -/

/-- The thread is inside a call of `current_version_for_reader` or
`committed_snapshot`. -/
def calling : Pc → Bool
  | .enter _ _ | .retired (.snapshot _ _) => true
  | pc => inSnapshot pc

/-- The thread owns the scan that it is in. -/
def owned : Pc → Bool
  | .count scan | .fold scan _ _ _ | .fetchMax scan _ => scan.owns
  | .clear _ _ => true
  | _ => false

/-- Apart from thread `i` every slot is inactive or at least `v`. -/
def Ahead (i v : ℕ) (c : State) : Prop :=
  ∀ j, j ≠ i → c.shared.slots j = inactive ∨ v ≤ c.shared.slots j

/-- As long as the other slots are ahead of `v`, a call that begins from here on
returns at least `v`. -/
def Visible (ok : ℕ → State → Prop) (i v : ℕ) (c : State) : Prop :=
  ∀ c₁ c₂ k p r, Run Step (fun j c => ok j c ∧ Ahead i v c) c c₁ → calling (c₁.pc k) = false →
    Run Step (fun j c => ok j c ∧ Ahead i v c) c₁ c₂ → reader p = true → c₂.pc k = .done p r → v ≤ r

/-- The last store of `end_commit` makes the version visible, and a flag that a scan
is about to clean stands for no commit that came after the scan. -/
def Notified (ok : ℕ → State → Prop) (c : State) : Prop :=
  (∀ i v s, v ≤ versionMax → ok i c → c.pc i = .publishing v →
    Step i c.shared (c.pc i) s .idle → Visible ok i v (c.move i s .idle)) ∧
  ∀ i scan r, c.pc i = .clear scan r → c.shared.globalDirty = .scanning →
    ∀ v ∈ c.shared.ended, v ∈ scan.known

/-- A scan is claimed only when no other claimed scan is under way, and with a
clock reading not below any version ended so far. -/
def Careful (i : ℕ) (c : State) : Prop :=
  ∀ time p, c.pc i = .own time p → c.shared.globalDirty = .dirty →
    (∀ j, owned (c.pc j) = false) ∧ ∀ v ∈ c.shared.ended, v ≤ time

/-! ## What a step does -/

/-- Nothing that the thread holds on to is below `v`. -/
def Above (v : ℕ) (s : Shared) : Pc → Prop
  | .enter time _ | .retired (.snapshot time _) | .loadFlag time _ | .own time _ => v ≤ time
  | .loadMin _ => v ≤ s.globalMin
  | .count scan => v ≤ scan.time
  | .fold _ _ _ acc | .fetchMax _ acc => v ≤ acc
  | .clear _ r | .done _ r => v ≤ r
  | _ => True

theorem above_of_outside {v : ℕ} {s : Shared} {pc : Pc} (h : calling pc = false) :
    Above v s pc := by
  cases pc with
  | retired after => cases after <;> trivial
  | _ => trivial

theorem Above.mono {v : ℕ} {s s' : Shared} {pc : Pc} (h : Above v s pc)
    (hle : s.globalMin ≤ s'.globalMin) : Above v s' pc := by
  cases pc with
  | loadMin => exact le_trans h hle
  | retired after => cases after <;> exact h
  | _ => exact h

section Steps
variable {i : ℕ} {s s' : Shared} {pc pc' : Pc}

/-- A call stays above `v` if everything that it reads is. -/
theorem Above.step {v : ℕ} (h : Above v s pc) (hs : Step i s pc s' pc') (hclock : v ≤ s.clock)
    (hmax : v ≤ versionMax) (hslots : ∀ j, v ≤ s.slots j)
    (hclean : s.globalDirty = .clean → v ≤ s.globalMin) : Above v s' pc' := by
  cases hs with
  | readVersion => exact hclock
  | pinnedRead => exact hclock
  | drawSnapshot => exact hclock
  | freeBlock => exact hmax
  | enterInactive => exact h
  | enterRetire => exact h
  | enterCount => exact h
  | @retire after => cases after <;> trivial
  | flagClean hflag => exact hclean hflag
  | flagDirty => exact h
  | flagScanning => exact h
  | loadMin => exact h
  | ownScan => exact h
  | ownFails => exact h
  | count => exact h
  | loadSlot => exact le_min h (hslots _)
  | folded => exact h
  | fetchMaxOwner => exact le_trans h (le_max_left _ _)
  | fetchMax => exact le_trans h (le_max_left _ _)
  | clear => exact h
  | clearFails => exact h
  | @returned purpose => cases purpose <;> trivial
  | @bury _ version => cases version <;> trivial
  | _ => trivial

/-- How the flag changes. -/
theorem flag_step (h : Step i s pc s' pc') :
    (s'.globalDirty = s.globalDirty ∧ s'.ended = s.ended) ∨ s'.globalDirty = .dirty ∨
      (∃ time p, pc = .own time p ∧ s.globalDirty = .dirty ∧ s'.globalDirty = .scanning ∧
        s'.ended = s.ended ∧ pc' = .count ⟨time, true, p, s.ended, false⟩) ∨
      ∃ scan r, pc = .clear scan r ∧ s.globalDirty = .scanning ∧ s'.globalDirty = .clean := by
  cases h with
  | storeDirty => exact .inr (.inl rfl)
  | retire => exact .inr (.inl rfl)
  | ownScan hflag => exact .inr (.inr (.inl ⟨_, _, rfl, hflag, rfl, rfl, rfl⟩))
  | clear hflag => exact .inr (.inr (.inr ⟨_, _, rfl, hflag, rfl⟩))
  | _ => exact .inl ⟨rfl, rfl⟩

theorem ended_step (h : Step i s pc s' pc') {v : ℕ} (hv : v ∈ s.ended) : v ∈ s'.ended := by
  cases h with
  | storeDirty => exact List.mem_cons_of_mem _ hv
  | _ => exact hv

/-- The versions known to a scan. -/
def known : Pc → List ℕ
  | .count scan | .fold scan _ _ _ | .fetchMax scan _ | .clear scan _ => scan.known
  | _ => []

/-- An owner goes on with its scan, or it has just claimed one. -/
theorem owned_step (h : Step i s pc s' pc') (ho : owned pc' = true) :
    (owned pc = true ∧ known pc' = known pc) ∨ s.globalDirty = .dirty := by
  cases h with
  | ownScan hflag => exact .inr hflag
  | count => exact .inl ⟨ho, rfl⟩
  | loadSlot => exact .inl ⟨ho, rfl⟩
  | folded => exact .inl ⟨ho, rfl⟩
  | fetchMaxOwner howns => exact .inl ⟨howns, rfl⟩
  | @returned purpose => cases purpose <;> cases ho
  | @retire after => cases after <;> cases ho
  | @bury _ version => cases version <;> cases ho
  | _ => cases ho

end Steps

/-! ## Owners -/

/-- While the flag says scanning, every owner knows every commit. -/
def Aware (c : State) : Prop :=
  c.shared.globalDirty = .scanning → ∀ j, owned (c.pc j) = true →
    ∀ v ∈ c.shared.ended, v ∈ known (c.pc j)

theorem Aware.step {c : State} (h : Aware c) {i : ℕ} {s : Shared} {l : Pc} (hok : Careful i c)
    (hs : Step i c.shared (c.pc i) s l) : Aware (c.move i s l) := by
  intro hflag
  change s.globalDirty = .scanning at hflag
  rcases flag_step hs with ⟨hsame, hended⟩ | hdirty | ⟨time, p, hpc, hdirty, -, hended, hl⟩ |
    ⟨scan, r, -, -, hclean⟩
  · rw [hsame] at hflag
    refine c.forall_move i s l (A := fun _ pc => owned pc = true → ∀ v ∈ s.ended, v ∈ known pc) ?_ ?_
    · intro ho
      rcases owned_step hs ho with ⟨hold, hknown⟩ | hdirty
      · rw [hended, hknown]
        exact h hflag i hold
      · rw [hflag] at hdirty
        cases hdirty
    · intro j _
      rw [hended]
      exact h hflag j
  · rw [hdirty] at hflag
    cases hflag
  · refine c.forall_move i s l (A := fun _ pc => owned pc = true → ∀ v ∈ s.ended, v ∈ known pc) ?_ ?_
    · intro _
      rw [hended, hl]
      exact fun v hv => hv
    · intro j _ ho
      rw [(hok time p hpc hdirty).1 j] at ho
      cases ho
  · rw [hclean] at hflag
    cases hflag

theorem runs_aware {c : State} (h : Run Step Careful start c) : Aware c := by
  refine h.preserves (fun _ _ _ _ hok hs hinv => Aware.step hinv hok hs) ?_
  intro hflag
  cases hflag

/-! ## A version that has been ended -/

/-- Thread `i` has ended version `v`. -/
structure Ended (i v : ℕ) (c : State) : Prop where
  versions : Versions c
  lower : LowerOk c
  ended : v ∈ c.shared.ended
  clock : v < c.shared.clock
  slot : c.shared.slots i = inactive ∨ v ≤ c.shared.slots i
  running : ∀ w, running (c.pc i) = some w → v ≤ w
  clean : c.shared.globalDirty = .clean → v ≤ c.shared.globalMin
  owners : c.shared.globalDirty = .scanning → ∀ j, owned (c.pc j) = true →
    Above v c.shared (c.pc j)

section Ended
variable {i v : ℕ} {c : State}

theorem Ended.slots (h : Ended i v c) (hmax : v ≤ versionMax) (hahead : Ahead i v c) :
    ∀ j, v ≤ c.shared.slots j := by
  intro j
  have hslot : c.shared.slots j = inactive ∨ v ≤ c.shared.slots j := by
    by_cases hj : j = i
    · rw [hj]
      exact h.slot
    · exact hahead j hj
  rcases hslot with heq | hle
  · rw [heq]
    exact hmax
  · exact hle

variable {k : ℕ} {s : Shared} {l : Pc}

theorem Ended.above_step (h : Ended i v c) (hmax : v ≤ versionMax) (hahead : Ahead i v c)
    (hs : Step k c.shared (c.pc k) s l) (habove : Above v c.shared (c.pc k)) : Above v s l :=
  habove.step hs h.clock.le hmax (h.slots hmax hahead) h.clean

/-- The slot of the thread does not fall back behind `v`. -/
theorem Ended.slot_step (h : Ended i v c) (hs : Step k c.shared (c.pc k) s l) :
    s.slots i = inactive ∨ v ≤ s.slots i := by
  by_cases hk : i = k
  · subst hk
    rcases Watermark.slot_step hs with heq | heq | ⟨w, hpc, -, heq⟩
    · rw [heq]
      exact h.slot
    · exact .inl heq
    · rw [heq]
      exact .inr (h.running w (by rw [hpc]; rfl))
  · rw [(guarantee hs).slots_other i hk]
    exact h.slot

theorem Ended.step (h : Ended i v c) (hmax : v ≤ versionMax) (hahead : Ahead i v c)
    (hok : Careful k c) (hs : Step k c.shared (c.pc k) s l) : Ended i v (c.move k s l) := by
  have hmin := globalMin_le hs
  refine ⟨h.versions.step hs, h.lower.step hs, ended_step hs h.ended,
    h.clock.trans_le (guarantee hs).clock_le, h.slot_step hs, ?_, ?_, ?_⟩
  · refine c.forall_move k s l (A := fun j pc => j = i → ∀ w, Watermark.running pc = some w →
      v ≤ w) ?_ ?_ i rfl
    · rintro rfl w hw
      rcases running_step hs hw with ⟨hold, -⟩ | ⟨rfl, -, -⟩
      · exact h.running w hold
      · exact h.clock.le
    · rintro j _ rfl
      exact h.running
  · change s.globalDirty = .clean → v ≤ s.globalMin
    intro hflag
    rcases flag_step hs with ⟨hsame, -⟩ | hdirty | ⟨_, _, -, -, hscan, -, -⟩ | ⟨scan, r, hpc, hscan, -⟩
    · rw [hsame] at hflag
      exact (h.clean hflag).trans hmin
    · rw [hdirty] at hflag
      cases hflag
    · rw [hscan] at hflag
      cases hflag
    · -- the owner has raised the watermark to its result
      have habove := h.owners hscan k (by rw [hpc]; rfl)
      rw [hpc] at habove
      exact (le_trans habove (h.lower.result_le k r (by rw [hpc]; rfl))).trans hmin
  · change s.globalDirty = .scanning → _
    intro hflag
    rcases flag_step hs with ⟨hsame, -⟩ | hdirty | ⟨time, p, hpc, hdirty, -, -, hl⟩ |
      ⟨scan, r, -, -, hclean⟩
    · rw [hsame] at hflag
      refine c.forall_move k s l (A := fun _ pc => owned pc = true → Above v s pc) ?_ ?_
      · intro ho
        rcases owned_step hs ho with ⟨hold, -⟩ | hdirty
        · exact h.above_step hmax hahead hs (h.owners hflag k hold)
        · rw [hflag] at hdirty
          cases hdirty
      · exact fun j _ ho => (h.owners hflag j ho).mono hmin
    · rw [hdirty] at hflag
      cases hflag
    · obtain ⟨hnone, htime⟩ := hok time p hpc hdirty
      refine c.forall_move k s l (A := fun _ pc => owned pc = true → Above v s pc) ?_ ?_
      · intro _
        rw [hl]
        exact htime v h.ended
      · intro j _ ho
        rw [hnone j] at ho
        cases ho
    · rw [hclean] at hflag
      cases hflag

end Ended

/-- The state right after `end_commit`. -/
theorem ended_of_publishing {c : State} (hv : Versions c) (hl : LowerOk c) {i v : ℕ} {s : Shared}
    (hpc : c.pc i = .publishing v) (hs : Step i c.shared (c.pc i) s .idle) :
    Ended i v (c.move i s .idle) := by
  obtain ⟨-, hclock, hslot⟩ := (hv.threads i).publishing v hpc
  have hstore : s = { c.shared with globalDirty := .dirty, ended := v :: c.shared.ended } := by
    rw [hpc] at hs
    cases hs
    rfl
  refine ⟨hv.step hs, hl.step hs, ?_, ?_, .inr ?_, ?_, ?_, ?_⟩
  · rw [Config.move_shared, hstore]
    exact List.mem_cons_self
  · rw [Config.move_shared, hstore]
    exact hclock
  · rw [Config.move_shared, hstore]
    exact hslot.ge
  · intro w hw
    rw [Config.move_pc_self] at hw
    cases hw
  · rw [Config.move_shared, hstore]
    rintro ⟨⟩
  · rw [Config.move_shared, hstore]
    rintro ⟨⟩

/-- Calls that begin after the end of a commit return at least its version. -/
theorem Ended.visible {i v : ℕ} {c : State} (h : Ended i v c) (hmax : v ≤ versionMax) :
    Visible Careful i v c := by
  intro c₁ c₂ k p r hrun hout hrun' _ hpc
  have hended : Ended i v c₁ :=
    hrun.preserves (fun _ _ _ _ hok hs hinv => hinv.step hmax hok.2 hok.1 hs) h
  have hboth : Ended i v c₂ ∧ Above v c₂.shared (c₂.pc k) := by
    refine hrun'.preserves (J := fun c => Ended i v c ∧ Above v c.shared (c.pc k)) ?_
      ⟨hended, above_of_outside hout⟩
    rintro c j s l ⟨hok, hahead⟩ hs ⟨hinv, habove⟩
    refine ⟨hinv.step hmax hahead hok hs, ?_⟩
    by_cases hj : k = j
    · subst hj
      rw [Config.move_pc_self]
      exact hinv.above_step hmax hahead hs habove
    · rw [Config.move_pc_other c j s l hj]
      exact habove.mono (globalMin_le hs)
  have habove := hboth.2
  rw [hpc] at habove
  exact habove

/-- In every run in which scans are claimed one at a time and with a fresh clock
reading, every commit is noticed. -/
theorem commits_noticed {c : State} (h : Run Step Careful start c) : Notified Careful c := by
  refine ⟨fun i v s hmax _ hpc hs => ?_, fun i scan r hpc hflag v hv => ?_⟩
  · exact (ended_of_publishing (runs_versions h) (runs_guarded h.anytime).lower hpc hs).visible hmax
  · have hknown := runs_aware h hflag i (by rw [hpc]; rfl) v hv
    rw [hpc] at hknown
    exact hknown

theorem careful_of_solo {c : State} (h : Solo c) {time : ℕ} {p : Purpose}
    (hpc : c.pc 0 = .own time p) (hended : ∀ v ∈ c.shared.ended, v ≤ time) : Careful 0 c := by
  intro time' p' hpc' _
  rw [hpc] at hpc'
  cases hpc'
  refine ⟨fun j => ?_, hended⟩
  by_cases hj : j = 0
  · rw [hj, hpc]
    rfl
  · rw [h j hj]
    rfl

/-- One thread ends version 1, reads it, and ends version 2. -/
theorem commits_noticed_solo :
    ∃ c s, Run Step Careful start c ∧ c.shared.globalMin = 1 ∧ c.pc 0 = .publishing 2 ∧
      Step 0 c.shared (c.pc 0) s .idle ∧ Visible Careful 0 2 (c.move 0 s .idle) := by
  have r : Run Step Careful start start ∧ Solo start := ⟨.refl start, fun _ _ => rfl⟩
  replace r := Solo.next r (by rintro _ _ ⟨⟩) (.spawn rfl rfl (by decide))
  replace r := Solo.next r (by rintro _ _ ⟨⟩) .startCommit
  replace r := Solo.next r (by rintro _ _ ⟨⟩) .storeSlot
  replace r := Solo.next r (by rintro _ _ ⟨⟩) .storeDirty
  replace r := Solo.next r (by rintro _ _ ⟨⟩) .readVersion
  replace r := Solo.next r (by rintro _ _ ⟨⟩) (.enterCount (by decide) (by decide))
  replace r := Solo.next r (by rintro _ _ ⟨⟩) (.flagDirty rfl)
  have hcareful := careful_of_solo (p := .read) r.2 rfl (by decide)
  replace r := Solo.next r hcareful (.ownScan rfl)
  replace r := Solo.next r (by rintro _ _ ⟨⟩) .count
  replace r := Solo.next r (by rintro _ _ ⟨⟩) (.loadSlot (by decide))
  replace r := Solo.next r (by rintro _ _ ⟨⟩) (.folded (by decide))
  replace r := Solo.next r (by rintro _ _ ⟨⟩) (.fetchMaxOwner rfl)
  replace r := Solo.next r (by rintro _ _ ⟨⟩) (.clear rfl)
  replace r := Solo.next r (by rintro _ _ ⟨⟩) .returned
  replace r := Solo.next r (by rintro _ _ ⟨⟩) .startCommit
  replace r := Solo.next r (by rintro _ _ ⟨⟩) .storeSlot
  exact ⟨_, _, r.1, rfl, rfl, .storeDirty,
    (commits_noticed r.1).1 0 2 _ (by decide) (by rintro _ _ ⟨⟩) rfl .storeDirty⟩

/-- Thread 0 commits version 1, thread 1 scans and stops before it cleans the flag.
Thread 0 commits version 2, thread 2 claims a scan, and thread 1 cleans the flag
of thread 2. Thread 3 then reads version 1. -/
theorem commit_goes_unnoticed : ¬ ∀ c, Runs start c → Notified Anytime c := by
  intro hall
  have r := (Run.refl start : Run Step Anytime start start).move 0 (.spawn rfl rfl (by decide))
  replace r := r.move 1 (.spawn rfl rfl (by decide))
  replace r := r.move 2 (.spawn rfl rfl (by decide))
  replace r := r.move 3 (.spawn rfl rfl (by decide))
  replace r := r.move 0 .startCommit
  replace r := r.move 0 .storeSlot
  replace r := r.move 0 .storeDirty
  replace r := r.move 1 .readVersion
  replace r := r.move 1 (.enterCount (by decide) (by decide))
  replace r := r.move 1 (.flagDirty rfl)
  replace r := r.move 1 (.ownScan rfl)
  replace r := r.move 1 .count
  replace r := r.move 1 (.loadSlot (by decide))
  replace r := r.move 1 (.loadSlot (by decide))
  replace r := r.move 1 (.loadSlot (by decide))
  replace r := r.move 1 (.loadSlot (by decide))
  replace r := r.move 1 (.folded (by decide))
  replace r := r.move 1 (.fetchMaxOwner rfl)
  replace r := r.move 0 .startCommit
  replace r := r.move 0 .storeSlot
  have hvisible := (hall _ r).1 0 2 _ (by decide) trivial rfl .storeDirty
  -- from here on nobody touches a slot
  have hslots : ∀ j, j ≠ 0 →
      Function.update (Function.update (fun _ : ℕ => inactive) 0 1) 0 2 j = inactive ∨
        2 ≤ Function.update (Function.update (fun _ : ℕ => inactive) 0 1) 0 2 j := by
    intro j hj
    rw [Function.update_of_ne hj, Function.update_of_ne hj]
    exact .inl rfl
  have q := (r.move 0 .storeDirty).here (fun j c => Anytime j c ∧ Ahead 0 2 c)
  replace q := q.next 2 ⟨trivial, hslots⟩ .readVersion
  replace q := q.next 2 ⟨trivial, hslots⟩ (.enterCount (by decide) (by decide))
  replace q := q.next 2 ⟨trivial, hslots⟩ (.flagDirty rfl)
  replace q := q.next 2 ⟨trivial, hslots⟩ (.ownScan rfl)
  replace q := q.next 1 ⟨trivial, hslots⟩ (.clear rfl)
  have q' := q.here (fun j c => Anytime j c ∧ Ahead 0 2 c)
  replace q' := q'.next 3 ⟨trivial, hslots⟩ .readVersion
  replace q' := q'.next 3 ⟨trivial, hslots⟩ (.enterCount (by decide) (by decide))
  replace q' := q'.next 3 ⟨trivial, hslots⟩ (.flagClean rfl)
  replace q' := q'.next 3 ⟨trivial, hslots⟩ .loadMin
  have hle : 2 ≤ 1 := hvisible _ _ 3 .read 1 q rfl q' rfl rfl
  exact absurd hle (by decide)

end CMVBT.CommitNotification
