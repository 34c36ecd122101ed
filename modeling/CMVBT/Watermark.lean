import CMVBT.ReclaimSafety

/-!
# What the commit watermark promises

A reader takes the minimum over the slots of all threads, and an inactive slot
counts as the largest version. So the watermark follows the commits only as long
as some slot is active and every thread with a running commit shows an older
version in its slot. The results below state both conditions; each comes with a
run that breaks the promise without it.
-/
namespace CMVBT.Watermark
open PageModel CommitClock Tracker Interleaving ClockProtocol ReclaimSafety

/-! ## Versions in flight -/

/-- The version that a thread has started and not yet published. -/
def running : Pc → Option ℕ
  | .committing version | .bury _ (some version) => some version
  | _ => none

/-- The clock reading that a call still has to use. -/
def reading : Pc → Option (Purpose × ℕ)
  | .enter time purpose | .loadFlag time purpose | .own time purpose
  | .retired (.snapshot time purpose) => some (purpose, time)
  | .count scan => some (scan.purpose, scan.time)
  | _ => none

@[simp] theorem running_purpose (p : Purpose) (r : ℕ) : running (p.pc r) = none := by
  cases p <;> rfl

@[simp] theorem running_after (a : After) : running a.pc = none := by
  cases a <;> rfl

theorem running_resume (v : Option ℕ) (e : DeadBlock) : running (resume v) = running (.bury e v) := by
  cases v <;> rfl

@[simp] theorem reading_purpose (p : Purpose) (r : ℕ) : reading (p.pc r) = none := by
  cases p <;> rfl

@[simp] theorem reading_after (a : After) : reading a.pc = reading (.retired a) := by
  cases a <;> rfl

@[simp] theorem reading_resume (v : Option ℕ) : reading (resume v) = none := by
  cases v <;> rfl

/-- What the step of one thread leaves alone for the others. -/
structure Guarantee (i : ℕ) (s s' : Shared) : Prop where
  clock_le : s.clock ≤ s'.clock
  threadId_le : s.threadId ≤ s'.threadId
  slots_other : ∀ j, j ≠ i → s'.slots j = s.slots j

theorem guarantee {i : ℕ} {s s' : Shared} {pc pc' : Pc} (h : Step i s pc s' pc') :
    Guarantee i s s' := by
  cases h with
  | spawn _ hid _ => exact ⟨le_rfl, by rw [hid]; exact Nat.le_succ i, fun _ _ => rfl⟩
  | startCommit => exact ⟨Nat.le_succ _, le_rfl, fun _ _ => rfl⟩
  | exit => exact ⟨le_rfl, le_rfl, fun j hj => Function.update_of_ne hj _ _⟩
  | storeSlot => exact ⟨le_rfl, le_rfl, fun j hj => Function.update_of_ne hj _ _⟩
  | release => exact ⟨le_rfl, le_rfl, fun j hj => Function.update_of_ne hj _ _⟩
  | enterRetire => exact ⟨le_rfl, le_rfl, fun j hj => Function.update_of_ne hj _ _⟩
  | _ => exact ⟨le_rfl, le_rfl, fun _ _ => rfl⟩

/-- A running version is kept or drawn from the clock. -/
theorem running_step {i : ℕ} {s s' : Shared} {pc pc' : Pc} (h : Step i s pc s' pc') {v : ℕ}
    (hv : running pc' = some v) :
    (running pc = some v ∧ s'.slots i = s.slots i) ∨
      (v = s.clock ∧ s'.clock = s.clock + 1 ∧ s'.slots i = s.slots i) := by
  cases h with
  | startCommit =>
    cases hv
    exact .inr ⟨rfl, rfl, rfl⟩
  | dieInCommit => exact .inl ⟨hv, rfl⟩
  | @bury entry version =>
    rw [running_resume version entry] at hv
    exact .inl ⟨hv, rfl⟩
  | returned => simp at hv
  | retire => simp at hv
  | _ => cases hv

theorem publishing_step {i : ℕ} {s s' : Shared} {pc pc' : Pc} (h : Step i s pc s' pc') {v : ℕ}
    (hv : pc' = .publishing v) : running pc = some v ∧ s'.slots i = v := by
  cases h with
  | storeSlot =>
    cases hv
    exact ⟨rfl, Function.update_self i _ s.slots⟩
  | @returned purpose => cases purpose <;> cases hv
  | @retire after => cases after <;> cases hv
  | @bury _ version => cases version <;> cases hv
  | _ => cases hv

/-- A clock reading is kept or taken. -/
theorem reading_step {i : ℕ} {s s' : Shared} {pc pc' : Pc} (h : Step i s pc s' pc') {p : Purpose}
    {time : ℕ} (ht : reading pc' = some (p, time)) :
    reading pc = some (p, time) ∨ time = s.clock ∨ (p = .free ∧ time = versionMax) := by
  cases h with
  | readVersion => cases ht; exact .inr (.inl rfl)
  | pinnedRead => cases ht; exact .inr (.inl rfl)
  | drawSnapshot => cases ht; exact .inr (.inl rfl)
  | freeBlock => cases ht; exact .inr (.inr ⟨rfl, rfl⟩)
  | returned => simp at ht
  | retire =>
    rw [reading_after] at ht
    exact .inl ht
  | bury => simp at ht
  | _ => first | exact .inl ht | cases ht

/-- A slot is set to the version of its thread or made inactive. -/
theorem slot_step {i : ℕ} {s s' : Shared} {pc pc' : Pc} (h : Step i s pc s' pc') :
    s'.slots i = s.slots i ∨ s'.slots i = inactive ∨
      ∃ v, pc = .committing v ∧ pc' = .publishing v ∧ s'.slots i = v := by
  cases h with
  | exit => exact .inr (.inl (Function.update_self i inactive s.slots))
  | release => exact .inr (.inl (Function.update_self i inactive s.slots))
  | enterRetire => exact .inr (.inl (Function.update_self i inactive s.slots))
  | storeSlot => exact .inr (.inr ⟨_, rfl, rfl, Function.update_self i _ s.slots⟩)
  | _ => exact .inl rfl

/-- Facts about one thread. -/
structure ThreadOk (s : Shared) (i : ℕ) (pc : Pc) : Prop where
  known : pc ≠ .absent → i < s.threadId
  running : ∀ v, running pc = some v → startVersion ≤ v ∧ v < s.clock ∧
    (s.slots i ≠ inactive → s.slots i < v)
  publishing : ∀ v, pc = .publishing v → startVersion ≤ v ∧ v < s.clock ∧ s.slots i = v
  reading : ∀ p time, reading pc = some (p, time) → startVersion ≤ time ∧
    (p ≠ .free → time ≤ s.clock)

structure Versions (c : State) : Prop where
  clock_ge : startVersion ≤ c.shared.clock
  slots : ∀ i, c.shared.slots i ≠ inactive → startVersion ≤ c.shared.slots i ∧
    c.shared.slots i < c.shared.clock ∧ i < c.shared.threadId
  free : ∀ i ∈ c.shared.freeTids, i < c.shared.threadId
  threads : ∀ i, ThreadOk c.shared i (c.pc i)

theorem ThreadOk.other {s s' : Shared} {i j : ℕ} {pc : Pc} (h : ThreadOk s j pc)
    (hg : Guarantee i s s') (hj : j ≠ i) : ThreadOk s' j pc := by
  refine ⟨fun hpc => (h.known hpc).trans_le hg.threadId_le, ?_, ?_, ?_⟩
  · intro v hv
    obtain ⟨h₁, h₂, h₃⟩ := h.running v hv
    rw [hg.slots_other j hj]
    exact ⟨h₁, h₂.trans_le hg.clock_le, h₃⟩
  · intro v hv
    obtain ⟨h₁, h₂, h₃⟩ := h.publishing v hv
    rw [hg.slots_other j hj]
    exact ⟨h₁, h₂.trans_le hg.clock_le, h₃⟩
  · intro p time ht
    obtain ⟨h₁, h₂⟩ := h.reading p time ht
    exact ⟨h₁, fun hp => (h₂ hp).trans hg.clock_le⟩

/-- A thread that is there has an id. -/
theorem known_step {i : ℕ} {s s' : Shared} {pc pc' : Pc} (h : Step i s pc s' pc')
    (hfree : ∀ j ∈ s.freeTids, j < s.threadId) (hpc : pc ≠ .absent → i < s.threadId) :
    i < s'.threadId ∧ ∀ j ∈ s'.freeTids, j < s'.threadId := by
  cases h with
  | spawn hnone hid _ =>
    refine ⟨Nat.lt_succ_self i, ?_⟩
    simp [hnone]
  | @respawn rest hfirst =>
    rw [hfirst] at hfree
    exact ⟨hfree i (by simp), fun j hj => hfree j (by simp [hj])⟩
  | leave =>
    have hi := hpc (by simp)
    refine ⟨hi, fun j hj => ?_⟩
    rcases List.mem_cons.mp hj with rfl | hj
    · exact hi
    · exact hfree j hj
  | _ => exact ⟨hpc (by simp), hfree⟩

theorem ThreadOk.self {c : State} (h : Versions c) {i : ℕ} {s : Shared} {l : Pc}
    (hs : Step i c.shared (c.pc i) s l) : ThreadOk s i l := by
  have hok := h.threads i
  have hg := guarantee hs
  refine ⟨fun _ => (known_step hs h.free hok.known).1, ?_, ?_, ?_⟩
  · intro v hv
    rcases running_step hs hv with ⟨hold, hslot⟩ | ⟨rfl, hclock, hslot⟩
    · obtain ⟨h₁, h₂, h₃⟩ := hok.running v hold
      rw [hslot]
      exact ⟨h₁, h₂.trans_le hg.clock_le, h₃⟩
    · rw [hslot]
      exact ⟨h.clock_ge, by omega, fun hactive => (h.slots i hactive).2.1⟩
  · intro v hv
    obtain ⟨hold, hslot⟩ := publishing_step hs hv
    obtain ⟨h₁, h₂, -⟩ := hok.running v hold
    exact ⟨h₁, h₂.trans_le hg.clock_le, hslot⟩
  · intro p time ht
    rcases reading_step hs ht with hold | rfl | ⟨rfl, rfl⟩
    · obtain ⟨h₁, h₂⟩ := hok.reading p time hold
      exact ⟨h₁, fun hp => (h₂ hp).trans hg.clock_le⟩
    · exact ⟨h.clock_ge, fun _ => hg.clock_le⟩
    · exact ⟨by decide, fun hp => absurd rfl hp⟩

theorem Versions.step {c : State} (h : Versions c) {i : ℕ} {s : Shared} {l : Pc}
    (hs : Step i c.shared (c.pc i) s l) : Versions (c.move i s l) := by
  have hg := guarantee hs
  obtain ⟨hid, hfree⟩ := known_step hs h.free (h.threads i).known
  refine ⟨h.clock_ge.trans hg.clock_le, ?_, hfree, ?_⟩
  · intro j hactive
    by_cases hj : j = i
    · subst hj
      simp only [Config.move_shared] at hactive ⊢
      rcases slot_step hs with heq | heq | ⟨v, hpc, -, heq⟩
      · rw [heq] at hactive ⊢
        obtain ⟨h₁, h₂, h₃⟩ := h.slots j hactive
        exact ⟨h₁, h₂.trans_le hg.clock_le, hid⟩
      · exact absurd heq hactive
      · obtain ⟨h₁, h₂, -⟩ := (h.threads j).running v (by rw [hpc]; rfl)
        rw [heq]
        exact ⟨h₁, h₂.trans_le hg.clock_le, hid⟩
    · simp only [Config.move_shared, hg.slots_other j hj] at hactive ⊢
      obtain ⟨h₁, h₂, h₃⟩ := h.slots j hactive
      exact ⟨h₁, h₂.trans_le hg.clock_le, h₃.trans_le hg.threadId_le⟩
  · refine c.forall_move i s l (A := fun j pc => ThreadOk s j pc) (.self h hs) ?_
    exact fun j hj => (h.threads j).other hg hj

theorem versions_start : Versions start := by
  refine ⟨le_rfl, fun i hi => absurd rfl hi, ?_, fun i => ⟨fun hi => absurd rfl hi, ?_, ?_, ?_⟩⟩
  · intro i hi
    cases hi
  · rintro v ⟨⟩
  · rintro v ⟨⟩
  · rintro p time ⟨⟩

theorem runs_versions {ok : ℕ → State → Prop} {c : State} (h : Run Step ok start c) : Versions c :=
  h.preserves (fun _ _ _ _ _ hs hinv => hinv.step hs) versions_start

/-! ## The watermark and the clock -/

/-- The scan of a thread with the minimum it has so far. -/
def folding : Pc → Option (Scan × ℕ)
  | .fold scan _ _ acc | .fetchMax scan acc => some (scan, acc)
  | _ => none

@[simp] theorem folding_purpose (p : Purpose) (r : ℕ) : folding (p.pc r) = none := by
  cases p <;> rfl

@[simp] theorem folding_after (a : After) : folding a.pc = none := by
  cases a <;> rfl

@[simp] theorem folding_resume (v : Option ℕ) : folding (resume v) = none := by
  cases v <;> rfl

/-- How a scan gets its minimum. -/
theorem folding_step {i : ℕ} {s s' : Shared} {pc pc' : Pc} (h : Step i s pc s' pc') {scan : Scan}
    {acc : ℕ} (hf : folding pc' = some (scan, acc)) :
    s' = s ∧ ((pc = .count scan ∧ pc' = .fold scan 0 s.threadId acc ∧ acc = scan.time) ∨
      (∃ scan₀ slot n acc₀, pc = .fold scan₀ slot n acc₀ ∧ slot < n ∧
        pc' = .fold scan (slot + 1) n acc ∧ acc = min acc₀ (s.slots slot) ∧
        scan = { scan₀ with active := scan₀.active || decide (s.slots slot ≠ inactive) }) ∨
      ∃ slot n, pc = .fold scan slot n acc ∧ ¬ slot < n ∧ pc' = .fetchMax scan acc) := by
  cases h with
  | count =>
    cases hf
    exact ⟨rfl, .inl ⟨rfl, rfl, rfl⟩⟩
  | loadSlot hlt =>
    cases hf
    exact ⟨rfl, .inr (.inl ⟨_, _, _, _, rfl, hlt, rfl, rfl, rfl⟩)⟩
  | folded hge =>
    cases hf
    exact ⟨rfl, .inr (.inr ⟨_, _, rfl, hge, rfl⟩)⟩
  | returned => simp at hf
  | retire => simp at hf
  | bury => simp at hf
  | _ => cases hf

/-- A scan starts without having seen an active slot. -/
def unseen : Pc → Bool
  | .count scan => !scan.active
  | _ => true

theorem unseen_step {i : ℕ} {s s' : Shared} {pc pc' : Pc} (h : Step i s pc s' pc') :
    unseen pc' = true := by
  cases h with
  | @returned purpose => cases purpose <;> rfl
  | @retire after => cases after <;> rfl
  | @bury _ version => cases version <;> rfl
  | _ => rfl

/-- What a step does to the watermark. -/
theorem globalMin_step {i : ℕ} {s s' : Shared} {pc pc' : Pc} (h : Step i s pc s' pc') :
    (s'.globalMin = s.globalMin ∧ ∀ scan acc, pc ≠ .fetchMax scan acc) ∨
      ∃ scan acc, pc = .fetchMax scan acc ∧ s'.globalMin = max s.globalMin acc ∧
        s' = { s with globalMin := max s.globalMin acc } ∧ running pc' = none := by
  cases h with
  | fetchMaxOwner => exact .inr ⟨_, _, rfl, rfl, rfl, rfl⟩
  | fetchMax => exact .inr ⟨_, _, rfl, rfl, rfl, rfl⟩
  | _ => exact .inl ⟨rfl, by rintro _ _ ⟨⟩⟩

/-- The watermark and everything that readers get are at most the clock. -/
def BelowClock (c : State) : Prop :=
  c.shared.globalMin ≤ c.shared.clock ∧
    ∀ i p r, p ≠ .free → c.pc i = .done p r → r ≤ c.shared.clock

/-- A scan of `free_block` that goes on to `fetch_max` has met an active slot. -/
def freeMetActive : Pc → Bool
  | .fetchMax scan _ => !decide (scan.purpose = .free) || scan.active
  | _ => true

structure ClockBound (c : State) : Prop where
  versions : Versions c
  lower : LowerOk c
  unseen : ∀ i, unseen (c.pc i) = true
  globalMin_le : c.shared.globalMin ≤ c.shared.clock
  acc_le : ∀ i scan acc, folding (c.pc i) = some (scan, acc) →
    scan.purpose ≠ .free ∨ scan.active = true → acc ≤ c.shared.clock

theorem ClockBound.acc_self {c : State} (h : ClockBound c) {i : ℕ} {s : Shared} {l : Pc}
    (hs : Step i c.shared (c.pc i) s l) {scan : Scan} {acc : ℕ}
    (hf : folding l = some (scan, acc)) (hcase : scan.purpose ≠ .free ∨ scan.active = true) :
    acc ≤ s.clock := by
  have hclock := (guarantee hs).clock_le
  obtain ⟨-, ⟨hpc, -, rfl⟩ | ⟨scan₀, slot, n, acc₀, hpc, -, -, rfl, rfl⟩ | ⟨slot, n, hpc, -, -⟩⟩ :=
    folding_step hs hf
  · have hseen := h.unseen i
    rw [hpc] at hseen
    have hfree : scan.purpose ≠ .free := by
      rcases hcase with hp | hp
      · exact hp
      · simp [Watermark.unseen, hp] at hseen
    exact (((h.versions.threads i).reading _ _ (by rw [hpc]; rfl)).2 hfree).trans hclock
  · by_cases hactive : c.shared.slots slot = inactive
    · have hold : scan₀.purpose ≠ .free ∨ scan₀.active = true := by
        simpa [hactive] using hcase
      exact ((min_le_left _ _).trans (h.acc_le i scan₀ acc₀ (by rw [hpc]; rfl) hold)).trans hclock
    · exact ((min_le_right _ _).trans (h.versions.slots slot hactive).2.1.le).trans hclock
  · exact (h.acc_le i scan acc (by rw [hpc]; rfl) hcase).trans hclock

theorem ClockBound.step {c : State} (h : ClockBound c) {i : ℕ} {s : Shared} {l : Pc}
    (hok : freeMetActive (c.pc i) = true) (hs : Step i c.shared (c.pc i) s l) :
    ClockBound (c.move i s l) := by
  have hclock := (guarantee hs).clock_le
  refine ⟨h.versions.step hs, h.lower.step hs, ?_, ?_, ?_⟩
  · exact c.forall_move i s l (A := fun _ pc => Watermark.unseen pc = true) (unseen_step hs)
      (fun j _ => h.unseen j)
  · change s.globalMin ≤ s.clock
    rcases globalMin_step hs with ⟨heq, -⟩ | ⟨scan, acc, hpc, heq, -, -⟩
    · rw [heq]
      exact h.globalMin_le.trans hclock
    · have hcase : scan.purpose ≠ .free ∨ scan.active = true := by
        rw [hpc] at hok
        simpa [freeMetActive] using hok
      rw [heq]
      exact max_le (h.globalMin_le.trans hclock)
        ((h.acc_le i scan acc (by rw [hpc]; rfl) hcase).trans hclock)
  · refine c.forall_move i s l (A := fun _ pc => ∀ scan acc, folding pc = some (scan, acc) →
      scan.purpose ≠ .free ∨ scan.active = true → acc ≤ s.clock) ?_ ?_
    · exact fun scan acc hf hcase => h.acc_self hs hf hcase
    · exact fun j _ scan acc hf hcase => (h.acc_le j scan acc hf hcase).trans hclock

theorem clockBound_start : ClockBound start := by
  refine ⟨versions_start, guarded_start.lower, fun _ => rfl, le_rfl, ?_⟩
  rintro i scan acc ⟨⟩

/-- As long as every scan of `free_block` meets an active slot, neither the
watermark nor a value returned to a reader passes the clock. -/
theorem watermark_below_clock {c : State}
    (h : Run Step (fun i c => freeMetActive (c.pc i) = true) start c) : BelowClock c := by
  have hb : ClockBound c := h.preserves (fun _ _ _ _ hok hs hinv => hinv.step hok hs)
    clockBound_start
  refine ⟨hb.globalMin_le, fun i p r _ hpc => ?_⟩
  exact (hb.lower.result_le i r (by rw [hpc]; rfl)).trans hb.globalMin_le

/-- One thread allocates while its own slot shows version 2. -/
theorem watermark_below_clock_at_allocation :
    ∃ c, Run Step (fun i c => freeMetActive (c.pc i) = true) start c ∧ c.shared.globalMin = 2 ∧
      BelowClock c := by
  have r := (Run.refl start : Run Step (fun i c => freeMetActive (c.pc i) = true) start start).next
    0 rfl (.spawn rfl rfl (by decide))
  replace r := r.next 0 rfl .startCommit
  replace r := r.next 0 rfl .storeSlot
  replace r := r.next 0 rfl .storeDirty
  replace r := r.next 0 rfl .startCommit
  replace r := r.next 0 rfl .storeSlot
  replace r := r.next 0 rfl .storeDirty
  replace r := r.next 0 rfl .freeBlock
  replace r := r.next 0 rfl (.flagDirty rfl)
  replace r := r.next 0 rfl (.ownScan rfl)
  replace r := r.next 0 rfl .count
  replace r := r.next 0 rfl (.loadSlot (by decide))
  replace r := r.next 0 rfl (.folded (by decide))
  replace r := r.next 0 rfl (.fetchMaxOwner rfl)
  exact ⟨_, r, rfl, watermark_below_clock r⟩

/-- A thread that has released its slot allocates: no slot is active, the scan
returns the largest version and the watermark keeps it. -/
theorem watermark_passes_clock : ¬ ∀ c, Runs start c → BelowClock c := by
  intro hall
  have r := (Run.refl start : Run Step Anytime start start).move 0 (.spawn rfl rfl (by decide))
  replace r := r.move 0 .release
  replace r := r.move 0 .retire
  replace r := r.move 0 .freeBlock
  replace r := r.move 0 (.flagDirty rfl)
  replace r := r.move 0 (.ownScan rfl)
  replace r := r.move 0 .count
  replace r := r.move 0 (.loadSlot (by decide))
  replace r := r.move 0 (.folded (by decide))
  replace r := r.move 0 (.fetchMaxOwner rfl)
  have hle := (hall _ r).1
  exact absurd hle (by decide)

end CMVBT.Watermark
