import CMVBT.OnlineWorkload
import Mathlib.Data.List.Perm.Basic
import Mathlib.Order.Interval.Finset.Nat

/-!
# Whole runs of the online experiment

A run with one writer comes to its end exactly when no operation other than an insert
meets an empty set of live keys. Then every operation takes effect at the first try,
the counts are those of the mix, every version that will be scanned is noted, and each
scan finds the number of records that its position in the workload determines. Nothing
of this depends on the chooser, the generator or the system, as long as it serves.
-/
namespace CMVBT.OnlineWorkload
open KeyInterval KeyWindow PaperWorkload PaperSystems WorkloadDraws ScanWindow
open WorkloadFile.Paper (FileOp)

theorem toNat_ofNat {n : ℕ} (h : n < 2 ^ 64) : (UInt64.ofNat n).toNat = n :=
  UInt64.toNat_ofNat_of_lt h

/-! ## Options that pass -/

/-- What the checks leave. -/
structure Options.Checked (cfg : Options) : Prop where
  records : 0 < cfg.records
  operations : 0 < cfg.operations
  scanRange : 0 < cfg.scanRange
  range_le : cfg.scanMode = "range" → cfg.scanRange ≤ cfg.records
  rate : cfg.updateRate ≤ 100
  mode : cfg.scanMode = "range" ∨ cfg.scanMode = "full"

theorem Options.checked {cfg : Options} (h : cfg.check = .ok ()) : cfg.Checked := by
  unfold Options.check at h
  simp only [bind, Except.bind, throw, throwThe, MonadExceptOf.throw, pure, Except.pure] at h
  split_ifs at h with hpos hrange hrate hmode
  all_goals
    have hle : cfg.scanMode = "range" → cfg.scanRange ≤ cfg.records :=
      fun hrun => not_lt.mp (fun hlt => hrange ⟨hrun, hlt⟩)
    exact ⟨by omega, by omega, by omega, hle, not_lt.mp hrate, hmode⟩

/-! ## The counts of a prefix -/

/-- The operations of a kind before the `n`th. -/
def Options.before (cfg : Options) (n : ℕ) (kind : WriteKind) : ℕ :=
  (writeKinds 0 n cfg.updateRate cfg.seed.toNat).count kind

/-- The kind of the `n`th operation. -/
def Options.kind (cfg : Options) (n : ℕ) : WriteKind :=
  writeKind n cfg.updateRate cfg.seed.toNat

theorem Options.before_succ (cfg : Options) (n : ℕ) (kind : WriteKind) :
    cfg.before (n + 1) kind = cfg.before n kind + if cfg.kind n = kind then 1 else 0 := by
  unfold Options.before Options.kind
  rw [writeKinds_append, List.count_append, Nat.zero_add]
  congr 1
  rw [writeKinds_eq, List.range_one, List.map_singleton, List.count_singleton, Nat.add_zero]
  simp only [beq_iff_eq]

theorem Options.before_le (cfg : Options) (n : ℕ) (kind : WriteKind) : cfg.before n kind ≤ n := by
  have hlength : (writeKinds 0 n cfg.updateRate cfg.seed.toNat).length = n := by
    simp [writeKinds]
  exact (List.count_le_length).trans hlength.le

/-- The `n`th operation has a live key to take, or it is an insert. -/
def Options.Ready (cfg : Options) (n : ℕ) : Prop :=
  cfg.kind n ≠ .insert → cfg.before n .delete < cfg.records + cfg.before n .insert

/-- No operation but an insert meets an empty set of live keys. -/
def NeverEmpty (cfg : Options) : Prop := ∀ n < cfg.operations, cfg.Ready n

/-- A prefix has the operations of its full blocks and some of those of the next one. -/
theorem Options.before_blocks {cfg : Options} (hrate : cfg.updateRate ≤ 100) (n : ℕ) :
    n / 1000 * ((100 - cfg.updateRate) * 5) ≤ cfg.before n .insert ∧
      cfg.before n .delete ≤
        n / 1000 * ((100 - cfg.updateRate) * 5) + 5 * (100 - cfg.updateRate) := by
  obtain ⟨hinserts, hdeletes⟩ := count_blocks cfg.seed.toNat hrate (n / 1000)
  obtain ⟨-, -, hblock⟩ := block_mix cfg.seed.toNat hrate (n / 1000)
  have hrest : n - n / 1000 * 1000 + (1000 - (n - n / 1000 * 1000)) = 1000 := by omega
  have hsplit := writeKinds_append cfg.seed.toNat 0 (n / 1000 * 1000) (n - n / 1000 * 1000)
    cfg.updateRate
  have hnext := writeKinds_append cfg.seed.toNat (n / 1000 * 1000) (n - n / 1000 * 1000)
    (1000 - (n - n / 1000 * 1000)) cfg.updateRate
  rw [Nat.zero_add, Nat.add_sub_cancel' (by omega)] at hsplit
  rw [hrest] at hnext
  rw [hnext, List.count_append] at hblock
  unfold Options.before
  rw [hsplit, List.count_append, List.count_append, hinserts, hdeletes]
  omega

/-- With more records than deletes in a block the live keys never run out. -/
theorem neverEmpty_of_records {cfg : Options} (hrate : cfg.updateRate ≤ 100)
    (hrecords : 5 * (100 - cfg.updateRate) < cfg.records) : NeverEmpty cfg := by
  intro n _ _
  have := cfg.before_blocks hrate n
  omega

/-! ## The plan -/

/-- One call notes its version for the targets that are the operation, and stops before
the others. -/
theorem recordFrom_spec (completed version : ℕ) {rest : List (ℕ × ℕ)}
    (hsorted : rest.Pairwise (fun a b => a.1 ≤ b.1)) : ∀ (cursor : ℕ) (versions : List ℕ),
    (∀ e ∈ rest, completed ≤ e.1) → ∃ done behind versions',
      recordFrom completed version rest cursor versions = (cursor + done.length, versions') ∧
      rest = done ++ behind ∧ (∀ e ∈ done, e.1 = completed) ∧ (∀ e ∈ behind, completed < e.1) ∧
      versions'.length = versions.length ∧
      (∀ scan, (∀ e ∈ done, e.2 ≠ scan) → versions'[scan]? = versions[scan]?) ∧
      ∀ e ∈ done, e.2 < versions.length → versions'[e.2]? = some version := by
  induction rest with
  | nil =>
    intro cursor versions _
    exact ⟨[], [], versions, rfl, rfl, by simp, by simp, rfl, fun _ _ => rfl, by simp⟩
  | cons e rest ih =>
    intro cursor versions hle
    obtain ⟨target, scan⟩ := e
    obtain ⟨hfirst, hrest⟩ := List.pairwise_cons.mp hsorted
    unfold recordFrom
    by_cases htarget : target = completed
    · rw [if_neg (not_not.mpr htarget)]
      obtain ⟨done, behind, versions', hrun, hsplit, hdone, hbehind, hlength, hother, hset⟩ :=
        ih hrest (cursor + 1) (versions.set scan version)
          (fun e he => hle e (List.mem_cons_of_mem _ he))
      rw [List.length_set] at hlength hset
      refine ⟨(target, scan) :: done, behind, versions', ?_, ?_, ?_, hbehind, hlength, ?_, ?_⟩
      · rw [hrun, List.length_cons, Nat.add_right_comm, Nat.add_assoc]
      · rw [hsplit, List.cons_append]
      · intro e he
        rcases List.mem_cons.mp he with rfl | he
        · exact htarget
        · exact hdone e he
      · intro other hne
        rw [hother other (fun e he => hne e (List.mem_cons_of_mem _ he)),
          List.getElem?_set_ne (hne _ List.mem_cons_self)]
      · intro e he hlt
        by_cases hagain : ∃ e' ∈ done, e'.2 = e.2
        · obtain ⟨e', he', hsame⟩ := hagain
          rw [← hsame] at hlt ⊢
          exact hset e' he' hlt
        · rcases List.mem_cons.mp he with rfl | he
          · rw [hother scan (fun e he hscan => hagain ⟨e, he, hscan⟩),
              List.getElem?_set_self hlt]
          · exact absurd ⟨e, he, rfl⟩ hagain
    · rw [if_pos htarget]
      refine ⟨[], (target, scan) :: rest, versions, rfl, rfl, by simp, ?_, rfl, fun _ _ => rfl,
        by simp⟩
      have hlt : completed < target := lt_of_le_of_ne (hle _ List.mem_cons_self) (Ne.symm htarget)
      intro e he
      rcases List.mem_cons.mp he with rfl | he
      · exact hlt
      · exact hlt.trans_le (hfirst e he)

/-- After `n` operations the scans before the cursor are those that look at one of them;
`Seen` tells of each what it will find. -/
structure Noted (Seen : ℕ → ℕ → Prop) (n cursor : ℕ) (plan : HistoricalPlan) : Prop where
  sorted : plan.ordered.Pairwise (fun a b => a.1 ≤ b.1)
  lists : ∀ e, e ∈ plan.ordered ↔ plan.completed[e.2]? = some e.1
  length : plan.versions.length = plan.completed.length
  done : ∀ e ∈ plan.ordered.take cursor,
    e.1 ≤ n ∧ ∃ v, plan.versions[e.2]? = some v ∧ Seen e.1 v
  behind : ∀ e ∈ plan.ordered.drop cursor, n < e.1

theorem Noted.mono {Seen Seen' : ℕ → ℕ → Prop} (hseen : ∀ c v, Seen c v → Seen' c v)
    {n cursor : ℕ} {plan : HistoricalPlan} (h : Noted Seen n cursor plan) :
    Noted Seen' n cursor plan where
  sorted := h.sorted
  lists := h.lists
  length := h.length
  done e he := by
    obtain ⟨hle, v, hv, hs⟩ := h.done e he
    exact ⟨hle, v, hv, hseen _ _ hs⟩
  behind := h.behind

theorem Noted.record {Seen : ℕ → ℕ → Prop} {n cursor version : ℕ} {plan : HistoricalPlan}
    (h : Noted Seen n cursor plan) (hseen : Seen (n + 1) version) :
    Noted Seen (n + 1) (plan.record cursor (n + 1) version).1
      (plan.record cursor (n + 1) version).2 := by
  obtain ⟨done, behind, versions', hrun, hsplit, hdone, hbehind, hlength, hother, hset⟩ :=
    recordFrom_spec (n + 1) version (h.sorted.sublist (List.drop_sublist _ _)) cursor plan.versions
      h.behind
  have hmem : ∀ e ∈ done, e ∈ plan.ordered := by
    intro e he
    apply List.mem_of_mem_drop (i := cursor)
    rw [hsplit]
    exact List.mem_append_left _ he
  unfold HistoricalPlan.record
  rw [hrun]
  refine ⟨h.sorted, h.lists, hlength.trans h.length, ?_, ?_⟩
  · simp only
    rw [List.take_add, hsplit, List.take_left]
    intro e he
    rcases List.mem_append.mp he with he | he
    · obtain ⟨hle, v, hv, hs⟩ := h.done e he
      refine ⟨hle.trans n.le_succ, v, ?_, hs⟩
      rw [hother, hv]
      -- one scan has one target
      intro e' he' hscan
      have htarget := (h.lists e').mp (hmem e' he')
      rw [hscan, (h.lists e).mp (List.mem_of_mem_take he)] at htarget
      have := hdone e' he'
      simp only [Option.some.injEq] at htarget
      omega
    · refine ⟨(hdone e he).le, version, hset e he ?_, ?_⟩
      · rw [h.length]
        exact (List.getElem?_eq_some_iff.mp ((h.lists e).mp (hmem e he))).1
      · rw [hdone e he]
        exact hseen
  · simp only
    rw [← List.drop_drop, hsplit, List.drop_left]
    exact hbehind

theorem length_drawCompleted (operations scans : ℕ) : ∀ rng,
    (drawCompleted operations scans rng).length = scans := by
  induction scans with
  | zero =>
    intro rng
    rfl
  | succ scans ih =>
    intro rng
    rw [drawCompleted, List.length_cons, ih]

/-- Every scan looks at an operation of the run. -/
theorem mem_drawCompleted {operations : ℕ} (hpos : 0 < operations) (scans : ℕ) : ∀ rng,
    ∀ c ∈ drawCompleted operations scans rng, 1 ≤ c ∧ c ≤ operations := by
  induction scans with
  | zero =>
    intro rng c hc
    cases hc
  | succ scans ih =>
    intro rng c hc
    rcases List.mem_cons.mp hc with rfl | hc
    · have := rng.below_lt hpos
      omega
    · exact ih _ c hc

theorem noted_new (Seen : ℕ → ℕ → Prop) {scans operations : ℕ} (hpos : 0 < operations)
    (seed : UInt64) : Noted Seen 0 0 (.new scans operations seed) where
  sorted := by
    refine (Halving.sortedBy_sorted toLex _).imp ?_
    intro a b hle
    rcases Prod.Lex.le_iff.mp hle with hlt | heq
    · exact hlt.le
    · exact heq.1.le
  lists e := by
    unfold HistoricalPlan.new
    rw [Halving.mem_sortedBy, List.mem_zipIdx_iff_getElem?]
  length := by
    unfold HistoricalPlan.new
    rw [List.length_replicate, length_drawCompleted]
  done e he := by cases he
  behind e he := by
    unfold HistoricalPlan.new at he
    rw [List.drop_zero, Halving.mem_sortedBy, List.mem_zipIdx_iff_getElem?] at he
    exact (mem_drawCompleted hpos _ _ e.1 (List.mem_of_getElem? he)).1

/-! ## What the writer needs of its keys -/

/-- `Ok i d keys live` says that `keys` belong to a writer after `i` inserts and `d` deletes, and
that the keys `live` are live. There is room for `room` inserts. -/
structure Supplies {W : Type} (source : KeySource W) (records room : ℕ)
    (Ok : ℕ → ℕ → W → Finset UInt64 → Prop) : Prop where
  le {i d : ℕ} {keys : W} {live : Finset UInt64} : Ok i d keys live → d ≤ records + i
  card {i d : ℕ} {keys : W} {live : Finset UInt64} : Ok i d keys live → live.card = records + i - d
  insert {i d : ℕ} {keys : W} {live : Finset UInt64} : Ok i d keys live → i < room →
    Fits live (.insert (source.insertKey keys).1) ∧
      Ok (i + 1) d (source.insertKey keys).2 (insert (source.insertKey keys).1 live)
  delete {i d : ℕ} {keys : W} {live : Finset UInt64} : Ok i d keys live → d < records + i →
    ∀ rng, ∃ key keys' rng', source.deleteKey keys rng = some (key, keys', rng') ∧ key ∈ live ∧
      key < u64Space.maxKey ∧ Ok i (d + 1) keys' (live.erase key)
  update {i d : ℕ} {keys : W} {live : Finset UInt64} : Ok i d keys live → d < records + i →
    ∀ rng, ∃ key rng', source.updateKey keys rng = some (key, rng') ∧ key ∈ live ∧
      key < u64Space.maxKey
  deleteEmpty {i d : ℕ} {keys : W} {live : Finset UInt64} : Ok i d keys live → d = records + i →
    ∀ rng, source.deleteKey keys rng = none
  updateEmpty {i d : ℕ} {keys : W} {live : Finset UInt64} : Ok i d keys live → d = records + i →
    i < room → ∀ rng, source.updateKey keys rng = none ∨
      ∃ key rng', source.updateKey keys rng = some (key, rng') ∧ key ∉ live ∧
        key < u64Space.maxKey

section Runs
variable {S W : Type} {index : PaperIndex S} {Standing : ℕ → S → Finset UInt64 → List Mark → Prop}
variable {source : KeySource W} {cfg : Options} {Ok : ℕ → ℕ → W → Finset UInt64 → Prop}

/-! ## Loading -/

/-- Loading new keys inserts them all. -/
theorem loadKeys_stands (hserves : Serves index Standing) {n : ℕ} {initial : List UInt64} :
    ∀ {s : S} {keys : Finset UInt64} {marks : List Mark},
      Standing (initial.length + n) s keys marks → initial.Nodup →
      (∀ key ∈ initial, key ∉ keys ∧ key < u64Space.maxKey) →
      ∃ s' marks', loadKeys index s initial = .ok s' ∧
        Standing n s' (keys ∪ initial.toFinset) marks' ∧
        (initial ≠ [] ∨ marks ≠ [] → marks' ≠ []) := by
  induction initial with
  | nil =>
    intro s keys marks hs _ _
    rw [List.length_nil, Nat.zero_add] at hs
    refine ⟨s, marks, rfl, ?_, fun h => h.resolve_left (fun hne => hne rfl)⟩
    rw [List.toFinset_nil, Finset.union_empty]
    exact hs
  | cons key initial ih =>
    intro s keys marks hs hnodup hnew
    rw [List.length_cons, Nat.add_right_comm] at hs
    obtain ⟨hkey, hnodup⟩ := List.nodup_cons.mp hnodup
    obtain ⟨hfresh, hlt⟩ := hnew key List.mem_cons_self
    have hfit : Fits keys (.insert key) := by
      constructor
      · exact hlt
      · intro key' heq
        cases heq
        exact hfresh
    obtain ⟨s₁, v, hrun, -, hs₁⟩ := hserves.effective hs hfit rfl
    obtain ⟨s', marks', hload, hs', hmarks⟩ := ih hs₁ hnodup (by
      intro other hother
      obtain ⟨hfresh', hlt'⟩ := hnew other (List.mem_cons_of_mem _ hother)
      refine ⟨fun hmem => ?_, hlt'⟩
      rcases Finset.mem_insert.mp hmem with rfl | hmem
      · exact hkey hother
      · exact hfresh' hmem)
    refine ⟨s', marks', ?_, ?_, fun _ => hmarks (.inr (List.cons_ne_nil _ _))⟩
    · simp only [loadKeys, PaperIndex.apply, hrun, hload, liftFault, bind, Except.bind, pure,
        Except.pure, Option.isSome_some]
    · rw [List.toFinset_cons, Finset.union_insert, ← Finset.insert_union]
      exact hs'

/-! ## One operation -/

/-- What a scan at a version will find after `c` operations. -/
def Seen (cfg : Options) (Ok : ℕ → ℕ → W → Finset UInt64 → Prop) (marks : List Mark) (c v : ℕ) :
    Prop :=
  0 < v ∧ ∃ live keys, (v, live) ∈ marks ∧
    Ok (cfg.before c .insert) (cfg.before c .delete) keys live

/-- The numbers of the operations of each kind among the first `n`. -/
def Options.statsAt (cfg : Options) (n : ℕ) : WriterStats :=
  ⟨cfg.before n .update, cfg.before n .insert, cfg.before n .delete, 0⟩

/-- The writer after `n` operations; `spare` operations more can fail. -/
structure Keeps (Standing : ℕ → S → Finset UInt64 → List Mark → Prop) (cfg : Options)
    (Ok : ℕ → ℕ → W → Finset UInt64 → Prop) (spare n : ℕ) (w : Writer S W)
    (live : Finset UInt64) (marks : List Mark) : Prop where
  standing : Standing (cfg.operations - n + spare) w.index live marks
  marked : marks ≠ []
  keys : Ok (cfg.before n .insert) (cfg.before n .delete) w.keys live
  stats : w.stats = cfg.statsAt n
  planned : w.plan.map (fun plan => plan.completed) =
    (historicalPlan cfg).map (fun plan => plan.completed)
  noted : ∀ plan, w.plan = some plan → Noted (Seen cfg Ok marks) n w.cursor plan

/-- What one operation leaves, before its version is noted. -/
structure Performed (Standing : ℕ → S → Finset UInt64 → List Mark → Prop) (cfg : Options)
    (Ok : ℕ → ℕ → W → Finset UInt64 → Prop) (spare n : ℕ) (marks : List Mark) (w w' : Writer S W)
    (v : ℕ) (live : Finset UInt64) : Prop where
  standing : Standing (cfg.operations - (n + 1) + spare) w'.index live ((v, live) :: marks)
  keys : Ok (cfg.before (n + 1) .insert) (cfg.before (n + 1) .delete) w'.keys live
  stats : w'.stats = cfg.statsAt (n + 1)
  cursor : w'.cursor = w.cursor
  plan : w'.plan = w.plan
  newer : ∀ m ∈ marks, m.1 < v

/-- An operation that is not an insert fits whatever is live. -/
theorem fits_other {live : Finset UInt64} (op : FileOp) (hlt : op.key < u64Space.maxKey)
    (hop : ∀ key, op ≠ .insert key) : Fits live op :=
  ⟨hlt, fun key heq => absurd heq (hop key)⟩

section Step
variable {retries spare n : ℕ} {w : Writer S W} {live : Finset UInt64} {marks : List Mark}

theorem perform_ready (retries : ℕ) (hserves : Serves index Standing)
    (hsource : Supplies source cfg.records cfg.operations Ok)
    (h : Keeps Standing cfg Ok spare n w live marks) (hn : n < cfg.operations)
    (hready : cfg.Ready n) : ∃ w' v live',
      perform index source (retries + 1) w (cfg.kind n) = .ok (w', v) ∧
      Performed Standing cfg Ok spare n marks w w' v live' := by
  have hstanding := h.standing
  have hnext : cfg.operations - n + spare = cfg.operations - (n + 1) + spare + 1 := by omega
  rw [hnext] at hstanding
  have hstats := h.stats
  have hinsert := cfg.before_succ n .insert
  have hdelete := cfg.before_succ n .delete
  have hupdate := cfg.before_succ n .update
  cases hkind : cfg.kind n with
  | insert =>
    simp only [hkind, if_true, reduceCtorEq, if_false, Nat.add_zero] at hinsert hdelete hupdate
    obtain ⟨hfit, hok⟩ := hsource.insert h.keys ((cfg.before_le n .insert).trans_lt hn)
    obtain ⟨s, v, hrun, hnewer, hs⟩ := hserves.effective hstanding hfit rfl
    refine ⟨w.inserted s (source.insertKey w.keys).2, v, _, ?_, hs, ?_, ?_, rfl, rfl, hnewer⟩
    · simp only [perform, hrun, liftFault, bind, Except.bind, pure, Except.pure]
    · rw [hinsert, hdelete]
      exact hok
    · simp only [Writer.inserted, hstats, Options.statsAt, hinsert, hdelete, hupdate]
  | delete =>
    simp only [hkind, if_true, reduceCtorEq, if_false, Nat.add_zero] at hinsert hdelete hupdate
    obtain ⟨key, keys', rng', htake, hmem, hlt, hok⟩ :=
      hsource.delete h.keys (hready (by rw [hkind]; exact WriteKind.noConfusion)) w.rng
    obtain ⟨s, v, hrun, hnewer, hs⟩ := hserves.effective hstanding
      (fits_other (.delete key) hlt (fun _ => FileOp.noConfusion)) (decide_eq_true hmem)
    refine ⟨w.deleted s keys' rng', v, _, ?_, hs, ?_, ?_, rfl, rfl, hnewer⟩
    · simp only [perform, htake, hrun, liftFault, bind, Except.bind, pure, Except.pure]
    · rw [hinsert, hdelete]
      exact hok
    · simp only [Writer.deleted, hstats, Options.statsAt, hinsert, hdelete, hupdate]
  | update =>
    simp only [hkind, if_true, reduceCtorEq, if_false, Nat.add_zero] at hinsert hdelete hupdate
    obtain ⟨key, rng', htake, hmem, hlt⟩ :=
      hsource.update h.keys (hready (by rw [hkind]; exact WriteKind.noConfusion)) w.rng
    obtain ⟨s, v, hrun, hnewer, hs⟩ := hserves.effective hstanding
      (fits_other (.update key) hlt (fun _ => FileOp.noConfusion)) (decide_eq_true hmem)
    refine ⟨w.updated s rng', v, _, ?_, hs, ?_, ?_, rfl, rfl, hnewer⟩
    · simp only [perform, updateLoop, htake, hrun, liftFault, bind, Except.bind, pure, Except.pure]
    · rw [hinsert, hdelete]
      exact h.keys
    · simp only [Writer.updated, hstats, Options.statsAt, hinsert, hdelete, hupdate]

/-- The updates of an empty window are tried for ever. -/
theorem updateLoop_stuck (hserves : Serves index Standing)
    (hsource : Supplies source cfg.records cfg.operations Ok) {i d n retries : ℕ}
    (hempty : d = cfg.records + i) (hroom : i < cfg.operations) : ∀ {w : Writer S W},
    Standing (n + retries) w.index live marks → Ok i d w.keys live →
    ∃ halt, updateLoop index source retries w = .error halt := by
  induction retries with
  | zero =>
    intro w _ _
    exact ⟨_, rfl⟩
  | succ retries ih =>
    intro w hs hok
    rcases hsource.updateEmpty hok hempty hroom w.rng with hnone | ⟨key, rng', htake, hmem, hlt⟩
    · refine ⟨.noKey, ?_⟩
      simp only [updateLoop, hnone]
    · obtain ⟨s, hrun, hs'⟩ := hserves.idle hs
        (fits_other (.update key) hlt (fun _ => FileOp.noConfusion)) (decide_eq_false hmem)
      obtain ⟨halt, hhalt⟩ := ih (w := w.retried s rng') hs' hok
      refine ⟨halt, ?_⟩
      simp only [updateLoop, htake, hrun, liftFault, bind, Except.bind, hhalt]

theorem perform_stuck (hserves : Serves index Standing)
    (hsource : Supplies source cfg.records cfg.operations Ok)
    (h : Keeps Standing cfg Ok retries n w live marks) (hn : n < cfg.operations)
    (hready : ¬cfg.Ready n) :
    ∃ halt, perform index source retries w (cfg.kind n) = .error halt := by
  unfold Options.Ready at hready
  rw [Classical.not_imp] at hready
  obtain ⟨hkind, hempty⟩ := hready
  have hall : cfg.before n .delete = cfg.records + cfg.before n .insert :=
    le_antisymm (hsource.le h.keys) (not_lt.mp hempty)
  cases hop : cfg.kind n with
  | insert => exact absurd hop hkind
  | delete =>
    refine ⟨.noKey, ?_⟩
    simp only [perform, hsource.deleteEmpty h.keys hall w.rng]
  | update =>
    exact updateLoop_stuck hserves hsource hall ((cfg.before_le n .insert).trans_lt hn)
      h.standing h.keys

/-- Noting the version completes an operation. -/
theorem Performed.keeps {w' : Writer S W} {v : ℕ} {live' : Finset UInt64}
    (hp : Performed Standing cfg Ok spare n marks w w' v live')
    (h : Keeps Standing cfg Ok spare n w live marks) :
    Keeps Standing cfg Ok spare (n + 1) (w'.record (n + 1) v) live' ((v, live') :: marks) := by
  have hpos : 0 < v := by
    obtain ⟨m, hm⟩ := List.exists_mem_of_ne_nil _ h.marked
    exact (Nat.zero_le _).trans_lt (hp.newer m hm)
  have hnew : Seen cfg Ok ((v, live') :: marks) (n + 1) v :=
    ⟨hpos, live', w'.keys, List.mem_cons_self, hp.keys⟩
  have hold : ∀ c v', Seen cfg Ok marks c v' → Seen cfg Ok ((v, live') :: marks) c v' := by
    intro c v' hs
    obtain ⟨hv, live₁, keys₁, hm, hok⟩ := hs
    exact ⟨hv, live₁, keys₁, List.mem_cons_of_mem _ hm, hok⟩
  unfold Writer.record
  cases hplan : w'.plan with
  | none =>
    refine ⟨hp.standing, List.cons_ne_nil _ _, hp.keys, hp.stats, hp.plan ▸ h.planned, ?_⟩
    intro plan heq
    rw [hplan] at heq
    cases heq
  | some plan =>
    have hsame : w.plan = some plan := hp.plan ▸ hplan
    have hnoted := ((h.noted plan hsame).mono hold).record hnew
    have hplanned := h.planned
    rw [hsame] at hplanned
    refine ⟨hp.standing, List.cons_ne_nil _ _, hp.keys, hp.stats, hplanned, ?_⟩
    intro plan' heq
    cases heq
    simp only [hp.cursor]
    exact hnoted

/-- A step of the run performs an operation and notes its version. -/
theorem writerStep_eq (retries n : ℕ) (w : Writer S W) : writerStep index source cfg retries w n =
    (perform index source retries w (cfg.kind n)).map (fun x => x.1.record (n + 1) x.2) := by
  unfold writerStep Options.kind
  cases perform index source retries w (writeKind n cfg.updateRate cfg.seed.toNat) with
  | error halt => rfl
  | ok x => rfl

end Step

/-! ## The writer -/

theorem writerRun_succ (retries n : ℕ) (w : Writer S W) :
    writerRun index source cfg retries w (n + 1) =
      (writerRun index source cfg retries w n).bind
        (fun w' => writerStep index source cfg retries w' n) := by
  unfold writerRun
  rw [List.range_succ, List.foldlM_append]
  simp only [List.foldlM_cons, List.foldlM_nil, bind_pure]
  rfl

/-- After `n` operations the run has come this far, or one of them had no live key to take. -/
theorem writerRun_prefix (hserves : Serves index Standing)
    (hsource : Supplies source cfg.records cfg.operations Ok) {retries : ℕ} {w : Writer S W}
    {live : Finset UInt64} {marks : List Mark}
    (h : Keeps Standing cfg Ok (retries + 1) 0 w live marks) {n : ℕ} (hn : n ≤ cfg.operations) :
    (∃ w' live' marks', writerRun index source cfg (retries + 1) w n = .ok w' ∧
        Keeps Standing cfg Ok (retries + 1) n w' live' marks' ∧ ∀ k < n, cfg.Ready k) ∨
      ((∃ halt, writerRun index source cfg (retries + 1) w n = .error halt) ∧
        ∃ k < n, ¬cfg.Ready k) := by
  induction n with
  | zero => exact .inl ⟨w, live, marks, rfl, h, fun k hk => absurd hk k.not_lt_zero⟩
  | succ n ih =>
    rw [writerRun_succ]
    rcases ih (Nat.le_of_succ_le hn) with ⟨w', live', marks', hrun, hkeeps, hready⟩ |
      ⟨⟨halt, hrun⟩, k, hk, hempty⟩
    · rw [hrun, Except.bind, writerStep_eq]
      by_cases hnext : cfg.Ready n
      · obtain ⟨w₁, v, live₁, hperform, hp⟩ := perform_ready retries hserves hsource hkeeps hn hnext
        rw [hperform]
        refine .inl ⟨w₁.record (n + 1) v, live₁, _, rfl, hp.keeps hkeeps, fun k hk => ?_⟩
        rcases Nat.lt_succ_iff_lt_or_eq.mp hk with hk | rfl
        · exact hready k hk
        · exact hnext
      · obtain ⟨halt, hperform⟩ := perform_stuck hserves hsource hkeeps hn hnext
        rw [hperform]
        exact .inr ⟨⟨halt, rfl⟩, n, n.lt_succ_self, hnext⟩
    · rw [hrun]
      exact .inr ⟨⟨halt, rfl⟩, k, hk.trans n.lt_succ_self, hempty⟩

/-! ## The scans -/

/-- The live keys are the ids from `lo` up to `hi`. -/
def Dense (lo hi : ℕ) (live : Finset UInt64) : Prop := ∀ k, k ∈ live ↔ lo ≤ k.toNat ∧ k.toNat < hi

/-- In range mode the live keys are a window of ids. -/
def InWindow (cfg : Options) (Ok : ℕ → ℕ → W → Finset UInt64 → Prop) : Prop :=
  cfg.scanMode = "range" → ∀ i d keys live, Ok i d keys live → Dense d (cfg.records + i) live

theorem Dense.card {lo hi : ℕ} {live : Finset UInt64} (h : Dense lo hi live) (hhi : hi ≤ 2 ^ 64) :
    live.card = hi - lo := by
  rw [← Nat.card_Ico]
  apply Finset.card_bij (fun k _ => k.toNat)
  · intro k hk
    rw [Finset.mem_Ico]
    exact (h k).mp hk
  · intro k _ k' _ heq
    exact UInt64.toNat_inj.mp heq
  · intro n hn
    rw [Finset.mem_Ico] at hn
    have hto : (UInt64.ofNat n).toNat = n := toNat_ofNat (by omega)
    refine ⟨.ofNat n, ?_, hto⟩
    rw [h, hto]
    exact hn

/-- A range of keys cuts a window out of the window. -/
theorem Dense.between {lo hi : ℕ} {live : Finset UInt64} (h : Dense lo hi live)
    (first last : UInt64) : Dense (max lo first.toNat) (min hi (last.toNat + 1))
      (live.filter (fun k => first ≤ k ∧ k ≤ last)) := by
  intro k
  rw [Finset.mem_filter, h, UInt64.le_iff_toNat_le, UInt64.le_iff_toNat_le]
  omega

/-- The number of live keys after `c` operations. -/
def Options.liveAt (cfg : Options) (c : ℕ) : ℕ :=
  cfg.records + cfg.before c .insert - cfg.before c .delete

/-- What a scan at the version of the `c`th operation finds. -/
def Options.found (cfg : Options) (c : ℕ) : ℕ :=
  if cfg.scanMode = "full" then cfg.liveAt c else min cfg.scanRange (cfg.liveAt c)

/-- The scan starts where the range fits, or at the first id when it does not fit. -/
theorem card_window {lo hi range : ℕ} {live : Finset UInt64} (hdense : Dense lo hi live)
    (hle : lo ≤ hi) (hhi : hi < 2 ^ 64) (hrange : 1 ≤ range) (hlt : range < 2 ^ 64) {offset : ℕ}
    (hoffset : offset < max (hi - lo - range + 1) 1) :
    (live.filter (fun k => UInt64.ofNat (lo + offset) ≤ k ∧
      k ≤ saturatingAdd (.ofNat (lo + offset)) (lastOffset (.ofNat range)))).card =
        min range (hi - lo) := by
  have hstart : (UInt64.ofNat (lo + offset)).toNat = lo + offset := toNat_ofNat (by omega)
  have hofNat : (UInt64.ofNat range).toNat = range := toNat_ofNat hlt
  have hlast : lastOffset (.ofNat range) = UInt64.ofNat range - 1 := by
    unfold lastOffset
    apply if_neg
    intro hzero
    rw [hzero] at hofNat
    have : (0 : UInt64).toNat = 0 := rfl
    omega
  rw [hlast, (hdense.between _ _).card (by omega), saturatingAdd_toNat _ hrange hlt, hstart]
  omega

/-- The closed form gives the counts of the prefix. -/
theorem structuralCounts_before (hrate : cfg.updateRate ≤ 100) (c : ℕ) :
    structuralCountsBefore c cfg.updateRate cfg.seed.toNat =
      (cfg.before c .insert, cfg.before c .delete) :=
  structuralCountsBefore_eq _ hrate c

section Scans
variable {plan : HistoricalPlan} {n : ℕ} {live : Finset UInt64} {marks : List Mark}

theorem historicalScan_found (hserves : Serves index Standing)
    (hsource : Supplies source cfg.records cfg.operations Ok) (hcfg : cfg.Checked)
    (hwords : cfg.records + cfg.operations < 2 ^ 64)
    (hdense : InWindow cfg Ok)
    {s : S} (hs : Standing n s live marks) {scan c v : ℕ}
    (hcompleted : plan.completed[scan]? = some c) (hversion : plan.versions[scan]? = some v)
    (hseen : Seen cfg Ok marks c v) (hc : c ≤ cfg.operations) (rng : Rng) :
    ∃ s' steps, (∀ fuel, steps ≤ fuel →
      historicalScan index cfg plan fuel s scan rng = .ok (s', cfg.found c)) ∧
        Standing n s' live marks := by
  obtain ⟨hpos, live', keys, hm, hok⟩ := hseen
  have hne : ¬v = 0 := hpos.ne'
  by_cases hfull : cfg.scanMode = "full"
  · obtain ⟨s', steps, hrun, hs'⟩ :=
      hserves.scan hs hm u64Space.minKey u64Space.maxKey (u64Space.min_le _)
    have hall : live'.filter (fun k => u64Space.minKey ≤ k ∧ k ≤ u64Space.maxKey) = live' :=
      Finset.filter_true_of_mem (fun k _ => ⟨u64Space.min_le k, u64Space.le_max k⟩)
    rw [hall, hsource.card hok] at hrun
    refine ⟨s', steps, fun fuel hfuel => ?_, hs'⟩
    have hscan : index.scanAt fuel s v = .ok (s', cfg.found c) := by
      unfold PaperIndex.scanAt Options.found Options.liveAt
      rw [if_pos hfull]
      exact hrun fuel hfuel
    simp only [historicalScan, hcompleted, hversion, hne, hfull, hscan, liftFault, if_true,
      if_false]
  · have hrange := hcfg.mode.resolve_right hfull
    have hle := hsource.le hok
    have hlast := cfg.before_le c .insert
    have hfits := hcfg.range_le hrange
    have hspan := hcfg.scanRange
    obtain ⟨offset, hdraw⟩ : ∃ offset, (rng.below (max (cfg.records + cfg.before c .insert -
        cfg.before c .delete - cfg.scanRange + 1) 1)).1 = offset := ⟨_, rfl⟩
    have hoffset := rng.below_lt (show 0 < max (cfg.records + cfg.before c .insert -
        cfg.before c .delete - cfg.scanRange + 1) 1 by omega)
    rw [hdraw] at hoffset
    have hcard := card_window (hdense hrange _ _ _ _ hok) hle (by omega) hspan (by omega) hoffset
    obtain ⟨s', steps, hrun, hs'⟩ := hserves.scanAtRange hs hm
      (.ofNat (cfg.before c .delete + offset)) (.ofNat cfg.scanRange)
    rw [hcard] at hrun
    refine ⟨s', steps, fun fuel hfuel => ?_, hs'⟩
    simp only [historicalScan, hcompleted, hversion, hne, hfull,
      structuralCounts_before hcfg.rate, hdraw, hrun fuel hfuel, liftFault, if_false, Options.found,
      Options.liveAt]

/-- What the scans find together. -/
def expected (cfg : Options) (plan : HistoricalPlan) (jobs : List (ℕ × Rng)) : ℕ :=
  (jobs.map (fun job => cfg.found (plan.completed.getD job.1 0))).sum

theorem historicalScans_found (hserves : Serves index Standing)
    (hsource : Supplies source cfg.records cfg.operations Ok) (hcfg : cfg.Checked)
    (hwords : cfg.records + cfg.operations < 2 ^ 64)
    (hdense : InWindow cfg Ok) {jobs : List (ℕ × Rng)}
    (hjobs : ∀ job ∈ jobs, ∃ c v, plan.completed[job.1]? = some c ∧
      plan.versions[job.1]? = some v ∧ Seen cfg Ok marks c v ∧ c ≤ cfg.operations) :
    ∀ {s : S}, Standing n s live marks → ∃ s' steps, ∀ fuel, steps ≤ fuel →
      historicalScans index cfg plan fuel s jobs = .ok (s', expected cfg plan jobs) := by
  induction jobs with
  | nil =>
    intro s hs
    exact ⟨s, 0, fun fuel _ => rfl⟩
  | cons job jobs ih =>
    intro s hs
    obtain ⟨c, v, hcompleted, hversion, hseen, hc⟩ := hjobs job List.mem_cons_self
    obtain ⟨s₁, steps₁, hscan, hs₁⟩ := historicalScan_found hserves hsource hcfg hwords hdense hs
      hcompleted hversion hseen hc job.2
    obtain ⟨s', steps, hscans⟩ := ih (fun job hjob => hjobs job (List.mem_cons_of_mem _ hjob)) hs₁
    refine ⟨s', max steps₁ steps, fun fuel hfuel => ?_⟩
    have hfirst := hscan fuel ((le_max_left _ _).trans hfuel)
    have hrest := hscans fuel ((le_max_right _ _).trans hfuel)
    have hget : plan.completed.getD job.1 0 = c := by
      rw [List.getD_eq_getElem?_getD, hcompleted, Option.getD_some]
    simp only [historicalScans, hfirst, hrest, bind, Except.bind, pure, Except.pure, expected,
      List.map_cons, List.sum_cons, hget]

end Scans

/-! ## Runs -/

/-- What a run delivers: whether it ends, its counts, and what its scans find, whichever
generator draws where they start. -/
structure Exact (index : PaperIndex S) (cfg : Options) (run : Except Halt (Writer S W)) : Prop where
  ends : (∃ w, run = .ok w) ↔ NeverEmpty cfg
  stats : ∀ w, run = .ok w → w.stats = cfg.statsAt cfg.operations
  planned : ∀ w, run = .ok w → w.plan.map (fun plan => plan.completed) =
    (historicalPlan cfg).map (fun plan => plan.completed)
  scans : ∀ w, run = .ok w → ∀ plan, w.plan = some plan → ∀ jobs : List (ℕ × Rng),
    (∀ job ∈ jobs, job.1 < cfg.historicalScans) → ∃ s steps, ∀ fuel, steps ≤ fuel →
      historicalScans index cfg plan fuel w.index jobs = .ok (s, expected cfg plan jobs)

/-- Every scan of the plan has its target among the operations. -/
theorem completed_of_planned (hcfg : cfg.Checked) {plan : HistoricalPlan}
    (hplanned : (some plan).map (fun plan => plan.completed) =
      (historicalPlan cfg).map (fun plan => plan.completed)) {scan : ℕ}
    (hscan : scan < cfg.historicalScans) :
    ∃ c, plan.completed[scan]? = some c ∧ c ≤ cfg.operations := by
  unfold historicalPlan at hplanned
  split_ifs at hplanned with hpos
  · have heq : plan.completed =
        drawCompleted cfg.operations cfg.historicalScans (.new (cfg.seed + 0x5CA9)) :=
      Option.some.inj hplanned
    have hlt : scan < plan.completed.length := by
      rw [heq, length_drawCompleted]
      exact hscan
    obtain ⟨c, hc⟩ : ∃ c, plan.completed[scan]? = some c := ⟨_, List.getElem?_eq_getElem hlt⟩
    have hmem := List.mem_of_getElem? hc
    rw [heq] at hmem
    exact ⟨c, hc, (mem_drawCompleted hcfg.operations _ _ _ hmem).2⟩
  · cases hplanned

theorem runWriter_exact (hserves : Serves index Standing)
    (hsource : Supplies source cfg.records cfg.operations Ok) (hcfg : cfg.Checked)
    (hwords : cfg.records + cfg.operations < 2 ^ 64)
    (hdense : InWindow cfg Ok) {retries : ℕ} {s : S} {initial : List UInt64}
    (hs : Standing (initial.length + (cfg.operations + (retries + 1))) s ∅ [])
    (hne : initial ≠ []) (hnodup : initial.Nodup)
    (hinitial : ∀ key ∈ initial, key < u64Space.maxKey) {keys : W}
    (hkeys : Ok 0 0 keys initial.toFinset) :
    Exact index cfg (runWriter index source cfg (retries + 1) initial keys s) := by
  obtain ⟨s₁, marks, hload, hs₁, hmarks⟩ := loadKeys_stands hserves hs hnodup
    (fun key hkey => ⟨Finset.notMem_empty key, hinitial key hkey⟩)
  rw [Finset.empty_union] at hs₁
  have hstart : Keeps Standing cfg Ok (retries + 1) 0 (S := S)
      ⟨s₁, keys, .new (cfg.seed + 1), ⟨0, 0, 0, 0⟩, 0, historicalPlan cfg⟩ initial.toFinset
      marks := by
    refine ⟨hs₁, hmarks (.inl hne), hkeys, rfl, rfl, ?_⟩
    intro plan hplan
    unfold historicalPlan at hplan
    split_ifs at hplan
    cases hplan
    exact noted_new _ hcfg.operations cfg.seed
  have hrun : runWriter index source cfg (retries + 1) initial keys s =
      writerRun index source cfg (retries + 1)
        ⟨s₁, keys, .new (cfg.seed + 1), ⟨0, 0, 0, 0⟩, 0, historicalPlan cfg⟩ cfg.operations := by
    unfold runWriter
    rw [hload]
    rfl
  rw [hrun]
  rcases writerRun_prefix hserves hsource hstart le_rfl with
    ⟨w, live, marks', hok, hkeeps, hready⟩ | ⟨⟨halt, hhalt⟩, n, hn, hempty⟩
  · rw [hok]
    constructor
    · exact ⟨fun _ => hready, fun _ => ⟨w, rfl⟩⟩
    · intro w' heq
      cases heq
      exact hkeeps.stats
    · intro w' heq
      cases heq
      exact hkeeps.planned
    · intro w' heq plan hplan jobs hjobs
      cases heq
      have hnoted := hkeeps.noted plan hplan
      have hplanned := hkeeps.planned
      rw [hplan] at hplanned
      refine historicalScans_found hserves hsource hcfg hwords hdense ?_ hkeeps.standing
      intro job hjob
      obtain ⟨c, hcompleted, hc⟩ := completed_of_planned hcfg hplanned (hjobs job hjob)
      have hmem : (c, job.1) ∈ plan.ordered := (hnoted.lists (c, job.1)).mpr hcompleted
      rw [← List.take_append_drop w.cursor plan.ordered] at hmem
      rcases List.mem_append.mp hmem with hmem | hmem
      · obtain ⟨-, v, hversion, hseen⟩ := hnoted.done _ hmem
        exact ⟨c, v, hcompleted, hversion, hseen, hc⟩
      · exact absurd hc (not_le.mpr (hnoted.behind _ hmem))
  · rw [hhalt]
    constructor
    · constructor
      · intro h
        obtain ⟨w, hw⟩ := h
        cases hw
      · intro hnever
        exact absurd (hnever n hn) hempty
    all_goals
      intro w hw
      cases hw

end Runs

/-! ## Sliding keys -/

/-- The window of one writer: everything that is inserted is published. -/
structure SlidingOk (cfg : Options) (i d : ℕ) (keys : OnlineKeys) (live : Finset UInt64) :
    Prop where
  le : d ≤ cfg.records + i
  room : i ≤ cfg.operations
  initial : keys.initial = cfg.records
  reserved : keys.reserved = cfg.records + i
  published : keys.published = cfg.records + i
  expired : keys.expired = d
  inserted : keys.inserted = List.replicate i true ++ List.replicate (cfg.operations - i) false
  dense : Dense d (cfg.records + i) live

/-- The flags after the next insert. -/
theorem set_next (i m : ℕ) :
    (List.replicate i true ++ List.replicate (m + 1) false).set i true =
      List.replicate i true ++ true :: List.replicate m false := by
  rw [List.set_append_right _ _ (by rw [List.length_replicate]), List.length_replicate,
    Nat.sub_self, List.replicate_succ, List.set_cons_zero]

/-- Setting the next flag publishes one key. -/
theorem advance_next (i m published : ℕ) :
    advanceFrom ((List.replicate i true ++ true :: List.replicate m false).drop i) published =
      published + 1 := by
  rw [List.drop_append_of_le_length (by rw [List.length_replicate]),
    List.drop_of_length_le (by rw [List.length_replicate]), List.nil_append, advanceFrom]
  cases m with
  | zero => rfl
  | succ m => rfl

section Sliding
variable {cfg : Options} (hwords : cfg.records + cfg.operations < 2 ^ 64) (chooser : KeyChooser)

theorem ofNat_lt_max {n : ℕ} (hn : n < 2 ^ 64 - 1) : UInt64.ofNat n < u64Space.maxKey := by
  have hto : (UInt64.ofNat n).toNat = n := toNat_ofNat (by omega)
  rw [UInt64.lt_iff_toNat_lt, hto]
  exact hn

/-- A chosen id lies in the window of ids when there is one. -/
theorem sampleLive_mem {i d : ℕ} {keys : OnlineKeys} {live : Finset UInt64}
    (h : SlidingOk cfg i d keys live) (rng : Rng) :
    d ≤ (sampleLive keys chooser rng).1 ∧
      (sampleLive keys chooser rng).1 ≤ max (cfg.records + i - 1) d := by
  have hmem := chooser.next_mem rng (le_max_right (cfg.records + i - 1) d)
  unfold sampleLive
  rw [h.published, h.expired]
  exact hmem

include hwords in
theorem sliding_supplies :
    Supplies (slidingKeys chooser) cfg.records cfg.operations (SlidingOk cfg) where
  le h := h.le
  card {i d keys live} h := by
    have := h.room
    exact h.dense.card (by omega)
  insert {i d keys live} h hroom := by
    obtain ⟨m, hm⟩ : ∃ m, cfg.operations - i = m + 1 := ⟨cfg.operations - i - 1, by omega⟩
    have hto : (UInt64.ofNat (cfg.records + i)).toNat = cfg.records + i := toNat_ofNat (by omega)
    have hindex : cfg.records + i - cfg.records = i := by omega
    have hflags := h.inserted
    rw [hm] at hflags
    simp only [slidingKeys, reserveInsert, publishInsert, h.reserved]
    constructor
    · constructor
      · exact ofNat_lt_max (by omega)
      · intro key heq hmem
        cases heq
        rw [h.dense, hto] at hmem
        omega
    · constructor
      · have := h.le
        omega
      · exact hroom
      · exact h.initial
      · rfl
      · simp only [h.initial, h.published, hindex, hflags, set_next, advance_next]
        rfl
      · exact h.expired
      · simp only [h.initial, hindex, hflags, set_next]
        rw [show cfg.operations - (i + 1) = m by omega, List.replicate_succ', List.append_assoc,
          List.singleton_append]
      · intro k
        rw [Finset.mem_insert, h.dense, ← UInt64.toNat_inj, hto]
        have := h.le
        omega
  delete {i d keys live} h hlt rng := by
    have hroom := h.room
    have hto : (UInt64.ofNat d).toNat = d := toNat_ofNat (by omega)
    refine ⟨.ofNat d, { keys with expired := d + 1, returned := d :: keys.returned }, rng, ?_, ?_,
      ?_, ?_⟩
    · simp only [slidingKeys, reserveDelete, h.published, h.expired, if_neg (not_le.mpr hlt),
        Option.map_some]
    · rw [h.dense, hto]
      omega
    · exact ofNat_lt_max (by omega)
    · refine ⟨hlt, hroom, h.initial, h.reserved, h.published, rfl, h.inserted, fun k => ?_⟩
      rw [Finset.mem_erase, h.dense, Ne, ← UInt64.toNat_inj, hto]
      omega
  update {i d keys live} h hlt rng := by
    have hroom := h.room
    obtain ⟨hlow, hhigh⟩ := sampleLive_mem chooser h rng
    have hto : (UInt64.ofNat (sampleLive keys chooser rng).1).toNat =
        (sampleLive keys chooser rng).1 := toNat_ofNat (by omega)
    refine ⟨.ofNat (sampleLive keys chooser rng).1, (sampleLive keys chooser rng).2, rfl, ?_,
      ofNat_lt_max (by omega)⟩
    rw [h.dense, hto]
    omega
  deleteEmpty {i d keys live} h hall rng := by
    simp only [slidingKeys, reserveDelete, h.published, h.expired, hall, le_refl, if_true,
      Option.map_none]
  updateEmpty {i d keys live} h hall hroom rng := by
    obtain ⟨hlow, hhigh⟩ := sampleLive_mem chooser h rng
    have hto : (UInt64.ofNat (sampleLive keys chooser rng).1).toNat =
        (sampleLive keys chooser rng).1 := toNat_ofNat (by omega)
    refine .inr ⟨.ofNat (sampleLive keys chooser rng).1, (sampleLive keys chooser rng).2, rfl, ?_,
      ofNat_lt_max (by omega)⟩
    rw [h.dense, hto]
    omega

/-- The loaded ids are the first window. -/
theorem slidingOk_new (hrecords : cfg.records < 2 ^ 64) :
    SlidingOk cfg 0 0 (.new cfg.records cfg.operations)
      ((List.range cfg.records).map UInt64.ofNat).toFinset where
  le := Nat.zero_le _
  room := Nat.zero_le _
  initial := rfl
  reserved := rfl
  published := rfl
  expired := rfl
  inserted := rfl
  dense k := by
    rw [List.mem_toFinset, List.mem_map]
    constructor
    · intro h
      obtain ⟨id, hid, rfl⟩ := h
      rw [List.mem_range] at hid
      have hto : (UInt64.ofNat id).toNat = id := toNat_ofNat (by omega)
      rw [hto]
      omega
    · intro h
      exact ⟨k.toNat, List.mem_range.mpr h.2, UInt64.ofNat_toNat⟩

end Sliding

/-! ## Random keys -/

theorem swapRemove_perm {A : Type} {xs : List A} {rank : ℕ} (h : rank < xs.length) :
    ∃ x rest, swapRemove xs rank = some (x, rest) ∧ xs.Perm (x :: rest) := by
  rcases List.eq_nil_or_concat xs with rfl | ⟨init, last, rfl⟩
  · exact absurd h rank.not_lt_zero
  rw [List.concat_eq_append, List.length_append, List.length_singleton] at h
  rw [List.concat_eq_append]
  have hlast : (init ++ [last]).getLast? = some last := List.getLast?_concat
  rcases Nat.lt_succ_iff_lt_or_eq.mp h with hlt | rfl
  · refine ⟨init[rank], init.set rank last, ?_, ?_⟩
    · have hget : (init ++ [last])[rank]? = some init[rank] := by
        rw [List.getElem?_append_left hlt, List.getElem?_eq_getElem hlt]
      simp only [swapRemove, hget, hlast, bind, Option.bind, pure, List.set_append_left _ _ hlt,
        List.dropLast_concat]
    · have hset := List.set_perm_cons_eraseIdx hlt last
      have hinit := List.getElem_cons_eraseIdx_perm hlt
      exact (List.perm_append_singleton last init).trans ((hinit.symm.cons last).trans
        ((List.Perm.swap _ _ _).trans (hset.symm.cons _)))
  · refine ⟨last, init, ?_, List.perm_append_singleton last init⟩
    have hget : (init ++ [last])[init.length]? = some last := List.getElem?_concat_length
    have hset : (init ++ [last]).set init.length last = init ++ [last] := by
      rw [List.set_append_right _ _ le_rfl, Nat.sub_self, List.set_cons_zero]
    simp only [swapRemove, hget, hlast, hset, bind, Option.bind, pure, List.dropLast_concat]

/-- The list holds the live keys, which are those of some ids that were used. -/
structure RandomOk (cfg : Options) (i d : ℕ) (keys : RandomKeys) (live : Finset UInt64) : Prop where
  nextId : keys.nextId = cfg.records + i
  room : i ≤ cfg.operations
  length : keys.live.length + d = cfg.records + i
  nodup : keys.live.Nodup
  mem : ∀ k, k ∈ live ↔ k ∈ keys.live
  used : ∀ k ∈ keys.live, ∃ id < cfg.records + i, paperKey (.ofNat id) cfg.seed = k

/-- No id of the run has the border as its key. -/
def BelowBorder (cfg : Options) : Prop :=
  ∀ id < cfg.records + cfg.operations, paperKey (.ofNat id) cfg.seed < u64Space.maxKey

section Random
variable {cfg : Options} (hwords : cfg.records + cfg.operations < 2 ^ 64)
  (hborder : BelowBorder cfg) (chooser : KeyChooser)

/-- Two ids of the run have two keys. -/
theorem paperKey_inj {seed : UInt64} {a b : ℕ} (ha : a < 2 ^ 64) (hb : b < 2 ^ 64)
    (h : paperKey (.ofNat a) seed = paperKey (.ofNat b) seed) : a = b := by
  have hwords := congrArg UInt64.toNat ((paperKey_bijective seed).1 h)
  rw [toNat_ofNat ha, toNat_ofNat hb] at hwords
  exact hwords

include hborder in
theorem RandomOk.below {i d : ℕ} {keys : RandomKeys} {live : Finset UInt64}
    (h : RandomOk cfg i d keys live) {key : UInt64} (hkey : key ∈ keys.live) :
    key < u64Space.maxKey := by
  obtain ⟨id, hid, rfl⟩ := h.used key hkey
  exact hborder id (hid.trans_le (Nat.add_le_add_left h.room _))

/-- A rank that is drawn is one of a live key. -/
theorem RandomOk.rank {i d : ℕ} {keys : RandomKeys} {live : Finset UInt64}
    (h : RandomOk cfg i d keys live) (hlt : d < cfg.records + i) (rng : Rng) :
    (chooser.next rng 0 (keys.live.length - 1)).1 < keys.live.length := by
  have hlength := h.length
  have := (chooser.next_mem rng (Nat.zero_le (keys.live.length - 1))).2
  omega

include hwords hborder in
theorem random_supplies :
    Supplies (randomKeys cfg chooser) cfg.records cfg.operations (RandomOk cfg) where
  le {i d keys live} h := by
    have := h.length
    omega
  card {i d keys live} h := by
    have hset : live = keys.live.toFinset := by
      ext k
      rw [h.mem, List.mem_toFinset]
    have := h.length
    rw [hset, List.toFinset_card_of_nodup h.nodup]
    omega
  insert {i d keys live} h hroom := by
    have hfresh : paperKey (.ofNat (cfg.records + i)) cfg.seed ∉ keys.live := by
      intro hmem
      obtain ⟨id, hid, heq⟩ := h.used _ hmem
      have := paperKey_inj (by omega) (by omega) heq
      omega
    have hlength := h.length
    simp only [randomKeys, h.nextId]
    constructor
    · constructor
      · exact hborder _ (by omega)
      · intro key heq hmem
        cases heq
        exact hfresh ((h.mem _).mp hmem)
    · refine ⟨rfl, hroom, ?_, ?_, fun k => ?_, fun k hk => ?_⟩
      · rw [List.length_append, List.length_singleton]
        omega
      · rw [← List.concat_eq_append]
        exact h.nodup.concat hfresh
      · rw [Finset.mem_insert, h.mem, List.mem_append, List.mem_singleton, or_comm]
      · rcases List.mem_append.mp hk with hk | hk
        · obtain ⟨id, hid, heq⟩ := h.used k hk
          exact ⟨id, hid.trans (Nat.lt_succ_self _), heq⟩
        · rw [List.mem_singleton] at hk
          exact ⟨cfg.records + i, Nat.lt_succ_self _, hk.symm⟩
  delete {i d keys live} h hlt rng := by
    have hlength := h.length
    have hne : ¬keys.live.length = 0 := by omega
    obtain ⟨key, rest, htake, hperm⟩ := swapRemove_perm (h.rank chooser hlt rng)
    have hkey : key ∈ keys.live := hperm.mem_iff.mpr List.mem_cons_self
    have hnodup := hperm.nodup_iff.mp h.nodup
    refine ⟨key, { keys with live := rest }, (chooser.next rng 0 (keys.live.length - 1)).2, ?_,
      (h.mem key).mpr hkey, h.below hborder hkey, h.nextId, h.room, ?_, hnodup.of_cons, fun k => ?_,
      fun k hk => h.used k (hperm.mem_iff.mpr (List.mem_cons_of_mem _ hk))⟩
    · simp only [randomKeys, hne, if_false, htake, Option.map_some]
    · have := hperm.length_eq
      rw [List.length_cons] at this
      simp only
      omega
    · rw [Finset.mem_erase, h.mem, hperm.mem_iff, List.mem_cons]
      constructor
      · intro hk
        exact hk.2.resolve_left hk.1
      · intro hk
        refine ⟨fun heq => ?_, .inr hk⟩
        exact (List.nodup_cons.mp hnodup).1 (heq ▸ hk)
  update {i d keys live} h hlt rng := by
    have hlength := h.length
    have hne : ¬keys.live.length = 0 := by omega
    have hrank := h.rank chooser hlt rng
    have hkey := List.getElem_mem hrank
    refine ⟨_, (chooser.next rng 0 (keys.live.length - 1)).2, ?_, (h.mem _).mpr hkey,
      h.below hborder hkey⟩
    simp only [randomKeys, hne, if_false, List.getElem?_eq_getElem hrank, Option.map_some]
  deleteEmpty {i d keys live} h hall rng := by
    have hlength := h.length
    have hzero : keys.live.length = 0 := by omega
    simp only [randomKeys, hzero, if_true]
  updateEmpty {i d keys live} h hall hroom rng := by
    have hlength := h.length
    have hzero : keys.live.length = 0 := by omega
    simp only [randomKeys, hzero, if_true, true_or]

theorem randomOk_new (hrecords : cfg.records < 2 ^ 64) :
    RandomOk cfg 0 0
      ⟨(List.range cfg.records).map (fun id => paperKey (.ofNat id) cfg.seed), cfg.records⟩
      ((List.range cfg.records).map (fun id => paperKey (.ofNat id) cfg.seed)).toFinset where
  nextId := rfl
  room := Nat.zero_le _
  length := by rw [List.length_map, List.length_range, Nat.add_zero]
  nodup := by
    apply List.Nodup.map_on _ List.nodup_range
    intro a ha b hb heq
    rw [List.mem_range] at ha hb
    exact paperKey_inj (ha.trans hrecords) (hb.trans hrecords) heq
  mem k := List.mem_toFinset
  used k hk := by
    obtain ⟨id, hid, heq⟩ := List.mem_map.mp hk
    exact ⟨id, List.mem_range.mp hid, heq⟩

end Random

/-! ## Both systems -/

section Systems
open PageModel hiding Node
open CMVBT.Tree WritePath NewPages FreshTree
variable {cfg : Options} (chooser : KeyChooser) (retries : ℕ)

/-- The generic result for sliding keys. -/
theorem runSliding_exact {S : Type} {index : PaperIndex S}
    {Standing : ℕ → S → Finset UInt64 → List Mark → Prop} (hserves : Serves index Standing)
    (hcfg : cfg.Checked) (hwords : cfg.records + cfg.operations < 2 ^ 64) {s : S}
    (hs : Standing (cfg.records + (cfg.operations + (retries + 1))) s ∅ []) :
    Exact index cfg (runSliding index cfg chooser (retries + 1) s) := by
  have hpos := hcfg.records
  have hopers := hcfg.operations
  have hto : ∀ id < cfg.records, (UInt64.ofNat id).toNat = id := fun id hid =>
    toNat_ofNat (by omega)
  apply runWriter_exact hserves (sliding_supplies hwords chooser) hcfg hwords
  · intro _ i d keys live h
    exact h.dense
  · rw [List.length_map, List.length_range]
    exact hs
  · intro hnil
    rw [List.map_eq_nil_iff, List.range_eq_nil] at hnil
    omega
  · apply List.Nodup.map_on _ List.nodup_range
    intro a ha b hb heq
    rw [List.mem_range] at ha hb
    have := congrArg UInt64.toNat heq
    rwa [hto a ha, hto b hb] at this
  · intro key hkey
    obtain ⟨id, hid, rfl⟩ := List.mem_map.mp hkey
    rw [List.mem_range] at hid
    exact ofNat_lt_max (by omega)
  · exact slidingOk_new (by omega)

/-- The generic result for random keys. -/
theorem runRandom_exact {S : Type} {index : PaperIndex S}
    {Standing : ℕ → S → Finset UInt64 → List Mark → Prop} (hserves : Serves index Standing)
    (hcfg : cfg.Checked) (hwords : cfg.records + cfg.operations < 2 ^ 64)
    (hborder : BelowBorder cfg) (hfull : cfg.scanMode = "full") {s : S}
    (hs : Standing (cfg.records + (cfg.operations + (retries + 1))) s ∅ []) :
    Exact index cfg (runRandom index cfg chooser (retries + 1) s) := by
  have hpos := hcfg.records
  have hok : RandomOk cfg 0 0 _ _ := randomOk_new (by omega)
  apply runWriter_exact hserves (random_supplies hwords hborder chooser) hcfg hwords
  · intro hrange
    rw [hfull] at hrange
    exact absurd hrange (by decide)
  · rw [List.length_map, List.length_range]
    exact hs
  · intro hnil
    rw [List.map_eq_nil_iff, List.range_eq_nil] at hnil
    omega
  · exact hok.nodup
  · intro key hkey
    exact hok.below hborder hkey
  · exact hok

/-- The experiment with sliding keys and one writer alone, on the tree and on the version lists:
it ends exactly when the live keys never run out, every operation takes effect at its first
try, and every scan of the plan counts as many records as the mix leaves in its range. -/
theorem sliding_runs_exact (hcheck : cfg.check = .ok ()) (hsolo : cfg.Solo)
    (hwords : cfg.records + cfg.operations < 2 ^ 64) {tree : Config UInt64}
    (hroomy : Roomy tree) (htree : tree.keys = u64Space) (tosses : ℕ → FrugalList.Toss)
    (threads tid : ℕ) {skipMap : OrderedMap.Mutable (VersionChain.RecordInfo UInt64)}
    (lists : BaselineTree.Config UInt64 skipMap) (hlists : lists.keys = u64Space)
    (coins : ℕ → Bool) {steps : ℕ}
    (hsteps : 2 * (cfg.records + (cfg.operations + (retries + 1))) + 3 ≤ steps)
    (hversions : cfg.records + (cfg.operations + (retries + 1)) < 2 ^ 63) :
    Exact (cmvbt tree) cfg
        (runSliding (cmvbt tree) cfg chooser (retries + 1) (newTree cfg.gc tosses threads tid)) ∧
      Exact (versionLists lists steps) cfg (runSliding (versionLists lists steps) cfg chooser
        (retries + 1) ⟨BaselineTree.newWith, coins⟩) := by
  rw [hsolo.gc]
  exact ⟨runSliding_exact chooser retries (cmvbt_serves hroomy htree) (Options.checked hcheck)
      hwords (stands_make tree tosses threads tid),
    runSliding_exact chooser retries (versionLists_serves hlists) (Options.checked hcheck) hwords
      (standsList_new coins hsteps hversions)⟩

/-- The same with random keys and full scans: every scan counts all records that are live at
its version. -/
theorem random_runs_exact (hcheck : cfg.check = .ok ()) (hsolo : cfg.Solo)
    (hwords : cfg.records + cfg.operations < 2 ^ 64) (hborder : BelowBorder cfg)
    (hfull : cfg.scanMode = "full") {tree : Config UInt64}
    (hroomy : Roomy tree) (htree : tree.keys = u64Space) (tosses : ℕ → FrugalList.Toss)
    (threads tid : ℕ) {skipMap : OrderedMap.Mutable (VersionChain.RecordInfo UInt64)}
    (lists : BaselineTree.Config UInt64 skipMap) (hlists : lists.keys = u64Space)
    (coins : ℕ → Bool) {steps : ℕ}
    (hsteps : 2 * (cfg.records + (cfg.operations + (retries + 1))) + 3 ≤ steps)
    (hversions : cfg.records + (cfg.operations + (retries + 1)) < 2 ^ 63) :
    Exact (cmvbt tree) cfg
        (runRandom (cmvbt tree) cfg chooser (retries + 1) (newTree cfg.gc tosses threads tid)) ∧
      Exact (versionLists lists steps) cfg (runRandom (versionLists lists steps) cfg chooser
        (retries + 1) ⟨BaselineTree.newWith, coins⟩) := by
  rw [hsolo.gc]
  exact ⟨runRandom_exact chooser retries (cmvbt_serves hroomy htree) (Options.checked hcheck)
      hwords hborder hfull (stands_make tree tosses threads tid),
    runRandom_exact chooser retries (versionLists_serves hlists) (Options.checked hcheck) hwords
      hborder hfull (standsList_new coins hsteps hversions)⟩

end Systems

/-- The uniform choice of keys. -/
def uniformChooser : KeyChooser :=
  ⟨.uniform, 2000000, ⟨fun rng => (0, rng), 0, fun rng => (false, rng)⟩, none⟩

/-- The default numbers, with one writer and a hundred scans. -/
def defaultRun : Options where
  records := 2000000
  operations := 1000000
  updateRate := 60
  distribution := "uniform"
  theta := .positive
  writers := 1
  readers := 0
  historicalScans := 100
  scanRange := 100000
  scanMode := "range"
  keyMode := "sliding"
  scanThreads := 1
  gc := false
  seed := 42

theorem sliding_runs_exact_default : (∃ w, runSliding (cmvbt ⟨125, 125, u64Space⟩) defaultRun
      uniformChooser 1 (FreshTree.newTree false (fun _ => .next) 2 0) = .ok w) ∧
    ∃ w, runSliding (versionLists frugalLists 6000010) defaultRun uniformChooser 1
      ⟨BaselineTree.newWith, fun _ => true⟩ = .ok w := by
  obtain ⟨htree, hlists⟩ := sliding_runs_exact uniformChooser 0
    (show defaultRun.check = .ok () from rfl) ⟨rfl, rfl, rfl⟩ (by decide)
    (NewPages.roomy_of_capacity (.inl rfl) u64Space) rfl (fun _ => .next) 2 0 frugalLists rfl
    (fun _ => true) (show _ ≤ 6000010 by decide) (by decide)
  have hnever : NeverEmpty defaultRun := neverEmpty_of_records (by decide) (by decide)
  exact ⟨htree.ends.mpr hnever, hlists.ends.mpr hnever⟩

/-- Three records under random keys, one insert, two deletes and one more insert. -/
def smallRun : Options where
  records := 3
  operations := 4
  updateRate := 0
  distribution := "zipf"
  theta := .zero
  writers := 1
  readers := 0
  historicalScans := 4
  scanRange := 5
  scanMode := "full"
  keyMode := "random"
  scanThreads := 2
  gc := false
  seed := 42

theorem random_runs_exact_small : (∃ w, runRandom (cmvbt ⟨125, 125, u64Space⟩) smallRun
      uniformChooser 1 (FreshTree.newTree false (fun _ => .next) 2 0) = .ok w) ∧
    ∃ w, runRandom (versionLists frugalLists 19) smallRun uniformChooser 1
      ⟨BaselineTree.newWith, fun _ => true⟩ = .ok w := by
  have hborder : BelowBorder smallRun := by
    unfold BelowBorder
    decide
  obtain ⟨htree, hlists⟩ := random_runs_exact uniformChooser 0
    (show smallRun.check = .ok () from rfl) ⟨rfl, rfl, rfl⟩ (by decide) hborder rfl
    (NewPages.roomy_of_capacity (.inl rfl) u64Space) rfl (fun _ => .next) 2 0 frugalLists rfl
    (fun _ => true) (show _ ≤ 19 by decide) (by decide)
  have hnever : NeverEmpty smallRun := by
    unfold NeverEmpty Options.Ready
    decide
  exact ⟨htree.ends.mpr hnever, hlists.ends.mpr hnever⟩

end CMVBT.OnlineWorkload
