import CMVBT.BaselineScan
import CMVBT.ScanWindow

/-!
# The systems of the experiments behind one interface

The drivers know a system by what it answers to single operations and to range
scans. `Serves` says what they rely on: an operation takes effect when the map of
live keys allows it and commits at a new version, and a scan at a committed version
counts the keys that were live then. The tree and the version lists both serve, so
a driver cannot tell them apart except by the versions.
-/
namespace CMVBT.PaperSystems
open PageModel hiding Node
open KeyInterval VersionedLog CommitClock CMVBT.Tree WritePath ReadPath TreeInvariant Reference
open FreshTree ReaderHistory SnapshotRead RangeScan ReaderBalance Coupling ReaderSnapshot
open NewPages WriteOperations ScanWindow ScanRounds
open WorkloadFile (queryOp)
open WorkloadFile.Paper (FileOp)

/-! ## The interface -/

/-- The trait without the bookkeeping of its engines. `rangeCount` is the length of what
a range read at a version returns; its first argument bounds the loops. -/
structure PaperIndex (S : Type) where
  applyVersioned : S → FileOp → Except Fault (S × Option ℕ)
  rangeCount : ℕ → S → Interval UInt64 → ℕ → Except Fault (S × ℕ)

section Calls
variable {S : Type} (index : PaperIndex S)

def PaperIndex.apply (s : S) (op : FileOp) : Except Fault (S × Bool) := do
  let (s, version) ← index.applyVersioned s op
  return (s, version.isSome)

/-- `len.saturating_sub(1)` -/
def lastOffset (len : UInt64) : UInt64 := if len = 0 then 0 else len - 1

def PaperIndex.scanAtRange (fuel : ℕ) (s : S) (start len : UInt64) (version : ℕ) :
    Except Fault (S × ℕ) :=
  index.rangeCount fuel s ⟨start, saturatingAdd start (lastOffset len)⟩ version

def PaperIndex.scanAt (fuel : ℕ) (s : S) (version : ℕ) : Except Fault (S × ℕ) :=
  index.rangeCount fuel s ⟨u64Space.minKey, u64Space.maxKey⟩ version

structure OltpCounts where
  executed : ℕ
  failed : ℕ
deriving DecidableEq, Repr

/-- The loop of `apply_all`, together with the versions of the operations. -/
def PaperIndex.applyAll (s : S) (counts : OltpCounts) :
    List FileOp → Except Fault (S × OltpCounts × List (Option ℕ))
  | [] => .ok (s, counts, [])
  | op :: ops => do
    let (s, version) ← index.applyVersioned s op
    let counts := ⟨counts.executed + 1, counts.failed + if version.isSome then 0 else 1⟩
    let (s, counts, versions) ← applyAll s counts ops
    return (s, counts, version :: versions)

end Calls

/-! ## What the drivers rely on -/

/-- The live keys after an operation. -/
def liveAfter (keys : Finset UInt64) : FileOp → Finset UInt64
  | .insert key => insert key keys
  | .update _ => keys
  | .delete key => keys.erase key

/-- Whether an operation takes effect. -/
def takesEffect (keys : Finset UInt64) : FileOp → Bool
  | .insert _ => true
  | .update key => decide (key ∈ keys)
  | .delete key => decide (key ∈ keys)

/-- An operation below the border whose insertion is one of a new key. -/
def Fits (keys : Finset UInt64) (op : FileOp) : Prop :=
  op.key < u64Space.maxKey ∧ ∀ key, op = .insert key → key ∉ keys

instance (keys : Finset UInt64) (op : FileOp) : Decidable (Fits keys op) :=
  match op with
  | .insert key =>
    decidable_of_iff (key < u64Space.maxKey ∧ key ∉ keys) (by simp [Fits, FileOp.key])
  | .update key => decidable_of_iff (key < u64Space.maxKey) (by simp [Fits, FileOp.key])
  | .delete key => decidable_of_iff (key < u64Space.maxKey) (by simp [Fits, FileOp.key])

/-- A version at which an operation committed, and the keys that were live then. -/
abbrev Mark := ℕ × Finset UInt64

/-- `Standing n s keys marks` says that `s` can take `n` more operations, that `keys` are live and
that each mark can be read. -/
structure Serves {S : Type} (index : PaperIndex S)
    (Standing : ℕ → S → Finset UInt64 → List Mark → Prop) : Prop where
  effective {n : ℕ} {s : S} {keys : Finset UInt64} {marks : List Mark} {op : FileOp} :
    Standing (n + 1) s keys marks → Fits keys op → takesEffect keys op = true →
    ∃ s' v, index.applyVersioned s op = .ok (s', some v) ∧ (∀ m ∈ marks, m.1 < v) ∧
      Standing n s' (liveAfter keys op) ((v, liveAfter keys op) :: marks)
  idle {n : ℕ} {s : S} {keys : Finset UInt64} {marks : List Mark} {op : FileOp} :
    Standing (n + 1) s keys marks → Fits keys op → takesEffect keys op = false →
    ∃ s', index.applyVersioned s op = .ok (s', none) ∧ Standing n s' keys marks
  scan {n : ℕ} {s : S} {keys : Finset UInt64} {marks : List Mark} {m : Mark} :
    Standing n s keys marks → m ∈ marks → ∀ lo hi, lo ≤ hi → ∃ s' steps,
      (∀ fuel, steps ≤ fuel → index.rangeCount fuel s ⟨lo, hi⟩ m.1 =
        .ok (s', (m.2.filter (fun k => lo ≤ k ∧ k ≤ hi)).card)) ∧ Standing n s' keys marks

section Runs
variable {S : Type} {index : PaperIndex S} {Standing : ℕ → S → Finset UInt64 → List Mark → Prop}

/-- Every operation of a sequence fits the keys that are live before it. -/
def FitAll : Finset UInt64 → List FileOp → Prop
  | _, [] => True
  | keys, op :: ops => Fits keys op ∧ FitAll (liveAfter keys op) ops

instance instDecidableFitAll : (keys : Finset UInt64) → (ops : List FileOp) →
    Decidable (FitAll keys ops)
  | _, [] => .isTrue trivial
  | keys, op :: ops =>
    have := instDecidableFitAll (liveAfter keys op) ops
    inferInstanceAs (Decidable (_ ∧ _))

/-- Which operations of a sequence take effect. -/
def effects : Finset UInt64 → List FileOp → List Bool
  | _, [] => []
  | keys, op :: ops => takesEffect keys op :: effects (liveAfter keys op) ops

/-- The live keys after each operation. -/
def keysAfter : Finset UInt64 → List FileOp → List (Finset UInt64)
  | _, [] => []
  | keys, op :: ops => liveAfter keys op :: keysAfter (liveAfter keys op) ops

def countsOf (effects : List Bool) (counts : OltpCounts) : OltpCounts :=
  ⟨counts.executed + effects.length, counts.failed + effects.count false⟩

/-- An operation without effect leaves the live keys as they are. -/
theorem liveAfter_idle {keys : Finset UInt64} {op : FileOp} (h : takesEffect keys op = false) :
    liveAfter keys op = keys := by
  cases op with
  | insert key => cases h
  | update key => rfl
  | delete key =>
    apply Finset.erase_eq_of_notMem
    simpa [takesEffect] using h

/-- One operation, with or without effect. -/
theorem Serves.step (h : Serves index Standing) {n : ℕ} {s : S} {keys : Finset UInt64}
    {marks : List Mark} {op : FileOp} (hs : Standing (n + 1) s keys marks) (hfit : Fits keys op) :
    ∃ s' version marks', index.applyVersioned s op = .ok (s', version) ∧
      version.isSome = takesEffect keys op ∧ (∀ m ∈ marks, m ∈ marks') ∧
      (∀ v, version = some v → (v, liveAfter keys op) ∈ marks') ∧
      Standing n s' (liveAfter keys op) marks' := by
  cases heffect : takesEffect keys op with
  | true =>
    obtain ⟨s', v, hrun, -, hs'⟩ := h.effective hs hfit heffect
    refine ⟨s', some v, _, hrun, rfl, fun m hm => List.mem_cons_of_mem _ hm, ?_, hs'⟩
    intro w hw
    cases hw
    exact List.mem_cons_self
  | false =>
    obtain ⟨s', hrun, hs'⟩ := h.idle hs hfit heffect
    refine ⟨s', none, marks, hrun, rfl, fun m hm => hm, ?_, ?_⟩
    · intro v hv
      cases hv
    · rw [liveAfter_idle heffect]
      exact hs'

/-- A sequence of operations: which take effect and what can be read at their versions depends
on the keys only. -/
theorem Serves.run (h : Serves index Standing) {n : ℕ} {ops : List FileOp} :
    ∀ {s : S} {keys : Finset UInt64} {marks : List Mark} (counts : OltpCounts),
      Standing (ops.length + n) s keys marks → FitAll keys ops →
      ∃ (s' : S) (versions : List (Option ℕ)) (marks' : List Mark), index.applyAll s counts ops =
          .ok (s', countsOf (effects keys ops) counts, versions) ∧
        versions.map Option.isSome = effects keys ops ∧ (∀ m ∈ marks, m ∈ marks') ∧
        (∀ (i : ℕ) (v : ℕ), versions[i]? = some (some v) →
          ∃ live, (keysAfter keys ops)[i]? = some live ∧ (v, live) ∈ marks') ∧
        Standing n s' (ops.foldl liveAfter keys) marks' := by
  induction ops with
  | nil =>
    intro s keys marks counts hs _
    rw [List.length_nil, Nat.zero_add] at hs
    exact ⟨s, [], marks, rfl, rfl, fun m hm => hm, fun i v hv => by simp at hv, hs⟩
  | cons op ops ih =>
    intro s keys marks counts hs hfit
    rw [List.length_cons, Nat.add_right_comm] at hs
    obtain ⟨s₁, version, marks₁, hrun₁, heffect, hkept₁, hmark, hs₁⟩ := h.step hs hfit.1
    obtain ⟨s', versions, marks', hrun, heffects, hkept, hmarks, hs'⟩ :=
      ih ⟨counts.executed + 1, counts.failed + if version.isSome then 0 else 1⟩ hs₁ hfit.2
    refine ⟨s', version :: versions, marks', ?_, ?_, fun m hm => hkept m (hkept₁ m hm), ?_, hs'⟩
    · have hcounts : countsOf (effects (liveAfter keys op) ops)
          ⟨counts.executed + 1, counts.failed + if version.isSome then 0 else 1⟩ =
          countsOf (effects keys (op :: ops)) counts := by
        rw [heffect]
        cases hop : takesEffect keys op <;>
          simp only [countsOf, effects, hop, List.length_cons, List.count_cons, beq_self_eq_true,
            OltpCounts.mk.injEq, if_true, if_false, Bool.false_eq_true, reduceCtorEq,
            beq_iff_eq] <;>
          omega
      simp only [PaperIndex.applyAll, hrun₁, hrun, hcounts, bind, Except.bind, pure, Except.pure]
    · simp only [List.map_cons, effects, heffect, heffects]
    · intro i v hv
      cases i with
      | zero =>
        rw [List.getElem?_cons_zero, Option.some.injEq] at hv
        exact ⟨_, rfl, hkept _ (hmark v hv)⟩
      | succ i => exact hmarks i v hv

end Runs

/-- What a scan of a number of keys counts at a version. -/
theorem Serves.scanAtRange {S : Type} {index : PaperIndex S}
    {Standing : ℕ → S → Finset UInt64 → List Mark → Prop} (h : Serves index Standing) {n : ℕ}
    {s : S} {keys : Finset UInt64} {marks : List Mark} {m : Mark} (hs : Standing n s keys marks)
    (hm : m ∈ marks) (start len : UInt64) : ∃ s' steps, (∀ fuel, steps ≤ fuel →
      index.scanAtRange fuel s start len m.1 = .ok (s', (m.2.filter (fun k => start ≤ k ∧
        k ≤ saturatingAdd start (lastOffset len))).card)) ∧ Standing n s' keys marks := by
  apply h.scan hs hm
  unfold saturatingAdd
  split_ifs with hfits
  · rw [UInt64.le_iff_toNat_le, UInt64.toNat_add, Nat.mod_eq_of_lt hfits]
    exact Nat.le_add_right _ _
  · exact u64Space.le_max start

/-! ## The tree -/

section Tree
variable (cfg : Config UInt64)

/-- `CMvbt` -/
def cmvbt : PaperIndex (MVBTSt UInt64 UInt64) where
  applyVersioned t op := do
    let (t, r) ← dispatchWrite cfg t (queryOp 0 op)
    return (t, committed r)
  rangeCount fuel t range version := do
    let (t, found) ← dispatchRange cfg fuel fuel t range version
    return (t, found.length)

variable {cfg} {t t' : MVBTSt UInt64 UInt64} {log log' : Log UInt64 UInt64}

/-- A descent draws versions at most. -/
theorem traversal_later {K P : Type} [LinearOrder K] {cfg : Config K} {t : MVBTSt K P}
    {log : Log K P} (hc : Roomy cfg) (h : Carries cfg t log) (key : K) :
    Yields (fun x => t.commit.clock ≤ x.1.commit.clock ∧ x.1.updateInPlace = t.updateInPlace)
      (traversalWriteOlc cfg t key) := by
  intro x hx
  rcases h with ⟨hfresh, -⟩ | ⟨g, hinv, -⟩
  · rw [traversalWrite_fresh hc hfresh] at hx
    cases hx
    exact ⟨le_rfl, rfl⟩
  · obtain ⟨t', g', leaf, htr, harrived⟩ := Descent.traversalWrite_arrives hc hinv key
    rw [htr] at hx
    cases hx
    exact ⟨harrived.intact.clock, harrived.intact.in_place⟩

/-- A write that takes effect commits at the newest version. -/
theorem dispatchWrite_version {K P : Type} [LinearOrder K] {cfg : Config K} {t : MVBTSt K P}
    {log : Log K P} (hc : Roomy cfg) (h : Carries cfg t log) (hplain : t.updateInPlace = false)
    (op : WriteOperation K P) :
    Yields (fun x => ∀ v, committed x.2 = some v →
      t.commit.clock ≤ v ∧ x.1.commit.clock = v + 1) (dispatchWrite cfg t op) := by
  cases op with
  | insert key payload =>
    refine .bind (traversal_later hc h key) (fun x hx => .bind_any (fun page => ?_))
    have hclock := hx.1
    split_ifs
    · exact .ok (fun v hv => by cases hv)
    · refine .bind_any (fun page => .ok (fun v hv => ?_))
      cases hv
      exact ⟨hclock, rfl⟩
  | update key payload =>
    refine .bind (traversal_later hc h key) (fun x hx => .bind_any (fun page => ?_))
    have hclock := hx.1
    rw [inPlaceTarget_none (hx.2.trans hplain)]
    cases lastRecord page key with
    | none => exact .ok (fun v hv => by cases hv)
    | some r =>
      simp only
      split_ifs
      · exact .ok (fun v hv => by cases hv)
      · refine .bind_any (fun page => ?_)
        generalize LeafPage.deleteAfterUpdate (page.commitDelta 1 0) key
          x.1.startTxCommit.2 = ended
        obtain ⟨page, answer⟩ := ended
        rcases answer with e | _ | old
        · exact .error _
        · exact .error _
        · refine .ok (fun v hv => ?_)
          cases hv
          exact ⟨hclock, rfl⟩
  | delete key =>
    refine .bind (traversal_later hc h key) (fun x hx => .bind_any (fun page => ?_))
    have hclock := hx.1
    simp only
    generalize LeafPage.delete page key x.1.startTxCommit.2 = ended
    obtain ⟨page, answer⟩ := ended
    rcases answer with e | _ | old
    · exact .ok (fun v hv => by cases hv)
    · exact .ok (fun v hv => by cases hv)
    · refine .ok (fun v hv => ?_)
      cases hv
      exact ⟨hclock, rfl⟩

/-! A scan without a tracker changes the slots of the clock at most. -/

/-- The same tree up to its slots and a higher watermark, at the same clock. -/
def SameClock (t t' : MVBTSt UInt64 UInt64) : Prop :=
  ∃ c : CommitState, t' = { t with commit := c } ∧ c.clock = t.commit.clock ∧
    t.commit.globalMin ≤ c.globalMin

theorem release_untracked (ht : t.tracker = none) (snapshot : ℕ) :
    onReleaseReaderSnapshot t snapshot = t := by
  obtain ⟨heap, next, root, tosses, commit, tid, tracker, flag⟩ := t
  cases ht
  rfl

theorem loop_untracked (ht : t.tracker = none) {fuel : ℕ} :
    ∀ {it it' : RangeQueryIter UInt64 UInt64} {answer : Option (RecordPointResult UInt64 UInt64)},
      it.loop cfg fuel t = .ok (t', it', answer) → t' = t := by
  induction fuel with
  | zero =>
    intro it it' answer h
    cases h
  | succ fuel ih =>
    intro it it' answer h
    unfold RangeQueryIter.loop at h
    cases hround : it.round cfg t with
    | mk t₁ rest =>
      obtain ⟨it₁, found⟩ := rest
      have hsame : t₁ = t := by
        rcases round_cases hround with ⟨rfl, -⟩ | ⟨rfl, -⟩
        · exact release_untracked ht it.snapshot
        · rfl
      rw [hround, hsame] at h
      cases found with
      | some answer =>
        cases h
        rfl
      | none => exact ih h

theorem drain_untracked (ht : t.tracker = none) {fuel calls : ℕ} :
    ∀ {it it' : RangeQueryIter UInt64 UInt64} {found : List (RecordPointResult UInt64 UInt64)},
      it.drain cfg fuel calls t = .ok (t', it', found) → t' = t := by
  induction calls with
  | zero =>
    intro it it' found h
    cases h
  | succ calls ih =>
    intro it it' found h
    obtain ⟨⟨t₁, it₁, answer⟩, hnext, h⟩ := of_bind_ok h
    have hsame : t₁ = t := by
      unfold RangeQueryIter.next at hnext
      split at hnext
      · cases hnext
        rfl
      · split_ifs at hnext
        · cases hnext
          rfl
        · exact loop_untracked ht hnext
    subst hsame
    cases answer with
    | none =>
      cases h
      rfl
    | some r =>
      obtain ⟨⟨t₂, it₂, rest⟩, hdrain, h⟩ := of_bind_ok h
      cases h
      exact ih hdrain

theorem dispatchRange_untracked (ht : t.tracker = none) {fuel calls : ℕ} {range : Interval UInt64}
    {v : ℕ} {found : List (RecordPointResult UInt64 UInt64)}
    (h : dispatchRange cfg fuel calls t range v = .ok (t', found)) : SameClock t t' := by
  obtain ⟨⟨t₁, it⟩, hnew, h⟩ := of_bind_ok h
  obtain ⟨root, -, hnew⟩ := of_bind_ok hnew
  cases hnew
  obtain ⟨⟨t₂, it', rs⟩, hdrain, h⟩ := of_bind_ok h
  cases h
  have ht₁ : ({ onAcquireReaderSnapshot t v with
      commit := (t.commit.currentVersionForReader t.tid).1 } : MVBTSt UInt64 UInt64).tracker =
        none := by
    simp only [onAcquireReaderSnapshot, ht, Option.map_none]
  have ht₂ := drain_untracked ht₁ hdrain
  have hdrop : it'.drop t₂ = t₂ := by
    unfold RangeQueryIter.drop
    split_ifs
    · rfl
    · apply release_untracked
      rw [ht₂]
      exact ht₁
  refine ⟨(t.commit.currentVersionForReader t.tid).1, ?_, CommitState.committedRead_clock _ _ _,
    CommitState.committedRead_raised _ _ _⟩
  rw [hdrop, ht₂]
  simp only [onAcquireReaderSnapshot, ht, Option.map_none]

/-! ### What the tree stands for -/

/-- A mark agrees with a log. -/
def MarkOk (log : Log UInt64 UInt64) (clock : ℕ) (m : Mark) : Prop :=
  startVersion ≤ m.1 ∧ m.1 < clock ∧ ∀ k, k ∈ m.2 ↔ (liveAt log k m.1).isSome

structure Stands (cfg : Config UInt64) (t : MVBTSt UInt64 UInt64) (keys : Finset UInt64)
    (marks : List Mark) : Prop where
  plain : t.updateInPlace = false
  untracked : t.tracker = none
  holds : ∃ log, Carries cfg t log ∧ (∀ s ∈ log, s.key ≠ cfg.keys.maxKey) ∧
    (∀ k, k ∈ keys ↔ (live log k).isSome) ∧ ∀ m ∈ marks, MarkOk log t.commit.clock m

theorem Carries.start_le (h : Carries cfg t log) : startVersion ≤ t.commit.clock := by
  rcases h with ⟨hfresh, -⟩ | ⟨g, hinv, -⟩
  · exact hfresh.clock.ge
  · obtain ⟨x, hx, -⟩ := hinv.timeline.roots_start
    exact (hinv.timeline.roots_ge x hx).trans (hinv.timeline.roots_lt x hx).le

/-- One operation of an untracked tree without in-place updates. -/
theorem write_untracked (hc : Roomy cfg) (h : Carries cfg t log) (hplain : t.updateInPlace = false)
    (ht : t.tracker = none) (op : WriteOperation UInt64 UInt64) :
    ∃ t' r log', dispatchWrite cfg t op = .ok (t', r) ∧ Answers log op r log' ∧
      Carries cfg t' log' ∧ t'.updateInPlace = false ∧ t'.tracker = none ∧
      t.commit.clock ≤ t'.commit.clock ∧
      ∀ v, committed r = some v → t.commit.clock ≤ v ∧ t'.commit.clock = v + 1 := by
  rcases h with ⟨hfresh, rfl⟩ | ⟨g, hinv, rfl⟩
  · obtain ⟨t', r, log', hrun, hans, htr, hplace, hcases⟩ := dispatchWrite_fresh hc hfresh op
    have hle : t.commit.clock ≤ t'.commit.clock := hfresh.clock ▸ Carries.start_le hcases
    exact ⟨t', r, log', hrun, hans, hcases, hplace.trans hplain, htr.trans ht, hle,
      dispatchWrite_version hc (.inl ⟨hfresh, rfl⟩) hplain op _ hrun⟩
  · obtain ⟨t', r, g', hrun, hperf⟩ := dispatchWrite_performed hinv hc hplain op
    have htr : t'.tracker = none := by
      have := hperf.intact.tracked
      rw [ht] at this
      simpa using this
    exact ⟨t', r, g'.log, hrun, hperf.answers, .inr ⟨g', hperf.inv, rfl⟩,
      hperf.intact.in_place.trans hplain, htr, hperf.intact.clock,
      dispatchWrite_version hc (.inr ⟨g, hinv, rfl⟩) hplain op _ hrun⟩

/-- A change at `v` on top of a log before `v`. -/
theorem liveAt_newest {log : Log UInt64 UInt64} {v : ℕ} (h : Before log v) (key : UInt64)
    (p : Option UInt64) (k : UInt64) :
    liveAt (⟨v, key, p⟩ :: log) k v = live (⟨v, key, p⟩ :: log) k := by
  rw [liveAt_cons, live_cons, liveAt_of_before h le_rfl]
  simp only [le_rfl, and_true]

/-- Older marks do not see a newer change; the change is a mark of its own. -/
theorem MarkOk.cons {log : Log UInt64 UInt64} {v clock clock' : ℕ} {m : Mark} (key : UInt64)
    (p : Option UInt64) (h : MarkOk log clock m) (hv : clock ≤ v) (hclock : clock ≤ clock') :
    MarkOk (⟨v, key, p⟩ :: log) clock' m := by
  refine ⟨h.1, h.2.1.trans_le hclock, fun k => ?_⟩
  rw [liveAt_cons, if_neg (fun hk => absurd (hk.2.trans_lt h.2.1) (by omega))]
  exact h.2.2 k

variable {keys : Finset UInt64} {marks : List Mark}

theorem answers_effective {op : FileOp} {r : WriteResult}
    (hlive : ∀ k, k ∈ keys ↔ (live log k).isSome)
    (hfit : Fits keys op) (heffect : takesEffect keys op = true)
    (h : Answers log (queryOp 0 op) r log') : ∃ v p, committed r = some v ∧ Before log v ∧
      log' = ⟨v, op.key, p⟩ :: log ∧ ∀ k, k ∈ liveAfter keys op ↔ (live log' k).isSome := by
  cases op with
  | insert key =>
    cases h with
    | inserted hnone hbefore =>
      refine ⟨_, _, rfl, hbefore, rfl, fun k => ?_⟩
      rw [live_cons, liveAfter, Finset.mem_insert, hlive]
      by_cases hk : k = key
      · simp [hk]
      · simp [hk, Ne.symm hk]
    | alreadyExists hsome =>
      exact absurd ((hlive key).mpr (by rw [hsome]; rfl)) (hfit.2 key rfl)
  | update key =>
    have hkey : key ∈ keys := of_decide_eq_true heffect
    cases h with
    | updated hsome hbefore =>
      refine ⟨_, _, rfl, hbefore, rfl, fun k => ?_⟩
      rw [live_cons, liveAfter, hlive]
      by_cases hk : key = k
      · rw [if_pos hk, ← hk, ← hlive]
        simp [hkey]
      · rw [if_neg hk]
    | notUpdated hnone _ =>
      rw [hlive, hnone] at hkey
      cases hkey
  | delete key =>
    have hkey : key ∈ keys := of_decide_eq_true heffect
    cases h with
    | deleted hsome hbefore =>
      refine ⟨_, _, rfl, hbefore, rfl, fun k => ?_⟩
      rw [live_cons, liveAfter, Finset.mem_erase, hlive]
      by_cases hk : k = key
      · simp [hk]
      · simp [hk, Ne.symm hk]
    | notDeleted hnone _ =>
      rw [hlive, hnone] at hkey
      cases hkey

theorem answers_idle {op : FileOp} {r : WriteResult} (hlive : ∀ k, k ∈ keys ↔ (live log k).isSome)
    (heffect : takesEffect keys op = false) (h : Answers log (queryOp 0 op) r log') :
    committed r = none ∧ log' = log := by
  cases op with
  | insert key => cases heffect
  | update key =>
    have hkey : key ∉ keys := of_decide_eq_false heffect
    cases h with
    | updated hsome _ => exact absurd ((hlive key).mpr (by rw [hsome]; rfl)) hkey
    | notUpdated _ _ => exact ⟨rfl, rfl⟩
  | delete key =>
    have hkey : key ∉ keys := of_decide_eq_false heffect
    cases h with
    | deleted hsome _ => exact absurd ((hlive key).mpr (by rw [hsome]; rfl)) hkey
    | notDeleted _ _ => exact ⟨rfl, rfl⟩

/-- The number of records between two keys that a scan finds at a mark. -/
theorem card_of_found {lo hi : UInt64} {m : Mark} {v : ℕ}
    {found : List (RecordPointResult UInt64 UInt64)} (hm : ∀ k, k ∈ m.2 ↔ (liveAt log k v).isSome)
    (hnodup : (found.map Prod.fst).Nodup) (hmem : ∀ k payload, (k, payload) ∈ found ↔
      (lo ≤ k ∧ k ≤ hi) ∧ liveAt log k v = some payload) :
    found.length = (m.2.filter (fun k => lo ≤ k ∧ k ≤ hi)).card := by
  have hset : (found.map Prod.fst).toFinset = m.2.filter (fun k => lo ≤ k ∧ k ≤ hi) := by
    ext k
    rw [List.mem_toFinset, List.mem_map, Finset.mem_filter, hm, Option.isSome_iff_exists]
    constructor
    · rintro ⟨⟨k', payload⟩, hin, rfl⟩
      obtain ⟨hrange, hlive⟩ := (hmem k' payload).mp hin
      exact ⟨⟨payload, hlive⟩, hrange⟩
    · rintro ⟨⟨payload, hlive⟩, hrange⟩
      exact ⟨(k, payload), (hmem k payload).mpr ⟨hrange, hlive⟩, rfl⟩
  rw [← hset, List.toFinset_card_of_nodup hnodup, List.length_map]

theorem cmvbt_serves (hc : Roomy cfg) (hkeys : cfg.keys = u64Space) :
    Serves (cmvbt cfg) (fun _ => Stands cfg) where
  effective {n t keys marks op} hs hfit heffect := by
    obtain ⟨log, hcar, hbelow, hlive, hmarks⟩ := hs.holds
    obtain ⟨t', r, log', hrun, hans, hcar', hplain, ht, -, hversion⟩ :=
      write_untracked hc hcar hs.plain hs.untracked (queryOp 0 op)
    obtain ⟨v, p, hr, hbefore, rfl, hlive'⟩ := answers_effective hlive hfit heffect hans
    obtain ⟨hle, hclock⟩ := hversion v hr
    refine ⟨t', v, ?_, fun m hm => (hmarks m hm).2.1.trans_le hle, hplain, ht, _, hcar', ?_,
      hlive', ?_⟩
    · simp only [cmvbt, hrun, hr, bind, Except.bind, pure, Except.pure]
    · intro s hs'
      rcases List.mem_cons.mp hs' with rfl | hs'
      · rw [hkeys]
        exact hfit.1.ne
      · exact hbelow s hs'
    · intro m hm
      rcases List.mem_cons.mp hm with rfl | hm
      · refine ⟨(Carries.start_le hcar).trans hle, by omega, fun k => ?_⟩
        rw [liveAt_newest hbefore]
        exact hlive' k
      · exact (hmarks m hm).cons op.key p hle (by omega)
  idle {n t keys marks op} hs hfit heffect := by
    obtain ⟨log, hcar, hbelow, hlive, hmarks⟩ := hs.holds
    obtain ⟨t', r, log', hrun, hans, hcar', hplain, ht, hclock, -⟩ :=
      write_untracked hc hcar hs.plain hs.untracked (queryOp 0 op)
    obtain ⟨hr, rfl⟩ := answers_idle hlive heffect hans
    refine ⟨t', ?_, hplain, ht, _, hcar', hbelow, hlive, fun m hm => ?_⟩
    · simp only [cmvbt, hrun, hr, bind, Except.bind, pure, Except.pure]
    · exact ⟨(hmarks m hm).1, (hmarks m hm).2.1.trans_le hclock, (hmarks m hm).2.2⟩
  scan {n t keys marks m} hs hm lo hi hle := by
    obtain ⟨log, hcar, hbelow, hlive, hmarks⟩ := hs.holds
    obtain ⟨hstart, hlt, hkeysAt⟩ := hmarks m hm
    rcases hcar with ⟨hfresh, -⟩ | ⟨g, hinv, rfl⟩
    · rw [hfresh.clock] at hlt
      exact absurd hlt (not_lt.mpr hstart)
    · have hmax := liveAt_absent hbelow m.1
      obtain ⟨bound, t', found, hrange, hexact⟩ :=
        dispatchRange_exact hinv (readable_untracked hinv hs.untracked hstart) lo hi (.inl hmax)
      obtain ⟨c, rfl, hclock, hraised⟩ :=
        dispatchRange_untracked hs.untracked (hrange bound bound le_rfl le_rfl)
      refine ⟨{ t with commit := c }, bound, fun fuel hfuel => ?_, hs.plain, hs.untracked, g.log,
        carries_recommit (.inr ⟨g, hinv, rfl⟩) hclock hraised t.tid, hbelow, hlive,
        fun m' hm' => ?_⟩
      · rw [← card_of_found hkeysAt hexact.nodup hexact.mem]
        simp only [cmvbt, hrange fuel fuel hfuel hfuel, bind, Except.bind, pure, Except.pure]
      · rw [show ({ t with commit := c } : MVBTSt UInt64 UInt64).commit.clock = _ from hclock]
        exact hmarks m' hm'

end Tree

/-! ## The version lists -/

section Lists
open BaselineTree (MVBPlusTree)
variable {skipMap : OrderedMap.Mutable (VersionChain.RecordInfo UInt64)}

/-- The index and the coin tosses of its operations to come. -/
structure VersionLists (skipMap : OrderedMap.Mutable (VersionChain.RecordInfo UInt64)) where
  index : MVBPlusTree UInt64 skipMap
  tosses : ℕ → Bool

def dexa : FileOp → BaselineTree.CRUDOperation UInt64 UInt64
  | .insert key => .insert key 0
  | .update key => .update key 0
  | .delete key => .delete key

def versionOf : BaselineTree.CRUDOperationResult → Option ℕ
  | .inserted v | .updated v | .deleted v => some v
  | .zeroAffected _ | .error => none

variable (cfg : BaselineTree.Config UInt64 skipMap) (steps : ℕ)

/-- `VersionLists`; `steps` bounds the descents of the writes. -/
def versionLists : PaperIndex (VersionLists skipMap) where
  applyVersioned s op := do
    let (index, r) ← BaselineTree.dispatch cfg.tree steps s.index (s.tosses 0) (dexa op)
    return (⟨index, fun n => s.tosses (n + 1)⟩, versionOf r)
  rangeCount fuel s range version := do
    let found ← BaselineTree.dispatchRange cfg fuel s.index range version
    return (s, found.length)

/-- The versions of `n` more operations are below `2 ^ 63` and their descents within the steps. -/
def StandsList (n : ℕ) (s : VersionLists skipMap) (keys : Finset UInt64) (marks : List Mark) :
    Prop :=
  ∃ log h, BaselineWrites.Refines cfg.tree BaselineInvariant.Tells log h s.index ∧
    2 * (h + n) + 3 ≤ steps ∧ s.index.globalClock + n ≤ 2 ^ 63 ∧
    startVersion ≤ s.index.globalClock ∧ (∀ k, k ∈ keys ↔ (live log k).isSome) ∧
    ∀ m ∈ marks, MarkOk log s.index.globalClock m

variable {cfg steps}

theorem standsList_new (tosses : ℕ → Bool) {n : ℕ} (hsteps : 2 * n + 3 ≤ steps)
    (hversions : n < 2 ^ 63) : StandsList cfg steps n ⟨BaselineTree.newWith, tosses⟩ ∅ [] := by
  refine ⟨[], 0, BaselineWrites.refines_newWith, by omega, ?_, le_rfl, by simp [live], by simp⟩
  change 1 + n ≤ 2 ^ 63
  omega

variable {log : Log UInt64 UInt64} {keys : Finset UInt64}

theorem reference_effective {op : FileOp} (v : ℕ) (hlive : ∀ k, k ∈ keys ↔ (live log k).isSome)
    (heffect : takesEffect keys op = true) :
    versionOf (BaselineWrites.referenceStep log v (dexa op)).2 = some v ∧
      ∃ p, (BaselineWrites.referenceStep log v (dexa op)).1 = ⟨v, op.key, p⟩ :: log ∧
        ∀ k, k ∈ liveAfter keys op ↔ (live (⟨v, op.key, p⟩ :: log) k).isSome := by
  cases op with
  | insert key =>
    refine ⟨rfl, some 0, rfl, fun k => ?_⟩
    rw [live_cons, liveAfter, Finset.mem_insert, hlive, FileOp.key]
    by_cases hk : k = key
    · simp [hk]
    · simp [hk, Ne.symm hk]
  | update key =>
    have hkey : key ∈ keys := of_decide_eq_true heffect
    have hsome := (hlive key).mp hkey
    simp only [dexa, BaselineWrites.referenceStep, hsome, if_true]
    refine ⟨rfl, some 0, rfl, fun k => ?_⟩
    rw [live_cons, liveAfter, hlive, FileOp.key]
    by_cases hk : key = k
    · rw [if_pos hk, ← hk, hsome]
      simp
    · rw [if_neg hk]
  | delete key =>
    have hkey : key ∈ keys := of_decide_eq_true heffect
    have hsome := (hlive key).mp hkey
    simp only [dexa, BaselineWrites.referenceStep, hsome, if_true]
    refine ⟨rfl, none, rfl, fun k => ?_⟩
    rw [live_cons, liveAfter, Finset.mem_erase, hlive, FileOp.key]
    by_cases hk : k = key
    · simp [hk]
    · simp [hk, Ne.symm hk]

theorem reference_idle {op : FileOp} (v : ℕ) (hlive : ∀ k, k ∈ keys ↔ (live log k).isSome)
    (heffect : takesEffect keys op = false) :
    versionOf (BaselineWrites.referenceStep log v (dexa op)).2 = none ∧
      (BaselineWrites.referenceStep log v (dexa op)).1 = log := by
  cases op with
  | insert key => cases heffect
  | update key =>
    have hnone : (live log key).isSome = false := by
      have := (not_congr (hlive key)).mp (of_decide_eq_false heffect)
      simpa using this
    rw [dexa, BaselineWrites.referenceStep, if_neg (by rw [hnone]; exact Bool.false_ne_true)]
    exact ⟨rfl, rfl⟩
  | delete key =>
    have hnone : (live log key).isSome = false := by
      have := (not_congr (hlive key)).mp (of_decide_eq_false heffect)
      simpa using this
    rw [dexa, BaselineWrites.referenceStep, if_neg (by rw [hnone]; exact Bool.false_ne_true)]
    exact ⟨rfl, rfl⟩

theorem versionLists_serves (hkeys : cfg.keys = u64Space) :
    Serves (versionLists cfg steps) (StandsList cfg steps) where
  effective {n s keys marks op} hs hfit heffect := by
    obtain ⟨log, h, hr, hsteps, hclock, hstart, hlive, hmarks⟩ := hs
    have hkey : (dexa op).key < cfg.tree.keys.maxKey := by
      rw [show cfg.tree.keys = u64Space from hkeys]
      cases op <;> exact hfit.1
    obtain ⟨index, h', hrun, hheight, hnext, hr'⟩ := BaselineWrites.dispatch_writes
      (BaselineInvariant.lists_keep cfg.vIndexType) hr (show 2 * h + 3 ≤ steps by omega) (by omega)
      hkey (s.tosses 0)
    obtain ⟨hversion, p, hlog, hlive'⟩ := reference_effective s.index.globalClock hlive heffect
    rw [hlog] at hr'
    refine ⟨⟨index, fun n => s.tosses (n + 1)⟩, s.index.globalClock, ?_,
      fun m hm => (hmarks m hm).2.1, _, h', hr', ?_, ?_, ?_, hlive', ?_⟩
    · simp only [versionLists, hrun, hversion, bind, Except.bind, pure, Except.pure]
    · omega
    · simp only [hnext]
      omega
    · simp only [hnext]
      omega
    · intro m hm
      rcases List.mem_cons.mp hm with rfl | hm
      · refine ⟨hstart, by simp only [hnext]; omega, fun k => ?_⟩
        rw [liveAt_newest hr.before]
        exact hlive' k
      · exact (hmarks m hm).cons op.key p le_rfl (by simp only [hnext]; omega)
  idle {n s keys marks op} hs hfit heffect := by
    obtain ⟨log, h, hr, hsteps, hclock, hstart, hlive, hmarks⟩ := hs
    have hkey : (dexa op).key < cfg.tree.keys.maxKey := by
      rw [show cfg.tree.keys = u64Space from hkeys]
      cases op <;> exact hfit.1
    obtain ⟨index, h', hrun, hheight, hnext, hr'⟩ := BaselineWrites.dispatch_writes
      (BaselineInvariant.lists_keep cfg.vIndexType) hr (show 2 * h + 3 ≤ steps by omega) (by omega)
      hkey (s.tosses 0)
    obtain ⟨hversion, hlog⟩ := reference_idle s.index.globalClock hlive heffect
    rw [hlog] at hr'
    refine ⟨⟨index, fun n => s.tosses (n + 1)⟩, ?_, _, h', hr', ?_, ?_, ?_, hlive, fun m hm => ?_⟩
    · simp only [versionLists, hrun, hversion, bind, Except.bind, pure, Except.pure]
    · omega
    · simp only [hnext]
      omega
    · simp only [hnext]
      omega
    · exact ⟨(hmarks m hm).1, (hmarks m hm).2.1.trans_le (by simp only [hnext]; omega),
        (hmarks m hm).2.2⟩
  scan {n s keys marks m} hs hm lo hi hle := by
    obtain ⟨log, h, hr, hsteps, hclock, hstart, hlive, hmarks⟩ := hs
    obtain ⟨-, hlt, hkeysAt⟩ := hmarks m hm
    have hv : m.1 < 2 ^ 63 := by omega
    refine ⟨s, (BaselineScan.separators h s.index.root).length + h + 3, fun fuel hfuel => ?_,
      log, h, hr, hsteps, hclock, hstart, hlive, hmarks⟩
    obtain ⟨found, hrange, hlisted⟩ := BaselineScan.dispatchRange_listed
      (BaselineScan.answers_live (BaselineInvariant.lists_keep cfg.vIndexType) hr.shaped hv)
      (BaselineContents.ordered_of_shaped hr.shaped) hle hfuel
    have hnodup : (found.map Prod.fst).Nodup :=
      (List.pairwise_map.mpr hlisted.sorted).imp (fun h => h.ne)
    rw [← card_of_found hkeysAt hnodup hlisted.mem]
    have hrun : BaselineTree.dispatchRange cfg fuel s.index ⟨lo, hi⟩ m.1 = .ok found := hrange
    simp only [versionLists, hrun, bind, Except.bind, pure, Except.pure]

end Lists

/-! ## Both systems -/

theorem stands_make (cfg : Config UInt64) (tosses : ℕ → FrugalList.Toss) (threads tid : ℕ) :
    Stands cfg (make tosses threads tid) ∅ [] where
  plain := rfl
  untracked := rfl
  holds := ⟨[], .inl ⟨make_fresh tosses threads tid, rfl⟩, by simp, by simp [live], by simp⟩

/-- The tree and the version lists go through the same workload, whose insertions are of
new keys below the border. The same operations take effect, so both count the same failures,
and at the versions that an operation got in the two systems every range has the same
number of records. -/
theorem systems_agree {cfg : Config UInt64} (hc : Roomy cfg) (hkeys : cfg.keys = u64Space)
    {skipMap : OrderedMap.Mutable (VersionChain.RecordInfo UInt64)}
    (lists : BaselineTree.Config UInt64 skipMap) (hlists : lists.keys = u64Space)
    (tosses : ℕ → FrugalList.Toss) (threads tid : ℕ) (coins : ℕ → Bool) {ops : List FileOp}
    (hfit : FitAll ∅ ops) {steps : ℕ} (hsteps : 2 * ops.length + 3 ≤ steps)
    (hversions : ops.length < 2 ^ 63) :
    ∃ t versions s versions' counts,
      (cmvbt cfg).applyAll (make tosses threads tid) ⟨0, 0⟩ ops = .ok (t, counts, versions) ∧
      (versionLists lists steps).applyAll ⟨BaselineTree.newWith, coins⟩ ⟨0, 0⟩ ops =
        .ok (s, counts, versions') ∧
      versions.map Option.isSome = versions'.map Option.isSome ∧
      ∀ (i v v' : ℕ), versions[i]? = some (some v) → versions'[i]? = some (some v') →
        ∀ lo hi, lo ≤ hi → ∃ t' s' bound n, ∀ fuel, bound ≤ fuel →
          (cmvbt cfg).rangeCount fuel t ⟨lo, hi⟩ v = .ok (t', n) ∧
          (versionLists lists steps).rangeCount fuel s ⟨lo, hi⟩ v' = .ok (s', n) := by
  have htree := cmvbt_serves hc hkeys
  have hlist : Serves (versionLists lists steps) (StandsList lists steps) :=
    versionLists_serves hlists
  obtain ⟨t, versions, marks, hrun, hsome, -, hmarks, hs⟩ :=
    htree.run (n := 0) ⟨0, 0⟩ (stands_make cfg tosses threads tid) hfit
  obtain ⟨s, versions', marks', hrun', hsome', -, hmarks', hs'⟩ :=
    hlist.run (n := 0) ⟨0, 0⟩ (standsList_new coins hsteps hversions) hfit
  refine ⟨t, versions, s, versions', _, hrun, hrun', hsome.trans hsome'.symm, ?_⟩
  intro i v v' hv hv' lo hi hle
  obtain ⟨live, hlive, hm⟩ := hmarks i v hv
  obtain ⟨live', hlive', hm'⟩ := hmarks' i v' hv'
  rw [hlive] at hlive'
  cases hlive'
  obtain ⟨t', bound, hscan, -⟩ := htree.scan (n := 0) hs hm lo hi hle
  obtain ⟨s', bound', hscan', -⟩ := hlist.scan (n := 0) hs' hm' lo hi hle
  exact ⟨t', s', max bound bound', _, fun fuel hfuel =>
    ⟨hscan fuel ((le_max_left _ _).trans hfuel), hscan' fuel ((le_max_right _ _).trans hfuel)⟩⟩

theorem frugal_ne_weaver : VersionChain.VersionIndexType.frugalSkipList ≠ .vWeaver := by
  decide

/-- The index with frugal skip lists. -/
def frugalLists : BaselineTree.Config UInt64
    (OrderedMap.sortedList (VersionChain.RecordInfo UInt64)) :=
  ⟨u64Space, BaselinePages.indexSizes, .frugalSkipList, frugal_ne_weaver,
    fun keys children _ => .ok (.index keys children)⟩

/-- The same lists in small pages. -/
def smallLists : BaselineTree.Config UInt64
    (OrderedMap.sortedList (VersionChain.RecordInfo UInt64)) :=
  ⟨u64Space, BaselinePages.smallSizes, .frugalSkipList, frugal_ne_weaver,
    fun keys children _ => .ok (.index keys children)⟩

/-- The insertions split leaves in both systems; the second update and the last delete
find nothing. -/
def mixedOps : List FileOp :=
  (List.range 11).map (fun i => .insert (UInt64.ofNat (i + 1))) ++
    [.update 5, .delete 3, .update 3, .delete 20]

/-- The delete of key 3 drew version 14 in the tree and version 13 in the lists, and every
range has the same number of records there. -/
theorem systems_agree_mixed_ops : ∃ t versions s versions',
    (cmvbt ⟨10, 10, u64Space⟩).applyAll (make (fun _ => .next) 2 0) ⟨0, 0⟩ mixedOps =
      .ok (t, ⟨15, 2⟩, versions) ∧
    (versionLists smallLists 33).applyAll ⟨BaselineTree.newWith, fun _ => true⟩ ⟨0, 0⟩ mixedOps =
      .ok (s, ⟨15, 2⟩, versions') ∧
    versions[12]? = some (some 14) ∧ versions'[12]? = some (some 13) ∧
    ∀ lo hi, lo ≤ hi → ∃ t' s' bound n, ∀ fuel, bound ≤ fuel →
      (cmvbt ⟨10, 10, u64Space⟩).rangeCount fuel t ⟨lo, hi⟩ 14 = .ok (t', n) ∧
      (versionLists smallLists 33).rangeCount fuel s ⟨lo, hi⟩ 13 = .ok (s', n) := by
  obtain ⟨t, versions, s, versions', counts, hrun, hrun', -, hranges⟩ := systems_agree
    (roomy_ten u64Space) rfl smallLists rfl (fun _ => .next) 2 0 (fun _ => true)
    (show FitAll ∅ mixedOps by decide) (show _ ≤ 33 by decide) (by decide)
  have htree : ((cmvbt ⟨10, 10, u64Space⟩).applyAll (make (fun _ => .next) 2 0) ⟨0, 0⟩
      mixedOps).map (fun x => (x.2.1, x.2.2[12]?)) = .ok (⟨15, 2⟩, some (some 14)) := by
    decide +kernel
  have hlists : ((versionLists smallLists 33).applyAll ⟨BaselineTree.newWith, fun _ => true⟩
      ⟨0, 0⟩ mixedOps).map (fun x => x.2.2[12]?) = .ok (some (some 13)) := by
    decide +kernel
  rw [hrun] at htree
  rw [hrun'] at hlists
  simp only [Except.map, Except.ok.injEq, Prod.mk.injEq] at htree hlists
  obtain ⟨rfl, hversion⟩ := htree
  exact ⟨t, versions, s, versions', hrun, hrun', hversion, hlists,
    hranges 12 14 13 hversion hlists⟩

end CMVBT.PaperSystems
