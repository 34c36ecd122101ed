import CMVBT.FenceTiling
import CMVBT.VersionedLog
import CMVBT.ReadPath

/-!
# A leaf page through its versions

At each version `v` of its life the records of a leaf that match `v` are the
part of the reference log at `v` that lies in the fence of the leaf. Writes at
version `w` push a record inserted at `w`, or end the life of a record at `w`;
neither changes what matches at an earlier version.
-/
namespace CMVBT.LeafHistory
open KeyInterval LastMatch FenceTiling VersionedLog PageModel ReadPath

variable {K P : Type} [LinearOrder K]

/-- The records of a leaf with fence `f` show the log at version `v`. -/
def Shows (log : Log K P) (f : Interval K) (units : List (RecordPoint K P)) (v : ℕ) : Prop :=
  Tiling PageUnit.span (fun r => liveAt log r.key v = some r.payload)
    (fun k => (liveAt log k v).isSome = true) f (units.filter (fun r => r.version.matches v))

theorem matches_eq_true {i : VersionInfo} {v : ℕ} :
    i.matches v = true ↔ i.insertVersion ≤ v ∧ ∀ d, i.deleteVersion = some d → v < d := by
  cases h : i.deleteVersion with
  | none => simp [VersionInfo.matches, h]
  | some d => simp [VersionInfo.matches, h]

theorem matches_new (w v : ℕ) : (VersionInfo.new w).matches v = decide (w ≤ v) := by
  rw [Bool.eq_iff_iff, matches_eq_true]
  simp [VersionInfo.new]

/-- Skipping the records inserted after the snapshot changes nothing. -/
theorem leafLookup_eq (units : List (RecordPoint K P)) (v : ℕ) (k : K) :
    leafLookup units v k = units.findRev? (fun r => r.key == k && r.version.matches v) := by
  rw [leafLookup, List.findRev?_eq_find?_reverse]
  induction units.reverse with
  | nil => rfl
  | cons r l ih =>
    by_cases hr : v < r.version.insertVersion
    · have hno : r.version.matches v = false := by
        rw [Bool.eq_false_iff]
        intro h
        exact absurd (matches_eq_true.mp h).1 (not_le.mpr hr)
      simp only [List.dropWhile_cons, hr, decide_true, if_true, ih, List.find?_cons, hno,
        Bool.and_false]
    · simp [hr]

theorem mem_span {r : RecordPoint K P} {k : K} : k ∈ PageUnit.span r ↔ r.key = k :=
  ⟨fun h => le_antisymm h.1 h.2, fun h => h ▸ ⟨le_rfl, le_rfl⟩⟩

theorem span_disjoint {r r' : RecordPoint K P} :
    (PageUnit.span r).Disjoint (PageUnit.span r') ↔ r.key ≠ r'.key := by
  constructor
  · intro h heq
    exact h r.key (mem_span.mpr rfl) (mem_span.mpr heq.symm)
  · intro h k hk hk'
    exact h ((mem_span.mp hk).trans (mem_span.mp hk').symm)

theorem span_proper (r : RecordPoint K P) : (PageUnit.span r).Proper := le_refl r.key

theorem span_within {r : RecordPoint K P} {f : Interval K} :
    (PageUnit.span r).Within f ↔ r.key ∈ f := by
  constructor
  · intro h
    exact h _ (mem_span.mpr rfl)
  · intro h k hk
    rwa [← mem_span.mp hk]

/-- Of two records of one key the first has ended when the second begins. -/
def Precedes (x r : RecordPoint K P) : Prop :=
  x.key = r.key → ∃ d, x.version.deleteVersion = some d ∧ d ≤ r.version.insertVersion

omit [LinearOrder K] in
theorem active_iff {r : RecordPoint K P} :
    PageUnit.isActive r = true ↔ r.version.deleteVersion = none := by
  cases h : r.version.deleteVersion <;> simp [PageUnit.isActive, VersionInfo.isDeleted, h]

omit [LinearOrder K] in
theorem Precedes.not_active {x r : RecordPoint K P} (h : Precedes x r) (hkey : x.key = r.key) :
    ¬ PageUnit.isActive x = true := by
  obtain ⟨d, hd, -⟩ := h hkey
  rw [active_iff, hd]
  exact Option.some_ne_none d

section Shows
variable {log log' : Log K P} {f : Interval K} {units : List (RecordPoint K P)} {v w : ℕ}

theorem Shows.mem_iff (h : Shows log f units v) {k : K} (hk : k ∈ f) {p : P} :
    liveAt log k v = some p ↔
      ∃ r ∈ units, r.version.matches v = true ∧ r.key = k ∧ r.payload = p := by
  constructor
  · intro hlive
    obtain ⟨r, hr, hkr⟩ := h.complete k hk (by rw [hlive]; rfl)
    have hgood := h.good r hr
    obtain rfl := mem_span.mp hkr
    obtain ⟨hr, hm⟩ := List.mem_filter.mp hr
    rw [hlive] at hgood
    exact ⟨r, hr, hm, rfl, (Option.some.inj hgood).symm⟩
  · rintro ⟨r, hr, hm, rfl, rfl⟩
    exact h.good r (List.mem_filter.mpr ⟨hr, hm⟩)

/-- A point lookup in a leaf reads the log. -/
theorem Shows.lookup (h : Shows log f units v) {k : K} (hk : k ∈ f) :
    (leafLookup units v k).map RecordPoint.result = (liveAt log k v).map (fun p => (k, p)) := by
  rw [leafLookup_eq]
  cases hl : units.findRev? (fun r => r.key == k && r.version.matches v) with
  | some r =>
    have hp := findRev?_pos hl
    simp only [Bool.and_eq_true, beq_iff_eq] at hp
    rw [(h.mem_iff hk).mpr ⟨r, findRev?_mem hl, hp.2, hp.1, rfl⟩]
    simp [RecordPoint.result, hp.1]
  | none =>
    cases hlive : liveAt log k v with
    | none => rfl
    | some p =>
      obtain ⟨r, hr, hm, hkr, -⟩ := (h.mem_iff hk).mp hlive
      have := findRev?_eq_none.mp hl r hr
      simp [hm, hkr] at this

theorem Shows.congr_log (h : Shows log f units v) (heq : ∀ k ∈ f, liveAt log' k v = liveAt log k v) :
    Shows log' f units v := by
  refine Tiling.congr h ?_ ?_
  · intro r hr hg
    have hk : r.key ∈ f := span_within.mp (h.within r hr)
    rw [heq _ hk, hg]
  · intro k hk hn
    rwa [← heq k hk]

omit [LinearOrder K] in
/-- From the clock on, the matching records are the active ones. -/
theorem filter_matches_eq_active (hv : ∀ r ∈ units, r.version.insertVersion ≤ v ∧
      ∀ d, r.version.deleteVersion = some d → d ≤ v) :
    units.filter (fun r => r.version.matches v) = units.filter PageUnit.isActive := by
  apply List.filter_congr
  intro r hr
  obtain ⟨hi, hd⟩ := hv r hr
  cases h : r.version.deleteVersion with
  | none => simp [VersionInfo.matches, PageUnit.isActive, VersionInfo.isDeleted, h, hi]
  | some d =>
    simp [VersionInfo.matches, PageUnit.isActive, VersionInfo.isDeleted, h, hi, hd d h]

/-- A pushed record is not there before its version. -/
theorem Shows.push_before (h : Shows log f units v) (hv : v < w) (k : K) (p : P) :
    Shows (⟨w, k, some p⟩ :: log) f (units ++ [⟨k, .new w, p⟩]) v := by
  have hno : (VersionInfo.new w).matches v = false := by simp [matches_new, hv]
  have hs : Shows log f (units ++ [⟨k, .new w, p⟩]) v := by
    simpa [Shows, List.filter_append, hno] using h
  refine hs.congr_log (fun k' _ => ?_)
  rw [liveAt_cons, if_neg (fun hc => absurd hc.2 (not_le.mpr hv))]

theorem Shows.push_after (h : Shows log f units v) (hv : w ≤ v) {k : K} (hk : k ∈ f)
    (hnone : liveAt log k v = none) (p : P) :
    Shows (⟨w, k, some p⟩ :: log) f (units ++ [⟨k, .new w, p⟩]) v := by
  have hyes : (VersionInfo.new w).matches v = true := by simp [matches_new, hv]
  have hfilter : (units ++ [(⟨k, .new w, p⟩ : RecordPoint K P)]).filter
      (fun r => r.version.matches v) =
      units.filter (fun r => r.version.matches v) ++ [⟨k, .new w, p⟩] := by
    simp [List.filter_append, hyes]
  have hkey : ∀ r ∈ units.filter (fun r => r.version.matches v), r.key ≠ k := by
    rintro r hr rfl
    have := h.good r hr
    simp [hnone] at this
  unfold Shows
  rw [hfilter]
  refine Tiling.exchange [] _ h ?_ ?_ (by simp) ?_ ?_ ?_ ?_
  · simp [span_proper]
  · simpa [span_within] using hk
  · simp only [List.mem_singleton, forall_eq]
    intro r hr
    exact span_disjoint.mpr (fun heq => hkey r hr heq.symm)
  · simp [liveAt_cons, hv]
  · intro r hr hg
    rw [liveAt_cons, if_neg (fun hc => hkey r hr hc.1.symm)]
    exact hg
  · intro k' hk' hn
    by_cases heq : k = k'
    · exact .inl ⟨_, List.mem_singleton_self _, mem_span.mpr heq⟩
    · rw [liveAt_cons, if_neg (fun hc => heq hc.1)] at hn
      exact .inr ⟨hn, by simp⟩

omit [LinearOrder K] in
/-- A record with its life ended at `w`. -/
def ended (r : RecordPoint K P) (w : ℕ) : RecordPoint K P :=
  { r with version := { r.version with deleteVersion := some w } }

omit [LinearOrder K] in
theorem matches_ended (r : RecordPoint K P) :
    (ended r w).version.matches v = true ↔ r.version.insertVersion ≤ v ∧ v < w := by
  rw [matches_eq_true]
  simp [ended]

theorem Shows.end_before {l₁ l₂ : List (RecordPoint K P)} {r : RecordPoint K P}
    (h : Shows log f (l₁ ++ r :: l₂) v) (hv : v < w) (hr : r.version.deleteVersion = none) :
    Shows (⟨w, r.key, none⟩ :: log) f (l₁ ++ ended r w :: l₂) v := by
  have hsame : (ended r w).version.matches v = r.version.matches v := by
    rw [Bool.eq_iff_iff, matches_ended, matches_eq_true]
    simp [hr, hv]
  have hs : Shows log f (l₁ ++ ended r w :: l₂) v := by
    unfold Shows at h ⊢
    rw [List.filter_append, List.filter_cons] at h ⊢
    rw [hsame]
    by_cases hm : r.version.matches v = true
    · rw [if_pos hm] at h ⊢
      have hperm := h.perm (List.perm_middle)
      have hr' := (List.pairwise_cons.mp hperm.disjoint).1
      have hkey : r.key ∈ f := span_within.mp (hperm.within r (by simp))
      refine Tiling.perm (Tiling.exchange [r] [ended r w] hperm ?_ ?_ (by simp) ?_
        ?_ (fun _ _ hg => hg) ?_) ?_
      · simp [span_proper]
      · simpa [span_within, ended] using hkey
      · simp only [List.mem_singleton, forall_eq]
        exact hr'
      · simpa [ended] using hperm.good r (by simp)
      · intro k _ hn
        by_cases heq : r.key = k
        · exact .inl ⟨_, List.mem_singleton_self _, mem_span.mpr heq⟩
        · exact .inr ⟨hn, by simpa [mem_span] using heq⟩
      · change (l₁.filter (fun r => r.version.matches v) ++
          l₂.filter (fun r => r.version.matches v) ++ [ended r w]).Perm _
        rw [List.append_assoc]
        exact List.perm_append_comm.append_left _
    · rwa [if_neg hm] at h ⊢
  refine hs.congr_log (fun k' _ => ?_)
  rw [liveAt_cons, if_neg (fun hc => absurd hc.2 (not_le.mpr hv))]

theorem Shows.end_after {l₁ l₂ : List (RecordPoint K P)} {r : RecordPoint K P}
    (h : Shows log f (l₁ ++ r :: l₂) v) (hv : w ≤ v) (hm : r.version.matches v = true) :
    Shows (⟨w, r.key, none⟩ :: log) f (l₁ ++ ended r w :: l₂) v := by
  have hno : ¬ (ended r w).version.matches v = true := by
    rw [matches_ended]
    exact fun hc => absurd hc.2 (not_lt.mpr hv)
  unfold Shows at h ⊢
  rw [List.filter_append, List.filter_cons] at h ⊢
  rw [if_pos hm] at h
  rw [if_neg hno]
  have hperm := h.perm (List.perm_middle)
  have hr' := (List.pairwise_cons.mp hperm.disjoint).1
  suffices hend : Tiling PageUnit.span
      (fun x => liveAt (⟨w, r.key, none⟩ :: log) x.key v = some x.payload)
      (fun k => (liveAt (⟨w, r.key, none⟩ :: log) k v).isSome = true) f
      ((l₁.filter (fun r => r.version.matches v) ++ l₂.filter (fun r => r.version.matches v)) ++ [])
    by simpa using hend
  refine Tiling.exchange [r] [] hperm (by simp) (by simp) (by simp) (by simp) (by simp) ?_ ?_
  · intro x hx hg
    have hne := span_disjoint.mp (hr' x hx)
    rw [liveAt_cons, if_neg (fun hc => hne hc.1)]
    exact hg
  · intro k _ hn
    rw [liveAt_cons] at hn
    by_cases heq : r.key = k
    · simp [heq, hv] at hn
    · rw [if_neg (fun hc => heq hc.1)] at hn
      exact .inr ⟨hn, by simpa [mem_span] using heq⟩

end Shows

end CMVBT.LeafHistory
