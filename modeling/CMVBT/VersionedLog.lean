import Mathlib.Order.Nat
import Mathlib.Data.List.Basic

/-!
# Logs of version-stamped changes

The reference that a multiversion map is compared with: a list of changes,
newest first, each giving a key a payload or taking it away at a version. What
is live at a version is decided by the newest change up to that version.
-/
namespace CMVBT.VersionedLog

structure Stamp (K P : Type) where
  version : ℕ
  key : K
  payload : Option P

abbrev Log (K P : Type) := List (Stamp K P)

variable {K P : Type} [DecidableEq K]

/-- The payload of `k` at version `v`. -/
def liveAt (log : Log K P) (k : K) (v : ℕ) : Option P :=
  (log.find? (fun s => s.key == k && decide (s.version ≤ v))).bind Stamp.payload

/-- The payload of `k` after all changes. -/
def live (log : Log K P) (k : K) : Option P :=
  (log.find? (fun s => s.key == k)).bind Stamp.payload

/-- All changes happened before `clock`. -/
def Before (log : Log K P) (clock : ℕ) : Prop := ∀ s ∈ log, s.version < clock

omit [DecidableEq K] in
theorem Before.mono {log : Log K P} {c c' : ℕ} (h : Before log c) (hle : c ≤ c') : Before log c' :=
  fun s hs => (h s hs).trans_le hle

omit [DecidableEq K] in
theorem Before.cons {log : Log K P} {w : ℕ} (h : Before log w) (k : K) (p : Option P) :
    Before (⟨w, k, p⟩ :: log) (w + 1) := by
  intro s hs
  rcases List.mem_cons.mp hs with rfl | hs
  · exact Nat.lt_succ_self w
  · exact (h s hs).trans (Nat.lt_succ_self w)

theorem liveAt_of_before {log : Log K P} {clock v : ℕ} (h : Before log clock) (hv : clock ≤ v)
    (k : K) : liveAt log k v = live log k := by
  unfold liveAt live
  congr 1
  induction log with
  | nil => rfl
  | cons s log ih =>
    have hs : s.version ≤ v := (h s (by simp)).le.trans hv
    have hrest : Before log clock := fun x hx => h x (by simp [hx])
    simp only [List.find?_cons, hs, decide_true, Bool.and_true, ih hrest]

theorem liveAt_absent {log : Log K P} {k : K} (h : ∀ s ∈ log, s.key ≠ k) (v : ℕ) :
    liveAt log k v = none := by
  rw [liveAt, List.find?_eq_none.mpr]
  · rfl
  · intro s hs
    simp [h s hs]

/-- The key occurs in the history. -/
def Known (log : Log K P) (k : K) : Prop := ∃ s ∈ log, s.key = k

theorem live_absent {log : Log K P} {k : K} (h : ∀ s ∈ log, s.key ≠ k) : live log k = none := by
  rw [live, List.find?_eq_none.mpr]
  · rfl
  · intro s hs
    simp [h s hs]

theorem known_of_live {log : Log K P} {k : K} {p : P} (h : live log k = some p) : Known log k := by
  by_contra hno
  rw [live_absent (fun s hs heq => hno ⟨s, hs, heq⟩)] at h
  cases h

omit [DecidableEq K] in
theorem Known.cons {log : Log K P} {k : K} (h : Known log k) (s : Stamp K P) :
    Known (s :: log) k := by
  obtain ⟨s', hs', hk⟩ := h
  exact ⟨s', List.mem_cons_of_mem _ hs', hk⟩

omit [DecidableEq K] in
theorem known_cons (log : Log K P) (s : Stamp K P) : Known (s :: log) s.key :=
  ⟨s, List.mem_cons_self, rfl⟩

theorem live_cons (log : Log K P) (w : ℕ) (k' : K) (p : Option P) (k : K) :
    live (⟨w, k', p⟩ :: log) k = if k' = k then p else live log k := by
  unfold live
  by_cases hk : k' = k
  · simp [hk]
  · simp [hk]

/-- A change at `w` is seen from `w` on and only at its own key. -/
theorem liveAt_cons (log : Log K P) (w : ℕ) (k' : K) (p : Option P) (k : K) (v : ℕ) :
    liveAt (⟨w, k', p⟩ :: log) k v = if k' = k ∧ w ≤ v then p else liveAt log k v := by
  unfold liveAt
  by_cases hk : k' = k
  · by_cases hw : w ≤ v
    · simp [hk, hw]
    · simp [hk, hw]
  · simp [hk]

/-! ## A log up to a version -/

omit [DecidableEq K]

/-- The changes up to version `v`. -/
def upTo (log : Log K P) (v : ℕ) : Log K P := log.filter (fun s => decide (s.version ≤ v))

theorem mem_upTo {log : Log K P} {v : ℕ} {s : Stamp K P} :
    s ∈ upTo log v ↔ s ∈ log ∧ s.version ≤ v := by
  simp [upTo]

theorem upTo_of_before {log : Log K P} {v : ℕ} (h : Before log (v + 1)) : upTo log v = log := by
  refine List.filter_eq_self.mpr fun s hs => ?_
  simpa using Nat.le_of_lt_succ (h s hs)

theorem upTo_cons {log : Log K P} {v : ℕ} {s : Stamp K P} (h : v < s.version) :
    upTo (s :: log) v = upTo log v := List.filter_cons_of_neg (by simpa using h)

/-- Later changes do not matter for a version. -/
theorem liveAt_upTo [DecidableEq K] (log : Log K P) (k : K) {v t : ℕ} (hle : v ≤ t) :
    liveAt (upTo log t) k v = liveAt log k v := by
  unfold liveAt upTo
  rw [List.find?_filter]
  congr 2
  funext s
  by_cases hs : s.version ≤ v
  · simp [hs, hs.trans hle, beq_eq_decide]
  · simp [hs]

theorem mem_of_liveAt [DecidableEq K] {log : Log K P} {k : K} {v : ℕ} {p : P}
    (h : liveAt log k v = some p) : ∃ s ∈ upTo log v, s.key = k := by
  obtain ⟨s, hfind, -⟩ := Option.bind_eq_some_iff.mp h
  have hs := List.find?_some hfind
  simp only [Bool.and_eq_true, beq_iff_eq, decide_eq_true_eq] at hs
  exact ⟨s, mem_upTo.mpr ⟨List.mem_of_find?_eq_some hfind, hs.2⟩, hs.1⟩

end CMVBT.VersionedLog
