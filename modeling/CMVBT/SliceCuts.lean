import Mathlib.Data.List.Nodup
import Mathlib.Data.Nat.Basic
import Mathlib.Order.MinMax

/-!
# Cutting and thinning slices

Two library functions that the eager range read is built from. `binary_search_by`
is fixed by its documentation only up to the choice among equal elements, so
`BinarySearch` is any function that keeps the documented promise on ascending
slices. `unique_by` keeps the first element of every key.
-/
namespace CMVBT.SliceCuts

/-! ## `binary_search_by` -/

/-- `ok` is the `Ok` of the source, some position of the value; `error` is its
`Err`, the position where the value could be inserted. Nothing is promised for a
slice that does not ascend. -/
structure BinarySearch where
  search : List ℕ → ℕ → Except ℕ ℕ
  found : ∀ l v i, l.Pairwise (· ≤ ·) → search l v = .ok i → l[i]? = some v
  missing : ∀ l v i, l.Pairwise (· ≤ ·) → search l v = .error i →
    i ≤ l.length ∧ (∀ x ∈ l.take i, x < v) ∧ ∀ x ∈ l.drop i, v < x

namespace BinarySearch
variable {l : List ℕ} {v : ℕ}

/-- `unwrap_or_else(|pos| pos)`. -/
def cut (s : BinarySearch) (l : List ℕ) (v : ℕ) : ℕ :=
  match s.search l v with
  | .ok pos => pos
  | .error pos => pos

theorem cut_le (s : BinarySearch) (h : l.Pairwise (· ≤ ·)) (v : ℕ) : s.cut l v ≤ l.length := by
  rw [cut]
  cases hs : s.search l v with
  | ok pos => exact (List.getElem?_eq_some_iff.mp (s.found l v pos h hs)).1.le
  | error pos => exact (s.missing l v pos h hs).1

/-- What lies behind the cut is not older than the value. -/
theorem le_of_mem_drop (s : BinarySearch) (h : l.Pairwise (· ≤ ·)) {x : ℕ}
    (hx : x ∈ l.drop (s.cut l v)) : v ≤ x := by
  rw [cut] at hx
  cases hs : s.search l v with
  | error pos =>
    rw [hs] at hx
    exact ((s.missing l v pos h hs).2.2 x hx).le
  | ok pos =>
    rw [hs] at hx
    obtain ⟨hlt, hget⟩ := List.getElem?_eq_some_iff.mp (s.found l v pos h hs)
    have hdrop := h.sublist (List.drop_sublist pos l)
    rw [List.drop_eq_getElem_cons hlt, hget] at hdrop hx
    rcases List.mem_cons.mp hx with rfl | hx
    · exact le_rfl
    · exact List.rel_of_pairwise_cons hdrop hx

/-- The search that finds the first of several equal elements. -/
def leftmost : BinarySearch where
  search l v :=
    let pos := l.findIdx (fun x => decide (v ≤ x))
    if l[pos]? = some v then .ok pos else .error pos
  found l v i _ h := by
    simp only at h
    split at h
    · next hget =>
      cases h
      exact hget
    · cases h
  missing l v i hl h := by
    simp only at h
    split at h
    · cases h
    · next hget =>
      cases h
      refine ⟨List.findIdx_le_length, ?_, ?_⟩
      · intro x hx
        obtain ⟨j, hj, rfl⟩ := List.mem_take_iff_getElem.mp hx
        have := List.not_of_lt_findIdx (lt_min_iff.mp hj).1
        simpa using this
      · intro x hx
        by_cases hlt : l.findIdx (fun x => decide (v ≤ x)) < l.length
        · have hge : v ≤ l[l.findIdx (fun x => decide (v ≤ x))] := by
            simpa using List.findIdx_getElem (w := hlt)
          have hne : v ≠ l[l.findIdx (fun x => decide (v ≤ x))] := by
            rintro heq
            exact hget (List.getElem?_eq_some_iff.mpr ⟨hlt, heq.symm⟩)
          have hdrop := hl.sublist (List.drop_sublist (l.findIdx (fun x => decide (v ≤ x))) l)
          rw [List.drop_eq_getElem_cons hlt] at hdrop hx
          rcases List.mem_cons.mp hx with rfl | hx
          · exact lt_of_le_of_ne hge hne
          · exact (lt_of_le_of_ne hge hne).trans_le (List.rel_of_pairwise_cons hdrop hx)
        · rw [List.drop_eq_nil_of_le (not_lt.mp hlt)] at hx
          cases hx

end BinarySearch

/-! ## `unique_by` -/

section Unique
variable {α κ : Type} [DecidableEq κ] {key : α → κ} {seen : List κ} {l l₁ l₂ : List α} {a : α}

/-- The elements whose key has not been seen, each key once. -/
def uniqueFrom (key : α → κ) : List κ → List α → List α
  | _, [] => []
  | seen, a :: l =>
    if key a ∈ seen then uniqueFrom key seen l else a :: uniqueFrom key (key a :: seen) l

def uniqueBy (key : α → κ) (l : List α) : List α := uniqueFrom key [] l

/-- Only which keys have been seen matters. -/
theorem uniqueFrom_congr {seen' : List κ} (h : ∀ k, k ∈ seen ↔ k ∈ seen') :
    uniqueFrom key seen l = uniqueFrom key seen' l := by
  induction l generalizing seen seen' with
  | nil => rfl
  | cons a l ih =>
    have hcons : ∀ k, k ∈ key a :: seen ↔ k ∈ key a :: seen' := by simp [h]
    simp only [uniqueFrom, h]
    rw [ih h, ih hcons]

theorem uniqueFrom_append :
    uniqueFrom key seen (l₁ ++ l₂) =
      uniqueFrom key seen l₁ ++ uniqueFrom key (l₁.map key ++ seen) l₂ := by
  induction l₁ generalizing seen with
  | nil => rfl
  | cons a l₁ ih =>
    simp only [List.cons_append, uniqueFrom, List.map_cons]
    split
    · next hseen =>
      rw [ih]
      congr 1
      apply uniqueFrom_congr
      intro k
      simp only [List.mem_append, List.mem_cons]
      constructor
      · exact .inr
      · rintro (rfl | h)
        · exact .inr hseen
        · exact h
    · rw [ih]
      rw [List.cons_append]
      congr 2
      apply uniqueFrom_congr
      intro k
      simp only [List.mem_append, List.mem_cons]
      tauto

theorem mem_uniqueFrom (h : a ∈ uniqueFrom key seen l) : a ∈ l ∧ key a ∉ seen := by
  induction l generalizing seen with
  | nil => cases h
  | cons b l ih =>
    rw [uniqueFrom] at h
    split at h
    · obtain ⟨hmem, hkey⟩ := ih h
      exact ⟨List.mem_cons_of_mem _ hmem, hkey⟩
    · next hseen =>
      rcases List.mem_cons.mp h with rfl | h
      · exact ⟨List.mem_cons_self, hseen⟩
      · obtain ⟨hmem, hkey⟩ := ih h
        exact ⟨List.mem_cons_of_mem _ hmem, fun hk => hkey (List.mem_cons_of_mem _ hk)⟩

theorem mem_of_mem_uniqueBy (h : a ∈ uniqueBy key l) : a ∈ l := (mem_uniqueFrom h).1

theorem uniqueFrom_nodup : ((uniqueFrom key seen l).map key).Nodup := by
  induction l generalizing seen with
  | nil => exact List.nodup_nil
  | cons a l ih =>
    rw [uniqueFrom]
    split
    · exact ih
    · rw [List.map_cons, List.nodup_cons]
      refine ⟨?_, ih⟩
      intro hmem
      obtain ⟨b, hb, heq⟩ := List.mem_map.mp hmem
      exact (mem_uniqueFrom hb).2 (by rw [heq]; exact List.mem_cons_self)

/-- The first element of its key stays, behind what stays of the elements in front. -/
theorem uniqueBy_first (h : ∀ x ∈ l₁, key x ≠ key a) :
    ∃ rest, uniqueBy key (l₁ ++ a :: l₂) = uniqueBy key l₁ ++ a :: rest := by
  refine ⟨uniqueFrom key (key a :: (l₁.map key ++ [])) l₂, ?_⟩
  rw [uniqueBy, uniqueFrom_append, uniqueBy, uniqueFrom, if_neg]
  simpa using h

theorem mem_uniqueBy_of_first (h : ∀ x ∈ l₁, key x ≠ key a) :
    a ∈ uniqueBy key (l₁ ++ a :: l₂) := by
  obtain ⟨rest, heq⟩ := @uniqueBy_first _ _ _ key _ l₂ _ h
  rw [heq]
  exact List.mem_append_right _ List.mem_cons_self

/-- What stays and does not lie in front has its key for itself there. -/
theorem first_of_mem_uniqueBy (h : a ∈ uniqueBy key (l₁ ++ l₂)) (hn : a ∉ l₁) :
    ∀ x ∈ l₁, key x ≠ key a := by
  rw [uniqueBy, uniqueFrom_append] at h
  rcases List.mem_append.mp h with h | h
  · exact absurd (mem_uniqueFrom h).1 hn
  · intro x hx heq
    apply (mem_uniqueFrom h).2
    rw [List.append_nil, ← heq]
    exact List.mem_map_of_mem hx

/-- Every element that stays is the first of its key. -/
theorem split_of_mem_uniqueFrom (h : a ∈ uniqueFrom key seen l) :
    ∃ l₁ l₂, l = l₁ ++ a :: l₂ ∧ ∀ x ∈ l₁, key x ≠ key a := by
  induction l generalizing seen with
  | nil => cases h
  | cons b l ih =>
    rw [uniqueFrom] at h
    split at h
    · next hseen =>
      obtain ⟨l₁, l₂, rfl, hfirst⟩ := ih h
      refine ⟨b :: l₁, l₂, rfl, ?_⟩
      intro x hx
      rcases List.mem_cons.mp hx with rfl | hx
      · rintro heq
        rw [heq] at hseen
        exact (mem_uniqueFrom h).2 hseen
      · exact hfirst x hx
    · rcases List.mem_cons.mp h with rfl | h
      · exact ⟨[], l, rfl, by simp⟩
      · obtain ⟨l₁, l₂, rfl, hfirst⟩ := ih h
        refine ⟨b :: l₁, l₂, rfl, ?_⟩
        intro x hx
        rcases List.mem_cons.mp hx with rfl | hx
        · rintro heq
          exact (mem_uniqueFrom h).2 (by rw [heq]; exact List.mem_cons_self)
        · exact hfirst x hx

end Unique

end CMVBT.SliceCuts
