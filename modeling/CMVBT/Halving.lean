import Mathlib.Data.List.Sort
import Mathlib.Tactic.Order

/-!
# Sorting by key and cutting in the middle

A key split and a redistribution do the same thing to a list of page units:
order them by key, cut the list in the middle, report the first key of the
second half as the separator, and bring each half back into version order.
`sorted_by_key` and `sort_by_key` are stable, as is `insertionSort`.
-/
namespace CMVBT.Halving

variable {α K : Type} [LinearOrder K]

/-- `sorted_by_key`, ascending and stable. -/
def sortedBy (key : α → K) (l : List α) : List α :=
  l.insertionSort (fun a b => key a ≤ key b)

theorem sortedBy_perm (key : α → K) (l : List α) : (sortedBy key l).Perm l :=
  List.perm_insertionSort _ l

@[simp] theorem mem_sortedBy {key : α → K} {l : List α} {a : α} : a ∈ sortedBy key l ↔ a ∈ l :=
  (sortedBy_perm key l).mem_iff

@[simp] theorem length_sortedBy (key : α → K) (l : List α) :
    (sortedBy key l).length = l.length := (sortedBy_perm key l).length_eq

theorem sortedBy_sorted (key : α → K) (l : List α) :
    (sortedBy key l).Pairwise (fun a b => key a ≤ key b) := by
  have : Std.Total (fun a b : α => key a ≤ key b) := ⟨fun a b => le_total _ _⟩
  have : IsTrans α (fun a b : α => key a ≤ key b) := ⟨fun _ _ _ => le_trans⟩
  exact List.pairwise_insertionSort _ l

/-- With distinct keys the sorted list is strictly ascending. -/
theorem sortedBy_strict {key : α → K} {l : List α} (h : (l.map key).Nodup) :
    (sortedBy key l).Pairwise (fun a b => key a < key b) := by
  have hnd : ((sortedBy key l).map key).Nodup := ((sortedBy_perm key l).map key).nodup_iff.mpr h
  have hne : (sortedBy key l).Pairwise (fun a b => key a ≠ key b) := List.pairwise_map.mp hnd
  exact (sortedBy_sorted key l).imp₂ (fun a b hle hne => lt_of_le_of_ne hle hne) hne

/-- The two halves in version order and the separator. `none` stands for the
unchecked read of the first element of an empty second half. -/
def halve (key : α → K) (stamp : α → ℕ) (joined : List α) : Option (List α × K × List α) :=
  match joined.drop (joined.length / 2) with
  | [] => none
  | m :: second =>
    some (sortedBy stamp (joined.take (joined.length / 2)), key m, sortedBy stamp (m :: second))

/-- What a cut in the middle guarantees. -/
structure Cut (key : α → K) (stamp : α → ℕ) (joined left : List α) (m : K) (right : List α) :
    Prop where
  perm : (left ++ right).Perm joined
  left_lt : ∀ a ∈ left, key a < m
  right_ge : ∀ a ∈ right, m ≤ key a
  sep_mem : ∃ a ∈ right, key a = m
  left_length : left.length = joined.length / 2
  right_length : right.length = joined.length - joined.length / 2
  left_sorted : left.Pairwise (fun a b => stamp a ≤ stamp b)
  right_sorted : right.Pairwise (fun a b => stamp a ≤ stamp b)

theorem halve_cut {key : α → K} (stamp : α → ℕ) {joined : List α} (hne : joined ≠ [])
    (h : joined.Pairwise (fun a b => key a < key b)) :
    ∃ left m right, halve key stamp joined = some (left, m, right) ∧
      Cut key stamp joined left m right := by
  have hpos : 0 < joined.length := List.length_pos_iff.mpr hne
  have hlen : (joined.drop (joined.length / 2)).length = joined.length - joined.length / 2 := by
    simp
  cases hd : joined.drop (joined.length / 2) with
  | nil =>
    rw [hd] at hlen
    simp only [List.length_nil] at hlen
    omega
  | cons m second =>
    have hsplit : joined.take (joined.length / 2) ++ m :: second = joined := by
      rw [← hd, List.take_append_drop]
    have hpw := h
    rw [← hsplit, List.pairwise_append] at hpw
    obtain ⟨-, hright, hcross⟩ := hpw
    refine ⟨_, _, _, by simp only [halve, hd]; rfl, ?_⟩
    refine
      { perm := ?_
        left_lt := ?_
        right_ge := ?_
        sep_mem := ⟨m, by simp, rfl⟩
        left_length := by simp; omega
        right_length := ?_
        left_sorted := sortedBy_sorted _ _
        right_sorted := sortedBy_sorted _ _ }
    · have := (sortedBy_perm stamp (joined.take (joined.length / 2))).append
        (sortedBy_perm stamp (m :: second))
      rwa [hsplit] at this
    · intro a ha
      exact hcross a (mem_sortedBy.mp ha) m (by simp)
    · intro a ha
      rcases List.mem_cons.mp (mem_sortedBy.mp ha) with rfl | ha
      · exact le_rfl
      · exact (List.rel_of_pairwise_cons hright ha).le
    · rw [hd] at hlen
      simpa using hlen

/-- Merging two ascending lists whose keys do not meet is strictly ascending. -/
theorem merge_strict {key : α → K} {le : α → α → Bool} {l m : List α}
    (hle : ∀ a ∈ l, ∀ b ∈ m, (le a b = true ↔ key a < key b))
    (hl : l.Pairwise (fun a b => key a < key b)) (hm : m.Pairwise (fun a b => key a < key b))
    (hne : ∀ a ∈ l, ∀ b ∈ m, key a ≠ key b) :
    (l.merge m le).Pairwise (fun a b => key a < key b) := by
  induction l generalizing m with
  | nil => simpa using hm
  | cons a l ihl =>
    induction m with
    | nil => simpa using hl
    | cons b m ihm =>
      rw [List.merge]
      split
      · next hab =>
        have hlt := (hle a (by simp) b (by simp)).mp hab
        refine List.pairwise_cons.mpr ⟨?_, ?_⟩
        · intro c hc
          rcases List.mem_append.mp ((List.merge_perm_append le).mem_iff.mp hc) with hc | hc
          · exact List.rel_of_pairwise_cons hl hc
          · rcases List.mem_cons.mp hc with rfl | hc
            · exact hlt
            · exact hlt.trans (List.rel_of_pairwise_cons hm hc)
        · exact ihl (fun x hx y hy => hle x (by simp [hx]) y hy) hl.of_cons hm
            (fun x hx y hy => hne x (by simp [hx]) y hy)
      · next hab =>
        have hlt : key b < key a := by
          have h₁ : ¬ key a < key b := fun h => hab ((hle a (by simp) b (by simp)).mpr h)
          have h₂ := hne a (by simp) b (by simp)
          order
        refine List.pairwise_cons.mpr ⟨?_, ?_⟩
        · intro c hc
          rcases List.mem_append.mp ((List.merge_perm_append le).mem_iff.mp hc) with hc | hc
          · rcases List.mem_cons.mp hc with rfl | hc
            · exact hlt
            · exact hlt.trans (List.rel_of_pairwise_cons hl hc)
          · exact List.rel_of_pairwise_cons hm hc
        · exact ihm (fun x hx y hy => hle x hx y (by simp [hy])) hm.of_cons
            (fun x hx y hy => hne x hx y (by simp [hy]))

end CMVBT.Halving
