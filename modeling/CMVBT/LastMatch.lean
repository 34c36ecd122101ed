import Mathlib.Data.List.Forall2
import Mathlib.Data.Option.Basic

/-!
# The last element of a list that satisfies a test

Slices are searched from the end (`rfind`) whenever the newest of several
matching entries counts. `List.findRev?` returns that entry; `lastIdx?` returns
its position, for the searches whose result is written to afterwards.
-/
namespace CMVBT.LastMatch

variable {α β : Type}

/-- Position of the last element that satisfies `p`. -/
def lastIdx? (p : α → Bool) : List α → Option ℕ
  | [] => none
  | a :: l =>
    match lastIdx? p l with
    | some i => some (i + 1)
    | none => if p a then some 0 else none

theorem lastIdx?_eq_none {p : α → Bool} {l : List α} :
    lastIdx? p l = none ↔ ∀ a ∈ l, p a = false := by
  induction l with
  | nil => simp [lastIdx?]
  | cons a l ih =>
    cases h : lastIdx? p l with
    | none =>
      have := ih.mp h
      simp only [lastIdx?, h, List.mem_cons, forall_eq_or_imp]
      constructor
      · intro hp
        exact ⟨by simpa using hp, this⟩
      · rintro ⟨ha, -⟩
        simp [ha]
    | some i =>
      have hne : ¬ ∀ a ∈ l, p a = false := fun hall => by simp [ih.mpr hall] at h
      simp only [lastIdx?, h, reduceCtorEq, List.mem_cons, forall_eq_or_imp, false_iff, not_and]
      exact fun _ => hne

/-- Every list splits at its last match. -/
theorem lastIdx?_eq_some {p : α → Bool} {l : List α} {i : ℕ} :
    lastIdx? p l = some i ↔ ∃ l₁ a l₂, l = l₁ ++ a :: l₂ ∧ l₁.length = i ∧ p a = true ∧
      ∀ b ∈ l₂, p b = false := by
  induction l generalizing i with
  | nil => simp [lastIdx?]
  | cons a l ih =>
    cases h : lastIdx? p l with
    | some j =>
      obtain ⟨l₁, b, l₂, rfl, rfl, hb, hl₂⟩ := ih.mp h
      simp only [lastIdx?, h, Option.some.injEq]
      constructor
      · rintro rfl
        exact ⟨a :: l₁, b, l₂, rfl, rfl, hb, hl₂⟩
      · rintro ⟨m₁, c, m₂, heq, rfl, hc, hm₂⟩
        cases m₁ with
        | nil =>
          simp only [List.nil_append, List.cons.injEq] at heq
          have := hm₂ b (by simp [← heq.2])
          simp [hb] at this
        | cons d m₁ =>
          simp only [List.cons_append, List.cons.injEq] at heq
          have := ih.mpr ⟨m₁, c, m₂, heq.2, rfl, hc, hm₂⟩
          rw [h] at this
          simpa using this
    | none =>
      have hnone := lastIdx?_eq_none.mp h
      simp only [lastIdx?, h]
      constructor
      · intro hi
        split at hi
        · next ha =>
          simp only [Option.some.injEq] at hi
          exact ⟨[], a, l, rfl, by simpa using hi, ha, hnone⟩
        · simp at hi
      · rintro ⟨m₁, c, m₂, heq, rfl, hc, -⟩
        cases m₁ with
        | nil =>
          simp only [List.nil_append, List.cons.injEq] at heq
          simp [heq.1, hc]
        | cons d m₁ =>
          simp only [List.cons_append, List.cons.injEq] at heq
          have := hnone c (by simp [heq.2])
          simp [hc] at this

theorem findRev?_split {p : α → Bool} {l₁ l₂ : List α} {a : α} (ha : p a = true)
    (h : ∀ b ∈ l₂, p b = false) : (l₁ ++ a :: l₂).findRev? p = some a := by
  have hnone : l₂.reverse.find? p = none := by
    rw [List.find?_eq_none]
    intro b hb
    simp [h b (List.mem_reverse.mp hb)]
  simp [hnone, ha]

theorem findRev?_eq_none {p : α → Bool} {l : List α} :
    l.findRev? p = none ↔ ∀ a ∈ l, p a = false := by
  simp

theorem findRev?_mem {p : α → Bool} {l : List α} {a : α} (h : l.findRev? p = some a) : a ∈ l := by
  rw [List.findRev?_eq_find?_reverse] at h
  exact List.mem_reverse.mp (List.mem_of_find?_eq_some h)

theorem findRev?_pos {p : α → Bool} {l : List α} {a : α} (h : l.findRev? p = some a) :
    p a = true := by
  rw [List.findRev?_eq_find?_reverse] at h
  exact List.find?_some h

theorem findRev?_isSome {p : α → Bool} {l : List α} {a : α} (ha : a ∈ l) (hp : p a = true) :
    ∃ b, l.findRev? p = some b := by
  cases h : l.findRev? p with
  | some b => exact ⟨b, rfl⟩
  | none => simp [findRev?_eq_none.mp h a ha] at hp

theorem findRev?_append (p : α → Bool) (l m : List α) :
    (l ++ m).findRev? p = (m.findRev? p).or (l.findRev? p) := by
  simp

theorem findRev?_congr {p q : α → Bool} {l : List α} (h : ∀ a ∈ l, p a = q a) :
    l.findRev? p = l.findRev? q := by
  induction l with
  | nil => rfl
  | cons a l ih =>
    rw [show a :: l = [a] ++ l from rfl, findRev?_append, findRev?_append,
      ih (fun b hb => h b (by simp [hb]))]
    simp [h a (by simp)]

/-- The last match and what lies behind it. -/
theorem findRev?_behind {q : α → Bool} {l : List α} {a : α}
    (h : l.findRev? q = some a) : ∃ l₁ l₂, l = l₁ ++ a :: l₂ ∧ ∀ x ∈ l₂, q x = false := by
  rw [List.findRev?_eq_find?_reverse, List.find?_eq_some_iff_append] at h
  obtain ⟨-, l₂, l₁, hl, hbehind⟩ := h
  refine ⟨l₁.reverse, l₂.reverse, ?_, ?_⟩
  · rw [← List.reverse_reverse l, hl]
    simp
  · intro x hx
    simpa using hbehind x (List.mem_reverse.mp hx)

/-- Position by position related lists have related last matches. -/
theorem findRev?_forall₂ {R : α → β → Prop} {p : α → Bool} {q : β → Bool} {l : List α}
    {m : List β} (h : List.Forall₂ R l m) (hpq : ∀ a b, R a b → p a = q b) :
    Option.Rel R (l.findRev? p) (m.findRev? q) := by
  induction h with
  | nil => exact .none
  | @cons a b l m hab _ ih =>
    rw [show a :: l = [a] ++ l from rfl, show b :: m = [b] ++ m from rfl, findRev?_append,
      findRev?_append]
    cases hl : l.findRev? p with
    | some x =>
      cases hm : m.findRev? q with
      | some y => rwa [hl, hm] at ih
      | none => rw [hl, hm] at ih; cases ih
    | none =>
      cases hm : m.findRev? q with
      | some y => rw [hl, hm] at ih; cases ih
      | none =>
        cases hp : p a with
        | true => simpa [hp, ← hpq a b hab] using Option.Rel.some hab
        | false => simp [hp, ← hpq a b hab]

end CMVBT.LastMatch
