import Mathlib.Algebra.BigOperators.Group.Multiset.Basic
import Mathlib.Logic.Relation

/-!
# Pools of activities that owe something

Any number of activities share a state. In a step one activity acts on the
shared state and turns into finitely many others, or new activities are started.
The shared state keeps a book; every activity owes a part of it. When each step
books what the activities it leaves behind owe more or less, the book and the
debts agree along every run.
-/
namespace CMVBT.ActivityPool

variable {S A M : Type}

structure Pool (S A : Type) where
  shared : S
  acts : Multiset A

/-- One step: `spawn` starts activities, `react` replaces one of them. -/
inductive Moves (spawn : S → S → Multiset A → Prop) (react : A → S → S → Multiset A → Prop) :
    Pool S A → Pool S A → Prop
  | spawn {s s' : S} {new : Multiset A} (rest : Multiset A) : spawn s s' new →
      Moves spawn react ⟨s, rest⟩ ⟨s', new + rest⟩
  | react {a : A} {s s' : S} {new : Multiset A} (rest : Multiset A) : react a s s' new →
      Moves spawn react ⟨s, a ::ₘ rest⟩ ⟨s', new + rest⟩

def Run (spawn : S → S → Multiset A → Prop) (react : A → S → S → Multiset A → Prop) :
    Pool S A → Pool S A → Prop :=
  Relation.ReflTransGen (Moves spawn react)

/-- What activities owe together. -/
def debt [AddCommMonoid M] (owed : A → M) (acts : Multiset A) : M := (acts.map owed).sum

section Debt
variable [AddCommMonoid M] (owed : A → M)

@[simp] theorem debt_zero : debt owed 0 = 0 := by simp [debt]

@[simp] theorem debt_cons (a : A) (acts : Multiset A) :
    debt owed (a ::ₘ acts) = owed a + debt owed acts := by simp [debt]

@[simp] theorem debt_singleton (a : A) : debt owed {a} = owed a := by simp [debt]

@[simp] theorem debt_add (acts acts' : Multiset A) :
    debt owed (acts + acts') = debt owed acts + debt owed acts' := by simp [debt]

end Debt

namespace Run
variable {spawn : S → S → Multiset A → Prop} {react : A → S → S → Multiset A → Prop}
  {c c' : Pool S A}

theorem refl (c : Pool S A) : Run spawn react c c := Relation.ReflTransGen.refl

/-- One activity starts. -/
theorem starts {s s' : S} {a : A} {acts : Multiset A} (h : Run spawn react c ⟨s, acts⟩)
    (hs : spawn s s' {a}) : Run spawn react c ⟨s', a ::ₘ acts⟩ := by
  rw [← Multiset.singleton_add]
  exact Relation.ReflTransGen.tail h (.spawn acts hs)

theorem reacts {s s' : S} {a : A} {rest new : Multiset A}
    (h : Run spawn react c ⟨s, a ::ₘ rest⟩) (hs : react a s s' new) :
    Run spawn react c ⟨s', new + rest⟩ :=
  Relation.ReflTransGen.tail h (.react rest hs)

/-- One activity turns into another. -/
theorem turns {s s' : S} {a b : A} {rest : Multiset A}
    (h : Run spawn react c ⟨s, a ::ₘ rest⟩) (hs : react a s s' {b}) :
    Run spawn react c ⟨s', b ::ₘ rest⟩ := by
  rw [← Multiset.singleton_add]
  exact h.reacts hs

/-- A book that every step keeps in line with the debts of the activities it
removes and starts stays in line with all debts. -/
theorem balanced [AddCommMonoid M] {J : S → Prop} {f : S → M} {d : A → M}
    (hspawn : ∀ s s' new, spawn s s' new → J s →
      J s' ∧ f s' = debt d new + f s)
    (hreact : ∀ a s s' new rest, react a s s' new → J s → f s = d a + rest →
      J s' ∧ f s' = debt d new + rest)
    (h : Run spawn react c c') (hinv : J c.shared) (hbook : f c.shared = debt d c.acts) :
    J c'.shared ∧ f c'.shared = debt d c'.acts := by
  induction h with
  | refl => exact ⟨hinv, hbook⟩
  | tail _ hm ih =>
    obtain ⟨hi, hb⟩ := ih
    cases hm with
    | spawn rest hs =>
      obtain ⟨hi', hb'⟩ := hspawn _ _ _ hs hi
      refine ⟨hi', ?_⟩
      rw [hb', debt_add]
      exact congrArg _ hb
    | react rest hs =>
      obtain ⟨hi', hb'⟩ := hreact _ _ _ _ (debt d rest) hs hi (by rw [hb, debt_cons])
      exact ⟨hi', by rw [hb', debt_add]⟩

end Run

end CMVBT.ActivityPool
