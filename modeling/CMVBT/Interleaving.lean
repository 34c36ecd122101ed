import Mathlib.Logic.Function.Basic
import Mathlib.Logic.Relation
import Mathlib.Order.Nat

/-!
# Interleavings of atomic steps

Threads share a state and have one local state each. In a step one thread moves:
it changes the shared state and its own local state. A run is any sequence of
steps. The rules below turn facts about single steps into facts about all runs;
a step may be restricted by a condition on the whole configuration before it.
-/
namespace CMVBT.Interleaving

variable {I S L : Type} [DecidableEq I]

structure Config (I S L : Type) where
  shared : S
  pc : I → L

namespace Config

/-- Thread `i` moves to the local state `l` and leaves the shared state `s`. -/
def move (c : Config I S L) (i : I) (s : S) (l : L) : Config I S L :=
  ⟨s, Function.update c.pc i l⟩

variable (c : Config I S L) (i : I) (s : S) (l : L)

@[simp] theorem move_shared : (c.move i s l).shared = s := rfl

@[simp] theorem move_pc_self : (c.move i s l).pc i = l := by simp [move]

@[simp] theorem move_pc_other {j : I} (h : j ≠ i) : (c.move i s l).pc j = c.pc j := by
  simp [move, h]

/-- What holds of the mover and of every other thread holds of all threads. -/
theorem forall_move {A : I → L → Prop} (hself : A i l) (hother : ∀ j, j ≠ i → A j (c.pc j)) :
    ∀ j, A j ((c.move i s l).pc j) := by
  intro j
  by_cases hj : j = i
  · subst hj
    rwa [move_pc_self]
  · rw [move_pc_other c i s l hj]
    exact hother j hj

end Config

/-- One step of one thread under the condition `ok` on the configuration. -/
inductive Moves (step : I → S → L → S → L → Prop) (ok : I → Config I S L → Prop) :
    Config I S L → Config I S L → Prop
  | mk {c : Config I S L} (i : I) {s : S} {l : L} : ok i c → step i c.shared (c.pc i) s l →
      Moves step ok c (c.move i s l)

/-- All steps of the system. -/
def Anytime (_ : I) (_ : Config I S L) : Prop := True

def Run (step : I → S → L → S → L → Prop) (ok : I → Config I S L → Prop) :
    Config I S L → Config I S L → Prop :=
  Relation.ReflTransGen (Moves step ok)

namespace Run
variable {step : I → S → L → S → L → Prop} {ok : I → Config I S L → Prop}
  {c c' c'' : Config I S L}

theorem refl (c : Config I S L) : Run step ok c c := Relation.ReflTransGen.refl

theorem trans (h : Run step ok c c') (h' : Run step ok c' c'') : Run step ok c c'' :=
  Relation.ReflTransGen.trans h h'

theorem next (h : Run step ok c c') (i : I) {s : S} {l : L} (hok : ok i c')
    (hs : step i c'.shared (c'.pc i) s l) : Run step ok c (c'.move i s l) :=
  Relation.ReflTransGen.tail h (.mk i hok hs)

/-- A new run from where another one has ended, under another condition. -/
theorem here (_ : Run step ok c c') (ok' : I → Config I S L → Prop) : Run step ok' c' c' :=
  refl c'

/-- A run of the whole system extended by one step. -/
theorem move (h : Run step Anytime c c') (i : I) {s : S} {l : L}
    (hs : step i c'.shared (c'.pc i) s l) : Run step Anytime c (c'.move i s l) :=
  h.next i trivial hs

/-- A restricted run is a run of the system. -/
theorem anytime (h : Run step ok c c') : Run step Anytime c c' := by
  induction h with
  | refl => exact refl c
  | tail _ hm ih =>
    cases hm with
    | mk i _ hs => exact ih.move i hs

/-- What every permitted step preserves holds along every run. -/
theorem preserves {J : Config I S L → Prop}
    (hstep : ∀ c i s l, ok i c → step i c.shared (c.pc i) s l → J c → J (c.move i s l))
    (h : Run step ok c c') (hc : J c) : J c' := by
  induction h with
  | refl => exact hc
  | tail _ hm ih =>
    cases hm with
    | mk i hok hs => exact hstep _ i _ _ hok hs ih

/-- A quantity of the shared state that no step decreases. -/
theorem monotone {f : S → ℕ} (hstep : ∀ i s l s' l', step i s l s' l' → f s ≤ f s')
    (h : Run step ok c c') : f c.shared ≤ f c'.shared := by
  refine h.preserves (J := fun x => f c.shared ≤ f x.shared) ?_ le_rfl
  intro x i s l _ hs hle
  exact hle.trans (hstep i _ _ _ _ hs)

end Run

end CMVBT.Interleaving
