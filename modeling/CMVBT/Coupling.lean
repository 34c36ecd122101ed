import Mathlib.Logic.Basic
import Mathlib.Data.Option.Basic

/-!
# Runs of fallible programs

A computation yields a property if all values it returns have it. Two computations
are coupled by a relation when they fail alike, or both return and their values are
related. The rules follow the shape of a program: return, failure and sequencing.
-/
namespace CMVBT.Coupling

variable {E A B C D : Type}

def Yields (P : A → Prop) (x : Except E A) : Prop := ∀ a, x = .ok a → P a

namespace Yields
variable {P : A → Prop} {Q : B → Prop} {x : Except E A}

theorem ok {a : A} (h : P a) : Yields P (.ok a : Except E A) := by
  intro b hb
  cases hb
  exact h

theorem error (e : E) : Yields P (.error e) := by
  intro b hb
  cases hb

theorem bind {f : A → Except E B} (h : Yields P x) (hf : ∀ a, P a → Yields Q (f a)) :
    Yields Q (x >>= f) := by
  cases x with
  | ok a => exact hf a (h a rfl)
  | error e => exact .error e

/-- What the first part returns does not matter. -/
theorem bind_any {f : A → Except E B} (hf : ∀ a, Yields Q (f a)) : Yields Q (x >>= f) :=
  bind (P := fun _ => True) (fun _ _ => trivial) (fun a _ => hf a)

theorem mono {P' : A → Prop} (h : Yields P x) (hp : ∀ a, P a → P' a) : Yields P' x :=
  fun a ha => hp a (h a ha)

end Yields

inductive Coupled (R : A → B → Prop) : Except E A → Except E B → Prop
  | ok {a : A} {b : B} (h : R a b) : Coupled R (.ok a) (.ok b)
  | error (e : E) : Coupled R (.error e) (.error e)

/-- Related states with one and the same answer. -/
def Beside (R : A → B → Prop) (p : A × C) (q : B × C) : Prop := R p.1 q.1 ∧ q.2 = p.2

/-- Related states, or none on either side. -/
def Both (R : A → B → Prop) : Option A → Option B → Prop
  | some a, some b => R a b
  | none, none => True
  | _, _ => False

namespace Coupled
variable {R : A → B → Prop} {S : C → D → Prop} {x : Except E A} {y : Except E B}

theorem bind {f : A → Except E C} {g : B → Except E D} (h : Coupled R x y)
    (hf : ∀ a b, R a b → Coupled S (f a) (g b)) : Coupled S (x >>= f) (y >>= g) := by
  cases h with
  | ok h => exact hf _ _ h
  | error e => exact .error e

theorem mono {R' : A → B → Prop} (h : Coupled R x y) (hr : ∀ a b, R a b → R' a b) :
    Coupled R' x y := by
  cases h with
  | ok h => exact .ok (hr _ _ h)
  | error e => exact .error e

/-- A computation beside itself. -/
theorem refl {R : A → A → Prop} (hr : ∀ a, R a a) (x : Except E A) : Coupled R x x := by
  cases x with
  | ok a => exact .ok (hr a)
  | error e => exact .error e

theorem bind_beside {X : Type} {x : Except E (A × X)} {y : Except E (B × X)}
    {f : A × X → Except E C} {g : B × X → Except E D} (h : Coupled (Beside R) x y)
    (hf : ∀ a b c, R a b → Coupled S (f (a, c)) (g (b, c))) :
    Coupled S (x >>= f) (y >>= g) := by
  apply h.bind
  rintro ⟨a, c⟩ ⟨b, d⟩ ⟨hr, hd⟩
  cases hd
  exact hf a b c hr

theorem bind_both {x : Except E (Option A)} {y : Except E (Option B)}
    {f : Option A → Except E C} {g : Option B → Except E D} (h : Coupled (Both R) x y)
    (hnone : Coupled S (f none) (g none))
    (hf : ∀ a b, R a b → Coupled S (f (some a)) (g (some b))) :
    Coupled S (x >>= f) (y >>= g) := by
  apply h.bind
  intro a b hr
  cases a with
  | none =>
    cases b with
    | none => exact hnone
    | some b => exact hr.elim
  | some a =>
    cases b with
    | none => exact hr.elim
    | some b => exact hf a b hr

/-- A question with one answer on both sides, asked before the program goes on. -/
theorem bind_same {f : A → Except E C} {g : A → Except E D} {x y : Except E A} (h : y = x)
    (hf : ∀ a, Coupled S (f a) (g a)) : Coupled S (x >>= f) (y >>= g) := by
  subst h
  cases y with
  | ok a => exact hf a
  | error e => exact .error e

theorem exists_right {a : A} (h : Coupled R x y) (hx : x = .ok a) : ∃ b, y = .ok b ∧ R a b := by
  cases h with
  | ok h =>
    cases hx
    exact ⟨_, rfl, h⟩
  | error e => cases hx

/-- Coupled runs give the same answer. -/
theorem map_snd {X : Type} {x : Except E (A × X)} {y : Except E (B × X)}
    (h : Coupled (Beside R) x y) : y.map Prod.snd = x.map Prod.snd := by
  cases h with
  | ok h => exact congrArg Except.ok h.2
  | error e => rfl

end Coupled

end CMVBT.Coupling
