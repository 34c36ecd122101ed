import CMVBT.PageModel
import Mathlib.Data.List.Infix
import Mathlib.Tactic.Order

/-!
# The frugal list behind the root index

Nodes are immutable and hold two links to older nodes: `next` to the previous
version and `v_ridgy` some number of versions further back. The initial node is
the sentinel, with the largest level and no links. Which node `v_ridgy` reaches
depends on coin tosses, so an append takes their outcome as an argument, and
every result below holds for all outcomes.
-/
namespace CMVBT.FrugalList
open PageModel

/-- `TowerLevel::MAX`. -/
def sentinelLevel : ℕ := 2 ^ 64 - 1

def flatLevel : ℕ := 0

inductive FrugalNode (α : Type) where
  | mk (next vRidgy : Option (FrugalNode α)) (payload : α) (insertVersion : ℕ) (level : ℕ)

namespace FrugalNode
variable {α : Type}

def next : FrugalNode α → Option (FrugalNode α)
  | mk n _ _ _ _ => n

def payload : FrugalNode α → α
  | mk _ _ p _ _ => p

def insertVersion : FrugalNode α → ℕ
  | mk _ _ _ v _ => v

def level : FrugalNode α → ℕ
  | mk _ _ _ _ l => l

def value (n : FrugalNode α) : α × ℕ := (n.payload, n.insertVersion)

end FrugalNode

/-- All values of a list, newest first. -/
def values {α : Type} : FrugalNode α → List (α × ℕ)
  | .mk none _ p v _ => [(p, v)]
  | .mk (some next) _ p v _ => (p, v) :: values next

/-- Outcome of the tosses of one append: no tower, or a tower and the number of
further heads that `pick_level` draws. -/
inductive Toss where
  | next
  | tower (heads : Fin (2 ^ 64 - 2))

/-- `pick_level`: towers start at level one. -/
def pickLevel (heads : Fin (2 ^ 64 - 2)) : ℕ := 1 + heads.val

theorem pickLevel_lt (heads : Fin (2 ^ 64 - 2)) : pickLevel heads < sentinelLevel := by
  have := heads.isLt
  simp only [pickLevel, sentinelLevel]
  omega

section Operations
variable {α : Type}

def new (payload : α) (insertVersion : ℕ) : FrugalNode α :=
  .mk none none payload insertVersion sentinelLevel

def appendNext (head : FrugalNode α) (payload : α) (insertVersion : ℕ) : FrugalNode α :=
  .mk (some head) (some head) payload insertVersion flatLevel

/-- The walk along `v_ridgy` to the first node of at least the new level. -/
def towerFrom : FrugalNode α → ℕ → Except Fault (FrugalNode α)
  | .mk next none p v lvl, newLevel =>
    if lvl < newLevel then .error .unreachable else .ok (.mk next none p v lvl)
  | .mk next (some r) p v lvl, newLevel =>
    if lvl < newLevel then towerFrom r newLevel else .ok (.mk next (some r) p v lvl)

def appendTower (head : FrugalNode α) (payload : α) (insertVersion : ℕ) (newLevel : ℕ) :
    Except Fault (FrugalNode α) := do
  let curr ← towerFrom head newLevel
  return .mk (some head) (some curr) payload insertVersion newLevel

def append (head : FrugalNode α) (payload : α) (insertVersion : ℕ) :
    Toss → Except Fault (FrugalNode α)
  | .tower heads => appendTower head payload insertVersion (pickLevel heads)
  | .next => .ok (appendNext head payload insertVersion)

/-- `find_from`: follow `v_ridgy` while it still lands above the snapshot. -/
def findFrom : FrugalNode α → ℕ → Except Fault (Option (FrugalNode α))
  | .mk next vRidgy p version lvl, v =>
    if lvl < sentinelLevel ∧ v < version then
      match vRidgy with
      | some r =>
        if v < r.insertVersion then findFrom r v
        else
          match next with
          | some n => findFrom n v
          | none => .error .unwrapNone
      | none =>
        match next with
        | some n => findFrom n v
        | none => .error .unwrapNone
    else .ok (if version ≤ v then some (.mk next vRidgy p version lvl) else none)

end Operations

/-- A node and the values reachable from it along `next`, newest first. -/
inductive Chain {α : Type} : FrugalNode α → List (α × ℕ) → Prop
  | sentinel (p : α) (v : ℕ) : Chain (.mk none none p v sentinelLevel) [(p, v)]
  | cons {n r : FrugalNode α} {l l' : List (α × ℕ)} {p : α} {v : ℕ} {lvl : ℕ} :
      Chain n l → Chain r l' → l' <:+ l → (∀ x ∈ l, x.2 < v) → lvl < sentinelLevel →
      Chain (.mk (some n) (some r) p v lvl) ((p, v) :: l)

namespace Chain
variable {α : Type} {n : FrugalNode α} {l : List (α × ℕ)}

theorem head (h : Chain n l) : ∃ t, l = n.value :: t := by
  cases h with
  | sentinel p v => exact ⟨[], rfl⟩
  | cons _ _ _ _ _ => exact ⟨_, rfl⟩

theorem values (h : Chain n l) : FrugalList.values n = l := by
  induction h with
  | sentinel p v => rfl
  | cons _ _ _ _ _ ih _ => rw [FrugalList.values, ih]

theorem descending (h : Chain n l) : l.Pairwise (fun x y => y.2 < x.2) := by
  induction h with
  | sentinel p v => exact List.pairwise_singleton _ _
  | cons _ _ _ hv _ ih _ => exact List.pairwise_cons.mpr ⟨fun x hx => hv x hx, ih⟩

theorem level_le (h : Chain n l) : n.level ≤ sentinelLevel := by
  cases h with
  | sentinel p v => exact le_rfl
  | cons _ _ _ _ hlvl => exact hlvl.le

/-- The walk always meets a node that is high enough, the sentinel at the latest. -/
theorem towerFrom (h : Chain n l) {newLevel : ℕ} (hlvl : newLevel ≤ sentinelLevel) :
    ∃ r l', towerFrom n newLevel = .ok r ∧ Chain r l' ∧ l' <:+ l := by
  induction h with
  | sentinel p v =>
    refine ⟨_, _, ?_, .sentinel p v, List.suffix_refl _⟩
    simp [FrugalList.towerFrom, not_lt.mpr hlvl]
  | @cons n r l l' p v lvl hn hr hsuf hv hl _ ih =>
    by_cases hlt : lvl < newLevel
    · obtain ⟨t, m, ht, hc, hm⟩ := ih
      refine ⟨t, m, ?_, hc, (hm.trans hsuf).trans (List.suffix_cons _ _)⟩
      simp [FrugalList.towerFrom, hlt, ht]
    · refine ⟨_, _, ?_, .cons hn hr hsuf hv hl, List.suffix_refl _⟩
      simp [FrugalList.towerFrom, hlt]

/-- Every toss appends, and `unreachable!` is not reached. -/
theorem append (h : Chain n l) {p : α} {v : ℕ} (hv : ∀ x ∈ l, x.2 < v) (toss : Toss) :
    ∃ m, FrugalList.append n p v toss = .ok m ∧ Chain m ((p, v) :: l) := by
  cases toss with
  | next =>
    refine ⟨_, rfl, .cons h h (List.suffix_refl _) hv ?_⟩
    simp [flatLevel, sentinelLevel]
  | tower heads =>
    have hlt := pickLevel_lt heads
    obtain ⟨r, l', hr, hc, hsuf⟩ := h.towerFrom hlt.le
    refine ⟨_, ?_, .cons h hc hsuf hv hlt⟩
    simp only [FrugalList.append, appendTower, hr]
    rfl

/-- Values before a suffix are newer than its head. -/
theorem find?_suffix {l l' t : List (α × ℕ)} {x : α × ℕ} {v : ℕ}
    (hd : l.Pairwise (fun x y => y.2 < x.2)) (hsuf : l' <:+ l) (hl' : l' = x :: t) (hx : v < x.2) :
    l.find? (fun x => decide (x.2 ≤ v)) = l'.find? (fun x => decide (x.2 ≤ v)) := by
  obtain ⟨pre, rfl⟩ := hsuf
  have hnone : pre.find? (fun x => decide (x.2 ≤ v)) = none := by
    rw [List.find?_eq_none]
    intro y hy
    have := (List.pairwise_append.mp hd).2.2 y hy x (by simp [hl'])
    simp only [decide_eq_true_eq, not_le]
    exact hx.trans this
  rw [List.find?_append, hnone, Option.none_or]

/-- `find_from` ends and returns the newest value that is not above `v`. -/
theorem findFrom (h : Chain n l) (v : ℕ) :
    ∃ res, findFrom n v = .ok res ∧
      res.map FrugalNode.value = l.find? (fun x => decide (x.2 ≤ v)) := by
  induction h with
  | sentinel p w =>
    by_cases hw : w ≤ v
    · exact ⟨_, by simp only [FrugalList.findFrom, lt_irrefl, false_and, if_false]; rfl,
        by simp [hw, FrugalNode.value, FrugalNode.payload, FrugalNode.insertVersion]⟩
    · exact ⟨_, by simp only [FrugalList.findFrom, lt_irrefl, false_and, if_false]; rfl,
        by simp [hw]⟩
  | @cons n r l l' p w lvl hn hr hsuf hv hl ihn ihr =>
    by_cases hw : v < w
    · have hskip : ((p, w) :: l).find? (fun x => decide (x.2 ≤ v)) =
          l.find? (fun x => decide (x.2 ≤ v)) := by
        simp [not_le.mpr hw]
      by_cases hrv : v < r.insertVersion
      · obtain ⟨res, hres, hval⟩ := ihr
        obtain ⟨t, ht⟩ := hr.head
        refine ⟨res, by simp [FrugalList.findFrom, hl, hw, hrv, hres], ?_⟩
        rw [hskip, find?_suffix hn.descending hsuf ht hrv, hval]
      · obtain ⟨res, hres, hval⟩ := ihn
        refine ⟨res, by simp [FrugalList.findFrom, hl, hw, hrv, hres], ?_⟩
        rw [hskip, hval]
    · have hle := not_lt.mp hw
      refine ⟨some (.mk (some n) (some r) p w lvl), ?_, ?_⟩
      · simp [FrugalList.findFrom, hw, hle]
      · simp [hle, FrugalNode.value, FrugalNode.payload, FrugalNode.insertVersion]

end Chain

end CMVBT.FrugalList
