import CMVBT.KeyInterval
import CMVBT.LastMatch
import Mathlib.Data.List.Basic
import Mathlib.Data.Nat.Bitwise

/-!
# Records, directory entries and pages

A page is a fixed array of units with one packed length word: the upper half
counts the active units, the lower half the dead ones, and together they tell
how many slots of the array are in use. Units are records in a leaf and
(fence, version, pointer) entries in a directory; the functions that the two
page types of the source share are written once over `PageUnit`.

Versions, block numbers and heights are natural numbers. The mark bit of an entry's version and of a
delete version are kept apart as `obsolete` and as `Option`; both representations
agree as long as the clock stays below the mark bit. Slot writes are unchecked
in the source: here a write past the capacity is the fault `outOfBounds`.
-/
namespace CMVBT.PageModel
open KeyInterval LastMatch

/-- Version of the initial root and first value of the clock. -/
def startVersion : ℕ := 1

/-- Why a run of the modelled code does not return. `retry` stands for an
optimistic attempt that reports failure, `outOfFuel` for a loop that is still
running after the number of rounds the model grants it, `emptyRange` for the panic
of the random generator. -/
inductive Fault where
  | outOfBounds
  | unwrapNone
  | unreachable
  | emptyRange
  | retry
  | outOfFuel
deriving DecidableEq, Repr

theorem ok_bind {A B : Type} (a : A) (next : A → Except Fault B) :
    (Except.ok a >>= next) = next a := rfl

theorem of_bind_ok {A B : Type} {x : Except Fault A} {next : A → Except Fault B} {b : B}
    (h : (x >>= next) = .ok b) : ∃ a, x = .ok a ∧ next a = .ok b := by
  cases x with
  | error => cases h
  | ok a => exact ⟨a, rfl, h⟩

theorem of_map_ok {A B : Type} {x : Except Fault A} {f : A → B} {b : B}
    (h : x.map f = .ok b) : ∃ a, x = .ok a ∧ f a = b := by
  cases x with
  | error => cases h
  | ok a => exact ⟨a, rfl, Except.ok.inj h⟩

/-! ## The packed length -/

def activeLen (len : ℕ) : ℕ := len >>> 16

def deadLen (len : ℕ) : ℕ := len &&& 0xFFFF

def fromLenSum (len : ℕ) : ℕ := activeLen len + deadLen len

/-- `(active << 16) | dead` on 32 bits. -/
def fromActiveDead (active dead : ℕ) : ℕ := (active <<< 16) % 2 ^ 32 ||| dead

/-- `as u32` of a sum computed in `i32`. -/
def toU32 (z : ℤ) : ℕ := (z % 2 ^ 32).toNat

def commitLen (len : ℕ) (activeDelta deadDelta : ℤ) : ℕ :=
  fromActiveDead (toU32 (activeLen len + activeDelta)) (toU32 (deadLen len + deadDelta))

theorem fromActiveDead_eq {a d : ℕ} (ha : a < 2 ^ 16) (hd : d < 2 ^ 16) :
    fromActiveDead a d = a * 2 ^ 16 + d := by
  have hshift : (a <<< 16) % 2 ^ 32 = a <<< 16 := by
    apply Nat.mod_eq_of_lt
    rw [Nat.shiftLeft_eq]
    omega
  rw [fromActiveDead, hshift, ← Nat.shiftLeft_add_eq_or_of_lt hd, Nat.shiftLeft_eq]

theorem activeLen_fromActiveDead {a d : ℕ} (ha : a < 2 ^ 16) (hd : d < 2 ^ 16) :
    activeLen (fromActiveDead a d) = a := by
  rw [fromActiveDead_eq ha hd, activeLen, Nat.shiftRight_eq_div_pow]
  omega

theorem deadLen_fromActiveDead {a d : ℕ} (ha : a < 2 ^ 16) (hd : d < 2 ^ 16) :
    deadLen (fromActiveDead a d) = d := by
  rw [fromActiveDead_eq ha hd, deadLen, show (0xFFFF : ℕ) = 2 ^ 16 - 1 from rfl,
    Nat.and_two_pow_sub_one_eq_mod]
  omega

theorem toU32_natCast {z : ℤ} {n : ℕ} (h : z = n) (hn : n < 2 ^ 16) : toU32 z = n := by
  subst h
  have hmod : (n : ℤ) % 2 ^ 32 = n := Int.emod_eq_of_lt (by omega) (by omega)
  rw [toU32, hmod, Int.toNat_natCast]

/-- Deltas that stay within the two halves are plain additions. -/
theorem commitLen_fromActiveDead {a d a' d' : ℕ} {δa δd : ℤ} (ha : a < 2 ^ 16) (hd : d < 2 ^ 16)
    (ha' : a' < 2 ^ 16) (hd' : d' < 2 ^ 16) (hδa : (a : ℤ) + δa = a') (hδd : (d : ℤ) + δd = d') :
    commitLen (fromActiveDead a d) δa δd = fromActiveDead a' d' := by
  rw [commitLen, activeLen_fromActiveDead ha hd, deadLen_fromActiveDead ha hd,
    toU32_natCast hδa ha', toU32_natCast hδd hd']

/-! ## Units -/

/-- Insert version and, once the record is deleted, its delete version. -/
structure VersionInfo where
  insertVersion : ℕ
  deleteVersion : Option ℕ
deriving DecidableEq, Repr

namespace VersionInfo

def new (insertVersion : ℕ) : VersionInfo := ⟨insertVersion, none⟩

def isDeleted (v : VersionInfo) : Bool := v.deleteVersion.isSome

def «matches» (v : VersionInfo) (version : ℕ) : Bool :=
  decide (v.insertVersion ≤ version) &&
    (v.deleteVersion.map (fun del => decide (version < del))).getD true

/-- The state after `delete` and its answer. -/
def delete (v : VersionInfo) (deleteVersion : ℕ) : VersionInfo × Bool :=
  if v.isDeleted then (v, false) else ({ v with deleteVersion := some deleteVersion }, true)

end VersionInfo

structure RecordPoint (K P : Type) where
  key : K
  version : VersionInfo
  payload : P
deriving DecidableEq, Repr

/-- One directory slot: key interval, version with its obsolete mark, child. -/
structure Entry (K : Type) where
  fence : Interval K
  version : ℕ
  obsolete : Bool
  pointer : ℕ
deriving DecidableEq, Repr

namespace Entry
variable {K : Type}

def new (fence : Interval K) (version : ℕ) (pointer : ℕ) : Entry K :=
  ⟨fence, version, false, pointer⟩

/-- `v.matched(lookup)`: the obsolete mark is ignored. -/
def «matched» (e : Entry K) (lookup : ℕ) : Bool := decide (e.version ≤ lookup)

def markObsolete (e : Entry K) : Entry K := { e with obsolete := true }

end Entry

/-- What splits and merges use of a unit: the keys it stands for, the version it
is ordered by inside a page, and whether it is active. -/
class PageUnit (K : outParam Type) (α : Type) where
  span : α → Interval K
  stamp : α → ℕ
  isActive : α → Bool

/-- The sort key of a unit: the key of a record, the lower border of a fence. -/
def PageUnit.key {K α : Type} [PageUnit K α] (u : α) : K := (PageUnit.span u).lower

instance {K P : Type} : PageUnit K (RecordPoint K P) where
  span r := ⟨r.key, r.key⟩
  stamp r := r.version.insertVersion
  isActive r := !r.version.isDeleted

instance {K : Type} : PageUnit K (Entry K) where
  span := Entry.fence
  stamp := Entry.version
  isActive e := !e.obsolete

/-- The order in which slots are written. -/
abbrev InVersionOrder {K α : Type} [PageUnit K α] (units : List α) : Prop :=
  units.Pairwise (fun a b => PageUnit.stamp a ≤ PageUnit.stamp b)

namespace InVersionOrder
variable {K α : Type} [PageUnit K α] {us vs : List α}

/-- New slots at a version that no slot is younger than. -/
theorem append {w : ℕ} (h : InVersionOrder us) (hus : ∀ u ∈ us, PageUnit.stamp u ≤ w)
    (hvs : ∀ u ∈ vs, PageUnit.stamp u = w) : InVersionOrder (us ++ vs) := by
  refine List.pairwise_append.mpr ⟨h, ?_, ?_⟩
  · exact List.pairwise_of_forall_mem_list fun a ha b hb => (hvs a ha).le.trans (hvs b hb).ge
  · intro a ha b hb
    rw [hvs b hb]
    exact hus a ha

/-- Nothing but the versions counts. -/
theorem congr (h : InVersionOrder us) (heq : vs.map PageUnit.stamp = us.map PageUnit.stamp) :
    InVersionOrder vs := by
  have hcolumn : (us.map PageUnit.stamp).Pairwise (· ≤ ·) := List.pairwise_map.mpr h
  rw [← heq] at hcolumn
  exact List.pairwise_map.mp hcolumn

theorem merge (hus : InVersionOrder us) (hvs : InVersionOrder vs) :
    InVersionOrder (us.merge vs (fun f s => decide (PageUnit.stamp f ≤ PageUnit.stamp s))) := by
  have hmerge := @List.pairwise_merge α (fun f s => decide (PageUnit.stamp f ≤ PageUnit.stamp s))
    (fun a b c hab hbc => by
      simp only [decide_eq_true_eq] at hab hbc ⊢
      exact hab.trans hbc)
    (fun a b => by
      simp only [Bool.or_eq_true, decide_eq_true_eq]
      exact le_total _ _) us vs (by simpa using hus) (by simpa using hvs)
  simpa using hmerge

end InVersionOrder

/-! ## Pages -/

structure Page (α : Type) where
  len : ℕ
  units : List α
deriving DecidableEq, Repr

namespace Page
variable {α : Type}

def new : Page α := ⟨0, []⟩

def activeDeadCount (p : Page α) : ℕ × ℕ := (activeLen p.len, deadLen p.len)

def sumLen (p : Page α) : ℕ := fromLenSum p.len

/-- The slots in use: `as_records`, `keys_versions_pointers`. -/
def asUnits (p : Page α) : List α := p.units.take p.sumLen

/-- A slot write at `index`; the length word is not touched. -/
def pushUncommitted (cap : ℕ) (p : Page α) (u : α) (index : ℕ) : Except Fault (Page α) :=
  if index < cap then
    .ok { p with units := p.units.take index ++ u :: p.units.drop (index + 1) }
  else .error .outOfBounds

def commitDelta (p : Page α) (activeDelta deadDelta : ℤ) : Page α :=
  { p with len := commitLen p.len activeDelta deadDelta }

/-- Copies `us` behind the first `len` slots of a fresh page. -/
def bulkPush (cap : ℕ) (p : Page α) (len : ℕ) (us : List α) : Except Fault (Page α) :=
  if len + us.length ≤ cap then
    .ok ⟨fromActiveDead (len + us.length) 0, p.units.take len ++ us ++ p.units.drop (len + us.length)⟩
  else .error .outOfBounds

/-- `on_reuse` drops the slots in use and empties the page. -/
def onReuse (_ : Page α) : Page α := ⟨0, []⟩

variable {K : Type} [PageUnit K α]

def activeUnits (p : Page α) : List α := p.asUnits.filter PageUnit.isActive

/-- The packed counters are the numbers of active and dead units, and they
account for every written slot. -/
structure Counted (cap : ℕ) (p : Page α) : Prop where
  len_eq : p.len = fromActiveDead (p.units.countP PageUnit.isActive)
    (p.units.countP (fun u => !PageUnit.isActive u))
  length_le : p.units.length ≤ cap
  cap_lt : cap < 2 ^ 16

theorem countP_add_countP_not {β : Type} (q : β → Bool) (l : List β) :
    l.countP q + l.countP (fun u => !q u) = l.length := by
  induction l with
  | nil => rfl
  | cons a l ih =>
    cases h : q a <;> simp [h] <;> omega

namespace Counted
variable {cap : ℕ} {p : Page α}

theorem counts_add (p : Page α) :
    p.units.countP PageUnit.isActive +
      p.units.countP (fun u => !PageUnit.isActive u) = p.units.length :=
  countP_add_countP_not _ _

theorem active (h : Counted cap p) : activeLen p.len = p.units.countP PageUnit.isActive := by
  have := counts_add p
  have := h.length_le
  have := h.cap_lt
  rw [h.len_eq, activeLen_fromActiveDead (by omega) (by omega)]

theorem dead (h : Counted cap p) :
    deadLen p.len = p.units.countP (fun u => !PageUnit.isActive u) := by
  have := counts_add p
  have := h.length_le
  have := h.cap_lt
  rw [h.len_eq, deadLen_fromActiveDead (by omega) (by omega)]

theorem sumLen (h : Counted cap p) : p.sumLen = p.units.length := by
  rw [Page.sumLen, fromLenSum, h.active, h.dead, counts_add]

theorem asUnits (h : Counted cap p) : p.asUnits = p.units := by
  rw [Page.asUnits, h.sumLen, List.take_length]

theorem activeUnits (h : Counted cap p) : p.activeUnits = p.units.filter PageUnit.isActive := by
  rw [Page.activeUnits, h.asUnits]

theorem active_le (h : Counted cap p) : activeLen p.len ≤ p.units.length := by
  rw [h.active]
  exact List.countP_le_length

/-- A unit written behind the last slot in use extends the slots by one. -/
theorem pushUncommitted (h : Counted cap p) (hlt : p.units.length < cap) (u : α) :
    p.pushUncommitted cap u p.sumLen = .ok { p with units := p.units ++ [u] } := by
  rw [Page.pushUncommitted, h.sumLen, if_pos hlt, List.take_length,
    List.drop_eq_nil_of_le (Nat.le_succ _)]

/-- Any sequence of slot writes followed by the matching delta is counted. -/
theorem commit (h : Counted cap p) {us : List α} {δa δd : ℤ} (hus : us.length ≤ cap)
    (ha : (p.units.countP PageUnit.isActive : ℤ) + δa =
      us.countP PageUnit.isActive)
    (hd : (p.units.countP (fun u => !PageUnit.isActive u) : ℤ) + δd =
      us.countP (fun u => !PageUnit.isActive u)) :
    Counted cap ⟨commitLen p.len δa δd, us⟩ := by
  have h₁ := counts_add p
  have h₂ := countP_add_countP_not PageUnit.isActive us
  have h₃ := h.length_le
  have h₄ := h.cap_lt
  refine ⟨?_, hus, h.cap_lt⟩
  change commitLen p.len δa δd = fromActiveDead (us.countP PageUnit.isActive)
    (us.countP (fun u => !PageUnit.isActive u))
  rw [h.len_eq]
  exact commitLen_fromActiveDead (by omega) (by omega) (by omega) (by omega) ha hd

end Counted

theorem new_counted {cap : ℕ} (hcap : cap < 2 ^ 16) : Counted cap (new : Page α) :=
  ⟨by rw [fromActiveDead_eq] <;> simp [new], by simp [new], hcap⟩

/-- Filling a fresh page with active units only. -/
theorem bulkPush_new {cap : ℕ} {us : List α} (hcap : cap < 2 ^ 16) (hle : us.length ≤ cap)
    (hact : ∀ u ∈ us, PageUnit.isActive u = true) :
    bulkPush cap new 0 us = .ok ⟨fromActiveDead us.length 0, us⟩ ∧
      Counted cap (⟨fromActiveDead us.length 0, us⟩ : Page α) := by
  have h₁ : us.countP PageUnit.isActive = us.length := List.countP_eq_length.mpr hact
  have h₂ : us.countP (fun u => !PageUnit.isActive u) = 0 := by
    rw [List.countP_eq_zero]
    intro u hu
    simp [hact u hu]
  refine ⟨?_, ?_, hle, hcap⟩
  · simp [bulkPush, hle, new]
  · rw [h₁, h₂]

end Page

abbrev LeafPage (K P : Type) := Page (RecordPoint K P)
abbrev InternalPage (K : Type) := Page (Entry K)

namespace LeafPage
variable {K P : Type}

/-- The search that `delete` and `delete_after_update` share: ends the life of
the last record of `key` among `records`, unless it has ended already. -/
def deleteIn [DecidableEq K] (p : LeafPage K P) (records : List (RecordPoint K P)) (key : K)
    (del : ℕ) : LeafPage K P × Except Unit (Option VersionInfo) :=
  match lastIdx? (fun r => r.key == key) records with
  | none => (p, .ok none)
  | some i =>
    match records[i]? with
    | none => (p, .ok none)
    | some r =>
      let d := r.version.delete del
      if d.2 then ({ p with units := p.units.set i { r with version := d.1 } }, .ok (some d.1))
      else (p, .error ())

def delete [DecidableEq K] (p : LeafPage K P) (key : K) (del : ℕ) :
    LeafPage K P × Except Unit (Option VersionInfo) :=
  deleteIn p p.asUnits key del

/-- As `delete`, but the newest slot (the record just pushed) is skipped. -/
def deleteAfterUpdate [DecidableEq K] (p : LeafPage K P) (key : K) (del : ℕ) :
    LeafPage K P × Except Unit (Option VersionInfo) :=
  deleteIn p p.asUnits.dropLast key del

end LeafPage

namespace InternalPage
variable {K : Type}

def markVersionObsolete (p : InternalPage K) (index : ℕ) : InternalPage K :=
  { p with units := p.units.modify index Entry.markObsolete }

end InternalPage

/-- The two page types behind one block. -/
inductive Node (K P : Type) where
  | leaf (page : LeafPage K P)
  | internal (page : InternalPage K)
deriving DecidableEq, Repr

namespace Node
variable {K P : Type}

def newLeaf : Node K P := .leaf Page.new

def newInternal : Node K P := .internal Page.new

def isLeaf : Node K P → Bool
  | .leaf _ => true
  | .internal _ => false

def activeDeadCount : Node K P → ℕ × ℕ
  | .leaf p => p.activeDeadCount
  | .internal p => p.activeDeadCount

/-- Wipes a recycled block and gives it its new role. -/
def onReuse (leaf : Bool) (_ : Node K P) : Node K P := if leaf then newLeaf else newInternal

end Node

end CMVBT.PageModel
