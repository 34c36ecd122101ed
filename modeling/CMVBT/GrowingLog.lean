import CMVBT.LastMatch
import Mathlib.Data.List.ReduceOption

/-!
# Reading a growing log without a latch

A log is an array of slots and a length; the slots below the length are published.
Its writer fills slots behind the length, raises the length and amends slots in
place. `seen` is what a reader makes of a slot, and `none` hides the slot from it.
A reader loads the length once and then looks at one slot after another, from the
newest backwards or from the oldest forwards, while the writer goes on. If no
write changes what this reader sees, it finds what was there before it came.
-/
namespace CMVBT.GrowingLog
open LastMatch

variable {α β : Type} {seen : α → Option β} {slots slots' slots'' : List α} {n n' n'' : ℕ}

/-- What the first `n` slots show. -/
def shown (seen : α → Option β) (slots : List α) (n : ℕ) : List β :=
  (slots.take n).filterMap seen

theorem shown_eq (seen : α → Option β) (slots : List α) (n : ℕ) :
    shown seen slots n = ((slots.map seen).take n).reduceOption := by
  simp only [shown, List.reduceOption, ← List.map_take, List.filterMap_map, Function.id_comp]

theorem shown_zero (seen : α → Option β) (slots : List α) : shown seen slots 0 = [] := by
  rw [shown, List.take_zero, List.filterMap_nil]

theorem shown_succ {i : ℕ} {u : α} (hu : slots[i]? = some u) :
    shown seen slots (i + 1) = shown seen slots i ++ (seen u).toList := by
  rw [shown, shown, List.take_add_one, hu, List.filterMap_append]
  cases h : seen u <;> simp [h]

/-- Hidden slots show nothing. -/
theorem shown_hidden (hle : n ≤ n') (hhidden : ∀ u ∈ slots.drop n, seen u = none) :
    shown seen slots n' = shown seen slots n := by
  obtain ⟨k, rfl⟩ := Nat.exists_eq_add_of_le hle
  rw [shown, shown, List.take_add, List.filterMap_append]
  have hnone : ((slots.drop n).take k).filterMap seen = [] := by
    rw [List.filterMap_eq_nil_iff]
    intro u hu
    exact hhidden u (List.mem_of_mem_take hu)
  rw [hnone, List.append_nil]

/-! ## Writes that a reader does not notice -/

/-- The slots that were there look the same, and the published ones show the same. -/
structure Keeps (seen : α → Option β) (slots : List α) (n : ℕ) (slots' : List α) (n' : ℕ) :
    Prop where
  looks : slots.map seen <+: slots'.map seen
  shows : shown seen slots' n' = shown seen slots n

theorem Keeps.refl (seen : α → Option β) (slots : List α) (n : ℕ) :
    Keeps seen slots n slots n := by
  constructor
  · exact List.prefix_rfl
  · rfl

theorem Keeps.trans (h : Keeps seen slots n slots' n') (h' : Keeps seen slots' n' slots'' n'') :
    Keeps seen slots n slots'' n'' := by
  constructor
  · exact h.looks.trans h'.looks
  · exact h'.shows.trans h.shows

/-- A slot behind the length is filled. -/
theorem Keeps.fill (hle : n ≤ slots.length) (u : α) : Keeps seen slots n (slots ++ [u]) n := by
  constructor
  · rw [List.map_append]
    exact List.prefix_append _ _
  · rw [shown, shown, List.take_append_of_le_length hle]

/-- Filled slots that this reader does not see are published. -/
theorem Keeps.publish (hle : n ≤ n') (hhidden : ∀ u ∈ slots.drop n, seen u = none) :
    Keeps seen slots n slots n' := by
  constructor
  · exact List.prefix_rfl
  · exact shown_hidden hle hhidden

/-- A slot is amended in a way that this reader does not see. -/
theorem Keeps.amend {f : α → α} (hf : ∀ u, seen (f u) = seen u) (i : ℕ) :
    Keeps seen slots n (slots.modify i f) n := by
  have hlooks : (slots.modify i f).map seen = slots.map seen := by
    apply List.ext_getElem?
    intro j
    rw [List.getElem?_map, List.getElem?_modify, List.getElem?_map]
    by_cases hj : i = j
    · cases slots[j]? <;> simp [hj, hf]
    · simp [hj]
  constructor
  · exact ⟨[], by rw [hlooks, List.append_nil]⟩
  · rw [shown_eq, shown_eq, hlooks]

/-- The slots that were there show the same as before, whatever was published. -/
theorem Keeps.shown_le (h : Keeps seen slots n slots' n') {i : ℕ} (hi : i ≤ slots.length) :
    shown seen slots' i = shown seen slots i := by
  obtain ⟨tail, htail⟩ := h.looks
  rw [shown_eq, shown_eq, ← htail, List.take_append_of_le_length]
  rwa [List.length_map]

theorem Keeps.length_le (h : Keeps seen slots n slots' n') : slots.length ≤ slots'.length := by
  have hle := h.looks.length_le
  rwa [List.length_map, List.length_map] at hle

/-! ## Searching backwards for the newest -/

/-- A search that has come down to slot `i` without finding anything. -/
structure Newest (seen : α → Option β) (test : β → Bool) (slots : List α) (view : List β) (i : ℕ) :
    Prop where
  inside : i ≤ slots.length
  newest : (shown seen slots i).findRev? test = view.findRev? test

section Newest
variable {test : β → Bool} {view : List β} {i : ℕ} {u : α}

theorem Newest.start (hn : n ≤ slots.length) (hview : shown seen slots n = view) :
    Newest seen test slots view n := by
  constructor
  · exact hn
  · rw [hview]

/-- The writer does not disturb the search. -/
theorem Newest.keeps (h : Newest seen test slots view i) (hk : Keeps seen slots n slots' n') :
    Newest seen test slots' view i := by
  constructor
  · exact Nat.le_trans h.inside hk.length_le
  · rw [hk.shown_le h.inside]
    exact h.newest

theorem Newest.miss (h : Newest seen test slots view (i + 1)) (hu : slots[i]? = some u)
    (hno : ∀ b, seen u = some b → test b = false) : Newest seen test slots view i := by
  have hnew := h.newest
  constructor
  · exact Nat.le_of_succ_le h.inside
  · rw [shown_succ hu, findRev?_append] at hnew
    have hnone : (seen u).toList.findRev? test = none := by
      rw [findRev?_eq_none]
      intro b hb
      exact hno b (Option.mem_toList.mp hb)
    rwa [hnone, Option.none_or] at hnew

theorem Newest.hit (h : Newest seen test slots view (i + 1)) (hu : slots[i]? = some u) {b : β}
    (hb : seen u = some b) (hyes : test b = true) : view.findRev? test = some b := by
  rw [← h.newest, shown_succ hu, hb, findRev?_append]
  have hhit : (some b).toList.findRev? test = some b :=
    @findRev?_split β test [] [] b hyes (by simp)
  rw [hhit, Option.some_or]

theorem Newest.gone (h : Newest seen test slots view 0) : view.findRev? test = none := by
  rw [← h.newest, shown_zero]
  rfl

end Newest

/-! ## Collecting forwards -/

/-- A scan over the first `n` slots that has taken `out` from the first `i` of them. -/
structure Collected (seen : α → Option β) (test : β → Bool) (slots : List α) (view : List β)
    (n i : ℕ) (out : List β) : Prop where
  inside : n ≤ slots.length
  before : i ≤ n
  view : shown seen slots n = view
  taken : out = (shown seen slots i).filter test

section Collected
variable {test : β → Bool} {view out : List β} {i : ℕ} {u : α}

theorem Collected.start (hn : n ≤ slots.length) (hview : shown seen slots n = view) :
    Collected seen test slots view n 0 [] := by
  constructor
  · exact hn
  · exact Nat.zero_le n
  · exact hview
  · rw [shown_zero, List.filter_nil]

theorem Collected.keeps {m m' : ℕ} (h : Collected seen test slots view n i out)
    (hk : Keeps seen slots m slots' m') : Collected seen test slots' view n i out := by
  have hi := Nat.le_trans h.before h.inside
  constructor
  · exact Nat.le_trans h.inside hk.length_le
  · exact h.before
  · rw [hk.shown_le h.inside]
    exact h.view
  · rw [hk.shown_le hi]
    exact h.taken

theorem Collected.next (h : Collected seen test slots view n i out) (hi : i < n)
    (hu : slots[i]? = some u) :
    Collected seen test slots view n (i + 1) (out ++ (seen u).toList.filter test) := by
  constructor
  · exact h.inside
  · exact hi
  · exact h.view
  · rw [shown_succ hu, List.filter_append, ← h.taken]

theorem Collected.finish (h : Collected seen test slots view n n out) : out = view.filter test := by
  rw [h.taken, h.view]

end Collected

end CMVBT.GrowingLog
