import Mathlib.Data.List.Pairwise
import Mathlib.Data.Option.Basic
import Mathlib.Order.Basic
import Mathlib.Order.Nat

/-!
# Ordered maps

What a program may rely on when it uses an ordered map that it does not define
itself: the map is known by its operations and by the laws between them. Keys are
natural numbers. The sorted association list is a model of the laws.
-/
namespace CMVBT.OrderedMap

/-- The newest entry of a lookup function with a key in `keys`. -/
def Greatest {V : Type} (get : ℕ → Option V) (keys : ℕ → Prop) (e : ℕ × V) : Prop :=
  get e.1 = some e.2 ∧ keys e.1 ∧ ∀ k, keys k → get k ≠ none → k ≤ e.1

theorem Greatest.unique {V : Type} {get : ℕ → Option V} {keys : ℕ → Prop} {e e' : ℕ × V}
    (h : Greatest get keys e) (h' : Greatest get keys e') : e = e' := by
  have hkey : e.1 = e'.1 :=
    le_antisymm (h'.2.2 e.1 h.2.1 (by simp [h.1])) (h.2.2 e'.1 h'.2.1 (by simp [h'.1]))
  have hval := h.1
  rw [hkey, h'.1] at hval
  exact Prod.ext hkey (Option.some.inj hval).symm

/-- Operations of an ordered map and their laws. `insert` also answers whether the
entry was inserted; the laws speak about keys that are not there yet. -/
structure Ordered (V : Type) where
  Carrier : Type
  empty : Carrier
  get : Carrier → ℕ → Option V
  insert : Carrier → ℕ → V → Carrier × Bool
  last : Carrier → Option (ℕ × V)
  floor : Carrier → ℕ → Option (ℕ × V)
  get_empty : ∀ k, get empty k = none
  get_insert : ∀ m k v, get m k = none → ∀ j, get (insert m k v).1 j = if j = k then some v else get m j
  insert_fresh : ∀ m k v, get m k = none → (insert m k v).2 = true
  last_eq : ∀ m e, last m = some e ↔ Greatest (get m) (fun _ => True) e
  floor_eq : ∀ m x e, floor m x = some e ↔ Greatest (get m) (fun k => k ≤ x) e

/-- An ordered map whose values can be changed in place. -/
structure Mutable (V : Type) extends Ordered V where
  modify : Carrier → ℕ → (V → V) → Carrier
  get_modify : ∀ m k f j, get (modify m k f) j = if j = k then (get m j).map f else get m j

/-! ## Sorted association lists -/

section Sorted
variable {V : Type}

abbrev Entries (V : Type) := { l : List (ℕ × V) // l.Pairwise (fun a b => a.1 < b.1) }

def lookup (l : List (ℕ × V)) (k : ℕ) : Option V :=
  (l.find? (fun e => e.1 == k)).map Prod.snd

theorem lookup_cons (e : ℕ × V) (l : List (ℕ × V)) (k : ℕ) :
    lookup (e :: l) k = if k = e.1 then some e.2 else lookup l k := by
  by_cases h : k = e.1
  · simp [lookup, h]
  · have h' : ¬ e.1 = k := fun heq => h heq.symm
    simp [lookup, h, h']

def insertSorted (k : ℕ) (v : V) : List (ℕ × V) → List (ℕ × V)
  | [] => [(k, v)]
  | e :: l => if k < e.1 then (k, v) :: e :: l
    else if k = e.1 then (k, v) :: l
    else e :: insertSorted k v l

theorem fst_insertSorted {k : ℕ} {v : V} {l : List (ℕ × V)} {e : ℕ × V}
    (h : e ∈ insertSorted k v l) : e.1 = k ∨ e ∈ l := by
  induction l with
  | nil => exact .inl (by rw [List.mem_singleton.mp h])
  | cons a l ih =>
    unfold insertSorted at h
    split_ifs at h
    · rcases List.mem_cons.mp h with rfl | h
      · exact .inl rfl
      · exact .inr h
    · rcases List.mem_cons.mp h with rfl | h
      · exact .inl rfl
      · exact .inr (List.mem_cons_of_mem _ h)
    · rcases List.mem_cons.mp h with rfl | h
      · exact .inr List.mem_cons_self
      · exact (ih h).imp_right (List.mem_cons_of_mem _)

theorem sorted_insertSorted {k : ℕ} {v : V} {l : List (ℕ × V)}
    (h : l.Pairwise (fun a b => a.1 < b.1)) :
    (insertSorted k v l).Pairwise (fun a b => a.1 < b.1) := by
  induction l with
  | nil => exact List.pairwise_singleton _ _
  | cons a l ih =>
    obtain ⟨ha, hl⟩ := List.pairwise_cons.mp h
    unfold insertSorted
    split_ifs with hlt heq
    · refine List.pairwise_cons.mpr ⟨fun b hb => ?_, h⟩
      rcases List.mem_cons.mp hb with rfl | hb
      · exact hlt
      · exact hlt.trans (ha b hb)
    · exact List.pairwise_cons.mpr ⟨fun b hb => heq ▸ ha b hb, hl⟩
    · refine List.pairwise_cons.mpr ⟨fun b hb => ?_, ih hl⟩
      rcases fst_insertSorted hb with hk | hb
      · rw [hk]
        omega
      · exact ha b hb

theorem lookup_insertSorted (k : ℕ) (v : V) (l : List (ℕ × V)) (j : ℕ) :
    lookup (insertSorted k v l) j = if j = k then some v else lookup l j := by
  induction l with
  | nil =>
    rw [insertSorted, lookup_cons]
  | cons a l ih =>
    unfold insertSorted
    split_ifs with hlt heq hj
    all_goals simp only [lookup_cons, ih]
    all_goals split_ifs <;> first | rfl | omega

theorem mem_of_lookup {l : List (ℕ × V)} {k : ℕ} {v : V} (h : lookup l k = some v) :
    (k, v) ∈ l := by
  obtain ⟨e, he, rfl⟩ := Option.map_eq_some_iff.mp h
  have hkey : e.1 = k := by simpa using List.find?_some he
  exact hkey ▸ List.mem_of_find?_eq_some he

theorem lookup_of_mem {l : List (ℕ × V)} (h : l.Pairwise (fun a b => a.1 < b.1)) {e : ℕ × V}
    (he : e ∈ l) : lookup l e.1 = some e.2 := by
  induction l with
  | nil => cases he
  | cons a l ih =>
    obtain ⟨ha, hl⟩ := List.pairwise_cons.mp h
    rw [lookup_cons]
    rcases List.mem_cons.mp he with rfl | he
    · rw [if_pos rfl]
    · rw [if_neg (ha e he).ne', ih hl he]

/-- The last entry of a sorted list that satisfies a test of its key. -/
theorem findRev_greatest {l : List (ℕ × V)} (h : l.Pairwise (fun a b => a.1 < b.1))
    (keys : ℕ → Prop) [DecidablePred keys] (e : ℕ × V) :
    l.reverse.find? (fun e => decide (keys e.1)) = some e ↔ Greatest (lookup l) keys e := by
  have hfound : ∀ e, l.reverse.find? (fun e => decide (keys e.1)) = some e →
      Greatest (lookup l) keys e := by
    intro e he
    obtain ⟨hkey, pre, post, hsplit, hpre⟩ := List.find?_eq_some_iff_append.mp he
    have hdesc : (pre ++ e :: post).Pairwise (fun a b => b.1 < a.1) := by
      rw [← hsplit]
      exact List.pairwise_reverse.mpr h
    have hmem : ∀ x, x ∈ l → x ∈ pre ++ e :: post := fun x hx => by
      rw [← hsplit]
      exact List.mem_reverse.mpr hx
    refine ⟨lookup_of_mem h ?_, by simpa using hkey, fun k hk hget => ?_⟩
    · exact List.mem_reverse.mp (by rw [hsplit]; simp)
    obtain ⟨v, hv⟩ := Option.ne_none_iff_exists'.mp hget
    rcases List.mem_append.mp (hmem _ (mem_of_lookup hv)) with hin | hin
    · exact absurd hk (by simpa using hpre _ hin)
    rcases List.mem_cons.mp hin with heq | hin
    · exact (congrArg Prod.fst heq).le
    · exact ((List.pairwise_cons.mp (List.pairwise_append.mp hdesc).2.1).1 _ hin).le
  refine ⟨hfound e, fun hg => ?_⟩
  have hmem : e ∈ l.reverse := List.mem_reverse.mpr (mem_of_lookup hg.1)
  have hsome : (l.reverse.find? (fun e => decide (keys e.1))).isSome :=
    List.find?_isSome.mpr ⟨e, hmem, by simpa using hg.2.1⟩
  obtain ⟨e', he'⟩ := Option.isSome_iff_exists.mp hsome
  rw [he', hg.unique (hfound e' he')]

/-- The laws hold of sorted association lists. -/
def sortedList (V : Type) : Mutable V where
  Carrier := Entries V
  empty := ⟨[], List.Pairwise.nil⟩
  get m := lookup m.1
  insert m k v := (⟨insertSorted k v m.1, sorted_insertSorted m.2⟩, (lookup m.1 k).isNone)
  last m := m.1.reverse.find? (fun _ => decide True)
  floor m x := m.1.reverse.find? (fun e => decide (e.1 ≤ x))
  get_empty _ := rfl
  get_insert m k v _ j := lookup_insertSorted k v m.1 j
  insert_fresh _ _ _ h := by simp [h]
  last_eq m e := findRev_greatest m.2 (fun _ => True) e
  floor_eq m x e := findRev_greatest m.2 (fun k => k ≤ x) e
  modify m k f :=
    ⟨m.1.map (fun e => (e.1, if e.1 = k then f e.2 else e.2)), List.pairwise_map.mpr m.2⟩
  get_modify m k f j := by
    obtain ⟨l, hl⟩ := m
    induction l with
    | nil => simp [lookup]
    | cons a l ih =>
      have htail := ih (List.pairwise_cons.mp hl).2
      simp only [List.map_cons, lookup_cons] at htail ⊢
      rw [htail]
      split_ifs <;> simp_all

end Sorted

end CMVBT.OrderedMap
