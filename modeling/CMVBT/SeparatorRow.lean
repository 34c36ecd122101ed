import CMVBT.KeyInterval
import Mathlib.Data.List.TakeWhile
import Mathlib.Data.List.InsertIdx

/-!
# Rows of children between separators

A directory page of a B+-tree is a row: `n` separators between `n + 1` children,
where the separators cut the fence of the page into the fences of the children.
What makes a child good for its fence is a parameter. A `Spot` is a row with one
child pointed at. The lemmas say how a search finds the spot of a key, and that
replacing a child, splitting a child and splitting the row give rows again.
-/
namespace CMVBT.SeparatorRow
open KeyInterval

/-! ## Searching -/

section Search
variable {A : Type}

/-- `partition_point` of a slice that `p` partitions. -/
def partitionPoint (p : A → Bool) (xs : List A) : ℕ := (xs.takeWhile p).length

variable {K : Type} [LinearOrder K]

/-- `binary_search_by_key` of a sorted slice: `ok` with the position of the key, or
`error` with the position at which it may be inserted. -/
def binarySearchByKey (key : A → K) (xs : List A) (k : K) : Except ℕ ℕ :=
  if xs[partitionPoint (fun a => decide (key a < k)) xs]?.map key = some k then
    .ok (partitionPoint (fun a => decide (key a < k)) xs)
  else .error (partitionPoint (fun a => decide (key a < k)) xs)

/-- The position in both outcomes of a search. -/
def position : Except ℕ ℕ → ℕ
  | .ok pos => pos
  | .error pos => pos

theorem position_binarySearchByKey (key : A → K) (xs : List A) (k : K) :
    position (binarySearchByKey key xs k) = partitionPoint (fun a => decide (key a < k)) xs := by
  unfold binarySearchByKey
  split <;> rfl

theorem partitionPoint_le (p : A → Bool) (xs : List A) : partitionPoint p xs ≤ xs.length :=
  (List.takeWhile_sublist p).length_le

theorem partitionPoint_congr {p q : A → Bool} {xs : List A} (h : ∀ a ∈ xs, p a = q a) :
    partitionPoint p xs = partitionPoint q xs := by
  induction xs with
  | nil => rfl
  | cons x xs ih =>
    have htail := ih fun a ha => h a (List.mem_cons_of_mem _ ha)
    unfold partitionPoint at htail ⊢
    rw [List.takeWhile_cons, List.takeWhile_cons, h x List.mem_cons_self]
    split
    · simp [htail]
    · rfl

theorem partitionPoint_append {p : A → Bool} {xs : List A} (h : ∀ a ∈ xs, p a = true)
    (ys : List A) : partitionPoint p (xs ++ ys) = xs.length + partitionPoint p ys := by
  unfold partitionPoint
  rw [List.takeWhile_append_of_pos h, List.length_append]

theorem partitionPoint_append_cons {p : A → Bool} {y : A} (h : p y = false) (xs ys : List A) :
    partitionPoint p (xs ++ y :: ys) = partitionPoint p xs := by
  induction xs with
  | nil => simp [partitionPoint, h]
  | cons x xs ih =>
    unfold partitionPoint at ih ⊢
    rw [List.cons_append, List.takeWhile_cons, List.takeWhile_cons]
    split
    · simp [ih]
    · rfl

theorem take_partitionPoint (p : A → Bool) (xs : List A) :
    xs.take (partitionPoint p xs) = xs.takeWhile p := by
  have h : (xs.takeWhile p ++ xs.dropWhile p).take (xs.takeWhile p).length = xs.takeWhile p :=
    List.take_left
  rwa [List.takeWhile_append_dropWhile] at h

theorem drop_partitionPoint (p : A → Bool) (xs : List A) :
    xs.drop (partitionPoint p xs) = xs.dropWhile p := by
  have h : (xs.takeWhile p ++ xs.dropWhile p).drop (xs.takeWhile p).length = xs.dropWhile p :=
    List.drop_left
  rwa [List.takeWhile_append_dropWhile] at h

/-- Strictly increasing in key. -/
def Sorted (key : A → K) (xs : List A) : Prop := xs.Pairwise (fun a b => key a < key b)

/-- A new element between the smaller and the greater ones. -/
theorem Sorted.insert {key : A → K} {xs : List A} (h : Sorted key xs) {pos : ℕ} {a : A}
    (hbefore : ∀ b ∈ xs.take pos, key b < key a) (hafter : ∀ b ∈ xs.drop pos, key a < key b) :
    Sorted key (xs.take pos ++ a :: xs.drop pos) := by
  rw [← List.take_append_drop pos xs] at h
  obtain ⟨hleft, hright, hcross⟩ := List.pairwise_append.mp h
  refine List.pairwise_append.mpr ⟨hleft, List.pairwise_cons.mpr ⟨hafter, hright⟩, ?_⟩
  intro b hb c hc
  rcases List.mem_cons.mp hc with rfl | hc
  · exact hbefore b hb
  · exact hcross b hb c hc

/-- Behind the partition point of a monotone test nothing passes it. -/
theorem Sorted.not_of_mem_drop {key : A → K} {xs : List A} (h : Sorted key xs) {p : A → Bool}
    (hp : ∀ a b, key a < key b → p b = true → p a = true) :
    ∀ a ∈ xs.drop (partitionPoint p xs), p a = false := by
  rw [drop_partitionPoint]
  induction xs with
  | nil => simp
  | cons x xs ih =>
    obtain ⟨hx, hxs⟩ := List.pairwise_cons.mp h
    rw [List.dropWhile_cons]
    split
    · exact ih hxs
    · next hnot =>
      intro a ha
      rcases List.mem_cons.mp ha with rfl | ha
      · simpa using hnot
      · rw [Bool.eq_false_iff]
        exact fun hpa => hnot (hp x a (hx a ha) hpa)

theorem of_mem_take_partitionPoint {p : A → Bool} {xs : List A} :
    ∀ a ∈ xs.take (partitionPoint p xs), p a = true := by
  rw [take_partitionPoint]
  exact fun a ha => List.mem_takeWhile_imp ha

theorem partitionPoint_mono {p q : A → Bool} {xs : List A} (h : ∀ a, p a = true → q a = true) :
    partitionPoint p xs ≤ partitionPoint q xs := by
  induction xs with
  | nil => exact le_rfl
  | cons x xs ih =>
    unfold partitionPoint at ih ⊢
    rw [List.takeWhile_cons, List.takeWhile_cons]
    cases hp : p x with
    | false => exact Nat.zero_le _
    | true => simpa [h x hp] using ih

/-- The slice between two partition points holds what fails the first test and
passes the second. -/
theorem Sorted.mem_slice {key : A → K} {xs : List A} (h : Sorted key xs) {p q : A → Bool}
    (hp : ∀ a b, key a < key b → p b = true → p a = true)
    (hq : ∀ a b, key a < key b → q b = true → q a = true) {x : A} :
    x ∈ (xs.take (partitionPoint q xs)).drop (partitionPoint p xs) ↔
      x ∈ xs ∧ p x = false ∧ q x = true := by
  constructor
  · intro hx
    have hmem : x ∈ xs.drop (partitionPoint p xs) := by
      rw [List.drop_take] at hx
      exact List.mem_of_mem_take hx
    exact ⟨List.mem_of_mem_drop hmem, h.not_of_mem_drop hp x hmem,
      of_mem_take_partitionPoint x (List.mem_of_mem_drop hx)⟩
  · rintro ⟨hx, hnot, hyes⟩
    obtain ⟨i, hi, rfl⟩ := List.getElem_of_mem hx
    have hstart : partitionPoint p xs ≤ i := by
      by_contra hlt
      have hmem : xs[i] ∈ xs.take (partitionPoint p xs) := by
        rw [List.mem_take_iff_getElem]
        exact ⟨i, by omega, rfl⟩
      rw [of_mem_take_partitionPoint _ hmem] at hnot
      cases hnot
    have hstop : i < partitionPoint q xs := by
      by_contra hge
      have hmem : xs[i] ∈ xs.drop (partitionPoint q xs) := by
        rw [List.mem_drop_iff_getElem]
        exact ⟨i - partitionPoint q xs, by omega, by congr 1; omega⟩
      rw [h.not_of_mem_drop hq _ hmem] at hyes
      cases hyes
    rw [List.mem_drop_iff_getElem]
    refine ⟨i - partitionPoint p xs, ?_, ?_⟩
    · rw [List.length_take]
      omega
    · rw [List.getElem_take]
      congr 1
      omega

/-- Keys before and behind a position. -/
theorem Sorted.around {key : A → K} {xs : List A} (h : Sorted key xs) {i : ℕ} {x : A}
    (hx : xs[i]? = some x) :
    (∀ a ∈ xs.take i, key a < key x) ∧ ∀ a ∈ xs.drop i, key x ≤ key a := by
  have hsplit : xs.drop i = x :: xs.drop (i + 1) := by
    obtain ⟨hi, rfl⟩ := List.getElem?_eq_some_iff.mp hx
    exact List.drop_eq_getElem_cons hi
  have hall : Sorted key (xs.take i ++ xs.drop i) := by rwa [List.take_append_drop]
  obtain ⟨-, hdrop, hcross⟩ := List.pairwise_append.mp hall
  rw [hsplit] at hdrop hcross ⊢
  refine ⟨fun a ha => hcross a ha x List.mem_cons_self, fun a ha => ?_⟩
  rcases List.mem_cons.mp ha with rfl | ha
  · exact le_rfl
  · exact ((List.pairwise_cons.mp hdrop).1 a ha).le

/-- A search that finds the key splits the slice at it. -/
theorem binarySearchByKey_ok {key : A → K} {xs : List A} {k : K} {pos : ℕ}
    (h : binarySearchByKey key xs k = .ok pos) :
    ∃ a, xs[pos]? = some a ∧ key a = k := by
  unfold binarySearchByKey at h
  split at h
  · next hfound =>
    cases h
    simpa using hfound
  · cases h

/-- A search that does not find the key says where the key belongs. -/
theorem binarySearchByKey_error {key : A → K} {xs : List A} (hsorted : Sorted key xs) {k : K}
    {pos : ℕ} (h : binarySearchByKey key xs k = .error pos) :
    pos ≤ xs.length ∧ (∀ a ∈ xs.take pos, key a < k) ∧ ∀ a ∈ xs.drop pos, k < key a := by
  unfold binarySearchByKey at h
  split at h
  · cases h
  · next hmiss =>
    cases h
    refine ⟨partitionPoint_le _ _, fun a ha => ?_, ?_⟩
    · simpa using of_mem_take_partitionPoint a ha
    · have hge := hsorted.not_of_mem_drop (p := fun a => decide (key a < k))
        (fun a b hab hb => by simpa using hab.trans (by simpa using hb))
      -- the first key behind is not the searched one, and the others are greater
      set rest := xs.drop (partitionPoint (fun a => decide (key a < k)) xs) with hrest
      have hhead : rest.head?.map key ≠ some k := by
        rw [hrest, List.head?_drop]
        exact hmiss
      have hsub : Sorted key rest := hsorted.sublist (List.drop_sublist _ _)
      cases hcase : rest with
      | nil => simp
      | cons x tail =>
        rw [hcase] at hge hhead hsub
        have hx : k < key x := by
          refine lt_of_le_of_ne (by simpa using hge x List.mem_cons_self) ?_
          rintro rfl
          exact hhead rfl
        intro a ha
        rcases List.mem_cons.mp ha with rfl | ha
        · exact hx
        · exact hx.trans ((List.pairwise_cons.mp hsub).1 a ha)

end Search

/-! ## Rows -/

variable {K C : Type} [LinearOrder K]

/-- Separators and children of a page with fence `f`. -/
inductive Row (S : KeySpace K) (good : Interval K → C → Prop) :
    Interval K → List K → List C → Prop
  | last {f : Interval K} {c : C} : good f c → Row S good f [] [c]
  | cons {f : Interval K} {m : K} {c : C} {keys : List K} {children : List C} :
      f.lower < m → m ≤ f.upper → m < S.maxKey → good ⟨f.lower, S.decKey m⟩ c →
      Row S good ⟨m, f.upper⟩ keys children → Row S good f (m :: keys) (c :: children)

/-- A row in which the child `c` with fence `g` stands at position `pos`. -/
inductive Spot (S : KeySpace K) (good : Interval K → C → Prop) :
    Interval K → List K → List C → ℕ → Interval K → C → Prop
  | last {f : Interval K} {c : C} : good f c → Spot S good f [] [c] 0 f c
  | here {f : Interval K} {m : K} {c : C} {keys : List K} {children : List C} :
      f.lower < m → m ≤ f.upper → m < S.maxKey → good ⟨f.lower, S.decKey m⟩ c →
      Row S good ⟨m, f.upper⟩ keys children →
      Spot S good f (m :: keys) (c :: children) 0 ⟨f.lower, S.decKey m⟩ c
  | there {f g : Interval K} {m : K} {c c' : C} {keys : List K} {children : List C} {pos : ℕ} :
      f.lower < m → m ≤ f.upper → m < S.maxKey → good ⟨f.lower, S.decKey m⟩ c' →
      Spot S good ⟨m, f.upper⟩ keys children pos g c →
      Spot S good f (m :: keys) (c' :: children) (pos + 1) g c

variable {S : KeySpace K} {good good' : Interval K → C → Prop} {f g : Interval K} {m k : K}
  {c c' : C} {keys : List K} {children : List C} {pos : ℕ}

theorem minKey_lt (h : f.lower < m) : S.minKey < m := (S.min_le _).trans_lt h

theorem inc_dec (h : S.minKey < m) : S.incKey (S.decKey m) = m := by
  have hlt : S.decKey m < S.maxKey := (S.dec_lt h).trans_le (S.le_max m)
  refine le_antisymm ((S.inc_le _ hlt m).mpr (S.dec_lt h)) ?_
  by_contra hgt
  have hle := (S.le_dec m h _).mpr (not_le.mp hgt)
  exact absurd hle (not_le.mpr (S.lt_inc hlt))

theorem left_within (hlow : f.lower < m) (hup : m ≤ f.upper) :
    Interval.Within ⟨f.lower, S.decKey m⟩ f :=
  fun _ hk => ⟨hk.1, ((S.le_dec m (minKey_lt hlow) _).mp hk.2).le.trans hup⟩

theorem right_within (hlow : f.lower < m) : Interval.Within ⟨m, f.upper⟩ f :=
  fun _ hk => ⟨hlow.le.trans hk.1, hk.2⟩

theorem mem_left (hlow : f.lower < m) : k ∈ (⟨f.lower, S.decKey m⟩ : Interval K) ↔
    f.lower ≤ k ∧ k < m :=
  and_congr_right fun _ => S.le_dec m (minKey_lt hlow) k

theorem Row.length_eq (h : Row S good f keys children) : children.length = keys.length + 1 := by
  induction h with
  | last => rfl
  | cons _ _ _ _ _ ih => simp [ih]

theorem Row.proper (h : Row S good f keys children) (hgood : ∀ g c, good g c → g.Proper) :
    f.Proper := by
  cases h with
  | last hc => exact hgood _ _ hc
  | cons hlow hup => exact hlow.le.trans hup

/-- A row whose children are good in another sense inside its fence. -/
theorem Row.mono (h : Row S good f keys children)
    (hmono : ∀ g c, g.Within f → good g c → good' g c) : Row S good' f keys children := by
  induction h with
  | last hc => exact .last (hmono _ _ (fun _ hk => hk) hc)
  | cons hlow hup hmax hc _ ih =>
    refine .cons hlow hup hmax (hmono _ _ (left_within hlow hup) hc) (ih fun g c hg hc => ?_)
    exact hmono g c (hg.trans (right_within hlow)) hc

theorem Row.mem_keys (h : Row S good f keys children) (hm : m ∈ keys) :
    f.lower < m ∧ m ≤ f.upper ∧ m < S.maxKey := by
  induction h with
  | last => cases hm
  | cons hlow hup hmax _ _ ih =>
    rcases List.mem_cons.mp hm with rfl | hm
    · exact ⟨hlow, hup, hmax⟩
    · have := ih hm
      exact ⟨hlow.trans this.1, this.2⟩

theorem Row.sorted (h : Row S good f keys children) : Sorted id keys := by
  induction h with
  | last => exact List.Pairwise.nil
  | cons _ _ _ _ hrest ih =>
    exact List.pairwise_cons.mpr ⟨fun m hm => (hrest.mem_keys hm).1, ih⟩

/-! ## Spots -/

theorem Spot.row (h : Spot S good f keys children pos g c) : Row S good f keys children := by
  induction h with
  | last hc => exact .last hc
  | here hlow hup hmax hc hrest => exact .cons hlow hup hmax hc hrest
  | there hlow hup hmax hc _ ih => exact .cons hlow hup hmax hc ih

theorem Spot.child_good (h : Spot S good f keys children pos g c) : good g c := by
  induction h with
  | last hc => exact hc
  | here _ _ _ hc _ => exact hc
  | there _ _ _ _ _ ih => exact ih

theorem Spot.get (h : Spot S good f keys children pos g c) : children[pos]? = some c := by
  induction h with
  | last => rfl
  | here => rfl
  | there _ _ _ _ _ ih => simpa using ih

theorem Spot.within (h : Spot S good f keys children pos g c) : g.Within f := by
  induction h with
  | last => exact fun _ hk => hk
  | here hlow hup => exact left_within hlow hup
  | there hlow _ _ _ _ ih => exact ih.trans (right_within hlow)

theorem Spot.pos_le (h : Spot S good f keys children pos g c) : pos ≤ keys.length := by
  induction h with
  | last => exact le_rfl
  | here => exact Nat.zero_le _
  | there _ _ _ _ _ ih => exact Nat.succ_le_succ ih

/-- The fence of the child as it is read off the separators around it. -/
theorem Spot.fence (h : Spot S good f keys children pos g c) :
    g = ⟨(if pos = 0 then none else keys[pos - 1]?).getD f.lower,
      (keys[pos]?.map S.decKey).getD f.upper⟩ := by
  induction h with
  | last => rfl
  | here => rfl
  | @there f g m c c' keys children pos hlow hup hmax hc hspot ih =>
    rw [ih]
    cases pos with
    | zero => simp
    | succ n => simp [List.getElem?_eq_getElem hspot.pos_le]

/-- The upper border of a child is that of the row, or there is a separator behind it. -/
theorem Spot.upper (h : Spot S good f keys children pos g c) :
    g.upper = f.upper ∨ ∃ m ∈ keys, S.minKey < m ∧ g.upper = S.decKey m := by
  induction h with
  | last => exact .inl rfl
  | here hlow => exact .inr ⟨_, List.mem_cons_self, minKey_lt hlow, rfl⟩
  | there _ _ _ _ _ ih =>
    refine ih.imp_right ?_
    rintro ⟨m, hm, hmin, heq⟩
    exact ⟨m, List.mem_cons_of_mem _ hm, hmin, heq⟩

/-- The position of the child whose fence holds a key. -/
theorem Spot.pos_eq (h : Spot S good f keys children pos g c) (hk : k ∈ g) :
    pos = partitionPoint (fun m => decide (m ≤ k)) keys := by
  induction h with
  | last => rfl
  | here hlow =>
    simp [partitionPoint, ((mem_left hlow).mp hk).2]
  | there _ _ _ _ hspot ih =>
    have hle := (hspot.within k hk).1
    simpa [partitionPoint, hle] using ih hk

/-- Counting the separators up to a key finds the child whose fence holds the key. -/
theorem Row.locate (h : Row S good f keys children) (hk : k ∈ f) :
    ∃ g c, Spot S good f keys children (partitionPoint (fun m => decide (m ≤ k)) keys) g c ∧
      k ∈ g := by
  induction h with
  | last hc => exact ⟨_, _, .last hc, hk⟩
  | @cons f m c keys children hlow hup hmax hc hrest ih =>
    by_cases hmk : m ≤ k
    · obtain ⟨g, c', hspot, hg⟩ := ih ⟨hmk, hk.2⟩
      refine ⟨g, c', ?_, hg⟩
      simpa [partitionPoint, hmk] using Spot.there hlow hup hmax hc hspot
    · refine ⟨⟨f.lower, S.decKey m⟩, c, ?_, (mem_left hlow).mpr ⟨hk.1, not_le.mp hmk⟩⟩
      simpa [partitionPoint, hmk] using Spot.here hlow hup hmax hc hrest

/-- Descending with the successor of a key counts the separators up to the key. -/
theorem Row.childPosition (h : Row S good f keys children) (k : K) :
    position (binarySearchByKey id keys (S.incKey k)) =
      partitionPoint (fun m => decide (m ≤ k)) keys := by
  rw [position_binarySearchByKey]
  refine partitionPoint_congr fun m hm => ?_
  rcases (S.le_max k).lt_or_eq with hlt | rfl
  · have := S.inc_le k hlt m
    simp only [id, decide_eq_decide]
    rw [← not_le, this, not_lt]
  · simp [S.inc_max, (h.mem_keys hm).2.2, S.le_max]

/-- Replacing the child of a spot, where the other children only have to be good
for fences without a given key. -/
theorem Spot.set (h : Spot S good f keys children pos g c) (hk : k ∈ g)
    (hframe : ∀ g' c', k ∉ g' → good g' c' → good' g' c') (hc : good' g c') :
    Spot S good' f keys (children.set pos c') pos g c' := by
  induction h with
  | last => exact .last hc
  | here hlow hup hmax _ hrest =>
    refine .here hlow hup hmax hc (hrest.mono fun g' c' hg' hgood => hframe g' c' ?_ hgood)
    exact fun hk' => absurd (((mem_left hlow).mp hk).2) (not_lt.mpr (hg' k hk').1)
  | there hlow hup hmax hleft hspot ih =>
    refine .there hlow hup hmax (hframe _ _ ?_ hleft) (ih hk hc)
    exact fun hk' => absurd (((mem_left hlow).mp hk').2) (not_lt.mpr (hspot.within k hk).1)

theorem Spot.mono (h : Spot S good f keys children pos g c)
    (hmono : ∀ g c, good g c → good' g c) : Spot S good' f keys children pos g c := by
  induction h with
  | last hc => exact .last (hmono _ _ hc)
  | here hlow hup hmax hc hrest =>
    exact .here hlow hup hmax (hmono _ _ hc) (hrest.mono fun g c _ => hmono g c)
  | there hlow hup hmax hc _ ih => exact .there hlow hup hmax (hmono _ _ hc) ih

/-- Splitting the child of a spot at a separator; the other children only have to be
good for fences without a given key. -/
theorem Spot.insert (h : Spot S good f keys children pos g c) (hk : k ∈ g)
    (hframe : ∀ g' c', k ∉ g' → good g' c' → good' g' c') (hlow : g.lower < m)
    (hup : m ≤ g.upper) (hmax : m < S.maxKey) {left right : C}
    (hleft : good' ⟨g.lower, S.decKey m⟩ left) (hright : good' ⟨m, g.upper⟩ right) :
    Row S good' f (keys.insertIdx pos m) ((children.set pos left).insertIdx (pos + 1) right) := by
  induction h with
  | last => exact .cons hlow hup hmax hleft (.last hright)
  | @here f m' c keys children hlow' hup' hmax' hc hrest =>
    have hlt : m < m' := (S.le_dec m' (minKey_lt hlow') m).mp hup
    refine .cons hlow (hlt.le.trans hup') hmax hleft (.cons hlt hup' hmax' hright ?_)
    refine hrest.mono fun g' c' hg' hgood => hframe g' c' (fun hk' => ?_) hgood
    exact absurd ((mem_left hlow').mp hk).2 (not_lt.mpr (hg' k hk').1)
  | @there f g m' c c' keys children pos hlow' hup' hmax' hc hspot ih =>
    refine .cons hlow' hup' hmax' (hframe _ _ (fun hk' => ?_) hc) (ih hk hlow hup hleft hright)
    exact absurd ((mem_left hlow').mp hk').2 (not_lt.mpr (hspot.within k hk).1)

/-- Splitting a row at one of its separators. -/
theorem Row.split (h : Row S good f keys children) {i : ℕ} (hm : keys[i]? = some m) :
    (f.lower < m ∧ m ≤ f.upper ∧ m < S.maxKey) ∧
      Row S good ⟨f.lower, S.decKey m⟩ (keys.take i) (children.take (i + 1)) ∧
      Row S good ⟨m, f.upper⟩ (keys.drop (i + 1)) (children.drop (i + 1)) := by
  refine ⟨h.mem_keys (List.mem_of_getElem? hm), ?_⟩
  induction h generalizing i with
  | last => cases hm
  | @cons f m' c keys children hlow hup hmax hc hrest ih =>
    cases i with
    | zero =>
      cases hm
      exact ⟨.last hc, hrest⟩
    | succ i =>
      obtain ⟨hleft, hright⟩ := ih hm
      have hlt := (hrest.mem_keys (List.mem_of_getElem? hm)).1
      refine ⟨.cons hlow ?_ hmax hc hleft, hright⟩
      exact (S.le_dec m (minKey_lt hlt) m').mpr hlt

/-- A child of a split row stands in the part on its side of the separator. -/
theorem Spot.split (h : Spot S good f keys children pos g c) {i : ℕ} (hm : keys[i]? = some m)
    (hk : k ∈ g) :
    (k < m ∧ Spot S good ⟨f.lower, S.decKey m⟩ (keys.take i) (children.take (i + 1)) pos g c) ∨
      (m ≤ k ∧
        Spot S good ⟨m, f.upper⟩ (keys.drop (i + 1)) (children.drop (i + 1)) (pos - (i + 1)) g c) := by
  induction h generalizing i with
  | last => cases hm
  | @here f m' c keys children hlow hup hmax hc hrest =>
    have hkm' := ((mem_left hlow).mp hk).2
    cases i with
    | zero =>
      cases hm
      exact .inl ⟨hkm', .last hc⟩
    | succ i =>
      obtain ⟨hin, hleft, -⟩ := hrest.split hm
      refine .inl ⟨hkm'.trans hin.1, .here hlow ?_ hmax hc hleft⟩
      exact (S.le_dec m (minKey_lt hin.1) m').mpr hin.1
  | @there f g m' c c' keys children pos hlow hup hmax hc hspot ih =>
    cases i with
    | zero =>
      cases hm
      exact .inr ⟨(hspot.within k hk).1, hspot⟩
    | succ i =>
      have hin := (hspot.row.mem_keys (List.mem_of_getElem? hm)).1
      rcases ih hm hk with ⟨hlt, hleft⟩ | ⟨hge, hright⟩
      · exact .inl ⟨hlt, .there hlow ((S.le_dec m (minKey_lt hin) m').mpr hin) hmax hc hleft⟩
      · refine .inr ⟨hge, ?_⟩
        rwa [show pos + 1 - (i + 1 + 1) = pos - (i + 1) by omega]

/-- The half of a split child that holds a key. -/
theorem Spot.insert_spot (h : Spot S good f keys children pos g c) (hk : k ∈ g)
    (hframe : ∀ g' c', k ∉ g' → good g' c' → good' g' c') (hlow : g.lower < m)
    (hup : m ≤ g.upper) (hmax : m < S.maxKey) {left right : C}
    (hleft : good' ⟨g.lower, S.decKey m⟩ left) (hright : good' ⟨m, g.upper⟩ right) :
    (k < m → Spot S good' f (keys.insertIdx pos m)
      ((children.set pos left).insertIdx (pos + 1) right) pos ⟨g.lower, S.decKey m⟩ left) ∧
    (m ≤ k → Spot S good' f (keys.insertIdx pos m)
      ((children.set pos left).insertIdx (pos + 1) right) (pos + 1) ⟨m, g.upper⟩ right) := by
  induction h with
  | last =>
    exact ⟨fun _ => .here hlow hup hmax hleft (.last hright),
      fun _ => .there hlow hup hmax hleft (.last hright)⟩
  | @here f m' c keys children hlow' hup' hmax' hc hrest =>
    have hlt : m < m' := (S.le_dec m' (minKey_lt hlow') m).mp hup
    have hrest' : Row S good' ⟨m', f.upper⟩ keys children := by
      refine hrest.mono fun g' c' hg' hgood => hframe g' c' (fun hk' => ?_) hgood
      exact absurd ((mem_left hlow').mp hk).2 (not_lt.mpr (hg' k hk').1)
    exact ⟨fun _ => .here hlow (hlt.le.trans hup') hmax hleft (.cons hlt hup' hmax' hright hrest'),
      fun _ => .there hlow (hlt.le.trans hup') hmax hleft (.here hlt hup' hmax' hright hrest')⟩
  | @there f g m' c c' keys children pos hlow' hup' hmax' hc hspot ih =>
    have hc' : good' ⟨f.lower, S.decKey m'⟩ c' := by
      refine hframe _ _ (fun hk' => ?_) hc
      exact absurd ((mem_left hlow').mp hk').2 (not_lt.mpr (hspot.within k hk).1)
    obtain ⟨hbefore, hbehind⟩ := ih hk hlow hup hleft hright
    exact ⟨fun hkm => .there hlow' hup' hmax' hc' (hbefore hkm),
      fun hmk => .there hlow' hup' hmax' hc' (hbehind hmk)⟩

/-! ## Windows -/

/-- Two rows side by side with the separator between them. -/
theorem Row.append {a b : K} {keys' : List K} {children' : List C}
    (h : Row S good ⟨a, S.decKey m⟩ keys children) (hlow : a < m) (hup : m ≤ b)
    (hmax : m < S.maxKey) (h' : Row S good ⟨m, b⟩ keys' children') :
    Row S good ⟨a, b⟩ (keys ++ m :: keys') (children ++ children') := by
  induction keys generalizing a children with
  | nil =>
    cases h with
    | last hc => exact .cons hlow hup hmax hc h'
  | cons m' keys ih =>
    cases h with
    | cons hlow' hup' hmax' hc hrest =>
      have hlt : m' < m := (S.le_dec m (minKey_lt (f := ⟨a, b⟩) hlow) m').mp hup'
      exact .cons hlow' (hlt.le.trans hup) hmax' hc (ih hrest hlt)

/-- Two neighbours with the separator between them, and the row around them, which
takes every row for their common fence in their place. -/
theorem Row.window {before after : List K} {left right : List C} {x y : C}
    (h : Row S good f (before ++ m :: after) (left ++ x :: y :: right))
    (hlen : before.length = left.length) :
    ∃ g : Interval K, (g.lower < m ∧ m ≤ g.upper ∧ m < S.maxKey) ∧
      good ⟨g.lower, S.decKey m⟩ x ∧ good ⟨m, g.upper⟩ y ∧
      ∀ keys children, Row S good g keys children →
        Row S good f (before ++ keys ++ after) (left ++ children ++ right) := by
  induction before generalizing f left with
  | nil =>
    obtain rfl : left = [] := List.length_eq_zero_iff.mp hlen.symm
    cases h with
    | cons hlow hup hmax hx hrest =>
      cases hrest with
      | last hy => exact ⟨f, ⟨hlow, hup, hmax⟩, hx, hy, fun _ _ h => by simpa using h⟩
      | @cons _ m' _ after _ hlow' hup' hmax' hy hrest =>
        refine ⟨⟨f.lower, S.decKey m'⟩, ⟨hlow, ?_, hmax⟩, hx, hy, fun _ _ h => ?_⟩
        · exact (S.le_dec m' (minKey_lt (f := ⟨m, f.upper⟩) hlow') m).mpr hlow'
        · exact h.append (hlow.trans hlow') hup' hmax' hrest
  | cons m' before ih =>
    cases left with
    | nil => cases hlen
    | cons c left =>
      cases h with
      | cons hlow hup hmax hc hrest =>
        obtain ⟨g, hm, hx, hy, hcontext⟩ := ih hrest (Nat.succ.inj hlen)
        exact ⟨g, hm, hx, hy, fun _ _ h => .cons hlow hup hmax hc (hcontext _ _ h)⟩

/-! ## Rows of rows -/

/-- Lists of separators with one separator between each two. -/
def weave : List K → List (List K) → List K
  | m :: ms, ks :: rows => ks ++ m :: weave ms rows
  | [], ks :: _ => ks
  | _, [] => []

omit [LinearOrder K] in
/-- Two neighbouring lists may be joined before weaving. -/
theorem weave_join {before after : List K} {m : K} {left right : List (List K)} {x y : List K}
    (hlen : before.length = left.length) :
    weave (before ++ after) (left ++ (x ++ m :: y) :: right) =
      weave (before ++ m :: after) (left ++ x :: y :: right) := by
  induction before generalizing left with
  | nil =>
    obtain rfl : left = [] := List.length_eq_zero_iff.mp hlen.symm
    cases after with
    | nil => rfl
    | cons => simp [weave]
  | cons m' before ih =>
    cases left with
    | nil => cases hlen
    | cons ks left =>
      simp only [List.cons_append, weave]
      rw [ih (Nat.succ.inj hlen)]

section Rows
variable {D : Type} {good : Interval K → D → Prop} {rowKeys : C → List K} {rowChildren : C → List D}

/-- A row of rows is a row. -/
theorem Row.flatten
    (h : Row S (fun g c => Row S good g (rowKeys c) (rowChildren c)) f keys children) :
    Row S good f (weave keys (children.map rowKeys)) (children.flatMap rowChildren) := by
  induction h with
  | last hc => simpa [weave] using hc
  | cons hlow hup hmax hc _ ih => exact hc.append hlow hup hmax ih

/-- Searching in a row of rows and then in the row found is searching in the flat row. -/
theorem Row.flatten_locate
    (h : Row S (fun g c => Row S good g (rowKeys c) (rowChildren c)) f keys children) (k : K) :
    (children[partitionPoint (fun m => decide (m ≤ k)) keys]?.bind
        fun c => (rowChildren c)[partitionPoint (fun m => decide (m ≤ k)) (rowKeys c)]?) =
      (children.flatMap rowChildren)[partitionPoint (fun m => decide (m ≤ k))
        (weave keys (children.map rowKeys))]? := by
  induction h with
  | last => simp [weave, partitionPoint]
  | @cons f m c keys children hlow hup hmax hc hrest ih =>
    have hlen := hc.length_eq
    by_cases hmk : m ≤ k
    · have hall : ∀ a ∈ rowKeys c ++ [m], decide (a ≤ k) = true := by
        intro a ha
        rcases List.mem_append.mp ha with ha | ha
        · have hlt := (S.le_dec m (minKey_lt hlow) a).mp (hc.mem_keys ha).2.1
          exact decide_eq_true (hlt.le.trans hmk)
        · rw [List.mem_singleton.mp ha]
          exact decide_eq_true hmk
      have hflat := partitionPoint_append hall (weave keys (children.map rowKeys))
      have honly : ∀ a ∈ [m], decide (a ≤ k) = true := by simpa using hmk
      have houter := partitionPoint_append honly keys
      simp only [List.append_assoc, List.singleton_append, List.length_append,
        List.length_singleton] at hflat houter
      simp only [weave, List.map_cons, List.flatMap_cons, hflat, houter]
      rw [Nat.add_comm 1, List.getElem?_cons_succ, ih, List.getElem?_append_right (by omega)]
      congr 1
      omega
    · have hstop := partitionPoint_append_cons (p := fun a => decide (a ≤ k)) (y := m)
        (decide_eq_false hmk)
      have houter : partitionPoint (fun a => decide (a ≤ k)) (m :: keys) = 0 := hstop [] keys
      simp only [weave, List.map_cons, List.flatMap_cons, houter, hstop]
      have hle := partitionPoint_le (fun a => decide (a ≤ k)) (rowKeys c)
      rw [List.getElem?_append_left (by omega)]
      rfl

end Rows

end CMVBT.SeparatorRow
