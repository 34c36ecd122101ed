import CMVBT.BaselineStates
import CMVBT.BaselineScan
import Mathlib.Algebra.Order.BigOperators.Group.List
import Mathlib.Algebra.Order.Group.Nat
import Mathlib.Data.List.Flatten
import Mathlib.Data.List.Sort

/-!
# The eager range scan

`traversal_read_range` goes through the tree level by level. Of each directory it
keeps the children from the first separator at or above the lower border to the
last one up to the upper border; at the lower border this can be one child too
many. The matches of a leaf are cut out by its keys. On a search tree whose lookups
do not fail the scan lists the answers in the range, as the lazy scan does.
-/
namespace CMVBT.EagerScan
open PageModel hiding Node startVersion
open OrderedMap (Mutable sortedList)
open KeyInterval VersionChain SeparatorRow BaselinePages BaselineTree BaselineContents
  BaselineStates BaselineScan BTreeIndex

variable {K V P : Type} [LinearOrder K]

/-! ## The scan -/

/-- `get_unchecked(first..=last)`. -/
def getRangeUnchecked {A : Type} (xs : List A) (first last : ℕ) : Except Fault (List A) :=
  if first ≤ last + 1 ∧ last < xs.length then .ok ((xs.take (last + 1)).drop first)
  else .error .outOfBounds

/-- The children of a directory that a range may concern. -/
def selectChildren (cfg : TreeConfig K V P) (range : Interval K) (keys : List K)
    (children : List (Node K V)) : Except Fault (List (Node K V)) :=
  let firstPos := position (binarySearchByKey id keys range.lower)
  let lastPos := position (binarySearchByKey id keys (cfg.keys.incKey range.upper))
  getRangeUnchecked children firstPos lastPos

/-- `traversal_read_range`: the queue of blocks, and the leaves in the order they are
met. Counts of visited nodes are left out. -/
def traversalReadRange (cfg : TreeConfig K V P) (range : Interval K) :
    ℕ → List (Node K V) → Except Fault (List (List (VersionedRecordPoint K V)))
  | _, [] => .ok []
  | 0, _ :: _ => .error .outOfFuel
  | fuel + 1, .index keys children :: path => do
    traversalReadRange cfg range fuel (path ++ (← selectChildren cfg range keys children))
  | fuel + 1, .leaf records :: path => do
    return records :: (← traversalReadRange cfg range fuel path)

/-- `filter_map` and `take_while` over the records of a leaf. -/
def takeMatches (index : IndexOps V P) (range : Interval K) (version : ℕ) :
    List (VersionedRecordPoint K V) → Except Fault (List (K × P))
  | [] => .ok []
  | record :: records => do
    match ← index.find version record.versionIndex with
    | none => takeMatches index range version records
    | some found =>
      if range.contains record.key then
        return (record.key, found.2) :: (← takeMatches index range version records)
      else return []

/-- The matches of a leaf, behind the records in front of the range. -/
def leafMatches (index : IndexOps V P) (range : Interval K) (version : ℕ)
    (records : List (VersionedRecordPoint K V)) : Except Fault (List (K × P)) :=
  takeMatches index range version (records.dropWhile (fun r => !range.contains r.key))

/-- `flat_map` over the leaves. -/
def collectMatches (index : IndexOps V P) (range : Interval K) (version : ℕ) :
    List (List (VersionedRecordPoint K V)) → Except Fault (List (K × P))
  | [] => .ok []
  | records :: leaves => do
    let matched ← leafMatches index range version records
    return matched ++ (← collectMatches index range version leaves)

/-- `CRUDOperation::Range` without `LAZY_RANGE_SCAN_ENABLED`. -/
def dispatchRangeEager (cfg : TreeConfig K V P) (fuel : ℕ) (tree : VersionTree K V)
    (range : Interval K) (version : ℕ) : Except Fault (List (K × P)) := do
  let leaves ← traversalReadRange cfg range fuel [tree.root]
  collectMatches cfg.index range version leaves

/-! ## Choosing children -/

variable {cfg : TreeConfig K V P} {h : ℕ} {f : Interval K} {node : Node K V}

/-- The fence of each child of a row. -/
theorem row_spot {C : Type} {S : KeySpace K} {good : Interval K → C → Prop} {keys : List K}
    {children : List C} {i : ℕ} {c : C} (hrow : Row S good f keys children)
    (hi : children[i]? = some c) : ∃ g, Spot S good f keys children i g c := by
  induction hrow generalizing i with
  | last hgood =>
    cases i with
    | zero =>
      cases hi
      exact ⟨_, .last hgood⟩
    | succ i => cases hi
  | cons hlow hup hmax hgood hrest ih =>
    cases i with
    | zero =>
      cases hi
      exact ⟨_, .here hlow hup hmax hgood hrest⟩
    | succ i =>
      obtain ⟨g, hspot⟩ := ih hi
      exact ⟨g, .there hlow hup hmax hgood hspot⟩

omit [LinearOrder K] in
/-- Separators in front of the partition point of a test pass it. -/
theorem passes_of_lt {keys : List K} {p : K → Bool} {i : ℕ} (hi : i < partitionPoint p keys)
    {m : K} (hm : keys[i]? = some m) : p m = true := by
  have hmem : m ∈ keys.take (partitionPoint p keys) := by
    obtain ⟨hlt, rfl⟩ := List.getElem?_eq_some_iff.mp hm
    exact List.mem_take_iff_getElem.mpr ⟨i, by omega, rfl⟩
  exact of_mem_take_partitionPoint m hmem

/-- The chosen children are there, and a record in the range is below one of them. -/
theorem selectChildren_ordered {keys : List K} {children : List (Node K V)} {lower upper : K}
    (hrow : Row cfg.keys (Ordered cfg.keys h) f keys children) (hle : lower ≤ upper) :
    ∃ chosen, selectChildren cfg ⟨lower, upper⟩ keys children = .ok chosen ∧
      chosen.Sublist children ∧
      ∀ r ∈ contents (h + 1) (.index keys children), lower ≤ r.key → r.key ≤ upper →
        r ∈ chosen.flatMap (contents h) := by
  set first := partitionPoint (fun m => decide (m < lower)) keys with hfirst
  set last := partitionPoint (fun m => decide (m ≤ upper)) keys with hlast
  have hmono : first ≤ last := by
    refine partitionPoint_mono fun m hm => ?_
    simp only [decide_eq_true_eq] at hm ⊢
    exact hm.le.trans hle
  have hlen : last < children.length := by
    rw [hrow.length_eq]
    exact Nat.lt_succ_of_le (partitionPoint_le _ _)
  refine ⟨(children.take (last + 1)).drop first, ?_, ?_, fun r hr hl hu => ?_⟩
  · have hfirst' : position (binarySearchByKey id keys lower) = first :=
      position_binarySearchByKey id keys lower
    simp only [selectChildren, hfirst', hrow.childPosition upper, ← hlast]
    exact if_pos ⟨by omega, hlen⟩
  · exact (List.drop_sublist _ _).trans (List.take_sublist _ _)
  · obtain ⟨c, hc, hin⟩ := List.mem_flatMap.mp hr
    obtain ⟨i, hi, rfl⟩ := List.getElem_of_mem hc
    obtain ⟨g, hspot⟩ := row_spot hrow (List.getElem?_eq_getElem hi)
    have hkey : r.key ∈ g := hspot.child_good.inside hin
    rw [hspot.fence] at hkey
    have hstart : first ≤ i := by
      by_contra hlt
      have hilt : i < keys.length := (not_le.mp hlt).trans_le (partitionPoint_le _ _)
      have hget := List.getElem?_eq_getElem hilt
      have hbelow : keys[i] < lower := by simpa using passes_of_lt (not_le.mp hlt) hget
      have hmin := minKey_lt (S := cfg.keys) (hrow.mem_keys (List.getElem_mem hilt)).1
      have hup : r.key ≤ cfg.keys.decKey keys[i] := by simpa [hget] using hkey.2
      exact absurd ((cfg.keys.le_dec _ hmin _).mp hup) (not_lt.mpr (hbelow.le.trans hl))
    have hstop : i ≤ last := by
      by_contra hgt
      have hpos : i - 1 < keys.length := by
        have := hspot.pos_le
        omega
      have hget := List.getElem?_eq_getElem hpos
      have habove : decide (keys[i - 1] ≤ upper) = false := by
        refine hrow.sorted.not_of_mem_drop (p := fun m => decide (m ≤ upper)) ?_ _ ?_
        · exact fun a b hab hb => by simpa using hab.le.trans (by simpa using hb)
        · rw [List.mem_drop_iff_getElem]
          exact ⟨i - 1 - last, by omega, by congr 1; omega⟩
      have hlow : keys[i - 1] ≤ r.key := by
        have := hkey.1
        rwa [if_neg (show i ≠ 0 by omega), hget] at this
      exact absurd (hlow.trans hu) (by simpa using habove)
    refine List.mem_flatMap.mpr ⟨children[i], ?_, hin⟩
    rw [List.mem_drop_iff_getElem]
    refine ⟨i - first, by rw [List.length_take]; omega, ?_⟩
    rw [List.getElem_take]
    congr 1
    omega

/-! ## Level by level -/

/-- The blocks of a tree of height `h`. -/
def blocks : ℕ → Node K V → ℕ
  | h + 1, .index _ children => 1 + (children.map (blocks h)).sum
  | _, _ => 1

/-- One level of directories in front of the queue becomes the chosen children behind it. -/
theorem traversalReadRange_level {lower upper : K} (hle : lower ≤ upper) {ns : List (Node K V)}
    (hns : ∀ n ∈ ns, ∃ f, Ordered cfg.keys (h + 1) f n) :
    ∃ chosen : List (Node K V),
      (∀ fuel rs, traversalReadRange cfg ⟨lower, upper⟩ (ns.length + fuel) (ns ++ rs) =
        traversalReadRange cfg ⟨lower, upper⟩ fuel (rs ++ chosen)) ∧
      (∀ c ∈ chosen, ∃ g, Ordered cfg.keys h g c) ∧
      (chosen.flatMap (contents h)).Sublist (ns.flatMap (contents (h + 1))) ∧
      (∀ r ∈ ns.flatMap (contents (h + 1)), lower ≤ r.key → r.key ≤ upper →
        r ∈ chosen.flatMap (contents h)) ∧
      ns.length + (chosen.map (blocks h)).sum ≤ (ns.map (blocks (h + 1))).sum := by
  induction ns with
  | nil => exact ⟨[], by simp, by simp, by simp, by simp, by simp⟩
  | cons n ns ih =>
    obtain ⟨rest, hrun, hrest, hsub, hmem, hcount⟩ := ih fun n hn => hns n (List.mem_cons_of_mem _ hn)
    obtain ⟨f, ho⟩ := hns n List.mem_cons_self
    cases n with
    | leaf => exact ho.elim
    | index keys children =>
      have hrow : Row cfg.keys (Ordered cfg.keys h) f keys children := ho
      obtain ⟨chosen, hselect, hchosen, hall⟩ := selectChildren_ordered hrow hle
      refine ⟨chosen ++ rest, fun fuel rs => ?_, fun c hc => ?_, ?_, fun r hr hl hu => ?_, ?_⟩
      · have hfuel : (Node.index keys children :: ns).length + fuel = (ns.length + fuel) + 1 := by
          simp only [List.length_cons]
          omega
        rw [hfuel, List.cons_append, traversalReadRange, hselect, ok_bind, List.append_assoc, hrun,
          List.append_assoc]
      · rcases List.mem_append.mp hc with hc | hc
        · obtain ⟨g, -, hgood⟩ := row_mem hrow (hchosen.subset hc)
          exact ⟨g, hgood⟩
        · exact hrest c hc
      · rw [List.flatMap_append, List.flatMap_cons]
        exact (hchosen.flatMap _).append hsub
      · rw [List.flatMap_append, List.mem_append]
        rw [List.flatMap_cons, List.mem_append] at hr
        exact hr.imp (fun hin => hall r hin hl hu) (fun hin => hmem r hin hl hu)
      · have hless : (chosen.map (blocks h)).sum ≤ (children.map (blocks h)).sum :=
          (hchosen.map _).sum_le_sum fun _ _ => Nat.zero_le _
        simp only [List.length_cons, List.map_append, List.sum_append, List.map_cons,
          List.sum_cons, blocks]
        omega

/-- The scan ends with leaves of the tree, in order, that have all records in the range. -/
theorem traversalReadRange_leaves {lower upper : K} (hle : lower ≤ upper) {ns : List (Node K V)}
    (hns : ∀ n ∈ ns, ∃ f, Ordered cfg.keys h f n) {fuel : ℕ}
    (hfuel : (ns.map (blocks h)).sum ≤ fuel) :
    ∃ leaves, traversalReadRange cfg ⟨lower, upper⟩ fuel ns = .ok leaves ∧
      leaves.flatten.Sublist (ns.flatMap (contents h)) ∧
      ∀ r ∈ ns.flatMap (contents h), lower ≤ r.key → r.key ≤ upper → r ∈ leaves.flatten := by
  induction h generalizing ns fuel with
  | zero =>
    induction ns generalizing fuel with
    | nil => exact ⟨[], by simp [traversalReadRange], by simp, by simp⟩
    | cons n ns ih =>
      obtain ⟨f, ho⟩ := hns n List.mem_cons_self
      cases n with
      | index => exact ho.elim
      | leaf records =>
        have hone : blocks 0 (Node.leaf records : Node K V) = 1 := rfl
        rw [List.map_cons, List.sum_cons, hone] at hfuel
        obtain ⟨fuel, rfl⟩ : ∃ m, fuel = m + 1 := ⟨fuel - 1, by omega⟩
        obtain ⟨leaves, hrun, hsub, hmem⟩ :=
          ih (fun n hn => hns n (List.mem_cons_of_mem _ hn)) (show _ ≤ fuel by omega)
        refine ⟨records :: leaves, ?_, ?_, fun r hr hl hu => ?_⟩
        · rw [traversalReadRange, hrun]
          rfl
        · rw [List.flatten_cons, List.flatMap_cons]
          exact (List.Sublist.refl records).append hsub
        · rw [List.flatten_cons, List.mem_append]
          rw [List.flatMap_cons, List.mem_append] at hr
          exact hr.imp_right fun hin => hmem r hin hl hu
  | succ h ih =>
    obtain ⟨chosen, hrun, hchosen, hsub, hmem, hcount⟩ := traversalReadRange_level hle hns
    obtain ⟨fuel, rfl⟩ : ∃ m, fuel = ns.length + m := ⟨fuel - ns.length, by omega⟩
    obtain ⟨leaves, hleaves, hsub', hmem'⟩ := ih hchosen (show _ ≤ fuel by omega)
    refine ⟨leaves, ?_, hsub'.trans hsub, fun r hr hl hu => hmem' r (hmem r hr hl hu) hl hu⟩
    have hlevel := hrun fuel []
    rwa [List.append_nil, List.nil_append, hleaves] at hlevel

/-! ## The matches of a leaf -/

/-- The answer for a record in the range. -/
def matching (answer : K → Option P) (range : Interval K) (r : VersionedRecordPoint K V) :
    Option (K × P) :=
  if range.contains r.key then (answer r.key).map (fun p => (r.key, p)) else none

variable {index : IndexOps V P} {version : ℕ} {answer : K → Option P}
  {records : List (VersionedRecordPoint K V)} {lower upper : K}

theorem takeMatches_eq (hsorted : Sorted VersionedRecordPoint.key records)
    (hfind : ∀ r ∈ records, ∃ found, index.find version r.versionIndex = .ok found ∧
      found.map Prod.snd = answer r.key) (hlow : ∀ r ∈ records, lower ≤ r.key) :
    takeMatches index ⟨lower, upper⟩ version records =
      .ok (records.filterMap (matching answer ⟨lower, upper⟩)) := by
  induction records with
  | nil => rfl
  | cons r records ih =>
    obtain ⟨hlater, hrest⟩ := List.pairwise_cons.mp hsorted
    obtain ⟨found, hr, hans⟩ := hfind r List.mem_cons_self
    have htail := ih hrest (fun r hr => hfind r (List.mem_cons_of_mem _ hr))
      (fun r hr => hlow r (List.mem_cons_of_mem _ hr))
    simp only [takeMatches, hr, ok_bind]
    cases found with
    | none =>
      have hnone : matching answer ⟨lower, upper⟩ r = none := by
        unfold matching
        rw [← hans]
        split <;> rfl
      rw [List.filterMap_cons, hnone]
      exact htail
    | some found =>
      by_cases hin : (⟨lower, upper⟩ : Interval K).contains r.key = true
      · have hsome : matching answer ⟨lower, upper⟩ r = some (r.key, found.2) := by
          unfold matching
          rw [if_pos hin, ← hans]
          rfl
        rw [List.filterMap_cons, hsome]
        simp only [if_pos hin, htail, ok_bind]
        rfl
      · -- behind a key above the range there are only greater keys
        have habove : upper < r.key := by
          by_contra hle
          exact hin (Interval.contains_eq_true.mpr ⟨hlow r List.mem_cons_self, not_lt.mp hle⟩)
        have hnil : (r :: records).filterMap (matching answer ⟨lower, upper⟩) = [] := by
          refine List.filterMap_eq_nil_iff.mpr fun r' hr' => if_neg fun hin' => ?_
          have hle : r'.key ≤ upper := (Interval.contains_eq_true.mp hin').2
          rcases List.mem_cons.mp hr' with rfl | hr'
          · exact absurd hle (not_le.mpr habove)
          · exact absurd hle (not_le.mpr (habove.trans (hlater r' hr')))
        rw [hnil]
        simp only [if_neg hin]
        rfl

theorem leafMatches_eq (hsorted : Sorted VersionedRecordPoint.key records)
    (hfind : ∀ r ∈ records, ∃ found, index.find version r.versionIndex = .ok found ∧
      found.map Prod.snd = answer r.key) :
    leafMatches index ⟨lower, upper⟩ version records =
      .ok (records.filterMap (matching answer ⟨lower, upper⟩)) := by
  induction records with
  | nil => rfl
  | cons r records ih =>
    obtain ⟨hlater, hrest⟩ := List.pairwise_cons.mp hsorted
    by_cases hin : (⟨lower, upper⟩ : Interval K).contains r.key = true
    · have hkeep : (r :: records).dropWhile (fun r => !(⟨lower, upper⟩ : Interval K).contains r.key) =
          r :: records := List.dropWhile_cons_of_neg (by simp [hin])
      rw [leafMatches, hkeep]
      refine takeMatches_eq hsorted hfind fun r' hr' => ?_
      have hle := (Interval.contains_eq_true.mp hin).1
      rcases List.mem_cons.mp hr' with rfl | hr'
      · exact hle
      · exact hle.trans (hlater r' hr').le
    · have hnone : matching answer ⟨lower, upper⟩ r = none := if_neg hin
      rw [List.filterMap_cons, hnone, leafMatches,
        List.dropWhile_cons_of_pos (by simp [Bool.eq_false_iff.mpr hin])]
      exact ih hrest fun r hr => hfind r (List.mem_cons_of_mem _ hr)

theorem collectMatches_eq {leaves : List (List (VersionedRecordPoint K V))}
    (hsorted : Sorted VersionedRecordPoint.key leaves.flatten)
    (hfind : ∀ r ∈ leaves.flatten, ∃ found, index.find version r.versionIndex = .ok found ∧
      found.map Prod.snd = answer r.key) :
    collectMatches index ⟨lower, upper⟩ version leaves =
      .ok (leaves.flatten.filterMap (matching answer ⟨lower, upper⟩)) := by
  induction leaves with
  | nil => rfl
  | cons records leaves ih =>
    rw [List.flatten_cons] at hsorted hfind
    obtain ⟨hfirst, hrest, -⟩ := List.pairwise_append.mp hsorted
    have hleaf : leafMatches index ⟨lower, upper⟩ version records =
        .ok (records.filterMap (matching answer ⟨lower, upper⟩)) :=
      leafMatches_eq hfirst fun r hr => hfind r (List.mem_append_left _ hr)
    have htail := ih hrest fun r hr => hfind r (List.mem_append_right _ hr)
    simp only [collectMatches, hleaf, htail, ok_bind, List.flatten_cons, List.filterMap_append]
    rfl

/-! ## Both scans -/

/-- Lists of the same answers in the same range are equal. -/
theorem listed_unique {xs ys : List (K × P)} (hx : Listed answer lower upper xs)
    (hy : Listed answer lower upper ys) : xs = ys := by
  have : Std.Irrefl (fun a b : K × P => a.1 < b.1) := ⟨fun a => lt_irrefl a.1⟩
  have : Std.Antisymm (fun a b : K × P => a.1 < b.1) :=
    ⟨fun a b hab hba => absurd hab hba.asymm⟩
  refine hx.sorted.eq_of_mem_iff hy.sorted fun a => ?_
  rw [hx.mem, hy.mem]

/-- The eager scan lists the answers in the range. -/
theorem dispatchRangeEager_listed {tree : VersionTree K V} {H fuel : ℕ}
    (ha : Answers cfg.index (contents H tree.root) version answer)
    (ho : Ordered cfg.keys H cfg.keys.full tree.root) (hle : lower ≤ upper)
    (hfuel : blocks H tree.root ≤ fuel) :
    ∃ results, dispatchRangeEager cfg fuel tree ⟨lower, upper⟩ version = .ok results ∧
      Listed answer lower upper results := by
  have hroot : ∀ n ∈ [tree.root], ∃ f, Ordered cfg.keys H f n :=
    fun n hn => ⟨cfg.keys.full, List.mem_singleton.mp hn ▸ ho⟩
  obtain ⟨leaves, hrun, hsub, hmem⟩ :=
    traversalReadRange_leaves hle hroot (show _ ≤ fuel by simpa using hfuel)
  rw [List.flatMap_singleton] at hsub hmem
  have hsorted : Sorted VersionedRecordPoint.key leaves.flatten := ho.sorted.sublist hsub
  refine ⟨leaves.flatten.filterMap (matching answer ⟨lower, upper⟩), ?_, ?_, fun k p => ?_⟩
  · rw [dispatchRangeEager, hrun, ok_bind]
    exact collectMatches_eq hsorted fun r hr => ha.find r (hsub.subset hr)
  · refine List.Pairwise.filterMap _ ?_ hsorted
    intro a a' haa b hb b' hb'
    unfold matching at hb hb'
    split at hb
    · split at hb'
      · obtain ⟨p, -, rfl⟩ := Option.map_eq_some_iff.mp hb
        obtain ⟨p', -, rfl⟩ := Option.map_eq_some_iff.mp hb'
        exact haa
      · cases hb'
    · cases hb
  · rw [List.mem_filterMap]
    constructor
    · rintro ⟨r, hr, hmatch⟩
      unfold matching at hmatch
      split at hmatch
      · next hin =>
        obtain ⟨q, hq, heq⟩ := Option.map_eq_some_iff.mp hmatch
        cases heq
        exact ⟨Interval.contains_eq_true.mp hin, hq⟩
      · cases hmatch
    · rintro ⟨hin, hans⟩
      have hrec : ∃ r ∈ contents H tree.root, r.key = k := by
        by_contra hnone
        rw [ha.absent k fun r hr heq => hnone ⟨r, hr, heq⟩] at hans
        cases hans
      obtain ⟨r, hr, rfl⟩ := hrec
      refine ⟨r, hmem r hr hin.1 hin.2, ?_⟩
      rw [matching, if_pos (Interval.contains_eq_true.mpr hin), hans]
      rfl

/-- When no lookup fails, the answers at a version are a function of the key. -/
theorem exists_answers {S : KeySpace K} {root : Node K V} {H : ℕ}
    (ho : Ordered S H S.full root)
    (hfind : ∀ r ∈ contents H root, ∃ found, index.find version r.versionIndex = .ok found) :
    ∃ answer : K → Option P, Answers index (contents H root) version answer := by
  have hexists : ∀ k, ∃ a : Option P,
      (∀ r ∈ contents H root, r.key = k →
        ∃ found, index.find version r.versionIndex = .ok found ∧ found.map Prod.snd = a) ∧
      ((∀ r ∈ contents H root, r.key ≠ k) → a = none) := by
    intro k
    by_cases hrec : ∃ r ∈ contents H root, r.key = k
    · obtain ⟨r, hr, rfl⟩ := hrec
      obtain ⟨found, hfound⟩ := hfind r hr
      refine ⟨found.map Prod.snd, fun r' hr' hkey => ⟨found, ?_, rfl⟩, fun hnone => ?_⟩
      · rwa [sorted_unique ho.sorted hr' hr hkey]
      · exact absurd rfl (hnone r hr)
    · exact ⟨none, fun r hr hkey => absurd ⟨r, hr, hkey⟩ hrec, fun _ => rfl⟩
  choose answer hanswer hmiss using hexists
  exact ⟨answer, fun r hr => hanswer r.key r hr rfl, hmiss⟩

/-- A tree with any kind of index but VWEAVER, which has its own scan. -/
structure ScanConfig (K : Type) [LinearOrder K] {P : Type}
    (skipMap bPlusTree : Mutable (RecordInfo P)) where
  keys : KeySpace K
  sizes : Sizes
  vIndexType : AnyIndexType
  no_weaver : vIndexType ≠ .listed .vWeaver
  doUnderflowCorrection : List K → List (Node K (AnyIndex skipMap bPlusTree)) → ℕ →
    Except Fault (Node K (AnyIndex skipMap bPlusTree))

variable {skipMap bPlusTree : Mutable (RecordInfo P)}

def ScanConfig.tree (cfg : ScanConfig K skipMap bPlusTree) :
    TreeConfig K (AnyIndex skipMap bPlusTree) P :=
  ⟨cfg.keys, cfg.sizes, AnyIndex.ops cfg.vIndexType, cfg.doUnderflowCorrection⟩

/-- After every run of writes that returns, the lazy and the eager scan of a range end
and return the same list, for every range and every version. -/
theorem lazy_and_eager_agree (cfg : ScanConfig K skipMap bPlusTree)
    {ops : List (CRUDOperation K P × Bool)} (hkeys : ∀ op ∈ ops, op.1.key < cfg.keys.maxKey)
    {fuel : ℕ} (hfuel : 2 * ops.length + 3 ≤ fuel)
    {tree : VersionTree K (AnyIndex skipMap bPlusTree)} {results : List CRUDOperationResult}
    (hrun : cfg.tree.run fuel newWith ops = .ok (tree, results)) :
    ∃ steps, ∀ fuel', steps ≤ fuel' → ∀ lower upper, lower ≤ upper → ∀ version,
      ∃ records, cfg.tree.dispatchRange fuel' tree ⟨lower, upper⟩ version = .ok records ∧
        dispatchRangeEager cfg.tree fuel' tree ⟨lower, upper⟩ version = .ok records := by
  obtain ⟨log, H, hs⟩ :=
    run_newWith_shaped (findable_preserved cfg.vIndexType) hfuel hkeys hrun
  have ho : Ordered cfg.keys H cfg.keys.full tree.root := ordered_of_shaped hs
  refine ⟨(separators H tree.root).length + H + 3 + blocks H tree.root, ?_⟩
  intro fuel' hfuel' lower upper hle version
  have hfind : ∀ r ∈ contents H tree.root,
      ∃ found, cfg.tree.index.find version r.versionIndex = .ok found :=
    fun r hr => Findable.find (told_of_shaped hs hr) version
  obtain ⟨answer, ha⟩ := exists_answers ho hfind
  obtain ⟨lazy, hlazy, hlisted⟩ := dispatchRange_listed ha ho hle (show _ ≤ fuel' by omega)
  obtain ⟨eager, heager, hlisted'⟩ :=
    dispatchRangeEager_listed ha ho hle (show _ ≤ fuel' by omega)
  exact ⟨lazy, hlazy, listed_unique hlisted' hlisted ▸ heager⟩

/-- A tree of frugal lists with small pages. -/
def frugalConfig : ScanConfig UInt64 (sortedList (RecordInfo ℕ)) (sortedList (RecordInfo ℕ)) :=
  ⟨u64Space, smallSizes, .listed .frugalSkipList, by decide,
    fun keys children _ => .ok (.index keys children)⟩

/-- The keys 1 to 9, and one of them set again. -/
def tenWrites : List (CRUDOperation UInt64 ℕ × Bool) :=
  (List.range 9).map (fun i => (.insert (UInt64.ofNat (i + 1)) i, true)) ++ [(.update 5 51, false)]

/-- The scan crosses the leaves below the root. -/
theorem lazy_and_eager_agree_four_leaves :
    ∃ tree results, frugalConfig.tree.run 23 newWith tenWrites = .ok (tree, results) ∧
      separators 1 tree.root = [3, 5, 7] ∧
      ∃ steps, ∀ fuel', steps ≤ fuel' → ∃ records,
        frugalConfig.tree.dispatchRange fuel' tree ⟨2, 8⟩ 9 = .ok records ∧
        dispatchRangeEager frugalConfig.tree fuel' tree ⟨2, 8⟩ 9 = .ok records := by
  have hkeys : ∀ op ∈ tenWrites, op.1.key < frugalConfig.keys.maxKey := by decide
  have hshape : (frugalConfig.tree.run 23 newWith tenWrites).map
      (fun x => separators 1 x.1.root) = .ok [3, 5, 7] := by
    decide +kernel
  obtain ⟨⟨tree, results⟩, hrun, hseparators⟩ := of_map_ok hshape
  obtain ⟨steps, hagree⟩ := lazy_and_eager_agree frugalConfig hkeys (by decide) hrun
  exact ⟨tree, results, hrun, hseparators, steps,
    fun fuel' hfuel' => hagree fuel' hfuel' 2 8 (by decide) 9⟩

end CMVBT.EagerScan
