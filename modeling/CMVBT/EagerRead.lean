import CMVBT.RangeScan
import CMVBT.RetainedVersions
import CMVBT.SliceCuts

/-!
# Eager range reads

`key_range_read_from_root` collects the leaves for a range level by level
instead of key by key. It cuts each page at the version by binary search and
takes the slots in front of the cut, so the slot that was written exactly at the
version is left out if the search meets it; the lazy iterator has no such cut.
Of the entries that overlap the range it drops those that share a border with
a younger one, which hides most but not all entries that a younger one replaced.

Where neither happens on the way, both reads agree.
-/
namespace CMVBT.EagerRead
open KeyInterval LastMatch FenceTiling VersionedLog PageModel CMVBT.Tree SliceCuts
open WritePath ReadPath DirectoryHistory LeafHistory TreeInvariant NewPages Reference
open WriteOperations FreshTree SnapshotRead RangeScan ReaderHistory RetainedVersions

variable {K P : Type} [LinearOrder K]

/-! ## The read -/

section Read
variable (search : BinarySearch)

omit [LinearOrder K] in
/-- `.rev().skip(len - pos)`: the slots in front of the cut, newest first. -/
def beforeCut {α : Type} (versions : List ℕ) (units : List α) (v : ℕ) : List α :=
  units.reverse.drop (versions.length - search.cut versions v)

/-- The entries of a directory that the read descends into. -/
def childrenIn (page : InternalPage K) (range : Interval K) (v : ℕ) : List (Entry K) :=
  uniqueBy (fun e => e.fence.upper) (uniqueBy (fun e => e.fence.lower)
    ((beforeCut search (page.asUnits.map Entry.version) page.asUnits v).filter
      (fun e => e.matched v && range.overlap e.fence)))

/-- The queue of `traverse_read_key_range`, for at most as many rounds as given. -/
def traverseReadKeyRange (t : MVBTSt K P) (range : Interval K) (v : ℕ) :
    ℕ → List ℕ → List (LeafPage K P) → Except Fault (List (LeafPage K P))
  | _, [], leafs => .ok leafs
  | 0, _ :: _, _ => .error .outOfFuel
  | fuel + 1, curr :: blocks, leafs =>
    match t.heap curr with
    | .internal page => traverseReadKeyRange t range v fuel
        (blocks ++ (childrenIn search page range v).map Entry.pointer) leafs
    | .leaf page => traverseReadKeyRange t range v fuel blocks (leafs ++ [page])

/-- The records of one leaf, newest first. -/
def recordsIn (leaf : LeafPage K P) (range : Interval K) (v : ℕ) : List (RecordPointResult K P) :=
  ((beforeCut search (leaf.asUnits.map (fun r => r.version.insertVersion)) leaf.asUnits v).filter
    (fun r => r.version.matches v && range.contains r.key)).map RecordPoint.result

def keyRangeReadFromRoot (fuel : ℕ) (t : MVBTSt K P) (root : ℕ × ℕ) (range : Interval K) (v : ℕ) :
    Except Fault (List (RecordPointResult K P)) := do
  let leafs ← traverseReadKeyRange search t range v fuel [root.1] []
  return leafs.flatMap (fun leaf => recordsIn search leaf range v)

/-- `CRUDOperation::Range` where the dispatch is not lazy. -/
def dispatchRangeEager (fuel : ℕ) (t : MVBTSt K P) (range : Interval K) (version : ℕ) :
    Except Fault (MVBTSt K P × List (RecordPointResult K P)) := do
  let t := onAcquireReaderSnapshot t version
  let res ← keyRangeReadFromRoot search fuel t (← t.rootFor version) range version
  return (onReleaseReaderSnapshot t version, res)

end Read

/-! ## Where the read follows the version -/

/-- The blocks that point reads for keys of the range pass. -/
inductive Passed (t : MVBTSt K P) (range : Interval K) (v : ℕ) : ℕ → Prop
  | root {r : ℕ × ℕ} : t.rootFor v = .ok r → Passed t range v r.1
  | child {b : ℕ} {p : InternalPage K} {k : K} {next : Interval K × ℕ} : Passed t range v b →
      t.heap b = .internal p → k ∈ range → routeAt p.asUnits v k = some next →
      Passed t range v next.2

/-- Among `younger`, newest first, is an entry that hides `e`: one with the same
lower border, or one with the same upper border that is not hidden itself by a
lower border. -/
def Hides (younger : List (Entry K)) (e : Entry K) : Prop :=
  (∃ x ∈ younger, x.fence.lower = e.fence.lower) ∨
    ∃ a x b, younger = a ++ x :: b ∧ x.fence.upper = e.fence.upper ∧
      ∀ y ∈ a, y.fence.lower ≠ x.fence.lower

/-- The entries of the range that exist at the version. -/
def meets (range : Interval K) (v : ℕ) (e : Entry K) : Bool :=
  e.matched v && range.overlap e.fence

/-- No entry of the range was written exactly at the version, and every entry
that a younger one overlaps is hidden by a younger one of the range. -/
structure ClearDirectory (p : InternalPage K) (range : Interval K) (v : ℕ) : Prop where
  off_version : ∀ e ∈ p.asUnits, range.overlap e.fence = true → e.version ≠ v
  hidden : ∀ older e younger, p.asUnits = older ++ e :: younger → meets range v e = true →
    (∃ y ∈ younger, y.matched v = true ∧ y.fence.overlap e.fence = true) →
    Hides (younger.filter (meets range v)).reverse e

/-- No record of the range was written exactly at the version. -/
def ClearLeaf (p : LeafPage K P) (range : Interval K) (v : ℕ) : Prop :=
  ∀ r ∈ p.asUnits, range.contains r.key = true → r.version.insertVersion ≠ v

/-- All pages on the way are clear. -/
structure Clear (t : MVBTSt K P) (range : Interval K) (v : ℕ) : Prop where
  directory : ∀ b p, Passed t range v b → t.heap b = .internal p → ClearDirectory p range v
  leaf : ∀ b p, Passed t range v b → t.heap b = .leaf p → ClearLeaf p range v

/-! ## One page -/

section Page
variable {search : BinarySearch} {range : Interval K} {v : ℕ}

omit [LinearOrder K] in
/-- Units that are strictly older than the version lie in front of the cut. -/
theorem filter_beforeCut {α : Type} {stamp : α → ℕ} {units : List α} {q : α → Bool}
    (hs : (units.map stamp).Pairwise (· ≤ ·)) (hq : ∀ u ∈ units, q u = true → stamp u < v) :
    (beforeCut search (units.map stamp) units v).filter q = (units.filter q).reverse := by
  have hle := search.cut_le hs v
  have hback : (units.drop (search.cut (units.map stamp) v)).filter q = [] := by
    rw [List.filter_eq_nil_iff]
    intro u hu hqu
    have hge : v ≤ stamp u := by
      apply search.le_of_mem_drop hs
      rw [← List.map_drop]
      exact List.mem_map_of_mem hu
    exact absurd (hq u (List.mem_of_mem_drop hu) hqu) (not_lt.mpr hge)
  have hsplit : units.filter q = (units.take (search.cut (units.map stamp) v)).filter q := by
    conv_lhs => rw [← List.take_append_drop (search.cut (units.map stamp) v) units]
    rw [List.filter_append, hback, List.append_nil]
  rw [List.length_map] at hle
  rw [beforeCut, List.length_map, List.drop_reverse, List.filter_reverse, hsplit]
  congr 3
  omega

omit [LinearOrder K] in
variable {p : InternalPage K}

theorem childrenIn_clear (hs : (p.asUnits.map Entry.version).Pairwise (· ≤ ·))
    (hc : ClearDirectory p range v) : childrenIn search p range v =
      uniqueBy (fun e => e.fence.upper) (uniqueBy (fun e => e.fence.lower)
        (p.asUnits.filter (meets range v)).reverse) := by
  have hq : ∀ e ∈ p.asUnits, meets range v e = true → e.version < v := by
    intro e he hm
    simp only [meets, Entry.matched, Bool.and_eq_true, decide_eq_true_eq] at hm
    exact lt_of_le_of_ne hm.1 (hc.off_version e he hm.2)
  rw [childrenIn]
  congr 2
  exact filter_beforeCut hs hq

/-- The entries taken are entries of the range. -/
theorem mem_childrenIn (hs : (p.asUnits.map Entry.version).Pairwise (· ≤ ·))
    (hc : ClearDirectory p range v) {e : Entry K} (he : e ∈ childrenIn search p range v) :
    e ∈ p.asUnits ∧ meets range v e = true := by
  rw [childrenIn_clear hs hc] at he
  have := mem_of_mem_uniqueBy (mem_of_mem_uniqueBy he)
  exact List.mem_filter.mp (List.mem_reverse.mp this)

/-- An entry that is taken is not overlapped by a younger one: every key of its
fence is routed to it. -/
theorem childrenIn_routes (hs : (p.asUnits.map Entry.version).Pairwise (· ≤ ·))
    (hc : ClearDirectory p range v) {e : Entry K} (he : e ∈ childrenIn search p range v) {k : K}
    (hk : k ∈ e.fence) : routeAt p.asUnits v k = some (e.fence, e.pointer) := by
  have hmeets := (mem_childrenIn hs hc he).2
  rw [childrenIn_clear hs hc] at he
  obtain ⟨l₁, l₂, hl, hfirst⟩ := split_of_mem_uniqueFrom (mem_of_mem_uniqueBy he)
  -- the entries in front are the younger ones
  have hunits : p.asUnits.filter (meets range v) = l₂.reverse ++ e :: l₁.reverse := by
    rw [← List.reverse_reverse (p.asUnits.filter (meets range v)), hl]
    simp
  obtain ⟨older, rest, hsplit, -, hrest⟩ := List.filter_eq_append_iff.mp hunits
  obtain ⟨skipped, younger, rfl, hskipped, hem, hyounger⟩ := List.filter_eq_cons_iff.mp hrest
  have hsplit' : p.asUnits = (older ++ skipped) ++ e :: younger := by
    rw [hsplit, List.append_assoc]
  have hmatched : e.matched v = true := by
    simp only [meets, Bool.and_eq_true] at hmeets
    exact hmeets.1
  by_contra hroute
  have hyoung : ∃ y ∈ younger, (y.matched v && y.fence.contains k) = true := by
    by_contra hno
    apply hroute
    rw [routeAt, hsplit', findRev?_split]
    · rfl
    · simp [hmatched, hk]
    · intro y hy
      by_contra hyk
      exact hno ⟨y, hy, by simpa using hyk⟩
  obtain ⟨y, hy, hyk⟩ := hyoung
  simp only [Bool.and_eq_true, Interval.contains_eq_true] at hyk
  have hhides := hc.hidden _ e younger hsplit' hmeets
    ⟨y, hy, hyk.1, Interval.overlap_of_mem hyk.2 hk⟩
  rw [hyounger, List.reverse_reverse] at hhides
  rcases hhides with ⟨x, hx, hlower⟩ | ⟨a, x, b, rfl, hupper, ha⟩
  · exact hfirst x hx hlower
  · obtain ⟨back, hback⟩ := @uniqueBy_first _ _ _ _ _ l₂ _ hfirst
    rw [hl, hback] at he
    have hout : e ∉ uniqueBy (fun e => e.fence.lower) (a ++ x :: b) := by
      intro hin
      exact hfirst e (mem_of_mem_uniqueBy hin) rfl
    exact first_of_mem_uniqueBy he hout x (mem_uniqueBy_of_first ha) hupper

/-- Every key of the range has its entry among those taken. -/
theorem childrenIn_complete (hs : (p.asUnits.map Entry.version).Pairwise (· ≤ ·))
    (hc : ClearDirectory p range v) {f : Interval K} (hp : Partitions p.asUnits f v)
    (hproper : ∀ e ∈ p.asUnits, e.fence.Proper) {k : K} (hkr : k ∈ range) (hkf : k ∈ f) :
    ∃ e ∈ childrenIn search p range v, k ∈ e.fence := by
  obtain ⟨next, hroute, -, -, hall⟩ := hp k hkf
  obtain ⟨e, hfind, rfl⟩ := Option.map_eq_some_iff.mp hroute
  have hek := findRev?_pos hfind
  simp only [Bool.and_eq_true, Interval.contains_eq_true] at hek
  obtain ⟨older, younger, hunits, hbehind⟩ := findRev?_behind hfind
  have hmeets : meets range v e = true := by
    simp only [meets, Bool.and_eq_true]
    exact ⟨hek.1, Interval.overlap_of_mem hkr hek.2⟩
  -- a younger entry at a border of `e` would take that key, and with it `k`
  have hborder : ∀ x ∈ (younger.filter (meets range v)).reverse, ∀ m ∈ x.fence, m ∉ e.fence := by
    intro x hx m hmx hme
    obtain ⟨hx, hxm⟩ := List.mem_filter.mp (List.mem_reverse.mp hx)
    simp only [meets, Bool.and_eq_true] at hxm
    obtain ⟨y, hy⟩ := findRev?_isSome (p := fun e => e.matched v && e.fence.contains m) hx
      (by simp [hxm.1, hmx])
    have hroute' : routeAt p.asUnits v m = some (y.fence, y.pointer) := by
      rw [routeAt, hunits, findRev?_append, show (e :: younger) = [e] ++ younger from rfl,
        findRev?_append, hy]
      rfl
    have hsame := hall m hme
    rw [hroute'] at hsame
    have hym := findRev?_pos hy
    simp only [Bool.and_eq_true] at hym
    have hfence : y.fence = e.fence := congrArg Prod.fst (Option.some.inj hsame)
    have hout := hbehind y (findRev?_mem hy)
    rw [hfence, hym.1, Interval.contains_eq_true.mpr hek.2] at hout
    cases hout
  have hfs : (p.asUnits.filter (meets range v)).reverse =
      (younger.filter (meets range v)).reverse ++ e :: (older.filter (meets range v)).reverse := by
    rw [hunits, List.filter_append, List.filter_cons_of_pos hmeets]
    simp
  have hpe := hproper e (by rw [hunits]; simp)
  have hpx : ∀ x ∈ (younger.filter (meets range v)).reverse, x.fence.Proper := by
    intro x hx
    apply hproper
    rw [hunits]
    have := (List.mem_filter.mp (List.mem_reverse.mp hx)).1
    simp [this]
  refine ⟨e, ?_, hek.2⟩
  rw [childrenIn_clear hs hc, hfs]
  have hlower : ∀ x ∈ (younger.filter (meets range v)).reverse, x.fence.lower ≠ e.fence.lower := by
    intro x hx heq
    exact hborder x hx _ (hpx x hx).lower_mem (by rw [heq]; exact hpe.lower_mem)
  obtain ⟨back, hback⟩ := @uniqueBy_first _ _ _ (fun e : Entry K => e.fence.lower) _
    (older.filter (meets range v)).reverse _ hlower
  rw [hback]
  apply mem_uniqueBy_of_first
  intro x hx hupper
  have hx := mem_of_mem_uniqueBy hx
  exact hborder x hx _ (hpx x hx).upper_mem (by rw [hupper]; exact hpe.upper_mem)

theorem childrenIn_disjoint (hs : (p.asUnits.map Entry.version).Pairwise (· ≤ ·))
    (hc : ClearDirectory p range v) :
    (childrenIn search p range v).Pairwise (fun a b => a.fence.Disjoint b.fence) := by
  have hnd : ((childrenIn search p range v).map (fun e => e.fence.upper)).Nodup := uniqueFrom_nodup
  rw [List.Nodup, List.pairwise_map] at hnd
  refine hnd.imp_of_mem ?_
  intro a b ha hb hne k hka hkb
  have hroute := childrenIn_routes hs hc ha hka
  rw [childrenIn_routes hs hc hb hkb] at hroute
  have hfence : b.fence = a.fence := congrArg Prod.fst (Option.some.inj hroute)
  exact hne (by rw [hfence])

/-- The records taken from a leaf are those that the lazy read takes. -/
theorem recordsIn_clear {leaf : LeafPage K P}
    (hs : (leaf.asUnits.map (fun r => r.version.insertVersion)).Pairwise (· ≤ ·))
    (hc : ClearLeaf leaf range v) :
    recordsIn search leaf range v = (leafFound leaf v range).reverse := by
  have hq : ∀ r ∈ leaf.asUnits, (r.version.matches v && range.contains r.key) = true →
      r.version.insertVersion < v := by
    intro r hr hm
    simp only [Bool.and_eq_true] at hm
    exact lt_of_le_of_ne (matches_eq_true.mp hm.1).1 (hc r hr hm.2)
  rw [recordsIn, leafFound, filter_beforeCut hs hq, List.map_reverse]

end Page

/-! ## Level by level -/

section Levels
variable (search : BinarySearch) {cfg : Config K} {t : MVBTSt K P} {g : Ghost K P}
  {range : Interval K} {v level : ℕ} {xs ys : List (Interval K × ℕ)}

/-- Fences and blocks of one level that the read still has to look into: together
they hold the range, each key once. -/
structure Front (t : MVBTSt K P) (g : Ghost K P) (range : Interval K) (v level : ℕ)
    (xs : List (Interval K × ℕ)) : Prop where
  visible : ∀ x ∈ xs, Visible t g v x.2 x.1 level
  passed : ∀ x ∈ xs, Passed t range v x.2
  disjoint : xs.Pairwise (fun x y => x.1.Disjoint y.1)
  cover : ∀ k ∈ range, ∃ x ∈ xs, k ∈ x.1

/-- What a block adds to the queue. -/
def below (search : BinarySearch) (t : MVBTSt K P) (range : Interval K) (v : ℕ)
    (x : Interval K × ℕ) : List (Interval K × ℕ) :=
  match t.heap x.2 with
  | .internal p => (childrenIn search p range v).map (fun e => (e.fence, e.pointer))
  | .leaf _ => []

/-- The leaf in a block. -/
def leafOf (t : MVBTSt K P) (x : Interval K × ℕ) : LeafPage K P :=
  match t.heap x.2 with
  | .leaf p => p
  | .internal _ => Page.new

/-- The versions of a directory in use ascend. -/
theorem versions_ascend (h : Inv cfg t g) {b : ℕ} (hb : b < t.nextBlock) {p : InternalPage K}
    (hp : t.heap b = .internal p) : (p.asUnits.map Entry.version).Pairwise (· ≤ ·) := by
  have hnode := h.living.node b hb
  rw [hp] at hnode
  rw [hnode.counted_internal]
  exact List.pairwise_map.mpr hnode.2.sorted

/-- The insert versions of a leaf in use ascend. -/
theorem inserts_ascend (h : Inv cfg t g) {b : ℕ} (hb : b < t.nextBlock) {p : LeafPage K P}
    (hp : t.heap b = .leaf p) :
    (p.asUnits.map (fun r => r.version.insertVersion)).Pairwise (· ≤ ·) := by
  have hnode := h.living.node b hb
  rw [hp] at hnode
  rw [hnode.counted_leaf]
  exact List.pairwise_map.mpr hnode.2.sorted

/-- The blocks below `x` hold the keys of the range in its fence, each once. -/
structure Below (search : BinarySearch) (t : MVBTSt K P) (g : Ghost K P) (range : Interval K)
    (v level : ℕ) (x : Interval K × ℕ) : Prop where
  inside : ∀ y ∈ below search t range v x,
    Visible t g v y.2 y.1 level ∧ Passed t range v y.2 ∧ y.1.Within x.1
  disjoint : (below search t range v x).Pairwise (fun y z => y.1.Disjoint z.1)
  cover : ∀ k ∈ range, k ∈ x.1 → ∃ y ∈ below search t range v x, k ∈ y.1

theorem below_front (h : Inv cfg t g) (hr : Readable cfg t g v) (hc : Clear t range v)
    (hrange : range.Proper) {x : Interval K × ℕ} {p : InternalPage K}
    (hv : Visible t g v x.2 x.1 (level + 1)) (hx : Passed t range v x.2)
    (hp : t.heap x.2 = .internal p) : Below search t g range v level x := by
  have hs := versions_ascend h hv.used hp
  have hcl := hc.directory x.2 p hx hp
  have hnode := h.living.node x.2 hv.used
  rw [hp] at hnode
  have hinside : ∀ e ∈ p.asUnits, e.fence.Proper ∧ e.fence.Within x.1 := by
    intro e he
    rw [hnode.2.counted.asUnits] at he
    have := hnode.2.inside e he
    rw [hv.fence] at this
    exact ⟨this.1, this.2.1⟩
  have hbelow : below search t range v x =
      (childrenIn search p range v).map (fun e => (e.fence, e.pointer)) := by
    rw [below, hp]
  constructor <;> rw [hbelow]
  · intro y hy
    obtain ⟨e, he, rfl⟩ := List.mem_map.mp hy
    obtain ⟨hmem, hm⟩ := mem_childrenIn hs hcl he
    simp only [meets, Bool.and_eq_true] at hm
    obtain ⟨k, hkr, hke⟩ := Interval.exists_mem_of_overlap hm.2 hrange (hinside e hmem).1
    have hroute := childrenIn_routes hs hcl he hke
    obtain ⟨n, hlevel, hchild⟩ := hr.child h hv hp hroute
    obtain rfl : n = level := by omega
    exact ⟨hchild, .child hx hp hkr hroute, (hinside e hmem).2⟩
  · rw [List.pairwise_map]
    exact childrenIn_disjoint hs hcl
  · intro k hkr hkx
    obtain ⟨e, he, hke⟩ := childrenIn_complete hs hcl (hv.route h hp)
      (fun e he => (hinside e he).1) hkr hkx
    exact ⟨_, List.mem_map_of_mem he, hke⟩

/-- From one level to the next. -/
theorem Front.next (hf : Front t g range v (level + 1) xs) (h : Inv cfg t g)
    (hr : Readable cfg t g v) (hc : Clear t range v) (hrange : range.Proper)
    (hdir : ∀ x ∈ xs, ∃ p, t.heap x.2 = .internal p) :
    Front t g range v level (xs.flatMap (below search t range v)) := by
  have hone : ∀ x ∈ xs, Below search t g range v level x := by
    intro x hx
    obtain ⟨p, hp⟩ := hdir x hx
    exact below_front search h hr hc hrange (hf.visible x hx) (hf.passed x hx) hp
  constructor
  · intro y hy
    obtain ⟨x, hx, hy⟩ := List.mem_flatMap.mp hy
    exact ((hone x hx).inside y hy).1
  · intro y hy
    obtain ⟨x, hx, hy⟩ := List.mem_flatMap.mp hy
    exact ((hone x hx).inside y hy).2.1
  · rw [List.pairwise_flatMap]
    constructor
    · intro x hx
      exact (hone x hx).disjoint
    · refine hf.disjoint.imp_of_mem ?_
      intro x x' hx hx' hd y hy y' hy'
      exact hd.mono ((hone x hx).inside y hy).2.2 ((hone x' hx').inside y' hy').2.2
  · intro k hk
    obtain ⟨x, hx, hkx⟩ := hf.cover k hk
    obtain ⟨y, hy, hky⟩ := (hone x hx).cover k hk hkx
    exact ⟨y, List.mem_flatMap.mpr ⟨x, hx, hy⟩, hky⟩

/-- The loop takes the blocks of one level from the queue and leaves those below. -/
theorem traverse_level (hdir : ∀ x ∈ xs, ∃ p, t.heap x.2 = .internal p) (fuel : ℕ)
    (leafs : List (LeafPage K P)) :
    traverseReadKeyRange search t range v (xs.length + fuel) ((xs ++ ys).map Prod.snd) leafs =
      traverseReadKeyRange search t range v fuel
        ((ys ++ xs.flatMap (below search t range v)).map Prod.snd) leafs := by
  induction xs generalizing ys with
  | nil => simp
  | cons x xs ih =>
    obtain ⟨p, hp⟩ := hdir x (by simp)
    have hpointers : (below search t range v x).map Prod.snd =
        (childrenIn search p range v).map Entry.pointer := by
      rw [below, hp]
      simp
    have hrest := @ih (ys ++ below search t range v x) (fun y hy => hdir y (by simp [hy]))
    rw [show (x :: xs).length + fuel = xs.length + fuel + 1 by simp; omega]
    rw [List.cons_append, List.map_cons, traverseReadKeyRange, hp]
    simp only [← hpointers, List.map_append, List.flatMap_cons, List.append_assoc] at hrest ⊢
    exact hrest

/-- The leaves at the end of the queue. -/
theorem traverse_leafs (hleaf : ∀ x ∈ xs, ∃ p, t.heap x.2 = .leaf p) (fuel : ℕ)
    (leafs : List (LeafPage K P)) :
    traverseReadKeyRange search t range v (xs.length + fuel) (xs.map Prod.snd) leafs =
      .ok (leafs ++ xs.map (leafOf t)) := by
  induction xs generalizing leafs with
  | nil =>
    rw [List.map_nil, List.map_nil, List.append_nil]
    cases fuel <;> rfl
  | cons x xs ih =>
    obtain ⟨p, hp⟩ := hleaf x (by simp)
    have hx : leafOf t x = p := by rw [leafOf, hp]
    rw [show (x :: xs).length + fuel = xs.length + fuel + 1 by simp; omega]
    rw [List.map_cons, traverseReadKeyRange, hp]
    simp only
    rw [ih (fun y hy => hleaf y (by simp [hy])), List.map_cons, hx, List.append_assoc]
    rfl

theorem visible_leaf (h : Inv cfg t g) {x : Interval K × ℕ} (hx : Visible t g v x.2 x.1 1) :
    ∃ p, t.heap x.2 = .leaf p := by
  have hnode := h.living.node x.2 hx.used
  cases hp : t.heap x.2 with
  | leaf p => exact ⟨p, rfl⟩
  | internal p =>
    rw [hp] at hnode
    have hone := hnode.1
    rw [hx.level_eq] at hone
    exact absurd hone (lt_irrefl 1)

theorem visible_directory (h : Inv cfg t g) {x : Interval K × ℕ}
    (hx : Visible t g v x.2 x.1 (level + 2)) : ∃ p, t.heap x.2 = .internal p := by
  cases hp : t.heap x.2 with
  | internal p => exact ⟨p, rfl⟩
  | leaf p =>
    have := hx.level_leaf h hp
    omega

/-- The loop ends, and the leaves it has collected are a front. -/
theorem traverse_front (h : Inv cfg t g) (hr : Readable cfg t g v) (hc : Clear t range v)
    (hrange : range.Proper) :
    ∀ level xs, Front t g range v (level + 1) xs → ∃ bound ys, Front t g range v 1 ys ∧
      ∀ fuel leafs, bound ≤ fuel → traverseReadKeyRange search t range v fuel (xs.map Prod.snd)
        leafs = .ok (leafs ++ ys.map (leafOf t)) := by
  intro level
  induction level with
  | zero =>
    intro xs hf
    refine ⟨xs.length, xs, hf, ?_⟩
    intro fuel leafs hfuel
    obtain ⟨n, rfl⟩ := Nat.exists_eq_add_of_le hfuel
    exact traverse_leafs search (fun x hx => visible_leaf h (hf.visible x hx)) n leafs
  | succ level ih =>
    intro xs hf
    have hdir : ∀ x ∈ xs, ∃ p, t.heap x.2 = .internal p :=
      fun x hx => visible_directory h (hf.visible x hx)
    obtain ⟨bound, ys, hys, hrest⟩ := ih _ (hf.next search h hr hc hrange hdir)
    refine ⟨xs.length + bound, ys, hys, ?_⟩
    intro fuel leafs hfuel
    obtain ⟨n, rfl⟩ := Nat.exists_eq_add_of_le hfuel
    have hlevel := @traverse_level K P _ search t range v xs [] hdir (bound + n) leafs
    rw [List.append_nil, List.nil_append] at hlevel
    rw [Nat.add_assoc, hlevel]
    exact hrest (bound + n) leafs (Nat.le_add_right _ _)

/-- The records of all leaves of a front. -/
theorem Front.exact (hf : Front t g range v 1 xs) (h : Inv cfg t g) (hc : Clear t range v) :
    Exact g.log v range.upper range.lower
      ((xs.map (leafOf t)).flatMap (fun leaf => recordsIn search leaf range v)) := by
  have hone : ∀ x ∈ xs, Shows g.log x.1 (leafOf t x).asUnits v ∧
      recordsIn search (leafOf t x) range v = (leafFound (leafOf t x) v range).reverse := by
    intro x hx
    obtain ⟨p, hp⟩ := visible_leaf h (hf.visible x hx)
    have hleaf : leafOf t x = p := by rw [leafOf, hp]
    rw [hleaf]
    exact ⟨(hf.visible x hx).shows h hp,
      recordsIn_clear (inserts_ascend h (hf.visible x hx).used hp)
        (hc.leaf x.2 p (hf.passed x hx) hp)⟩
  have hmem : ∀ x ∈ xs, ∀ k payload, (k, payload) ∈ recordsIn search (leafOf t x) range v ↔
      k ∈ x.1 ∧ k ∈ range ∧ liveAt g.log k v = some payload := by
    intro x hx k payload
    rw [(hone x hx).2, List.mem_reverse]
    exact mem_leafFound (hone x hx).1
  rw [List.flatMap_map]
  constructor
  · rw [List.map_flatMap, List.Nodup, List.pairwise_flatMap]
    constructor
    · intro x hx
      rw [(hone x hx).2, List.map_reverse]
      exact List.nodup_reverse.mpr (leafFound_nodup (hone x hx).1 range)
    · refine hf.disjoint.imp_of_mem ?_
      intro x y hx hy hd a ha b hb heq
      obtain ⟨⟨k, q⟩, hk, rfl⟩ := List.mem_map.mp ha
      obtain ⟨⟨k', q'⟩, hk', rfl⟩ := List.mem_map.mp hb
      obtain rfl : k = k' := heq
      exact hd k ((hmem x hx k q).mp hk).1 ((hmem y hy k q').mp hk').1
  · intro k payload
    rw [List.mem_flatMap]
    constructor
    · rintro ⟨x, hx, hk⟩
      exact ((hmem x hx k payload).mp hk).2
    · intro hk
      obtain ⟨x, hx, hkx⟩ := hf.cover k hk.1
      exact ⟨x, hx, (hmem x hx k payload).mpr ⟨hkx, hk⟩⟩

theorem keyRangeRead_exact (h : Inv cfg t g) (hr : Readable cfg t g v) (hc : Clear t range v)
    (hrange : range.Proper) :
    ∃ bound root es, t.rootFor v = .ok root ∧
      (∀ fuel, bound ≤ fuel → keyRangeReadFromRoot search fuel t root range v = .ok es) ∧
      Exact g.log v range.upper range.lower es := by
  obtain ⟨x, hx, hroot⟩ := hr.root
  have hfor := rootFor_eq h hx
  have hlevel : x.1.2 ≠ 0 := by
    intro hzero
    have hnode := h.living.node x.1.1 hroot.used
    cases hp : t.heap x.1.1 with
    | leaf p =>
      have := hroot.level_leaf h hp
      omega
    | internal p =>
      rw [hp] at hnode
      have h₁ := hnode.1
      have h₂ := hroot.level_eq
      omega
  obtain ⟨level, hlevel⟩ := Nat.exists_eq_succ_of_ne_zero hlevel
  have hfront : Front t g range v (level + 1) [(cfg.keys.full, x.1.1)] := by
    rw [hlevel] at hroot
    refine ⟨?_, ?_, List.pairwise_singleton _ _, ?_⟩
    · simpa using hroot
    · simpa using Passed.root hfor
    · intro k _
      exact ⟨_, List.mem_singleton_self _, cfg.keys.mem_full k⟩
  obtain ⟨bound, ys, hys, hrun⟩ := traverse_front search h hr hc hrange _ _ hfront
  refine ⟨bound, x.1, _, hfor, ?_, hys.exact search h hc⟩
  intro fuel hfuel
  have := hrun fuel [] hfuel
  rw [List.map_singleton] at this
  rw [keyRangeReadFromRoot, this]
  rfl

end Levels

/-! ## Agreement -/

/-- Both reads of a range at a version end, with the same records. -/
def Agree (search : BinarySearch) (cfg : Config K) (t : MVBTSt K P) (range : Interval K) (v : ℕ) :
    Prop :=
  ∃ bound root es t' ls, t.rootFor v = .ok root ∧
    (∀ fuel, bound ≤ fuel → keyRangeReadFromRoot search fuel t root range v = .ok es) ∧
    (∀ fuel calls, bound ≤ fuel → bound ≤ calls →
      dispatchRange cfg fuel calls t range v = .ok (t', ls)) ∧ es.Perm ls

omit [LinearOrder K] in
theorem nodup_of_keys {es : List (RecordPointResult K P)} (h : (es.map Prod.fst).Nodup) :
    es.Nodup := List.Nodup.of_map _ h

/-! A tree with one record. -/

def oneRecord : LeafPage UInt64 ℕ := ⟨fromActiveDead 1 0, [⟨7, .new 1, 70⟩]⟩

theorem one_insert : ∃ t : MVBTSt UInt64 ℕ,
    runWrites ⟨125, 125, u64Space⟩ (make (fun _ => .next) 1 0) [.insert 7 70] =
      .ok (t, [.inserted 1]) ∧ t.heap 0 = .leaf oneRecord ∧ t.rootFor 1 = .ok (0, 1) ∧
    t.commit.clock = 2 ∧ ∀ n, ∃ t', dispatchRange ⟨125, 125, u64Space⟩ (n + 3) (n + 3) t ⟨0, 10⟩ 1 =
      .ok (t', [(7, 70)]) :=
  ⟨_, rfl, rfl, rfl, rfl, fun _ => ⟨_, rfl⟩⟩

/-- Whichever of several equal slots the search finds, a single slot written at
the version is left out. -/
theorem recordsIn_oneRecord (search : BinarySearch) :
    recordsIn search oneRecord ⟨0, 10⟩ 1 = [] := by
  have hcut : search.cut [1] 1 = 0 := by
    rw [BinarySearch.cut]
    cases hs : search.search [1] 1 with
    | ok pos =>
      have hlt := (List.getElem?_eq_some_iff.mp
        (search.found [1] 1 pos (List.pairwise_singleton _ _) hs)).1
      simpa using hlt
    | error pos =>
      obtain ⟨hle, htake, hdrop⟩ := search.missing [1] 1 pos (List.pairwise_singleton _ _) hs
      rcases Nat.le_one_iff_eq_zero_or_eq_one.mp hle with rfl | rfl
      · rfl
      · exact absurd (htake 1 (by simp)) (lt_irrefl 1)
  have hunits : oneRecord.asUnits = [⟨7, .new 1, 70⟩] := rfl
  have hversions : oneRecord.asUnits.map (fun r => r.version.insertVersion) = [1] := rfl
  rw [recordsIn, beforeCut, hversions, hcut, hunits]
  rfl

/-- The eager read at the version of an insert does not return the record. -/
theorem eager_read_loses_insert : ¬ ∃ search : BinarySearch,
    ∀ ops : List (WriteOperation UInt64 ℕ), (∀ payload, .insert u64Space.maxKey payload ∉ ops) →
      ∀ t rs, runWrites ⟨125, 125, u64Space⟩ (make (fun _ => .next) 1 0) ops = .ok (t, rs) →
        ∀ lo hi v, lo ≤ hi → startVersion ≤ v → v < t.commit.clock →
          Agree search ⟨125, 125, u64Space⟩ t ⟨lo, hi⟩ v := by
  rintro ⟨search, hall⟩
  obtain ⟨t, hrun, hheap, hroot, hclock, hlazy⟩ := one_insert
  have hops : ∀ payload, WriteOperation.insert u64Space.maxKey payload ∉
      ([.insert 7 70] : List (WriteOperation UInt64 ℕ)) := by
    intro payload hmem
    simp only [List.mem_singleton, WriteOperation.insert.injEq] at hmem
    exact absurd hmem.1 (by decide)
  obtain ⟨bound, root, es, t', ls, hroot', heager, hls, hperm⟩ :=
    hall _ hops t _ hrun 0 10 1 (by decide) (by decide) (by rw [hclock]; decide)
  rw [hroot] at hroot'
  cases hroot'
  have hes := heager (bound + 1) (Nat.le_succ _)
  simp only [keyRangeReadFromRoot, traverseReadKeyRange, hheap, ok_bind] at hes
  cases hes
  obtain ⟨t'', hfound⟩ := hlazy bound
  have hls := hls (bound + 3) (bound + 3) (by omega) (by omega)
  rw [hfound] at hls
  cases hls
  simp [recordsIn_oneRecord] at hperm

/-- Eager and lazy range reads agree where the cuts meet no slot of the range
and no replaced entry shows. After every history of a tree of any kind in which no
record with the key `maxKey` was inserted, for every range and every version that the
tree retains: if the pages that point reads of the range pass are clear, the eager read
from the root of the version returns the records that a drained iterator returns. -/
theorem eager_ranges_agree {cfg : Config K} (hc : Roomy cfg) (search : BinarySearch)
    (gc : Option Bool) (tosses : ℕ → FrugalList.Toss) (threads tid : ℕ)
    (ops : List (WriteOperation K P)) (hops : ∀ payload, .insert cfg.keys.maxKey payload ∉ ops) :
    ∃ t rs, runWrites cfg (opened gc tosses threads tid) ops = .ok (t, rs) ∧
      ∀ lo hi v, lo ≤ hi → startVersion ≤ v → v < t.commit.clock → Retains t v →
        Clear t ⟨lo, hi⟩ v → Agree search cfg t ⟨lo, hi⟩ v := by
  obtain ⟨t, rs, log, hrun, hcar, -, habsent⟩ := runWrites_opened hc gc tosses threads tid ops
  refine ⟨t, rs, hrun, ?_⟩
  intro lo hi v hle hv hlt hretains hclear
  obtain ⟨g, hinv, rfl, hr⟩ := carries_readable hcar hv hlt hretains
  have hmax := liveAt_absent (habsent _ hops) v
  obtain ⟨b₁, root, es, hroot, heager, hes⟩ := keyRangeRead_exact search hinv hr hclear hle
  obtain ⟨b₂, t', ls, hlazy, hls⟩ := dispatchRange_exact hinv hr lo hi (.inl hmax)
  refine ⟨max b₁ b₂, root, es, t', ls, hroot, ?_, ?_, ?_⟩
  · intro fuel hfuel
    exact heager fuel ((le_max_left _ _).trans hfuel)
  · intro fuel calls hfuel hcalls
    exact hlazy fuel calls ((le_max_right _ _).trans hfuel) ((le_max_right _ _).trans hcalls)
  · apply (List.perm_ext_iff_of_nodup (nodup_of_keys hes.nodup) (nodup_of_keys hls.nodup)).mpr
    rintro ⟨k, payload⟩
    rw [hes.mem, hls.mem]

/-- The blocks that a list of blocks does not lead out of. -/
theorem Passed.mem {t : MVBTSt K P} {range : Interval K} {v b : ℕ} {blocks : List ℕ}
    (hroot : ∀ r, t.rootFor v = .ok r → r.1 ∈ blocks)
    (hchild : ∀ c ∈ blocks, ∀ p, t.heap c = .internal p → ∀ e ∈ p.asUnits, e.pointer ∈ blocks)
    (h : Passed t range v b) : b ∈ blocks := by
  induction h with
  | root hr => exact hroot _ hr
  | @child c p k next _ hp _ hroute ih =>
    obtain ⟨e, he, rfl⟩ := Option.map_eq_some_iff.mp hroute
    exact hchild c ih p hp e (findRev?_mem he)

/-- A directory of entries that do not overlap, none written at the version, is clear. -/
theorem ClearDirectory.of_disjoint {p : InternalPage K} {range : Interval K} {v : ℕ}
    (hversion : ∀ e ∈ p.asUnits, e.version ≠ v)
    (hdisjoint : p.asUnits.Pairwise (fun a b => b.fence.overlap a.fence = false)) :
    ClearDirectory p range v := by
  constructor
  · exact fun e he _ => hversion e he
  · rintro older e younger heq - ⟨y, hy, -, hover⟩
    rw [heq, List.pairwise_append, List.pairwise_cons] at hdisjoint
    rw [hdisjoint.2.1.1 y hy] at hover
    cases hover

/-- Eleven keys split the root leaf, and the last insert goes to a key behind the range. -/
def twoLeaves : List (WriteOperation UInt64 ℕ) :=
  (List.range 11).map (fun i => .insert (UInt64.ofNat i) i) ++ [.insert 100 100]

/-- Records whose payload is the key, each written one version later than the last. -/
def written (version : ℕ) (keys : List ℕ) : List (RecordPoint UInt64 ℕ) :=
  keys.zipIdx.map (fun x => ⟨UInt64.ofNat x.1, .new (version + x.2), x.1⟩)

/-- The leaves and the root directory that the inserts leave behind. -/
def leftLeaf : LeafPage UInt64 ℕ := ⟨fromActiveDead 5 0, written 1 [0, 1, 2, 3, 4]⟩

def rightLeaf : LeafPage UInt64 ℕ :=
  ⟨fromActiveDead 7 0, written 6 [5, 6, 7, 8, 9] ++ written 12 [10, 100]⟩

def rootDirectory : InternalPage UInt64 :=
  ⟨fromActiveDead 2 0, [⟨⟨0, 4⟩, 11, false, 1⟩, ⟨⟨5, u64Space.maxKey⟩, 11, false, 2⟩]⟩

/-- A read of both leaves at the version of the last insert. -/
theorem eager_ranges_agree_two_leaves : ∃ t rs,
    runWrites ⟨10, 10, u64Space⟩ (opened (some true) (fun _ => .next) 1 0) twoLeaves =
      .ok (t, rs) ∧
    Clear t ⟨0, 20⟩ 13 ∧ Agree .leftmost ⟨10, 10, u64Space⟩ t ⟨0, 20⟩ 13 := by
  have hops : ∀ payload, WriteOperation.insert u64Space.maxKey payload ∉ twoLeaves := by
    have hsmall : ∀ i < 11, UInt64.ofNat i ≠ u64Space.maxKey := by decide +kernel
    intro payload hmem
    simp only [twoLeaves, List.mem_append, List.mem_map, List.mem_range, List.mem_singleton,
      WriteOperation.insert.injEq] at hmem
    rcases hmem with ⟨i, hi, heq, -⟩ | ⟨heq, -⟩
    · exact hsmall i hi heq
    · exact absurd heq (by decide +kernel)
  obtain ⟨t, rs, hrun, hagree⟩ := eager_ranges_agree (roomy_ten u64Space) .leftmost (some true)
    (fun _ => .next) 1 0 twoLeaves hops
  have hstate : (runWrites ⟨10, 10, u64Space⟩ (opened (some true) (fun _ => .next) 1 0)
      twoLeaves).map (fun x => (x.1.commit.clock, x.1.rootFor 13, [1, 2, 3].map x.1.heap)) =
      .ok (14, .ok (3, 2), [.leaf leftLeaf, .leaf rightLeaf, .internal rootDirectory]) := by
    decide +kernel
  rw [hrun] at hstate
  simp only [Except.map, Except.ok.injEq, Prod.mk.injEq, List.map_cons, List.map_nil,
    List.cons.injEq, and_true] at hstate
  obtain ⟨hclock, hroot, hleft, hright, hdir⟩ := hstate
  have hblocks : ∀ b, Passed t ⟨0, 20⟩ 13 b → b ∈ [1, 2, 3] := by
    intro b hb
    refine hb.mem ?_ ?_
    · intro r hr
      rw [hroot] at hr
      cases hr
      decide
    · intro c hc p hp
      simp only [List.mem_cons, List.not_mem_nil, or_false] at hc
      rcases hc with rfl | rfl | rfl
      · rw [hleft] at hp
        cases hp
      · rw [hright] at hp
        cases hp
      · rw [hdir] at hp
        cases hp
        decide
  have hclear : Clear t ⟨0, 20⟩ 13 := by
    constructor
    · intro b p hb hp
      have hc := hblocks b hb
      simp only [List.mem_cons, List.not_mem_nil, or_false] at hc
      rcases hc with rfl | rfl | rfl
      · rw [hleft] at hp
        cases hp
      · rw [hright] at hp
        cases hp
      · rw [hdir] at hp
        cases hp
        exact .of_disjoint (by decide) (by decide)
    · intro b p hb hp
      have hc := hblocks b hb
      simp only [List.mem_cons, List.not_mem_nil, or_false] at hc
      rcases hc with rfl | rfl | rfl
      · rw [hleft] at hp
        cases hp
        unfold ClearLeaf
        decide
      · rw [hright] at hp
        cases hp
        unfold ClearLeaf
        decide
      · rw [hdir] at hp
        cases hp
  exact ⟨t, rs, hrun, hclear, hagree 0 20 13 (by decide) (by decide) (by rw [hclock]; decide)
    (.inr (.inr (by rw [hclock]))) hclear⟩

end CMVBT.EagerRead
