import CMVBT.BaselineWrites
import CMVBT.BaselineContents

/-!
# The lazy range scan

The scan of a search tree keeps a path of blocks with the fences that separators
gave them. Every block on the path is part of the tree and has its true fence, and
the first one is the root; so the path may be cut anywhere and searched again. Behind a leaf the
scan continues at the separator that bounds the leaf, and there are only finitely
many separators: the number of those above the lower border bounds the loop.
-/
namespace CMVBT.BaselineScan
open PageModel hiding startVersion Node
open KeyInterval OrderedMap VersionChain VersionedLog SeparatorRow BaselinePages BaselineTree
  BaselineInvariant BaselineDescent BaselineWrites BaselineContents

variable {K V P : Type} [LinearOrder K]

/-- All separators of a tree of height `h`. -/
def separators : ℕ → Node K V → List K
  | 0, _ => []
  | _ + 1, .leaf _ => []
  | h + 1, .index keys children => keys ++ children.flatMap (separators h)

variable {cfg : TreeConfig K V P} {root : Node K V} {H : ℕ}

/-- The fence ends with the key space or in front of a separator of the tree. -/
def Ends (cfg : TreeConfig K V P) (H : ℕ) (root : Node K V) (f : Interval K) : Prop :=
  f.upper = cfg.keys.maxKey ∨
    ∃ m ∈ separators H root, cfg.keys.minKey < m ∧ f.upper = cfg.keys.decKey m

/-- A block of the tree with its fence: it has the records of the tree with keys in
the fence. -/
structure Visited (cfg : TreeConfig K V P) (H : ℕ) (root : Node K V) (h : ℕ)
    (entry : PathEntry K V) : Prop where
  ordered : Ordered cfg.keys h entry.1 entry.2
  ends : Ends cfg H root entry.1
  separators_sub : ∀ m ∈ separators h entry.2, m ∈ separators H root
  records : ∀ r, r ∈ contents h entry.2 ↔ r ∈ contents H root ∧ r.key ∈ entry.1

/-- A path of the scan. -/
structure Path (cfg : TreeConfig K V P) (H : ℕ) (root : Node K V)
    (path : List (PathEntry K V)) : Prop where
  visited : ∀ entry ∈ path, ∃ h ≤ H, Visited cfg H root h entry
  head : ∀ entry, path.head? = some entry → entry = (cfg.keys.full, root)

theorem visited_root (ho : Ordered cfg.keys H cfg.keys.full root) :
    Visited cfg H root H (cfg.keys.full, root) :=
  ⟨ho, .inl rfl, fun _ hm => hm, fun _ => ⟨fun hr => ⟨hr, ho.inside hr⟩, fun hr => hr.1⟩⟩

theorem Path.nil : Path cfg H root [] := ⟨by simp, by simp⟩

theorem Path.of_root (ho : Ordered cfg.keys H cfg.keys.full root) :
    Path cfg H root [(cfg.keys.full, root)] := by
  refine ⟨fun entry hentry => ?_, fun entry hentry => ?_⟩
  · rw [List.mem_singleton.mp hentry]
    exact ⟨H, le_rfl, visited_root ho⟩
  · simpa using hentry.symm

theorem Path.take {path : List (PathEntry K V)} (hp : Path cfg H root path) (n : ℕ) :
    Path cfg H root (path.take n) := by
  refine ⟨fun entry hentry => hp.visited entry (List.mem_of_mem_take hentry), fun entry hentry => ?_⟩
  cases n with
  | zero => simp at hentry
  | succ n =>
    refine hp.head entry ?_
    cases path with
    | nil => simp at hentry
    | cons => simpa using hentry

/-- A child of a visited directory. -/
theorem Visited.child {h pos : ℕ} {f g : Interval K} {keys : List K}
    {children : List (Node K V)} {c : Node K V}
    (hv : Visited cfg H root (h + 1) (f, .index keys children))
    (hspot : Spot cfg.keys (Ordered cfg.keys h) f keys children pos g c) :
    Visited cfg H root h (g, c) := by
  have hsub : ∀ m ∈ keys, m ∈ separators H root := fun m hm =>
    hv.separators_sub m (by simp [separators, hm])
  refine ⟨hspot.child_good, ?_, fun m hm => hv.separators_sub m ?_, fun r => ?_⟩
  · rcases hspot.upper with heq | ⟨m, hm, hmin, heq⟩
    · exact hv.ends.imp (heq.trans ·) fun ⟨m, hm, hmin, hup⟩ => ⟨m, hm, hmin, heq.trans hup⟩
    · exact .inr ⟨m, hsub m hm, hmin, heq⟩
  · simp only [separators, List.mem_append, List.mem_flatMap]
    exact .inr ⟨c, List.mem_of_getElem? hspot.get, hm⟩
  · rw [spot_contents hspot, hv.records, and_assoc]
    exact and_congr_right fun _ => and_iff_right_of_imp fun hg => hspot.within _ hg

/-! ## Finding the leaf of a key -/

/-- Going up ends at a block whose fence holds the key: the root does. -/
theorem ascend_spec {path : List (PathEntry K V)} (hp : Path cfg H root path) (key : K)
    {i : ℕ} (hi : i < path.length) :
    ∃ j entry, ascend path key i = .ok j ∧ path[j]? = some entry ∧ key ∈ entry.1 := by
  induction i with
  | zero =>
    cases path with
    | nil => cases hi
    | cons entry rest =>
      have hfull : entry.1 = cfg.keys.full := by rw [hp.head entry rfl]
      have hin : key ∈ entry.1 := hfull ▸ cfg.keys.mem_full key
      refine ⟨0, entry, ?_, rfl, hin⟩
      simp only [ascend, getUnchecked_eq (List.getElem?_cons_zero), ok_bind]
      rw [if_pos (Interval.contains_eq_true.mpr hin)]
      rfl
  | succ i ih =>
    have hget := List.getElem?_eq_getElem hi
    by_cases hin : key ∈ path[i + 1].1
    · refine ⟨i + 1, path[i + 1], ?_, hget, hin⟩
      simp only [ascend, getUnchecked_eq hget, ok_bind]
      rw [if_pos (Interval.contains_eq_true.mpr hin)]
      rfl
    · obtain ⟨j, entry, hasc, hj, hkey⟩ := ih (by omega)
      refine ⟨j, entry, ?_, hj, hkey⟩
      simp only [ascend, getUnchecked_eq hget, ok_bind]
      rw [if_neg (fun hc => hin (Interval.contains_eq_true.mp hc))]
      exact hasc

theorem ascend_here {path : List (PathEntry K V)} {key : K} {i : ℕ}
    {entry : PathEntry K V} (hget : path[i]? = some entry) (hin : key ∈ entry.1) :
    ascend path key i = .ok i := by
  cases i <;>
  · simp only [ascend, getUnchecked_eq hget, ok_bind]
    rw [if_pos (Interval.contains_eq_true.mpr hin)]
    rfl

/-- What `next_leaf_page` finds: the leaf whose fence holds the key, behind a path. -/
def Finds (cfg : TreeConfig K V P) (H : ℕ) (root : Node K V) (key : K)
    (result : Except Fault (List (PathEntry K V))) : Prop :=
  ∃ init g records, result = .ok (init ++ [(g, .leaf records)]) ∧ Path cfg H root init ∧
    key ∈ g ∧ Visited cfg H root 0 (g, .leaf records)

/-- From a block whose fence holds the key down to the leaf. -/
theorem nextLeafPage_descends {h : ℕ} {path : List (PathEntry K V)} {i j fuel : ℕ}
    {f : Interval K} {node : Node K V} {key : K} (hp : Path cfg H root path)
    (hi : i < path.length) (hj : ascend path key i = .ok j) (hget : path[j]? = some (f, node))
    (hin : key ∈ f) (hh : h ≤ H) (hv : Visited cfg H root h (f, node))
    (hfuel : h + 1 ≤ fuel) :
    Finds cfg H root key (nextLeafPage cfg root key fuel path i) := by
  induction h generalizing path i j f node fuel with
  | zero =>
    obtain ⟨fuel, rfl⟩ : ∃ n, fuel = n + 1 := ⟨fuel - 1, by omega⟩
    cases node with
    | index => exact hv.ordered.elim
    | leaf records =>
      have htake : path.take (j + 1) = path.take j ++ [(f, .leaf records)] := by
        rw [List.take_add_one, hget]
        rfl
      refine ⟨path.take j, f, records, ?_, hp.take j, hin, hv⟩
      simp only [nextLeafPage, if_neg (not_le.mpr hi), hj, ok_bind, getUnchecked_eq hget]
      exact congrArg Except.ok htake
  | succ h ih =>
    obtain ⟨fuel, rfl⟩ : ∃ n, fuel = n + 1 := ⟨fuel - 1, by omega⟩
    cases node with
    | leaf => exact hv.ordered.elim
    | index keys children =>
      have hrow : Row cfg.keys (Ordered cfg.keys h) f keys children := hv.ordered
      obtain ⟨pos, g, c, hspot, hg, hnext⟩ := nextNode_spot hrow hin
      have hjlt : j < path.length := by
        by_contra hge
        rw [List.getElem?_eq_none (not_lt.mp hge)] at hget
        cases hget
      have hfence : childFence cfg keys f pos = g := hspot.fence.symm
      have hinsert : (path.insertIdx (j + 1) (g, c))[j + 1]? = some (g, c) := by
        rw [List.getElem?_insertIdx_self]
        exact if_pos hjlt
      have hp' : Path cfg H root (path.insertIdx (j + 1) (g, c)) := by
        refine ⟨fun entry hentry => ?_, fun entry hentry => hp.head entry ?_⟩
        · rcases List.eq_or_mem_of_mem_insertIdx hentry with rfl | hentry
          · exact ⟨h, by omega, hv.child hspot⟩
          · exact hp.visited entry hentry
        · cases path with
          | nil => cases hjlt
          | cons => simpa using hentry
      have hlen : j + 1 < (path.insertIdx (j + 1) (g, c)).length := by
        rw [List.length_insertIdx_of_le_length hjlt]
        omega
      have hbelow : Finds cfg H root key
          (nextLeafPage cfg root key fuel (path.insertIdx (j + 1) (g, c)) (j + 1)) :=
        ih hp' hlen (ascend_here hinsert hg) hinsert hg (by omega) (hv.child hspot) (by omega)
      have hstep : nextLeafPage cfg root key (fuel + 1) path i =
          nextLeafPage cfg root key fuel (path.insertIdx (j + 1) (g, c)) (j + 1) := by
        conv_lhs => rw [nextLeafPage]
        simp only [if_neg (not_le.mpr hi), hj, ok_bind, getUnchecked_eq hget, hnext, hfence]
      rw [hstep]
      exact hbelow

/-- From any path of the scan, also an empty one. -/
theorem nextLeafPage_finds {path : List (PathEntry K V)} {i fuel : ℕ}
    (ho : Ordered cfg.keys H cfg.keys.full root) (hp : Path cfg H root path)
    (hi : i < path.length ∨ path = []) (hfuel : H + 1 ≤ fuel) (key : K) :
    Finds cfg H root key (nextLeafPage cfg root key fuel path i) := by
  rcases hi with hi | rfl
  · obtain ⟨j, ⟨f, node⟩, hj, hget, hin⟩ := ascend_spec hp key hi
    obtain ⟨h, hh, hv⟩ := hp.visited _ (List.mem_of_getElem? hget)
    exact nextLeafPage_descends hp hi hj hget hin hh hv (by omega)
  · -- the path is built anew from the root
    obtain ⟨fuel, rfl⟩ : ∃ n, fuel = n + 1 := ⟨fuel - 1, by omega⟩
    have hnew : nextLeafPage cfg root key (fuel + 1) [] i =
        nextLeafPage cfg root key (fuel + 1) [(cfg.keys.full, root)] 0 := by
      simp only [nextLeafPage, List.length_nil, Nat.zero_le, if_true, List.length_singleton,
        Nat.le_zero, one_ne_zero, if_false]
    rw [hnew]
    have hget : [(cfg.keys.full, root)][0]? = some (cfg.keys.full, root) := rfl
    exact nextLeafPage_descends (Path.of_root ho) (by simp)
      (ascend_here hget (cfg.keys.mem_full key)) hget (cfg.keys.mem_full key) le_rfl
      (visited_root ho) hfuel

/-! ## The matches of one leaf -/

/-- Keys and answers between two keys, in the order of the keys. -/
structure Listed (answer : K → Option P) (lower upper : K) (results : List (K × P)) : Prop where
  sorted : results.Pairwise (fun a b => a.1 < b.1)
  mem : ∀ k p, (k, p) ∈ results ↔ (lower ≤ k ∧ k ≤ upper) ∧ answer k = some p

/-- Key and payload of what the reference holds between two keys. -/
abbrev Exact (log : Log K P) (v : ℕ) (lower upper : K) (results : List (K × P)) : Prop :=
  Listed (fun k => liveAt log k v) lower upper results

/-- Lookups at `v` in records answer as `answer` does. -/
structure Answers (index : IndexOps V P) (records : List (VersionedRecordPoint K V)) (v : ℕ)
    (answer : K → Option P) : Prop where
  find : ∀ r ∈ records, ∃ found, index.find v r.versionIndex = .ok found ∧
    found.map Prod.snd = answer r.key
  absent : ∀ k, (∀ r ∈ records, r.key ≠ k) → answer k = none

theorem answers_live {holds : Story P → V → Prop} {log : Log K P} {v : ℕ}
    (hk : Keeps cfg.index holds) (hs : Shaped cfg holds log H cfg.keys.full root)
    (hv : v < 2 ^ 63) :
    Answers cfg.index (contents H root) v (fun k => liveAt log k v) where
  find r hr := ⟨_, hk.find (told_of_shaped hs hr) hv, liveAt_storyOf log r.key v⟩
  absent k hmiss := by
    rw [← liveAt_storyOf, story_nil_of_shaped hs (cfg.keys.mem_full k) hmiss]
    rfl

variable {v : ℕ} {answer : K → Option P}

omit [LinearOrder K] in
theorem findAll_eq {index : IndexOps V P} {records : List (VersionedRecordPoint K V)}
    (hfind : ∀ r ∈ records, ∃ found, index.find v r.versionIndex = .ok found ∧
      found.map Prod.snd = answer r.key) :
    findAll index v records =
      .ok (records.filterMap (fun r => (answer r.key).map (fun p => (r.key, p)))) := by
  induction records with
  | nil => rfl
  | cons r records ih =>
    obtain ⟨found, hr, hlive⟩ := hfind r List.mem_cons_self
    have hrest := ih fun r hr => hfind r (List.mem_cons_of_mem _ hr)
    simp only [findAll, hr, ok_bind, hrest]
    rw [List.filterMap_cons, ← hlive]
    cases found <;> rfl

/-- A leaf yields the answers in the part of the range inside its fence. -/
theorem rangeQueryLeafResults_listed (ha : Answers cfg.index (contents H root) v answer)
    (init : List (PathEntry K V)) (fuel : ℕ) {g : Interval K}
    {records : List (VersionedRecordPoint K V)} {lower upper : K}
    (hleaf : Visited cfg H root 0 (g, .leaf records)) (hle : lower ≤ upper) (hlow : lower ∈ g) :
    ∃ results, rangeQueryLeafResults cfg root ⟨lower, upper⟩ v (fuel + 1)
        (init ++ [(g, .leaf records)]) = .ok (init ++ [(g, .leaf records)], results) ∧
      Listed answer lower (min upper g.upper) results := by
  obtain ⟨hsorted, hinside⟩ := hleaf.ordered
  have hroot : ∀ r ∈ records, r ∈ contents H root := fun r hr => ((hleaf.records r).mp hr).1
  set start := partitionPoint (fun r : VersionedRecordPoint K V => decide (r.key < lower))
    records with hstart
  set stop := partitionPoint (fun r : VersionedRecordPoint K V => decide (r.key ≤ upper))
    records with hstop
  have hmono : start ≤ stop := by
    refine partitionPoint_mono fun r hr => ?_
    simp only [decide_eq_true_eq] at hr ⊢
    exact hr.le.trans hle
  have hslice : ∀ r, r ∈ (records.take stop).drop start ↔
      r ∈ records ∧ lower ≤ r.key ∧ r.key ≤ upper := by
    intro r
    rw [hsorted.mem_slice (fun a b hab hb => by simpa using hab.trans (by simpa using hb))
      (fun a b hab hb => by simpa using hab.le.trans (by simpa using hb))]
    simp
  have hsub : ((records.take stop).drop start).Sublist records :=
    (List.drop_sublist _ _).trans (List.take_sublist _ _)
  have hfind : ∀ r ∈ (records.take stop).drop start,
      ∃ found, cfg.index.find v r.versionIndex = .ok found ∧ found.map Prod.snd = answer r.key :=
    fun r hr => ha.find r (hroot r (hsub.subset hr))
  refine ⟨((records.take stop).drop start).filterMap
    (fun r => (answer r.key).map (fun p => (r.key, p))), ?_, ?_, fun k p => ?_⟩
  · simp only [rangeQueryLeafResults, List.getLast?_append, List.getLast?_singleton,
      Option.some_or, ← hstart, ← hstop, if_pos hmono, findAll_eq hfind, ok_bind]
    rfl
  · refine List.Pairwise.filterMap _ ?_ (hsorted.sublist hsub)
    intro a a' haa b hb b' hb'
    obtain ⟨p, -, rfl⟩ := Option.map_eq_some_iff.mp hb
    obtain ⟨p', -, rfl⟩ := Option.map_eq_some_iff.mp hb'
    exact haa
  · simp only [List.mem_filterMap, hslice, Option.map_eq_some_iff, Prod.mk.injEq, le_min_iff]
    constructor
    · rintro ⟨r, ⟨hr, hl, hu⟩, q, hq, rfl, rfl⟩
      exact ⟨⟨hl, hu, (hinside r hr).2⟩, hq⟩
    · rintro ⟨⟨hl, hu, hg⟩, hlive⟩
      -- a key with an answer has a record
      have hrec : ∃ r ∈ records, r.key = k := by
        by_contra hnone
        have hmiss : ∀ r ∈ contents H root, r.key ≠ k := fun r hr heq =>
          hnone ⟨r, (hleaf.records r).mpr ⟨hr, heq ▸ ⟨hlow.1.trans hl, hg⟩⟩, heq⟩
        rw [ha.absent k hmiss] at hlive
        cases hlive
      obtain ⟨r, hr, rfl⟩ := hrec
      exact ⟨r, ⟨hr, hl, hu⟩, p, hlive, rfl, rfl⟩

/-! ## The whole scan -/

theorem Listed.append {lower upper m : K} {first rest : List (K × P)} {u : K}
    (hfirst : Listed answer lower u first) (hrest : Listed answer m upper rest)
    (hum : ∀ k, k ≤ u ↔ k < m) (hlow : lower ≤ m) (hup : m ≤ upper) :
    Listed answer lower upper (first ++ rest) := by
  refine ⟨List.pairwise_append.mpr ⟨hfirst.sorted, hrest.sorted, ?_⟩, fun k p => ?_⟩
  · rintro ⟨k, p⟩ hk ⟨k', p'⟩ hk'
    exact ((hum k).mp ((hfirst.mem k p).mp hk).1.2).trans_le ((hrest.mem k' p').mp hk').1.1
  · rw [List.mem_append, hfirst.mem, hrest.mem, hum]
    constructor
    · rintro (⟨⟨hl, hu⟩, hlive⟩ | ⟨⟨hl, hu⟩, hlive⟩)
      · exact ⟨⟨hl, hu.le.trans hup⟩, hlive⟩
      · exact ⟨⟨hlow.trans hl, hu⟩, hlive⟩
    · rintro ⟨⟨hl, hu⟩, hlive⟩
      rcases lt_or_ge k m with hlt | hge
      · exact .inl ⟨⟨hl, hlt⟩, hlive⟩
      · exact .inr ⟨⟨hge, hu⟩, hlive⟩

/-- Above a greater key there are fewer. -/
theorem length_above_lt {keys : List K} {key m : K} (hm : m ∈ keys) (hlt : key < m) :
    (keys.filter (fun x => decide (m < x))).length <
      (keys.filter (fun x => decide (key < x))).length := by
  have hsub : keys.filter (fun x => decide (m < x)) =
      (keys.filter (fun x => decide (key < x))).filter (fun x => decide (m < x)) := by
    rw [List.filter_filter]
    refine List.filter_congr fun x _ => ?_
    by_cases hx : m < x
    · simp [hx, hlt.trans hx]
    · simp [hx]
  rw [hsub]
  refine List.length_filter_lt_length_iff_exists.mpr ⟨m, ?_, by simp⟩
  simpa using ⟨hm, hlt⟩

/-- The separators above a key. -/
def above (H : ℕ) (root : Node K V) (key : K) : ℕ :=
  ((separators H root).filter (fun m => decide (key < m))).length

theorem above_lt {key m : K} (hm : m ∈ separators H root) (hlt : key < m) :
    above H root m < above H root key := length_above_lt hm hlt

/-- From the leaf that holds the lower border to the end of the range. -/
theorem rangeQueryOlc_listed {init : List (PathEntry K V)} {g : Interval K}
    {records : List (VersionedRecordPoint K V)} {lower upper : K} {fuel : ℕ}
    (ha : Answers cfg.index (contents H root) v answer)
    (ho : Ordered cfg.keys H cfg.keys.full root) (hp : Path cfg H root init)
    (hleaf : Visited cfg H root 0 (g, .leaf records)) (hlow : lower ∈ g)
    (hle : lower ≤ upper) (hfuel : above H root lower + H + 3 ≤ fuel) :
    ∃ results, rangeQueryOlc cfg root v fuel (init ++ [(g, .leaf records)]) ⟨lower, upper⟩ =
      .ok results ∧ Listed answer lower upper results := by
  induction hn : above H root lower using Nat.strong_induction_on generalizing
    init g records lower fuel with
  | _ n ih =>
    obtain ⟨fuel, rfl⟩ : ∃ n, fuel = n + 2 := ⟨fuel - 2, by omega⟩
    obtain ⟨first, hmatches, hfirst⟩ :=
      rangeQueryLeafResults_listed ha init fuel hleaf hle hlow
    have hlast : (init ++ [(g, Node.leaf records)]).getLast? = some (g, .leaf records) := by simp
    rw [rangeQueryOlc, hmatches, ok_bind]
    simp only [hlast, List.dropLast_concat]
    rcases hleaf.ends with hmax | ⟨m, hm, hmin, hdec⟩
    · refine ⟨first, if_pos hmax, ?_⟩
      rwa [hmax, min_eq_left (cfg.keys.le_max upper)] at hfirst
    · have hum : ∀ k, k ≤ g.upper ↔ k < m := fun k => hdec ▸ cfg.keys.le_dec m hmin k
      have hne : g.upper ≠ cfg.keys.maxKey := fun heq =>
        absurd (cfg.keys.le_max m) (not_le.mpr ((hum _).mp heq.ge))
      have hlowm : lower < m := (hum lower).mp hlow.2
      rw [if_neg hne, hdec, inc_dec hmin]
      by_cases hpast : upper < m
      · refine ⟨first, if_pos hpast, ?_⟩
        rwa [min_eq_left ((hum upper).mpr hpast)] at hfirst
      · have hup : m ≤ upper := not_lt.mp hpast
        have hless := above_lt hm hlowm
        have hidx : init.length - 1 < init.length ∨ init = [] := by
          cases init with
          | nil => exact .inr rfl
          | cons => exact .inl (by simp)
        obtain ⟨init', g', records', hnext, hp', hkey', hleaf'⟩ :=
          nextLeafPage_finds ho hp hidx (show H + 1 ≤ fuel + 1 by omega) m
        obtain ⟨rest, hrest, hlisted⟩ := ih (above H root m) (by omega) hp' hleaf' hkey'
          hup (show above H root m + H + 3 ≤ fuel + 1 by omega) rfl
        refine ⟨first ++ rest, ?_, ?_⟩
        · rw [if_neg hpast, hnext, ok_bind, hrest]
          rfl
        · rw [min_eq_right ((hum _).mp le_rfl |>.le.trans hup)] at hfirst
          exact hfirst.append hlisted hum hlowm.le hup

/-- The lazy scan terminates and lists the answers in the range. -/
theorem dispatchRange_listed {tree : VersionTree K V} {lower upper : K} {fuel : ℕ}
    (ha : Answers cfg.index (contents H tree.root) v answer)
    (ho : Ordered cfg.keys H cfg.keys.full tree.root) (hle : lower ≤ upper)
    (hfuel : (separators H tree.root).length + H + 3 ≤ fuel) :
    ∃ results, cfg.dispatchRange fuel tree ⟨lower, upper⟩ v = .ok results ∧
      Listed answer lower upper results := by
  have habove : above H tree.root lower ≤ (separators H tree.root).length :=
    List.length_filter_le _ _
  obtain ⟨init, g, records, hnext, hp, hkey, hleaf⟩ :=
    nextLeafPage_finds ho Path.nil (.inr rfl) (show H + 1 ≤ fuel by omega) lower (i := 0)
  obtain ⟨results, hscan, hlisted⟩ :=
    rangeQueryOlc_listed ha ho hp hleaf hkey hle
      (show above H tree.root lower + H + 3 ≤ fuel by omega)
  refine ⟨results, ?_, hlisted⟩
  rw [TreeConfig.dispatchRange, hnext, ok_bind]
  exact hscan

/-! ## Every history -/

variable {skipMap : Mutable (RecordInfo P)}

/-- For all sizes, all three kinds of version lists and every history of writes of
one thread: the writes answer as the reference does, and after each prefix point
reads and lazy scans yield the state of the reference at their version. Every loop
ends within the given number of steps, or for reads within some number. -/
theorem version_lists_refine (cfg : Config K skipMap) {ops : List (CRUDOperation K P × Bool)}
    (hkeys : ∀ op ∈ ops, op.1.key < cfg.keys.maxKey) (hversions : ops.length < 2 ^ 63) :
    ∀ pre, pre <+: ops → ∀ fuel, 2 * pre.length + 3 ≤ fuel →
      ∃ tree : MVBPlusTree K skipMap,
        run cfg fuel newWith pre =
          .ok (tree, (referenceRun startVersion [] (pre.map Prod.fst)).2) ∧
        ∃ steps, ∀ fuel', steps ≤ fuel' → ∀ v, v < 2 ^ 63 →
          (∀ key, dispatchPoint cfg fuel' tree key v =
            .ok ((liveAt (referenceRun startVersion [] (pre.map Prod.fst)).1 key v).map
              (fun payload => (key, payload)))) ∧
          ∀ lower upper, lower ≤ upper → ∃ results,
            dispatchRange cfg fuel' tree ⟨lower, upper⟩ v = .ok results ∧
            Exact (referenceRun startVersion [] (pre.map Prod.fst)).1 v lower upper results := by
  rintro pre ⟨rest, rfl⟩ fuel hfuel
  have hlen : pre.length < 2 ^ 63 := by
    rw [List.length_append] at hversions
    omega
  have hk : Keeps cfg.tree.index Tells := lists_keep cfg.vIndexType
  obtain ⟨tree, h, hrun, -, hr⟩ := run_refines hk refines_newWith
    (show 2 * (0 + pre.length) + 3 ≤ fuel by omega)
    (show startVersion + pre.length ≤ 2 ^ 63 by unfold startVersion; omega)
    (fun op hop => hkeys op (List.mem_append_left _ hop))
  refine ⟨tree, hrun, (separators h tree.root).length + h + 3, fun fuel' hfuel' v hv => ⟨?_, ?_⟩⟩
  · exact fun key => dispatchPoint_refines hk hr (by omega) key hv
  · exact fun lower upper hle =>
      dispatchRange_listed (answers_live hk hr.shaped hv) (ordered_of_shaped hr.shaped) hle hfuel'

/-- The tree of `INDEX` with frugal skip lists; full pages for the parameter. -/
def indexConfig : Config UInt64 (sortedList (RecordInfo ℕ)) :=
  ⟨u64Space, indexSizes, .frugalSkipList, by decide, fun keys children _ => .ok (.index keys children)⟩

/-- Key 5 is set, set again, deleted, and not deleted twice. -/
theorem version_lists_refine_one_key :
    ∃ tree : MVBPlusTree UInt64 (sortedList (RecordInfo ℕ)),
      run indexConfig 13 newWith [(.insert 5 50, true), (.insert 5 51, false), (.update 7 70, true),
        (.delete 5, true), (.delete 5, true)] =
        .ok (tree, [.inserted 1, .inserted 2, .zeroAffected .keyDoesNotExist, .deleted 4,
          .zeroAffected .keyAlreadyDeleted]) ∧
      ∃ fuel, dispatchPoint indexConfig fuel tree 5 3 = .ok (some (5, 51)) ∧
        dispatchPoint indexConfig fuel tree 5 4 = .ok none := by
  have hkeys : ∀ op ∈ ([(.insert 5 50, true), (.insert 5 51, false), (.update 7 70, true),
      (.delete 5, true), (.delete 5, true)] : List (CRUDOperation UInt64 ℕ × Bool)),
      op.1.key < indexConfig.keys.maxKey := by decide
  obtain ⟨tree, hrun, steps, hreads⟩ :=
    version_lists_refine indexConfig hkeys (by decide) _ (List.prefix_refl _) 13 (by decide)
  exact ⟨tree, hrun, steps, (hreads steps le_rfl 3 (by decide)).1 5,
    (hreads steps le_rfl 4 (by decide)).1 5⟩

end CMVBT.BaselineScan
