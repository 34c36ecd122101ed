import CMVBT.SnapshotRead
import Mathlib.Data.Finset.Card
import Mathlib.Data.Finset.Union

/-!
# Range scans at a version

`Scans` describes what a drained iterator yields by the rounds it makes. A scan
of the range from `lower` on climbs to the block of its path that still covers
`lower`, descends from there to a leaf and continues behind the fence of that
leaf. Each leaf lies behind the previous one, so the scan ends.

The border `maxKey` has no successor: behind the last leaf the iterator looks
for `maxKey` once more. It then stops as soon as a leaf yields nothing, which is
right only if no record has that key.
-/
namespace CMVBT.RangeScan
open KeyInterval LastMatch FenceTiling VersionedLog PageModel FrugalList CommitClock Tracker
open CMVBT.Tree
open BlockSupply WritePath ReadPath DirectoryHistory LeafHistory TreeInvariant NewPages
open Reference WriteOperations FreshTree SnapshotRead

variable {K P : Type} [LinearOrder K]

/-! ## Draining an iterator -/

/-- The records that an iterator with an empty buffer yields. -/
inductive Scans (cfg : Config K) (s : MVBTSt K P) :
    RangeQueryIter K P → List (RecordPointResult K P) → Prop
  | done {it it' : RangeQueryIter K P} {s' : MVBTSt K P} :
      it.round cfg s = (s', it', some none) → Scans cfg s it []
  | silent {it it' : RangeQueryIter K P} {rs : List (RecordPointResult K P)} :
      it.round cfg s = (s, it', none) → Scans cfg s it' rs → Scans cfg s it rs
  | found {it it' : RangeQueryIter K P} {r : RecordPointResult K P}
      {rs : List (RecordPointResult K P)} :
      it.round cfg s = (s, it', some (some r)) → it'.isCompleted = false →
      Scans cfg s { it' with buff := [] } rs → Scans cfg s it (r :: (it'.buff ++ rs))

/-- What `collect` does with one answer of `next`. -/
def collectAfter (cfg : Config K) (fuel calls : ℕ) :
    Except Fault (MVBTSt K P × RangeQueryIter K P × Option (RecordPointResult K P)) →
    Except Fault (MVBTSt K P × RangeQueryIter K P × List (RecordPointResult K P))
  | .error e => .error e
  | .ok (s, it, none) => .ok (s, it, [])
  | .ok (s, it, some r) =>
    match it.drain cfg fuel calls s with
    | .error e => .error e
    | .ok (s, it, rs) => .ok (s, it, r :: rs)

theorem drain_succ (cfg : Config K) (fuel calls : ℕ) (s : MVBTSt K P) (it : RangeQueryIter K P) :
    it.drain cfg fuel (calls + 1) s = collectAfter cfg fuel calls (it.next cfg fuel s) := by
  rw [RangeQueryIter.drain]
  cases h : it.next cfg fuel s with
  | error e => rfl
  | ok x =>
    obtain ⟨s', it', _ | r⟩ := x
    · rfl
    · simp only [collectAfter, bind, Except.bind]
      cases it'.drain cfg fuel calls s' <;> rfl

/-- The buffer is handed out before anything else happens. -/
theorem drain_buff (cfg : Config K) (s s' : MVBTSt K P) {fuel calls : ℕ}
    {rs : List (RecordPointResult K P)} {it' : RangeQueryIter K P} :
    ∀ (buff : List (RecordPointResult K P)) (it : RangeQueryIter K P), it.buff = buff →
      RangeQueryIter.drain cfg fuel calls s { it with buff := [] } = .ok (s', it', rs) →
      it.drain cfg fuel (calls + buff.length) s = .ok (s', it', buff ++ rs) := by
  intro buff
  induction buff with
  | nil =>
    intro it hbuff h
    rw [← hbuff] at h
    exact h
  | cons r buff ih =>
    intro it hbuff h
    have hrest := ih { it with buff := buff } rfl h
    rw [List.length_cons, ← Nat.add_assoc, drain_succ, RangeQueryIter.next, hbuff]
    simp only [collectAfter, hrest, List.cons_append]

theorem drain_of_loop (cfg : Config K) (s : MVBTSt K P) (it : RangeQueryIter K P)
    (hbuff : it.buff = []) (hopen : it.isCompleted = false) (fuel calls : ℕ) :
    it.drain cfg fuel (calls + 1) s = collectAfter cfg fuel calls (it.loop cfg fuel s) := by
  rw [drain_succ, RangeQueryIter.next, hbuff, hopen]
  rfl

/-- With enough fuel the loop and the calls after it yield what `Scans` says. -/
theorem Scans.collect {cfg : Config K} {s : MVBTSt K P} {it : RangeQueryIter K P}
    {rs : List (RecordPointResult K P)} (h : Scans cfg s it rs) :
    ∃ bound s' it', ∀ fuel calls rounds, bound ≤ fuel → bound ≤ calls → bound ≤ rounds →
      collectAfter cfg fuel calls (it.loop cfg rounds s) = .ok (s', it', rs) := by
  induction h with
  | @done it it' s' hround =>
    refine ⟨1, s', it', fun fuel calls rounds _ _ hr => ?_⟩
    obtain ⟨m, rfl⟩ := Nat.exists_eq_add_of_le' hr
    rw [RangeQueryIter.loop, hround]
    rfl
  | @silent it it' rs hround _ ih =>
    obtain ⟨bound, s', it'', hb⟩ := ih
    refine ⟨bound + 1, s', it'', fun fuel calls rounds hf hc hr => ?_⟩
    obtain ⟨m, rfl⟩ : ∃ m, rounds = m + 1 := ⟨rounds - 1, by omega⟩
    rw [RangeQueryIter.loop, hround]
    exact hb fuel calls m (by omega) (by omega) (by omega)
  | @found it it' r rs hround hopen _ ih =>
    obtain ⟨bound, s', it'', hb⟩ := ih
    refine ⟨bound + it'.buff.length + 1, s', it'', fun fuel calls rounds hf hc hr => ?_⟩
    obtain ⟨m, rfl⟩ : ∃ m, rounds = m + 1 := ⟨rounds - 1, by omega⟩
    obtain ⟨c, rfl⟩ : ∃ c, calls = c + 1 + it'.buff.length := ⟨calls - it'.buff.length - 1, by omega⟩
    have hrest : RangeQueryIter.drain cfg fuel (c + 1) s { it' with buff := [] } =
        .ok (s', it'', rs) := by
      rw [drain_of_loop cfg s { it' with buff := [] } rfl hopen]
      exact hb fuel c fuel (by omega) (by omega) (by omega)
    rw [RangeQueryIter.loop, hround]
    simp only [collectAfter, drain_buff cfg s s' it'.buff it' rfl hrest]

theorem Scans.drain {cfg : Config K} {s : MVBTSt K P} {it : RangeQueryIter K P}
    {rs : List (RecordPointResult K P)} (h : Scans cfg s it rs) (hbuff : it.buff = [])
    (hopen : it.isCompleted = false) : ∃ bound s' it', ∀ fuel calls, bound ≤ fuel →
      bound ≤ calls → it.drain cfg fuel calls s = .ok (s', it', rs) := by
  obtain ⟨bound, s', it', hb⟩ := h.collect
  refine ⟨bound + 1, s', it', fun fuel calls hf hc => ?_⟩
  obtain ⟨c, rfl⟩ : ∃ c, calls = c + 1 := ⟨calls - 1, by omega⟩
  rw [drain_of_loop cfg s _ hbuff hopen]
  exact hb fuel c fuel (by omega) (by omega) (by omega)

/-! ## Rounds -/

/-- An iterator at `lower`, with nothing in its buffer. -/
def scanFrom (P : Type) (v : ℕ) (hi : K) (path : List (Interval K × ℕ)) (lower : K) :
    RangeQueryIter K P := ⟨v, ⟨lower, hi⟩, path, [], false⟩

/-- The records of a leaf that a scan takes. -/
def leafFound (page : LeafPage K P) (v : ℕ) (range : Interval K) : List (RecordPointResult K P) :=
  (page.asUnits.filter (fun r => r.version.matches v && range.contains r.key)).map
    RecordPoint.result

section Rounds
variable {cfg : Config K} {s : MVBTSt K P} {v b : ℕ} {hi lower : K} {f : Interval K}
  {rest : List (Interval K × ℕ)} {rs : List (RecordPointResult K P)}

theorem scans_nil : Scans cfg s (scanFrom P v hi [] lower) [] := .done rfl

theorem scans_past (h : hi < lower) (path : List (Interval K × ℕ)) :
    Scans cfg s (scanFrom P v hi path lower) [] := by
  cases path with
  | nil => exact scans_nil
  | cons x rest =>
    have hround : (scanFrom P v hi (x :: rest) lower).round cfg s =
        (onReleaseReaderSnapshot s v,
          { scanFrom P v hi (x :: rest) lower with isCompleted := true }, some none) := by
      simp [RangeQueryIter.round, scanFrom, h]
    exact .done hround

theorem scans_route (hle : lower ≤ hi) {p : InternalPage K} (hp : s.heap b = .internal p)
    {next : Interval K × ℕ} (hroute : routeAt p.asUnits v lower = some next)
    (h : Scans cfg s (scanFrom P v hi (next :: (f, b) :: rest) lower) rs) :
    Scans cfg s (scanFrom P v hi ((f, b) :: rest) lower) rs := by
  refine .silent ?_ h
  simp [RangeQueryIter.round, scanFrom, not_lt.mpr hle, hp, hroute]

theorem scans_pop (hle : lower ≤ hi) {p : InternalPage K} (hp : s.heap b = .internal p)
    (hroute : routeAt p.asUnits v lower = none)
    (h : Scans cfg s (scanFrom P v hi rest (cfg.keys.incKey f.upper)) rs) :
    Scans cfg s (scanFrom P v hi ((f, b) :: rest) lower) rs := by
  refine .silent ?_ h
  simp [RangeQueryIter.round, scanFrom, not_lt.mpr hle, hp, hroute]

theorem scans_leaf_end (hle : lower ≤ hi) {p : LeafPage K P} (hp : s.heap b = .leaf p)
    (hnone : leafFound p v ⟨lower, hi⟩ = []) (hmax : cfg.keys.incKey f.upper = cfg.keys.maxKey) :
    Scans cfg s (scanFrom P v hi ((f, b) :: rest) lower) [] := by
  rw [leafFound] at hnone
  have hround : (scanFrom P v hi ((f, b) :: rest) lower).round cfg s =
      (s, scanFrom P v hi rest cfg.keys.maxKey, some none) := by
    simp only [RangeQueryIter.round, scanFrom, not_lt.mpr hle, if_false, hp, hnone, hmax,
      List.append_nil, or_true, if_true, List.head?_nil, List.tail_nil]
  exact .done hround

theorem scans_leaf_silent (hle : lower ≤ hi) {p : LeafPage K P} (hp : s.heap b = .leaf p)
    (hnone : leafFound p v ⟨lower, hi⟩ = []) (hmax : cfg.keys.incKey f.upper ≠ cfg.keys.maxKey)
    (h : Scans cfg s (scanFrom P v hi rest (cfg.keys.incKey f.upper)) rs) :
    Scans cfg s (scanFrom P v hi ((f, b) :: rest) lower) rs := by
  rw [leafFound] at hnone
  refine .silent ?_ h
  simp only [RangeQueryIter.round, scanFrom, not_lt.mpr hle, if_false, hp, hnone, hmax,
    List.append_nil, ne_eq, not_true, or_self]

theorem scans_leaf_found (hle : lower ≤ hi) {p : LeafPage K P} (hp : s.heap b = .leaf p)
    (hsome : leafFound p v ⟨lower, hi⟩ ≠ [])
    (h : Scans cfg s (scanFrom P v hi rest (cfg.keys.incKey f.upper)) rs) :
    Scans cfg s (scanFrom P v hi ((f, b) :: rest) lower)
      (leafFound p v ⟨lower, hi⟩ ++ rs) := by
  obtain ⟨r, more, hfound⟩ := List.exists_cons_of_ne_nil hsome
  rw [hfound]
  rw [leafFound] at hfound
  have hround : (scanFrom P v hi ((f, b) :: rest) lower).round cfg s =
      (s, { scanFrom P v hi rest (cfg.keys.incKey f.upper) with buff := more }, some (some r)) := by
    simp only [RangeQueryIter.round, scanFrom, not_lt.mpr hle, if_false, hp, hfound,
      List.nil_append, ne_eq, reduceCtorEq, not_false_eq_true, true_or, if_true, List.head?_cons,
      List.tail_cons]
  exact .found hround rfl h

end Rounds

/-! ## Exactness -/

/-- `rs` are the records of the log at `v` from `lower` to `hi`, each once. -/
structure Exact (log : Log K P) (v : ℕ) (hi lower : K) (rs : List (RecordPointResult K P)) :
    Prop where
  nodup : (rs.map Prod.fst).Nodup
  mem : ∀ k payload, (k, payload) ∈ rs ↔ (lower ≤ k ∧ k ≤ hi) ∧ liveAt log k v = some payload

section Leaves
variable {log : Log K P} {v : ℕ} {hi lower : K} {f : Interval K} {p : LeafPage K P}

theorem mem_leafFound (h : Shows log f p.asUnits v) {k : K} {payload : P} :
    (k, payload) ∈ leafFound p v ⟨lower, hi⟩ ↔
      k ∈ f ∧ (lower ≤ k ∧ k ≤ hi) ∧ liveAt log k v = some payload := by
  constructor
  · intro hmem
    obtain ⟨r, hr, heq⟩ := List.mem_map.mp hmem
    obtain ⟨hr, hm⟩ := List.mem_filter.mp hr
    simp only [Bool.and_eq_true, Interval.contains_eq_true] at hm
    simp only [RecordPoint.result, Prod.mk.injEq] at heq
    obtain ⟨rfl, rfl⟩ := heq
    have hk : r.key ∈ f := span_within.mp (h.within r (List.mem_filter.mpr ⟨hr, hm.1⟩))
    exact ⟨hk, hm.2, (h.mem_iff hk).mpr ⟨r, hr, hm.1, rfl, rfl⟩⟩
  · rintro ⟨hk, hrange, hlive⟩
    obtain ⟨r, hr, hm, rfl, rfl⟩ := (h.mem_iff hk).mp hlive
    refine List.mem_map.mpr ⟨r, List.mem_filter.mpr ⟨hr, ?_⟩, rfl⟩
    simp only [Bool.and_eq_true, Interval.contains_eq_true]
    exact ⟨hm, hrange⟩

theorem leafFound_nodup (h : Shows log f p.asUnits v) (range : Interval K) :
    ((leafFound p v range).map Prod.fst).Nodup := by
  have hsub : (p.asUnits.filter (fun r => r.version.matches v && range.contains r.key)).Sublist
      (p.asUnits.filter (fun r => r.version.matches v)) := by
    refine List.monotone_filter_right _ (fun r hr => ?_)
    simp only [Bool.and_eq_true] at hr
    exact hr.1
  rw [leafFound, List.map_map, List.Nodup, List.pairwise_map]
  refine (h.disjoint.sublist hsub).imp (fun {r r'} hd => ?_)
  exact span_disjoint.mp hd

theorem Exact.past (h : hi < lower) : Exact log v hi lower [] := by
  refine ⟨by simp, fun k payload => ?_⟩
  simp only [List.not_mem_nil, false_iff, not_and]
  intro hk
  exact absurd (hk.1.trans hk.2) (not_le.mpr h)

variable (S : KeySpace K)

/-- No record of the range lies at the border of the key space. -/
def OffBorder (log : Log K P) (v : ℕ) (hi : K) : Prop :=
  liveAt log S.maxKey v = none ∨ hi < S.maxKey

theorem OffBorder.ne_max (hmax : OffBorder S log v hi) {k : K} {payload : P} (hle : k ≤ hi)
    (hlive : liveAt log k v = some payload) : k < S.maxKey := by
  refine (S.le_max k).lt_of_ne ?_
  rintro rfl
  cases hmax with
  | inl hnone =>
    rw [hnone] at hlive
    cases hlive
  | inr hlt => exact absurd hle (not_le.mpr hlt)

theorem Exact.max (hmax : OffBorder S log v hi) : Exact log v hi S.maxKey [] := by
  refine ⟨by simp, fun k payload => ?_⟩
  simp only [List.not_mem_nil, false_iff, not_and]
  intro hk hlive
  exact absurd hk.1 (not_le.mpr (hmax.ne_max S hk.2 hlive))

/-- A record behind a finished fence is not in the fence. -/
theorem upper_lt_of_inc_le (hmax : OffBorder S log v hi) {k : K} {payload : P}
    (hk : S.incKey f.upper ≤ k) (hle : k ≤ hi) (hlive : liveAt log k v = some payload) :
    f.upper < k := by
  rcases (S.le_max f.upper).lt_or_eq with hlt | heq
  · exact (S.inc_le _ hlt k).mp hk
  · rw [heq, S.inc_max] at hk
    exact absurd hk (not_le.mpr (hmax.ne_max S hle hlive))

/-- The records of one leaf and those behind its fence. -/
theorem Exact.leaf (hmax : OffBorder S log v hi) (hs : Shows log f p.asUnits v)
    (hlow : lower ∈ f) {rs : List (RecordPointResult K P)}
    (h : Exact log v hi (S.incKey f.upper) rs) :
    Exact log v hi lower (leafFound p v ⟨lower, hi⟩ ++ rs) := by
  refine ⟨?_, ?_⟩
  · rw [List.map_append, List.nodup_append]
    refine ⟨leafFound_nodup hs _, h.nodup, ?_⟩
    rintro k hk _ hk' rfl
    obtain ⟨x, hx, rfl⟩ := List.mem_map.mp hk
    obtain ⟨y, hy, heq⟩ := List.mem_map.mp hk'
    obtain ⟨⟨hinc, hend⟩, hlive⟩ := (h.mem y.1 y.2).mp hy
    have hlt := upper_lt_of_inc_le S hmax hinc hend hlive
    have hle := ((mem_leafFound hs).mp hx).1.2
    rw [heq] at hlt
    exact absurd hle (not_le.mpr hlt)
  · intro k payload
    rw [List.mem_append, mem_leafFound hs, h.mem]
    constructor
    · rintro (⟨-, hrange, hlive⟩ | ⟨⟨hinc, hle⟩, hlive⟩)
      · exact ⟨hrange, hlive⟩
      · exact ⟨⟨(hlow.2.trans_lt (upper_lt_of_inc_le S hmax hinc hle hlive)).le, hle⟩, hlive⟩
    · rintro ⟨hrange, hlive⟩
      by_cases hk : k ≤ f.upper
      · exact .inl ⟨⟨hlow.1.trans hrange.1, hk⟩, hrange, hlive⟩
      · have hlt := not_le.mp hk
        exact .inr ⟨⟨(S.inc_le _ (hlt.trans_le (S.le_max k)) k).mpr hlt, hrange.2⟩, hlive⟩

end Leaves

/-! ## The walk -/

/-- Each block of a path is the child of the block behind it in the list. -/
inductive PathOk (cfg : Config K) (t : MVBTSt K P) (g : Ghost K P) (v : ℕ) (uppers : Finset K) :
    List (Interval K × ℕ) → Prop
  | root {b level : ℕ} : Visible t g v b cfg.keys.full level →
      PathOk cfg t g v uppers [(cfg.keys.full, b)]
  | child {b c level : ℕ} {f f' : Interval K} {rest : List (Interval K × ℕ)} {p : InternalPage K} :
      PathOk cfg t g v uppers ((f, b) :: rest) → t.heap b = .internal p →
      Visible t g v c f' level → f'.Proper → f'.Within f → f'.upper ∈ uppers →
      PathOk cfg t g v uppers ((f', c) :: (f, b) :: rest)

/-- Where the scan stands: inside the fence of the last block, or right behind
it after all children of that block. -/
def Position (cfg : Config K) (t : MVBTSt K P) (lower : K) : List (Interval K × ℕ) → Prop
  | [] => lower = cfg.keys.maxKey
  | (f, b) :: _ => lower ∈ f ∨ (lower = cfg.keys.incKey f.upper ∧ ∃ p, t.heap b = .internal p)

section Walk
variable {cfg : Config K} {t s : MVBTSt K P} {g : Ghost K P} {v : ℕ} {hi lower : K}
  {uppers : Finset K} {f : Interval K} {b : ℕ} {rest : List (Interval K × ℕ)}

theorem PathOk.visible (h : PathOk cfg t g v uppers ((f, b) :: rest)) :
    ∃ level, Visible t g v b f level := by
  cases h with
  | root hv => exact ⟨_, hv⟩
  | child _ _ hv _ _ _ => exact ⟨_, hv⟩

theorem PathOk.upper_mem (h : PathOk cfg t g v uppers ((f, b) :: rest))
    (hlt : f.upper < cfg.keys.maxKey) : f.upper ∈ uppers := by
  cases h with
  | root _ => exact absurd hlt (lt_irrefl _)
  | child _ _ _ _ _ hu => exact hu

/-- After a block is finished the scan stands well in the block before it. -/
theorem PathOk.leave (h : PathOk cfg t g v uppers ((f, b) :: rest)) :
    Position cfg t (cfg.keys.incKey f.upper) rest := by
  cases h with
  | root _ => exact cfg.keys.inc_max
  | @child b' _ _ f' _ rest p _ hp _ hproper hwithin _ =>
    have hup := hwithin _ hproper.upper_mem
    rcases hup.2.lt_or_eq with hlt | heq
    · have hlt' := hlt.trans_le (cfg.keys.le_max f'.upper)
      exact .inl ⟨hup.1.trans (cfg.keys.lt_inc hlt').le, (cfg.keys.inc_le _ hlt' _).mpr hlt⟩
    · exact .inr ⟨by rw [heq], p, hp⟩

theorem PathOk.tail {x : Interval K × ℕ} (h : PathOk cfg t g v uppers (x :: rest))
    (hne : rest ≠ []) : PathOk cfg t g v uppers rest := by
  cases h with
  | root _ => exact absurd rfl hne
  | child h _ _ _ _ _ => exact h

/-- There is a scan from `lower` on, and it is exact. -/
def ScansFrom (cfg : Config K) (s : MVBTSt K P) (g : Ghost K P) (v : ℕ) (hi : K)
    (path : List (Interval K × ℕ)) (lower : K) : Prop :=
  ∃ rs, Scans cfg s (scanFrom P v hi path lower) rs ∧ Exact g.log v hi lower rs

theorem route_outside (h : Inv cfg t g) {level : ℕ} (hb : Visible t g v b f level)
    {p : InternalPage K} (hp : t.heap b = .internal p) {k : K} (hk : k ∉ f) :
    routeAt p.asUnits v k = none := by
  have hnode := h.living.node b hb.used
  rw [hp] at hnode
  rw [hnode.counted_internal]
  cases hroute : routeAt p.units v k with
  | none => rfl
  | some next =>
    obtain ⟨e, he, -, -, -, hke⟩ := routeAt_mem hroute
    refine absurd ((hnode.2.inside e he).2.1 k hke) ?_
    rwa [hb.fence]

/-- Leaving finished blocks does not move the scan. -/
theorem climb (h : Inv cfg t g) (hs : s.heap = t.heap)
    (hmax : OffBorder cfg.keys g.log v hi)
    (hin : ∀ f b rest, PathOk cfg t g v uppers ((f, b) :: rest) → lower ∈ f →
      ScansFrom cfg s g v hi ((f, b) :: rest) lower) :
    ∀ path, (path ≠ [] → PathOk cfg t g v uppers path) → Position cfg t lower path →
      ScansFrom cfg s g v hi path lower := by
  intro path
  induction path with
  | nil =>
    intro _ hpos
    have hlow : lower = cfg.keys.maxKey := hpos
    exact ⟨[], scans_nil, by rw [hlow]; exact .max _ hmax⟩
  | cons x rest ih =>
    obtain ⟨f, b⟩ := x
    intro hok hpos
    have hpath := hok (by simp)
    by_cases hlow : lower ∈ f
    · exact hin f b rest hpath hlow
    · by_cases hpast : hi < lower
      · exact ⟨[], scans_past hpast _, .past hpast⟩
      · obtain ⟨heq, p, hp⟩ := hpos.resolve_left hlow
        obtain ⟨level, hb⟩ := hpath.visible
        obtain ⟨rs, hscan, hexact⟩ := ih hpath.tail (by rw [heq]; exact hpath.leave)
        refine ⟨rs, ?_, hexact⟩
        rw [heq] at hscan
        exact scans_pop (not_lt.mp hpast) (by rw [hs]; exact hp) (route_outside h hb hp hlow) hscan

/-- How much of the key range lies ahead. -/
def ahead (cfg : Config K) (uppers : Finset K) (lower : K) : ℕ :=
  (uppers.filter (fun u => lower ≤ u)).card + if lower < cfg.keys.maxKey then 1 else 0

theorem ahead_inc (hlow : lower ≤ f.upper) (hlt : lower < cfg.keys.maxKey)
    (hmem : f.upper < cfg.keys.maxKey → f.upper ∈ uppers) :
    ahead cfg uppers (cfg.keys.incKey f.upper) < ahead cfg uppers lower := by
  simp only [ahead, hlt, if_true]
  rcases (cfg.keys.le_max f.upper).lt_or_eq with hup | hup
  · have hsub : uppers.filter (fun u => cfg.keys.incKey f.upper ≤ u) ⊂
        uppers.filter (fun u => lower ≤ u) := by
      rw [Finset.ssubset_iff_of_subset]
      · refine ⟨f.upper, by simp [hmem hup, hlow], ?_⟩
        simp [cfg.keys.lt_inc hup]
      · intro u hu
        obtain ⟨hu, hle⟩ := Finset.mem_filter.mp hu
        exact Finset.mem_filter.mpr ⟨hu, (hlow.trans (cfg.keys.lt_inc hup).le).trans hle⟩
    have := Finset.card_lt_card hsub
    split_ifs <;> omega
  · rw [hup, cfg.keys.inc_max, if_neg (lt_irrefl _)]
    have : (uppers.filter (fun u => cfg.keys.maxKey ≤ u)).card ≤
        (uppers.filter (fun u => lower ≤ u)).card := by
      refine Finset.card_le_card (fun u hu => ?_)
      obtain ⟨hu, hle⟩ := Finset.mem_filter.mp hu
      exact Finset.mem_filter.mpr ⟨hu, hlt.le.trans hle⟩
    omega

/-- The descent to the leaf that covers `lower`, and on from there. -/
theorem descend_scans (h : Inv cfg t g) (hr : Readable cfg t g v) (hs : s.heap = t.heap)
    (hmax : OffBorder cfg.keys g.log v hi)
    (hup : ∀ b < t.nextBlock, ∀ p, t.heap b = .internal p → ∀ e ∈ p.units, e.fence.upper ∈ uppers)
    (hrest : ∀ lower', ahead cfg uppers lower' < ahead cfg uppers lower → ∀ path,
      (path ≠ [] → PathOk cfg t g v uppers path) → Position cfg t lower' path →
      ScansFrom cfg s g v hi path lower') :
    ∀ level f b rest, Visible t g v b f level → PathOk cfg t g v uppers ((f, b) :: rest) →
      lower ∈ f → ScansFrom cfg s g v hi ((f, b) :: rest) lower := by
  intro level
  induction level with
  | zero =>
    intro f b rest hb _ _
    have hnode := h.living.node b hb.used
    cases hn : t.heap b with
    | leaf p => exact absurd (hb.level_leaf h hn) (by omega)
    | internal p =>
      rw [hn] at hnode
      have h₁ := hnode.1
      have h₂ := hb.level_eq
      omega
  | succ level ih =>
    intro f b rest hb hpath hlow
    by_cases hpast : hi < lower
    · exact ⟨[], scans_past hpast _, .past hpast⟩
    have hle := not_lt.mp hpast
    cases hn : t.heap b with
    | internal p =>
      obtain ⟨next, hroute, hkn, hwithin, -⟩ := hb.route h hn lower hlow
      obtain ⟨below, hlevel, hchild⟩ := hr.child h hb hn hroute
      obtain rfl : below = level := by omega
      have hproper := (h.living.born _ hchild.used).1
      rw [hchild.fence] at hproper
      have hu : next.1.upper ∈ uppers := by
        have hnode := h.living.node b hb.used
        rw [hn] at hnode
        rw [hnode.counted_internal] at hroute
        obtain ⟨e, he, hf, -⟩ := routeAt_mem hroute
        rw [← hf]
        exact hup b hb.used p hn e he
      obtain ⟨rs, hscan, hexact⟩ := ih next.1 next.2 ((f, b) :: rest) hchild
        (.child hpath hn hchild hproper hwithin hu) hkn
      exact ⟨rs, scans_route hle (by rw [hs]; exact hn) hroute hscan, hexact⟩
    | leaf p =>
      have hshow := hb.shows h hn
      have hns : s.heap b = .leaf p := by rw [hs]; exact hn
      have hnext : lower < cfg.keys.maxKey →
          ScansFrom cfg s g v hi rest (cfg.keys.incKey f.upper) := fun hlt =>
        hrest _ (ahead_inc hlow.2 hlt hpath.upper_mem) rest hpath.tail hpath.leave
      by_cases hfound : leafFound p v ⟨lower, hi⟩ = []
      · by_cases hinc : cfg.keys.incKey f.upper = cfg.keys.maxKey
        · refine ⟨[], scans_leaf_end hle hns hfound hinc, ?_⟩
          have := Exact.leaf cfg.keys hmax hshow hlow
            (show Exact g.log v hi _ [] by rw [hinc]; exact .max _ hmax)
          rwa [hfound] at this
        · have hlt : lower < cfg.keys.maxKey := by
            refine hlow.2.trans_lt ((cfg.keys.le_max _).lt_of_ne ?_)
            rintro heq
            exact hinc (by rw [heq, cfg.keys.inc_max])
          obtain ⟨rs, hscan, hexact⟩ := hnext hlt
          refine ⟨rs, scans_leaf_silent hle hns hfound hinc hscan, ?_⟩
          have := Exact.leaf cfg.keys hmax hshow hlow hexact
          rwa [hfound] at this
      · have hlt : lower < cfg.keys.maxKey := by
          obtain ⟨⟨k, payload⟩, hk⟩ := List.exists_mem_of_ne_nil _ hfound
          obtain ⟨-, ⟨hlk, hle'⟩, hlive⟩ := (mem_leafFound hshow).mp hk
          exact hlk.trans_lt (hmax.ne_max cfg.keys hle' hlive)
        obtain ⟨rs, hscan, hexact⟩ := hnext hlt
        exact ⟨_, scans_leaf_found hle hns hfound hscan, .leaf cfg.keys hmax hshow hlow hexact⟩

/-- The scan from every position is exact, by induction on what lies ahead. -/
theorem scansFrom_position (h : Inv cfg t g) (hr : Readable cfg t g v) (hs : s.heap = t.heap)
    (hmax : OffBorder cfg.keys g.log v hi)
    (hup : ∀ b < t.nextBlock, ∀ p, t.heap b = .internal p →
      ∀ e ∈ p.units, e.fence.upper ∈ uppers) (n : ℕ) :
    ∀ lower, ahead cfg uppers lower = n → ∀ path,
      (path ≠ [] → PathOk cfg t g v uppers path) → Position cfg t lower path →
      ScansFrom cfg s g v hi path lower := by
  induction n using Nat.strong_induction_on with
  | _ n ih =>
    intro lower hn
    refine climb h hs hmax (fun f b rest hpath hlow => ?_)
    obtain ⟨level, hb⟩ := hpath.visible
    refine descend_scans h hr hs hmax hup ?_ level f b rest hb hpath hlow
    intro lower' hlt
    exact ih _ (by rw [← hn]; exact hlt) lower' rfl

/-- The upper borders of all fences in the tree. -/
def allUppers (t : MVBTSt K P) : Finset K :=
  (Finset.range t.nextBlock).biUnion fun b =>
    match t.heap b with
    | .leaf _ => ∅
    | .internal p => (p.units.map (fun e => e.fence.upper)).toFinset

theorem mem_allUppers {b : ℕ} (hb : b < t.nextBlock) {p : InternalPage K}
    (hp : t.heap b = .internal p) {e : Entry K} (he : e ∈ p.units) :
    e.fence.upper ∈ allUppers t := by
  rw [allUppers, Finset.mem_biUnion]
  refine ⟨b, Finset.mem_range.mpr hb, ?_⟩
  rw [hp]
  simp only [List.mem_toFinset, List.mem_map]
  exact ⟨e, he, rfl⟩

theorem scansFrom_root (h : Inv cfg t g) (hr : Readable cfg t g v) (hs : s.heap = t.heap)
    (hmax : OffBorder cfg.keys g.log v hi) (lo : K) :
    ∃ root, t.rootFor v = .ok root ∧ ScansFrom cfg s g v hi [(cfg.keys.full, root.1)] lo := by
  obtain ⟨x, hx, hroot⟩ := hr.root
  refine ⟨x.1, rootFor_eq h hx, ?_⟩
  exact scansFrom_position h hr hs hmax
    (fun b hb p hp e he => mem_allUppers hb hp he) _ lo rfl _ (fun _ => .root hroot)
    (.inl (cfg.keys.mem_full lo))

/-- `Range([lo, hi], v)` ends and yields the reference at `v`. -/
theorem dispatchRange_exact (h : Inv cfg t g) (hr : Readable cfg t g v)
    (lo hi : K)
    (hmax : OffBorder cfg.keys g.log v hi) :
    ∃ bound t' found, (∀ fuel calls, bound ≤ fuel → bound ≤ calls →
      dispatchRange cfg fuel calls t ⟨lo, hi⟩ v = .ok (t', found)) ∧
      Exact g.log v hi lo found := by
  let s : MVBTSt K P := { onAcquireReaderSnapshot t v with
    commit := (t.commit.currentVersionForReader t.tid).1 }
  obtain ⟨root, hroot, found, hscan, hexact⟩ :=
    scansFrom_root (s := s) h hr rfl hmax lo
  obtain ⟨bound, s', it', hdrain⟩ := hscan.drain rfl rfl
  refine ⟨bound, it'.drop s', found, fun fuel calls hf hc => ?_, hexact⟩
  have hroot' : s.rootFor v = .ok root := hroot
  have hnew : RangeQueryIter.new cfg t v ⟨lo, hi⟩ =
      .ok (s, scanFrom P v hi [(cfg.keys.full, root.1)] lo) := by
    change (do let root ← s.rootFor v; _) = _
    rw [hroot']
    rfl
  simp only [dispatchRange, hnew, bind, Except.bind, hdrain fuel calls hf hc, pure, Except.pure]

end Walk

/-- Snapshot range scans are exact. After every history of a tree without tracker
in which no record with the key `maxKey` was inserted, a drained range iterator
ends at every version between the start and the clock and yields each record of
that version in the range exactly once. -/
theorem writes_then_range_scans {cfg : Config K} (hc : Roomy cfg) (tosses : ℕ → Toss)
    (threads tid : ℕ) (ops : List (WriteOperation K P))
    (hops : ∀ payload, .insert cfg.keys.maxKey payload ∉ ops) :
    ∃ t rs log, runWrites cfg (make tosses threads tid) ops = .ok (t, rs) ∧
      Replay [] ops rs log ∧
      ∀ lo hi v, lo ≤ hi → startVersion ≤ v → v < t.commit.clock →
        ∃ bound t' found, (∀ fuel calls, bound ≤ fuel → bound ≤ calls →
          dispatchRange cfg fuel calls t ⟨lo, hi⟩ v = .ok (t', found)) ∧
          (found.map Prod.fst).Nodup ∧
          ∀ k payload, (k, payload) ∈ found ↔
            (lo ≤ k ∧ k ≤ hi) ∧ liveAt log k v = some payload := by
  obtain ⟨t, rs, log, hrun, hreplay, htr, -, hend⟩ := runWrites_reached hc ops _
    (make_fresh tosses threads tid) rfl
  refine ⟨t, rs, log, hrun, hreplay, ?_⟩
  intro lo hi v _ hv hlt
  rcases hend with ⟨hfresh, -⟩ | ⟨g, hinv, rfl⟩
  · have := hfresh.clock
    omega
  · have ht : t.tracker = none := by simpa [make] using htr
    have hmax := liveAt_absent (hreplay.key_absent hops (by simp)) v
    obtain ⟨bound, t', found, hrange, hexact⟩ :=
      dispatchRange_exact hinv (readable_untracked hinv ht hv) lo hi (.inl hmax)
    exact ⟨bound, t', found, hrange, hexact.nodup, hexact.mem⟩

/-- Two records below the border. -/
theorem range_scans_after_two_writes :
    ∃ t rs log, runWrites ⟨125, 125, u64Space⟩ (make (fun _ => .next) 1 0)
        ([.insert 3 30, .insert 5 50] : List (WriteOperation UInt64 ℕ)) = .ok (t, rs) ∧
      Replay [] [.insert 3 30, .insert 5 50] rs log ∧
      ∀ lo hi v, lo ≤ hi → startVersion ≤ v → v < t.commit.clock →
        ∃ bound t' found, (∀ fuel calls, bound ≤ fuel → bound ≤ calls →
          dispatchRange ⟨125, 125, u64Space⟩ fuel calls t ⟨lo, hi⟩ v = .ok (t', found)) ∧
          (found.map Prod.fst).Nodup ∧
          ∀ k payload, (k, payload) ∈ found ↔
            (lo ≤ k ∧ k ≤ hi) ∧ liveAt log k v = some payload := by
  refine writes_then_range_scans (roomy_of_capacity (.inl rfl) u64Space) (fun _ => .next) 1 0 _
    (fun payload hmem => ?_)
  simp only [List.mem_cons, WriteOperation.insert.injEq, List.not_mem_nil, or_false] at hmem
  rcases hmem with ⟨h, -⟩ | ⟨h, -⟩
  · exact absurd h (by decide)
  · exact absurd h (by decide)

end CMVBT.RangeScan
