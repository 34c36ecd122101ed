import CMVBT.BaselineScan
import CMVBT.WeaverLinks

/-!
# The scan along the key links

`weaver_scan_dispatch` looks for the first visible node in a leaf and follows its key
links as long as they stay in the interval; then it goes on behind the last key that it
returned. A link was set after the version of the scan, so no visible key lies between
its ends. But a tombstone on the way is passed without a lookup, and its key may have
been live at the version. The scan misses that key when the links lead on from the
tombstone to a record that is returned.
-/
namespace CMVBT.WeaverScan
open PageModel hiding Node startVersion
open FrugalList KeyInterval OrderedMap VersionChain ChainRefinement VersionedLog SeparatorRow
  BaselinePages BaselineTree BaselineInvariant BaselineContents BaselineDescent BaselineWrites
  BaselineScan WeaverTree WeaverTermination WeaverLinks

variable {K P : Type} [LinearOrder K] {skipMap : Mutable (RecordInfo P)}

/-! ## The scan -/

/-- What `VWeaverKeyRidgyIterator` yields from a node on, with the `take_while`, the lookup
and the record that the scan puts behind it. -/
def ridgyMatches (ridges : Ridges K P) (interval : Interval K) (version : ℕ) :
    ℕ → Option (WeaverNode K P) → Except Fault (List (K × P))
  | _, none => .ok []
  | 0, some _ => .error .outOfFuel
  | fuel + 1, some weaverNode =>
    let current := ridges weaverNode.key weaverNode.node.insertVersion
    match weaverNode.node.payload with
    -- `next` skips a tombstone at any version
    | none => ridgyMatches ridges interval version fuel current
    | some _ =>
      if interval.contains weaverNode.key then do
        let found ← VersionIndex.foundNode (← findChain weaverNode.node version)
        let rest ← ridgyMatches ridges interval version fuel current
        return (found.map fun x => (weaverNode.key, x.2)).toList ++ rest
      else .ok []

/-- `find_map` with `find_weaver_node`. -/
def firstWeaverNode (version : ℕ) :
    List (WeaverRecord K skipMap) → Except Fault (Option (WeaverNode K P))
  | [] => .ok none
  | record :: records => do
    match ← findWeaverNode record version with
    | some weaverNode => return some weaverNode
    | none => firstWeaverNode version records

variable (cfg : WeaverConfig K skipMap)

/-- One turn of the scan at a leaf: what it returns, and the next lower border. -/
def weaverLeaf (ridges : Ridges K P) (interval : Interval K) (version fuel : ℕ)
    (leafFence : Interval K) (records : List (WeaverRecord K skipMap)) :
    Except Fault (List (K × P) × K) := do
  let start := partitionPoint (fun r => decide (r.key < interval.lower)) records
  let stop := partitionPoint (fun r => decide (r.key ≤ interval.upper)) records
  if start ≤ stop then
    let snapshot := (records.take stop).drop start
    match ← firstWeaverNode version (snapshot.dropWhile fun r => !interval.contains r.key) with
    | some weaverNode => do
      let results ← ridgyMatches ridges interval version fuel (some weaverNode)
      let lastKey := (results.getLast?.map Prod.fst).getD weaverNode.key
      return (results, cfg.keys.incKey lastKey)
    | none => return ([], cfg.keys.incKey leafFence.upper)
  else .error .outOfBounds

def weaverScanLoop (state : WeaverState K skipMap) (version : ℕ) :
    ℕ → List (PathEntry K (VersionIndex skipMap)) → ℕ → Interval K → Except Fault (List (K × P))
  | 0, _, _, _ => .error .outOfFuel
  | fuel + 1, path, parentIndex, interval => do
    let path ← nextLeafPage cfg.tree state.tree.root interval.lower fuel path parentIndex
    let parentIndex := path.length - 2
    match path.getLast? with
    | none => return []
    | some (_, .index _ _) => .error .unreachable
    | some (leafFence, .leaf records) => do
      let (results, lower) ←
        weaverLeaf cfg state.ridges interval version fuel leafFence records
      if interval.upper < lower ∨ lower ≤ interval.lower then return results
      else return results ++
        (← weaverScanLoop state version fuel path.dropLast parentIndex ⟨lower, interval.upper⟩)

/-- `weaver_scan_dispatch`. -/
def weaverScanDispatch (fuel : ℕ) (state : WeaverState K skipMap) (interval : Interval K)
    (version : ℕ) : Except Fault (List (K × P)) :=
  weaverScanLoop cfg state version fuel [] 0 interval

/-! ## Following links -/

section Links
variable {ridges : Ridges K P} {log : Log K P} {v t : ℕ} {a b : WeaverNode K P}

/-- `a` has a link, to `b`. -/
def Leads (ridges : Ridges K P) (a b : WeaverNode K P) : Prop :=
  ridges a.key a.node.insertVersion = some b

/-- Links lead from `a` to `b`. -/
abbrev LeadsOn (ridges : Ridges K P) : WeaverNode K P → WeaverNode K P → Prop :=
  Relation.ReflTransGen (Leads ridges)

/-- The link of a node was set after every version at which the node was the newest one. -/
theorem link_later (hl : Linking log ridges) (ha : NewestAt log t a) (hlead : Leads ridges a b) :
    ∃ t', t < t' ∧ NewestAt log t' b ∧ a.key < b.key ∧
      ∀ s ∈ upTo log t', a.key < s.key → b.key ≤ s.key := by
  obtain ⟨t', hset⟩ := hl a.key a.node.insertVersion b hlead
  refine ⟨t', ?_, hset.newest, hset.above, hset.between⟩
  by_contra hle
  obtain ⟨payload, htold⟩ := hset.told
  have hmem : (payload, t') ∈ storyOf (upTo log t) a.key := by
    rw [storyOf_upTo]
    exact List.mem_filter.mpr ⟨htold, by simpa using not_lt.mp hle⟩
  exact absurd (chain_greatest ha _ hmem) (not_le.mpr hset.later)

/-- The newest node of its key at `v` or later. -/
def Since (log : Log K P) (v : ℕ) (weaverNode : WeaverNode K P) : Prop :=
  ∃ t, v ≤ t ∧ NewestAt log t weaverNode

theorem Since.link (hl : Linking log ridges) (ha : Since log v a) (hlead : Leads ridges a b) :
    Since log v b ∧ a.key < b.key ∧ ∀ s ∈ upTo log v, a.key < s.key → b.key ≤ s.key := by
  obtain ⟨t, hle, hnew⟩ := ha
  obtain ⟨t', hlt, hnew', hkey, hbetween⟩ := link_later hl hnew hlead
  refine ⟨⟨t', hle.trans hlt.le, hnew'⟩, hkey, fun s hs => hbetween s ?_⟩
  obtain ⟨hmem, hversion⟩ := mem_upTo.mp hs
  exact mem_upTo.mpr ⟨hmem, hversion.trans (hle.trans hlt.le)⟩

theorem Since.reaches (hl : Linking log ridges) (ha : Since log v a) (hreach : LeadsOn ridges a b) :
    Since log v b ∧ a.key ≤ b.key := by
  induction hreach with
  | refl => exact ⟨ha, le_rfl⟩
  | tail _ hlead ih =>
    obtain ⟨hsince, hkey, -⟩ := ih.1.link hl hlead
    exact ⟨hsince, ih.2.trans hkey.le⟩

/-- No key that is live at the version lies between two linked nodes. -/
theorem Since.meets (hl : Linking log ridges) (ha : Since log v a) (hreach : LeadsOn ridges a b)
    {key : K} (hlow : a.key ≤ key) (hup : key ≤ b.key) {p : P}
    (hlive : liveAt log key v = some p) :
    ∃ m, m.key = key ∧ LeadsOn ridges a m ∧ LeadsOn ridges m b := by
  induction hreach using Relation.ReflTransGen.head_induction_on with
  | refl => exact ⟨b, le_antisymm hlow hup, .refl, .refl⟩
  | @head a c hlead hrest ih =>
    rcases hlow.eq_or_lt with heq | hlt
    · exact ⟨a, heq, .refl, .head hlead hrest⟩
    · obtain ⟨hc, -, hbetween⟩ := ha.link hl hlead
      obtain ⟨s, hs, rfl⟩ := mem_of_liveAt hlive
      obtain ⟨m, hm, hfrom, hto⟩ := ih hc (hbetween s hs hlt)
      exact ⟨m, hm, .head hlead hfrom, hto⟩

omit [LinearOrder K] in
/-- Two nodes that links lead to from one node: they lead from one of the two to the other. -/
theorem leadsOn_total {c : WeaverNode K P} (hb : LeadsOn ridges a b) (hc : LeadsOn ridges a c) :
    LeadsOn ridges b c ∨ LeadsOn ridges c b := by
  refine Relation.ReflTransGen.total_of_right_unique (fun x y z hy hz => ?_) hb hc
  exact Option.some.inj (hy.symm.trans hz)

/-- Among the nodes that links lead to, each key has one. -/
theorem Since.unique {c : WeaverNode K P} (hl : Linking log ridges) (ha : Since log v a)
    (hb : LeadsOn ridges a b) (hc : LeadsOn ridges a c) (hkey : b.key = c.key) : b = c := by
  have hstrict : ∀ x y : WeaverNode K P, LeadsOn ridges a x → LeadsOn ridges x y →
      x.key = y.key → x = y := by
    intro x y hx hxy heq
    rcases Relation.ReflTransGen.cases_head hxy with rfl | ⟨z, hlead, hrest⟩
    · rfl
    · obtain ⟨hz, hlt, -⟩ := (ha.reaches hl hx).1.link hl hlead
      exact absurd heq (hlt.trans_le (hz.reaches hl hrest).2).ne
  rcases leadsOn_total hb hc with hbc | hcb
  · exact hstrict b c hb hbc hkey
  · exact (hstrict c b hc hcb hkey.symm).symm

/-- A lookup from a node on answers as the log does. -/
theorem Since.find (ha : Since log v a) :
    ∃ found, (do VersionIndex.foundNode (← findChain a.node v)) = .ok found ∧
      found.map Prod.snd = liveAt log a.key v := by
  obtain ⟨t, hle, hnew⟩ := ha
  refine ⟨_, chain_find hnew v, ?_⟩
  rw [liveAt_storyOf, liveAt_upTo log a.key hle]

/-! ## Trails -/

/-- All nodes from a link on. -/
inductive Trail (ridges : Ridges K P) : Option (WeaverNode K P) → List (WeaverNode K P) → Prop
  | nil : Trail ridges none []
  | cons {a : WeaverNode K P} {nodes : List (WeaverNode K P)} :
      Trail ridges (ridges a.key a.node.insertVersion) nodes → Trail ridges (some a) (a :: nodes)

/-- The changes of keys above a key. -/
def ahead (log : Log K P) (key : K) : ℕ :=
  ((log.map Stamp.key).filter fun k => decide (key < k)).length

theorem ahead_lt {key : K} (hb : Since log v b) (hlt : key < b.key) :
    ahead log b.key < ahead log key := by
  obtain ⟨t, -, hnew⟩ := hb
  obtain ⟨tail, htail⟩ := Chain.head hnew
  obtain ⟨s, hs, hkey, -⟩ := mem_storyOf.mp (htail ▸ List.mem_cons_self)
  exact length_above_lt (List.mem_map.mpr ⟨s, (mem_upTo.mp hs).1, hkey⟩) hlt

/-- Links come to an end. -/
theorem trail_exists (hl : Linking log ridges) (ha : Since log v a) :
    ∃ nodes, Trail ridges (some a) nodes ∧ nodes.length ≤ ahead log a.key + 1 := by
  induction hn : ahead log a.key using Nat.strong_induction_on generalizing a with
  | _ n ih =>
    cases hlead : ridges a.key a.node.insertVersion with
    | none => exact ⟨[a], .cons (hlead ▸ .nil), Nat.le_add_left 1 n⟩
    | some b =>
      obtain ⟨hb, hlt, -⟩ := ha.link hl hlead
      have hless := ahead_lt hb hlt
      obtain ⟨nodes, htrail, hlen⟩ := ih _ (hn ▸ hless) hb rfl
      refine ⟨a :: nodes, .cons (hlead ▸ htrail), ?_⟩
      rw [List.length_cons]
      omega

omit [LinearOrder K] in
theorem mem_trail {current : Option (WeaverNode K P)} {nodes : List (WeaverNode K P)}
    (ht : Trail ridges current nodes) :
    b ∈ nodes ↔ ∃ a, current = some a ∧ LeadsOn ridges a b := by
  induction ht with
  | nil => simp
  | @cons a nodes _ ih =>
    rw [List.mem_cons, ih]
    constructor
    · rintro (rfl | ⟨c, hlead, hrest⟩)
      · exact ⟨b, rfl, .refl⟩
      · exact ⟨a, rfl, .head hlead hrest⟩
    · rintro ⟨a', heq, hreach⟩
      cases heq
      rcases Relation.ReflTransGen.cases_head hreach with rfl | ⟨c, hlead, hrest⟩
      · exact .inl rfl
      · exact .inr ⟨c, hlead, hrest⟩

theorem trail_sorted {current : Option (WeaverNode K P)} {nodes : List (WeaverNode K P)}
    (hl : Linking log ridges) (ht : Trail ridges current nodes)
    (hsince : ∀ a, current = some a → Since log v a) : Sorted WeaverNode.key nodes := by
  induction ht with
  | nil => exact List.Pairwise.nil
  | @cons a nodes htrail ih =>
    have ha := hsince a rfl
    refine List.pairwise_cons.mpr ⟨fun b hb => ?_, ih fun b hlead => (ha.link hl hlead).1⟩
    obtain ⟨c, hlead, hreach⟩ := (mem_trail htrail).mp hb
    obtain ⟨hc, hlt, -⟩ := ha.link hl hlead
    exact hlt.trans_le (hc.reaches hl hreach).2

/-- The records that a scan returns for the nodes of a trail. -/
def trailMatches (interval : Interval K) (answer : K → Option P) (nodes : List (WeaverNode K P)) :
    List (K × P) :=
  ((nodes.filter fun n => n.node.payload.isSome).takeWhile fun n =>
    interval.contains n.key).filterMap fun n => (answer n.key).map fun p => (n.key, p)

theorem ridgyMatches_trail {current : Option (WeaverNode K P)} {nodes : List (WeaverNode K P)}
    (hl : Linking log ridges) (ht : Trail ridges current nodes)
    (hsince : ∀ a, current = some a → Since log v a) (interval : Interval K) {fuel : ℕ}
    (hfuel : nodes.length ≤ fuel) :
    ridgyMatches ridges interval v fuel current =
      .ok (trailMatches interval (fun k => liveAt log k v) nodes) := by
  induction ht generalizing fuel with
  | nil => cases fuel <;> rfl
  | @cons a nodes htrail ih =>
    obtain ⟨fuel, rfl⟩ : ∃ n, fuel = n + 1 := ⟨fuel - 1, by simp at hfuel; omega⟩
    have ha := hsince a rfl
    have hrest := ih (fun b hlead => (ha.link hl hlead).1) (Nat.le_of_succ_le_succ hfuel)
    obtain ⟨found, hfind, hlive⟩ := ha.find
    cases hpayload : a.node.payload with
    | none =>
      rw [ridgyMatches, hpayload, trailMatches, List.filter_cons_of_neg (by simp [hpayload])]
      exact hrest
    | some p =>
      rw [ridgyMatches, hpayload, trailMatches, List.filter_cons_of_pos (by simp [hpayload])]
      by_cases hin : interval.contains a.key = true
      · obtain ⟨node, hchain, hnode⟩ := of_bind_ok hfind
        simp only [List.takeWhile_cons, if_pos hin, List.filterMap_cons, ← hlive, hchain, ok_bind,
          hnode, hrest]
        cases found <;> rfl
      · simp only [List.takeWhile_cons, if_neg hin]
        rfl

/-- What the links from `start` on contribute to a scan up to `upper`. -/
structure Follows (log : Log K P) (ridges : Ridges K P) (v : ℕ) (upper : K)
    (start : WeaverNode K P) (results : List (K × P)) : Prop where
  sorted : results.Pairwise (fun a b => a.1 < b.1)
  mem : ∀ k p, (k, p) ∈ results ↔ k ≤ upper ∧ liveAt log k v = some p ∧
    ∃ b, LeadsOn ridges start b ∧ b.node.payload.isSome = true ∧ b.key = k

theorem mem_takeWhile_contains {nodes : List (WeaverNode K P)} (hs : Sorted WeaverNode.key nodes)
    {interval : Interval K} (hlow : ∀ n ∈ nodes, interval.lower ≤ n.key) :
    b ∈ nodes.takeWhile (fun n => interval.contains n.key) ↔
      b ∈ nodes ∧ b.key ≤ interval.upper := by
  induction nodes with
  | nil => simp
  | cons n nodes ih =>
    obtain ⟨hn, hnodes⟩ := List.pairwise_cons.mp hs
    have hrest := ih hnodes fun m hm => hlow m (List.mem_cons_of_mem _ hm)
    rw [List.takeWhile_cons]
    by_cases hin : interval.contains n.key = true
    · rw [if_pos hin, List.mem_cons, hrest, List.mem_cons]
      constructor
      · rintro (rfl | ⟨hmem, hup⟩)
        · exact ⟨.inl rfl, (Interval.contains_eq_true.mp hin).2⟩
        · exact ⟨.inr hmem, hup⟩
      · rintro ⟨rfl | hmem, hup⟩
        · exact .inl rfl
        · exact .inr ⟨hmem, hup⟩
    · rw [if_neg hin]
      refine ⟨fun hmem => absurd hmem List.not_mem_nil, fun ⟨hmem, hup⟩ => ?_⟩
      -- the first node outside is above the interval, and so is all behind it
      have hge : n.key ≤ b.key := by
        rcases List.mem_cons.mp hmem with rfl | hmem
        · exact le_rfl
        · exact (hn b hmem).le
      exact absurd (Interval.contains_eq_true.mpr
        ⟨hlow n List.mem_cons_self, hge.trans hup⟩) hin

theorem ridgyMatches_follows (hl : Linking log ridges) (ha : Since log v a) {lower upper : K}
    (hlow : lower ≤ a.key) {fuel : ℕ} (hfuel : ahead log a.key + 1 ≤ fuel) :
    ∃ results, ridgyMatches ridges ⟨lower, upper⟩ v fuel (some a) = .ok results ∧
      Follows log ridges v upper a results := by
  obtain ⟨nodes, htrail, hlen⟩ := trail_exists hl ha
  have hsince : ∀ b, some a = some b → Since log v b := by
    intro b heq
    cases heq
    exact ha
  have hsorted := trail_sorted hl htrail hsince
  have hmem : ∀ {b}, b ∈ nodes ↔ LeadsOn ridges a b := by
    intro b
    rw [mem_trail htrail]
    constructor
    · rintro ⟨a', heq, hreach⟩
      cases heq
      exact hreach
    · exact fun hreach => ⟨a, rfl, hreach⟩
  have hlive : Sorted WeaverNode.key (nodes.filter fun n => n.node.payload.isSome) :=
    hsorted.sublist List.filter_sublist
  have habove : ∀ n ∈ nodes.filter fun n => n.node.payload.isSome,
      (⟨lower, upper⟩ : Interval K).lower ≤ n.key := fun n hn =>
    hlow.trans (ha.reaches hl (hmem.mp (List.mem_of_mem_filter hn))).2
  refine ⟨_, ridgyMatches_trail hl htrail hsince _ (hlen.trans hfuel), ?_, fun k p => ?_⟩
  · refine List.Pairwise.filterMap _ ?_ (hlive.sublist (List.takeWhile_sublist _))
    intro m n hlt x hx y hy
    obtain ⟨p, -, rfl⟩ := Option.map_eq_some_iff.mp hx
    obtain ⟨q, -, rfl⟩ := Option.map_eq_some_iff.mp hy
    exact hlt
  · simp only [trailMatches, List.mem_filterMap, mem_takeWhile_contains hlive habove,
      List.mem_filter, hmem, Option.map_eq_some_iff, Prod.mk.injEq]
    constructor
    · rintro ⟨b, ⟨⟨hreach, hsome⟩, hup⟩, q, hq, rfl, rfl⟩
      exact ⟨hup, hq, b, hreach, hsome, rfl⟩
    · rintro ⟨hup, hq, b, hreach, hsome, rfl⟩
      exact ⟨b, ⟨⟨hreach, hsome⟩, hup⟩, p, hq, rfl, rfl⟩

end Links

/-! ## Visible nodes -/

def InTree (root : Node K (VersionIndex skipMap)) (record : WeaverRecord K skipMap) : Prop :=
  ∃ pos records, blockAt pos root = some (.leaf records) ∧ record ∈ records

/-- The node of a key that a point read at `version` finds. -/
def Visible (state : WeaverState K skipMap) (version : ℕ) (weaverNode : WeaverNode K P) : Prop :=
  ∃ record, InTree state.tree.root record ∧
    findWeaverNode record version = .ok (some weaverNode)

section Records
variable {S : KeySpace K} {h : ℕ} {f : Interval K} {root : Node K (VersionIndex skipMap)}
  {record : WeaverRecord K skipMap}

omit [LinearOrder K] in
theorem inTree_of_contents (hr : record ∈ contents h root) : InTree root record := by
  induction h generalizing root with
  | zero =>
    cases root with
    | leaf records => exact ⟨[], records, rfl, hr⟩
    | index => cases hr
  | succ h ih =>
    cases root with
    | leaf records => exact ⟨[], records, rfl, hr⟩
    | index keys children =>
      obtain ⟨c, hc, hin⟩ := List.mem_flatMap.mp hr
      obtain ⟨pos, records, hblock, hmem⟩ := ih hin
      obtain ⟨i, hget⟩ := List.mem_iff_getElem?.mp hc
      refine ⟨i :: pos, records, ?_, hmem⟩
      rw [blockAt, hget, Option.bind_some, hblock]

theorem contents_of_inTree (ho : Ordered S h f root) (hr : InTree root record) :
    record ∈ contents h root := by
  obtain ⟨pos, records, hblock, hmem⟩ := hr
  induction h generalizing f root pos with
  | zero =>
    cases root with
    | index => exact ho.elim
    | leaf =>
      cases pos with
      | nil =>
        cases hblock
        exact hmem
      | cons => cases hblock
  | succ h ih =>
    cases root with
    | leaf => exact ho.elim
    | index keys children =>
      cases pos with
      | nil => cases hblock
      | cons i pos =>
        rw [blockAt] at hblock
        obtain ⟨c, hget, hblock⟩ := Option.bind_eq_some_iff.mp hblock
        have hrow : Row S (Ordered S h) f keys children := ho
        have hc := List.mem_of_getElem? hget
        obtain ⟨g, -, hgood⟩ := row_mem hrow hc
        exact List.mem_flatMap.mpr ⟨c, hc, ih hgood pos hblock⟩

end Records

/-- The links pass over a record: they lead from a node visible at the version to a
tombstone of a key that is live at the version, and on to a node with a payload whose
key is live at the version and not above `upper`. -/
structure Bypass (state : WeaverState K skipMap) (version : ℕ) (upper : K)
    (start tombstone beyond : WeaverNode K P) : Prop where
  visible : Visible state version start
  leads : LeadsOn state.ridges start tombstone
  deleted : tombstone.node.payload = none
  live : ∃ node, Visible state version node ∧ node.key = tombstone.key
  leadsOn : LeadsOn state.ridges tombstone beyond
  payload : beyond.node.payload.isSome = true
  returned : ∃ node, Visible state version node ∧ node.key = beyond.key
  le_upper : beyond.key ≤ upper

section Weaves
variable {cfg : WeaverConfig K skipMap} {log : Log K P} {H v : ℕ} {state : WeaverState K skipMap}

/-- A visible node stands for a live key. -/
theorem visible_live (hw : Weaving cfg log H state) {weaverNode : WeaverNode K P}
    (hvis : Visible state v weaverNode) :
    Since log v weaverNode ∧ weaverNode.node.payload.isSome = true ∧
      ∃ p, liveAt log weaverNode.key v = some p := by
  obtain ⟨record, hin, hfind⟩ := hvis
  have hr := told_of_shaped hw.refines.shaped
    (contents_of_inTree (ordered_of_shaped hw.refines.shaped) hin)
  obtain ⟨hkey, hnew, hpayload⟩ := findWeaverNode_newestAt hr hfind
  refine ⟨⟨v, le_rfl, hnew⟩, hpayload, ?_⟩
  obtain ⟨found, hfound, hsome⟩ := findWeaverNode_found hr v
  cases hfound.symm.trans hfind
  rw [hkey]
  exact Option.isSome_iff_exists.mp hsome.symm

theorem visible_of_live (hw : Weaving cfg log H state) {key : K} {p : P}
    (hlive : liveAt log key v = some p) : ∃ node, Visible state v node ∧ node.key = key := by
  obtain ⟨s, hs, rfl⟩ := mem_of_liveAt hlive
  obtain ⟨record, hmem, hkey⟩ := covers_of_shaped hw.refines.shaped (mem_upTo.mp hs).1
    (cfg.keys.mem_full s.key)
  have hr := told_of_shaped hw.refines.shaped hmem
  obtain ⟨found, hfound, hsome⟩ := findWeaverNode_found hr v
  rw [hkey, hlive] at hsome
  obtain ⟨node, rfl⟩ := Option.isSome_iff_exists.mp hsome
  obtain ⟨heq, -, -⟩ := findWeaverNode_newestAt hr hfound
  exact ⟨node, ⟨record, inTree_of_contents hmem, hfound⟩, heq.trans hkey⟩

/-- A key has one visible node. -/
theorem visible_unique (hw : Weaving cfg log H state) {a b : WeaverNode K P}
    (ha : Visible state v a) (hb : Visible state v b) (hkey : a.key = b.key) : a = b := by
  obtain ⟨r, hr, hfind⟩ := ha
  obtain ⟨r', hr', hfind'⟩ := hb
  have ho := ordered_of_shaped hw.refines.shaped
  have hmem := contents_of_inTree ho hr
  have hmem' := contents_of_inTree ho hr'
  obtain ⟨heq, -, -⟩ := findWeaverNode_newestAt (told_of_shaped hw.refines.shaped hmem) hfind
  obtain ⟨heq', -, -⟩ := findWeaverNode_newestAt (told_of_shaped hw.refines.shaped hmem') hfind'
  obtain rfl := sorted_unique ho.sorted hmem hmem' (heq.symm.trans (hkey.trans heq'))
  cases hfind.symm.trans hfind'
  rfl

/-! ## One leaf -/

theorem firstWeaverNode_spec {records : List (WeaverRecord K skipMap)}
    (hr : ∀ r ∈ records, Weaves (storyOf log r.key) r.versionIndex) (v : ℕ) :
    (firstWeaverNode v records = .ok none ∧ ∀ r ∈ records, liveAt log r.key v = none) ∨
    ∃ before record after weaverNode, records = before ++ record :: after ∧
      firstWeaverNode v records = .ok (some weaverNode) ∧
      findWeaverNode record v = .ok (some weaverNode) ∧
      ∀ r ∈ before, liveAt log r.key v = none := by
  induction records with
  | nil => exact .inl ⟨rfl, by simp⟩
  | cons record records ih =>
    obtain ⟨found, hfound, hsome⟩ := findWeaverNode_found (hr record List.mem_cons_self) v
    cases found with
    | some weaverNode =>
      refine .inr ⟨[], record, records, weaverNode, rfl, ?_, hfound, by simp⟩
      simp only [firstWeaverNode, hfound, ok_bind]
      rfl
    | none =>
      have hdead : liveAt log record.key v = none := by
        rw [← Option.isNone_iff_eq_none, ← Option.not_isSome, ← hsome]
        rfl
      have hstep : firstWeaverNode v (record :: records) = firstWeaverNode v records := by
        simp only [firstWeaverNode, hfound, ok_bind]
      rw [hstep]
      rcases ih fun r hmem => hr r (List.mem_cons_of_mem _ hmem) with ⟨hnone, hall⟩ |
        ⟨before, r, after, weaverNode, rfl, hfirst, hfind, hall⟩
      · exact .inl ⟨hnone, by simpa [hdead] using hall⟩
      · exact .inr ⟨record :: before, r, after, weaverNode, rfl, hfirst, hfind,
          by simpa [hdead] using hall⟩

/-- What a turn at the leaf with fence `g` does: nothing in the leaf is visible, or it
follows the links of the first visible node. -/
def Turns (cfg : WeaverConfig K skipMap) (log : Log K P) (state : WeaverState K skipMap) (v : ℕ)
    (g : Interval K) (lower upper : K) (result : Except Fault (List (K × P) × K)) : Prop :=
  (result = .ok ([], cfg.keys.incKey g.upper) ∧
    ∀ k, lower ≤ k → k ≤ upper → k ≤ g.upper → liveAt log k v = none) ∨
  ∃ start results last, result = .ok (results, cfg.keys.incKey last) ∧ Visible state v start ∧
    lower ≤ start.key ∧ (∀ k, lower ≤ k → k < start.key → liveAt log k v = none) ∧
    Follows log state.ridges v upper start results ∧ (∃ p, (last, p) ∈ results) ∧
    ∀ x ∈ results, x.1 ≤ last

theorem Follows.last {ridges : Ridges K P} {upper : K} {start : WeaverNode K P}
    {results : List (K × P)} (hf : Follows log ridges v upper start results) {k : K} {p : P}
    (hmem : (k, p) ∈ results) :
    ∃ last q, results.getLast? = some (last, q) ∧ (last, q) ∈ results ∧
      ∀ x ∈ results, x.1 ≤ last := by
  have hne := List.ne_nil_of_mem hmem
  refine ⟨_, _, List.getLast?_eq_some_getLast hne, List.getLast_mem hne, fun x hx => ?_⟩
  have hsplit := List.dropLast_concat_getLast hne
  have hsorted := hf.sorted
  rw [← hsplit] at hx hsorted
  rcases List.mem_append.mp hx with hx | hx
  · exact ((List.pairwise_append.mp hsorted).2.2 x hx _ (List.mem_singleton.mpr rfl)).le
  · rw [List.mem_singleton.mp hx]

theorem ahead_le (log : Log K P) (key : K) : ahead log key ≤ log.length := by
  have hle := List.length_filter_le (fun k => decide (key < k)) (log.map Stamp.key)
  rwa [List.length_map] at hle

theorem weaverLeaf_turns (hw : Weaving cfg log H state) {g : Interval K}
    {records : List (WeaverRecord K skipMap)} {lower upper : K} {fuel : ℕ}
    (hleaf : Visited cfg.tree H state.tree.root 0 (g, .leaf records)) (hle : lower ≤ upper)
    (hlow : lower ∈ g) (hfuel : log.length + 1 ≤ fuel) :
    Turns cfg log state v g lower upper
      (weaverLeaf cfg state.ridges ⟨lower, upper⟩ v fuel g records) := by
  obtain ⟨hsorted, hinside⟩ := hleaf.ordered
  have hroot : ∀ r ∈ records, r ∈ contents H state.tree.root := fun r hr =>
    ((hleaf.records r).mp hr).1
  have htold : ∀ r ∈ records, Weaves (storyOf log r.key) r.versionIndex := fun r hr =>
    told_of_shaped hw.refines.shaped (hroot r hr)
  -- a live key of the fence has a record in the leaf
  have hrecord : ∀ k p, lower ≤ k → k ≤ g.upper → liveAt log k v = some p →
      ∃ r ∈ records, r.key = k := by
    intro k p hk hup hlive
    obtain ⟨s, hs, rfl⟩ := mem_of_liveAt hlive
    obtain ⟨r, hr, hkey⟩ := covers_of_shaped hw.refines.shaped (mem_upTo.mp hs).1
      (cfg.keys.mem_full s.key)
    exact ⟨r, (hleaf.records r).mpr ⟨hr, hkey ▸ ⟨hlow.1.trans hk, hup⟩⟩, hkey⟩
  set start := partitionPoint (fun r : WeaverRecord K skipMap => decide (r.key < lower))
    records with hstart
  set stop := partitionPoint (fun r : WeaverRecord K skipMap => decide (r.key ≤ upper))
    records with hstop
  have hmono : start ≤ stop := by
    refine partitionPoint_mono fun r hr => ?_
    simp only [decide_eq_true_eq] at hr ⊢
    exact hr.le.trans hle
  have hslice : ∀ r, r ∈ (records.take stop).drop start ↔
      r ∈ records ∧ lower ≤ r.key ∧ r.key ≤ upper := by
    intro r
    rw [hsorted.mem_slice (fun a b hab hb => by simpa using hab.trans (by simpa using hb))
      (fun a b hab hb => by simpa using hab.le.trans (by simpa using hb))]
    simp
  have hskip : ((records.take stop).drop start).dropWhile
      (fun r => !(⟨lower, upper⟩ : Interval K).contains r.key) =
        (records.take stop).drop start := by
    cases hlist : (records.take stop).drop start with
    | nil => rfl
    | cons r rest =>
      have hin := ((hslice r).mp (hlist ▸ List.mem_cons_self)).2
      rw [List.dropWhile_cons_of_neg]
      have hcontains : (⟨lower, upper⟩ : Interval K).contains r.key = true :=
        Interval.contains_eq_true.mpr hin
      simpa using hcontains
  have hsub : ((records.take stop).drop start).Sublist records :=
    (List.drop_sublist _ _).trans (List.take_sublist _ _)
  rcases firstWeaverNode_spec (fun r hr => htold r (hsub.subset hr)) v with ⟨hnone, hall⟩ |
    ⟨before, record, after, weaverNode, hsplit, hfirst, hfind, hall⟩
  · refine .inl ⟨?_, fun k hk hup hg => ?_⟩
    · simp only [weaverLeaf, ← hstart, ← hstop, if_pos hmono, hskip, hnone, ok_bind]
      rfl
    · by_contra hsome
      obtain ⟨p, hlive⟩ := Option.ne_none_iff_exists'.mp hsome
      obtain ⟨r, hr, rfl⟩ := hrecord k p hk hg hlive
      rw [hall r ((hslice r).mpr ⟨hr, hk, hup⟩)] at hlive
      cases hlive
  · have hmem : record ∈ (records.take stop).drop start := by
      rw [hsplit]
      exact List.mem_append_right _ List.mem_cons_self
    obtain ⟨hr, hrlow, hrup⟩ := (hslice record).mp hmem
    obtain ⟨hkey, -, -⟩ := findWeaverNode_newestAt (htold record hr) hfind
    have hvis : Visible state v weaverNode :=
      ⟨record, inTree_of_contents (hroot record hr), hfind⟩
    obtain ⟨hsince, hpayload, p, hlive⟩ := visible_live hw hvis
    obtain ⟨results, hrun, hf⟩ := ridgyMatches_follows hw.linking hsince (hkey ▸ hrlow)
      ((Nat.succ_le_succ (ahead_le log weaverNode.key)).trans hfuel)
    have hself : (weaverNode.key, p) ∈ results :=
      (hf.mem _ _).mpr ⟨hkey ▸ hrup, hlive, weaverNode, .refl, hpayload, rfl⟩
    obtain ⟨last, q, hgetLast, hlast, hgreatest⟩ := hf.last hself
    refine .inr ⟨weaverNode, results, last, ?_, hvis, hkey ▸ hrlow, fun k hk hlt => ?_, hf,
      ⟨q, hlast⟩, hgreatest⟩
    · simp only [weaverLeaf, ← hstart, ← hstop, if_pos hmono, hskip, hfirst, ok_bind, hrun,
        hgetLast]
      rfl
    · rw [hkey] at hlt
      by_contra hsome
      obtain ⟨p, hlive⟩ := Option.ne_none_iff_exists'.mp hsome
      obtain ⟨r, hr', rfl⟩ := hrecord k p hk (hlt.le.trans (hinside record hr).2) hlive
      have hin := (hslice r).mpr ⟨hr', hk, hlt.le.trans hrup⟩
      have hslicesorted := hsorted.sublist hsub
      rw [hsplit] at hin hslicesorted
      rcases List.mem_append.mp hin with hin | hin
      · rw [hall r hin] at hlive
        cases hlive
      · -- the records behind the first visible one have greater keys
        have hcons := (List.pairwise_append.mp hslicesorted).2.1
        rcases List.mem_cons.mp hin with rfl | hin
        · exact lt_irrefl _ hlt
        · exact lt_asymm hlt ((List.pairwise_cons.mp hcons).1 r hin)

/-! ## The loop -/

/-- One turn of the loop: to the leaf of the lower border, and on behind it. -/
theorem weaverScanLoop_turn (hw : Weaving cfg log H state)
    {path : List (PathEntry K (VersionIndex skipMap))} {i fuel : ℕ} {lower upper : K}
    (hp : Path cfg.tree H state.tree.root path) (hi : i < path.length ∨ path = [])
    (hle : lower ≤ upper) (hfuel : H + log.length + 1 ≤ fuel) :
    ∃ init g result, Path cfg.tree H state.tree.root init ∧
      (∃ node, Visited cfg.tree H state.tree.root 0 (g, node)) ∧ lower ∈ g ∧
      Turns cfg log state v g lower upper result ∧
      weaverScanLoop cfg state v (fuel + 1) path i ⟨lower, upper⟩ = (do
        let (results, lower') ← result
        if upper < lower' ∨ lower' ≤ lower then return results
        else return results ++
          (← weaverScanLoop cfg state v fuel init (init.length - 1) ⟨lower', upper⟩)) := by
  obtain ⟨init, g, records, hnext, hp', hlow, hleaf⟩ :=
    nextLeafPage_finds (ordered_of_shaped hw.refines.shaped) hp hi
      (show H + 1 ≤ fuel by omega) lower
  refine ⟨init, g, _, hp', ⟨_, hleaf⟩, hlow,
    weaverLeaf_turns hw hleaf hle hlow (show log.length + 1 ≤ fuel by omega), ?_⟩
  have hlast : (init ++ [(g, Node.leaf records)]).getLast? = some (g, .leaf records) := by simp
  have hparent : (init ++ [(g, Node.leaf records)]).length - 2 = init.length - 1 := by simp
  rw [weaverScanLoop, hnext, ok_bind]
  simp only [hlast, hparent, List.dropLast_concat]

/-- A scan that lists the live keys between two borders, unless the links pass one over. -/
structure Scanned (log : Log K P) (v : ℕ) (bypassed : Prop) (lower upper : K)
    (results : List (K × P)) : Prop where
  sorted : results.Pairwise (fun a b => a.1 < b.1)
  sound : ∀ k p, (k, p) ∈ results → (lower ≤ k ∧ k ≤ upper) ∧ liveAt log k v = some p
  complete : ∀ k p, lower ≤ k → k ≤ upper → liveAt log k v = some p →
    (k, p) ∈ results ∨ bypassed

theorem Scanned.append {bypassed : Prop} {lower upper m u : K} {first rest : List (K × P)}
    (hfirst : Scanned log v bypassed lower u first) (hrest : Scanned log v bypassed m upper rest)
    (hum : ∀ k, k ≤ u ↔ k < m) (hlow : lower ≤ m) (hup : m ≤ upper) :
    Scanned log v bypassed lower upper (first ++ rest) := by
  refine ⟨List.pairwise_append.mpr ⟨hfirst.sorted, hrest.sorted, ?_⟩, fun k p hmem => ?_,
    fun k p hk hk' hlive => ?_⟩
  · rintro ⟨k, p⟩ hk ⟨k', p'⟩ hk'
    exact ((hum k).mp (hfirst.sound k p hk).1.2).trans_le (hrest.sound k' p' hk').1.1
  · rcases List.mem_append.mp hmem with hmem | hmem
    · obtain ⟨⟨hl, hu⟩, hlive⟩ := hfirst.sound k p hmem
      exact ⟨⟨hl, ((hum k).mp hu).le.trans hup⟩, hlive⟩
    · obtain ⟨⟨hl, hu⟩, hlive⟩ := hrest.sound k p hmem
      exact ⟨⟨hlow.trans hl, hu⟩, hlive⟩
  · rw [List.mem_append]
    rcases lt_or_ge k m with hlt | hge
    · exact (hfirst.complete k p hk ((hum k).mpr hlt) hlive).imp_left .inl
    · exact (hrest.complete k p hge hk' hlive).imp_left .inr

/-- The keys of the turns still to come. -/
def pending (keys : List K) (lower : K) : ℕ := (keys.filter fun k => decide (lower ≤ k)).length

theorem pending_le (keys : List K) (lower : K) : pending keys lower ≤ keys.length :=
  List.length_filter_le _ _

theorem pending_lt {keys : List K} {lower lower' k : K} (hk : k ∈ keys) (hle : lower ≤ k)
    (hlt : k < lower') : pending keys lower' < pending keys lower := by
  have hsub : keys.filter (fun x => decide (lower' ≤ x)) =
      (keys.filter (fun x => decide (lower ≤ x))).filter (fun x => decide (lower' ≤ x)) := by
    rw [List.filter_filter]
    refine List.filter_congr fun x _ => ?_
    by_cases hx : lower' ≤ x
    · simp [hx, (hle.trans hlt.le).trans hx]
    · simp [hx]
  unfold pending
  rw [hsub]
  refine List.length_filter_lt_length_iff_exists.mpr ⟨k, ?_, by simpa using hlt⟩
  simpa using ⟨hk, hle⟩

/-- The last keys of the leaves and the keys of the log. -/
def borders (cfg : WeaverConfig K skipMap) (log : Log K P) (H : ℕ)
    (root : Node K (VersionIndex skipMap)) : List K :=
  (separators H root).map cfg.keys.decKey ++ log.map Stamp.key

/-- Up to the last key that the links yield, a turn lists the live keys. -/
theorem follows_scanned (hw : Weaving cfg log H state) {start : WeaverNode K P}
    {results : List (K × P)} {lower upper last : K} (hvis : Visible state v start)
    (hlow : lower ≤ start.key) (hbefore : ∀ k, lower ≤ k → k < start.key → liveAt log k v = none)
    (hf : Follows log state.ridges v upper start results) (hlast : ∃ p, (last, p) ∈ results)
    (hgreatest : ∀ x ∈ results, x.1 ≤ last) :
    Scanned log v (∃ start tombstone beyond, Bypass state v upper start tombstone beyond) lower
      last results := by
  obtain ⟨hsince, -, -⟩ := visible_live hw hvis
  obtain ⟨p', hlast⟩ := hlast
  obtain ⟨hup, hlastLive, b, hreach, hpayload, rfl⟩ := (hf.mem _ _).mp hlast
  refine ⟨hf.sorted, fun k p hmem => ?_, fun k p hk hk' hlive => ?_⟩
  · obtain ⟨-, hlive, c, hreach', -, rfl⟩ := (hf.mem k p).mp hmem
    exact ⟨⟨hlow.trans (hsince.reaches hw.linking hreach').2, hgreatest _ hmem⟩, hlive⟩
  · have hstart : start.key ≤ k := by
      by_contra hlt
      rw [hbefore k hk (not_le.mp hlt)] at hlive
      cases hlive
    obtain ⟨m, rfl, hfrom, hto⟩ := hsince.meets hw.linking hreach hstart hk' hlive
    cases hdeleted : m.node.payload with
    | some q =>
      refine .inl ((hf.mem _ _).mpr ⟨hk'.trans hup, hlive, m, hfrom, ?_, rfl⟩)
      rw [hdeleted]
      rfl
    | none =>
      exact .inr ⟨start, m, b, hvis, hfrom, hdeleted, visible_of_live hw hlive, hto, hpayload,
        visible_of_live hw hlastLive, hup⟩

theorem le_iff_lt_inc {u : K} (hmax : u < cfg.keys.maxKey) (k : K) :
    k ≤ u ↔ k < cfg.keys.incKey u :=
  not_lt.symm.trans ((cfg.keys.inc_le u hmax k).not.symm.trans not_le)

theorem weaverScanLoop_scanned (hw : Weaving cfg log H state)
    {path : List (PathEntry K (VersionIndex skipMap))} {i fuel : ℕ} {lower upper : K}
    (hp : Path cfg.tree H state.tree.root path) (hi : i < path.length ∨ path = [])
    (hle : lower ≤ upper) (hmax : upper < cfg.keys.maxKey)
    (hfuel : pending (borders cfg log H state.tree.root) lower + H + log.length + 2 ≤ fuel) :
    ∃ results, weaverScanLoop cfg state v fuel path i ⟨lower, upper⟩ = .ok results ∧
      Scanned log v (∃ start tombstone beyond, Bypass state v upper start tombstone beyond) lower
        upper results := by
  induction hn : pending (borders cfg log H state.tree.root) lower using Nat.strong_induction_on
    generalizing path i lower fuel with
  | _ n ih =>
    obtain ⟨fuel, rfl⟩ : ∃ m, fuel = m + 1 := ⟨fuel - 1, by omega⟩
    obtain ⟨init, g, result, hp', ⟨node, hleaf⟩, hlow, hturn, hrun⟩ :=
      weaverScanLoop_turn (v := v) hw hp hi hle (show H + log.length + 1 ≤ fuel by omega)
    have hi' : init.length - 1 < init.length ∨ init = [] := by
      cases init with
      | nil => exact .inr rfl
      | cons => exact .inl (by simp)
    -- every turn lists the keys up to some `u`
    obtain ⟨first, u, rfl, hlowu, hu, hfirst⟩ : ∃ first u, result = .ok (first, cfg.keys.incKey u) ∧
        lower ≤ u ∧ (u ∈ borders cfg log H state.tree.root ∨ u = cfg.keys.maxKey) ∧
        Scanned log v (∃ start tombstone beyond, Bypass state v upper start tombstone beyond)
          lower (min u upper) first := by
      rcases hturn with ⟨hresult, hdead⟩ |
        ⟨start, first, last, hresult, hvis, hstart, hbefore, hf, hlast, hgreatest⟩
      · refine ⟨[], g.upper, hresult, hlow.2, ?_, .nil, by simp, fun k p hk hk' hlive => ?_⟩
        · rcases hleaf.ends with hmax | ⟨m, hm, -, hdec⟩
          · exact .inr hmax
          · exact .inl (List.mem_append_left _ (List.mem_map.mpr ⟨m, hm, hdec.symm⟩))
        · obtain ⟨hg, hup⟩ := le_min_iff.mp hk'
          rw [hdead k hk hup hg] at hlive
          cases hlive
      · have hscanned := follows_scanned hw hvis hstart hbefore hf hlast hgreatest
        obtain ⟨p, hlast⟩ := hlast
        obtain ⟨⟨hlowlast, -⟩, hlive⟩ := hscanned.sound last p hlast
        obtain ⟨s, hs, rfl⟩ := mem_of_liveAt hlive
        refine ⟨first, s.key, hresult, hlowlast, .inl ?_, ?_⟩
        · exact List.mem_append_right _ (List.mem_map.mpr ⟨s, (mem_upTo.mp hs).1, rfl⟩)
        · rwa [min_eq_left ((hf.mem _ _).mp hlast).1]
    rw [hrun, ok_bind]
    rcases (cfg.keys.le_max u).eq_or_lt with rfl | humax
    · have hpast : upper < cfg.keys.incKey cfg.keys.maxKey := by rwa [cfg.keys.inc_max]
      refine ⟨first, if_pos (.inl hpast), ?_⟩
      rwa [min_eq_right hmax.le] at hfirst
    · have hum := le_iff_lt_inc humax
      by_cases hpast : upper < cfg.keys.incKey u
      · refine ⟨first, if_pos (.inl hpast), ?_⟩
        rwa [min_eq_right ((hum upper).mpr hpast)] at hfirst
      · have hup : cfg.keys.incKey u ≤ upper := not_lt.mp hpast
        have hlt : lower < cfg.keys.incKey u := (hum lower).mp hlowu
        have hmem := hu.resolve_right humax.ne
        have hless := pending_lt hmem hlowu (cfg.keys.lt_inc humax)
        have hless' : pending (borders cfg log H state.tree.root) (cfg.keys.incKey u) +
            H + log.length + 2 ≤ fuel := by omega
        obtain ⟨rest, hrest, hscanned⟩ := ih _ (hn ▸ hless) hp' hi' hup hless' rfl
        refine ⟨first ++ rest, ?_, ?_⟩
        · have hnot : ¬ (upper < cfg.keys.incKey u ∨ cfg.keys.incKey u ≤ lower) :=
            not_or.mpr ⟨hpast, not_le.mpr hlt⟩
          simp only [if_neg hnot, hrest, ok_bind]
          rfl
        · rw [min_eq_left ((cfg.keys.lt_inc humax).le.trans hup)] at hfirst
          exact hfirst.append hscanned hum hlt.le hup

/-! ## Scans and point reads -/

/-- From some number of steps on the scan ends, and it returns the records that point
reads at the same version find for the keys of the interval, in the order of the keys. -/
def ScansAsPoints (cfg : WeaverConfig K skipMap) (state : WeaverState K skipMap) (version : ℕ)
    (lower upper : K) : Prop :=
  ∃ steps, ∀ fuel, steps ≤ fuel → ∃ results,
    weaverScanDispatch cfg fuel state ⟨lower, upper⟩ version = .ok results ∧
    results.Pairwise (fun a b => a.1 < b.1) ∧
    ∀ k p, (k, p) ∈ results ↔ (lower ≤ k ∧ k ≤ upper) ∧
      cfg.tree.dispatchPoint fuel state.tree k version = .ok (some (k, p))

theorem point_iff (hw : Weaving cfg log H state) (hv : v < 2 ^ 63) {fuel : ℕ}
    (hfuel : H + 1 ≤ fuel) (k : K) (p : P) :
    cfg.tree.dispatchPoint fuel state.tree k v = .ok (some (k, p)) ↔ liveAt log k v = some p := by
  rw [dispatchPoint_refines weaves_keep hw.refines hfuel k hv]
  cases liveAt log k v <;> simp

/-- A scan is exact when no links pass a record over. -/
theorem scans_of_no_bypass (hw : Weaving cfg log H state) (hv : v < 2 ^ 63) {lower upper : K}
    (hle : lower ≤ upper) (hmax : upper < cfg.keys.maxKey)
    (hnone : ¬ ∃ start tombstone beyond, Bypass state v upper start tombstone beyond) :
    ScansAsPoints cfg state v lower upper := by
  refine ⟨pending (borders cfg log H state.tree.root) lower + H + log.length + 2,
    fun fuel hfuel => ?_⟩
  obtain ⟨results, hrun, hs⟩ :=
    weaverScanLoop_scanned hw Path.nil (.inr rfl) hle hmax hfuel (i := 0)
  refine ⟨results, hrun, hs.sorted, fun k p => ?_⟩
  rw [point_iff hw hv (show H + 1 ≤ fuel by omega)]
  exact ⟨hs.sound k p, fun ⟨⟨hl, hu⟩, hlive⟩ => (hs.complete k p hl hu hlive).resolve_right hnone⟩

/-- The turn at the key of a visible node follows the links of that node. -/
theorem turns_from_visible (hw : Weaving cfg log H state) {g : Interval K} {upper : K}
    {start : WeaverNode K P} (hvis : Visible state v start) (hle : start.key ≤ upper)
    (hg : start.key ≤ g.upper) {result : Except Fault (List (K × P) × K)}
    (hturn : Turns cfg log state v g start.key upper result) :
    ∃ results last, result = .ok (results, cfg.keys.incKey last) ∧
      Follows log state.ridges v upper start results ∧ (∃ p, (last, p) ∈ results) ∧
      ∀ x ∈ results, x.1 ≤ last := by
  obtain ⟨-, -, p, hlive⟩ := visible_live hw hvis
  rcases hturn with ⟨-, hdead⟩ |
    ⟨start', results, last, hresult, hvis', hlow, hbefore, hf, hlast, hgreatest⟩
  · rw [hdead _ le_rfl hle hg] at hlive
    cases hlive
  · obtain rfl : start = start' := by
      refine visible_unique hw hvis hvis' (le_antisymm hlow ?_)
      by_contra hlt
      rw [hbefore _ le_rfl (not_le.mp hlt)] at hlive
      cases hlive
    exact ⟨results, last, hresult, hf, hlast, hgreatest⟩

/-- The links do not yield the record that they pass over, but one behind it. -/
theorem follows_bypass (hw : Weaving cfg log H state) {upper : K}
    {start tombstone beyond : WeaverNode K P} {results : List (K × P)}
    (hf : Follows log state.ridges v upper start results)
    (hb : Bypass state v upper start tombstone beyond) :
    (∀ q, (tombstone.key, q) ∉ results) ∧ ∃ p, (beyond.key, p) ∈ results := by
  obtain ⟨hsince, -, -⟩ := visible_live hw hb.visible
  constructor
  · intro q hin
    obtain ⟨-, -, b, hreach, hsome, hkey⟩ := (hf.mem _ _).mp hin
    obtain rfl := hsince.unique hw.linking hreach hb.leads hkey
    rw [hb.deleted] at hsome
    cases hsome
  · obtain ⟨node, hvis, hkey⟩ := hb.returned
    obtain ⟨-, -, p, hlive⟩ := visible_live hw hvis
    exact ⟨p, (hf.mem _ _).mpr
      ⟨hb.le_upper, hkey ▸ hlive, beyond, hb.leads.trans hb.leadsOn, hb.payload, rfl⟩⟩

/-- A scan that starts where the links pass a record over misses the record. -/
theorem not_scans_of_bypass (hw : Weaving cfg log H state) (hv : v < 2 ^ 63) {upper : K}
    (hmax : upper < cfg.keys.maxKey) {start tombstone beyond : WeaverNode K P}
    (hb : Bypass state v upper start tombstone beyond) :
    start.key ≤ upper ∧ ¬ ScansAsPoints cfg state v start.key upper := by
  obtain ⟨hsince, -, -⟩ := visible_live hw hb.visible
  obtain ⟨hsince', hkey⟩ := hsince.reaches hw.linking hb.leads
  have hkey' := (hsince'.reaches hw.linking hb.leadsOn).2
  have hle : start.key ≤ upper := (hkey.trans hkey').trans hb.le_upper
  refine ⟨hle, fun ⟨steps, hscans⟩ => ?_⟩
  have hpending := fun lower => pending_le (borders cfg log H state.tree.root) lower
  obtain ⟨fuel, hsteps, hfuel⟩ : ∃ fuel, steps ≤ fuel + 1 ∧
      (borders cfg log H state.tree.root).length + H + log.length + 2 ≤ fuel :=
    ⟨steps + (borders cfg log H state.tree.root).length + H + log.length + 2, by omega, by omega⟩
  obtain ⟨results, hscan, -, hmem⟩ := hscans (fuel + 1) hsteps
  -- a point read finds the record that the links pass over
  obtain ⟨node, hvis, hnode⟩ := hb.live
  obtain ⟨-, -, q, hlive⟩ := visible_live hw hvis
  have hreturned : (tombstone.key, q) ∈ results :=
    (hmem _ _).mpr ⟨⟨hkey, hkey'.trans hb.le_upper⟩,
      (point_iff hw hv (show H + 1 ≤ fuel + 1 by omega) _ _).mpr (hnode ▸ hlive)⟩
  obtain ⟨init, g, result, hp, -, hlow, hturn, hrun⟩ := weaverScanLoop_turn (v := v) hw Path.nil
    (.inr rfl) hle (show H + log.length + 1 ≤ fuel by omega) (i := 0)
  obtain ⟨first, last, rfl, hf, ⟨p', hlast⟩, hgreatest⟩ :=
    turns_from_visible hw hb.visible hle hlow.2 hturn
  obtain ⟨hpassed, p, hbeyond⟩ := follows_bypass hw hf hb
  have hlastmax : last < cfg.keys.maxKey := ((hf.mem _ _).mp hlast).1.trans_lt hmax
  rw [weaverScanDispatch, hrun, ok_bind] at hscan
  dsimp only at hscan
  split at hscan
  · cases hscan
    exact hpassed q hreturned
  · next hgo =>
    obtain ⟨hup, -⟩ := not_or.mp hgo
    have hi : init.length - 1 < init.length ∨ init = [] := by
      cases init with
      | nil => exact .inr rfl
      | cons => exact .inl (by simp)
    obtain ⟨rest, hrest, hs⟩ := weaverScanLoop_scanned (v := v) hw hp hi (not_lt.mp hup) hmax
      (show _ ≤ fuel by have := hpending (cfg.keys.incKey last); omega)
    rw [hrest] at hscan
    cases hscan
    rcases List.mem_append.mp hreturned with hin | hin
    · exact hpassed q hin
    · -- the rest of the scan is behind the last key of the turn
      have hge := (hs.sound _ _ hin).1.1
      exact absurd ((le_iff_lt_inc hlastmax _).mp (hkey'.trans (hgreatest _ hbeyond)))
        (not_lt.mpr hge)

/-! ## Every history -/

/-- For all sizes and every history of one thread all of whose operations return, at every
version up to the newest: the scans up to a key all agree with the point reads exactly
when no links pass a record over on the way to a record that such a scan returns. -/
theorem weaver_scans_agree_iff {ops : List (CRUDOperation K P × Bool)} {fuel : ℕ}
    (hversions : ops.length < 2 ^ 63) (hfuel : 2 * ops.length + 3 ≤ fuel)
    {results : List CRUDOperationResult}
    (hrun : weaverRun cfg fuel newWeaver ops = .ok (state, results))
    (hv : v < state.tree.globalClock) {upper : K} (hmax : upper < cfg.keys.maxKey) :
    (∀ lower, lower ≤ upper → ScansAsPoints cfg state v lower upper) ↔
      ¬ ∃ start tombstone beyond, Bypass state v upper start tombstone beyond := by
  obtain ⟨h, hw, hclock⟩ := weaverRun_newWeaver hversions hfuel hrun
  have hv' : v < 2 ^ 63 := hv.trans_le hclock
  constructor
  · rintro hscans ⟨start, tombstone, beyond, hb⟩
    obtain ⟨hle, hnot⟩ := not_scans_of_bypass hw hv' hmax hb
    exact hnot (hscans start.key hle)
  · exact fun hnone lower hle => scans_of_no_bypass hw hv' hle hmax hnone

/-- No key is written again after its deletion. -/
def Final (log : Log K P) : Prop :=
  ∀ key w, (none, w) ∈ storyOf log key → ∀ x ∈ storyOf log key, x.2 ≤ w

/-- A tombstone has a link only when its key came back. -/
theorem no_bypass_of_final (hw : Weaving cfg log H state) (hfinal : Final log) {upper : K} :
    ¬ ∃ start tombstone beyond, Bypass state v upper start tombstone beyond := by
  rintro ⟨start, tombstone, beyond, hb⟩
  obtain ⟨hsince, -, -⟩ := visible_live hw hb.visible
  obtain ⟨t, -, hnew⟩ := (hsince.reaches hw.linking hb.leads).1
  rcases Relation.ReflTransGen.cases_head hb.leadsOn with rfl | ⟨next, hlead, -⟩
  · have hpayload := hb.payload
    rw [hb.deleted] at hpayload
    cases hpayload
  · obtain ⟨t', hset⟩ := hw.linking _ _ next hlead
    obtain ⟨payload, htold⟩ := hset.told
    obtain ⟨tail, htail⟩ := Chain.head hnew
    have hdead : (none, tombstone.node.insertVersion) ∈ storyOf log tombstone.key := by
      have hmem : tombstone.node.value ∈ storyOf (upTo log t) tombstone.key :=
        htail ▸ List.mem_cons_self
      rw [storyOf_upTo] at hmem
      rw [← hb.deleted]
      exact (List.mem_filter.mp hmem).1
    exact absurd (hfinal _ _ hdead _ htold) (not_le.mpr hset.later)

/-- In a history that inserts no deleted key again every scan agrees with the point reads. -/
theorem scans_agree_of_final {ops : List (CRUDOperation K P × Bool)} {fuel : ℕ}
    (hversions : ops.length < 2 ^ 63) (hfuel : 2 * ops.length + 3 ≤ fuel)
    {results : List CRUDOperationResult}
    (hrun : weaverRun cfg fuel newWeaver ops = .ok (state, results))
    (hfinal : Final (referenceRun startVersion [] (ops.map Prod.fst)).1)
    (hv : v < state.tree.globalClock) {lower upper : K} (hle : lower ≤ upper)
    (hmax : upper < cfg.keys.maxKey) : ScansAsPoints cfg state v lower upper := by
  obtain ⟨h, hw, hclock⟩ := weaverRun_newWeaver hversions hfuel hrun
  exact scans_of_no_bypass hw (hv.trans_le hclock) hle hmax (no_bypass_of_final hw hfinal)

end Weaves

/-! ## A key that is inserted again -/

/-- Key 2 is deleted, then key 1 is updated, then key 2 comes back. -/
def reinserted : List (CRUDOperation UInt64 ℕ × Bool) :=
  [(.insert 1 10, false), (.insert 2 20, false), (.insert 3 30, false), (.delete 2, false),
    (.update 1 11, false), (.insert 2 21, false)]

def deletedTwo : WeaverNode UInt64 ℕ := ⟨2, appendNext (FrugalList.new (some 20) 2) none 4⟩

def three : WeaverNode UInt64 ℕ := ⟨3, FrugalList.new (some 30) 3⟩

/-- The state after `reinserted`: the links lead from key 1 over the tombstone to key 3. -/
def woven : WeaverState UInt64 (sortedList (RecordInfo ℕ)) where
  tree := ⟨.leaf [⟨1, .vWeaver (appendNext (FrugalList.new (some 10) 1) (some 11) 5)⟩,
    ⟨2, .vWeaver (appendNext deletedTwo.node (some 21) 6)⟩, ⟨3, .vWeaver three.node⟩], 7⟩
  ridges := setRidge (setRidge (setRidge (fun _ _ => none) 2 2 three) 1 1 deletedTwo) 2 4 three

theorem run_reinserted : weaverRun weaverIndex 15 newWeaver reinserted = .ok (woven,
    [.inserted 1, .inserted 2, .inserted 3, .deleted 4, .updated 5, .inserted 6]) := rfl

theorem woven_inTree (record : WeaverRecord UInt64 (sortedList (RecordInfo ℕ))) :
    InTree woven.tree.root record ↔
      record = ⟨1, .vWeaver (appendNext (FrugalList.new (some 10) 1) (some 11) 5)⟩ ∨
      record = ⟨2, .vWeaver (appendNext deletedTwo.node (some 21) 6)⟩ ∨
      record = ⟨3, .vWeaver three.node⟩ := by
  constructor
  · rintro ⟨pos, records, hblock, hmem⟩
    cases pos with
    | nil =>
      cases hblock
      simpa using hmem
    | cons => cases hblock
  · intro hr
    exact ⟨[], _, rfl, by simpa using hr⟩

theorem woven_bypass :
    Bypass woven 3 3 ⟨1, FrugalList.new (some 10) 1⟩ deletedTwo three where
  visible := ⟨_, (woven_inTree _).mpr (.inl rfl), rfl⟩
  leads := .single rfl
  deleted := rfl
  live := ⟨⟨2, FrugalList.new (some 20) 2⟩, ⟨_, (woven_inTree _).mpr (.inr (.inl rfl)), rfl⟩, rfl⟩
  leadsOn := .single rfl
  payload := rfl
  returned := ⟨three, ⟨_, (woven_inTree _).mpr (.inr (.inr rfl)), rfl⟩, rfl⟩
  le_upper := le_rfl

/-- At the newest version no visible node has a link. -/
theorem woven_no_bypass : ¬ ∃ start tombstone beyond, Bypass woven 6 3 start tombstone beyond := by
  rintro ⟨start, tombstone, beyond, hb⟩
  obtain ⟨record, hin, hfind⟩ := hb.visible
  have hdeleted := hb.deleted
  rcases (woven_inTree record).mp hin with rfl | rfl | rfl <;>
  · cases hfind
    rcases Relation.ReflTransGen.cases_head hb.leads with rfl | ⟨next, hlead, -⟩
    · cases hdeleted
    · cases hlead

/-- The scan from key 1 to key 3 at version 3, when all three keys were live, misses key 2. -/
theorem scan_misses_reinserted : ∃ state results,
    weaverRun weaverIndex 15 newWeaver reinserted = .ok (state, results) ∧
      3 < state.tree.globalClock ∧ ¬ ScansAsPoints weaverIndex state 3 1 3 := by
  obtain ⟨-, -, h, hw⟩ := weaverRun_weaving weaving_newWeaver (show _ ≤ 15 by decide)
    (show _ ≤ 2 ^ 63 by decide) run_reinserted
  exact ⟨woven, _, run_reinserted, by decide,
    (not_scans_of_bypass hw (by decide) (by decide) woven_bypass).2⟩

theorem newest_scans_agree :
    weaverRun weaverIndex 15 newWeaver reinserted = .ok (woven,
      [.inserted 1, .inserted 2, .inserted 3, .deleted 4, .updated 5, .inserted 6]) ∧
    ∀ lower, lower ≤ 3 → ScansAsPoints weaverIndex woven 6 lower 3 :=
  ⟨run_reinserted, (weaver_scans_agree_iff (by decide) (by decide) run_reinserted (by decide)
    (by decide)).mpr woven_no_bypass⟩

end CMVBT.WeaverScan
