import CMVBT.WeaverTermination

/-!
# Where the key links lead

The link of a node is set once, when the next node of its key is written. It leads
to the node that was the newest one of the next key at that version, and no key
between the two had a node by then. All of this is said in terms of the log up to
the version that set the link, so later writes do not touch it.
-/
namespace CMVBT.WeaverLinks
open PageModel hiding Node startVersion
open FrugalList KeyInterval OrderedMap VersionChain ChainRefinement VersionedLog SeparatorRow
  BaselinePages BaselineTree BaselineInvariant BaselineContents BaselineDescent BaselineWrites
  BaselineStates WeaverTree WeaverSearch WeaverTermination

variable {K P : Type} [LinearOrder K] {skipMap : Mutable (RecordInfo P)}

/-! ## Nodes and their stories -/

section Nodes
variable {log : Log K P} {key : K} {v w t : ℕ} {head node : FrugalNode (Option P)}
  {story : Story P}

theorem storyOf_upTo (log : Log K P) (key : K) (v : ℕ) :
    storyOf (upTo log v) key = (storyOf log key).filter (fun x => decide (x.2 ≤ v)) := by
  induction log with
  | nil => rfl
  | cons s log ih =>
    have hrest : storyOf (log.filter fun s => decide (s.version ≤ v)) key =
        (storyOf log key).filter fun x => decide (x.2 ≤ v) := ih
    rw [storyOf_cons, upTo, List.filter_cons]
    by_cases hs : s.version ≤ v
    · rw [if_pos (by simpa using hs), storyOf_cons, hrest]
      split
      · rw [List.filter_cons_of_pos (by simpa using hs)]
      · rfl
    · rw [if_neg (by simpa using hs), hrest]
      split
      · rw [List.filter_cons_of_neg (by simpa using hs)]
      · rfl

/-- The node that a lookup finds heads the part of the list up to the version. -/
theorem chain_findFrom (hc : Chain head story) (hfind : findFrom head v = .ok (some node)) :
    Chain node (story.filter (fun x => decide (x.2 ≤ v))) := by
  induction hc with
  | sentinel p w =>
    by_cases hw : w ≤ v
    · simp only [findFrom, lt_irrefl, false_and, if_false, if_pos hw] at hfind
      cases hfind
      rw [List.filter_cons_of_pos (by simpa using hw)]
      exact .sentinel p w
    · simp only [findFrom, lt_irrefl, false_and, if_false, if_neg hw] at hfind
      cases hfind
  | @cons n r l l' p w lvl hn hr hsuf hnew hl ihn ihr =>
    by_cases hw : v < w
    · rw [List.filter_cons_of_neg (by simpa using hw)]
      by_cases hrv : v < r.insertVersion
      · simp only [findFrom, hl, hw, and_self, if_true, hrv] at hfind
        obtain ⟨pre, rfl⟩ := hsuf
        obtain ⟨tail, rfl⟩ := hr.head
        have hpre : pre.filter (fun x : Option P × ℕ => decide (x.2 ≤ v)) = [] := by
          refine List.filter_eq_nil_iff.mpr fun x hx => ?_
          have hlt := (List.pairwise_append.mp hn.descending).2.2 x hx r.value List.mem_cons_self
          simpa using hrv.trans hlt
        rw [List.filter_append, hpre]
        exact ihr hfind
      · simp only [findFrom, hl, hw, and_self, if_true, hrv, if_false] at hfind
        exact ihn hfind
    · have hle := not_lt.mp hw
      simp only [findFrom, hw, and_false, if_false, if_pos hle] at hfind
      cases hfind
      rw [List.filter_eq_self.mpr]
      · exact .cons hn hr hsuf hnew hl
      · intro x hx
        rcases List.mem_cons.mp hx with rfl | hx
        · simpa using hle
        · simpa using (hnew x hx).le.trans hle

/-- The node behind the newest one. -/
theorem chain_next {p : Option P} (hc : Chain head ((p, w) :: story)) :
    head.insertVersion = w ∧ ∀ next, head.next = some next → Chain next story := by
  cases hc with
  | sentinel => exact ⟨rfl, fun next h => by cases h⟩
  | cons hn =>
    refine ⟨rfl, fun next h => ?_⟩
    cases h
    exact hn

/-- The version of a node is the greatest of its story. -/
theorem chain_greatest (hc : Chain head story) : ∀ x ∈ story, x.2 ≤ head.insertVersion := by
  obtain ⟨rest, rfl⟩ := hc.head
  intro x hx
  rcases List.mem_cons.mp hx with rfl | hx
  · exact le_rfl
  · exact ((List.pairwise_cons.mp hc.descending).1 x hx).le

/-- The newest node of its key at version `t`. -/
def NewestAt (log : Log K P) (t : ℕ) (weaverNode : WeaverNode K P) : Prop :=
  Chain weaverNode.node (storyOf (upTo log t) weaverNode.key)

end Nodes

/-! ## Records of the tree -/

/-- The list of a record is a woven one and tells its story. -/
def Weaves (story : Story P) (index : VersionIndex skipMap) : Prop :=
  Tells story index ∧ Woven index

theorem weaves_keep : Keeps (listOps .vWeaver : IndexOps (VersionIndex skipMap) P) Weaves where
  new payload v hv := ⟨(lists_keep .vWeaver).new payload hv, woven_preserved.new payload v⟩
  push h hnew hv payload toss := by
    obtain ⟨i', hpush, htold⟩ := (lists_keep .vWeaver).push h.1 hnew hv payload toss
    exact ⟨i', hpush, htold, woven_preserved.push h.2 hpush⟩
  append h hlive hnew hv payload toss := by
    obtain ⟨i', happ, htold⟩ := (lists_keep .vWeaver).append h.1 hlive hnew hv payload toss
    exact ⟨i', happ, htold, woven_preserved.append h.2 happ⟩
  delete h hlive hnew hv toss := by
    obtain ⟨i', hdel, htold⟩ := (lists_keep .vWeaver).delete h.1 hlive hnew hv toss
    exact ⟨i', hdel, htold, woven_preserved.delete h.2 hdel⟩
  isLive h := (lists_keep .vWeaver).isLive h.1
  find h hv := (lists_keep .vWeaver).find h.1 hv

theorem weaves_chain {story : Story P} {index : VersionIndex skipMap} (h : Weaves story index) :
    ∃ head, index = .vWeaver head ∧ Chain head story := by
  obtain ⟨head, rfl, -⟩ := woven_head h.2
  have hholds : ChainHolds story head := h.1.2
  exact ⟨head, rfl, hholds.chain⟩

section Records
variable {log : Log K P} {v : ℕ} {record : WeaverRecord K skipMap}

/-- At the newest version every record has its head. -/
theorem findWeaver_newest (hr : Weaves (storyOf log record.key) record.versionIndex)
    (hb : Before log (v + 1)) :
    ∃ head, record.versionIndex = .vWeaver head ∧
      findWeaverNodeOrTombstone record v = .ok (some ⟨record.key, head⟩) ∧
      Chain head (storyOf log record.key) := by
  obtain ⟨head, hindex, hc⟩ := weaves_chain hr
  obtain ⟨tail, htail⟩ := hc.head
  have hle : head.insertVersion ≤ v :=
    Nat.le_of_lt_succ (storyOf_before hb head.value (by rw [htail]; exact List.mem_cons_self))
  refine ⟨head, hindex, ?_, hc⟩
  simp only [findWeaverNodeOrTombstone, hindex, findFrom_newest hle, ok_bind]
  rfl

/-- A record has a visible node when its key is live. -/
theorem findWeaverNode_found (hr : Weaves (storyOf log record.key) record.versionIndex) (v : ℕ) :
    ∃ found, findWeaverNode record v = .ok found ∧
      found.isSome = (liveAt log record.key v).isSome := by
  obtain ⟨head, hindex, hc⟩ := weaves_chain hr
  obtain ⟨res, hres, hval⟩ := hc.findFrom v
  refine ⟨(res.filter chainIsLive).map fun node => ⟨record.key, node⟩, ?_, ?_⟩
  · simp only [findWeaverNode, hindex, findChain, hres]
    rfl
  · rw [← liveAt_storyOf, Option.isSome_map, Option.isSome_map, Story.liveAt, ← hval]
    cases res with
    | none => rfl
    | some node =>
      obtain ⟨next, vRidgy, payload, version, level⟩ := node
      cases payload <;> rfl

/-- A visible node is the newest one at its version, and not a tombstone. -/
theorem findWeaverNode_newestAt (hr : Weaves (storyOf log record.key) record.versionIndex)
    {weaverNode : WeaverNode K P} (hfind : findWeaverNode record v = .ok (some weaverNode)) :
    weaverNode.key = record.key ∧ NewestAt log v weaverNode ∧
      weaverNode.node.payload.isSome = true := by
  obtain ⟨head, hindex, hc⟩ := weaves_chain hr
  simp only [findWeaverNode, hindex, findChain] at hfind
  obtain ⟨found, hfound, hdone⟩ := of_bind_ok hfind
  obtain ⟨node, hnode, hfilter⟩ := of_bind_ok hfound
  cases hfilter
  cases node with
  | none => cases hdone
  | some node =>
    cases hlive : chainIsLive node with
    | false =>
      simp only [Option.filter, hlive, Bool.false_eq_true, if_false] at hdone
      cases hdone
    | true =>
      simp only [Option.filter, hlive, if_true] at hdone
      cases hdone
      refine ⟨rfl, ?_, hlive⟩
      rw [NewestAt, storyOf_upTo]
      exact chain_findFrom hc hnode

end Records

/-! ## Links -/

/-- The link of a node was set at version `t`. -/
structure LinkSet (log : Log K P) (key : K) (version t : ℕ) (target : WeaverNode K P) : Prop where
  later : version < t
  told : ∃ payload, (payload, t) ∈ storyOf log key
  above : key < target.key
  newest : NewestAt log t target
  between : ∀ s ∈ upTo log t, key < s.key → target.key ≤ s.key

def Linking (log : Log K P) (ridges : Ridges K P) : Prop :=
  ∀ key version target, ridges key version = some target → ∃ t, LinkSet log key version t target

section Links
variable {log : Log K P} {clock : ℕ} {s : Stamp K P} {ridges : Ridges K P}

/-- A later change does not concern a link. -/
theorem LinkSet.cons {key : K} {version t : ℕ} {target : WeaverNode K P}
    (hl : LinkSet log key version t target) (hb : Before log s.version) :
    LinkSet (s :: log) key version t target := by
  obtain ⟨payload, htold⟩ := hl.told
  have hlog : upTo (s :: log) t = upTo log t := upTo_cons (storyOf_before hb _ htold)
  refine ⟨hl.later, ⟨payload, ?_⟩, hl.above, ?_, ?_⟩
  · rw [storyOf_cons]
    split
    · exact List.mem_cons_of_mem _ htold
    · exact htold
  · rw [NewestAt, hlog]
    exact hl.newest
  · rw [hlog]
    exact hl.between

theorem Linking.cons (hl : Linking log ridges) (hb : Before log s.version) :
    Linking (s :: log) ridges := by
  intro key version target hget
  obtain ⟨t, hset⟩ := hl key version target hget
  exact ⟨t, hset.cons hb⟩

/-- What a search for the neighbour of a key may find. -/
def Neighbour (log : Log K P) (key : K) (found : Option (WeaverNode K P)) : Prop :=
  ∀ target, found = some target → key < target.key ∧
    Chain target.node (storyOf log target.key) ∧ ∀ s ∈ log, key < s.key → target.key ≤ s.key

/-- The link that the write of `key` at `v` sets in the node behind its own. -/
theorem Linking.set {key : K} {v version : ℕ} {target : WeaverNode K P} (hl : Linking log ridges)
    (hb : Before log (v + 1)) (hnew : ∃ payload, (payload, v) ∈ storyOf log key)
    (hlater : version < v) (hn : Neighbour log key (some target)) :
    Linking log (setRidge ridges key version target) := by
  intro key' version' target' hget
  by_cases hhere : key' = key ∧ version' = version
  · obtain ⟨rfl, rfl⟩ := hhere
    rw [setRidge, if_pos ⟨rfl, rfl⟩] at hget
    cases hget
    obtain ⟨habove, hchain, hbetween⟩ := hn target rfl
    refine ⟨v, hlater, hnew, habove, ?_, ?_⟩
    · rw [NewestAt, upTo_of_before hb]
      exact hchain
    · rw [upTo_of_before hb]
      exact hbetween
  · rw [setRidge, if_neg hhere] at hget
    exact hl key' version' target' hget

end Links

/-! ## The callback -/

section Callback
variable {cfg : WeaverConfig K skipMap} {log : Log K P} {h fuel v : ℕ} {f g : Interval K} {key : K}
  {root : Node K (VersionIndex skipMap)} {records : List (WeaverRecord K skipMap)}
  {guard : Position} {held : HeldLatch} {ridges ridges' : Ridges K P}

/-- The first record behind a key, in a leaf whose fence reaches down to the key. -/
theorem neighbour_of_record (hl : LeafGood cfg.tree Weaves log g records) (hb : Before log (v + 1))
    {record : WeaverRecord K skipMap} (hr : record ∈ records) (habove : key < record.key)
    (hlow : ∀ k, key < k → g.lower ≤ k) (hfirst : ∀ a ∈ records, key < a.key → record.key ≤ a.key) :
    ∃ found, findWeaverNodeOrTombstone record v = .ok found ∧ Neighbour log key found := by
  obtain ⟨head, -, hfind, hc⟩ := findWeaver_newest (hl.told record hr) hb
  refine ⟨_, hfind, fun target htarget => ?_⟩
  cases htarget
  refine ⟨habove, hc, fun s hs hkey => ?_⟩
  by_contra hlt
  rw [not_le] at hlt
  have hin : s.key ∈ g := ⟨hlow _ hkey, hlt.le.trans (hl.inside record hr).1.2⟩
  obtain ⟨a, ha, heq⟩ := hl.covers s hs hin
  have hle := hfirst a ha (heq ▸ hkey)
  rw [heq] at hle
  exact absurd hle (not_le.mpr hlt)

theorem next_greater (hsorted : Sorted VersionedRecordPoint.key records) {pos : ℕ}
    {record : WeaverRecord K skipMap} (hget : records[pos]? = some record)
    (hnext : pos + 1 < records.length) : record.key < records[pos + 1].key := by
  obtain ⟨hpos, rfl⟩ := List.getElem?_eq_some_iff.mp hget
  exact List.pairwise_iff_getElem.mp hsorted pos (pos + 1) hpos hnext (Nat.lt_succ_self pos)

theorem next_least (hsorted : Sorted VersionedRecordPoint.key records) {pos : ℕ}
    {record : WeaverRecord K skipMap} (hget : records[pos]? = some record)
    (hnext : pos + 1 < records.length) :
    ∀ a ∈ records, record.key < a.key → records[pos + 1].key ≤ a.key := by
  obtain ⟨hpos, rfl⟩ := List.getElem?_eq_some_iff.mp hget
  have hpairs := List.pairwise_iff_getElem.mp hsorted
  intro a ha hlt
  obtain ⟨i, hi, rfl⟩ := List.getElem_of_mem ha
  rcases lt_trichotomy (pos + 1) i with hlater | rfl | hearlier
  · exact (hpairs (pos + 1) i hnext hi hlater).le
  · exact le_rfl
  · rcases (Nat.le_of_lt_succ hearlier).lt_or_eq with hlt' | rfl
    · exact absurd (hlt.trans (hpairs i pos hi hpos hlt')) (lt_irrefl _)
    · exact absurd hlt (lt_irrefl _)

/-- The search behind the leaf, when it returns. -/
theorem findNeighbour_neighbour (hs : Shaped cfg.tree Weaves log h cfg.keys.full root)
    (hb : Before log (v + 1)) {leaf : Position} (hleaf : leaf.length = h) (hfuel : h + 1 ≤ fuel)
    {attempts : ℕ} {found : Option (WeaverNode K P)}
    (hrun : findNeighbour cfg (latched cfg.cells held leaf) root key v fuel (attempts + 1) [] 0 =
      .ok found) : Neighbour log key found := by
  obtain ⟨guard, g, records, hat, hkey⟩ :=
    leafAt_of_shaped hs (cfg.keys.mem_full (cfg.keys.incKey key))
  have hok : held = .appendPin ∨ guard ≠ leaf := by
    cases held with
    | appendPin => exact .inl rfl
    | writer =>
      refine .inr fun heq => ?_
      subst heq
      simp only [findNeighbour, search_waits hat hkey fuel] at hrun
      cases hrun
  obtain ⟨path, hsearch, hlast, hread, hblock⟩ :=
    search_returns cfg.free hleaf hat hkey hok hfuel
  have hvalid := borrowRead_valid hread
  have hderef : deref (latched cfg.cells held leaf) root
      (borrowRead (latched cfg.cells held leaf) guard) = some (.leaf records) := by
    rw [borrowRead_readable hread] at hvalid ⊢
    simp only [isValid] at hvalid
    simp only [deref, hvalid, if_true, hblock]
  have hgood := hat.shaped.2
  simp only [findNeighbour, hsearch, ok_bind, hlast, hderef, hvalid, if_true] at hrun
  cases hfind : records.find? fun r => decide (key < r.key) with
  | none =>
    rw [hfind] at hrun
    cases hrun
    exact fun target htarget => by cases htarget
  | some record =>
    rw [hfind] at hrun
    have hmem := List.mem_of_find?_eq_some hfind
    have habove : key < record.key := by simpa using List.find?_some hfind
    have hlow : ∀ k, key < k → g.lower ≤ k := fun k hk =>
      hkey.1.trans ((cfg.keys.inc_le key (hk.trans_le (cfg.keys.le_max k)) k).mpr hk)
    have hfirst : ∀ a ∈ records, key < a.key → record.key ≤ a.key := by
      obtain ⟨-, before, after, rfl, hbefore⟩ := List.find?_eq_some_iff_append.mp hfind
      intro a ha hlt
      rcases List.mem_append.mp ha with ha | ha
      · have hnot := hbefore a ha
        simp only [Bool.not_eq_eq_eq_not, Bool.not_true, decide_eq_false_iff_not] at hnot
        exact absurd hlt hnot
      · rcases List.mem_cons.mp ha with rfl | ha
        · exact le_rfl
        · have hcons := (List.pairwise_append.mp hgood.sorted).2.1
          exact ((List.pairwise_cons.mp hcons).1 a ha).le
    obtain ⟨found', hfound, hn⟩ := neighbour_of_record hgood hb hmem habove hlow hfirst
    cases hfound.symm.trans hrun
    exact hn

/-- The callback keeps the links, whether it sets one or not. -/
theorem weaverCallback_linking {payload : Option P}
    (hat : LeafAt cfg.tree Weaves (⟨v, key, payload⟩ :: log) h cfg.keys.full root guard g records)
    (hkey : key ∈ g) (hb : Before log v) (hfuel : h + 1 ≤ fuel) (hl : Linking log ridges)
    (hrun : weaverCallback cfg fuel root ridges guard held key v = .ok ridges') :
    Linking (⟨v, key, payload⟩ :: log) ridges' := by
  have hold : Linking (⟨v, key, payload⟩ :: log) ridges := hl.cons hb
  have hb' : Before (⟨v, key, payload⟩ :: log) (v + 1) := hb.cons key payload
  have hgood := hat.shaped.2
  have hstory : storyOf (⟨v, key, payload⟩ :: log) key = (payload, v) :: storyOf log key := by
    rw [storyOf_cons, if_pos rfl]
  have hnew : ∃ p, (p, v) ∈ storyOf (⟨v, key, payload⟩ :: log) key :=
    ⟨payload, hstory ▸ List.mem_cons_self⟩
  obtain ⟨record, hr, rfl⟩ := hgood.covers _ List.mem_cons_self hkey
  obtain ⟨pos, hsearch, hget⟩ := searchRecords_mem hgood hr
  obtain ⟨head, hindex, hfind, hc⟩ := findWeaver_newest (hgood.told record hr) hb'
  rw [hstory] at hc
  obtain ⟨hversion, hnext⟩ := chain_next hc
  simp only [weaverCallback, blockAt_leafAt hat, hsearch, getUnchecked_eq hget, ok_bind,
    hfind] at hrun
  cases hbehind : head.next with
  | none =>
    simp only [hbehind] at hrun
    cases hrun
    exact hold
  | some next =>
    have hlater : next.insertVersion < v := by
      obtain ⟨tail, htail⟩ := (hnext next hbehind).head
      exact storyOf_before hb next.value (by rw [htail]; exact List.mem_cons_self)
    simp only [hbehind] at hrun
    split at hrun
    · cases hrun
      exact hold
    · by_cases hlast : pos + 1 < records.length
      · have hgetNext := List.getElem?_eq_getElem hlast
        obtain ⟨found, hfound, hn⟩ := neighbour_of_record hgood hb' (List.getElem_mem hlast)
          (next_greater hgood.sorted hget hlast) (fun k hk => hkey.1.trans hk.le)
          (next_least hgood.sorted hget hlast)
        simp only [if_pos hlast, getUnchecked_eq hgetNext, ok_bind, hfound] at hrun
        cases found with
        | none =>
          cases hrun
          exact hold
        | some target =>
          cases hrun
          exact hold.set hb' hnew hlater hn
      · obtain ⟨fuel, rfl⟩ : ∃ n, fuel = n + 1 := ⟨fuel - 1, by omega⟩
        rw [if_neg hlast] at hrun
        obtain ⟨found, hfound, hrun⟩ := of_bind_ok hrun
        have hn := findNeighbour_neighbour hat.shaped.1 hb' hat.length_eq hfuel hfound
        cases found with
        | none =>
          cases hrun
          exact hold
        | some target =>
          cases hrun
          exact hold.set hb' hnew hlater hn

end Callback

/-! ## Operations -/

/-- The tree tells the log, and the links lead as they were set. -/
structure Weaving (cfg : WeaverConfig K skipMap) (log : Log K P) (h : ℕ)
    (state : WeaverState K skipMap) : Prop where
  refines : Refines cfg.tree Weaves log h state.tree
  linking : Linking log state.ridges

section Operations
variable {cfg : WeaverConfig K skipMap} {log : Log K P} {h fuel : ℕ} {key : K} {payload : P}
  {toss : Bool} {state state' : WeaverState K skipMap} {result : CRUDOperationResult}

theorem weaving_newWeaver : Weaving cfg ([] : Log K P) 0 newWeaver where
  refines := refines_newWith
  linking := fun _ _ _ hget => by cases hget

/-- A write that returned has done what the reference does. -/
def Advances (cfg : WeaverConfig K skipMap) (h : ℕ) (state : WeaverState K skipMap)
    (reference : Log K P × CRUDOperationResult) (state' : WeaverState K skipMap)
    (result : CRUDOperationResult) : Prop :=
  ∃ h', h' ≤ h + 1 ∧ state'.tree.globalClock = state.tree.globalClock + 1 ∧
    result = reference.2 ∧ Weaving cfg reference.1 h' state'

section Leaves
variable {h' : ℕ} {root : Node K (VersionIndex skipMap)} {guard : Position} {g : Interval K}
  {records records' : List (WeaverRecord K skipMap)} {A : Type} {a : A} {p : Option P}
  {op : Node K (VersionIndex skipMap) → Except Fault (Node K (VersionIndex skipMap) × A)}

/-- A write of its leaf and the callback behind it. -/
theorem leaf_written (hw : Weaving cfg log h state)
    (hat : LeafAt cfg.tree Weaves log h' cfg.keys.full root guard g records) (hkey : key ∈ g)
    (hop : op (.leaf records) = .ok (.leaf records', a)) (hlen : records.length ≤ records'.length)
    (hgood : LeafGood cfg.tree Weaves (⟨state.tree.globalClock, key, p⟩ :: log) g records') :
    ∃ root', derefMut op guard root = .ok (root', a) ∧
      ∀ {fuel : ℕ} {held : HeldLatch} {ridges : Ridges K P}, h' + 1 ≤ fuel →
        weaverCallback cfg fuel root' state.ridges guard held key state.tree.globalClock =
          .ok ridges →
        Weaving cfg (⟨state.tree.globalClock, key, p⟩ :: log) h'
          ⟨⟨root', state.tree.globalClock + 1⟩, ridges⟩ := by
  obtain ⟨root', hderef, hat', -⟩ := hat.write hkey hop hlen hgood
    fun _ _ _ hout hshaped => hshaped.frame hout
  refine ⟨root', hderef, fun hfuel hcall => ⟨⟨hat'.shaped.1, ?_⟩, ?_⟩⟩
  · exact hw.refines.before.cons key p
  · exact weaverCallback_linking hat' hkey hw.refines.before hfuel hw.linking hcall

/-- A write without effect only takes its version. -/
theorem leaf_unwritten (hw : Weaving cfg log h state)
    (hat : LeafAt cfg.tree Weaves log h' cfg.keys.full root guard g records) (hkey : key ∈ g)
    (hop : op (.leaf records) = .ok (.leaf records, a)) :
    ∃ root', derefMut op guard root = .ok (root', a) ∧
      Weaving cfg log h' ⟨⟨root', state.tree.globalClock + 1⟩, state.ridges⟩ := by
  obtain ⟨root', hderef, hat', -⟩ := hat.write hkey hop le_rfl hat.shaped.2
    fun _ _ _ _ hshaped => hshaped
  exact ⟨root', hderef, ⟨hat'.shaped.1, hw.refines.before.mono (Nat.le_succ _)⟩, hw.linking⟩

end Leaves

variable (hw : Weaving cfg log h state) (hfuel : 2 * h + 3 ≤ fuel)
  (hclock : state.tree.globalClock < 2 ^ 63)
include hw hfuel hclock

theorem weaverInsert_advances
    (hrun : weaverInsert cfg fuel state key payload toss = .ok (state', result)) :
    Advances cfg h state (referenceStep log state.tree.globalClock (.insert key payload))
      state' result := by
  obtain ⟨root, guard, h', g, records, htrav, hheight, hat, hkey, hroom⟩ :=
    traversalWriteOlcOp_reaches false hw.refines.shaped (cfg.keys.mem_full key) hfuel
  have hmax : cfg.tree.sizes.numRecords = 2 → key < cfg.tree.keys.maxKey := fun htwo =>
    absurd (htwo ▸ cfg.numRecords_min : 3 ≤ 2) (by decide)
  obtain ⟨records', hop, hlen, hgood⟩ := pushRecordPoint_good weaves_keep hat.shaped.2 hkey hmax
    (hroom rfl) hw.refines.before hclock payload toss
  obtain ⟨root', hderef, hwritten⟩ := leaf_written hw hat hkey hop hlen hgood
  have hderef' : derefMut (Node.pushRecordPoint cfg.tree.index cfg.sizes key payload
      state.tree.globalClock toss) guard root = .ok (root', true) := hderef
  simp only [weaverInsert, htrav, ok_bind, hderef', if_true] at hrun
  obtain ⟨ridges, hcall, hdone⟩ := of_bind_ok hrun
  cases hdone
  exact ⟨h', hheight, rfl, rfl, hwritten (show h' + 1 ≤ fuel by omega) hcall⟩

theorem weaverUpdate_advances
    (hrun : weaverUpdate cfg fuel state key payload toss = .ok (state', result)) :
    Advances cfg h state (referenceStep log state.tree.globalClock (.update key payload))
      state' result := by
  obtain ⟨root, guard, h', g, records, htrav, hheight, hat, hkey, -⟩ :=
    traversalWriteOlcOp_reaches true hw.refines.shaped (cfg.keys.mem_full key) hfuel
  cases hlive : (live log key).isSome with
  | true =>
    obtain ⟨records', hop, hlen, hgood⟩ := updateRecordPoint_live weaves_keep hat.shaped.2 hkey
      hw.refines.before hclock hlive payload toss
    obtain ⟨root', hderef, hwritten⟩ := leaf_written hw hat hkey hop hlen.ge hgood
    simp only [weaverUpdate, htrav, ok_bind, hderef] at hrun
    obtain ⟨ridges, hcall, hdone⟩ := of_bind_ok hrun
    cases hdone
    simp only [referenceStep, hlive, if_true]
    exact ⟨h', hheight, rfl, rfl, hwritten (show h' + 1 ≤ fuel by omega) hcall⟩
  | false =>
    have hop := updateRecordPoint_absent (v := state.tree.globalClock) weaves_keep hat.shaped.2
      hkey hlive payload toss
    obtain ⟨root', hderef, hsame⟩ := leaf_unwritten hw hat hkey hop
    simp only [weaverUpdate, htrav, ok_bind, hderef] at hrun
    cases hrun
    simp only [referenceStep, hlive, Bool.false_eq_true, if_false]
    exact ⟨h', hheight, rfl, rfl, hsame⟩

theorem weaverDelete_advances
    (hrun : weaverDelete cfg fuel state key toss = .ok (state', result)) :
    Advances cfg h state (referenceStep log state.tree.globalClock (.delete key))
      state' result := by
  obtain ⟨root, guard, h', g, records, htrav, hheight, hat, hkey, -⟩ :=
    traversalWriteOlcOp_reaches true hw.refines.shaped (cfg.keys.mem_full key) hfuel
  cases hlive : (live log key).isSome with
  | true =>
    obtain ⟨records', hop, hlen, hgood⟩ := deleteKey_live weaves_keep hat.shaped.2 hkey
      hw.refines.before hclock hlive toss
    obtain ⟨root', hderef, hwritten⟩ := leaf_written hw hat hkey hop hlen.ge hgood
    simp only [weaverDelete, htrav, ok_bind, hderef] at hrun
    obtain ⟨ridges, hcall, hdone⟩ := of_bind_ok hrun
    cases hdone
    simp only [referenceStep, hlive, if_true]
    exact ⟨h', hheight, rfl, rfl, hwritten (show h' + 1 ≤ fuel by omega) hcall⟩
  | false =>
    have hop := deleteKey_absent (v := state.tree.globalClock) weaves_keep hat.shaped.2 hkey
      hlive toss
    obtain ⟨root', hderef, hsame⟩ := leaf_unwritten hw hat hkey hop
    simp only [weaverDelete, htrav, ok_bind, hderef] at hrun
    cases hrun
    simp only [referenceStep, hlive, Bool.false_eq_true, if_false]
    exact ⟨h', hheight, rfl, rfl, hsame⟩

theorem weaverDispatch_advances {operation : CRUDOperation K P}
    (hrun : weaverDispatch cfg fuel state toss operation = .ok (state', result)) :
    Advances cfg h state (referenceStep log state.tree.globalClock operation) state' result := by
  cases operation with
  | insert key payload => exact weaverInsert_advances hw hfuel hclock hrun
  | update key payload => exact weaverUpdate_advances hw hfuel hclock hrun
  | delete key => exact weaverDelete_advances hw hfuel hclock hrun

end Operations

/-! ## Runs -/

section Runs
variable {cfg : WeaverConfig K skipMap} {log : Log K P} {h fuel : ℕ}
  {state state' : WeaverState K skipMap}

/-- A run that returned answered as the reference does, and its links lead as they were set. -/
theorem weaverRun_weaving {ops : List (CRUDOperation K P × Bool)} (hw : Weaving cfg log h state)
    (hfuel : 2 * (h + ops.length) + 3 ≤ fuel)
    (hclock : state.tree.globalClock + ops.length ≤ 2 ^ 63) {results : List CRUDOperationResult}
    (hrun : weaverRun cfg fuel state ops = .ok (state', results)) :
    results = (referenceRun state.tree.globalClock log (ops.map Prod.fst)).2 ∧
      state'.tree.globalClock = state.tree.globalClock + ops.length ∧
      ∃ h', Weaving cfg (referenceRun state.tree.globalClock log (ops.map Prod.fst)).1 h'
        state' := by
  induction ops generalizing log h state results with
  | nil =>
    cases hrun
    exact ⟨rfl, rfl, h, hw⟩
  | cons op ops ih =>
    obtain ⟨operation, toss⟩ := op
    rw [List.length_cons] at hfuel hclock
    obtain ⟨⟨state₁, result⟩, hstep, hrun⟩ := of_bind_ok hrun
    obtain ⟨⟨state₂, results₂⟩, hrest, hdone⟩ := of_bind_ok hrun
    cases hdone
    obtain ⟨h₁, hheight, hclock₁, hresult, hw₁⟩ :=
      weaverDispatch_advances hw (show 2 * h + 3 ≤ fuel by omega) (by omega) hstep
    obtain ⟨hresults, hclock₂, h₂, hw₂⟩ := ih hw₁ (by omega) (by omega) hrest
    rw [hclock₁] at hresults hclock₂ hw₂
    refine ⟨?_, ?_, h₂, hw₂⟩
    · rw [hresult, hresults]
      rfl
    · rw [hclock₂, List.length_cons]
      omega

/-- From the empty tree, with versions below `2 ^ 63`. -/
theorem weaverRun_newWeaver {ops : List (CRUDOperation K P × Bool)}
    (hversions : ops.length < 2 ^ 63) (hfuel : 2 * ops.length + 3 ≤ fuel)
    {results : List CRUDOperationResult}
    (hrun : weaverRun cfg fuel newWeaver ops = .ok (state, results)) :
    ∃ h, Weaving cfg (referenceRun startVersion [] (ops.map Prod.fst)).1 h state ∧
      state.tree.globalClock ≤ 2 ^ 63 := by
  have hstart : (newWeaver : WeaverState K skipMap).tree.globalClock = startVersion := rfl
  obtain ⟨-, hclock, h, hw⟩ := weaverRun_weaving weaving_newWeaver (by omega)
    (show startVersion + ops.length ≤ 2 ^ 63 by unfold startVersion; omega) hrun
  refine ⟨h, hw, ?_⟩
  rw [hclock, hstart, startVersion]
  omega

end Runs

end CMVBT.WeaverLinks
