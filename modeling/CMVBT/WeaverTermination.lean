import CMVBT.BaselineContents
import CMVBT.LeafHalves
import CMVBT.WeaverSearch

/-!
# Which writes of woven lists return

A write under an append pin always returns. An insertion holds the write latch of
its leaf, so it must not search for a neighbour that belongs to the same leaf. It
does that when its key has a record, which is the last one of the leaf, and the
next key is still in the fence.
-/
namespace CMVBT.WeaverTermination
open PageModel hiding Node startVersion
open FrugalList KeyInterval OrderedMap VersionChain VersionedLog SeparatorRow BaselinePages
  BaselineTree BaselineInvariant BaselineContents BaselineDescent BaselineWrites BaselineStates
  LeafHalves WeaverTree WeaverSearch

variable {K P : Type} [LinearOrder K] {skipMap : Mutable (RecordInfo P)}

/-! ## Woven lists -/

/-- A list of the weaver, with both links below its oldest node. -/
def Woven : VersionIndex skipMap → Prop
  | .vWeaver head => Linked head
  | _ => False

section Lists
variable {head : FrugalNode (Option P)} {index : VersionIndex skipMap} {v : ℕ} {toss : Bool}

/-- The head is the newest node. -/
theorem findFrom_newest (hle : head.insertVersion ≤ v) : findFrom head v = .ok (some head) := by
  obtain ⟨next, vRidgy, payload, version, level⟩ := head
  have hle' : version ≤ v := hle
  have hnot : ¬ (level < sentinelLevel ∧ v < version) := fun h => absurd h.2 (not_lt.mpr hle')
  unfold findFrom
  rw [if_neg hnot, if_pos hle']

theorem findFrom_head (head : FrugalNode (Option P)) :
    findFrom head head.insertVersion = .ok (some head) := findFrom_newest le_rfl

theorem woven_preserved :
    Preserves (listOps .vWeaver : IndexOps (VersionIndex skipMap) P) Woven where
  new payload version := .sentinel _ _
  push {i i' v payload toss} hi hrun := by
    cases i with
    | vWeaver head =>
      obtain ⟨head', happ, hdone⟩ := of_bind_ok hrun
      cases hdone
      exact Linked.append hi happ
    | _ => exact hi.elim
  append {i i' v payload toss} hi hrun := by
    cases i with
    | vWeaver head =>
      obtain ⟨head', happ, hdone⟩ := of_bind_ok hrun
      cases hdone
      exact Linked.append hi happ
    | _ => exact hi.elim
  delete {i i' v toss} hi hrun := by
    cases i with
    | vWeaver head =>
      obtain ⟨head', hdel, hdone⟩ := of_bind_ok hrun
      cases hdone
      exact Linked.delete hi hdel
    | _ => exact hi.elim

theorem woven_head {index : VersionIndex skipMap} (hw : Woven index) :
    ∃ head, index = .vWeaver head ∧ Linked head := by
  cases index with
  | vWeaver head => exact ⟨head, rfl, hw⟩
  | _ => exact hw.elim

omit [LinearOrder K] in
theorem findWeaver_woven {record : WeaverRecord K skipMap} (hw : Woven record.versionIndex)
    (v : ℕ) :
    ∃ found, findWeaverNodeOrTombstone record v = .ok found := by
  unfold findWeaverNodeOrTombstone
  cases hindex : record.versionIndex with
  | vWeaver head =>
    rw [hindex] at hw
    obtain ⟨found, hfind⟩ := Linked.findFrom hw v
    exact ⟨found.map fun node => ⟨record.key, node⟩, by simp only [hfind, ok_bind]; rfl⟩
  | _ =>
    rw [hindex] at hw
    exact hw.elim

end Lists

/-! ## The callback -/

variable {cfg : WeaverConfig K skipMap} {log : Log K P} {h fuel : ℕ} {g : Interval K} {key : K}
  {root : Node K (VersionIndex skipMap)} {records : List (WeaverRecord K skipMap)}
  {guard : Position} {v : ℕ}

/-- The record of `key` has a new head, written at `v`. -/
def Stamped (records : List (WeaverRecord K skipMap)) (key : K) (v : ℕ)
    (head : FrugalNode (Option P)) : Prop :=
  ∃ r ∈ records, r.key = key ∧ r.versionIndex = .vWeaver head ∧ head.insertVersion = v

theorem searchRecords_mem {holds : Story P → VersionIndex skipMap → Prop}
    (hl : LeafGood cfg.tree holds log g records) {r : WeaverRecord K skipMap} (hr : r ∈ records) :
    ∃ pos, Node.searchRecords records r.key = .ok pos ∧ records[pos]? = some r := by
  rcases hl.search (hl.inside r hr).1 with ⟨pos, r', hsearch, hget, heq, -⟩ |
    ⟨pos, hsearch, -, hbefore, hafter, -⟩
  · obtain rfl := sorted_unique hl.sorted (List.mem_of_getElem? hget) hr heq
    exact ⟨pos, hsearch, hget⟩
  · rw [← List.take_append_drop pos records] at hr
    rcases List.mem_append.mp hr with hr | hr
    · exact absurd (hbefore r hr) (lt_irrefl _)
    · exact absurd (hafter r hr) (lt_irrefl _)

theorem last_greatest (hsorted : Sorted VersionedRecordPoint.key records) {pos : ℕ}
    {r : WeaverRecord K skipMap} (hget : records[pos]? = some r)
    (hlast : ¬ pos + 1 < records.length) : ∀ a ∈ records, a.key ≤ r.key := by
  intro a ha
  obtain ⟨hpos, rfl⟩ := List.getElem?_eq_some_iff.mp hget
  obtain ⟨i, hi, rfl⟩ := List.getElem_of_mem ha
  rcases (show i ≤ pos by omega).lt_or_eq with hlt | rfl
  · exact (List.pairwise_iff_getElem.mp hsorted i pos hi hpos hlt).le
  · exact le_rfl

/-- The search for a neighbour returns unless it needs the latched leaf. -/
theorem findNeighbour_returns {held : HeldLatch} {leaf : Position}
    (hat : LeafAt cfg.tree (Kept Woven) log h cfg.keys.full root guard g records)
    (hkey : cfg.keys.incKey key ∈ g) (hleaf : leaf.length = h)
    (hok : held = .appendPin ∨ guard ≠ leaf) (hfuel : h + 1 ≤ fuel) (v attempts : ℕ) :
    ∃ found, findNeighbour cfg (latched cfg.cells held leaf) root key v fuel (attempts + 1) [] 0 =
      .ok found := by
  obtain ⟨path, hsearch, hlast, hread, hblock⟩ :=
    search_returns cfg.free hleaf hat hkey hok hfuel
  have hvalid := borrowRead_valid hread
  have hderef : deref (latched cfg.cells held leaf) root
      (borrowRead (latched cfg.cells held leaf) guard) = some (.leaf records) := by
    rw [borrowRead_readable hread] at hvalid ⊢
    simp only [isValid] at hvalid
    simp only [deref, hvalid, if_true, hblock]
  have hgood := hat.shaped.2
  simp only [findNeighbour, hsearch, ok_bind, hlast, hderef, hvalid, if_true]
  cases hfind : records.find? fun r => decide (key < r.key) with
  | none => exact ⟨none, rfl⟩
  | some r => exact findWeaver_woven (hgood.told r (List.mem_of_find?_eq_some hfind)) v

theorem weaverCallback_returns {held : HeldLatch} {head : FrugalNode (Option P)}
    (hat : LeafAt cfg.tree (Kept Woven) log h cfg.keys.full root guard g records) (hkey : key ∈ g)
    (hstamp : Stamped records key v head) (hfuel : h + 1 ≤ fuel)
    (hok : held = .appendPin ∨ head.next = none ∨ (∃ r ∈ records, key < r.key) ∨
      cfg.keys.incKey key ∉ g) (ridges : Ridges K P) :
    ∃ ridges', weaverCallback cfg fuel root ridges guard held key v = .ok ridges' := by
  have hgood := hat.shaped.2
  obtain ⟨r, hr, rfl, hindex, rfl⟩ := hstamp
  obtain ⟨pos, hsearch, hget⟩ := searchRecords_mem hgood hr
  have hfind : findWeaverNodeOrTombstone r head.insertVersion = .ok (some ⟨r.key, head⟩) := by
    simp only [findWeaverNodeOrTombstone, hindex, findFrom_head, ok_bind]
    rfl
  simp only [weaverCallback, blockAt_leafAt hat, hsearch, getUnchecked_eq hget, ok_bind, hfind]
  cases hnext : head.next with
  | none => exact ⟨ridges, rfl⟩
  | some next =>
    dsimp only
    split
    · exact ⟨ridges, rfl⟩
    by_cases hlast : pos + 1 < records.length
    · have hbehind := List.getElem?_eq_getElem hlast
      obtain ⟨found, hfound⟩ :=
        findWeaver_woven (hgood.told _ (List.getElem_mem hlast)) head.insertVersion
      simp only [if_pos hlast, getUnchecked_eq hbehind, ok_bind, hfound]
      cases found <;> exact ⟨_, rfl⟩
    · -- the record is the last one of its leaf
      have hend := last_greatest hgood.sorted hget hlast
      obtain ⟨fuel, rfl⟩ : ∃ n, fuel = n + 1 := ⟨fuel - 1, by omega⟩
      obtain ⟨guard', g', records', hat', hkey'⟩ :=
        leafAt_of_shaped hat.shaped.1 (cfg.keys.mem_full (cfg.keys.incKey r.key))
      have hlatch : held = .appendPin ∨ guard' ≠ guard := by
        rcases hok with hpin | hnone | ⟨a, ha, hlt⟩ | hout
        · exact .inl hpin
        · rw [hnone] at hnext
          cases hnext
        · exact absurd hlt (not_lt.mpr (hend a ha))
        · refine .inr fun heq => hout ?_
          subst heq
          rwa [hat.fence_unique hat']
      obtain ⟨found, hfound⟩ := findNeighbour_returns hat' hkey' hat.length_eq hlatch hfuel
        head.insertVersion fuel
      simp only [if_neg hlast, hfound, ok_bind]
      cases found <;> exact ⟨_, rfl⟩

/-! ## Writes of the leaf -/

omit [LinearOrder K] in
/-- Changing an index keeps the keys. -/
theorem mem_set_key {pos : ℕ} {r a : WeaverRecord K skipMap} (hget : records[pos]? = some r)
    (ha : a ∈ records) (versionIndex : VersionIndex skipMap) :
    ∃ a' ∈ records.set pos { r with versionIndex }, a'.key = a.key := by
  obtain ⟨hpos, rfl⟩ := List.getElem?_eq_some_iff.mp hget
  obtain ⟨i, hi, rfl⟩ := List.getElem_of_mem ha
  by_cases heq : pos = i
  · subst heq
    exact ⟨_, List.mem_set hpos _, rfl⟩
  · have hkept : (records.set pos { records[pos] with versionIndex })[i]? = some records[i] := by
      rw [List.getElem?_set_ne heq, List.getElem?_eq_getElem hi]
    exact ⟨records[i], List.mem_of_getElem? hkept, rfl⟩

theorem pushRecordPoint_stamps (hl : LeafGood cfg.tree (Kept Woven) log g records) (hkey : key ∈ g)
    (hroom : records.length < cfg.sizes.numRecords) (payload : P) (v : ℕ) (toss : Bool) :
    ∃ records' head, Node.pushRecordPoint cfg.tree.index cfg.sizes key payload v toss
        (.leaf records) = .ok (.leaf records', true) ∧ Stamped records' key v head ∧
      (head.next = none ∨ (∃ r ∈ records, r.key = key) ∧
        ∀ a ∈ records, ∃ a' ∈ records', a'.key = a.key) := by
  rcases hl.search hkey with ⟨pos, r, hsearch, hget, rfl, hwoven⟩ | ⟨pos, hsearch, hpos, -⟩
  · obtain ⟨head, hindex, hlinked⟩ := woven_head hwoven
    obtain ⟨head', happ, -, hversion, -⟩ := hlinked.append_total (some payload) v toss
    have hpos := (List.getElem?_eq_some_iff.mp hget).1
    refine ⟨records.set pos { r with versionIndex := .vWeaver head' }, head', ?_,
      ⟨_, List.mem_set hpos _, rfl, rfl, hversion⟩,
      .inr ⟨⟨r, List.mem_of_getElem? hget, rfl⟩, fun a ha => mem_set_key hget ha _⟩⟩
    simp only [Node.pushRecordPoint, hsearch, getUnchecked_eq hget, ok_bind, hindex,
      WeaverConfig.tree, listOps, VersionIndex.push, happ]
    rfl
  · refine ⟨records.insertIdx pos ⟨key, .vWeaver (FrugalList.new (some payload) v)⟩,
      FrugalList.new (some payload) v, ?_, ⟨⟨key, .vWeaver (FrugalList.new (some payload) v)⟩, ?_,
        rfl, rfl, rfl⟩, .inl rfl⟩
    · simp only [Node.pushRecordPoint, hsearch, insertAt_eq hpos hroom]
      rfl
    · rw [insertIdx_split hpos]
      simp

theorem updateRecordPoint_stamps (hl : LeafGood cfg.tree (Kept Woven) log g records)
    (hkey : key ∈ g) (payload : P) (v : ℕ) (toss : Bool) :
    ∃ records' a, Node.updateRecordPoint cfg.tree.index key payload v toss (.leaf records) =
        .ok (.leaf records', a) ∧ (a = .ok (some ()) → ∃ head, Stamped records' key v head) := by
  rcases hl.search hkey with ⟨pos, r, hsearch, hget, rfl, hwoven⟩ | ⟨pos, hsearch, -⟩
  · obtain ⟨head, hindex, hlinked⟩ := woven_head hwoven
    obtain ⟨head', happ, -, hversion, -⟩ := hlinked.append_total (some payload) v toss
    have hpos := (List.getElem?_eq_some_iff.mp hget).1
    cases hlive : chainIsLive head with
    | true =>
      refine ⟨records.set pos { r with versionIndex := .vWeaver head' }, .ok (some ()), ?_,
        fun _ => ⟨head', _, List.mem_set hpos _, rfl, rfl, hversion⟩⟩
      simp only [Node.updateRecordPoint, hsearch, getUnchecked_eq hget, ok_bind, hindex,
        WeaverConfig.tree, listOps, VersionIndex.isLive, hlive, VersionIndex.append, happ]
      rfl
    | false =>
      refine ⟨records, .ok none, ?_, fun h => by cases h⟩
      simp only [Node.updateRecordPoint, hsearch, getUnchecked_eq hget, ok_bind, hindex,
        WeaverConfig.tree, listOps, VersionIndex.isLive, hlive]
      rfl
  · refine ⟨records, .ok none, ?_, fun h => by cases h⟩
    simp only [Node.updateRecordPoint, hsearch]

theorem deleteKey_stamps (hl : LeafGood cfg.tree (Kept Woven) log g records) (hkey : key ∈ g)
    (v : ℕ) (toss : Bool) :
    ∃ records' a, Node.deleteKey cfg.tree.index key v toss (.leaf records) =
        .ok (.leaf records', a) ∧ (a = .ok (some ()) → ∃ head, Stamped records' key v head) := by
  rcases hl.search hkey with ⟨pos, r, hsearch, hget, rfl, hwoven⟩ | ⟨pos, hsearch, -⟩
  · obtain ⟨head, hindex, hlinked⟩ := woven_head hwoven
    obtain ⟨head', happ, -, hversion, -⟩ := hlinked.append_total none v toss
    have hpos := (List.getElem?_eq_some_iff.mp hget).1
    cases hlive : chainIsLive head with
    | true =>
      refine ⟨records.set pos { r with versionIndex := .vWeaver head' }, .ok (some ()), ?_,
        fun _ => ⟨head', _, List.mem_set hpos _, rfl, rfl, hversion⟩⟩
      simp only [Node.deleteKey, hsearch, getUnchecked_eq hget, ok_bind, hindex,
        WeaverConfig.tree, listOps, VersionIndex.isLive, VersionIndex.delete, deleteChain, hlive,
        if_true, happ]
      rfl
    | false =>
      refine ⟨records, .error (), ?_, fun h => by cases h⟩
      simp only [Node.deleteKey, hsearch, getUnchecked_eq hget, ok_bind, hindex,
        WeaverConfig.tree, listOps, VersionIndex.isLive, hlive]
      rfl
  · refine ⟨records, .error (), ?_, fun h => by cases h⟩
    simp only [Node.deleteKey, hsearch]

/-! ## One operation -/

/-- The key has the last record of a leaf, and the next key is in the fence of the leaf. -/
def Ends (keys : KeySpace K) (key : K) (leaf : FencedLeaf K (VersionIndex skipMap)) : Prop :=
  (∃ r ∈ leaf.2, r.key = key) ∧ (∀ r ∈ leaf.2, r.key ≤ key) ∧
    (key < leaf.1.upper ∨ key = keys.maxKey)

/-- An insertion that searches the neighbour of its key in the leaf whose write latch it holds. -/
def WaitsForItself (cfg : WeaverConfig K skipMap) (fuel : ℕ)
    (root : Node K (VersionIndex skipMap)) : CRUDOperation K P → Prop
  | .insert key _ => ∃ leaf, leafOf cfg.tree key fuel cfg.keys.full root = .ok leaf ∧
      Ends cfg.keys key (roomFor cfg.tree key leaf)
  | .update _ _ => False
  | .delete _ => False

variable {state : WeaverState K skipMap}

theorem incKey_outside (hnot : ¬ (key < g.upper ∨ key = cfg.keys.maxKey)) :
    cfg.keys.incKey key ∉ g := by
  obtain ⟨hupper, hmax⟩ := not_or.mp hnot
  have hlt : key < cfg.keys.maxKey := lt_of_le_of_ne (cfg.keys.le_max key) hmax
  intro hin
  exact hupper ((cfg.keys.inc_le key hlt g.upper).mp hin.2)

theorem incKey_inside (hkey : key ∈ g) (hin : key < g.upper ∨ key = cfg.keys.maxKey) :
    cfg.keys.incKey key ∈ g := by
  rcases (cfg.keys.le_max key).lt_or_eq with hlt | heq
  · have hupper : key < g.upper := hin.resolve_right hlt.ne
    exact ⟨hkey.1.trans (cfg.keys.lt_inc hlt).le, (cfg.keys.inc_le key hlt g.upper).mpr hupper⟩
  · rw [heq, cfg.keys.inc_max, ← heq]
    exact hkey

theorem weaverInsert_returns
    (hs : Shaped cfg.tree (Kept Woven) log h cfg.keys.full state.tree.root)
    (hfuel : 2 * h + 3 ≤ fuel) {payload : P}
    (hwait : ¬ WaitsForItself cfg fuel state.tree.root (.insert key payload)) (toss : Bool) :
    ∃ state' result log' h', weaverInsert cfg fuel state key payload toss = .ok (state', result) ∧
      h' ≤ h + 1 ∧ Shaped cfg.tree (Kept Woven) log' h' cfg.keys.full state'.tree.root := by
  obtain ⟨root, guard, h', g, records, old, hrun, hheight, hat, hkey, hsmall, hleaf, hroom⟩ :=
    traversalWriteOlcOp_room hs (cfg.keys.mem_full key) hfuel
  obtain ⟨records', head, hpush, hstamp, hnext⟩ :=
    pushRecordPoint_stamps hat.shaped.2 hkey hsmall payload state.tree.globalClock toss
  have hmax : cfg.sizes.numRecords = 2 → key < cfg.keys.maxKey := by
    have := cfg.numRecords_min
    omega
  obtain ⟨root', records₁, log', heq, hderef, hat'⟩ := leafAt_kept hat hkey (fun _ => hsmall)
    (pushRecordPoint_kept woven_preserved hmax payload state.tree.globalClock toss) hpush
  cases heq
  have hderef' : derefMut (Node.pushRecordPoint cfg.tree.index cfg.sizes key payload
      state.tree.globalClock toss) guard root = .ok (root', true) := hderef
  have hok : HeldLatch.writer = .appendPin ∨ head.next = none ∨ (∃ r ∈ records', key < r.key) ∨
      cfg.keys.incKey key ∉ g := by
    rcases hnext with hnone | ⟨hold, hkept⟩
    · exact .inr (.inl hnone)
    by_cases hlast : ∀ r ∈ records, r.key ≤ key
    · have hout : ¬ (key < g.upper ∨ key = cfg.keys.maxKey) := by
        intro hin
        refine hwait ⟨old, hleaf, ?_⟩
        rw [← hroom]
        exact ⟨hold, hlast, hin⟩
      exact .inr (.inr (.inr (incKey_outside hout)))
    · obtain ⟨a, ha, hlt⟩ : ∃ a ∈ records, key < a.key := by simpa using hlast
      obtain ⟨a', ha', heq⟩ := hkept a ha
      exact .inr (.inr (.inl ⟨a', ha', heq ▸ hlt⟩))
  obtain ⟨ridges, hcall⟩ :=
    weaverCallback_returns hat' hkey hstamp (show h' + 1 ≤ fuel by omega) hok state.ridges
  refine ⟨⟨⟨root', state.tree.globalClock + 1⟩, ridges⟩, .inserted state.tree.globalClock, log',
    h', ?_, hheight, hat'.shaped.1⟩
  simp only [weaverInsert, hrun, ok_bind, hderef', if_true, hcall]
  rfl

/-- A further version of a key stamps its record and keeps the keys of the leaf. -/
theorem pushRecordPoint_again (hl : LeafGood cfg.tree (Kept Woven) log g records)
    {r : WeaverRecord K skipMap} (hr : r ∈ records) {head : FrugalNode (Option P)}
    (hindex : r.versionIndex = .vWeaver head) (payload : P) (v : ℕ) (toss : Bool) :
    ∃ records' head', Node.pushRecordPoint cfg.tree.index cfg.sizes r.key payload v toss
        (.leaf records) = .ok (.leaf records', true) ∧ Stamped records' r.key v head' ∧
      head'.next = some head ∧ ∀ a' ∈ records', ∃ a ∈ records, a.key = a'.key := by
  have hlinked : Linked head := by
    have hwoven : Woven r.versionIndex := hl.told r hr
    rwa [hindex] at hwoven
  obtain ⟨pos, hsearch, hget⟩ := searchRecords_mem hl hr
  obtain ⟨head', happ, -, hversion, hnext, -⟩ := hlinked.append_total (some payload) v toss
  have hpos := (List.getElem?_eq_some_iff.mp hget).1
  refine ⟨records.set pos { r with versionIndex := .vWeaver head' }, head', ?_,
    ⟨_, List.mem_set hpos _, rfl, rfl, hversion⟩, hnext, fun a' ha' => ?_⟩
  · simp only [Node.pushRecordPoint, hsearch, getUnchecked_eq hget, ok_bind, hindex,
      WeaverConfig.tree, listOps, VersionIndex.push, happ]
    rfl
  · rcases List.mem_or_eq_of_mem_set ha' with ha' | rfl
    · exact ⟨a', ha', rfl⟩
    · exact ⟨r, hr, rfl⟩

/-- Under a write latch the search for a key of the leaf has no end. -/
theorem search_waits {holds : Story P → VersionIndex skipMap → Prop} {nextKey : K}
    {guard : Position} (hat : LeafAt cfg.tree holds log h cfg.keys.full root guard g records)
    (hkey : nextKey ∈ g) (fuel : ℕ) :
    nextLeafPageOlc cfg.tree (latched cfg.cells .writer guard) root nextKey fuel [] 0 =
      .error .outOfFuel := by
  cases guard with
  | nil => exact search_waits_at_root latched_writer fuel
  | cons pos guard =>
    cases fuel with
    | zero => rfl
    | succ fuel =>
      obtain ⟨entries, hwalk, -, -, hshort⟩ := walk_of_leafAt hat hkey []
      have hleaf := hat.length_eq
      have hroot : (latched cfg.cells .writer (pos :: guard) []).Free :=
        latched_free cfg.free (List.cons_ne_nil pos guard).symm
      have hfree : ∀ e ∈ entries.dropLast,
          (latched cfg.cells .writer (pos :: guard) e.2).Free := by
        intro e he
        refine latched_free cfg.free fun heq => ?_
        have hlt := hshort e he
        rw [heq, hleaf, List.length_nil, Nat.zero_add] at hlt
        exact lt_irrefl _ hlt
      rw [search_from_root (readable_of_free hroot)]
      exact hwalk.stuck rfl hfree latched_writer (List.cons_ne_nil pos guard).symm [] (fuel + 1)

/-- An insertion that waits for itself never returns while the old head has no link. -/
theorem weaverInsert_waits
    (hs : Shaped cfg.tree (Kept Woven) log h cfg.keys.full state.tree.root)
    (hfuel : 2 * h + 3 ≤ fuel) {payload : P}
    (hwait : WaitsForItself cfg fuel state.tree.root (.insert key payload))
    (hopen : ∀ version, state.ridges key version = none) (toss : Bool) :
    weaverInsert cfg fuel state key payload toss = .error .outOfFuel := by
  obtain ⟨root, guard, h', g, records, old, hrun, -, hat, hkey, hsmall, hleaf, hroom⟩ :=
    traversalWriteOlcOp_room hs (cfg.keys.mem_full key) hfuel
  obtain ⟨leaf, hleaf', hends⟩ := hwait
  cases hleaf.symm.trans hleaf'
  rw [← hroom] at hends
  obtain ⟨⟨r, hr, rfl⟩, hlast, hin⟩ := hends
  obtain ⟨head, hindex, -⟩ := woven_head (hat.shaped.2.told r hr)
  obtain ⟨records', head', hpush, hstamp, hnext, hkeys⟩ :=
    pushRecordPoint_again hat.shaped.2 hr hindex payload state.tree.globalClock toss
  have hmax : cfg.sizes.numRecords = 2 → r.key < cfg.keys.maxKey := by
    have := cfg.numRecords_min
    omega
  obtain ⟨root', records₁, log', heq, hderef, hat'⟩ := leafAt_kept hat hkey (fun _ => hsmall)
    (pushRecordPoint_kept woven_preserved hmax payload state.tree.globalClock toss) hpush
  cases heq
  have hderef' : derefMut (Node.pushRecordPoint cfg.tree.index cfg.sizes r.key payload
      state.tree.globalClock toss) guard root = .ok (root', true) := hderef
  obtain ⟨r', hr', hkey', hindex', hversion⟩ := hstamp
  obtain ⟨pos, hsearch, hget⟩ := searchRecords_mem hat'.shaped.2 hr'
  rw [hkey'] at hsearch
  have hfind : findWeaverNodeOrTombstone r' state.tree.globalClock =
      .ok (some ⟨r'.key, head'⟩) := by
    simp only [findWeaverNodeOrTombstone, hindex', ← hversion, findFrom_head, ok_bind]
    rfl
  have hend : ¬ pos + 1 < records'.length := by
    intro hlt
    have hsorted := List.pairwise_iff_getElem.mp hat'.shaped.2.sorted
    obtain ⟨hpos, rfl⟩ := List.getElem?_eq_some_iff.mp hget
    obtain ⟨a, ha, heq⟩ := hkeys _ (List.getElem_mem hlt)
    have hgreater := hsorted pos (pos + 1) hpos hlt (Nat.lt_succ_self pos)
    exact absurd (hlast a ha) (not_le.mpr (by rwa [heq, ← hkey']))
  have hsearching := search_waits hat' (incKey_inside hkey hin)
  obtain ⟨fuel, rfl⟩ : ∃ n, fuel = n + 1 := ⟨fuel - 1, by omega⟩
  simp only [weaverInsert, hrun, ok_bind, hderef', if_true, weaverCallback, blockAt_leafAt hat',
    hsearch, getUnchecked_eq hget, hfind, hnext, hopen, hend, if_false, Option.isSome_none,
    Bool.false_eq_true, findNeighbour, hsearching]
  rfl

/-- A write under an append pin returns, whatever it makes of its leaf. -/
theorem appendWrite_returns {root : Node K (VersionIndex skipMap)}
    (hs : Shaped cfg.tree (Kept Woven) log h cfg.keys.full root) (hfuel : 2 * h + 3 ≤ fuel)
    {op : Node K (VersionIndex skipMap) →
      Except Fault (Node K (VersionIndex skipMap) × Except Unit (Option Unit))}
    (hkept : KeepsLeaves cfg.tree Woven log key true op)
    (hstamps : ∀ {g records}, LeafGood cfg.tree (Kept Woven) log g records → key ∈ g →
      ∃ records' a, op (.leaf records) = .ok (.leaf records', a) ∧
        (a = .ok (some ()) → ∃ head, Stamped records' key v head)) (ridges : Ridges K P) :
    ∃ root₁ guard root' a log' h', traversalWriteOlcOp cfg.tree fuel root key true =
        .ok (root₁, guard) ∧ derefMut op guard root₁ = .ok (root', a) ∧ h' ≤ h + 1 ∧
      Shaped cfg.tree (Kept Woven) log' h' cfg.keys.full root' ∧
      (a = .ok (some ()) → ∃ ridges',
        weaverCallback cfg fuel root' ridges guard .appendPin key v = .ok ridges') := by
  obtain ⟨root₁, guard, h', g, records, hrun, hheight, hat, hkey, hroom⟩ :=
    traversalWriteOlcOp_reaches true hs (cfg.keys.mem_full key) hfuel
  obtain ⟨records', a, hop, hstamp⟩ := hstamps hat.shaped.2 hkey
  obtain ⟨root', records₁, log', heq, hderef, hat'⟩ := leafAt_kept hat hkey hroom hkept hop
  cases heq
  refine ⟨root₁, guard, root', a, log', h', hrun, hderef, hheight, hat'.shaped.1, fun hdone => ?_⟩
  obtain ⟨head, hstamp⟩ := hstamp hdone
  exact weaverCallback_returns hat' hkey hstamp (show h' + 1 ≤ fuel by omega) (.inl rfl) ridges

theorem weaverUpdate_returns
    (hs : Shaped cfg.tree (Kept Woven) log h cfg.keys.full state.tree.root)
    (hfuel : 2 * h + 3 ≤ fuel) (key : K) (payload : P) (toss : Bool) :
    ∃ state' result log' h', weaverUpdate cfg fuel state key payload toss = .ok (state', result) ∧
      h' ≤ h + 1 ∧ Shaped cfg.tree (Kept Woven) log' h' cfg.keys.full state'.tree.root := by
  obtain ⟨root, guard, root', a, log', h', hrun, hderef, hheight, hs', hcall⟩ :=
    appendWrite_returns hs hfuel
      (updateRecordPoint_kept woven_preserved key payload state.tree.globalClock toss)
      (fun hl hkey => updateRecordPoint_stamps hl hkey payload state.tree.globalClock toss)
      state.ridges
  simp only [weaverUpdate, hrun, ok_bind, hderef]
  rcases a with e | (- | done)
  · exact ⟨_, _, log', h', rfl, hheight, hs'⟩
  · exact ⟨_, _, log', h', rfl, hheight, hs'⟩
  · obtain ⟨ridges, hcall⟩ := hcall rfl
    simp only [hcall, ok_bind]
    exact ⟨_, _, log', h', rfl, hheight, hs'⟩

theorem weaverDelete_returns
    (hs : Shaped cfg.tree (Kept Woven) log h cfg.keys.full state.tree.root)
    (hfuel : 2 * h + 3 ≤ fuel) (key : K) (toss : Bool) :
    ∃ state' result log' h', weaverDelete cfg fuel state key toss = .ok (state', result) ∧
      h' ≤ h + 1 ∧ Shaped cfg.tree (Kept Woven) log' h' cfg.keys.full state'.tree.root := by
  obtain ⟨root, guard, root', a, log', h', hrun, hderef, hheight, hs', hcall⟩ :=
    appendWrite_returns hs hfuel
      (deleteKey_kept woven_preserved key state.tree.globalClock toss)
      (fun hl hkey => deleteKey_stamps hl hkey state.tree.globalClock toss) state.ridges
  simp only [weaverDelete, hrun, ok_bind, hderef]
  rcases a with e | (- | done)
  · exact ⟨_, _, log', h', rfl, hheight, hs'⟩
  · exact ⟨_, _, log', h', rfl, hheight, hs'⟩
  · obtain ⟨ridges, hcall⟩ := hcall rfl
    simp only [hcall, ok_bind]
    exact ⟨_, _, log', h', rfl, hheight, hs'⟩

/-- An operation that does not wait for itself returns and leaves a search tree. -/
theorem weaverDispatch_returns
    (hs : Shaped cfg.tree (Kept Woven) log h cfg.keys.full state.tree.root)
    (hfuel : 2 * h + 3 ≤ fuel) {operation : CRUDOperation K P}
    (hwait : ¬ WaitsForItself cfg fuel state.tree.root operation) (toss : Bool) :
    ∃ state' result log' h', weaverDispatch cfg fuel state toss operation = .ok (state', result) ∧
      h' ≤ h + 1 ∧ Shaped cfg.tree (Kept Woven) log' h' cfg.keys.full state'.tree.root := by
  cases operation with
  | insert key payload => exact weaverInsert_returns hs hfuel hwait toss
  | update key payload => exact weaverUpdate_returns hs hfuel key payload toss
  | delete key => exact weaverDelete_returns hs hfuel key toss

/-! ## Runs -/

/-- No operation of a run waits for itself in the state that it finds. -/
def NoneWaits (cfg : WeaverConfig K skipMap) (fuel : ℕ) :
    WeaverState K skipMap → List (CRUDOperation K P × Bool) → Prop
  | _, [] => True
  | state, (operation, toss) :: rest => ¬ WaitsForItself cfg fuel state.tree.root operation ∧
      ∀ state' result, weaverDispatch cfg fuel state toss operation = .ok (state', result) →
        NoneWaits cfg fuel state' rest

theorem weaverRun_from {ops : List (CRUDOperation K P × Bool)}
    (hs : Shaped cfg.tree (Kept Woven) log h cfg.keys.full state.tree.root)
    (hfuel : 2 * (h + ops.length) + 3 ≤ fuel) (hnone : NoneWaits cfg fuel state ops) :
    ∃ state' results, weaverRun cfg fuel state ops = .ok (state', results) := by
  induction ops generalizing log h state with
  | nil => exact ⟨state, [], rfl⟩
  | cons op ops ih =>
    obtain ⟨operation, toss⟩ := op
    rw [List.length_cons] at hfuel
    obtain ⟨hwait, hrest⟩ := hnone
    obtain ⟨state₁, result, log₁, h₁, hstep, hheight, hs₁⟩ :=
      weaverDispatch_returns hs (show 2 * h + 3 ≤ fuel by omega) hwait toss
    obtain ⟨state₂, results, hrun⟩ := ih hs₁ (by omega) (hrest state₁ result hstep)
    refine ⟨state₂, result :: results, ?_⟩
    simp only [weaverRun, hstep, ok_bind, hrun]
    rfl

/-- Every operation of a run returns when none of them waits for itself. -/
theorem weaverRun_returns {ops : List (CRUDOperation K P × Bool)}
    (hfuel : 2 * ops.length + 3 ≤ fuel) (hnone : NoneWaits cfg fuel newWeaver ops) :
    ∃ state results, weaverRun cfg fuel newWeaver ops = .ok (state, results) :=
  weaverRun_from refines_newWith.shaped (by omega) hnone

/-- `INDEX` with all latch words zero. -/
def weaverIndex : WeaverConfig UInt64 (sortedList (RecordInfo ℕ)) where
  keys := u64Space
  sizes := indexSizes
  numRecords_min := by decide
  doUnderflowCorrection := fun keys children _ => .ok (.index keys children)
  cells := fun _ => ⟨false, false, false, 0⟩
  free := fun _ => ⟨rfl, rfl, rfl⟩

theorem weaverRun_returns_update :
    ∃ state results, weaverRun weaverIndex 7 newWeaver
      [(.insert 5 50, false), (.update 5 51, false)] = .ok (state, results) := by
  refine weaverRun_returns (by decide) ⟨?_, fun state' result _ => ⟨id, fun _ _ _ => trivial⟩⟩
  rintro ⟨leaf, hleaf, ⟨r, hr, -⟩, -⟩
  cases hleaf
  cases hr

/-- The only leaf after one insertion. -/
def onlyKey : WeaverState UInt64 (sortedList (RecordInfo ℕ)) :=
  ⟨⟨.leaf [⟨5, .vWeaver (FrugalList.new (some 50) 1)⟩], 2⟩, fun _ _ => none⟩

theorem onlyKey_shaped : Shaped weaverIndex.tree (Kept Woven) [⟨1, 5, some 50⟩] 0
    weaverIndex.keys.full onlyKey.tree.root where
  sorted := List.pairwise_singleton _ _
  inside := by
    intro r hr
    obtain rfl := List.mem_singleton.mp hr
    exact ⟨weaverIndex.keys.mem_full _, fun htwo => absurd htwo (by decide)⟩
  length_le := by decide
  told := by
    intro r hr
    obtain rfl := List.mem_singleton.mp hr
    exact .sentinel _ _
  covers := by
    intro s hs _
    obtain rfl := List.mem_singleton.mp hs
    exact ⟨_, List.mem_singleton.mpr rfl, rfl⟩

/-- Key 5 is inserted a second time, in its leaf, which is the last one. -/
theorem second_insert_waits :
    ¬ ∃ fuel state results, weaverRun weaverIndex fuel newWeaver
      [(.insert 5 50, false), (.insert 5 51, false)] = .ok (state, results) := by
  rintro ⟨fuel, state, results, hrun⟩
  obtain ⟨⟨state₁, result₁⟩, hfirst, hrun⟩ := of_bind_ok hrun
  obtain ⟨⟨state₂, results₂⟩, hrest, -⟩ := of_bind_ok hrun
  obtain ⟨⟨state₃, result₃⟩, hsecond, -⟩ := of_bind_ok hrest
  match fuel with
  | 0 => cases hfirst
  | 1 =>
    cases hfirst
    cases hsecond
  | 2 =>
    cases hfirst
    cases hsecond
  | fuel + 3 =>
    have hstate : weaverDispatch weaverIndex (fuel + 3) newWeaver false (.insert 5 50) =
        .ok (onlyKey, .inserted 1) := rfl
    cases hstate.symm.trans hfirst
    have hwait : WaitsForItself weaverIndex (fuel + 3) onlyKey.tree.root (.insert 5 51) :=
      ⟨_, rfl, ⟨_, List.mem_singleton.mpr rfl, rfl⟩,
        fun r hr => (congrArg VersionedRecordPoint.key (List.mem_singleton.mp hr)).le,
        .inl (by decide)⟩
    cases (weaverInsert_waits onlyKey_shaped (by omega) hwait (fun _ => rfl) false).symm.trans
      hsecond

end CMVBT.WeaverTermination
