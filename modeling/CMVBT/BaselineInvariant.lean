import CMVBT.BaselineTree
import CMVBT.ChainRefinement
import CMVBT.VersionedLog

/-!
# What every page of the version-list tree satisfies

The reference is a log of changes. A leaf is good for its fence when its records
are sorted, lie in the fence, hold the stories of their keys, and no key of the
fence with a story is missing. What it means that an index holds a story is a
parameter, and operations that keep it are enough for the writes of a leaf.
-/
namespace CMVBT.BaselineInvariant
open PageModel hiding Node
open KeyInterval OrderedMap VersionChain ChainRefinement VersionedLog SeparatorRow
  BaselinePages BaselineTree

variable {K V P : Type} [LinearOrder K]

/-! ## Stories of keys -/

/-- The changes of one key, newest first. -/
def storyOf (log : Log K P) (key : K) : Story P :=
  log.filterMap (fun s => if s.key = key then some (s.payload, s.version) else none)

section Stories
variable {log : Log K P} {key : K}

theorem storyOf_cons (s : Stamp K P) (log : Log K P) (key : K) :
    storyOf (s :: log) key =
      if s.key = key then (s.payload, s.version) :: storyOf log key else storyOf log key := by
  by_cases h : s.key = key
  · simp [storyOf, h]
  · simp [storyOf, h]

theorem mem_storyOf {x : Option P × ℕ} :
    x ∈ storyOf log key ↔ ∃ s ∈ log, s.key = key ∧ (s.payload, s.version) = x := by
  simp [storyOf]

theorem storyOf_before {clock : ℕ} (h : Before log clock) :
    ∀ x ∈ storyOf log key, x.2 < clock := by
  intro x hx
  obtain ⟨s, hs, -, rfl⟩ := mem_storyOf.mp hx
  exact h s hs

theorem live_storyOf (log : Log K P) (key : K) :
    (storyOf log key).live = (live log key).isSome := by
  induction log with
  | nil => rfl
  | cons s log ih =>
    rw [storyOf_cons, show live (s :: log) key = _ from live_cons log s.version s.key s.payload key]
    split
    · rfl
    · exact ih

theorem liveAt_storyOf (log : Log K P) (key : K) (v : ℕ) :
    ((storyOf log key).liveAt v).map Prod.snd = liveAt log key v := by
  induction log with
  | nil => rfl
  | cons s log ih =>
    rw [storyOf_cons, show liveAt (s :: log) key v = _ from
      liveAt_cons log s.version s.key s.payload key v]
    by_cases hkey : s.key = key
    · by_cases hv : s.version ≤ v
      · rw [if_pos hkey, if_pos ⟨hkey, hv⟩]
        cases hp : s.payload <;> simp [Story.liveAt, hv]
      · rw [if_pos hkey, if_neg (fun h => hv h.2), ← ih]
        simp [Story.liveAt, hv]
    · rw [if_neg hkey, if_neg (fun h => hkey h.1), ih]

end Stories

/-! ## Leaves -/

/-- The records of a leaf with fence `f` hold the stories of the keys in `f`. Where
leaves have room for two records only, the second one is the separator of a split
and must not have the greatest key. -/
structure LeafGood (cfg : TreeConfig K V P) (holds : Story P → V → Prop) (log : Log K P)
    (f : Interval K) (records : List (VersionedRecordPoint K V)) : Prop where
  sorted : Sorted VersionedRecordPoint.key records
  inside : ∀ r ∈ records, r.key ∈ f ∧ (cfg.sizes.numRecords = 2 → r.key < cfg.keys.maxKey)
  length_le : records.length ≤ cfg.sizes.numRecords
  told : ∀ r ∈ records, holds (storyOf log r.key) r.versionIndex
  covers : ∀ s ∈ log, s.key ∈ f → ∃ r ∈ records, r.key = s.key

variable {cfg : TreeConfig K V P} {holds : Story P → V → Prop} {log : Log K P} {f g : Interval K}
  {key : K} {records : List (VersionedRecordPoint K V)}

/-- A change of a key outside the fence does not concern a leaf. -/
theorem LeafGood.frame (h : LeafGood cfg holds log f records) {s : Stamp K P} (hs : s.key ∉ f) :
    LeafGood cfg holds (s :: log) f records := by
  have hstory : ∀ r ∈ records, storyOf (s :: log) r.key = storyOf log r.key := by
    intro r hr
    rw [storyOf_cons, if_neg]
    rintro heq
    exact hs (heq ▸ (h.inside r hr).1)
  refine ⟨h.sorted, h.inside, h.length_le, fun r hr => ?_, fun s' hs' hkey => ?_⟩
  · rw [hstory r hr]
    exact h.told r hr
  · rcases List.mem_cons.mp hs' with rfl | hs'
    · exact absurd hkey hs
    · exact h.covers s' hs' hkey

/-- A key of the fence without a record has no story. -/
theorem LeafGood.story_nil (h : LeafGood cfg holds log f records) (hkey : key ∈ f)
    (hmiss : ∀ r ∈ records, r.key ≠ key) : storyOf log key = [] := by
  refine List.eq_nil_iff_forall_not_mem.mpr fun x hx => ?_
  obtain ⟨s, hs, hk, -⟩ := mem_storyOf.mp hx
  obtain ⟨r, hr, hr'⟩ := h.covers s hs (hk ▸ hkey)
  exact hmiss r hr (hr'.trans hk)

/-- Part of the records with part of the fence. -/
theorem LeafGood.part (h : LeafGood cfg holds log f records)
    {part : List (VersionedRecordPoint K V)} (hsub : part.Sublist records)
    (hg : g.Within f) (hpart : ∀ r ∈ records, r ∈ part ↔ r.key ∈ g) :
    LeafGood cfg holds log g part := by
  have hmem : ∀ r ∈ part, r ∈ records := fun r hr => hsub.subset hr
  refine ⟨h.sorted.sublist hsub, fun r hr => ⟨(hpart r (hmem r hr)).mp hr, (h.inside r (hmem r hr)).2⟩,
    hsub.length_le.trans h.length_le, fun r hr => h.told r (hmem r hr), fun s hs hkey => ?_⟩
  obtain ⟨r, hr, heq⟩ := h.covers s hs (hg _ hkey)
  exact ⟨r, (hpart r hr).mpr (heq ▸ hkey), heq⟩

/-- Cutting a leaf at a record that is not its first: the key of the record separates
the two parts. -/
theorem LeafGood.cut (h : LeafGood cfg holds log f records) {i : ℕ} (hi : 0 < i)
    {r : VersionedRecordPoint K V} (hr : records[i]? = some r)
    (hnext : i + 1 < records.length ∨ cfg.sizes.numRecords = 2) :
    (f.lower < r.key ∧ r.key ≤ f.upper ∧ r.key < cfg.keys.maxKey) ∧
      LeafGood cfg holds log ⟨f.lower, cfg.keys.decKey r.key⟩ (records.take i) ∧
      LeafGood cfg holds log ⟨r.key, f.upper⟩ (records.drop i) := by
  obtain ⟨hbefore, hafter⟩ := h.sorted.around hr
  obtain ⟨hin, htwo⟩ := h.inside r (List.mem_of_getElem? hr)
  have hmax : r.key < cfg.keys.maxKey := by
    rcases hnext with hnext | hnext
    · obtain ⟨hlen, rfl⟩ := List.getElem?_eq_some_iff.mp hr
      have hlt := List.pairwise_iff_getElem.mp h.sorted i (i + 1) hlen hnext (Nat.lt_succ_self i)
      exact hlt.trans_le (cfg.keys.le_max _)
    · exact htwo hnext
  have hcases : ∀ a ∈ records, a ∈ records.take i ∨ a ∈ records.drop i := by
    intro a ha
    rw [← List.take_append_drop i records] at ha
    exact List.mem_append.mp ha
  have hlow : f.lower < r.key := by
    obtain ⟨hlen, -⟩ := List.getElem?_eq_some_iff.mp hr
    have hfirst : records[0] ∈ records.take i := by
      rw [List.mem_take_iff_getElem]
      exact ⟨0, by omega, rfl⟩
    exact (h.inside _ (List.getElem_mem _)).1.1.trans_lt (hbefore _ hfirst)
  refine ⟨⟨hlow, hin.2, hmax⟩, ?_, ?_⟩
  · refine h.part (List.take_sublist _ _) (left_within hlow hin.2) fun a ha => ?_
    rw [mem_left hlow]
    constructor
    · exact fun hmem => ⟨(h.inside a ha).1.1, hbefore a hmem⟩
    · rintro ⟨-, hlt⟩
      exact (hcases a ha).resolve_right fun hmem => absurd hlt (not_lt.mpr (hafter a hmem))
  · refine h.part (List.drop_sublist _ _) (right_within hlow) fun a ha => ?_
    constructor
    · exact fun hmem => ⟨hafter a hmem, (h.inside a ha).1.2⟩
    · rintro ⟨hge, -⟩
      exact (hcases a ha).resolve_left fun hmem => absurd (hbefore a hmem) (not_lt.mpr hge)

/-- One record of a leaf and the others. -/
theorem LeafGood.split (h : LeafGood cfg holds log f records) {i : ℕ}
    {r : VersionedRecordPoint K V} (hr : records[i]? = some r) :
    ∃ before after, records = before ++ r :: after ∧ before.length = i ∧
      ∀ a ∈ before ++ after, a.key ≠ r.key := by
  obtain ⟨hi, rfl⟩ := List.getElem?_eq_some_iff.mp hr
  have hsplit : records = records.take i ++ records[i] :: records.drop (i + 1) := by
    rw [← List.drop_eq_getElem_cons hi, List.take_append_drop]
  have hsorted := h.sorted
  rw [hsplit] at hsorted
  obtain ⟨-, hcons, hcross⟩ := List.pairwise_append.mp hsorted
  refine ⟨_, _, hsplit, List.length_take_of_le hi.le, fun a ha => ?_⟩
  rcases List.mem_append.mp ha with ha | ha
  · exact (hcross a ha _ List.mem_cons_self).ne
  · exact ((List.pairwise_cons.mp hcons).1 a ha).ne'

/-- A changed record, with the story that the change tells. -/
theorem LeafGood.set (h : LeafGood cfg holds log f records) {i : ℕ}
    {r : VersionedRecordPoint K V} (hr : records[i]? = some r) {s : Stamp K P}
    (hs : s.key = r.key) {versionIndex : V}
    (hholds : holds ((s.payload, s.version) :: storyOf log r.key) versionIndex) :
    LeafGood cfg holds (s :: log) f (records.set i { r with versionIndex }) := by
  obtain ⟨before, after, rfl, rfl, hother⟩ := h.split hr
  have hset : (before ++ r :: after).set before.length { r with versionIndex } =
      before ++ { r with versionIndex } :: after := by simp
  have hold : ∀ a ∈ before ++ { r with versionIndex } :: after,
      a = { r with versionIndex } ∨ a ∈ before ++ after := by
    intro a ha
    rcases List.mem_append.mp ha with ha | ha
    · exact .inr (List.mem_append_left _ ha)
    · exact (List.mem_cons.mp ha).imp_right (List.mem_append_right _)
  have hmem : ∀ a ∈ before ++ after, a ∈ before ++ r :: after := by
    intro a ha
    rcases List.mem_append.mp ha with ha | ha <;> simp [ha]
  have hthis : r ∈ before ++ r :: after := by simp
  rw [hset]
  refine ⟨?_, fun a ha => ?_, by simpa using h.length_le, fun a ha => ?_, fun s' hs' hkey => ?_⟩
  · exact List.pairwise_map.mp (by simpa using List.pairwise_map.mpr h.sorted)
  · rcases hold a ha with rfl | ha
    · exact h.inside r hthis
    · exact h.inside a (hmem a ha)
  · rw [storyOf_cons]
    rcases hold a ha with rfl | ha
    · rw [if_pos hs]
      exact hholds
    · rw [if_neg (fun heq => hother a ha (heq.symm.trans hs))]
      exact h.told a (hmem a ha)
  · rcases List.mem_cons.mp hs' with rfl | hs'
    · exact ⟨{ r with versionIndex }, by simp, hs.symm⟩
    · obtain ⟨a, ha, heq⟩ := h.covers s' hs' hkey
      rcases List.mem_append.mp ha with ha | ha
      · exact ⟨a, by simp [ha], heq⟩
      · rcases List.mem_cons.mp ha with rfl | ha
        · exact ⟨⟨a.key, versionIndex⟩, by simp, heq⟩
        · exact ⟨a, by simp [ha], heq⟩

/-- A new record for a key that has none. -/
theorem LeafGood.insert (h : LeafGood cfg holds log f records) {s : Stamp K P} (hkey : s.key ∈ f)
    (hmax : cfg.sizes.numRecords = 2 → s.key < cfg.keys.maxKey)
    (hlen : records.length < cfg.sizes.numRecords) {pos : ℕ}
    (hbefore : ∀ a ∈ records.take pos, a.key < s.key)
    (hafter : ∀ a ∈ records.drop pos, s.key < a.key) {versionIndex : V}
    (hholds : holds [(s.payload, s.version)] versionIndex) :
    LeafGood cfg holds (s :: log) f
      (records.take pos ++ ⟨s.key, versionIndex⟩ :: records.drop pos) := by
  have hall : ∀ a ∈ records, a ∈ records.take pos ∨ a ∈ records.drop pos := by
    intro a ha
    rw [← List.take_append_drop pos records] at ha
    exact List.mem_append.mp ha
  have hne : ∀ a ∈ records, a.key ≠ s.key := by
    intro a ha
    rcases hall a ha with ha | ha
    · exact (hbefore a ha).ne
    · exact (hafter a ha).ne'
  have hold : ∀ a ∈ records.take pos ++ ⟨s.key, versionIndex⟩ :: records.drop pos,
      a = ⟨s.key, versionIndex⟩ ∨ a ∈ records := by
    intro a ha
    rcases List.mem_append.mp ha with ha | ha
    · exact .inr (List.mem_of_mem_take ha)
    · exact (List.mem_cons.mp ha).imp_right List.mem_of_mem_drop
  have hstory : storyOf log s.key = [] := h.story_nil hkey hne
  refine ⟨h.sorted.insert hbefore hafter, fun a ha => ?_, ?_, fun a ha => ?_,
    fun s' hs' hkey' => ?_⟩
  · rcases hold a ha with rfl | ha
    · exact ⟨hkey, hmax⟩
    · exact h.inside a ha
  · simp only [List.length_append, List.length_cons, List.length_take, List.length_drop]
    omega
  · rw [storyOf_cons]
    rcases hold a ha with rfl | ha
    · rw [if_pos rfl, hstory]
      exact hholds
    · rw [if_neg (hne a ha).symm]
      exact h.told a ha
  · rcases List.mem_cons.mp hs' with rfl | hs'
    · exact ⟨⟨s'.key, versionIndex⟩, by simp, rfl⟩
    · obtain ⟨a, ha, heq⟩ := h.covers s' hs' hkey'
      rcases hall a ha with ha | ha
      · exact ⟨a, by simp [ha], heq⟩
      · exact ⟨a, by simp [ha], heq⟩

/-! ## Operations on a leaf -/

/-- What a search in a leaf finds. -/
theorem LeafGood.search (h : LeafGood cfg holds log f records) (hkey : key ∈ f) :
    (∃ pos r, Node.searchRecords records key = .ok pos ∧ records[pos]? = some r ∧ r.key = key ∧
      holds (storyOf log key) r.versionIndex) ∨
    ∃ pos, Node.searchRecords records key = .error pos ∧ pos ≤ records.length ∧
      (∀ a ∈ records.take pos, a.key < key) ∧ (∀ a ∈ records.drop pos, key < a.key) ∧
      storyOf log key = [] := by
  cases hsearch : Node.searchRecords records key with
  | ok pos =>
    obtain ⟨r, hr, rfl⟩ := binarySearchByKey_ok hsearch
    exact .inl ⟨pos, r, rfl, hr, rfl, h.told r (List.mem_of_getElem? hr)⟩
  | error pos =>
    obtain ⟨hpos, hbefore, hafter⟩ := binarySearchByKey_error h.sorted hsearch
    refine .inr ⟨pos, rfl, hpos, hbefore, hafter, h.story_nil hkey fun r hr => ?_⟩
    rw [← List.take_append_drop pos records] at hr
    rcases List.mem_append.mp hr with hr | hr
    · exact (hbefore r hr).ne
    · exact (hafter r hr).ne'

theorem live_of_story_nil (h : storyOf log key = []) : (live log key).isSome = false := by
  rw [← live_storyOf, h]
  rfl

/-- The operations of an index keep the story of its record, as long as versions grow
and stay below `2 ^ 63`. -/
structure Keeps (index : IndexOps V P) (holds : Story P → V → Prop) : Prop where
  new : ∀ payload {v}, v < 2 ^ 63 → holds [(some payload, v)] (index.new payload v)
  push : ∀ {story i v}, holds story i → (∀ x ∈ story, x.2 < v) → v < 2 ^ 63 → ∀ payload toss,
    ∃ i', index.push v payload toss i = .ok i' ∧ holds ((some payload, v) :: story) i'
  append : ∀ {story i v}, holds story i → story.live = true → (∀ x ∈ story, x.2 < v) →
    v < 2 ^ 63 → ∀ payload toss,
    ∃ i', index.append v payload toss i = .ok i' ∧ holds ((some payload, v) :: story) i'
  delete : ∀ {story i v}, holds story i → story.live = true → (∀ x ∈ story, x.2 < v) →
    v < 2 ^ 63 → ∀ toss, ∃ i', index.delete v toss i = .ok i' ∧ holds ((none, v) :: story) i'
  isLive : ∀ {story i}, holds story i → index.isLive i = .ok story.live
  find : ∀ {story i v}, holds story i → v < 2 ^ 63 → index.find v i = .ok (story.liveAt v)

/-- A list tells a story of its record. -/
def Tells {skipMap : Mutable (RecordInfo P)} (story : Story P) (index : VersionIndex skipMap) :
    Prop := Told story ∧ Holds story index

theorem lists_keep {skipMap : Mutable (RecordInfo P)} (kind : VersionIndexType) :
    Keeps (listOps kind : IndexOps (VersionIndex skipMap) P) Tells where
  new payload _ hv := ⟨.born hv, holds_new kind payload _⟩
  push h hnew hv payload toss := by
    obtain ⟨i', hpush, hholds⟩ := h.2.push h.1 hnew hv payload toss
    exact ⟨i', hpush, h.1.set hnew hv, hholds⟩
  append h hlive hnew hv payload toss := by
    obtain ⟨i', happ, hholds⟩ := h.2.append h.1 hlive hnew hv payload toss
    exact ⟨i', happ, h.1.set hnew hv, hholds⟩
  delete h hlive hnew hv toss := by
    obtain ⟨i', hdel, hholds⟩ := h.2.delete h.1 hnew hv toss
    rw [if_pos hlive] at hholds
    exact ⟨i', hdel, h.1.delete hlive hnew hv, hholds⟩
  isLive h := h.2.isLive h.1
  find h hv := h.2.find h.1 hv

section Operations
variable {v : ℕ}

theorem deleteKey_live (hk : Keeps cfg.index holds) (h : LeafGood cfg holds log f records)
    (hkey : key ∈ f) (hb : Before log v) (hv : v < 2 ^ 63)
    (hlive : (live log key).isSome = true) (toss : Bool) :
    ∃ records', Node.deleteKey cfg.index key v toss (.leaf records) =
        .ok (.leaf records', .ok (some ())) ∧
      records'.length = records.length ∧ LeafGood cfg holds (⟨v, key, none⟩ :: log) f records' := by
  rcases h.search hkey with ⟨pos, r, hsearch, hr, rfl, hholds⟩ | ⟨pos, -, -, -, -, hnil⟩
  · have hstory : (storyOf log r.key).live = true := (live_storyOf log r.key).trans hlive
    obtain ⟨versionIndex, hdel, hholds'⟩ := hk.delete hholds hstory (storyOf_before hb) hv toss
    refine ⟨records.set pos { r with versionIndex }, ?_, by simp, ?_⟩
    · simp only [Node.deleteKey, hsearch, getUnchecked_eq hr, ok_bind, hk.isLive hholds, hstory, hdel]
      rfl
    · exact h.set hr (s := ⟨v, r.key, none⟩) rfl hholds'
  · rw [live_of_story_nil hnil] at hlive
    cases hlive

theorem deleteKey_absent (hk : Keeps cfg.index holds) (h : LeafGood cfg holds log f records)
    (hkey : key ∈ f) (hlive : (live log key).isSome = false) (toss : Bool) :
    Node.deleteKey cfg.index key v toss (.leaf records) = .ok (.leaf records, .error ()) := by
  rcases h.search hkey with ⟨pos, r, hsearch, hr, rfl, hholds⟩ | ⟨pos, hsearch, -⟩
  · have hstory : (storyOf log r.key).live = false := (live_storyOf log r.key).trans hlive
    simp only [Node.deleteKey, hsearch, getUnchecked_eq hr, ok_bind, hk.isLive hholds, hstory]
    rfl
  · simp only [Node.deleteKey, hsearch]

theorem updateRecordPoint_live (hk : Keeps cfg.index holds) (h : LeafGood cfg holds log f records)
    (hkey : key ∈ f) (hb : Before log v) (hv : v < 2 ^ 63)
    (hlive : (live log key).isSome = true) (payload : P) (toss : Bool) :
    ∃ records', Node.updateRecordPoint cfg.index key payload v toss (.leaf records) =
        .ok (.leaf records', .ok (some ())) ∧
      records'.length = records.length ∧
      LeafGood cfg holds (⟨v, key, some payload⟩ :: log) f records' := by
  rcases h.search hkey with ⟨pos, r, hsearch, hr, rfl, hholds⟩ | ⟨pos, -, -, -, -, hnil⟩
  · have hstory : (storyOf log r.key).live = true := (live_storyOf log r.key).trans hlive
    obtain ⟨versionIndex, happ, hholds'⟩ :=
      hk.append hholds hstory (storyOf_before hb) hv payload toss
    refine ⟨records.set pos { r with versionIndex }, ?_, by simp, ?_⟩
    · simp only [Node.updateRecordPoint, hsearch, getUnchecked_eq hr, ok_bind, hk.isLive hholds,
        hstory, happ]
      rfl
    · exact h.set hr (s := ⟨v, r.key, some payload⟩) rfl hholds'
  · rw [live_of_story_nil hnil] at hlive
    cases hlive

theorem updateRecordPoint_absent (hk : Keeps cfg.index holds)
    (h : LeafGood cfg holds log f records) (hkey : key ∈ f)
    (hlive : (live log key).isSome = false) (payload : P) (toss : Bool) :
    Node.updateRecordPoint cfg.index key payload v toss (.leaf records) =
      .ok (.leaf records, .ok none) := by
  rcases h.search hkey with ⟨pos, r, hsearch, hr, rfl, hholds⟩ | ⟨pos, hsearch, -⟩
  · have hstory : (storyOf log r.key).live = false := (live_storyOf log r.key).trans hlive
    simp only [Node.updateRecordPoint, hsearch, getUnchecked_eq hr, ok_bind, hk.isLive hholds, hstory]
    rfl
  · simp only [Node.updateRecordPoint, hsearch]

/-- The insertion of a key without a record. -/
theorem pushRecordPoint_new (h : LeafGood cfg holds log f records) (hkey : key ∈ f)
    (hmax : cfg.sizes.numRecords = 2 → key < cfg.keys.maxKey)
    (hlen : records.length < cfg.sizes.numRecords) {payload : P}
    (hnew : holds [(some payload, v)] (cfg.index.new payload v)) (toss : Bool) {pos : ℕ}
    (hsearch : Node.searchRecords records key = .error pos) :
    ∃ records', Node.pushRecordPoint cfg.index cfg.sizes key payload v toss (.leaf records) =
        .ok (.leaf records', true) ∧
      records.length ≤ records'.length ∧
      LeafGood cfg holds (⟨v, key, some payload⟩ :: log) f records' := by
  obtain ⟨hpos, hbefore, hafter⟩ := binarySearchByKey_error h.sorted hsearch
  refine ⟨records.insertIdx pos ⟨key, cfg.index.new payload v⟩, ?_, ?_, ?_⟩
  · simp only [Node.pushRecordPoint, hsearch, insertAt_eq hpos hlen]
    rfl
  · rw [List.length_insertIdx]
    split <;> omega
  · rw [insertIdx_split hpos]
    exact h.insert (s := ⟨v, key, some payload⟩) hkey hmax hlen hbefore hafter hnew

/-- An insertion succeeds whether or not the key is live. -/
theorem pushRecordPoint_good (hk : Keeps cfg.index holds) (h : LeafGood cfg holds log f records)
    (hkey : key ∈ f) (hmax : cfg.sizes.numRecords = 2 → key < cfg.keys.maxKey)
    (hlen : records.length < cfg.sizes.numRecords)
    (hb : Before log v) (hv : v < 2 ^ 63) (payload : P) (toss : Bool) :
    ∃ records', Node.pushRecordPoint cfg.index cfg.sizes key payload v toss (.leaf records) =
        .ok (.leaf records', true) ∧
      records.length ≤ records'.length ∧
      LeafGood cfg holds (⟨v, key, some payload⟩ :: log) f records' := by
  rcases h.search hkey with ⟨pos, r, hsearch, hr, rfl, hholds⟩ | ⟨pos, hsearch, -⟩
  · obtain ⟨versionIndex, hpush, hholds'⟩ := hk.push hholds (storyOf_before hb) hv payload toss
    refine ⟨records.set pos { r with versionIndex }, ?_, by simp, ?_⟩
    · simp only [Node.pushRecordPoint, hsearch, getUnchecked_eq hr, ok_bind, hpush]
      rfl
    · exact h.set hr (s := ⟨v, r.key, some payload⟩) rfl hholds'
  · exact pushRecordPoint_new h hkey hmax hlen (hk.new payload hv) toss hsearch

/-- A lookup in a leaf answers as the reference does. -/
theorem LeafGood.lookup (hk : Keeps cfg.index holds) (h : LeafGood cfg holds log f records)
    (hv : v < 2 ^ 63) :
    ∀ r ∈ records, ∃ found, cfg.index.find v r.versionIndex = .ok found ∧
      found.map Prod.snd = liveAt log r.key v :=
  fun r hr => ⟨_, hk.find (h.told r hr) hv, liveAt_storyOf log r.key v⟩

end Operations

end CMVBT.BaselineInvariant
