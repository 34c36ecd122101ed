import CMVBT.BaselineInvariant

/-!
# Descents keep the tree in shape

Every leaf is at the same depth and good for its fence, every directory is a row of
children that are not underfull. A descent for an insertion splits the full
children it meets, in room that the page above still has, so the underflow
correction never starts. It ends in the leaf whose fence holds the key.
-/
namespace CMVBT.BaselineDescent
open PageModel hiding Node
open KeyInterval OrderedMap VersionChain ChainRefinement VersionedLog SeparatorRow
  BaselinePages BaselineTree BaselineInvariant

variable {K V P : Type} [LinearOrder K]

/-- The separators that a directory holds before it is full. -/
def directoryLimit (cfg : TreeConfig K V P) : ℕ := cfg.sizes.allocationDirectory - 1

/-- A tree of height `h` below a block with fence `f`. -/
def Shaped (cfg : TreeConfig K V P) (holds : Story P → V → Prop) (log : Log K P) :
    ℕ → Interval K → Node K V → Prop
  | 0, f, .leaf records => LeafGood cfg holds log f records
  | h + 1, f, .index keys children => keys ≠ [] ∧ keys.length ≤ directoryLimit cfg ∧
      Row cfg.keys (fun g c => Shaped cfg holds log h g c ∧ hasUnderflow cfg c = false) f keys children
  | _, _, _ => False

variable {cfg : TreeConfig K V P} {holds : Story P → V → Prop} {log : Log K P} {h : ℕ}
  {f g : Interval K} {key : K}
  {node : Node K V} {keys : List K} {children : List (Node K V)}

/-- A child below a directory. -/
abbrev Child (cfg : TreeConfig K V P) (holds : Story P → V → Prop) (log : Log K P) (h : ℕ)
    (g : Interval K)
    (c : Node K V) : Prop := Shaped cfg holds log h g c ∧ hasUnderflow cfg c = false

section Sizes

theorem directoryLimit_min (cfg : TreeConfig K V P) : 3 ≤ directoryLimit cfg := by
  have := cfg.sizes.fanOut_min
  unfold directoryLimit Sizes.allocationDirectory
  omega

theorem hasOverflow_leaf (records : List (VersionedRecordPoint K V)) :
    hasOverflow cfg (.leaf records) = decide (cfg.sizes.numRecords ≤ records.length) := rfl

theorem hasOverflow_index (keys : List K) (children : List (Node K V)) :
    hasOverflow cfg (.index keys children) = decide (directoryLimit cfg ≤ keys.length) := rfl

theorem hasUnderflow_leaf (records : List (VersionedRecordPoint K V)) :
    hasUnderflow cfg (.leaf records) = decide (records.length < cfg.sizes.numRecords / 2 - 1) := rfl

theorem hasUnderflow_index (keys : List K) (children : List (Node K V)) :
    hasUnderflow cfg (.index keys children) =
      decide (keys.length < (directoryLimit cfg + 1) / 2 - 1) := by
  have := cfg.sizes.fanOut_min
  have hlimit : directoryLimit cfg + 1 = cfg.sizes.allocationDirectory := by
    unfold directoryLimit Sizes.allocationDirectory
    omega
  rw [hlimit]
  rfl

end Sizes

/-- A change of a key outside the fence does not concern a tree. -/
theorem Shaped.frame {s : Stamp K P} (hs : Shaped cfg holds log h f node) (hkey : s.key ∉ f) :
    Shaped cfg holds (s :: log) h f node := by
  induction h generalizing f node with
  | zero =>
    cases node with
    | leaf records => exact LeafGood.frame hs hkey
    | index => exact hs.elim
  | succ h ih =>
    cases node with
    | leaf => exact hs.elim
    | index keys children =>
      obtain ⟨hne, hlen, hrow⟩ := hs
      refine ⟨hne, hlen, hrow.mono fun g c hg hc => ⟨ih hc.1 fun hk => hkey (hg _ hk), hc.2⟩⟩

/-! ## Splits -/

/-- Both halves of a full page are in shape, neither full nor underfull. -/
theorem halves_shaped (hs : Shaped cfg holds log h f node) (hover : hasOverflow cfg node = true) :
    ∃ left m right, halves node = .ok (left, m, right) ∧
      (f.lower < m ∧ m ≤ f.upper ∧ m < cfg.keys.maxKey) ∧
      Child cfg holds log h ⟨f.lower, cfg.keys.decKey m⟩ left ∧
      Child cfg holds log h ⟨m, f.upper⟩ right ∧
      hasOverflow cfg left = false ∧ hasOverflow cfg right = false := by
  cases h with
  | zero =>
    cases node with
    | index => exact hs.elim
    | leaf records =>
      have hgood : LeafGood cfg holds log f records := hs
      have hfull : cfg.sizes.numRecords = records.length :=
        le_antisymm (by simpa [hasOverflow_leaf] using hover) hgood.length_le
      have htwo := cfg.sizes.numRecords_min
      have hmid : records.length / 2 < records.length := by omega
      have hget := List.getElem?_eq_getElem hmid
      obtain ⟨hm, hleft, hright⟩ := hgood.cut (by omega) hget (by omega)
      refine ⟨.leaf (records.take (records.length / 2)), records[records.length / 2].key,
        .leaf (records.drop (records.length / 2)), ?_, hm, ⟨hleft, ?_⟩, ⟨hright, ?_⟩, ?_, ?_⟩
      · simp only [halves, getUnchecked_eq hget, ok_bind]
        rfl
      · simp only [hasUnderflow_leaf, List.length_take, decide_eq_false_iff_not]
        omega
      · simp only [hasUnderflow_leaf, List.length_drop, decide_eq_false_iff_not]
        omega
      · simp only [hasOverflow_leaf, List.length_take, decide_eq_false_iff_not]
        omega
      · simp only [hasOverflow_leaf, List.length_drop, decide_eq_false_iff_not]
        omega
  | succ h =>
    cases node with
    | leaf => exact hs.elim
    | index keys children =>
      obtain ⟨hne, hlen, hrow⟩ := hs
      have hfull : directoryLimit cfg = keys.length :=
        le_antisymm (by simpa [hasOverflow_index] using hover) hlen
      have hthree := directoryLimit_min cfg
      have hmid : keys.length / 2 < keys.length := by omega
      have hget := List.getElem?_eq_getElem hmid
      obtain ⟨hm, hleft, hright⟩ := hrow.split hget
      refine ⟨.index (keys.take (keys.length / 2)) (children.take (keys.length / 2 + 1)),
        keys[keys.length / 2],
        .index (keys.drop (keys.length / 2 + 1)) (children.drop (keys.length / 2 + 1)), ?_, hm,
        ⟨⟨?_, ?_, hleft⟩, ?_⟩, ⟨⟨?_, ?_, hright⟩, ?_⟩, ?_, ?_⟩
      · simp only [halves, getUnchecked_eq hget, ok_bind]
        rfl
      · exact List.ne_nil_of_length_pos (by rw [List.length_take]; omega)
      · rw [List.length_take]
        omega
      · simp only [hasUnderflow_index, List.length_take, decide_eq_false_iff_not]
        omega
      · exact List.ne_nil_of_length_pos (by rw [List.length_drop]; omega)
      · rw [List.length_drop]
        omega
      · simp only [hasUnderflow_index, List.length_drop, decide_eq_false_iff_not]
        omega
      · simp only [hasOverflow_index, List.length_take, decide_eq_false_iff_not]
        omega
      · simp only [hasOverflow_index, List.length_drop, decide_eq_false_iff_not]
        omega

theorem retrieveRootInternal_small (hsmall : hasOverflow cfg node = false) :
    retrieveRootInternal cfg node = .ok (.ok node) := by
  rw [retrieveRootInternal, hsmall]
  rfl

theorem retrieveRootInternal_full (hover : hasOverflow cfg node = true)
    {left right : Node K V} {m : K} (hhalves : halves node = .ok (left, m, right)) :
    retrieveRootInternal cfg node = .ok (if node.isLeaf then .err (.index [m] [left, right])
      else .ok (.index [m] [left, right])) := by
  simp only [retrieveRootInternal, hover, hhalves, ok_bind]
  cases node.isLeaf <;> rfl

/-- A directory over two halves is not full. -/
theorem splitRoot_small (m : K) (left right : Node K V) :
    hasOverflow cfg (.index [m] [left, right]) = false := by
  have hthree := directoryLimit_min cfg
  rw [hasOverflow_index, decide_eq_false_iff_not, List.length_singleton]
  omega

theorem retrieveRootOlc_small (hsmall : hasOverflow cfg node = false) (fuel : ℕ) :
    retrieveRootOlc cfg (fuel + 1) node = .ok node := by
  rw [retrieveRootOlc, retrieveRootInternal_small hsmall]
  rfl

theorem retrieveRootOlc_full (hover : hasOverflow cfg node = true) {left right : Node K V} {m : K}
    (hhalves : halves node = .ok (left, m, right)) (fuel : ℕ) :
    retrieveRootOlc cfg (fuel + 2) node = .ok (.index [m] [left, right]) := by
  rw [retrieveRootOlc, retrieveRootInternal_full hover hhalves, ok_bind]
  cases node.isLeaf with
  | false => rfl
  | true =>
    -- the restart finds the new root, which is not full
    exact retrieveRootOlc_small (splitRoot_small m left right) fuel

/-- A split root is not full, and the tree above it is in shape. -/
theorem retrieveRootOlc_shaped (hs : Shaped cfg holds log h f node) {fuel : ℕ} (hfuel : 2 ≤ fuel) :
    ∃ root h', retrieveRootOlc cfg fuel node = .ok root ∧ h' ≤ h + 1 ∧ Shaped cfg holds log h' f root ∧
      hasOverflow cfg root = false := by
  obtain ⟨fuel, rfl⟩ : ∃ n, fuel = n + 2 := ⟨fuel - 2, by omega⟩
  cases hover : hasOverflow cfg node with
  | false => exact ⟨node, h, retrieveRootOlc_small hover (fuel + 1), Nat.le_succ h, hs, hover⟩
  | true =>
    obtain ⟨left, m, right, hhalves, hm, hleft, hright, -⟩ := halves_shaped hs hover
    have hthree := directoryLimit_min cfg
    have hfits : [m].length ≤ directoryLimit cfg := by
      rw [List.length_singleton]
      omega
    exact ⟨_, h + 1, retrieveRootOlc_full hover hhalves fuel, le_rfl,
      ⟨List.cons_ne_nil _ _, hfits, .cons hm.1 hm.2.1 hm.2.2 hleft (.last hright)⟩,
      splitRoot_small m left right⟩

/-! ## The way down -/

/-- A guard on the leaf with fence `g` below a tree. -/
def LeafAt (cfg : TreeConfig K V P) (holds : Story P → V → Prop) (log : Log K P) :
    ℕ → Interval K → Node K V → List ℕ → Interval K →
      List (VersionedRecordPoint K V) → Prop
  | 0, f, .leaf records, [], g, records' =>
      f = g ∧ records = records' ∧ LeafGood cfg holds log f records
  | h + 1, f, .index keys children, pos :: guard, g, records => keys ≠ [] ∧
      keys.length ≤ directoryLimit cfg ∧
      ∃ g' c, Spot cfg.keys (Child cfg holds log h) f keys children pos g' c ∧
        LeafAt cfg holds log h g' c guard g records
  | _, _, _, _, _, _ => False

theorem LeafAt.within {guard : List ℕ} {records : List (VersionedRecordPoint K V)}
    (hat : LeafAt cfg holds log h f node guard g records) : g.Within f := by
  induction h generalizing f node guard with
  | zero =>
    cases node with
    | index => exact hat.elim
    | leaf =>
      cases guard with
      | nil =>
        obtain ⟨rfl, -⟩ := hat
        exact fun _ hk => hk
      | cons => exact hat.elim
  | succ h ih =>
    cases node with
    | leaf => exact hat.elim
    | index =>
      cases guard with
      | nil => exact hat.elim
      | cons =>
        obtain ⟨-, -, g', c, hspot, hbelow⟩ := hat
        exact (ih hbelow).trans hspot.within

theorem LeafAt.shaped {guard : List ℕ} {records : List (VersionedRecordPoint K V)}
    (hat : LeafAt cfg holds log h f node guard g records) :
    Shaped cfg holds log h f node ∧ LeafGood cfg holds log g records := by
  induction h generalizing f node guard with
  | zero =>
    cases node with
    | index => exact hat.elim
    | leaf =>
      cases guard with
      | cons => exact hat.elim
      | nil =>
        obtain ⟨rfl, rfl, hgood⟩ := hat
        exact ⟨hgood, hgood⟩
  | succ h ih =>
    cases node with
    | leaf => exact hat.elim
    | index =>
      cases guard with
      | nil => exact hat.elim
      | cons =>
        obtain ⟨hne, hcap, g', c, hspot, hbelow⟩ := hat
        exact ⟨⟨hne, hcap, hspot.row⟩, (ih hbelow).2⟩

/-- Writing a leaf in place: the tree has the new leaf, and elsewhere nothing that
the change concerns. -/
theorem LeafAt.write {guard : List ℕ} {records records' : List (VersionedRecordPoint K V)}
    {log' : Log K P} {A : Type} {a : A} {op : Node K V → Except Fault (Node K V × A)}
    (hat : LeafAt cfg holds log h f node guard g records) (hkey : key ∈ g)
    (hop : op (.leaf records) = .ok (.leaf records', a)) (hlen : records.length ≤ records'.length)
    (hgood : LeafGood cfg holds log' g records')
    (hframe : ∀ h f node, key ∉ f → Shaped cfg holds log h f node → Shaped cfg holds log' h f node) :
    ∃ node', derefMut op guard node = .ok (node', a) ∧
      LeafAt cfg holds log' h f node' guard g records' ∧
      (hasUnderflow cfg node = false → hasUnderflow cfg node' = false) := by
  induction h generalizing f node guard with
  | zero =>
    cases node with
    | index => exact hat.elim
    | leaf =>
      cases guard with
      | cons => exact hat.elim
      | nil =>
        obtain ⟨rfl, rfl, -⟩ := hat
        refine ⟨.leaf records', hop, ⟨rfl, rfl, hgood⟩, ?_⟩
        simp only [hasUnderflow_leaf, decide_eq_false_iff_not]
        omega
  | succ h ih =>
    cases node with
    | leaf => exact hat.elim
    | index keys children =>
      cases guard with
      | nil => exact hat.elim
      | cons pos guard =>
        obtain ⟨hne, hcap, g', c, hspot, hbelow⟩ := hat
        obtain ⟨c', hwrite, hc', hunder⟩ := ih hbelow
        refine ⟨.index keys (children.set pos c'), ?_, ⟨hne, hcap, g', c', ?_, hc'⟩,
          fun hsame => hsame⟩
        · simp only [derefMut, getUnchecked_eq hspot.get, ok_bind, hwrite]
          rfl
        · have hkey' : key ∈ g' := hbelow.within key hkey
          refine hspot.set hkey' (fun g'' c'' hout hchild => ?_)
            ⟨hc'.shaped.1, hunder hspot.child_good.2⟩
          exact ⟨hframe h g'' c'' hout hchild.1, hchild.2⟩

/-- What a descent for `key` reaches: a leaf whose fence holds the key, with room
for an insertion. -/
def Reaches (cfg : TreeConfig K V P) (holds : Story P → V → Prop) (log : Log K P) (h : ℕ)
    (f : Interval K) (key : K)
    (appendOp : Bool) (node : Node K V)
    (result : Except Fault (Node K V × List ℕ)) : Prop :=
  ∃ node' guard g records, result = .ok (node', guard) ∧
    LeafAt cfg holds log h f node' guard g records ∧ key ∈ g ∧
    (appendOp = false → records.length < cfg.sizes.numRecords) ∧
    (hasUnderflow cfg node = false → hasUnderflow cfg node' = false)

/-- Entering a child that needs no repair. -/
theorem reaches_child {appendOp : Bool} {fuel pos : ℕ} {c : Node K V} (hne : keys ≠ [])
    (hcap : keys.length ≤ directoryLimit cfg)
    (hspot : Spot cfg.keys (Child cfg holds log h) f keys children pos g c) (hkey : key ∈ g)
    (hnext : nextNode keys children (cfg.keys.incKey key) = .ok (pos, c))
    (hover : (!appendOp && hasOverflow cfg c) = false)
    (hbelow : Reaches cfg holds log h g key appendOp c
      (traversalWriteOlcInternal cfg key appendOp fuel c)) :
    Reaches cfg holds log (h + 1) f key appendOp (.index keys children)
      (traversalWriteOlcInternal cfg key appendOp (fuel + 1) (.index keys children)) := by
  obtain ⟨c', guard, g', records, hrun, hat, hkey', hroom, hunder⟩ := hbelow
  have hc := hspot.child_good.2
  refine ⟨.index keys (children.set pos c'), pos :: guard, g', records, ?_, ?_, hkey', hroom,
    fun hsame => hsame⟩
  · simp only [traversalWriteOlcInternal, hnext, ok_bind, hover, hc, Bool.and_false, hrun]
    rfl
  · refine ⟨hne, hcap, g, c', ?_, hat⟩
    exact hspot.set hkey (fun _ _ _ hchild => hchild) ⟨hat.shaped.1, hunder hc⟩

/-- The child that a descent looks at. -/
theorem nextNode_spot {good : Interval K → Node K V → Prop}
    (hrow : Row cfg.keys good f keys children) (hkey : key ∈ f) :
    ∃ pos g c, Spot cfg.keys good f keys children pos g c ∧ key ∈ g ∧
      nextNode keys children (cfg.keys.incKey key) = .ok (pos, c) := by
  obtain ⟨g, c, hspot, hg⟩ := hrow.locate hkey
  refine ⟨_, g, c, hspot, hg, ?_⟩
  simp only [nextNode, hrow.childPosition key, getUnchecked_eq hspot.get, ok_bind]
  rfl

/-- The search for a key goes to the spot whose fence holds it. -/
theorem nextNode_at {good : Interval K → Node K V → Prop} {pos : ℕ} {c : Node K V}
    (hspot : Spot cfg.keys good f keys children pos g c) (hkey : key ∈ g) :
    nextNode keys children (cfg.keys.incKey key) = .ok (pos, c) := by
  simp only [nextNode, hspot.row.childPosition key, ← hspot.pos_eq hkey,
    getUnchecked_eq hspot.get, ok_bind]
  rfl

/-- The correction of a full child, in a directory with room. -/
theorem doOverflowCorrection_row {pos : ℕ} {c : Node K V}
    (hroom : keys.length < directoryLimit cfg)
    (hspot : Spot cfg.keys (Child cfg holds log h) f keys children pos g c) (hkey : key ∈ g)
    (hover : hasOverflow cfg c = true) :
    ∃ keys' children', doOverflowCorrection cfg keys children pos c =
        .ok (.index keys' children') ∧ keys'.length = keys.length + 1 ∧
      Row cfg.keys (fun g c => Child cfg holds log h g c ∧ (key ∈ g → hasOverflow cfg c = false)) f
        keys' children' := by
  obtain ⟨left, m, right, hhalves, hm, hleft, hright, hleft', hright'⟩ :=
    halves_shaped hspot.child_good.1 hover
  have hpos := hspot.pos_le
  have hlen := hspot.row.length_eq
  have hfan : directoryLimit cfg + 2 = cfg.sizes.fanOut := by
    have := cfg.sizes.fanOut_min
    unfold directoryLimit Sizes.allocationDirectory
    omega
  have hchildren : pos + 1 ≤ (children.set pos left).length := by
    rw [List.length_set]
    omega
  have hcapacity : (children.set pos left).length < cfg.sizes.fanOut := by
    rw [List.length_set]
    omega
  refine ⟨keys.insertIdx pos m, (children.set pos left).insertIdx (pos + 1) right, ?_,
    List.length_insertIdx_of_le_length hpos m, ?_⟩
  · simp only [doOverflowCorrection, hhalves, ok_bind, insertAt_eq hchildren hcapacity,
      insertAt_eq hpos (show keys.length < cfg.sizes.fanOut - 1 by omega)]
    rfl
  · refine hspot.insert hkey (fun g' c' hout hchild => ⟨hchild, fun hin => absurd hin hout⟩)
      hm.1 hm.2.1 hm.2.2 ⟨hleft, fun _ => hleft'⟩ ⟨hright, fun _ => hright'⟩

/-- A descent reaches the leaf of its key, after at most one correction at each level. -/
theorem traversalWriteOlcInternal_reaches (appendOp : Bool) (hs : Shaped cfg holds log h f node)
    (hkey : key ∈ f) (hroot : appendOp = false → hasOverflow cfg node = false) {fuel : ℕ}
    (hfuel : 2 * h + 1 ≤ fuel) :
    Reaches cfg holds log h f key appendOp node
      (traversalWriteOlcInternal cfg key appendOp fuel node) := by
  induction h generalizing f node fuel with
  | zero =>
    obtain ⟨fuel, rfl⟩ : ∃ n, fuel = n + 1 := ⟨fuel - 1, by omega⟩
    cases node with
    | index => exact hs.elim
    | leaf records =>
      refine ⟨.leaf records, [], f, records, rfl, ⟨rfl, rfl, hs⟩, hkey, fun happend => ?_, id⟩
      simpa [hasOverflow_leaf] using hroot happend
  | succ h ih =>
    obtain ⟨fuel, rfl⟩ : ∃ n, fuel = n + 2 := ⟨fuel - 2, by omega⟩
    cases node with
    | leaf => exact hs.elim
    | index keys children =>
      obtain ⟨hne, hcap, hrow⟩ := hs
      obtain ⟨pos, g, c, hspot, hg, hnext⟩ := nextNode_spot hrow hkey
      cases hover : !appendOp && hasOverflow cfg c with
      | false =>
        refine reaches_child hne hcap hspot hg hnext hover (ih hspot.child_good.1 hg ?_ (by omega))
        rintro rfl
        simpa using hover
      | true =>
        obtain ⟨happend, hfull⟩ : appendOp = false ∧ hasOverflow cfg c = true := by
          simpa using hover
        have hroom : keys.length < directoryLimit cfg := by
          simpa [hasOverflow_index] using hroot happend
        obtain ⟨keys', children', hcorrect, hlen, hrow'⟩ :=
          doOverflowCorrection_row hroom hspot hg hfull
        obtain ⟨pos', g', c', hspot', hg', hnext'⟩ := nextNode_spot hrow' hkey
        -- the child that is found now is one of the halves or was not full before
        have hsmall := hspot'.child_good.2 hg'
        have hne' : keys' ≠ [] := List.ne_nil_of_length_pos (by omega)
        have hbelow : Reaches cfg holds log h g' key appendOp c'
            (traversalWriteOlcInternal cfg key appendOp fuel c') :=
          ih hspot'.child_good.1.1 hg' (fun _ => hsmall) (by omega)
        obtain ⟨node', guard, g₁, records, hrun, hat, hkey', hleaf, hunder⟩ :=
          reaches_child hne' (by omega) (hspot'.mono fun _ _ hgood => hgood.1) hg' hnext'
            (by rw [hsmall, Bool.and_false]) hbelow
        refine ⟨node', guard, g₁, records, ?_, hat, hkey', hleaf, ?_⟩
        · rw [← hrun]
          conv_lhs => rw [traversalWriteOlcInternal]
          simp only [hnext, ok_bind, hover, hcorrect]
          rfl
        · intro hsame
          refine hunder ?_
          rw [hasUnderflow_index, decide_eq_false_iff_not] at hsame ⊢
          omega

/-- A write reaches the leaf of its key. -/
theorem traversalWriteOlcOp_reaches (appendOp : Bool) (hs : Shaped cfg holds log h f node)
    (hkey : key ∈ f) {fuel : ℕ} (hfuel : 2 * h + 3 ≤ fuel) :
    ∃ root guard h' g records, traversalWriteOlcOp cfg fuel node key appendOp = .ok (root, guard) ∧
      h' ≤ h + 1 ∧ LeafAt cfg holds log h' f root guard g records ∧ key ∈ g ∧
      (appendOp = false → records.length < cfg.sizes.numRecords) := by
  obtain ⟨root, h', hroot, hheight, hs', hsmall⟩ :=
    retrieveRootOlc_shaped hs (show 2 ≤ fuel by omega)
  obtain ⟨root', guard, g, records, hrun, hat, hg, hroom, -⟩ :=
    traversalWriteOlcInternal_reaches appendOp hs' hkey (fun _ => hsmall)
      (show 2 * h' + 1 ≤ fuel by omega)
  refine ⟨root', guard, h', g, records, ?_, hheight, hat, hg, hroom⟩
  simp only [traversalWriteOlcOp, hroot, ok_bind, hrun]

/-- A read reaches the leaf of its key. -/
theorem traversalReadOlc_reaches (hs : Shaped cfg holds log h f node) (hkey : key ∈ f) {fuel : ℕ}
    (hfuel : h + 1 ≤ fuel) :
    ∃ g records, traversalReadOlc cfg key fuel node = .ok records ∧ LeafGood cfg holds log g records ∧
      key ∈ g := by
  induction h generalizing f node fuel with
  | zero =>
    obtain ⟨fuel, rfl⟩ : ∃ n, fuel = n + 1 := ⟨fuel - 1, by omega⟩
    cases node with
    | index => exact hs.elim
    | leaf records => exact ⟨f, records, rfl, hs, hkey⟩
  | succ h ih =>
    obtain ⟨fuel, rfl⟩ : ∃ n, fuel = n + 1 := ⟨fuel - 1, by omega⟩
    cases node with
    | leaf => exact hs.elim
    | index keys children =>
      obtain ⟨-, -, hrow⟩ := hs
      obtain ⟨pos, g, c, hspot, hg, hnext⟩ := nextNode_spot hrow hkey
      obtain ⟨g', records, hrun, hgood, hg'⟩ :=
        ih hspot.child_good.1 hg (show h + 1 ≤ fuel by omega)
      refine ⟨g', records, ?_, hgood, hg'⟩
      simp only [traversalReadOlc, hnext, ok_bind]
      exact hrun

/-! ## Leaves and their positions -/

/-- Every key of the fence has its leaf. -/
theorem leafAt_of_shaped (hs : Shaped cfg holds log h f node) (hkey : key ∈ f) :
    ∃ guard g records, LeafAt cfg holds log h f node guard g records ∧ key ∈ g := by
  induction h generalizing f node with
  | zero =>
    cases node with
    | index => exact hs.elim
    | leaf records => exact ⟨[], f, records, ⟨rfl, rfl, hs⟩, hkey⟩
  | succ h ih =>
    cases node with
    | leaf => exact hs.elim
    | index keys children =>
      obtain ⟨hne, hcap, hrow⟩ := hs
      obtain ⟨pos, g, c, hspot, hg, -⟩ := nextNode_spot hrow hkey
      obtain ⟨guard, g', records, hat, hkey'⟩ := ih hspot.child_good.1 hg
      exact ⟨pos :: guard, g', records, ⟨hne, hcap, g, c, hspot, hat⟩, hkey'⟩

section Positions
variable {guard guard' : List ℕ} {g' : Interval K}
  {records records' : List (VersionedRecordPoint K V)}

theorem LeafAt.length_eq (hat : LeafAt cfg holds log h f node guard g records) :
    guard.length = h := by
  induction h generalizing f node guard with
  | zero =>
    cases node with
    | index => exact hat.elim
    | leaf =>
      cases guard with
      | nil => rfl
      | cons => exact hat.elim
  | succ h ih =>
    cases node with
    | leaf => exact hat.elim
    | index =>
      cases guard with
      | nil => exact hat.elim
      | cons =>
        obtain ⟨-, -, g', c, -, hbelow⟩ := hat
        rw [List.length_cons, ih hbelow]

/-- One position, one fence. -/
theorem LeafAt.fence_unique (hat : LeafAt cfg holds log h f node guard g records)
    (hat' : LeafAt cfg holds log h f node guard g' records') : g = g' := by
  induction h generalizing f node guard with
  | zero =>
    cases node with
    | index => exact hat.elim
    | leaf =>
      cases guard with
      | cons => exact hat.elim
      | nil => exact hat.1.symm.trans hat'.1
  | succ h ih =>
    cases node with
    | leaf => exact hat.elim
    | index =>
      cases guard with
      | nil => exact hat.elim
      | cons pos guard =>
        obtain ⟨-, -, g₁, c, hspot, hbelow⟩ := hat
        obtain ⟨-, -, g₂, c', hspot', hbelow'⟩ := hat'
        obtain rfl : c = c' := Option.some.inj (hspot.get.symm.trans hspot'.get)
        obtain rfl : g₁ = g₂ := hspot.fence.trans hspot'.fence.symm
        exact ih hbelow hbelow'

end Positions

end CMVBT.BaselineDescent
