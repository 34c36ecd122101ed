import CMVBT.BaselineDescent

/-!
# The leaf that an insertion reaches

A descent for an insertion splits the full pages on its way. The leaf that it
reaches is the leaf of its key in the tree before, or the half with the key when
that leaf was full.
-/
namespace CMVBT.LeafHalves
open PageModel hiding Node
open KeyInterval OrderedMap VersionChain VersionedLog SeparatorRow BaselinePages BaselineTree
  BaselineInvariant BaselineDescent

variable {K V P : Type} [LinearOrder K]

/-- A leaf with its fence. -/
abbrev FencedLeaf (K V : Type) := Interval K × List (VersionedRecordPoint K V)

/-- The leaf of a key below a block with fence `f`. -/
def leafOf (cfg : TreeConfig K V P) (key : K) :
    ℕ → Interval K → Node K V → Except Fault (FencedLeaf K V)
  | 0, _, _ => .error .outOfFuel
  | _ + 1, f, .leaf records => .ok (f, records)
  | fuel + 1, f, .index keys children => do
    let (pos, next) ← nextNode keys children (cfg.keys.incKey key)
    leafOf cfg key fuel (childFence cfg keys f pos) next

/-- A leaf with room, or the half of a full leaf on the side of the key. -/
def roomFor (cfg : TreeConfig K V P) (key : K) (leaf : FencedLeaf K V) : FencedLeaf K V :=
  if leaf.2.length < cfg.sizes.numRecords then leaf
  else
    match leaf.2[leaf.2.length / 2]? with
    | some r =>
      if key < r.key then
        (⟨leaf.1.lower, cfg.keys.decKey r.key⟩, leaf.2.take (leaf.2.length / 2))
      else (⟨r.key, leaf.1.upper⟩, leaf.2.drop (leaf.2.length / 2))
    | none => leaf

variable {cfg : TreeConfig K V P} {holds : Story P → V → Prop} {log : Log K P} {h : ℕ}
  {f g : Interval K} {key : K} {node : Node K V} {keys : List K} {children : List (Node K V)}
  {records : List (VersionedRecordPoint K V)} {guard : List ℕ}

theorem leafOf_at (hat : LeafAt cfg holds log h f node guard g records) (hkey : key ∈ g) {fuel : ℕ}
    (hfuel : h + 1 ≤ fuel) : leafOf cfg key fuel f node = .ok (g, records) := by
  induction h generalizing f node guard fuel with
  | zero =>
    obtain ⟨fuel, rfl⟩ : ∃ n, fuel = n + 1 := ⟨fuel - 1, by omega⟩
    cases node with
    | index => exact hat.elim
    | leaf =>
      cases guard with
      | cons => exact hat.elim
      | nil =>
        obtain ⟨rfl, rfl, -⟩ := hat
        rfl
  | succ h ih =>
    obtain ⟨fuel, rfl⟩ : ∃ n, fuel = n + 1 := ⟨fuel - 1, by omega⟩
    cases node with
    | leaf => exact hat.elim
    | index keys children =>
      cases guard with
      | nil => exact hat.elim
      | cons pos guard =>
        obtain ⟨-, -, g', c, hspot, hbelow⟩ := hat
        have hnext := nextNode_at hspot (hbelow.within _ hkey)
        have hfence : childFence cfg keys f pos = g' := hspot.fence.symm
        simp only [leafOf, hnext, ok_bind, hfence]
        exact ih hbelow (by omega)

/-! ## Halves -/

section Room
variable {leaf : FencedLeaf K V}

theorem roomFor_small (hsmall : leaf.2.length < cfg.sizes.numRecords) :
    roomFor cfg key leaf = leaf := if_pos hsmall

/-- A half of a full leaf is not full. -/
theorem roomFor_length (hlen : leaf.2.length ≤ cfg.sizes.numRecords) :
    (roomFor cfg key leaf).2.length < cfg.sizes.numRecords := by
  have htwo := cfg.sizes.numRecords_min
  unfold roomFor
  split
  · assumption
  · next hfull =>
    have hmid : leaf.2.length / 2 < leaf.2.length := by omega
    rw [List.getElem?_eq_getElem hmid]
    dsimp only
    split
    · rw [List.length_take]
      omega
    · rw [List.length_drop]
      omega

/-- A leaf that splits make of another one. -/
def Comes (cfg : TreeConfig K V P) (key : K) (old leaf : FencedLeaf K V) : Prop :=
  leaf = old ∨ leaf = roomFor cfg key old

theorem Comes.trans {old middle : FencedLeaf K V} (h : Comes cfg key old middle)
    (h' : Comes cfg key middle leaf) (hlen : old.2.length ≤ cfg.sizes.numRecords) :
    Comes cfg key old leaf := by
  rcases h with rfl | rfl
  · exact h'
  · rw [Comes, roomFor_small (roomFor_length hlen)] at h'
    exact .inr (h'.elim id id)

theorem Comes.eq_room {old : FencedLeaf K V} (h : Comes cfg key old leaf)
    (hsmall : leaf.2.length < cfg.sizes.numRecords) : leaf = roomFor cfg key old := by
  rcases h with rfl | h
  · rw [roomFor_small hsmall]
  · exact h

end Room

/-- The half of a full page on the side of a key has the leaf of the key. -/
theorem halves_leafAt (hat : LeafAt cfg holds log h f node guard g records) (hkey : key ∈ g)
    (hover : hasOverflow cfg node = true) {left right : Node K V} {m : K}
    (hhalves : halves node = .ok (left, m, right)) :
    ∃ guard' leaf, Comes cfg key (g, records) leaf ∧ key ∈ leaf.1 ∧
      (key < m → LeafAt cfg holds log h ⟨f.lower, cfg.keys.decKey m⟩ left guard' leaf.1 leaf.2) ∧
      (m ≤ key → LeafAt cfg holds log h ⟨m, f.upper⟩ right guard' leaf.1 leaf.2) := by
  obtain ⟨left', m', right', hhalves', hm, hleft, hright, -⟩ := halves_shaped hat.shaped.1 hover
  rw [hhalves] at hhalves'
  cases hhalves'
  cases h with
  | zero =>
    cases node with
    | index => exact hat.elim
    | leaf records =>
      cases guard with
      | cons => exact hat.elim
      | nil =>
        obtain ⟨rfl, rfl, hgood⟩ := hat
        have hfull : ¬ records.length < cfg.sizes.numRecords := by
          simpa [hasOverflow_leaf] using hover
        have hmid : records.length / 2 < records.length := by
          have htwo := cfg.sizes.numRecords_min
          omega
        have hget := List.getElem?_eq_getElem hmid
        simp only [halves, getUnchecked_eq hget, ok_bind] at hhalves
        cases hhalves
        have hroom : roomFor cfg key (f, records) =
            if key < records[records.length / 2].key then
              (⟨f.lower, cfg.keys.decKey records[records.length / 2].key⟩,
                records.take (records.length / 2))
            else (⟨records[records.length / 2].key, f.upper⟩,
              records.drop (records.length / 2)) := by
          unfold roomFor
          rw [if_neg hfull, hget]
        refine ⟨[], _, .inr hroom.symm, ?_, fun hlt => ?_, fun hge => ?_⟩
        · split
          · next hlt => exact (mem_left hm.1).mpr ⟨hkey.1, hlt⟩
          · next hge => exact ⟨not_lt.mp hge, hkey.2⟩
        · rw [if_pos hlt]
          exact ⟨rfl, rfl, hleft.1⟩
        · rw [if_neg (not_lt.mpr hge)]
          exact ⟨rfl, rfl, hright.1⟩
  | succ h =>
    cases node with
    | leaf => exact hat.elim
    | index keys children =>
      cases guard with
      | nil => exact hat.elim
      | cons pos guard =>
        obtain ⟨hne, hcap, g', c, hspot, hbelow⟩ := hat
        have hfull : directoryLimit cfg ≤ keys.length := by
          simpa [hasOverflow_index] using hover
        have hmid : keys.length / 2 < keys.length := by
          have := directoryLimit_min cfg
          omega
        have hget := List.getElem?_eq_getElem hmid
        simp only [halves, getUnchecked_eq hget, ok_bind] at hhalves
        cases hhalves
        rcases hspot.split hget (hbelow.within _ hkey) with ⟨hlt, hpart⟩ | ⟨hge, hpart⟩
        · refine ⟨pos :: guard, (g, records), .inl rfl, hkey, fun _ => ?_, fun hge => ?_⟩
          · exact ⟨hleft.1.1, hleft.1.2.1, g', c, hpart, hbelow⟩
          · exact absurd hlt (not_lt.mpr hge)
        · refine ⟨(pos - (keys.length / 2 + 1)) :: guard, (g, records), .inl rfl, hkey,
            fun hlt => ?_, fun _ => ?_⟩
          · exact absurd hlt (not_lt.mpr hge)
          · exact ⟨hright.1.1, hright.1.2.1, g', c, hpart, hbelow⟩

/-! ## The descent -/

/-- Repairing a full child leads to a child that is not full, with the leaf of the key. -/
theorem doOverflowCorrection_leafAt {pos : ℕ} {c : Node K V} {g' : Interval K}
    (hroom : keys.length < directoryLimit cfg)
    (hspot : Spot cfg.keys (Child cfg holds log h) f keys children pos g' c)
    (hat : LeafAt cfg holds log h g' c guard g records) (hkey : key ∈ g)
    (hover : hasOverflow cfg c = true) :
    ∃ keys' children' pos' g₁ c₁ guard₁ leaf,
      doOverflowCorrection cfg keys children pos c = .ok (.index keys' children') ∧
      keys'.length = keys.length + 1 ∧
      Spot cfg.keys (Child cfg holds log h) f keys' children' pos' g₁ c₁ ∧
      hasOverflow cfg c₁ = false ∧ LeafAt cfg holds log h g₁ c₁ guard₁ leaf.1 leaf.2 ∧
      key ∈ leaf.1 ∧ Comes cfg key (g, records) leaf := by
  have hin := hat.within _ hkey
  obtain ⟨left, m, right, hhalves, hm, hleft, hright, hleft', hright'⟩ :=
    halves_shaped hspot.child_good.1 hover
  obtain ⟨keys', children', hcorrect, hlen, -⟩ :=
    doOverflowCorrection_row hroom hspot hin hover
  obtain ⟨guard₁, leaf, hcomes, hleaf, hlow, hhigh⟩ := halves_leafAt hat hkey hover hhalves
  have hboth : keys' = keys.insertIdx pos m ∧
      children' = (children.set pos left).insertIdx (pos + 1) right := by
    have hrun := hcorrect
    simp only [doOverflowCorrection, hhalves, ok_bind] at hrun
    obtain ⟨children₁, hchildren, hrun⟩ := of_bind_ok hrun
    obtain ⟨keys₁, hkeys, hrun⟩ := of_bind_ok hrun
    cases hrun
    exact ⟨insertAt_result hkeys, insertAt_result hchildren⟩
  obtain ⟨rfl, rfl⟩ := hboth
  obtain ⟨hbefore, hbehind⟩ := hspot.insert_spot hin (fun _ _ _ hgood => hgood) hm.1 hm.2.1 hm.2.2
    hleft hright
  rcases lt_or_ge key m with hlt | hge
  · exact ⟨_, _, pos, _, left, guard₁, leaf, hcorrect, hlen, hbefore hlt, hleft', hlow hlt, hleaf,
      hcomes⟩
  · exact ⟨_, _, pos + 1, _, right, guard₁, leaf, hcorrect, hlen, hbehind hge, hright', hhigh hge,
      hleaf, hcomes⟩

/-- Entering a child that is not full. -/
theorem enters_child {fuel pos : ℕ} {c node' : Node K V} {guard' : List ℕ} {g₁ g' : Interval K}
    {records' : List (VersionedRecordPoint K V)}
    (hspot : Spot cfg.keys (Child cfg holds log h) f keys children pos g₁ c) (hkey : key ∈ g₁)
    (hsmall : hasOverflow cfg c = false)
    (hrun : traversalWriteOlcInternal cfg key false (fuel + 1) (.index keys children) =
      .ok (node', guard'))
    (hat : LeafAt cfg holds log (h + 1) f node' guard' g' records') :
    ∃ c' guard₁, traversalWriteOlcInternal cfg key false fuel c = .ok (c', guard₁) ∧
      LeafAt cfg holds log h g₁ c' guard₁ g' records' := by
  have hunder := hspot.child_good.2
  simp only [traversalWriteOlcInternal, nextNode_at hspot hkey, ok_bind, hsmall, hunder,
    Bool.and_false, Bool.false_eq_true, if_false] at hrun
  obtain ⟨⟨c', guard₁⟩, hbelow, hdone⟩ := of_bind_ok hrun
  cases hdone
  obtain ⟨-, -, g₂, c₂, hspot₂, hat₂⟩ := hat
  obtain rfl : g₁ = g₂ := hspot.fence.trans hspot₂.fence.symm
  have hget := hspot₂.get
  rw [List.getElem?_set_self (List.getElem?_eq_some_iff.mp hspot.get).1] at hget
  cases hget
  exact ⟨_, guard₁, hbelow, hat₂⟩

theorem traversalWriteOlcInternal_comes {fuel : ℕ} {node' : Node K V} {guard' : List ℕ}
    {g' : Interval K} {records' : List (VersionedRecordPoint K V)}
    (hat : LeafAt cfg holds log h f node guard g records) (hkey : key ∈ g)
    (hroot : hasOverflow cfg node = false)
    (hrun : traversalWriteOlcInternal cfg key false fuel node = .ok (node', guard'))
    (hat' : LeafAt cfg holds log h f node' guard' g' records') :
    Comes cfg key (g, records) (g', records') := by
  induction h generalizing f node guard g records fuel node' guard' with
  | zero =>
    cases fuel with
    | zero => cases hrun
    | succ fuel =>
      cases node with
      | index => exact hat.elim
      | leaf =>
        cases hrun
        obtain ⟨rfl, rfl, -⟩ := hat'
        cases guard with
        | cons => exact hat.elim
        | nil =>
          obtain ⟨rfl, rfl, -⟩ := hat
          exact .inl rfl
  | succ h ih =>
    cases node with
    | leaf => exact hat.elim
    | index keys children =>
      cases guard with
      | nil => exact hat.elim
      | cons pos guard =>
        have hlen := hat.shaped.2.length_le
        obtain ⟨-, -, g₁, c, hspot, hbelow⟩ := hat
        have hin := hbelow.within _ hkey
        cases fuel with
        | zero => cases hrun
        | succ fuel =>
          cases hover : hasOverflow cfg c with
          | false =>
            obtain ⟨c', guard₁, hrun', hat₁⟩ := enters_child hspot hin hover hrun hat'
            exact ih hbelow hkey hover hrun' hat₁
          | true =>
            have hroom : keys.length < directoryLimit cfg := by
              simpa [hasOverflow_index] using hroot
            obtain ⟨keys', children', pos', g₂, c₂, guard₂, leaf, hcorrect, -, hspot₂, hsmall,
              hbelow₂, hleaf, hcomes⟩ := doOverflowCorrection_leafAt hroom hspot hbelow hkey hover
            simp only [traversalWriteOlcInternal, nextNode_at hspot hin, ok_bind, hover, hcorrect,
              Bool.not_false, Bool.and_self, if_true] at hrun
            cases fuel with
            | zero => cases hrun
            | succ fuel =>
              obtain ⟨c', guard₁, hrun', hat₁⟩ :=
                enters_child hspot₂ (hbelow₂.within _ hleaf) hsmall hrun hat'
              exact hcomes.trans (ih hbelow₂ hleaf hsmall hrun' hat₁) hlen

/-- The root after its split has the leaf of the key. -/
theorem retrieveRootOlc_leafAt (hat : LeafAt cfg holds log h f node guard g records) (hkey : key ∈ g)
    {fuel : ℕ} (hfuel : 2 ≤ fuel) :
    ∃ root h' guard' leaf, retrieveRootOlc cfg fuel node = .ok root ∧ h' ≤ h + 1 ∧
      LeafAt cfg holds log h' f root guard' leaf.1 leaf.2 ∧ key ∈ leaf.1 ∧
      Comes cfg key (g, records) leaf ∧ hasOverflow cfg root = false := by
  obtain ⟨fuel, rfl⟩ : ∃ n, fuel = n + 2 := ⟨fuel - 2, by omega⟩
  cases hover : hasOverflow cfg node with
  | false =>
    exact ⟨node, h, guard, (g, records), retrieveRootOlc_small hover (fuel + 1), Nat.le_succ h, hat,
      hkey, .inl rfl, hover⟩
  | true =>
    obtain ⟨left, m, right, hhalves, hm, hleft, hright, -⟩ := halves_shaped hat.shaped.1 hover
    obtain ⟨guard', leaf, hcomes, hleaf, hlow, hhigh⟩ := halves_leafAt hat hkey hover hhalves
    have hretrieve := retrieveRootOlc_full hover hhalves fuel
    have hsmall : hasOverflow cfg (.index [m] [left, right]) = false :=
      splitRoot_small m left right
    have hfits : [m].length ≤ directoryLimit cfg := by
      have := directoryLimit_min cfg
      rw [List.length_singleton]
      omega
    rcases lt_or_ge key m with hlt | hge
    · refine ⟨_, h + 1, 0 :: guard', leaf, hretrieve, le_rfl, ?_, hleaf, hcomes, hsmall⟩
      exact ⟨List.cons_ne_nil _ _, hfits, _, left,
        .here hm.1 hm.2.1 hm.2.2 hleft (.last hright), hlow hlt⟩
    · refine ⟨_, h + 1, 1 :: guard', leaf, hretrieve, le_rfl, ?_, hleaf, hcomes, hsmall⟩
      exact ⟨List.cons_ne_nil _ _, hfits, _, right,
        .there hm.1 hm.2.1 hm.2.2 hleft (.last hright), hhigh hge⟩

/-- An insertion reaches what is left of the leaf of its key. -/
theorem traversalWriteOlcOp_room (hs : Shaped cfg holds log h f node) (hkey : key ∈ f) {fuel : ℕ}
    (hfuel : 2 * h + 3 ≤ fuel) :
    ∃ root guard h' g records old, traversalWriteOlcOp cfg fuel node key false = .ok (root, guard) ∧
      h' ≤ h + 1 ∧ LeafAt cfg holds log h' f root guard g records ∧ key ∈ g ∧
      records.length < cfg.sizes.numRecords ∧
      leafOf cfg key fuel f node = .ok old ∧ (g, records) = roomFor cfg key old := by
  obtain ⟨guard₀, g₀, records₀, hat₀, hkey₀⟩ := leafAt_of_shaped hs hkey
  have hleaf := leafOf_at hat₀ hkey₀ (show h + 1 ≤ fuel by omega)
  have hlen := hat₀.shaped.2.length_le
  obtain ⟨root, h₁, guard₁, leaf, hretrieve, hheight, hat₁, hkey₁, hcomes, hsmall⟩ :=
    retrieveRootOlc_leafAt hat₀ hkey₀ (show 2 ≤ fuel by omega)
  obtain ⟨root', guard, g, records, hrun, hat, hg, hroom, -⟩ :=
    traversalWriteOlcInternal_reaches false hat₁.shaped.1 hkey (fun _ => hsmall)
      (show 2 * h₁ + 1 ≤ fuel by omega)
  have hreached := hcomes.trans (traversalWriteOlcInternal_comes hat₁ hkey₁ hsmall hrun hat) hlen
  refine ⟨root', guard, h₁, g, records, (g₀, records₀), ?_, hheight, hat, hg,
    hroom rfl, hleaf, hreached.eq_room (hroom rfl)⟩
  simp only [traversalWriteOlcOp, hretrieve, ok_bind, hrun]

end CMVBT.LeafHalves
