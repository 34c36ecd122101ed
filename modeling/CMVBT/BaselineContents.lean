import CMVBT.BaselineDescent

/-!
# The records of a tree in order

A search tree of height `h` has sorted leaves at depth `h`, and its separators tell
the fences of the children. This is less than what the writes keep: nothing is said
about lengths or about what the records hold. A search ends in the one leaf that
may hold its key.
-/
namespace CMVBT.BaselineContents
open PageModel hiding Node
open KeyInterval VersionChain VersionedLog SeparatorRow BaselinePages BaselineTree
  BaselineInvariant BaselineDescent

variable {K V P : Type} [LinearOrder K]

/-- The records of all leaves, from left to right. -/
def contents : ℕ → Node K V → List (VersionedRecordPoint K V)
  | _, .leaf records => records
  | h + 1, .index _ children => children.flatMap (contents h)
  | 0, .index _ _ => []

/-- A search tree of height `h` for the keys of a fence. -/
def Ordered (S : KeySpace K) : ℕ → Interval K → Node K V → Prop
  | 0, f, .leaf records => Sorted VersionedRecordPoint.key records ∧ ∀ r ∈ records, r.key ∈ f
  | h + 1, f, .index keys children => Row S (Ordered S h) f keys children
  | _, _, _ => False

/-! ## Rows and their children -/

section Rows
variable {C : Type} {S : KeySpace K} {good : Interval K → C → Prop} {f g : Interval K}
  {keys : List K} {children : List C} {pos : ℕ} {c : C}

theorem row_mem (h : Row S good f keys children) (hc : c ∈ children) :
    ∃ g, g.Within f ∧ good g c := by
  induction h with
  | last hgood =>
    rw [List.mem_singleton.mp hc]
    exact ⟨_, fun _ hk => hk, hgood⟩
  | cons hlow hup _ hgood _ ih =>
    rcases List.mem_cons.mp hc with rfl | hc
    · exact ⟨_, left_within hlow hup, hgood⟩
    · obtain ⟨g, hg, hgood⟩ := ih hc
      exact ⟨g, hg.trans (right_within hlow), hgood⟩

/-- No other child is good for a fence with a key of the spot. -/
theorem spot_others (h : Spot S good f keys children pos g c) {key : K} (hkey : key ∈ g) {c' : C}
    (hc : c' ∈ children) : c' = c ∨ ∃ g', key ∉ g' ∧ good g' c' := by
  induction h with
  | last => exact .inl (List.mem_singleton.mp hc)
  | here hlow _ _ _ hrest =>
    rcases List.mem_cons.mp hc with rfl | hc
    · exact .inl rfl
    · obtain ⟨g', hg', hgood⟩ := row_mem hrest hc
      refine .inr ⟨g', fun hin => ?_, hgood⟩
      exact absurd (((mem_left hlow).mp hkey).2) (not_lt.mpr (hg' key hin).1)
  | there hlow _ _ hleft hspot ih =>
    rcases List.mem_cons.mp hc with rfl | hc
    · refine .inr ⟨_, fun hin => ?_, hleft⟩
      exact absurd (((mem_left hlow).mp hin).2) (not_lt.mpr (hspot.within key hkey).1)
    · exact ih hkey hc

end Rows

/-! ## Search trees -/

variable {S : KeySpace K} {h : ℕ} {f : Interval K} {node : Node K V}

theorem Ordered.inside (ho : Ordered S h f node) {r : VersionedRecordPoint K V}
    (hr : r ∈ contents h node) : r.key ∈ f := by
  induction h generalizing f node with
  | zero =>
    cases node with
    | leaf records => exact ho.2 r hr
    | index => exact ho.elim
  | succ h ih =>
    cases node with
    | leaf => exact ho.elim
    | index keys children =>
      obtain ⟨c, hc, hin⟩ := List.mem_flatMap.mp hr
      obtain ⟨g, hg, hgood⟩ := row_mem ho hc
      exact hg _ (ih hgood hin)

/-- The records of a tree are sorted. -/
theorem Ordered.sorted (ho : Ordered S h f node) :
    Sorted VersionedRecordPoint.key (contents h node) := by
  induction h generalizing f node with
  | zero =>
    cases node with
    | leaf records => exact ho.1
    | index => exact ho.elim
  | succ h ih =>
    cases node with
    | leaf => exact ho.elim
    | index keys children =>
      have hrow : Row S (Ordered S h) f keys children := ho
      clear ho
      change Sorted VersionedRecordPoint.key (children.flatMap (contents h))
      induction hrow with
      | last hc => simpa using ih hc
      | @cons f m c keys children hlow _ _ hc hrest ihrow =>
        refine List.pairwise_append.mpr ⟨ih hc, ihrow, fun a ha b hb => ?_⟩
        obtain ⟨c', hc', hin⟩ := List.mem_flatMap.mp hb
        obtain ⟨g, hg, hgood⟩ := row_mem hrest hc'
        exact ((mem_left hlow).mp (hc.inside ha)).2.trans_le (hg _ (hgood.inside hin)).1

/-- What the writes keep is a search tree. -/
theorem ordered_of_shaped {cfg : TreeConfig K V P} {holds : Story P → V → Prop} {log : Log K P}
    (hs : Shaped cfg holds log h f node) : Ordered cfg.keys h f node := by
  induction h generalizing f node with
  | zero =>
    cases node with
    | leaf records =>
      have hgood : LeafGood cfg holds log f records := hs
      exact ⟨hgood.sorted, fun r hr => (hgood.inside r hr).1⟩
    | index => exact hs.elim
  | succ h ih =>
    cases node with
    | leaf => exact hs.elim
    | index keys children =>
      obtain ⟨-, -, hrow⟩ := hs
      exact hrow.mono fun g c _ hc => ih hc.1

/-- The child at a spot has the records with keys in its fence. -/
theorem spot_contents {g : Interval K} {keys : List K} {children : List (Node K V)} {pos : ℕ}
    {c : Node K V} (hspot : Spot S (Ordered S h) f keys children pos g c)
    (r : VersionedRecordPoint K V) :
    r ∈ contents h c ↔ r ∈ contents (h + 1) (.index keys children) ∧ r.key ∈ g := by
  constructor
  · exact fun hr => ⟨List.mem_flatMap.mpr ⟨c, List.mem_of_getElem? hspot.get, hr⟩,
      hspot.child_good.inside hr⟩
  · rintro ⟨hr, hkey⟩
    obtain ⟨c', hc', hin⟩ := List.mem_flatMap.mp hr
    rcases spot_others hspot hkey hc' with rfl | ⟨g', hout, hgood⟩
    · exact hin
    · exact absurd (hgood.inside hin) hout

section Shapes
variable {cfg : TreeConfig K V P} {holds : Story P → V → Prop} {log : Log K P}

theorem told_of_shaped (hs : Shaped cfg holds log h f node) {r : VersionedRecordPoint K V}
    (hr : r ∈ contents h node) : holds (storyOf log r.key) r.versionIndex := by
  induction h generalizing f node with
  | zero =>
    cases node with
    | leaf => exact LeafGood.told hs r hr
    | index => exact hs.elim
  | succ h ih =>
    cases node with
    | leaf => exact hs.elim
    | index keys children =>
      obtain ⟨c, hc, hin⟩ := List.mem_flatMap.mp hr
      obtain ⟨g, -, hgood⟩ := row_mem hs.2.2 hc
      exact ih hgood.1 hin

theorem covers_of_shaped (hs : Shaped cfg holds log h f node) {s : Stamp K P} (hlog : s ∈ log)
    (hkey : s.key ∈ f) : ∃ r ∈ contents h node, r.key = s.key := by
  induction h generalizing f node with
  | zero =>
    cases node with
    | leaf => exact LeafGood.covers hs s hlog hkey
    | index => exact hs.elim
  | succ h ih =>
    cases node with
    | leaf => exact hs.elim
    | index keys children =>
      obtain ⟨g, c, hspot, hg⟩ := Row.locate hs.2.2 hkey
      obtain ⟨r, hr, heq⟩ := ih hspot.child_good.1 hg
      exact ⟨r, List.mem_flatMap.mpr ⟨c, List.mem_of_getElem? hspot.get, hr⟩, heq⟩

/-- A key of the fence without a record has no story. -/
theorem story_nil_of_shaped (hs : Shaped cfg holds log h f node) {key : K} (hkey : key ∈ f)
    (hmiss : ∀ r ∈ contents h node, r.key ≠ key) : storyOf log key = [] := by
  refine List.eq_nil_iff_forall_not_mem.mpr fun x hx => ?_
  obtain ⟨s, hlog, heq, -⟩ := mem_storyOf.mp hx
  obtain ⟨r, hr, hr'⟩ := covers_of_shaped hs hlog (heq ▸ hkey)
  exact hmiss r hr (hr'.trans heq)

end Shapes

/-- A search ends in a sorted leaf, which has all records of its key. -/
theorem traversalReadOlc_ordered {cfg : TreeConfig K V P} (ho : Ordered cfg.keys h f node) {key : K}
    (hkey : key ∈ f) {fuel : ℕ} (hfuel : h + 1 ≤ fuel) :
    ∃ records, traversalReadOlc cfg key fuel node = .ok records ∧
      Sorted VersionedRecordPoint.key records ∧
      ∀ r, r.key = key → (r ∈ contents h node ↔ r ∈ records) := by
  induction h generalizing f node fuel with
  | zero =>
    obtain ⟨fuel, rfl⟩ : ∃ n, fuel = n + 1 := ⟨fuel - 1, by omega⟩
    cases node with
    | index => exact ho.elim
    | leaf records => exact ⟨records, rfl, ho.1, fun _ _ => Iff.rfl⟩
  | succ h ih =>
    obtain ⟨fuel, rfl⟩ : ∃ n, fuel = n + 1 := ⟨fuel - 1, by omega⟩
    cases node with
    | leaf => exact ho.elim
    | index keys children =>
      have hrow : Row cfg.keys (Ordered cfg.keys h) f keys children := ho
      obtain ⟨pos, g, c, hspot, hg, hnext⟩ := nextNode_spot hrow hkey
      obtain ⟨records, hrun, hsorted, hmem⟩ :=
        ih hspot.child_good hg (show h + 1 ≤ fuel by omega)
      refine ⟨records, ?_, hsorted, fun r hr => ?_⟩
      · simp only [traversalReadOlc, hnext, ok_bind]
        exact hrun
      · rw [← hmem r hr, spot_contents hspot]
        exact (and_iff_left (hr ▸ hg)).symm

/-- Records of a sorted leaf with the same key are one record. -/
theorem sorted_unique {records : List (VersionedRecordPoint K V)}
    (hsorted : Sorted VersionedRecordPoint.key records) {r r' : VersionedRecordPoint K V}
    (hr : r ∈ records) (hr' : r' ∈ records) (hkey : r.key = r'.key) : r = r' := by
  obtain ⟨i, hi, rfl⟩ := List.getElem_of_mem hr
  obtain ⟨j, hj, rfl⟩ := List.getElem_of_mem hr'
  rcases lt_trichotomy i j with hij | rfl | hij
  · exact absurd hkey (List.pairwise_iff_getElem.mp hsorted i j hi hj hij).ne
  · rfl
  · exact absurd hkey (List.pairwise_iff_getElem.mp hsorted j i hj hi hij).ne'

end CMVBT.BaselineContents
