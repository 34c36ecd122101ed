import CMVBT.BaselineScan
import CMVBT.UnderflowCorrection

/-!
# Which corrections keep a fragment

Leaves are always corrected well. Two directories are merged well when together with
the separator between them they fit into one page, unless the second of two children
of the root is underfull: then the separator between them is lost. When they do not
fit, the correction loses a child or writes behind an array.
-/
namespace CMVBT.FragmentRepair
open PageModel hiding Node
open KeyInterval OrderedMap VersionChain SeparatorRow BaselinePages BaselineTree BaselineInvariant
  BaselineDescent BaselineContents UnderflowCorrection
open BaselineScan (indexConfig)

/-! ## Lists -/

section Lists
variable {A : Type}

theorem merge_of_not_le {le : A → A → Bool} {xs ys : List A}
    (h : ∀ a ∈ xs, ∀ b ∈ ys, le a b = false) : xs.merge ys le = ys ++ xs := by
  induction ys with
  | nil => simp
  | cons y ys ih =>
    cases xs with
    | nil => simp
    | cons x xs =>
      rw [List.cons_merge_cons, h x List.mem_cons_self y List.mem_cons_self]
      simp only [Bool.false_eq_true, ↓reduceIte, List.cons_append]
      rw [ih fun a ha b hb => h a ha b (List.mem_cons_of_mem _ hb)]

section Windows
variable (left right : List A) (x y z : A)

theorem erase_at : (left ++ x :: right).eraseIdx left.length = left ++ right := by
  rw [List.eraseIdx_append_of_length_le le_rfl, Nat.sub_self, List.eraseIdx_cons_zero]

theorem set_at : (left ++ x :: right).set left.length z = left ++ z :: right := by
  rw [List.set_append_right _ _ le_rfl, Nat.sub_self, List.set_cons_zero]

theorem erase_behind : (left ++ x :: y :: right).eraseIdx (left.length + 1) = left ++ x :: right := by
  have h := erase_at (left ++ [x]) right y
  simpa using h

theorem set_behind :
    (left ++ x :: y :: right).set (left.length + 1) z = left ++ x :: z :: right := by
  simp

end Windows

/-- All entries but that at one position, with their positions. -/
theorem filter_zipIdx (xs : List A) (pos : ℕ) :
    xs.zipIdx.filter (fun c => decide (c.2 ≠ pos)) =
      (xs.take pos).zipIdx ++ (xs.drop (pos + 1)).zipIdx (pos + 1) := by
  have hbefore : ((xs.take pos).zipIdx).filter (fun c => decide (c.2 ≠ pos)) =
      (xs.take pos).zipIdx := by
    refine List.filter_eq_self.mpr fun c hc => decide_eq_true ?_
    have hlt := List.snd_lt_of_mem_zipIdx hc
    have hle := List.length_take_le pos xs
    omega
  have hafter : ((xs.drop (pos + 1)).zipIdx (pos + 1)).filter (fun c => decide (c.2 ≠ pos)) =
      (xs.drop (pos + 1)).zipIdx (pos + 1) := by
    refine List.filter_eq_self.mpr fun c hc => decide_eq_true ?_
    have hle := List.le_snd_of_mem_zipIdx hc
    omega
  by_cases hpos : pos < xs.length
  · have hsplit : xs = xs.take pos ++ xs[pos] :: xs.drop (pos + 1) := by
      rw [← List.drop_eq_getElem_cons hpos, List.take_append_drop]
    have hlen : (xs.take pos).length = pos := List.length_take_of_le hpos.le
    conv_lhs => rw [hsplit]
    rw [List.zipIdx_append, List.filter_append, hbefore, hlen, Nat.zero_add, List.zipIdx_cons,
      List.filter_cons_of_neg (by simp), hafter]
  · rw [List.take_of_length_le (by omega)] at hbefore ⊢
    rw [hbefore, List.drop_eq_nil_of_le (by omega)]
    simp

end Lists

theorem blocks_one {K V : Type} (ks : List K) (cs : List (Node K V)) :
    blocks 1 (.index ks cs : Node K V) = cs := by
  change cs.flatMap (fun c => [c]) = cs
  simp

/-- The children of a page are at most as many as its separators tell. -/
theorem blocks_one_length {K V : Type} (keys : List K) (children : List (Node K V)) :
    (blocks 1 (indexPage keys children)).length ≤ keys.length + 1 := by
  rw [indexPage, blocks_one, List.length_take]
  cases keys.length with
  | zero => simp [childrenLen]
  | succ => simp [childrenLen]

/-! ## The two pages -/

section Neighbours
variable {K V : Type} {keys : List K} {children : List (Node K V)} {childPos : ℕ}

/-- The page at `childPos` and its sibling, `x` left of `y` with `m` between them. -/
structure Neighbours (keys : List K) (children : List (Node K V)) (childPos : ℕ)
    (child sibling : Node K V) (before : List K) (m : K) (after : List K)
    (left : List (Node K V)) (x y : Node K V) (right : List (Node K V)) : Prop where
  keys_eq : keys = before ++ m :: after
  children_eq : children = left ++ x :: y :: right
  length_eq : before.length = left.length
  order : childPos < keys.length ∧ childPos = before.length ∧ x = child ∧ y = sibling ∨
    childPos = keys.length ∧ childPos = before.length + 1 ∧ x = sibling ∧ y = child

theorem neighbours {child sibling : Node K V} (hlen : children.length = keys.length + 1)
    (hne : keys ≠ []) (hchild : children[childPos]? = some child)
    (hsibling : children[siblingPos keys childPos]? = some sibling) :
    ∃ before m after left x y right,
      Neighbours keys children childPos child sibling before m after left x y right := by
  have hpos := (List.getElem?_eq_some_iff.mp hchild).1
  have hnonempty := List.length_pos_iff.mpr hne
  -- the lower position of the two
  obtain ⟨low, hlow, horder⟩ : ∃ low, low < keys.length ∧
      (childPos < keys.length ∧ childPos = low ∧ siblingPos keys childPos = low + 1 ∨
        childPos = keys.length ∧ childPos = low + 1 ∧ siblingPos keys childPos = low) := by
    by_cases hlast : childPos < keys.length
    · exact ⟨childPos, hlast, .inl ⟨hlast, rfl, if_pos hlast⟩⟩
    · have hsib : siblingPos keys childPos = childPos - 1 := if_neg hlast
      exact ⟨childPos - 1, by omega, .inr ⟨by omega, by omega, hsib⟩⟩
  have hchildren : children = children.take low ++ children[low] :: children[low + 1] ::
      children.drop (low + 2) := by
    rw [← List.drop_eq_getElem_cons (by omega), ← List.drop_eq_getElem_cons (by omega),
      List.take_append_drop]
  have hkeys : keys = keys.take low ++ keys[low] :: keys.drop (low + 1) := by
    rw [← List.drop_eq_getElem_cons hlow, List.take_append_drop]
  refine ⟨keys.take low, keys[low], keys.drop (low + 1), children.take low, children[low],
    children[low + 1], children.drop (low + 2), hkeys, hchildren, ?_, ?_⟩
  · rw [List.length_take_of_le hlow.le, List.length_take_of_le (by omega)]
  · rw [List.length_take_of_le hlow.le]
    have hx : children[low]? = some children[low] := List.getElem?_eq_getElem _
    have hy : children[low + 1]? = some children[low + 1] := List.getElem?_eq_getElem _
    rcases horder with ⟨hlast, rfl, hsib⟩ | ⟨hlast, rfl, hsib⟩
    · rw [hsib] at hsibling
      exact .inl ⟨hlast, rfl, Option.some.inj (hx.symm.trans hchild),
        Option.some.inj (hy.symm.trans hsibling)⟩
    · rw [hsib] at hsibling
      exact .inr ⟨hlast, rfl, Option.some.inj (hx.symm.trans hsibling),
        Option.some.inj (hy.symm.trans hchild)⟩

theorem Neighbours.between {child sibling x y : Node K V} {before after : List K} {m : K}
    {left right : List (Node K V)}
    (h : Neighbours keys children childPos child sibling before m after left x y right) :
    keys[before.length]? = some m := by
  rw [h.keys_eq]
  simp

end Neighbours

variable {K V P : Type} [LinearOrder K] {cfg : TreeConfig K V P} {keys : List K}
  {children : List (Node K V)} {upper : K} {childPos : ℕ}

/-! ## The choice of the sibling -/

theorem merge_upper (hupper : ∀ m ∈ keys, m ≤ upper) :
    keys.merge [upper] (fun a b => decide (a ≤ b)) = keys ++ [upper] := by
  refine List.merge_of_le fun a b ha hb => ?_
  rw [List.mem_singleton.mp hb]
  exact decide_eq_true (hupper a ha)

/-- The search ends at the next sibling, and for the last child at the one before. -/
theorem chosen_eq (hsorted : Sorted id keys) (hupper : ∀ m ∈ keys, m ≤ upper)
    (hlen : children.length = keys.length + 1) (hne : keys ≠ []) (hpos : childPos ≤ keys.length) :
    ∃ c, chosen (allCandidates keys children upper childPos) (keys[childPos]?.getD upper) =
        some (c, siblingPos keys childPos) ∧
      children[siblingPos keys childPos]? = some c.1 ∧
      (keys ++ [upper])[siblingPos keys childPos]? = some c.2 := by
  set pages := children.zip (keys ++ [upper]) with hpages
  have hget : ∀ {i : ℕ} {c : Node K V × K}, pages[i]? = some c →
      children[i]? = some c.1 ∧ (keys ++ [upper])[i]? = some c.2 :=
    fun h => List.getElem?_zip_eq_some.mp h
  have hpageslen : pages.length = keys.length + 1 := by
    rw [hpages, List.length_zip, hlen, List.length_append, List.length_singleton, Nat.min_self]
  have hall : allCandidates keys children upper childPos =
      (pages.take childPos).zipIdx ++ (pages.drop (childPos + 1)).zipIdx (childPos + 1) := by
    rw [allCandidates, merge_upper hupper]
    exact filter_zipIdx pages childPos
  have hbound : ∀ {i : ℕ} {c : Node K V × K}, pages[i]? = some c → i < keys.length →
      keys[i]? = some c.2 := by
    intro i c h hi
    have happend : (keys ++ [upper])[i]? = keys[i]? := List.getElem?_append_left hi
    rw [← happend]
    exact (hget h).2
  have hnonempty := List.length_pos_iff.mpr hne
  unfold chosen
  simp only [position_binarySearchByKey]
  by_cases hlast : childPos < keys.length
  · -- the candidates before the page have smaller separators, those behind it have not
    obtain ⟨hbefore, hafter⟩ := hsorted.around (List.getElem?_eq_getElem hlast)
    have hsib : siblingPos keys childPos = childPos + 1 := if_pos hlast
    obtain ⟨c, hc⟩ : ∃ c, pages[childPos + 1]? = some c := ⟨_, List.getElem?_eq_getElem (by omega)⟩
    refine ⟨c, ?_, hsib ▸ hget hc⟩
    have hsmaller : ∀ e ∈ (pages.take childPos).zipIdx, decide (e.1.2 < keys[childPos]) = true := by
      intro e he
      have hmem : e.1 ∈ pages.take childPos := List.fst_mem_of_mem_zipIdx he
      obtain ⟨i, hi, heq⟩ := List.mem_take_iff_getElem.mp hmem
      have hkey := hbound (heq ▸ List.getElem?_eq_getElem (by omega)) (i := i) (by omega)
      refine decide_eq_true (hbefore _ (List.mem_iff_getElem?.mpr ⟨i, ?_⟩))
      rw [List.getElem?_take_of_lt (by omega), hkey]
    have hnext : decide (c.2 < keys[childPos]) = false := by
      refine decide_eq_false (not_lt.mpr ?_)
      by_cases hend : childPos + 1 < keys.length
      · have hkey := hbound hc hend
        refine hafter _ (List.mem_iff_getElem?.mpr ⟨1, ?_⟩)
        rw [List.getElem?_drop, hkey]
      · have hc2 := (hget hc).2
        rw [List.getElem?_append_right (by omega), show childPos + 1 - keys.length = 0 by omega] at hc2
        cases hc2
        exact hupper _ (List.getElem_mem hlast)
    have hdrop : (pages.drop (childPos + 1)).zipIdx (childPos + 1) =
        (c, childPos + 1) :: (pages.drop (childPos + 2)).zipIdx (childPos + 2) := by
      obtain ⟨hlt, rfl⟩ := List.getElem?_eq_some_iff.mp hc
      rw [List.drop_eq_getElem_cons hlt, List.zipIdx_cons]
    have hlow : ((pages.take childPos).zipIdx).length = childPos := by
      rw [List.length_zipIdx, List.length_take_of_le (by omega)]
    have hindex : partitionPoint (fun e => decide (e.1.2 < keys[childPos]))
        (allCandidates keys children upper childPos) = childPos := by
      rw [hall, hdrop, partitionPoint_append hsmaller, hlow, Nat.add_eq_left]
      exact partitionPoint_append_cons
        (p := fun e : (Node K V × K) × ℕ => decide (e.1.2 < keys[childPos])) hnext [] _
    rw [List.getElem?_eq_getElem hlast, Option.getD_some, hindex, hall, hdrop, if_pos (by
      rw [List.length_append, hlow, List.length_cons]; omega),
      List.getElem?_append_right hlow.le, hlow, Nat.sub_self, hsib]
    rfl
  · -- all candidates but the last one have smaller separators than the fence ends with
    obtain rfl : childPos = keys.length := by omega
    obtain ⟨n, hn⟩ : ∃ n, keys.length = n + 1 := ⟨keys.length - 1, by omega⟩
    have hsib : siblingPos keys keys.length = n := by
      rw [siblingPos, if_neg hlast, hn, Nat.add_sub_cancel]
    obtain ⟨c, hc⟩ : ∃ c, pages[n]? = some c := ⟨_, List.getElem?_eq_getElem (by omega)⟩
    refine ⟨c, ?_, hsib ▸ hget hc⟩
    have hlastKey := hbound hc (by omega)
    have hsmaller : ∀ e ∈ (pages.take n).zipIdx, decide (e.1.2 < upper) = true := by
      intro e he
      have hmem : e.1 ∈ pages.take n := List.fst_mem_of_mem_zipIdx he
      obtain ⟨i, hi, heq⟩ := List.mem_take_iff_getElem.mp hmem
      have hkey := hbound (heq ▸ List.getElem?_eq_getElem (by omega)) (i := i) (by omega)
      have hlt : e.1.2 < c.2 := (hsorted.around hlastKey).1 _
        (List.mem_iff_getElem?.mpr ⟨i, by rw [List.getElem?_take_of_lt (by omega), hkey]⟩)
      exact decide_eq_true (hlt.trans_le (hupper _ (List.mem_of_getElem? hlastKey)))
    have hcandidates : allCandidates keys children upper keys.length =
        (pages.take n).zipIdx ++ [(c, n)] := by
      have htake : pages.take (n + 1) = pages.take n ++ [c] := by
        rw [List.take_add_one, hc, Option.toList_some]
      rw [hall, hn, htake, List.zipIdx_append, List.length_take_of_le (by omega),
        List.drop_eq_nil_of_le (by omega)]
      simp
    have hlow : ((pages.take n).zipIdx).length = n := by
      rw [List.length_zipIdx, List.length_take_of_le (by omega)]
    rw [List.getElem?_eq_none le_rfl, Option.getD_none, hcandidates, hsib,
      partitionPoint_append hsmaller, hlow, List.length_append, hlow, List.length_singleton]
    split
    · next hstop =>
      have hzero : partitionPoint (fun e : (Node K V × K) × ℕ => decide (e.1.2 < upper)) [(c, n)] =
        0 := by omega
      rw [hzero, List.getElem?_append_right (by omega), hlow, Nat.add_sub_cancel_left]
      rfl
    · rw [List.getLast?_append]
      rfl

/-! ## Searches in fragments -/

/-- A search finds the one record with its key. -/
theorem searchRecord_ordered {h : ℕ} {page : Node K V} (ho : Ordered cfg.keys h cfg.keys.full page)
    (key : K) :
    ∃ o, searchRecord cfg key h page = .ok o ∧
      ∀ r, o = some r ↔ r ∈ contents h page ∧ r.key = key := by
  obtain ⟨records, hrun, hsorted, hmem⟩ := traversalReadOlc_ordered ho (cfg.keys.mem_full key) le_rfl
  cases hsearch : Node.searchRecords records key with
  | ok pos =>
    obtain ⟨r, hget, hkey⟩ := binarySearchByKey_ok hsearch
    refine ⟨some r, ?_, fun r' => ?_⟩
    · simp only [searchRecord, hrun, hsearch, getUnchecked_eq hget, ok_bind]
      rfl
    · have hr := List.mem_of_getElem? hget
      constructor
      · intro heq
        cases heq
        exact ⟨(hmem r hkey).mpr hr, hkey⟩
      · rintro ⟨hr', hkey'⟩
        exact congrArg some
          (sorted_unique hsorted hr ((hmem r' hkey').mp hr') (hkey.trans hkey'.symm))
  | error pos =>
    obtain ⟨-, hbefore, hafter⟩ := binarySearchByKey_error hsorted hsearch
    refine ⟨none, ?_, fun r' => ⟨fun heq => (by cases heq), ?_⟩⟩
    · simp only [searchRecord, hrun, hsearch, ok_bind]
      rfl
    · rintro ⟨hr', hkey'⟩
      have hin := (hmem r' hkey').mp hr'
      rw [← List.take_append_drop pos records] at hin
      rcases List.mem_append.mp hin with hin | hin
      · exact absurd hkey' (hbefore r' hin).ne
      · exact absurd hkey' (hafter r' hin).ne'

theorem separators_one {g : Interval K} {ks : List K} {cs : List (Node K V)}
    (h : Row cfg.keys (fun _ _ => True) g ks cs) :
    separators 1 (.index ks cs : Node K V) = ks := by
  change weave ks (cs.map (separators 0)) = ks
  induction h with
  | last => rfl
  | cons _ _ _ _ _ ih =>
    rw [List.map_cons, weave, ih]
    rfl

theorem row_of_child {g : Interval K} {c : Node K V} (h : ChildPage cfg false g c) :
    Row cfg.keys (fun _ _ => True) g (separators 1 c) (blocks 1 c) := by
  cases c with
  | leaf => exact absurd h.1 (by decide)
  | index ks cs =>
    obtain ⟨-, hrow, -⟩ := h
    rwa [separators_one hrow, blocks_one]

theorem descend_one {g : Interval K} {c : Node K V} (h : ChildPage cfg false g c) {key : K}
    (hkey : key ∈ g) :
    descend cfg key 1 c = getUnchecked (blocks 1 c)
      (partitionPoint (fun m => decide (m ≤ key)) (separators 1 c)) := by
  cases c with
  | leaf => exact absurd h.1 (by decide)
  | index ks cs =>
    obtain ⟨-, hrow, -⟩ := h
    obtain ⟨g', c, hspot, -⟩ := hrow.locate hkey
    rw [separators_one hrow, blocks_one, getUnchecked_eq hspot.get]
    simp only [descend, nextNode, hrow.childPosition key, getUnchecked_eq hspot.get, ok_bind]
    rfl

/-- Two levels of directories are searched like one. -/
theorem descend_two (h : Row cfg.keys (ChildPage cfg false) cfg.keys.full keys children) (key : K) :
    descend cfg key 2 (.index keys children) = getUnchecked (blocks 2 (.index keys children))
      (partitionPoint (fun m => decide (m ≤ key)) (separators 2 (.index keys children))) := by
  obtain ⟨g, c, hspot, hg⟩ := h.locate (cfg.keys.mem_full key)
  have hflat := (h.mono fun g c _ hc => row_of_child hc).flatten_locate key
  rw [hspot.get] at hflat
  have hnext : descend cfg key 2 (.index keys children) = descend cfg key 1 c := by
    simp only [descend, nextNode, h.childPosition key, getUnchecked_eq hspot.get, ok_bind]
    rfl
  have hblocks : blocks 2 (.index keys children) = children.flatMap (blocks 1) := rfl
  have hseparators : separators 2 (.index keys children) =
    weave keys (children.map (separators 1)) := rfl
  rw [hnext, descend_one hspot.child_good hg, hblocks, hseparators, getUnchecked, getUnchecked,
    ← hflat]
  rfl

/-! ## What is enough -/

theorem fits_child {isLeaf : Bool} {g : Interval K} {c : Node K V} (h : ChildPage cfg isLeaf g c) :
    Fits cfg isLeaf (levels isLeaf - 1) c := by
  cases c with
  | leaf records =>
    obtain ⟨rfl, -, hlen⟩ := h
    exact fun _ => hlen
  | index ks cs =>
    obtain ⟨rfl, hrow, -, hlen⟩ := h
    refine ⟨hlen, ?_, fun c _ => ?_⟩
    · have := cfg.sizes.fanOut_min
      rw [hrow.length_eq]
      omega
    · cases c with
      | leaf => exact fun h => by cases h
      | index => trivial

theorem fits_of_fragment {isLeaf : Bool} (h : Fragment cfg isLeaf keys children) :
    Fits cfg isLeaf (levels isLeaf) (.index keys children) := by
  have hchildren : ∀ c ∈ children, Fits cfg isLeaf (levels isLeaf - 1) c := by
    intro c hc
    obtain ⟨g, -, hgood⟩ := row_mem h.row hc
    exact fits_child hgood
  have hlen : children.length ≤ cfg.sizes.fanOut := by
    have := cfg.sizes.fanOut_min
    have := h.fits
    rw [h.row.length_eq]
    omega
  cases isLeaf with
  | true => exact ⟨h.fits, hlen, hchildren⟩
  | false => exact ⟨h.fits, hlen, hchildren⟩

theorem ordered_of_fragment (h : Fragment cfg true keys children) :
    Ordered cfg.keys 1 cfg.keys.full (.index keys children : Node K V) := by
  refine h.row.mono fun g c _ hc => ?_
  cases c with
  | leaf => exact hc.2.1
  | index => exact absurd hc.1 (by decide)

theorem searches_agree {h h' : ℕ} {page page' : Node K V}
    (ho : Ordered cfg.keys h cfg.keys.full page) (ho' : Ordered cfg.keys h' cfg.keys.full page')
    (heq : contents h' page' = contents h page) (key : K) :
    searchRecord cfg key h' page' = searchRecord cfg key h page := by
  obtain ⟨o, hrun, hmem⟩ := searchRecord_ordered ho key
  obtain ⟨o', hrun', hmem'⟩ := searchRecord_ordered ho' key
  rw [hrun, hrun']
  refine congrArg Except.ok (Option.ext fun r => ?_)
  rw [hmem', hmem, heq]

section Enough
variable {keys' : List K} {children' : List (Node K V)}

theorem preserved_leaves (h : Fragment cfg true keys children)
    (h' : Fragment cfg true keys' children')
    (heq : children'.flatMap (contents 0) = children.flatMap (contents 0)) :
    Preserved cfg true (.index keys children) ⟨.index keys' children', false⟩ :=
  ⟨fits_of_fragment h', List.Perm.of_eq heq,
    searches_agree (ordered_of_fragment h) (ordered_of_fragment h') heq⟩

theorem preserved_root_leaf {records : List (VersionedRecordPoint K V)}
    (h : Fragment cfg true keys children)
    (h' : ChildPage cfg true cfg.keys.full (.leaf records : Node K V))
    (heq : records = children.flatMap (contents 0)) :
    Preserved cfg true (.index keys children) ⟨.leaf records, true⟩ :=
  ⟨fits_child h', List.Perm.of_eq heq, searches_agree (ordered_of_fragment h) h'.2.1 heq⟩

theorem preserved_directories (h : Fragment cfg false keys children)
    (h' : Fragment cfg false keys' children')
    (hblocks : children'.flatMap (blocks 1) = children.flatMap (blocks 1))
    (hseparators : weave keys' (children'.map (separators 1)) =
      weave keys (children.map (separators 1))) :
    Preserved cfg false (.index keys children) ⟨.index keys' children', false⟩ := by
  refine ⟨fits_of_fragment h', List.Perm.of_eq hblocks, hseparators, fun key => ?_⟩
  have hbefore := descend_two h.row key
  have hafter := descend_two h'.row key
  change descend cfg key 2 _ = _
  rw [hbefore, hafter]
  change getUnchecked (children'.flatMap (blocks 1)) (partitionPoint _
    (weave keys' (children'.map (separators 1)))) = _
  rw [hblocks, hseparators]
  rfl

theorem preserved_root_directory (h : Fragment cfg false keys children)
    (h' : ChildPage cfg false cfg.keys.full (.index keys' children'))
    (hblocks : children' = children.flatMap (blocks 1))
    (hseparators : keys' = weave keys (children.map (separators 1))) :
    Preserved cfg false (.index keys children) ⟨.index keys' children', true⟩ := by
  have hone := separators_one h'.2.1
  have hall := blocks_one keys' children'
  refine ⟨fits_child h', List.Perm.of_eq (hall.trans hblocks), hone.trans hseparators, fun key => ?_⟩
  have hafter := descend_one h' (cfg.keys.mem_full key)
  rw [hone, hall, hblocks, hseparators] at hafter
  have hbefore := descend_two h.row key
  change descend cfg key 1 _ = _
  rw [hbefore, hblocks, hseparators]
  exact hafter

end Enough

/-! ## Replacing two pages -/

section Pair
variable {child sibling x y : Node K V} {before after : List K} {m : K}
  {left right : List (Node K V)}

/-- The neighbours of a fragment, and the fragments with other pages in their place. -/
theorem Neighbours.replace {isLeaf : Bool} (hfragment : Fragment cfg isLeaf keys children)
    (h : Neighbours keys children childPos child sibling before m after left x y right) :
    ∃ g : Interval K, (g.lower < m ∧ m ≤ g.upper ∧ m < cfg.keys.maxKey) ∧
      ChildPage cfg isLeaf ⟨g.lower, cfg.keys.decKey m⟩ x ∧ ChildPage cfg isLeaf ⟨m, g.upper⟩ y ∧
      ∀ keys' children', Row cfg.keys (ChildPage cfg isLeaf) g keys' children' →
        keys'.length ≤ 1 → before ++ keys' ++ after ≠ [] →
        Fragment cfg isLeaf (before ++ keys' ++ after) (left ++ children' ++ right) := by
  have hrow := hfragment.row
  have hfits := hfragment.fits
  rw [h.keys_eq, h.children_eq] at hrow
  rw [h.keys_eq, List.length_append, List.length_cons] at hfits
  obtain ⟨g, hm, hx, hy, hcontext⟩ := hrow.window h.length_eq
  refine ⟨g, hm, hx, hy, fun keys' children' hrow' hlen hne => ⟨hcontext _ _ hrow', hne, ?_⟩⟩
  rw [List.length_append, List.length_append]
  omega

end Pair

/-! ## Leaves -/

section Leaves
variable {fromRecords mergeRecords : List (VersionedRecordPoint K V)} {isRoot : Bool}

theorem correction_of_leaves (h : Fragment cfg true keys children)
    (hupper : ∀ m ∈ keys, m ≤ upper) (hchild : children[childPos]? = some (.leaf fromRecords))
    (hsibling : children[siblingPos keys childPos]? = some (.leaf mergeRecords)) :
    doUnderflowCorrection cfg isRoot upper keys children childPos =
      correctLeaves cfg isRoot keys children childPos (keys[childPos]?.getD upper)
        (siblingPos keys childPos) fromRecords mergeRecords := by
  have hlen := h.row.length_eq
  have hpos := (List.getElem?_eq_some_iff.mp hchild).1
  have hle : childPos ≤ keys.length := by omega
  obtain ⟨⟨block, key⟩, hchosen, hblock, -⟩ :=
    chosen_eq h.row.sorted hupper hlen h.nonempty hle
  rw [hsibling] at hblock
  cases hblock
  simp only [doUnderflowCorrection, getUnchecked_eq hchild, ok_bind, hchosen]
  simp [BaselinePages.Node.isLeaf]

/-- The two halves of the records of two leaves. -/
theorem halves_row {g : Interval K} {records : List (VersionedRecordPoint K V)}
    (hsorted : Sorted VersionedRecordPoint.key records) (hin : ∀ r ∈ records, r.key ∈ g)
    (hmin : 4 ≤ records.length) (hmax : records.length ≤ 2 * cfg.sizes.numRecords) :
    ∃ r, getUnchecked (records.drop (records.length / 2)) 0 = .ok r ∧
      Row cfg.keys (ChildPage cfg true) g [r.key] [.leaf (records.take (records.length / 2)),
        .leaf (records.drop (records.length / 2))] := by
  set mid := records.length / 2 with hmid
  have hlt : mid < records.length := by omega
  have hget := List.getElem?_eq_getElem hlt
  obtain ⟨hbefore, hafter⟩ := hsorted.around hget
  have hfirst := List.getElem_mem (l := records) (n := 0) (by omega)
  have hlast := List.getElem_mem (l := records) (n := mid + 1) (by omega)
  have hlow : records[0].key < records[mid].key :=
    List.pairwise_iff_getElem.mp hsorted 0 mid (by omega) hlt (by omega)
  have hhigh : records[mid].key < records[mid + 1].key :=
    List.pairwise_iff_getElem.mp hsorted mid (mid + 1) hlt (by omega) (by omega)
  have hstart := (hin _ hfirst).1.trans_lt hlow
  refine ⟨records[mid], ?_, .cons hstart (hin _ (List.getElem_mem hlt)).2
    (hhigh.trans_le (cfg.keys.le_max _)) ⟨rfl, ⟨?_, ?_⟩, ?_⟩ (.last ⟨rfl, ⟨?_, ?_⟩, ?_⟩)⟩
  · refine getUnchecked_eq ?_
    rw [List.getElem?_drop, Nat.add_zero, hget]
  · exact hsorted.sublist (List.take_sublist _ _)
  · intro r hr
    exact (mem_left hstart).mpr ⟨(hin r (List.mem_of_mem_take hr)).1, hbefore r hr⟩
  · rw [List.length_take]
    omega
  · exact hsorted.sublist (List.drop_sublist _ _)
  · exact fun r hr => ⟨hafter r hr, (hin r (List.mem_of_mem_drop hr)).2⟩
  · rw [List.length_drop]
    omega

theorem merge_of_leaves {x y : List (VersionedRecordPoint K V)} {key : K}
    (hroom : x.length + y.length ≤ cfg.sizes.numRecords) :
    merge cfg true [.leaf x, .leaf y] (.leaf x) (some (1, .leaf y)) 0 key = .ok (.leaf (x ++ y)) ∧
    merge cfg true [.leaf x, .leaf y] (.leaf y) (some (0, .leaf x)) 1 key =
      .ok (.leaf (x ++ y)) := by
  have hx : extendFrom cfg.sizes.numRecords [] x = .ok ([] ++ x) := extendFrom_ok (by simp; omega)
  have hy : extendFrom cfg.sizes.numRecords x y = .ok (x ++ y) := extendFrom_ok hroom
  constructor <;>
    simp [merge, vecInsert, getUnchecked, BaselinePages.Node.isLeaf, joinLeaves, hx, hy, ok_bind, pure,
      Except.pure]

/-- The branch of leaves, for the pages `x` and `y` in either order. -/
theorem correctLeaves_preserved {child sibling : Node K V} {before after : List K} {m childKey : K}
    {left right : List (Node K V)} {x y : List (VersionedRecordPoint K V)} {mergeIndex : ℕ}
    (h : Fragment cfg true keys children)
    (hn : Neighbours keys children childPos child sibling before m after left (.leaf x) (.leaf y)
      right)
    (hmin : 4 ≤ cfg.sizes.numRecords)
    (hjoined : (fromRecords.merge mergeRecords fun r0 r1 => decide (r0.key < r1.key)) = x ++ y)
    (hlow : min childPos mergeIndex = left.length) (hhigh : max childPos mergeIndex = left.length + 1)
    (hmerge : keys.length = 1 → x.length + y.length < cfg.sizes.numRecords →
      merge cfg isRoot children (.leaf fromRecords) (some (mergeIndex, .leaf mergeRecords)) childPos
        childKey = .ok (.leaf (x ++ y))) :
    ∃ after, correctLeaves cfg isRoot keys children childPos childKey mergeIndex fromRecords
        mergeRecords = .ok after ∧ Preserved cfg true (.index keys children) after := by
  have htotal : fromRecords.length + mergeRecords.length = x.length + y.length := by
    have hlen := congrArg List.length hjoined
    rwa [List.length_merge, List.length_append] at hlen
  obtain ⟨g, ⟨hmlow, hmup, hmmax⟩, ⟨-, ⟨hsortx, hinx⟩, hlenx⟩, ⟨-, ⟨hsorty, hiny⟩, hleny⟩, hreplace⟩ :=
    hn.replace h
  have hin : ∀ r ∈ x ++ y, r.key ∈ g := fun r hr => (List.mem_append.mp hr).elim
    (fun hr => left_within hmlow hmup _ (hinx r hr)) (fun hr => right_within hmlow _ (hiny r hr))
  have hsorted : Sorted VersionedRecordPoint.key (x ++ y) :=
    List.pairwise_append.mpr ⟨hsortx, hsorty, fun a ha b hb =>
      ((mem_left hmlow).mp (hinx a ha)).2.trans_le (hiny b hb).1⟩
  have hfan := cfg.sizes.fanOut_min
  have hkeysLen := h.fits
  have hchildrenLen := h.row.length_eq
  have hlenKeys : keys.length = left.length + 1 + after.length := by
    rw [hn.keys_eq, List.length_append, hn.length_eq, List.length_cons]
    omega
  have hcontents : children.flatMap (contents 0) =
      left.flatMap (contents 0) ++ (x ++ y) ++ right.flatMap (contents 0) := by
    rw [hn.children_eq]
    simp [contents]
  simp only [correctLeaves, hjoined, hlow, hhigh, htotal]
  by_cases hfit : x.length + y.length < cfg.sizes.numRecords
  · have hleaf : ChildPage cfg true g (.leaf (x ++ y) : Node K V) :=
      ⟨rfl, ⟨hsorted, hin⟩, by rw [List.length_append]; omega⟩
    by_cases hone : keys.length = 1
    · -- the root and its two leaves become one leaf
      refine ⟨⟨.leaf (x ++ y), true⟩, ?_, preserved_root_leaf h ⟨rfl, ⟨hsorted, fun r _ =>
        cfg.keys.mem_full _⟩, hleaf.2.2⟩ ?_⟩
      · simp only [hfit, hone, decide_true, Bool.and_self, if_true, hmerge hone hfit, ok_bind]
        rfl
      · obtain rfl : left = [] := List.length_eq_zero_iff.mp (by omega)
        have hright : right.length = 0 := by
          rw [hn.children_eq] at hchildrenLen
          simp at hchildrenLen
          omega
        rw [hcontents, List.length_eq_zero_iff.mp hright]
        simp
    · -- one leaf takes the place of two
      have hne : before ++ [] ++ after ≠ [] := by
        intro hnil
        have := congrArg List.length hnil
        simp only [List.length_append, List.length_nil, hn.length_eq] at this
        omega
      have hnew := hreplace [] [.leaf (x ++ y)] (.last hleaf) (Nat.zero_le _) hne
      have hpage := indexPage_row hne hnew.row.length_eq
      refine ⟨⟨.index (before ++ [] ++ after) (left ++ [.leaf (x ++ y)] ++ right), false⟩, ?_,
        preserved_leaves h hnew ?_⟩
      · have hroom : (x ++ y).length ≤ cfg.sizes.numRecords := by simpa using hfit.le
        have hrun := extendFrom_nil hroom
        simp only [hfit, hone, decide_true, decide_false, Bool.false_and, if_true, if_false,
          Bool.false_eq_true, hrun, ok_bind]
        rw [removeAt_ok (by omega), ok_bind, removeAt_ok (by omega), ok_bind, writeAt_ok (by omega),
          ok_bind, hn.children_eq, erase_behind, set_at, hn.keys_eq, ← hn.length_eq, erase_at, ← hpage]
        simp [pure, Except.pure]
      · rw [hcontents]
        simp [contents]
  · -- both leaves are written again, with half of the records each
    have hfour : 4 ≤ (x ++ y).length := by
      rw [List.length_append]
      omega
    have htwice : (x ++ y).length ≤ 2 * cfg.sizes.numRecords := by
      rw [List.length_append]
      omega
    obtain ⟨r, hget, hrow⟩ := halves_row hsorted hin hfour htwice
    set mid := (x ++ y).length / 2 with hmid
    have hne : before ++ [r.key] ++ after ≠ [] := by simp
    have hnew := hreplace _ _ hrow le_rfl hne
    have hpage := indexPage_row hne hnew.row.length_eq
    have hlenMid : (x ++ y).length = x.length + y.length := List.length_append
    have hroom₁ : ((x ++ y).take mid).length ≤ cfg.sizes.numRecords := by
      rw [List.length_take]
      omega
    have hroom₂ : ((x ++ y).drop mid).length ≤ cfg.sizes.numRecords := by
      rw [List.length_drop]
      omega
    have hfirst := extendFrom_nil hroom₁
    have hsecond := extendFrom_nil hroom₂
    refine ⟨⟨.index (before ++ [r.key] ++ after) (left ++ [.leaf ((x ++ y).take mid),
      .leaf ((x ++ y).drop mid)] ++ right), false⟩, ?_, preserved_leaves h hnew ?_⟩
    · simp only [hfit, decide_false, Bool.and_false, if_false, Bool.false_eq_true, hget, hfirst,
        hsecond, ok_bind]
      rw [writeAt_ok (by omega), ok_bind, writeAt_ok (by omega), ok_bind, writeAt_ok (by omega),
        ok_bind, hn.children_eq, set_at, set_behind, hn.keys_eq, ← hn.length_eq, set_at, ← hpage]
      simp [pure, Except.pure]
    · rw [hcontents]
      have hjoin := List.take_append_drop mid (x ++ y)
      simp only [List.flatMap_append, List.flatMap_cons, List.flatMap_nil, contents, List.append_nil,
        hjoin]

/-- Two children are all children of a page with one separator. -/
theorem Neighbours.only {isLeaf : Bool} {child sibling x y : Node K V} {before after : List K}
    {m : K} {left right : List (Node K V)} (h : Fragment cfg isLeaf keys children)
    (hn : Neighbours keys children childPos child sibling before m after left x y right)
    (hone : keys.length = 1) : children = [x, y] := by
  have hlen := h.row.length_eq
  have hkeys := hn.keys_eq ▸ hone
  rw [hn.children_eq, hone] at hlen
  simp only [List.length_append, List.length_cons, hn.length_eq] at hkeys hlen
  have hleft : left = [] := List.length_eq_zero_iff.mp (by omega)
  have hright : right = [] := List.length_eq_zero_iff.mp (by omega)
  rw [hn.children_eq, hleft, hright]
  rfl

/-- Underfull leaves are corrected well. -/
theorem leaves_preserved {child sibling : Node K V} (h : Fragment cfg true keys children)
    (hupper : ∀ m ∈ keys, m ≤ upper) (hchild : children[childPos]? = some child)
    (hsibling : children[siblingPos keys childPos]? = some sibling)
    (hunder : hasUnderflow cfg child = true) (hroot : keys.length = 1 → isRoot = true) :
    ∃ after, doUnderflowCorrection cfg isRoot upper keys children childPos = .ok after ∧
      Preserved cfg true (.index keys children) after := by
  obtain ⟨before, m, after, left, x, y, right, hn⟩ :=
    neighbours h.row.length_eq h.nonempty hchild hsibling
  obtain ⟨g, ⟨hmlow, -, -⟩, hx, hy, -⟩ := hn.replace h
  cases x with
  | index => exact absurd hx.1 (by decide)
  | leaf x =>
  cases y with
  | index => exact absurd hy.1 (by decide)
  | leaf y =>
  have hcross : ∀ a ∈ x, ∀ b ∈ y, a.key < b.key := fun a ha b hb =>
    ((mem_left hmlow).mp (hx.2.1.2 a ha)).2.trans_le (hy.2.1.2 b hb).1
  rcases hn.order with ⟨hlast, hpos, rfl, rfl⟩ | ⟨hlast, hpos, rfl, rfl⟩
  · have hsib : siblingPos keys childPos = childPos + 1 := if_pos hlast
    have hmin : 4 ≤ cfg.sizes.numRecords := by
      have := of_decide_eq_true hunder
      simp only [Sizes.allocationLeaf] at this
      omega
    rw [correction_of_leaves h hupper hchild hsibling]
    refine correctLeaves_preserved h hn hmin ?_ ?_ ?_ fun hone hfit => ?_
    · exact List.merge_of_le fun a b ha hb => decide_eq_true (hcross a ha b hb)
    · rw [hsib, hpos, hn.length_eq]
      omega
    · rw [hsib, hpos, hn.length_eq]
      omega
    · obtain rfl : childPos = 0 := by omega
      rw [hn.only h hone, hsib, hroot hone]
      exact (merge_of_leaves hfit.le).1
  · have hsib : siblingPos keys childPos = childPos - 1 := if_neg (by omega)
    have hmin : 4 ≤ cfg.sizes.numRecords := by
      have := of_decide_eq_true hunder
      simp only [Sizes.allocationLeaf] at this
      omega
    rw [correction_of_leaves h hupper hchild hsibling]
    refine correctLeaves_preserved h hn hmin ?_ ?_ ?_ fun hone hfit => ?_
    · exact merge_of_not_le fun b hb a ha => decide_eq_false (hcross a ha b hb).not_gt
    · rw [hsib, hpos, hn.length_eq]
      omega
    · rw [hsib, hpos, hn.length_eq]
      omega
    · obtain rfl : childPos = 1 := by omega
      rw [hn.only h hone, hsib, hroot hone]
      exact (merge_of_leaves hfit.le).2

end Leaves

/-! ## Directories -/

section Directories
variable {xKeys yKeys : List K} {xChildren yChildren : List (Node K V)} {isRoot : Bool}
  {child sibling : Node K V} {before after : List K} {m : K} {left right : List (Node K V)}

theorem allCandidates_length (hupper : ∀ m ∈ keys, m ≤ upper)
    (hlen : children.length = keys.length + 1) (hpos : childPos ≤ keys.length) :
    (allCandidates keys children upper childPos).length = keys.length := by
  rw [allCandidates, merge_upper hupper, filter_zipIdx]
  simp only [List.length_append, List.length_zipIdx, List.length_take, List.length_drop,
    List.length_zip, hlen, List.length_singleton]
  omega

theorem correction_of_directories (h : Fragment cfg false keys children)
    (hn : Neighbours keys children childPos child sibling before m after left
      (.index xKeys xChildren) (.index yKeys yChildren) right)
    (hupper : ∀ m ∈ keys, m ≤ upper) (hchild : children[childPos]? = some child)
    (hsibling : children[siblingPos keys childPos]? = some sibling) (hmany : keys.length ≠ 1) :
    doUnderflowCorrection cfg isRoot upper keys children childPos =
      correctDirectories cfg keys children left.length (left.length + 1) m xKeys yKeys xChildren
        yChildren := by
  have hlen := h.row.length_eq
  have hpos := (List.getElem?_eq_some_iff.mp hchild).1
  have hle : childPos ≤ keys.length := by omega
  obtain ⟨⟨block, key⟩, hchosen, hblock, hkey⟩ :=
    chosen_eq h.row.sorted hupper hlen h.nonempty hle
  have hcandidates := allCandidates_length hupper hlen hle
  rw [hsibling] at hblock
  cases hblock
  have hmany' : decide (keys.length = 1) = false := decide_eq_false hmany
  simp only [doUnderflowCorrection, getUnchecked_eq hchild, ok_bind, hchosen, hcandidates, hmany',
    Bool.false_and, Bool.false_eq_true, if_false]
  have hm := hn.between
  rcases hn.order with ⟨hlast, hcp, rfl, rfl⟩ | ⟨hlast, hcp, rfl, rfl⟩
  · have hsib : siblingPos keys childPos = childPos + 1 := if_pos hlast
    rw [← hcp] at hm
    simp only [hsib, hm, Option.getD_some, Nat.lt_succ_self, if_true]
    rw [hcp, hn.length_eq]
  · have hsib : siblingPos keys childPos = childPos - 1 := if_neg (by omega)
    have hsib' : siblingPos keys childPos = before.length := by omega
    have hnot : ¬ childPos < before.length := by omega
    rw [hsib', List.getElem?_append_left (by omega), hm] at hkey
    cases hkey
    simp only [hsib', hnot, if_false]
    rw [hcp, hn.length_eq]

/-- Two directories that fit into one page are merged well. -/
theorem correctDirectories_preserved (h : Fragment cfg false keys children)
    (hn : Neighbours keys children childPos child sibling before m after left
      (.index xKeys xChildren) (.index yKeys yChildren) right)
    (hmany : keys.length ≠ 1) (hfit : xKeys.length + yKeys.length < cfg.sizes.fanOut - 1) :
    ∃ after, correctDirectories cfg keys children left.length (left.length + 1) m xKeys yKeys
        xChildren yChildren = .ok after ∧ Preserved cfg false (.index keys children) after := by
  obtain ⟨g, ⟨hmlow, hmup, hmmax⟩, ⟨-, hxrow, hxne, hxfits⟩, ⟨-, hyrow, hyne, hyfits⟩, hreplace⟩ :=
    hn.replace h
  have hxlen := hxrow.length_eq
  have hylen := hyrow.length_eq
  have hkeysLen := h.fits
  have hchildrenLen := h.row.length_eq
  have hlenKeys : keys.length = left.length + 1 + after.length := by
    rw [hn.keys_eq, List.length_append, hn.length_eq, List.length_cons]
    omega
  have hnew : ChildPage cfg false g (.index (xKeys ++ m :: yKeys) (xChildren ++ yChildren)) := by
    refine ⟨rfl, hxrow.append hmlow hmup hmmax hyrow, by simp, ?_⟩
    rw [List.length_append, List.length_cons]
    omega
  have hne : before ++ [] ++ after ≠ [] := by
    intro hnil
    have hzero := congrArg List.length hnil
    simp only [List.length_append, List.length_nil, hn.length_eq] at hzero
    omega
  have hfragment := hreplace [] [.index (xKeys ++ m :: yKeys) (xChildren ++ yChildren)]
    (.last hnew) (Nat.zero_le _) hne
  have hpage := indexPage_row hne hfragment.row.length_eq
  have hnewPage := indexPage_row (by simp : xKeys ++ m :: yKeys ≠ []) hnew.2.1.length_eq
  refine ⟨⟨.index (before ++ [] ++ after) (left ++ [.index (xKeys ++ m :: yKeys)
    (xChildren ++ yChildren)] ++ right), false⟩, ?_, preserved_directories h hfragment ?_ ?_⟩
  · simp only [correctDirectories, hfit, if_true]
    rw [extendFrom_ok (by simp; omega), ok_bind, extendFrom_ok (by simp; omega), ok_bind,
      extendFrom_ok (by simp; omega), ok_bind, extendFrom_ok (by simp; omega), ok_bind,
      extendFrom_ok (by simp; omega), ok_bind, removeAt_ok (by omega), ok_bind,
      removeAt_ok (by omega), ok_bind, writeAt_ok (by omega), ok_bind]
    simp only [List.nil_append, List.append_assoc, List.singleton_append, hnewPage]
    rw [hn.children_eq, erase_behind, set_at, hn.keys_eq, ← hn.length_eq, erase_at]
    simp only [List.append_nil, List.append_assoc, List.singleton_append] at hpage
    rw [hpage]
    simp [pure, Except.pure]
  · rw [hn.children_eq]
    simp only [List.flatMap_append, List.flatMap_cons, List.flatMap_nil, List.append_nil, blocks_one,
      List.append_assoc]
  · rw [hn.children_eq, hn.keys_eq]
    simp only [List.append_nil, List.map_append, List.map_cons, List.append_assoc,
      List.singleton_append]
    rw [separators_one hnew.2.1, separators_one hxrow, separators_one hyrow]
    exact weave_join (by rw [hn.length_eq, List.length_map])

/-- The correction below a root with one separator. -/
theorem correction_of_root (h : Fragment cfg false keys children)
    (hn : Neighbours keys children childPos child sibling before m after left
      (.index xKeys xChildren) (.index yKeys yChildren) right)
    (hupper : ∀ m ∈ keys, m ≤ upper) (hchild : children[childPos]? = some child)
    (hone : keys.length = 1) :
    doUnderflowCorrection cfg true upper keys children childPos =
      (joinDirectories cfg childPos (keys[childPos]?.getD upper) 0 [] []
        [.index xKeys xChildren, .index yKeys yChildren]).map fun page => ⟨page, true⟩ := by
  have hlen := h.row.length_eq
  have hpos := (List.getElem?_eq_some_iff.mp hchild).1
  have hle : childPos ≤ keys.length := by omega
  have hcandidates := allCandidates_length hupper hlen hle
  have hpair := hn.only h hone
  have hmerge : ∀ key, merge cfg true children child none childPos key =
      joinDirectories cfg childPos key 0 [] [] [.index xKeys xChildren, .index yKeys yChildren] := by
    intro key
    rw [hpair]
    rcases hn.order with ⟨hlast, -, rfl, rfl⟩ | ⟨hlast, -, rfl, rfl⟩
    · obtain rfl : childPos = 0 := by omega
      simp [merge, vecInsert, getUnchecked, BaselinePages.Node.isLeaf, ok_bind]
    · obtain rfl : childPos = 1 := by omega
      simp [merge, vecInsert, getUnchecked, BaselinePages.Node.isLeaf, ok_bind]
  have hdirectory : child.isLeaf = false := by
    rcases hn.order with ⟨-, -, rfl, -⟩ | ⟨-, -, -, rfl⟩ <;> rfl
  simp only [doUnderflowCorrection, getUnchecked_eq hchild, ok_bind, hcandidates, hone, hdirectory,
    decide_true, Bool.not_false, Bool.and_self, if_true, hmerge]
  rfl

/-- What the loop of `merge` makes of two directories. -/
theorem joinDirectories_pair {key : K} {page : Node K V} (hne : xKeys ≠ [])
    (hlen : xChildren.length = xKeys.length + 1)
    (h : joinDirectories cfg childPos key 0 [] [] [.index xKeys xChildren, .index yKeys yChildren] =
      .ok page) :
    xChildren.length + yChildren.length ≤ cfg.sizes.fanOut ∧
      page = indexPage (xKeys ++ (if childPos = 0 then [key] else []) ++ yKeys)
        (xChildren ++ yChildren) := by
  have hvisible : xChildren.take (childrenLen xKeys.length) = xChildren := by
    cases xKeys with
    | nil => exact absurd rfl hne
    | cons k ks => exact List.take_of_length_le (by rw [hlen]; exact le_rfl)
  have hfirst : ¬ 0 = childPos + 1 := by omega
  simp only [joinDirectories, if_neg hfirst, List.take_nil, ok_bind] at h
  obtain ⟨children₀, hchildren₀, h⟩ := of_bind_ok h
  obtain ⟨keys₀, hkeys₀, h⟩ := of_bind_ok h
  rw [extendFrom_eq hchildren₀, extendFrom_eq hkeys₀] at h
  simp only [List.nil_append, hvisible] at h
  obtain ⟨children₁, hchildren₁, h⟩ := of_bind_ok h
  refine ⟨extendFrom_room hchildren₁, ?_⟩
  rw [extendFrom_eq hchildren₁] at h
  by_cases hzero : childPos = 0
  · subst hzero
    simp only [Nat.zero_add, if_true] at h ⊢
    obtain ⟨keys₁, hkeys₁, h⟩ := of_bind_ok h
    rw [extendFrom_eq hkeys₁] at h
    obtain ⟨keys₂, hkeys₂, h⟩ := of_bind_ok h
    rw [extendFrom_eq hkeys₂] at h
    exact (Except.ok.inj h).symm
  · have hsecond : ¬ 0 + 1 = childPos + 1 := by omega
    simp only [if_neg hsecond, if_neg hzero, List.append_nil] at h ⊢
    obtain ⟨keys₁, hkeys₁, h⟩ := of_bind_ok h
    rw [extendFrom_eq hkeys₁] at h
    exact (Except.ok.inj h).symm

theorem joinDirectories_run {key : K} (hne : xKeys ≠ [])
    (hlen : xChildren.length = xKeys.length + 1) (hlen' : yChildren.length = yKeys.length + 1)
    (hfit : xKeys.length + yKeys.length < cfg.sizes.fanOut - 1) :
    joinDirectories cfg 0 key 0 [] [] [.index xKeys xChildren, .index yKeys yChildren] =
      .ok (.index (xKeys ++ key :: yKeys) (xChildren ++ yChildren)) := by
  have hvisible : xChildren.take (childrenLen xKeys.length) = xChildren := by
    cases xKeys with
    | nil => exact absurd rfl hne
    | cons k ks => exact List.take_of_length_le (by rw [hlen]; exact le_rfl)
  have hpage : indexPage (xKeys ++ key :: yKeys) (xChildren ++ yChildren) =
      .index (xKeys ++ key :: yKeys) (xChildren ++ yChildren) := by
    refine indexPage_row (by simp) ?_
    simp only [List.length_append, List.length_cons]
    omega
  simp only [joinDirectories, List.take_nil, Nat.zero_add, zero_ne_one, if_false, if_true]
  rw [extendFrom_ok (by simp; omega), ok_bind, ok_bind, extendFrom_ok (by simp; omega), ok_bind]
  simp only [List.nil_append, hvisible]
  rw [extendFrom_ok (by omega), ok_bind, extendFrom_ok (by simp; omega), ok_bind,
    extendFrom_ok (by simp; omega), ok_bind]
  simpa using hpage

theorem joined_preserved (h : Fragment cfg false keys children)
    (hn : Neighbours keys children 0 child sibling before m after left
      (.index xKeys xChildren) (.index yKeys yChildren) right)
    (hupper : ∀ m ∈ keys, m ≤ upper) (hchild : children[0]? = some child) (hone : keys.length = 1)
    (hfit : xKeys.length + yKeys.length < cfg.sizes.fanOut - 1) :
    ∃ after, doUnderflowCorrection cfg true upper keys children 0 = .ok after ∧
      Preserved cfg false (.index keys children) after := by
  obtain ⟨g, ⟨hmlow, hmup, hmmax⟩, ⟨-, hxrow, hxne, -⟩, ⟨-, hyrow, -, -⟩, -⟩ := hn.replace h
  have hpair := hn.only h hone
  obtain rfl : keys = [m] := by
    have hkeys := hn.keys_eq
    rw [hkeys, List.length_append, List.length_cons] at hone
    have hbefore : before = [] := List.length_eq_zero_iff.mp (by omega)
    have hafter : after = [] := List.length_eq_zero_iff.mp (by omega)
    rw [hkeys, hbefore, hafter]
    rfl
  have hflat := (h.row.mono fun g c _ hc => row_of_child hc).flatten
  have hblocks : children.flatMap (blocks 1) = xChildren ++ yChildren := by
    rw [hpair]
    simp only [List.flatMap_cons, List.flatMap_nil, List.append_nil, blocks_one]
  have hseparators : weave [m] (children.map (separators 1)) = xKeys ++ m :: yKeys := by
    rw [hpair, List.map_cons, List.map_cons, separators_one hxrow, separators_one hyrow]
    rfl
  rw [hblocks, hseparators] at hflat
  refine ⟨⟨.index (xKeys ++ m :: yKeys) (xChildren ++ yChildren), true⟩, ?_,
    preserved_root_directory h ⟨rfl, hflat, by simp, ?_⟩ hblocks.symm hseparators.symm⟩
  · rw [correction_of_root h hn hupper hchild hone]
    simp only [List.getElem?_cons_zero, Option.getD_some]
    rw [joinDirectories_run hxne hxrow.length_eq hyrow.length_eq hfit]
    rfl
  · rw [List.length_append, List.length_cons]
    omega

theorem count_of_preserved {page : Node K V} {after : Corrected K V}
    (h : Preserved cfg false page after) :
    (blocks (after.levels false) after.page).length = (blocks 2 page).length := h.2.1.length_eq

/-- When the separator is not written, or there is no room for it, a child is lost. -/
theorem joined_lost (h : Fragment cfg false keys children)
    (hn : Neighbours keys children childPos child sibling before m after left
      (.index xKeys xChildren) (.index yKeys yChildren) right)
    (hupper : ∀ m ∈ keys, m ≤ upper) (hchild : children[childPos]? = some child)
    (hone : keys.length = 1)
    (hbad : ¬ (childPos = 0 ∧ xKeys.length + yKeys.length < cfg.sizes.fanOut - 1))
    {result : Corrected K V}
    (hrun : doUnderflowCorrection cfg true upper keys children childPos = .ok result) :
    ¬ Preserved cfg false (.index keys children) result := by
  intro hkeep
  obtain ⟨g, -, ⟨-, hxrow, hxne, -⟩, ⟨-, hyrow, -, -⟩, -⟩ := hn.replace h
  have hxlen := hxrow.length_eq
  have hylen := hyrow.length_eq
  rw [correction_of_root h hn hupper hchild hone] at hrun
  cases hjoin : joinDirectories cfg childPos (keys[childPos]?.getD upper) 0 [] []
      [.index xKeys xChildren, .index yKeys yChildren] with
  | error fault =>
    rw [hjoin] at hrun
    cases hrun
  | ok page =>
    obtain ⟨hroom, hpage⟩ := joinDirectories_pair hxne hxlen hjoin
    rw [hjoin] at hrun
    cases hrun
    have hcount := count_of_preserved hkeep
    have htotal : (blocks 2 (.index keys children)).length = xChildren.length + yChildren.length := by
      change (children.flatMap (blocks 1)).length = _
      rw [hn.only h hone]
      simp only [List.flatMap_cons, List.flatMap_nil, List.append_nil, blocks_one,
        List.length_append]
    have hpos : childPos ≠ 0 := fun hzero => hbad ⟨hzero, by omega⟩
    rw [if_neg hpos, List.append_nil] at hpage
    have hless := blocks_one_length (xKeys ++ yKeys) (xChildren ++ yChildren)
    rw [← hpage, List.length_append] at hless
    change (blocks 1 page).length = _ at hcount
    omega

/-- The redistribution of directories loses a child. -/
theorem split_lost (h : Fragment cfg false keys children)
    (hn : Neighbours keys children childPos child sibling before m after left
      (.index xKeys xChildren) (.index yKeys yChildren) right)
    (hbad : ¬ xKeys.length + yKeys.length < cfg.sizes.fanOut - 1) {result : Corrected K V}
    (hrun : correctDirectories cfg keys children left.length (left.length + 1) m xKeys yKeys
      xChildren yChildren = .ok result) :
    ¬ Preserved cfg false (.index keys children) result := by
  intro hkeep
  obtain ⟨g, -, ⟨-, hxrow, -, -⟩, ⟨-, hyrow, -, -⟩, -⟩ := hn.replace h
  have hxlen := hxrow.length_eq
  have hylen := hyrow.length_eq
  have hlen := h.row.length_eq
  simp only [correctDirectories, if_neg hbad] at hrun
  set joined := xKeys.merge yKeys fun a b => decide (a ≤ b) with hjoined
  have hjoinedLen : joined.length = xKeys.length + yKeys.length := List.length_merge _ _ _
  obtain ⟨splitKey, -, hrun⟩ := of_bind_ok hrun
  obtain ⟨childrenLeft, hchildrenLeft, hrun⟩ := of_bind_ok hrun
  obtain ⟨keysLeft, hkeysLeft, hrun⟩ := of_bind_ok hrun
  obtain ⟨childrenRight, hchildrenRight, hrun⟩ := of_bind_ok hrun
  obtain ⟨keysRight, hkeysRight, hrun⟩ := of_bind_ok hrun
  obtain ⟨keys', hkeys', hrun⟩ := of_bind_ok hrun
  obtain ⟨children', hchildren', hrun⟩ := of_bind_ok hrun
  obtain ⟨children'', hchildren'', hrun⟩ := of_bind_ok hrun
  cases hrun
  have hrow : children'' = left ++ indexPage keysLeft childrenLeft ::
      indexPage keysRight childrenRight :: right := by
    rw [writeAt_eq hchildren'', writeAt_eq hchildren', hn.children_eq, set_at, set_behind]
  have hkeysLen : keys'.length = keys.length := by
    rw [writeAt_eq hkeys', List.length_set]
  have hchildrenLen : children''.length = children.length := by
    rw [writeAt_eq hchildren'', writeAt_eq hchildren', List.length_set, List.length_set]
  have hne : keys' ≠ [] := by
    intro hnil
    rw [hnil] at hkeysLen
    exact h.nonempty (List.length_eq_zero_iff.mp hkeysLen.symm)
  have hcount := count_of_preserved hkeep
  change (blocks 2 (indexPage keys' children'')).length = (children.flatMap (blocks 1)).length at hcount
  rw [indexPage_row hne (by omega)] at hcount
  change (children''.flatMap (blocks 1)).length = _ at hcount
  -- the separators of the new pages are one less than the old ones, and one child goes with it
  have hleft := blocks_one_length keysLeft childrenLeft
  have hright := blocks_one_length keysRight childrenRight
  have hleftLen : keysLeft.length = min (joined.length / 2) joined.length := by
    rw [extendFrom_eq hkeysLeft, List.nil_append, List.length_take]
  have hrightLen : keysRight.length = joined.length - (joined.length / 2 + 1) := by
    rw [extendFrom_eq hkeysRight, List.nil_append, List.length_drop]
  rw [hrow, hn.children_eq] at hcount
  simp only [List.flatMap_append, List.flatMap_cons, List.length_append, blocks_one] at hcount
  have hfan := cfg.sizes.fanOut_min
  omega

end Directories

/-! ## The exact condition -/

variable {isRoot isLeaf : Bool} {child sibling : Node K V}

/-- A correction keeps the fragment just if the two pages are leaves, or if they fit
into one page and the first of the only two children of the root is underfull. -/
theorem correction_preserves_iff (h : Fragment cfg isLeaf keys children)
    (hupper : ∀ m ∈ keys, m ≤ upper) (hchild : children[childPos]? = some child)
    (hsibling : children[siblingPos keys childPos]? = some sibling)
    (hunder : hasUnderflow cfg child = true) (hroot : keys.length = 1 → isRoot = true) :
    (∃ after, doUnderflowCorrection cfg isRoot upper keys children childPos = .ok after ∧
        Preserved cfg isLeaf (.index keys children) after) ↔
      isLeaf = true ∨ (keys.length = 1 → childPos = 0) ∧
        child.len + sibling.len < cfg.sizes.fanOut - 1 := by
  cases isLeaf with
  | true =>
    exact iff_of_true (leaves_preserved h hupper hchild hsibling hunder hroot) (.inl rfl)
  | false =>
    obtain ⟨before, m, after, left, x, y, right, hn⟩ :=
      neighbours h.row.length_eq h.nonempty hchild hsibling
    obtain ⟨g, -, hx, hy, -⟩ := hn.replace h
    cases x with
    | leaf => exact absurd hx.1 (by decide)
    | index xKeys xChildren =>
    cases y with
    | leaf => exact absurd hy.1 (by decide)
    | index yKeys yChildren =>
    have hsum : child.len + sibling.len = xKeys.length + yKeys.length := by
      rcases hn.order with ⟨-, -, rfl, rfl⟩ | ⟨-, -, rfl, rfl⟩
      · rfl
      · exact Nat.add_comm _ _
    rw [hsum]
    by_cases hone : keys.length = 1
    · rw [hroot hone]
      constructor
      · rintro ⟨result, hrun, hkeep⟩
        refine .inr (by_contra fun hbad => ?_)
        exact joined_lost h hn hupper hchild hone (fun hgood => hbad ⟨fun _ => hgood.1, hgood.2⟩)
          hrun hkeep
      · rintro (hleaf | ⟨hfirst, hfit⟩)
        · cases hleaf
        · obtain rfl := hfirst hone
          exact joined_preserved h hn hupper hchild hone hfit
    · rw [correction_of_directories h hn hupper hchild hsibling hone]
      constructor
      · rintro ⟨result, hrun, hkeep⟩
        refine .inr ⟨fun heq => absurd heq hone, by_contra fun hbad => ?_⟩
        exact split_lost h hn hbad hrun hkeep
      · rintro (hleaf | ⟨-, hfit⟩)
        · cases hleaf
        · exact correctDirectories_preserved h hn hone hfit

/-- A leaf with one record. -/
def oneKey (key : UInt64) : Node UInt64 (VersionIndex (sortedList (RecordInfo ℕ))) :=
  .leaf [⟨key, .new .vanilla 0 1⟩]

/-- Two directories with one separator each. -/
def lowDirectory : Node UInt64 (VersionIndex (sortedList (RecordInfo ℕ))) :=
  .index [10] [oneKey 5, oneKey 15]

def highDirectory : Node UInt64 (VersionIndex (sortedList (RecordInfo ℕ))) :=
  .index [30] [oneKey 25, oneKey 35]

theorem two_directories : Fragment indexConfig.tree false [20] [lowDirectory, highDirectory] where
  row := by
    refine .cons (by decide) (by decide) (by decide) ⟨rfl, ?_, by decide, by decide⟩
      (.last ⟨rfl, ?_, by decide, by decide⟩)
    · exact .cons (by decide) (by decide) (by decide) trivial (.last trivial)
    · exact .cons (by decide) (by decide) (by decide) trivial (.last trivial)
  nonempty := by decide
  fits := by decide

theorem correction_preserves_iff_first_child :
    (∃ after, doUnderflowCorrection indexConfig.tree true indexConfig.keys.maxKey [20]
          [lowDirectory, highDirectory] 0 = .ok after ∧
        Preserved indexConfig.tree false (.index [20] [lowDirectory, highDirectory]) after) ↔
      false = true ∨ (([20] : List UInt64).length = 1 → 0 = 0) ∧
        lowDirectory.len + highDirectory.len < indexConfig.tree.sizes.fanOut - 1 :=
  correction_preserves_iff two_directories (fun m _ => indexConfig.keys.le_max m) rfl rfl
    (by decide) (fun _ => rfl)

/-- The second of two underfull directories below the root. The separator between the
two pages is lost, and with it the last child. -/
theorem correction_loses_child :
    Fragment indexConfig.tree false [20] [lowDirectory, highDirectory] ∧
    hasUnderflow indexConfig.tree highDirectory = true ∧
    doUnderflowCorrection indexConfig.tree true indexConfig.keys.maxKey [20]
        [lowDirectory, highDirectory] 1 =
      .ok ⟨.index [10, 30] [oneKey 5, oneKey 15, oneKey 25], true⟩ ∧
    ¬ ∃ after, doUnderflowCorrection indexConfig.tree true indexConfig.keys.maxKey [20]
          [lowDirectory, highDirectory] 1 = .ok after ∧
        Preserved indexConfig.tree false (.index [20] [lowDirectory, highDirectory]) after := by
  have hneighbours : Neighbours [20] [lowDirectory, highDirectory] 1 highDirectory lowDirectory [] 20
      [] [] lowDirectory highDirectory [] := ⟨rfl, rfl, rfl, .inr ⟨rfl, rfl, rfl, rfl⟩⟩
  have hrun := correction_of_root two_directories hneighbours
    (fun m _ => indexConfig.keys.le_max m) rfl rfl
  refine ⟨two_directories, by decide, hrun, ?_⟩
  rintro ⟨after, hrun', hkeep⟩
  cases hrun.symm.trans hrun'
  exact absurd (count_of_preserved hkeep) (by decide)

end CMVBT.FragmentRepair
