import CMVBT.ParentRewrite

/-!
# Repairing an unsafe child

`on_overflow_node` and `on_underflow_node` return on every child that the write
descent hands to them, preserve the invariant, and afterwards each key of the
repaired fence lies in a child that needs no repair.
-/
namespace CMVBT.ChildRepair
open KeyInterval FenceTiling VersionedLog PageModel FrugalList CommitClock Tracker CMVBT.Tree
open BlockSupply
open WritePath ReadPath DirectoryHistory LeafHistory TreeInvariant PageRewrite NewPages
open Reorganization ParentRewrite

variable {K P : Type} [LinearOrder K]

/-- A directory with room for two more entries, and with enough active ones to
lose one of them. -/
def Ready (cfg : Config K) (t : MVBTSt K P) (m : ℕ) (p : InternalPage K) : Prop :=
  p.units.length + 2 ≤ cfg.fanOut ∧
    (if m = t.currentRoot.1 then 2 else (cfg.fanOut + 4) / 5 + 1) ≤
      (p.units.filter PageUnit.isActive).length

/-- The result of a repair below `m` on the keys of the fence `f`. -/
structure Repaired (cfg : Config K) (t : MVBTSt K P) (g : Ghost K P) (m : ℕ) (f : Interval K)
    (t' : MVBTSt K P) (g' : Ghost K P) : Prop where
  inv : Inv cfg t' g'
  advance : Advance t g t' g'
  log : g'.log = g.log
  life : g'.life m = g.life m
  root : t'.root = t.root
  safe : ∀ k ∈ f, ∃ b < t'.nextBlock, (g'.life b).death = none ∧
    (g'.life b).level + 1 = (g'.life m).level ∧ k ∈ (g'.life b).fence ∧
    unsafeDegree cfg (t'.heap b) = .ok

theorem filled_of_ok {cfg : Config K} {n : Node K P} (h : unsafeDegree cfg n = .ok) :
    filling20Percent cfg n < n.activeDeadCount.1 ∧
      n.activeDeadCount.1 + n.activeDeadCount.2 < overflowUnitsCount cfg n := by
  simp only [unsafeDegree] at h
  split_ifs at h with h₁ h₂ h₃
  refine ⟨not_le.mp h₁, ?_⟩
  simpa using h₃

section Swap
variable {cfg : Config K} {t t₁ t' : MVBTSt K P} {g : Ghost K P} {m level : ℕ}
  {p : InternalPage K} {index : List ℕ} {es : List (Entry K)} {xs : NewLinks K}

/-- Entry `e` of the directory `m` gave way, perhaps with a sibling, to children
that need no repair. -/
def Replaced (cfg : Config K) (t : MVBTSt K P) (g : Ghost K P) (m : ℕ) (e : Entry K)
    (t' : MVBTSt K P) : Prop :=
  ∃ t₁ p index es level xs, Swap cfg t g t₁ t' m p index es level xs ∧ e ∈ es ∧
    ∀ x ∈ xs, unsafeDegree cfg (t₁.heap x.2) = .ok

theorem swap_repaired (hs : Swap cfg t g t₁ t' m p index es level xs) (h : Inv cfg t g)
    {e : Entry K} (he : e ∈ es) (hok : ∀ x ∈ xs, unsafeDegree cfg (t₁.heap x.2) = .ok) :
    Repaired cfg t g m e.fence t' (Swap.after t g es level xs) := by
  obtain ⟨hinv, hadv, hlife, hnew⟩ := hs.step h
  refine ⟨hinv, hadv, rfl, hlife, hs.root, ?_⟩
  intro k hk
  obtain ⟨x, hx, hkx⟩ := (hs.pieces.cover k).mpr ⟨e, he, hk⟩
  have hmem := List.mem_map_of_mem (f := fun x => (x.2, t₁.heap x.2)) hx
  refine ⟨x.2, (hs.smo.next _).mpr (.inr ⟨_, hmem, rfl⟩), ?_, ?_, ?_, ?_⟩
  · rw [hnew x hx]
  · rw [hnew x hx, hlife, hs.level_eq]
  · rw [hnew x hx]
    exact hkx
  · have := hs.smo.heap_new _ hmem
    simp only at this
    rw [this]
    exact hok x hx

theorem Replaced.repaired {e : Entry K} (hr : Replaced cfg t g m e t') (h : Inv cfg t g) :
    ∃ g', Repaired cfg t g m e.fence t' g' := by
  obtain ⟨t₁, p, index, es, level, xs, hs, he, hok⟩ := hr
  exact ⟨_, swap_repaired hs h he hok⟩

omit [LinearOrder K] in
theorem getElem?_markAll_pointer (index : List ℕ) (units : List (Entry K)) (i : ℕ) :
    ((markAll index units)[i]?).map Entry.pointer = (units[i]?).map Entry.pointer := by
  induction index generalizing units with
  | nil => rfl
  | cons j index ih =>
    change ((markAll index (units.modify j Entry.markObsolete))[i]?).map Entry.pointer = _
    rw [ih, List.getElem?_modify]
    cases units[i]? with
    | none => rfl
    | some e => by_cases hij : j = i <;> simp [hij, Entry.markObsolete]

omit [LinearOrder K] in
/-- The pointer of a marked entry is still there. -/
theorem getPointer_swapped {i w : ℕ} {e : Entry K} {δa δd : ℤ} (hi : p.units[i]? = some e)
    (hheap : t'.heap m = .internal (swappedPage p w xs index δa δd)) :
    getPointer t' m i = .ok e.pointer := by
  have hlt : i < (markAll index p.units).length := by
    have hp := getElem?_markAll_pointer index p.units i
    rw [hi] at hp
    obtain ⟨e', he', -⟩ := Option.map_eq_some_iff.mp hp
    exact (List.getElem?_eq_some_iff.mp he').1
  have hget : ((swappedPage p w xs index δa δd).units[i]?).map Entry.pointer = some e.pointer := by
    simp only [swappedPage, List.getElem?_append_left hlt, getElem?_markAll_pointer, hi,
      Option.map_some]
  obtain ⟨e', he', hptr⟩ := Option.map_eq_some_iff.mp hget
  simp only [getPointer, MVBTSt.asInternalPage, hheap, bind, Except.bind, he', hptr, pure,
    Except.pure]

omit [LinearOrder K] in
theorem getKey_entry {i : ℕ} {e : Entry K} (hx : Child t g m i p e) :
    getKey t m i = .ok e.fence := by
  simp only [getKey, MVBTSt.asInternalPage, hx.page, bind, Except.bind, hx.entry, pure,
    Except.pure]

end Swap

section Overflow
variable {cfg : Config K} {t : MVBTSt K P} {g : Ghost K P} {m i : ℕ} {p : InternalPage K}
  {e : Entry K}

/-- The active entries of a directory above a child. -/
theorem enough_active (hx : Child t g m i p e) (h : Living cfg t g) :
    (if m = t.currentRoot.1 then 1 else (cfg.fanOut + 4) / 5) ≤
      (p.units.filter PageUnit.isActive).length := by
  split_ifs with hroot
  · exact List.length_pos_of_mem hx.mem
  · have hfilled := h.filled m hx.used hx.alive hroot
    have hactive : p.activeDeadCount.1 = p.units.countP PageUnit.isActive :=
      (hx.dir h).counted.active
    rw [hx.page] at hfilled
    simp only [filling20Percent, maxUnits, Node.isLeaf, Node.activeDeadCount, Bool.false_eq_true,
      if_false] at hfilled
    rwa [hactive, List.countP_eq_length_filter] at hfilled

/-- The common end of `on_overflow_node`: the parent is rewritten at a fresh
version and the child is buried. -/
theorem overflow_swap (h : Living cfg t g) (hx : Child t g m i p e) {t₁ : MVBTSt K P}
    {xs : NewLinks K}
    (hpieces : Pieces cfg t t₁ g (g.life e.pointer).level (· ∈ (g.life e.pointer).fence) xs)
    (hok : ∀ x ∈ xs, unsafeDegree cfg (t₁.heap x.2) = .ok)
    (hslots : p.units.length + 2 ≤ cfg.fanOut) (hpos : 1 ≤ xs.length) (hlen : xs.length ≤ 2) :
    ∃ t₂, replaceEntries cfg t₁.startTxCommit.1 m (freshEntries t.commit.clock xs)
        (xs.length - (1 : ℕ)) (1 : ℕ) [i] = .ok t₂ ∧
      getPointer (t₂.endTxCommit t.commit.clock) m i = .ok e.pointer ∧
      Swap cfg t g t₁ ((t₂.endTxCommit t.commit.clock).registerDead t.commit.clock e.pointer) m p
        [i] [e] (g.life e.pointer).level xs := by
  obtain ⟨hdeath, hfence, hlevel⟩ := hx.child_life h
  have hlt := (hx.link h).1
  have hbuilt := hpieces.built
  have hheap : t₁.startTxCommit.1.heap m = .internal p :=
    (hbuilt.heap_kept hx.used (h.not_buried hx.alive)).trans hx.page
  have hcounted := (hx.dir h).counted
  have hidx : ∀ j ∈ [i], j < p.units.length := by
    simpa using (List.getElem?_eq_some_iff.mp hx.entry).1
  have hroom : p.units.length + xs.length ≤ cfg.fanOut := by omega
  have hrep := replaceEntries_eq (w := t.commit.clock) (a := xs.length - (1 : ℕ))
    (d := (1 : ℕ)) hheap hcounted hroom hidx
  have hsmo := (((Smo.start hbuilt).write_parent
    (n := .internal (swappedPage p t.commit.clock xs [i] (xs.length - (1 : ℕ)) (1 : ℕ)))
    (hbuilt.not_new hx.used (h.not_buried hx.alive))).end_commit t.commit.clock).bury hlt
    (h.not_buried hdeath) (by simp)
  refine ⟨_, hrep, ?_, ?_⟩
  · exact getPointer_swapped hx.entry (Function.update_self m _ _)
  · refine
      { index_nodup := by simp
        entries := by simp [hx.entry]
        some_entry := by simp
        child := by simpa using ⟨i, hx⟩
        level_eq := hlevel.symm
        pieces := ?_
        filled := fun x hx => (filled_of_ok (hok x hx)).1.le
        room := hroom
        active := ?_
        smo := hsmo
        root := hbuilt.frame.root }
    · simpa [hfence] using hpieces
    · -- the child gives way to one at least
      have hactive := enough_active hx h
      split_ifs at hactive ⊢ <;> simp only [List.length_singleton] <;> omega

theorem onOverflowNode_replaced (h : Living cfg t g) (hc : Roomy cfg) (hx : Child t g m i p e)
    (hdeg : unsafeDegree cfg (t.heap e.pointer) = .overflow)
    (hslots : p.units.length + 2 ≤ cfg.fanOut) :
    ∃ t', onOverflowNode cfg t m e.pointer i = .ok t' ∧ Replaced cfg t g m e t' := by
  obtain ⟨hdeath, hfence, hlevel⟩ := hx.child_life h
  obtain ⟨t₁, s, hsplit, hpieces, hout⟩ := split_pieces h hc (hx.link h).1 hdeath
  have hclock : t₁.startTxCommit.2 = t.commit.clock := hpieces.built.frame.clock
  rw [hfence] at hsplit
  have hok : ∀ x ∈ splitFences (g.life e.pointer).fence s,
      unsafeDegree cfg (t₁.heap x.2) = .ok := by
    cases hout with
    | byKey hl hr => simp [splitFences, hl, hr]
    | byVersion hsmall hcount hleaf =>
      simp only [splitFences, List.mem_singleton, forall_eq]
      -- an overflowing page that is not split by key has between 40 and 80 percent
      simp only [unsafeDegree] at hdeg
      split_ifs at hdeg with h₁ h₂ h₃
      simp only [h₃, Bool.true_and, decide_eq_true_eq] at h₂
      have h20 : ∀ n n' : Node K P, n.isLeaf = n'.isLeaf → maxUnits cfg n = maxUnits cfg n' :=
        fun n n' hn => by simp [maxUnits, hn]
      have hmax := h20 _ _ hleaf
      refine unsafeDegree_ok hcount ?_ ?_
      · rw [filling20Percent, hmax]
        exact not_le.mp h₁
      · have hge₁ := hc.fanOut_ge
        have hge₂ := hc.numRecords_ge
        simp only [overflowUnitsCount, hleaf]
        simp only [filling80Percent, maxUnits] at hsmall
        split_ifs at hsmall ⊢ <;> omega
  cases s with
  | byKey lf l rf r =>
    obtain ⟨t₂, hrep, hptr, hswap⟩ := overflow_swap h hx hpieces hok hslots
      (by simp [splitFences]) (by simp [splitFences])
    refine ⟨_, ?_, t₁, p, _, _, _, _, hswap, List.mem_singleton_self e, hok⟩
    simp only [onOverflowNode, getKey_entry hx, bind, Except.bind, hsplit]
    rw [hclock]
    change (replaceEntries cfg t₁.startTxCommit.1 m
      [.new lf t.commit.clock l, .new rf t.commit.clock r] 1 1 [i]).bind _ = _
    have hrep' : replaceEntries cfg t₁.startTxCommit.1 m
        [.new lf t.commit.clock l, .new rf t.commit.clock r] 1 1 [i] = .ok t₂ := hrep
    rw [hrep']
    simp only [Except.bind, hptr, pure, Except.pure]
  | byVersion c =>
    obtain ⟨t₂, hrep, hptr, hswap⟩ := overflow_swap h hx hpieces hok hslots
      (by simp [splitFences]) (by simp [splitFences])
    refine ⟨_, ?_, t₁, p, _, _, _, _, hswap, List.mem_singleton_self e, hok⟩
    simp only [onOverflowNode, getKey_entry hx, bind, Except.bind, hsplit]
    rw [hclock]
    have hrep' : replaceEntries cfg t₁.startTxCommit.1 m
        [.new e.fence t.commit.clock c] 0 1 [i] = .ok t₂ := by
      rw [← hrep, ← hfence]
      rfl
    rw [hrep']
    simp only [hptr, pure, Except.pure]

theorem onOverflowNode_repaired (h : Inv cfg t g) (hc : Roomy cfg) (hx : Child t g m i p e)
    (hdeg : unsafeDegree cfg (t.heap e.pointer) = .overflow)
    (hslots : p.units.length + 2 ≤ cfg.fanOut) :
    ∃ t' g', onOverflowNode cfg t m e.pointer i = .ok t' ∧ Repaired cfg t g m e.fence t' g' := by
  obtain ⟨t', heq, hr⟩ := onOverflowNode_replaced h.living hc hx hdeg hslots
  obtain ⟨g', hrepaired⟩ := hr.repaired h
  exact ⟨t', g', heq, hrepaired⟩

end Overflow

section Underflow
variable {cfg : Config K} {t : MVBTSt K P} {g : Ghost K P} {m i j : ℕ} {p : InternalPage K}
  {e e' : Entry K}

/-- Different positions of a directory have different children. -/
theorem pointer_ne (h : Living cfg t g) (hx : Child t g m i p e) (hy : Child t g m j p e')
    (hji : j ≠ i) : e'.pointer ≠ e.pointer := by
  intro heq
  have hne := active_ne (hx.tiling h) hy.entry hx.entry hy.active hx.active hji
  obtain ⟨-, hfence, -⟩ := hx.child_life h
  obtain ⟨-, hfence', -⟩ := hy.child_life h
  have hproper := (hx.tiling h).proper e hx.mem
  refine hne ((hx.tiling h).eq_of_mem hy.mem hx.mem (k := e.fence.lower) ?_ hproper.lower_mem)
  rw [← hfence', heq, hfence]
  exact hproper.lower_mem

/-- The tree after `on_underflow_node` has replaced the children `e'` and `e` by `xs`. -/
def underflowed (t₁ : MVBTSt K P) (m : ℕ) (p : InternalPage K) (w i j : ℕ) (e e' : Entry K)
    (xs : NewLinks K) : MVBTSt K P :=
  (((t₁.startTxCommit.1.setNode m (.internal
    (swappedPage p w xs [j, i] (xs.length - (2 : ℕ)) (2 : ℕ)))).registerDead w
      e.pointer).registerDead w e'.pointer).endTxCommit w

/-- The writes of `on_underflow_node` after a merge. -/
theorem onUnderflowNode_run {t₁ : MVBTSt K P} {b w : ℕ} {res : MergeResult K}
    (hmerge : merge cfg t m b i = .ok (t₁, res)) (hout : MergeOutcome j e'.fence res)
    (hp : t₁.heap m = .internal p) (hcounted : p.Counted cfg.fanOut)
    (hi : p.units[i]? = some e) (hj : p.units[j]? = some e')
    (hroom : p.units.length + 2 ≤ cfg.fanOut) (hw : t₁.commit.clock = w) :
    onUnderflowNode cfg t m b i =
      .ok (some (underflowed t₁ m p w i j e e' (mergeFences e.fence res))) := by
  have hclock : t₁.startTxCommit.2 = w := hw
  have hheap : t₁.startTxCommit.1.heap m = .internal p := hp
  have hkey : getKey t₁ m i = .ok e.fence := by
    simp only [getKey, MVBTSt.asInternalPage, hp, bind, Except.bind, hi, pure, Except.pure]
  have hidx : ∀ n ∈ [j, i], n < p.units.length := by
    have h₁ := (List.getElem?_eq_some_iff.mp hi).1
    have h₂ := (List.getElem?_eq_some_iff.mp hj).1
    simp [h₁, h₂]
  have hlen : (mergeFences e.fence res).length ≤ 2 := by
    cases hout <;> simp [mergeFences, splitFences]
  have hroom' : p.units.length + (mergeFences e.fence res).length ≤ cfg.fanOut := by omega
  have hrep := replaceEntries_eq (w := w) (a := (mergeFences e.fence res).length - (2 : ℕ))
    (d := (2 : ℕ)) hheap hcounted hroom' hidx
  have hptr : getPointer (t₁.startTxCommit.1.setNode m (.internal (swappedPage p w
      (mergeFences e.fence res) [j, i] ((mergeFences e.fence res).length - (2 : ℕ)) (2 : ℕ)))) m i =
        .ok e.pointer :=
    getPointer_swapped hi (Function.update_self m _ _)
  have hptr' : getPointer ((t₁.startTxCommit.1.setNode m (.internal (swappedPage p w
      (mergeFences e.fence res) [j, i] ((mergeFences e.fence res).length - (2 : ℕ))
        (2 : ℕ)))).registerDead w e.pointer) m j = .ok e'.pointer :=
    getPointer_swapped hj (Function.update_self m _ _)
  cases hout with
  | merged c =>
    have hrep' : replaceEntries cfg t₁.startTxCommit.1 m
        [.new (e.fence.merged e'.fence) w c] (-1) 2 [j, i] = _ := hrep
    simp only [onUnderflowNode, hmerge, bind, Except.bind, hkey]
    rw [hclock, hrep']
    simp only [hptr, hptr', pure, Except.pure]
    rfl
  | keySplit lf l rf r =>
    have hrep' : replaceEntries cfg t₁.startTxCommit.1 m
        [.new lf w l, .new rf w r] 0 2 [j, i] = _ := hrep
    simp only [onUnderflowNode, hmerge, bind, Except.bind]
    rw [hclock, hrep']
    simp only [hptr, hptr', pure, Except.pure]
    rfl

theorem underflow_swap (h : Living cfg t g) (hx : Child t g m i p e) (hy : Child t g m j p e')
    (hji : j ≠ i) {t₁ : MVBTSt K P} {xs : NewLinks K}
    (hpieces : Pieces cfg t t₁ g (g.life e.pointer).level (fun k => k ∈ e.fence ∨ k ∈ e'.fence) xs)
    (hok : ∀ x ∈ xs, unsafeDegree cfg (t₁.heap x.2) = .ok) (hready : Ready cfg t m p)
    (hpos : 1 ≤ xs.length) (hlen : xs.length ≤ 2) :
    Swap cfg t g t₁ (underflowed t₁ m p t.commit.clock i j e e' xs) m p [j, i] [e', e]
      (g.life e.pointer).level xs := by
  obtain ⟨hdeath, -, hlevel⟩ := hx.child_life h
  obtain ⟨hdeath', -, -⟩ := hy.child_life h
  have hlt := (hx.link h).1
  have hlt' := (hy.link h).1
  have hbuilt := hpieces.built
  have hsmo := ((((Smo.start hbuilt).write_parent
    (n := .internal (swappedPage p t.commit.clock xs [j, i] (xs.length - (2 : ℕ)) (2 : ℕ)))
    (hbuilt.not_new hx.used (h.not_buried hx.alive))).bury hlt (h.not_buried hdeath)
    (by simp)).bury hlt' (h.not_buried hdeath')
    (by simpa using pointer_ne h hx hy hji)).end_commit t.commit.clock
  refine
    { index_nodup := by simpa using hji
      entries := by simp [hx.entry, hy.entry]
      some_entry := by simp
      child := by
        intro a ha
        rcases List.mem_cons.mp ha with rfl | ha
        · exact ⟨j, hy⟩
        · obtain rfl := List.mem_singleton.mp ha
          exact ⟨i, hx⟩
      level_eq := hlevel.symm
      pieces := ?_
      filled := fun x hx => (filled_of_ok (hok x hx)).1.le
      room := by have := hready.1; omega
      active := ?_
      smo := hsmo
      root := hbuilt.frame.root }
  · have hkeys : (fun k => ∃ a ∈ [e', e], k ∈ a.fence) =
        fun k => k ∈ e.fence ∨ k ∈ e'.fence := by
      funext k
      simp [or_comm]
    rw [hkeys]
    exact hpieces
  · have := hready.2
    split_ifs at this ⊢ <;> simp only [List.length_cons, List.length_nil] <;> omega

theorem onUnderflowNode_swap (h : Living cfg t g) (hc : Roomy cfg) (hx : Child t g m i p e)
    (hdeg : unsafeDegree cfg (t.heap e.pointer) = .activeUnderflow) (hready : Ready cfg t m p) :
    ∃ t' t₁ res j e', merge cfg t m e.pointer i = .ok (t₁, res) ∧
      onUnderflowNode cfg t m e.pointer i = .ok (some t') ∧
      Swap cfg t g t₁ t' m p [j, i] [e', e] (g.life e.pointer).level (mergeFences e.fence res) ∧
      ∀ x ∈ mergeFences e.fence res, unsafeDegree cfg (t₁.heap x.2) = .ok := by
  have hge := hc.fanOut_ge
  have htwo : 2 ≤ (p.units.filter PageUnit.isActive).length := by
    have := hready.2
    split_ifs at this <;> omega
  have hfew : (t.heap e.pointer).activeDeadCount.1 ≤
      2 * filling20Percent cfg (t.heap e.pointer) := by
    simp only [unsafeDegree] at hdeg
    split_ifs at hdeg with h₁ h₂ h₃
    · omega
    · simp only [Bool.and_eq_true, decide_eq_true_eq] at h₂
      omega
  obtain ⟨t₁, res, j, e', hmerge, hout, hji, hy, hpieces, hok⟩ :=
    merge_pieces h hc hx htwo hfew
  have hheap : t₁.heap m = .internal p :=
    (hpieces.built.heap_kept hx.used (h.not_buried hx.alive)).trans hx.page
  have hrun := onUnderflowNode_run hmerge hout hheap (hx.dir h).counted hx.entry hy.entry
    hready.1 hpieces.built.frame.clock
  have hswap := underflow_swap h hx hy hji hpieces hok hready
    (by cases hout <;> simp [mergeFences, splitFences])
    (by cases hout <;> simp [mergeFences, splitFences])
  exact ⟨_, t₁, res, j, e', hmerge, hrun, hswap, hok⟩

theorem onUnderflowNode_replaced (h : Living cfg t g) (hc : Roomy cfg) (hx : Child t g m i p e)
    (hdeg : unsafeDegree cfg (t.heap e.pointer) = .activeUnderflow) (hready : Ready cfg t m p) :
    ∃ t', onUnderflowNode cfg t m e.pointer i = .ok (some t') ∧ Replaced cfg t g m e t' := by
  obtain ⟨t', t₁, res, j, e', -, heq, hswap, hok⟩ := onUnderflowNode_swap h hc hx hdeg hready
  exact ⟨t', heq, t₁, p, _, _, _, _, hswap, by simp, hok⟩

theorem onUnderflowNode_repaired (h : Inv cfg t g) (hc : Roomy cfg) (hx : Child t g m i p e)
    (hdeg : unsafeDegree cfg (t.heap e.pointer) = .activeUnderflow) (hready : Ready cfg t m p) :
    ∃ t' g', onUnderflowNode cfg t m e.pointer i = .ok (some t') ∧
      Repaired cfg t g m e.fence t' g' := by
  obtain ⟨t', heq, hr⟩ := onUnderflowNode_replaced h.living hc hx hdeg hready
  obtain ⟨g', hrepaired⟩ := hr.repaired h
  exact ⟨t', g', heq, hrepaired⟩

end Underflow

end CMVBT.ChildRepair
