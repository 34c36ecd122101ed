import CMVBT.FenceTiling
import CMVBT.ReadPath

/-!
# A directory page through its versions

A directory is written in two ways only: it is filled once with active entries,
and afterwards new entries go behind the old ones while some old entries are
marked obsolete. The search of a reader ignores the marks, so what it finds at a
version does not change when later entries arrive; at the newest version it
finds the active entries.
-/
namespace CMVBT.DirectoryHistory
open KeyInterval LastMatch FenceTiling PageModel ReadPath

variable {K : Type} [LinearOrder K]

/-- The searches at version `v` cut the fence `f` into the fences they find. -/
def Partitions (units : List (Entry K)) (f : Interval K) (v : ℕ) : Prop :=
  ∀ k ∈ f, ∃ next : Interval K × ℕ, routeAt units v k = some next ∧ k ∈ next.1 ∧
    next.1.Within f ∧ ∀ k' ∈ next.1, routeAt units v k' = some next

/-- Marks do not hide anything: the newest entry of a key is active. -/
def NewestActive (units : List (Entry K)) (f : Interval K) : Prop :=
  ∀ k ∈ f, ∃ e, units.findRev? (fun e => e.fence.contains k) = some e ∧
    PageUnit.isActive e = true

theorem routeAt_mem {units : List (Entry K)} {v : ℕ} {k : K} {next : Interval K × ℕ}
    (h : routeAt units v k = some next) :
    ∃ e ∈ units, e.fence = next.1 ∧ e.pointer = next.2 ∧ e.version ≤ v ∧ k ∈ e.fence := by
  obtain ⟨e, he, rfl⟩ := Option.map_eq_some_iff.mp h
  have hp := findRev?_pos he
  simp only [Entry.matched, Bool.and_eq_true, decide_eq_true_eq, Interval.contains_eq_true] at hp
  exact ⟨e, findRev?_mem he, rfl, rfl, hp.1, hp.2⟩

/-- Once all entries exist, only the fences decide. -/
theorem routeAt_newest {units : List (Entry K)} {v : ℕ} (h : ∀ e ∈ units, e.version ≤ v) (k : K) :
    routeAt units v k = (units.findRev? (fun e => e.fence.contains k)).map
      (fun e => (e.fence, e.pointer)) := by
  unfold routeAt
  rw [findRev?_congr]
  intro e he
  simp [Entry.matched, h e he]

section Current
variable {link : Entry K → Prop} {needed : K → Prop} {f : Interval K} {units : List (Entry K)}

/-- The search for a key ends at the active entry that covers it. -/
theorem findRev?_active (ht : Tiling Entry.fence link needed f (units.filter PageUnit.isActive))
    (hn : NewestActive units f) {e : Entry K} (he : e ∈ units) (ha : PageUnit.isActive e = true)
    {k : K} (hk : k ∈ e.fence) : units.findRev? (fun e => e.fence.contains k) = some e := by
  have hmem : e ∈ units.filter PageUnit.isActive := List.mem_filter.mpr ⟨he, ha⟩
  obtain ⟨e', he', ha'⟩ := hn k (ht.within e hmem k hk)
  have hk' : k ∈ e'.fence := by simpa using findRev?_pos he'
  have hmem' : e' ∈ units.filter PageUnit.isActive :=
    List.mem_filter.mpr ⟨findRev?_mem he', ha'⟩
  rw [he', ht.eq_of_mem hmem' hmem hk' hk]

theorem routeAt_active (ht : Tiling Entry.fence link needed f (units.filter PageUnit.isActive))
    (hn : NewestActive units f) {v : ℕ} (hv : ∀ e ∈ units, e.version ≤ v) {e : Entry K}
    (he : e ∈ units) (ha : PageUnit.isActive e = true) {k : K} (hk : k ∈ e.fence) :
    routeAt units v k = some (e.fence, e.pointer) := by
  rw [routeAt_newest hv, findRev?_active ht hn he ha hk]
  rfl

theorem partitions_newest (ht : Tiling Entry.fence link needed f (units.filter PageUnit.isActive))
    (hn : NewestActive units f) {v : ℕ} (hv : ∀ e ∈ units, e.version ≤ v) :
    Partitions units f v := by
  intro k hk
  obtain ⟨e, he, ha⟩ := hn k hk
  have hmem := findRev?_mem he
  have hke : k ∈ e.fence := by simpa using findRev?_pos he
  exact ⟨(e.fence, e.pointer), routeAt_active ht hn hv hmem ha hke, hke,
    ht.within e (List.mem_filter.mpr ⟨hmem, ha⟩),
    fun k' hk' => routeAt_active ht hn hv hmem ha hk'⟩

/-- The last entry of a directory is never obsolete. -/
theorem last_active (hp : ∀ e ∈ units, e.fence.Proper ∧ e.fence.Within f) (hn : NewestActive units f)
    {l : List (Entry K)} {e : Entry K} (hl : units = l ++ [e]) : PageUnit.isActive e = true := by
  obtain ⟨hproper, hwithin⟩ := hp e (by simp [hl])
  have hk := hproper.lower_mem
  obtain ⟨e', he', ha'⟩ := hn _ (hwithin _ hk)
  have : units.findRev? (fun x => x.fence.contains e.fence.lower) = some e := by
    rw [hl]
    exact findRev?_split (Interval.contains_eq_true.mpr hk) (by simp)
  rw [this] at he'
  cases he'
  exact ha'

/-- A page that holds active entries only. -/
theorem newestActive_of_active
    (ht : Tiling Entry.fence link (fun _ => True) f units)
    (ha : ∀ e ∈ units, PageUnit.isActive e = true) : NewestActive units f := by
  intro k hk
  obtain ⟨e, he, hke⟩ := ht.complete k hk trivial
  obtain ⟨e', he'⟩ := findRev?_isSome (p := fun e => e.fence.contains k) he
    (Interval.contains_eq_true.mpr hke)
  exact ⟨e', he', ha e' (findRev?_mem he')⟩

end Current

/-! ## Marking and appending -/

section Marks
omit [LinearOrder K]
variable {m m' units marked : List (Entry K)}

/-- The obsolete marks that one structure modification sets. -/
def markAll (dead : List ℕ) (units : List (Entry K)) : List (Entry K) :=
  dead.foldl (fun us i => us.modify i Entry.markObsolete) units

theorem markAll_stamp (dead : List ℕ) (units : List (Entry K)) :
    (markAll dead units).map PageUnit.stamp = units.map PageUnit.stamp := by
  induction dead generalizing units with
  | nil => rfl
  | cons i dead ih =>
    refine (ih (units.modify i Entry.markObsolete)).trans ?_
    apply List.ext_getElem?
    intro j
    simp only [List.getElem?_map, List.getElem?_modify]
    cases units[j]? with
    | none => rfl
    | some e => by_cases hij : i = j <;> simp [hij, PageUnit.stamp, Entry.markObsolete]

/-- The entry `e`, or `e` with its mark if it is one of `m`. -/
def MaybeMarked (m : List (Entry K)) (e e' : Entry K) : Prop :=
  e' = e ∨ (e ∈ m ∧ e' = e.markObsolete)

theorem MaybeMarked.same {e e' : Entry K} (h : MaybeMarked m e e') :
    e'.fence = e.fence ∧ e'.version = e.version ∧ e'.pointer = e.pointer := by
  rcases h with rfl | ⟨-, rfl⟩ <;> exact ⟨rfl, rfl, rfl⟩

/-- What is known of a list of entries after the entries `m` were marked. -/
structure Marked (m units marked : List (Entry K)) : Prop where
  related : List.Forall₂ (MaybeMarked m) units marked
  active : (units.filter PageUnit.isActive).Perm (m ++ marked.filter PageUnit.isActive)

theorem Marked.mem_related (h : Marked m units marked) {e' : Entry K} (he' : e' ∈ marked) :
    ∃ e ∈ units, MaybeMarked m e e' := by
  have hrel := h.related
  clear h
  induction hrel with
  | nil => simp at he'
  | @cons a b l l' hab _ ih =>
    rcases List.mem_cons.mp he' with rfl | he'
    · exact ⟨a, by simp, hab⟩
    · obtain ⟨e, he, hee⟩ := ih he'
      exact ⟨e, by simp [he], hee⟩

theorem Marked.one {i : ℕ} {e : Entry K} (hi : units[i]? = some e)
    (ha : PageUnit.isActive e = true) : Marked [e] units (units.modify i Entry.markObsolete) := by
  obtain ⟨hlt, hget⟩ := List.getElem?_eq_some_iff.mp hi
  obtain ⟨l₁, a, l₂, hl, hlen, hmod⟩ := List.exists_of_modify Entry.markObsolete hlt
  obtain rfl : e = a := by
    rw [← hget]
    simp [hl, ← hlen]
  have hobs : PageUnit.isActive e.markObsolete = false := rfl
  rw [hmod, hl]
  refine ⟨?_, ?_⟩
  · refine List.rel_append (List.forall₂_same.mpr fun _ _ => .inl rfl) (.cons ?_ ?_)
    · exact .inr ⟨by simp, rfl⟩
    · exact List.forall₂_same.mpr fun _ _ => .inl rfl
  · simp only [List.filter_append, List.filter_cons, ha, hobs, if_true]
    exact List.perm_middle

/-- Marks set one after another; a marked entry is not marked again. -/
theorem Marked.trans {marked' : List (Entry K)} (h : Marked m units marked)
    (h' : Marked m' marked marked') : Marked (m ++ m') units marked' := by
  have hact : ∀ e ∈ m', PageUnit.isActive e = true := by
    intro e he
    have := h'.active.mem_iff.mpr (List.mem_append_left _ he)
    exact (List.mem_filter.mp this).2
  refine ⟨?_, ?_⟩
  · have hrel := h.related
    have hrel' := h'.related
    clear h h'
    induction hrel generalizing marked' with
    | nil => cases hrel'; exact .nil
    | @cons a b l l' hab _ ih =>
      cases hrel' with
      | @cons _ c _ l'' hbc htail =>
        refine .cons ?_ (ih htail)
        rcases hab with rfl | ⟨ha, rfl⟩
        · rcases hbc with rfl | ⟨hb, rfl⟩
          · exact .inl rfl
          · exact .inr ⟨List.mem_append_right _ hb, rfl⟩
        · rcases hbc with rfl | ⟨hb, -⟩
          · exact .inr ⟨List.mem_append_left _ ha, rfl⟩
          · exact absurd (hact _ hb) (by simp [PageUnit.isActive, Entry.markObsolete])
  · refine h.active.trans ?_
    rw [List.append_assoc]
    exact h'.active.append_left m

theorem markAll_marked {dead : List ℕ} (hnd : dead.Nodup) (hm : dead.map (units[·]?) = m.map some)
    (ha : ∀ e ∈ m, PageUnit.isActive e = true) : Marked m units (markAll dead units) := by
  induction dead generalizing units m with
  | nil =>
    obtain rfl : m = [] := by simpa using hm.symm
    exact ⟨List.forall₂_same.mpr fun _ _ => .inl rfl, .refl _⟩
  | cons i dead ih =>
    obtain ⟨hi, hnd⟩ := List.nodup_cons.mp hnd
    cases m with
    | nil => simp at hm
    | cons e m =>
      simp only [List.map_cons, List.cons.injEq] at hm
      have hrest : dead.map ((units.modify i Entry.markObsolete)[·]?) = m.map some := by
        rw [← hm.2]
        apply List.map_congr_left
        intro j hj
        exact List.getElem?_modify_ne _ _ (fun h => hi (h ▸ hj))
      exact (Marked.one hm.1 (ha e (by simp))).trans
        (ih hnd hrest (fun x hx => ha x (by simp [hx])))

theorem markAll_append {dead : List ℕ} {fresh : List (Entry K)}
    (hlt : ∀ i ∈ dead, i < units.length) :
    markAll dead (units ++ fresh) = markAll dead units ++ fresh := by
  induction dead generalizing units with
  | nil => rfl
  | cons i dead ih =>
    have hi := hlt i (by simp)
    have hmod : (units ++ fresh).modify i Entry.markObsolete =
        units.modify i Entry.markObsolete ++ fresh := by
      rw [List.modify_eq_take_cons_drop hi, List.modify_eq_take_cons_drop (by simp; omega)]
      simp [List.take_append_of_le_length hi.le, List.getElem_append_left hi,
        List.drop_append_of_le_length (show i + 1 ≤ units.length by omega)]
    simp only [markAll, List.foldl_cons, hmod]
    exact ih (fun j hj => by simpa using hlt j (by simp [hj]))

end Marks

section Rewrite
variable {link link' : Entry K → Prop} {f : Interval K} {m units marked fresh : List (Entry K)}

theorem Marked.routeAt_eq (h : Marked m units marked) (v : ℕ) (k : K) :
    routeAt marked v k = routeAt units v k := by
  have hrel := findRev?_forall₂ (p := fun e => e.matched v && e.fence.contains k)
    (q := fun e => e.matched v && e.fence.contains k) h.related (fun a b hab => by
      simp [Entry.matched, hab.same.1, hab.same.2.1])
  unfold routeAt
  generalize units.findRev? (fun e => e.matched v && e.fence.contains k) = x at hrel ⊢
  generalize marked.findRev? (fun e => e.matched v && e.fence.contains k) = y at hrel ⊢
  cases hrel with
  | none => rfl
  | some hab => simp [hab.same.1, hab.same.2.2]

/-- Readers of earlier versions see neither the marks nor the new entries. -/
theorem Marked.routeAt_before (h : Marked m units marked) {w v : ℕ} (hv : v < w)
    (hw : ∀ e ∈ fresh, e.version = w) (k : K) :
    routeAt (marked ++ fresh) v k = routeAt units v k := by
  have hnone : fresh.findRev? (fun e => e.matched v && e.fence.contains k) = none := by
    rw [findRev?_eq_none]
    intro e he
    simp [Entry.matched, hw e he, hv]
  rw [← h.routeAt_eq, routeAt, routeAt, findRev?_append, hnone, Option.none_or]

/-- The new entries take exactly the keys of the entries they replace. -/
structure Refit (m fresh : List (Entry K)) : Prop where
  proper : ∀ e ∈ fresh, e.fence.Proper
  disjoint : fresh.Pairwise (fun a b => a.fence.Disjoint b.fence)
  cover : ∀ k, (∃ e ∈ fresh, k ∈ e.fence) ↔ ∃ e ∈ m, k ∈ e.fence
  active : ∀ e ∈ fresh, PageUnit.isActive e = true

theorem Marked.filter_append (hr : Refit m fresh) :
    (marked ++ fresh).filter PageUnit.isActive = marked.filter PageUnit.isActive ++ fresh := by
  rw [List.filter_append, List.filter_eq_self.mpr hr.active]

theorem Marked.tiling (h : Marked m units marked) (hr : Refit m fresh)
    (ht : Tiling Entry.fence link (fun _ => True) f (units.filter PageUnit.isActive))
    (hlink : ∀ e ∈ marked.filter PageUnit.isActive, link e → link' e)
    (hfresh : ∀ e ∈ fresh, link' e) :
    Tiling Entry.fence link' (fun _ => True) f ((marked ++ fresh).filter PageUnit.isActive) := by
  rw [Marked.filter_append hr]
  have ht := ht.perm h.active
  have hdisj := List.pairwise_append.mp ht.disjoint
  have hmem : ∀ e ∈ fresh, ∀ k ∈ e.fence, ∃ a ∈ m, k ∈ a.fence :=
    fun e he k hk => (hr.cover k).mp ⟨e, he, hk⟩
  refine ht.exchange m fresh hr.proper ?_ hr.disjoint ?_ hfresh hlink ?_
  · intro e he k hk
    obtain ⟨a, ha, hka⟩ := hmem e he k hk
    exact ht.within a (List.mem_append_left _ ha) k hka
  · intro e he x hx k hk hkx
    obtain ⟨a, ha, hka⟩ := hmem e he k hk
    exact hdisj.2.2 a ha x hx k hka hkx
  · intro k _ _
    by_cases hk : ∃ e ∈ fresh, k ∈ e.fence
    · exact .inl hk
    · exact .inr ⟨trivial, fun e he hke => hk ((hr.cover k).mpr ⟨e, he, hke⟩)⟩

theorem Marked.newest (h : Marked m units marked) (hr : Refit m fresh)
    (hn : NewestActive units f) : NewestActive (marked ++ fresh) f := by
  intro k hk
  rw [findRev?_append]
  cases hf : fresh.findRev? (fun e => e.fence.contains k) with
  | some e => exact ⟨e, rfl, hr.active e (findRev?_mem hf)⟩
  | none =>
    have hout : ¬ ∃ e ∈ fresh, k ∈ e.fence := by
      rintro ⟨e, he, hke⟩
      have := findRev?_eq_none.mp hf e he
      simp [Interval.contains_eq_true.mpr hke] at this
    obtain ⟨e, he, ha⟩ := hn k hk
    have hrel := findRev?_forall₂ (p := fun e => e.fence.contains k)
      (q := fun e => e.fence.contains k) h.related (fun a b hab => by simp [hab.same.1])
    have hke : k ∈ e.fence := by simpa using findRev?_pos he
    rw [he] at hrel
    cases hm : marked.findRev? (fun e => e.fence.contains k) with
    | none => rw [hm] at hrel; cases hrel
    | some e' =>
      rw [hm] at hrel
      cases hrel with
      | some hab =>
        -- a marked entry would be one of `m`, whose keys `fresh` covers
        rcases hab with rfl | ⟨hem, -⟩
        · exact ⟨e', rfl, ha⟩
        · exact absurd ((hr.cover k).mpr ⟨e, hem, hke⟩) hout

end Rewrite

end CMVBT.DirectoryHistory
