import CMVBT.GrowingLog
import CMVBT.ParentRewrite
import CMVBT.PinnedSnapshot

/-!
# The stores of a writer, one by one

A writer that has latched a page changes it in a few stores: it writes slots behind
the last one in use, stores the length word, ends the life of a record or marks an
entry obsolete. Readers hold no latch and may look between any two of these stores.
Here are the sequences of the three write operations and of the structure
modifications, in the order of the source. Run without interruption they do what the
functions of the sequential model do. None of their stores changes what a reader of an
earlier version sees.
-/
namespace CMVBT.PageStores
open KeyInterval LastMatch PageModel CMVBT.Tree WritePath ReadPath DirectoryHistory LeafHistory
open NewPages ParentRewrite PinnedSnapshot GrowingLog

variable {K P : Type} [LinearOrder K]

/-! ## What a reader sees of a slot -/

omit [LinearOrder K] in
/-- A record that matches the version of the reader. -/
def recordSeen (v : ℕ) (r : RecordPoint K P) : Option (RecordPointResult K P) :=
  if r.version.matches v then some (RecordPoint.result r) else none

omit [LinearOrder K] in
/-- Fence and child of an entry from the version of the reader or before. -/
def entrySeen (v : ℕ) (e : Entry K) : Option (Interval K × ℕ) :=
  if e.matched v then some (e.fence, e.pointer) else none

omit [LinearOrder K] in
theorem leafView_eq (v : ℕ) (page : LeafPage K P) :
    leafView v page = shown (recordSeen v) page.units page.sumLen := by
  unfold leafView shown Page.asUnits
  induction page.units.take page.sumLen with
  | nil => rfl
  | cons r l ih =>
    cases h : r.version.matches v <;> simp [recordSeen, h, ih]

theorem routeAt_eq (v : ℕ) (page : InternalPage K) (key : K) :
    routeAt page.asUnits v key =
      (shown (entrySeen v) page.units page.sumLen).findRev? (fun x => x.1.contains key) := by
  unfold routeAt shown Page.asUnits
  simp only [List.findRev?_eq_find?_reverse, ← List.filterMap_reverse]
  induction (page.units.take page.sumLen).reverse with
  | nil => rfl
  | cons e l ih =>
    cases h : e.matched v <;> cases hk : e.fence.contains key <;> simp [entrySeen, h, hk, ih]

/-- A record with its life ended at `w`, unless it has ended already. -/
def endedAt (w : ℕ) (r : RecordPoint K P) : RecordPoint K P :=
  { r with version := (r.version.delete w).1 }

section Seen
omit [LinearOrder K]
variable {v w : ℕ}

theorem recordSeen_new (hv : v < w) (key : K) (payload : P) :
    recordSeen v (⟨key, .new w, payload⟩ : RecordPoint K P) = none := by
  have hno : (VersionInfo.new w).matches v = false := by
    rw [matches_new]
    exact decide_eq_false (not_le.mpr hv)
  simp only [recordSeen, hno, Bool.false_eq_true, if_false]

theorem entrySeen_new {e : Entry K} (he : e.version = w) (hv : v < w) : entrySeen v e = none := by
  have hno : e.matched v = false := by
    rw [Entry.matched, he]
    exact decide_eq_false (not_le.mpr hv)
  simp only [entrySeen, hno, Bool.false_eq_true, if_false]

theorem recordSeen_endedAt (hv : v < w) (r : RecordPoint K P) :
    recordSeen v (endedAt w r) = recordSeen v r := by
  unfold recordSeen endedAt VersionInfo.delete
  cases hd : r.version.deleteVersion with
  | some d => simp [VersionInfo.isDeleted, hd]
  | none => simp [VersionInfo.isDeleted, VersionInfo.matches, hd, hv, RecordPoint.result]

theorem entrySeen_markObsolete (e : Entry K) : entrySeen v e.markObsolete = entrySeen v e := rfl

end Seen

/-! ## Stores -/

inductive Store (α : Type) where
  | slot (index : ℕ) (u : α)
  | length (activeDelta deadDelta : ℤ)
  | amend (index : ℕ) (f : α → α)

section Stores
variable {α : Type}

def Store.apply (p : Page α) : Store α → Page α
  | .slot index u => { p with units := p.units.take index ++ u :: p.units.drop (index + 1) }
  | .length activeDelta deadDelta => p.commitDelta activeDelta deadDelta
  | .amend index f => { p with units := p.units.modify index f }

def runStores (p : Page α) (stores : List (Store α)) : Page α := stores.foldl Store.apply p

/-- A store that keeps a property of the units. -/
def Store.Within (Q : α → Prop) : Store α → Prop
  | .slot _ u => Q u
  | .length _ _ => True
  | .amend _ f => ∀ u, Q u → Q (f u)

theorem Store.apply_forall {Q : α → Prop} {p : Page α} {store : Store α} (hp : ∀ u ∈ p.units, Q u)
    (hs : store.Within Q) : ∀ u ∈ (store.apply p).units, Q u := by
  intro u hu
  cases store with
  | slot index x =>
    rcases List.mem_append.mp hu with hu | hu
    · exact hp u (List.mem_of_mem_take hu)
    · rcases List.mem_cons.mp hu with rfl | hu
      · exact hs
      · exact hp u (List.mem_of_mem_drop hu)
  | length a d => exact hp u hu
  | amend index f =>
    obtain ⟨i, hi⟩ := List.getElem?_of_mem hu
    simp only [Store.apply, List.getElem?_modify] at hi
    cases hx : p.units[i]? with
    | none => simp [hx] at hi
    | some x =>
      have hxu : Q x := hp x (List.mem_of_getElem? hx)
      rw [hx] at hi
      by_cases hj : index = i
      · simp only [hj, if_true, Option.map_eq_map, Option.map_some, Option.some.injEq] at hi
        rw [← hi]
        exact hs x hxu
      · simp only [hj, if_false, Option.map_eq_map, Option.map_some, Option.some.injEq] at hi
        rwa [← hi]

end Stores

/-! ## The sequences of the source -/

/-- `Insert`, and the first half of `Update`. -/
def insertStores (page : LeafPage K P) (key : K) (payload : P) (version : ℕ) :
    List (Store (RecordPoint K P)) :=
  [.slot page.sumLen ⟨key, .new version, payload⟩, .length 1 0]

/-- `Delete`, and the second half of `Update`: nothing if there is no live record. -/
def deleteStores (page : LeafPage K P) (key : K) (version : ℕ) :
    Option (List (Store (RecordPoint K P))) :=
  match lastIdx? (fun r => r.key == key) page.asUnits with
  | none => none
  | some i =>
    match page.asUnits[i]? with
    | none => none
    | some r => if r.version.isDeleted then none else some [.amend i (endedAt version), .length (-1) 1]

/-- The old record is looked up behind the new one. -/
def updateStores (page : LeafPage K P) (key : K) (payload : P) (version : ℕ) :
    Option (List (Store (RecordPoint K P))) :=
  (deleteStores page key version).map (insertStores page key payload version ++ ·)

/-- A structure modification on the page of the parent. -/
def replaceStores (page : InternalPage K) (fresh : List (Entry K)) (activeDelta deadDelta : ℤ)
    (dead : List ℕ) : List (Store (Entry K)) :=
  fresh.zipIdx.map (fun (e, i) => .slot (page.sumLen + i) e) ++
    .length activeDelta deadDelta :: dead.map (fun i => .amend i Entry.markObsolete)

section Sequential
variable {cfg : Config K} {t : MVBTSt K P} {cap version : ℕ} {key : K} {payload : P}

omit [LinearOrder K] in
theorem runStores_append {α : Type} (p : Page α) (stores stores' : List (Store α)) :
    runStores p (stores ++ stores') = runStores (runStores p stores) stores' := by
  unfold runStores
  exact List.foldl_append

omit [LinearOrder K] in
theorem insertStores_run {page : LeafPage K P} (hroom : page.sumLen < cap) :
    (page.pushUncommitted cap ⟨key, .new version, payload⟩ page.sumLen).map
        (fun p => p.commitDelta 1 0) =
      .ok (runStores page (insertStores page key payload version)) := by
  rw [Page.pushUncommitted, if_pos hroom]
  rfl

omit [LinearOrder K] in
theorem modify_eq_set {units : List (RecordPoint K P)} {i : ℕ} {r : RecordPoint K P}
    (hr : units[i]? = some r) (f : RecordPoint K P → RecordPoint K P) :
    units.modify i f = units.set i (f r) := by
  apply List.ext_getElem?
  intro j
  rw [List.getElem?_modify, List.getElem?_set]
  obtain ⟨hlt, hget⟩ := List.getElem?_eq_some_iff.mp hr
  by_cases hj : i = j
  · subst hj
    simp [hlt, hget]
  · simp [hj]

/-- There are stores when the last record of the key is live. -/
theorem deleteStores_some {page : LeafPage K P} {stores : List (Store (RecordPoint K P))}
    (h : deleteStores page key version = some stores) :
    ∃ i r, lastIdx? (fun r => r.key == key) page.asUnits = some i ∧ page.asUnits[i]? = some r ∧
      ¬ r.version.isDeleted = true ∧ stores = [.amend i (endedAt version), .length (-1) 1] := by
  unfold deleteStores at h
  cases hi : lastIdx? (fun r => r.key == key) page.asUnits with
  | none => simp only [hi, reduceCtorEq] at h
  | some i =>
    cases hr : page.asUnits[i]? with
    | none => simp only [hi, hr, reduceCtorEq] at h
    | some r =>
      simp only [hi, hr, Option.ite_none_left_eq_some, Option.some.injEq] at h
      exact ⟨i, r, rfl, hr, h.1, h.2.symm⟩

omit [LinearOrder K] in
theorem delete_live {r : RecordPoint K P} (h : ¬ r.version.isDeleted = true) :
    r.version.delete version = ({ r.version with deleteVersion := some version }, true) := by
  rw [VersionInfo.delete, if_neg h]

/-- The search that ends a record, on any page that begins with the records searched. -/
theorem deleteStores_in {page page' : LeafPage K P} {stores : List (Store (RecordPoint K P))}
    (h : deleteStores page key version = some stores)
    (hunits : ∀ (i : ℕ) r, page.asUnits[i]? = some r → page'.units[i]? = some r) :
    ∃ p info, LeafPage.deleteIn page' page.asUnits key version = (p, .ok (some info)) ∧
      runStores page' stores = p.commitDelta (-1) 1 := by
  obtain ⟨i, r, hi, hr, hlive, rfl⟩ := deleteStores_some h
  unfold LeafPage.deleteIn
  simp only [hi, hr, delete_live hlive, if_true]
  refine ⟨_, _, rfl, ?_⟩
  simp only [runStores, List.foldl_cons, List.foldl_nil, Store.apply,
    modify_eq_set (hunits i r hr), endedAt, delete_live hlive]

theorem deleteStores_run {page : LeafPage K P} {stores : List (Store (RecordPoint K P))}
    (h : deleteStores page key version = some stores) :
    ∃ p info, LeafPage.delete page key version = (p, .ok (some info)) ∧
      runStores page stores = p.commitDelta (-1) 1 := by
  apply deleteStores_in h
  intro i r hr
  rw [Page.asUnits, List.getElem?_take] at hr
  split_ifs at hr
  exact hr

/-- No stores, no change: the page is as it was. -/
theorem deleteStores_none {page : LeafPage K P} (h : deleteStores page key version = none) :
    (LeafPage.delete page key version).1 = page ∧
      ∀ info, (LeafPage.delete page key version).2 ≠ .ok (some info) := by
  unfold deleteStores at h
  unfold LeafPage.delete LeafPage.deleteIn
  cases hi : lastIdx? (fun r => r.key == key) page.asUnits with
  | none => simp
  | some i =>
    cases hr : page.asUnits[i]? with
    | none => simp [hr]
    | some r =>
      simp only [hi, hr, ite_eq_left_iff, reduceCtorEq, imp_false, Bool.not_eq_true,
        Bool.not_eq_false] at h
      simp [hr, VersionInfo.delete, h]

omit [LinearOrder K] in
theorem insertStores_page {page : LeafPage K P} (hc : page.Counted cap) (key : K) (payload : P) :
    runStores page (insertStores page key payload version) =
      ⟨commitLen page.len 1 0, page.units ++ [⟨key, .new version, payload⟩]⟩ := by
  rw [insertStores, runStores, List.foldl_cons, List.foldl_cons, List.foldl_nil, Store.apply,
    Store.apply, hc.sumLen, List.take_length, List.drop_eq_nil_of_le (Nat.le_succ _)]
  rfl

theorem updateStores_run {page : LeafPage K P} {stores : List (Store (RecordPoint K P))}
    (hc : page.Counted cap) (hroom : page.units.length < cap)
    (h : updateStores page key payload version = some stores) :
    ∃ p info, LeafPage.deleteAfterUpdate
        (runStores page (insertStores page key payload version)) key version =
          (p, .ok (some info)) ∧
      runStores page stores = p.commitDelta (-1) 1 := by
  obtain ⟨ends, hends, rfl⟩ := Option.map_eq_some_iff.mp h
  have hpage : runStores page (insertStores page key payload version) = _ :=
    insertStores_page hc key payload
  have hcount : (runStores page (insertStores page key payload version)).Counted cap := by
    rw [hpage]
    apply hc.commit <;> simp [PageUnit.isActive, VersionInfo.isDeleted, VersionInfo.new]
    omega
  have hfront : (runStores page (insertStores page key payload version)).asUnits.dropLast =
      page.asUnits := by
    rw [hcount.asUnits, hpage, hc.asUnits, List.dropLast_concat]
  rw [runStores_append, LeafPage.deleteAfterUpdate, hfront]
  apply deleteStores_in hends
  intro i r hr
  rw [hc.asUnits] at hr
  rw [hpage]
  exact List.getElem?_append_left (List.getElem?_eq_some_iff.mp hr).choose ▸ hr

omit [LinearOrder K] in
/-- The slots of a structure modification, one after another. -/
theorem runStores_slots {fresh : List (Entry K)} {base i : ℕ} {page : InternalPage K}
    (hlen : page.units.length = base + i) :
    runStores page ((fresh.zipIdx i).map (fun (e, i) => .slot (base + i) e)) =
      { page with units := page.units ++ fresh } := by
  induction fresh generalizing i page with
  | nil => simp [runStores]
  | cons e fresh ih =>
    have hslot : Store.apply page (.slot (base + i) e) =
        { page with units := page.units ++ [e] } := by
      rw [Store.apply, ← hlen, List.take_length, List.drop_eq_nil_of_le (Nat.le_succ _)]
    have hrest := @ih (i + 1) { page with units := page.units ++ [e] }
      (by simp [hlen, Nat.add_assoc])
    rw [List.append_assoc] at hrest
    rw [List.zipIdx_cons, List.map_cons, runStores, List.foldl_cons, hslot]
    exact hrest

omit [LinearOrder K] in
theorem runStores_marks (dead : List ℕ) (page : InternalPage K) :
    runStores page (dead.map (fun i => .amend i Entry.markObsolete)) =
      { page with units := markAll dead page.units } := by
  induction dead generalizing page with
  | nil => rfl
  | cons i dead ih =>
    rw [List.map_cons, runStores, List.foldl_cons]
    exact ih _

omit [LinearOrder K] in
theorem runStores_replace {page : InternalPage K} (hc : page.Counted cap) (fresh : List (Entry K))
    (activeDelta deadDelta : ℤ) {dead : List ℕ} (hdead : ∀ i ∈ dead, i < page.units.length) :
    runStores page (replaceStores page fresh activeDelta deadDelta dead) =
      ⟨commitLen page.len activeDelta deadDelta, markAll dead page.units ++ fresh⟩ := by
  have hslots : runStores page (fresh.zipIdx.map (fun (e, i) => .slot (page.sumLen + i) e)) =
      { page with units := page.units ++ fresh } := by
    rw [hc.sumLen]
    exact runStores_slots (by rw [Nat.add_zero])
  rw [replaceStores, runStores_append, hslots, runStores, List.foldl_cons, ← runStores,
    runStores_marks, ← markAll_append hdead]
  rfl

theorem replaceStores_run {b : ℕ} {page : InternalPage K} (hp : t.heap b = .internal page)
    (hc : page.Counted cfg.fanOut) {fresh : List (Entry K)} (activeDelta deadDelta : ℤ)
    {dead : List ℕ} (hroom : page.units.length + fresh.length ≤ cfg.fanOut)
    (hdead : ∀ i ∈ dead, i < page.units.length) :
    replaceEntries cfg t b fresh activeDelta deadDelta dead =
      .ok (t.setNode b (.internal
        (runStores page (replaceStores page fresh activeDelta deadDelta dead)))) := by
  have hpush := push_all (i := 0) rfl
    (show page.units.length + 0 + fresh.length ≤ cfg.fanOut by rwa [Nat.add_zero])
  rw [runStores_replace hc fresh activeDelta deadDelta hdead]
  simp only [replaceEntries, MVBTSt.asInternalPage, hp, bind, Except.bind, hc.sumLen, hpush,
    Page.commitDelta, markVersionObsolete_all, markAll_append hdead, pure, Except.pure]

end Sequential

/-! ## No store is noticed by earlier readers -/

section Unnoticed
omit [LinearOrder K]
variable {α β : Type} [PageUnit K α] {seen : ℕ → α → Option β} {cap w : ℕ} {p : Page α}
  {stores stores' : List (Store α)}

/-- What a reader of an earlier version sees of the page stays as it is. -/
def KeepsPage (seen : ℕ → α → Option β) (w : ℕ) (p p' : Page α) : Prop :=
  ∀ v < w, Keeps (seen v) p.units p.sumLen p'.units p'.sumLen

/-- The stores of a writer with version `w` that are still to come: the slots in use
are written, no store is noticed by earlier readers, and in the end the counters are
right. -/
def Unnoticed (seen : ℕ → α → Option β) (cap w : ℕ) : Page α → List (Store α) → Prop
  | p, [] => p.Counted cap
  | p, store :: stores => p.sumLen ≤ p.units.length ∧ KeepsPage seen w p (store.apply p) ∧
      Unnoticed seen cap w (store.apply p) stores

theorem Unnoticed.inside (h : Unnoticed seen cap w p stores) : p.sumLen ≤ p.units.length := by
  cases stores with
  | nil => exact (Page.Counted.sumLen h).le
  | cons store stores => exact h.1

theorem Unnoticed.append (h : Unnoticed seen cap w p stores)
    (h' : Unnoticed seen cap w (runStores p stores) stores') :
    Unnoticed seen cap w p (stores ++ stores') := by
  induction stores generalizing p with
  | nil => exact h'
  | cons store stores ih => exact ⟨h.1, h.2.1, ih h.2.2 h'⟩

/-- A slot behind the last one. -/
theorem Unnoticed.slot {index : ℕ} {u : α} (hin : p.sumLen ≤ p.units.length)
    (hindex : index = p.units.length)
    (h : Unnoticed seen cap w { p with units := p.units ++ [u] } stores) :
    Unnoticed seen cap w p (.slot index u :: stores) := by
  have hslot : Store.apply p (.slot index u) = { p with units := p.units ++ [u] } := by
    rw [Store.apply, hindex, List.take_length, List.drop_eq_nil_of_le (Nat.le_succ _)]
  rw [Unnoticed, hslot]
  refine ⟨hin, fun v _ => ?_, h⟩
  exact Keeps.fill hin u

/-- The length word over slots that earlier readers do not see. -/
theorem Unnoticed.length {activeDelta deadDelta : ℤ} (hin : p.sumLen ≤ p.units.length)
    (hle : p.sumLen ≤ (p.commitDelta activeDelta deadDelta).sumLen)
    (hhidden : ∀ u ∈ p.units.drop p.sumLen, ∀ v < w, seen v u = none)
    (h : Unnoticed seen cap w (p.commitDelta activeDelta deadDelta) stores) :
    Unnoticed seen cap w p (.length activeDelta deadDelta :: stores) := by
  refine ⟨hin, fun v hv => ?_, h⟩
  exact Keeps.publish hle (fun u hu => hhidden u hu v hv)

theorem Unnoticed.amend {index : ℕ} {f : α → α} (hin : p.sumLen ≤ p.units.length)
    (hf : ∀ v < w, ∀ u, seen v (f u) = seen v u)
    (h : Unnoticed seen cap w { p with units := p.units.modify index f } stores) :
    Unnoticed seen cap w p (.amend index f :: stores) := by
  refine ⟨hin, fun v hv => ?_, h⟩
  exact Keeps.amend (hf v hv) index

end Unnoticed

section Writers
variable {cap w : ℕ}

omit [LinearOrder K] in
theorem insert_unnoticed {page : LeafPage K P} (hc : page.Counted cap)
    (hroom : page.units.length < cap) (key : K) (payload : P) :
    Unnoticed recordSeen cap w page (insertStores page key payload w) ∧
      (runStores page (insertStores page key payload w)).Counted cap := by
  have hcount : Page.Counted cap (⟨commitLen page.len 1 0, page.units ++ [⟨key, .new w, payload⟩]⟩ :
      LeafPage K P) := by
    apply hc.commit
    · rw [List.length_append]
      exact hroom
    · simp [PageUnit.isActive, VersionInfo.isDeleted, VersionInfo.new]
    · simp [PageUnit.isActive, VersionInfo.isDeleted, VersionInfo.new]
  constructor
  · apply Unnoticed.slot hc.sumLen.le hc.sumLen
    apply Unnoticed.length
    · rw [List.length_append]
      exact hc.sumLen.le.trans (Nat.le_add_right _ _)
    · refine hc.sumLen.le.trans ?_
      rw [Page.commitDelta, hcount.sumLen, List.length_append]
      exact Nat.le_add_right _ _
    · intro u hu v hv
      have hdrop : (page.units ++ [(⟨key, .new w, payload⟩ : RecordPoint K P)]).drop page.sumLen =
          [⟨key, .new w, payload⟩] := by
        rw [hc.sumLen, List.drop_left]
      change u ∈ (page.units ++ [_]).drop page.sumLen at hu
      rw [hdrop, List.mem_singleton] at hu
      rw [hu]
      exact recordSeen_new hv key payload
    · exact hcount
  · rw [insertStores_page hc]
    exact hcount

omit [LinearOrder K] in
/-- The record at `i` is ended. -/
theorem end_unnoticed {page : LeafPage K P} (hc : page.Counted cap) {i : ℕ} {r : RecordPoint K P}
    (hr : page.units[i]? = some r) (hlive : ¬ r.version.isDeleted = true) :
    Unnoticed recordSeen cap w page [.amend i (endedAt w), .length (-1) 1] := by
  have hcount : Page.Counted cap
      (⟨commitLen page.len (-1) 1, page.units.modify i (endedAt w)⟩ : LeafPage K P) := by
    obtain ⟨hlt, hget⟩ := List.getElem?_eq_some_iff.mp hr
    obtain ⟨l₁, x, l₂, hl, hlen, hmod⟩ := List.exists_of_modify (endedAt w) hlt
    obtain rfl : r = x := by
      rw [← hget]
      simp [hl, ← hlen]
    have hact : PageUnit.isActive r = true := by
      simpa [PageUnit.isActive] using hlive
    have hended : PageUnit.isActive (endedAt w r) = false := by
      simp [PageUnit.isActive, endedAt, delete_live hlive, VersionInfo.isDeleted]
    apply hc.commit
    · rw [List.length_modify]
      exact hc.length_le
    · rw [hmod, hl]
      simp [hact, hended]
      omega
    · rw [hmod, hl]
      simp [hact, hended]
      omega
  have hlen : (⟨page.len, page.units.modify i (endedAt w)⟩ : LeafPage K P).sumLen =
      page.units.length := hc.sumLen
  apply Unnoticed.amend hc.sumLen.le
  · exact fun v hv => recordSeen_endedAt hv
  · apply Unnoticed.length
    · rw [hlen, List.length_modify]
    · rw [Page.commitDelta, hcount.sumLen, hlen, List.length_modify]
    · intro u hu
      rw [hlen, List.drop_eq_nil_of_le (by rw [List.length_modify])] at hu
      cases hu
    · exact hcount

theorem delete_unnoticed {page : LeafPage K P} (hc : page.Counted cap) {key : K}
    {stores : List (Store (RecordPoint K P))} (h : deleteStores page key w = some stores) :
    Unnoticed recordSeen cap w page stores := by
  obtain ⟨i, r, -, hr, hlive, rfl⟩ := deleteStores_some h
  rw [hc.asUnits] at hr
  exact end_unnoticed hc hr hlive

/-- The update ends the record that the page had before the new one. -/
theorem update_unnoticed {page : LeafPage K P} (hc : page.Counted cap)
    (hroom : page.units.length < cap) {key : K} {payload : P}
    {stores : List (Store (RecordPoint K P))} (h : updateStores page key payload w = some stores) :
    Unnoticed recordSeen cap w page stores := by
  obtain ⟨ends, hends, rfl⟩ := Option.map_eq_some_iff.mp h
  obtain ⟨hinsert, hcount⟩ := insert_unnoticed (w := w) hc hroom key payload
  obtain ⟨i, r, -, hr, hlive, rfl⟩ := deleteStores_some hends
  rw [hc.asUnits] at hr
  apply hinsert.append
  apply end_unnoticed hcount _ hlive
  rw [insertStores_page hc]
  rw [List.getElem?_append_left (List.getElem?_eq_some_iff.mp hr).choose, hr]

omit [LinearOrder K] in
theorem unnoticed_slots {fresh : List (Entry K)} {base i : ℕ} {page : InternalPage K}
    {stores : List (Store (Entry K))} (hlen : page.units.length = base + i)
    (hin : page.sumLen ≤ page.units.length)
    (h : Unnoticed entrySeen cap w { page with units := page.units ++ fresh } stores) :
    Unnoticed entrySeen cap w page
      ((fresh.zipIdx i).map (fun (e, i) => .slot (base + i) e) ++ stores) := by
  induction fresh generalizing i page with
  | nil => simpa using h
  | cons e fresh ih =>
    rw [List.zipIdx_cons, List.map_cons, List.cons_append]
    apply Unnoticed.slot hin hlen.symm
    apply ih
    · rw [List.length_append, hlen, List.length_singleton, Nat.add_assoc]
    · rw [List.length_append]
      exact hin.trans (Nat.le_add_right _ _)
    · rwa [List.append_assoc]

omit [LinearOrder K] in
theorem unnoticed_marks {dead : List ℕ} {page : InternalPage K}
    (hin : page.sumLen ≤ page.units.length)
    (h : Page.Counted cap ({ page with units := markAll dead page.units } : InternalPage K)) :
    Unnoticed entrySeen cap w page (dead.map (fun i => .amend i Entry.markObsolete)) := by
  induction dead generalizing page with
  | nil => exact h
  | cons i dead ih =>
    rw [List.map_cons]
    apply Unnoticed.amend hin
    · exact fun _ _ => entrySeen_markObsolete
    · apply ih
      · rw [List.length_modify]
        exact hin
      · exact h

omit [LinearOrder K] in
/-- New entries of version `w` in the place of the active entries `m`. -/
theorem replace_unnoticed {page : InternalPage K} (hc : page.Counted cap)
    {fresh m : List (Entry K)} {dead : List ℕ} (hroom : page.units.length + fresh.length ≤ cap)
    (hfresh : ∀ e ∈ fresh, e.version = w ∧ PageUnit.isActive e = true) (hnodup : dead.Nodup)
    (hm : dead.map (page.units[·]?) = m.map some) (hact : ∀ e ∈ m, PageUnit.isActive e = true) :
    Unnoticed entrySeen cap w page
      (replaceStores page fresh (fresh.length - dead.length) dead.length dead) := by
  have hmarked := markAll_marked hnodup hm hact
  have hlt : ∀ i ∈ dead, i < page.units.length := by
    intro i hi
    have hmem : page.units[i]? ∈ m.map some := hm ▸ List.mem_map_of_mem hi
    obtain ⟨e, -, he⟩ := List.mem_map.mp hmem
    exact (List.getElem?_eq_some_iff.mp he.symm).choose
  have hlength := hmarked.related.length_eq
  have hdead : dead.length = m.length := by
    simpa using congrArg List.length hm
  have hcount : Page.Counted cap (⟨commitLen page.len (fresh.length - dead.length) dead.length,
      markAll dead page.units ++ fresh⟩ : InternalPage K) := by
    have hactive := hmarked.active.length_eq
    rw [List.length_append, ← List.countP_eq_length_filter, ← List.countP_eq_length_filter]
      at hactive
    have h₁ := Page.countP_add_countP_not PageUnit.isActive page.units
    have h₂ := Page.countP_add_countP_not PageUnit.isActive (markAll dead page.units)
    have h₃ := List.countP_eq_length.mpr (fun e he => (hfresh e he).2)
    have h₄ := Page.countP_add_countP_not PageUnit.isActive fresh
    apply hc.commit
    · rw [List.length_append, ← hlength]
      exact hroom
    · rw [List.countP_append]
      omega
    · rw [List.countP_append]
      omega
  have hlen : (page.commitDelta (fresh.length - dead.length) dead.length).sumLen =
      page.units.length + fresh.length := by
    have hsum := hcount.sumLen
    rw [List.length_append, ← hlength] at hsum
    exact hsum
  rw [replaceStores]
  apply unnoticed_slots (by rw [hc.sumLen, Nat.add_zero]) hc.sumLen.le
  have hold : Page.sumLen ({ page with units := page.units ++ fresh } : InternalPage K) =
      page.units.length := hc.sumLen
  apply Unnoticed.length
  · rw [hold, List.length_append]
    exact Nat.le_add_right _ _
  · rw [hold]
    exact (Nat.le_add_right _ _).trans hlen.ge
  · intro e he v hv
    rw [hold, List.drop_left] at he
    exact entrySeen_new (hfresh e he).1 hv
  · apply unnoticed_marks
    · refine hlen.le.trans ?_
      rw [Page.commitDelta, List.length_append]
    · rw [Page.commitDelta, markAll_append hlt]
      exact hcount

end Writers

end CMVBT.PageStores
