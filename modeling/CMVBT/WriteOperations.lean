import CMVBT.LeafWrite

/-!
# Insert, update and delete follow the reference

Every operation on a tree that satisfies the invariant returns, answers as the
reference map does, and leaves the invariant with the change added to the log.
The results hold with and without a tracker, as long as updates are not made in
place.
-/
namespace CMVBT.WriteOperations
open KeyInterval LastMatch FenceTiling VersionedLog PageModel FrugalList CommitClock Tracker
open CMVBT.Tree
open BlockSupply WritePath ReadPath DirectoryHistory LeafHistory TreeInvariant PageRewrite NewPages
open Reorganization ParentRewrite ChildRepair RootRewrite Descent Reference LeafWrite

variable {K P : Type} [LinearOrder K]

/-! ## Looking for the live record -/

section Lookup
variable {cap clock : ℕ} {log : Log K P} {l : Life K} {p : LeafPage K P} {k : K}

theorem lastRecord_eq (h : LeafInv cap clock log l p) :
    lastRecord p k = p.units.findRev? (fun r => r.key == k) := by
  rw [lastRecord, h.counted.asUnits]

/-- The last record of a key is live exactly if the key is. -/
theorem lastRecord_active (h : LeafInv cap clock log l p) (hlog : Before log clock)
    (hbirth : l.birth < clock) (halive : l.death = none) (hk : k ∈ l.fence) {q : P} :
    live log k = some q ↔
      ∃ r, lastRecord p k = some r ∧ PageUnit.isActive r = true ∧ r.payload = q := by
  have hs := h.shows clock hbirth.le (.of_alive halive clock)
  have hmatch : ∀ r ∈ p.units, (r.version.matches clock = true ↔ PageUnit.isActive r = true) := by
    intro r hr
    obtain ⟨hi, hd⟩ := h.stamps r hr
    rw [matches_eq_true, active_iff]
    constructor
    · rintro ⟨-, hno⟩
      cases hdel : r.version.deleteVersion with
      | none => rfl
      | some d => exact absurd (hd d hdel) (not_lt.mpr (hno d hdel).le)
    · intro hnone
      exact ⟨hi.le, fun d hdel => by rw [hnone] at hdel; cases hdel⟩
  rw [← liveAt_of_before hlog le_rfl, hs.mem_iff hk, lastRecord_eq h]
  constructor
  · rintro ⟨r, hr, hm, rfl, rfl⟩
    have ha := (hmatch r hr).mp hm
    exact ⟨r, h.newest hr ha, ha, rfl⟩
  · rintro ⟨r, hr, ha, rfl⟩
    have hmem := findRev?_mem hr
    exact ⟨r, hmem, (hmatch r hmem).mpr ha, by simpa using findRev?_pos hr, rfl⟩

theorem lastRecord_dead (h : LeafInv cap clock log l p) (hlog : Before log clock)
    (hbirth : l.birth < clock) (halive : l.death = none) (hk : k ∈ l.fence)
    (hnone : live log k = none) {r : RecordPoint K P} (hr : lastRecord p k = some r) :
    r.version.isDeleted = true := by
  by_contra hd
  have ha : PageUnit.isActive r = true := by simpa [PageUnit.isActive] using hd
  have := (lastRecord_active h hlog hbirth halive hk).mpr ⟨r, hr, ha, rfl⟩
  rw [hnone] at this
  cases this

end Lookup

/-! ## Ending a record -/

section DeleteIn
variable {p : LeafPage K P} {records : List (RecordPoint K P)} {k : K} {w : ℕ}

theorem deleteIn_none (h : records.findRev? (fun r => r.key == k) = none) :
    LeafPage.deleteIn p records k w = (p, .ok none) := by
  have hnone := lastIdx?_eq_none.mpr (findRev?_eq_none.mp h)
  simp only [LeafPage.deleteIn, hnone]

theorem split_last {r : RecordPoint K P} (h : records.findRev? (fun r => r.key == k) = some r) :
    ∃ l₁ l₂, records = l₁ ++ r :: l₂ ∧
      lastIdx? (fun r => r.key == k) records = some l₁.length := by
  cases hi : lastIdx? (fun r => r.key == k) records with
  | none =>
    have := lastIdx?_eq_none.mp hi r (findRev?_mem h)
    simp only [findRev?_pos h, Bool.true_eq_false] at this
  | some i =>
    obtain ⟨l₁, a, l₂, rfl, rfl, ha, hl₂⟩ := lastIdx?_eq_some.mp hi
    rw [findRev?_split (p := fun r : RecordPoint K P => r.key == k) ha hl₂] at h
    cases h
    exact ⟨l₁, l₂, rfl, rfl⟩

theorem deleteIn_dead {r : RecordPoint K P} (h : records.findRev? (fun r => r.key == k) = some r)
    (hd : r.version.isDeleted = true) : LeafPage.deleteIn p records k w = (p, .error ()) := by
  obtain ⟨l₁, l₂, heq, hi⟩ := split_last h
  have hget : records[l₁.length]? = some r := by simp [heq]
  simp only [LeafPage.deleteIn, hi, hget, VersionInfo.delete, hd, if_true, Bool.false_eq_true,
    if_false]

theorem deleteIn_active {r : RecordPoint K P} (h : records.findRev? (fun r => r.key == k) = some r)
    (ha : PageUnit.isActive r = true) :
    ∃ l₁ l₂ info, records = l₁ ++ r :: l₂ ∧ LeafPage.deleteIn p records k w =
      ({ p with units := p.units.set l₁.length (ended r w) }, .ok (some info)) := by
  obtain ⟨l₁, l₂, heq, hi⟩ := split_last h
  have hget : records[l₁.length]? = some r := by simp [heq]
  have hd : r.version.isDeleted = false := by simpa [PageUnit.isActive] using ha
  refine ⟨l₁, l₂, { r.version with deleteVersion := some w }, heq, ?_⟩
  simp only [LeafPage.deleteIn, hi, hget, VersionInfo.delete, hd, Bool.false_eq_true, if_false,
    if_true]
  rfl

end DeleteIn

/-! ## Views of earlier versions -/

section Views
variable {cap cap' w v : ℕ} {p p' : LeafPage K P}

theorem sameAt_push (hp : p.Counted cap) (hp' : p'.Counted cap') {k : K} {payload : P}
    (hunits : p'.units = p.units ++ [pushed k w payload]) (hv : v < w) :
    SameAt v (.leaf p) (.leaf p' : Node K P) := by
  have hno : (pushed k w payload).version.matches v = false := by
    simp [pushed, matches_new, hv]
  simp only [SameAt, hp.asUnits, hp'.asUnits, hunits, List.filter_append, List.filter_cons, hno,
    Bool.false_eq_true, if_false, List.filter_nil, List.append_nil]

theorem sameAt_end (hp : p.Counted cap) (hp' : p'.Counted cap') {l₁ l₂ : List (RecordPoint K P)}
    {r : RecordPoint K P} (hunits : p.units = l₁ ++ r :: l₂)
    (hunits' : p'.units = l₁ ++ ended r w :: l₂) (ha : PageUnit.isActive r = true) (hv : v < w) :
    SameAt v (.leaf p) (.leaf p' : Node K P) := by
  have hsame : (ended r w).version.matches v = r.version.matches v := by
    rw [Bool.eq_iff_iff, matches_ended, matches_eq_true, active_iff.mp ha]
    simp [hv]
  simp only [SameAt, hp.asUnits, hp'.asUnits, hunits, hunits', List.filter_append,
    List.filter_cons, hsame]
  split_ifs <;> simp [RecordPoint.result, ended]

end Views

/-! ## The operations -/

/-- The leaf at the end of a descent. -/
structure LeafAt (cfg : Config K) (t : MVBTSt K P) (g : Ghost K P) (b : ℕ) (key : K)
    (p : LeafPage K P) : Prop where
  inv : Inv cfg t g
  onPath : OnPath cfg t g b key
  level : (g.life b).level = 1
  page : t.heap b = .leaf p
  leaf : LeafInv cfg.numRecords t.commit.clock g.log (g.life b) p
  room : p.units.length < cfg.numRecords
  filled : b ≠ t.currentRoot.1 → (cfg.numRecords + 4) / 5 < p.units.countP PageUnit.isActive

theorem leafAt_onPath {cfg : Config K} {t : MVBTSt K P} {g : Ghost K P} {key : K} {b : ℕ}
    (h : Inv cfg t g) (ho : OnPath cfg t g b key) (hlevel : (g.life b).level = 1) :
    ∃ p, LeafAt cfg t g b key p := by
  have hnode := h.living.node b ho.used
  cases hp : t.heap b with
  | internal p =>
    rw [hp] at hnode
    have := hnode.1
    omega
  | leaf p =>
    rw [hp] at hnode
    have hc := hnode.2.counted
    have hsum : p.activeDeadCount.1 + p.activeDeadCount.2 = p.units.length := hc.sumLen
    have hactive : p.activeDeadCount.1 = p.units.countP PageUnit.isActive := hc.active
    have hsafe := ho.safe
    unfold Safe at hsafe
    rw [hp] at hsafe
    refine ⟨p, h, ho, hlevel, hp, hnode.2, ?_, ?_⟩
    · split_ifs at hsafe
      · have := hsafe.1
        simp only [Node.activeDeadCount, overflowUnitsCount, Node.isLeaf, if_true] at this
        omega
      · have := (filled_of_ok hsafe).2
        simp only [Node.activeDeadCount, overflowUnitsCount, Node.isLeaf, if_true] at this
        omega
    · intro hne
      rw [if_neg hne] at hsafe
      have := (filled_of_ok hsafe).1
      simp only [Node.activeDeadCount, filling20Percent, maxUnits, Node.isLeaf, if_true] at this
      omega

theorem Arrived.leafAt {cfg : Config K} {t t' : MVBTSt K P} {g g' : Ghost K P} {key : K} {b : ℕ}
    (ha : Arrived cfg t g key t' g' b) : ∃ p, LeafAt cfg t' g' b key p :=
  leafAt_onPath ha.inv ha.onPath ha.level

namespace LeafAt
variable {cfg : Config K} {t : MVBTSt K P} {g : Ghost K P} {b : ℕ} {key : K} {p : LeafPage K P}

theorem birth_lt (h : LeafAt cfg t g b key p) : (g.life b).birth < t.commit.clock :=
  (h.inv.living.born b h.onPath.used).2.1

theorem asLeafPage (h : LeafAt cfg t g b key p) : WritePath.asLeafPage t b = .ok p := by
  rw [WritePath.asLeafPage, h.page]

theorem live_iff (h : LeafAt cfg t g b key p) {q : P} : live g.log key = some q ↔
    ∃ r, lastRecord p key = some r ∧ PageUnit.isActive r = true ∧ r.payload = q :=
  lastRecord_active h.leaf h.inv.living.logged h.birth_lt h.onPath.alive h.onPath.key_mem

theorem dead_of_none (h : LeafAt cfg t g b key p) (hnone : live g.log key = none)
    {r : RecordPoint K P} (hr : lastRecord p key = some r) : r.version.isDeleted = true :=
  lastRecord_dead h.leaf h.inv.living.logged h.birth_lt h.onPath.alive h.onPath.key_mem hnone hr

/-- The write of an insert. -/
theorem push (h : LeafAt cfg t g b key p) (hnone : live g.log key = none) (payload : P) :
    ∃ p', p.pushUncommitted cfg.numRecords (pushed key t.commit.clock payload) p.sumLen = .ok p' ∧
      Inv cfg (written t b (p'.commitDelta 1 0))
        { g with log := ⟨t.commit.clock, key, some payload⟩ :: g.log } ∧
      Intact t g (written t b (p'.commitDelta 1 0))
        { g with log := ⟨t.commit.clock, key, some payload⟩ :: g.log } := by
  refine ⟨_, h.leaf.counted.pushUncommitted h.room _, ?_⟩
  have hleaf := leafInv_push h.leaf h.room h.onPath.key_mem h.birth_lt.le h.onPath.alive
    (fun v hv => by rw [liveAt_of_before h.inv.living.logged hv, hnone]) payload
  refine written_inv h.inv h.onPath h.level h.page hleaf ?_ ?_
  · exact fun v hv => sameAt_push h.leaf.counted hleaf.counted rfl hv
  · intro hne
    have hfill := h.filled hne
    have hact := hleaf.counted.active
    simp only [List.countP_append, List.countP_cons, pushed_active, if_true, List.countP_nil] at hact
    simp only [Page.activeDeadCount, Page.commitDelta]
    omega

/-- The write of a delete. -/
theorem delete_active (h : LeafAt cfg t g b key p) {r : RecordPoint K P}
    (hr : lastRecord p key = some r) (ha : PageUnit.isActive r = true) :
    ∃ p' info, LeafPage.delete p key t.commit.clock = (p', .ok (some info)) ∧
      Inv cfg (written t b (p'.commitDelta (-1) 1))
        { g with log := ⟨t.commit.clock, key, none⟩ :: g.log } ∧
      Intact t g (written t b (p'.commitDelta (-1) 1))
        { g with log := ⟨t.commit.clock, key, none⟩ :: g.log } := by
  rw [lastRecord_eq h.leaf] at hr
  have hkey : r.key = key := by simpa using findRev?_pos hr
  obtain ⟨l₁, l₂, info, hsplit, hdel⟩ := deleteIn_active (p := p) (w := t.commit.clock) hr ha
  have hset : p.units.set l₁.length (ended r t.commit.clock) =
      l₁ ++ ended r t.commit.clock :: l₂ := by simp [hsplit]
  rw [hset] at hdel
  refine ⟨_, info, by rw [LeafPage.delete, h.leaf.counted.asUnits]; exact hdel, ?_⟩
  have hleaf := leafInv_end h.leaf hsplit ha
  rw [hkey] at hleaf
  refine written_inv h.inv h.onPath h.level h.page hleaf ?_ ?_
  · exact fun v hv => sameAt_end h.leaf.counted hleaf.counted hsplit rfl ha hv
  · intro hne
    have hfill := h.filled hne
    have hact := hleaf.counted.active
    rw [hsplit] at hfill
    simp only [List.countP_append, List.countP_cons, ha, ended_active, Bool.false_eq_true,
      if_true, if_false] at hact hfill
    simp only [Page.activeDeadCount, Page.commitDelta]
    omega

/-- The writes of an update. -/
theorem update_active (h : LeafAt cfg t g b key p) {r : RecordPoint K P}
    (hr : lastRecord p key = some r) (ha : PageUnit.isActive r = true) (payload : P) :
    ∃ p₁ p' info, p.pushUncommitted cfg.numRecords (pushed key t.commit.clock payload) p.sumLen =
        .ok p₁ ∧
      LeafPage.deleteAfterUpdate (p₁.commitDelta 1 0) key t.commit.clock =
        (p', .ok (some info)) ∧
      Inv cfg (written t b (p'.commitDelta (-1) 1))
        { g with log := ⟨t.commit.clock, key, some payload⟩ :: g.log } ∧
      Intact t g (written t b (p'.commitDelta (-1) 1))
        { g with log := ⟨t.commit.clock, key, some payload⟩ :: g.log } := by
  rw [lastRecord_eq h.leaf] at hr
  have hkey : r.key = key := by simpa using findRev?_pos hr
  have hcount : (⟨commitLen p.len 1 0, p.units ++ [pushed key t.commit.clock payload]⟩ :
      LeafPage K P).Counted cfg.numRecords := by
    refine h.leaf.counted.commit (by simpa using Nat.succ_le_of_lt h.room) ?_ ?_
    · simp [List.countP_append, pushed_active]
    · simp [List.countP_append, pushed_active]
  obtain ⟨l₁, l₂, info, hsplit, hdel⟩ := deleteIn_active (w := t.commit.clock)
    (p := ⟨commitLen p.len 1 0, p.units ++ [pushed key t.commit.clock payload]⟩) hr ha
  have hset : (p.units ++ [pushed key t.commit.clock payload]).set l₁.length
      (ended r t.commit.clock) =
      l₁ ++ ended r t.commit.clock :: l₂ ++ [pushed key t.commit.clock payload] := by
    simp [hsplit]
  simp only [hset] at hdel
  refine ⟨_, ⟨commitLen p.len 1 0, l₁ ++ ended r t.commit.clock :: l₂ ++
    [pushed key t.commit.clock payload]⟩, info, h.leaf.counted.pushUncommitted h.room _, ?_, ?_⟩
  · rw [LeafPage.deleteAfterUpdate]
    simp only [Page.commitDelta]
    rw [hcount.asUnits]
    simp only [List.dropLast_concat]
    exact hdel
  · have hleaf := leafInv_update h.leaf hsplit ha h.room h.birth_lt.le h.onPath.alive
      (by rw [hkey]; exact h.onPath.key_mem) payload
    rw [hkey] at hleaf
    refine written_inv h.inv h.onPath h.level h.page hleaf ?_ ?_
    · intro v hv
      have hend := leafInv_end h.leaf hsplit ha
      exact (sameAt_end h.leaf.counted hend.counted hsplit rfl ha hv).trans
        (sameAt_push hend.counted hleaf.counted rfl hv)
    · intro hne
      have hfill := h.filled hne
      have hact := hleaf.counted.active
      rw [hsplit] at hfill
      simp only [List.countP_append, List.countP_cons, ha, ended_active, pushed_active,
        List.countP_nil, Bool.false_eq_true, if_true, if_false] at hact hfill
      simp only [Page.activeDeadCount, Page.commitDelta]
      omega

end LeafAt

/-- The step of the invariant that one operation makes. -/
structure Performed (cfg : Config K) (t : MVBTSt K P) (g : Ghost K P) (op : WriteOperation K P)
    (t' : MVBTSt K P) (r : WriteResult) (g' : Ghost K P) : Prop where
  inv : Inv cfg t' g'
  intact : Intact t g t' g'
  answers : Answers g.log op r g'.log

section Operations
variable {cfg : Config K} {t : MVBTSt K P} {g : Ghost K P}

theorem dispatchInsert_performed (h : Inv cfg t g) (hc : Roomy cfg) (key : K) (payload : P) :
    ∃ t' r g', dispatchInsert cfg t key payload = .ok (t', r) ∧
      Performed cfg t g (.insert key payload) t' r g' := by
  obtain ⟨t₁, g₁, b, htr, harr⟩ := traversalWrite_arrives hc h key
  obtain ⟨p, hl⟩ := Arrived.leafAt harr
  cases hlive : live g₁.log key with
  | some q =>
    obtain ⟨r, hr, ha, -⟩ := hl.live_iff.mp hlive
    have hd : r.version.isDeleted = false := by simpa [PageUnit.isActive] using ha
    refine ⟨t₁, .zeroAffected .keyAlreadyExists, g₁, ?_, harr.inv, harr.intact, ?_⟩
    · simp only [dispatchInsert, htr, bind, Except.bind, hl.asLeafPage, hr, Option.map_some, hd,
        Bool.not_false, Option.getD_some, if_true, pure, Except.pure]
    · rw [harr.log] at hlive ⊢
      exact .alreadyExists hlive
  | none =>
    have hno : ((lastRecord p key).map (fun r => !r.version.isDeleted)).getD false = false := by
      cases hr : lastRecord p key with
      | none => rfl
      | some r => simp [hl.dead_of_none hlive hr]
    obtain ⟨p', hpush, hinv, hint⟩ := hl.push hlive payload
    refine ⟨_, .inserted t₁.commit.clock, _, ?_, hinv, harr.intact.trans hint, ?_⟩
    · simp only [dispatchInsert, htr, bind, Except.bind, hl.asLeafPage, hno, Bool.false_eq_true,
        if_false]
      rw [show (⟨key, .new t₁.startTxCommit.2, payload⟩ : RecordPoint K P) =
        pushed key t₁.commit.clock payload from rfl, hpush]
      rfl
    · have hbefore := harr.inv.living.logged
      rw [harr.log] at hlive hbefore
      simp only [harr.log]
      exact .inserted hlive hbefore

omit [LinearOrder K] in
theorem inPlaceTarget_none [LinearOrder K] (h : t.updateInPlace = false) (p : LeafPage K P)
    (key : K) : inPlaceTarget t p key = none := by
  cases ht : t.tracker <;> simp [inPlaceTarget, ht, h]

/-- An update that finds nothing to overwrite in its leaf. -/
theorem dispatchUpdate_plain (h : Inv cfg t g) (hc : Roomy cfg) (key : K) (payload : P)
    (hno : ∀ t₁ b p, traversalWriteOlc cfg t key = .ok (t₁, b) → t₁.heap b = .leaf p →
      inPlaceTarget t₁ p key = none) :
    ∃ t' r g', dispatchUpdate cfg t key payload = .ok (t', r) ∧
      Performed cfg t g (.update key payload) t' r g' := by
  obtain ⟨t₁, g₁, b, htr, harr⟩ := traversalWrite_arrives hc h key
  obtain ⟨p, hl⟩ := Arrived.leafAt harr
  have hin := hno t₁ b p htr hl.page
  cases hlive : live g₁.log key with
  | none =>
    have hlog : live g.log key = none := by rw [← harr.log]; exact hlive
    cases hr : lastRecord p key with
    | none =>
      refine ⟨t₁, .zeroAffected .keyDoesNotExist, g₁, ?_, harr.inv, harr.intact, ?_⟩
      · simp only [dispatchUpdate, htr, bind, Except.bind, hl.asLeafPage, hin, hr, pure, Except.pure]
      · rw [harr.log]
        exact .notUpdated hlog (.inl rfl)
    | some r =>
      have hd := hl.dead_of_none hlive hr
      refine ⟨t₁, .zeroAffected .keyAlreadyDeleted, g₁, ?_, harr.inv, harr.intact, ?_⟩
      · simp only [dispatchUpdate, htr, bind, Except.bind, hl.asLeafPage, hin, hr, hd, if_true,
          pure, Except.pure]
      · rw [harr.log]
        exact .notUpdated hlog (.inr rfl)
  | some q =>
    obtain ⟨r, hr, ha, -⟩ := hl.live_iff.mp hlive
    have hd : r.version.isDeleted = false := by simpa [PageUnit.isActive] using ha
    obtain ⟨p₁, p', info, hpush, hdel, hinv, hint⟩ := hl.update_active hr ha payload
    refine ⟨_, .updated t₁.commit.clock, _, ?_, hinv, harr.intact.trans hint, ?_⟩
    · simp only [dispatchUpdate, htr, bind, Except.bind, hl.asLeafPage, hin, hr, hd,
        Bool.false_eq_true, if_false]
      rw [show (⟨key, .new t₁.startTxCommit.2, payload⟩ : RecordPoint K P) =
        pushed key t₁.commit.clock payload from rfl, hpush]
      simp only [show t₁.startTxCommit.2 = t₁.commit.clock from rfl, hdel, pure, Except.pure]
      rfl
    · have hbefore := harr.inv.living.logged
      rw [harr.log] at hlive hbefore
      simp only [harr.log]
      exact .updated hlive hbefore

theorem dispatchUpdate_performed (h : Inv cfg t g) (hc : Roomy cfg)
    (hflag : t.updateInPlace = false) (key : K) (payload : P) :
    ∃ t' r g', dispatchUpdate cfg t key payload = .ok (t', r) ∧
      Performed cfg t g (.update key payload) t' r g' := by
  refine dispatchUpdate_plain h hc key payload ?_
  intro t₁ b p htr _
  obtain ⟨t₂, g₂, b₂, htr₂, harr⟩ := traversalWrite_arrives hc h key
  rw [htr] at htr₂
  cases htr₂
  exact inPlaceTarget_none (harr.intact.in_place.trans hflag) p key

theorem dispatchDelete_performed (h : Inv cfg t g) (hc : Roomy cfg) (key : K) :
    ∃ t' r g', dispatchDelete cfg t key = .ok (t', r) ∧
      Performed cfg t g (.delete key) t' r g' := by
  obtain ⟨t₁, g₁, b, htr, harr⟩ := traversalWrite_arrives hc h key
  obtain ⟨p, hl⟩ := Arrived.leafAt harr
  obtain ⟨hburn, hburn'⟩ := burn_inv harr.inv
  cases hlive : live g₁.log key with
  | none =>
    have hlog : live g.log key = none := by rw [← harr.log]; exact hlive
    cases hr : lastRecord p key with
    | none =>
      have hdel : LeafPage.delete p key t₁.startTxCommit.2 = (p, .ok none) := by
        rw [LeafPage.delete, hl.leaf.counted.asUnits]
        exact deleteIn_none (by rw [← lastRecord_eq hl.leaf]; exact hr)
      refine ⟨t₁.startTxCommit.1, .zeroAffected .keyDoesNotExist, g₁, ?_, hburn,
        harr.intact.trans hburn', ?_⟩
      · simp only [dispatchDelete, htr, bind, Except.bind, hl.asLeafPage, hdel, pure, Except.pure]
      · rw [harr.log]
        exact .notDeleted hlog (.inl rfl)
    | some r =>
      have hd := hl.dead_of_none hlive hr
      have hdel : LeafPage.delete p key t₁.startTxCommit.2 = (p, .error ()) := by
        rw [LeafPage.delete, hl.leaf.counted.asUnits]
        exact deleteIn_dead (by rw [← lastRecord_eq hl.leaf]; exact hr) hd
      refine ⟨t₁.startTxCommit.1, .zeroAffected .keyAlreadyDeleted, g₁, ?_, hburn,
        harr.intact.trans hburn', ?_⟩
      · simp only [dispatchDelete, htr, bind, Except.bind, hl.asLeafPage, hdel, pure, Except.pure]
      · rw [harr.log]
        exact .notDeleted hlog (.inr rfl)
  | some q =>
    obtain ⟨r, hr, ha, -⟩ := hl.live_iff.mp hlive
    obtain ⟨p', info, hdel, hinv, hint⟩ := hl.delete_active hr ha
    refine ⟨_, .deleted t₁.commit.clock, _, ?_, hinv, harr.intact.trans hint, ?_⟩
    · simp only [dispatchDelete, htr, bind, Except.bind, hl.asLeafPage,
        show t₁.startTxCommit.2 = t₁.commit.clock from rfl, hdel, pure, Except.pure]
      rfl
    · have hbefore := harr.inv.living.logged
      rw [harr.log] at hlive hbefore
      simp only [harr.log]
      exact .deleted hlive hbefore

theorem dispatchWrite_performed (h : Inv cfg t g) (hc : Roomy cfg)
    (hflag : t.updateInPlace = false) (op : WriteOperation K P) :
    ∃ t' r g', dispatchWrite cfg t op = .ok (t', r) ∧ Performed cfg t g op t' r g' := by
  cases op with
  | insert key payload => exact dispatchInsert_performed h hc key payload
  | update key payload => exact dispatchUpdate_performed h hc hflag key payload
  | delete key => exact dispatchDelete_performed h hc key

/-- Every sequence of operations returns, follows the reference and preserves
the invariant. -/
theorem runWrites_performed (hc : Roomy cfg) (ops : List (WriteOperation K P)) :
    ∀ (t : MVBTSt K P) (g : Ghost K P), Inv cfg t g → t.updateInPlace = false →
      ∃ t' rs g', runWrites cfg t ops = .ok (t', rs) ∧ Inv cfg t' g' ∧ Intact t g t' g' ∧
        Replay g.log ops rs g'.log := by
  induction ops with
  | nil =>
    intro t g h _
    exact ⟨t, [], g, rfl, h, .refl t g, .nil⟩
  | cons op ops ih =>
    intro t g h hflag
    obtain ⟨t₁, r, g₁, heq, hp⟩ := dispatchWrite_performed h hc hflag op
    obtain ⟨t', rs, g', heq', hinv, hint, hreplay⟩ :=
      ih t₁ g₁ hp.inv (hp.intact.in_place.trans hflag)
    refine ⟨t', r :: rs, g', ?_, hinv, hp.intact.trans hint, .cons hp.answers hreplay⟩
    simp only [runWrites, heq, heq', bind, Except.bind, pure, Except.pure]

end Operations

end CMVBT.WriteOperations
