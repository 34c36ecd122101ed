import CMVBT.FreshTree

/-!
# Updates in place

An update in place draws no version. It gives the last record of the key a new
payload from the version on at which that record was inserted, and revives the
record if it had been deleted. For the history of the map this is a change at
the insert version of the record, or at the birth of its leaf if the leaf is
younger; versions before that keep what they show. The guard of the source
compares the insert version with the newest announced reader, so no announced
reader is among the versions that change.
-/
namespace CMVBT.InPlaceUpdate
open KeyInterval LastMatch FenceTiling VersionedLog PageModel FrugalList CommitClock Tracker
open CMVBT.Tree
open BlockSupply WritePath ReadPath DirectoryHistory LeafHistory TreeInvariant NewPages LeafWrite
open Descent Reference WriteOperations FreshTree

variable {K P : Type}

/-! ## The page -/

/-- The record with its new payload, live again if it was deleted. -/
def revived (r : RecordPoint K P) (payload : P) : RecordPoint K P :=
  { r with payload := payload, version := { r.version with deleteVersion := none } }

theorem revived_active (r : RecordPoint K P) (payload : P) :
    PageUnit.isActive (revived r payload) = true := rfl

theorem matches_revived {r : RecordPoint K P} {payload : P} {v : ℕ} :
    (revived r payload).version.matches v = true ↔ r.version.insertVersion ≤ v := by
  rw [matches_eq_true]
  simp [revived]

/-- The page after the overwrite of one record. -/
def overwrittenPage (p : LeafPage K P) (l₁ : List (RecordPoint K P)) (r : RecordPoint K P)
    (l₂ : List (RecordPoint K P)) (payload : P) : LeafPage K P :=
  ⟨if r.version.isDeleted then commitLen p.len 1 (-1) else p.len, l₁ ++ revived r payload :: l₂⟩

theorem overwriteInPlace_eq {p : LeafPage K P} {l₁ l₂ : List (RecordPoint K P)}
    {r : RecordPoint K P} (hp : p.units = l₁ ++ r :: l₂) (payload : P) :
    overwriteInPlace p l₁.length payload = overwrittenPage p l₁ r l₂ payload := by
  have hget : p.units[l₁.length]? = some r := by simp [hp]
  have hset : p.units.set l₁.length (revived r payload) = l₁ ++ revived r payload :: l₂ := by
    simp [hp]
  simp only [overwriteInPlace, hget]
  rw [show ({ r with payload := payload, version := { r.version with deleteVersion := none } } :
    RecordPoint K P) = revived r payload from rfl, hset, overwrittenPage]
  cases r.version.isDeleted <;> rfl

variable [LinearOrder K]

section Shows
variable {log : Log K P} {f : Interval K} {l₁ l₂ : List (RecordPoint K P)} {r : RecordPoint K P}
  {v w : ℕ}

theorem shows_overwrite_before (h : Shows log f (l₁ ++ r :: l₂) v)
    (hv : v < r.version.insertVersion) (hw : v < w) (payload : P) :
    Shows (⟨w, r.key, some payload⟩ :: log) f (l₁ ++ revived r payload :: l₂) v := by
  have hold : ¬ r.version.matches v = true := fun hm =>
    absurd (matches_eq_true.mp hm).1 (not_le.mpr hv)
  have hnew : ¬ (revived r payload).version.matches v = true := fun hm =>
    absurd (matches_revived.mp hm) (not_le.mpr hv)
  have hs : Shows log f (l₁ ++ revived r payload :: l₂) v := by
    unfold Shows at h ⊢
    rw [List.filter_append, List.filter_cons] at h ⊢
    rw [if_neg hold] at h
    rwa [if_neg hnew]
  refine hs.congr_log (fun k _ => ?_)
  rw [liveAt_cons, if_neg (fun hc => absurd hc.2 (not_le.mpr hw))]

theorem shows_overwrite_after (h : Shows log f (l₁ ++ r :: l₂) v)
    (hv : r.version.insertVersion ≤ v) (hw : w ≤ v) (hk : r.key ∈ f)
    (hother : ∀ x ∈ l₁ ++ l₂, x.version.matches v = true → x.key ≠ r.key) (payload : P) :
    Shows (⟨w, r.key, some payload⟩ :: log) f (l₁ ++ revived r payload :: l₂) v := by
  unfold Shows at h ⊢
  have hnew : [revived r payload].filter (fun x => x.version.matches v) = [revived r payload] := by
    simp [matches_revived.mpr hv]
  have hsplit : ∀ x : RecordPoint K P, ((l₁ ++ x :: l₂).filter (fun r => r.version.matches v)).Perm
      ([x].filter (fun r => r.version.matches v) ++
        (l₁ ++ l₂).filter (fun r => r.version.matches v)) := by
    intro x
    rw [← List.filter_append]
    exact List.perm_middle.filter _
  have hrest : ∀ x ∈ (l₁ ++ l₂).filter (fun r => r.version.matches v), x.key ≠ r.key := by
    intro x hx
    obtain ⟨hx, hm⟩ := List.mem_filter.mp hx
    exact hother x hx hm
  have hback := hsplit (revived r payload)
  rw [hnew] at hback
  refine Tiling.perm (Tiling.exchange _ [revived r payload] (h.perm (hsplit r)) ?_ ?_ (by simp) ?_
    ?_ ?_ ?_) (List.perm_append_comm.trans hback.symm)
  · simp [span_proper]
  · simpa [span_within, revived] using hk
  · simp only [List.mem_singleton, forall_eq]
    intro x hx
    exact span_disjoint.mpr (fun heq => hrest x hx heq.symm)
  · simp [liveAt_cons, hw, revived]
  · intro x hx hg
    rw [liveAt_cons, if_neg (fun hc => hrest x hx hc.1.symm)]
    exact hg
  · intro k hkf hn
    by_cases heq : r.key = k
    · exact .inl ⟨_, List.mem_singleton_self _, mem_span.mpr heq⟩
    · rw [liveAt_cons, if_neg (fun hc => heq hc.1)] at hn
      refine .inr ⟨hn, fun u hu hku => heq ?_⟩
      obtain rfl := List.mem_singleton.mp (List.mem_filter.mp hu).1
      exact mem_span.mp hku

end Shows

section Leaf
variable {cap clock : ℕ} {log : Log K P} {l : Life K} {p : LeafPage K P}
  {l₁ l₂ : List (RecordPoint K P)} {r : RecordPoint K P}

/-- The version from which on the overwritten payload is seen. -/
def since (l : Life K) (r : RecordPoint K P) : ℕ := max r.version.insertVersion l.birth

omit [LinearOrder K] in
theorem overwrittenPage_counted (h : p.Counted cap) (hp : p.units = l₁ ++ r :: l₂) (payload : P) :
    (overwrittenPage p l₁ r l₂ payload).Counted cap := by
  have hlen := h.length_le
  rw [hp] at hlen
  cases hd : r.version.isDeleted with
  | true =>
    have ha : PageUnit.isActive r = false := by simp [PageUnit.isActive, hd]
    rw [overwrittenPage, hd, if_pos rfl]
    refine h.commit (by simpa using hlen) ?_ ?_
    · simp [hp, List.countP_append, List.countP_cons, ha, revived_active]
      omega
    · simp [hp, List.countP_append, ha, revived_active]
      omega
  | false =>
    have ha : PageUnit.isActive r = true := by simp [PageUnit.isActive, hd]
    rw [overwrittenPage, hd, if_neg Bool.false_ne_true]
    refine ⟨?_, by simpa using hlen, h.cap_lt⟩
    rw [h.len_eq, hp]
    simp [List.countP_append, List.countP_cons, ha, revived_active]

/-- Overwriting the last record of a key. -/
theorem leafInv_overwrite (h : LeafInv cap clock log l p) (hp : p.units = l₁ ++ r :: l₂)
    (hlast : ∀ x ∈ l₂, x.key ≠ r.key) (hk : r.key ∈ l.fence) (payload : P) :
    LeafInv cap clock (⟨since l r, r.key, some payload⟩ :: log) l
      (overwrittenPage p l₁ r l₂ payload) := by
  have hord := h.ordered
  rw [hp] at hord
  obtain ⟨hbefore, hrest, hcross⟩ := List.pairwise_append.mp hord
  refine ⟨overwrittenPage_counted h.counted hp payload, ?_, ?_, ?_, ?_, ?_⟩
  · intro x hx
    have hmem : x ∈ p.units ∨ x = revived r payload := by
      rw [hp]
      simp only [overwrittenPage, List.mem_append, List.mem_cons] at hx ⊢
      tauto
    rcases hmem with hx | rfl
    · exact h.stamps x hx
    · exact ⟨(h.stamps r (by simp [hp])).1, fun d hd => by cases hd⟩
  · intro v hv hu
    have hs := h.shows v hv hu
    rw [hp] at hs
    by_cases hvi : v < r.version.insertVersion
    · exact shows_overwrite_before hs hvi (hvi.trans_le (le_max_left _ _)) payload
    · refine shows_overwrite_after hs (not_lt.mp hvi) (max_le (not_lt.mp hvi) hv) hk ?_ payload
      -- the earlier records of the key ended before this one was inserted
      intro x hx hm heq
      rcases List.mem_append.mp hx with hx | hx
      · obtain ⟨d, hd, hle⟩ := hcross x hx r (by simp) heq
        have := (matches_eq_true.mp hm).2 d hd
        omega
      · exact hlast x hx heq
  · refine List.pairwise_append.mpr ⟨hbefore,
      List.pairwise_cons.mpr ⟨?_, (List.pairwise_cons.mp hrest).2⟩, ?_⟩
    · intro y hy hkey
      exact absurd hkey.symm (hlast y hy)
    · intro x hx y hy
      rcases List.mem_cons.mp hy with rfl | hy
      · exact hcross x hx r (by simp)
      · exact hcross x hx y (by simp [hy])
  · exact h.sorted.congr (by simp [overwrittenPage, hp, revived, PageUnit.stamp])
  · intro x hx
    rcases List.mem_append.mp hx with hx | hx
    · exact (h.known x (by simp [hp, hx])).cons _
    · rcases List.mem_cons.mp hx with rfl | hx
      · exact known_cons log ⟨since l r, r.key, some payload⟩
      · exact (h.known x (by simp [hp, hx])).cons _

omit [LinearOrder K] in
theorem active_le_overwritten (h : p.Counted cap) (hp : p.units = l₁ ++ r :: l₂) (payload : P) :
    p.units.countP PageUnit.isActive ≤ (overwrittenPage p l₁ r l₂ payload).activeDeadCount.1 := by
  rw [Page.activeDeadCount, (overwrittenPage_counted h hp payload).active]
  simp only [overwrittenPage, hp, List.countP_append, List.countP_cons, revived_active, if_true]
  split_ifs <;> omega

/-- Versions before the record see the page as it was. -/
theorem sameAt_overwrite (h : p.Counted cap) (hp : p.units = l₁ ++ r :: l₂) (payload : P) {v : ℕ}
    (hv : v < r.version.insertVersion) :
    SameAt v (.leaf p) (.leaf (overwrittenPage p l₁ r l₂ payload) : Node K P) := by
  have hold : r.version.matches v = false := by
    rw [Bool.eq_false_iff]
    exact fun hm => absurd (matches_eq_true.mp hm).1 (not_le.mpr hv)
  have hnew : (revived r payload).version.matches v = false := by
    rw [Bool.eq_false_iff]
    exact fun hm => absurd (matches_revived.mp hm) (not_le.mpr hv)
  simp only [SameAt, h.asUnits, (overwrittenPage_counted h hp payload).asUnits, hp]
  simp only [overwrittenPage, List.filter_append, List.filter_cons, hold, hnew,
    Bool.false_eq_true, if_false]

end Leaf

/-! ## The tree -/

section State
variable {cfg : Config K} {t : MVBTSt K P} {g : Ghost K P} {b : ℕ} {key : K} {p : LeafPage K P}
  {l₁ l₂ : List (RecordPoint K P)} {r : RecordPoint K P}

/-- The ghost after the overwrite: one more change, in the past. -/
def overwrittenGhost (g : Ghost K P) (b : ℕ) (r : RecordPoint K P) (payload : P) : Ghost K P :=
  { g with log := ⟨since (g.life b) r, r.key, some payload⟩ :: g.log }

/-- Only the leaf itself showed the key at the versions that change. -/
theorem node_overwrite (h : LeafAt cfg t g b key p) (hp : p.units = l₁ ++ r :: l₂)
    (hlast : ∀ x ∈ l₂, x.key ≠ r.key) (hkey : r.key = key) (payload : P) :
    ∀ c < t.nextBlock, NodeInv cfg t.commit.clock (overwrittenGhost g b r payload).log
      (Link g.life t.nextBlock) (g.life c)
      ((t.setNode b (.leaf (overwrittenPage p l₁ r l₂ payload))).heap c) := by
  have hl := h.inv.living
  have hmem : r.key ∈ (g.life b).fence := by rw [hkey]; exact h.onPath.key_mem
  intro c hc
  by_cases hcb : c = b
  · subst hcb
    rw [MVBTSt.setNode_self]
    exact ⟨h.level, leafInv_overwrite h.leaf hp hlast hmem payload⟩
  · rw [MVBTSt.setNode_other t hcb]
    have hnode := hl.node c hc
    cases hn : t.heap c with
    | internal q => rwa [hn] at hnode
    | leaf q =>
      rw [hn] at hnode
      refine ⟨hnode.1, hnode.2.counted, hnode.2.stamps, ?_, hnode.2.ordered, hnode.2.sorted,
        fun r hr => (hnode.2.known r hr).cons _⟩
      intro v hv hu
      refine (hnode.2.shows v hv hu).congr_log (fun k hk => ?_)
      rw [overwrittenGhost, liveAt_cons, if_neg]
      rintro ⟨rfl, hle⟩
      have hlevel := hnode.1.trans h.level.symm
      cases hd : (g.life c).death with
      | none => exact hl.disjoint c hc b h.onPath.used hd h.onPath.alive hlevel hcb _ hk hmem
      | some d =>
        -- a dead leaf with this key gave way before the birth of the present one
        have h₁ := hu d hd
        have h₂ := h.inv.timeline.succession c hc b h.onPath.used hlevel h.onPath.alive _ hk hmem d hd
        have h₃ : (g.life b).birth ≤ since (g.life b) r := le_max_right _ _
        omega

theorem overwritten_inv (h : LeafAt cfg t g b key p) (hp : p.units = l₁ ++ r :: l₂)
    (hlast : ∀ x ∈ l₂, x.key ≠ r.key) (hkey : r.key = key) (payload : P) :
    Inv cfg (t.setNode b (.leaf (overwrittenPage p l₁ r l₂ payload)))
      (overwrittenGhost g b r payload) := by
  have hl := h.inv.living
  have htl := h.inv.timeline
  have hself := t.setNode_self b (.leaf (overwrittenPage p l₁ r l₂ payload))
  have hother : ∀ c, c ≠ b →
      (t.setNode b (.leaf (overwrittenPage p l₁ r l₂ payload))).heap c = t.heap c :=
    fun c hc => t.setNode_other hc _
  have hdir : ∀ c q, (t.setNode b (.leaf (overwrittenPage p l₁ r l₂ payload))).heap c =
      .internal q → t.heap c = .internal q := by
    intro c q hq
    by_cases hcb : c = b
    · rw [hcb, hself] at hq
      cases hq
    · rwa [hother c hcb] at hq
  refine ⟨?_, ?_⟩
  · refine
      { logged := ?_
        born := hl.born
        node := node_overwrite h hp hlast hkey payload
        disjoint := hl.disjoint
        filled := ?_
        root_lt := hl.root_lt
        root_life := hl.root_life
        root_child := ?_
        level_le := hl.level_le
        grave := hl.grave
        grave_ok := ⟨hl.grave_ok.below, hl.grave_ok.nodup⟩ }
    · intro s hs
      rcases List.mem_cons.mp hs with rfl | hs
      · exact max_lt (h.leaf.stamps r (by simp [hp])).1 h.birth_lt
      · exact hl.logged s hs
    · intro c hc halive hne
      by_cases hcb : c = b
      · subst hcb
        rw [hself]
        have h₁ := h.filled hne
        have h₂ := active_le_overwritten h.leaf.counted hp payload
        simp only [filling20Percent, maxUnits, Node.isLeaf, if_true, Node.activeDeadCount]
        omega
      · rw [hother c hcb]
        exact hl.filled c hc halive hne
    · intro hleaf
      by_cases hcb : t.currentRoot.1 = b
      · have hroot : (t.setNode b (.leaf (overwrittenPage p l₁ r l₂ payload))).currentRoot.1 = b :=
          hcb
        rw [hroot, hself] at hleaf
        cases hleaf
      · have hroot : (t.setNode b (.leaf (overwrittenPage p l₁ r l₂ payload))).currentRoot.1 =
          t.currentRoot.1 := rfl
        rw [hroot, hother _ hcb] at hleaf ⊢
        exact hl.root_child hleaf
  · exact
      { chain := htl.chain
        roots_lt := htl.roots_lt
        roots_start := htl.roots_start
        roots_ge := htl.roots_ge
        root_birth := htl.root_birth
        roots_until := htl.roots_until
        routes := fun c hc q hq => htl.routes c hc q (hdir c q hq)
        succession := htl.succession
        roots_life := htl.roots_life
        links := fun ht c hc q hq => htl.links ht c hc q (hdir c q hq)
        retained := fun v hv hlow => (htl.retained v hv hlow).congr rfl rfl rfl hdir
        watermark := htl.watermark }

/-- The overwrite is out of sight of every announced reader. -/
theorem overwritten_intact (h : LeafAt cfg t g b key p) (hp : p.units = l₁ ++ r :: l₂)
    (hguard : ∀ v, Announced t v → v < r.version.insertVersion) (payload : P) :
    Intact t g (t.setNode b (.leaf (overwrittenPage p l₁ r l₂ payload)))
      (overwrittenGhost g b r payload) := by
  refine ⟨rfl, rfl, rfl, le_rfl, fun _ _ => rfl, ?_⟩
  intro v hv _ c hc hu
  refine ⟨hc, hu, ?_⟩
  by_cases hcb : c = b
  · rw [hcb, MVBTSt.setNode_self, h.page]
    exact sameAt_overwrite h.leaf.counted hp payload (hguard v hv)
  · rw [MVBTSt.setNode_other t hcb]
    exact .refl v _

end State

/-! ## The operation -/

section Guard
variable {t : MVBTSt K P} {p : LeafPage K P} {key : K} {i : ℕ}

/-- The record that may be overwritten is the last one of its key. -/
theorem inPlaceTarget_split {cap : ℕ} (hc : p.Counted cap) (h : inPlaceTarget t p key = some i) :
    ∃ l₁ r l₂, p.units = l₁ ++ r :: l₂ ∧ l₁.length = i ∧ r.key = key ∧
      ∀ x ∈ l₂, x.key ≠ r.key := by
  have hlast : lastIdx? (fun r => r.key == key) p.units = some i := by
    unfold inPlaceTarget at h
    rw [hc.asUnits] at h
    split at h
    · cases h
    · split_ifs at h
      split at h
      · cases h
      · next j hj =>
        rw [hj]
        split at h
        · split_ifs at h
          exact h
        · exact h
  obtain ⟨l₁, r, l₂, hp, hi, hr, hl₂⟩ := lastIdx?_eq_some.mp hlast
  have hkey : r.key = key := by simpa using hr
  refine ⟨l₁, r, l₂, hp, hi, hkey, fun x hx => ?_⟩
  rw [hkey]
  simpa using hl₂ x hx

/-- The guard: every announced reader is older than the record. Pins stand for
readers at any version, so the record must not be overwritten while there is one;
this rests on versions being no larger than `versionMax`. -/
theorem inPlaceTarget_guard {l₁ l₂ : List (RecordPoint K P)} {r : RecordPoint K P}
    (h : inPlaceTarget t p key = some i) (hp : p.units = l₁ ++ r :: l₂) (hi : l₁.length = i)
    (hr : r.version.insertVersion ≤ versionMax) :
    ∀ v, Announced t v → v < r.version.insertVersion := by
  rintro v ⟨live, hlive, hv⟩
  obtain ⟨tracker, ht, rfl⟩ := Option.map_eq_some_iff.mp hlive
  have hget : p.units[i]? = some r := by simp [hp, ← hi]
  have hmax : ∀ m, tracker.liveTx.peekMax = some m → m < r.version.insertVersion := by
    intro m hm
    simp only [inPlaceTarget, ht, TrackerHandle.newestLiveSi, hm] at h
    split_ifs at h
    split at h
    · cases h
    · split_ifs at h with hlt
      obtain rfl := Option.some.inj h
      simpa [hget] using hlt
  by_cases hpins : tracker.liveTx.pins = []
  · rcases hv with ⟨ticket, hmem, rfl⟩ | ⟨ticket, hmem, -⟩
    · obtain ⟨m, hm, hle⟩ := TransactionTrace.le_peekMax hpins hmem
      exact hle.trans_lt (hmax m hm)
    · simp [hpins] at hmem
  · have := hmax versionMax (TransactionTrace.peekMax_pinned hpins)
    omega

end Guard

/-- The update finds a deleted record and revives it: the branch of the source
that runs before the validation. -/
def revives (cfg : Config K) (t : MVBTSt K P) : WriteOperation K P → Bool
  | .update key _ =>
    match traversalWriteOlc cfg t key with
    | .error _ => false
    | .ok (t, leaf) =>
      match asLeafPage t leaf with
      | .error _ => false
      | .ok page => ((inPlaceTarget t page key).bind (fun i => page.units[i]?)).any
          (fun r => r.version.isDeleted)
  | _ => false

/-- The answer of one operation and the history after it, when updates may be
made in place. The flag tells whether a deleted record was revived. -/
inductive Acts (log : Log K P) : Bool → WriteOperation K P → WriteResult → Log K P → Prop
  | answers {op : WriteOperation K P} {r : WriteResult} {log' : Log K P} :
      Answers log op r log' → Acts log false op r log'
  | overwritten {key : K} {payload old : P} {version w : ℕ} : live log key = some old →
      Acts log false (.update key payload) (.updated version) (⟨w, key, some payload⟩ :: log)
  | revived {key : K} {payload : P} {version w : ℕ} : live log key = none → Known log key →
      Acts log true (.update key payload) (.updated version) (⟨w, key, some payload⟩ :: log)

/-- A key that is never inserted does not enter the history of such a tree either. -/
theorem Acts.key_absent {log log' : Log K P} {b : Bool} {op : WriteOperation K P}
    {r : WriteResult} (h : Acts log b op r log') {key : K} (hop : ∀ p, op ≠ .insert key p)
    (hlog : ∀ s ∈ log, s.key ≠ key) : ∀ s ∈ log', s.key ≠ key := by
  have hknown : ∀ {k : K}, Known log k → k ≠ key := by
    rintro k ⟨s, hs, rfl⟩
    exact hlog s hs
  cases h with
  | answers h => exact h.key_absent hop hlog
  | overwritten hsome => exact List.forall_mem_cons.mpr ⟨hknown (known_of_live hsome), hlog⟩
  | revived _ hk => exact List.forall_mem_cons.mpr ⟨hknown hk, hlog⟩

/-- What one operation does to a tree of any kind. -/
structure Dispatched (cfg : Config K) (t : MVBTSt K P) (g : Ghost K P) (op : WriteOperation K P)
    (t' : MVBTSt K P) (r : WriteResult) (g' : Ghost K P) : Prop where
  inv : Inv cfg t' g'
  acts : Acts g.log (revives cfg t op) op r g'.log
  tracked : t'.tracker.isSome = t.tracker.isSome
  in_place : t'.updateInPlace = t.updateInPlace
  readers : trace t' = trace t
  clock : t.commit.clock ≤ t'.commit.clock
  intact : t'.commit.clock ≤ versionMax → Intact t g t' g'

section Operation
variable {cfg : Config K} {t : MVBTSt K P} {g : Ghost K P}

theorem Performed.dispatched {op : WriteOperation K P} {t' : MVBTSt K P} {r : WriteResult}
    {g' : Ghost K P} (h : Performed cfg t g op t' r g') (hr : revives cfg t op = false) :
    Dispatched cfg t g op t' r g' :=
  ⟨h.inv, by rw [hr]; exact .answers h.answers, h.intact.tracked, h.intact.in_place,
    h.intact.readers, h.intact.clock, fun _ => h.intact⟩

/-- An update that overwrites a record of its leaf. -/
theorem dispatchUpdate_overwrites {key : K} (payload : P) {t₁ : MVBTSt K P} {g₁ : Ghost K P}
    {b i : ℕ} {p : LeafPage K P} (htr : traversalWriteOlc cfg t key = .ok (t₁, b))
    (harr : Arrived cfg t g key t₁ g₁ b) (hl : LeafAt cfg t₁ g₁ b key p)
    (hi : inPlaceTarget t₁ p key = some i) :
    ∃ t' r g', dispatchUpdate cfg t key payload = .ok (t', r) ∧
      Dispatched cfg t g (.update key payload) t' r g' := by
  obtain ⟨l₁, r, l₂, hp, rfl, hkey, hlast⟩ := inPlaceTarget_split hl.leaf.counted hi
  have hrecord : lastRecord p key = some r := by
    rw [lastRecord_eq hl.leaf, hp, ← hkey]
    exact findRev?_split (by simp) (fun x hx => by simpa using hlast x hx)
  have hrev : revives cfg t (.update key payload) = r.version.isDeleted := by
    simp [revives, htr, hl.asLeafPage, hi, hp]
  refine ⟨_, .updated t₁.currentVersion, _, ?_, overwritten_inv hl hp hlast hkey payload, ?_,
    harr.intact.tracked, harr.intact.in_place, harr.intact.readers, harr.intact.clock, ?_⟩
  · simp only [dispatchUpdate, htr, bind, Except.bind, hl.asLeafPage, hi, pure, Except.pure,
      overwriteInPlace_eq hp payload]
  · simp only [overwrittenGhost, hrev, harr.log, hkey]
    cases hd : r.version.isDeleted with
    | true =>
      have hknown := hl.leaf.known r (by simp [hp])
      rw [harr.log, hkey] at hknown
      refine .revived ?_ hknown
      rw [← harr.log]
      cases hlive : live g₁.log key with
      | none => rfl
      | some q =>
        obtain ⟨r', hr', ha, -⟩ := hl.live_iff.mp hlive
        rw [hrecord] at hr'
        cases hr'
        simp [PageUnit.isActive, hd] at ha
    | false =>
      have hlive : live g₁.log key = some r.payload :=
        hl.live_iff.mpr ⟨r, hrecord, by simp [PageUnit.isActive, hd], rfl⟩
      rw [harr.log] at hlive
      exact .overwritten hlive
  · intro hmax
    have hiv : r.version.insertVersion < t₁.commit.clock := (hl.leaf.stamps r (by simp [hp])).1
    have hclock : t₁.commit.clock ≤ versionMax := hmax
    exact harr.intact.trans (overwritten_intact hl hp
      (inPlaceTarget_guard hi hp rfl (by omega)) payload)

theorem dispatchUpdate_dispatched (h : Inv cfg t g) (hc : Roomy cfg) (key : K) (payload : P) :
    ∃ t' r g', dispatchUpdate cfg t key payload = .ok (t', r) ∧
      Dispatched cfg t g (.update key payload) t' r g' := by
  obtain ⟨t₁, g₁, b, htr, harr⟩ := traversalWrite_arrives hc h key
  obtain ⟨p, hl⟩ := Arrived.leafAt harr
  cases hi : inPlaceTarget t₁ p key with
  | some i => exact dispatchUpdate_overwrites payload htr harr hl hi
  | none =>
    have hrev : revives cfg t (.update key payload) = false := by
      simp [revives, htr, hl.asLeafPage, hi]
    obtain ⟨t', r, g', hrun, hperf⟩ := dispatchUpdate_plain h hc key payload (by
      intro t₂ c q htr' hq
      rw [htr] at htr'
      cases htr'
      rw [hl.page] at hq
      cases hq
      exact hi)
    exact ⟨t', r, g', hrun, Performed.dispatched hperf hrev⟩

/-- Every operation on a tree with the invariant returns and keeps it, whether or
not updates are made in place. -/
theorem dispatchWrite_dispatched (h : Inv cfg t g) (hc : Roomy cfg) (op : WriteOperation K P) :
    ∃ t' r g', dispatchWrite cfg t op = .ok (t', r) ∧ Dispatched cfg t g op t' r g' := by
  cases op with
  | insert key payload =>
    obtain ⟨t', r, g', hrun, hperf⟩ := dispatchInsert_performed h hc key payload
    exact ⟨t', r, g', hrun, Performed.dispatched hperf rfl⟩
  | update key payload => exact dispatchUpdate_dispatched h hc key payload
  | delete key =>
    obtain ⟨t', r, g', hrun, hperf⟩ := dispatchDelete_performed h hc key
    exact ⟨t', r, g', hrun, Performed.dispatched hperf rfl⟩

/-- A tree that has drawn no version has nothing to revive. -/
theorem revives_fresh (hc : Roomy cfg) (h : Fresh t) (op : WriteOperation K P) :
    revives cfg t op = false := by
  cases op with
  | insert key payload => rfl
  | delete key => rfl
  | update key payload =>
    simp [revives, traversalWrite_fresh hc h key, asLeafPage_fresh h, inPlaceTarget_new]

end Operation

end CMVBT.InPlaceUpdate
