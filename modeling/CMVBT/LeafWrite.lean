import CMVBT.Descent
import CMVBT.Reference

/-!
# Writes to a leaf

Insert pushes a record, delete ends one, update does both at the same version.
Each is one step of the invariant and adds one change to the log. A delete that
finds nothing draws a version and leaves the tree as it is.
-/
namespace CMVBT.LeafWrite
open KeyInterval LastMatch FenceTiling VersionedLog PageModel FrugalList CommitClock Tracker
open CMVBT.Tree
open BlockSupply WritePath ReadPath DirectoryHistory LeafHistory TreeInvariant PageRewrite NewPages
open Reorganization ParentRewrite ChildRepair RootRewrite Descent Reference

variable {K P : Type} [LinearOrder K]

/-! ## Pages -/

section Records
omit [LinearOrder K]

/-- The record that an insert or update pushes. -/
def pushed (k : K) (w : ℕ) (payload : P) : RecordPoint K P := ⟨k, .new w, payload⟩

theorem pushed_active (k : K) (w : ℕ) (payload : P) :
    PageUnit.isActive (pushed k w payload) = true := rfl

theorem ended_active (r : RecordPoint K P) (w : ℕ) : PageUnit.isActive (ended r w) = false := rfl

end Records

section Pages
variable {cap w : ℕ} {log : Log K P} {l : Life K} {p : LeafPage K P} {k : K}

/-- Pushing a record of a key that is not live. -/
theorem leafInv_push (h : LeafInv cap w log l p) (hlt : p.units.length < cap) (hk : k ∈ l.fence)
    (hbirth : l.birth ≤ w) (halive : l.death = none) (hnone : ∀ v, w ≤ v → liveAt log k v = none)
    (payload : P) :
    LeafInv cap (w + 1) (⟨w, k, some payload⟩ :: log) l
      ⟨commitLen p.len 1 0, p.units ++ [pushed k w payload]⟩ := by
  have hkey : ∀ r ∈ p.units, PageUnit.isActive r = true → r.key ≠ k := by
    rintro r hr ha rfl
    have hs := h.shows w hbirth (.of_alive halive w)
    have := (hs.mem_iff hk (p := r.payload)).mpr ⟨r, hr, ?_, rfl, rfl⟩
    · rw [hnone w le_rfl] at this
      cases this
    · rw [matches_eq_true]
      refine ⟨(h.stamps r hr).1.le, fun d hd => ?_⟩
      rw [active_iff.mp ha] at hd
      cases hd
  refine ⟨?_, ?_, ?_, ?_, ?_, ?_⟩
  · refine h.counted.commit (by simpa using Nat.succ_le_of_lt hlt) ?_ ?_
    · simp [List.countP_append, pushed_active]
    · simp [List.countP_append, pushed_active]
  · intro r hr
    rcases List.mem_append.mp hr with hr | hr
    · obtain ⟨hi, hd⟩ := h.stamps r hr
      exact ⟨hi.trans (Nat.lt_succ_self _), fun d hdel => (hd d hdel).trans (Nat.lt_succ_self _)⟩
    · obtain rfl := List.mem_singleton.mp hr
      exact ⟨Nat.lt_succ_self w, fun d hdel => by cases hdel⟩
  · intro v hv hu
    by_cases hvw : v < w
    · exact (h.shows v hv hu).push_before hvw k payload
    · exact (h.shows v hv hu).push_after (not_lt.mp hvw) hk (hnone v (not_lt.mp hvw)) payload
  · refine List.pairwise_append.mpr ⟨h.ordered, List.pairwise_singleton _ _, ?_⟩
    intro x hx y hy hxy
    obtain rfl := List.mem_singleton.mp hy
    cases hd : x.version.deleteVersion with
    | none => exact absurd hxy (hkey x hx (active_iff.mpr hd))
    | some d => exact ⟨d, rfl, ((h.stamps x hx).2 d hd).le⟩
  · exact h.sorted.append (fun x hx => (h.stamps x hx).1.le)
      (fun x hx => by rw [List.mem_singleton.mp hx]; rfl)
  · intro r hr
    rcases List.mem_append.mp hr with hr | hr
    · exact (h.known r hr).cons _
    · obtain rfl := List.mem_singleton.mp hr
      exact known_cons log ⟨w, k, some payload⟩

/-- Ending the live record of a key. -/
theorem leafInv_end {l₁ l₂ : List (RecordPoint K P)} {r : RecordPoint K P}
    (h : LeafInv cap w log l p) (hp : p.units = l₁ ++ r :: l₂) (ha : PageUnit.isActive r = true) :
    LeafInv cap (w + 1) (⟨w, r.key, none⟩ :: log) l
      ⟨commitLen p.len (-1) 1, l₁ ++ ended r w :: l₂⟩ := by
  have hdel := active_iff.mp ha
  have hr : r ∈ p.units := by simp [hp]
  have hmatch : ∀ v, w ≤ v → r.version.matches v = true := by
    intro v hv
    rw [matches_eq_true]
    refine ⟨(h.stamps r hr).1.le.trans hv, fun d hd => ?_⟩
    rw [hdel] at hd
    cases hd
  have hlen := h.counted.length_le
  rw [hp] at hlen
  refine ⟨?_, ?_, ?_, ?_, ?_, ?_⟩
  · refine h.counted.commit (by simpa using hlen) ?_ ?_
    · simp [hp, List.countP_append, ha, ended_active]
      omega
    · simp [hp, List.countP_append, ha, ended_active]
      omega
  · intro x hx
    rcases List.mem_append.mp hx with hx | hx
    · obtain ⟨hi, hd⟩ := h.stamps x (by simp [hp, hx])
      exact ⟨hi.trans (Nat.lt_succ_self _), fun d hdel => (hd d hdel).trans (Nat.lt_succ_self _)⟩
    · rcases List.mem_cons.mp hx with rfl | hx
      · refine ⟨(h.stamps r hr).1.trans (Nat.lt_succ_self _), fun d hd => ?_⟩
        cases hd
        exact Nat.lt_succ_self _
      · obtain ⟨hi, hd⟩ := h.stamps x (by simp [hp, hx])
        exact ⟨hi.trans (Nat.lt_succ_self _), fun d hdel => (hd d hdel).trans (Nat.lt_succ_self _)⟩
  · intro v hv hu
    have hs := h.shows v hv hu
    rw [hp] at hs
    by_cases hvw : v < w
    · exact hs.end_before hvw hdel
    · exact hs.end_after (not_lt.mp hvw) (hmatch v (not_lt.mp hvw))
  · -- the record that ends is the last one of its key
    have hord := h.ordered
    rw [hp] at hord
    obtain ⟨hbefore, hrest, hcross⟩ := List.pairwise_append.mp hord
    obtain ⟨hlast, hafter⟩ := List.pairwise_cons.mp hrest
    refine List.pairwise_append.mpr ⟨hbefore, List.pairwise_cons.mpr ⟨?_, hafter⟩, ?_⟩
    · intro y hy hkey
      exact absurd ha ((hlast y hy).not_active hkey)
    · intro x hx y hy
      rcases List.mem_cons.mp hy with rfl | hy
      · exact hcross x hx r (by simp)
      · exact hcross x hx y (by simp [hy])
  · exact h.sorted.congr (by simp [hp, ended, PageUnit.stamp])
  · intro x hx
    rcases List.mem_append.mp hx with hx | hx
    · exact (h.known x (by simp [hp, hx])).cons _
    · rcases List.mem_cons.mp hx with rfl | hx
      · exact known_cons log ⟨w, r.key, none⟩
      · exact (h.known x (by simp [hp, hx])).cons _

/-- The two writes of an update, seen as one change. -/
theorem leafInv_update {l₁ l₂ : List (RecordPoint K P)} {r : RecordPoint K P}
    (h : LeafInv cap w log l p) (hp : p.units = l₁ ++ r :: l₂) (ha : PageUnit.isActive r = true)
    (hlt : p.units.length < cap) (hbirth : l.birth ≤ w) (halive : l.death = none)
    (hk : r.key ∈ l.fence) (payload : P) :
    LeafInv cap (w + 1) (⟨w, r.key, some payload⟩ :: log) l
      ⟨commitLen (commitLen p.len 1 0) (-1) 1,
        l₁ ++ ended r w :: l₂ ++ [pushed r.key w payload]⟩ := by
  have hend := leafInv_end h hp ha
  have hcount : (⟨commitLen p.len 1 0, p.units ++ [pushed r.key w payload]⟩ :
      LeafPage K P).Counted cap := by
    refine h.counted.commit (by simpa using Nat.succ_le_of_lt hlt) ?_ ?_
    · simp [List.countP_append, pushed_active]
    · simp [List.countP_append, pushed_active]
  rw [hp] at hlt hcount
  have hsame : ∀ k' v, liveAt (⟨w, r.key, some payload⟩ :: ⟨w, r.key, none⟩ :: log) k' v =
      liveAt (⟨w, r.key, some payload⟩ :: log) k' v := by
    intro k' v
    simp only [liveAt_cons]
    split_ifs <;> rfl
  have hactive : ∀ x ∈ l₁ ++ ended r w :: l₂, PageUnit.isActive x = true → x.key ≠ r.key := by
    rintro x hx hxa heq
    have hs := hend.shows w hbirth (.of_alive halive w)
    have hxm : x.version.matches w = true := by
      rw [matches_eq_true]
      refine ⟨Nat.le_of_lt_succ (hend.stamps x hx).1, fun d hd => ?_⟩
      rw [active_iff.mp hxa] at hd
      cases hd
    have := (hs.mem_iff hk (p := x.payload)).mpr ⟨x, hx, hxm, heq, rfl⟩
    rw [liveAt_cons, if_pos ⟨rfl, le_rfl⟩] at this
    cases this
  refine ⟨?_, ?_, ?_, ?_, ?_, ?_⟩
  · have hlen : (l₁ ++ ended r w :: l₂ ++ [pushed r.key w payload]).length ≤ cap := by
      simp only [List.length_append, List.length_cons, List.length_nil] at hlt ⊢
      omega
    refine hcount.commit hlen ?_ ?_
    · simp [List.countP_append, ha, ended_active, pushed_active]
      omega
    · simp [List.countP_append, ha, ended_active, pushed_active]
      omega
  · intro x hx
    rcases List.mem_append.mp hx with hx | hx
    · exact hend.stamps x hx
    · obtain rfl := List.mem_singleton.mp hx
      exact ⟨Nat.lt_succ_self w, fun d hdel => by cases hdel⟩
  · intro v hv hu
    have hs := hend.shows v hv hu
    refine Shows.congr_log ?_ (fun k' _ => (hsame k' v).symm)
    by_cases hvw : v < w
    · exact hs.push_before hvw r.key payload
    · exact hs.push_after (not_lt.mp hvw) hk
        (by rw [liveAt_cons, if_pos ⟨rfl, not_lt.mp hvw⟩]) payload
  · refine List.pairwise_append.mpr ⟨hend.ordered, List.pairwise_singleton _ _, ?_⟩
    intro x hx y hy hxy
    obtain rfl := List.mem_singleton.mp hy
    cases hd : x.version.deleteVersion with
    | none => exact absurd hxy (hactive x hx (active_iff.mpr hd))
    | some d => exact ⟨d, rfl, Nat.le_of_lt_succ ((hend.stamps x hx).2 d hd)⟩
  · exact hend.sorted.append (fun x hx => Nat.le_of_lt_succ (hend.stamps x hx).1)
      (fun x hx => by rw [List.mem_singleton.mp hx]; rfl)
  · intro x hx
    rcases List.mem_append.mp hx with hx | hx
    · obtain ⟨s, hs, hkey⟩ := hend.known x hx
      rcases List.mem_cons.mp hs with rfl | hs
      · exact hkey ▸ known_cons log ⟨w, r.key, some payload⟩
      · exact Known.cons ⟨s, hs, hkey⟩ _
    · obtain rfl := List.mem_singleton.mp hx
      exact known_cons log ⟨w, r.key, some payload⟩

end Pages

/-! ## Steps that leave the structure alone -/

/-- A version is drawn and pages may be written, nothing else changes. -/
structure Tick (t t' : MVBTSt K P) : Prop where
  next : t'.nextBlock = t.nextBlock
  root : t'.root = t.root
  tracker : t'.tracker = t.tracker
  in_place : t'.updateInPlace = t.updateInPlace
  clock : t'.commit.clock = t.commit.clock + 1
  watermark : t'.commit.globalMin = t.commit.globalMin

section Steps
variable {cfg : Config K} {t t' : MVBTSt K P} {g : Ghost K P}

theorem tick_inv (h : Inv cfg t g) (ht : Tick t t') {log : Log K P}
    (hlog : Before log (t.commit.clock + 1))
    (hnode : ∀ b < t.nextBlock, NodeInv cfg (t.commit.clock + 1) log (Link g.life t.nextBlock)
      (g.life b) (t'.heap b))
    (hsame : ∀ b < t.nextBlock, ∀ v < t.commit.clock, SameAt v (t.heap b) (t'.heap b))
    (hdir : ∀ b p, t'.heap b = .internal p → t.heap b = .internal p)
    (hfilled : ∀ b < t.nextBlock, (g.life b).death = none → b ≠ t.currentRoot.1 →
      filling20Percent cfg (t'.heap b) ≤ (t'.heap b).activeDeadCount.1)
    (hchild : (t'.heap t.currentRoot.1).isLeaf = false →
      1 ≤ (t'.heap t.currentRoot.1).activeDeadCount.1) :
    Inv cfg t' { g with log := log } ∧ Intact t g t' { g with log := log } := by
  have hl := h.living
  have hroot : t'.currentRoot = t.currentRoot := by rw [MVBTSt.currentRoot, ht.root]; rfl
  have hgrave : graveyard t' = graveyard t := by rw [graveyard, ht.tracker]; rfl
  have hkept : ∀ b < t.nextBlock,
      Kept t.commit.clock (g.life b) (g.life b) (t.heap b) (t'.heap b) :=
    fun b hb => ⟨.inl rfl, hsame b hb⟩
  have hadv : Advance t g t' { g with log := log } :=
    { clock := ht.clock
      raised := ht.watermark.ge
      tracked := by rw [ht.tracker]
      in_place := ht.in_place
      readers := by rw [trace, ht.tracker]; rfl
      next := ht.next.ge
      births := fun b hb => .inl ⟨by rwa [ht.next] at hb, .inl rfl⟩
      old := fun b hb => .inl (hkept b hb)
      entries := fun b hb p hp e he => by
        rw [ht.next] at hb
        exact .inr ⟨hb, hkept b hb, p, hdir b p hp, e, he, rfl, rfl, rfl⟩
      roots := .inl ⟨ht.root, rfl⟩ }
  refine ⟨hadv.inv h ?_, hadv.intact hl⟩
  refine
    { logged := by rw [ht.clock]; exact hlog
      born := ?_
      node := by rw [ht.clock, ht.next]; exact hnode
      disjoint := by rw [ht.next]; exact hl.disjoint
      filled := by rw [ht.next, hroot]; exact hfilled
      root_lt := by rw [ht.next, hroot]; exact hl.root_lt
      root_life := by rw [hroot]; exact hl.root_life
      root_child := by rw [hroot]; exact hchild
      level_le := by rw [ht.next, hroot]; exact hl.level_le
      grave := by rw [hgrave]; exact hl.grave
      grave_ok := ⟨by rw [hgrave, ht.next]; exact hl.grave_ok.below,
        by rw [hgrave]; exact hl.grave_ok.nodup⟩ }
  rw [ht.next, ht.clock]
  intro b hb
  obtain ⟨h₁, h₂, h₃⟩ := hl.born b hb
  exact ⟨h₁, h₂.trans (Nat.lt_succ_self _), fun d hd => (h₃ d hd).trans (Nat.lt_succ_self _)⟩

/-- A version that is drawn for nothing. -/
theorem burn_inv (h : Inv cfg t g) :
    Inv cfg t.startTxCommit.1 g ∧ Intact t g t.startTxCommit.1 g := by
  have hl := h.living
  exact tick_inv h (show Tick t t.startTxCommit.1 from ⟨rfl, rfl, rfl, rfl, rfl, rfl⟩)
    (hl.logged.mono (Nat.le_succ _))
    (fun b hb => nodeInv_stays (hl.node b hb) (fun _ _ _ _ _ _ hx => hx))
    (fun b _ v _ => .refl v _) (fun _ _ hp => hp) hl.filled hl.root_child

/-- The state after a write to the leaf `b`. -/
def written (t : MVBTSt K P) (b : ℕ) (p : LeafPage K P) : MVBTSt K P :=
  (t.startTxCommit.1.setNode b (.leaf p)).endTxCommit t.commit.clock

theorem written_inv (h : Inv cfg t g) {b : ℕ} {key : K} {p p' : LeafPage K P} {change : Option P}
    (ho : OnPath cfg t g b key) (hlevel : (g.life b).level = 1) (hp : t.heap b = .leaf p)
    (hleaf : LeafInv cfg.numRecords (t.commit.clock + 1) (⟨t.commit.clock, key, change⟩ :: g.log)
      (g.life b) p')
    (hsame : ∀ v < t.commit.clock, SameAt v (.leaf p) (.leaf p' : Node K P))
    (hfill : b ≠ t.currentRoot.1 → (cfg.numRecords + 4) / 5 ≤ p'.activeDeadCount.1) :
    Inv cfg (written t b p') { g with log := ⟨t.commit.clock, key, change⟩ :: g.log } ∧
      Intact t g (written t b p') { g with log := ⟨t.commit.clock, key, change⟩ :: g.log } := by
  have hl := h.living
  have hself : (written t b p').heap b = .leaf p' := MVBTSt.setNode_self _ b _
  have hother : ∀ c, c ≠ b → (written t b p').heap c = t.heap c :=
    fun c hc => MVBTSt.setNode_other _ hc _
  refine tick_inv h (show Tick t (written t b p') from ⟨rfl, rfl, rfl, rfl, rfl, rfl⟩)
    (hl.logged.cons key change) ?_ ?_ ?_ ?_ ?_
  · intro c hc
    by_cases hcb : c = b
    · subst hcb
      rw [hself]
      exact ⟨hlevel, hleaf⟩
    · rw [hother c hcb]
      have hnode := nodeInv_stays (hl.node c hc)
        (fun _ _ _ _ _ _ hx => hx)
      cases hn : t.heap c with
      | internal q => rwa [hn] at hnode
      | leaf q =>
        rw [hn] at hnode
        refine ⟨hnode.1, hnode.2.counted, hnode.2.stamps, ?_, hnode.2.ordered, hnode.2.sorted,
          fun r hr => (hnode.2.known r hr).cons _⟩
        intro v hv hu
        refine (hnode.2.shows v hv hu).congr_log (fun k hk => ?_)
        rw [liveAt_cons, if_neg]
        -- the change is outside the fence or after the death of this leaf
        rintro ⟨rfl, hle⟩
        cases hd : (g.life c).death with
        | none =>
          exact hl.disjoint c hc b ho.used hd ho.alive (hnode.1.trans hlevel.symm) hcb key hk
            ho.key_mem
        | some d =>
          have h₁ := hu d hd
          have h₂ := (hl.born c hc).2.2 d hd
          omega
  · intro c hc v hv
    by_cases hcb : c = b
    · subst hcb
      rw [hself, hp]
      exact hsame v hv
    · rw [hother c hcb]
      exact .refl v _
  · intro c q hq
    by_cases hcb : c = b
    · subst hcb
      rw [hself] at hq
      cases hq
    · rwa [hother c hcb] at hq
  · intro c hc hlc hne
    by_cases hcb : c = b
    · subst hcb
      rw [hself]
      exact hfill hne
    · rw [hother c hcb]
      exact hl.filled c hc hlc hne
  · intro hnl
    by_cases hcb : t.currentRoot.1 = b
    · rw [hcb, hself] at hnl
      cases hnl
    · rw [hother _ hcb] at hnl ⊢
      exact hl.root_child hnl

end Steps

end CMVBT.LeafWrite
