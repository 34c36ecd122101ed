import CMVBT.ReaderHistory
import CMVBT.TreeShape

/-!
# What happens to the blocks of a tree

A structure modification replaces blocks of the current tree and registers them
with the tracker, at the version that it draws. The states after each single
modification of a history are its trace; every step of a trace keeps account of
the blocks, with one exception: `merge_root` registers the child that it lifts
and forgets the root above it.
-/
namespace CMVBT.Graveyard
open KeyInterval LastMatch FenceTiling VersionedLog PageModel FrugalList CommitClock Tracker
open CMVBT.Tree
open BlockSupply WritePath TreeInvariant NewPages Reorganization ParentRewrite ChildRepair
open RootRewrite Descent FreshTree WriteOperations TreeShape InPlaceUpdate ReaderHistory

variable {K P : Type} [LinearOrder K]

/-! ## Blocks of the current tree -/

/-- Reachable from the current root through entries that are not marked obsolete. -/
def InTree (cfg : Config K) (t : MVBTSt K P) (b : ℕ) : Prop := ∃ f w, Current cfg t b f w

/-- Block `b` lies in the graveyard under the version `w`. -/
def BuriedAt (t : MVBTSt K P) (b w : ℕ) : Prop :=
  ∃ d ∈ graveyard t, d.block = b ∧ d.deathVersion = w

section Lives
variable {cfg : Config K} {t : MVBTSt K P} {g : Ghost K P}

theorem root_inTree (cfg : Config K) (t : MVBTSt K P) : InTree cfg t t.currentRoot.1 :=
  ⟨_, _, .root⟩

theorem InTree.life {b : ℕ} (hb : InTree cfg t b) (h : Inv cfg t g) :
    b < t.nextBlock ∧ (g.life b).death = none := by
  obtain ⟨f, w, hcur⟩ := hb
  obtain ⟨hlt, level, hlife⟩ := hcur.life h
  exact ⟨hlt, by rw [hlife]⟩

/-- The search for a key from a block of the tree passes every living block below
that holds the key. -/
theorem inTree_below (h : Inv cfg t g) {b : ℕ} (hb : b < t.nextBlock)
    (halive : (g.life b).death = none) {k : K} (hk : k ∈ (g.life b).fence) (n : ℕ) :
    ∀ c, InTree cfg t c → k ∈ (g.life c).fence → (g.life c).level = (g.life b).level + n →
      InTree cfg t b := by
  induction n with
  | zero =>
    intro c hc hkc hlevel
    obtain ⟨hlt, hcl⟩ := hc.life h
    by_cases hcb : c = b
    · rwa [← hcb]
    · exact absurd hk (h.living.disjoint c hlt b hb hcl halive hlevel hcb k hkc)
  | succ n ih =>
    intro c hc hkc hlevel
    obtain ⟨hlt, hcl⟩ := hc.life h
    have hnode := h.living.node c hlt
    cases hp : t.heap c with
    | leaf p =>
      have hnode' := h.living.node b hb
      rw [hp] at hnode
      have hone := hnode.1
      cases hq : t.heap b with
      | leaf q => rw [hq] at hnode'; have := hnode'.1; omega
      | internal q => rw [hq] at hnode'; have := hnode'.1; omega
    | internal p =>
      obtain ⟨i, e, -, hx, hke⟩ := activeIndex_child h.living hlt hcl hkc hp
      obtain ⟨-, hfence, hbelow⟩ := hx.child_life h.living
      obtain ⟨f, w, hcur⟩ := hc
      rw [hp] at hnode
      refine ih e.pointer ⟨_, _, hcur.child hp ?_ hx.active⟩ (by rwa [hfence]) (by omega)
      rw [hnode.counted_internal]
      exact List.mem_of_getElem? hx.entry

/-- The blocks of the current tree are those whose life has not ended. -/
theorem inTree_iff (h : Inv cfg t g) {b : ℕ} :
    InTree cfg t b ↔ b < t.nextBlock ∧ (g.life b).death = none := by
  constructor
  · exact fun hb => hb.life h
  · rintro ⟨hb, halive⟩
    obtain ⟨birth, hroot⟩ := h.living.root_life
    have hle := h.living.level_le b hb halive
    refine inTree_below h hb halive (h.living.born b hb).1.lower_mem
      (t.currentRoot.2 - (g.life b).level) t.currentRoot.1 (root_inTree cfg t) ?_ ?_
    · rw [hroot]
      exact cfg.keys.mem_full _
    · rw [hroot]
      simp only
      omega

end Lives

/-! ## One step -/

/-- A step that keeps account of the blocks. Entries stay in the graveyard until
their block is back in the tree, and a block that drops out of the tree is buried
under the version that the step draws; if `collapsed`, this may fail for the root. -/
structure Buries (cfg : Config K) (collapsed : Prop) (t t' : MVBTSt K P) : Prop where
  kept : ∀ d ∈ graveyard t, d ∈ graveyard t' ∨ InTree cfg t' d.block
  dropped : ∀ b, InTree cfg t b → InTree cfg t' b ∨ BuriedAt t' b t.commit.clock ∨
    (collapsed ∧ b = t.currentRoot.1)

theorem Buries.mono {cfg : Config K} {collapsed collapsed' : Prop} {t t' : MVBTSt K P}
    (h : Buries cfg collapsed t t') (hc : collapsed → collapsed') : Buries cfg collapsed' t t' :=
  ⟨h.kept, fun b hb => (h.dropped b hb).imp_right (Or.imp_right (And.imp_left hc))⟩

section Modification
variable {cfg : Config K} {t t' : MVBTSt K P} {g : Ghost K P}

theorem Reorg.buries {news : List (ℕ × Life K)} {par : Option (ℕ × Node K P)}
    {dead buried : List ℕ} {roots : List ((ℕ × ℕ) × ℕ)} (hr : Reorg cfg t g t' news par dead)
    (hs : Smo t t' (news.map (fun x => (x.1, t'.heap x.1))) par buried) (h : Inv cfg t g)
    (h' : Inv cfg t' ⟨renew g.life t.commit.clock news dead, roots, g.log⟩)
    (ht : t.tracker.isSome = true) {collapsed : Prop}
    (hdead : ∀ b ∈ dead, b ∈ buried ∨ (collapsed ∧ b = t.currentRoot.1)) :
    Buries cfg collapsed t t' := by
  refine ⟨?_, ?_⟩
  · intro d hd
    by_cases hnew : ∃ x ∈ news, x.1 = d.block
    · obtain ⟨x, hx, heq⟩ := hnew
      refine .inr ((inTree_iff h').mpr ⟨?_, ?_⟩)
      · exact (hs.next _).mpr (.inl (h.living.grave_ok.below d hd))
      · simp only [← heq, renew_new hr.nodup hx]
        exact (hr.fresh x hx).2.1
    · refine .inl (hs.grave_kept d hd ?_)
      intro y hy
      obtain ⟨x, hx, rfl⟩ := List.mem_map.mp hy
      exact fun heq => hnew ⟨x, hx, heq⟩
  · intro b hb
    obtain ⟨hlt, halive⟩ := hb.life h
    by_cases hd : b ∈ dead
    · exact .inr ((hdead b hd).imp_left (hs.grave_new ht b))
    · refine .inl ((inTree_iff h').mpr ⟨hr.next_le hlt, ?_⟩)
      simp only [renew_old (hr.alive_not_new h.living hlt halive) hd]
      exact halive

/-- The repairs of the write descent bury what they replace. -/
theorem Replaced.buries {m : ℕ} {e : Entry K} (hr : Replaced cfg t g m e t') (h : Inv cfg t g)
    (ht : t.tracker.isSome = true) : Buries cfg False t t' := by
  obtain ⟨t₁, p, index, es, level, xs, hs, -, -⟩ := hr
  have hreorg := hs.reorg h.living
  have hadv := hreorg.advance (.inl ⟨hs.root, rfl⟩)
  exact Reorg.buries hreorg hs.smo_news h (hadv.inv h (hreorg.living h.living g.roots)) ht
    (fun b hb => .inl hb)

theorem Replanted.inv {c : ℕ} {dead : List ℕ} {news : List (ℕ × Life K)}
    (hr : Replanted cfg t g c dead t' news) (h : Inv cfg t g) :
    Inv cfg t' ⟨renew g.life t.commit.clock news dead,
      (t'.currentRoot, t.commit.clock) :: g.roots, g.log⟩ :=
  (hr.reorg.advance (.inr ⟨hr.chain, rfl, hr.birth⟩)).inv h (hr.reorg.living h.living _)

/-- A new root buries the block below it, and the old root only if that is the
same block. -/
theorem Replanted.buries {c : ℕ} {dead : List ℕ} {news : List (ℕ × Life K)}
    (hr : Replanted cfg t g c dead t' news) (h : Inv cfg t g) (ht : t.tracker.isSome = true)
    {collapsed : Prop} (hdead : ∀ b ∈ dead, b = c ∨ (collapsed ∧ b = t.currentRoot.1)) :
    Buries cfg collapsed t t' := by
  refine Reorg.buries hr.reorg hr.smo h (Replanted.inv hr h) ht ?_
  intro b hb
  rcases hdead b hb with rfl | hroot
  · exact .inl (List.mem_singleton_self b)
  · exact .inr hroot

/-- A root that was not buried is lost: out of the tree and not in the graveyard. -/
theorem Replanted.loses {c b : ℕ} {dead : List ℕ} {news : List (ℕ × Life K)}
    (hr : Replanted cfg t g c dead t' news) (h : Inv cfg t g) (hb : b ∈ dead) (hbc : b ≠ c) :
    ¬ InTree cfg t' b ∧ ∀ w, ¬ BuriedAt t' b w := by
  obtain ⟨hlt, halive⟩ := hr.reorg.dead_alive b hb
  refine ⟨?_, ?_⟩
  · intro hin
    obtain ⟨-, hdeath⟩ := hin.life (Replanted.inv hr h)
    simp only [renew_dead (hr.reorg.alive_not_new h.living hlt halive) hb] at hdeath
    cases hdeath
  · rintro w ⟨d, hd, rfl, -⟩
    rcases hr.smo.grave d hd with ⟨hold, -⟩ | ⟨hmem, -⟩
    · exact h.living.not_buried halive d hold rfl
    · exact hbc (List.mem_singleton.mp hmem)

end Modification

/-- A step that leaves the root, the directories and the graveyard alone. -/
structure Quiet (t t' : MVBTSt K P) : Prop where
  root : t'.root = t.root
  grave : graveyard t' = graveyard t
  directory : ∀ b p, t'.heap b = .internal p ↔ t.heap b = .internal p

section Quiet
variable {cfg : Config K} {t t' : MVBTSt K P}

omit [LinearOrder K] in
theorem Quiet.refl (t : MVBTSt K P) : Quiet t t := ⟨rfl, rfl, fun _ _ => Iff.rfl⟩

omit [LinearOrder K] in
theorem Quiet.symm (h : Quiet t t') : Quiet t' t :=
  ⟨h.root.symm, h.grave.symm, fun b p => (h.directory b p).symm⟩

theorem Quiet.inTree (h : Quiet t t') {b : ℕ} (hb : InTree cfg t b) : InTree cfg t' b := by
  obtain ⟨f, w, hcur⟩ := hb
  refine ⟨f, w, ?_⟩
  induction hcur with
  | root =>
    rw [MVBTSt.currentRoot, ← h.root]
    exact .root
  | child _ hp he ha ih => exact ih.child ((h.directory _ _).mpr hp) he ha

theorem Quiet.buries (h : Quiet t t') : Buries cfg False t t' :=
  ⟨fun d hd => .inl (by rwa [h.grave]), fun _ hb => .inl (h.inTree hb)⟩

omit [LinearOrder K] in
/-- Rewriting a leaf. -/
theorem quiet_setNode {b : ℕ} {p p' : LeafPage K P} (hp : t.heap b = .leaf p) :
    Quiet t (t.setNode b (.leaf p')) := by
  refine ⟨rfl, rfl, fun c q => ?_⟩
  by_cases hcb : c = b
  · rw [hcb, MVBTSt.setNode_self, hp]
    simp
  · rw [MVBTSt.setNode_other t hcb]

omit [LinearOrder K] in
theorem quiet_apply (event : ReaderEvent) (t : MVBTSt K P) : Quiet t (event.apply t) := by
  obtain ⟨tracker, heq, hgrave, -⟩ := apply_eq event t
  rw [heq]
  exact ⟨rfl, hgrave, fun _ _ => Iff.rfl⟩

end Quiet

/-! ## Traces -/

/-- The states after each repair of a descent. -/
def descendTrace (cfg : Config K) : ℕ → MVBTSt K P → ℕ → K → List (MVBTSt K P)
  | 0, _, _, _ => []
  | fuel + 1, t, curr, key =>
    match descendRound cfg t curr key with
    | .ok (.enter next) => descendTrace cfg fuel t next key
    | .ok (.repair t) => t :: descendTrace cfg fuel t curr key
    | _ => []

/-- The state with the root that the descent starts at, then those of the descent. -/
def traversalTrace (cfg : Config K) (t : MVBTSt K P) (key : K) : List (MVBTSt K P) :=
  match retrieveRootWriteOlc cfg t with
  | .ok (t, root) => t :: descendTrace cfg (2 * t.currentRoot.2) t root key
  | .error _ => []

def operationKey : WriteOperation K P → K
  | .insert key _ => key
  | .update key _ => key
  | .delete key => key

/-- The states that an event passes through, without the last one. -/
def eventTrace (cfg : Config K) (t : MVBTSt K P) : Event K P → List (MVBTSt K P)
  | .write op => traversalTrace cfg t (operationKey op)
  | .reader _ => []

/-- All states of a history after the first one. -/
def runTrace (cfg : Config K) (t : MVBTSt K P) : List (Event K P) → List (MVBTSt K P)
  | [] => []
  | event :: events =>
    match perform cfg t event with
    | .ok (t', _) => eventTrace cfg t event ++ t' :: runTrace cfg t' events
    | .error _ => []

/-- The write starts at a directory root with a single active entry, which
`merge_root` removes. -/
def Collapses (cfg : Config K) (t : MVBTSt K P) : Event K P → Prop
  | .write _ => unsafeDegreeRoot cfg (t.heap t.currentRoot.1) = .activeUnderflow
  | .reader _ => False

instance instDecidableCollapses (cfg : Config K) (t : MVBTSt K P) (event : Event K P) :
    Decidable (Collapses cfg t event) :=
  match event with
  | .write _ => decEq (unsafeDegreeRoot cfg (t.heap t.currentRoot.1)) .activeUnderflow
  | .reader _ => .isFalse id

/-- No write of the history does so. -/
def NeverCollapses (cfg : Config K) (t : MVBTSt K P) : List (Event K P) → Prop
  | [] => True
  | event :: events => ¬ Collapses cfg t event ∧
    match perform cfg t event with
    | .ok (t', _) => NeverCollapses cfg t' events
    | .error _ => True

instance instDecidableNeverCollapses (cfg : Config K) :
    (t : MVBTSt K P) → (events : List (Event K P)) → Decidable (NeverCollapses cfg t events)
  | _, [] => .isTrue trivial
  | t, event :: events =>
    have : Decidable (match perform cfg t event with
        | .ok (t', _) => NeverCollapses cfg t' events
        | .error _ => True) :=
      match perform cfg t event with
      | .ok (t', _) => instDecidableNeverCollapses cfg t' events
      | .error _ => .isTrue trivial
    inferInstanceAs (Decidable (_ ∧ _))

theorem neverCollapses_cons {cfg : Config K} {t t' : MVBTSt K P} {event : Event K P}
    {r : Option WriteResult} (h : perform cfg t event = .ok (t', r)) (events : List (Event K P)) :
    NeverCollapses cfg t (event :: events) ↔
      ¬ Collapses cfg t event ∧ NeverCollapses cfg t' events := by
  simp only [NeverCollapses, h]

theorem neverCollapses_append {cfg : Config K} {events later : List (Event K P)}
    {t' : MVBTSt K P} {rs : List (Option WriteResult)} {t : MVBTSt K P}
    (hrun : runEvents cfg t events = .ok (t', rs)) (h : NeverCollapses cfg t (events ++ later)) :
    NeverCollapses cfg t' later := by
  induction events generalizing t rs with
  | nil =>
    cases hrun
    exact h
  | cons event events ih =>
    cases hp : perform cfg t event with
    | error fault =>
      simp only [runEvents, hp, bind, Except.bind] at hrun
      cases hrun
    | ok out =>
      obtain ⟨t₁, r⟩ := out
      simp only [runEvents, hp, bind, Except.bind] at hrun
      have hlater := ((neverCollapses_cons hp _).mp h).2
      cases hr : runEvents cfg t₁ events with
      | error fault =>
        rw [hr] at hrun
        cases hrun
      | ok out =>
        obtain ⟨t₂, rs₂⟩ := out
        rw [hr] at hrun
        cases hrun
        exact ih hr hlater

/-- A reached state of a tree with tracker. -/
def Sound (cfg : Config K) (t : MVBTSt K P) : Prop :=
  t.tracker.isSome = true ∧ ∃ log, Carries cfg t log

/-- From `t` through the states `us` to `t'`, keeping account in every step. -/
inductive Passes (cfg : Config K) (collapsed : Prop) :
    MVBTSt K P → List (MVBTSt K P) → MVBTSt K P → Prop
  | done {t : MVBTSt K P} : Passes cfg collapsed t [] t
  | step {t u t' : MVBTSt K P} {us : List (MVBTSt K P)} : Buries cfg collapsed t u →
      Sound cfg u → Passes cfg collapsed u us t' → Passes cfg collapsed t (u :: us) t'

section Passes
variable {cfg : Config K} {collapsed collapsed' : Prop} {t u t' : MVBTSt K P}
  {us vs : List (MVBTSt K P)}

theorem Passes.mono (h : Passes cfg collapsed t us t') (hc : collapsed → collapsed') :
    Passes cfg collapsed' t us t' := by
  induction h with
  | done => exact .done
  | step hb hs _ ih => exact .step (hb.mono hc) hs ih

theorem Passes.append (h : Passes cfg collapsed t us u) (h' : Passes cfg collapsed u vs t') :
    Passes cfg collapsed t (us ++ vs) t' := by
  induction h with
  | done => exact h'
  | step hb hs _ ih => exact .step hb hs (ih h')

theorem Passes.sound (h : Passes cfg collapsed t us t') (ht : Sound cfg t) : Sound cfg t' := by
  induction h with
  | done => exact ht
  | step _ hs _ ih => exact ih hs

end Passes

section Descent
variable {cfg : Config K} {t : MVBTSt K P} {g : Ghost K P}

theorem sound_of_inv (h : Inv cfg t g) (ht : t.tracker.isSome = true) : Sound cfg t :=
  ⟨ht, g.log, .inr ⟨g, h, rfl⟩⟩

/-- The repairs of a descent. -/
theorem descend_passes (hc : Roomy cfg) {key : K} :
    ∀ (level : ℕ) (t : MVBTSt K P) (g : Ghost K P) (b : ℕ), Inv cfg t g →
      t.tracker.isSome = true → OnPath cfg t g b key → (g.life b).level = level →
      ∀ fuel, 2 * level ≤ fuel + 1 → ∃ t' leaf p, descend cfg fuel t b key = .ok (t', leaf) ∧
        t'.heap leaf = .leaf p ∧ Passes cfg False t (descendTrace cfg fuel t b key) t' := by
  intro level
  induction level with
  | zero =>
    intro t g b h _ ho hlevel
    have hnode := h.living.node b ho.used
    cases hp : t.heap b with
    | leaf p => rw [hp] at hnode; have := hnode.1; omega
    | internal p => rw [hp] at hnode; have := hnode.1; omega
  | succ level ih =>
    intro t g b h ht ho hlevel fuel hfuel
    have hnode := h.living.node b ho.used
    cases hp : t.heap b with
    | leaf p =>
      obtain ⟨fuel, rfl⟩ : ∃ n, fuel = n + 1 := ⟨fuel - 1, by omega⟩
      have hround : descendRound cfg t b key = .ok .arrive := by simp only [descendRound, hp]
      refine ⟨t, b, p, ?_, hp, ?_⟩
      · rw [descend_succ, hround]
        rfl
      · simp only [descendTrace, hround]
        exact .done
    | internal p =>
      rw [hp] at hnode
      have hone := hnode.1
      obtain ⟨fuel, rfl⟩ : ∃ n, fuel = n + 2 := ⟨fuel - 2, by omega⟩
      rcases descendRound_cases h.living hc ho hone with ⟨c, hround, hon, hcv⟩ |
        ⟨e, t₁, hround, hke, hr⟩
      · obtain ⟨t', leaf, q, hd, hq, hpass⟩ := ih t g c h ht hon (by omega) (fuel + 1) (by omega)
        refine ⟨t', leaf, q, ?_, hq, ?_⟩
        · rw [descend_succ, hround]
          exact hd
        · simp only [descendTrace, hround]
          exact hpass
      · obtain ⟨g₁, hrep⟩ := hr.repaired h
        obtain ⟨c, hnext, hon, hcv⟩ := Repaired.enters hrep ho hone hke
        have ht₁ : t₁.tracker.isSome = true := hrep.advance.tracked.trans ht
        obtain ⟨t', leaf, q, hd, hq, hpass⟩ := ih t₁ g₁ c hrep.inv ht₁ hon (by omega) fuel
          (by omega)
        refine ⟨t', leaf, q, ?_, hq, ?_⟩
        · rw [descend_succ, hround]
          change descend cfg (fuel + 1) t₁ b key = _
          rw [descend_succ, hnext]
          exact hd
        · simp only [descendTrace, hround, hnext]
          exact .step (Replaced.buries hr h ht) (sound_of_inv hrep.inv ht₁) hpass

/-- The root rewrite in front of a descent. -/
theorem retrieveRoot_buries (h : Inv cfg t g) (hc : Roomy cfg) (ht : t.tracker.isSome = true) :
    ∃ t' g', retrieveRootWriteOlc cfg t = .ok (t', t'.currentRoot.1) ∧ Inv cfg t' g' ∧
      t'.tracker.isSome = true ∧ RootReady cfg (t'.heap t'.currentRoot.1) ∧
      Buries cfg (unsafeDegreeRoot cfg (t.heap t.currentRoot.1) = .activeUnderflow) t t' := by
  cases hdeg : unsafeDegreeRoot cfg (t.heap t.currentRoot.1) with
  | ok =>
    exact ⟨t, g, by simp only [retrieveRootWriteOlc, hdeg], h, ht, rootReady_of_ok h.living hdeg,
      (Quiet.refl t).buries.mono False.elim⟩
  | overflow =>
    obtain ⟨t', news, heq, hr⟩ := retrieveRoot_overflow h hc hdeg
    refine ⟨t', _, heq, Replanted.inv hr h, hr.smo.tracked.trans ht, hr.ready,
      Replanted.buries hr h ht ?_⟩
    exact fun b hb => .inl (List.mem_singleton.mp hb)
  | activeUnderflow =>
    obtain ⟨c, t', news, heq, -, hr⟩ := retrieveRoot_collapse h hc hdeg
    refine ⟨t', _, heq, Replanted.inv hr h, hr.smo.tracked.trans ht, hr.ready,
      Replanted.buries hr h ht ?_⟩
    intro b hb
    rcases List.mem_cons.mp hb with rfl | hb
    · exact .inl rfl
    · exact .inr ⟨rfl, List.mem_singleton.mp hb⟩

theorem traversal_passes (h : Inv cfg t g) (hc : Roomy cfg) (ht : t.tracker.isSome = true)
    (key : K) :
    ∃ t' leaf p, traversalWriteOlc cfg t key = .ok (t', leaf) ∧ t'.heap leaf = .leaf p ∧
      Passes cfg (unsafeDegreeRoot cfg (t.heap t.currentRoot.1) = .activeUnderflow) t
        (traversalTrace cfg t key) t' := by
  obtain ⟨t₁, g₁, hret, hinv, ht₁, hready, hbury⟩ := retrieveRoot_buries h hc ht
  obtain ⟨birth, hlife⟩ := hinv.living.root_life
  have hon : OnPath cfg t₁ g₁ t₁.currentRoot.1 key := by
    refine ⟨hinv.living.root_lt, by rw [hlife], ?_, ?_⟩
    · rw [hlife]
      exact cfg.keys.mem_full key
    · rwa [Safe, if_pos rfl]
  obtain ⟨t', leaf, p, hd, hp, hpass⟩ := descend_passes hc t₁.currentRoot.2 t₁ g₁
    t₁.currentRoot.1 hinv ht₁ hon (by rw [hlife]) (2 * t₁.currentRoot.2) (by omega)
  refine ⟨t', leaf, p, ?_, hp, ?_⟩
  · simp only [traversalWriteOlc, hret, bind, Except.bind, hd]
  · simp only [traversalTrace, hret]
    exact .step hbury (sound_of_inv hinv ht₁) (hpass.mono False.elim)

omit [LinearOrder K] in
theorem asLeafPage_leaf {leaf : ℕ} {p : LeafPage K P} (hp : t.heap leaf = .leaf p) :
    asLeafPage t leaf = .ok p := by
  rw [asLeafPage, hp]

/-- After the traversal only the leaf is written, and no block is taken. -/
theorem dispatchWrite_leaf {op : WriteOperation K P} {t₁ t' : MVBTSt K P} {r : WriteResult}
    {leaf : ℕ} {p : LeafPage K P} (hrun : dispatchWrite cfg t op = .ok (t', r))
    (htr : traversalWriteOlc cfg t (operationKey op) = .ok (t₁, leaf))
    (hp : t₁.heap leaf = .leaf p) : Quiet t₁ t' ∧ t'.nextBlock = t₁.nextBlock := by
  have hpage := asLeafPage_leaf hp
  have hdrawn : t₁.startTxCommit.1.heap leaf = .leaf p := hp
  have hwrite : ∀ p' v, Quiet t₁ ((t₁.startTxCommit.1.setNode leaf (.leaf p')).endTxCommit v) ∧
      ((t₁.startTxCommit.1.setNode leaf (.leaf p')).endTxCommit v).nextBlock = t₁.nextBlock := by
    intro p' v
    have hq : Quiet t₁.startTxCommit.1 (t₁.startTxCommit.1.setNode leaf (.leaf p')) :=
      quiet_setNode hdrawn
    exact ⟨⟨hq.root, hq.grave, hq.directory⟩, rfl⟩
  cases op with
  | insert key payload =>
    simp only [dispatchWrite, dispatchInsert, operationKey] at hrun htr
    simp only [htr, bind, Except.bind, hpage] at hrun
    split_ifs at hrun
    · cases hrun
      exact ⟨.refl t₁, rfl⟩
    · split at hrun
      · cases hrun
      · cases hrun
        exact hwrite _ _
  | update key payload =>
    simp only [dispatchWrite, dispatchUpdate, operationKey] at hrun htr
    simp only [htr, bind, Except.bind, hpage] at hrun
    split at hrun
    · cases hrun
      exact ⟨quiet_setNode hp, rfl⟩
    · split at hrun
      · cases hrun
        exact ⟨.refl t₁, rfl⟩
      · split_ifs at hrun
        · cases hrun
          exact ⟨.refl t₁, rfl⟩
        · split at hrun
          · cases hrun
          · split at hrun
            · cases hrun
              exact hwrite _ _
            · cases hrun
  | delete key =>
    simp only [dispatchWrite, dispatchDelete, operationKey] at hrun htr
    simp only [htr, bind, Except.bind, hpage] at hrun
    split at hrun
    · cases hrun
      exact hwrite _ _
    · cases hrun
      exact ⟨⟨rfl, rfl, fun _ _ => Iff.rfl⟩, rfl⟩
    · cases hrun
      exact ⟨⟨rfl, rfl, fun _ _ => Iff.rfl⟩, rfl⟩

theorem dispatchWrite_quiet {op : WriteOperation K P} {t₁ t' : MVBTSt K P} {r : WriteResult}
    {leaf : ℕ} {p : LeafPage K P} (hrun : dispatchWrite cfg t op = .ok (t', r))
    (htr : traversalWriteOlc cfg t (operationKey op) = .ok (t₁, leaf))
    (hp : t₁.heap leaf = .leaf p) : Quiet t₁ t' :=
  (dispatchWrite_leaf hrun htr hp).1

end Descent

section Runs
variable {cfg : Config K} {t : MVBTSt K P}

/-- One event on a reached state. -/
theorem perform_passes (hc : Roomy cfg) (h : Sound cfg t) (event : Event K P) :
    ∃ t' r, perform cfg t event = .ok (t', r) ∧
      Passes cfg (Collapses cfg t event) t (eventTrace cfg t event ++ [t']) t' := by
  obtain ⟨ht, log, hcarries⟩ := h
  cases event with
  | reader event =>
    refine ⟨event.apply t, none, rfl, .step ((quiet_apply event t).buries) ?_ .done⟩
    obtain ⟨tracker, heq, -, hsome⟩ := apply_eq event t
    refine ⟨?_, log, hcarries.apply event⟩
    rw [heq]
    exact hsome.trans ht
  | write op =>
    obtain ⟨t', r, log', hrun, hcarries', -, -, htrace⟩ := hcarries.write hc op
    have hsound : Sound cfg t' := by
      refine ⟨?_, log', hcarries'⟩
      have hsome := congrArg Option.isSome htrace
      simp only [trace, Option.isSome_map] at hsome
      exact hsome.trans ht
    refine ⟨t', some r, by simp only [perform, hrun, Except.map], ?_⟩
    -- the traversal, then a write to a leaf
    have htraversal : ∃ t₁ leaf p, traversalWriteOlc cfg t (operationKey op) = .ok (t₁, leaf) ∧
        t₁.heap leaf = .leaf p ∧ Passes cfg (Collapses cfg t (.write op)) t
          (traversalTrace cfg t (operationKey op)) t₁ := by
      rcases hcarries with ⟨hfresh, rfl⟩ | ⟨g, hinv, rfl⟩
      · refine ⟨t, 0, Page.new, traversalWrite_fresh hc hfresh _, hfresh.heap, ?_⟩
        have hround : ∀ key, descendRound cfg t 0 key = .ok .arrive := by
          intro key
          simp only [descendRound, hfresh.heap, Node.newLeaf]
        have hroot : t.currentRoot = (0, 1) := by rw [MVBTSt.currentRoot, hfresh.root]; rfl
        simp only [traversalTrace, retrieveRoot_fresh hc hfresh, hroot, descendTrace, hround]
        exact .step ((Quiet.refl t).buries.mono False.elim) ⟨ht, [], .inl ⟨hfresh, rfl⟩⟩ .done
      · exact traversal_passes hinv hc ht _
    obtain ⟨t₁, leaf, p, htr, hp, hpass⟩ := htraversal
    exact hpass.append (.step ((dispatchWrite_quiet hrun htr hp).buries.mono False.elim) hsound
      .done)

/-- Every history passes through its trace; account is kept in all steps unless
some operation collapses the root. -/
theorem run_passes (hc : Roomy cfg) (events : List (Event K P)) :
    ∀ t : MVBTSt K P, Sound cfg t → ∃ t' rs, runEvents cfg t events = .ok (t', rs) ∧
      Passes cfg (¬ NeverCollapses cfg t events) t (runTrace cfg t events) t' := by
  induction events with
  | nil => exact fun t _ => ⟨t, [], rfl, .done⟩
  | cons event events ih =>
    intro t h
    obtain ⟨t₁, r, hperform, hpass⟩ := perform_passes hc h event
    obtain ⟨t', rs, hrun, hrest⟩ := ih t₁ (hpass.sound h)
    refine ⟨t', r :: rs, ?_, ?_⟩
    · simp only [runEvents, hperform, hrun, bind, Except.bind, pure, Except.pure]
    · have hfirst : Passes cfg (¬ NeverCollapses cfg t (event :: events)) t
          (eventTrace cfg t event ++ [t₁]) t₁ :=
        hpass.mono (fun hcol hnever => ((neverCollapses_cons hperform events).mp hnever).1 hcol)
      have hlater : Passes cfg (¬ NeverCollapses cfg t (event :: events)) t₁
          (runTrace cfg t₁ events) t' :=
        hrest.mono (fun hcol hnever => hcol ((neverCollapses_cons hperform events).mp hnever).2)
      have hall := hfirst.append hlater
      simp only [runTrace, hperform]
      simpa using hall

end Runs

/-! ## The account -/

/-- Blocks of the states `us` that dropped out of the tree are buried in the state
`t` after them; if `collapsed`, this may fail for roots. -/
def Account (cfg : Config K) (collapsed : Prop) (us : List (MVBTSt K P)) (t : MVBTSt K P) : Prop :=
  ∀ pre u post, us = pre ++ u :: post → ∀ b, InTree cfg u b → (∀ u' ∈ post, ¬ InTree cfg u' b) →
    ¬ InTree cfg t b → BuriedAt t b u.commit.clock ∨ (collapsed ∧ b = u.currentRoot.1)

/-- What the graveyard has to know in state `t` about the states `us` before:
nothing of the present tree, no block twice, and of a block that was in the tree
the version at which it dropped out, unless the block was handed out again. -/
structure Complete (cfg : Config K) (us : List (MVBTSt K P)) (t : MVBTSt K P) : Prop where
  apart : ∀ b, InTree cfg t b → ∀ w, ¬ BuriedAt t b w
  once : ((graveyard t).map DeadBlock.block).Nodup
  buried : ∀ pre u post, us = pre ++ u :: post → ∀ b, InTree cfg u b →
    (∀ u' ∈ post, ¬ InTree cfg u' b) → ¬ InTree cfg t b → BuriedAt t b u.commit.clock ∨
      ((∃ u' ∈ post, ∃ w, BuriedAt u' b w) ∧ ∀ w, ¬ BuriedAt t b w)

section Account
variable {cfg : Config K} {collapsed : Prop} {us vs : List (MVBTSt K P)} {t t' : MVBTSt K P}

theorem Account.nil : Account cfg collapsed [] t := by
  intro pre u post hsplit
  simp at hsplit

theorem Account.step (h : Account cfg collapsed us t) (hb : Buries cfg collapsed t t') :
    Account cfg collapsed (us ++ [t]) t' := by
  intro pre u post hsplit b hu hpost ht'
  rcases List.eq_nil_or_concat post with rfl | ⟨post, x, rfl⟩
  · -- the block dropped out in this step
    obtain ⟨-, hlast⟩ := List.append_inj' hsplit rfl
    obtain rfl := (List.cons.inj hlast).1
    exact (hb.dropped b hu).resolve_left ht'
  · -- it did so before, and its entry is still there
    rw [List.concat_eq_append] at hsplit hpost
    rw [← List.cons_append, ← List.append_assoc] at hsplit
    obtain ⟨hold, hlast⟩ := List.append_inj' hsplit rfl
    obtain rfl := (List.cons.inj hlast).1
    rcases h pre u post hold b hu (fun u' hu' => hpost u' (List.mem_append_left _ hu'))
      (hpost t (by simp)) with ⟨d, hd, rfl, hw⟩ | hroot
    · exact .inl ⟨d, (hb.kept d hd).resolve_right ht', rfl, hw⟩
    · exact .inr hroot

/-- In every state of a trace account is kept of the states before. -/
theorem Passes.account (h : Passes cfg collapsed t vs t') :
    ∀ us, Account cfg collapsed us t → ∀ pre u post, t :: vs = pre ++ u :: post →
      Account cfg collapsed (us ++ pre) u := by
  induction h with
  | @done t =>
    intro us hacc pre u post hsplit
    obtain ⟨rfl, rfl, -⟩ : pre = [] ∧ u = t ∧ post = [] := by
      cases pre with
      | nil => simpa [eq_comm] using hsplit
      | cons x pre => simp at hsplit
    simpa using hacc
  | @step t v t' vs hb _ _ ih =>
    intro us hacc pre u post hsplit
    cases pre with
    | nil =>
      obtain rfl := (List.cons.inj hsplit).1
      simpa using hacc
    | cons x pre =>
      obtain ⟨rfl, hrest⟩ := List.cons.inj hsplit
      have := ih (us ++ [t]) (hacc.step hb) pre u post hrest
      simpa using this

theorem Passes.sound_mem (h : Passes cfg collapsed t vs t') (ht : Sound cfg t) :
    ∀ u ∈ t :: vs, Sound cfg u := by
  induction h with
  | done => simpa using ht
  | step _ hs _ ih =>
    intro u hu
    rcases List.mem_cons.mp hu with rfl | hu
    · exact ht
    · exact ih hs u hu

theorem sound_apart (h : Sound cfg t) :
    (∀ b, InTree cfg t b → ∀ w, ¬ BuriedAt t b w) ∧
      ((graveyard t).map DeadBlock.block).Nodup := by
  obtain ⟨-, log, ⟨hfresh, -⟩ | ⟨g, hinv, -⟩⟩ := h
  · simp [BuriedAt, hfresh.grave]
  · refine ⟨?_, hinv.living.grave_ok.nodup⟩
    rintro b hb w ⟨d, hd, rfl, -⟩
    exact hinv.living.not_buried (hb.life hinv).2 d hd rfl

theorem Passes.last (h : Passes cfg collapsed t vs t') : (t :: vs).getLast? = some t' := by
  induction h with
  | done => rfl
  | step _ _ _ ih => rwa [List.getLast?_cons_cons]

/-- A shorter past asks for less. -/
theorem Complete.drop (h : Complete cfg (us ++ vs) t) : Complete cfg vs t :=
  ⟨h.apart, h.once, fun pre u post hsplit =>
    h.buried (us ++ pre) u post (by rw [hsplit, List.append_assoc])⟩

end Account

/-- A collapse loses the old root. -/
theorem collapse_loses {cfg : Config K} (hc : Roomy cfg) {t : MVBTSt K P} (h : Sound cfg t)
    (hdeg : unsafeDegreeRoot cfg (t.heap t.currentRoot.1) = .activeUnderflow) :
    ∃ t₁ root, retrieveRootWriteOlc cfg t = .ok (t₁, root) ∧
      ¬ InTree cfg t₁ t.currentRoot.1 ∧ ∀ w, ¬ BuriedAt t₁ t.currentRoot.1 w := by
  obtain ⟨-, log, ⟨hfresh, -⟩ | ⟨g, hinv, -⟩⟩ := h
  · have hroot : t.currentRoot = (0, 1) := by rw [MVBTSt.currentRoot, hfresh.root]; rfl
    have hleaf : (t.heap t.currentRoot.1).isLeaf = false := by
      simp only [unsafeDegreeRoot] at hdeg
      split_ifs at hdeg with h₁
      exact h₁.2
    rw [hroot, hfresh.heap] at hleaf
    cases hleaf
  · obtain ⟨c, t₁, news, heq, hne, hr⟩ := retrieveRoot_collapse hinv hc hdeg
    exact ⟨t₁, _, heq, Replanted.loses hr hinv (by simp) (Ne.symm hne)⟩

/-- A history whose states are all complete never collapses a root. -/
theorem neverCollapses_of_complete {cfg : Config K} (hc : Roomy cfg) (events : List (Event K P)) :
    ∀ t : MVBTSt K P, Sound cfg t →
      (∀ pre u post, t :: runTrace cfg t events = pre ++ u :: post → Complete cfg pre u) →
      NeverCollapses cfg t events := by
  induction events with
  | nil => exact fun _ _ _ => trivial
  | cons event events ih =>
    intro t h hcomplete
    obtain ⟨t', r, hperform, hpass⟩ := perform_passes hc h event
    simp only [runTrace, hperform] at hcomplete
    refine (neverCollapses_cons hperform events).mpr ⟨?_, ih t' (hpass.sound h) ?_⟩
    · intro hcol
      cases event with
      | reader event => exact hcol
      | write op =>
        obtain ⟨t₁, root, hret, hout, hlost⟩ := collapse_loses hc h hcol
        have hfirst := hcomplete [t] t₁ _ (by simp only [eventTrace, traversalTrace, hret]; rfl)
        rcases hfirst.buried [] t [] rfl _ (root_inTree cfg t) (by simp) hout with hb | ⟨hb, -⟩
        · exact hlost _ hb
        · simp at hb
    · intro pre u post hsplit
      have := hcomplete (t :: eventTrace cfg t event ++ pre) u post (by
        rw [List.append_assoc, ← hsplit]
        simp)
      exact this.drop

/-! ## How a root is left with one child -/

section LastChild
variable {cfg : Config K} {t t' : MVBTSt K P} {g : Ghost K P}

/-- Two pages that fit on one are put on one. -/
theorem mergePages_small {α : Type} [PageUnit K α] {kind : PageKind K P α} {simba : ℕ}
    {fence : Interval K} {candidate : ℕ × ℕ × Interval K} {res : MergeResult K}
    (hsum : (t.heap candidate.2.1).activeDeadCount.1 + (t.heap simba).activeDeadCount.1 ≤
      4 * maxUnits cfg (t.heap simba) / 5)
    (hrun : mergePages cfg kind t simba fence candidate = .ok (t', res)) :
    (mergeFences fence res).length = 1 := by
  simp only [mergePages, if_pos hsum, bind, Except.bind, pure, Except.pure] at hrun
  split at hrun
  · cases hrun
  · split at hrun
    · cases hrun
    · split at hrun
      · cases hrun
      · cases hrun
        rfl

theorem merge_small {mufasa simba i : ℕ} {p : InternalPage K} {e : Entry K}
    {candidate : ℕ × ℕ × Interval K} {res : MergeResult K} (hp : t.heap mufasa = .internal p)
    (he : p.units[i]? = some e)
    (hcand : computeCandidate (mergeCandidates p i) e.fence.lower = some candidate)
    (hsum : (t.heap candidate.2.1).activeDeadCount.1 + (t.heap simba).activeDeadCount.1 ≤
      4 * maxUnits cfg (t.heap simba) / 5)
    (hrun : merge cfg t mufasa simba i = .ok (t', res)) :
    (mergeFences e.fence res).length = 1 := by
  simp only [merge, MVBTSt.asInternalPage, hp, bind, Except.bind, he, hcand] at hrun
  split_ifs at hrun
  · exact mergePages_small hsum hrun
  · exact mergePages_small hsum hrun

/-- A write below a root with two leaves that merges them leaves a root with a single
active entry behind. -/
theorem dispatchWrite_lastChild (h : Inv cfg t g) (hc : Roomy cfg)
    (hdeg : unsafeDegreeRoot cfg (t.heap t.currentRoot.1) = .ok) (hheight : t.currentRoot.2 = 2)
    {p : InternalPage K} (hp : t.heap t.currentRoot.1 = .internal p)
    (htwo : p.activeDeadCount.1 = 2) {op : WriteOperation K P} {i : ℕ} {e : Entry K}
    (hi : activeIndex p (operationKey op) = some i) (he : p.units[i]? = some e)
    (hunder : unsafeDegree cfg (t.heap e.pointer) = .activeUnderflow)
    {candidate : ℕ × ℕ × Interval K}
    (hcand : computeCandidate (mergeCandidates p i) e.fence.lower = some candidate)
    (hsum : (t.heap candidate.2.1).activeDeadCount.1 + (t.heap e.pointer).activeDeadCount.1 ≤
      4 * maxUnits cfg (t.heap e.pointer) / 5)
    {r : WriteResult} (hrun : dispatchWrite cfg t op = .ok (t', r)) :
    unsafeDegreeRoot cfg (t'.heap t'.currentRoot.1) = .activeUnderflow := by
  obtain ⟨birth, hlife⟩ := h.living.root_life
  have hlevel : (g.life t.currentRoot.1).level = 2 := by rw [hlife]; exact hheight
  have hon : OnPath cfg t g t.currentRoot.1 (operationKey op) := by
    refine ⟨h.living.root_lt, by rw [hlife], ?_, ?_⟩
    · rw [hlife]
      exact cfg.keys.mem_full _
    · rw [Safe, if_pos rfl]
      exact rootReady_of_ok h.living hdeg
  obtain ⟨i', e', hi', hx, hke⟩ := activeIndex_child h.living hon.used hon.alive hon.key_mem hp
  rw [hi] at hi'
  cases hi'
  have hentry := hx.entry
  rw [he] at hentry
  cases hentry
  have hready := hon.ready h.living hc hp
  obtain ⟨t₂, t₁, res, j, s, hmerge, hrepair, hswap, hok⟩ :=
    onUnderflowNode_swap h.living hc hx hunder hready
  have hone := merge_small hp he hcand hsum hmerge
  have hactive : (p.units.filter PageUnit.isActive).length = 2 := by
    rw [← List.countP_eq_length_filter, ← (hx.dir h.living).counted.active]
    exact htwo
  have hcount := hswap.activeDeadCount_page h.living
  rw [hone, hactive] at hcount
  -- the repair, and one more level to the leaf
  have hround : descendRound cfg t t.currentRoot.1 (operationKey op) = .ok (.repair t₂) := by
    simp only [descendRound, hp, hi, getPointer, MVBTSt.asInternalPage, bind, Except.bind, he,
      pure, Except.pure, hunder, hrepair]
  obtain ⟨g₂, hrep⟩ :=
    Replaced.repaired (e := e) ⟨t₁, p, _, _, _, _, hswap, by simp, hok⟩ h
  obtain ⟨b, hnext, honb, hb⟩ := Repaired.enters hrep hon (by omega) hke
  have hleaf := (hrep.inv.living.isLeaf_iff honb.used).mpr (by omega)
  cases hq : t₂.heap b with
  | internal q => simp [hq, Node.isLeaf] at hleaf
  | leaf q =>
    have harrive : descendRound cfg t₂ b (operationKey op) = .ok .arrive := by
      simp only [descendRound, hq]
    have htr : traversalWriteOlc cfg t (operationKey op) = .ok (t₂, b) := by
      simp only [traversalWriteOlc, retrieveRootWriteOlc, hdeg, bind, Except.bind, hheight]
      rw [descend_succ, hround]
      change descend cfg 3 t₂ t.currentRoot.1 (operationKey op) = _
      rw [descend_succ, hnext]
      change descend cfg 2 t₂ b (operationKey op) = _
      rw [descend_succ, harrive]
      rfl
    have hquiet := dispatchWrite_quiet hrun htr hq
    have hroot : t'.currentRoot = t.currentRoot := by
      rw [MVBTSt.currentRoot, hquiet.root, hswap.root]
      rfl
    have hheap := (hquiet.directory _ _).mpr (hswap.smo.heap_par _ rfl)
    rw [hroot, hheap]
    simp only [unsafeDegreeRoot, Node.activeDeadCount, Node.isLeaf]
    exact if_pos ⟨Nat.succ.inj (Nat.succ.inj hcount), trivial⟩

end LastChild

theorem enableGc_sound (cfg : Config K) (tosses : ℕ → Toss) (threads tid : ℕ) (inPlace : Bool) :
    Sound cfg (enableGc (make tosses threads tid : MVBTSt K P) inPlace) :=
  ⟨rfl, [], .inl ⟨enableGc_fresh (make_fresh tosses threads tid) inPlace, rfl⟩⟩

/-- In every state of every history of a tree with tracker the graveyard holds no
block of the tree and no block twice, and only roots can be missing from it. -/
theorem graveyard_sound {cfg : Config K} (hc : Roomy cfg) (tosses : ℕ → Toss) (threads tid : ℕ)
    (inPlace : Bool) (events : List (Event K P)) (pre : List (MVBTSt K P)) (u : MVBTSt K P)
    (post : List (MVBTSt K P))
    (hsplit : enableGc (make tosses threads tid) inPlace ::
      runTrace cfg (enableGc (make tosses threads tid) inPlace) events = pre ++ u :: post) :
    (∀ b, InTree cfg u b → ∀ w, ¬ BuriedAt u b w) ∧
      ((graveyard u).map DeadBlock.block).Nodup ∧ Account cfg True pre u := by
  have hstart := enableGc_sound (P := P) cfg tosses threads tid inPlace
  obtain ⟨t', rs, -, hpass⟩ := run_passes hc events _ hstart
  obtain ⟨hapart, honce⟩ := sound_apart (hpass.sound_mem hstart u (by rw [hsplit]; simp))
  refine ⟨hapart, honce, ?_⟩
  simpa using (hpass.mono (fun _ => trivial)).account [] .nil pre u post hsplit

/-- The graveyard is complete in every state of a history if and only if no
operation of the history starts at a directory root with a single active entry. -/
theorem graveyard_complete_iff {cfg : Config K} (hc : Roomy cfg) (tosses : ℕ → Toss)
    (threads tid : ℕ) (inPlace : Bool) (events : List (Event K P)) :
    ∃ t rs, runEvents cfg (enableGc (make tosses threads tid) inPlace) events = .ok (t, rs) ∧
      (enableGc (make tosses threads tid) inPlace ::
        runTrace cfg (enableGc (make tosses threads tid) inPlace) events).getLast? = some t ∧
      ((∀ pre u post, enableGc (make tosses threads tid) inPlace ::
          runTrace cfg (enableGc (make tosses threads tid) inPlace) events = pre ++ u :: post →
          Complete cfg pre u) ↔
        NeverCollapses cfg (enableGc (make tosses threads tid) inPlace) events) := by
  have hstart := enableGc_sound (P := P) cfg tosses threads tid inPlace
  obtain ⟨t, rs, hrun, hpass⟩ := run_passes hc events _ hstart
  refine ⟨t, rs, hrun, hpass.last, neverCollapses_of_complete hc events _ hstart, ?_⟩
  intro hnever pre u post hsplit
  obtain ⟨hapart, honce⟩ := sound_apart (hpass.sound_mem hstart u (by rw [hsplit]; simp))
  have hacc := hpass.account [] .nil pre u post hsplit
  refine ⟨hapart, honce, fun pre' u' post' hsplit' b hb hpost hu => .inl ?_⟩
  rcases hacc pre' u' post' (by simpa using hsplit') b hb hpost hu with hburied | ⟨hcol, -⟩
  · exact hburied
  · exact absurd hnever hcol

/-- At capacity 10 the insert of 11 splits the root leaf and the insert of 16 the right
one of the two leaves. -/
def splitTwice : List (Event UInt64 ℕ) :=
  (List.range 16).map (fun i => .write (.insert (UInt64.ofNat (i + 1)) i))

/-- The second split reuses the block of the first root and leaves its own leaf in the
graveyard. -/
theorem graveyard_complete_split_twice :
    ∃ t rs, runEvents ⟨10, 10, u64Space⟩ (enableGc (make (fun _ => .next) 1 0) false)
        splitTwice = .ok (t, rs) ∧ t.nextBlock = 5 ∧
      (graveyard t).map (fun d => (d.block, d.deathVersion)) = [(2, 17)] ∧
      ∀ pre u post, enableGc (make (fun _ => .next) 1 0) false ::
          runTrace ⟨10, 10, u64Space⟩ (enableGc (make (fun _ => .next) 1 0) false) splitTwice =
          pre ++ u :: post → Complete ⟨10, 10, u64Space⟩ pre u := by
  obtain ⟨t, rs, hrun, -, h⟩ := graveyard_complete_iff (roomy_ten u64Space)
    (fun _ => .next) 1 0 false splitTwice
  have hburied : (runEvents ⟨10, 10, u64Space⟩ (enableGc (make (fun _ => .next) 1 0) false)
      splitTwice).map (fun x => (x.1.nextBlock,
        (graveyard x.1).map (fun d => (d.block, d.deathVersion)))) = .ok (5, [(2, 17)]) := by
    decide +kernel
  rw [hrun] at hburied
  simp only [Except.map, Except.ok.injEq, Prod.mk.injEq] at hburied
  exact ⟨t, rs, hrun, hburied.1, hburied.2, h.mpr (by decide +kernel)⟩

/-- The keys 1 to 126 fill two leaves; afterwards the first 37 are deleted. -/
def twoLeaves : List (Event UInt64 ℕ) :=
  (List.range 126).map (fun i => .write (.insert (UInt64.ofNat (i + 1)) i)) ++
    (List.range 37).map (fun i => .write (.delete (UInt64.ofNat (i + 1))))

/-- The delete of 38 merges the two leaves and leaves the root with a single active
entry, the delete of 39 replaces the root: its block is out of the tree and not in
the graveyard. -/
theorem collapsed_root_lost :
    ¬ ∀ pre u post, enableGc (make (fun _ => .next) 1 0) false ::
        runTrace ⟨125, 125, u64Space⟩ (enableGc (make (fun _ => .next) 1 0) false)
          (twoLeaves ++ [.write (.delete 38), .write (.delete 39)]) = pre ++ u :: post →
        Complete ⟨125, 125, u64Space⟩ pre u := by
  intro hcomplete
  have hc := roomy_of_capacity (.inl rfl) u64Space
  have hstart := enableGc_sound (P := ℕ) ⟨125, 125, u64Space⟩ (fun _ => .next) 1 0 false
  have hnever := neverCollapses_of_complete hc _ _ hstart hcomplete
  obtain ⟨t, rs, hrun, hpass⟩ := run_passes hc twoLeaves _ hstart
  have hrest := neverCollapses_append hrun hnever
  -- the directory over the two leaves, whose live records fit into one
  have hstate : (runEvents ⟨125, 125, u64Space⟩ (enableGc (make (fun _ => .next) 1 0) false)
      twoLeaves).map (fun x => (x.1.currentRoot, x.1.heap 3,
        unsafeDegree ⟨125, 125, u64Space⟩ (x.1.heap 1),
        decide ((x.1.heap 2).activeDeadCount.1 + (x.1.heap 1).activeDeadCount.1 ≤
          4 * maxUnits ⟨125, 125, u64Space⟩ (x.1.heap 1) / 5))) =
      .ok ((3, 2), .internal ⟨131072, [⟨⟨0, 62⟩, 126, false, 1⟩,
        ⟨⟨63, 18446744073709551615⟩, 126, false, 2⟩]⟩, .activeUnderflow, true) := by
    decide +kernel
  rw [hrun] at hstate
  simp only [Except.map, Except.ok.injEq, Prod.mk.injEq, decide_eq_true_eq] at hstate
  obtain ⟨hroot, hdir, hunder, hsum⟩ := hstate
  obtain ⟨-, log, ⟨hfresh, -⟩ | ⟨g, hinv, -⟩⟩ := hpass.sound hstart
  · rw [MVBTSt.currentRoot, hfresh.root] at hroot
    cases hroot
  obtain ⟨t', r, g', hwrite, hd⟩ := dispatchWrite_dispatched hinv hc (.delete 38)
  have hperform : perform ⟨125, 125, u64Space⟩ t (.write (.delete 38)) = .ok (t', some r) := by
    simp only [perform, hwrite, Except.map]
  have hlast := ((neverCollapses_cons hperform _).mp hrest).2.1
  refine hlast (dispatchWrite_lastChild hinv hc (i := 0) ?_ (by rw [hroot])
    (by rw [hroot]; exact hdir) (by decide) (by decide) rfl hunder rfl hsum hwrite)
  rw [hroot, hdir]
  decide

end CMVBT.Graveyard
