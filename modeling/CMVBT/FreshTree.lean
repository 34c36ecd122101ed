import CMVBT.WriteOperations

/-!
# From a new tree on

The first version that a tree draws equals the version of its initial root, so
the invariant, which wants every root to be older than the clock, starts to hold
with the first operation that draws a version. Until then the tree is one empty
leaf.
-/
namespace CMVBT.FreshTree
open KeyInterval LastMatch FenceTiling VersionedLog PageModel FrugalList CommitClock Tracker
open CMVBT.Tree
open BlockSupply WritePath ReadPath LeafHistory TreeInvariant NewPages LeafWrite
open Reference WriteOperations

variable {K P : Type} [LinearOrder K]

/-- A tree that has not drawn a version yet. -/
structure Fresh (t : MVBTSt K P) : Prop where
  heap : t.heap 0 = Node.newLeaf
  next : t.nextBlock = 1
  root : t.root = FrugalList.new (0, 1) startVersion
  clock : t.commit.clock = startVersion
  grave : graveyard t = []
  watermark : startVersion ≤ t.commit.globalMin

omit [LinearOrder K] in
theorem make_fresh (tosses : ℕ → Toss) (threads tid : ℕ) :
    Fresh (make tosses threads tid : MVBTSt K P) := ⟨rfl, rfl, rfl, rfl, rfl, le_rfl⟩

omit [LinearOrder K] in
theorem enableGc_fresh {t : MVBTSt K P} (h : Fresh t) (updateInPlace : Bool) :
    Fresh (enableGc t updateInPlace) :=
  ⟨h.heap, h.next, h.root, h.clock, rfl, h.watermark⟩

/-- A new tree, with or without garbage collection. -/
def newTree (gc : Bool) (tosses : ℕ → Toss) (threads tid : ℕ) : MVBTSt K P :=
  if gc then enableGc (make tosses threads tid) false else make tosses threads tid

omit [LinearOrder K] in
theorem newTree_fresh (gc : Bool) (tosses : ℕ → Toss) (threads tid : ℕ) :
    Fresh (newTree gc tosses threads tid : MVBTSt K P) := by
  cases gc
  · exact make_fresh tosses threads tid
  · exact enableGc_fresh (make_fresh tosses threads tid) false

omit [LinearOrder K] in
theorem newTree_in_place (gc : Bool) (tosses : ℕ → Toss) (threads tid : ℕ) :
    (newTree gc tosses threads tid : MVBTSt K P).updateInPlace = false := by
  cases gc <;> rfl

/-! ## The tree of one leaf -/

/-- The life of the initial root. -/
def firstLife (cfg : Config K) : Life K := ⟨cfg.keys.full, 1, startVersion, none⟩

def firstGhost (cfg : Config K) (log : Log K P) : Ghost K P :=
  ⟨fun _ => firstLife cfg, [((0, 1), startVersion)], log⟩

/-- A tree that still has its initial root only. -/
structure Single (cfg : Config K) (t : MVBTSt K P) (log : Log K P) (p : LeafPage K P) : Prop where
  heap : t.heap 0 = .leaf p
  next : t.nextBlock = 1
  root : t.root = FrugalList.new (0, 1) startVersion
  clock : t.commit.clock = startVersion + 1
  grave : graveyard t = []
  watermark : startVersion ≤ t.commit.globalMin
  logged : Before log (startVersion + 1)
  leaf : LeafInv cfg.numRecords (startVersion + 1) log (firstLife cfg) p

section Single
variable {cfg : Config K} {t : MVBTSt K P} {log : Log K P} {p : LeafPage K P}

theorem Single.living (h : Single cfg t log p) : Living cfg t (firstGhost cfg log) := by
  have hroot : t.currentRoot = (0, 1) := by rw [MVBTSt.currentRoot, h.root]; rfl
  have hzero : ∀ b < t.nextBlock, b = 0 := by
    intro b hb
    rw [h.next] at hb
    omega
  refine
    { logged := by rw [h.clock]; exact h.logged
      born := ?_
      node := ?_
      disjoint := fun a ha b hb _ _ _ hne => absurd ((hzero a ha).trans (hzero b hb).symm) hne
      filled := fun b hb _ hne => absurd ((hzero b hb).trans (by rw [hroot])) hne
      root_lt := by rw [hroot, h.next]; exact Nat.one_pos
      root_life := ⟨startVersion, by rw [hroot]; rfl⟩
      root_child := by
        rw [hroot, h.heap]
        intro hleaf
        cases hleaf
      level_le := fun b hb _ => by rw [hroot]; exact le_rfl
      grave := by rw [h.grave]; simp
      grave_ok := ⟨by rw [h.grave]; simp, by rw [h.grave]; simp⟩ }
  · intro b _
    refine ⟨cfg.keys.full_proper, ?_, fun d hd => by cases hd⟩
    rw [h.clock]
    exact Nat.lt_succ_self _
  · intro b hb
    rw [hzero b hb, h.heap, h.clock]
    exact ⟨rfl, h.leaf⟩

theorem Single.timeline (h : Single cfg t log p) : Timeline cfg t (firstGhost cfg log) := by
  have hmem : ∀ x ∈ (firstGhost cfg log).roots, x = ((0, 1), startVersion) :=
    fun x hx => List.mem_singleton.mp hx
  have hnone : ∀ b < t.nextBlock, ∀ q, t.heap b ≠ .internal q := by
    intro b hb q hq
    rw [h.next] at hb
    obtain rfl : b = 0 := by omega
    rw [h.heap] at hq
    cases hq
  refine
    { chain := by rw [h.root]; exact .sentinel _ _
      roots_lt := ?_
      roots_start := ⟨_, List.mem_singleton_self _, le_rfl⟩
      roots_ge := fun x hx => by rw [hmem x hx]
      root_birth := by rw [h.root]; rfl
      roots_until := ?_
      routes := fun b hb q hq => absurd hq (hnone b hb q)
      succession := fun _ _ _ _ _ _ _ _ _ d hd => by cases hd
      roots_life := ?_
      links := fun _ b hb q hq => absurd hq (hnone b hb q)
      retained := ?_
      watermark := h.watermark }
  · intro x hx
    rw [hmem x hx, h.clock]
    exact Nat.lt_succ_self _
  · intro v x hx
    rw [hmem x (List.mem_of_find?_eq_some hx), h.next]
    exact ⟨Nat.one_pos, .of_alive rfl v⟩
  · intro _ x hx
    rw [hmem x hx, h.next]
    exact ⟨Nat.one_pos, rfl, rfl, rfl⟩
  · intro v hv _
    have hroots : (firstGhost cfg log).roots = (t.currentRoot, startVersion) :: [] := by
      rw [MVBTSt.currentRoot, h.root]
      rfl
    refine h.living.readable ?_ hroots (by rw [h.clock]; exact Nat.succ_le_succ hv)
    intro x hx
    rw [hmem x hx, h.clock]
    exact Nat.lt_succ_self _

theorem Single.inv (h : Single cfg t log p) : Inv cfg t (firstGhost cfg log) :=
  ⟨h.living, h.timeline⟩

theorem leafInv_new (hc : Roomy cfg) (clock : ℕ) :
    LeafInv cfg.numRecords clock [] (firstLife cfg) (Page.new : LeafPage K P) where
  counted := Page.new_counted hc.numRecords_lt
  stamps := by simp [Page.new]
  shows := fun v _ _ => by
    refine ⟨by simp [Page.new], by simp [Page.new], by simp [Page.new], by simp [Page.new], ?_⟩
    intro k _ hk
    simp [liveAt] at hk
  ordered := List.Pairwise.nil
  sorted := List.Pairwise.nil
  known := nofun

end Single

/-! ## The first operation -/

section First
variable {cfg : Config K} {t : MVBTSt K P}

theorem degreeRoot_fresh (hc : Roomy cfg) (h : Fresh t) :
    unsafeDegreeRoot cfg (t.heap t.currentRoot.1) = .ok := by
  have hroot : t.currentRoot = (0, 1) := by rw [MVBTSt.currentRoot, h.root]; rfl
  have hcap : 10 ≤ cfg.numRecords := hc.numRecords_ge
  have hcount : (Node.newLeaf : Node K P).activeDeadCount = (0, 0) := by
    simp [Node.activeDeadCount, Node.newLeaf, Page.activeDeadCount, Page.new, activeLen, deadLen]
  simp only [hroot, h.heap, unsafeDegreeRoot, hcount]
  rw [if_neg (by simp), if_neg]
  simp only [overflowUnitsCount, Node.isLeaf, Node.newLeaf, if_true]
  omega

theorem retrieveRoot_fresh (hc : Roomy cfg) (h : Fresh t) :
    retrieveRootWriteOlc cfg t = .ok (t, 0) := by
  have hroot : t.currentRoot.1 = 0 := by rw [MVBTSt.currentRoot, h.root]; rfl
  simp only [retrieveRootWriteOlc, degreeRoot_fresh hc h]
  rw [hroot]

theorem traversalWrite_fresh (hc : Roomy cfg) (h : Fresh t) (key : K) :
    traversalWriteOlc cfg t key = .ok (t, 0) := by
  have hroot : t.currentRoot = (0, 1) := by rw [MVBTSt.currentRoot, h.root]; rfl
  simp only [traversalWriteOlc, retrieveRoot_fresh hc h, bind, Except.bind, hroot]
  rw [descend, h.heap]
  rfl

omit [LinearOrder K] in
theorem asLeafPage_fresh (h : Fresh t) : asLeafPage t 0 = .ok Page.new := by
  rw [asLeafPage, h.heap]
  rfl

omit [LinearOrder K] in
theorem asUnits_new : (Page.new : LeafPage K P).asUnits = [] := List.take_nil

theorem lastRecord_new (key : K) : lastRecord (Page.new : LeafPage K P) key = none := by
  rw [lastRecord, asUnits_new]
  rfl

theorem inPlaceTarget_new (t : MVBTSt K P) (key : K) :
    inPlaceTarget t (Page.new : LeafPage K P) key = none := by
  cases ht : t.tracker with
  | none => simp [inPlaceTarget, ht]
  | some tracker => simp [inPlaceTarget, ht, asUnits_new, lastIdx?]

/-- A version drawn on the empty leaf. -/
theorem Fresh.burn (hc : Roomy cfg) (h : Fresh t) :
    Single cfg t.startTxCommit.1 [] (Page.new : LeafPage K P) where
  heap := h.heap
  next := h.next
  root := h.root
  clock := congrArg (· + 1) h.clock
  grave := h.grave
  watermark := h.watermark
  logged := fun s hs => absurd hs (by simp)
  leaf := leafInv_new hc _

/-- The leaf with the first record of a tree. -/
def firstPage (key : K) (payload : P) : LeafPage K P :=
  ⟨commitLen 0 1 0, [pushed key startVersion payload]⟩

theorem Fresh.insert (hc : Roomy cfg) (h : Fresh t) (key : K) (payload : P) :
    Single cfg (written t 0 (firstPage key payload)) [⟨startVersion, key, some payload⟩]
      (firstPage key payload) where
  heap := by simp [written, MVBTSt.endTxCommit, MVBTSt.setNode]
  next := h.next
  root := h.root
  clock := congrArg (· + 1) h.clock
  grave := h.grave
  watermark := h.watermark
  logged := Before.cons (fun s hs => absurd hs (by simp)) key (some payload)
  leaf := leafInv_push (leafInv_new hc startVersion)
    (by have := hc.numRecords_ge; simp only [Page.new, List.length_nil]; omega)
    (cfg.keys.mem_full key) le_rfl rfl (fun v _ => rfl) payload

/-- What one operation does to a tree that has drawn no version. -/
theorem dispatchWrite_fresh (hc : Roomy cfg) (h : Fresh t) (op : WriteOperation K P) :
    ∃ t' r log, dispatchWrite cfg t op = .ok (t', r) ∧ Answers [] op r log ∧
      t'.tracker = t.tracker ∧ t'.updateInPlace = t.updateInPlace ∧
      ((Fresh t' ∧ log = []) ∨ ∃ g, Inv cfg t' g ∧ g.log = log) := by
  have htr := traversalWrite_fresh hc h
  have hleaf := asLeafPage_fresh h
  cases op with
  | insert key payload =>
    have hpush : (Page.new : LeafPage K P).pushUncommitted cfg.numRecords
        (pushed key startVersion payload) (Page.sumLen (Page.new : LeafPage K P)) =
        .ok ⟨0, [pushed key startVersion payload]⟩ := by
      refine (Page.new_counted hc.numRecords_lt).pushUncommitted ?_ _
      have := hc.numRecords_ge
      simp only [Page.new, List.length_nil]
      omega
    have hversion : t.startTxCommit.2 = startVersion := h.clock
    refine ⟨written t 0 (firstPage key payload), .inserted startVersion, _, ?_,
      .inserted rfl (fun s hs => absurd hs (by simp)), rfl, rfl,
      .inr ⟨_, (h.insert hc key payload).inv, rfl⟩⟩
    simp only [dispatchWrite, dispatchInsert, htr key, bind, Except.bind, hleaf, lastRecord_new,
      Option.map_none, Option.getD_none, Bool.false_eq_true, if_false, hversion]
    rw [show (⟨key, .new startVersion, payload⟩ : RecordPoint K P) =
      pushed key startVersion payload from rfl, hpush]
    simp only [written, h.clock]
    rfl
  | update key payload =>
    refine ⟨t, .zeroAffected .keyDoesNotExist, [], ?_, .notUpdated rfl (.inl rfl), rfl, rfl,
      .inl ⟨h, rfl⟩⟩
    simp only [dispatchWrite, dispatchUpdate, htr key, bind, Except.bind, hleaf,
      inPlaceTarget_new, lastRecord_new, pure, Except.pure]
  | delete key =>
    have hdel : LeafPage.delete (Page.new : LeafPage K P) key t.startTxCommit.2 =
        (Page.new, .ok none) := by
      rw [LeafPage.delete, asUnits_new]
      rfl
    refine ⟨t.startTxCommit.1, .zeroAffected .keyDoesNotExist, [], ?_, .notDeleted rfl (.inl rfl),
      rfl, rfl, .inr ⟨_, (h.burn hc).inv, rfl⟩⟩
    simp only [dispatchWrite, dispatchDelete, htr key, bind, Except.bind, hleaf, hdel, pure,
      Except.pure]

/-- Every history of a new tree with plain updates returns, follows the reference and ends in a tree
that either has drawn no version yet or satisfies the invariant. -/
theorem runWrites_reached (hc : Roomy cfg) (ops : List (WriteOperation K P)) :
    ∀ t : MVBTSt K P, Fresh t → t.updateInPlace = false →
      ∃ t' rs log, runWrites cfg t ops = .ok (t', rs) ∧
      Replay [] ops rs log ∧ t'.tracker.isSome = t.tracker.isSome ∧ t'.updateInPlace = false ∧
      ((Fresh t' ∧ log = []) ∨ ∃ g, Inv cfg t' g ∧ g.log = log) := by
  induction ops with
  | nil =>
    intro t h hflag
    exact ⟨t, [], [], rfl, .nil, rfl, hflag, .inl ⟨h, rfl⟩⟩
  | cons op ops ih =>
    intro t h hflag
    obtain ⟨t₁, r, log₁, heq, hans, htr, hflag₁, hcases⟩ := dispatchWrite_fresh hc h op
    rw [hflag] at hflag₁
    have hcons : ∀ t' rs, runWrites cfg t₁ ops = .ok (t', rs) →
        runWrites cfg t (op :: ops) = .ok (t', r :: rs) := by
      intro t' rs hrun
      simp only [runWrites, heq, hrun, bind, Except.bind, pure, Except.pure]
    rcases hcases with ⟨hfresh, rfl⟩ | ⟨g, hinv, rfl⟩
    · obtain ⟨t', rs, log, hrun, hreplay, htr', hflag', hend⟩ := ih t₁ hfresh hflag₁
      exact ⟨t', r :: rs, log, hcons t' rs hrun, .cons hans hreplay, htr'.trans (by rw [htr]),
        hflag', hend⟩
    · obtain ⟨t', rs, g', hrun, hinv', hint, hreplay⟩ := runWrites_performed hc ops t₁ g hinv hflag₁
      exact ⟨t', r :: rs, g'.log, hcons t' rs hrun, .cons hans hreplay,
        hint.tracked.trans (by rw [htr]), hint.in_place.trans hflag₁, .inr ⟨g', hinv', rfl⟩⟩

end First

end CMVBT.FreshTree
