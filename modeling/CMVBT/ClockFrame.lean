import CMVBT.Coupling
import CMVBT.RandomOperations

/-!
# What an operation takes from the clock

Two trees that agree in everything but their commit states run an operation
alike, as long as the operation cannot tell the commit states apart. It looks at
the clock itself, the collector looks at the watermark when it is asked for a
block, and the in-place arm of `UpdateRand` draws a reader's snapshot.
-/
namespace CMVBT.ClockFrame
open KeyInterval LastMatch PageModel CommitClock Tracker CMVBT.Tree WritePath ReadPath
open RandomOperations
open Coupling ReaderHistory

variable {K P : Type}

/-- The same tree, whatever the clock says. -/
structure SameTree (t t' : MVBTSt K P) : Prop where
  heap : t'.heap = t.heap
  nextBlock : t'.nextBlock = t.nextBlock
  root : t'.root = t.root
  tosses : t'.tosses = t.tosses
  tid : t'.tid = t.tid
  tracker : t'.tracker = t.tracker
  updateInPlace : t'.updateInPlace = t.updateInPlace

theorem SameTree.trans {t t' t'' : MVBTSt K P} (h : SameTree t t') (h' : SameTree t' t'') :
    SameTree t t'' :=
  ⟨h'.heap.trans h.heap, h'.nextBlock.trans h.nextBlock, h'.root.trans h.root,
    h'.tosses.trans h.tosses, h'.tid.trans h.tid, h'.tracker.trans h.tracker,
    h'.updateInPlace.trans h.updateInPlace⟩

theorem SameTree.asInternalPage {t t' : MVBTSt K P} (h : SameTree t t') (b : ℕ) :
    t'.asInternalPage b = t.asInternalPage b := by
  simp only [MVBTSt.asInternalPage, h.heap]

/-- Commit states that the thread `tid` cannot tell apart: by the clock, by the
watermark if `watched`, by its next reader snapshot if `read`. -/
structure Indistinct (tid : ℕ) (watched read : Prop) (C : CommitState → CommitState → Prop) :
    Prop where
  clock : ∀ {c c'}, C c c' → c'.clock = c.clock
  start : ∀ {c c'}, C c c' → C (c.startCommit tid).1 (c'.startCommit tid).1
  finish : ∀ {c c' d d'}, C c c' → C d d' →
    C (d.endCommit tid c.clock) (d'.endCommit tid c.clock)
  collect : watched → ∀ {c c'}, C c c' →
    C (c.committedSnapshot versionMax).1 (c'.committedSnapshot versionMax).1 ∧
      (c'.committedSnapshot versionMax).2 = (c.committedSnapshot versionMax).2
  reader : watched → read → ∀ {c c'}, C c c' →
    (c'.currentVersionForReader tid).2 = (c.currentVersionForReader tid).2

structure Alike (C : CommitState → CommitState → Prop) (id : ℕ) (watched : Prop)
    (t t' : MVBTSt K P) : Prop extends SameTree t t' where
  commit : C t.commit t'.commit
  thread : t.tid = id
  gc : t.tracker.isSome → watched

namespace Alike
variable {C : CommitState → CommitState → Prop} {id : ℕ} {watched read : Prop}
variable {t t' : MVBTSt K P}

theorem setNode (h : Alike C id watched t t') (b : ℕ) (n : Node K P) :
    Alike C id watched (t.setNode b n) (t'.setNode b n) :=
  { h with heap := by simp only [MVBTSt.setNode, h.heap] }

theorem registerDead (h : Alike C id watched t t') (v b : ℕ) :
    Alike C id watched (t.registerDead v b) (t'.registerDead v b) :=
  { h with
    tracker := by simp only [MVBTSt.registerDead, h.tracker]
    gc := by simpa [MVBTSt.registerDead] using h.gc }

theorem startTxCommit (hC : Indistinct id watched read C) (h : Alike C id watched t t') :
    Alike C id watched t.startTxCommit.1 t'.startTxCommit.1 ∧
      t'.startTxCommit.2 = t.startTxCommit.2 := by
  have hcommit : C (t.commit.startCommit t.tid).1 (t'.commit.startCommit t'.tid).1 := by
    rw [h.tid, h.thread]
    exact hC.start h.commit
  constructor
  · exact { h with commit := hcommit }
  · simp only [MVBTSt.startTxCommit, CommitState.startCommit_version]
    exact hC.clock h.commit

/-- A commit ends with a version that the clock has shown before. -/
theorem endTxCommit (hC : Indistinct id watched read C) {s s' : MVBTSt K P}
    (hs : Alike C id watched s s') (h : Alike C id watched t t') :
    Alike C id watched (t.endTxCommit s.startTxCommit.2) (t'.endTxCommit s.startTxCommit.2) := by
  have hcommit : C (t.commit.endCommit t.tid s.commit.clock)
      (t'.commit.endCommit t'.tid s.commit.clock) := by
    rw [h.tid, h.thread]
    exact hC.finish hs.commit h.commit
  exact { h with commit := hcommit }

theorem allocBlock (hC : Indistinct id watched read C) (h : Alike C id watched t t')
    (leaf : Bool) :
    Alike C id watched (t.allocBlock leaf).1 (t'.allocBlock leaf).1 ∧
      (t'.allocBlock leaf).2 = (t.allocBlock leaf).2 := by
  have hnext : Alike C id watched { t with nextBlock := t.nextBlock + 1 }
      { t' with nextBlock := t.nextBlock + 1 } := { h with nextBlock := rfl }
  have hfresh := hnext.setNode t.nextBlock (if leaf then Node.newLeaf else Node.newInternal)
  cases htr : t.tracker with
  | none =>
    simp only [h.tracker, htr] at hfresh
    simp only [MVBTSt.allocBlock, h.tracker, htr, h.nextBlock]
    exact ⟨hfresh, trivial⟩
  | some tracker =>
    have hwatched : watched := h.gc (by rw [htr]; rfl)
    obtain ⟨hcommit, hanswer⟩ := hC.collect hwatched h.commit
    simp only [MVBTSt.allocBlock, h.tracker, htr, TrackerHandle.freeBlock, hanswer, h.nextBlock]
    cases (tracker.deadBlocks.popMinIf fun death =>
      decide (death < tracker.freeBound (t.commit.committedSnapshot versionMax).2)) with
    | mk dead block =>
      cases block with
      | none =>
        exact ⟨{ hfresh with commit := hcommit, tracker := rfl, gc := fun _ => hwatched }, rfl⟩
      | some b =>
        have htaken : Alike C id watched
            { t with
              tracker := some { tracker with deadBlocks := dead }
              commit := (t.commit.committedSnapshot versionMax).1 }
            { t' with
              heap := t.heap
              nextBlock := t.nextBlock
              tracker := some { tracker with deadBlocks := dead }
              commit := (t'.commit.committedSnapshot versionMax).1 } :=
          { h with
            heap := rfl
            nextBlock := rfl
            commit := hcommit
            tracker := rfl
            gc := fun _ => hwatched }
        simp only [h.heap]
        exact ⟨htaken.setNode b _, trivial⟩

end Alike

/-! ## Structure modifications -/

section Modifications
variable [LinearOrder K] (cfg : Config K)
variable {C : CommitState → CommitState → Prop} {id : ℕ} {watched read : Prop}
variable {t t' : MVBTSt K P}

omit [LinearOrder K] in
theorem SameTree.getKey (h : SameTree t t') (b i : ℕ) : Tree.getKey t' b i = Tree.getKey t b i := by
  simp only [Tree.getKey, h.asInternalPage]

omit [LinearOrder K] in
theorem SameTree.getPointer (h : SameTree t t') (b i : ℕ) :
    Tree.getPointer t' b i = Tree.getPointer t b i := by
  simp only [Tree.getPointer, h.asInternalPage]

section Pages
variable {α : Type} [PageUnit K α] (kind : PageKind K P α)

omit [PageUnit K α] in
theorem bulkPush_alike (h : Alike C id watched t t') (b : ℕ) (us : List α) :
    Coupled (Alike C id watched) (kind.bulkPush cfg t b us) (kind.bulkPush cfg t' b us) := by
  simp only [PageKind.bulkPush, h.heap]
  cases kind.unwrap (t.heap b) with
  | none => exact .error _
  | some p => exact .bind_same rfl (fun p => .ok (h.setNode b _))

omit [LinearOrder K] in
theorem active_same (h : SameTree t t') (b : ℕ) : kind.active t' b = kind.active t b := by
  simp only [PageKind.active, h.heap]

theorem splitPage_alike (hC : Indistinct id watched read C) (h : Alike C id watched t t')
    (block : ℕ) (fence : Interval K) :
    Coupled (Beside (Alike C id watched)) (splitPage cfg kind t block fence)
      (splitPage cfg kind t' block fence) := by
  obtain ⟨h₁, hleft⟩ := h.allocBlock hC kind.isLeaf
  obtain ⟨h₂, hright⟩ := h₁.allocBlock hC kind.isLeaf
  simp only [splitPage, h.heap, hleft, hright]
  split_ifs
  · refine .bind_same (active_same kind h₂.toSameTree block) (fun units => ?_)
    refine .bind_same rfl (fun cut => ?_)
    refine .bind (bulkPush_alike cfg kind h₂ _ _) (fun s s' hs => ?_)
    exact .bind (bulkPush_alike cfg kind hs _ _) (fun s s' hs => .ok ⟨hs, rfl⟩)
  · refine .bind_same (active_same kind h₁.toSameTree block) (fun units => ?_)
    exact .bind (bulkPush_alike cfg kind h₁ _ _) (fun s s' hs => .ok ⟨hs, rfl⟩)

theorem mergePages_alike (hC : Indistinct id watched read C) (h : Alike C id watched t t')
    (simba : ℕ) (fence : Interval K) (candidate : ℕ × ℕ × Interval K) :
    Coupled (Beside (Alike C id watched)) (mergePages cfg kind t simba fence candidate)
      (mergePages cfg kind t' simba fence candidate) := by
  obtain ⟨h₁, hleft⟩ := h.allocBlock hC kind.isLeaf
  obtain ⟨h₂, hright⟩ := h₁.allocBlock hC kind.isLeaf
  obtain ⟨i, block, other⟩ := candidate
  simp only [mergePages, h.heap, hleft, hright]
  split_ifs
  · refine .bind_same (active_same kind h₁.toSameTree _) (fun units => ?_)
    refine .bind_same (active_same kind h₁.toSameTree _) (fun units' => ?_)
    exact .bind (bulkPush_alike cfg kind h₁ _ _) (fun s s' hs => .ok ⟨hs, rfl⟩)
  · refine .bind_same (active_same kind h.toSameTree _) (fun units => ?_)
    refine .bind_same (active_same kind h.toSameTree _) (fun units' => ?_)
    refine .bind_same rfl (fun cut => ?_)
    refine .bind (bulkPush_alike cfg kind h₂ _ _) (fun s s' hs => ?_)
    exact .bind (bulkPush_alike cfg kind hs _ _) (fun s s' hs => .ok ⟨hs, rfl⟩)

end Pages

variable (hC : Indistinct id watched read C) (h : Alike C id watched t t')
include hC h

theorem split_alike (block : ℕ) (fence : Interval K) :
    Coupled (Beside (Alike C id watched)) (split cfg t block fence) (split cfg t' block fence) := by
  simp only [split, h.heap]
  split_ifs
  · exact splitPage_alike cfg leafKind hC h block fence
  · exact splitPage_alike cfg internalKind hC h block fence

theorem merge_alike (mufasa simba i : ℕ) :
    Coupled (Beside (Alike C id watched)) (merge cfg t mufasa simba i)
      (merge cfg t' mufasa simba i) := by
  refine .bind_same (h.asInternalPage mufasa) (fun page => ?_)
  cases page.units[i]? with
  | none => exact .error _
  | some entry =>
    simp only [h.heap]
    cases computeCandidate (mergeCandidates page i) entry.fence.lower with
    | none => exact .ok ⟨h, rfl⟩
    | some candidate =>
      simp only
      split_ifs
      · exact mergePages_alike cfg leafKind hC h simba entry.fence candidate
      · exact mergePages_alike cfg internalKind hC h simba entry.fence candidate

omit hC in
theorem replaceEntries_alike (mufasa : ℕ) (fresh : List (Entry K)) (active dead : ℤ)
    (obsolete : List ℕ) :
    Coupled (Alike C id watched) (replaceEntries cfg t mufasa fresh active dead obsolete)
      (replaceEntries cfg t' mufasa fresh active dead obsolete) := by
  refine .bind_same (h.asInternalPage mufasa) (fun page => ?_)
  exact .bind_same rfl (fun page => .ok (h.setNode mufasa _))

omit hC [LinearOrder K] in
theorem appendRoot_alike (block version height : ℕ) :
    Coupled (Alike C id watched) (t.appendRoot block version height)
      (t'.appendRoot block version height) := by
  refine .bind_same (by rw [h.root, h.tosses]) (fun root => .ok ?_)
  rw [h.tosses]
  exact { h with root := rfl, tosses := rfl }

theorem onOverflowNode_alike (mufasa simba i : ℕ) :
    Coupled (Alike C id watched) (onOverflowNode cfg t mufasa simba i)
      (onOverflowNode cfg t' mufasa simba i) := by
  refine .bind_same (h.getKey mufasa i) (fun fence => ?_)
  refine .bind_beside (split_alike cfg hC h simba fence) (fun s s' split hs => ?_)
  obtain ⟨hstart, hversion⟩ := hs.startTxCommit hC
  cases split with
  | byKey leftFence left rightFence right =>
    simp only [hversion]
    refine .bind (replaceEntries_alike cfg hstart _ _ _ _ _) (fun u u' hu => ?_)
    have hend := Alike.endTxCommit hC hs hu
    exact .bind_same (hend.getPointer _ _) (fun b => .ok (hend.registerDead _ _))
  | byVersion fresh =>
    simp only [hversion]
    refine .bind (replaceEntries_alike cfg hstart _ _ _ _ _) (fun u u' hu => ?_)
    have hend := Alike.endTxCommit hC hs hu
    exact .bind_same (hend.getPointer _ _) (fun b => .ok (hend.registerDead _ _))

theorem onUnderflowNode_alike (mufasa simba i : ℕ) :
    Coupled (Both (Alike C id watched)) (onUnderflowNode cfg t mufasa simba i)
      (onUnderflowNode cfg t' mufasa simba i) := by
  refine .bind_beside (merge_alike cfg hC h mufasa simba i) (fun s s' result hs => ?_)
  obtain ⟨hstart, hversion⟩ := hs.startTxCommit hC
  cases result with
  | merged sibling fence block =>
    refine .bind_same (hs.getKey mufasa i) (fun own => ?_)
    simp only [hversion]
    refine .bind (replaceEntries_alike cfg hstart _ _ _ _ _) (fun u u' hu => ?_)
    refine .bind_same (hu.getPointer _ _) (fun b => ?_)
    have hdead := hu.registerDead s.startTxCommit.2 b
    refine .bind_same (hdead.getPointer _ _) (fun b => .ok ?_)
    exact Alike.endTxCommit hC hs (hdead.registerDead _ b)
  | keySplit sibling split =>
    cases split with
    | byVersion fresh => exact .ok trivial
    | byKey leftFence left rightFence right =>
      simp only [hversion]
      refine .bind (replaceEntries_alike cfg hstart _ _ _ _ _) (fun u u' hu => ?_)
      refine .bind_same (hu.getPointer _ _) (fun b => ?_)
      have hdead := hu.registerDead s.startTxCommit.2 b
      refine .bind_same (hdead.getPointer _ _) (fun b => .ok ?_)
      exact Alike.endTxCommit hC hs (hdead.registerDead _ b)
  | error => exact .ok trivial

theorem splitRoot_alike (root height : ℕ) :
    Coupled (Beside (Alike C id watched)) (splitRoot cfg t root height)
      (splitRoot cfg t' root height) := by
  refine .bind_beside (split_alike cfg hC h root _) (fun s s' split hs => ?_)
  cases split with
  | byKey leftFence left rightFence right =>
    obtain ⟨halloc, hblock⟩ := hs.allocBlock hC false
    obtain ⟨hstart, hversion⟩ := halloc.startTxCommit hC
    simp only [hblock, hversion]
    refine .bind (replaceEntries_alike cfg hstart _ _ _ _ _) (fun u u' hu => ?_)
    refine .bind (appendRoot_alike hu _ _ _) (fun u u' hu => .ok ⟨?_, rfl⟩)
    exact (Alike.endTxCommit hC halloc hu).registerDead _ _
  | byVersion fresh =>
    obtain ⟨hstart, hversion⟩ := hs.startTxCommit hC
    simp only [hversion]
    refine .bind (appendRoot_alike hstart _ _ _) (fun u u' hu => .ok ⟨?_, rfl⟩)
    exact (Alike.endTxCommit hC hs hu).registerDead _ _

theorem mergeRoot_alike (root height : ℕ) :
    Coupled (Beside (Alike C id watched)) (mergeRoot cfg t root height)
      (mergeRoot cfg t' root height) := by
  refine .bind_same (h.asInternalPage root) (fun page => ?_)
  refine .bind_same (h.getPointer root _) (fun child => ?_)
  exact splitRoot_alike cfg hC h child (height - 1)

/-! ## The descent of a write -/

theorem retrieveRootWriteOlc_alike :
    Coupled (Beside (Alike C id watched)) (retrieveRootWriteOlc cfg t)
      (retrieveRootWriteOlc cfg t') := by
  simp only [retrieveRootWriteOlc, MVBTSt.currentRoot, h.root, h.heap]
  cases unsafeDegreeRoot cfg (t.heap t.root.payload.1) with
  | ok => exact .ok ⟨h, rfl⟩
  | overflow => exact splitRoot_alike cfg hC h _ _
  | activeUnderflow => exact mergeRoot_alike cfg hC h _ _

theorem descend_alike (fuel curr : ℕ) (key : K) :
    Coupled (Beside (Alike C id watched)) (descend cfg fuel t curr key)
      (descend cfg fuel t' curr key) := by
  induction fuel generalizing t t' curr with
  | zero => exact .error _
  | succ fuel ih =>
    simp only [descend, h.heap]
    cases t.heap curr with
    | leaf page => exact .ok ⟨h, rfl⟩
    | internal page =>
      simp only
      cases activeIndex page key with
      | none => exact .error _
      | some i =>
        refine .bind_same (h.getPointer curr i) (fun next => ?_)
        cases unsafeDegree cfg (t.heap next) with
        | ok => exact ih h next
        | overflow =>
          exact .bind (onOverflowNode_alike cfg hC h curr next i) (fun s s' hs => ih hs curr)
        | activeUnderflow =>
          exact .bind_both (onUnderflowNode_alike cfg hC h curr next i) (.error _)
            (fun s s' hs => ih hs curr)

theorem traversalWriteOlc_alike (key : K) :
    Coupled (Beside (Alike C id watched)) (traversalWriteOlc cfg t key)
      (traversalWriteOlc cfg t' key) := by
  refine .bind_beside (retrieveRootWriteOlc_alike cfg hC h) (fun s s' root hs => ?_)
  simp only [MVBTSt.currentRoot, hs.root]
  exact descend_alike cfg hC hs _ root key

/-! ## Writes -/

omit hC [LinearOrder K] h in
theorem SameTree.asLeafPage (h : SameTree t t') (b : ℕ) : asLeafPage t' b = asLeafPage t b := by
  simp only [WritePath.asLeafPage, h.heap]

omit hC h in
theorem SameTree.inPlaceTarget (h : SameTree t t') (page : LeafPage K P) (key : K) :
    inPlaceTarget t' page key = inPlaceTarget t page key := by
  simp only [WritePath.inPlaceTarget, h.tracker, h.updateInPlace]

theorem dispatchInsert_alike (key : K) (payload : P) :
    Coupled (Beside (Alike C id watched)) (dispatchInsert cfg t key payload)
      (dispatchInsert cfg t' key payload) := by
  refine .bind_beside (traversalWriteOlc_alike cfg hC h key) (fun s s' leaf hs => ?_)
  refine .bind_same (hs.asLeafPage leaf) (fun page => ?_)
  obtain ⟨hstart, hversion⟩ := hs.startTxCommit hC
  split_ifs
  · exact .ok ⟨hs, rfl⟩
  · simp only [hversion]
    refine .bind_same rfl (fun page => .ok ⟨?_, rfl⟩)
    exact Alike.endTxCommit hC hs (hstart.setNode leaf _)

theorem dispatchUpdate_alike (key : K) (payload : P) :
    Coupled (Beside (Alike C id watched)) (dispatchUpdate cfg t key payload)
      (dispatchUpdate cfg t' key payload) := by
  refine .bind_beside (traversalWriteOlc_alike cfg hC h key) (fun s s' leaf hs => ?_)
  refine .bind_same (hs.asLeafPage leaf) (fun page => ?_)
  simp only [hs.inPlaceTarget]
  cases inPlaceTarget s page key with
  | some i =>
    refine .ok ⟨hs.setNode leaf _, ?_⟩
    exact congrArg WriteResult.updated (hC.clock hs.commit)
  | none =>
    cases lastRecord page key with
    | none => exact .ok ⟨hs, rfl⟩
    | some r =>
      obtain ⟨hstart, hversion⟩ := hs.startTxCommit hC
      simp only [hversion]
      split_ifs
      · exact .ok ⟨hs, rfl⟩
      · refine .bind_same rfl (fun page => ?_)
        generalize LeafPage.deleteAfterUpdate (page.commitDelta 1 0) key s.startTxCommit.2 = ended
        obtain ⟨page, answer⟩ := ended
        rcases answer with e | _ | old
        · exact .error _
        · exact .error _
        · exact .ok ⟨Alike.endTxCommit hC hs (hstart.setNode leaf _), rfl⟩

theorem dispatchDelete_alike (key : K) :
    Coupled (Beside (Alike C id watched)) (dispatchDelete cfg t key)
      (dispatchDelete cfg t' key) := by
  refine .bind_beside (traversalWriteOlc_alike cfg hC h key) (fun s s' leaf hs => ?_)
  refine .bind_same (hs.asLeafPage leaf) (fun page => ?_)
  obtain ⟨hstart, hversion⟩ := hs.startTxCommit hC
  simp only [hversion]
  generalize LeafPage.delete page key s.startTxCommit.2 = ended
  obtain ⟨page, answer⟩ := ended
  rcases answer with e | _ | old
  · exact .ok ⟨hstart, rfl⟩
  · exact .ok ⟨hstart, rfl⟩
  · exact .ok ⟨Alike.endTxCommit hC hs (hstart.setNode leaf _), rfl⟩

theorem dispatchWrite_alike (op : WriteOperation K P) :
    Coupled (Beside (Alike C id watched)) (dispatchWrite cfg t op) (dispatchWrite cfg t' op) := by
  cases op with
  | insert key payload => exact dispatchInsert_alike cfg hC h key payload
  | update key payload => exact dispatchUpdate_alike cfg hC h key payload
  | delete key => exact dispatchDelete_alike cfg hC h key

/-! ## Writes on random keys -/

/-- Related trees in one and the same round. -/
def SameRound (C : CommitState → CommitState → Prop) (id : ℕ) (watched : Prop) :
    RandomRound K P → RandomRound K P → Prop
  | .arrive, .arrive => True
  | .enter fence next, .enter fence' next' => fence' = fence ∧ next' = next
  | .repair fence t, .repair fence' t' => fence' = fence ∧ Alike C id watched t t'
  | .restart t, .restart t' => Alike C id watched t t'
  | _, _ => False

omit hC in
theorem afterRepair_alike (curr : ℕ) (fence : Interval K) :
    SameRound C id watched (afterRepair cfg t curr fence) (afterRepair cfg t' curr fence) := by
  simp only [afterRepair, h.heap]
  split_ifs
  · exact h
  · exact ⟨rfl, h⟩

theorem randomRound_alike (curr : ℕ) (draws : Draws) :
    Coupled (SameRound C id watched) (randomRound cfg t curr draws)
      (randomRound cfg t' curr draws) := by
  simp only [randomRound, h.heap]
  cases t.heap curr with
  | leaf page => exact .ok trivial
  | internal page =>
    simp only
    generalize activePosition page.asUnits 0 _ = i
    split
    · exact .error _
    · next e he =>
      split_ifs
      · exact .error _
      · cases unsafeDegree cfg (t.heap e.pointer) with
        | ok => exact .ok ⟨rfl, rfl⟩
        | overflow =>
          refine .bind (onOverflowNode_alike cfg hC h curr _ _) (fun s s' hs => .ok ?_)
          exact afterRepair_alike cfg hs curr e.fence
        | activeUnderflow =>
          refine .bind_both (onUnderflowNode_alike cfg hC h curr _ _) (.ok h) (fun s s' hs => .ok ?_)
          exact afterRepair_alike cfg hs curr e.fence

/-- Related trees at the same leaf, with the same draws left. -/
theorem traversalWriteRand_alike (fuel : ℕ) (at_ : Option (ℕ × Interval K)) (draws : Draws) :
    Coupled (Beside (Alike C id watched)) (traversalWriteRand cfg fuel t at_ draws)
      (traversalWriteRand cfg fuel t' at_ draws) := by
  induction fuel generalizing t t' at_ draws with
  | zero => exact .error _
  | succ fuel ih =>
    cases at_ with
    | none =>
      exact .bind_beside (retrieveRootWriteOlc_alike cfg hC h) (fun s s' root hs => ih hs _ _)
    | some at_ =>
      obtain ⟨curr, fence⟩ := at_
      have hdraws : drawsAfter t' curr draws = drawsAfter t curr draws := by
        simp only [drawsAfter, h.heap]
      simp only [traversalWriteRand, hdraws]
      refine .bind (randomRound_alike cfg hC h curr draws) (fun round round' hround => ?_)
      cases round <;> cases round' <;> try exact hround.elim
      · exact .ok ⟨h, rfl⟩
      · obtain ⟨rfl, rfl⟩ := hround
        exact ih h _ _
      · obtain ⟨rfl, hs⟩ := hround
        exact ih hs _ _
      · exact ih hround _ _

end Modifications

section Random
variable [LinearOrder K] [Inhabited K] [Inhabited P] (cfg : Config K)
variable {C : CommitState → CommitState → Prop} {id : ℕ} {watched read : Prop}
variable {t t' : MVBTSt K P}
variable (hC : Indistinct id watched read C) (h : Alike C id watched t t')
include hC h

omit [Inhabited P] in
theorem dispatchDeleteRand_alike (fuel : ℕ) (draws : Draws) :
    Coupled (Beside (Alike C id watched)) (dispatchDeleteRand cfg fuel t draws)
      (dispatchDeleteRand cfg fuel t' draws) := by
  refine .bind_beside (traversalWriteRand_alike cfg hC h fuel none draws) (fun s s' there hs => ?_)
  obtain ⟨fence, leaf, draws⟩ := there
  refine .bind_same (hs.asLeafPage leaf) (fun page => ?_)
  obtain ⟨hstart, hversion⟩ := hs.startTxCommit hC
  simp only [hversion]
  split_ifs
  · exact .error _
  · generalize LeafPage.delete page _ s.startTxCommit.2 = ended
    obtain ⟨page, answer⟩ := ended
    rcases answer with e | _ | old
    · exact .ok ⟨hstart, rfl⟩
    · exact .ok ⟨hstart, rfl⟩
    · exact .ok ⟨Alike.endTxCommit hC hs (hstart.setNode leaf _), rfl⟩

/-- The in-place arm answers with a snapshot, and the clock remembers that it did. -/
theorem dispatchUpdateRand_alike (hread : read) (fuel : ℕ) (draws : Draws) :
    Coupled (Beside SameTree) (dispatchUpdateRand cfg fuel t draws)
      (dispatchUpdateRand cfg fuel t' draws) := by
  refine .bind_beside (traversalWriteRand_alike cfg hC h fuel none draws) (fun s s' there hs => ?_)
  obtain ⟨fence, leaf, draws⟩ := there
  refine .bind_same (hs.asLeafPage leaf) (fun page => ?_)
  simp only [hs.inPlaceTarget]
  split_ifs
  · exact .error _
  · generalize liveKey page _ = key
    cases hplace : inPlaceTarget s page key with
    | some i =>
      have htracked : s.tracker.isSome := by
        cases htr : s.tracker with
        | none => simp [WritePath.inPlaceTarget, htr] at hplace
        | some tracker => rfl
      have hanswer := hC.reader (hs.gc htracked) hread hs.commit
      refine .ok ⟨{ (hs.setNode leaf _).toSameTree with }, ?_⟩
      simp only [hs.tid, hs.thread, hanswer]
    | none =>
      obtain ⟨hstart, hversion⟩ := hs.startTxCommit hC
      simp only [hversion]
      refine .bind_same rfl (fun page => ?_)
      generalize LeafPage.deleteAfterUpdate (page.commitDelta 1 0) key s.startTxCommit.2 = ended
      obtain ⟨page, answer⟩ := ended
      rcases answer with e | _ | old
      · exact .ok ⟨(hstart.setNode leaf _).toSameTree, rfl⟩
      · exact .ok ⟨(hstart.setNode leaf _).toSameTree, rfl⟩
      · exact .ok ⟨(Alike.endTxCommit hC hs (hstart.setNode leaf _)).toSameTree, rfl⟩

end Random

section RandomInsert
variable {P : Type} [Inhabited P] (cfg : Config UInt64)
variable {C : CommitState → CommitState → Prop} {id : ℕ} {watched read : Prop}
variable {t t' : MVBTSt UInt64 P}
variable (hC : Indistinct id watched read C) (h : Alike C id watched t t')
include hC h

theorem insertRandOnce_alike (fuel : ℕ) (draws : Draws) :
    Coupled (Beside (Alike C id watched)) (insertRandOnce cfg fuel t draws)
      (insertRandOnce cfg fuel t' draws) := by
  refine .bind_beside (traversalWriteRand_alike cfg hC h fuel none draws) (fun s s' there hs => ?_)
  obtain ⟨fence, leaf, draws⟩ := there
  refine .bind_same (hs.asLeafPage leaf) (fun page => ?_)
  obtain ⟨hstart, hversion⟩ := hs.startTxCommit hC
  simp only [hversion]
  split_ifs
  · exact .error _
  · obtain ⟨key, draws⟩ := generateKey page fence randAttemptsMax draws
    cases key with
    | none => exact .ok ⟨hs, rfl⟩
    | some key =>
      refine .bind_same rfl (fun page => .ok ⟨?_, rfl⟩)
      exact Alike.endTxCommit hC hs (hstart.setNode leaf _)

theorem dispatchInsertRand_alike (fuel calls : ℕ) (draws : Draws) :
    Coupled (Beside (Alike C id watched)) (dispatchInsertRand cfg fuel calls t draws)
      (dispatchInsertRand cfg fuel calls t' draws) := by
  induction calls generalizing t t' draws with
  | zero => exact .error _
  | succ calls ih =>
    refine .bind_beside (insertRandOnce_alike cfg hC h fuel draws) (fun s s' answer hs => ?_)
    obtain ⟨result, draws⟩ := answer
    cases result with
    | some result => exact .ok ⟨hs, rfl⟩
    | none => exact ih hs draws

end RandomInsert

/-! ## Reads -/

namespace SameTree
variable {t t' : MVBTSt K P}

theorem onAcquireReaderSnapshot (h : SameTree t t') (snapshot : ℕ) :
    SameTree (ReadPath.onAcquireReaderSnapshot t snapshot)
      (ReadPath.onAcquireReaderSnapshot t' snapshot) :=
  { h with tracker := by simp only [ReadPath.onAcquireReaderSnapshot, h.tracker] }

theorem onReleaseReaderSnapshot (h : SameTree t t') (snapshot : ℕ) :
    SameTree (ReadPath.onReleaseReaderSnapshot t snapshot)
      (ReadPath.onReleaseReaderSnapshot t' snapshot) :=
  { h with tracker := by simp only [ReadPath.onReleaseReaderSnapshot, h.tracker] }

theorem apply (h : SameTree t t') (event : ReaderEvent) :
    SameTree (event.apply t) (event.apply t') := by
  cases event with
  | register snapshot => exact h.onAcquireReaderSnapshot snapshot
  | release snapshot => exact h.onReleaseReaderSnapshot snapshot
  | pin lowerBound =>
    exact { h with tracker := by simp only [ReaderEvent.apply, pinReader, h.tracker] }
  | unpin ticket =>
    exact { h with tracker := by simp only [ReaderEvent.apply, ReaderBalance.unpinReader, h.tracker] }

theorem rootFor (h : SameTree t t') (snapshot : ℕ) : t'.rootFor snapshot = t.rootFor snapshot := by
  simp only [MVBTSt.rootFor, h.root]

variable [LinearOrder K]

theorem traverseReadKey (h : SameTree t t') (fuel curr : ℕ) (key : K) (lookup : ℕ) :
    ReadPath.traverseReadKey t' fuel curr key lookup =
      ReadPath.traverseReadKey t fuel curr key lookup := by
  induction fuel generalizing curr with
  | zero => rfl
  | succ fuel ih => simp only [ReadPath.traverseReadKey, h.heap, ih]

theorem dispatchPoint (h : SameTree t t') (key : K) (version : ℕ) :
    Coupled (Beside SameTree) (dispatchPoint t key version) (dispatchPoint t' key version) := by
  have hopen := h.onAcquireReaderSnapshot version
  refine .bind_same (hopen.rootFor version) (fun root => ?_)
  have hread : keyPointReadFromRoot (ReadPath.onAcquireReaderSnapshot t' version) root key version
      = keyPointReadFromRoot (ReadPath.onAcquireReaderSnapshot t version) root key version := by
    simp only [keyPointReadFromRoot, hopen.traverseReadKey]
  exact .bind_same hread (fun found => .ok ⟨hopen.onReleaseReaderSnapshot version, rfl⟩)

theorem newIter (h : SameTree t t') (cfg : Config K) (version : ℕ) (range : Interval K) :
    Coupled (Beside SameTree) (RangeQueryIter.new cfg t version range)
      (RangeQueryIter.new cfg t' version range) := by
  have hopen := h.onAcquireReaderSnapshot version
  refine .bind_same ?_ (fun root => .ok ⟨?_, rfl⟩)
  · simpa only [MVBTSt.rootFor] using hopen.rootFor version
  · exact { hopen with }

theorem round (h : SameTree t t') (cfg : Config K) (it : RangeQueryIter K P) :
    Beside SameTree (it.round cfg t) (it.round cfg t') := by
  have hclose := h.onReleaseReaderSnapshot it.snapshot
  unfold RangeQueryIter.round
  rw [h.heap]
  split
  · exact ⟨hclose, rfl⟩
  · split_ifs
    · exact ⟨hclose, rfl⟩
    · split
      · split
        · exact ⟨h, rfl⟩
        · exact ⟨h, rfl⟩
      · simp only
        split_ifs
        · exact ⟨h, rfl⟩
        · exact ⟨h, rfl⟩

theorem loop (h : SameTree t t') (cfg : Config K) (fuel : ℕ) (it : RangeQueryIter K P) :
    Coupled (Beside SameTree) (it.loop cfg fuel t) (it.loop cfg fuel t') := by
  induction fuel generalizing t t' it with
  | zero => exact .error _
  | succ fuel ih =>
    obtain ⟨hs, hanswer⟩ := h.round cfg it
    revert hs hanswer
    unfold RangeQueryIter.loop
    generalize it.round cfg t = left
    generalize it.round cfg t' = right
    obtain ⟨s, it₁, answer⟩ := left
    obtain ⟨s', it₂, answer'⟩ := right
    intro hs hanswer
    cases hanswer
    cases answer with
    | none => exact ih hs it₁
    | some answer => exact .ok ⟨hs, rfl⟩

theorem next (h : SameTree t t') (cfg : Config K) (fuel : ℕ) (it : RangeQueryIter K P) :
    Coupled (Beside SameTree) (it.next cfg fuel t) (it.next cfg fuel t') := by
  unfold RangeQueryIter.next
  split
  · exact .ok ⟨h, rfl⟩
  · split_ifs
    · exact .ok ⟨h, rfl⟩
    · exact h.loop cfg fuel it

theorem drain (h : SameTree t t') (cfg : Config K) (fuel calls : ℕ) (it : RangeQueryIter K P) :
    Coupled (Beside SameTree) (it.drain cfg fuel calls t) (it.drain cfg fuel calls t') := by
  induction calls generalizing t t' it with
  | zero => exact .error _
  | succ calls ih =>
    refine .bind_beside (h.next cfg fuel it) (fun s s' answer hs => ?_)
    obtain ⟨it, record⟩ := answer
    cases record with
    | none => exact .ok ⟨hs, rfl⟩
    | some r => exact .bind_beside (ih hs it) (fun u u' rest hu => .ok ⟨hu, rfl⟩)

omit [LinearOrder K] in
theorem drop (h : SameTree t t') (it : RangeQueryIter K P) :
    SameTree (RangeQueryIter.drop t it) (RangeQueryIter.drop t' it) := by
  unfold RangeQueryIter.drop
  split_ifs
  · exact h
  · exact h.onReleaseReaderSnapshot it.snapshot

theorem dispatchRange (h : SameTree t t') (cfg : Config K) (fuel calls : ℕ) (range : Interval K)
    (version : ℕ) :
    Coupled (Beside SameTree) (dispatchRange cfg fuel calls t range version)
      (dispatchRange cfg fuel calls t' range version) := by
  refine .bind_beside (h.newIter cfg version range) (fun s s' it hs => ?_)
  refine .bind_beside (hs.drain cfg fuel calls it) (fun u u' answer hu => ?_)
  obtain ⟨it, found⟩ := answer
  exact .ok ⟨hu.drop it, rfl⟩

end SameTree

/-! ## Commit states that look alike -/

/-- Where nobody asks for the watermark only the clock counts. -/
theorem indistinct_unwatched (tid : ℕ) (read : Prop) :
    Indistinct tid False read (fun c c' => c'.clock = c.clock) where
  clock := id
  start h := by simpa using h
  finish _ h := by simpa using h
  collect h := h.elim
  reader h := h.elim

/-- The thread has not read more often in a row than `limit`, or reads uncounted. -/
def Rested (tid limit : ℕ) (c : CommitState) : Prop :=
  c.readsInRow.getD tid readInRowInactive = readInRowInactive ∨
    c.readsInRow.getD tid readInRowInactive ≤ limit

/-- Some thread shows the version of a commit. -/
def SomeActive (c : CommitState) : Prop := ∃ s ∈ c.slots, s ≤ c.clock ∧ s < inactive

/-- `c'` may already have folded the slots into the watermark, and `m` is no more
than any slot shows. -/
structure Level (tid : ℕ) (read : Prop) (m : ℕ) (c c' : CommitState) : Prop where
  clock : c'.clock = c.clock
  slots : c'.slots = c.slots
  floor : ∀ s ∈ c.slots, m ≤ s
  old : m ≤ c.clock
  small : m ≤ versionMax
  raised : c.globalMin ≤ c'.globalMin
  capped : c'.globalMin ≤ max c.globalMin m
  flag : (c'.globalDirty = c.globalDirty ∧ (c.globalDirty = .clean → c'.globalMin = c.globalMin)) ∨
    (c.globalDirty = .dirty ∧ c'.globalDirty = .clean ∧ c'.globalMin = max c.globalMin m ∧
      m ∈ c.slots)
  rested : read → Rested tid maxReadsInRow c ∧ Rested tid maxReadsInRow c'

theorem le_scan {c : CommitState} {m time : ℕ} (htime : m ≤ time) (h : ∀ s ∈ c.slots, m ≤ s) :
    m ≤ c.scan time := by
  unfold CommitState.scan
  generalize c.slots = slots at h
  induction slots generalizing time with
  | nil => exact htime
  | cons s slots ih =>
    rw [List.forall_mem_cons] at h
    exact ih (le_min htime h.1) h.2

theorem scan_eq (c : CommitState) (time : ℕ) : c.scan time = time ∨ c.scan time ∈ c.slots := by
  unfold CommitState.scan
  induction c.slots generalizing time with
  | nil => exact .inl rfl
  | cons s slots ih =>
    cases ih (min time s) with
    | inr hmem => exact .inr (List.mem_cons_of_mem s hmem)
    | inl heq =>
      cases min_choice time s with
      | inl htime => exact .inl (heq.trans htime)
      | inr hs => exact .inr (List.mem_cons.mpr (.inl (heq.trans hs)))

theorem scan_le {c : CommitState} {s : ℕ} (time : ℕ) (h : s ∈ c.slots) : c.scan time ≤ s := by
  have hstart : ∀ (slots : List ℕ) (x : ℕ), slots.foldl min x ≤ x := by
    intro slots
    induction slots with
    | nil => exact fun x => le_rfl
    | cons s slots ih => exact fun x => (ih (min x s)).trans (min_le_left x s)
  unfold CommitState.scan
  generalize c.slots = slots at h
  induction slots generalizing time with
  | nil => cases h
  | cons a slots ih =>
    cases List.mem_cons.mp h with
    | inl heq =>
      subst heq
      exact (hstart slots _).trans (min_le_right _ _)
    | inr hmem => exact ih (min time a) hmem

namespace Level
variable {tid m : ℕ} {read : Prop} {c c' : CommitState}

/-- Both commit states give the same answer to whoever scans the slots, and from
then on they have the same watermark. -/
theorem committedSnapshot (h : Level tid read m c c') {time : ℕ} (htime : m ≤ time) :
    (c'.committedSnapshot time).2 = (c.committedSnapshot time).2 ∧
      Level tid read m (c.committedSnapshot time).1 (c'.committedSnapshot time).1 := by
  have hscan : c'.scan time = c.scan time := by simp only [CommitState.scan, h.slots]
  have hle : m ≤ c.scan time := le_scan htime h.floor
  have hfold : max c'.globalMin (c.scan time) = max c.globalMin (c.scan time) := by
    have := h.raised
    have := h.capped
    omega
  rcases h.flag with ⟨hflag, hclean⟩ | ⟨hdirty, hclean, hmin, hslot⟩
  · cases hd : c.globalDirty with
    | clean =>
      simp only [CommitState.committedSnapshot, hflag, hd]
      exact ⟨hclean hd, h⟩
    | dirty =>
      simp only [CommitState.committedSnapshot, hflag, hd, hscan, hfold, max_comm (c.scan time)]
      exact ⟨trivial, { h with
        raised := le_rfl
        capped := le_max_left _ _
        flag := .inl ⟨rfl, fun _ => rfl⟩ }⟩
    | scanning =>
      simp only [CommitState.committedSnapshot, hflag, hd, hscan, hfold, max_comm (c.scan time)]
      exact ⟨trivial, { h with
        raised := le_rfl
        capped := le_max_left _ _
        flag := .inl ⟨rfl, fun _ => rfl⟩ }⟩
  · have heq : c.scan time = m := le_antisymm (scan_le time hslot) hle
    simp only [CommitState.committedSnapshot, hdirty, hclean, heq, hmin, max_comm m]
    exact ⟨trivial, { h with
      raised := hmin.ge
      capped := by
        rw [hmin]
        exact le_max_left _ _
      flag := .inl ⟨hclean, fun _ => hmin⟩ }⟩

theorem startCommit (h : Level tid read m c c') :
    Level tid read m (c.startCommit tid).1 (c'.startCommit tid).1 := by
  have hrested : ∀ d : CommitState, Rested tid maxReadsInRow (d.startCommit tid).1 := by
    intro d
    simp only [Rested, CommitState.startCommit, List.getD_eq_getElem?_getD, List.getElem?_set,
      if_true]
    split_ifs
    · exact .inr (Nat.zero_le _)
    · exact .inl rfl
  exact { h with
    clock := by simp only [CommitState.startCommit_clock, h.clock]
    old := h.old.trans (Nat.le_succ _)
    rested := fun _ => ⟨hrested c, hrested c'⟩ }

theorem endCommit {d d' : CommitState} (h : Level tid read m c c') (hd : Level tid read m d d') :
    Level tid read m (d.endCommit tid c.clock) (d'.endCommit tid c.clock) := by
  have hfloor : ∀ s ∈ d.slots.set tid c.clock, m ≤ s := by
    intro s hs
    cases List.mem_or_eq_of_mem_set hs with
    | inl hmem => exact hd.floor s hmem
    | inr heq => exact heq ▸ h.old
  exact { hd with
    slots := by simp only [CommitState.endCommit, CommitState.threadLocalCommit, hd.slots]
    floor := hfloor
    flag := .inl ⟨rfl, fun h => by cases h⟩ }

theorem reader (h : Level tid read m c c') (hread : read) :
    (c'.currentVersionForReader tid).2 = (c.currentVersionForReader tid).2 := by
  have hrested : ∀ d : CommitState, Rested tid maxReadsInRow d →
      (d.currentVersionForReader tid).2 = (d.committedSnapshot d.clock).2 := by
    intro d hd
    simp only [CommitState.currentVersionForReader, CommitState.committedRead]
    split_ifs with hnone hmany
    · rfl
    · cases hd with
      | inl heq => exact absurd heq hnone
      | inr hle => exact absurd hmany hle.not_gt
    · cases hflag : d.globalDirty <;>
        simp only [CommitState.committedSnapshot, CommitState.scan, hflag]
  rw [hrested c' (h.rested hread).2, hrested c (h.rested hread).1, h.clock]
  exact (h.committedSnapshot h.old).1

end Level

/-- Where the collector watches, commit states at one level cannot be told apart. -/
theorem indistinct_level (tid m : ℕ) (read : Prop) :
    Indistinct tid True read (Level tid read m) where
  clock h := h.clock
  start h := h.startCommit
  finish h hd := h.endCommit hd
  collect _ _ _ h := ⟨(h.committedSnapshot h.small).2, (h.committedSnapshot h.small).1⟩
  reader _ hread _ _ h := h.reader hread

/-- A look at the clock that retires no slot and folds only active ones leaves a
commit state at the same level. -/
theorem level_look {tid : ℕ} {read : Prop} {c : CommitState} (hrested : Rested tid maxReadsInRow c)
    (hread : read → Rested tid (maxReadsInRow - 1) c)
    (hfold : c.globalDirty = .clean ∨ SomeActive c) :
    ∃ m, Level tid read m c (c.currentVersionForReader tid).1 := by
  obtain ⟨reads, hcount, hlook⟩ : ∃ reads, (read → Rested tid maxReadsInRow
      { c with readsInRow := reads }) ∧ (c.currentVersionForReader tid).1 =
        ({ c with readsInRow := reads }.committedSnapshot c.clock).1 := by
    simp only [CommitState.currentVersionForReader, CommitState.committedRead]
    split_ifs with hnone hmany
    · exact ⟨c.readsInRow, fun _ => hrested, rfl⟩
    · cases hrested with
      | inl heq => exact absurd heq hnone
      | inr hle => exact absurd hmany hle.not_gt
    · refine ⟨_, fun hr => ?_, rfl⟩
      have hle : c.readsInRow.getD tid readInRowInactive ≤ maxReadsInRow - 1 :=
        (hread hr).resolve_left hnone
      simp only [Rested, List.getD_eq_getElem?_getD, List.getElem?_set, if_true]
      split_ifs
      · exact .inr (Nat.add_le_of_le_sub (by decide) hle)
      · exact .inl rfl
  rw [hlook]
  cases hflag : c.globalDirty with
  | clean =>
    refine ⟨0, ?_⟩
    simp only [CommitState.committedSnapshot]
    exact ⟨rfl, rfl, fun _ _ => Nat.zero_le _, Nat.zero_le _, Nat.zero_le _, le_rfl,
      le_max_left _ _, .inl ⟨hflag.symm, fun _ => rfl⟩, fun hr => ⟨hrested, hcount hr⟩⟩
  | dirty =>
    obtain ⟨s, hs, hclock, hsmall⟩ := hfold.resolve_left (by simp [hflag])
    have hle : c.scan c.clock ≤ s := scan_le c.clock hs
    have hmem : c.scan c.clock ∈ c.slots := by
      cases scan_eq c c.clock with
      | inr hmem => exact hmem
      | inl heq =>
        have hsame : s = c.scan c.clock := by omega
        exact hsame ▸ hs
    refine ⟨c.scan c.clock, ?_⟩
    simp only [CommitState.committedSnapshot]
    exact ⟨rfl, rfl, fun _ h => scan_le c.clock h, hle.trans hclock, hle.trans hsmall.le,
      le_max_left _ _, le_rfl, .inr ⟨hflag, rfl, rfl, hmem⟩, fun hr => ⟨hrested, hcount hr⟩⟩
  | scanning =>
    obtain ⟨s, hs, hclock, hsmall⟩ := hfold.resolve_left (by simp [hflag])
    have hle : c.scan c.clock ≤ s := scan_le c.clock hs
    refine ⟨c.scan c.clock, ?_⟩
    simp only [CommitState.committedSnapshot]
    exact ⟨rfl, rfl, fun _ h => scan_le c.clock h, hle.trans hclock, hle.trans hsmall.le,
      le_max_left _ _, le_rfl, .inl ⟨hflag.symm, by simp [hflag]⟩,
      fun hr => ⟨hrested, hcount hr⟩⟩

end CMVBT.ClockFrame
