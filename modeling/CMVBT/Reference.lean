import CMVBT.VersionedLog
import CMVBT.WritePath

/-!
# The reference map

What the tree is for, said without pages: a map whose keys each have a history of
version-stamped changes. `Answers` says which answer an operation may give and
what it adds to the history, `Replay` does so for a sequence of operations.
-/
namespace CMVBT.Reference
open VersionedLog WritePath

variable {K P : Type} [DecidableEq K]

/-- The answer of one operation on the history `log` and the history after it. -/
inductive Answers (log : Log K P) : WriteOperation K P → WriteResult → Log K P → Prop
  | inserted {key : K} {payload : P} {version : ℕ} : live log key = none → Before log version →
      Answers log (.insert key payload) (.inserted version) (⟨version, key, some payload⟩ :: log)
  | alreadyExists {key : K} {payload old : P} : live log key = some old →
      Answers log (.insert key payload) (.zeroAffected .keyAlreadyExists) log
  | updated {key : K} {payload old : P} {version : ℕ} : live log key = some old →
      Before log version →
      Answers log (.update key payload) (.updated version) (⟨version, key, some payload⟩ :: log)
  | notUpdated {key : K} {payload : P} {reason : InnerReason} : live log key = none →
      reason = .keyDoesNotExist ∨ reason = .keyAlreadyDeleted →
      Answers log (.update key payload) (.zeroAffected reason) log
  | deleted {key : K} {old : P} {version : ℕ} : live log key = some old → Before log version →
      Answers log (.delete key) (.deleted version) (⟨version, key, none⟩ :: log)
  | notDeleted {key : K} {reason : InnerReason} : live log key = none →
      reason = .keyDoesNotExist ∨ reason = .keyAlreadyDeleted →
      Answers log (.delete key) (.zeroAffected reason) log

/-- The answers of a sequence of operations. -/
inductive Replay : Log K P → List (WriteOperation K P) → List WriteResult → Log K P → Prop
  | nil {log : Log K P} : Replay log [] [] log
  | cons {log log' log'' : Log K P} {op : WriteOperation K P} {ops : List (WriteOperation K P)}
      {r : WriteResult} {rs : List WriteResult} : Answers log op r log' →
      Replay log' ops rs log'' → Replay log (op :: ops) (r :: rs) log''

/-- The version of an operation that succeeded. -/
def committed : WriteResult → Option ℕ
  | .inserted version => some version
  | .updated version => some version
  | .deleted version => some version
  | .zeroAffected _ => none

/-- A successful operation is newer than everything before it and becomes the
newest change. -/
theorem Answers.committed {log log' : Log K P} {op : WriteOperation K P} {r : WriteResult}
    (h : Answers log op r log') {v : ℕ} (hv : committed r = some v) :
    Before log v ∧ ∃ s, log' = s :: log ∧ s.version = v := by
  cases h <;> simp only [Reference.committed, Option.some.injEq, reduceCtorEq] at hv <;> subst hv <;>
    exact ⟨‹_›, _, rfl, rfl⟩

theorem Answers.suffix {log log' : Log K P} {op : WriteOperation K P} {r : WriteResult}
    (h : Answers log op r log') : ∀ s ∈ log, s ∈ log' := by
  intro s hs
  cases h <;> first | exact hs | exact List.mem_cons_of_mem _ hs

theorem Replay.newer {log log' : Log K P} {ops : List (WriteOperation K P)}
    {rs : List WriteResult} (h : Replay log ops rs log') :
    ∀ v ∈ rs.filterMap Reference.committed, ∀ s ∈ log, s.version < v := by
  induction h with
  | nil => simp
  | @cons log log' log'' op ops r rs ha _ ih =>
    intro v hv s hs
    cases hr : Reference.committed r with
    | none =>
      rw [List.filterMap_cons_none hr] at hv
      exact ih v hv s (ha.suffix s hs)
    | some w =>
      rw [List.filterMap_cons_some hr] at hv
      rcases List.mem_cons.mp hv with rfl | hv
      · exact (ha.committed hr).1 s hs
      · exact ih v hv s (ha.suffix s hs)

/-- The versions of successful operations strictly increase. -/
theorem Replay.increasing {log log' : Log K P} {ops : List (WriteOperation K P)}
    {rs : List WriteResult} (h : Replay log ops rs log') :
    (rs.filterMap Reference.committed).Pairwise (· < ·) := by
  induction h with
  | nil => simp
  | @cons log log' log'' op ops r rs ha hrest ih =>
    cases hr : Reference.committed r with
    | none => rwa [List.filterMap_cons_none hr]
    | some w =>
      rw [List.filterMap_cons_some hr, List.pairwise_cons]
      refine ⟨fun v hv => ?_, ih⟩
      obtain ⟨-, s, hlog, hs⟩ := ha.committed hr
      rw [← hs]
      exact hrest.newer v hv s (by simp [hlog])

theorem Replay.suffix {log log' : Log K P} {ops : List (WriteOperation K P)}
    {rs : List WriteResult} (h : Replay log ops rs log') : ∀ s ∈ log, s ∈ log' := by
  induction h with
  | nil => exact fun _ hs => hs
  | cons ha _ ih => exact fun s hs => ih s (ha.suffix s hs)

/-- Every successful operation is in the history. -/
theorem Replay.committed_mem {log log' : Log K P} {ops : List (WriteOperation K P)}
    {rs : List WriteResult} (h : Replay log ops rs log') {v : ℕ}
    (hv : v ∈ rs.filterMap Reference.committed) : ∃ s ∈ log', s.version = v := by
  induction h with
  | nil => simp at hv
  | @cons log log' log'' op ops r rs ha hrest ih =>
    cases hr : Reference.committed r with
    | none =>
      rw [List.filterMap_cons_none hr] at hv
      exact ih hv
    | some w =>
      rw [List.filterMap_cons_some hr] at hv
      rcases List.mem_cons.mp hv with rfl | hv
      · obtain ⟨-, s, hlog, hs⟩ := ha.committed hr
        exact ⟨s, hrest.suffix s (by simp [hlog]), hs⟩
      · exact ih hv

/-- A key that is never inserted does not enter the history. -/
theorem Answers.key_absent {log log' : Log K P} {op : WriteOperation K P} {r : WriteResult}
    (h : Answers log op r log') {key : K} (hop : ∀ p, op ≠ .insert key p)
    (hlog : ∀ s ∈ log, s.key ≠ key) : ∀ s ∈ log', s.key ≠ key := by
  have hlive := live_absent hlog
  cases h with
  | @inserted k p w _ _ =>
    intro s hs
    rcases List.mem_cons.mp hs with rfl | hs
    · rintro rfl
      exact hop p rfl
    · exact hlog s hs
  | @updated k p old w hsome _ =>
    intro s hs
    rcases List.mem_cons.mp hs with rfl | hs
    · rintro rfl
      rw [hlive] at hsome
      cases hsome
    · exact hlog s hs
  | @deleted k old w hsome _ =>
    intro s hs
    rcases List.mem_cons.mp hs with rfl | hs
    · rintro rfl
      rw [hlive] at hsome
      cases hsome
    · exact hlog s hs
  | alreadyExists _ => exact hlog
  | notUpdated _ _ => exact hlog
  | notDeleted _ _ => exact hlog

theorem Replay.key_absent {log log' : Log K P} {ops : List (WriteOperation K P)}
    {rs : List WriteResult} (h : Replay log ops rs log') {key : K}
    (hops : ∀ p, .insert key p ∉ ops) (hlog : ∀ s ∈ log, s.key ≠ key) :
    ∀ s ∈ log', s.key ≠ key := by
  induction h with
  | nil => exact hlog
  | @cons log log' log'' op ops r rs ha _ ih =>
    refine ih (fun p hp => hops p (List.mem_cons_of_mem _ hp)) (ha.key_absent ?_ hlog)
    rintro p rfl
    exact hops p (by simp)

end CMVBT.Reference
