import CMVBT.InPlaceRefinement
import CMVBT.RandomTermination
import CMVBT.WorkloadFile

/-!
# Random operations against operations for a key

An answer of a random operation names the key it has chosen. What it says is what
the operation for that key would have done to the reference map. The workload
generator writes the named operations to a file; replayed one by one, each of them
takes effect.

`UpdateRand` and `DeleteRand` draw from the live records of the leaf they come to.
Only when no key is live at all is there none: then the draw from an empty range
panics.
-/
namespace CMVBT.RandomRefinement
open KeyInterval LastMatch FenceTiling VersionedLog PageModel FrugalList CommitClock Tracker
open CMVBT.Tree
open BlockSupply WritePath ReadPath LeafHistory TreeInvariant PageRewrite NewPages ChildRepair
open RootRewrite Descent LeafWrite Reference WriteOperations FreshTree TreeShape InPlaceUpdate
open InPlaceRefinement ReaderHistory RandomOperations PackedCounters RandomDescent RandomTermination
open WorkloadFile (queryOp)
open WorkloadFile.Paper (FileOp)

/-! ## The generator -/

section Generator
variable {P : Type} [Inhabited P] (cfg : Config UInt64)

inductive RandomOperation where
  | insertRand
  | updateRand
  | deleteRand
deriving DecidableEq, Repr

/-- The arms of `dispatch_crud` for random operations. -/
def dispatchRand (fuel : ℕ) (t : MVBTSt UInt64 P) (draws : Draws) :
    RandomOperation → Except Fault (MVBTSt UInt64 P × RandomResult UInt64)
  | .insertRand => dispatchInsertRand cfg fuel fuel t draws
  | .updateRand => dispatchUpdateRand cfg fuel t draws
  | .deleteRand => dispatchDeleteRand cfg fuel t draws

/-- The record that `generate_query` writes for an answer. It has none for an answer
without effect: `io_handle` panics on the random operation itself. -/
def recordOf : RandomResult UInt64 → Except Fault FileOp
  | .insertedRand key _ => .ok (.insert key)
  | .updatedRand key _ => .ok (.update key)
  | .deletedRand key _ => .ok (.delete key)
  | .zeroAffected _ => .error .unreachable

/-- The loop over the operations of all blocks. -/
def generateBlocks (fuel : ℕ) : MVBTSt UInt64 P → List (RandomOperation × Draws) →
    Except Fault (List FileOp)
  | _, [] => .ok []
  | t, (op, draws) :: ops => do
    let (t, result) ← dispatchRand cfg fuel t draws op
    let record ← recordOf result
    let records ← generateBlocks fuel t ops
    return record :: records

/-- The loop over the initial keys: a key that is in `map` is drawn again. -/
def populate : MVBTSt UInt64 P → Finset UInt64 → List UInt64 →
    Except Fault (MVBTSt UInt64 P × List FileOp)
  | t, _, [] => .ok (t, [])
  | t, map, key :: keys =>
    if key ∈ map then populate t map keys
    else do
      let (t, _) ← dispatchWrite cfg t (.insert key default)
      let (t, order) ← populate t (insert key map) keys
      return (t, .insert key :: order)

/-- `load_query`: an operation without effect panics. -/
def loadQuery : MVBTSt UInt64 P → List FileOp → Except Fault (MVBTSt UInt64 P)
  | t, [] => .ok t
  | t, op :: ops => do
    let (t, result) ← dispatchWrite cfg t (queryOp default op)
    if succeeded result then loadQuery t ops else .error .unreachable

/-- `generate_query` with skew 0. The initial keys are the outcomes of the generator;
without initial keys the operations are appended to the records that the file
already has. The result is the new file. -/
def generateQuery (fuel : ℕ) (tosses : ℕ → Toss) (threads tid : ℕ) (initial : List UInt64)
    (file : List FileOp) (blocks : List (RandomOperation × Draws)) :
    Except Fault (List FileOp) := do
  let mvTree : MVBTSt UInt64 P := make tosses threads tid
  if initial = [] then
    let mvTree ← loadQuery cfg mvTree file
    let records ← generateBlocks cfg fuel mvTree blocks
    return file ++ records
  else
    let (mvTree, order) ← populate cfg mvTree ∅ initial
    let records ← generateBlocks cfg fuel mvTree blocks
    return order ++ records

/-- The keys that are live after a workload, none if an assertion fails. -/
def liveAfter : Finset UInt64 → List FileOp → Option (Finset UInt64)
  | live, [] => some live
  | live, .insert key :: ops => if key ∈ live then none else liveAfter (insert key live) ops
  | live, .update key :: ops => if key ∈ live then liveAfter live ops else none
  | live, .delete key :: ops => if key ∈ live then liveAfter (live.erase key) ops else none

/-- Every operation of the workload takes effect when they run one by one. -/
def SeriallyValid (ops : List FileOp) : Prop := (liveAfter ∅ ops).isSome = true

/-- The descents of a random operation are sound. -/
def SoundDescents (fuel : ℕ) (t : MVBTSt UInt64 P) (draws : Draws) : RandomOperation → Prop
  | .insertRand => InsertsSoundly cfg fuel fuel t draws
  | .updateRand => DescendsSoundly cfg fuel t none draws
  | .deleteRand => DescendsSoundly cfg fuel t none draws

/-- The descents of all operations of the blocks are sound. -/
def GeneratesSoundly (fuel : ℕ) : MVBTSt UInt64 P → List (RandomOperation × Draws) → Prop
  | _, [] => True
  | t, (op, draws) :: ops => SoundDescents cfg fuel t draws op ∧
      ∀ t' result, dispatchRand cfg fuel t draws op = .ok (t', result) →
        GeneratesSoundly fuel t' ops

/-- The fence of the leaf that an insert has chosen in its last call. -/
def chosenFence (fuel : ℕ) : ℕ → MVBTSt UInt64 P → Draws → Except Fault (Interval UInt64)
  | 0, _, _ => .error .outOfFuel
  | calls + 1, t, draws => do
    match ← insertRandOnce cfg fuel t draws with
    | (_, some _, _) => return (← traversalWriteRand cfg fuel t none draws).2.1
    | (t, none, draws) => chosenFence fuel calls t draws

end Generator

/-! ## What the answers say -/

section Effects
variable {P : Type} [Inhabited P] {cfg : Config UInt64} {t t' : MVBTSt UInt64 P}
  {log : Log UInt64 P} {fuel : ℕ} {draws : Draws}

/-- The answer is one that the reference map may give, and the tree holds the history
after it. -/
def TakesEffect (cfg : Config UInt64) (log : Log UInt64 P) (op : WriteOperation UInt64 P)
    (r : WriteResult) (t' : MVBTSt UInt64 P) : Prop :=
  ∃ log', Answers log op r log' ∧ Carries cfg t' log'

omit [Inhabited P] in
theorem before_of_landed {t₁ : MVBTSt UInt64 P} {g g₁ : Ghost UInt64 P} {leaf : ℕ}
    {fence : Interval UInt64} (hl : Landed cfg t g t₁ g₁ leaf fence) :
    Before g.log t₁.commit.clock := by
  have := hl.inv.living.logged
  rwa [hl.log] at this

theorem updateRand_cases (hc : Roomy cfg) (h : Carries cfg t log)
    (hflag : t.updateInPlace = false) (hsound : DescendsSoundly cfg fuel t none draws) :
    (traversalWriteRand cfg fuel t none draws = .error .outOfFuel ∧
      dispatchUpdateRand cfg fuel t draws = .error .outOfFuel) ∨
    (dispatchUpdateRand cfg fuel t draws = .error .emptyRange ∧ ∀ key, live log key = none) ∨
    ∃ t' key v, dispatchUpdateRand cfg fuel t draws = .ok (t', .updatedRand key v) ∧
      TakesEffect cfg log (.update key default) (.updated v) t' ∧ t'.updateInPlace = false := by
  rcases h with ⟨hfresh, rfl⟩ | ⟨g, hinv, rfl⟩
  · rcases traversalWriteRand_fresh_eq hc hfresh fuel draws with htr | htr
    · refine .inl ⟨htr, ?_⟩
      simp only [dispatchUpdateRand, htr, bind, Except.bind]
    · refine .inr (.inl ⟨?_, fun _ => rfl⟩)
      simp only [dispatchUpdateRand, htr, bind, Except.bind, asLeafPage_fresh hfresh,
        activeDeadCount_new, if_true]
  · rcases traversalWriteRand_sound hc fuel t g none draws hinv (fun x hx => by cases hx) hsound
      with htr | ⟨t₁, g₁, fence, leaf, draws₁, htr, hl⟩
    · refine .inl ⟨htr, ?_⟩
      simp only [dispatchUpdateRand, htr, bind, Except.bind]
    · have hplain := overwritesRand_plain htr (hl.intact.in_place.trans hflag)
      have hbefore := before_of_landed hl
      rcases dispatchUpdateRand_landed htr hl.inv hl.standing hl.level hplain with
        ⟨hrun, hnone⟩ | ⟨t', key, old, hrun, hlive, hcar, hplace⟩
      · rw [hl.log] at hnone
        exact .inr (.inl ⟨hrun, hnone⟩)
      · rw [hl.log] at hlive hcar
        exact .inr (.inr ⟨t', key, _, hrun, ⟨_, .updated hlive hbefore, hcar⟩,
          hplace.trans (hl.intact.in_place.trans hflag)⟩)

omit [Inhabited P] in
theorem deleteRand_cases (hc : Roomy cfg) (h : Carries cfg t log)
    (hflag : t.updateInPlace = false) (hsound : DescendsSoundly cfg fuel t none draws) :
    (traversalWriteRand cfg fuel t none draws = .error .outOfFuel ∧
      dispatchDeleteRand cfg fuel t draws = .error .outOfFuel) ∨
    (dispatchDeleteRand cfg fuel t draws = .error .emptyRange ∧ ∀ key, live log key = none) ∨
    ∃ t' key v, dispatchDeleteRand cfg fuel t draws = .ok (t', .deletedRand key v) ∧
      TakesEffect cfg log (.delete key) (.deleted v) t' ∧ t'.updateInPlace = false := by
  rcases h with ⟨hfresh, rfl⟩ | ⟨g, hinv, rfl⟩
  · rcases traversalWriteRand_fresh_eq hc hfresh fuel draws with htr | htr
    · refine .inl ⟨htr, ?_⟩
      simp only [dispatchDeleteRand, htr, bind, Except.bind]
    · refine .inr (.inl ⟨?_, fun _ => rfl⟩)
      simp only [dispatchDeleteRand, htr, bind, Except.bind, asLeafPage_fresh hfresh,
        activeDeadCount_new, if_true]
  · rcases traversalWriteRand_sound hc fuel t g none draws hinv (fun x hx => by cases hx) hsound
      with htr | ⟨t₁, g₁, fence, leaf, draws₁, htr, hl⟩
    · refine .inl ⟨htr, ?_⟩
      simp only [dispatchDeleteRand, htr, bind, Except.bind]
    · have hbefore := before_of_landed hl
      rcases dispatchDeleteRand_landed htr hl.inv hl.standing hl.level with
        ⟨hrun, hnone⟩ | ⟨t', key, old, hrun, hlive, hcar, hplace⟩
      · rw [hl.log] at hnone
        exact .inr (.inl ⟨hrun, hnone⟩)
      · rw [hl.log] at hlive hcar
        exact .inr (.inr ⟨t', key, _, hrun, ⟨_, .deleted hlive hbefore, hcar⟩,
          hplace.trans (hl.intact.in_place.trans hflag)⟩)

theorem insertRandOnce_cases (hc : Roomy cfg) (h : Carries cfg t log)
    (hflag : t.updateInPlace = false) (hsound : DescendsSoundly cfg fuel t none draws) :
    insertRandOnce cfg fuel t draws = .error .outOfFuel ∨
    (∃ t' draws', insertRandOnce cfg fuel t draws = .ok (t', none, draws') ∧
      Carries cfg t' log ∧ t'.updateInPlace = false) ∨
    ∃ t' key v draws' out, insertRandOnce cfg fuel t draws =
        .ok (t', some (.insertedRand key v), draws') ∧
      traversalWriteRand cfg fuel t none draws = .ok out ∧ key ∈ out.2.1 ∧
      TakesEffect cfg log (.insert key default) (.inserted v) t' ∧ t'.updateInPlace = false := by
  rcases h with ⟨hfresh, rfl⟩ | ⟨g, hinv, rfl⟩
  · rcases traversalWriteRand_fresh_eq hc hfresh fuel draws with htr | htr
    · left
      simp only [insertRandOnce, htr, bind, Except.bind]
    · rcases @insertRandOnce_fresh _ _ cfg t fuel draws hc hfresh with hrun |
        ⟨t', key, draws', hrun, hk, hcar, hplace⟩
      · exact .inl hrun
      · exact .inr (.inr ⟨t', key, _, draws', _, hrun, htr, hk,
          ⟨_, .inserted rfl (fun s hs => absurd hs List.not_mem_nil), hcar⟩,
          hplace.trans hflag⟩)
  · rcases traversalWriteRand_sound hc fuel t g none draws hinv (fun x hx => by cases hx) hsound
      with htr | ⟨t₁, g₁, fence, leaf, draws₁, htr, hl⟩
    · left
      simp only [insertRandOnce, htr, bind, Except.bind]
    · have hbefore := before_of_landed hl
      have hplain := hl.intact.in_place.trans hflag
      rcases insertRandOnce_landed htr hl.inv hl.standing hl.level with ⟨draws', hrun⟩ |
        ⟨t', key, draws', hrun, hk, hnone, hcar, hplace⟩
      · exact .inr (.inl ⟨t₁, draws', hrun, .inr ⟨g₁, hl.inv, hl.log⟩, hplain⟩)
      · rw [hl.log] at hnone hcar
        exact .inr (.inr ⟨t', key, _, draws', _, hrun, htr, hk,
          ⟨_, .inserted hnone hbefore, hcar⟩, hplace.trans hplain⟩)

/-- An insert that returns has chosen a key that was not live. -/
theorem insertRand_effect (hc : Roomy cfg) {result : RandomResult UInt64} (calls : ℕ) :
    ∀ (t : MVBTSt UInt64 P) (draws : Draws), Carries cfg t log → t.updateInPlace = false →
      InsertsSoundly cfg fuel calls t draws →
      ∀ t', dispatchInsertRand cfg fuel calls t draws = .ok (t', result) →
        ∃ key v fence, result = .insertedRand key v ∧
          chosenFence cfg fuel calls t draws = .ok fence ∧ key ∈ fence ∧
          TakesEffect cfg log (.insert key default) (.inserted v) t' ∧
          t'.updateInPlace = false := by
  induction calls with
  | zero =>
    intro t draws _ _ _ t' hrun
    cases hrun
  | succ calls ih =>
    intro t draws h hflag hsound t' hrun
    obtain ⟨hfirst, hnext⟩ := hsound
    rcases insertRandOnce_cases hc h hflag hfirst with hone | ⟨t₁, draws₁, hone, hcar, hplain⟩ |
      ⟨t₁, key, v, draws₁, out, hone, htr, hk, heffect, hplain⟩
    · simp only [dispatchInsertRand, hone, bind, Except.bind] at hrun
      cases hrun
    · simp only [dispatchInsertRand, hone, bind, Except.bind] at hrun
      simp only [chosenFence, hone, bind, Except.bind]
      exact ih t₁ draws₁ hcar hplain (hnext t₁ draws₁ hone) t' hrun
    · simp only [dispatchInsertRand, hone, bind, Except.bind] at hrun
      cases hrun
      refine ⟨key, v, out.2.1, rfl, ?_, hk, heffect, hplain⟩
      simp only [chosenFence, hone, htr, bind, Except.bind, pure, Except.pure]

omit [Inhabited P] in
/-- With enough fuel the descent has ended. -/
theorem descent_ends (hc : Roomy cfg) (h : Carries cfg t log)
    (hsound : ∀ fuel, DescendsSoundly cfg fuel t none draws) :
    ∃ n, ∀ fuel, n ≤ fuel → traversalWriteRand cfg fuel t none draws ≠ .error .outOfFuel := by
  rcases h with ⟨hfresh, -⟩ | ⟨g, hinv, -⟩
  · refine ⟨2, fun fuel hfuel hrun => ?_⟩
    obtain ⟨fuel, rfl⟩ : ∃ k, fuel = k + 2 := ⟨fuel - 2, by omega⟩
    have hround : randomRound cfg t 0 draws = .ok .arrive := by
      simp only [randomRound, hfresh.heap, Node.newLeaf]
    simp only [traversalWriteRand, retrieveRoot_fresh hc hfresh, hround, bind, Except.bind, pure,
      Except.pure] at hrun
    cases hrun
  · exact traversalWriteRand_ends hc _ t g none draws rfl hinv (fun x hx => by cases hx) hsound

/-- `UpdateRand` returns if and only if a key is live, and then the answer is right. -/
theorem updateRand_iff (hc : Roomy cfg) (h : Carries cfg t log) (hflag : t.updateInPlace = false)
    (hsound : ∀ fuel, DescendsSoundly cfg fuel t none draws) :
    (∃ n, ∀ fuel, n ≤ fuel → ∃ t' key v,
      dispatchUpdateRand cfg fuel t draws = .ok (t', .updatedRand key v) ∧
        TakesEffect cfg log (.update key default) (.updated v) t') ↔
      ∃ key, (live log key).isSome = true := by
  constructor
  · rintro ⟨n, hn⟩
    obtain ⟨t', key, v, -, log', hans, -⟩ := hn n le_rfl
    cases hans with
    | updated hlive _ => exact ⟨key, by rw [hlive]; rfl⟩
  · rintro ⟨key₀, hlive⟩
    obtain ⟨n, hn⟩ := descent_ends hc h hsound
    refine ⟨n, fun fuel hfuel => ?_⟩
    rcases updateRand_cases hc h hflag (hsound fuel) with ⟨hrun, -⟩ | ⟨-, hnone⟩ |
      ⟨t', key, v, hrun, heffect, -⟩
    · exact absurd hrun (hn fuel hfuel)
    · rw [hnone key₀] at hlive
      cases hlive
    · exact ⟨t', key, v, hrun, heffect⟩

omit [Inhabited P] in
theorem deleteRand_iff (hc : Roomy cfg) (h : Carries cfg t log) (hflag : t.updateInPlace = false)
    (hsound : ∀ fuel, DescendsSoundly cfg fuel t none draws) :
    (∃ n, ∀ fuel, n ≤ fuel → ∃ t' key v,
      dispatchDeleteRand cfg fuel t draws = .ok (t', .deletedRand key v) ∧
        TakesEffect cfg log (.delete key) (.deleted v) t') ↔
      ∃ key, (live log key).isSome = true := by
  constructor
  · rintro ⟨n, hn⟩
    obtain ⟨t', key, v, -, log', hans, -⟩ := hn n le_rfl
    cases hans with
    | deleted hlive _ => exact ⟨key, by rw [hlive]; rfl⟩
  · rintro ⟨key₀, hlive⟩
    obtain ⟨n, hn⟩ := descent_ends hc h hsound
    refine ⟨n, fun fuel hfuel => ?_⟩
    rcases deleteRand_cases hc h hflag (hsound fuel) with ⟨hrun, -⟩ | ⟨-, hnone⟩ |
      ⟨t', key, v, hrun, heffect, -⟩
    · exact absurd hrun (hn fuel hfuel)
    · rw [hnone key₀] at hlive
      cases hlive
    · exact ⟨t', key, v, hrun, heffect⟩

end Effects

/-! ## Workloads -/

section Workloads
variable {P : Type} [Inhabited P] {cfg : Config UInt64} {log log' : Log UInt64 P}
  {keys : Finset UInt64}

/-- The keys of a set are those that are live. -/
def Tracks (keys : Finset UInt64) (log : Log UInt64 P) : Prop :=
  ∀ key, key ∈ keys ↔ (live log key).isSome = true

/-- A recorded operation that takes effect passes the assertion of the replay. -/
theorem liveAfter_step {op : FileOp} {r : WriteResult}
    (h : Answers log (queryOp default op : WriteOperation UInt64 P) r log')
    (hs : succeeded r = true) (ht : Tracks keys log) :
    ∃ keys', Tracks keys' log' ∧ ∀ ops, liveAfter keys (op :: ops) = liveAfter keys' ops := by
  cases op with
  | insert key =>
    cases h with
    | alreadyExists _ => cases hs
    | inserted hnone _ =>
      have hmem : key ∉ keys := by rw [ht, hnone]; simp
      refine ⟨insert key keys, fun k => ?_, fun ops => by rw [liveAfter, if_neg hmem]⟩
      rw [Finset.mem_insert, live_cons, ht]
      by_cases hk : key = k
      · simp [hk]
      · simp [hk, Ne.symm hk]
  | update key =>
    cases h with
    | notUpdated _ _ => cases hs
    | updated hlive _ =>
      have hmem : key ∈ keys := by rw [ht, hlive]; rfl
      refine ⟨keys, fun k => ?_, fun ops => by rw [liveAfter, if_pos hmem]⟩
      rw [live_cons]
      by_cases hk : key = k
      · subst hk
        simp [hmem]
      · rw [if_neg hk, ht]
  | delete key =>
    cases h with
    | notDeleted _ _ => cases hs
    | deleted hlive _ =>
      have hmem : key ∈ keys := by rw [ht, hlive]; rfl
      refine ⟨keys.erase key, fun k => ?_, fun ops => by rw [liveAfter, if_pos hmem]⟩
      rw [Finset.mem_erase, live_cons, ht]
      by_cases hk : key = k
      · simp [hk]
      · simp [hk, Ne.symm hk]

theorem liveAfter_append (later : List FileOp) (ops : List FileOp) :
    ∀ keys, liveAfter keys (ops ++ later) =
      (liveAfter keys ops).bind (fun keys' => liveAfter keys' later) := by
  induction ops with
  | nil => exact fun _ => rfl
  | cons op ops ih =>
    intro keys
    cases op with
    | insert key =>
      simp only [List.cons_append, liveAfter]
      split_ifs
      · rfl
      · exact ih _
    | update key =>
      simp only [List.cons_append, liveAfter]
      split_ifs
      · exact ih _
      · rfl
    | delete key =>
      simp only [List.cons_append, liveAfter]
      split_ifs
      · exact ih _
      · rfl

/-- The changes that the answers of a history report. -/
def reported (log : Log UInt64 P) (op : WriteOperation UInt64 P) (r : WriteResult) :
    Log UInt64 P :=
  match committed r, op with
  | none, _ => log
  | some version, .insert key payload => ⟨version, key, some payload⟩ :: log
  | some version, .update key payload => ⟨version, key, some payload⟩ :: log
  | some version, .delete key => ⟨version, key, none⟩ :: log

/-- The changes that a history of writes reports. -/
def reportedAll (log : Log UInt64 P) (ops : List (WriteOperation UInt64 P))
    (rs : List WriteResult) : Log UInt64 P :=
  (ops.zip rs).foldl (fun log x => reported log x.1 x.2) log

omit [Inhabited P] in
/-- What every write keeps, a history of writes keeps. -/
theorem runWrites_closed {cfg : Config UInt64} {R : MVBTSt UInt64 P → Log UInt64 P → Prop}
    (hwrite : ∀ {t t' log op r}, R t log → dispatchWrite cfg t op = .ok (t', r) →
      R t' (reported log op r)) (ops : List (WriteOperation UInt64 P)) :
    ∀ {t t' log rs}, R t log → runWrites cfg t ops = .ok (t', rs) →
      R t' (reportedAll log ops rs) := by
  induction ops with
  | nil =>
    intro t t' log rs h hrun
    cases hrun
    exact h
  | cons op ops ih =>
    intro t t' log rs h hrun
    simp only [runWrites, bind, Except.bind] at hrun
    cases hop : dispatchWrite cfg t op with
    | error fault =>
      rw [hop] at hrun
      cases hrun
    | ok x =>
      rw [hop] at hrun
      simp only at hrun
      cases hrest : runWrites cfg x.1 ops with
      | error fault =>
        rw [hrest] at hrun
        cases hrun
      | ok y =>
        rw [hrest] at hrun
        cases hrun
        exact ih (hwrite h hop) hrest

/-- The change that the answer of a random operation reports. -/
def reportedRand (log : Log UInt64 P) : RandomResult UInt64 → Log UInt64 P
  | .insertedRand key version => ⟨version, key, some default⟩ :: log
  | .updatedRand key version => ⟨version, key, some default⟩ :: log
  | .deletedRand key version => ⟨version, key, none⟩ :: log
  | .zeroAffected _ => log

omit [Inhabited P] in
theorem answers_reported {op : WriteOperation UInt64 P} {r : WriteResult}
    (h : Answers log op r log') : log' = reported log op r := by
  cases h <;> rfl

/-- A sound random operation that returns has done what its answer says. -/
theorem dispatchRand_effect (hc : Roomy cfg) {t t' : MVBTSt UInt64 P} {fuel : ℕ} {draws : Draws}
    {op : RandomOperation} {result : RandomResult UInt64} (h : Carries cfg t log)
    (hflag : t.updateInPlace = false) (hsound : SoundDescents cfg fuel t draws op)
    (hrun : dispatchRand cfg fuel t draws op = .ok (t', result)) :
    ∃ record r, recordOf result = .ok record ∧ succeeded r = true ∧
      Answers log (queryOp default record : WriteOperation UInt64 P) r (reportedRand log result) ∧
      Carries cfg t' (reportedRand log result) ∧ t'.updateInPlace = false := by
  cases op with
  | insertRand =>
    obtain ⟨key, v, fence, rfl, -, -, ⟨log', hans, hcar⟩, hplain⟩ :=
      insertRand_effect hc fuel t draws h hflag hsound t' hrun
    obtain rfl := answers_reported hans
    exact ⟨.insert key, .inserted v, rfl, rfl, hans, hcar, hplain⟩
  | updateRand =>
    rw [dispatchRand] at hrun
    rcases updateRand_cases hc h hflag hsound with ⟨-, hrun'⟩ | ⟨hrun', -⟩ |
      ⟨t₁, key, v, hrun', ⟨log', hans, hcar⟩, hplain⟩
    · rw [hrun'] at hrun
      cases hrun
    · rw [hrun'] at hrun
      cases hrun
    · rw [hrun'] at hrun
      cases hrun
      obtain rfl := answers_reported hans
      exact ⟨.update key, .updated v, rfl, rfl, hans, hcar, hplain⟩
  | deleteRand =>
    rw [dispatchRand] at hrun
    rcases deleteRand_cases hc h hflag hsound with ⟨-, hrun'⟩ | ⟨hrun', -⟩ |
      ⟨t₁, key, v, hrun', ⟨log', hans, hcar⟩, hplain⟩
    · rw [hrun'] at hrun
      cases hrun
    · rw [hrun'] at hrun
      cases hrun
    · rw [hrun'] at hrun
      cases hrun
      obtain rfl := answers_reported hans
      exact ⟨.delete key, .deleted v, rfl, rfl, hans, hcar, hplain⟩

theorem generateBlocks_valid (hc : Roomy cfg) {fuel : ℕ} (ops : List (RandomOperation × Draws)) :
    ∀ (t : MVBTSt UInt64 P) (log : Log UInt64 P) (keys : Finset UInt64) (records : List FileOp),
      Carries cfg t log → t.updateInPlace = false → Tracks keys log →
      GeneratesSoundly cfg fuel t ops → generateBlocks cfg fuel t ops = .ok records →
      (liveAfter keys records).isSome = true := by
  induction ops with
  | nil =>
    intro t log keys records _ _ _ _ hrun
    cases hrun
    rfl
  | cons x ops ih =>
    obtain ⟨op, draws⟩ := x
    intro t log keys records h hflag ht hsound hrun
    obtain ⟨hfirst, hnext⟩ := hsound
    cases hop : dispatchRand cfg fuel t draws op with
    | error fault =>
      simp only [generateBlocks, hop, bind, Except.bind] at hrun
      cases hrun
    | ok out =>
      obtain ⟨t₁, result⟩ := out
      obtain ⟨record, r, hrecord, hs, hans, hcar, hplain⟩ :=
        dispatchRand_effect hc h hflag hfirst hop
      simp only [generateBlocks, hop, hrecord, bind, Except.bind] at hrun
      cases hrest : generateBlocks cfg fuel t₁ ops with
      | error fault =>
        rw [hrest] at hrun
        cases hrun
      | ok rest =>
        rw [hrest] at hrun
        cases hrun
        obtain ⟨keys', ht', hstep⟩ := liveAfter_step hans hs ht
        rw [hstep]
        exact ih t₁ _ keys' rest hcar hplain ht' (hnext t₁ result hop) hrest

theorem populate_valid (hc : Roomy cfg) (initial : List UInt64) :
    ∀ (t t' : MVBTSt UInt64 P) (log : Log UInt64 P) (map : Finset UInt64) (order : List FileOp),
      Carries cfg t log → t.updateInPlace = false → Tracks map log →
      populate cfg t map initial = .ok (t', order) →
      ∃ keys log', liveAfter map order = some keys ∧ Carries cfg t' log' ∧
        t'.updateInPlace = false ∧ Tracks keys log' := by
  induction initial with
  | nil =>
    intro t t' log map order h hflag ht hrun
    cases hrun
    exact ⟨map, log, rfl, h, hflag, ht⟩
  | cons key initial ih =>
    intro t t' log map order h hflag ht hrun
    rw [populate] at hrun
    split_ifs at hrun with hmem
    · exact ih t t' log map order h hflag ht hrun
    · obtain ⟨t₁, r, log₁, hwrite, hans, hcar, hplain⟩ :=
        write_answers hc h hflag (.insert key default)
      simp only [hwrite, bind, Except.bind] at hrun
      cases hrest : populate cfg t₁ (insert key map) initial with
      | error fault =>
        rw [hrest] at hrun
        cases hrun
      | ok out =>
        rw [hrest] at hrun
        cases hrun
        cases hans with
        | alreadyExists hlive =>
          rw [ht, hlive] at hmem
          exact absurd rfl hmem
        | @inserted _ _ version hnone hbefore =>
          have ht₁ : Tracks (insert key map) (⟨version, key, some default⟩ :: log) := by
            intro k
            rw [Finset.mem_insert, live_cons, ht]
            by_cases hk : key = k
            · simp [hk]
            · simp [hk, Ne.symm hk]
          obtain ⟨keys, log', hlive, hend⟩ := ih t₁ out.1 _ _ out.2 hcar hplain ht₁ hrest
          exact ⟨keys, log', by rw [liveAfter, if_neg hmem]; exact hlive, hend⟩

theorem loadQuery_valid (hc : Roomy cfg) (file : List FileOp) :
    ∀ (t t' : MVBTSt UInt64 P) (log : Log UInt64 P) (keys : Finset UInt64), Carries cfg t log →
      t.updateInPlace = false → Tracks keys log → loadQuery cfg t file = .ok t' →
      ∃ keys' log', liveAfter keys file = some keys' ∧ Carries cfg t' log' ∧
        t'.updateInPlace = false ∧ Tracks keys' log' := by
  induction file with
  | nil =>
    intro t t' log keys h hflag ht hrun
    cases hrun
    exact ⟨keys, log, rfl, h, hflag, ht⟩
  | cons op file ih =>
    intro t t' log keys h hflag ht hrun
    obtain ⟨t₁, r, log₁, hwrite, hans, hcar, hplain⟩ :=
      write_answers hc h hflag (queryOp default op)
    simp only [loadQuery, hwrite, bind, Except.bind] at hrun
    split_ifs at hrun with hs
    obtain ⟨keys₁, ht₁, hstep⟩ := liveAfter_step hans hs ht
    obtain ⟨keys', log', hlive, hend⟩ := ih t₁ t' log₁ keys₁ hcar hplain ht₁ hrun
    exact ⟨keys', log', by rw [hstep]; exact hlive, hend⟩

/-- The descents that `generate_query` makes on its tree are sound. -/
def QuerySoundly (P : Type) [Inhabited P] (cfg : Config UInt64) (fuel : ℕ) (tosses : ℕ → Toss)
    (threads tid : ℕ) (initial : List UInt64) (file : List FileOp)
    (blocks : List (RandomOperation × Draws)) : Prop :=
  if initial = [] then
    ∀ t : MVBTSt UInt64 P, loadQuery cfg (make tosses threads tid) file = .ok t →
      GeneratesSoundly cfg fuel t blocks
  else
    ∀ (t : MVBTSt UInt64 P) order, populate cfg (make tosses threads tid) ∅ initial =
      .ok (t, order) → GeneratesSoundly cfg fuel t blocks

theorem generateQuery_valid (hc : Roomy cfg) {fuel threads tid : ℕ} {tosses : ℕ → Toss}
    {initial : List UInt64} {file records : List FileOp} {blocks : List (RandomOperation × Draws)}
    (hsound : QuerySoundly P cfg fuel tosses threads tid initial file blocks)
    (hrun : generateQuery (P := P) cfg fuel tosses threads tid initial file blocks = .ok records) :
    SeriallyValid records := by
  have hstart : Carries cfg (make tosses threads tid : MVBTSt UInt64 P) [] :=
    .inl ⟨make_fresh tosses threads tid, rfl⟩
  have htracks : Tracks ∅ ([] : Log UInt64 P) := by
    intro key
    simp [live]
  -- both ways of filling the tree end with a valid file for it
  have hrest : ∀ (t : MVBTSt UInt64 P) (before : List FileOp) (keys : Finset UInt64)
      (log : Log UInt64 P), liveAfter ∅ before = some keys → Carries cfg t log →
      t.updateInPlace = false → Tracks keys log → GeneratesSoundly cfg fuel t blocks →
      ∀ later, generateBlocks cfg fuel t blocks = .ok later → SeriallyValid (before ++ later) := by
    intro t before keys log hbefore hcar hplain ht hs later hlater
    rw [SeriallyValid, liveAfter_append, hbefore]
    exact generateBlocks_valid hc blocks t log keys later hcar hplain ht hs hlater
  unfold QuerySoundly at hsound
  unfold generateQuery at hrun
  split_ifs at hsound hrun
  · cases hload : loadQuery cfg (make tosses threads tid : MVBTSt UInt64 P) file with
    | error fault =>
      simp only [hload, bind, Except.bind] at hrun
      cases hrun
    | ok t =>
      simp only [hload, bind, Except.bind] at hrun
      cases hgen : generateBlocks cfg fuel t blocks with
      | error fault =>
        rw [hgen] at hrun
        cases hrun
      | ok later =>
        rw [hgen] at hrun
        cases hrun
        obtain ⟨keys, log, hlive, hcar, hplain, ht⟩ :=
          loadQuery_valid hc file _ t [] ∅ hstart rfl htracks hload
        exact hrest t file keys log hlive hcar hplain ht (hsound t hload) later hgen
  · cases hpop : populate cfg (make tosses threads tid : MVBTSt UInt64 P) ∅ initial with
    | error fault =>
      simp only [hpop, bind, Except.bind] at hrun
      cases hrun
    | ok out =>
      obtain ⟨t, order⟩ := out
      simp only [hpop, bind, Except.bind] at hrun
      cases hgen : generateBlocks cfg fuel t blocks with
      | error fault =>
        rw [hgen] at hrun
        cases hrun
      | ok later =>
        rw [hgen] at hrun
        cases hrun
        obtain ⟨keys, log, hlive, hcar, hplain, ht⟩ :=
          populate_valid hc initial _ t [] ∅ order hstart rfl htracks hpop
        exact hrest t order keys log hlive hcar hplain ht (hsound t order hpop) later hgen

end Workloads

/-! ## Histories -/

/-- A sound history of a new tree with plain updates, and the changes that its answers
report. -/
inductive Recorded {P : Type} [Inhabited P] (cfg : Config UInt64) :
    MVBTSt UInt64 P → Log UInt64 P → Prop
  | start (gc : Bool) (tosses : ℕ → Toss) (threads tid : ℕ) :
      Recorded cfg (newTree gc tosses threads tid) []
  | reader {t : MVBTSt UInt64 P} {log : Log UInt64 P} (event : ReaderEvent) :
      Recorded cfg t log → Recorded cfg (event.apply t) log
  | write {t t' : MVBTSt UInt64 P} {log : Log UInt64 P} {op : WriteOperation UInt64 P}
      {r : WriteResult} : Recorded cfg t log → dispatchWrite cfg t op = .ok (t', r) →
      Recorded cfg t' (reported log op r)
  | random {t t' : MVBTSt UInt64 P} {log : Log UInt64 P} {fuel : ℕ} {draws : Draws}
      {op : RandomOperation} {result : RandomResult UInt64} : Recorded cfg t log →
      SoundDescents cfg fuel t draws op → dispatchRand cfg fuel t draws op = .ok (t', result) →
      Recorded cfg t' (reportedRand log result)

theorem recorded_carries {P : Type} [Inhabited P] {cfg : Config UInt64} (hc : Roomy cfg)
    {t : MVBTSt UInt64 P} {log : Log UInt64 P} (h : Recorded cfg t log) :
    Carries cfg t log ∧ t.updateInPlace = false := by
  induction h with
  | start gc tosses threads tid =>
    exact ⟨.inl ⟨newTree_fresh gc tosses threads tid, rfl⟩, newTree_in_place gc tosses threads tid⟩
  | reader event _ ih => exact ⟨ih.1.apply event, (apply_in_place event).trans ih.2⟩
  | @write t t' log op r _ hwrite ih =>
    obtain ⟨t₁, r₁, log₁, hwrite₁, hans, hcar, hplain⟩ := write_answers hc ih.1 ih.2 op
    rw [hwrite] at hwrite₁
    cases hwrite₁
    obtain rfl := answers_reported hans
    exact ⟨hcar, hplain⟩
  | random _ hsound hrun ih =>
    obtain ⟨record, r, -, -, -, hcar, hplain⟩ := dispatchRand_effect hc ih.1 ih.2 hsound hrun
    exact ⟨hcar, hplain⟩

/-- Random operations do what they say. At the end of every sound history the tree
holds the changes that the answers report. `UpdateRand` and `DeleteRand` with sound
descents return there, naming a live key and with the effect of the operation for it,
if and only if some key is live; a returning `InsertRand` names a key of the fence of
its leaf that is not live. Every workload that the generator writes in this way is
serially valid. -/
theorem random_operations_refine {P : Type} [Inhabited P] {cfg : Config UInt64} (hc : Roomy cfg) :
    (∀ (t : MVBTSt UInt64 P) (log : Log UInt64 P) (draws : Draws), Recorded cfg t log →
      Carries cfg t log ∧
      ((∀ fuel, DescendsSoundly cfg fuel t none draws) →
        ((∃ n, ∀ fuel, n ≤ fuel → ∃ t' key v,
          dispatchUpdateRand cfg fuel t draws = .ok (t', .updatedRand key v) ∧
            TakesEffect cfg log (.update key default) (.updated v) t') ↔
          ∃ key, (live log key).isSome = true) ∧
        ((∃ n, ∀ fuel, n ≤ fuel → ∃ t' key v,
          dispatchDeleteRand cfg fuel t draws = .ok (t', .deletedRand key v) ∧
            TakesEffect cfg log (.delete key) (.deleted v) t') ↔
          ∃ key, (live log key).isSome = true)) ∧
      ∀ fuel, InsertsSoundly cfg fuel fuel t draws → ∀ t' result,
        dispatchInsertRand cfg fuel fuel t draws = .ok (t', result) →
          ∃ key v fence, result = .insertedRand key v ∧
            chosenFence cfg fuel fuel t draws = .ok fence ∧ key ∈ fence ∧
            TakesEffect cfg log (.insert key default) (.inserted v) t') ∧
    ∀ (fuel : ℕ) (tosses : ℕ → Toss) (threads tid : ℕ) (initial : List UInt64)
      (file : List FileOp) (blocks : List (RandomOperation × Draws)) (records : List FileOp),
      QuerySoundly P cfg fuel tosses threads tid initial file blocks →
      generateQuery (P := P) cfg fuel tosses threads tid initial file blocks = .ok records →
      SeriallyValid records := by
  constructor
  · intro t log draws h
    obtain ⟨hcar, hplain⟩ := recorded_carries hc h
    refine ⟨hcar, fun hsound => ⟨updateRand_iff hc hcar hplain hsound,
      deleteRand_iff hc hcar hplain hsound⟩, fun fuel hsound t' result hrun => ?_⟩
    obtain ⟨key, v, fence, hres, hfence, hk, heffect, -⟩ :=
      insertRand_effect hc fuel t draws hcar hplain hsound t' hrun
    exact ⟨key, v, fence, hres, hfence, hk, heffect⟩
  · intro fuel tosses threads tid initial file blocks records hsound hrun
    exact generateQuery_valid hc hsound hrun
/-- Random draws below a directory with two full leaves: the descent repairs both of
them, then `UpdateRand` and `DeleteRand` take a key of the leaf behind. -/
theorem random_operations_refine_two_repairs :
    ∃ (t : MVBTSt UInt64 ℕ) (rs : List WriteResult) (n : ℕ),
      runWrites ⟨10, 10, u64Space⟩ (newTree false (fun _ => .next) 1 0) filledWrites =
        .ok (t, rs) ∧
      (t.heap t.currentRoot.1).activeDeadCount = (2, 0) ∧
      ∀ fuel, n ≤ fuel →
        (∃ t' key v, dispatchUpdateRand ⟨10, 10, u64Space⟩ fuel t
            (fun i => if i = 0 then 1 else 0) = .ok (t', .updatedRand key v) ∧
          TakesEffect ⟨10, 10, u64Space⟩ (reportedAll [] filledWrites rs) (.update key default)
            (.updated v) t') ∧
        ∃ t' key v, dispatchDeleteRand ⟨10, 10, u64Space⟩ fuel t
            (fun i => if i = 0 then 1 else 0) = .ok (t', .deletedRand key v) ∧
          TakesEffect ⟨10, 10, u64Space⟩ (reportedAll [] filledWrites rs) (.delete key)
            (.deleted v) t' := by
  have hstate : (runWrites ⟨10, 10, u64Space⟩ (newTree false (fun _ => .next) 1 0)
      filledWrites).bind (fun x => (traversalWriteRand ⟨10, 10, u64Space⟩ 6 x.1 none
        (fun i => if i = 0 then 1 else 0)).map (fun _ =>
          decide (DescendsSoundly ⟨10, 10, u64Space⟩ 6 x.1 none (fun i => if i = 0 then 1 else 0) ∧
            (x.1.heap x.1.currentRoot.1).activeDeadCount = (2, 0) ∧
            (live (reportedAll [] filledWrites x.2) 1).isSome = true))) = .ok true := by
    decide +kernel
  obtain ⟨x, hrun, hstate⟩ := of_bind_ok hstate
  obtain ⟨y, hdescent, hvalues⟩ := of_map_ok hstate
  obtain ⟨hsound, hroot, hlive⟩ := of_decide_eq_true hvalues
  have hrec : Recorded ⟨10, 10, u64Space⟩ x.1 (reportedAll [] filledWrites x.2) :=
    runWrites_closed .write filledWrites (.start false (fun _ => .next) 1 0) hrun
  obtain ⟨hupdate, hdelete⟩ := ((random_operations_refine (roomy_ten u64Space)).1 x.1 _ _ hrec).2.1
    (hsound.ended 6 _ _ _ y hdescent)
  obtain ⟨n, hn⟩ := hupdate.mpr ⟨1, hlive⟩
  obtain ⟨m, hm⟩ := hdelete.mpr ⟨1, hlive⟩
  exact ⟨x.1, x.2, max n m, hrun, hroot, fun fuel hfuel =>
    ⟨hn fuel ((le_max_left _ _).trans hfuel), hm fuel ((le_max_right _ _).trans hfuel)⟩⟩

/-- A key is inserted and deleted; afterwards no random update and no random delete
returns, the draw from the empty leaf panics. -/
theorem nothing_to_draw :
    ∃ (t : MVBTSt UInt64 ℕ) (log : Log UInt64 ℕ), Recorded ⟨125, 125, u64Space⟩ t log ∧
      (∀ fuel draws, dispatchUpdateRand ⟨125, 125, u64Space⟩ fuel t draws = .error .outOfFuel ∨
        dispatchUpdateRand ⟨125, 125, u64Space⟩ fuel t draws = .error .emptyRange) ∧
      (∀ fuel draws, dispatchDeleteRand ⟨125, 125, u64Space⟩ fuel t draws = .error .outOfFuel ∨
        dispatchDeleteRand ⟨125, 125, u64Space⟩ fuel t draws = .error .emptyRange) ∧
      dispatchUpdateRand ⟨125, 125, u64Space⟩ 2 t (fun _ => 0) = .error .emptyRange := by
  have hc := roomy_of_capacity (.inl rfl) u64Space
  have hleaf : ((runWrites ⟨125, 125, u64Space⟩ (newTree false (fun _ => .next) 1 0)
      [.insert 7 (70 : ℕ), .delete 7]).bind
      (fun x => retrieveRootWriteOlc ⟨125, 125, u64Space⟩ x.1)).map
      (fun x => (x.1.heap x.2).isLeaf) = .ok true := by
    decide
  have hends : ((runWrites ⟨125, 125, u64Space⟩ (newTree false (fun _ => .next) 1 0)
      [.insert 7 (70 : ℕ), .delete 7]).bind
      (fun x => traversalWriteRand ⟨125, 125, u64Space⟩ 2 x.1 none (fun _ => 0))).map
      (fun x => x.2.2.1) = .ok 0 := by
    decide
  obtain ⟨t₁, r₁, log₁, hwrite₁, hans₁, hcar₁, hplain₁⟩ := write_answers hc
    (.inl ⟨newTree_fresh (P := ℕ) false (fun _ => .next) 1 0, rfl⟩) rfl (.insert 7 70)
  obtain ⟨t₂, r₂, log₂, hwrite₂, hans₂, hcar₂, hplain₂⟩ :=
    write_answers hc hcar₁ hplain₁ (.delete 7)
  simp only [runWrites, hwrite₁, hwrite₂, bind, Except.bind, pure, Except.pure] at hleaf hends
  have hsound := descendsSoundly_root_leaf hleaf
  have hrec : Recorded ⟨125, 125, u64Space⟩ t₂ log₂ := by
    rw [answers_reported hans₂, answers_reported hans₁]
    exact .write (.write (.start false (fun _ => .next) 1 0) hwrite₁) hwrite₂
  have hnone : ∀ key, live log₂ key = none := by
    intro key
    cases hans₁ with
    | alreadyExists hlive => cases hlive
    | inserted _ _ =>
      cases hans₂ with
      | notDeleted hlive _ => cases hlive
      | deleted _ _ =>
        rw [live_cons, live_cons]
        split_ifs <;> rfl
  refine ⟨t₂, log₂, hrec, fun fuel draws => ?_, fun fuel draws => ?_, ?_⟩
  · rcases updateRand_cases hc hcar₂ hplain₂ (hsound fuel draws) with ⟨-, hrun⟩ | ⟨hrun, -⟩ |
      ⟨t', key, v, -, ⟨log', hans, -⟩, -⟩
    · exact .inl hrun
    · exact .inr hrun
    · cases hans with
      | updated hlive _ =>
        rw [hnone] at hlive
        cases hlive
  · rcases deleteRand_cases hc hcar₂ hplain₂ (hsound fuel draws) with ⟨-, hrun⟩ | ⟨hrun, -⟩ |
      ⟨t', key, v, -, ⟨log', hans, -⟩, -⟩
    · exact .inl hrun
    · exact .inr hrun
    · cases hans with
      | deleted hlive _ =>
        rw [hnone] at hlive
        cases hlive
  · rcases updateRand_cases hc hcar₂ hplain₂ (hsound 2 (fun _ => 0)) with ⟨htr, -⟩ | ⟨hrun, -⟩ |
      ⟨t', key, v, -, ⟨log', hans, -⟩, -⟩
    · rw [htr] at hends
      cases hends
    · exact hrun
    · cases hans with
      | updated hlive _ =>
        rw [hnone] at hlive
        cases hlive

end CMVBT.RandomRefinement
