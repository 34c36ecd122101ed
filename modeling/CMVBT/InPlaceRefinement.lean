import CMVBT.ReaderHistory

/-!
# In-place updates against plain updates

Two trees go through the same history of writes and reader events, one with
in-place updates and one without. Both follow one map from keys to payloads, as
long as no update revives a deleted record: the in-place branch runs before the
validation of the source, so such an update succeeds where a plain one fails.
-/
namespace CMVBT.InPlaceRefinement
open KeyInterval VersionedLog PageModel FrugalList CommitClock Tracker CMVBT.Tree BlockSupply
open WritePath
open ReadPath TreeInvariant NewPages Reference WriteOperations FreshTree SnapshotRead InPlaceUpdate
open ReaderHistory

variable {K P : Type} [LinearOrder K]

/-! ## The map of current payloads -/

/-- Whether an operation succeeds on a map. -/
def applies (m : K → Option P) : WriteOperation K P → Bool
  | .insert key _ => (m key).isNone
  | .update key _ => (m key).isSome
  | .delete key => (m key).isSome

/-- The map after an operation. -/
def after (m : K → Option P) (op : WriteOperation K P) : K → Option P :=
  if applies m op then
    match op with
    | .insert key payload => Function.update m key (some payload)
    | .update key payload => Function.update m key (some payload)
    | .delete key => Function.update m key none
  else m

def succeeded (r : WriteResult) : Bool := (committed r).isSome

theorem live_change (log : Log K P) (w : ℕ) (key : K) (p : Option P) :
    live (⟨w, key, p⟩ :: log) = Function.update (live log) key p := by
  funext k
  rw [live_cons]
  by_cases hk : key = k
  · subst hk
    simp
  · rw [if_neg hk, Function.update_of_ne (Ne.symm hk)]

theorem answers_map {log log' : Log K P} {op : WriteOperation K P} {r : WriteResult}
    (h : Answers log op r log') :
    succeeded r = applies (live log) op ∧ live log' = after (live log) op := by
  cases h with
  | inserted hnone _ => simp [succeeded, committed, applies, after, hnone, live_change]
  | alreadyExists hsome => simp [succeeded, committed, applies, after, hsome]
  | updated hsome _ => simp [succeeded, committed, applies, after, hsome, live_change]
  | notUpdated hnone _ => simp [succeeded, committed, applies, after, hnone]
  | deleted hsome _ => simp [succeeded, committed, applies, after, hsome, live_change]
  | notDeleted hnone _ => simp [succeeded, committed, applies, after, hnone]

/-- Without a revival the operation follows the map. -/
theorem acts_map {log log' : Log K P} {op : WriteOperation K P} {r : WriteResult}
    (h : Acts log false op r log') :
    succeeded r = applies (live log) op ∧ live log' = after (live log) op := by
  cases h with
  | answers h => exact answers_map h
  | overwritten hsome => simp [succeeded, committed, applies, after, hsome, live_change]

/-- A revival succeeds where the map says it fails. -/
theorem acts_revived {log log' : Log K P} {op : WriteOperation K P} {r : WriteResult}
    (h : Acts log true op r log') : succeeded r = true ∧ applies (live log) op = false := by
  cases h with
  | revived hnone _ => simp [succeeded, committed, applies, hnone]

section States
variable {cfg : Config K} {t : MVBTSt K P} {log : Log K P}

/-- Point reads at the current version return the payloads of `m`. -/
def Holds (t : MVBTSt K P) (m : K → Option P) : Prop :=
  ∀ key, (dispatchPoint t key t.currentVersion).map Prod.snd =
    .ok ((m key).map (fun payload => (key, payload))).toList

theorem carries_holds (h : Carries cfg t log) : Holds t (live log) := by
  intro key
  rcases h with ⟨hfresh, rfl⟩ | ⟨g, hinv, rfl⟩
  · have hroot : (onAcquireReaderSnapshot t t.currentVersion).rootFor t.currentVersion =
        .ok (0, 1) := by
      have hclock : t.currentVersion = startVersion := hfresh.clock
      rw [hclock]
      change t.rootFor startVersion = _
      rw [MVBTSt.rootFor, hfresh.root]
      rfl
    have hheap : (onAcquireReaderSnapshot t t.currentVersion).heap 0 = .leaf Page.new :=
      hfresh.heap
    simp only [dispatchPoint, hroot, keyPointReadFromRoot, traverseReadKey, hheap, bind,
      Except.bind, pure, Except.pure, Except.map, asUnits_new]
    rfl
  · rw [show t.currentVersion = t.commit.clock from rfl,
      dispatchPoint_reference hinv (readable_newest hinv (Nat.le_succ _)) key,
      liveAt_of_before hinv.living.logged le_rfl]
    rfl

/-- A tree with plain updates revives nothing. -/
theorem revives_plain (hc : Roomy cfg) (h : Carries cfg t log) (hflag : t.updateInPlace = false)
    (op : WriteOperation K P) : revives cfg t op = false := by
  rcases h with ⟨hfresh, rfl⟩ | ⟨g, hinv, rfl⟩
  · exact revives_fresh hc hfresh op
  · cases op with
    | insert key payload => rfl
    | delete key => rfl
    | update key payload =>
      obtain ⟨t₁, g₁, b, htr, harr⟩ := Descent.traversalWrite_arrives hc hinv key
      obtain ⟨p, hl⟩ := Arrived.leafAt harr
      have hnone := inPlaceTarget_none (harr.intact.in_place.trans hflag) p key
      simp [revives, htr, hl.asLeafPage, hnone]

end States

/-! ## Side by side -/

/-- Both trees hold the same map. -/
def SameMap (t t' : MVBTSt K P) : Prop := ∃ m, Holds t m ∧ Holds t' m

/-- Both trees go through the events with the same successes and failures, and
hold the same map before, between and after them. -/
def Alongside (cfg : Config K) : MVBTSt K P → MVBTSt K P → List (Event K P) → Prop
  | t, t', [] => SameMap t t'
  | t, t', event :: events => SameMap t t' ∧ ∃ u r u' r', perform cfg t event = .ok (u, r) ∧
      perform cfg t' event = .ok (u', r') ∧ r.map succeeded = r'.map succeeded ∧
      Alongside cfg u u' events

/-- No update of the history revives a deleted record. -/
def RevivesNothing (cfg : Config K) : MVBTSt K P → List (Event K P) → Prop
  | _, [] => True
  | t, event :: events => (∀ op, event = .write op → revives cfg t op = false) ∧
      ∀ u r, perform cfg t event = .ok (u, r) → RevivesNothing cfg u events

section Runs
variable {cfg : Config K}

/-- The successes and failures of the two runs as lists. -/
theorem alongside_answers (events : List (Event K P)) :
    ∀ t t' : MVBTSt K P, Alongside cfg t t' events →
      ∃ u rs u' rs', runEvents cfg t events = .ok (u, rs) ∧ runEvents cfg t' events = .ok (u', rs') ∧
        rs.map (Option.map succeeded) = rs'.map (Option.map succeeded) := by
  induction events with
  | nil => exact fun t t' _ => ⟨t, [], t', [], rfl, rfl, rfl⟩
  | cons event events ih =>
    rintro t t' ⟨-, u, r, u', r', hu, hu', hsame, hrest⟩
    obtain ⟨w, rs, w', rs', hw, hw', heq⟩ := ih u u' hrest
    refine ⟨w, r :: rs, w', r' :: rs', ?_, ?_, ?_⟩
    · simp only [runEvents, hu, hw, bind, Except.bind, pure, Except.pure]
    · simp only [runEvents, hu', hw', bind, Except.bind, pure, Except.pure]
    · rw [List.map_cons, List.map_cons, hsame, heq]

theorem alongside_iff (hc : Roomy cfg) (events : List (Event K P)) :
    ∀ (t t' : MVBTSt K P) (log log' : Log K P), Carries cfg t log → Carries cfg t' log' →
      t'.updateInPlace = false → live log = live log' →
      (Alongside cfg t t' events ↔ RevivesNothing cfg t events) := by
  induction events with
  | nil =>
    intro t t' log log' h h' _ heq
    have hmap : SameMap t t' := ⟨live log, carries_holds h, heq ▸ carries_holds h'⟩
    exact ⟨fun _ => trivial, fun _ => hmap⟩
  | cons event events ih =>
    intro t t' log log' h h' hflag heq
    have hmap : SameMap t t' := ⟨live log, carries_holds h, heq ▸ carries_holds h'⟩
    cases event with
    | reader event =>
      have hstep := ih _ _ log log' (h.apply event) (h'.apply event)
        ((apply_in_place event).trans hflag) heq
      constructor
      · rintro ⟨-, u, r, u', r', hu, hu', -, hrest⟩
        cases hu
        cases hu'
        refine ⟨fun op hop => (nomatch hop), fun u r hu => ?_⟩
        cases hu
        exact hstep.mp hrest
      · rintro ⟨-, hrest⟩
        exact ⟨hmap, _, none, _, none, rfl, rfl, rfl, hstep.mpr (hrest _ none rfl)⟩
    | write op =>
      obtain ⟨t₁, r, log₁, hrun, h₁, hacts, -, -⟩ := h.write hc op
      obtain ⟨t₁', r', log₁', hrun', h₁', hacts', hflag', -⟩ := h'.write hc op
      rw [revives_plain hc h' hflag op] at hacts'
      obtain ⟨hans', hlive'⟩ := acts_map hacts'
      have hperform : perform cfg t (.write op) = .ok (t₁, some r) := by
        simp only [perform, hrun, Except.map]
      have hperform' : perform cfg t' (.write op) = .ok (t₁', some r') := by
        simp only [perform, hrun', Except.map]
      cases hrev : revives cfg t op with
      | true =>
        -- the answers differ at once
        rw [hrev] at hacts
        obtain ⟨hsucc, hfails⟩ := acts_revived hacts
        rw [← heq, hfails] at hans'
        constructor
        · rintro ⟨-, u, x, u', x', hu, hu', hsame, -⟩
          rw [hperform] at hu
          rw [hperform'] at hu'
          cases hu
          cases hu'
          simp [hsucc, hans'] at hsame
        · rintro ⟨hnone, -⟩
          rw [hnone op rfl] at hrev
          cases hrev
      | false =>
        rw [hrev] at hacts
        obtain ⟨hans, hlive⟩ := acts_map hacts
        have hstep := ih t₁ t₁' log₁ log₁' h₁ h₁' (hflag'.trans hflag) (by rw [hlive, hlive', heq])
        constructor
        · rintro ⟨-, u, x, u', x', hu, hu', -, hrest⟩
          rw [hperform] at hu
          rw [hperform'] at hu'
          cases hu
          cases hu'
          refine ⟨fun op' hop => ?_, fun u x hu => ?_⟩
          · cases hop
            exact hrev
          · rw [hperform] at hu
            cases hu
            exact hstep.mp hrest
        · rintro ⟨-, hrest⟩
          refine ⟨hmap, t₁, some r, t₁', some r', hperform, hperform', ?_,
            hstep.mpr (hrest t₁ (some r) hperform)⟩
          simp [hans, hans', heq]

end Runs

/-- Update-in-place refines plain updates as long as nothing is revived. Through
every history of writes and reader events a new tree with tracker and in-place
updates answers as a new tree with plain updates does, and both hold the same map
after every prefix, if and only if no update of the history takes the in-place
branch on a deleted record. -/
theorem in_place_refines_plain_iff {cfg : Config K} (hc : Roomy cfg) (tosses tosses' : ℕ → Toss)
    (threads tid : ℕ) (gc : Bool) (events : List (Event K P)) :
    Alongside cfg (enableGc (make tosses threads tid) true) (newTree gc tosses' threads tid)
        events ↔
      RevivesNothing cfg (enableGc (make tosses threads tid) true) events :=
  alongside_iff hc events _ _ [] []
    (.inl ⟨enableGc_fresh (make_fresh tosses threads tid) true, rfl⟩)
    (.inl ⟨newTree_fresh gc tosses' threads tid, rfl⟩) (newTree_in_place gc tosses' threads tid) rfl

/-- An update of a live key, made in place on one side only. -/
theorem live_key_updated_in_place :
    Alongside ⟨125, 125, u64Space⟩ (enableGc (make (fun _ => .next) 1 0) true)
      (newTree false (fun _ => .next) 1 0)
      ([.write (.insert 7 70), .write (.update 7 80)] : List (Event UInt64 ℕ)) := by
  refine (in_place_refines_plain_iff (roomy_of_capacity (.inl rfl) u64Space) (fun _ => .next)
    (fun _ => .next) 1 0 false _).mpr ⟨?_, ?_⟩
  · intro op hop
    cases hop
    rfl
  · intro u r hu
    have hlive : (perform ⟨125, 125, u64Space⟩ (enableGc (make (fun _ => .next) 1 0) true)
        (.write (.insert 7 70) : Event UInt64 ℕ)).map
        (fun x => revives ⟨125, 125, u64Space⟩ x.1 (.update 7 80)) = .ok false := by
      decide
    rw [hu] at hlive
    refine ⟨fun op hop => ?_, fun _ _ _ => trivial⟩
    cases hop
    exact Except.ok.inj hlive

/-- A deleted key that is updated while nobody reads: the plain tree answers that
the key is deleted, the tree with in-place updates brings it back. -/
theorem deleted_key_updated_in_place :
    (runEvents ⟨125, 125, u64Space⟩ (enableGc (make (fun _ => .next) 1 0) true)
        ([.write (.insert 7 70), .write (.delete 7), .write (.update 7 80)] :
          List (Event UInt64 ℕ))).map Prod.snd =
      .ok [some (.inserted 1), some (.deleted 2), some (.updated 3)] ∧
    (runEvents ⟨125, 125, u64Space⟩ (newTree true (fun _ => .next) 1 0)
        ([.write (.insert 7 70), .write (.delete 7), .write (.update 7 80)] :
          List (Event UInt64 ℕ))).map Prod.snd =
      .ok [some (.inserted 1), some (.deleted 2), some (.zeroAffected .keyAlreadyDeleted)] ∧
    ¬ Alongside ⟨125, 125, u64Space⟩ (enableGc (make (fun _ => .next) 1 0) true)
        (newTree true (fun _ => .next) 1 0)
        ([.write (.insert 7 70), .write (.delete 7), .write (.update 7 80)] :
          List (Event UInt64 ℕ)) := by
  have hrun : (runEvents ⟨125, 125, u64Space⟩ (enableGc (make (fun _ => .next) 1 0) true)
      ([.write (.insert 7 70), .write (.delete 7), .write (.update 7 80)] :
        List (Event UInt64 ℕ))).map Prod.snd =
      .ok [some (.inserted 1), some (.deleted 2), some (.updated 3)] := by
    decide
  have hrun' : (runEvents ⟨125, 125, u64Space⟩ (newTree true (fun _ => .next) 1 0)
      ([.write (.insert 7 70), .write (.delete 7), .write (.update 7 80)] :
        List (Event UInt64 ℕ))).map Prod.snd =
      .ok [some (.inserted 1), some (.deleted 2), some (.zeroAffected .keyAlreadyDeleted)] := by
    decide
  refine ⟨hrun, hrun', fun h => ?_⟩
  obtain ⟨u, rs, u', rs', hu, hu', heq⟩ := alongside_answers _ _ _ h
  rw [hu] at hrun
  rw [hu'] at hrun'
  cases hrun
  cases hrun'
  simp [succeeded, committed] at heq

end CMVBT.InPlaceRefinement
