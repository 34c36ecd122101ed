import CMVBT.InPlaceUpdate
import CMVBT.PinnedSnapshot
import CMVBT.ReaderBalance

/-!
# Histories with readers

One thread writes while readers are registered, released, pinned and unpinned
between its operations. Every such history of a new tree returns, whether or not
updates are made in place. A snapshot that stays announced reads the same after
every event: blocks it reaches are not recycled and records it sees are not
overwritten.
-/
namespace CMVBT.ReaderHistory
open KeyInterval LastMatch FenceTiling VersionedLog PageModel FrugalList CommitClock Tracker
open CMVBT.Tree
open BlockSupply WritePath ReadPath LeafHistory TreeInvariant NewPages Reference WriteOperations
open FreshTree SnapshotRead PinnedSnapshot ReaderBalance InPlaceUpdate

variable {K P : Type}

/-! ## Events -/

inductive ReaderEvent where
  | register (snapshot : ℕ)
  | release (snapshot : ℕ)
  | pin (lowerBound : ℕ)
  | unpin (ticket : Ticket)
deriving DecidableEq, Repr

def ReaderEvent.apply (t : MVBTSt K P) : ReaderEvent → MVBTSt K P
  | register snapshot => onAcquireReaderSnapshot t snapshot
  | release snapshot => onReleaseReaderSnapshot t snapshot
  | pin lowerBound => pinReader t lowerBound
  | unpin ticket => unpinReader t ticket

inductive Event (K P : Type) where
  | write (op : WriteOperation K P)
  | reader (event : ReaderEvent)

variable [LinearOrder K]

/-- One event and the answer of a write. -/
def perform (cfg : Config K) (t : MVBTSt K P) :
    Event K P → Except Fault (MVBTSt K P × Option WriteResult)
  | .write op => (dispatchWrite cfg t op).map (fun x => (x.1, some x.2))
  | .reader event => .ok (event.apply t, none)

def runEvents (cfg : Config K) (t : MVBTSt K P) : List (Event K P) →
    Except Fault (MVBTSt K P × List (Option WriteResult))
  | [] => .ok (t, [])
  | event :: events => do
    let (t, r) ← perform cfg t event
    let (t, rs) ← runEvents cfg t events
    return (t, r :: rs)

omit [LinearOrder K] in
/-- A reader event changes registrations and pins only. -/
theorem apply_eq (event : ReaderEvent) (t : MVBTSt K P) :
    ∃ tracker, event.apply t = { t with tracker := tracker } ∧
      graveyard { t with tracker := tracker } = graveyard t ∧
      tracker.isSome = t.tracker.isSome := by
  cases ht : t.tracker with
  | none =>
    refine ⟨none, ?_, ?_, rfl⟩
    · cases event <;>
        simp [ReaderEvent.apply, onAcquireReaderSnapshot, onReleaseReaderSnapshot, pinReader,
          unpinReader, ht]
    · simp [graveyard, ht]
  | some tracker =>
    cases event with
    | register s =>
      exact ⟨some (tracker.onTxStart s), by simp [ReaderEvent.apply, onAcquireReaderSnapshot, ht],
        by simp [graveyard, ht, TrackerHandle.onTxStart], rfl⟩
    | release s =>
      exact ⟨some (tracker.onTxCompleted s),
        by simp [ReaderEvent.apply, onReleaseReaderSnapshot, ht],
        by simp [graveyard, ht, TrackerHandle.onTxCompleted], rfl⟩
    | pin lowerBound =>
      exact ⟨some (tracker.pinReader lowerBound).1, by simp [ReaderEvent.apply, pinReader, ht],
        by simp [graveyard, ht, TrackerHandle.pinReader], rfl⟩
    | unpin ticket =>
      exact ⟨some (tracker.unpinReader ticket), by simp [ReaderEvent.apply, unpinReader, ht],
        by simp [graveyard, ht, TrackerHandle.unpinReader], rfl⟩

section Readers
variable {cfg : Config K} {t : MVBTSt K P} {g : Ghost K P}

theorem apply_inv (h : Inv cfg t g) (event : ReaderEvent) : Inv cfg (event.apply t) g := by
  obtain ⟨tracker, heq, hgrave, hsome⟩ := apply_eq event t
  rw [heq]
  refine inv_announced h hgrave ?_
  rintro rfl
  simpa using hsome.symm

omit [LinearOrder K] in
theorem apply_fresh (h : Fresh t) (event : ReaderEvent) : Fresh (event.apply t) := by
  obtain ⟨tracker, heq, hgrave, -⟩ := apply_eq event t
  rw [heq]
  exact ⟨h.heap, h.next, h.root, h.clock, hgrave.trans h.grave, h.watermark⟩

omit [LinearOrder K] in
theorem apply_in_place (event : ReaderEvent) :
    (event.apply t).updateInPlace = t.updateInPlace := by
  cases event <;> rfl

theorem apply_steady (event : ReaderEvent) (v : ℕ) : Steady v t g (event.apply t) g := by
  obtain ⟨tracker, heq, -, -⟩ := apply_eq event t
  rw [heq]
  exact ⟨rfl, fun b hb hu => ⟨hb, hu, .refl v _⟩⟩

end Readers

/-! ## What a tree carries -/

/-- The tree holds the history `log`: it is new, or satisfies the invariant. -/
def Carries (cfg : Config K) (t : MVBTSt K P) (log : Log K P) : Prop :=
  (Fresh t ∧ log = []) ∨ ∃ g, Inv cfg t g ∧ g.log = log

section Carries
variable {cfg : Config K} {t : MVBTSt K P} {log : Log K P}

theorem Carries.apply (h : Carries cfg t log) (event : ReaderEvent) :
    Carries cfg (event.apply t) log := by
  rcases h with ⟨hfresh, rfl⟩ | ⟨g, hinv, rfl⟩
  · exact .inl ⟨apply_fresh hfresh event, rfl⟩
  · exact .inr ⟨g, apply_inv hinv event, rfl⟩

/-- One operation of any kind on a tree that carries `log`. -/
theorem Carries.write (hc : Roomy cfg) (h : Carries cfg t log) (op : WriteOperation K P) :
    ∃ t' r log', dispatchWrite cfg t op = .ok (t', r) ∧ Carries cfg t' log' ∧
      Acts log (revives cfg t op) op r log' ∧ t'.updateInPlace = t.updateInPlace ∧
      trace t' = trace t := by
  rcases h with ⟨hfresh, rfl⟩ | ⟨g, hinv, rfl⟩
  · obtain ⟨t', r, log', hrun, hans, htracker, hflag, hcases⟩ := dispatchWrite_fresh hc hfresh op
    refine ⟨t', r, log', hrun, hcases, ?_, hflag, ?_⟩
    · rw [revives_fresh hc hfresh op]
      exact .answers hans
    · rw [trace, htracker]
      rfl
  · obtain ⟨t', r, g', hrun, hd⟩ := dispatchWrite_dispatched hinv hc op
    exact ⟨t', r, g'.log, hrun, .inr ⟨g', hd.inv, rfl⟩, hd.acts, hd.in_place, hd.readers⟩

/-- A write on a tree with plain updates. -/
theorem write_answers (hc : Roomy cfg) (h : Carries cfg t log) (hflag : t.updateInPlace = false)
    (op : WriteOperation K P) :
    ∃ t' r log', dispatchWrite cfg t op = .ok (t', r) ∧ Answers log op r log' ∧
      Carries cfg t' log' ∧ t'.updateInPlace = false := by
  rcases h with ⟨hfresh, rfl⟩ | ⟨g, hinv, rfl⟩
  · obtain ⟨t', r, log', hrun, hans, -, hplace, hcases⟩ := dispatchWrite_fresh hc hfresh op
    exact ⟨t', r, log', hrun, hans, hcases, hplace.trans hflag⟩
  · obtain ⟨t', r, g', hrun, hperf⟩ := dispatchWrite_performed hinv hc hflag op
    exact ⟨t', r, g'.log, hrun, hperf.answers, .inr ⟨g', hperf.inv, rfl⟩,
      hperf.intact.in_place.trans hflag⟩

/-- Every history of events returns. -/
theorem runEvents_carries (hc : Roomy cfg) (events : List (Event K P)) :
    ∀ (t : MVBTSt K P) (log : Log K P), Carries cfg t log →
      ∃ t' rs log', runEvents cfg t events = .ok (t', rs) ∧ Carries cfg t' log' := by
  induction events with
  | nil =>
    intro t log h
    exact ⟨t, [], log, rfl, h⟩
  | cons event events ih =>
    intro t log h
    cases event with
    | write op =>
      obtain ⟨t₁, r, log₁, hrun, h₁, -, -, -⟩ := h.write hc op
      obtain ⟨t', rs, log', hrest, h'⟩ := ih t₁ log₁ h₁
      refine ⟨t', some r :: rs, log', ?_, h'⟩
      simp only [runEvents, perform, hrun, Except.map, hrest, bind, Except.bind, pure, Except.pure]
    | reader event =>
      obtain ⟨t', rs, log', hrest, h'⟩ := ih (event.apply t) log (h.apply event)
      refine ⟨t', none :: rs, log', ?_, h'⟩
      simp only [runEvents, perform, hrest, bind, Except.bind, pure, Except.pure]

end Carries

/-! ## Announced snapshots -/

/-- The snapshot is announced in every state of the run. -/
def AnnouncedThroughout (cfg : Config K) (s : ℕ) : MVBTSt K P → List (Event K P) → Prop
  | t, [] => Announced t s
  | t, event :: events => Announced t s ∧ ∀ t' r, perform cfg t event = .ok (t', r) →
      AnnouncedThroughout cfg s t' events

section Announced
variable {cfg : Config K}

/-- Writes do not take an announcement away. -/
theorem announced_writes (hc : Roomy cfg) {s : ℕ} (ops : List (WriteOperation K P)) :
    ∀ (t : MVBTSt K P) (log : Log K P), Carries cfg t log → Announced t s →
      AnnouncedThroughout cfg s t (ops.map .write) := by
  induction ops with
  | nil => exact fun _ _ _ hs => hs
  | cons op ops ih =>
    intro t log h hs
    refine ⟨hs, ?_⟩
    intro t₂ r₂ hperform
    obtain ⟨t₁, r, log₁, hrun, h₁, -, -, htrace⟩ := h.write hc op
    simp only [perform, hrun, Except.map, Except.ok.injEq, Prod.mk.injEq] at hperform
    obtain ⟨rfl, -⟩ := hperform
    refine ih t₁ log₁ h₁ ?_
    rw [Announced, htrace]
    exact hs

/-- What an announced snapshot reaches survives every history of events. -/
theorem runEvents_steady (hc : Roomy cfg) (s : ℕ) (events : List (Event K P)) :
    ∀ (t : MVBTSt K P) (g : Ghost K P), Inv cfg t g →
      ∃ t' rs g', runEvents cfg t events = .ok (t', rs) ∧ Inv cfg t' g' ∧
        t.commit.clock ≤ t'.commit.clock ∧
        (t'.commit.clock ≤ versionMax → s < t.commit.clock →
          AnnouncedThroughout cfg s t events → Steady s t g t' g') := by
  induction events with
  | nil =>
    intro t g h
    exact ⟨t, [], g, rfl, h, le_rfl, fun _ _ _ => ⟨rfl, fun b hb hu => ⟨hb, hu, .refl s _⟩⟩⟩
  | cons event events ih =>
    intro t g h
    cases event with
    | write op =>
      obtain ⟨t₁, r, g₁, hrun, hd⟩ := dispatchWrite_dispatched h hc op
      obtain ⟨t', rs, g', hrest, hinv, hclock, hsteady⟩ := ih t₁ g₁ hd.inv
      have hperform : perform cfg t (.write op) = .ok (t₁, some r) := by
        simp only [perform, hrun, Except.map]
      refine ⟨t', some r :: rs, g', ?_, hinv, hd.clock.trans hclock, ?_⟩
      · simp only [runEvents, hperform, hrest, bind, Except.bind, pure, Except.pure]
      · rintro hmax hs ⟨hann, hlater⟩
        exact (Intact.steady (hd.intact (hclock.trans hmax)) hann hs).trans
          (hsteady hmax (hs.trans_le hd.clock) (hlater t₁ (some r) hperform))
    | reader event =>
      obtain ⟨t', rs, g', hrest, hinv, hclock, hsteady⟩ := ih _ g (apply_inv h event)
      have hsame : (event.apply t).commit = t.commit := by cases event <;> rfl
      rw [hsame] at hclock hsteady
      refine ⟨t', none :: rs, g', ?_, hinv, hclock, ?_⟩
      · simp only [runEvents, perform, hrest, bind, Except.bind, pure, Except.pure]
      · rintro hmax hs ⟨-, hlater⟩
        exact (apply_steady event s).trans (hsteady hmax hs (hlater _ none rfl))

/-- Before the start version there is no root to read from. -/
theorem Carries.unrooted {t : MVBTSt K P} {log : Log K P} (h : Carries cfg t log) {s : ℕ}
    (hs : s < startVersion) : t.rootFor s = .error .unwrapNone := by
  rcases h with ⟨hfresh, -⟩ | ⟨g, hinv, -⟩
  · obtain rfl : s = 0 := by unfold startVersion at hs; omega
    rw [MVBTSt.rootFor, hfresh.root]
    rfl
  · rw [rootFor_roots hinv, List.find?_eq_none.mpr]
    intro x hx
    have := hinv.timeline.roots_ge x hx
    simp only [decide_eq_true_eq]
    omega

/-- Reads without a root fail alike. -/
theorem reads_unrooted {t t' : MVBTSt K P} {s : ℕ} (h : t.rootFor s = .error .unwrapNone)
    (h' : t'.rootFor s = .error .unwrapNone) :
    (∀ key, (dispatchPoint t' key s).map Prod.snd = (dispatchPoint t key s).map Prod.snd) ∧
      ∀ range fuel calls, (dispatchRange cfg fuel calls t' range s).map Prod.snd =
        (dispatchRange cfg fuel calls t range s).map Prod.snd := by
  have hnothing : Alike s (fun _ => False) t.heap t'.heap :=
    ⟨fun _ hb => hb.elim, fun _ _ _ _ hb => hb.elim⟩
  have hreach : ∀ root, t.rootFor s = .ok root → False := by
    intro root hroot
    rw [h] at hroot
    cases hroot
  exact ⟨dispatchPoint_alike hnothing (h'.trans h.symm) hreach,
    fun range fuel calls => dispatchRange_alike hnothing (h'.trans h.symm) hreach fuel calls range⟩

end Announced

/-- In-place updates are invisible to announced readers. Take any history of
writes and reader events on a new tree with tracker and in-place updates, and a
snapshot `s` that is smaller than the clock then. As long as the snapshot stays
announced, registered at `s` or held by a pin from before, whatever happens
afterwards leaves every point read and every range scan at `s` as it was. The bound
on the clock says that the versions of the history fit into their 64-bit words. -/
theorem announced_reads_unchanged {cfg : Config K} (hc : Roomy cfg) (tosses : ℕ → Toss)
    (threads tid : ℕ) (events later : List (Event K P)) (s : ℕ) :
    ∃ t rs t' rs',
      runEvents cfg (enableGc (make tosses threads tid) true) events = .ok (t, rs) ∧
      runEvents cfg t later = .ok (t', rs') ∧
      (t'.commit.clock ≤ versionMax → s < t.commit.clock → AnnouncedThroughout cfg s t later →
        (∀ key, (dispatchPoint t' key s).map Prod.snd = (dispatchPoint t key s).map Prod.snd) ∧
        ∀ range fuel calls, (dispatchRange cfg fuel calls t' range s).map Prod.snd =
          (dispatchRange cfg fuel calls t range s).map Prod.snd) := by
  obtain ⟨t, rs, log, hrun, hcarries⟩ := runEvents_carries hc events
    (enableGc (make tosses threads tid) true) []
    (.inl ⟨enableGc_fresh (make_fresh tosses threads tid) true, rfl⟩)
  by_cases hstart : s < startVersion
  · obtain ⟨t', rs', log', hlater, hcarries'⟩ := runEvents_carries hc later t log hcarries
    exact ⟨t, rs, t', rs', hrun, hlater, fun _ _ _ =>
      reads_unrooted (hcarries.unrooted hstart) (hcarries'.unrooted hstart)⟩
  · rcases hcarries with ⟨hfresh, rfl⟩ | ⟨g, hinv, rfl⟩
    · obtain ⟨t', rs', log', hlater, -⟩ := runEvents_carries hc later t [] (.inl ⟨hfresh, rfl⟩)
      refine ⟨t, rs, t', rs', hrun, hlater, fun _ hs => ?_⟩
      rw [hfresh.clock] at hs
      exact absurd hs hstart
    · obtain ⟨t', rs', g', hlater, hinv', -, hsteady⟩ := runEvents_steady hc s later t g hinv
      refine ⟨t, rs, t', rs', hrun, hlater, fun hmax hs hann => ?_⟩
      obtain ⟨halike, hsame, hreach⟩ := Steady.alike hinv hinv' (hsteady hmax hs hann)
      exact ⟨dispatchPoint_alike halike hsame hreach,
        fun range fuel calls => dispatchRange_alike halike hsame hreach fuel calls range⟩

/-- The first update keeps the record that a registered reader sees, the second one
overwrites the record of the first. -/
theorem registered_read_unchanged :
    ∃ t rs t', runEvents ⟨125, 125, u64Space⟩ (enableGc (make (fun _ => .next) 1 0) true)
        ([.write (.insert 7 70), .reader (.register 1)] : List (Event UInt64 ℕ)) = .ok (t, rs) ∧
      runEvents ⟨125, 125, u64Space⟩ t [.write (.update 7 80), .write (.update 7 90)] =
        .ok (t', [some (.updated 2), some (.updated 3)]) ∧
      (∀ key, (dispatchPoint t' key 1).map Prod.snd = (dispatchPoint t key 1).map Prod.snd) ∧
      ∀ range fuel calls,
        (dispatchRange ⟨125, 125, u64Space⟩ fuel calls t' range 1).map Prod.snd =
          (dispatchRange ⟨125, 125, u64Space⟩ fuel calls t range 1).map Prod.snd := by
  have hc := roomy_of_capacity (.inl rfl) u64Space
  obtain ⟨t, rs, t', rs', hrun, hlater, h⟩ := announced_reads_unchanged hc (fun _ => .next) 1 0
    ([.write (.insert 7 70), .reader (.register 1)] : List (Event UInt64 ℕ))
    ([.update 7 80, .update 7 90].map .write) 1
  obtain ⟨t₁, rs₁, log, hrun₁, hcarries⟩ := runEvents_carries hc
    ([.write (.insert 7 70), .reader (.register 1)] : List (Event UInt64 ℕ))
    (enableGc (make (fun _ => .next) 1 0) true) []
    (.inl ⟨enableGc_fresh (make_fresh (fun _ => .next) 1 0) true, rfl⟩)
  rw [hrun] at hrun₁
  cases hrun₁
  have hstate : (runEvents ⟨125, 125, u64Space⟩ (enableGc (make (fun _ => .next) 1 0) true)
      ([.write (.insert 7 70), .reader (.register 1)] : List (Event UInt64 ℕ))).map
      (fun x => (x.1.commit.clock, (trace x.1).map TransactionTrace.queries)) =
      .ok (2, some [(1, 0)]) := by
    decide
  have hanswers : ((runEvents ⟨125, 125, u64Space⟩ (enableGc (make (fun _ => .next) 1 0) true)
      ([.write (.insert 7 70), .reader (.register 1)] : List (Event UInt64 ℕ))).bind
      (fun x => runEvents ⟨125, 125, u64Space⟩ x.1 ([.update 7 80, .update 7 90].map .write))).map
      (fun x => (x.1.commit.clock, x.2)) =
      .ok (3, [some (.updated 2), some (.updated 3)]) := by
    decide
  rw [hrun] at hstate hanswers
  simp only [Except.bind, hlater, Except.map, Except.ok.injEq, Prod.mk.injEq] at hstate hanswers
  obtain ⟨hclock, hqueries⟩ := hstate
  obtain ⟨hclock', rfl⟩ := hanswers
  obtain ⟨live, hlive, hregistered⟩ := Option.map_eq_some_iff.mp hqueries
  obtain ⟨hpoint, hrange⟩ := h (by rw [hclock']; decide) (by rw [hclock]; decide)
    (announced_writes hc _ t log hcarries
      ⟨live, hlive, .inl ⟨(1, 0), by rw [hregistered]; exact List.mem_singleton_self _, rfl⟩⟩)
  exact ⟨t, rs, t', hrun, hlater, hpoint, hrange⟩

end CMVBT.ReaderHistory
