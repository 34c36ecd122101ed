import CMVBT.ReaderHistory

/-!
# The versions that a tree keeps

Without a collector every version stays readable. With one, only blocks that died
before the watermark are recycled, so the versions from the watermark on stay, and
so does the newest one. This holds for trees of every kind, also where updates are
made in place.
-/
namespace CMVBT.RetainedVersions
open KeyInterval VersionedLog PageModel FrugalList CommitClock Tracker CMVBT.Tree BlockSupply
open WritePath ReadPath TreeInvariant NewPages Reference WriteOperations FreshTree SnapshotRead
open InPlaceUpdate ReaderHistory

variable {K P : Type}

/-- A new tree: without collector, or after `enable_gc`. -/
def opened (gc : Option Bool) (tosses : ℕ → Toss) (threads tid : ℕ) : MVBTSt K P :=
  match gc with
  | none => make tosses threads tid
  | some updateInPlace => enableGc (make tosses threads tid) updateInPlace

/-- The versions that searches can still go back to. -/
def Retains (t : MVBTSt K P) (v : ℕ) : Prop :=
  t.tracker = none ∨ t.commit.globalMin ≤ v ∨ t.commit.clock ≤ v + 1

section Opened
variable (gc : Option Bool) (tosses : ℕ → Toss) (threads tid : ℕ)

theorem opened_fresh : Fresh (opened gc tosses threads tid : MVBTSt K P) := by
  cases gc with
  | none => exact make_fresh tosses threads tid
  | some updateInPlace => exact enableGc_fresh (make_fresh tosses threads tid) updateInPlace

theorem opened_plain (hgc : gc ≠ some true) :
    (opened gc tosses threads tid : MVBTSt K P).updateInPlace = false := by
  cases gc with
  | none => rfl
  | some updateInPlace =>
    cases updateInPlace with
    | false => rfl
    | true => exact absurd rfl hgc

end Opened

variable [LinearOrder K] {cfg : Config K} {t : MVBTSt K P} {log : Log K P} {v : ℕ}

theorem readable_retained {g : Ghost K P} (h : Inv cfg t g) (hv : startVersion ≤ v)
    (hr : Retains t v) : Readable cfg t g v := by
  rcases hr with hnone | hlow | hnewest
  · exact readable_untracked h hnone hv
  · exact h.timeline.retained v hv hlow
  · exact readable_newest h hnewest

/-- A tree that shows a version has the invariant. -/
theorem carries_readable (h : Carries cfg t log) (hv : startVersion ≤ v) (hlt : v < t.commit.clock)
    (hr : Retains t v) : ∃ g, Inv cfg t g ∧ g.log = log ∧ Readable cfg t g v := by
  rcases h with ⟨hfresh, -⟩ | ⟨g, hinv, hlog⟩
  · rw [hfresh.clock] at hlt
    exact absurd hlt (not_lt.mpr hv)
  · exact ⟨g, hinv, hlog, readable_retained hinv hv hr⟩

/-- Point reads at a retained version read the log. -/
theorem carries_point (h : Carries cfg t log) (hv : startVersion ≤ v) (hlt : v < t.commit.clock)
    (hr : Retains t v) (key : K) : (dispatchPoint t key v).map Prod.snd =
      .ok ((liveAt log key v).map (fun payload => (key, payload))).toList := by
  obtain ⟨g, hinv, rfl, hreadable⟩ := carries_readable h hv hlt hr
  rw [dispatchPoint_reference hinv hreadable]
  rfl

/-- A history of writes on a tree of any kind. -/
theorem runWrites_carries (hc : Roomy cfg) (ops : List (WriteOperation K P)) :
    ∀ (t : MVBTSt K P) (log : Log K P), Carries cfg t log →
      ∃ t' rs log', runWrites cfg t ops = .ok (t', rs) ∧ Carries cfg t' log' ∧
        (t.updateInPlace = false → Replay log ops rs log') ∧
        ∀ key, (∀ p, .insert key p ∉ ops) → (∀ s ∈ log, s.key ≠ key) → ∀ s ∈ log', s.key ≠ key := by
  induction ops with
  | nil =>
    intro t log h
    exact ⟨t, [], log, rfl, h, fun _ => .nil, fun _ _ hlog => hlog⟩
  | cons op ops ih =>
    intro t log h
    cases hflag : t.updateInPlace with
    | true =>
      obtain ⟨t₁, r, log₁, hrun, h₁, hacts, -, -⟩ := h.write hc op
      obtain ⟨t', rs, log', hrest, h', -, habsent⟩ := ih t₁ log₁ h₁
      refine ⟨t', r :: rs, log', ?_, h', nofun, ?_⟩
      · simp only [runWrites, hrun, hrest, bind, Except.bind, pure, Except.pure]
      · intro key hops hlog
        refine habsent key (fun p hp => hops p (List.mem_cons_of_mem _ hp)) ?_
        apply hacts.key_absent _ hlog
        rintro p rfl
        exact hops p List.mem_cons_self
    | false =>
      obtain ⟨t₁, r, log₁, hrun, hans, h₁, hplain⟩ := write_answers hc h hflag op
      obtain ⟨t', rs, log', hrest, h', hreplay, -⟩ := ih t₁ log₁ h₁
      have hall : Replay log (op :: ops) (r :: rs) log' := .cons hans (hreplay hplain)
      refine ⟨t', r :: rs, log', ?_, h', fun _ => hall, fun key hops hlog =>
        hall.key_absent hops hlog⟩
      simp only [runWrites, hrun, hrest, bind, Except.bind, pure, Except.pure]

theorem runWrites_opened (hc : Roomy cfg) (gc : Option Bool) (tosses : ℕ → Toss)
    (threads tid : ℕ) (ops : List (WriteOperation K P)) :
    ∃ t rs log, runWrites cfg (opened gc tosses threads tid) ops = .ok (t, rs) ∧
      Carries cfg t log ∧ (gc ≠ some true → Replay [] ops rs log) ∧
      ∀ key, (∀ p, .insert key p ∉ ops) → ∀ s ∈ log, s.key ≠ key := by
  obtain ⟨t, rs, log, hrun, hcar, hreplay, habsent⟩ := runWrites_carries hc ops
    (opened gc tosses threads tid) [] (.inl ⟨opened_fresh gc tosses threads tid, rfl⟩)
  exact ⟨t, rs, log, hrun, hcar, fun hgc => hreplay (opened_plain gc tosses threads tid hgc),
    fun key hops => habsent key hops nofun⟩

end CMVBT.RetainedVersions
