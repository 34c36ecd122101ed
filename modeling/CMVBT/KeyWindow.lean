import CMVBT.Interleaving
import Mathlib.Data.List.Basic

/-!
# The key window of the online workload

`OnlineKeys` of `online.rs`: writers reserve keys, insert them and publish them,
and deleters take published keys from the other end. The window of published
keys grows by a compare-exchange loop in which publishers help each other over
keys that were finished out of order. Every atomic access is a step of its own.
-/
namespace CMVBT.KeyWindow
open Interleaving

/-- The fields of `OnlineKeys`. History: `returned` are the keys that
`reserve_delete` has returned. -/
structure OnlineKeys where
  initial : ℕ
  reserved : ℕ
  published : ℕ
  expired : ℕ
  inserted : List Bool
  returned : List ℕ
deriving DecidableEq, Repr

def OnlineKeys.new (initial operations : ℕ) : OnlineKeys :=
  ⟨initial, initial, initial, 0, List.replicate operations false, []⟩

/-- The position of a thread in one of the three calls. -/
inductive Pc where
  | idle
  | store (key : ℕ)
  | load
  | test (published : ℕ)
  | exchange (published : ℕ)
  | wait (key : ℕ)
deriving DecidableEq, Repr

/-- A thread with the keys that it has reserved and not yet published. -/
structure Worker where
  keys : List ℕ
  pc : Pc
deriving DecidableEq, Repr

/-- The atomic steps of a thread. The array has one place for each operation, so
a key is reserved only while there is a place left. -/
inductive Step (i : ℕ) : OnlineKeys → Worker → OnlineKeys → Worker → Prop
  | reserveInsert {s : OnlineKeys} {keys : List ℕ} :
      s.reserved < s.initial + s.inserted.length →
      Step i s ⟨keys, .idle⟩ { s with reserved := s.reserved + 1 } ⟨s.reserved :: keys, .idle⟩
  -- `publish_insert`
  | publishInsert {s : OnlineKeys} {keys : List ℕ} {key : ℕ} : key ∈ keys →
      Step i s ⟨keys, .idle⟩ s ⟨keys.erase key, .store key⟩
  | store {s : OnlineKeys} {keys : List ℕ} {key : ℕ} :
      Step i s ⟨keys, .store key⟩
        { s with inserted := s.inserted.set (key - s.initial) true } ⟨keys, .load⟩
  | load {s : OnlineKeys} {keys : List ℕ} :
      Step i s ⟨keys, .load⟩ s ⟨keys, .test s.published⟩
  | testStops {s : OnlineKeys} {keys : List ℕ} {published : ℕ} :
      s.inserted[published - s.initial]? ≠ some true →
      Step i s ⟨keys, .test published⟩ s ⟨keys, .idle⟩
  | testGoesOn {s : OnlineKeys} {keys : List ℕ} {published : ℕ} :
      s.inserted[published - s.initial]? = some true →
      Step i s ⟨keys, .test published⟩ s ⟨keys, .exchange published⟩
  | exchange {s : OnlineKeys} {keys : List ℕ} {published : ℕ} : s.published = published →
      Step i s ⟨keys, .exchange published⟩ { s with published := published + 1 } ⟨keys, .load⟩
  -- the weak compare-exchange may fail for no reason
  | exchangeFails {s : OnlineKeys} {keys : List ℕ} {published : ℕ} :
      Step i s ⟨keys, .exchange published⟩ s ⟨keys, .load⟩
  -- `reserve_delete`
  | reserveDelete {s : OnlineKeys} {keys : List ℕ} :
      Step i s ⟨keys, .idle⟩ { s with expired := s.expired + 1 } ⟨keys, .wait s.expired⟩
  | yields {s : OnlineKeys} {keys : List ℕ} {key : ℕ} : s.published ≤ key →
      Step i s ⟨keys, .wait key⟩ s ⟨keys, .wait key⟩
  | returns {s : OnlineKeys} {keys : List ℕ} {key : ℕ} : ¬ s.published ≤ key →
      Step i s ⟨keys, .wait key⟩ { s with returned := key :: s.returned } ⟨keys, .idle⟩

abbrev State := Config ℕ OnlineKeys Worker

def start (initial operations : ℕ) : State where
  shared := .new initial operations
  pc := fun _ => ⟨[], .idle⟩

abbrev Runs (c c' : State) : Prop := Run Step Anytime c c'

/-! ## What a step does -/

/-- A `publish_insert` call is in progress. -/
def publishing : Pc → Bool
  | .store _ | .load | .test _ | .exchange _ => true
  | _ => false

/-- The publisher has set its flag. -/
def helping : Pc → Bool
  | .load | .test _ | .exchange _ => true
  | _ => false

theorem publishing_of_helping {pc : Pc} (h : helping pc = true) : publishing pc = true := by
  cases pc <;> first | rfl | cases h

/-- The value of `published` that a publisher has loaded. -/
def loaded : Pc → Option ℕ
  | .test published | .exchange published => some published
  | _ => none

section Steps
variable {i : ℕ} {s s' : OnlineKeys} {w w' : Worker}

theorem initial_eq (h : Step i s w s' w') : s'.initial = s.initial := by
  cases h <;> rfl

theorem published_le (h : Step i s w s' w') : s.published ≤ s'.published := by
  cases h with
  | exchange heq =>
    rw [← heq]
    exact Nat.le_succ _
  | _ => exact le_rfl

theorem expired_le (h : Step i s w s' w') : s.expired ≤ s'.expired := by
  cases h with
  | reserveDelete => exact Nat.le_succ _
  | _ => exact le_rfl

/-- A flag that is set stays set. -/
theorem flag_stays (h : Step i s w s' w') {k : ℕ} (hk : s.inserted[k]? = some true) :
    s'.inserted[k]? = some true := by
  cases h with
  | @store keys key =>
    rw [List.getElem?_set]
    split
    · next heq =>
      obtain ⟨hlt, -⟩ := List.getElem?_eq_some_iff.mp hk
      simp [heq, hlt]
    · exact hk
  | _ => exact hk

/-- A flag that becomes set was set by a publisher that goes on to help. -/
theorem flag_step (h : Step i s w s' w') {k : ℕ} (hk : s'.inserted[k]? = some true) :
    s.inserted[k]? = some true ∨ helping w'.pc = true := by
  cases h with
  | store => exact .inr rfl
  | _ => exact .inl hk

/-- The window grows over a flag that was tested, or it stays. -/
theorem published_step (h : Step i s w s' w') :
    s'.published = s.published ∨
      (w.pc = .exchange s.published ∧ s'.published = s.published + 1 ∧
        s'.inserted = s.inserted ∧ helping w'.pc = true) := by
  cases h with
  | exchange heq =>
    subst heq
    exact .inr ⟨rfl, rfl, rfl, rfl⟩
  | _ => exact .inl rfl

/-- A publisher stops only at a flag that is not set. -/
theorem helping_step (h : Step i s w s' w') (hw : helping w.pc = true) :
    helping w'.pc = true ∨
      (s' = s ∧ ∃ p, loaded w.pc = some p ∧ s.inserted[p - s.initial]? ≠ some true) := by
  cases h with
  | testStops hflag => exact .inr ⟨rfl, _, rfl, hflag⟩
  | load => exact .inl rfl
  | testGoesOn => exact .inl rfl
  | exchange => exact .inl rfl
  | exchangeFails => exact .inl rfl
  | _ => cases hw

/-- A loaded value is kept or is the present one. -/
theorem loaded_step (h : Step i s w s' w') {p : ℕ} (hp : loaded w'.pc = some p) :
    loaded w.pc = some p ∨ p = s.published := by
  cases h with
  | load =>
    cases hp
    exact .inr rfl
  | testGoesOn => exact .inl hp
  | _ => cases hp

theorem exchange_step (h : Step i s w s' w') {p : ℕ} (hp : w'.pc = .exchange p) :
    s.inserted[p - s.initial]? = some true := by
  cases h with
  | testGoesOn hflag =>
    cases hp
    exact hflag
  | _ => cases hp

/-- What a step does to the keys of the deleters. -/
inductive Taken (s : OnlineKeys) (w : Worker) (s' : OnlineKeys) (w' : Worker) : Prop
  | same : s'.returned = s.returned → (∀ k, w'.pc = .wait k → w.pc = .wait k) → Taken s w s' w'
  | reserved : s'.returned = s.returned → s'.expired = s.expired + 1 → w'.pc = .wait s.expired →
      Taken s w s' w'
  | returned {key : ℕ} : w.pc = .wait key → key < s.published → s'.returned = key :: s.returned →
      w'.pc = .idle → Taken s w s' w'

theorem taken (h : Step i s w s' w') : Taken s w s' w' := by
  cases h with
  | reserveDelete => exact .reserved rfl rfl rfl
  | returns hlt => exact .returned rfl (Nat.lt_of_not_le hlt) rfl rfl
  | yields => exact .same rfl (fun _ hk => hk)
  | _ => exact .same rfl (by rintro k ⟨⟩)

end Steps

/-! ## The window of published keys -/

structure WindowOk (c : State) : Prop where
  initial_le : c.shared.initial ≤ c.shared.published
  window : ∀ k, k < c.shared.published - c.shared.initial → c.shared.inserted[k]? = some true
  loaded : ∀ i p, loaded (c.pc i).pc = some p → c.shared.initial ≤ p ∧ p ≤ c.shared.published
  exchange : ∀ i p, (c.pc i).pc = .exchange p →
    c.shared.inserted[p - c.shared.initial]? = some true
  helped : c.shared.inserted[c.shared.published - c.shared.initial]? = some true →
    ∃ i, helping (c.pc i).pc = true

/-- A publisher that stops has found the end of the window. -/
theorem WindowOk.stops {c : State} (h : WindowOk c) {i p : ℕ}
    (hp : KeyWindow.loaded (c.pc i).pc = some p)
    (hflag : c.shared.inserted[p - c.shared.initial]? ≠ some true) : p = c.shared.published := by
  obtain ⟨hge, hle⟩ := h.loaded i p hp
  by_contra hne
  exact hflag (h.window _ (by omega))

theorem WindowOk.step {c : State} (h : WindowOk c) {i : ℕ} {s : OnlineKeys} {w : Worker}
    (hs : Step i c.shared (c.pc i) s w) : WindowOk (c.move i s w) := by
  have hinitial := initial_eq hs
  have hpublished := published_le hs
  have hlow := h.initial_le
  refine ⟨?_, ?_, ?_, ?_, ?_⟩
  · change s.initial ≤ s.published
    omega
  · change ∀ k, k < s.published - s.initial → s.inserted[k]? = some true
    intro k hk
    rcases published_step hs with heq | ⟨hpc, heq, -, -⟩
    · exact flag_stays hs (h.window k (by omega))
    · by_cases hlast : k = c.shared.published - c.shared.initial
      · rw [hlast]
        exact flag_stays hs (h.exchange i _ hpc)
      · exact flag_stays hs (h.window k (by omega))
  · refine c.forall_move i s w (A := fun _ w => ∀ p, KeyWindow.loaded w.pc = some p →
      s.initial ≤ p ∧ p ≤ s.published) ?_ ?_
    · intro p hp
      rcases loaded_step hs hp with hold | rfl
      · have := h.loaded i p hold
        omega
      · omega
    · intro j _ p hp
      have := h.loaded j p hp
      omega
  · refine c.forall_move i s w (A := fun _ w => ∀ p, w.pc = .exchange p →
      s.inserted[p - s.initial]? = some true) ?_ ?_
    · intro p hp
      rw [hinitial]
      exact flag_stays hs (exchange_step hs hp)
    · intro j _ p hp
      rw [hinitial]
      exact flag_stays hs (h.exchange j p hp)
  · change s.inserted[s.published - s.initial]? = some true → _
    intro hflag
    -- the mover helps, or the flag was set before and somebody helped
    by_cases hmine : helping w.pc = true
    · exact ⟨i, by rwa [Config.move_pc_self]⟩
    have heq : s.published = c.shared.published := by
      rcases published_step hs with heq | ⟨-, -, -, hhelp⟩
      · exact heq
      · exact absurd hhelp hmine
    rw [hinitial, heq] at hflag
    have hold := (flag_step hs hflag).resolve_right hmine
    obtain ⟨j, hj⟩ := h.helped hold
    by_cases hji : j = i
    · subst hji
      obtain ⟨-, p, hp, hstop⟩ := (helping_step hs hj).resolve_left hmine
      rw [h.stops hp hstop] at hstop
      exact absurd hold hstop
    · exact ⟨j, by rwa [Config.move_pc_other c i s w hji]⟩

/-! ## The keys of the deleters -/

structure DeletesOk (c : State) : Prop where
  returned : ∀ k ∈ c.shared.returned, k < c.shared.published ∧ k < c.shared.expired
  nodup : c.shared.returned.Nodup
  waiting : ∀ i k, (c.pc i).pc = .wait k → k < c.shared.expired ∧ k ∉ c.shared.returned
  unique : ∀ i j k, (c.pc i).pc = .wait k → (c.pc j).pc = .wait k → i = j

theorem DeletesOk.step {c : State} (h : DeletesOk c) {i : ℕ} {s : OnlineKeys} {w : Worker}
    (hs : Step i c.shared (c.pc i) s w) : DeletesOk (c.move i s w) := by
  have hpublished := published_le hs
  have hexpired := expired_le hs
  have hkept : ∀ k ∈ c.shared.returned, k < s.published ∧ k < s.expired := fun k hk =>
    ⟨(h.returned k hk).1.trans_le hpublished, (h.returned k hk).2.trans_le hexpired⟩
  cases taken hs with
  | same hret hwait =>
    have hold : ∀ j k, ((c.move i s w).pc j).pc = .wait k → (c.pc j).pc = .wait k :=
      c.forall_move i s w (A := fun j w => ∀ k, w.pc = .wait k → (c.pc j).pc = .wait k) hwait
        (fun j _ k hk => hk)
    refine ⟨?_, ?_, ?_, fun a b k ha hb => h.unique a b k (hold a k ha) (hold b k hb)⟩
    · rw [Config.move_shared, hret]
      exact hkept
    · rw [Config.move_shared, hret]
      exact h.nodup
    · intro j k hj
      obtain ⟨hlt, hnot⟩ := h.waiting j k (hold j k hj)
      rw [Config.move_shared, hret]
      exact ⟨hlt.trans_le hexpired, hnot⟩
  | reserved hret hnext hpc =>
    have hnew : c.shared.expired ∉ c.shared.returned := fun hmem =>
      lt_irrefl _ (h.returned _ hmem).2
    have hold : ∀ j k, ((c.move i s w).pc j).pc = .wait k →
        (j = i ∧ k = c.shared.expired) ∨ (j ≠ i ∧ (c.pc j).pc = .wait k) := by
      refine c.forall_move i s w (A := fun j w => ∀ k, w.pc = .wait k →
        (j = i ∧ k = c.shared.expired) ∨ (j ≠ i ∧ (c.pc j).pc = .wait k)) ?_ ?_
      · intro k hk
        rw [hpc] at hk
        cases hk
        exact .inl ⟨rfl, rfl⟩
      · exact fun j hj k hk => .inr ⟨hj, hk⟩
    refine ⟨?_, ?_, ?_, ?_⟩
    · rw [Config.move_shared, hret]
      exact hkept
    · rw [Config.move_shared, hret]
      exact h.nodup
    · intro j k hj
      rw [Config.move_shared, hret, hnext]
      rcases hold j k hj with ⟨-, rfl⟩ | ⟨-, hpcj⟩
      · exact ⟨Nat.lt_succ_self _, hnew⟩
      · exact ⟨Nat.lt_succ_of_lt (h.waiting j k hpcj).1, (h.waiting j k hpcj).2⟩
    · intro a b k ha hb
      rcases hold a k ha with ⟨rfl, rfl⟩ | ⟨-, hpca⟩ <;> rcases hold b _ hb with ⟨rfl, hk⟩ | ⟨-, hpcb⟩
      · rfl
      · exact absurd (h.waiting b _ hpcb).1 (lt_irrefl _)
      · rw [hk] at hpca
        exact absurd (h.waiting a _ hpca).1 (lt_irrefl _)
      · exact h.unique a b k hpca hpcb
  | @returned key hpc hlt hret hidle =>
    obtain ⟨hkey, hfresh⟩ := h.waiting i key hpc
    have hold : ∀ j k, ((c.move i s w).pc j).pc = .wait k → j ≠ i ∧ (c.pc j).pc = .wait k := by
      refine c.forall_move i s w (A := fun j w => ∀ k, w.pc = .wait k →
        j ≠ i ∧ (c.pc j).pc = .wait k) ?_ (fun j hj k hk => ⟨hj, hk⟩)
      intro k hk
      rw [hidle] at hk
      cases hk
    refine ⟨?_, ?_, ?_, fun a b k ha hb => h.unique a b k (hold a k ha).2 (hold b k hb).2⟩
    · rw [Config.move_shared, hret]
      intro k hk
      rcases List.mem_cons.mp hk with rfl | hk
      · exact ⟨hlt.trans_le hpublished, hkey.trans_le hexpired⟩
      · exact hkept k hk
    · rw [Config.move_shared, hret]
      exact List.nodup_cons.mpr ⟨hfresh, h.nodup⟩
    · intro j k hj
      obtain ⟨hne, hpcj⟩ := hold j k hj
      obtain ⟨hltk, hnot⟩ := h.waiting j k hpcj
      rw [Config.move_shared, hret]
      refine ⟨hltk.trans_le hexpired, fun hmem => ?_⟩
      rcases List.mem_cons.mp hmem with rfl | hmem
      · exact hne (h.unique j i k hpcj hpc)
      · exact hnot hmem

/-! ## The protocol -/

section Start
variable (initial operations : ℕ)

theorem windowOk_start : WindowOk (start initial operations) := by
  refine ⟨le_rfl, ?_, ?_, ?_, ?_⟩
  · intro k hk
    simp [start, OnlineKeys.new] at hk
  · rintro i p ⟨⟩
  · rintro i p ⟨⟩
  · intro hflag
    have hmem := List.mem_of_getElem? hflag
    simp [start, OnlineKeys.new] at hmem

theorem deletesOk_start : DeletesOk (start initial operations) := by
  refine ⟨?_, List.nodup_nil, ?_, ?_⟩
  · intro k hk
    cases hk
  · rintro i k ⟨⟩
  · rintro i j k ⟨⟩

end Start

/-- The flags below `n` are set and the one at `n` is not. -/
theorem length_takeWhile {flags : List Bool} {n : ℕ}
    (hset : ∀ k, k < n → flags[k]? = some true) (hend : flags[n]? ≠ some true) :
    (flags.takeWhile id).length = n := by
  induction flags generalizing n with
  | nil =>
    cases n with
    | zero => rfl
    | succ n => cases hset 0 n.succ_pos
  | cons flag flags ih =>
    cases n with
    | zero =>
      cases flag with
      | false => rfl
      | true => exact absurd rfl hend
    | succ n =>
      cases hset 0 n.succ_pos
      have htail := ih (n := n) (fun k hk => hset (k + 1) (Nat.succ_lt_succ hk)) hend
      simp [htail]

theorem take_eq_replicate {flags : List Bool} {n : ℕ}
    (hset : ∀ k, k < n → flags[k]? = some true) : flags.take n = List.replicate n true := by
  apply List.ext_getElem?
  intro k
  rw [List.getElem?_take, List.getElem?_replicate]
  split
  · next hk => exact hset k hk
  · rfl

/-- The publish protocol in every run: `published` is always the end of a run of
set flags from the start of the array; a deleted key is published and given out
once; and when nobody is publishing, the window ends at the first missing key. -/
theorem publish_protocol {initial operations : ℕ} {c : State}
    (h : Runs (start initial operations) c) :
    (initial ≤ c.shared.published ∧
      c.shared.inserted.take (c.shared.published - initial) =
        List.replicate (c.shared.published - initial) true) ∧
    ((∀ k ∈ c.shared.returned, k < c.shared.published) ∧ c.shared.returned.Nodup) ∧
    ((∀ i, publishing (c.pc i).pc = false) →
      c.shared.published - initial = (c.shared.inserted.takeWhile id).length) := by
  have hwindow : WindowOk c := h.preserves (fun _ _ _ _ _ hs hinv => hinv.step hs)
    (windowOk_start initial operations)
  have hdeletes : DeletesOk c := h.preserves (fun _ _ _ _ _ hs hinv => hinv.step hs)
    (deletesOk_start initial operations)
  have hinitial : c.shared.initial = initial :=
    h.preserves (J := fun c => c.shared.initial = initial)
      (fun _ _ _ _ _ hs hinv => (initial_eq hs).trans hinv) rfl
  have hset := hwindow.window
  rw [hinitial] at hset
  refine ⟨⟨hinitial ▸ hwindow.initial_le, take_eq_replicate hset⟩,
    ⟨fun k hk => (hdeletes.returned k hk).1, hdeletes.nodup⟩, fun hquiet => ?_⟩
  refine (length_takeWhile hset fun hflag => ?_).symm
  rw [← hinitial] at hflag
  obtain ⟨i, hi⟩ := hwindow.helped hflag
  have hnot := publishing_of_helping hi
  rw [hquiet i] at hnot
  cases hnot

/-- Key 4 is published before key 3; the publisher of 3 takes both into the window. -/
theorem publish_protocol_out_of_order :
    ∃ c, Runs (start 3 2) c ∧ c.shared.returned = [0] ∧ c.shared.published = 5 ∧
      (∀ i, publishing (c.pc i).pc = false) ∧
      c.shared.published - 3 = (c.shared.inserted.takeWhile id).length := by
  have r := (Run.refl (start 3 2) : Run Step Anytime _ _).move 0 (.reserveInsert (by decide))
  replace r := r.move 1 (.reserveInsert (by decide))
  replace r := r.move 1 (.publishInsert (show 4 ∈ _ by decide))
  replace r := r.move 1 .store
  replace r := r.move 1 .load
  replace r := r.move 1 (.testStops (by decide))
  replace r := r.move 0 (.publishInsert (show 3 ∈ _ by decide))
  replace r := r.move 0 .store
  replace r := r.move 0 .load
  replace r := r.move 0 (.testGoesOn (by decide))
  replace r := r.move 0 .exchangeFails
  replace r := r.move 0 .load
  replace r := r.move 0 (.testGoesOn (by decide))
  replace r := r.move 0 (.exchange rfl)
  replace r := r.move 0 .load
  replace r := r.move 0 (.testGoesOn (by decide))
  replace r := r.move 0 (.exchange rfl)
  replace r := r.move 0 .load
  replace r := r.move 0 (.testStops (by decide))
  replace r := r.move 0 .reserveDelete
  replace r := r.move 0 (.returns (by decide))
  obtain ⟨c, hrun, hreturned, hpublished, hquiet⟩ : ∃ c, Runs (start 3 2) c ∧
      c.shared.returned = [0] ∧ c.shared.published = 5 ∧
      ∀ i, publishing (c.pc i).pc = false := by
    refine ⟨_, r, rfl, rfl, fun j => ?_⟩
    by_cases hzero : j = 0
    · subst hzero
      rfl
    · by_cases hone : j = 1
      · subst hone
        rfl
      · simp [Config.move, hzero, hone, start, publishing]
  exact ⟨c, hrun, hreturned, hpublished, hquiet, (publish_protocol hrun).2.2 hquiet⟩

end CMVBT.KeyWindow
