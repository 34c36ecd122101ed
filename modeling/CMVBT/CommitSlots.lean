import CMVBT.ClockProtocol
import Mathlib.Data.Finset.Card

/-!
# Who owns a commit slot

Threads take an id from the list of free ids or from a counter when they first use
the clock, publish their commits in the slot with that id, and give the id back
when they end. Every store, `fetch_add` and change of the list under its mutex is
a step of its own. Here threads and ids are different things: a thread holds an id
from some step on. The last element of the list of free ids comes first.

Reads are left out. One that gives up the slot of its thread, after many in a row,
stores the same values as `release_thread_commit`.
-/
namespace CMVBT.CommitSlots
open PageModel CommitClock Interleaving
open ClockProtocol (maxThreads)

/-! ## Pools of ids -/

section Pools
variable {I : Type} [DecidableEq I]

/-- The ids below `next` are free or held, none of them twice. -/
structure Allocated (free : List ℕ) (next : ℕ) (held : I → Option ℕ) : Prop where
  unique : ∀ i j t, held i = some t → held j = some t → i = j
  known : ∀ i t, held i = some t → t < next
  free_known : ∀ t ∈ free, t < next
  free_nodup : free.Nodup
  free_unheld : ∀ t ∈ free, ∀ i, held i ≠ some t
  covered : ∀ t < next, t ∈ free ∨ ∃ i, held i = some t

variable {free : List ℕ} {next t : ℕ} {held : I → Option ℕ} {i : I}

theorem held_update {j : I} {o : Option ℕ} (h : Function.update held i o j = some t) :
    (j = i ∧ o = some t) ∨ (j ≠ i ∧ held j = some t) := by
  by_cases hj : j = i
  · subst hj
    rw [Function.update_self] at h
    exact .inl ⟨rfl, h⟩
  · rw [Function.update_of_ne hj] at h
    exact .inr ⟨hj, h⟩

/-- An id that nobody held gets a holder. -/
theorem Allocated.hold (h : Allocated (t :: free) next held) (hi : held i = none) :
    Allocated free next (Function.update held i (some t)) where
  unique j k u hj hk := by
    have hfree := h.free_unheld t List.mem_cons_self
    rcases held_update hj with ⟨hji, hu⟩ | ⟨-, hj⟩
    · rcases held_update hk with ⟨hki, -⟩ | ⟨-, hk⟩
      · exact hji.trans hki.symm
      · cases hu
        exact absurd hk (hfree k)
    · rcases held_update hk with ⟨-, hu⟩ | ⟨-, hk⟩
      · cases hu
        exact absurd hj (hfree j)
      · exact h.unique j k u hj hk
  known j u hj := by
    rcases held_update hj with ⟨-, hu⟩ | ⟨-, hj⟩
    · cases hu
      exact h.free_known t List.mem_cons_self
    · exact h.known j u hj
  free_known u hu := h.free_known u (List.mem_cons_of_mem t hu)
  free_nodup := (List.nodup_cons.mp h.free_nodup).2
  free_unheld u hu j hj := by
    rcases held_update hj with ⟨-, heq⟩ | ⟨-, hj⟩
    · cases heq
      exact (List.nodup_cons.mp h.free_nodup).1 hu
    · exact h.free_unheld u (List.mem_cons_of_mem t hu) j hj
  covered u hu := by
    rcases h.covered u hu with hmem | ⟨j, hj⟩
    · rcases List.mem_cons.mp hmem with rfl | hmem
      · exact .inr ⟨i, Function.update_self i (some u) held⟩
      · exact .inl hmem
    · refine .inr ⟨j, ?_⟩
      rwa [Function.update_of_ne]
      rintro rfl
      rw [hi] at hj
      cases hj

omit [DecidableEq I] in
/-- The next id joins the free ones. -/
theorem Allocated.grow (h : Allocated free next held) : Allocated (next :: free) (next + 1) held where
  unique := h.unique
  known j u hj := (h.known j u hj).trans (Nat.lt_succ_self next)
  free_known u hu := by
    rcases List.mem_cons.mp hu with rfl | hu
    · exact Nat.lt_succ_self u
    · exact (h.free_known u hu).trans (Nat.lt_succ_self next)
  free_nodup := List.nodup_cons.mpr
    ⟨fun hmem => lt_irrefl _ (h.free_known next hmem), h.free_nodup⟩
  free_unheld u hu j hj := by
    rcases List.mem_cons.mp hu with rfl | hu
    · exact lt_irrefl _ (h.known j u hj)
    · exact h.free_unheld u hu j hj
  covered u hu := by
    rcases (Nat.lt_succ_iff.mp hu).lt_or_eq with hlt | rfl
    · exact (h.covered u hlt).imp_left (List.mem_cons_of_mem next)
    · exact .inl List.mem_cons_self

/-- A holder gives its id back. -/
theorem Allocated.put (h : Allocated free next held) (hi : held i = some t) :
    Allocated (t :: free) next (Function.update held i none) where
  unique j k u hj hk := by
    rcases held_update hj with ⟨-, hu⟩ | ⟨-, hj⟩
    · cases hu
    · rcases held_update hk with ⟨-, hu⟩ | ⟨-, hk⟩
      · cases hu
      · exact h.unique j k u hj hk
  known j u hj := by
    rcases held_update hj with ⟨-, hu⟩ | ⟨-, hj⟩
    · cases hu
    · exact h.known j u hj
  free_known u hu := by
    rcases List.mem_cons.mp hu with rfl | hu
    · exact h.known i u hi
    · exact h.free_known u hu
  free_nodup := List.nodup_cons.mpr ⟨fun hmem => h.free_unheld t hmem i hi, h.free_nodup⟩
  free_unheld u hu j hj := by
    rcases held_update hj with ⟨-, heq⟩ | ⟨hne, hj⟩
    · cases heq
    · rcases List.mem_cons.mp hu with rfl | hu
      · exact hne (h.unique j i u hj hi)
      · exact h.free_unheld u hu j hj
  covered u hu := by
    rcases h.covered u hu with hmem | ⟨j, hj⟩
    · exact .inl (List.mem_cons_of_mem t hmem)
    · by_cases hji : j = i
      · subst hji
        cases hi.symm.trans hj
        exact .inl List.mem_cons_self
      · exact .inr ⟨j, by rwa [Function.update_of_ne hji]⟩

omit [DecidableEq I] in
/-- Without free ids there are at least as many holders as ids. -/
theorem Allocated.next_le (h : Allocated [] next held) {holders : Finset I}
    (hholders : ∀ i, held i ≠ none → i ∈ holders) : next ≤ holders.card := by
  have hall : ∀ t ∈ Finset.range next, ∃ i, held i = some t := fun t ht =>
    (h.covered t (Finset.mem_range.mp ht)).resolve_left List.not_mem_nil
  choose holder hholder using hall
  have hmap : ∀ x ∈ (Finset.range next).attach, holder x.1 x.2 ∈ holders := fun x _ =>
    hholders _ (by rw [hholder]; exact Option.some_ne_none _)
  have hinj : Set.InjOn (fun x : Finset.range next => holder x.1 x.2) (Finset.range next).attach := by
    intro x _ y _ hxy
    have hx := hholder x.1 x.2
    have hy := hholder y.1 y.2
    have hsame : holder x.1 x.2 = holder y.1 y.2 := hxy
    rw [hsame, hy] at hx
    exact Subtype.ext (Option.some.inj hx).symm
  have hcard := Finset.card_le_card_of_injOn _ hmap hinj
  rwa [Finset.card_attach, Finset.card_range] at hcard

end Pools

/-! ## Threads -/

structure Shared where
  clock : ℕ
  globalDirty : DirtyFlag
  slots : ℕ → ℕ
  /-- `THREAD_ID`. -/
  threadId : ℕ
  /-- `FREE_TIDS` and the thread that holds its mutex. -/
  freeTids : List ℕ
  lock : Option ℕ

/-- Where a thread stands that has its id. -/
inductive Stage where
  | idle
  | committing (version : ℕ)
  | publishing
  | retired
  | resetting
  | leaving
  | pushing
deriving DecidableEq, Repr

/-- Where a thread stands. History: `mine` are the versions it has stored in its slot. -/
inductive Pc where
  | absent
  | starting
  | popping
  | drawing
  | panicked
  | active (tid : ℕ) (mine : List ℕ) (stage : Stage)
  | gone
deriving DecidableEq, Repr

/-- The id that a thread holds. -/
def Pc.tid : Pc → Option ℕ
  | .active tid _ _ => some tid
  | _ => none

/-- The thread has begun and has not ended. -/
def Pc.alive : Pc → Prop
  | .absent | .panicked | .gone => False
  | _ => True

/-- The atomic steps of thread `i`. -/
inductive Step (i : ℕ) : Shared → Pc → Shared → Pc → Prop
  -- `ThreadState::new`; the guard of the mutex lives to the end of the statement
  | start {s : Shared} : Step i s .absent s .starting
  | lockNew {s : Shared} : s.lock = none → Step i s .starting { s with lock := some i } .popping
  | pop {s : Shared} {tid : ℕ} {rest : List ℕ} : s.freeTids = tid :: rest →
      Step i s .popping { s with freeTids := rest, lock := none } (.active tid [] .idle)
  | popEmpty {s : Shared} : s.freeTids = [] → Step i s .popping s .drawing
  | fetchAdd {s : Shared} : s.threadId < maxThreads →
      Step i s .drawing { s with threadId := s.threadId + 1, lock := none }
        (.active s.threadId [] .idle)
  | tooMany {s : Shared} : ¬ s.threadId < maxThreads →
      Step i s .drawing { s with threadId := s.threadId + 1, lock := none } .panicked
  -- `start_commit`, then `end_commit` in two stores
  | startCommit {s : Shared} {tid : ℕ} {mine : List ℕ} :
      Step i s (.active tid mine .idle) { s with clock := s.clock + 1 }
        (.active tid mine (.committing s.clock))
  | storeSlot {s : Shared} {tid version : ℕ} {mine : List ℕ} :
      Step i s (.active tid mine (.committing version))
        { s with slots := Function.update s.slots tid version }
        (.active tid (version :: mine) .publishing)
  | storeDirty {s : Shared} {tid : ℕ} {mine : List ℕ} :
      Step i s (.active tid mine .publishing) { s with globalDirty := .dirty }
        (.active tid mine .idle)
  -- `release_thread_commit`
  | release {s : Shared} {tid : ℕ} {mine : List ℕ} :
      Step i s (.active tid mine .idle)
        { s with slots := Function.update s.slots tid inactive } (.active tid mine .retired)
  | releaseDirty {s : Shared} {tid : ℕ} {mine : List ℕ} :
      Step i s (.active tid mine .retired) { s with globalDirty := .dirty }
        (.active tid mine .idle)
  -- `Drop for ThreadState`, also in the middle of a commit
  | drop {s : Shared} {tid : ℕ} {mine : List ℕ} {stage : Stage} :
      stage = .idle ∨ (∃ version, stage = .committing version) →
      Step i s (.active tid mine stage)
        { s with slots := Function.update s.slots tid inactive } (.active tid mine .resetting)
  | dropDirty {s : Shared} {tid : ℕ} {mine : List ℕ} :
      Step i s (.active tid mine .resetting) { s with globalDirty := .dirty }
        (.active tid mine .leaving)
  | lockDrop {s : Shared} {tid : ℕ} {mine : List ℕ} : s.lock = none →
      Step i s (.active tid mine .leaving) { s with lock := some i } (.active tid mine .pushing)
  | push {s : Shared} {tid : ℕ} {mine : List ℕ} :
      Step i s (.active tid mine .pushing) { s with freeTids := tid :: s.freeTids, lock := none }
        .gone

abbrev State := Config ℕ Shared Pc

/-- No thread has used the clock yet. -/
def start : State where
  shared := ⟨startVersion, .clean, fun _ => inactive, 0, [], none⟩
  pc := fun _ => .absent

/-- At most `MAX_THREADS` threads are alive. -/
def Room (_ : ℕ) (c : State) : Prop :=
  ∃ threads : Finset ℕ, threads.card ≤ maxThreads ∧ ∀ i, (c.pc i).alive → i ∈ threads

/-- The fold of `committed_snapshot` over the first `THREAD_ID` slots. -/
def aggMinCommit (s : Shared) (clockTime : ℕ) : ℕ :=
  (List.range s.threadId).foldl (fun acc tid => min acc (s.slots tid)) clockTime

/-! ## Ids -/

/-- The ids that the threads hold. -/
def held (c : State) (i : ℕ) : Option ℕ := (c.pc i).tid

theorem held_move (c : State) (i : ℕ) (s : Shared) (l : Pc) :
    held (c.move i s l) = Function.update (held c) i l.tid := by
  funext j
  by_cases hj : j = i
  · subst hj
    simp [held]
  · simp [held, hj]

/-- The ids are allocated, and only the holder of the mutex changes their list. -/
structure Pool (c : State) : Prop where
  allocated : Allocated c.shared.freeTids c.shared.threadId (held c)
  inBounds : c.shared.threadId ≤ maxThreads
  calm : ∀ i, c.pc i ≠ .panicked

theorem pool_start : Pool start where
  allocated :=
    { unique := fun i j t h => by cases h
      known := fun i t h => by cases h
      free_known := fun t h => by cases h
      free_nodup := List.nodup_nil
      free_unheld := fun t h => by cases h
      covered := fun t h => absurd h (Nat.not_lt_zero t) }
  inBounds := Nat.zero_le _
  calm := fun i h => by cases h

/-- Steps that hand out no id and take none back. -/
theorem ids_step {i : ℕ} {s s' : Shared} {pc pc' : Pc} (h : Step i s pc s' pc') :
    (s'.freeTids = s.freeTids ∧ s'.threadId = s.threadId ∧ pc'.tid = pc.tid ∧
      (pc' = .panicked → pc = .panicked)) ∨
    (∃ tid, s.freeTids = tid :: s'.freeTids ∧ s'.threadId = s.threadId ∧ pc.tid = none ∧
      pc' = .active tid [] .idle) ∨
    (pc = .drawing ∧ s.threadId < maxThreads ∧ s'.freeTids = s.freeTids ∧
      s'.threadId = s.threadId + 1 ∧ pc' = .active s.threadId [] .idle) ∨
    (pc = .drawing ∧ ¬ s.threadId < maxThreads) ∨
    ∃ tid, pc.tid = some tid ∧ s'.freeTids = tid :: s.freeTids ∧ s'.threadId = s.threadId ∧
      pc' = .gone := by
  cases h with
  | pop hfree => exact .inr (.inl ⟨_, hfree, rfl, rfl, rfl⟩)
  | fetchAdd hlt => exact .inr (.inr (.inl ⟨rfl, hlt, rfl, rfl, rfl⟩))
  | tooMany hge => exact .inr (.inr (.inr (.inl ⟨rfl, hge⟩)))
  | push => exact .inr (.inr (.inr (.inr ⟨_, rfl, rfl, rfl, rfl⟩)))
  | _ => exact .inl ⟨rfl, rfl, rfl, fun h => by cases h⟩

/-! ## The mutex -/

/-- The thread holds the mutex of `FREE_TIDS`. -/
def Pc.locks : Pc → Prop
  | .popping | .drawing => True
  | .active _ _ stage => stage = .pushing
  | _ => False

/-- One thread at a time, and the list stays empty while one draws a new id. -/
structure Locked (c : State) : Prop where
  owner : ∀ i, (c.pc i).locks → c.shared.lock = some i
  drained : ∀ i, c.pc i = .drawing → c.shared.freeTids = []

theorem locked_start : Locked start where
  owner := fun i h => h.elim
  drained := fun i h => by cases h

theorem lock_step {i : ℕ} {s s' : Shared} {pc pc' : Pc} (h : Step i s pc s' pc') :
    (s'.lock = s.lock ∧ s'.freeTids = s.freeTids ∧ (pc'.locks → pc.locks) ∧
      (pc' = .drawing → s.freeTids = [])) ∨
    (s.lock = none ∧ s'.lock = some i ∧ s'.freeTids = s.freeTids ∧ pc' ≠ .drawing) ∨
    (pc.locks ∧ s'.lock = none ∧ ¬ pc'.locks) := by
  cases h with
  | lockNew hlock => exact .inr (.inl ⟨hlock, rfl, rfl, fun h => by cases h⟩)
  | lockDrop hlock => exact .inr (.inl ⟨hlock, rfl, rfl, fun h => by cases h⟩)
  | pop => exact .inr (.inr ⟨trivial, rfl, fun h => by cases h⟩)
  | fetchAdd => exact .inr (.inr ⟨trivial, rfl, fun h => by cases h⟩)
  | tooMany => exact .inr (.inr ⟨trivial, rfl, fun h => h⟩)
  | push => exact .inr (.inr ⟨rfl, rfl, fun h => h⟩)
  | popEmpty hfree => exact .inl ⟨rfl, rfl, fun _ => trivial, fun _ => hfree⟩
  | start => exact .inl ⟨rfl, rfl, fun h => h, fun h => by cases h⟩
  | _ =>
    refine .inl ⟨rfl, rfl, ?_, ?_⟩
    · intro hlocks
      cases hlocks
    · intro heq
      cases heq

theorem Locked.step {c : State} (h : Locked c) {i : ℕ} {s : Shared} {l : Pc}
    (hs : Step i c.shared (c.pc i) s l) : Locked (c.move i s l) := by
  -- while another thread holds the mutex, this one does not
  have hother : ∀ j, j ≠ i → (c.pc j).locks → ¬ (c.pc i).locks := by
    intro j hj hlocks hlocks'
    exact hj (Option.some.inj ((h.owner j hlocks).symm.trans (h.owner i hlocks')))
  rcases lock_step hs with ⟨hlock, hfree, hkeep, hdrawing⟩ | ⟨hnone, hlock, hfree, hdrawing⟩ |
    ⟨hheld, hlock, hreleased⟩
  · refine ⟨c.forall_move i s l (A := fun j pc => pc.locks → s.lock = some j) ?_ ?_,
      c.forall_move i s l (A := fun _ pc => pc = .drawing → s.freeTids = []) ?_ ?_⟩
    · exact fun hlocks => hlock.trans (h.owner i (hkeep hlocks))
    · exact fun j _ hlocks => hlock.trans (h.owner j hlocks)
    · exact fun heq => hfree.trans (hdrawing heq)
    · exact fun j _ heq => hfree.trans (h.drained j heq)
  · refine ⟨c.forall_move i s l (A := fun j pc => pc.locks → s.lock = some j) ?_ ?_,
      c.forall_move i s l (A := fun _ pc => pc = .drawing → s.freeTids = []) ?_ ?_⟩
    · exact fun _ => hlock
    · intro j _ hlocks
      cases hnone.symm.trans (h.owner j hlocks)
    · exact fun heq => absurd heq hdrawing
    · exact fun j _ heq => hfree.trans (h.drained j heq)
  · refine ⟨c.forall_move i s l (A := fun j pc => pc.locks → s.lock = some j) ?_ ?_,
      c.forall_move i s l (A := fun _ pc => pc = .drawing → s.freeTids = []) ?_ ?_⟩
    · exact fun hlocks => absurd hlocks hreleased
    · exact fun j hj hlocks => absurd hheld (hother j hj hlocks)
    · intro heq
      subst heq
      exact absurd trivial hreleased
    · intro j hj heq
      have hlocks : (c.pc j).locks := by rw [heq]; trivial
      exact absurd hheld (hother j hj hlocks)

theorem Pool.step {c : State} (h : Pool c) (hlocked : Locked c) {i : ℕ} (hroom : Room i c)
    {s : Shared} {l : Pc} (hs : Step i c.shared (c.pc i) s l) : Pool (c.move i s l) := by
  have hcalm : l ≠ .panicked → ∀ j, (c.move i s l).pc j ≠ .panicked := fun hl =>
    c.forall_move i s l (A := fun _ pc => pc ≠ .panicked) hl fun j _ => h.calm j
  rcases ids_step hs with ⟨hfree, hnext, htid, hpanic⟩ | ⟨tid, hfree, hnext, hnone, rfl⟩ |
    ⟨hdrawing, hlt, hfree, hnext, rfl⟩ | ⟨hdrawing, hge⟩ | ⟨tid, htid, hfree, hnext, rfl⟩
  · refine ⟨?_, hnext.le.trans h.inBounds, hcalm fun hl => h.calm i (hpanic hl)⟩
    have hsame : held (c.move i s l) = held c := by
      rw [held_move, htid]
      exact Function.update_eq_self i (held c)
    rw [hsame, c.move_shared, hfree, hnext]
    exact h.allocated
  · refine ⟨?_, hnext.le.trans h.inBounds, hcalm (by simp)⟩
    rw [held_move, c.move_shared, hnext]
    have hall := h.allocated
    rw [hfree] at hall
    exact hall.hold hnone
  · refine ⟨?_, hnext.le.trans hlt, hcalm (by simp)⟩
    rw [held_move, c.move_shared, hnext, hfree]
    have hnone : held c i = none := by
      rw [held, hdrawing]
      rfl
    exact h.allocated.grow.hold hnone
  · -- the holders and the drawing thread are alive: there is an id left
    obtain ⟨threads, hcard, halive⟩ := hroom
    have hi : i ∈ threads := halive i (by rw [hdrawing]; trivial)
    have hholders : ∀ j, held c j ≠ none → j ∈ threads.erase i := by
      intro j hj
      refine Finset.mem_erase.mpr ⟨?_, halive j ?_⟩
      · rintro rfl
        exact hj (by rw [held, hdrawing]; rfl)
      · rw [held] at hj
        cases hpc : c.pc j with
        | active => trivial
        | _ => exact absurd (by rw [hpc]; rfl) hj
    have hall := h.allocated
    rw [hlocked.drained i hdrawing] at hall
    have hle := hall.next_le hholders
    rw [Finset.card_erase_of_mem hi] at hle
    have hpos := Finset.card_pos.mpr ⟨i, hi⟩
    omega
  · refine ⟨?_, hnext.le.trans h.inBounds, hcalm (by simp)⟩
    rw [held_move, c.move_shared, hnext, hfree]
    exact h.allocated.put htid

/-! ## Slots -/

/-- The slot of a thread is inactive or holds a version that the thread stored. -/
def Pc.fits (slots : ℕ → ℕ) : Pc → Prop
  | .active tid mine stage =>
    (slots tid = inactive ∨ slots tid ∈ mine) ∧
      (stage = .resetting ∨ stage = .leaving ∨ stage = .pushing → slots tid = inactive)
  | _ => True

theorem Pc.fits_congr {slots slots' : ℕ → ℕ} {pc : Pc} (h : pc.fits slots)
    (hsame : ∀ tid, pc.tid = some tid → slots' tid = slots tid) : pc.fits slots' := by
  cases pc with
  | active tid mine stage =>
    have hslot := hsame tid rfl
    simp only [Pc.fits] at h ⊢
    rwa [hslot]
  | _ => trivial

/-- The ids that nobody holds have inactive slots. -/
structure Quiet (s : Shared) : Prop where
  free : ∀ tid ∈ s.freeTids, s.slots tid = inactive
  beyond : ∀ tid, s.threadId ≤ tid → s.slots tid = inactive

/-- A thread stores in its own slot only. -/
theorem slots_frame {i : ℕ} {s s' : Shared} {pc pc' : Pc} (h : Step i s pc s' pc') {tid : ℕ}
    (htid : pc.tid ≠ some tid) : s'.slots tid = s.slots tid := by
  have hne : ∀ t, pc.tid = some t → tid ≠ t := by
    rintro t ht rfl
    exact htid ht
  cases h with
  | storeSlot => exact Function.update_of_ne (hne _ rfl) _ _
  | release => exact Function.update_of_ne (hne _ rfl) _ _
  | drop => exact Function.update_of_ne (hne _ rfl) _ _
  | _ => rfl

theorem threadId_le {i : ℕ} {s s' : Shared} {pc pc' : Pc} (h : Step i s pc s' pc') :
    s.threadId ≤ s'.threadId := by
  cases h with
  | fetchAdd => exact Nat.le_succ _
  | tooMany => exact Nat.le_succ _
  | _ => exact le_rfl

theorem fits_step {i : ℕ} {s s' : Shared} {pc pc' : Pc} (h : Step i s pc s' pc')
    (hquiet : Quiet s) (hfits : pc.fits s.slots) : pc'.fits s'.slots := by
  cases h with
  | pop hfree =>
    have hslot := hquiet.free _ (hfree ▸ List.mem_cons_self)
    exact ⟨.inl hslot, fun _ => hslot⟩
  | fetchAdd =>
    have hslot := hquiet.beyond _ le_rfl
    exact ⟨.inl hslot, fun _ => hslot⟩
  | startCommit => exact ⟨hfits.1, by simp⟩
  | storeSlot => exact ⟨.inr (by simp), by simp⟩
  | storeDirty => exact ⟨hfits.1, by simp⟩
  | release => exact ⟨.inl (by simp), by simp⟩
  | releaseDirty => exact ⟨hfits.1, by simp⟩
  | drop => exact ⟨.inl (by simp), by simp⟩
  | dropDirty => exact ⟨hfits.1, fun _ => hfits.2 (.inl rfl)⟩
  | lockDrop => exact ⟨hfits.1, fun _ => hfits.2 (.inr (.inl rfl))⟩
  | _ => trivial

/-- An id becomes free after its slot was made inactive. -/
theorem freed_step {i : ℕ} {s s' : Shared} {pc pc' : Pc} (h : Step i s pc s' pc')
    (hfits : pc.fits s.slots) {tid : ℕ} (htid : tid ∈ s'.freeTids) :
    tid ∈ s.freeTids ∨ s'.slots tid = inactive := by
  cases h with
  | pop hfree => exact .inl (hfree ▸ List.mem_cons_of_mem _ htid)
  | push =>
    rcases List.mem_cons.mp htid with rfl | hmem
    · exact .inr (hfits.2 (.inr (.inr rfl)))
    · exact .inl hmem
  | _ => exact .inl htid

structure Slots (c : State) : Prop where
  quiet : Quiet c.shared
  fits : ∀ i, (c.pc i).fits c.shared.slots

theorem slots_start : Slots start where
  quiet := ⟨fun _ _ => rfl, fun _ _ => rfl⟩
  fits := fun _ => trivial

theorem Slots.step {c : State} (h : Slots c) (hpool : Pool c) {i : ℕ} {s : Shared} {l : Pc}
    (hs : Step i c.shared (c.pc i) s l) : Slots (c.move i s l) := by
  have hframe : ∀ tid, held c i ≠ some tid → s.slots tid = c.shared.slots tid := fun tid =>
    slots_frame hs
  constructor
  · constructor
    · intro tid htid
      rcases freed_step hs (h.fits i) htid with hfree | hslot
      · exact (hframe tid (hpool.allocated.free_unheld tid hfree i)).trans (h.quiet.free tid hfree)
      · exact hslot
    · intro tid htid
      have hle : c.shared.threadId ≤ tid := (threadId_le hs).trans htid
      have hfree : held c i ≠ some tid := fun hheld =>
        absurd (hpool.allocated.known i tid hheld) hle.not_gt
      exact (hframe tid hfree).trans (h.quiet.beyond tid hle)
  · refine c.forall_move i s l (A := fun _ pc => pc.fits s.slots)
      (fits_step hs h.quiet (h.fits i)) fun j hj => Pc.fits_congr (h.fits j) ?_
    intro tid htid
    exact hframe tid fun hheld => hj (hpool.allocated.unique j i tid htid hheld)

/-! ## Every interleaving -/

theorem foldl_min_le (slots : ℕ → ℕ) (tids : List ℕ) (acc : ℕ) :
    tids.foldl (fun acc tid => min acc (slots tid)) acc ≤ acc ∧
      ∀ tid ∈ tids, tids.foldl (fun acc tid => min acc (slots tid)) acc ≤ slots tid := by
  induction tids generalizing acc with
  | nil => exact ⟨le_rfl, fun tid h => by cases h⟩
  | cons t rest ih =>
    obtain ⟨hacc, hrest⟩ := ih (min acc (slots t))
    constructor
    · exact hacc.trans (min_le_left _ _)
    · intro tid htid
      rcases List.mem_cons.mp htid with rfl | hmem
      · exact hacc.trans (min_le_right _ _)
      · exact hrest tid hmem

/-- The scan over the first `THREAD_ID` slots includes every id below it. -/
theorem aggMinCommit_le (s : Shared) (clockTime : ℕ) {tid : ℕ} (h : tid < s.threadId) :
    aggMinCommit s clockTime ≤ s.slots tid :=
  (foldl_min_le s.slots _ clockTime).2 tid (List.mem_range.mpr h)

/-- Every commit slot has at most one owner, and only its owner's versions. -/
structure Exclusive (c : State) : Prop where
  /-- No two live threads hold the same id. -/
  unique : ∀ i j tid, held c i = some tid → held c j = some tid → i = j
  /-- The ids of live threads are below `THREAD_ID`, and these have a slot. -/
  known : ∀ i tid, held c i = some tid → tid < c.shared.threadId
  inBounds : c.shared.threadId ≤ maxThreads
  /-- No thread fails to get an id. -/
  calm : ∀ i, c.pc i ≠ .panicked
  free_nodup : c.shared.freeTids.Nodup
  free_unheld : ∀ tid ∈ c.shared.freeTids, ∀ i, held c i ≠ some tid
  free_inactive : ∀ tid ∈ c.shared.freeTids, c.shared.slots tid = inactive
  /-- The slot of a live thread is inactive or holds a version that this thread stored. -/
  own : ∀ i tid mine stage, c.pc i = .active tid mine stage →
    c.shared.slots tid = inactive ∨ c.shared.slots tid ∈ mine
  /-- The scan misses no live thread. -/
  scanned : ∀ i tid clockTime, held c i = some tid →
    aggMinCommit c.shared clockTime ≤ c.shared.slots tid

structure Guarded (c : State) : Prop where
  pool : Pool c
  locked : Locked c
  slots : Slots c

theorem Guarded.step {c : State} (h : Guarded c) {i : ℕ} (hroom : Room i c) {s : Shared} {l : Pc}
    (hs : Step i c.shared (c.pc i) s l) : Guarded (c.move i s l) where
  pool := h.pool.step h.locked hroom hs
  locked := h.locked.step hs
  slots := h.slots.step h.pool hs

theorem Guarded.exclusive {c : State} (h : Guarded c) : Exclusive c where
  unique := h.pool.allocated.unique
  known := h.pool.allocated.known
  inBounds := h.pool.inBounds
  calm := h.pool.calm
  free_nodup := h.pool.allocated.free_nodup
  free_unheld := h.pool.allocated.free_unheld
  free_inactive := h.slots.quiet.free
  own := by
    intro i tid mine stage hpc
    have hfits := h.slots.fits i
    rw [hpc] at hfits
    exact hfits.1
  scanned := fun i tid clockTime hheld =>
    aggMinCommit_le c.shared clockTime (h.pool.allocated.known i tid hheld)

theorem commit_slots_exclusive {c : State} (h : Run Step Room start c) : Exclusive c := by
  have hguarded : Guarded c := by
    refine h.preserves (J := Guarded) ?_ ⟨pool_start, locked_start, slots_start⟩
    intro c i s l hroom hs hc
    exact hc.step hroom hs
  exact hguarded.exclusive

/-- Runs in which two threads use the clock. -/
theorem pair_step {c : State}
    (h : Run Step Room start c ∧ ∀ i, (c.pc i).alive → i ∈ ({0, 1} : Finset ℕ)) (i : ℕ)
    {s : Shared} {l : Pc} (hs : Step i c.shared (c.pc i) s l) (hi : i ∈ ({0, 1} : Finset ℕ)) :
    Run Step Room start (c.move i s l) ∧
      ∀ j, ((c.move i s l).pc j).alive → j ∈ ({0, 1} : Finset ℕ) := by
  constructor
  · exact h.1.next i ⟨{0, 1}, by decide, h.2⟩ hs
  · exact c.forall_move i s l (A := fun j pc => pc.alive → j ∈ ({0, 1} : Finset ℕ))
      (fun _ => hi) fun j _ => h.2 j

/-- Thread 1 gets the id with which thread 0 has committed. -/
theorem commit_slots_recycled :
    ∃ c, Run Step Room start c ∧ c.pc 0 = .gone ∧ c.pc 1 = .active 0 [] .idle ∧
      c.shared.clock = startVersion + 1 ∧ c.shared.slots 0 = inactive ∧ Exclusive c := by
  have h₀ : Run Step Room start start ∧ ∀ i, (start.pc i).alive → i ∈ ({0, 1} : Finset ℕ) :=
    ⟨.refl start, fun i h => h.elim⟩
  have h₁ := pair_step h₀ 0 .start (by decide)
  have h₂ := pair_step h₁ 0 (.lockNew rfl) (by decide)
  have h₃ := pair_step h₂ 0 (.popEmpty rfl) (by decide)
  have h₄ := pair_step h₃ 0 (.fetchAdd (by decide)) (by decide)
  have h₅ := pair_step h₄ 0 .startCommit (by decide)
  have h₆ := pair_step h₅ 0 .storeSlot (by decide)
  have h₇ := pair_step h₆ 0 .storeDirty (by decide)
  have h₈ := pair_step h₇ 0 (.drop (.inl rfl)) (by decide)
  have h₉ := pair_step h₈ 0 .dropDirty (by decide)
  have h₁₀ := pair_step h₉ 0 (.lockDrop rfl) (by decide)
  have h₁₁ := pair_step h₁₀ 0 .push (by decide)
  have h₁₂ := pair_step h₁₁ 1 .start (by decide)
  have h₁₃ := pair_step h₁₂ 1 (.lockNew rfl) (by decide)
  have h₁₄ := pair_step h₁₃ 1 (.pop rfl) (by decide)
  exact ⟨_, h₁₄.1, rfl, rfl, rfl, rfl, commit_slots_exclusive h₁₄.1⟩

end CMVBT.CommitSlots
