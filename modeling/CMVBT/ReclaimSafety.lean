import CMVBT.ClockProtocol

/-!
# The reclaim protocol is safe

`GLOBAL_MIN` only grows and every committed snapshot is at least the value it had
when the call began. A reader pins a lower bound before it draws its snapshot,
the allocator reads the committed snapshot before it looks at the pins: a block
is handed out only below a bound that no present or future reader undercuts.
-/
namespace CMVBT.ReclaimSafety
open PageModel CommitClock Tracker Interleaving ClockProtocol

/-! ## Committed snapshots never decrease -/

theorem globalMin_le {i : ℕ} {s s' : Shared} {pc pc' : Pc} (h : Step i s pc s' pc') :
    s.globalMin ≤ s'.globalMin := by
  cases h <;> first | exact le_rfl | exact le_max_left _ _

/-- The thread is inside a call of `committed_snapshot`. -/
def inSnapshot : Pc → Bool
  | .loadFlag _ _ | .loadMin _ | .own _ _ | .count _ | .fold _ _ _ _ | .fetchMax _ _ | .clear _ _
  | .done _ _ => true
  | _ => false

/-- The value that a call is going to return, once it is fixed. -/
def result : Pc → Option ℕ
  | .clear _ r | .done _ r => some r
  | _ => none

theorem result_of_outside {pc : Pc} (h : inSnapshot pc = false) : result pc = none := by
  cases pc <;> first | rfl | cases h

@[simp] theorem result_purpose (p : Purpose) (r : ℕ) : result (p.pc r) = none := by
  cases p <;> rfl

@[simp] theorem result_after (a : After) : result a.pc = none := by
  cases a <;> rfl

@[simp] theorem result_resume (v : Option ℕ) : result (resume v) = none := by
  cases v <;> rfl

/-- A result is at least the watermark from before it was fixed. -/
theorem le_result {i : ℕ} {s s' : Shared} {pc pc' : Pc} (h : Step i s pc s' pc') {m : ℕ}
    (hm : m ≤ s.globalMin) (hr : ∀ r ∈ result pc, m ≤ r) : ∀ r ∈ result pc', m ≤ r := by
  cases h with
  | loadMin =>
    rintro r ⟨⟩
    exact hm
  | fetchMaxOwner =>
    rintro r ⟨⟩
    exact hm.trans (le_max_right _ _)
  | fetchMax =>
    rintro r ⟨⟩
    exact hm.trans (le_max_right _ _)
  | clear => exact hr
  | clearFails => exact hr
  | returned => simp
  | retire => simp
  | bury => simp
  | _ => rintro r ⟨⟩

/-- A result is at most the watermark from then on. -/
theorem result_le {i : ℕ} {s s' : Shared} {pc pc' : Pc} (h : Step i s pc s' pc')
    (hr : ∀ r ∈ result pc, r ≤ s.globalMin) : ∀ r ∈ result pc', r ≤ s'.globalMin := by
  cases h with
  | loadMin =>
    rintro r ⟨⟩
    exact le_rfl
  | fetchMaxOwner =>
    rintro r ⟨⟩
    exact (max_comm _ _).le
  | fetchMax =>
    rintro r ⟨⟩
    exact (max_comm _ _).le
  | clear => exact hr
  | clearFails => exact hr
  | returned => simp
  | retire => simp
  | bury => simp
  | _ => rintro r ⟨⟩

section Monotone
variable {c c' : State}

theorem runs_globalMin_le (h : Runs c c') : c.shared.globalMin ≤ c'.shared.globalMin :=
  h.monotone (f := Shared.globalMin) (fun _ _ _ _ _ hs => globalMin_le hs)

/-- Whatever a call that starts outside returns is at least the present watermark. -/
theorem runs_le_result (h : Runs c c') {m j : ℕ} (hm : m ≤ c.shared.globalMin)
    (hr : ∀ r ∈ result (c.pc j), m ≤ r) : ∀ r ∈ result (c'.pc j), m ≤ r := by
  refine (h.preserves (J := fun c => m ≤ c.shared.globalMin ∧ ∀ r ∈ result (c.pc j), m ≤ r) ?_
    ⟨hm, hr⟩).2
  rintro c i s l _ hs ⟨hm, hr⟩
  refine ⟨hm.trans (globalMin_le hs), ?_⟩
  by_cases hj : j = i
  · subst hj
    rw [Config.move_pc_self]
    exact le_result hs hm hr
  · rw [Config.move_pc_other c i s l hj]
    exact hr

end Monotone

/-! ## Tickets -/

def Purpose.ticket? : Purpose → Option Ticket
  | .draw ticket => some ticket
  | _ => none

/-- The ticket of a reader from the moment it is drawn to the end of the pin. -/
def held : Pc → Option Ticket
  | .announce ticket | .announced ticket | .reading ticket _ | .enroll ticket _ _
  | .querying ticket _ => some ticket
  | .retired (.snapshot _ purpose) => Purpose.ticket? purpose
  | .enter _ purpose | .loadFlag _ purpose | .loadMin purpose | .own _ purpose
  | .done purpose _ => Purpose.ticket? purpose
  | .count scan | .fold scan _ _ _ | .fetchMax scan _ | .clear scan _ =>
    Purpose.ticket? scan.purpose
  | _ => none

/-- The ticket is in the set of pins. -/
def pinned : Pc → Option Ticket
  | .announce _ => none
  | pc => held pc

@[simp] theorem held_purpose (p : Purpose) (r : ℕ) : held (p.pc r) = Purpose.ticket? p := by
  cases p <;> rfl

@[simp] theorem held_after (a : After) : held a.pc = held (.retired a) := by
  cases a <;> rfl

@[simp] theorem held_resume (v : Option ℕ) : held (resume v) = none := by
  cases v <;> rfl

theorem pinned_purpose (p : Purpose) (r : ℕ) : pinned (p.pc r) = held (p.pc r) := by
  cases p <;> rfl

theorem pinned_after (a : After) : pinned a.pc = held a.pc := by
  cases a <;> rfl

theorem pinned_resume (v : Option ℕ) : pinned (resume v) = held (resume v) := by
  cases v <;> rfl

theorem held_of_pinned {pc : Pc} {ticket : Ticket} (h : pinned pc = some ticket) :
    held pc = some ticket := by
  cases pc <;> first | exact h | cases h

/-- A thread keeps its ticket, drops it or draws a fresh one. -/
theorem held_step {i : ℕ} {s s' : Shared} {pc pc' : Pc} (h : Step i s pc s' pc') {tk : Ticket}
    (htk : held pc' = some tk) :
    held pc = some tk ∨ (tk.2 = s.liveTx.sequence ∧ s'.liveTx.sequence = s.liveTx.sequence + 1) := by
  cases h with
  | drawTicket =>
    cases htk
    exact .inr ⟨rfl, rfl⟩
  | returned =>
    rw [held_purpose] at htk
    exact .inl htk
  | retire =>
    rw [held_after] at htk
    exact .inl htk
  | bury =>
    rw [held_resume] at htk
    cases htk
  | _ => first | exact .inl htk | cases htk

theorem sequence_le {i : ℕ} {s s' : Shared} {pc pc' : Pc} (h : Step i s pc s' pc') :
    s.liveTx.sequence ≤ s'.liveTx.sequence := by
  cases h with
  | drawTicket => exact Nat.le_succ _
  | drawQuery => exact Nat.le_succ _
  | @complete _ snapshot =>
    change s.liveTx.sequence ≤ (s.liveTx.onTxCompleted snapshot).sequence
    unfold TransactionTrace.onTxCompleted
    split <;> exact le_rfl
  | _ => exact le_rfl

/-- What a step does to the set of pins. -/
theorem pins_step {i : ℕ} {s s' : Shared} {pc pc' : Pc} (h : Step i s pc s' pc') :
    s'.liveTx.pins = s.liveTx.pins ∨
      (∃ tk, held pc = some tk ∧ s'.liveTx.pins = tk :: s.liveTx.pins) ∨
      ∃ tk, held pc = some tk ∧ s'.liveTx.pins = s.liveTx.pins.erase tk := by
  cases h with
  | pin => exact .inr (.inl ⟨_, rfl, rfl⟩)
  | unpin => exact .inr (.inr ⟨_, rfl, rfl⟩)
  | @complete _ snapshot =>
    left
    change (s.liveTx.onTxCompleted snapshot).pins = s.liveTx.pins
    unfold TransactionTrace.onTxCompleted
    split <;> rfl
  | _ => exact .inl rfl

/-- A step of its own does not take a reader out of the set of pins. -/
theorem pinned_step {i : ℕ} {s s' : Shared} {pc pc' : Pc} (h : Step i s pc s' pc') {tk : Ticket}
    (htk : pinned pc' = some tk) (hmem : pinned pc = some tk → tk ∈ s.liveTx.pins) :
    tk ∈ s'.liveTx.pins := by
  cases h with
  | pin =>
    cases htk
    exact List.mem_cons_self
  | @complete ticket snapshot =>
    change tk ∈ (s.liveTx.onTxCompleted snapshot).pins
    unfold TransactionTrace.onTxCompleted
    split <;> exact hmem htk
  | @returned purpose result =>
    rw [pinned_purpose, held_purpose] at htk
    exact hmem htk
  | @retire after =>
    rw [pinned_after, held_after] at htk
    exact hmem htk
  | bury =>
    rw [pinned_resume, held_resume] at htk
    cases htk
  | _ => first | exact hmem htk | cases htk

structure TicketsOk (c : State) : Prop where
  below : ∀ i tk, held (c.pc i) = some tk → tk.2 < c.shared.liveTx.sequence
  unique : ∀ i j tk, held (c.pc i) = some tk → held (c.pc j) = some tk → i = j
  pinned : ∀ i tk, pinned (c.pc i) = some tk → tk ∈ c.shared.liveTx.pins

theorem TicketsOk.step {c : State} (h : TicketsOk c) {i : ℕ} {s : Shared} {l : Pc}
    (hs : Step i c.shared (c.pc i) s l) : TicketsOk (c.move i s l) := by
  have hfresh : ∀ j tk, held (c.pc j) = some tk → held l = some tk → j = i := by
    intro j tk hj hl
    rcases held_step hs hl with hi | ⟨heq, -⟩
    · exact h.unique j i tk hj hi
    · have := h.below j tk hj
      omega
  refine ⟨?_, ?_, ?_⟩
  · refine c.forall_move i s l (A := fun _ pc => ∀ tk, held pc = some tk →
      tk.2 < s.liveTx.sequence) ?_ ?_
    · intro tk htk
      have hle := sequence_le hs
      rcases held_step hs htk with hi | ⟨heq, hnext⟩
      · exact (h.below i tk hi).trans_le hle
      · omega
    · intro j _ tk htk
      exact (h.below j tk htk).trans_le (sequence_le hs)
  · refine c.forall_move i s l (A := fun a pc => ∀ j tk, held pc = some tk →
      held ((c.move i s l).pc j) = some tk → a = j) ?_ ?_
    · intro j tk hi hj
      by_cases hji : j = i
      · exact hji.symm
      · rw [Config.move_pc_other c i s l hji] at hj
        exact (hfresh j tk hj hi).symm
    · intro a _ j tk ha hj
      by_cases hji : j = i
      · subst hji
        rw [Config.move_pc_self] at hj
        exact hfresh a tk ha hj
      · rw [Config.move_pc_other c i s l hji] at hj
        exact h.unique a j tk ha hj
  · refine c.forall_move i s l (A := fun _ pc => ∀ tk, ReclaimSafety.pinned pc = some tk →
      tk ∈ s.liveTx.pins) ?_ ?_
    · exact fun tk htk => pinned_step hs htk (h.pinned i tk)
    · intro j hj tk htk
      have hmem := h.pinned j tk htk
      rcases pins_step hs with heq | ⟨tk', -, heq⟩ | ⟨tk', hheld, heq⟩
      · rwa [heq]
      · rw [heq]
        exact List.mem_cons_of_mem _ hmem
      · rw [heq]
        refine (List.mem_erase_of_ne ?_).mpr hmem
        rintro rfl
        exact hj (h.unique j i tk (held_of_pinned htk) hheld)

/-! ## Lower bounds -/

/-- A value that the thread has read from `GLOBAL_MIN` and still relies on. -/
def pledge : Pc → Option ℕ
  | .ticket lowerBound => some lowerBound
  | .peekQueries committed | .peekPins committed _ => some committed
  | pc => (held pc).map Prod.fst

/-- The ticket and the snapshot of a reader that has drawn its snapshot. -/
def drawn : Pc → Option (Ticket × ℕ)
  | .done purpose r => (Purpose.ticket? purpose).map (fun ticket => (ticket, r))
  | .clear scan r => (Purpose.ticket? scan.purpose).map (fun ticket => (ticket, r))
  | .reading ticket snapshot | .enroll ticket snapshot _ | .querying ticket snapshot =>
    some (ticket, snapshot)
  | _ => none

theorem pledge_of_held {pc : Pc} {tk : Ticket} (h : held pc = some tk) :
    pledge pc = some tk.1 := by
  cases pc <;> first | exact congrArg (Option.map Prod.fst) h | cases h

theorem held_of_drawn {pc : Pc} {tk : Ticket} {x : ℕ} (h : drawn pc = some (tk, x)) :
    held pc = some tk := by
  cases pc with
  | done purpose r =>
    obtain ⟨tk', htk, heq⟩ := Option.map_eq_some_iff.mp h
    cases heq
    exact htk
  | clear scan r =>
    obtain ⟨tk', htk, heq⟩ := Option.map_eq_some_iff.mp h
    cases heq
    exact htk
  | reading => cases h; rfl
  | enroll => cases h; rfl
  | querying => cases h; rfl
  | _ => cases h

theorem pinned_of_drawn {pc : Pc} {tk : Ticket} {x : ℕ} (h : drawn pc = some (tk, x)) :
    pinned pc = some tk := by
  have hheld := held_of_drawn h
  cases pc <;> first | exact hheld | cases h

@[simp] theorem drawn_resume (v : Option ℕ) : drawn (resume v) = none := by
  cases v <;> rfl

@[simp] theorem drawn_after (a : After) : drawn a.pc = none := by
  cases a <;> rfl

theorem drawn_purpose (p : Purpose) (r : ℕ) : drawn (p.pc r) = drawn (.done p r) := by
  cases p <;> rfl

theorem pledge_after (a : After) : pledge a.pc = pledge (.retired a) := by
  cases a <;> rfl

/-- A thread relies on what it relied on before or on a result that it was given. -/
theorem pledge_step {i : ℕ} {s s' : Shared} {pc pc' : Pc} (h : Step i s pc s' pc') {m : ℕ}
    (hm : pledge pc' = some m) : pledge pc = some m ∨ result pc = some m := by
  cases h with
  | @returned purpose r =>
    cases purpose with
    | read => cases hm
    | bound => exact .inr hm
    | draw ticket => exact .inl hm
    | free => exact .inr hm
  | retire =>
    rw [pledge_after] at hm
    exact .inl hm
  | @bury entry version =>
    cases version <;> cases hm
  | _ => first | exact .inl hm | cases hm

/-- A snapshot is at least the watermark from before it was drawn. -/
theorem drawn_step {i : ℕ} {s s' : Shared} {pc pc' : Pc} (h : Step i s pc s' pc') {tk : Ticket}
    {x : ℕ} (hx : drawn pc' = some (tk, x)) :
    drawn pc = some (tk, x) ∨ (held pc = some tk ∧ s.globalMin ≤ x) := by
  cases h with
  | loadMin =>
    obtain ⟨tk', htk, heq⟩ := Option.map_eq_some_iff.mp hx
    cases heq
    exact .inr ⟨htk, le_rfl⟩
  | fetchMaxOwner =>
    obtain ⟨tk', htk, heq⟩ := Option.map_eq_some_iff.mp hx
    cases heq
    exact .inr ⟨htk, le_max_right _ _⟩
  | fetchMax =>
    obtain ⟨tk', htk, heq⟩ := Option.map_eq_some_iff.mp hx
    cases heq
    exact .inr ⟨htk, le_max_right _ _⟩
  | returned =>
    rw [drawn_purpose] at hx
    exact .inl hx
  | retire =>
    rw [drawn_after] at hx
    cases hx
  | bury =>
    rw [drawn_resume] at hx
    cases hx
  | _ => first | exact .inl hx | cases hx

structure LowerOk (c : State) : Prop where
  result_le : ∀ i r, result (c.pc i) = some r → r ≤ c.shared.globalMin
  pledge_le : ∀ i m, pledge (c.pc i) = some m → m ≤ c.shared.globalMin
  ticket_le : ∀ i tk x, drawn (c.pc i) = some (tk, x) → tk.1 ≤ x

theorem LowerOk.step {c : State} (h : LowerOk c) {i : ℕ} {s : Shared} {l : Pc}
    (hs : Step i c.shared (c.pc i) s l) : LowerOk (c.move i s l) := by
  have hle := globalMin_le hs
  refine ⟨?_, ?_, ?_⟩
  · refine c.forall_move i s l (A := fun _ pc => ∀ r, result pc = some r → r ≤ s.globalMin) ?_ ?_
    · exact ReclaimSafety.result_le hs (h.result_le i)
    · exact fun j _ r hr => (h.result_le j r hr).trans hle
  · refine c.forall_move i s l (A := fun _ pc => ∀ m, pledge pc = some m → m ≤ s.globalMin) ?_ ?_
    · intro m hm
      rcases pledge_step hs hm with hp | hr
      · exact (h.pledge_le i m hp).trans hle
      · exact (h.result_le i m hr).trans hle
    · exact fun j _ m hm => (h.pledge_le j m hm).trans hle
  · refine c.forall_move i s l (A := fun _ pc => ∀ tk x, drawn pc = some (tk, x) → tk.1 ≤ x) ?_ ?_
    · intro tk x hx
      rcases drawn_step hs hx with hd | ⟨hheld, hge⟩
      · exact h.ticket_le i tk x hd
      · exact (h.pledge_le i _ (pledge_of_held hheld)).trans hge
    · exact fun j _ => h.ticket_le j

/-! ## Bounds of the allocator -/

/-- No snapshot that is in use or will be drawn is below `bound`. -/
structure Bound (c : State) (bound : ℕ) : Prop where
  le_globalMin : bound ≤ c.shared.globalMin
  le_drawn : ∀ i tk x, drawn (c.pc i) = some (tk, x) → bound ≤ x

theorem Bound.step {c : State} {bound : ℕ} (h : Bound c bound) {i : ℕ} {s : Shared} {l : Pc}
    (hs : Step i c.shared (c.pc i) s l) : Bound (c.move i s l) bound := by
  refine ⟨h.le_globalMin.trans (globalMin_le hs), ?_⟩
  refine c.forall_move i s l (A := fun _ pc => ∀ tk x, drawn pc = some (tk, x) → bound ≤ x) ?_ ?_
  · intro tk x hx
    rcases drawn_step hs hx with hd | ⟨-, hge⟩
    · exact h.le_drawn i tk x hd
    · exact h.le_globalMin.trans hge
  · exact fun j _ => h.le_drawn j

theorem freeBound_le_committed (committed : ℕ) (registered pinned : Option ℕ) :
    freeBound committed registered pinned ≤ committed := by
  cases registered <;> cases pinned <;> simp [freeBound]

theorem freeBound_le_pinned (committed : ℕ) (registered : Option ℕ) (p : ℕ) :
    freeBound committed registered (some p) ≤ p := by
  cases registered <;> simp [freeBound]

/-- The committed snapshot was read before the pins were looked at. -/
theorem bound_of_peek {c : State} (ht : TicketsOk c) (hl : LowerOk c) {i committed : ℕ}
    {registered : Option ℕ} (hpc : c.pc i = .peekPins committed registered) :
    Bound c (freeBound committed registered ((front id c.shared.liveTx.pins).map Prod.fst)) := by
  refine ⟨(freeBound_le_committed _ _ _).trans (hl.pledge_le i committed (by rw [hpc]; rfl)), ?_⟩
  intro j tk x hx
  have hmem := ht.pinned j tk (pinned_of_drawn hx)
  obtain ⟨a, ha⟩ := front_isSome (k := id) hmem
  rw [ha]
  exact ((freeBound_le_pinned _ _ _).trans (front_le ha hmem)).trans (hl.ticket_le j tk x hx)

/-- The bound that an allocation has computed, with the entry it is after. -/
def BoundAt (c : State) : Pc → Prop
  | .peekDead bound => Bound c bound
  | .claim bound entry => Bound c bound ∧ entry.deathVersion < bound
  | _ => True

structure Guarded (c : State) : Prop where
  tickets : TicketsOk c
  lower : LowerOk c
  bounds : ∀ i, BoundAt c (c.pc i)
  handed : ∀ e ∈ c.shared.handedOut, ∃ bound, Bound c bound ∧ e.deathVersion < bound

theorem BoundAt.step {c : State} {pc : Pc} (h : BoundAt c pc) {i : ℕ} {s : Shared} {l : Pc}
    (hs : Step i c.shared (c.pc i) s l) : BoundAt (c.move i s l) pc := by
  cases pc with
  | peekDead bound => exact Bound.step h hs
  | claim bound entry => exact ⟨h.1.step hs, h.2⟩
  | _ => trivial

/-- The bound of the mover after its step. -/
theorem boundAt_self {c : State} (h : Guarded c) {i : ℕ} {s : Shared} {l : Pc}
    (hs : Step i c.shared (c.pc i) s l) : BoundAt (c.move i s l) l := by
  have hbound := h.bounds i
  generalize hpc : c.pc i = pc at hs hbound
  have hs' : Step i c.shared (c.pc i) s l := by rw [hpc]; exact hs
  cases hs with
  | peekPins => exact (bound_of_peek h.tickets h.lower hpc).step hs'
  | pickDead _ hlt => exact ⟨Bound.step hbound hs', hlt⟩
  | @returned purpose => cases purpose <;> trivial
  | @retire after => cases after <;> trivial
  | @bury _ version => cases version <;> trivial
  | _ => trivial

theorem handedOut_step {i : ℕ} {s s' : Shared} {pc pc' : Pc} (h : Step i s pc s' pc')
    {e : DeadBlock} (he : e ∈ s'.handedOut) :
    e ∈ s.handedOut ∨ ∃ bound, pc = .claim bound e ∧ e ∈ s.deadBlocks.entries := by
  cases h with
  | handOut hmem =>
    rcases List.mem_cons.mp he with rfl | he
    · exact .inr ⟨_, rfl, hmem⟩
    · exact .inl he
  | _ => exact .inl he

theorem Guarded.step {c : State} (h : Guarded c) {i : ℕ} {s : Shared} {l : Pc}
    (hs : Step i c.shared (c.pc i) s l) : Guarded (c.move i s l) := by
  refine ⟨h.tickets.step hs, h.lower.step hs, ?_, ?_⟩
  · refine c.forall_move i s l (A := fun _ pc => BoundAt (c.move i s l) pc) ?_ ?_
    · exact boundAt_self h hs
    · exact fun j _ => (h.bounds j).step hs
  · intro e he
    rcases handedOut_step hs he with hold | ⟨bound, hpc, -⟩
    · obtain ⟨bound, hb, hlt⟩ := h.handed e hold
      exact ⟨bound, hb.step hs, hlt⟩
    · have := h.bounds i
      rw [hpc] at this
      exact ⟨bound, this.1.step hs, this.2⟩

theorem guarded_start : Guarded start := by
  refine ⟨⟨?_, ?_, ?_⟩, ⟨?_, ?_, ?_⟩, fun _ => trivial, ?_⟩
  · rintro i tk ⟨⟩
  · rintro i j tk ⟨⟩
  · rintro i tk ⟨⟩
  · rintro i r ⟨⟩
  · rintro i m ⟨⟩
  · rintro i tk x ⟨⟩
  · intro e he
    cases he

theorem runs_guarded {c : State} (h : Runs start c) : Guarded c :=
  h.preserves (fun _ _ _ _ _ hs hinv => hinv.step hs) guarded_start

/-! ## Claim by removal -/

/-- The entry that a thread is about to insert. -/
def burying : Pc → Option DeadBlock
  | .bury entry _ => some entry
  | _ => none

/-- An entry that has its number and is not in the map yet. -/
structure Coming (s : Shared) (e : DeadBlock) : Prop where
  below : e.sequence < s.deadBlocks.sequence
  entries : e ∉ s.deadBlocks.entries
  handedOut : e ∉ s.handedOut

/-- Registrations are told apart by their sequence numbers. -/
structure DeadOk (c : State) : Prop where
  below : ∀ e, e ∈ c.shared.deadBlocks.entries ∨ e ∈ c.shared.handedOut →
    e.sequence < c.shared.deadBlocks.sequence
  nodup : c.shared.deadBlocks.entries.Nodup
  handed_nodup : c.shared.handedOut.Nodup
  apart : ∀ e ∈ c.shared.deadBlocks.entries, e ∉ c.shared.handedOut
  coming : ∀ i e, burying (c.pc i) = some e → Coming c.shared e
  unique : ∀ i j e, burying (c.pc i) = some e → burying (c.pc j) = some e → i = j

/-- What a step does to the dead blocks. -/
inductive DeadStep (s : Shared) (pc : Pc) (s' : Shared) (pc' : Pc) : Prop
  | same : s'.deadBlocks = s.deadBlocks → s'.handedOut = s.handedOut → burying pc' = none →
      DeadStep s pc s' pc'
  | draw {e : DeadBlock} : burying pc' = some e → e.sequence = s.deadBlocks.sequence →
      s'.deadBlocks = { s.deadBlocks with sequence := s.deadBlocks.sequence + 1 } →
      s'.handedOut = s.handedOut → DeadStep s pc s' pc'
  | insert {e : DeadBlock} : burying pc = some e → burying pc' = none →
      s'.deadBlocks = { s.deadBlocks with entries := e :: s.deadBlocks.entries } →
      s'.handedOut = s.handedOut → DeadStep s pc s' pc'
  | remove {e : DeadBlock} : e ∈ s.deadBlocks.entries → burying pc' = none →
      s'.deadBlocks = { s.deadBlocks with entries := s.deadBlocks.entries.erase e } →
      s'.handedOut = e :: s.handedOut → DeadStep s pc s' pc'

theorem deadStep {i : ℕ} {s s' : Shared} {pc pc' : Pc} (h : Step i s pc s' pc') :
    DeadStep s pc s' pc' := by
  cases h with
  | die => exact .draw rfl rfl rfl rfl
  | dieInCommit => exact .draw rfl rfl rfl rfl
  | @bury entry version => exact .insert rfl (by cases version <;> rfl) rfl rfl
  | handOut hmem => exact .remove hmem rfl rfl rfl
  | @returned purpose => exact .same rfl rfl (by cases purpose <;> rfl)
  | @retire after => exact .same rfl rfl (by cases after <;> rfl)
  | _ => exact .same rfl rfl rfl

theorem DeadOk.step {c : State} (h : DeadOk c) {i : ℕ} {s : Shared} {l : Pc}
    (hs : Step i c.shared (c.pc i) s l) : DeadOk (c.move i s l) := by
  -- entries on their way of the threads that did not move
  have hunique : ∀ a b e, burying ((c.move i s l).pc a) = some e →
      burying ((c.move i s l).pc b) = some e →
      (∀ j, j ≠ i → ∀ x, burying (c.pc j) = some x → burying l ≠ some x) → a = b := by
    intro a b e ha hb hfresh
    by_cases hai : a = i
    · by_cases hbi : b = i
      · rw [hai, hbi]
      · subst hai
        rw [Config.move_pc_self] at ha
        rw [Config.move_pc_other _ _ _ _ hbi] at hb
        exact absurd ha (hfresh b hbi e hb)
    · rw [Config.move_pc_other _ _ _ _ hai] at ha
      by_cases hbi : b = i
      · subst hbi
        rw [Config.move_pc_self] at hb
        exact absurd hb (hfresh a hai e ha)
      · rw [Config.move_pc_other _ _ _ _ hbi] at hb
        exact h.unique a b e ha hb
  have hnone : burying l = none → ∀ j, j ≠ i → ∀ x, burying (c.pc j) = some x → burying l ≠ some x :=
    fun hl j _ x _ hx => by rw [hl] at hx; cases hx
  cases deadStep hs with
  | same hd hh hl =>
    refine ⟨?_, ?_, ?_, ?_, ?_, fun a b e ha hb => hunique a b e ha hb (hnone hl)⟩ <;>
      simp only [Config.move_shared, hd, hh]
    · exact h.below
    · exact h.nodup
    · exact h.handed_nodup
    · exact h.apart
    · refine c.forall_move i s l (A := fun _ pc => ∀ e, burying pc = some e → Coming s e) ?_ ?_
      · intro e he
        rw [hl] at he
        cases he
      · intro j _ e he
        obtain ⟨h₁, h₂, h₃⟩ := h.coming j e he
        exact ⟨by rwa [hd], by rwa [hd], by rwa [hh]⟩
  | @draw x hl hseq hd hh =>
    have hfresh : ∀ j, j ≠ i → ∀ y, burying (c.pc j) = some y → burying l ≠ some y := by
      intro j _ y hy hl'
      rw [hl] at hl'
      cases hl'
      exact absurd (h.coming j x hy).below (by omega)
    refine ⟨?_, ?_, ?_, ?_, ?_, fun a b e ha hb => hunique a b e ha hb hfresh⟩ <;>
      simp only [Config.move_shared, hd, hh]
    · exact fun e he => (h.below e he).trans (Nat.lt_succ_self _)
    · exact h.nodup
    · exact h.handed_nodup
    · exact h.apart
    · refine c.forall_move i s l (A := fun _ pc => ∀ e, burying pc = some e → Coming s e) ?_ ?_
      · intro e he
        rw [hl] at he
        cases he
        refine ⟨by rw [hd]; exact hseq.trans_lt (Nat.lt_succ_self _), fun hmem => ?_, fun hmem => ?_⟩
        · rw [hd] at hmem
          exact absurd (h.below x (.inl hmem)) (by omega)
        · rw [hh] at hmem
          exact absurd (h.below x (.inr hmem)) (by omega)
      · intro j _ e he
        obtain ⟨h₁, h₂, h₃⟩ := h.coming j e he
        exact ⟨by rw [hd]; exact h₁.trans (Nat.lt_succ_self _), by rwa [hd], by rwa [hh]⟩
  | @insert x hpc hl hd hh =>
    obtain ⟨hseq, hentries, hhanded⟩ := h.coming i x hpc
    refine ⟨?_, ?_, ?_, ?_, ?_, fun a b e ha hb => hunique a b e ha hb (hnone hl)⟩ <;>
      simp only [Config.move_shared, hd, hh]
    · rintro e (he | he)
      · rcases List.mem_cons.mp he with rfl | he
        · exact hseq
        · exact h.below e (.inl he)
      · exact h.below e (.inr he)
    · exact List.nodup_cons.mpr ⟨hentries, h.nodup⟩
    · exact h.handed_nodup
    · intro e he
      rcases List.mem_cons.mp he with rfl | he
      · exact hhanded
      · exact h.apart e he
    · refine c.forall_move i s l (A := fun _ pc => ∀ e, burying pc = some e → Coming s e) ?_ ?_
      · intro e he
        rw [hl] at he
        cases he
      · intro j hj e he
        obtain ⟨h₁, h₂, h₃⟩ := h.coming j e he
        refine ⟨by rwa [hd], fun hmem => ?_, by rwa [hh]⟩
        rw [hd] at hmem
        rcases List.mem_cons.mp hmem with rfl | hmem
        · exact hj (h.unique j i e he hpc)
        · exact h₂ hmem
  | @remove x hx hl hd hh =>
    have herase : ∀ e, e ∈ c.shared.deadBlocks.entries.erase x ↔
        e ≠ x ∧ e ∈ c.shared.deadBlocks.entries := fun e => h.nodup.mem_erase_iff
    refine ⟨?_, ?_, ?_, ?_, ?_, fun a b e ha hb => hunique a b e ha hb (hnone hl)⟩ <;>
      simp only [Config.move_shared, hd, hh]
    · rintro e (he | he)
      · exact h.below e (.inl ((herase e).mp he).2)
      · rcases List.mem_cons.mp he with rfl | he
        · exact h.below e (.inl hx)
        · exact h.below e (.inr he)
    · exact h.nodup.erase x
    · exact List.nodup_cons.mpr ⟨h.apart x hx, h.handed_nodup⟩
    · intro e he hmem
      obtain ⟨hne, he⟩ := (herase e).mp he
      rcases List.mem_cons.mp hmem with rfl | hmem
      · exact hne rfl
      · exact h.apart e he hmem
    · refine c.forall_move i s l (A := fun _ pc => ∀ e, burying pc = some e → Coming s e) ?_ ?_
      · intro e he
        rw [hl] at he
        cases he
      · intro j _ e he
        obtain ⟨h₁, h₂, h₃⟩ := h.coming j e he
        refine ⟨by rwa [hd], fun hmem => ?_, fun hmem => ?_⟩
        · rw [hd] at hmem
          exact h₂ ((herase e).mp hmem).2
        rw [hh] at hmem
        rcases List.mem_cons.mp hmem with rfl | hmem
        · exact h₂ hx
        · exact h₃ hmem

theorem deadOk_start : DeadOk start := by
  refine ⟨?_, List.nodup_nil, List.nodup_nil, ?_, ?_, ?_⟩
  · rintro e (he | he) <;> cases he
  · intro e he
    cases he
  · rintro i e ⟨⟩
  · rintro i j e ⟨⟩

theorem runs_deadOk {c : State} (h : Runs start c) : DeadOk c :=
  h.preserves (fun _ _ _ _ _ hs hinv => hinv.step hs) deadOk_start

/-! ## The protocol -/

/-- Safety of the reclaim protocol in every run, in any interleaving. A committed
snapshot drawn after another one has been returned is not smaller. Every snapshot
in use, drawn before or after a hand-out, is above the death version of every
block handed out so far. Each registration is handed out at most once. -/
theorem reclaim_protocol_safe {c : State} (h : Runs start c) :
    (∀ i p x c', c.pc i = .done p x → Runs c c' → ∀ j, inSnapshot (c'.pc j) = false →
      ∀ c'' q y, Runs c' c'' → c''.pc j = .done q y → x ≤ y) ∧
    (∀ e ∈ c.shared.handedOut, ∀ i tk x, drawn (c.pc i) = some (tk, x) → e.deathVersion < x) ∧
    c.shared.handedOut.Nodup := by
  refine ⟨?_, ?_, (runs_deadOk h).handed_nodup⟩
  · intro i p x c' hpc hrun j hout c'' q y hrun' hpc'
    have hx : x ≤ c.shared.globalMin := (runs_guarded h).lower.result_le i x (by rw [hpc]; rfl)
    refine runs_le_result hrun' (hx.trans (runs_globalMin_le hrun)) ?_ y (by rw [hpc']; rfl)
    rw [result_of_outside hout]
    rintro r ⟨⟩
  · intro e he i tk x hx
    obtain ⟨bound, hb, hlt⟩ := (runs_guarded h).handed e he
    exact hlt.trans_le (hb.le_drawn i tk x hx)

/-- A block that died at version 1 is handed out after version 2 was committed. -/
theorem reclaim_protocol_hands_out :
    ∃ c, Runs start c ∧ c.shared.handedOut = [⟨1, 0, 5⟩] ∧
      (∀ e ∈ c.shared.handedOut, ∀ i tk x, drawn (c.pc i) = some (tk, x) → e.deathVersion < x) ∧
      c.shared.handedOut.Nodup := by
  have r := (Run.refl start : Run Step Anytime start start).move 0 (.spawn rfl rfl (by decide))
  replace r := r.move 0 .startCommit
  replace r := r.move 0 .storeSlot
  replace r := r.move 0 .storeDirty
  replace r := r.move 0 .startCommit
  replace r := r.move 0 .storeSlot
  replace r := r.move 0 .storeDirty
  replace r := r.move 0 (show Step 0 _ .idle _ (.bury ⟨1, _, 5⟩ none) from .die)
  replace r := r.move 0 .bury
  replace r := r.move 0 .freeBlock
  replace r := r.move 0 (.flagDirty rfl)
  replace r := r.move 0 (.ownScan rfl)
  replace r := r.move 0 .count
  replace r := r.move 0 (.loadSlot (by decide))
  replace r := r.move 0 (.folded (by decide))
  replace r := r.move 0 (.fetchMaxOwner rfl)
  replace r := r.move 0 (.clear rfl)
  replace r := r.move 0 .returned
  replace r := r.move 0 .peekQueries
  replace r := r.move 0 .peekPins
  replace r := r.move 0 (.pickDead rfl (by decide))
  replace r := r.move 0 (.handOut (by decide))
  exact ⟨_, r, rfl, (reclaim_protocol_safe r).2⟩

end CMVBT.ReclaimSafety
