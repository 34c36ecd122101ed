import CMVBT.FenceTiling
import CMVBT.Tree

/-!
# What an allocation leaves unchanged

Every structure modification first takes blocks from the allocator and fills
them. `Built t t' bs` says that this is all that happened between `t` and `t'`:
the blocks `bs` are new or come from the graveyard, they hold the given nodes,
and everything else a reader or writer can see is as before.
-/
namespace CMVBT.BlockSupply
open KeyInterval Halving PageModel FrugalList CommitClock Tracker CMVBT.Tree

variable {K P α : Type}

def graveyard (t : MVBTSt K P) : List DeadBlock :=
  match t.tracker with
  | none => []
  | some tracker => tracker.deadBlocks.entries

/-- Registrations and pins of the tree's tracker. -/
def trace (t : MVBTSt K P) : Option TransactionTrace := t.tracker.map TrackerHandle.liveTx

/-- Snapshots of the registered and the pinned readers. -/
def liveReaders (t : MVBTSt K P) : List Ticket :=
  match t.tracker with
  | none => []
  | some tracker => tracker.liveTx.queries ++ tracker.liveTx.pins

theorem liveReaders_eq (t : MVBTSt K P) :
    liveReaders t = ((trace t).map (fun live => live.queries ++ live.pins)).getD [] := by
  cases ht : t.tracker <;> simp [liveReaders, trace, ht]

/-- A reader at version `v` is registered at `v` or holds a pin from before. -/
def Announced (t : MVBTSt K P) (v : ℕ) : Prop :=
  ∃ live, trace t = some live ∧
    ((∃ ticket ∈ live.queries, ticket.1 = v) ∨ ∃ ticket ∈ live.pins, ticket.1 ≤ v)

theorem Announced.reader {t : MVBTSt K P} {v : ℕ} (h : Announced t v) :
    ∃ ticket ∈ liveReaders t, ticket.1 ≤ v := by
  obtain ⟨live, hlive, ⟨ticket, hmem, rfl⟩ | ⟨ticket, hmem, hle⟩⟩ := h
  · exact ⟨ticket, by rw [liveReaders_eq, hlive]; simp [hmem], le_rfl⟩
  · exact ⟨ticket, by rw [liveReaders_eq, hlive]; simp [hmem], hle⟩

theorem announced_of_live {t : MVBTSt K P} {ticket : Ticket} (h : ticket ∈ liveReaders t) :
    Announced t ticket.1 := by
  cases ht : t.tracker with
  | none => simp [liveReaders, ht] at h
  | some tracker =>
    simp only [liveReaders, ht, List.mem_append] at h
    refine ⟨tracker.liveTx, by rw [trace, ht]; rfl, ?_⟩
    rcases h with h | h
    · exact .inl ⟨ticket, h, rfl⟩
    · exact .inr ⟨ticket, h, le_rfl⟩

/-- A block that died before every announced reader and below the watermark `low`. -/
structure Forgotten (t : MVBTSt K P) (low : ℕ) (d : DeadBlock) : Prop where
  readers : ∀ ticket ∈ liveReaders t, d.deathVersion < ticket.1
  watermark : d.deathVersion < low

theorem Forgotten.mono {t : MVBTSt K P} {low low' : ℕ} {d : DeadBlock} (h : Forgotten t low d)
    (hle : low ≤ low') : Forgotten t low' d :=
  ⟨h.readers, h.watermark.trans_le hle⟩

/-- Dead blocks are allocated blocks, and none is in the graveyard twice. -/
structure GraveyardOk (t : MVBTSt K P) : Prop where
  below : ∀ d ∈ graveyard t, d.block < t.nextBlock
  nodup : ((graveyard t).map DeadBlock.block).Nodup

/-- The parts of the state that allocations and page writes do not touch. -/
structure SameFrame (t t' : MVBTSt K P) : Prop where
  root : t'.root = t.root
  tosses : t'.tosses = t.tosses
  tid : t'.tid = t.tid
  inPlace : t'.updateInPlace = t.updateInPlace
  clock : t'.commit.clock = t.commit.clock
  raised : t.commit.globalMin ≤ t'.commit.globalMin
  tracked : t'.tracker.isSome = t.tracker.isSome
  readers : trace t' = trace t

namespace SameFrame
variable {t t' t'' : MVBTSt K P}

theorem refl (t : MVBTSt K P) : SameFrame t t :=
  ⟨rfl, rfl, rfl, rfl, rfl, le_rfl, rfl, rfl⟩

theorem trans (h : SameFrame t t') (h' : SameFrame t' t'') : SameFrame t t'' :=
  ⟨h'.root.trans h.root, h'.tosses.trans h.tosses, h'.tid.trans h.tid,
    h'.inPlace.trans h.inPlace, h'.clock.trans h.clock, h.raised.trans h'.raised,
    h'.tracked.trans h.tracked, h'.readers.trans h.readers⟩

theorem setNode (t : MVBTSt K P) (b : ℕ) (n : Node K P) : SameFrame t (t.setNode b n) :=
  ⟨rfl, rfl, rfl, rfl, rfl, le_rfl, rfl, rfl⟩

end SameFrame

structure Built (t t' : MVBTSt K P) (bs : List (ℕ × Node K P)) : Prop where
  frame : SameFrame t t'
  heap_new : ∀ x ∈ bs, t'.heap x.1 = x.2
  heap_old : ∀ b, (∀ x ∈ bs, x.1 ≠ b) → t'.heap b = t.heap b
  nodup : (bs.map Prod.fst).Nodup
  source : ∀ x ∈ bs, t.nextBlock ≤ x.1 ∨
    ∃ d ∈ graveyard t, d.block = x.1 ∧ Forgotten t t'.commit.globalMin d
  next : ∀ b, b < t'.nextBlock ↔ b < t.nextBlock ∨ ∃ x ∈ bs, x.1 = b
  grave : ∀ d, d ∈ graveyard t' ↔ d ∈ graveyard t ∧ ∀ x ∈ bs, x.1 ≠ d.block
  grave_ok : GraveyardOk t'

namespace Built
variable {t t' : MVBTSt K P} {bs : List (ℕ × Node K P)}

theorem refl (h : GraveyardOk t) : Built t t [] where
  frame := SameFrame.refl t
  heap_new := by simp
  heap_old := by simp
  nodup := by simp
  source := by simp
  next := by simp
  grave := by simp
  grave_ok := h

/-- Blocks that were in use before are not among the new ones. -/
theorem not_new (h : Built t t' bs) {b : ℕ} (hb : b < t.nextBlock)
    (hg : ∀ d ∈ graveyard t, d.block ≠ b) : ∀ x ∈ bs, x.1 ≠ b := by
  rintro x hx rfl
  rcases h.source x hx with hle | ⟨d, hd, heq, -⟩
  · exact absurd hb (not_lt.mpr hle)
  · exact hg d hd heq

theorem heap_kept (h : Built t t' bs) {b : ℕ} (hb : b < t.nextBlock)
    (hg : ∀ d ∈ graveyard t, d.block ≠ b) : t'.heap b = t.heap b :=
  h.heap_old b (h.not_new hb hg)

/-- Filling the most recently taken block. -/
theorem fill_last {b : ℕ} {n : Node K P} (n' : Node K P) (h : Built t t' (bs ++ [(b, n)])) :
    Built t (t'.setNode b n') (bs ++ [(b, n')]) := by
  have hb : ∀ x ∈ bs, x.1 ≠ b := by
    have := h.nodup
    rw [List.map_append, List.nodup_append] at this
    intro x hx
    exact this.2.2 x.1 (List.mem_map_of_mem hx) b (by simp)
  refine
    { frame := h.frame.trans (SameFrame.setNode t' b n')
      heap_new := ?_
      heap_old := ?_
      nodup := by simpa using h.nodup
      source := ?_
      next := ?_
      grave := ?_
      grave_ok := ⟨h.grave_ok.below, h.grave_ok.nodup⟩ }
  · intro x hx
    rcases List.mem_append.mp hx with hx | hx
    · simp only [MVBTSt.setNode, Function.update_of_ne (hb x hx)]
      exact h.heap_new x (List.mem_append_left _ hx)
    · obtain rfl : x = (b, n') := by simpa using hx
      simp [MVBTSt.setNode]
  · intro c hc
    have hcb : c ≠ b := fun heq => hc (b, n') (by simp) heq.symm
    simp only [MVBTSt.setNode, Function.update_of_ne hcb]
    apply h.heap_old c
    intro x hx
    rcases List.mem_append.mp hx with hx | hx
    · exact hc x (List.mem_append_left _ hx)
    · obtain rfl : x = (b, n) := by simpa using hx
      exact fun heq => hcb heq.symm
  · intro x hx
    rcases List.mem_append.mp hx with hx | hx
    · exact h.source x (List.mem_append_left _ hx)
    · obtain rfl : x = (b, n') := by simpa using hx
      exact h.source (b, n) (by simp)
  · intro c
    have hc : (∃ x ∈ bs ++ [(b, n')], x.1 = c) ↔ ∃ x ∈ bs ++ [(b, n)], x.1 = c := by simp
    rw [hc]
    exact h.next c
  · intro d
    have hd : (∀ x ∈ bs ++ [(b, n')], x.1 ≠ d.block) ↔ ∀ x ∈ bs ++ [(b, n)], x.1 ≠ d.block := by
      simp [or_imp, forall_and]
    rw [hd]
    exact h.grave d

/-- The order in which the taken blocks are listed does not matter. -/
theorem perm {bs' : List (ℕ × Node K P)} (h : Built t t' bs) (hp : bs.Perm bs') :
    Built t t' bs' where
  frame := h.frame
  heap_new x hx := h.heap_new x (hp.mem_iff.mpr hx)
  heap_old b hb := h.heap_old b (fun x hx => hb x (hp.mem_iff.mp hx))
  nodup := (hp.map Prod.fst).nodup_iff.mp h.nodup
  source x hx := h.source x (hp.mem_iff.mpr hx)
  next b := by simpa only [hp.mem_iff] using h.next b
  grave d := by simpa only [hp.mem_iff] using h.grave d
  grave_ok := h.grave_ok

end Built

/-- One more block in front of the allocator's back. -/
theorem Built.extend {t t' s : MVBTSt K P} {bs : List (ℕ × Node K P)} {b : ℕ}
    {n : Node K P} (h : Built t t' bs) (hframe : SameFrame t' s)
    (hheap : s.heap = Function.update t'.heap b n) (hb : ∀ x ∈ bs, x.1 ≠ b)
    (hsource : t.nextBlock ≤ b ∨
      ∃ d ∈ graveyard t, d.block = b ∧ Forgotten t s.commit.globalMin d)
    (hnext : ∀ c, c < s.nextBlock ↔ c < t'.nextBlock ∨ b = c)
    (hgrave : ∀ d, d ∈ graveyard s ↔ d ∈ graveyard t' ∧ b ≠ d.block) (hok : GraveyardOk s) :
    Built t s (bs ++ [(b, n)]) where
  frame := h.frame.trans hframe
  heap_new x hx := by
    rw [hheap]
    rcases List.mem_append.mp hx with hx | hx
    · rw [Function.update_of_ne (hb x hx)]
      exact h.heap_new x hx
    · obtain rfl : x = (b, n) := by simpa using hx
      simp
  heap_old c hc := by
    have hcb : c ≠ b := fun heq => hc (b, n) (by simp) heq.symm
    rw [hheap, Function.update_of_ne hcb]
    exact h.heap_old c (fun x hx => hc x (List.mem_append_left _ hx))
  nodup := by
    rw [List.map_append, List.nodup_append]
    refine ⟨h.nodup, by simp, ?_⟩
    intro x hx y hy
    obtain ⟨z, hz, rfl⟩ := List.mem_map.mp hx
    obtain rfl : y = b := by simpa using hy
    exact hb z hz
  source x hx := by
    rcases List.mem_append.mp hx with hx | hx
    · rcases h.source x hx with hle | ⟨d, hd, heq, hforgotten⟩
      · exact .inl hle
      · exact .inr ⟨d, hd, heq, hforgotten.mono hframe.raised⟩
    · obtain rfl : x = (b, n) := by simpa using hx
      exact hsource
  next c := by
    rw [hnext, h.next]
    simp only [List.mem_append, List.mem_singleton, or_assoc]
    constructor
    · rintro (hc | ⟨x, hx, rfl⟩ | rfl)
      · exact .inl hc
      · exact .inr ⟨x, .inl hx, rfl⟩
      · exact .inr ⟨_, .inr rfl, rfl⟩
    · rintro (hc | ⟨x, hx | rfl, rfl⟩)
      · exact .inl hc
      · exact .inr (.inl ⟨x, hx, rfl⟩)
      · exact .inr (.inr rfl)
  grave d := by
    rw [hgrave, h.grave]
    simp [or_imp, forall_and, and_assoc]
  grave_ok := hok

/-- The node of a block that was just allocated. -/
def freshNode (leaf : Bool) : Node K P := if leaf then Node.newLeaf else Node.newInternal

/-- A block number that was never used before. -/
theorem Built.extend_fresh {t t' s : MVBTSt K P} {bs : List (ℕ × Node K P)} {n : Node K P}
    (h : Built t t' bs) (hframe : SameFrame t' s)
    (hheap : s.heap = Function.update t'.heap t'.nextBlock n)
    (hnext : s.nextBlock = t'.nextBlock + 1) (hgrave : graveyard s = graveyard t') :
    Built t s (bs ++ [(t'.nextBlock, n)]) := by
  refine h.extend hframe hheap ?_ (.inl ?_) ?_ ?_ ?_
  · intro x hx
    exact Nat.ne_of_lt ((h.next x.1).mpr (.inr ⟨x, hx, rfl⟩))
  · by_contra hlt
    exact lt_irrefl _ ((h.next t'.nextBlock).mpr (.inl (not_le.mp hlt)))
  · intro c
    rw [hnext]
    omega
  · intro d
    rw [hgrave]
    exact ⟨fun hd => ⟨hd, (Nat.ne_of_lt (h.grave_ok.below d hd)).symm⟩, And.left⟩
  · refine ⟨fun d hd => ?_, ?_⟩
    · rw [hgrave] at hd
      have := h.grave_ok.below d hd
      omega
    · rw [hgrave]
      exact h.grave_ok.nodup

/-- A block of the graveyard that no announced reader can reach. -/
theorem Built.extend_recycled {t t' s : MVBTSt K P} {bs : List (ℕ × Node K P)}
    {n : Node K P} {d : DeadBlock} (h : Built t t' bs) (hframe : SameFrame t' s)
    (hheap : s.heap = Function.update t'.heap d.block n) (hnext : s.nextBlock = t'.nextBlock)
    (hd : d ∈ graveyard t') (hbound : Forgotten t' s.commit.globalMin d)
    (hgrave : graveyard s = (graveyard t').erase d) : Built t s (bs ++ [(d.block, n)]) := by
  obtain ⟨hdt, hdbs⟩ := (h.grave d).mp hd
  have hnodup := h.grave_ok.nodup
  have hperm := List.perm_cons_erase hd
  have hmem : ∀ e, e ∈ (graveyard t').erase d ↔ e ∈ graveyard t' ∧ d.block ≠ e.block := by
    intro e
    have hcons := (hperm.map DeadBlock.block).nodup_iff.mp hnodup
    rw [List.map_cons, List.nodup_cons] at hcons
    constructor
    · intro he
      exact ⟨List.mem_of_mem_erase he,
        fun heq => hcons.1 (heq ▸ List.mem_map_of_mem he)⟩
    · rintro ⟨he, hne⟩
      exact (List.mem_erase_of_ne (fun heq => hne (by rw [heq]))).mpr he
  refine h.extend hframe hheap hdbs (.inr ⟨d, hdt, rfl, ?_, hbound.watermark⟩) ?_ ?_ ?_
  · intro ticket ht
    rw [liveReaders_eq, ← h.frame.readers, ← liveReaders_eq] at ht
    exact hbound.readers ticket ht
  · intro c
    rw [hnext]
    constructor
    · exact .inl
    · rintro (hc | rfl)
      · exact hc
      · exact h.grave_ok.below d hd
  · intro e
    rw [hgrave, hmem]
  · refine ⟨fun e he => ?_, ?_⟩
    · rw [hgrave] at he
      rw [hnext]
      exact h.grave_ok.below e (List.mem_of_mem_erase he)
    · rw [hgrave]
      exact hnodup.sublist (List.erase_sublist.map _)

/-- One more allocation, from the memory manager or from the graveyard. -/
theorem Built.alloc {t t' s : MVBTSt K P} {bs : List (ℕ × Node K P)} {leaf : Bool} {b : ℕ}
    (h : Built t t' bs) (hal : t'.allocBlock leaf = (s, b)) :
    Built t s (bs ++ [(b, freshNode leaf)]) := by
  obtain ⟨rfl, rfl⟩ : (t'.allocBlock leaf).1 = s ∧ (t'.allocBlock leaf).2 = b := by simp [hal]
  clear hal
  cases ht : t'.tracker with
  | none =>
    simp only [MVBTSt.allocBlock, ht]
    refine h.extend_fresh ⟨rfl, rfl, rfl, rfl, rfl, le_rfl, ?_, ?_⟩ rfl rfl ?_
    · simp [MVBTSt.setNode, ht]
    · simp [trace, MVBTSt.setNode, ht]
    · simp [graveyard, MVBTSt.setNode, ht]
  | some tracker =>
    have hraised := t'.commit.committedSnapshot_raised versionMax
    cases hp : tracker.deadBlocks.popMinIf (fun death => decide
        (death < tracker.freeBound (t'.commit.committedSnapshot versionMax).2)) with
    | mk dead block =>
      cases block with
      | none =>
        obtain rfl := BlockTrace.popMinIf_none hp
        simp only [MVBTSt.allocBlock, ht, TrackerHandle.freeBlock, hp]
        refine h.extend_fresh ⟨rfl, rfl, rfl, rfl, ?_, hraised, ?_, ?_⟩ rfl rfl ?_
        · simp
        · simp [ht]
        · simp [trace, ht]
        · simp [graveyard, ht]
      | some b =>
        obtain ⟨d, hd, rfl, hlt, rfl⟩ := BlockTrace.popMinIf_some hp
        simp only [MVBTSt.allocBlock, ht, TrackerHandle.freeBlock, hp]
        have hbound := of_decide_eq_true hlt
        refine h.extend_recycled (d := d) ⟨rfl, rfl, rfl, rfl, ?_, hraised, ?_, ?_⟩ rfl rfl ?_
          ⟨?_, ?_⟩ ?_
        · simp [MVBTSt.setNode]
        · simp [MVBTSt.setNode, ht]
        · simp [trace, MVBTSt.setNode, ht]
        · simpa [graveyard, ht] using hd
        · intro ticket hticket
          have hmem : ticket ∈ tracker.liveTx.queries ∨ ticket ∈ tracker.liveTx.pins := by
            simpa [liveReaders, ht] using hticket
          exact hbound.trans_le (TrackerHandle.freeBound_le hmem _)
        · exact hbound.trans_le ((TrackerHandle.freeBound_le_committed _ _).trans_eq
            (t'.commit.committedSnapshot_stored versionMax).symm)
        · simp [graveyard, MVBTSt.setNode, ht]

end CMVBT.BlockSupply
