import CMVBT.BaselineStates
import CMVBT.WeaverTree

/-!
# When weaving comes to an end

The search for the next key walks down the blocks of one path. Only the leaf at its
end can be the one that the write has latched. Under a pin the walk passes it; under
a write latch the guard of the leaf is empty, the search goes back to the block
above, and there it finds the same leaf again.
-/
namespace CMVBT.WeaverSearch
open PageModel hiding Node startVersion
open FrugalList KeyInterval OrderedMap VersionChain VersionedLog SeparatorRow BaselinePages
  BaselineTree BaselineInvariant BaselineDescent BaselineWrites BaselineStates WeaverTree

/-! ## Latches -/

section Latches
variable {cellVersion : LatchVersion} {cells : Cells} {pos leaf : Position}

theorem unpinned_of_free (h : cellVersion.Free) : cellVersion.unpinned = cellVersion := by
  obtain ⟨obsolete, write, pin, count⟩ := cellVersion
  obtain ⟨-, -, rfl⟩ := h
  rfl

theorem readable_of_free (h : cellVersion.Free) : cellVersion.readable = true := by
  rw [LatchVersion.readable, h.1, h.2.1]
  rfl

theorem borrowRead_readable (h : (cells pos).readable = true) :
    borrowRead cells pos = some (pos, (cells pos).unpinned) := if_pos h

theorem borrowRead_latched (h : (cells pos).readable = false) : borrowRead cells pos = none :=
  if_neg (ne_true_of_eq_false h)

theorem borrowRead_valid (h : (cells pos).readable = true) :
    isValid cells (borrowRead cells pos) = true := by
  rw [borrowRead_readable h]
  simp [isValid, LatchVersion.isReadValid, h]

/-- A free word of the others, and the own word: readable under a pin only. -/
theorem latched_other (hne : pos ≠ leaf) (held : HeldLatch) :
    latched cells held leaf pos = cells pos := if_neg hne

theorem latched_pin (h : (cells leaf).Free) :
    (latched cells .appendPin leaf leaf).readable = true := by
  rw [latched, if_pos rfl]
  exact (readable_of_free h : (cells leaf).readable = true)

theorem latched_writer : (latched cells .writer leaf leaf).readable = false := by
  rw [latched, if_pos rfl]
  rfl

end Latches

variable {K V P : Type}

theorem blockAt_append (first second : Position) (node : Node K V) :
    blockAt (first ++ second) node = (blockAt first node).bind (blockAt second) := by
  induction first generalizing node with
  | nil => rfl
  | cons pos first ih =>
    cases node with
    | leaf => rfl
    | index keys children =>
      simp only [List.cons_append, blockAt]
      cases children[pos]? with
      | none => rfl
      | some c => exact ih c

theorem blockAt_child {here : Position} {root c : Node K V} {keys : List K}
    {children : List (Node K V)} {pos : ℕ}
    (hblock : blockAt here root = some (.index keys children))
    (hget : children[pos]? = some c) : blockAt (here ++ [pos]) root = some c := by
  rw [blockAt_append, hblock, Option.bind_some, blockAt, hget]
  rfl

/-! ## The walk to a leaf -/

variable [LinearOrder K]

/-- The blocks from one with fence `f` at `here` down to the leaf of the key, with
their fences and positions. -/
inductive Walk (cfg : TreeConfig K V P) (nextKey : K) :
    Interval K → Position → Node K V → List (Interval K × Position) → Position →
      List (VersionedRecordPoint K V) → Prop
  | leaf {f : Interval K} {here : Position} {records : List (VersionedRecordPoint K V)} :
      nextKey ∈ f → Walk cfg nextKey f here (.leaf records) [(f, here)] here records
  | step {f : Interval K} {here leaf : Position} {keys : List K} {children : List (Node K V)}
      {pos : ℕ} {c : Node K V} {rest : List (Interval K × Position)}
      {records : List (VersionedRecordPoint K V)} :
      nextKey ∈ f → nextNode keys children (cfg.keys.incKey nextKey) = .ok (pos, c) →
      children[pos]? = some c →
      Walk cfg nextKey (childFence cfg keys f pos) (here ++ [pos]) c rest leaf records →
      Walk cfg nextKey f here (.index keys children) ((f, here) :: rest) leaf records

variable {cfg : TreeConfig K V P} {nextKey key : K} {f g : Interval K} {here leaf : Position}
  {node root : Node K V} {entries : List (Interval K × Position)}
  {records : List (VersionedRecordPoint K V)} {cells : Cells}

/-- The guard for a block of the walk. -/
def guarded (cells : Cells) (entry : Interval K × Position) : Interval K × ReadGuard :=
  (entry.1, borrowRead cells entry.2)

theorem Walk.head (hw : Walk cfg nextKey f here node entries leaf records) :
    nextKey ∈ f ∧ ∃ rest, entries = (f, here) :: rest := by
  cases hw with
  | leaf hin => exact ⟨hin, [], rfl⟩
  | step hin => exact ⟨hin, _, rfl⟩

theorem climb_here {path : GuardPath K} {i : ℕ} {entry : Interval K × ReadGuard}
    (hget : path[i]? = some entry) (hin : nextKey ∈ entry.1) : climb path nextKey i = .ok i := by
  cases i <;>
  · simp only [climb, getUnchecked_eq hget, ok_bind]
    rw [if_pos (Interval.contains_eq_true.mpr hin)]
    rfl

/-- One turn of the search at a free directory goes to the child. -/
theorem search_descends {fuel pos : ℕ} {keys : List K} {children : List (Node K V)} {c : Node K V}
    (before : GuardPath K) (hin : nextKey ∈ f)
    (hblock : blockAt here root = some (.index keys children))
    (hnext : nextNode keys children (cfg.keys.incKey nextKey) = .ok (pos, c))
    (hfree : (cells here).Free) :
    nextLeafPageOlc cfg cells root nextKey (fuel + 1) (before ++ [guarded cells (f, here)])
        before.length =
      nextLeafPageOlc cfg cells root nextKey fuel
        (before ++ [guarded cells (f, here)] ++
          [guarded cells (childFence cfg keys f pos, here ++ [pos])]) (before.length + 1) := by
  have hread := readable_of_free hfree
  have hguard := borrowRead_readable hread
  have hget : (before ++ [guarded cells (f, here)])[before.length]? =
      some (guarded cells (f, here)) := by
    simp
  have hclimb := climb_here hget hin
  have hlen : ¬ (before ++ [guarded cells (f, here)]).length ≤ before.length := by simp
  conv_lhs => rw [nextLeafPageOlc]
  simp only [hlen, decide_false, Bool.false_and, Bool.false_eq_true, if_false, hclimb, ok_bind,
    getUnchecked_eq hget]
  simp only [guarded, hguard, derefUnsafe, isReadNotObsoleteResult, hread, hblock, hnext, ok_bind,
    Bool.not_true, Bool.false_or, ne_eq, not_true_eq_false, decide_false, Bool.false_eq_true,
    if_false, updateReadLatch, childGuard, unpinned_of_free hfree]
  have hset : (before ++ [(f, some (here, cells here))]).set before.length
      (f, some (here, cells here)) = before ++ [(f, some (here, cells here))] := by simp
  have hlast : before.length + 1 = (before ++ [(f, some (here, cells here))]).length := by simp
  rw [hset, hlast, List.insertIdx_length_self]

/-- At a readable leaf the search returns. -/
theorem search_at_leaf {fuel : ℕ} (before : GuardPath K) (hin : nextKey ∈ f)
    (hblock : blockAt here root = some (.leaf records)) (hread : (cells here).readable = true) :
    nextLeafPageOlc cfg cells root nextKey (fuel + 1) (before ++ [guarded cells (f, here)])
      before.length = .ok (before ++ [guarded cells (f, here)]) := by
  have hguard := borrowRead_readable hread
  have hget : (before ++ [guarded cells (f, here)])[before.length]? =
      some (guarded cells (f, here)) := by
    simp
  have hclimb := climb_here hget hin
  have hlen : ¬ (before ++ [guarded cells (f, here)]).length ≤ before.length := by simp
  rw [nextLeafPageOlc]
  simp only [hlen, decide_false, Bool.false_and, Bool.false_eq_true, if_false, hclimb, ok_bind,
    getUnchecked_eq hget]
  simp only [guarded, hguard, derefUnsafe, isReadNotObsoleteResult, hread, hblock]
  exact congrArg Except.ok (List.take_of_length_le (by simp))

/-- At a leaf with an empty guard the search goes back to the block above. -/
theorem search_turns_back {fuel : ℕ} (before : GuardPath K) (hin : nextKey ∈ f)
    (hread : (cells here).readable = false) :
    nextLeafPageOlc cfg cells root nextKey (fuel + 1) (before ++ [guarded cells (f, here)])
        before.length =
      nextLeafPageOlc cfg cells root nextKey fuel before (usizePred before.length) := by
  have hguard := borrowRead_latched hread
  have hget : (before ++ [guarded cells (f, here)])[before.length]? =
      some (guarded cells (f, here)) := by
    simp
  have hclimb := climb_here hget hin
  have hlen : ¬ (before ++ [guarded cells (f, here)]).length ≤ before.length := by simp
  rw [nextLeafPageOlc]
  simp only [hlen, decide_false, Bool.false_and, Bool.false_eq_true, if_false, hclimb, ok_bind,
    getUnchecked_eq hget]
  simp only [guarded, hguard, derefUnsafe, isReadNotObsoleteResult, List.take_left]

/-- The walk ends at its leaf when that is readable. -/
theorem Walk.returns (hw : Walk cfg nextKey f here node entries leaf records)
    (hblock : blockAt here root = some node) (hfree : ∀ e ∈ entries.dropLast, (cells e.2).Free)
    (hread : (cells leaf).readable = true) (before : GuardPath K) {fuel : ℕ}
    (hfuel : entries.length ≤ fuel) :
    nextLeafPageOlc cfg cells root nextKey fuel (before ++ [guarded cells (f, here)])
      before.length = .ok (before ++ entries.map (guarded cells)) := by
  induction hw generalizing before fuel with
  | leaf hin =>
    obtain ⟨fuel, rfl⟩ : ∃ n, fuel = n + 1 := ⟨fuel - 1, by simp at hfuel; omega⟩
    exact search_at_leaf before hin hblock hread
  | @step f here leaf keys children pos c rest records hin hnext hget hrest ih =>
    obtain ⟨fuel, rfl⟩ : ∃ n, fuel = n + 1 := ⟨fuel - 1, by simp at hfuel; omega⟩
    obtain ⟨-, tail, htail⟩ := hrest.head
    have hchild := blockAt_child hblock hget
    rw [search_descends before hin hblock hnext (hfree (f, here) (by rw [htail]; simp))]
    have hstep := ih hchild (fun e he => hfree e ?_) hread (before ++ [guarded cells (f, here)])
      (show rest.length ≤ fuel by simp at hfuel; omega)
    · rw [List.length_append, List.length_singleton] at hstep
      rw [hstep]
      simp
    · rw [htail, List.dropLast_cons_of_ne_nil (by simp)]
      exact List.mem_cons_of_mem _ (htail ▸ he)

/-- With an empty guard at its end the walk turns around for ever. -/
theorem Walk.stuck (hw : Walk cfg nextKey f here node entries leaf records)
    (hblock : blockAt here root = some node) (hfree : ∀ e ∈ entries.dropLast, (cells e.2).Free)
    (hread : (cells leaf).readable = false) (hdeep : here ≠ leaf) (before : GuardPath K)
    (fuel : ℕ) :
    nextLeafPageOlc cfg cells root nextKey fuel (before ++ [guarded cells (f, here)])
      before.length = .error .outOfFuel := by
  induction hw generalizing before fuel with
  | leaf => exact absurd rfl hdeep
  | @step f here leaf keys children pos c rest records hin hnext hget hrest ih =>
    obtain ⟨-, tail, htail⟩ := hrest.head
    have hchild := blockAt_child hblock hget
    have hhere : (cells here).Free := hfree (f, here) (by rw [htail]; simp)
    have hdown := fun fuel =>
      @search_descends K V P _ cfg nextKey f here root cells fuel _ _ _ _ before hin hblock hnext
        hhere
    by_cases hend : here ++ [pos] = leaf
    · -- one turn down to the latched leaf and one turn back
      subst hend
      have hinside := hrest.head.1
      have hback := fun fuel => @search_turns_back K V P _ cfg _ _ _ root _ fuel
        (before ++ [guarded cells (f, here)]) hinside hread
      have hpred : usizePred (before ++ [guarded cells (f, here)]).length = before.length := by
        simp [usizePred]
      induction fuel using Nat.strongRecOn with
      | ind fuel ihFuel =>
        match fuel with
        | 0 => rfl
        | 1 =>
          rw [hdown]
          rfl
        | fuel + 2 =>
          rw [hdown]
          have hturn := hback fuel
          rw [hpred, List.length_append, List.length_singleton] at hturn
          rw [hturn]
          exact ihFuel fuel (by omega)
    · cases fuel with
      | zero => rfl
      | succ fuel =>
        rw [hdown]
        have hstep := ih hchild (fun e he => hfree e ?_) hread hend
          (before ++ [guarded cells (f, here)]) fuel
        · rwa [List.length_append, List.length_singleton] at hstep
        · rw [htail, List.dropLast_cons_of_ne_nil (by simp)]
          exact List.mem_cons_of_mem _ (htail ▸ he)

/-- The walk to a leaf with the key in its fence. -/
theorem walk_of_leafAt {holds : Story P → V → Prop} {log : Log K P} {h : ℕ} {guard : Position}
    (hat : LeafAt cfg holds log h f node guard g records) (hkey : nextKey ∈ g) (here : Position) :
    ∃ entries, Walk cfg nextKey f here node entries (here ++ guard) records ∧
      entries.length = h + 1 ∧ entries.getLast? = some (g, here ++ guard) ∧
      ∀ e ∈ entries.dropLast, e.2.length < here.length + h := by
  induction h generalizing f node guard here with
  | zero =>
    cases node with
    | index => exact hat.elim
    | leaf =>
      cases guard with
      | cons => exact hat.elim
      | nil =>
        obtain ⟨rfl, rfl, -⟩ := hat
        rw [List.append_nil]
        exact ⟨_, .leaf hkey, rfl, rfl, by simp⟩
  | succ h ih =>
    cases node with
    | leaf => exact hat.elim
    | index keys children =>
      cases guard with
      | nil => exact hat.elim
      | cons pos guard =>
        obtain ⟨-, -, g', c, hspot, hbelow⟩ := hat
        have hin : nextKey ∈ g' := hbelow.within _ hkey
        have hnext := nextNode_at hspot hin
        obtain ⟨rest, hwalk, hlen, hlast, hshort⟩ := ih hbelow (here ++ [pos])
        have hfence : g' = childFence cfg keys f pos := hspot.fence
        rw [List.append_assoc, List.singleton_append] at hwalk hlast
        refine ⟨(f, here) :: rest, .step (hspot.within _ hin) hnext hspot.get (hfence ▸ hwalk),
          by rw [List.length_cons, hlen], ?_, fun e he => ?_⟩
        · rw [List.getLast?_cons, hlast]
          rfl
        · have hne : rest ≠ [] := List.ne_nil_of_length_pos (by omega)
          rw [List.dropLast_cons_of_ne_nil hne] at he
          rcases List.mem_cons.mp he with rfl | he
          · exact Nat.lt_add_of_pos_right (Nat.succ_pos h)
          · have := hshort e he
            rw [List.length_append, List.length_singleton] at this
            omega

theorem blockAt_leafAt {holds : Story P → V → Prop} {log : Log K P} {h : ℕ} {guard : Position}
    (hat : LeafAt cfg holds log h f node guard g records) :
    blockAt guard node = some (.leaf records) := by
  induction h generalizing f node guard with
  | zero =>
    cases node with
    | index => exact hat.elim
    | leaf =>
      cases guard with
      | cons => exact hat.elim
      | nil =>
        obtain ⟨-, rfl, -⟩ := hat
        rfl
  | succ h ih =>
    cases node with
    | leaf => exact hat.elim
    | index keys children =>
      cases guard with
      | nil => exact hat.elim
      | cons pos guard =>
        obtain ⟨-, -, g', c, hspot, hbelow⟩ := hat
        rw [blockAt, hspot.get, Option.bind_some]
        exact ih hbelow

/-! ## The search from the root -/

theorem search_from_root {fuel : ℕ} (hread : (cells []).readable = true) :
    nextLeafPageOlc cfg cells root nextKey (fuel + 1) [] 0 =
      nextLeafPageOlc cfg cells root nextKey (fuel + 1) [guarded cells (cfg.keys.full, [])] 0 := by
  have hguard := borrowRead_readable hread
  conv_lhs => rw [nextLeafPageOlc]
  conv_rhs => rw [nextLeafPageOlc]
  simp [guarded, hguard, isReadNotObsoleteResult, hread]

theorem search_waits_at_root (hread : (cells []).readable = false) (fuel : ℕ) :
    nextLeafPageOlc cfg cells root nextKey fuel [] 0 = .error .outOfFuel := by
  induction fuel with
  | zero => rfl
  | succ fuel ih =>
    have hguard := borrowRead_latched hread
    rw [nextLeafPageOlc]
    simp only [hguard, isReadNotObsoleteResult, List.length_nil, le_refl, decide_true,
      Bool.not_false, Bool.and_self, if_true]
    exact ih

section FromRoot
variable {holds : Story P → V → Prop} {log : Log K P} {h : ℕ} {guard leaf : Position}

/-- While one leaf is latched, no other block is. -/
theorem latched_free {held : HeldLatch} {pos : Position} (hcells : ∀ pos, (cells pos).Free)
    (hne : pos ≠ leaf) : (latched cells held leaf pos).Free := by
  rw [latched_other hne]
  exact hcells pos

variable (hcells : ∀ pos, (cells pos).Free) (hleaf : leaf.length = h)
  (hat : LeafAt cfg holds log h cfg.keys.full root guard g records) (hkey : nextKey ∈ g)

include hcells hleaf hat hkey

/-- The search passes a pin, and leaves that the write does not hold. -/
theorem search_returns {held : HeldLatch} (hok : held = .appendPin ∨ guard ≠ leaf) {fuel : ℕ}
    (hfuel : h + 1 ≤ fuel) :
    ∃ path, nextLeafPageOlc cfg (latched cells held leaf) root nextKey fuel [] 0 = .ok path ∧
      path.getLast? = some (g, borrowRead (latched cells held leaf) guard) ∧
      (latched cells held leaf guard).readable = true ∧
      blockAt guard root = some (.leaf records) := by
  obtain ⟨entries, hwalk, hlen, hlast, hshort⟩ := walk_of_leafAt hat hkey []
  have hread : (latched cells held leaf guard).readable = true := by
    rcases hok with rfl | hne
    · by_cases heq : guard = leaf
      · rw [heq]
        exact latched_pin (hcells leaf)
      · exact readable_of_free (latched_free hcells heq)
    · exact readable_of_free (latched_free hcells hne)
  have hfree : ∀ e ∈ entries.dropLast, (latched cells held leaf e.2).Free := fun e he =>
    latched_free hcells fun heq => by
      have := hshort e he
      rw [heq, hleaf, List.length_nil, Nat.zero_add] at this
      exact absurd this (lt_irrefl _)
  have hblock := blockAt_leafAt hat
  obtain ⟨fuel, rfl⟩ : ∃ n, fuel = n + 1 := ⟨fuel - 1, by omega⟩
  have hroot : (latched cells held leaf []).readable = true := by
    by_cases heq : ([] : Position) = leaf
    · have hnil : guard = [] := List.length_eq_zero_iff.mp (by
        rw [hat.length_eq, ← hleaf, ← heq, List.length_nil])
      exact hnil ▸ hread
    · exact readable_of_free (latched_free hcells heq)
  have hsearch := hwalk.returns rfl hfree hread [] (hlen.trans_le hfuel)
  rw [search_from_root hroot]
  refine ⟨_, hsearch, ?_, hread, hblock⟩
  rw [List.nil_append, List.getLast?_map, hlast]
  rfl

end FromRoot

end CMVBT.WeaverSearch
