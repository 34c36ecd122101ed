import CMVBT.BaselineDescent

/-!
# Writes and point reads refine the reference

The reference of the version-list tree: every write gets a version, an insertion
sets its key, an update and a deletion only change a live key. Each write of the
tree answers as the reference does and leaves a tree in the shape of the new log.
-/
namespace CMVBT.BaselineWrites
open PageModel hiding Node
open KeyInterval OrderedMap VersionChain VersionedLog SeparatorRow BaselinePages
  BaselineTree BaselineInvariant BaselineDescent

variable {K P : Type} [LinearOrder K]

/-! ## The reference -/

/-- The log after an operation at `version`, and the answer. -/
def referenceStep (log : Log K P) (version : ℕ) :
    CRUDOperation K P → Log K P × CRUDOperationResult
  | .insert key payload => (⟨version, key, some payload⟩ :: log, .inserted version)
  | .update key payload =>
    if (live log key).isSome then (⟨version, key, some payload⟩ :: log, .updated version)
    else (log, .zeroAffected .keyDoesNotExist)
  | .delete key =>
    if (live log key).isSome then (⟨version, key, none⟩ :: log, .deleted version)
    else (log, .zeroAffected .keyAlreadyDeleted)

/-- Operations one after the other, from `version` on. -/
def referenceRun : ℕ → Log K P → List (CRUDOperation K P) → Log K P × List CRUDOperationResult
  | _, log, [] => (log, [])
  | version, log, operation :: rest =>
    let step := referenceStep log version operation
    let after := referenceRun (version + 1) step.1 rest
    (after.1, step.2 :: after.2)

variable {log : Log K P} {version : ℕ}

theorem referenceStep_before (h : Before log version) (operation : CRUDOperation K P) :
    Before (referenceStep log version operation).1 (version + 1) := by
  cases operation with
  | insert key payload => exact h.cons key (some payload)
  | update key payload =>
    simp only [referenceStep]
    split
    · exact h.cons key (some payload)
    · exact h.mono (Nat.le_succ version)
  | delete key =>
    simp only [referenceStep]
    split
    · exact h.cons key none
    · exact h.mono (Nat.le_succ version)

/-! ## One operation -/

variable {V : Type} {cfg : TreeConfig K V P} {holds : Story P → V → Prop}

/-- The tree with root of height `h` and the log tell the same. -/
structure Refines (cfg : TreeConfig K V P) (holds : Story P → V → Prop) (log : Log K P) (h : ℕ)
    (tree : VersionTree K V) : Prop where
  shaped : Shaped cfg holds log h cfg.keys.full tree.root
  before : Before log tree.globalClock

theorem refines_newWith : Refines cfg holds [] 0 (newWith : VersionTree K V) where
  shaped := ⟨List.Pairwise.nil, by simp, Nat.zero_le _, by simp, by simp⟩
  before := by simp [Before]

variable {h : ℕ} {tree : VersionTree K V} {fuel : ℕ}

/-- What a write makes of the tree and what it answers. -/
def Writes (cfg : TreeConfig K V P) (holds : Story P → V → Prop) (h : ℕ) (tree : VersionTree K V)
    (reference : Log K P × CRUDOperationResult)
    (result : Except Fault (VersionTree K V × CRUDOperationResult)) : Prop :=
  ∃ tree' h', result = .ok (tree', reference.2) ∧ h' ≤ h + 1 ∧
    tree'.globalClock = tree.globalClock + 1 ∧ Refines cfg holds reference.1 h' tree'

/-- The leaf that a write reaches, and the tree after the leaf was written. -/
theorem Refines.leaf (hr : Refines cfg holds log h tree) (key : K) (appendOp : Bool)
    (hfuel : 2 * h + 3 ≤ fuel) :
    ∃ root guard h' g records, traversalWriteOlcOp cfg fuel tree.root key appendOp =
        .ok (root, guard) ∧ h' ≤ h + 1 ∧ LeafGood cfg holds log g records ∧ key ∈ g ∧
      (appendOp = false → records.length < cfg.sizes.numRecords) ∧
      ∀ {A : Type} {a : A} {op : Node K V → Except Fault (Node K V × A)}
        {records' : List (VersionedRecordPoint K V)},
        op (.leaf records) = .ok (.leaf records', a) → records.length ≤ records'.length →
        (LeafGood cfg holds log g records' → ∃ root', derefMut op guard root = .ok (root', a) ∧
          Shaped cfg holds log h' cfg.keys.full root') ∧
        ∀ s : Stamp K P, s.key = key → LeafGood cfg holds (s :: log) g records' →
          ∃ root', derefMut op guard root = .ok (root', a) ∧
            Shaped cfg holds (s :: log) h' cfg.keys.full root' := by
  obtain ⟨root, guard, h', g, records, hrun, hheight, hat, hkey, hroom⟩ :=
    traversalWriteOlcOp_reaches appendOp hr.shaped (cfg.keys.mem_full key) hfuel
  refine ⟨root, guard, h', g, records, hrun, hheight, hat.shaped.2, hkey, hroom, ?_⟩
  intro A a op records' hop hlen
  refine ⟨fun hgood => ?_, fun s hs hgood => ?_⟩
  · obtain ⟨root', hwrite, hs', -⟩ := hat.write hkey hop hlen hgood fun _ _ _ _ hshaped => hshaped
    exact ⟨root', hwrite, hs'.shaped.1⟩
  · obtain ⟨root', hwrite, hs', -⟩ := hat.write hkey hop hlen hgood
      fun _ _ _ hout hshaped => hshaped.frame (hs ▸ hout)
    exact ⟨root', hwrite, hs'.shaped.1⟩

theorem dispatchInsert_writes (hk : Keeps cfg.index holds) (hr : Refines cfg holds log h tree)
    (hfuel : 2 * h + 3 ≤ fuel)
    (hclock : tree.globalClock < 2 ^ 63) {key : K} (hkey : key < cfg.keys.maxKey) (payload : P)
    (toss : Bool) :
    Writes cfg holds h tree (referenceStep log tree.globalClock (.insert key payload))
      (dispatchInsert cfg fuel tree key payload toss) := by
  obtain ⟨root, guard, h', g, records, hrun, hheight, hgood, hin, hroom, hwrite⟩ :=
    hr.leaf key false hfuel
  obtain ⟨records', hop, hlen, hgood'⟩ :=
    pushRecordPoint_good hk hgood hin (fun _ => hkey) (hroom rfl) hr.before hclock payload toss
  obtain ⟨root', hderef, hshaped⟩ := (hwrite hop hlen).2 _ rfl hgood'
  refine ⟨⟨root', tree.globalClock + 1⟩, h', ?_, hheight, rfl, hshaped,
    referenceStep_before hr.before (.insert key payload)⟩
  simp only [dispatchInsert, hrun, ok_bind, hderef]
  rfl

theorem dispatchUpdate_writes (hk : Keeps cfg.index holds) (hr : Refines cfg holds log h tree)
    (hfuel : 2 * h + 3 ≤ fuel)
    (hclock : tree.globalClock < 2 ^ 63) (key : K) (payload : P) (toss : Bool) :
    Writes cfg holds h tree (referenceStep log tree.globalClock (.update key payload))
      (dispatchUpdate cfg fuel tree key payload toss) := by
  have hbefore := referenceStep_before hr.before (.update key payload)
  obtain ⟨root, guard, h', g, records, hrun, hheight, hgood, hin, -, hwrite⟩ :=
    hr.leaf key true hfuel
  cases hlive : (live log key).isSome with
  | true =>
    obtain ⟨records', hop, hlen, hgood'⟩ :=
      updateRecordPoint_live hk hgood hin hr.before hclock hlive payload toss
    obtain ⟨root', hderef, hshaped⟩ := (hwrite hop hlen.ge).2 _ rfl hgood'
    simp only [referenceStep, hlive, if_true] at hbefore ⊢
    refine ⟨⟨root', tree.globalClock + 1⟩, h', ?_, hheight, rfl, hshaped, hbefore⟩
    simp only [dispatchUpdate, hrun, ok_bind, hderef]
    rfl
  | false =>
    have hop := updateRecordPoint_absent (v := tree.globalClock) hk hgood hin hlive payload toss
    obtain ⟨root', hderef, hshaped⟩ := (hwrite hop le_rfl).1 hgood
    simp only [referenceStep, hlive, Bool.false_eq_true, if_false] at hbefore ⊢
    refine ⟨⟨root', tree.globalClock + 1⟩, h', ?_, hheight, rfl, hshaped, hbefore⟩
    simp only [dispatchUpdate, hrun, ok_bind, hderef]
    rfl

theorem dispatchDelete_writes (hk : Keeps cfg.index holds) (hr : Refines cfg holds log h tree)
    (hfuel : 2 * h + 3 ≤ fuel)
    (hclock : tree.globalClock < 2 ^ 63) (key : K) (toss : Bool) :
    Writes cfg holds h tree (referenceStep log tree.globalClock (.delete key))
      (dispatchDelete cfg fuel tree key toss) := by
  have hbefore := referenceStep_before hr.before (.delete key)
  obtain ⟨root, guard, h', g, records, hrun, hheight, hgood, hin, -, hwrite⟩ :=
    hr.leaf key true hfuel
  cases hlive : (live log key).isSome with
  | true =>
    obtain ⟨records', hop, hlen, hgood'⟩ := deleteKey_live hk hgood hin hr.before hclock hlive toss
    obtain ⟨root', hderef, hshaped⟩ := (hwrite hop hlen.ge).2 _ rfl hgood'
    simp only [referenceStep, hlive, if_true] at hbefore ⊢
    refine ⟨⟨root', tree.globalClock + 1⟩, h', ?_, hheight, rfl, hshaped, hbefore⟩
    simp only [dispatchDelete, hrun, ok_bind, hderef]
    rfl
  | false =>
    have hop := deleteKey_absent (v := tree.globalClock) hk hgood hin hlive toss
    obtain ⟨root', hderef, hshaped⟩ := (hwrite hop le_rfl).1 hgood
    simp only [referenceStep, hlive, Bool.false_eq_true, if_false] at hbefore ⊢
    refine ⟨⟨root', tree.globalClock + 1⟩, h', ?_, hheight, rfl, hshaped, hbefore⟩
    simp only [dispatchDelete, hrun, ok_bind, hderef]
    rfl

theorem dispatch_writes (hk : Keeps cfg.index holds) (hr : Refines cfg holds log h tree)
    (hfuel : 2 * h + 3 ≤ fuel)
    (hclock : tree.globalClock < 2 ^ 63) {operation : CRUDOperation K P}
    (hkey : operation.key < cfg.keys.maxKey) (toss : Bool) :
    Writes cfg holds h tree (referenceStep log tree.globalClock operation)
      (dispatch cfg fuel tree toss operation) := by
  cases operation with
  | insert key payload => exact dispatchInsert_writes hk hr hfuel hclock hkey payload toss
  | update key payload => exact dispatchUpdate_writes hk hr hfuel hclock key payload toss
  | delete key => exact dispatchDelete_writes hk hr hfuel hclock key toss

/-! ## Runs -/

/-- A run answers as the reference does, as long as its versions are below `2 ^ 63`. -/
theorem run_refines (hk : Keeps cfg.index holds) {ops : List (CRUDOperation K P × Bool)}
    (hr : Refines cfg holds log h tree)
    (hfuel : 2 * (h + ops.length) + 3 ≤ fuel) (hclock : tree.globalClock + ops.length ≤ 2 ^ 63)
    (hkeys : ∀ op ∈ ops, op.1.key < cfg.keys.maxKey) :
    ∃ tree' h', cfg.run fuel tree ops =
        .ok (tree', (referenceRun tree.globalClock log (ops.map Prod.fst)).2) ∧
      h' ≤ h + ops.length ∧
      Refines cfg holds (referenceRun tree.globalClock log (ops.map Prod.fst)).1 h' tree' := by
  induction ops generalizing log h tree with
  | nil => exact ⟨tree, h, rfl, le_rfl, hr⟩
  | cons op ops ih =>
    obtain ⟨operation, toss⟩ := op
    rw [List.length_cons] at hfuel hclock
    obtain ⟨tree₁, h₁, hstep, hheight, hclock₁, hr₁⟩ :=
      dispatch_writes hk hr (show 2 * h + 3 ≤ fuel by omega) (by omega)
        (hkeys _ List.mem_cons_self) toss
    obtain ⟨tree₂, h₂, hrun, hheight₂, hr₂⟩ := ih hr₁ (by omega) (by omega)
      (fun op hop => hkeys op (List.mem_cons_of_mem _ hop))
    rw [hclock₁] at hrun hr₂
    refine ⟨tree₂, h₂, ?_, ?_, hr₂⟩
    · simp only [TreeConfig.run, hstep, ok_bind, hrun]
      rfl
    · rw [List.length_cons]
      omega

/-! ## Point reads -/

/-- A point read answers as the reference does at the version. -/
theorem dispatchPoint_refines (hk : Keeps cfg.index holds) (hr : Refines cfg holds log h tree)
    (hfuel : h + 1 ≤ fuel) (key : K)
    {v : ℕ} (hv : v < 2 ^ 63) :
    cfg.dispatchPoint fuel tree key v = .ok ((liveAt log key v).map (fun p => (key, p))) := by
  obtain ⟨g, records, hrun, hgood, hkey⟩ :=
    traversalReadOlc_reaches hr.shaped (cfg.keys.mem_full key) hfuel
  rcases hgood.search hkey with ⟨pos, r, hsearch, hget, rfl, -⟩ | ⟨pos, hsearch, -, -, -, hnil⟩
  · obtain ⟨found, hfind, hlive⟩ := hgood.lookup hk hv r (List.mem_of_getElem? hget)
    simp only [TreeConfig.dispatchPoint, hrun, ok_bind, hsearch, getUnchecked_eq hget, hfind]
    rw [← hlive, Option.map_map]
    rfl
  · simp only [TreeConfig.dispatchPoint, hrun, ok_bind, hsearch]
    have hnone : liveAt log key v = none := by
      rw [← liveAt_storyOf, hnil]
      rfl
    rw [hnone]
    rfl

end CMVBT.BaselineWrites
