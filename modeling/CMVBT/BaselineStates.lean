import CMVBT.BaselineWrites
import CMVBT.BaselineContents
import CMVBT.BTreeIndex

/-!
# Every tree that writes reach is a search tree

Whatever the version index does, a run of writes that returns leaves a tree in
shape, and its indexes keep what all operations of the index keep. So lookups do
not fail in any reachable tree, for all kinds of indexes, at any version.
-/
namespace CMVBT.BaselineStates
open PageModel hiding Node startVersion
open KeyInterval OrderedMap VersionChain VersionedLog BaselinePages BaselineTree BaselineInvariant
  BaselineDescent BaselineWrites BTreeIndex

variable {K V P : Type} [LinearOrder K]

/-- Operations that return keep `good`. -/
structure Preserves (index : IndexOps V P) (good : V → Prop) : Prop where
  new : ∀ payload v, good (index.new payload v)
  push : ∀ {i i' v payload toss}, good i → index.push v payload toss i = .ok i' → good i'
  append : ∀ {i i' v payload toss}, good i → index.append v payload toss i = .ok i' → good i'
  delete : ∀ {i i' v toss}, good i → index.delete v toss i = .ok i' → good i'

/-- The indexes of the records are good; the stories do not matter. -/
abbrev Kept (good : V → Prop) : Story P → V → Prop := fun _ i => good i

variable {cfg : TreeConfig K V P} {good : V → Prop} {log : Log K P} {h fuel : ℕ} {f g : Interval K}
  {key : K} {node : Node K V} {records : List (VersionedRecordPoint K V)}

/-- A log after at most one change of `key`. -/
def Follows (key : K) (log log' : Log K P) : Prop :=
  log' = log ∨ ∃ s : Stamp K P, s.key = key ∧ log' = s :: log

/-! ## One leaf -/

/-- What a write makes of a leaf when it returns. -/
def LeafKept (cfg : TreeConfig K V P) (good : V → Prop) (log : Log K P) (g : Interval K) (key : K)
    (records : List (VersionedRecordPoint K V)) (leaf' : Node K V) : Prop :=
  ∃ records' log', leaf' = .leaf records' ∧ records.length ≤ records'.length ∧
    Follows key log log' ∧ LeafGood cfg (Kept good) log' g records'

theorem leafKept_same (hl : LeafGood cfg (Kept good) log g records) :
    LeafKept cfg good log g key records (.leaf records) :=
  ⟨records, log, rfl, le_rfl, .inl rfl, hl⟩

/-- A record with a changed index; the change is entered for the record's key. -/
theorem leafKept_set (hl : LeafGood cfg (Kept good) log g records) {pos : ℕ}
    {r : VersionedRecordPoint K V} (hr : records[pos]? = some r) {versionIndex : V}
    (hgood : good versionIndex) :
    LeafKept cfg good log g r.key records (.leaf (records.set pos { r with versionIndex })) :=
  ⟨_, ⟨0, r.key, none⟩ :: log, rfl, by simp, .inr ⟨_, rfl, rfl⟩,
    hl.set hr (s := ⟨0, r.key, none⟩) rfl hgood⟩

/-- A write of `key` keeps the leaf that it reaches; an insertion reaches one with room. -/
def KeepsLeaves (cfg : TreeConfig K V P) (good : V → Prop) (log : Log K P) (key : K)
    (appendOp : Bool) {A : Type} (op : Node K V → Except Fault (Node K V × A)) : Prop :=
  ∀ g records leaf' a, LeafGood cfg (Kept good) log g records → key ∈ g →
    (appendOp = false → records.length < cfg.sizes.numRecords) →
    op (.leaf records) = .ok (leaf', a) → LeafKept cfg good log g key records leaf'

theorem deleteKey_kept (hp : Preserves cfg.index good) (key : K) (v : ℕ) (toss : Bool) :
    KeepsLeaves cfg good log key true (Node.deleteKey cfg.index key v toss) := by
  intro g records leaf' a hl hkey _ hrun
  rcases hl.search hkey with ⟨pos, r, hsearch, hr, rfl, hgood⟩ | ⟨pos, hsearch, -⟩
  · simp only [Node.deleteKey, hsearch, getUnchecked_eq hr, ok_bind] at hrun
    obtain ⟨live, -, hrun⟩ := of_bind_ok hrun
    cases live with
    | false =>
      cases hrun
      exact leafKept_same hl
    | true =>
      obtain ⟨i', hdel, hrun⟩ := of_bind_ok hrun
      cases hrun
      exact leafKept_set hl hr (hp.delete hgood hdel)
  · simp only [Node.deleteKey, hsearch] at hrun
    cases hrun
    exact leafKept_same hl

theorem updateRecordPoint_kept (hp : Preserves cfg.index good) (key : K) (payload : P) (v : ℕ)
    (toss : Bool) :
    KeepsLeaves cfg good log key true (Node.updateRecordPoint cfg.index key payload v toss) := by
  intro g records leaf' a hl hkey _ hrun
  rcases hl.search hkey with ⟨pos, r, hsearch, hr, rfl, hgood⟩ | ⟨pos, hsearch, -⟩
  · simp only [Node.updateRecordPoint, hsearch, getUnchecked_eq hr, ok_bind] at hrun
    obtain ⟨live, -, hrun⟩ := of_bind_ok hrun
    cases live with
    | false =>
      cases hrun
      exact leafKept_same hl
    | true =>
      obtain ⟨i', happ, hrun⟩ := of_bind_ok hrun
      cases hrun
      exact leafKept_set hl hr (hp.append hgood happ)
  · simp only [Node.updateRecordPoint, hsearch] at hrun
    cases hrun
    exact leafKept_same hl

theorem pushRecordPoint_kept (hp : Preserves cfg.index good) {key : K}
    (hmax : cfg.sizes.numRecords = 2 → key < cfg.keys.maxKey) (payload : P) (v : ℕ) (toss : Bool) :
    KeepsLeaves cfg good log key false
      (Node.pushRecordPoint cfg.index cfg.sizes key payload v toss) := by
  intro g records leaf' a hl hkey hroom hrun
  rcases hl.search hkey with ⟨pos, r, hsearch, hr, rfl, hgood⟩ | ⟨pos, hsearch, -⟩
  · simp only [Node.pushRecordPoint, hsearch, getUnchecked_eq hr, ok_bind] at hrun
    obtain ⟨i', hpush, hrun⟩ := of_bind_ok hrun
    cases hrun
    exact leafKept_set hl hr (hp.push hgood hpush)
  · obtain ⟨records', hpush, hle, hl'⟩ :=
      pushRecordPoint_new hl hkey hmax (hroom rfl) (hp.new payload v) toss hsearch
    rw [hpush] at hrun
    cases hrun
    exact ⟨records', _, rfl, hle, .inr ⟨_, rfl, rfl⟩, hl'⟩

/-! ## One operation -/

/-- A fault at the leaf is a fault of the write. -/
theorem leafAt_error {holds : Story P → V → Prop} {guard : List ℕ} {A : Type} {e : Fault}
    {op : Node K V → Except Fault (Node K V × A)} (hat : LeafAt cfg holds log h f node guard g records)
    (hop : op (.leaf records) = .error e) : derefMut op guard node = .error e := by
  induction h generalizing f node guard with
  | zero =>
    cases node with
    | index => exact hat.elim
    | leaf =>
      cases guard with
      | cons => exact hat.elim
      | nil =>
        obtain ⟨-, rfl, -⟩ := hat
        exact hop
  | succ h ih =>
    cases node with
    | leaf => exact hat.elim
    | index keys children =>
      cases guard with
      | nil => exact hat.elim
      | cons pos guard =>
        obtain ⟨-, -, g', c, hspot, hbelow⟩ := hat
        simp only [derefMut, getUnchecked_eq hspot.get, ok_bind, ih hbelow]
        rfl

/-- Writing a leaf with an operation that keeps it. -/
theorem leafAt_kept {root : Node K V} {guard : List ℕ} {appendOp : Bool} {A : Type}
    {op : Node K V → Except Fault (Node K V × A)}
    (hat : LeafAt cfg (Kept good) log h f root guard g records) (hkey : key ∈ g)
    (hroom : appendOp = false → records.length < cfg.sizes.numRecords)
    (hop : KeepsLeaves cfg good log key appendOp op) {leaf' : Node K V} {a : A}
    (hleaf : op (.leaf records) = .ok (leaf', a)) :
    ∃ root' records' log', leaf' = .leaf records' ∧ derefMut op guard root = .ok (root', a) ∧
      LeafAt cfg (Kept good) log' h f root' guard g records' := by
  obtain ⟨records', log', rfl, hle, hfollows, hl'⟩ :=
    hop g records leaf' a hat.shaped.2 hkey hroom hleaf
  have hframe : ∀ h f node, key ∉ f → Shaped cfg (Kept good) log h f node →
      Shaped cfg (Kept good) log' h f node := by
    intro h f node hout hshaped
    rcases hfollows with rfl | ⟨s, rfl, rfl⟩
    · exact hshaped
    · exact hshaped.frame hout
  obtain ⟨root', hwrite, hat', -⟩ := hat.write hkey hleaf hle hl' hframe
  exact ⟨root', records', log', rfl, hwrite, hat'⟩

/-- A write whose operation keeps the leaf keeps the tree. -/
theorem write_shaped {root : Node K V} (hs : Shaped cfg (Kept good) log h cfg.keys.full root)
    (hfuel : 2 * h + 3 ≤ fuel) (key : K) (appendOp : Bool) {A : Type}
    {op : Node K V → Except Fault (Node K V × A)}
    (hop : KeepsLeaves cfg good log key appendOp op) :
    ∃ root₁ guard, traversalWriteOlcOp cfg fuel root key appendOp = .ok (root₁, guard) ∧
      ∀ root' a, derefMut op guard root₁ = .ok (root', a) →
        ∃ log' h', h' ≤ h + 1 ∧ Shaped cfg (Kept good) log' h' cfg.keys.full root' := by
  obtain ⟨root₁, guard, h', g, records, hrun, hheight, hat, hkey, hroom⟩ :=
    traversalWriteOlcOp_reaches appendOp hs (cfg.keys.mem_full key) hfuel
  refine ⟨root₁, guard, hrun, fun root' a hwrite => ?_⟩
  cases hleaf : op (.leaf records) with
  | error e =>
    rw [leafAt_error hat hleaf] at hwrite
    cases hwrite
  | ok result =>
    obtain ⟨leaf', b⟩ := result
    obtain ⟨root'', records', log', -, hwrite', hat'⟩ := leafAt_kept hat hkey hroom hop hleaf
    rw [hwrite'] at hwrite
    cases hwrite
    exact ⟨log', h', hheight, hat'.shaped.1⟩

variable {tree tree' : VersionTree K V}

/-- An operation that returns keeps the tree in shape. -/
theorem dispatch_shaped {toss : Bool} (hp : Preserves cfg.index good)
    (hs : Shaped cfg (Kept good) log h cfg.keys.full tree.root) (hfuel : 2 * h + 3 ≤ fuel)
    {operation : CRUDOperation K P}
    (hmax : cfg.sizes.numRecords = 2 → operation.key < cfg.keys.maxKey)
    {result : CRUDOperationResult}
    (hrun : dispatch cfg fuel tree toss operation = .ok (tree', result)) :
    ∃ log' h', h' ≤ h + 1 ∧ Shaped cfg (Kept good) log' h' cfg.keys.full tree'.root := by
  cases operation with
  | insert key payload =>
    obtain ⟨root₁, guard, htrav, hwrite⟩ := write_shaped hs hfuel key false
      (pushRecordPoint_kept hp hmax payload tree.globalClock toss)
    simp only [dispatch, dispatchInsert, htrav, ok_bind] at hrun
    obtain ⟨⟨root', pushed⟩, hderef, hdone⟩ := of_bind_ok hrun
    have hkept := hwrite root' pushed hderef
    cases pushed <;>
    · cases hdone
      exact hkept
  | update key payload =>
    obtain ⟨root₁, guard, htrav, hwrite⟩ := write_shaped hs hfuel key true
      (updateRecordPoint_kept hp key payload tree.globalClock toss)
    simp only [dispatch, dispatchUpdate, htrav, ok_bind] at hrun
    obtain ⟨⟨root', a⟩, hderef, hdone⟩ := of_bind_ok hrun
    have hkept := hwrite root' a hderef
    rcases a with e | (- | a) <;>
    · cases hdone
      exact hkept
  | delete key =>
    obtain ⟨root₁, guard, htrav, hwrite⟩ := write_shaped hs hfuel key true
      (deleteKey_kept hp key tree.globalClock toss)
    simp only [dispatch, dispatchDelete, htrav, ok_bind] at hrun
    obtain ⟨⟨root', a⟩, hderef, hdone⟩ := of_bind_ok hrun
    have hkept := hwrite root' a hderef
    rcases a with e | (- | a) <;>
    · cases hdone
      exact hkept

/-! ## Runs -/

theorem run_shaped (hp : Preserves cfg.index good) {ops : List (CRUDOperation K P × Bool)}
    (hs : Shaped cfg (Kept good) log h cfg.keys.full tree.root)
    (hfuel : 2 * (h + ops.length) + 3 ≤ fuel) (hmax : ∀ op ∈ ops, op.1.key < cfg.keys.maxKey)
    {results : List CRUDOperationResult} (hrun : cfg.run fuel tree ops = .ok (tree', results)) :
    ∃ log' h', Shaped cfg (Kept good) log' h' cfg.keys.full tree'.root := by
  induction ops generalizing log h tree results with
  | nil =>
    cases hrun
    exact ⟨log, h, hs⟩
  | cons op ops ih =>
    obtain ⟨operation, toss⟩ := op
    rw [List.length_cons] at hfuel
    obtain ⟨⟨tree₁, result⟩, hstep, hrun⟩ := of_bind_ok hrun
    obtain ⟨⟨tree₂, results₂⟩, hrest, hrun⟩ := of_bind_ok hrun
    cases hrun
    obtain ⟨log₁, h₁, hheight, hs₁⟩ := dispatch_shaped hp hs (show 2 * h + 3 ≤ fuel by omega)
      (fun _ => hmax _ List.mem_cons_self) hstep
    exact ih hs₁ (by omega) (fun op hop => hmax op (List.mem_cons_of_mem _ hop)) hrest

theorem run_newWith_shaped (hp : Preserves cfg.index good) {ops : List (CRUDOperation K P × Bool)}
    (hfuel : 2 * ops.length + 3 ≤ fuel) (hmax : ∀ op ∈ ops, op.1.key < cfg.keys.maxKey)
    {results : List CRUDOperationResult}
    (hrun : cfg.run fuel newWith ops = .ok (tree', results)) :
    ∃ log h, Shaped cfg (Kept good) log h cfg.keys.full tree'.root :=
  run_shaped hp refines_newWith.shaped (by omega) hmax hrun

/-! ## Lookups never fail -/

section Lookups
open FrugalList

/-- Below the level of the sentinel a node has both links. -/
inductive Linked : FrugalNode (Option P) → Prop
  | sentinel (payload : Option P) (version : ℕ) :
      Linked (.mk none none payload version sentinelLevel)
  | cons {next vRidgy : FrugalNode (Option P)} (payload : Option P) (version level : ℕ) :
      Linked next → Linked vRidgy → Linked (.mk (some next) (some vRidgy) payload version level)

variable {head head' : FrugalNode (Option P)}

theorem Linked.towerFrom (hl : Linked head) {newLevel : ℕ} {curr : FrugalNode (Option P)}
    (hrun : towerFrom head newLevel = .ok curr) : Linked curr := by
  induction hl with
  | sentinel payload version =>
    simp only [FrugalList.towerFrom] at hrun
    split at hrun
    · cases hrun
    · cases hrun
      exact .sentinel payload version
  | cons payload version level hnext hridgy _ ih =>
    simp only [FrugalList.towerFrom] at hrun
    split at hrun
    · exact ih hrun
    · cases hrun
      exact .cons payload version level hnext hridgy

theorem Linked.append (hl : Linked head) {payload : Option P} {version : ℕ} {toss : Bool}
    (hrun : appendChain head payload version toss = .ok head') : Linked head' := by
  cases toss with
  | false =>
    cases hrun
    exact .cons payload version flatLevel hl hl
  | true =>
    obtain ⟨curr, htower, hrun⟩ := of_bind_ok hrun
    cases hrun
    exact .cons payload version _ hl (hl.towerFrom htower)

/-- The walk for a tower ends at the sentinel at the latest. -/
theorem Linked.towerFrom_total (hl : Linked head) {newLevel : ℕ} (hlevel : newLevel ≤ sentinelLevel) :
    ∃ curr, FrugalList.towerFrom head newLevel = .ok curr := by
  induction hl with
  | sentinel payload version =>
    rw [FrugalList.towerFrom, if_neg (not_lt.mpr hlevel)]
    exact ⟨_, rfl⟩
  | cons payload version level hnext hridgy _ ih =>
    rw [FrugalList.towerFrom]
    split
    · exact ih
    · exact ⟨_, rfl⟩

/-- Appending succeeds, and the new head links to the old one. -/
theorem Linked.append_total (hl : Linked head) (payload : Option P) (v : ℕ) (toss : Bool) :
    ∃ head', appendChain head payload v toss = .ok head' ∧ Linked head' ∧
      head'.insertVersion = v ∧ head'.next = some head ∧
      values head' = (payload, v) :: values head := by
  cases toss with
  | false => exact ⟨_, rfl, .cons payload v flatLevel hl hl, rfl, rfl, rfl⟩
  | true =>
    have hlevel : (head.level + 1) % 2 ^ 64 ≤ sentinelLevel :=
      Nat.le_pred_of_lt (Nat.mod_lt _ (Nat.two_pow_pos 64))
    obtain ⟨curr, htower⟩ := hl.towerFrom_total hlevel
    refine ⟨.mk (some head) (some curr) payload v ((head.level + 1) % 2 ^ 64), ?_,
      .cons payload v _ hl (hl.towerFrom htower), rfl, rfl, rfl⟩
    simp only [appendChain, if_true, VersionChain.appendTower, FrugalList.appendTower, htower,
      ok_bind]
    rfl

theorem Linked.delete (hl : Linked head) {version : ℕ} {toss : Bool}
    (hrun : deleteChain head version toss = .ok head') : Linked head' := by
  unfold deleteChain at hrun
  split at hrun
  · exact hl.append hrun
  · cases hrun
    exact hl

theorem Linked.findFrom (hl : Linked head) (version : ℕ) :
    ∃ found, findFrom head version = .ok found := by
  induction hl with
  | sentinel => exact ⟨_, by simp only [FrugalList.findFrom, lt_irrefl, false_and, if_false]; rfl⟩
  | cons payload v level _ _ ihNext ihRidgy =>
    simp only [FrugalList.findFrom]
    split
    · split
      · exact ihRidgy
      · exact ihNext
    · exact ⟨_, rfl⟩

theorem Linked.find (hl : Linked head) (version : ℕ) :
    ∃ found, (do VersionIndex.foundNode (← findChain head version)) = .ok found := by
  obtain ⟨found, hfind⟩ := hl.findFrom version
  simp only [findChain, hfind]
  cases found with
  | none => exact ⟨none, rfl⟩
  | some node =>
    obtain ⟨next, vRidgy, payload, v, level⟩ := node
    cases payload with
    | none => exact ⟨none, rfl⟩
    | some payload => exact ⟨some (v, payload), rfl⟩

end Lookups

variable {skipMap bPlusTree : Mutable (RecordInfo P)}

/-- Lookups in the index do not fail. -/
def Findable : AnyIndex skipMap bPlusTree → Prop
  | .listed (.frugalSkipList head) => Linked head
  | .listed (.vWeaver head) => Linked head
  | _ => True

theorem Findable.find {i : AnyIndex skipMap bPlusTree} (hi : Findable i) (version : ℕ) :
    ∃ found, i.find version = .ok found := by
  rcases i with (list | head | head | map) | tree
  · exact ⟨_, rfl⟩
  · exact Linked.find hi version
  · exact Linked.find hi version
  · exact ⟨_, rfl⟩
  · exact ⟨_, rfl⟩

section Listed
variable {index index' : VersionIndex skipMap} {version : ℕ} {payload : P} {toss : Bool}

theorem findable_push (hi : Findable (.listed index : AnyIndex skipMap bPlusTree))
    (hrun : index.push version payload toss = .ok index') :
    Findable (.listed index' : AnyIndex skipMap bPlusTree) := by
  cases index with
  | vanilla =>
    cases hrun
    trivial
  | frugalSkipList head =>
    obtain ⟨head', happ, hdone⟩ := of_bind_ok hrun
    cases hdone
    exact Linked.append hi happ
  | vWeaver head =>
    obtain ⟨head', happ, hdone⟩ := of_bind_ok hrun
    cases hdone
    exact Linked.append hi happ
  | skipList map =>
    obtain ⟨map', -, hdone⟩ := of_bind_ok hrun
    cases hdone
    trivial

theorem findable_append (hi : Findable (.listed index : AnyIndex skipMap bPlusTree))
    (hrun : index.append version payload toss = .ok index') :
    Findable (.listed index' : AnyIndex skipMap bPlusTree) := by
  cases index with
  | skipList map =>
    obtain ⟨map', -, hdone⟩ := of_bind_ok hrun
    cases hdone
    trivial
  | _ =>
    -- the other lists append as they push
    exact findable_push hi (show VersionIndex.push version payload toss _ = .ok index' from hrun)

theorem findable_delete (hi : Findable (.listed index : AnyIndex skipMap bPlusTree))
    (hrun : index.delete version toss = .ok index') :
    Findable (.listed index' : AnyIndex skipMap bPlusTree) := by
  cases index with
  | vanilla =>
    cases hrun
    trivial
  | frugalSkipList head =>
    obtain ⟨head', hdel, hdone⟩ := of_bind_ok hrun
    cases hdone
    exact Linked.delete hi hdel
  | vWeaver head =>
    obtain ⟨head', hdel, hdone⟩ := of_bind_ok hrun
    cases hdone
    exact Linked.delete hi hdel
  | skipList map =>
    obtain ⟨map', -, hdone⟩ := of_bind_ok hrun
    cases hdone
    trivial

end Listed

/-- The operations of every kind of index keep lookups from failing. -/
theorem findable_preserved (kind : AnyIndexType) :
    Preserves (AnyIndex.ops kind : IndexOps (AnyIndex skipMap bPlusTree) P) Findable where
  new payload version := by
    rcases kind with (- | - | - | -) | -
    · trivial
    · exact .sentinel _ _
    · exact .sentinel _ _
    · trivial
    · trivial
  push {i i' v payload toss} hi hrun := by
    rcases i with index | tree
    · obtain ⟨index', hpush, hdone⟩ := of_bind_ok hrun
      cases hdone
      exact findable_push hi hpush
    · obtain ⟨tree', -, hdone⟩ := of_bind_ok hrun
      cases hdone
      trivial
  append {i i' v payload toss} hi hrun := by
    rcases i with index | tree
    · obtain ⟨index', happ, hdone⟩ := of_bind_ok hrun
      cases hdone
      exact findable_append hi happ
    · obtain ⟨tree', -, hdone⟩ := of_bind_ok hrun
      cases hdone
      trivial
  delete {i i' v toss} hi hrun := by
    rcases i with index | tree
    · obtain ⟨index', hdel, hdone⟩ := of_bind_ok hrun
      cases hdone
      exact findable_delete hi hdel
    · obtain ⟨tree', -, hdone⟩ := of_bind_ok hrun
      cases hdone
      trivial

end CMVBT.BaselineStates
