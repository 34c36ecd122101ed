import CMVBT.BaselineStates

/-!
# Iterating over the versions of a record

The iterator of a frugal list moves on before it tests a node. The iterator of a
woven list takes its node out of `current` and puts the next one back only behind
a live node, so a tombstone ends the iteration. The two agree on a history without
deletions, and on no other one.
-/
namespace CMVBT.VersionIteration
open PageModel FrugalList OrderedMap VersionChain BaselinePages BaselineStates

variable {P : Type}

/-! ## The iterators -/

section Iterators

/-- `VWeaverVersionIterator::next` on the field `current`. -/
def weaverNext (current : Option (FrugalNode (Option P))) :
    Option (FrugalNode (Option P)) × Option (FrugalNode (Option P)) :=
  match current with
  | some curr =>
    if chainIsLive curr then (some curr, curr.next)
    -- `take` has left nothing in `current`
    else weaverNext none
  | none => (none, none)
termination_by current.isSome.toNat

def weaverIter (head : FrugalNode (Option P)) : Option (FrugalNode (Option P)) := some head

/-- The versions that a frugal iterator has before it. -/
def remaining : Option (FrugalNode (Option P) × ℕ) → ℕ
  | some (curr, _) => (values curr).length
  | none => 0

theorem remaining_next (curr : FrugalNode (Option P)) (version : ℕ) :
    remaining (curr.next.map fun n => (n, n.insertVersion)) < remaining (some (curr, version)) := by
  obtain ⟨next, vRidgy, payload, v, level⟩ := curr
  cases next with
  | none => exact Nat.one_pos
  | some next => exact Nat.lt_succ_self (values next).length

/-- `FrugalVersionIterator::next`; `current` holds a node with its version. -/
def frugalNext (current : Option (FrugalNode (Option P) × ℕ)) :
    Option (FrugalNode (Option P) × ℕ) × Option (FrugalNode (Option P) × ℕ) :=
  match current with
  | none => (none, none)
  | some (curr, version) =>
    have := remaining_next curr version
    let rest := curr.next.map fun n => (n, n.insertVersion)
    if chainIsLive curr then (some (curr, version), rest) else frugalNext rest
termination_by remaining current

def frugalIter (head : FrugalNode (Option P)) : Option (FrugalNode (Option P) × ℕ) :=
  some (head, head.insertVersion)

/-- The items of an iterator up to its first `None`. -/
def collect {S A : Type} (next : S → Option A × S) : ℕ → S → Except Fault (List A)
  | 0, _ => .error .outOfFuel
  | fuel + 1, state =>
    match next state with
    | (none, _) => .ok []
    | (some a, state) => return a :: (← collect next fuel state)

/-- `iter().count()`. -/
def len {S A : Type} (next : S → Option A × S) (fuel : ℕ) (state : S) : Except Fault ℕ :=
  return (← collect next fuel state).length

end Iterators

/-! ## Histories -/

/-- A change of a record; the coin tosses of the two kinds of lists differ. -/
inductive Change (P : Type) where
  | push (version : ℕ) (payload : P)
  | append (version : ℕ) (payload : P)
  | delete (version : ℕ)

def Change.op (toss : Bool) : Change P → Op P
  | .push version payload => .push version payload toss
  | .append version payload => .append version payload toss
  | .delete version => .delete version toss

def Change.isDelete : Change P → Bool
  | .delete _ => true
  | _ => false

variable {skipMap : Mutable (RecordInfo P)}

/-- A new record and the changes after it. -/
def history (kind : VersionIndexType) (payload : P) (version : ℕ) (changes : List (Change P))
    (tosses : ℕ → Bool) : Except Fault (VersionIndex skipMap) :=
  runOps (changes.mapIdx fun i change => change.op (tosses i)) (VersionIndex.new kind payload version)

/-- The same history as a story. -/
def storyAfter (payload : P) (version : ℕ) (changes : List (Change P)) : Story P :=
  changes.foldl (fun story change => story.step (change.op false)) [(some payload, version)]

/-- The versions with a payload, newest first. -/
def liveVersions (story : Story P) : List ℕ :=
  (story.filter fun x => x.1.isSome).map Prod.snd

/-! ## What the iterators yield -/

section Yields
variable {fuel : ℕ}

/-- The values from a link on. -/
def behind (link : Option (FrugalNode (Option P))) : Story P := link.elim [] values

theorem values_eq (curr : FrugalNode (Option P)) :
    values curr = (curr.payload, curr.insertVersion) :: behind curr.next := by
  obtain ⟨next, vRidgy, payload, version, level⟩ := curr
  cases next <;> rfl

theorem collect_congr {S A : Type} {next : S → Option A × S} {s s' : S} (h : next s = next s')
    (fuel : ℕ) : collect next fuel s = collect next fuel s' := by
  cases fuel with
  | zero => rfl
  | succ fuel => rw [collect, collect, h]

/-- Whatever stands between them, all live versions are yielded. -/
theorem frugal_yields_from (link : Option (FrugalNode (Option P)))
    (hfuel : (behind link).length < fuel) :
    ∃ items, collect frugalNext fuel (link.map fun n => (n, n.insertVersion)) = .ok items ∧
      items.map Prod.snd = liveVersions (behind link) := by
  generalize hvalues : behind link = l at hfuel ⊢
  induction l generalizing link fuel with
  | nil =>
    obtain ⟨fuel, rfl⟩ : ∃ n, fuel = n + 1 := ⟨fuel - 1, by omega⟩
    cases link with
    | some curr =>
      rw [behind, Option.elim_some, values_eq] at hvalues
      cases hvalues
    | none =>
      refine ⟨[], ?_, rfl⟩
      rw [collect, Option.map_none, frugalNext]
  | cons x l ih =>
    obtain ⟨fuel, rfl⟩ : ∃ n, fuel = n + 1 := ⟨fuel - 1, by simp at hfuel; omega⟩
    cases link with
    | none => cases hvalues
    | some curr =>
      rw [behind, Option.elim_some, values_eq] at hvalues
      obtain ⟨rfl, hrest⟩ := List.cons.inj hvalues
      rw [List.length_cons] at hfuel
      cases hlive : chainIsLive curr with
      | true =>
        obtain ⟨items, hitems, hversions⟩ := ih curr.next hrest (show l.length < fuel by omega)
        refine ⟨(curr, curr.insertVersion) :: items, ?_, ?_⟩
        · rw [Option.map_some, collect, frugalNext]
          simp only [hlive, if_true, hitems]
          rfl
        · have hsome : curr.payload.isSome = true := hlive
          rw [List.map_cons, hversions, liveVersions, liveVersions, List.filter_cons, if_pos hsome]
          rfl
      | false =>
        obtain ⟨items, hitems, hversions⟩ := ih curr.next hrest (show l.length < fuel + 1 by omega)
        have hskip : frugalNext (some (curr, curr.insertVersion)) =
            frugalNext (curr.next.map fun n => (n, n.insertVersion)) := by
          conv_lhs => rw [frugalNext]
          simp [hlive]
        refine ⟨items, (collect_congr hskip _).trans hitems, ?_⟩
        have hnone : ¬ curr.payload.isSome = true := ne_true_of_eq_false hlive
        rw [hversions, liveVersions, liveVersions, List.filter_cons, if_neg hnone]

theorem frugal_yields (head : FrugalNode (Option P)) (hfuel : (values head).length < fuel) :
    ∃ items, collect frugalNext fuel (frugalIter head) = .ok items ∧
      items.map Prod.snd = liveVersions (values head) :=
  frugal_yields_from (some head) hfuel

/-- The live versions in front of the first tombstone. -/
theorem weaver_yields_from (link : Option (FrugalNode (Option P)))
    (hfuel : (behind link).length < fuel) :
    ∃ items, collect weaverNext fuel link = .ok items ∧
      items.map FrugalNode.insertVersion =
        ((behind link).takeWhile fun x => x.1.isSome).map Prod.snd := by
  generalize hvalues : behind link = l at hfuel ⊢
  induction l generalizing link fuel with
  | nil =>
    obtain ⟨fuel, rfl⟩ : ∃ n, fuel = n + 1 := ⟨fuel - 1, by omega⟩
    cases link with
    | some curr =>
      rw [behind, Option.elim_some, values_eq] at hvalues
      cases hvalues
    | none =>
      refine ⟨[], ?_, rfl⟩
      rw [collect, weaverNext]
  | cons x l ih =>
    obtain ⟨fuel, rfl⟩ : ∃ n, fuel = n + 1 := ⟨fuel - 1, by simp at hfuel; omega⟩
    cases link with
    | none => cases hvalues
    | some curr =>
      rw [behind, Option.elim_some, values_eq] at hvalues
      obtain ⟨rfl, hrest⟩ := List.cons.inj hvalues
      rw [List.length_cons] at hfuel
      cases hlive : chainIsLive curr with
      | true =>
        obtain ⟨items, hitems, hversions⟩ := ih curr.next hrest (show l.length < fuel by omega)
        refine ⟨curr :: items, ?_, ?_⟩
        · rw [collect, weaverNext]
          simp only [hlive, if_true, hitems]
          rfl
        · have hsome : curr.payload.isSome = true := hlive
          rw [List.map_cons, hversions, List.takeWhile_cons, if_pos hsome]
          rfl
      | false =>
        have hstop : weaverNext (some curr) = (none, none) := by
          rw [weaverNext, hlive, if_neg Bool.false_ne_true, weaverNext]
        refine ⟨[], by rw [collect, hstop], ?_⟩
        have hnone : ¬ curr.payload.isSome = true := ne_true_of_eq_false hlive
        rw [List.takeWhile_cons, if_neg hnone]
        rfl

theorem weaver_yields (head : FrugalNode (Option P)) (hfuel : (values head).length < fuel) :
    ∃ items, collect weaverNext fuel (weaverIter head) = .ok items ∧
      items.map FrugalNode.insertVersion =
        ((values head).takeWhile fun x => x.1.isSome).map Prod.snd :=
  weaver_yields_from (some head) hfuel

end Yields

/-! ## Histories tell stories -/

section Stories
variable {story : Story P}

/-- A list of one of the two kinds that holds the story. -/
def Lists (kind : VersionIndexType) (story : Story P) (index : VersionIndex skipMap) : Prop :=
  ∃ head, Linked head ∧ values head = story ∧
    ((kind = .vWeaver ∧ index = .vWeaver head) ∨
      (kind = .frugalSkipList ∧ index = .frugalSkipList head))

theorem live_values (head : FrugalNode (Option P)) :
    chainIsLive head = Story.live (values head) := by
  rw [values_eq]
  rfl

theorem lists_append {kind : VersionIndexType} {index : VersionIndex skipMap}
    (h : Lists kind story index) (v : ℕ) (payload : P) (toss : Bool) :
    ∃ index', index.push v payload toss = .ok index' ∧ index.append v payload toss = .ok index' ∧
      Lists kind ((some payload, v) :: story) index' := by
  obtain ⟨head, hlinked, rfl, hkind⟩ := h
  obtain ⟨head', happ, hlinked', -, -, hvalues⟩ := hlinked.append_total (some payload) v toss
  rcases hkind with ⟨rfl, rfl⟩ | ⟨rfl, rfl⟩
  · refine ⟨.vWeaver head', ?_, ?_, head', hlinked', hvalues, .inl ⟨rfl, rfl⟩⟩ <;>
    · simp only [VersionIndex.push, VersionIndex.append, happ, ok_bind]
      rfl
  · refine ⟨.frugalSkipList head', ?_, ?_, head', hlinked', hvalues, .inr ⟨rfl, rfl⟩⟩ <;>
    · simp only [VersionIndex.push, VersionIndex.append, happ, ok_bind]
      rfl

theorem lists_delete {kind : VersionIndexType} {index : VersionIndex skipMap}
    (h : Lists kind story index) (v : ℕ) (toss : Bool) :
    ∃ index', index.delete v toss = .ok index' ∧
      Lists kind (story.step (.delete v toss)) index' := by
  obtain ⟨head, hlinked, rfl, hkind⟩ := h
  obtain ⟨head', hdel, hlinked', hvalues⟩ : ∃ head', deleteChain head v toss = .ok head' ∧
      Linked head' ∧ values head' = Story.step (values head) (.delete v toss) := by
    simp only [deleteChain, live_values, Story.step]
    cases Story.live (values head) with
    | false => exact ⟨head, rfl, hlinked, rfl⟩
    | true =>
      obtain ⟨head', happ, hlinked', -, -, hvalues⟩ := hlinked.append_total none v toss
      exact ⟨head', happ, hlinked', hvalues⟩
  rcases hkind with ⟨rfl, rfl⟩ | ⟨rfl, rfl⟩
  · refine ⟨.vWeaver head', ?_, head', hlinked', hvalues, .inl ⟨rfl, rfl⟩⟩
    simp only [VersionIndex.delete, hdel, ok_bind]
    rfl
  · refine ⟨.frugalSkipList head', ?_, head', hlinked', hvalues, .inr ⟨rfl, rfl⟩⟩
    simp only [VersionIndex.delete, hdel, ok_bind]
    rfl

theorem lists_step {kind : VersionIndexType} {index : VersionIndex skipMap}
    (h : Lists kind story index) (change : Change P) (toss : Bool) :
    ∃ index', (change.op toss).run index = .ok index' ∧
      Lists kind (story.step (change.op false)) index' := by
  cases change with
  | push v payload =>
    obtain ⟨index', hpush, -, h'⟩ := lists_append h v payload toss
    exact ⟨index', hpush, h'⟩
  | append v payload =>
    obtain ⟨index', -, happ, h'⟩ := lists_append h v payload toss
    exact ⟨index', happ, h'⟩
  | delete v => exact lists_delete h v toss

theorem lists_run {kind : VersionIndexType} {index : VersionIndex skipMap}
    (h : Lists kind story index) (changes : List (Change P)) (tosses : ℕ → Bool) :
    ∃ index', runOps (changes.mapIdx fun i change => change.op (tosses i)) index = .ok index' ∧
      Lists kind (changes.foldl (fun story change => story.step (change.op false)) story) index' := by
  induction changes generalizing story index tosses with
  | nil => exact ⟨index, rfl, h⟩
  | cons change changes ih =>
    obtain ⟨index₁, hstep, h₁⟩ := lists_step h change (tosses 0)
    obtain ⟨index₂, hrun, h₂⟩ := ih h₁ fun i => tosses (i + 1)
    refine ⟨index₂, ?_, h₂⟩
    rw [List.mapIdx_cons, runOps, hstep, ok_bind]
    exact hrun

/-- The lists after a history hold its story, whatever the tosses were. -/
theorem lists_history (skipMap : Mutable (RecordInfo P)) (kind : VersionIndexType)
    (hkind : kind = .vWeaver ∨ kind = .frugalSkipList)
    (payload : P) (version : ℕ) (changes : List (Change P)) (tosses : ℕ → Bool) :
    ∃ index : VersionIndex skipMap, history kind payload version changes tosses = .ok index ∧
      Lists kind (storyAfter payload version changes) index := by
  have hnew : Lists kind [(some payload, version)]
      (VersionIndex.new kind payload version : VersionIndex skipMap) := by
    refine ⟨FrugalList.new (some payload) version, .sentinel _ _, rfl, ?_⟩
    rcases hkind with rfl | rfl
    · exact .inl ⟨rfl, rfl⟩
    · exact .inr ⟨rfl, rfl⟩
  exact lists_run hnew changes tosses

/-! ## Tombstones in a story -/

/-- The oldest state of a record is live. -/
def Born (story : Story P) : Prop := ∃ newer payload v, story = newer ++ [(some payload, v)]

theorem Born.cons (h : Born story) (x : Option P × ℕ) : Born (x :: story) := by
  obtain ⟨newer, payload, v, rfl⟩ := h
  exact ⟨x :: newer, payload, v, rfl⟩

theorem Born.step (h : Born story) (change : Change P) : Born (story.step (change.op false)) := by
  cases change with
  | push v payload => exact h.cons _
  | append v payload => exact h.cons _
  | delete v =>
    simp only [Change.op, Story.step]
    split
    · exact h.cons _
    · exact h

theorem born_storyAfter (payload : P) (version : ℕ) (changes : List (Change P)) :
    Born (storyAfter payload version changes) := by
  have hrun : ∀ (changes : List (Change P)) (story : Story P), Born story →
      Born (changes.foldl (fun story change => story.step (change.op false)) story) := by
    intro changes
    induction changes with
    | nil => exact fun _ h => h
    | cons change changes ih => exact fun story h => ih _ (h.step change)
  exact hrun changes _ ⟨[], payload, version, rfl⟩

theorem step_subset (story : Story P) (change : Change P) :
    story ⊆ story.step (change.op false) := by
  cases change with
  | push => exact List.subset_cons_self _ _
  | append => exact List.subset_cons_self _ _
  | delete v =>
    simp only [Change.op, Story.step]
    split
    · exact List.subset_cons_self _ _
    · exact List.Subset.refl _

theorem foldl_subset (story : Story P) (changes : List (Change P)) :
    story ⊆ changes.foldl (fun story change => story.step (change.op false)) story := by
  induction changes generalizing story with
  | nil => exact List.Subset.refl _
  | cons change changes ih => exact fun x hx => ih _ (step_subset story change hx)

/-- The first deletion of a history puts a tombstone into the story. -/
theorem all_live_iff (changes : List (Change P)) (hne : story ≠ [])
    (hlive : ∀ x ∈ story, x.1.isSome = true) :
    (∀ x ∈ changes.foldl (fun story change => story.step (change.op false)) story,
      x.1.isSome = true) ↔ ∀ change ∈ changes, change.isDelete = false := by
  induction changes generalizing story with
  | nil => simpa using fun a b => hlive (a, b)
  | cons change changes ih =>
    rw [List.foldl_cons, List.forall_mem_cons]
    cases change with
    | delete v =>
      have hhead : story.live = true := by
        cases story with
        | nil => exact absurd rfl hne
        | cons x rest => exact hlive x List.mem_cons_self
      have hstep : story.step ((Change.delete v).op false) = (none, v) :: story := if_pos hhead
      refine iff_of_false (fun hall => ?_) fun hnone => by cases hnone.1
      rw [hstep] at hall
      cases hall _ (foldl_subset _ changes List.mem_cons_self)
    | push v payload =>
      have hrest := ih (List.cons_ne_nil (some payload, v) story)
        (List.forall_mem_cons.mpr ⟨rfl, hlive⟩)
      exact hrest.trans (and_iff_right rfl).symm
    | append v payload =>
      have hrest := ih (List.cons_ne_nil (some payload, v) story)
        (List.forall_mem_cons.mpr ⟨rfl, hlive⟩)
      exact hrest.trans (and_iff_right rfl).symm

/-- Where the oldest state is live, what comes before the first tombstone is all that
is live only if there is no tombstone. -/
theorem Born.takeWhile_eq (h : Born story)
    (heq : (story.takeWhile fun x => x.1.isSome).map Prod.snd = liveVersions story) :
    ∀ x ∈ story, x.1.isSome = true := by
  obtain ⟨newer, payload, v, rfl⟩ := h
  induction newer with
  | nil => simp
  | cons x newer ih =>
    rw [List.cons_append, liveVersions, List.takeWhile_cons, List.filter_cons] at heq
    rw [List.cons_append, List.forall_mem_cons]
    cases hx : x.1.isSome with
    | true =>
      rw [if_pos hx, if_pos hx, List.map_cons, List.map_cons] at heq
      exact ⟨rfl, ih (List.cons.inj heq).2⟩
    | false =>
      have hnot : ¬ x.1.isSome = true := ne_true_of_eq_false hx
      rw [if_neg hnot, if_neg hnot, List.map_nil, List.filter_append] at heq
      simp at heq

end Stories

/-! ## When the iterators agree -/

/-- Both iterators yield the live versions, newest first, and `len` counts them. -/
def IterateAlike (story : Story P) (weaver frugal : FrugalNode (Option P)) : Prop :=
  ∃ steps, ∀ fuel ≥ steps, ∃ ws fs,
    collect weaverNext fuel (weaverIter weaver) = .ok ws ∧
    collect frugalNext fuel (frugalIter frugal) = .ok fs ∧
    ws.map FrugalNode.insertVersion = liveVersions story ∧
    ws.map FrugalNode.insertVersion = fs.map Prod.snd ∧
    len weaverNext fuel (weaverIter weaver) = .ok (liveVersions story).length ∧
    len frugalNext fuel (frugalIter frugal) = .ok (liveVersions story).length

theorem len_of_collect {S A : Type} {next : S → Option A × S} {fuel : ℕ} {state : S}
    {items : List A} (h : collect next fuel state = .ok items) :
    len next fuel state = .ok items.length := by
  rw [len, h]
  rfl

/-- The two kinds of lists iterate alike after the histories without a deletion. -/
theorem iterate_alike_iff (skipMap : Mutable (RecordInfo P)) (payload : P) (version : ℕ)
    (changes : List (Change P)) (tosses tosses' : ℕ → Bool) :
    (∃ weaver frugal : FrugalNode (Option P),
      (history .vWeaver payload version changes tosses : Except Fault (VersionIndex skipMap)) =
        .ok (.vWeaver weaver) ∧
      (history .frugalSkipList payload version changes tosses' :
        Except Fault (VersionIndex skipMap)) = .ok (.frugalSkipList frugal) ∧
      IterateAlike (storyAfter payload version changes) weaver frugal) ↔
    ∀ change ∈ changes, change.isDelete = false := by
  obtain ⟨index, hweaver, weaver, -, hvalues, hkind⟩ :=
    lists_history skipMap .vWeaver (.inl rfl) payload version changes tosses
  obtain ⟨index', hfrugal, frugal, -, hvalues', hkind'⟩ :=
    lists_history skipMap .frugalSkipList (.inr rfl) payload version changes tosses'
  obtain rfl : index = .vWeaver weaver := by
    rcases hkind with ⟨-, h⟩ | ⟨h, -⟩
    · exact h
    · cases h
  obtain rfl : index' = .frugalSkipList frugal := by
    rcases hkind' with ⟨h, -⟩ | ⟨-, h⟩
    · cases h
    · exact h
  have hsound := all_live_iff changes (List.cons_ne_nil (some payload, version) [])
    (by simp : ∀ x ∈ [(some payload, version)], x.1.isSome = true)
  change (∀ x ∈ storyAfter payload version changes, x.1.isSome = true) ↔ _ at hsound
  rw [← hsound]
  constructor
  · rintro ⟨weaver', frugal', hw, hf, steps, hiterate⟩
    cases hweaver.symm.trans hw
    obtain ⟨ws, fs, hws, -, hlive, -⟩ :=
      hiterate (steps + (values weaver).length + 1) (by omega)
    obtain ⟨items, hitems, hversions⟩ :=
      weaver_yields weaver (show (values weaver).length < steps + (values weaver).length + 1
        by omega)
    cases hws.symm.trans hitems
    rw [hversions, hvalues] at hlive
    exact (born_storyAfter payload version changes).takeWhile_eq hlive
  · intro hall
    have htake : (storyAfter payload version changes).takeWhile (fun x => x.1.isSome) =
        storyAfter payload version changes := List.takeWhile_eq_self_iff.mpr hall
    have hfilter : (storyAfter payload version changes).filter (fun x => x.1.isSome) =
        storyAfter payload version changes := List.filter_eq_self.mpr hall
    refine ⟨weaver, frugal, hweaver, hfrugal, (storyAfter payload version changes).length + 1,
      fun fuel hfuel => ?_⟩
    obtain ⟨ws, hws, hversions⟩ :=
      weaver_yields weaver (show (values weaver).length < fuel by rw [hvalues]; omega)
    obtain ⟨fs, hfs, hversions'⟩ :=
      frugal_yields frugal (show (values frugal).length < fuel by rw [hvalues']; omega)
    rw [hvalues, htake] at hversions
    rw [hvalues'] at hversions'
    have hlive : liveVersions (storyAfter payload version changes) =
        (storyAfter payload version changes).map Prod.snd := by rw [liveVersions, hfilter]
    have hwlen : ws.length = (liveVersions (storyAfter payload version changes)).length := by
      rw [hlive, ← hversions, List.length_map]
    have hflen : fs.length = (liveVersions (storyAfter payload version changes)).length := by
      rw [← hversions', List.length_map]
    exact ⟨ws, fs, hws, hfs, hversions.trans hlive.symm, hversions.trans (hlive.symm.trans
      hversions'.symm), by rw [len_of_collect hws, hwlen], by rw [len_of_collect hfs, hflen]⟩

/-- Version 1 is behind the tombstone of version 2. -/
theorem iteration_stops_at_tombstone :
    ∃ weaver frugal : FrugalNode (Option ℕ),
      (history .vWeaver 10 1 [.delete 2, .push 3 30] (fun _ => false) :
        Except Fault (VersionIndex (sortedList (RecordInfo ℕ)))) = .ok (.vWeaver weaver) ∧
      (history .frugalSkipList 10 1 [.delete 2, .push 3 30] (fun _ => false) :
        Except Fault (VersionIndex (sortedList (RecordInfo ℕ)))) = .ok (.frugalSkipList frugal) ∧
      liveVersions (storyAfter 10 1 [.delete 2, .push 3 30]) = [3, 1] ∧
      (∃ ws, collect weaverNext 4 (weaverIter weaver) = .ok ws ∧
        ws.map FrugalNode.insertVersion = [3]) ∧
      ¬ IterateAlike (storyAfter 10 1 [.delete 2, .push 3 30]) weaver frugal := by
  refine ⟨appendNext (appendNext (FrugalList.new (some 10) 1) none 2) (some 30) 3,
    appendNext (appendNext (FrugalList.new (some 10) 1) none 2) (some 30) 3, rfl, rfl, rfl,
    weaver_yields _ (by decide), ?_⟩
  rintro ⟨steps, hiterate⟩
  obtain ⟨ws, fs, hws, -, hlive, -⟩ := hiterate (steps + 4) (by omega)
  obtain ⟨items, hitems, hversions⟩ := weaver_yields
    (appendNext (appendNext (FrugalList.new (some 10) 1) none 2) (some 30) 3)
    (show 3 < steps + 4 by omega)
  cases hws.symm.trans hitems
  have hboth : [3] = [3, 1] := hversions.symm.trans hlive
  cases hboth

end CMVBT.VersionIteration
