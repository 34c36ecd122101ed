import CMVBT.VersionChain

/-!
# All version chains tell the same story

The reference of a record is its story: the states it was set to, newest first. A
chain with tombstones holds the story itself. A list with delete versions holds
the spans of the story: each live state with the version at which it ended. The
skip map holds the same spans. So every lookup answers as the story does.
-/
namespace CMVBT.ChainRefinement
open PageModel CommitClock OrderedMap VersionChain

variable {P : Type}

/-! ## Stories -/

/-- Stories that operations can tell: a record is born live, and only a live record
dies. -/
inductive Told : Story P → Prop
  | born {p : P} {v : ℕ} : v < 2 ^ 63 → Told [(some p, v)]
  | write {p : P} {v w : ℕ} {x : Option P} {rest : Story P} : Told ((x, w) :: rest) → w < v →
      v < 2 ^ 63 → Told ((some p, v) :: (x, w) :: rest)
  | die {q : P} {v w : ℕ} {rest : Story P} : Told ((some q, w) :: rest) → w < v →
      v < 2 ^ 63 → Told ((none, v) :: (some q, w) :: rest)

namespace Told
variable {story : Story P}

theorem head_version_lt {x : Option P × ℕ} {rest : Story P} (h : Told (x :: rest)) :
    x.2 < 2 ^ 63 := by
  cases h <;> assumption

theorem descending (h : Told story) : story.Pairwise (fun x y => y.2 < x.2) := by
  have hcons : ∀ {v w : ℕ} {x y : Option P} {rest : Story P}, w < v →
      ((x, w) :: rest).Pairwise (fun x y : Option P × ℕ => y.2 < x.2) →
      ((y, v) :: (x, w) :: rest).Pairwise (fun x y : Option P × ℕ => y.2 < x.2) := by
    intro v w x y rest hlt hrest
    refine List.pairwise_cons.mpr ⟨fun z hz => ?_, hrest⟩
    rcases List.mem_cons.mp hz with rfl | hz
    · exact hlt
    · exact ((List.pairwise_cons.mp hrest).1 z hz).trans hlt
  induction h with
  | born => exact List.pairwise_singleton _ _
  | write _ hlt _ ih => exact hcons hlt ih
  | die _ hlt _ ih => exact hcons hlt ih

theorem version_lt (h : Told story) : ∀ x ∈ story, x.2 < 2 ^ 63 := by
  intro x hx
  cases story with
  | nil => cases hx
  | cons y rest =>
    have hy := h.head_version_lt
    rcases List.mem_cons.mp hx with rfl | hx
    · exact hy
    · exact ((List.pairwise_cons.mp h.descending).1 x hx).trans hy

/-- The first state of a record is a live one. -/
theorem oldest (h : Told story) : ∃ p v newer, story.reverse = (some p, v) :: newer := by
  induction h with
  | @born p v _ => exact ⟨p, v, [], rfl⟩
  | @write p v w x rest _ _ _ ih =>
    obtain ⟨q, u, newer, hq⟩ := ih
    exact ⟨q, u, newer ++ [(some p, v)], by rw [List.reverse_cons, hq]; rfl⟩
  | @die q v w rest _ _ _ ih =>
    obtain ⟨q', u, newer, hq⟩ := ih
    exact ⟨q', u, newer ++ [(none, v)], by rw [List.reverse_cons, hq]; rfl⟩

theorem set (h : Told story) {p : P} {v : ℕ} (hnew : ∀ x ∈ story, x.2 < v) (hv : v < 2 ^ 63) :
    Told ((some p, v) :: story) := by
  cases story with
  | nil => cases h
  | cons x rest => exact .write h (hnew x List.mem_cons_self) hv

theorem delete (h : Told story) (hlive : story.live = true) {v : ℕ} (hnew : ∀ x ∈ story, x.2 < v)
    (hv : v < 2 ^ 63) : Told ((none, v) :: story) := by
  cases h with
  | born => exact .die (.born ‹_›) (hnew _ List.mem_cons_self) hv
  | write h' hlt hv' => exact .die (.write h' hlt hv') (hnew _ List.mem_cons_self) hv
  | die => cases hlive

end Told

/-! ## Chains with tombstones -/

section Chains
open FrugalList

/-- The chain holds the story, and towers are not higher than there are versions. -/
structure ChainHolds (story : Story P) (head : FrugalNode (Option P)) : Prop where
  chain : Chain head story
  level : head.level = sentinelLevel ∨ head.level ≤ head.insertVersion

variable {story : Story P} {head : FrugalNode (Option P)}

theorem ChainHolds.append (h : ChainHolds story head) {p : Option P} {v : ℕ}
    (hnew : ∀ x ∈ story, x.2 < v) (hv : v < 2 ^ 63) (toss : Bool) :
    ∃ head', appendChain head p v toss = .ok head' ∧ ChainHolds ((p, v) :: story) head' := by
  obtain ⟨t, ht⟩ := h.chain.head
  have hhead : head.insertVersion < v := hnew head.value (by simp [ht])
  cases toss with
  | false =>
    refine ⟨_, rfl, .cons h.chain h.chain (List.suffix_refl _) hnew ?_, .inr ?_⟩
    · simp [flatLevel, sentinelLevel]
    · exact Nat.zero_le _
  | true =>
    -- above the sentinel the level wraps to zero, elsewhere it is too small to wrap
    have hlevel : (head.level + 1) % 2 ^ 64 ≤ v := by
      rcases h.level with heq | hle
      · rw [heq]
        exact Nat.zero_le _
      · omega
    have hlt : (head.level + 1) % 2 ^ 64 < sentinelLevel := by
      unfold sentinelLevel
      omega
    obtain ⟨r, l', hr, hc, hsuf⟩ := h.chain.towerFrom hlt.le
    refine ⟨_, ?_, .cons h.chain hc hsuf hnew hlt, .inr hlevel⟩
    simp only [appendChain, VersionChain.appendTower, FrugalList.appendTower, hr]
    rfl

theorem ChainHolds.isLive (h : ChainHolds story head) : chainIsLive head = story.live := by
  obtain ⟨t, ht⟩ := h.chain.head
  rw [ht]
  rfl

theorem ChainHolds.delete (h : ChainHolds story head) {v : ℕ} (hnew : ∀ x ∈ story, x.2 < v)
    (hv : v < 2 ^ 63) (toss : Bool) :
    ∃ head', deleteChain head v toss = .ok head' ∧
      ChainHolds (if story.live then (none, v) :: story else story) head' := by
  unfold deleteChain
  rw [h.isLive]
  cases story.live with
  | true => exact h.append hnew hv toss
  | false => exact ⟨head, rfl, h⟩

theorem chain_find (hc : Chain head story) (v : ℕ) :
    (do VersionIndex.foundNode (← findChain head v)) = .ok (story.liveAt v) := by
  obtain ⟨res, hres, hval⟩ := hc.findFrom v
  simp only [findChain, hres]
  change VersionIndex.foundNode (res.filter chainIsLive) = _
  unfold Story.liveAt
  rw [← hval]
  cases res with
  | none => rfl
  | some node =>
    obtain ⟨next, vRidgy, payload, version, level⟩ := node
    cases payload <;> rfl

theorem ChainHolds.find (h : ChainHolds story head) (v : ℕ) :
    (do VersionIndex.foundNode (← findChain head v)) = .ok (story.liveAt v) := chain_find h.chain v

theorem ChainHolds.replay {newer : List (Option P × ℕ)} (h : ChainHolds story head)
    (hasc : (newer.reverse ++ story).Pairwise (fun x y => y.2 < x.2))
    (hv : ∀ x ∈ newer, x.2 < 2 ^ 63) (tosses : ℕ → Bool) :
    ∃ head', replay tosses newer head = .ok head' ∧ ChainHolds (newer.reverse ++ story) head' := by
  induction newer generalizing story head tosses with
  | nil => exact ⟨head, rfl, h⟩
  | cons x newer ih =>
    obtain ⟨p, v⟩ := x
    have hsplit : ((p, v) :: newer).reverse ++ story = newer.reverse ++ (p, v) :: story := by simp
    rw [hsplit] at hasc ⊢
    have hnew : ∀ y ∈ story, y.2 < v :=
      (List.pairwise_cons.mp (List.pairwise_append.mp hasc).2.1).1
    obtain ⟨head₁, hstep, h₁⟩ := h.append hnew (hv _ List.mem_cons_self) (tosses 0) (p := p)
    obtain ⟨head₂, hrest, h₂⟩ := ih h₁ hasc (fun y hy => hv y (List.mem_cons_of_mem _ hy))
      (fun i => tosses (i + 1))
    refine ⟨head₂, ?_, h₂⟩
    simp only [VersionChain.replay, hstep]
    exact hrest

/-- The copy of a frugal list has other towers and holds the same story. -/
theorem ChainHolds.clone (h : ChainHolds story head) (htold : Told story) (tosses : ℕ → Bool) :
    ∃ head', cloneFrugal tosses head = .ok head' ∧ ChainHolds story head' := by
  obtain ⟨p, v, newer, hrev⟩ := htold.oldest
  have hstory : story = newer.reverse ++ [(some p, v)] := by
    rw [← List.reverse_reverse story, hrev]
    simp
  have hstart : ChainHolds [(some p, v)] (FrugalList.new (some p) v) := ⟨.sentinel _ _, .inl rfl⟩
  have hbelow : ∀ x ∈ newer, x.2 < 2 ^ 63 := fun x hx =>
    htold.version_lt x (by rw [hstory]; simp [hx])
  obtain ⟨head', hreplay, hholds⟩ := hstart.replay (by rw [← hstory]; exact htold.descending)
    hbelow tosses
  refine ⟨head', ?_, hstory ▸ hholds⟩
  simp only [cloneFrugal, h.chain.values, hrev]
  exact hreplay

end Chains

/-! ## Lists of spans -/

/-- The live states of a story with their ends; `d` is the end of the newest state. -/
def spans : Story P → ℕ → List (VersionedEntry P)
  | [], _ => []
  | (some p, w) :: rest, d => ⟨p, w, d⟩ :: spans rest w
  | (none, w) :: rest, _ => spans rest w

theorem mem_story_of_spans {story : Story P} {d : ℕ} {e : VersionedEntry P}
    (he : e ∈ spans story d) : (some e.payload, e.insertVersion) ∈ story := by
  induction story generalizing d with
  | nil => cases he
  | cons x rest ih =>
    obtain ⟨_ | p, w⟩ := x
    · exact List.mem_cons_of_mem _ (ih he)
    · rcases List.mem_cons.mp he with rfl | he
      · exact List.mem_cons_self
      · exact List.mem_cons_of_mem _ (ih he)

/-- No span reaches beyond the end. -/
theorem delVersion_le {story : Story P} (hdesc : story.Pairwise (fun x y => y.2 < x.2)) {d : ℕ}
    (hd : ∀ x ∈ story, x.2 < d) {e : VersionedEntry P} (he : e ∈ spans story d) :
    e.delVersion ≤ d := by
  induction story generalizing d with
  | nil => cases he
  | cons x rest ih =>
    obtain ⟨hx, hrest⟩ := List.pairwise_cons.mp hdesc
    have hlt := hd x List.mem_cons_self
    obtain ⟨_ | p, w⟩ := x
    · exact (ih hrest hx he).trans hlt.le
    · rcases List.mem_cons.mp he with rfl | he
      · exact le_rfl
      · exact (ih hrest hx he).trans hlt.le

/-- A lookup among the spans answers as the story does. -/
theorem find_spans {story : Story P} (hdesc : story.Pairwise (fun x y => y.2 < x.2)) {d v : ℕ}
    (hv : v < d) :
    ((spans story d).find? (fun e => decide (e.insertVersion ≤ v ∧ v < e.delVersion))).map
      (fun e => (e.insertVersion, e.payload)) = story.liveAt v := by
  induction story generalizing d with
  | nil => rfl
  | cons x rest ih =>
    obtain ⟨hx, hrest⟩ := List.pairwise_cons.mp hdesc
    obtain ⟨y, w⟩ := x
    by_cases hw : w ≤ v
    · have hat : Story.liveAt ((y, w) :: rest) v = y.map (fun p => (w, p)) := by
        cases y <;> simp [Story.liveAt, hw]
      rw [hat]
      cases y with
      | some p => simp [spans, hw, hv]
      | none =>
        -- everything older has ended at `w`
        have hnone : (spans rest w).find?
            (fun e => decide (e.insertVersion ≤ v ∧ v < e.delVersion)) = none := by
          rw [List.find?_eq_none]
          intro e he
          have hle := delVersion_le hrest hx he
          simp only [decide_eq_true_eq, not_and, not_lt]
          exact fun _ => hle.trans hw
        rw [spans, hnone]
        rfl
    · have hat : Story.liveAt ((y, w) :: rest) v = Story.liveAt rest v := by
        simp [Story.liveAt, hw]
      rw [hat, ← ih hrest (Nat.lt_of_not_le hw)]
      cases y with
      | some p => simp [spans, hw]
      | none => rfl

/-- The list holds the spans of the story. -/
def ListHolds (story : Story P) (list : VersionList P) : Prop :=
  list.entries = spans story versionMax

section Lists
variable {story : Story P} {list : VersionList P}

/-- The head of a list is the newest live state, with its end. -/
theorem ListHolds.head (h : ListHolds story list) (htold : Told story) :
    (∃ rest p w, story = (some p, w) :: rest ∧ list = ⟨⟨p, w, versionMax⟩, spans rest w⟩ ∧
      story.live = true) ∨
    ∃ rest p w d, story = (none, d) :: (some p, w) :: rest ∧ list = ⟨⟨p, w, d⟩, spans rest w⟩ ∧
      d < 2 ^ 63 ∧ story.live = false := by
  obtain ⟨head, older⟩ := list
  cases htold with
  | @born p v _ =>
    obtain ⟨rfl, rfl⟩ := List.cons.inj h
    exact .inl ⟨[], p, v, rfl, rfl, rfl⟩
  | @write p v w x rest _ _ _ =>
    obtain ⟨rfl, rfl⟩ := List.cons.inj h
    exact .inl ⟨_, p, v, rfl, rfl, rfl⟩
  | @die q v w rest _ _ hv =>
    obtain ⟨rfl, rfl⟩ := List.cons.inj h
    exact .inr ⟨rest, q, w, v, rfl, rfl, hv, rfl⟩

theorem ne_versionMax {d : ℕ} (h : d < 2 ^ 63) : d ≠ versionMax := by
  unfold versionMax
  omega

theorem ListHolds.append (h : ListHolds story list) (htold : Told story) (p : P) (v : ℕ) :
    ListHolds ((some p, v) :: story) (list.append v p) := by
  rcases h.head htold with ⟨rest, q, w, rfl, rfl, -⟩ | ⟨rest, q, w, d, rfl, rfl, hd, -⟩
  · simp [ListHolds, VersionList.append, VersionList.entries, spans]
  · simp [ListHolds, VersionList.append, VersionList.entries, spans, ne_versionMax hd]

theorem ListHolds.isLive (h : ListHolds story list) (htold : Told story) :
    list.isLive = story.live := by
  rcases h.head htold with ⟨rest, q, w, -, rfl, hlive⟩ | ⟨rest, q, w, d, -, rfl, hd, hlive⟩
  · simp [hlive, VersionList.isLive]
  · simp [hlive, VersionList.isLive, ne_versionMax hd]

theorem ListHolds.delete (h : ListHolds story list) (htold : Told story) {v : ℕ}
    (hnew : ∀ x ∈ story, x.2 < v) :
    ListHolds (if story.live then (none, v) :: story else story) (list.delete v) := by
  rcases h.head htold with ⟨rest, q, w, rfl, rfl, hlive⟩ | ⟨rest, q, w, d, rfl, rfl, hd, hlive⟩
  · have hw : w < v := hnew _ List.mem_cons_self
    rw [if_pos hlive]
    simp [ListHolds, VersionList.delete, VersionList.entries, spans, hw]
  · rw [if_neg (by simp [hlive])]
    simp [ListHolds, VersionList.delete, VersionList.entries, spans, ne_versionMax hd]

theorem ListHolds.find (h : ListHolds story list) (htold : Told story) {v : ℕ} (hv : v < 2 ^ 63) :
    (list.find v).map (fun e => (e.insertVersion, e.payload)) = story.liveAt v := by
  rw [VersionList.find, h]
  refine find_spans htold.descending ?_
  unfold versionMax
  omega

/-- The deep copy is the list. -/
theorem clone_entries (list : VersionList P) : list.clone = list.entries := by
  have hcopy : ∀ (l : List (VersionedEntry P)) (acc : List (VersionedEntry P)),
      l.foldl (fun copy e => (⟨e.payload, e.insertVersion, e.delVersion⟩ : VersionedEntry P) :: copy)
        acc = l.reverse ++ acc := by
    intro l
    induction l with
    | nil => exact fun _ => rfl
    | cons e l ih =>
      intro acc
      rw [List.foldl_cons, ih]
      simp
  rw [VersionList.clone, hcopy]
  simp

end Lists

/-! ## Skip maps -/

/-- An entry of a list as a value of the skip map. -/
def info (e : VersionedEntry P) : RecordInfo P :=
  ⟨if e.delVersion = versionMax then .newNull else .new e.delVersion, e.payload⟩

/-- The map holds the entries of the list. -/
def SkipHolds (skipMap : Mutable (RecordInfo P)) (map : skipMap.Carrier) (list : VersionList P) :
    Prop :=
  ∀ k i, skipMap.get map k = some i ↔ ∃ e ∈ list.entries, e.insertVersion = k ∧ info e = i

/-- Newest entry first, and every entry is live or ended at a proper version. -/
structure Stacked (list : VersionList P) : Prop where
  descending : list.entries.Pairwise (fun a b => b.insertVersion < a.insertVersion)
  ends : ∀ e ∈ list.entries, e.delVersion = versionMax ∨ e.delVersion < 2 ^ 63

theorem spans_descending {story : Story P} (hdesc : story.Pairwise (fun x y => y.2 < x.2)) (d : ℕ) :
    (spans story d).Pairwise (fun a b => b.insertVersion < a.insertVersion) := by
  induction story generalizing d with
  | nil => exact List.Pairwise.nil
  | cons x rest ih =>
    obtain ⟨hx, hrest⟩ := List.pairwise_cons.mp hdesc
    obtain ⟨_ | p, w⟩ := x
    · exact ih hrest w
    · exact List.pairwise_cons.mpr ⟨fun e he => hx _ (mem_story_of_spans he), ih hrest w⟩

theorem spans_ends {story : Story P} {d : ℕ} (hd : d = versionMax ∨ d < 2 ^ 63)
    (hv : ∀ x ∈ story, x.2 < 2 ^ 63) :
    ∀ e ∈ spans story d, e.delVersion = versionMax ∨ e.delVersion < 2 ^ 63 := by
  induction story generalizing d with
  | nil =>
    intro e he
    cases he
  | cons x rest ih =>
    have htail := ih (d := x.2) (.inr (hv x List.mem_cons_self))
      (fun y hy => hv y (List.mem_cons_of_mem _ hy))
    obtain ⟨_ | p, w⟩ := x
    · exact htail
    · intro e he
      rcases List.mem_cons.mp he with rfl | he
      · exact hd
      · exact htail e he

/-- The newest span that has begun is the only one that may be live. -/
theorem find_begun {story : Story P} (hdesc : story.Pairwise (fun x y => y.2 < x.2)) (d v : ℕ) :
    ((spans story d).find? (fun e => decide (e.insertVersion ≤ v))).filter
      (fun e => decide (v < e.delVersion)) =
    (spans story d).find? (fun e => decide (e.insertVersion ≤ v ∧ v < e.delVersion)) := by
  induction story generalizing d with
  | nil => rfl
  | cons x rest ih =>
    obtain ⟨hx, hrest⟩ := List.pairwise_cons.mp hdesc
    obtain ⟨_ | p, w⟩ := x
    · exact ih hrest w
    by_cases hw : w ≤ v
    · by_cases hd : v < d
      · simp [spans, hw, hd]
      · have hnone : (spans rest w).find?
            (fun e => decide (e.insertVersion ≤ v ∧ v < e.delVersion)) = none := by
          rw [List.find?_eq_none]
          intro e he
          have hle := delVersion_le hrest hx he
          simp only [decide_eq_true_eq, not_and, not_lt]
          exact fun _ => hle.trans hw
        rw [spans, List.find?_cons_of_pos (by simpa using hw), List.find?_cons_of_neg (by simp [hd]),
          hnone]
        simp [Nat.le_of_not_lt hd]
    · rw [spans, List.find?_cons_of_neg (by simpa using hw), List.find?_cons_of_neg (by simp [hw])]
      exact ih hrest w

theorem ListHolds.find_begun {story : Story P} {list : VersionList P} (h : ListHolds story list)
    (htold : Told story) (v : ℕ) :
    (list.entries.find? (fun e => decide (e.insertVersion ≤ v))).filter
      (fun e => decide (v < e.delVersion)) = list.find v := by
  rw [VersionList.find, h]
  exact ChainRefinement.find_begun htold.descending versionMax v

theorem ListHolds.stacked {story : Story P} {list : VersionList P} (h : ListHolds story list)
    (htold : Told story) : Stacked list := by
  refine ⟨?_, ?_⟩
  · rw [h]
    exact spans_descending htold.descending _
  · rw [h]
    exact spans_ends (.inl rfl) htold.version_lt

section SkipLists
variable {skipMap : Mutable (RecordInfo P)} {map : skipMap.Carrier} {list : VersionList P}

theorem get_info_delVersion {e : VersionedEntry P}
    (he : e.delVersion = versionMax ∨ e.delVersion < 2 ^ 63) :
    (info e).delVersion.get = if e.delVersion = versionMax then none else some e.delVersion := by
  unfold info
  rcases he with heq | hlt
  · simp [heq]
  · simp [ne_versionMax hlt, DeletedVersionInfo.get_new hlt]

/-- The entry with the greatest key that passes a test. -/
theorem SkipHolds.greatest (h : SkipHolds skipMap map list) (hst : Stacked list)
    {keys : ℕ → Prop} [DecidablePred keys] {e : VersionedEntry P}
    (he : list.entries.find? (fun e => decide (keys e.insertVersion)) = some e) :
    Greatest (skipMap.get map) keys (e.insertVersion, info e) := by
  obtain ⟨hkey, pre, post, hsplit, hpre⟩ := List.find?_eq_some_iff_append.mp he
  refine ⟨(h _ _).mpr ⟨e, List.mem_of_find?_eq_some he, rfl, rfl⟩, by simpa using hkey, ?_⟩
  intro k hk hget
  obtain ⟨i, hi⟩ := Option.ne_none_iff_exists'.mp hget
  obtain ⟨e', he', rfl, -⟩ := (h k i).mp hi
  rw [hsplit] at he'
  rcases List.mem_append.mp he' with hin | hin
  · exact absurd hk (by simpa using hpre e' hin)
  rcases List.mem_cons.mp hin with rfl | hin
  · exact le_rfl
  · have hdesc := hst.descending
    rw [hsplit] at hdesc
    exact ((List.pairwise_cons.mp (List.pairwise_append.mp hdesc).2.1).1 e' hin).le

theorem SkipHolds.last (h : SkipHolds skipMap map list) (hst : Stacked list) :
    skipMap.last map = some (list.head.insertVersion, info list.head) :=
  (skipMap.last_eq map _).mpr (h.greatest hst rfl)

/-- A lookup in the map answers as a lookup in the list. -/
theorem SkipHolds.find (h : SkipHolds skipMap map list) (hst : Stacked list)
    (hends : ∀ v, (list.entries.find? (fun e => decide (e.insertVersion ≤ v))).filter
      (fun e => decide (v < e.delVersion)) = list.find v) {v : ℕ} (hv : v < 2 ^ 63) :
    findSkip skipMap map v = (list.find v).map (fun e => (e.insertVersion, e.payload)) := by
  rw [← hends v]
  cases hfind : list.entries.find? (fun e => decide (e.insertVersion ≤ v)) with
  | none =>
    have hfloor : skipMap.floor map v = none := by
      by_contra hne
      obtain ⟨x, hx⟩ := Option.ne_none_iff_exists'.mp hne
      obtain ⟨hget, hle, -⟩ := (skipMap.floor_eq map v x).mp hx
      obtain ⟨e, he, hkey, -⟩ := (h _ _).mp hget
      have hnot := List.find?_eq_none.mp hfind e he
      simp [hkey, hle] at hnot
    simp [findSkip, hfloor]
  | some e =>
    have hfloor := (skipMap.floor_eq map v _).mpr (h.greatest hst hfind)
    have hle : e.insertVersion ≤ v := by simpa using List.find?_some hfind
    have hend := hst.ends e (List.mem_of_find?_eq_some hfind)
    simp only [findSkip, hfloor, get_info_delVersion hend]
    rcases hend with heq | hlt
    · have hmax : v < versionMax := by
        unfold versionMax
        omega
      simp [heq, hle, hmax, info]
    · by_cases hvd : v < e.delVersion
      · simp [ne_versionMax hlt, hle, hvd, info]
      · simp [ne_versionMax hlt, hvd, Nat.le_of_not_lt hvd]

/-- Ending the newest state in the map. -/
theorem SkipHolds.markDeleted (h : SkipHolds skipMap map list) (hst : Stacked list) {v : ℕ}
    (hv : v < 2 ^ 63) :
    SkipHolds skipMap (markDeleted skipMap map list.head.insertVersion v)
      { list with head := { list.head with delVersion := v } } := by
  have holder : ∀ e ∈ list.older, e.insertVersion ≠ list.head.insertVersion := fun e he =>
    ((List.pairwise_cons.mp hst.descending).1 e he).ne
  have hhead : skipMap.get map list.head.insertVersion = some (info list.head) :=
    (h _ _).mpr ⟨list.head, List.mem_cons_self, rfl, rfl⟩
  have hended : info { list.head with delVersion := v } =
      { info list.head with delVersion := .new v } := by
    simp [info, ne_versionMax hv]
  intro k i
  rw [VersionChain.markDeleted, skipMap.get_modify]
  by_cases hk : k = list.head.insertVersion
  · subst hk
    rw [if_pos rfl, hhead, Option.map_some, Option.some.injEq]
    constructor
    · rintro rfl
      exact ⟨_, List.mem_cons_self, rfl, hended⟩
    · rintro ⟨e, he, hkey, rfl⟩
      rcases List.mem_cons.mp he with rfl | he
      · exact hended.symm
      · exact absurd hkey (holder e he)
  · rw [if_neg hk, h]
    constructor
    · rintro ⟨e, he, hkey, hi⟩
      rcases List.mem_cons.mp he with rfl | he
      · exact absurd hkey.symm hk
      · exact ⟨e, List.mem_cons_of_mem _ he, hkey, hi⟩
    · rintro ⟨e, he, hkey, hi⟩
      rcases List.mem_cons.mp he with rfl | he
      · exact absurd hkey.symm hk
      · exact ⟨e, List.mem_cons_of_mem _ he, hkey, hi⟩

/-- Putting a new state into the map. -/
theorem SkipHolds.insert (h : SkipHolds skipMap map list)
    {v : ℕ} (hnew : ∀ e ∈ list.entries, e.insertVersion < v) (p : P) :
    SkipHolds skipMap (skipMap.insert map v (.new p)).1 ⟨⟨p, v, versionMax⟩, list.entries⟩ := by
  have hfresh : skipMap.get map v = none := by
    by_contra hne
    obtain ⟨i, hi⟩ := Option.ne_none_iff_exists'.mp hne
    obtain ⟨e, he, hkey, -⟩ := (h v i).mp hi
    exact (hnew e he).ne hkey
  intro k i
  rw [skipMap.get_insert map v _ hfresh]
  by_cases hk : k = v
  · subst hk
    rw [if_pos rfl, Option.some.injEq]
    constructor
    · rintro rfl
      exact ⟨_, List.mem_cons_self, rfl, by simp [info, RecordInfo.new]⟩
    · rintro ⟨e, he, hkey, rfl⟩
      rcases List.mem_cons.mp he with rfl | he
      · simp [info, RecordInfo.new]
      · exact absurd hkey (hnew e he).ne
  · rw [if_neg hk, h]
    constructor
    · rintro ⟨e, he, hkey, hi⟩
      exact ⟨e, List.mem_cons_of_mem _ he, hkey, hi⟩
    · rintro ⟨e, he, hkey, hi⟩
      rcases List.mem_cons.mp he with rfl | he
      · exact absurd hkey.symm hk
      · exact ⟨e, he, hkey, hi⟩

theorem SkipHolds.last_live (h : SkipHolds skipMap map list) (hst : Stacked list) :
    skipMap.last map = some (list.head.insertVersion, info list.head) ∧
      ((info list.head).delVersion.get = none ↔ list.head.delVersion = versionMax) := by
  refine ⟨h.last hst, ?_⟩
  rw [get_info_delVersion (hst.ends _ List.mem_cons_self)]
  split <;> simp_all

theorem SkipHolds.push (h : SkipHolds skipMap map list) (hst : Stacked list) {v : ℕ}
    (hnew : ∀ e ∈ list.entries, e.insertVersion < v) (hv : v < 2 ^ 63) (p : P) :
    ∃ map', pushSkip skipMap map v p = .ok map' ∧ SkipHolds skipMap map' (list.append v p) := by
  obtain ⟨hlast, hlive⟩ := h.last_live hst
  refine ⟨_, by simp only [pushSkip, hlast]; rfl, ?_⟩
  by_cases hd : list.head.delVersion = versionMax
  · rw [if_pos (by simp [hlive.mpr hd])]
    have hnew' : ∀ e ∈ VersionList.entries { list with head := { list.head with delVersion := v } },
        e.insertVersion < v := by
      intro e he
      rcases List.mem_cons.mp he with rfl | he
      · exact hnew list.head List.mem_cons_self
      · exact hnew e (List.mem_cons_of_mem _ he)
    simpa [VersionList.append, VersionList.entries, hd] using
      (h.markDeleted hst hv).insert hnew' p
  · rw [if_neg (by simpa using fun hnone => hd (hlive.mp hnone))]
    simpa [VersionList.append, VersionList.entries, hd] using h.insert hnew p

theorem SkipHolds.append (h : SkipHolds skipMap map list) (hst : Stacked list) {v : ℕ}
    (hnew : ∀ e ∈ list.entries, e.insertVersion < v) (hv : v < 2 ^ 63) (p : P)
    (hd : list.head.delVersion = versionMax) :
    ∃ map', appendSkip skipMap map v p = .ok map' ∧ SkipHolds skipMap map' (list.append v p) := by
  obtain ⟨hlast, hlive⟩ := h.last_live hst
  obtain ⟨map', hpush, hholds⟩ := h.push hst hnew hv p
  refine ⟨map', ?_, hholds⟩
  rw [← hpush]
  simp [appendSkip, pushSkip, hlast, hlive.mpr hd]

theorem SkipHolds.delete (h : SkipHolds skipMap map list) (hst : Stacked list) {v : ℕ}
    (hv : v < 2 ^ 63) :
    ∃ map', deleteSkip skipMap map v = .ok map' ∧ SkipHolds skipMap map' (list.delete v) := by
  obtain ⟨hlast, hlive⟩ := h.last_live hst
  simp only [deleteSkip, hlast, hlive, VersionList.delete]
  split
  · exact ⟨_, rfl, h.markDeleted hst hv⟩
  · exact ⟨map, rfl, h⟩

theorem SkipHolds.isLive (h : SkipHolds skipMap map list) (hst : Stacked list) :
    skipIsLive skipMap map = .ok list.isLive := by
  obtain ⟨hlast, hlive⟩ := h.last_live hst
  simp only [skipIsLive, hlast, VersionList.isLive]
  by_cases hd : list.head.delVersion = versionMax
  · simp [hlive.mpr hd, hd]
  · have hsome : ¬ (info list.head).delVersion.get = none := fun hnone => hd (hlive.mp hnone)
    simp [hd, Option.isSome_iff_ne_none, hsome]

end SkipLists

/-! ## Indexes -/

section Index
variable {skipMap : Mutable (RecordInfo P)} {story : Story P} {index : VersionIndex skipMap}

/-- The index holds the story of a record. -/
def Holds (story : Story P) : VersionIndex skipMap → Prop
  | .vanilla list => ListHolds story list
  | .frugalSkipList head => ChainHolds story head
  | .vWeaver head => ChainHolds story head
  | .skipList map => ∃ list, ListHolds story list ∧ SkipHolds skipMap map list

theorem ListHolds.new_version {list : VersionList P} (h : ListHolds story list) {v : ℕ}
    (hnew : ∀ x ∈ story, x.2 < v) : ∀ e ∈ list.entries, e.insertVersion < v := by
  intro e he
  rw [h] at he
  exact hnew _ (mem_story_of_spans he)

theorem Holds.find (h : Holds story index) (htold : Told story) {v : ℕ} (hv : v < 2 ^ 63) :
    index.find v = .ok (story.liveAt v) := by
  cases index with
  | vanilla list => exact congrArg Except.ok (ListHolds.find h htold hv)
  | frugalSkipList head => exact ChainHolds.find h v
  | vWeaver head => exact ChainHolds.find h v
  | skipList map =>
    obtain ⟨list, hlist, hskip⟩ := h
    refine congrArg Except.ok ?_
    rw [hskip.find (hlist.stacked htold) (hlist.find_begun htold) hv, hlist.find htold hv]

theorem Holds.isLive (h : Holds story index) (htold : Told story) :
    index.isLive = .ok story.live := by
  cases index with
  | vanilla list => exact congrArg Except.ok (ListHolds.isLive h htold)
  | frugalSkipList head => exact congrArg Except.ok (ChainHolds.isLive h)
  | vWeaver head => exact congrArg Except.ok (ChainHolds.isLive h)
  | skipList map =>
    obtain ⟨list, hlist, hskip⟩ := h
    exact (hskip.isLive (hlist.stacked htold)).trans (congrArg Except.ok (hlist.isLive htold))

theorem Holds.push (h : Holds story index) (htold : Told story) {v : ℕ}
    (hnew : ∀ x ∈ story, x.2 < v) (hv : v < 2 ^ 63) (p : P) (toss : Bool) :
    ∃ index', index.push v p toss = .ok index' ∧ Holds ((some p, v) :: story) index' := by
  cases index with
  | vanilla list => exact ⟨_, rfl, ListHolds.append h htold p v⟩
  | frugalSkipList head =>
    obtain ⟨head', hstep, h'⟩ := ChainHolds.append h hnew hv toss (p := some p)
    exact ⟨.frugalSkipList head', by simp only [VersionIndex.push, hstep]; rfl, h'⟩
  | vWeaver head =>
    obtain ⟨head', hstep, h'⟩ := ChainHolds.append h hnew hv toss (p := some p)
    exact ⟨.vWeaver head', by simp only [VersionIndex.push, hstep]; rfl, h'⟩
  | skipList map =>
    obtain ⟨list, hlist, hskip⟩ := h
    obtain ⟨map', hstep, h'⟩ := hskip.push (hlist.stacked htold) (hlist.new_version hnew) hv p
    exact ⟨.skipList map', by simp only [VersionIndex.push, hstep]; rfl, _, hlist.append htold p v, h'⟩

/-- On a live record `append` does what `push` does. -/
theorem Holds.append (h : Holds story index) (htold : Told story) (hlive : story.live = true)
    {v : ℕ} (hnew : ∀ x ∈ story, x.2 < v) (hv : v < 2 ^ 63) (p : P) (toss : Bool) :
    ∃ index', index.append v p toss = .ok index' ∧ Holds ((some p, v) :: story) index' := by
  cases index with
  | vanilla list => exact h.push htold hnew hv p toss
  | frugalSkipList head => exact h.push htold hnew hv p toss
  | vWeaver head => exact h.push htold hnew hv p toss
  | skipList map =>
    obtain ⟨list, hlist, hskip⟩ := h
    have hd : list.head.delVersion = versionMax := by
      have := (hlist.isLive htold).trans hlive
      simpa [VersionList.isLive] using this
    obtain ⟨map', hstep, h'⟩ := hskip.append (hlist.stacked htold) (hlist.new_version hnew) hv p hd
    exact ⟨.skipList map', by simp only [VersionIndex.append, hstep]; rfl, _,
      hlist.append htold p v, h'⟩

theorem Holds.delete (h : Holds story index) (htold : Told story) {v : ℕ}
    (hnew : ∀ x ∈ story, x.2 < v) (hv : v < 2 ^ 63) (toss : Bool) :
    ∃ index', index.delete v toss = .ok index' ∧
      Holds (if story.live then (none, v) :: story else story) index' := by
  cases index with
  | vanilla list => exact ⟨_, rfl, ListHolds.delete h htold hnew⟩
  | frugalSkipList head =>
    obtain ⟨head', hstep, h'⟩ := ChainHolds.delete h hnew hv toss
    exact ⟨.frugalSkipList head', by simp only [VersionIndex.delete, hstep]; rfl, h'⟩
  | vWeaver head =>
    obtain ⟨head', hstep, h'⟩ := ChainHolds.delete h hnew hv toss
    exact ⟨.vWeaver head', by simp only [VersionIndex.delete, hstep]; rfl, h'⟩
  | skipList map =>
    obtain ⟨list, hlist, hskip⟩ := h
    obtain ⟨map', hstep, h'⟩ := hskip.delete (hlist.stacked htold) hv
    exact ⟨.skipList map', by simp only [VersionIndex.delete, hstep]; rfl, _,
      hlist.delete htold hnew, h'⟩

theorem Holds.clone (h : Holds story index) (htold : Told story) (tosses : ℕ → Bool) :
    ∃ index', index.clone tosses = .ok index' ∧ Holds story index' := by
  cases index with
  | vanilla list =>
    refine ⟨.vanilla list, ?_, h⟩
    simp only [VersionIndex.clone, clone_entries, VersionList.entries]
  | frugalSkipList head =>
    obtain ⟨head', hstep, h'⟩ := ChainHolds.clone h htold tosses
    exact ⟨.frugalSkipList head', by simp only [VersionIndex.clone, hstep]; rfl, h'⟩
  | vWeaver head => exact ⟨_, rfl, h⟩
  | skipList map => exact ⟨_, rfl, h⟩

theorem holds_new (kind : VersionIndexType) (p : P) (v : ℕ) :
    Holds [(some p, v)] (VersionIndex.new kind p v : VersionIndex skipMap) := by
  cases kind with
  | vanilla => rfl
  | frugalSkipList => exact ⟨.sentinel _ _, .inl rfl⟩
  | vWeaver => exact ⟨.sentinel _ _, .inl rfl⟩
  | skipList =>
    refine ⟨.new p v none, rfl, fun k i => ?_⟩
    rw [skipMap.get_insert _ _ _ (skipMap.get_empty v), skipMap.get_empty]
    simp only [VersionList.new, VersionList.entries, List.mem_singleton, exists_eq_left]
    constructor
    · intro hget
      split_ifs at hget with hk
      exact ⟨hk.symm, by simpa [info, RecordInfo.new] using hget⟩
    · rintro ⟨rfl, rfl⟩
      simp [info, RecordInfo.new]

/-! ## Histories -/

/-- The newest version of a history that has been told. -/
structure Upto (last : ℕ) (story : Story P) : Prop where
  told : Told story
  le_last : ∀ x ∈ story, x.2 ≤ last

theorem Upto.new_version {last : ℕ} (h : Upto last story) {v : ℕ} (hv : last < v) :
    ∀ x ∈ story, x.2 < v := fun x hx => (h.le_last x hx).trans_lt hv

theorem Upto.cons {last : ℕ} (h : Upto last story) {v : ℕ} (hv : last < v) {x : Option P}
    (htold : Told ((x, v) :: story)) : Upto v ((x, v) :: story) := by
  refine ⟨htold, fun y hy => ?_⟩
  rcases List.mem_cons.mp hy with rfl | hy
  · exact le_rfl
  · exact (h.new_version hv y hy).le

/-- One operation of a valid history. -/
theorem Holds.step {last : ℕ} (h : Holds story index) (hupto : Upto last story) {op : Op P}
    {ops : List (Op P)} (hvalid : Valid last story (op :: ops)) :
    ∃ index' last', op.run index = .ok index' ∧ Holds (story.step op) index' ∧
      Upto last' (story.step op) ∧ Valid last' (story.step op) ops := by
  cases op with
  | push v p toss =>
    obtain ⟨hlt, hv, hrest⟩ := hvalid
    have hnew := hupto.new_version hlt
    obtain ⟨index', hrun, h'⟩ := h.push hupto.told hnew hv p toss
    exact ⟨index', v, hrun, h', hupto.cons hlt (hupto.told.set hnew hv), hrest⟩
  | append v p toss =>
    obtain ⟨hlive, hlt, hv, hrest⟩ := hvalid
    have hnew := hupto.new_version hlt
    obtain ⟨index', hrun, h'⟩ := h.append hupto.told hlive hnew hv p toss
    exact ⟨index', v, hrun, h', hupto.cons hlt (hupto.told.set hnew hv), hrest⟩
  | delete v toss =>
    obtain ⟨hlt, hv, hrest⟩ := hvalid
    have hnew := hupto.new_version hlt
    obtain ⟨index', hrun, h'⟩ := h.delete hupto.told hnew hv toss
    refine ⟨index', v, hrun, h', ?_, hrest⟩
    simp only [Story.step]
    split
    · next hlive => exact hupto.cons hlt (hupto.told.delete hlive hnew hv)
    · exact ⟨hupto.told, fun x hx => (hnew x hx).le⟩
  | clone tosses =>
    obtain ⟨index', hrun, h'⟩ := h.clone hupto.told tosses
    exact ⟨index', last, hrun, h', hupto, hvalid⟩

theorem Holds.run {last : ℕ} (h : Holds story index) (hupto : Upto last story)
    {ops : List (Op P)} (hvalid : Valid last story ops) :
    ∃ index', runOps ops index = .ok index' ∧ Holds (ops.foldl Story.step story) index' ∧
      Told (ops.foldl Story.step story) := by
  induction ops generalizing story index last with
  | nil => exact ⟨index, rfl, h, hupto.told⟩
  | cons op ops ih =>
    obtain ⟨index₁, last₁, hrun, h₁, hupto₁, hvalid₁⟩ := h.step hupto hvalid
    obtain ⟨index₂, hrest, h₂, htold₂⟩ := ih h₁ hupto₁ hvalid₁
    refine ⟨index₂, ?_, h₂, htold₂⟩
    simp only [runOps, hrun]
    exact hrest

/-- A prefix of a valid history is valid. -/
theorem valid_upto {last : ℕ} {story : Story P} {pre ops : List (Op P)}
    (h : Valid last story (pre ++ ops)) : Valid last story pre := by
  induction pre generalizing last story with
  | nil => trivial
  | cons op pre ih =>
    cases op with
    | push => exact ⟨h.1, h.2.1, ih h.2.2⟩
    | append => exact ⟨h.1, h.2.1, h.2.2.1, ih h.2.2.2⟩
    | delete => exact ⟨h.1, h.2.1, ih h.2.2⟩
    | clone => exact ih h

end Index

/-- For every kind of chain, every outcome of the tosses and every valid history:
after each prefix the chain is there, lookups answer as the reference does, and
`is_live` says whether the newest state is live. -/
theorem version_chains_agree (skipMap : Mutable (RecordInfo P)) (kind : VersionIndexType)
    (payload : P) {v₀ : ℕ} (hv₀ : v₀ < 2 ^ 63) {ops : List (Op P)}
    (hvalid : Valid v₀ [(some payload, v₀)] ops) :
    ∀ pre, pre <+: ops → ∃ index : VersionIndex skipMap,
      runOps pre (.new kind payload v₀) = .ok index ∧
      (∀ v, v < 2 ^ 63 →
        index.find v = .ok ((pre.foldl Story.step [(some payload, v₀)]).liveAt v)) ∧
      index.isLive = .ok (pre.foldl Story.step [(some payload, v₀)]).live := by
  rintro pre ⟨rest, rfl⟩
  have hupto : Upto v₀ [(some payload, v₀)] := ⟨.born hv₀, by simp⟩
  obtain ⟨index, hrun, hholds, htold⟩ := (holds_new kind payload v₀).run hupto (valid_upto hvalid)
  exact ⟨index, hrun, fun v hv => hholds.find htold hv, hholds.isLive htold⟩

/-- A record is set at 1 and 3, deleted at 5, copied, and set again at 8. -/
theorem version_chains_agree_over_a_gap :
    ∃ index : VersionIndex (sortedList (RecordInfo ℕ)),
      runOps [.push 3 20 true, .delete 5 true, .clone (fun i => i % 2 == 0), .push 8 30 false]
        (.new .frugalSkipList 10 1) = .ok index ∧
      index.find 4 = .ok (some (3, 20)) ∧ index.find 6 = .ok none ∧ index.isLive = .ok true := by
  obtain ⟨index, hrun, hfind, hlive⟩ := version_chains_agree (sortedList (RecordInfo ℕ))
    .frugalSkipList 10 (show 1 < 2 ^ 63 by decide)
    (show Valid 1 [(some 10, 1)]
      [.push 3 20 true, .delete 5 true, .clone (fun i => i % 2 == 0), .push 8 30 false] by simp [Valid])
    _ (List.prefix_refl _)
  exact ⟨index, hrun, hfind 4 (by decide), hfind 6 (by decide), hlive⟩

end CMVBT.ChainRefinement
