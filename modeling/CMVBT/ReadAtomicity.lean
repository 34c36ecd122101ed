import CMVBT.LatchFreeRead

/-!
# Reads without latches are atomic

A reader of version `v` never notices a writer whose version is above `v`: what it
sees of a page is what the page showed when the version was drawn, however the loads
of the reader and the stores of the writers interleave. So it takes the way that it
would take alone in the tree of that moment, and hands out what it would find there.
-/
namespace CMVBT.ReadAtomicity
open KeyInterval LastMatch PageModel FrugalList CommitClock CMVBT.Tree WritePath ReadPath GrowingLog
open TreeInvariant PinnedSnapshot RangeScan PageContent PageStores LatchFreeRead
open Interleaving (Run Anytime)

variable {K P : Type} [LinearOrder K]

/-! ## Trees that look alike to a reader -/

/-- A page that a reader of version `v` cannot tell from an earlier state of it. -/
def NodeKeeps (v : ℕ) : Node K P → Node K P → Prop
  | .leaf p, .leaf p' => Keeps (recordSeen v) p.units p.sumLen p'.units p'.sumLen
  | .internal p, .internal p' => Keeps (entrySeen v) p.units p.sumLen p'.units p'.sumLen
  | _, _ => False

structure Undisturbed (v : ℕ) (t t' : MVBTSt K P) : Prop where
  next_le : t.nextBlock ≤ t'.nextBlock
  root : t'.rootFor v = t.rootFor v
  nodes : ∀ b < t.nextBlock, NodeKeeps v (t.heap b) (t'.heap b)

section Undisturbed
omit [LinearOrder K]
variable {v b : ℕ} {t t' t'' : MVBTSt K P}

theorem NodeKeeps.refl (v : ℕ) (n : Node K P) : NodeKeeps v n n := by
  cases n with
  | leaf p => exact Keeps.refl _ _ _
  | internal p => exact Keeps.refl _ _ _

theorem NodeKeeps.trans {n n' n'' : Node K P} (h : NodeKeeps v n n') (h' : NodeKeeps v n' n'') :
    NodeKeeps v n n'' := by
  cases n with
  | leaf p =>
    cases n' with
    | leaf p' =>
      cases n'' with
      | leaf p'' => exact Keeps.trans h h'
      | internal p'' => exact absurd h' id
    | internal p' => exact absurd h id
  | internal p =>
    cases n' with
    | leaf p' => exact absurd h id
    | internal p' =>
      cases n'' with
      | leaf p'' => exact absurd h' id
      | internal p'' => exact Keeps.trans h h'

theorem Undisturbed.refl (v : ℕ) (t : MVBTSt K P) : Undisturbed v t t := by
  constructor
  · exact le_rfl
  · rfl
  · exact fun b _ => NodeKeeps.refl v (t.heap b)

theorem Undisturbed.trans (h : Undisturbed v t t') (h' : Undisturbed v t' t'') :
    Undisturbed v t t'' := by
  constructor
  · exact h.next_le.trans h'.next_le
  · exact h'.root.trans h.root
  · exact fun b hb => (h.nodes b hb).trans (h'.nodes b (hb.trans_le h.next_le))

theorem Undisturbed.leaf (h : Undisturbed v t t') (hb : b < t.nextBlock) {p : LeafPage K P}
    (hp : t.heap b = .leaf p) :
    ∃ p', t'.heap b = .leaf p' ∧ Keeps (recordSeen v) p.units p.sumLen p'.units p'.sumLen := by
  have hkeeps := h.nodes b hb
  rw [hp] at hkeeps
  cases hp' : t'.heap b with
  | leaf p' =>
    rw [hp'] at hkeeps
    exact ⟨p', rfl, hkeeps⟩
  | internal p' =>
    rw [hp'] at hkeeps
    exact absurd hkeeps id

theorem Undisturbed.internal (h : Undisturbed v t t') (hb : b < t.nextBlock) {p : InternalPage K}
    (hp : t.heap b = .internal p) :
    ∃ p', t'.heap b = .internal p' ∧ Keeps (entrySeen v) p.units p.sumLen p'.units p'.sumLen := by
  have hkeeps := h.nodes b hb
  rw [hp] at hkeeps
  cases hp' : t'.heap b with
  | leaf p' =>
    rw [hp'] at hkeeps
    exact absurd hkeeps id
  | internal p' =>
    rw [hp'] at hkeeps
    exact ⟨p', rfl, hkeeps⟩

end Undisturbed

/-! ## A reader alone in a tree -/

/-- What the page of block `b` has to say at version `v`. -/
def answerOf (t : MVBTSt K P) (v b : ℕ) (key : K) (goal : Goal K) : Answer K P :=
  match t.heap b with
  | .internal page => .route (routeAt page.asUnits v key)
  | .leaf page =>
    match goal with
    | .find k => .records ((leafLookup page.asUnits v k).map RecordPoint.result).toList
    | .collect range => .records (leafFound page v range)

/-- A visit of one page. -/
def advance (cfg : Config K) (t : MVBTSt K P) (v : ℕ) (reader : Reader K P) : Option (Reader K P) :=
  match reader.visit with
  | some (b, key, goal) => reader.resume cfg (answerOf t v b key goal)
  | none => none

/-- Page after page. -/
def Walks (cfg : Config K) (t : MVBTSt K P) (v : ℕ) : Reader K P → Reader K P → Prop :=
  Relation.ReflTransGen (fun reader reader' => advance cfg t v reader = some reader')

theorem answerOf_leaf (t : MVBTSt K P) (v : ℕ) {b : ℕ} {p : LeafPage K P} (hp : t.heap b = .leaf p)
    (key : K) (goal : Goal K) : answerOf t v b key goal =
      match goal with
      | .find k => .records ((shown (recordSeen v) p.units p.sumLen).findRev?
          (fun x => x.1 == k)).toList
      | .collect range => .records ((shown (recordSeen v) p.units p.sumLen).filter
          (fun x => range.contains x.1)) := by
  unfold answerOf
  rw [hp]
  cases goal with
  | find k => simp only [leafLookup_view, leafView_eq]
  | collect range => simp only [leafFound_view, leafView_eq]

theorem answerOf_internal (t : MVBTSt K P) (v : ℕ) {b : ℕ} {p : InternalPage K}
    (hp : t.heap b = .internal p) (key : K) (goal : Goal K) : answerOf t v b key goal =
      .route ((shown (entrySeen v) p.units p.sumLen).findRev? (fun x => x.1.contains key)) := by
  unfold answerOf
  rw [hp]
  simp only [routeAt_eq]

theorem Undisturbed.answerOf {v b : ℕ} {t t' : MVBTSt K P} (h : Undisturbed v t t')
    (hb : b < t.nextBlock) (key : K) (goal : Goal K) :
    answerOf t' v b key goal = answerOf t v b key goal := by
  cases hp : t.heap b with
  | leaf p =>
    obtain ⟨p', hp', hkeeps⟩ := h.leaf hb hp
    rw [answerOf_leaf t' v hp', answerOf_leaf t v hp, hkeeps.shows]
  | internal p =>
    obtain ⟨p', hp', hkeeps⟩ := h.internal hb hp
    rw [answerOf_internal t' v hp', answerOf_internal t v hp, hkeeps.shows]

/-! ## Readers stay among the blocks of their tree -/

/-- The blocks that a reader still wants to visit. -/
def Within (n : ℕ) : Reader K P → Prop
  | .point _ block => block < n
  | .scan path _ _ => ∀ x ∈ path, x.2 < n
  | .done _ => True

/-- No pointer and no root leads out of the tree. -/
structure ClosedTree (t : MVBTSt K P) : Prop where
  nodes : ∀ b < t.nextBlock, Closed t.nextBlock (t.heap b)
  roots : ∀ v root, t.rootFor v = .ok root → root.1 < t.nextBlock

section Within
variable {cfg : Config K} {v n : ℕ} {t t' : MVBTSt K P} {reader reader' : Reader K P}

omit [LinearOrder K] in
theorem Within.visit {reader : Reader K P} (h : Within n reader) {b : ℕ} {key : K} {goal : Goal K}
    (hv : reader.visit = some (b, key, goal)) : b < n := by
  cases reader with
  | point k block =>
    cases hv
    exact h
  | scan path range out =>
    cases path with
    | nil => cases hv
    | cons x rest =>
      cases hv
      exact h x (by simp)
  | done out => cases hv

theorem within_scanOn {path : List (Interval K × ℕ)} (h : ∀ x ∈ path, x.2 < n) (range : Interval K)
    (out : List (RecordPointResult K P)) : Within n (Reader.scanOn path range out) := by
  unfold Reader.scanOn
  split_ifs
  · trivial
  · exact h

theorem within_start (cfg : Config K) {root : ℕ} (hroot : root < n) (request : Request K) :
    Within n (request.start cfg root : Reader K P) := by
  cases request with
  | point key => exact hroot
  | range interval =>
    apply within_scanOn
    simpa using hroot

theorem Within.resume {reader reader' : Reader K P} (h : Within n reader) {answer : Answer K P}
    (hanswer : ∀ next, answer = .route (some next) → next.2 < n)
    (hr : reader.resume cfg answer = some reader') : Within n reader' := by
  cases reader with
  | point key block =>
    cases answer with
    | route next =>
      cases next with
      | none => cases hr
      | some next =>
        cases hr
        exact hanswer next rfl
    | records out =>
      cases hr
      trivial
  | scan path range out =>
    cases path with
    | nil => cases answer with
      | route next =>
        cases next with
        | none => cases hr
        | some next =>
          cases hr
          apply within_scanOn
          simpa using hanswer next rfl
      | records found => cases hr
    | cons x rest =>
      have hrest : ∀ y ∈ rest, y.2 < n := fun y hy => h y (List.mem_cons_of_mem _ hy)
      cases answer with
      | route next =>
        cases next with
        | none =>
          cases hr
          exact within_scanOn hrest _ _
        | some next =>
          cases hr
          apply within_scanOn
          intro y hy
          rcases List.mem_cons.mp hy with rfl | hy
          · exact hanswer y rfl
          · exact h y hy
      | records found =>
        simp only [Reader.resume] at hr
        split_ifs at hr
        · cases hr
          trivial
        · cases hr
          exact within_scanOn hrest _ _
  | done out => cases hr

theorem ClosedTree.answer (h : ClosedTree t) {b : ℕ} (hb : b < t.nextBlock) {key : K} {goal : Goal K}
    {next : Interval K × ℕ} (ha : answerOf t v b key goal = .route (some next)) :
    next.2 < t.nextBlock := by
  cases hp : t.heap b with
  | leaf p =>
    rw [answerOf_leaf t v hp] at ha
    cases goal <;> cases ha
  | internal p =>
    rw [answerOf, hp] at ha
    simp only [Answer.route.injEq, routeAt, Option.map_eq_some_iff] at ha
    obtain ⟨e, he, rfl⟩ := ha
    exact h.nodes b hb p hp e (List.mem_of_mem_take (findRev?_mem he))

theorem advance_within (h : ClosedTree t) {reader reader' : Reader K P}
    (hr : Within t.nextBlock reader) (ha : advance cfg t v reader = some reader') :
    Within t.nextBlock reader' := by
  unfold advance at ha
  cases hv : reader.visit with
  | none => simp only [hv, reduceCtorEq] at ha
  | some x =>
    obtain ⟨b, key, goal⟩ := x
    simp only [hv] at ha
    exact hr.resume (fun next hnext => h.answer (hr.visit hv) hnext) ha

theorem Undisturbed.advance (h : Undisturbed v t t') {reader : Reader K P}
    (hr : Within t.nextBlock reader) : advance cfg t' v reader = advance cfg t v reader := by
  unfold ReadAtomicity.advance
  cases hv : reader.visit with
  | none => rfl
  | some x =>
    obtain ⟨b, key, goal⟩ := x
    simp only [h.answerOf (hr.visit hv)]

theorem Walks.within (hw : Walks cfg t v reader reader') (hc : ClosedTree t)
    (hr : Within t.nextBlock reader) : Within t.nextBlock reader' := by
  induction hw with
  | refl => exact hr
  | tail _ hstep ih => exact advance_within hc ih hstep

/-- A walk is a walk in every tree that looks the same. -/
theorem Undisturbed.walks_iff (h : Undisturbed v t t') (hc : ClosedTree t)
    (hr : Within t.nextBlock reader) :
    Walks cfg t' v reader reader' ↔ Walks cfg t v reader reader' := by
  constructor
  · intro hw
    induction hw with
    | refl => exact .refl
    | tail _ hstep ih => exact ih.tail ((h.advance (Walks.within ih hc hr)).symm.trans hstep)
  · intro hw
    induction hw with
    | refl => exact .refl
    | @tail r r' hwalk hstep ih =>
      have hin : Within t.nextBlock r := Walks.within hwalk hc hr
      exact ih.tail ((h.advance hin).trans hstep)

end Within

/-! ## What a reader knows -/

/-- The reader has come here on its way through the tree of its query. -/
structure OnWay (cfg : Config K) (q : Query K P) (reader : Reader K P) : Prop where
  walked : ∃ root, q.since.rootFor q.snapshot = .ok root ∧
    Walks cfg q.since q.snapshot (q.request.start cfg root.1) reader
  inside : Within q.since.nextBlock reader

/-- The reader has come to a page. -/
structure AtPage (cfg : Config K) (q : Query K P) (reader : Reader K P) (b : ℕ) (key : K)
    (goal : Goal K) : Prop where
  way : OnWay cfg q reader
  visit : reader.visit = some (b, key, goal)

theorem AtPage.lt {cfg : Config K} {q : Query K P} {reader : Reader K P} {b : ℕ} {key : K}
    {goal : Goal K} (h : AtPage cfg q reader b key goal) : b < q.since.nextBlock :=
  h.way.inside.visit h.visit

/-- A search backwards in a leaf for the record of a key. -/
def Finding (cfg : Config K) (q : Query K P) (t : MVBTSt K P) (reader : Reader K P) (b : ℕ) (k : K)
    (i : ℕ) : Prop :=
  ∃ key p p', AtPage cfg q reader b key (.find k) ∧ q.since.heap b = .leaf p ∧
    t.heap b = .leaf p' ∧ Newest (recordSeen q.snapshot) (fun x => x.1 == k) p'.units
      (shown (recordSeen q.snapshot) p.units p.sumLen) i

/-- What holds of a reader while the tree is `t`. -/
def ProgressOk (cfg : Config K) (q : Query K P) (t : MVBTSt K P) : Progress K P → Prop
  | .root => True
  | .ready reader => OnWay cfg q reader
  | .routing reader b key i => ∃ goal p p', AtPage cfg q reader b key goal ∧
      q.since.heap b = .internal p ∧ t.heap b = .internal p' ∧
      Newest (entrySeen q.snapshot) (fun x => x.1.contains key) p'.units
        (shown (entrySeen q.snapshot) p.units p.sumLen) i
  | .skipping reader b k i => Finding cfg q t reader b k i
  | .finding reader b k i => Finding cfg q t reader b k i
  | .collecting reader b range n i out => ∃ key p p', AtPage cfg q reader b key (.collect range) ∧
      q.since.heap b = .leaf p ∧ t.heap b = .leaf p' ∧
      Collected (recordSeen q.snapshot) (fun x => range.contains x.1) p'.units
        (shown (recordSeen q.snapshot) p.units p.sumLen) n i out
  | .answered reader answer => ∃ b key goal, AtPage cfg q reader b key goal ∧
      answer = answerOf q.since q.snapshot b key goal

/-- The slots in use of a page are written. -/
def Filled : Node K P → Prop
  | .leaf p => p.sumLen ≤ p.units.length
  | .internal p => p.sumLen ≤ p.units.length

section Progress
variable {cfg : Config K} {q : Query K P} {t t' : MVBTSt K P} {p p' : Progress K P}

theorem Finding.keeps {reader : Reader K P} {b i : ℕ} {k : K} (h : Finding cfg q t reader b k i)
    (hle : q.since.nextBlock ≤ t.nextBlock) (hu : Undisturbed q.snapshot t t') :
    Finding cfg q t' reader b k i := by
  obtain ⟨key, p, p₁, hat, hp, hp₁, hnew⟩ := h
  obtain ⟨p₂, hp₂, hkeeps⟩ := hu.leaf (hat.lt.trans_le hle) hp₁
  exact ⟨key, p, p₂, hat, hp, hp₂, hnew.keeps hkeeps⟩

/-- The other threads do not disturb a reader. -/
theorem ProgressOk.keeps (h : ProgressOk cfg q t p) (hle : q.since.nextBlock ≤ t.nextBlock)
    (hu : Undisturbed q.snapshot t t') : ProgressOk cfg q t' p := by
  cases p with
  | root => trivial
  | ready reader => exact h
  | routing reader b key i =>
    obtain ⟨goal, p, p₁, hat, hp, hp₁, hnew⟩ := h
    obtain ⟨p₂, hp₂, hkeeps⟩ := hu.internal (hat.lt.trans_le hle) hp₁
    exact ⟨goal, p, p₂, hat, hp, hp₂, hnew.keeps hkeeps⟩
  | skipping reader b k i => exact Finding.keeps h hle hu
  | finding reader b k i => exact Finding.keeps h hle hu
  | collecting reader b range n i out =>
    obtain ⟨key, p, p₁, hat, hp, hp₁, hcol⟩ := h
    obtain ⟨p₂, hp₂, hkeeps⟩ := hu.leaf (hat.lt.trans_le hle) hp₁
    exact ⟨key, p, p₂, hat, hp, hp₂, hcol.keeps hkeeps⟩
  | answered reader answer => exact h

/-- A step of the reader itself. -/
theorem ProgressOk.step (hclosed : ClosedTree q.since) (hu : Undisturbed q.snapshot q.since t)
    (hfilled : ∀ b < t.nextBlock, Filled (t.heap b)) (h : ProgressOk cfg q t p)
    (hs : ReaderStep cfg t q.request q.snapshot p p') : ProgressOk cfg q t p' := by
  cases hs with
  | @root root hroot =>
    rw [hu.root] at hroot
    exact ⟨⟨root, hroot, .refl⟩, within_start cfg (hclosed.roots _ root hroot) q.request⟩
  | @enterInternal reader b key goal page hv hp =>
    have hat : AtPage cfg q reader b key goal := ⟨h, hv⟩
    have hfill := hfilled b (hat.lt.trans_le hu.next_le)
    have hback := hu.nodes b hat.lt
    rw [hp] at hfill hback
    cases hp₀ : q.since.heap b with
    | leaf p₀ =>
      rw [hp₀] at hback
      exact absurd hback id
    | internal p₀ =>
      rw [hp₀] at hback
      exact ⟨goal, p₀, page, hat, hp₀, hp, Newest.start hfill (Keeps.shows hback)⟩
  | @enterFind reader b key k page hv hp =>
    have hat : AtPage cfg q reader b key (.find k) := ⟨h, hv⟩
    have hfill := hfilled b (hat.lt.trans_le hu.next_le)
    have hback := hu.nodes b hat.lt
    rw [hp] at hfill hback
    cases hp₀ : q.since.heap b with
    | leaf p₀ =>
      rw [hp₀] at hback
      exact ⟨key, p₀, page, hat, hp₀, hp, Newest.start hfill (Keeps.shows hback)⟩
    | internal p₀ =>
      rw [hp₀] at hback
      exact absurd hback id
  | @enterCollect reader b key range page hv hp =>
    have hat : AtPage cfg q reader b key (.collect range) := ⟨h, hv⟩
    have hfill := hfilled b (hat.lt.trans_le hu.next_le)
    have hback := hu.nodes b hat.lt
    rw [hp] at hfill hback
    cases hp₀ : q.since.heap b with
    | leaf p₀ =>
      rw [hp₀] at hback
      exact ⟨key, p₀, page, hat, hp₀, hp, Collected.start hfill (Keeps.shows hback)⟩
    | internal p₀ =>
      rw [hp₀] at hback
      exact absurd hback id
  | @routeHit reader b i key page e hp he hyes =>
    obtain ⟨goal, p₀, p₁, hat, hp₀, hp₁, hnew⟩ := h
    rw [hp] at hp₁
    cases hp₁
    rw [Bool.and_eq_true] at hyes
    have hhit := hnew.hit he (by rw [entrySeen, if_pos hyes.1]) hyes.2
    refine ⟨b, key, goal, hat, ?_⟩
    rw [answerOf_internal _ _ hp₀, hhit]
  | @routeMiss reader b i key page e hp he hno =>
    obtain ⟨goal, p₀, p₁, hat, hp₀, hp₁, hnew⟩ := h
    rw [hp] at hp₁
    cases hp₁
    refine ⟨goal, p₀, page, hat, hp₀, hp, hnew.miss he ?_⟩
    intro x hx
    simp only [entrySeen, Option.ite_none_right_eq_some, Option.some.injEq] at hx
    obtain ⟨hmatch, rfl⟩ := hx
    simpa [hmatch] using hno
  | routeNone =>
    obtain ⟨goal, p₀, p₁, hat, hp₀, hp₁, hnew⟩ := h
    refine ⟨_, _, goal, hat, ?_⟩
    rw [answerOf_internal _ _ hp₀, hnew.gone]
  | @skip reader b i k page r hp hr hskip =>
    obtain ⟨key, p₀, p₁, hat, hp₀, hp₁, hnew⟩ := h
    rw [hp] at hp₁
    cases hp₁
    refine ⟨key, p₀, page, hat, hp₀, hp, hnew.miss hr ?_⟩
    intro x hx
    have hno : r.version.matches q.snapshot = false := by
      rw [VersionInfo.matches, decide_eq_false (not_le.mpr hskip), Bool.false_and]
    rw [recordSeen, hno, if_neg Bool.false_ne_true] at hx
    cases hx
  | skipEnd => exact h
  | skipAll => exact h
  | @findHit reader b i k page r hp hr hyes =>
    obtain ⟨key, p₀, p₁, hat, hp₀, hp₁, hnew⟩ := h
    rw [hp] at hp₁
    cases hp₁
    rw [Bool.and_eq_true] at hyes
    have hhit := hnew.hit hr (by rw [recordSeen, if_pos hyes.2]) hyes.1
    refine ⟨b, key, _, hat, ?_⟩
    rw [answerOf_leaf _ _ hp₀]
    simp only [hhit, Option.toList_some]
  | @findMiss reader b i k page r hp hr hno =>
    obtain ⟨key, p₀, p₁, hat, hp₀, hp₁, hnew⟩ := h
    rw [hp] at hp₁
    cases hp₁
    refine ⟨key, p₀, page, hat, hp₀, hp, hnew.miss hr ?_⟩
    intro x hx
    simp only [recordSeen, Option.ite_none_right_eq_some, Option.some.injEq] at hx
    obtain ⟨hmatch, rfl⟩ := hx
    simpa [hmatch, RecordPoint.result] using hno
  | findNone =>
    obtain ⟨key, p₀, p₁, hat, hp₀, hp₁, hnew⟩ := h
    refine ⟨_, key, _, hat, ?_⟩
    rw [answerOf_leaf _ _ hp₀]
    simp only [hnew.gone, Option.toList_none]
  | @collect reader b n i range out page r hi hp hr =>
    obtain ⟨key, p₀, p₁, hat, hp₀, hp₁, hcol⟩ := h
    rw [hp] at hp₁
    cases hp₁
    have hnext := hcol.next hi hr
    refine ⟨key, p₀, page, hat, hp₀, hp, ?_⟩
    have heq : (if r.version.matches q.snapshot && range.contains r.key then
        out ++ [RecordPoint.result r] else out) =
        out ++ (recordSeen q.snapshot r).toList.filter (fun x => range.contains x.1) := by
      cases hm : r.version.matches q.snapshot <;> cases hc : range.contains r.key <;>
        simp [recordSeen, hm, hc, RecordPoint.result]
    rw [heq]
    exact hnext
  | collected =>
    obtain ⟨key, p₀, p₁, hat, hp₀, hp₁, hcol⟩ := h
    refine ⟨_, key, _, hat, ?_⟩
    rw [answerOf_leaf _ _ hp₀]
    simp only [hcol.finish]
  | @resume reader reader' answer hr =>
    obtain ⟨b, key, goal, hat, rfl⟩ := h
    have hadv : advance cfg q.since q.snapshot reader = some reader' := by
      unfold advance
      simp only [hat.visit, hr]
    obtain ⟨root, hroot, hwalk⟩ := hat.way.walked
    exact ⟨⟨root, hroot, hwalk.tail hadv⟩, advance_within hclosed hat.way.inside hadv⟩

end Progress

/-! ## What a step can do -/

/-- The version that a thread has drawn and not ended. -/
def drawn : Pc K P → Option ℕ
  | .started _ w => some w
  | .writing _ w _ => some w
  | .rooted w => some w
  | _ => none

/-- A version that nobody is working on or will work on. -/
def Below (s : Shared K P) (v : ℕ) : Prop :=
  v < s.tree.commit.clock ∧ ∀ j w, s.running j = some w → v < w

omit [LinearOrder K] in
theorem appendRoot_frame {t t' : MVBTSt K P} {block w height : ℕ}
    (h : t.appendRoot block w height = .ok t') :
    ∃ root, append t.root (block, height) w (t.tosses 0) = .ok root ∧ t'.root = root ∧
      t'.heap = t.heap ∧ t'.nextBlock = t.nextBlock ∧ t'.commit = t.commit := by
  obtain ⟨root, hroot, heq⟩ := of_bind_ok h
  cases heq
  exact ⟨root, hroot, rfl, rfl, rfl, rfl⟩

section Steps
variable {cfg : Config K} {i : ℕ} {s s' : Shared K P} {pc pc' : Pc K P}

theorem latch_step (h : Step cfg i s pc s' pc') :
    (s'.latch = s.latch ∧ holds pc' = holds pc) ∨
    (∃ x, s.latch x = none ∧ (∀ b, x = some b → b < s.tree.nextBlock) ∧
      s'.latch = Function.update s.latch x (some i) ∧ holds pc = none ∧ holds pc' = some x) ∨
    ∃ x, holds pc = some x ∧ s'.latch = Function.update s.latch x none ∧ holds pc' = none := by
  cases h with
  | latch hfree hb => exact .inr (.inl ⟨_, hfree, hb, rfl, rfl, rfl⟩)
  | release => exact .inr (.inr ⟨_, rfl, rfl, rfl⟩)
  | _ => exact .inl ⟨rfl, rfl⟩

theorem version_step (h : Step cfg i s pc s' pc') :
    (s'.running = s.running ∧ drawn pc' = drawn pc ∧
      s'.tree.commit.clock = s.tree.commit.clock) ∨
    (s'.running = Function.update s.running i (some s.tree.commit.clock) ∧
      drawn pc' = some s.tree.commit.clock ∧
      s'.tree.commit.clock = s.tree.commit.clock + 1) ∨
    (s'.running = Function.update s.running i none ∧ drawn pc' = none ∧
      s'.tree.commit.clock = s.tree.commit.clock) := by
  cases h with
  | start => exact .inr (.inl ⟨rfl, rfl, rfl⟩)
  | abandon => exact .inr (.inr ⟨rfl, rfl, rfl⟩)
  | finish => exact .inr (.inr ⟨rfl, rfl, rfl⟩)
  | finishRoot => exact .inr (.inr ⟨rfl, rfl, rfl⟩)
  | appendRoot hb ht =>
    obtain ⟨root, -, -, -, -, hcommit⟩ := appendRoot_frame ht
    exact .inl ⟨rfl, rfl, congrArg CommitState.clock hcommit⟩
  | _ => exact .inl ⟨rfl, rfl, rfl⟩

/-- What a step does to blocks and roots. -/
theorem tree_step (h : Step cfg i s pc s' pc') :
    (s'.tree.heap = s.tree.heap ∧ s'.tree.nextBlock = s.tree.nextBlock ∧
      s'.tree.root = s.tree.root) ∨
    (∃ b w plan rest node, pc = .writing b w plan ∧ pc' = .writing b w rest ∧
      plan.next (s.tree.heap b) = some (node, rest) ∧ s'.tree = s.tree.setNode b node) ∨
    (∃ node, CountedNode cfg node ∧ Closed s.tree.nextBlock node ∧ pc' = pc ∧
      s'.tree = withBlock s.tree node) ∨
    ∃ w block height, pc = .started none w ∧ pc' = .rooted w ∧ block < s.tree.nextBlock ∧
      s.tree.appendRoot block w height = .ok s'.tree := by
  cases h with
  | store hnext => exact .inr (.inl ⟨_, _, _, _, _, rfl, rfl, hnext, rfl⟩)
  | allocate _ hc hp => exact .inr (.inr (.inl ⟨_, hc, hp, rfl, rfl⟩))
  | appendRoot hb ht => exact .inr (.inr (.inr ⟨_, _, _, rfl, rfl, hb, ht⟩))
  | _ => exact .inl ⟨rfl, rfl, rfl⟩

/-- Where a reader comes from. -/
theorem reading_step (h : Step cfg i s pc s' pc') {q : Query K P} {p' : Progress K P}
    (hpc : pc' = .reading q p') :
    (s' = s ∧ pc = .idle ∧ p' = .root ∧ q.since = s.tree ∧ Below s q.snapshot) ∨
    ∃ p, s' = s ∧ pc = .reading q p ∧ ReaderStep cfg s.tree q.request q.snapshot p p' := by
  cases h with
  | draw hv hrun =>
    cases hpc
    exact .inl ⟨rfl, rfl, rfl, rfl, hv, hrun⟩
  | read hr =>
    cases hpc
    exact .inr ⟨_, rfl, rfl, hr⟩
  | allocate hh =>
    rw [hpc] at hh
    cases hh
  | _ => cases hpc

/-- Where a writer comes from. -/
theorem writing_step (h : Step cfg i s pc s' pc') {b w : ℕ} {plan : Plan K P}
    (hpc : pc' = .writing b w plan) :
    (s' = s ∧ pc = .started (some b) w ∧ Plans cfg s.tree b w plan) ∨
    (∃ plan₀ node, pc = .writing b w plan₀ ∧ plan₀.next (s.tree.heap b) = some (node, plan) ∧
      s'.tree = s.tree.setNode b node) ∨
    (∃ node, pc = .writing b w plan ∧ s'.tree = withBlock s.tree node) := by
  cases h with
  | plan hplans =>
    cases hpc
    exact .inl ⟨rfl, rfl, hplans⟩
  | store hnext =>
    cases hpc
    exact .inr (.inl ⟨_, _, rfl, hnext, rfl⟩)
  | allocate => exact .inr (.inr ⟨_, hpc, rfl⟩)
  | _ => cases hpc

/-- A writer leaves its page when it has nothing more to store. -/
theorem leave_step (h : Step cfg i s pc s' pc') {b w : ℕ} {plan : Plan K P}
    (hpc : pc = .writing b w plan) : (∃ plan', pc' = .writing b w plan') ∨
      (plan.isDone = true ∧ s'.tree.heap = s.tree.heap) := by
  cases h with
  | store => cases hpc; exact .inl ⟨_, rfl⟩
  | finish hdone => cases hpc; exact .inr ⟨hdone, rfl⟩
  | allocate => exact .inl ⟨_, hpc⟩
  | _ => cases hpc

/-- A thread that is about to append a root has just drawn its version, or waits. -/
theorem rooting_step (h : Step cfg i s pc s' pc') {w : ℕ} (hpc : pc' = .started none w) :
    s'.tree.root = s.tree.root ∧ (w = s.tree.commit.clock ∨ pc = .started none w) := by
  cases h with
  | start => cases hpc; exact ⟨rfl, .inl rfl⟩
  | allocate => exact ⟨rfl, .inr hpc⟩
  | _ => cases hpc

theorem Below.step {v : ℕ} (hb : Below s v) (h : Step cfg i s pc s' pc') : Below s' v := by
  obtain ⟨hclock, hrun⟩ := hb
  rcases version_step h with ⟨hr, -, hc⟩ | ⟨hr, -, hc⟩ | ⟨hr, -, hc⟩
  · unfold Below
    rw [hr, hc]
    exact ⟨hclock, hrun⟩
  · unfold Below
    rw [hr, hc]
    refine ⟨hclock.trans (Nat.lt_succ_self _), ?_⟩
    intro j w hw
    by_cases hj : j = i
    · rw [hj, Function.update_self] at hw
      cases hw
      exact hclock
    · rw [Function.update_of_ne hj] at hw
      exact hrun j w hw
  · unfold Below
    rw [hr, hc]
    refine ⟨hclock, ?_⟩
    intro j w hw
    by_cases hj : j = i
    · rw [hj, Function.update_self] at hw
      cases hw
    · rw [Function.update_of_ne hj] at hw
      exact hrun j w hw

end Steps

/-! ## Writers -/

/-- The page is what its writer expects before the stores that are to come. -/
def PlanOk (cfg : Config K) (n w : ℕ) : Node K P → Plan K P → Prop
  | .leaf p, .leaf stores => Unnoticed recordSeen cfg.numRecords w p stores
  | .internal p, .internal stores => Unnoticed entrySeen cfg.fanOut w p stores ∧
      ∀ m, n ≤ m → ∀ store ∈ stores, store.Within (fun e => e.pointer < m)
  | _, _ => False

section Plans
variable {cfg : Config K} {n n' w : ℕ} {node node' : Node K P} {plan rest : Plan K P}

theorem PlanOk.filled (h : PlanOk cfg n w node plan) : Filled node := by
  cases node with
  | leaf p => cases plan with
    | leaf stores => exact Unnoticed.inside h
    | internal stores => exact absurd h id
  | internal p => cases plan with
    | leaf stores => exact absurd h id
    | internal stores => exact Unnoticed.inside h.1

theorem filled_of_counted (h : CountedNode cfg node) : Filled node := by
  cases node with
  | leaf p => exact (Page.Counted.sumLen h).le
  | internal p => exact (Page.Counted.sumLen h).le

theorem PlanOk.done (h : PlanOk cfg n w node plan) (hdone : plan.isDone = true) :
    CountedNode cfg node := by
  cases node with
  | leaf p => cases plan with
    | leaf stores =>
      obtain rfl := List.isEmpty_iff.mp hdone
      exact h
    | internal stores => exact absurd h id
  | internal p => cases plan with
    | leaf stores => exact absurd h id
    | internal stores =>
      obtain rfl := List.isEmpty_iff.mp hdone
      exact h.1

theorem PlanOk.mono (h : PlanOk cfg n w node plan) (hle : n ≤ n') : PlanOk cfg n' w node plan := by
  cases node with
  | leaf p => cases plan with
    | leaf stores => exact h
    | internal stores => exact absurd h id
  | internal p => cases plan with
    | leaf stores => exact absurd h id
    | internal stores =>
      exact ⟨h.1, fun m hm => h.2 m (hle.trans hm)⟩

/-- One store: earlier readers see no change. -/
theorem PlanOk.next (h : PlanOk cfg n w node plan) (hs : plan.next node = some (node', rest)) :
    (∀ v < w, NodeKeeps v node node') ∧ PlanOk cfg n w node' rest ∧
      (Closed n node → Closed n node') := by
  cases node with
  | leaf p => cases plan with
    | leaf stores =>
      cases stores with
      | nil => cases hs
      | cons store stores =>
        cases hs
        refine ⟨h.2.1, h.2.2, fun _ page hpage => ?_⟩
        cases hpage
    | internal stores => exact absurd h id
  | internal p => cases plan with
    | leaf stores => exact absurd h id
    | internal stores =>
      cases stores with
      | nil => cases hs
      | cons store stores =>
        cases hs
        obtain ⟨hun, hin⟩ := h
        refine ⟨hun.2.1, ⟨hun.2.2, fun m hm st hst => hin m hm st (List.mem_cons_of_mem _ hst)⟩, ?_⟩
        intro hclosed page hpage
        cases hpage
        exact Store.apply_forall (hclosed p rfl) (hin n le_rfl store (by simp))

omit [LinearOrder K] in
theorem within_replaceStores {page : InternalPage K} {fresh : List (Entry K)} {a d : ℤ}
    {dead : List ℕ} (hfresh : ∀ e ∈ fresh, e.pointer < n) (m : ℕ) (hm : n ≤ m) :
    ∀ store ∈ replaceStores page fresh a d dead, store.Within (fun e => e.pointer < m) := by
  intro store hs
  rcases List.mem_append.mp hs with hs | hs
  · obtain ⟨⟨e, i⟩, he, rfl⟩ := List.mem_map.mp hs
    exact (hfresh e (List.fst_mem_of_mem_zipIdx he)).trans_le hm
  · rcases List.mem_cons.mp hs with rfl | hs
    · trivial
    · obtain ⟨i, -, rfl⟩ := List.mem_map.mp hs
      exact fun e he => he

theorem plans_ok {t : MVBTSt K P} {b : ℕ} (h : Plans cfg t b w plan)
    (hc : CountedNode cfg (t.heap b)) : PlanOk cfg t.nextBlock w (t.heap b) plan := by
  cases h with
  | insert hp hroom hnew =>
    rw [hp] at hc ⊢
    exact (insert_unnoticed hc hroom _ _).1
  | update hp hroom hs =>
    rw [hp] at hc ⊢
    exact update_unnoticed hc hroom hs
  | delete hp hs =>
    rw [hp] at hc ⊢
    exact delete_unnoticed hc hs
  | replace hp hroom hfresh hnodup hm hact =>
    rw [hp] at hc ⊢
    constructor
    · exact replace_unnoticed hc hroom (fun e he => ⟨(hfresh e he).1, (hfresh e he).2.1⟩) hnodup hm
        hact
    · exact within_replaceStores (fun e he => (hfresh e he).2.2)

end Plans

/-- What holds of blocks, latches and versions whenever all threads stand between steps. -/
structure Orderly (cfg : Config K) (c : State K P) : Prop where
  latches : ∀ i x, holds (c.pc i) = some x → c.shared.latch x = some i
  blocks : ∀ i b, holds (c.pc i) = some (some b) → b < c.shared.tree.nextBlock
  versions : ∀ i w, drawn (c.pc i) = some w → c.shared.running i = some w
  clock : ∀ i w, c.shared.running i = some w → w < c.shared.tree.commit.clock
  plans : ∀ i b w plan, c.pc i = .writing b w plan →
    PlanOk cfg c.shared.tree.nextBlock w (c.shared.tree.heap b) plan
  settled : ∀ b < c.shared.tree.nextBlock, CountedNode cfg (c.shared.tree.heap b) ∨
    ∃ i w plan, c.pc i = .writing b w plan
  closed : ∀ b < c.shared.tree.nextBlock, Closed c.shared.tree.nextBlock (c.shared.tree.heap b)
  chain : Chain c.shared.tree.root (values c.shared.tree.root)
  roots : ∀ x ∈ values c.shared.tree.root,
    x.1.1 < c.shared.tree.nextBlock ∧ x.2 < c.shared.tree.commit.clock
  rooting : ∀ i w, c.pc i = .started none w → ∀ x ∈ values c.shared.tree.root, x.2 < w

section Orderly
variable {cfg : Config K} {c : State K P} {i : ℕ} {s : Shared K P} {pc : Pc K P}

/-- Only one thread holds a latch. -/
theorem Orderly.holder (h : Orderly cfg c) {j : ℕ} {x : Option ℕ} (hi : holds (c.pc i) = some x)
    (hj : holds (c.pc j) = some x) : j = i := by
  have hlatch := h.latches i x hi
  rw [h.latches j x hj] at hlatch
  exact Option.some.inj hlatch

theorem Orderly.filled (h : Orderly cfg c) {b : ℕ} (hb : b < c.shared.tree.nextBlock) :
    Filled (c.shared.tree.heap b) := by
  rcases h.settled b hb with hc | ⟨i, w, plan, hpc⟩
  · exact filled_of_counted hc
  · exact (h.plans i b w plan hpc).filled

omit [LinearOrder K] in
theorem rootFor_values {t : MVBTSt K P} (h : Chain t.root (values t.root)) (v : ℕ) :
    t.rootFor v = match (values t.root).find? (fun x => decide (x.2 ≤ v)) with
      | some x => .ok x.1
      | none => .error .unwrapNone := by
  obtain ⟨res, hfind, hval⟩ := h.findFrom v
  rw [← hval]
  simp only [MVBTSt.rootFor, hfind, bind, Except.bind]
  cases res <;> rfl

theorem Orderly.closedTree (h : Orderly cfg c) : ClosedTree c.shared.tree := by
  constructor
  · exact h.closed
  · intro v root hroot
    rw [rootFor_values h.chain] at hroot
    cases hx : (values c.shared.tree.root).find? (fun x => decide (x.2 ≤ v)) with
    | none =>
      rw [hx] at hroot
      cases hroot
    | some x =>
      rw [hx] at hroot
      cases hroot
      exact (h.roots x (List.mem_of_find?_eq_some hx)).1

/-- A new root comes first. -/
theorem Orderly.appended (h : Orderly cfg c) {w block height : ℕ} {t : MVBTSt K P}
    (hpc : c.pc i = .started none w)
    (ht : c.shared.tree.appendRoot block w height = .ok t) :
    Chain t.root (values t.root) ∧
      values t.root = ((block, height), w) :: values c.shared.tree.root := by
  obtain ⟨root, happend, hroot, -⟩ := appendRoot_frame ht
  obtain ⟨m, hm, hchain⟩ := h.chain.append (p := (block, height)) (h.rooting i w hpc)
    (c.shared.tree.tosses 0)
  rw [happend] at hm
  cases hm
  have hval := hchain.values
  rw [← hroot] at hchain hval
  exact ⟨hval ▸ hchain, hval⟩

/-- A reader below all running versions does not notice a step. -/
theorem Orderly.undisturbed (h : Orderly cfg c) (hs : Step cfg i c.shared (c.pc i) s pc) {v : ℕ}
    (hv : Below c.shared v) : Undisturbed v c.shared.tree s.tree := by
  rcases tree_step hs with ⟨hheap, hnext, hroot⟩ | ⟨b, w, plan, rest, node, hpc, -, hplan, heq⟩ |
    ⟨node, -, -, -, heq⟩ | ⟨w, block, height, hpc, -, -, ht⟩
  · constructor
    · exact hnext.ge
    · simp only [MVBTSt.rootFor, hroot]
    · intro b _
      rw [hheap]
      exact NodeKeeps.refl v _
  · have hw : v < w := hv.2 i w (h.versions i w (by rw [hpc]; rfl))
    rw [heq]
    constructor
    · exact le_rfl
    · rfl
    · intro a _
      by_cases ha : a = b
      · subst ha
        rw [MVBTSt.setNode_self]
        exact ((h.plans i a w plan hpc).next hplan).1 v hw
      · rw [MVBTSt.setNode_other _ ha]
        exact NodeKeeps.refl v _
  · rw [heq]
    constructor
    · exact Nat.le_succ _
    · rfl
    · intro a ha
      rw [withBlock, MVBTSt.setNode_other _ ha.ne]
      exact NodeKeeps.refl v _
  · have hw : v < w := hv.2 i w (h.versions i w (by rw [hpc]; rfl))
    obtain ⟨hchain, hvalues⟩ := h.appended hpc ht
    obtain ⟨root, -, -, hheap, hnext, -⟩ := appendRoot_frame ht
    constructor
    · exact hnext.ge
    · rw [rootFor_values hchain, rootFor_values h.chain, hvalues]
      simp only [List.find?_cons, not_le.mpr hw, decide_false]
    · intro b _
      rw [hheap]
      exact NodeKeeps.refl v _

theorem next_le_step (hs : Step cfg i c.shared (c.pc i) s pc) :
    c.shared.tree.nextBlock ≤ s.tree.nextBlock := by
  rcases tree_step hs with ⟨-, hnext, -⟩ | ⟨b, w, plan, rest, node, -, -, -, heq⟩ |
    ⟨node, -, -, -, heq⟩ | ⟨w, block, height, -, -, -, ht⟩
  · exact hnext.ge
  · rw [heq]
    exact le_rfl
  · rw [heq]
    exact Nat.le_succ _
  · obtain ⟨root, -, -, -, hnext, -⟩ := appendRoot_frame ht
    exact hnext.ge

theorem Orderly.latches_step (h : Orderly cfg c) (hs : Step cfg i c.shared (c.pc i) s pc) :
    ∀ j x, holds ((c.move i s pc).pc j) = some x → s.latch x = some j := by
  rcases latch_step hs with ⟨hl, hh⟩ | ⟨y, hfree, -, hl, -, hh⟩ | ⟨y, hheld, hl, hh⟩
  · refine c.forall_move i s pc (A := fun j l => ∀ x, holds l = some x → s.latch x = some j) ?_ ?_
    · intro x hx
      rw [hh] at hx
      rw [hl]
      exact h.latches i x hx
    · intro j _ x hx
      rw [hl]
      exact h.latches j x hx
  · refine c.forall_move i s pc (A := fun j l => ∀ x, holds l = some x → s.latch x = some j) ?_ ?_
    · intro x hx
      rw [hh] at hx
      cases hx
      rw [hl, Function.update_self]
    · intro j _ x hx
      have hlatch := h.latches j x hx
      have hne : x ≠ y := by
        rintro rfl
        rw [hfree] at hlatch
        cases hlatch
      rw [hl, Function.update_of_ne hne]
      exact hlatch
  · refine c.forall_move i s pc (A := fun j l => ∀ x, holds l = some x → s.latch x = some j) ?_ ?_
    · intro x hx
      rw [hh] at hx
      cases hx
    · intro j hj x hx
      have hne : x ≠ y := by
        rintro rfl
        exact hj (h.holder hheld hx)
      rw [hl, Function.update_of_ne hne]
      exact h.latches j x hx

theorem Orderly.blocks_step (h : Orderly cfg c) (hs : Step cfg i c.shared (c.pc i) s pc) :
    ∀ j b, holds ((c.move i s pc).pc j) = some (some b) → b < s.tree.nextBlock := by
  have hle := next_le_step hs
  refine c.forall_move i s pc (A := fun _ l => ∀ b, holds l = some (some b) → b < s.tree.nextBlock)
    ?_ (fun j _ b hb => (h.blocks j b hb).trans_le hle)
  intro b hb
  rcases latch_step hs with ⟨-, hh⟩ | ⟨y, -, hin, -, -, hh⟩ | ⟨y, -, -, hh⟩
  · rw [hh] at hb
    exact (h.blocks i b hb).trans_le hle
  · rw [hh] at hb
    cases hb
    exact (hin b rfl).trans_le hle
  · rw [hh] at hb
    cases hb

theorem Orderly.versions_step (h : Orderly cfg c) (hs : Step cfg i c.shared (c.pc i) s pc) :
    ∀ j w, drawn ((c.move i s pc).pc j) = some w → s.running j = some w := by
  have hother : ∀ j, j ≠ i → s.running j = c.shared.running j := by
    intro j hj
    rcases version_step hs with ⟨hr, -⟩ | ⟨hr, -⟩ | ⟨hr, -⟩
    · rw [hr]
    · rw [hr, Function.update_of_ne hj]
    · rw [hr, Function.update_of_ne hj]
  refine c.forall_move i s pc (A := fun j l => ∀ w, drawn l = some w → s.running j = some w) ?_
    (fun j hj w hw => (hother j hj).trans (h.versions j w hw))
  intro w hw
  rcases version_step hs with ⟨hr, hd, -⟩ | ⟨hr, hd, -⟩ | ⟨-, hd, -⟩
  · rw [hd] at hw
    rw [hr]
    exact h.versions i w hw
  · rw [hd] at hw
    cases hw
    rw [hr, Function.update_self]
  · rw [hd] at hw
    cases hw

theorem Orderly.clock_step (h : Orderly cfg c) (hs : Step cfg i c.shared (c.pc i) s pc) :
    ∀ j w, s.running j = some w → w < s.tree.commit.clock := by
  intro j w hw
  rcases version_step hs with ⟨hr, -, hc⟩ | ⟨hr, -, hc⟩ | ⟨hr, -, hc⟩
  · rw [hr] at hw
    rw [hc]
    exact h.clock j w hw
  · rw [hr] at hw
    rw [hc]
    by_cases hj : j = i
    · rw [hj, Function.update_self] at hw
      cases hw
      exact Nat.lt_succ_self _
    · rw [Function.update_of_ne hj] at hw
      exact (h.clock j w hw).trans (Nat.lt_succ_self _)
  · rw [hr] at hw
    rw [hc]
    by_cases hj : j = i
    · rw [hj, Function.update_self] at hw
      cases hw
    · rw [Function.update_of_ne hj] at hw
      exact h.clock j w hw

/-- Writers of other pages stand where they stood. -/
theorem Orderly.plans_other (h : Orderly cfg c) (hs : Step cfg i c.shared (c.pc i) s pc) {j : ℕ}
    (hj : j ≠ i) {b w : ℕ} {plan : Plan K P} (hpc : c.pc j = .writing b w plan) :
    PlanOk cfg s.tree.nextBlock w (s.tree.heap b) plan := by
  have hold : holds (c.pc j) = some (some b) := by rw [hpc]; rfl
  have hplan := (h.plans j b w plan hpc).mono (next_le_step hs)
  have hsame : s.tree.heap b = c.shared.tree.heap b := by
    rcases tree_step hs with ⟨hheap, -, -⟩ | ⟨a, w', plan', rest, node, hpc', -, -, heq⟩ |
      ⟨node, -, -, -, heq⟩ | ⟨w', block, height, -, -, -, ht⟩
    · rw [hheap]
    · have hne : b ≠ a := by
        rintro rfl
        exact hj (h.holder (by rw [hpc']; rfl) hold)
      rw [heq, MVBTSt.setNode_other _ hne]
    · rw [heq, withBlock, MVBTSt.setNode_other _ (h.blocks j b hold).ne]
    · obtain ⟨root, -, -, hheap, -⟩ := appendRoot_frame ht
      rw [hheap]
  rw [hsame]
  exact hplan

theorem Orderly.plans_step (h : Orderly cfg c) (hs : Step cfg i c.shared (c.pc i) s pc) :
    ∀ j b w plan, (c.move i s pc).pc j = .writing b w plan →
      PlanOk cfg s.tree.nextBlock w (s.tree.heap b) plan := by
  refine c.forall_move i s pc (A := fun _ l => ∀ b w plan, l = .writing b w plan →
    PlanOk cfg s.tree.nextBlock w (s.tree.heap b) plan) ?_
    (fun j hj b w plan hpc => h.plans_other hs hj hpc)
  intro b w plan hpc
  rcases writing_step hs hpc with ⟨rfl, hold, hplans⟩ | ⟨plan₀, node, hold, hnext, heq⟩ |
    ⟨node, hold, heq⟩
  · have hb := h.blocks i b (by rw [hold]; rfl)
    rcases h.settled b hb with hc | ⟨j, w', plan', hj⟩
    · exact plans_ok hplans hc
    · -- nobody else is writing the page, and this thread has not begun to
      obtain rfl := h.holder (i := i) (x := some b) (by rw [hold]; rfl) (by rw [hj]; rfl)
      rw [hold] at hj
      cases hj
  · rw [heq, MVBTSt.setNode_self]
    exact ((h.plans i b w plan₀ hold).next hnext).2.1
  · have hb := h.blocks i b (by rw [hold]; rfl)
    have hplan := h.plans i b w plan hold
    rw [heq, withBlock, MVBTSt.setNode_other _ hb.ne]
    exact hplan.mono (Nat.le_succ _)

theorem Orderly.settled_step (h : Orderly cfg c) (hs : Step cfg i c.shared (c.pc i) s pc) :
    ∀ b < s.tree.nextBlock, CountedNode cfg (s.tree.heap b) ∨
      ∃ j w plan, (c.move i s pc).pc j = .writing b w plan := by
  -- what is settled or being written stays so unless the step writes that page
  have hkeep : ∀ b < c.shared.tree.nextBlock, s.tree.heap b = c.shared.tree.heap b →
      CountedNode cfg (s.tree.heap b) ∨ ∃ j w plan, (c.move i s pc).pc j = .writing b w plan := by
    intro b hb hsame
    rcases h.settled b hb with hc | ⟨j, w, plan, hpc⟩
    · exact .inl (hsame ▸ hc)
    · by_cases hj : j = i
      · subst hj
        rcases leave_step hs hpc with ⟨plan', hpc'⟩ | ⟨hdone, -⟩
        · exact .inr ⟨j, w, plan', by rw [c.move_pc_self, hpc']⟩
        · exact .inl (hsame ▸ (h.plans j b w plan hpc).done hdone)
      · exact .inr ⟨j, w, plan, by rw [c.move_pc_other i s pc hj, hpc]⟩
  intro b hb
  rcases tree_step hs with ⟨hheap, hnext, -⟩ | ⟨a, w, plan, rest, node, -, hpc, -, heq⟩ |
    ⟨node, hc, -, -, heq⟩ | ⟨w, block, height, -, -, -, ht⟩
  · exact hkeep b (hnext ▸ hb) (by rw [hheap])
  · by_cases ha : b = a
    · exact .inr ⟨i, w, rest, by rw [c.move_pc_self, hpc, ha]⟩
    · rw [heq] at hb
      exact hkeep b hb (by rw [heq, MVBTSt.setNode_other _ ha])
  · by_cases ha : b = c.shared.tree.nextBlock
    · left
      rw [heq, withBlock, ha]
      exact (MVBTSt.setNode_self _ _ _).symm ▸ hc
    · rw [heq] at hb
      have hlt : b < c.shared.tree.nextBlock := lt_of_le_of_ne (Nat.lt_succ_iff.mp hb) ha
      exact hkeep b hlt (by rw [heq, withBlock, MVBTSt.setNode_other _ ha])
  · obtain ⟨root, -, -, hheap, hnext, -⟩ := appendRoot_frame ht
    exact hkeep b (hnext ▸ hb) (by rw [hheap])

theorem Orderly.closed_step (h : Orderly cfg c) (hs : Step cfg i c.shared (c.pc i) s pc) :
    ∀ b < s.tree.nextBlock, Closed s.tree.nextBlock (s.tree.heap b) := by
  have hmono : ∀ node : Node K P, Closed c.shared.tree.nextBlock node →
      Closed s.tree.nextBlock node :=
    fun node hn page hp e he => (hn page hp e he).trans_le (next_le_step hs)
  intro b hb
  rcases tree_step hs with ⟨hheap, hnext, -⟩ | ⟨a, w, plan, rest, node, hpc, -, hnext, heq⟩ |
    ⟨node, -, hc, -, heq⟩ | ⟨w, block, height, -, -, -, ht⟩
  · rw [hheap]
    exact hmono _ (h.closed b (hnext ▸ hb))
  · have hb' : b < c.shared.tree.nextBlock := by rwa [heq] at hb
    by_cases ha : b = a
    · subst ha
      apply hmono
      rw [heq, MVBTSt.setNode_self]
      exact ((h.plans i b w plan hpc).next hnext).2.2 (h.closed b hb')
    · apply hmono
      rw [heq, MVBTSt.setNode_other _ ha]
      exact h.closed b hb'
  · apply hmono
    rw [heq, withBlock]
    by_cases ha : b = c.shared.tree.nextBlock
    · rw [ha]
      exact (MVBTSt.setNode_self _ _ _).symm ▸ hc
    · rw [heq] at hb
      rw [MVBTSt.setNode_other _ ha]
      exact h.closed b (lt_of_le_of_ne (Nat.lt_succ_iff.mp hb) ha)
  · obtain ⟨root, -, -, hheap, hnext, -⟩ := appendRoot_frame ht
    rw [hheap]
    exact hmono _ (h.closed b (hnext ▸ hb))

theorem Orderly.chain_step (h : Orderly cfg c) (hs : Step cfg i c.shared (c.pc i) s pc) :
    Chain s.tree.root (values s.tree.root) := by
  rcases tree_step hs with ⟨-, -, hroot⟩ | ⟨b, w, plan, rest, node, -, -, -, heq⟩ |
    ⟨node, -, -, -, heq⟩ | ⟨w, block, height, hpc, -, -, ht⟩
  · rw [hroot]
    exact h.chain
  · rw [heq]
    exact h.chain
  · rw [heq]
    exact h.chain
  · exact (h.appended hpc ht).1

theorem Orderly.clock_le (hs : Step cfg i c.shared (c.pc i) s pc) :
    c.shared.tree.commit.clock ≤ s.tree.commit.clock := by
  rcases version_step hs with ⟨-, -, hc⟩ | ⟨-, -, hc⟩ | ⟨-, -, hc⟩
  · exact hc.ge
  · rw [hc]
    exact Nat.le_succ _
  · exact hc.ge

theorem Orderly.roots_step (h : Orderly cfg c) (hs : Step cfg i c.shared (c.pc i) s pc) :
    ∀ x ∈ values s.tree.root, x.1.1 < s.tree.nextBlock ∧ x.2 < s.tree.commit.clock := by
  have hold : ∀ x ∈ values c.shared.tree.root,
      x.1.1 < s.tree.nextBlock ∧ x.2 < s.tree.commit.clock := fun x hx =>
    ⟨(h.roots x hx).1.trans_le (next_le_step hs), (h.roots x hx).2.trans_le (Orderly.clock_le hs)⟩
  rcases tree_step hs with ⟨-, -, hroot⟩ | ⟨b, w, plan, rest, node, -, -, -, heq⟩ |
    ⟨node, -, -, -, heq⟩ | ⟨w, block, height, hpc, -, hb, ht⟩
  · rwa [hroot]
  · rw [heq] at hold ⊢
    exact hold
  · rw [heq] at hold ⊢
    exact hold
  · intro x hx
    rw [(h.appended hpc ht).2] at hx
    rcases List.mem_cons.mp hx with rfl | hx
    · obtain ⟨root, -, -, -, hnext, hcommit⟩ := appendRoot_frame ht
      have hw := h.clock i w (h.versions i w (by rw [hpc]; rfl))
      exact ⟨hb.trans_le hnext.ge, hcommit ▸ hw⟩
    · exact hold x hx

theorem Orderly.rooting_step (h : Orderly cfg c) (hs : Step cfg i c.shared (c.pc i) s pc) :
    ∀ j w, (c.move i s pc).pc j = .started none w → ∀ x ∈ values s.tree.root, x.2 < w := by
  refine c.forall_move i s pc (A := fun _ l => ∀ w, l = .started none w →
    ∀ x ∈ values s.tree.root, x.2 < w) ?_ ?_
  · intro w hpc
    obtain ⟨hroot, hw⟩ := ReadAtomicity.rooting_step hs hpc
    rw [hroot]
    rcases hw with rfl | hold
    · exact fun x hx => (h.roots x hx).2
    · exact h.rooting i w hold
  · intro j hj w hpc
    rcases tree_step hs with ⟨-, -, hroot⟩ | ⟨b, w', plan, rest, node, -, -, -, heq⟩ |
      ⟨node, -, -, -, heq⟩ | ⟨w', block, height, hpc', -, -, -⟩
    · rw [hroot]
      exact h.rooting j w hpc
    · rw [heq]
      exact h.rooting j w hpc
    · rw [heq]
      exact h.rooting j w hpc
    · -- both would hold the latch of the root index
      exact absurd (h.holder (by rw [hpc']; rfl) (by rw [hpc]; rfl)) hj

theorem Orderly.step (h : Orderly cfg c) (hs : Step cfg i c.shared (c.pc i) s pc) :
    Orderly cfg (c.move i s pc) where
  latches := h.latches_step hs
  blocks := h.blocks_step hs
  versions := h.versions_step hs
  clock := h.clock_step hs
  plans := h.plans_step hs
  settled := h.settled_step hs
  closed := h.closed_step hs
  chain := h.chain_step hs
  roots := h.roots_step hs
  rooting := h.rooting_step hs

end Orderly

/-! ## Readers among writers -/

/-- What holds of a thread that reads. -/
structure ReaderOk (cfg : Config K) (s : Shared K P) (q : Query K P) (p : Progress K P) : Prop where
  closed : ClosedTree q.since
  below : Below s q.snapshot
  undisturbed : Undisturbed q.snapshot q.since s.tree
  progress : ProgressOk cfg q s.tree p

structure Sound (cfg : Config K) (c : State K P) : Prop where
  orderly : Orderly cfg c
  readers : ∀ i q p, c.pc i = .reading q p → ReaderOk cfg c.shared q p

section Sound
variable {cfg : Config K} {c : State K P} {i : ℕ} {s : Shared K P} {pc : Pc K P}

/-- A reader that does not move. -/
theorem ReaderOk.other {q : Query K P} {p : Progress K P} (h : ReaderOk cfg c.shared q p)
    (ho : Orderly cfg c) (hs : Step cfg i c.shared (c.pc i) s pc) : ReaderOk cfg s q p := by
  have hu := ho.undisturbed hs h.below
  constructor
  · exact h.closed
  · exact h.below.step hs
  · exact h.undisturbed.trans hu
  · exact h.progress.keeps h.undisturbed.next_le hu

theorem Sound.step (h : Sound cfg c) (hs : Step cfg i c.shared (c.pc i) s pc) :
    Sound cfg (c.move i s pc) := by
  refine ⟨h.orderly.step hs, ?_⟩
  refine c.forall_move i s pc (A := fun _ l => ∀ q p, l = .reading q p → ReaderOk cfg s q p) ?_
    (fun j _ q p hpc => (h.readers j q p hpc).other h.orderly hs)
  intro q p hpc
  rcases reading_step hs hpc with ⟨rfl, -, rfl, hsince, hbelow⟩ | ⟨p₀, rfl, hold, hr⟩
  · -- the version is drawn: the tree of the query is the tree of this moment
    constructor
    · rw [hsince]
      exact h.orderly.closedTree
    · exact hbelow
    · rw [hsince]
      exact Undisturbed.refl _ _
    · trivial
  · have hread := h.readers i q p₀ hold
    constructor
    · exact hread.closed
    · exact hread.below
    · exact hread.undisturbed
    · exact hread.progress.step hread.closed hread.undisturbed (fun b hb => h.orderly.filled hb) hr

/-- A tree that no thread is working on. -/
structure AtRest (cfg : Config K) (t : MVBTSt K P) : Prop where
  counted : ∀ b < t.nextBlock, CountedNode cfg (t.heap b)
  closed : ∀ b < t.nextBlock, Closed t.nextBlock (t.heap b)
  chain : Chain t.root (values t.root)
  roots : ∀ x ∈ values t.root, x.1.1 < t.nextBlock ∧ x.2 < t.commit.clock

theorem sound_begin {t : MVBTSt K P} (h : AtRest cfg t) : Sound cfg (begin t) := by
  constructor
  · exact
      { latches := fun i x hx => by cases hx
        blocks := fun i b hb => by cases hb
        versions := fun i w hw => by cases hw
        clock := fun i w hw => by cases hw
        plans := fun i b w plan hpc => by cases hpc
        settled := fun b hb => .inl (h.counted b hb)
        closed := h.closed
        chain := h.chain
        roots := h.roots
        rooting := fun i w hpc => by cases hpc }
  · intro i q p hpc
    cases hpc

theorem sound_of_runs {t : MVBTSt K P} (h : AtRest cfg t) (hr : Runs cfg (begin t) c) :
    Sound cfg c :=
  hr.preserves (J := Sound cfg) (fun _ _ _ _ _ hs hc => hc.step hs) (sound_begin h)

end Sound

end CMVBT.ReadAtomicity
