import CMVBT.RangeScan

/-!
# The rounds of a scan, one by one

A drained iterator has made the rounds that `Scans` lists, whether or not its range
contains the border `maxKey`. `Route` records how the blocks of the path were found:
every key of a fence on the path is searched through the block behind it, so the leaf
at the head of a path is the leaf that a point read of any of its keys ends at.

Behind the last leaf the lower border stays at `maxKey`. If a record has that key and
the range contains it, a scan below a directory comes back to the same leaf.
-/
namespace CMVBT.ScanRounds
open KeyInterval LastMatch FenceTiling VersionedLog PageModel FrugalList CommitClock Tracker
open CMVBT.Tree
open BlockSupply WritePath ReadPath DirectoryHistory LeafHistory TreeInvariant NewPages
open Reference WriteOperations FreshTree SnapshotRead RangeScan

variable {K P : Type} [LinearOrder K]

/-! ## From an answer to its rounds -/

section Answers
variable {cfg : Config K} {s s' : MVBTSt K P} {it it' : RangeQueryIter K P}
  {rs : List (RecordPointResult K P)}

/-- A call of `next` with a buffer hands it out. -/
theorem buff_of_drain {fuel calls : ℕ} {buff : List (RecordPointResult K P)}
    {it : RangeQueryIter K P} (hbuff : it.buff = buff) :
    it.drain cfg fuel calls s = .ok (s', it', rs) →
    ∃ calls' rs', calls' ≤ calls ∧ rs = buff ++ rs' ∧
      RangeQueryIter.drain cfg fuel calls' s { it with buff := [] } = .ok (s', it', rs') := by
  induction buff generalizing calls it rs with
  | nil =>
    intro h
    refine ⟨calls, rs, le_rfl, rfl, ?_⟩
    rw [← hbuff]
    exact h
  | cons r buff ih =>
    intro h
    cases calls with
    | zero => cases h
    | succ calls =>
      rw [drain_succ, RangeQueryIter.next, hbuff] at h
      simp only [collectAfter] at h
      cases hd : RangeQueryIter.drain cfg fuel calls s { it with buff := buff } with
      | error e =>
        rw [hd] at h
        cases h
      | ok x =>
        obtain ⟨s₁, it₁, rs₁⟩ := x
        rw [hd] at h
        simp only [Except.ok.injEq, Prod.mk.injEq] at h
        obtain ⟨rfl, rfl, rfl⟩ := h
        obtain ⟨calls', rs', hle, rfl, hrest⟩ := ih rfl hd
        exact ⟨calls', rs', hle.trans (Nat.le_succ _), rfl, hrest⟩

/-- A round that asks for another one leaves the tree alone. -/
theorem round_state {s₁ : MVBTSt K P} {it₁ : RangeQueryIter K P}
    {answer : Option (Option (RecordPointResult K P))} (h : it.round cfg s = (s₁, it₁, answer))
    (hopen : it.isCompleted = false) :
    (answer = some none) ∨ (s₁ = s ∧ it₁.isCompleted = false ∧ (answer = none → it.buff = [] →
      it₁.buff = [])) := by
  simp only [RangeQueryIter.round] at h
  split at h
  · cases h
    exact .inl rfl
  · split_ifs at h
    · cases h
      exact .inl rfl
    · split at h
      · split at h
        · cases h
          exact .inr ⟨rfl, hopen, fun _ hb => hb⟩
        · cases h
          exact .inr ⟨rfl, hopen, fun _ hb => hb⟩
      · split_ifs at h with hstop
        · cases h
          exact .inr ⟨rfl, hopen, fun hn => by cases hn⟩
        · cases h
          refine .inr ⟨rfl, hopen, fun _ _ => ?_⟩
          rw [not_or, not_not] at hstop
          exact hstop.1

/-- A finished drain went through the rounds of `Scans`. -/
theorem scans_of_loop {fuel calls : ℕ}
    (hnext : ∀ calls' < calls, ∀ it₁ : RangeQueryIter K P, it₁.buff = [] →
      it₁.isCompleted = false → ∀ rs₁, it₁.drain cfg fuel calls' s = .ok (s', it', rs₁) →
      Scans cfg s it₁ rs₁) :
    ∀ rounds (it : RangeQueryIter K P) rs, it.buff = [] → it.isCompleted = false →
      ∀ calls' < calls, collectAfter cfg fuel calls' (it.loop cfg rounds s) = .ok (s', it', rs) →
      Scans cfg s it rs := by
  intro rounds
  induction rounds with
  | zero =>
    intro it rs _ _ calls' _ h
    cases h
  | succ rounds ih =>
    intro it rs hbuff hopen calls' hlt h
    rw [RangeQueryIter.loop] at h
    cases hround : it.round cfg s with
    | mk s₁ x =>
    obtain ⟨it₁, answer⟩ := x
    rw [hround] at h
    cases answer with
    | none =>
      rcases round_state hround hopen with hdone | ⟨rfl, hopen₁, hbuff₁⟩
      · cases hdone
      exact .silent hround (ih it₁ rs (hbuff₁ rfl hbuff) hopen₁ calls' hlt h)
    | some answer =>
      cases answer with
      | none =>
        cases h
        exact .done hround
      | some r =>
        rcases round_state hround hopen with hdone | ⟨rfl, hopen₁, -⟩
        · cases hdone
        simp only [collectAfter] at h
        cases hd : it₁.drain cfg fuel calls' s₁ with
        | error e =>
          rw [hd] at h
          cases h
        | ok x =>
          obtain ⟨s₂, it₂, rs₂⟩ := x
          rw [hd] at h
          simp only [Except.ok.injEq, Prod.mk.injEq] at h
          obtain ⟨rfl, rfl, rfl⟩ := h
          obtain ⟨calls'', rs', hle, rfl, hrest⟩ := buff_of_drain rfl hd
          exact .found hround hopen₁
            (hnext calls'' (hle.trans_lt hlt) { it₁ with buff := [] } rfl hopen₁ rs' hrest)

theorem scans_of_drain {fuel : ℕ} (calls : ℕ) :
    ∀ (it : RangeQueryIter K P) rs, it.buff = [] → it.isCompleted = false →
      it.drain cfg fuel calls s = .ok (s', it', rs) → Scans cfg s it rs := by
  induction calls using Nat.strong_induction_on with
  | _ calls ih =>
    intro it rs hbuff hopen h
    cases calls with
    | zero => cases h
    | succ calls =>
      rw [drain_of_loop cfg s it hbuff hopen] at h
      exact scans_of_loop (fun calls' hlt it₁ hb ho rs₁ hd => ih calls' hlt it₁ rs₁ hb ho hd)
        fuel it rs hbuff hopen calls (Nat.lt_succ_self _) h

/-- There is only one such list. -/
theorem scans_unique (h : Scans cfg s it rs) : ∀ rs', Scans cfg s it rs' → rs' = rs := by
  induction h with
  | done hround =>
    intro rs' h'
    cases h' with
    | done _ => rfl
    | silent hround' _ => rw [hround] at hround'; cases hround'
    | found hround' _ _ => rw [hround] at hround'; cases hround'
  | silent hround _ ih =>
    intro rs' h'
    cases h' with
    | done hround' => rw [hround] at hround'; cases hround'
    | silent hround' hrest =>
      rw [hround] at hround'
      cases hround'
      exact ih _ hrest
    | found hround' _ _ => rw [hround] at hround'; cases hround'
  | found hround _ _ ih =>
    intro rs' h'
    cases h' with
    | done hround' => rw [hround] at hround'; cases hround'
    | silent hround' _ => rw [hround] at hround'; cases hround'
    | found hround' _ hrest =>
      rw [hround] at hround'
      cases hround'
      rw [ih _ hrest]

end Answers

/-! ## The path of a scan -/

/-- Every key of the fence is searched through the block. -/
def Searched (t : MVBTSt K P) (g : Ghost K P) (v : ℕ) (root : ℕ × ℕ) (f : Interval K) (b : ℕ) :
    Prop :=
  ∃ level, Visible t g v b f level ∧
    ∀ k ∈ f, traverseReadKey t level b k v = traverseReadKey t root.2 root.1 k v

/-- A path from the root down, each block found by the search for its keys. -/
structure Route (cfg : Config K) (t : MVBTSt K P) (g : Ghost K P) (v : ℕ) (root : ℕ × ℕ)
    (path : List (Interval K × ℕ)) : Prop where
  ok : PathOk cfg t g v (allUppers t) path
  searched : ∀ x ∈ path, Searched t g v root x.1 x.2
  top : path.getLast? = some (cfg.keys.full, root.1)

/-- Where a scan stands between two rounds. -/
structure Stands (cfg : Config K) (t : MVBTSt K P) (g : Ghost K P) (v : ℕ) (root : ℕ × ℕ)
    (path : List (Interval K × ℕ)) (lower : K) : Prop where
  route : path ≠ [] → Route cfg t g v root path
  position : Position cfg t lower path

section Path
variable {cfg : Config K} {t s : MVBTSt K P} {g : Ghost K P} {v : ℕ} {root : ℕ × ℕ}
  {hi lower : K} {f : Interval K} {b : ℕ} {rest : List (Interval K × ℕ)}

theorem stands_root (hroot : Visible t g v root.1 cfg.keys.full root.2) (lower : K) :
    Stands cfg t g v root [(cfg.keys.full, root.1)] lower := by
  refine ⟨fun _ => ⟨.root hroot, ?_, rfl⟩, .inl (cfg.keys.mem_full lower)⟩
  intro x hx
  rw [List.mem_singleton.mp hx]
  exact ⟨root.2, hroot, fun _ _ => rfl⟩

/-- The search for a key of a fence goes on below the entry that covers it. -/
theorem Searched.child (h : Inv cfg t g) (hr : Readable cfg t g v)
    (hb : Searched t g v root f b) {p : InternalPage K} (hp : t.heap b = .internal p)
    (hlow : lower ∈ f) :
    ∃ next, routeAt p.asUnits v lower = some next ∧ lower ∈ next.1 ∧ next.1.Within f ∧
      (g.life next.2).level < (g.life b).level ∧ Searched t g v root next.1 next.2 := by
  obtain ⟨level, hvis, hsearch⟩ := hb
  obtain ⟨next, hroute, hmem, hwithin, hall⟩ := hvis.route h hp lower hlow
  obtain ⟨below, rfl, hchild⟩ := hr.child h hvis hp hroute
  refine ⟨next, hroute, hmem, hwithin, ?_, below, hchild, ?_⟩
  · rw [hchild.level_eq, hvis.level_eq]
    exact Nat.lt_succ_self _
  intro k hk
  rw [← hsearch k (hwithin k hk), traverseReadKey, hp]
  simp only [hall k hk]

/-- The leaf at the head of a path is where a point read of its keys ends. -/
theorem Searched.leaf (hb : Searched t g v root f b) (h : Inv cfg t g) {p : LeafPage K P}
    (hp : t.heap b = .leaf p) {k : K} (hk : k ∈ f) :
    traverseReadKey t root.2 root.1 k v = .ok p := by
  obtain ⟨level, hvis, hsearch⟩ := hb
  rw [← hsearch k hk, hvis.level_leaf h hp, traverseReadKey, hp]

/-- Every key has such a leaf. -/
theorem Searched.exists_leaf (h : Inv cfg t g) (hr : Readable cfg t g v) {k : K} (n : ℕ) :
    ∀ f b, (g.life b).level = n → Searched t g v root f b → k ∈ f →
      ∃ f' b' p, Searched t g v root f' b' ∧ t.heap b' = .leaf p ∧ k ∈ f' := by
  induction n using Nat.strong_induction_on with
  | _ n ih =>
    intro f b hn hb hk
    cases hp : t.heap b with
    | leaf p => exact ⟨f, b, p, hb, hp, hk⟩
    | internal p =>
      obtain ⟨next, -, hmem, -, hlt, hchild⟩ := hb.child h hr hp hk
      exact ih _ (by rw [← hn]; exact hlt) next.1 next.2 rfl hchild hmem

theorem Route.head (h : Route cfg t g v root ((f, b) :: rest)) : Searched t g v root f b :=
  h.searched (f, b) List.mem_cons_self

theorem Route.tail (h : Route cfg t g v root ((f, b) :: rest)) (hne : rest ≠ []) :
    Route cfg t g v root rest := by
  refine ⟨h.ok.tail hne, fun x hx => h.searched x (List.mem_cons_of_mem _ hx), ?_⟩
  obtain ⟨y, more, rfl⟩ := List.exists_cons_of_ne_nil hne
  have := h.top
  rwa [List.getLast?_cons_cons] at this

/-- Below a root that is a leaf there is nothing. -/
theorem Route.top_internal (h : Route cfg t g v root ((f, b) :: rest)) (hne : rest ≠ []) :
    ∃ p, t.heap root.1 = .internal p := by
  have hall : ∀ path, PathOk cfg t g v (allUppers t) path →
      ∀ x, path.tail.getLast? = some x → ∃ p, t.heap x.2 = .internal p := by
    intro path hpath
    induction hpath with
    | root _ => exact fun x hx => (Option.some_ne_none x hx.symm).elim
    | @child b c level f f' rest p _ hp _ _ _ _ ih =>
      intro x hx
      rcases rest with _ | ⟨y, more⟩
      · rw [List.tail_cons, List.getLast?_singleton, Option.some.injEq] at hx
        rw [← hx]
        exact ⟨p, hp⟩
      · rw [List.tail_cons, List.getLast?_cons_cons] at hx
        exact ih x hx
  refine hall _ h.ok (cfg.keys.full, root.1) ?_
  exact (h.tail hne).top

/-- Behind a finished block. -/
theorem Route.leave (h : Route cfg t g v root ((f, b) :: rest)) :
    Stands cfg t g v root rest (cfg.keys.incKey f.upper) :=
  ⟨h.tail, h.ok.leave⟩

/-- Below a directory. -/
theorem Route.enter (h : Inv cfg t g) (hr : Readable cfg t g v)
    (hpath : Route cfg t g v root ((f, b) :: rest)) {p : InternalPage K}
    (hp : t.heap b = .internal p) (hlow : lower ∈ f) :
    ∃ next, routeAt p.asUnits v lower = some next ∧ lower ∈ next.1 ∧
      Stands cfg t g v root (next :: (f, b) :: rest) lower := by
  obtain ⟨next, hroute, hmem, hwithin, -, hsearch⟩ := hpath.head.child h hr hp hlow
  obtain ⟨level, hvis, hsame⟩ := hsearch
  obtain ⟨_, hb, -⟩ := hpath.head
  have hproper := (h.living.born _ hvis.used).1
  rw [hvis.fence] at hproper
  have hnode := h.living.node b hb.used
  rw [hp] at hnode
  have hunits := hroute
  rw [hnode.counted_internal] at hunits
  obtain ⟨e, he, hf, -⟩ := routeAt_mem hunits
  have hup : next.1.upper ∈ allUppers t := by
    rw [← hf]
    exact mem_allUppers hb.used hp he
  refine ⟨next, hroute, hmem, fun _ => ⟨.child hpath.ok hp hvis hproper hwithin hup, ?_, ?_⟩,
    .inl hmem⟩
  · intro x hx
    rcases List.mem_cons.mp hx with rfl | hx
    · exact ⟨level, hvis, hsame⟩
    · exact hpath.searched x hx
  · rw [List.getLast?_cons_cons]
    exact hpath.top

end Path

/-! ## The rounds -/

/-- The rounds of a scan up to `hi` that stands at `lower`, and what they yield. -/
inductive Rounds (cfg : Config K) (t : MVBTSt K P) (g : Ghost K P) (v : ℕ) (hi : K)
    (root : ℕ × ℕ) : List (Interval K × ℕ) → K → List (RecordPointResult K P) → Prop
  | exhausted : Rounds cfg t g v hi root [] cfg.keys.maxKey []
  | past {path : List (Interval K × ℕ)} {lower : K} : hi < lower →
      Rounds cfg t g v hi root path lower []
  | enter {f : Interval K} {b : ℕ} {rest : List (Interval K × ℕ)} {lower : K}
      {next : Interval K × ℕ} {rs : List (RecordPointResult K P)} :
      Rounds cfg t g v hi root (next :: (f, b) :: rest) lower rs →
      Rounds cfg t g v hi root ((f, b) :: rest) lower rs
  | leave {f : Interval K} {b : ℕ} {rest : List (Interval K × ℕ)} {lower : K}
      {rs : List (RecordPointResult K P)} :
      Route cfg t g v root ((f, b) :: rest) → lower ∉ f →
      Rounds cfg t g v hi root rest lower rs → Rounds cfg t g v hi root ((f, b) :: rest) lower rs
  | stop {f : Interval K} {b : ℕ} {rest : List (Interval K × ℕ)} {lower : K} {p : LeafPage K P} :
      Route cfg t g v root ((f, b) :: rest) → t.heap b = .leaf p → lower ∈ f →
      leafFound p v ⟨lower, hi⟩ = [] → cfg.keys.incKey f.upper = cfg.keys.maxKey →
      Rounds cfg t g v hi root ((f, b) :: rest) lower []
  | leaf {f : Interval K} {b : ℕ} {rest : List (Interval K × ℕ)} {lower : K} {p : LeafPage K P}
      {rs : List (RecordPointResult K P)} :
      Route cfg t g v root ((f, b) :: rest) → t.heap b = .leaf p → lower ∈ f →
      Rounds cfg t g v hi root rest (cfg.keys.incKey f.upper) rs →
      Rounds cfg t g v hi root ((f, b) :: rest) lower (leafFound p v ⟨lower, hi⟩ ++ rs)

/-- What one round of a scan does: it answers `None`, or goes on from another
position after it took some records. -/
inductive Turn (cfg : Config K) (s : MVBTSt K P) (v : ℕ) (hi : K) (it : RangeQueryIter K P) :
    Option (List (Interval K × ℕ) × K) → List (RecordPointResult K P) → Prop
  | done {it' : RangeQueryIter K P} {s' : MVBTSt K P} :
      it.round cfg s = (s', it', some none) → Turn cfg s v hi it none []
  | silent {path : List (Interval K × ℕ)} {lower : K} :
      it.round cfg s = (s, scanFrom P v hi path lower, none) →
      Turn cfg s v hi it (some (path, lower)) []
  | found {path : List (Interval K × ℕ)} {lower : K} {r : RecordPointResult K P}
      {more : List (RecordPointResult K P)} :
      it.round cfg s = (s, { scanFrom P v hi path lower with buff := more }, some (some r)) →
      Turn cfg s v hi it (some (path, lower)) (r :: more)

section Turns
variable {cfg : Config K} {t s : MVBTSt K P} {g : Ghost K P} {v b : ℕ} {root : ℕ × ℕ}
  {hi lower : K} {f : Interval K} {path rest : List (Interval K × ℕ)}

theorem turn_past (hlt : hi < lower) :
    Turn cfg s v hi (scanFrom P v hi path lower) none [] := by
  cases path with
  | nil => exact .done rfl
  | cons x rest =>
    have hround : (scanFrom P v hi (x :: rest) lower).round cfg s =
        (onReleaseReaderSnapshot s v,
          { scanFrom P v hi (x :: rest) lower with isCompleted := true }, some none) := by
      simp [RangeQueryIter.round, scanFrom, hlt]
    exact .done hround

theorem turn_enter (hle : lower ≤ hi) {p : InternalPage K} (hp : s.heap b = .internal p)
    {next : Interval K × ℕ} (hroute : routeAt p.asUnits v lower = some next) :
    Turn cfg s v hi (scanFrom P v hi ((f, b) :: rest) lower)
      (some (next :: (f, b) :: rest, lower)) [] := by
  refine .silent ?_
  simp [RangeQueryIter.round, scanFrom, not_lt.mpr hle, hp, hroute]

theorem turn_leave (hle : lower ≤ hi) {p : InternalPage K} (hp : s.heap b = .internal p)
    (hroute : routeAt p.asUnits v lower = none) :
    Turn cfg s v hi (scanFrom P v hi ((f, b) :: rest) lower)
      (some (rest, cfg.keys.incKey f.upper)) [] := by
  refine .silent ?_
  simp [RangeQueryIter.round, scanFrom, not_lt.mpr hle, hp, hroute]

/-- A leaf ends the scan if it has nothing and its fence is followed by the border. -/
theorem turn_leaf (f : Interval K) (rest : List (Interval K × ℕ)) (hle : lower ≤ hi)
    {p : LeafPage K P} (hp : s.heap b = .leaf p) :
    (leafFound p v ⟨lower, hi⟩ = [] ∧ cfg.keys.incKey f.upper = cfg.keys.maxKey ∧
      Turn cfg s v hi (scanFrom P v hi ((f, b) :: rest) lower) none []) ∨
    Turn cfg s v hi (scanFrom P v hi ((f, b) :: rest) lower)
      (some (rest, cfg.keys.incKey f.upper)) (leafFound p v ⟨lower, hi⟩) := by
  rcases hfound : leafFound p v ⟨lower, hi⟩ with _ | ⟨r, more⟩
  · rw [leafFound] at hfound
    by_cases hmax : cfg.keys.incKey f.upper = cfg.keys.maxKey
    · have hround : (scanFrom P v hi ((f, b) :: rest) lower).round cfg s =
          (s, scanFrom P v hi rest cfg.keys.maxKey, some none) := by
        simp only [RangeQueryIter.round, scanFrom, not_lt.mpr hle, if_false, hp, hfound, hmax,
          List.append_nil, or_true, if_true, List.head?_nil, List.tail_nil]
      exact .inl ⟨rfl, hmax, .done hround⟩
    · refine .inr (.silent ?_)
      simp only [RangeQueryIter.round, scanFrom, not_lt.mpr hle, if_false, hp, hfound, hmax,
        List.append_nil, ne_eq, not_true, or_self]
  · rw [leafFound] at hfound
    refine .inr (.found ?_)
    simp only [RangeQueryIter.round, scanFrom, not_lt.mpr hle, if_false, hp, hfound,
      List.nil_append, ne_eq, reduceCtorEq, not_false_eq_true, true_or, if_true, List.head?_cons,
      List.tail_cons]

/-- A round keeps the position and adds one step to the rounds that follow. -/
theorem Stands.turn (h : Inv cfg t g) (hr : Readable cfg t g v) (hs : s.heap = t.heap) (hi : K)
    (hst : Stands cfg t g v root path lower) :
    (Turn cfg s v hi (scanFrom P v hi path lower) none [] ∧
      Rounds cfg t g v hi root path lower []) ∨
    ∃ path' lower' out, Turn cfg s v hi (scanFrom P v hi path lower) (some (path', lower')) out ∧
      Stands cfg t g v root path' lower' ∧
      ∀ rs, Rounds cfg t g v hi root path' lower' rs →
        Rounds cfg t g v hi root path lower (out ++ rs) := by
  by_cases hpast : hi < lower
  · exact .inl ⟨turn_past hpast, .past hpast⟩
  have hle := not_lt.mp hpast
  rcases path with _ | ⟨⟨f, b⟩, rest⟩
  · have hlow : lower = cfg.keys.maxKey := hst.position
    subst hlow
    exact .inl ⟨.done rfl, .exhausted⟩
  have hpath := hst.route (List.cons_ne_nil _ _)
  cases hn : t.heap b with
  | internal p =>
    have hns : s.heap b = .internal p := by rw [hs]; exact hn
    by_cases hlow : lower ∈ f
    · obtain ⟨next, hroute, -, hstands⟩ := hpath.enter h hr hn hlow
      exact .inr ⟨_, _, [], turn_enter hle hns hroute, hstands, fun rs hrs => .enter hrs⟩
    · obtain ⟨_, hb, -⟩ := hpath.head
      obtain ⟨heq, -⟩ := hst.position.resolve_left hlow
      refine .inr ⟨_, _, [], turn_leave hle hns (route_outside h hb hn hlow), hpath.leave, ?_⟩
      intro rs hrs
      rw [← heq] at hrs
      exact .leave hpath hlow hrs
  | leaf p =>
    have hns : s.heap b = .leaf p := by rw [hs]; exact hn
    have hlow : lower ∈ f := by
      refine hst.position.resolve_right ?_
      rintro ⟨-, q, hq⟩
      rw [hn] at hq
      cases hq
    rcases turn_leaf f rest hle hns with ⟨hnone, hmax, hturn⟩ | hturn
    · exact .inl ⟨hturn, .stop hpath hn hlow hnone hmax⟩
    · exact .inr ⟨_, _, _, hturn, hpath.leave, fun rs hrs => .leaf hpath hn hlow hrs⟩

/-- What a drained scan yields, it yields in these rounds. -/
theorem rounds_of_scans (h : Inv cfg t g) (hr : Readable cfg t g v) (hs : s.heap = t.heap)
    {it : RangeQueryIter K P} {rs : List (RecordPointResult K P)} (hscan : Scans cfg s it rs) :
    ∀ path lower, it = scanFrom P v hi path lower → Stands cfg t g v root path lower →
      Rounds cfg t g v hi root path lower rs := by
  induction hscan with
  | done hround =>
    rintro path lower rfl hst
    rcases hst.turn h hr hs hi with ⟨-, hrounds⟩ | ⟨_, _, _, hturn, -⟩
    · exact hrounds
    · cases hturn with
      | silent hround' => rw [hround] at hround'; cases hround'
      | found hround' => rw [hround] at hround'; cases hround'
  | silent hround _ ih =>
    rintro path lower rfl hst
    rcases hst.turn h hr hs hi with ⟨hturn, -⟩ | ⟨path', lower', _, hturn, hst', hadd⟩
    · cases hturn with
      | done hround' => rw [hround] at hround'; cases hround'
    · cases hturn with
      | silent hround' =>
        rw [hround] at hround'
        cases hround'
        exact hadd _ (ih path' lower' rfl hst')
      | found hround' => rw [hround] at hround'; cases hround'
  | found hround _ _ ih =>
    rintro path lower rfl hst
    rcases hst.turn h hr hs hi with ⟨hturn, -⟩ | ⟨path', lower', _, hturn, hst', hadd⟩
    · cases hturn with
      | done hround' => rw [hround] at hround'; cases hround'
    · cases hturn with
      | silent hround' => rw [hround] at hround'; cases hround'
      | found hround' =>
        rw [hround] at hround'
        cases hround'
        exact hadd _ (ih path' lower' rfl hst')

end Turns

section Yield
variable {cfg : Config K} {t : MVBTSt K P} {g : Ghost K P} {v : ℕ} {root : ℕ × ℕ}
  {hi lower : K} {path : List (Interval K × ℕ)} {rs : List (RecordPointResult K P)}

theorem le_inc (S : KeySpace K) (k : K) : k ≤ S.incKey k := by
  rcases (S.le_max k).lt_or_eq with hlt | heq
  · exact (S.lt_inc hlt).le
  · rw [heq, S.inc_max]

/-- Whatever a scan yields is a record of the snapshot, in what is left of the range. -/
theorem Rounds.sound (h : Inv cfg t g) (hrounds : Rounds cfg t g v hi root path lower rs) :
    ∀ x ∈ rs, (lower ≤ x.1 ∧ x.1 ≤ hi) ∧ liveAt g.log x.1 v = some x.2 := by
  induction hrounds with
  | exhausted => exact fun x hx => absurd hx List.not_mem_nil
  | past _ => exact fun x hx => absurd hx List.not_mem_nil
  | enter _ ih => exact ih
  | leave _ _ _ ih => exact ih
  | stop _ _ _ _ _ => exact fun x hx => absurd hx List.not_mem_nil
  | leaf hpath hn hlow _ ih =>
    intro x hx
    rcases List.mem_append.mp hx with hx | hx
    · obtain ⟨level, hb, -⟩ := hpath.head
      exact ((mem_leafFound (hb.shows h hn)).mp hx).2
    · obtain ⟨⟨hle, hhi⟩, hlive⟩ := ih x hx
      exact ⟨⟨(hlow.2.trans (le_inc _ _)).trans hle, hhi⟩, hlive⟩

/-- With a record at the border a scan up to the border leaves no directory: it
neither gets past the border nor finds the last leaf empty. -/
theorem Rounds.endless (h : Inv cfg t g) {top : InternalPage K}
    (hroot : t.heap root.1 = .internal top) {payload : P}
    (hlive : liveAt g.log cfg.keys.maxKey v = some payload) {start : K}
    (hclear : ∀ u ∈ allUppers t, start ≤ u → u < cfg.keys.maxKey →
      cfg.keys.incKey u ≠ cfg.keys.maxKey)
    (hrounds : Rounds cfg t g v cfg.keys.maxKey root path lower rs) :
    start ≤ lower → path.getLast? ≠ some (cfg.keys.full, root.1) := by
  induction hrounds with
  | exhausted => exact fun _ hlast => (Option.some_ne_none _ hlast.symm).elim
  | past hlt => exact absurd hlt (not_lt.mpr (cfg.keys.le_max _))
  | @enter f b rest lower next rs _ ih =>
    intro hstart hlast
    exact ih hstart (by rw [List.getLast?_cons_cons]; exact hlast)
  | @leave f b rest lower rs hpath hlow _ ih =>
    intro hstart hlast
    rcases rest with _ | ⟨y, more⟩
    · rw [List.getLast?_singleton, Option.some.injEq, Prod.mk.injEq] at hlast
      rw [hlast.1] at hlow
      exact hlow (cfg.keys.mem_full lower)
    · rw [List.getLast?_cons_cons] at hlast
      exact ih hstart hlast
  | @stop f b rest lower p hpath hn hlow hnone hmax =>
    intro hstart _
    rcases (cfg.keys.le_max f.upper).lt_or_eq with hlt | heq
    · exact hclear _ (hpath.ok.upper_mem hlt) (hstart.trans hlow.2) hlt hmax
    · obtain ⟨level, hb, -⟩ := hpath.head
      have hmem : (cfg.keys.maxKey, payload) ∈ leafFound p v ⟨lower, cfg.keys.maxKey⟩ :=
        (mem_leafFound (hb.shows h hn)).mpr
          ⟨⟨hlow.1.trans (cfg.keys.le_max lower), heq.ge⟩, ⟨cfg.keys.le_max lower, le_rfl⟩, hlive⟩
      rw [hnone] at hmem
      exact absurd hmem List.not_mem_nil
  | @leaf f b rest lower p rs hpath hn hlow _ ih =>
    intro hstart hlast
    rcases rest with _ | ⟨y, more⟩
    · rw [List.getLast?_singleton, Option.some.injEq, Prod.mk.injEq] at hlast
      rw [hlast.2, hroot] at hn
      cases hn
    · rw [List.getLast?_cons_cons] at hlast
      exact ih ((hstart.trans hlow.2).trans (le_inc _ _)) hlast

/-! ## The operation -/

theorem readable_root (h : Inv cfg t g) (hr : Readable cfg t g v) :
    ∃ root, t.rootFor v = .ok root ∧ Visible t g v root.1 cfg.keys.full root.2 := by
  obtain ⟨x, hx, hroot⟩ := hr.root
  exact ⟨x.1, rootFor_eq h hx, hroot⟩

/-- The iterator starts at the root; building it leaves the heap alone. -/
theorem new_of_root (cfg : Config K) (lo hi : K) (hroot : t.rootFor v = .ok root) :
    ∃ s, RangeQueryIter.new cfg t v ⟨lo, hi⟩ =
      .ok (s, scanFrom P v hi [(cfg.keys.full, root.1)] lo) ∧ s.heap = t.heap := by
  refine ⟨{ onAcquireReaderSnapshot t v with
    commit := (t.commit.currentVersionForReader t.tid).1 }, ?_, rfl⟩
  change (do let root ← t.rootFor v; _) = _
  rw [hroot]
  rfl

/-- The rounds of an iterator that was drained. -/
theorem drain_rounds (h : Inv cfg t g) (hr : Readable cfg t g v)
    (hroot : Visible t g v root.1 cfg.keys.full root.2) {s s' : MVBTSt K P} (hs : s.heap = t.heap)
    {it' : RangeQueryIter K P} {fuel calls : ℕ} {lo : K}
    (hdrain : (scanFrom P v hi [(cfg.keys.full, root.1)] lo).drain cfg fuel calls s =
      .ok (s', it', rs)) :
    Rounds cfg t g v hi root [(cfg.keys.full, root.1)] lo rs :=
  rounds_of_scans h hr hs (scans_of_drain calls _ _ rfl rfl hdrain) _ _ rfl (stands_root hroot lo)

/-- A scan that returned found a root. -/
theorem dispatchRange_rooted {fuel calls : ℕ} {lo : K} {t' : MVBTSt K P}
    (hrun : dispatchRange cfg fuel calls t ⟨lo, hi⟩ v = .ok (t', rs)) :
    ∃ root, t.rootFor v = .ok root := by
  cases hroot : t.rootFor v with
  | ok root => exact ⟨root, rfl⟩
  | error e =>
    have hnew : RangeQueryIter.new cfg t v ⟨lo, hi⟩ = .error e := by
      change (do let root ← t.rootFor v; _) = _
      rw [hroot]
      rfl
    rw [dispatchRange, hnew] at hrun
    cases hrun

theorem dispatchRange_rounds (h : Inv cfg t g) (hr : Readable cfg t g v)
    (hroot : Visible t g v root.1 cfg.keys.full root.2) (hfor : t.rootFor v = .ok root)
    {fuel calls : ℕ} {lo : K} {t' : MVBTSt K P}
    (hrun : dispatchRange cfg fuel calls t ⟨lo, hi⟩ v = .ok (t', rs)) :
    Rounds cfg t g v hi root [(cfg.keys.full, root.1)] lo rs := by
  obtain ⟨s, hnew, hs⟩ := new_of_root cfg lo hi hfor
  simp only [dispatchRange, hnew, bind, Except.bind, pure, Except.pure] at hrun
  cases hdrain : (scanFrom P v hi [(cfg.keys.full, root.1)] lo).drain cfg fuel calls s with
  | error e =>
    rw [hdrain] at hrun
    cases hrun
  | ok x =>
    rw [hdrain] at hrun
    simp only [Except.ok.injEq, Prod.mk.injEq] at hrun
    rw [← hrun.2]
    exact drain_rounds h hr hroot hs hdrain

end Yield

end CMVBT.ScanRounds
