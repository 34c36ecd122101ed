import CMVBT.BlockSupply
import CMVBT.DirectoryHistory
import CMVBT.LeafHistory

/-!
# The invariant of a tree

Every block has a life: the fence and the level it was built for, the version of
its birth and, once it was replaced, the version of its death. Lives, the list
of all roots and the reference log are ghosts; no page stores them. `Living`
says what the current tree looks like, `Timeline` that the past is intact: no
search at a version of a block's life leads to a block that was dead by then.

A block that the allocator recycles starts a new life. What is said about the
entries of old pages therefore assumes that there is no tracker.
-/
namespace CMVBT.TreeInvariant
open KeyInterval LastMatch FenceTiling VersionedLog PageModel FrugalList CommitClock Tracker
open CMVBT.Tree
open BlockSupply WritePath ReadPath DirectoryHistory LeafHistory

variable {K P : Type} [LinearOrder K]

structure Life (K : Type) where
  fence : Interval K
  level : ℕ
  birth : ℕ
  death : Option ℕ

namespace Life
omit [LinearOrder K]

/-- Version `v` comes before the death, if there is one. -/
def Until (l : Life K) (v : ℕ) : Prop := ∀ d, l.death = some d → v < d

/-- The life of a block that is replaced at version `w`. -/
def ended (l : Life K) (w : ℕ) : Life K := { l with death := some w }

theorem Until.of_alive {l : Life K} (h : l.death = none) (v : ℕ) : l.Until v := by
  intro d hd
  rw [h] at hd
  cases hd

end Life

structure Ghost (K P : Type) where
  life : ℕ → Life K
  roots : List ((ℕ × ℕ) × ℕ)
  log : Log K P

/-- Entry `e` of a directory at `level` is the link to its living child. -/
def Link (life : ℕ → Life K) (nextBlock level : ℕ) (e : Entry K) : Prop :=
  e.pointer < nextBlock ∧ ∃ below, level = below + 1 ∧
    life e.pointer = ⟨e.fence, below, e.version, none⟩

structure LeafInv (cap clock : ℕ) (log : Log K P) (l : Life K) (p : LeafPage K P) : Prop where
  counted : p.Counted cap
  stamps : ∀ r ∈ p.units, r.version.insertVersion < clock ∧
    ∀ d, r.version.deleteVersion = some d → d < clock
  shows : ∀ v, l.birth ≤ v → l.Until v → Shows log l.fence p.units v
  ordered : p.units.Pairwise Precedes
  sorted : InVersionOrder p.units
  known : ∀ r ∈ p.units, Known log r.key

structure DirInv (cap clock : ℕ) (link : Entry K → Prop) (l : Life K) (p : InternalPage K) :
    Prop where
  counted : p.Counted cap
  inside : ∀ e ∈ p.units, e.fence.Proper ∧ e.fence.Within l.fence ∧ e.version < clock
  history : ∀ v, l.birth ≤ v → Partitions p.units l.fence v
  tiling : l.death = none →
    Tiling Entry.fence link (fun _ => True) l.fence (p.units.filter PageUnit.isActive)
  newest : l.death = none → NewestActive p.units l.fence
  sorted : InVersionOrder p.units

/-- The content of a block fits its life. -/
def NodeInv (cfg : Config K) (clock : ℕ) (log : Log K P) (link : ℕ → Entry K → Prop) (l : Life K) :
    Node K P → Prop
  | .leaf p => l.level = 1 ∧ LeafInv cfg.numRecords clock log l p
  | .internal p => 1 < l.level ∧ DirInv cfg.fanOut clock (link l.level) l p

/-- The current tree: its blocks are those whose life has not ended. -/
structure Living (cfg : Config K) (t : MVBTSt K P) (g : Ghost K P) : Prop where
  logged : Before g.log t.commit.clock
  born : ∀ b < t.nextBlock, (g.life b).fence.Proper ∧ (g.life b).birth < t.commit.clock ∧
    ∀ d, (g.life b).death = some d → d < t.commit.clock
  node : ∀ b < t.nextBlock,
    NodeInv cfg t.commit.clock g.log (Link g.life t.nextBlock) (g.life b) (t.heap b)
  disjoint : ∀ a < t.nextBlock, ∀ b < t.nextBlock, (g.life a).death = none →
    (g.life b).death = none → (g.life a).level = (g.life b).level → a ≠ b →
    (g.life a).fence.Disjoint (g.life b).fence
  filled : ∀ b < t.nextBlock, (g.life b).death = none → b ≠ t.currentRoot.1 →
    filling20Percent cfg (t.heap b) ≤ (t.heap b).activeDeadCount.1
  root_lt : t.currentRoot.1 < t.nextBlock
  root_life : ∃ birth, g.life t.currentRoot.1 = ⟨cfg.keys.full, t.currentRoot.2, birth, none⟩
  root_child : (t.heap t.currentRoot.1).isLeaf = false →
    1 ≤ (t.heap t.currentRoot.1).activeDeadCount.1
  level_le : ∀ b < t.nextBlock, (g.life b).death = none → (g.life b).level ≤ t.currentRoot.2
  grave : ∀ d ∈ graveyard t, (g.life d.block).death = some d.deathVersion
  grave_ok : GraveyardOk t

/-- Block `b` stands for the keys of `f` at version `v`. -/
structure Visible (t : MVBTSt K P) (g : Ghost K P) (v b : ℕ) (f : Interval K) (level : ℕ) :
    Prop where
  used : b < t.nextBlock
  fence : (g.life b).fence = f
  level_eq : (g.life b).level = level
  birth_le : (g.life b).birth ≤ v
  alive : (g.life b).Until v

/-- Searches at version `v` stay among the blocks of that version. -/
structure Readable (cfg : Config K) (t : MVBTSt K P) (g : Ghost K P) (v : ℕ) : Prop where
  root : ∃ x, g.roots.find? (fun x => decide (x.2 ≤ v)) = some x ∧
    Visible t g v x.1.1 cfg.keys.full x.1.2
  step : ∀ b f level p, Visible t g v b f level → t.heap b = .internal p →
    ∀ k next, routeAt p.units v k = some next →
      ∃ below, level = below + 1 ∧ Visible t g v next.2 next.1 below

/-- What is readable depends on the lives, the roots and the directories. -/
theorem Readable.congr {cfg : Config K} {t t' : MVBTSt K P} {g g' : Ghost K P} {v : ℕ}
    (h : Readable cfg t g v) (hnext : t'.nextBlock = t.nextBlock) (hlife : g'.life = g.life)
    (hroots : g'.roots = g.roots)
    (hdir : ∀ b p, t'.heap b = .internal p → t.heap b = .internal p) : Readable cfg t' g' v := by
  have hvisible : ∀ b f level, Visible t' g' v b f level ↔ Visible t g v b f level := by
    intro b f level
    constructor
    · rintro ⟨h₁, h₂, h₃, h₄, h₅⟩
      rw [hnext] at h₁
      rw [hlife] at h₂ h₃ h₄ h₅
      exact ⟨h₁, h₂, h₃, h₄, h₅⟩
    · rintro ⟨h₁, h₂, h₃, h₄, h₅⟩
      rw [← hnext] at h₁
      rw [← hlife] at h₂ h₃ h₄ h₅
      exact ⟨h₁, h₂, h₃, h₄, h₅⟩
  refine ⟨?_, ?_⟩
  · simp only [hroots, hvisible]
    exact h.root
  · intro b f level p hb hp k next hroute
    simp only [hvisible] at hb ⊢
    exact h.step b f level p hb (hdir b p hp) k next hroute

/-- The past of the tree. -/
structure Timeline (cfg : Config K) (t : MVBTSt K P) (g : Ghost K P) : Prop where
  chain : Chain t.root g.roots
  roots_lt : ∀ x ∈ g.roots, x.2 < t.commit.clock
  roots_start : ∃ x ∈ g.roots, x.2 ≤ startVersion
  roots_ge : ∀ x ∈ g.roots, startVersion ≤ x.2
  root_birth : (g.life t.currentRoot.1).birth = t.root.insertVersion
  roots_until : ∀ v x, g.roots.find? (fun x => decide (x.2 ≤ v)) = some x →
    x.1.1 < t.nextBlock ∧ (g.life x.1.1).Until v
  routes : ∀ b < t.nextBlock, ∀ p, t.heap b = .internal p → ∀ v k next, (g.life b).Until v →
    routeAt p.units v k = some next → next.2 < t.nextBlock ∧ (g.life next.2).Until v
  succession : ∀ a < t.nextBlock, ∀ b < t.nextBlock, (g.life a).level = (g.life b).level →
    (g.life b).death = none → ∀ k, k ∈ (g.life a).fence → k ∈ (g.life b).fence →
    ∀ d, (g.life a).death = some d → d ≤ (g.life b).birth
  roots_life : t.tracker = none → ∀ x ∈ g.roots, x.1.1 < t.nextBlock ∧
    (g.life x.1.1).fence = cfg.keys.full ∧ (g.life x.1.1).level = x.1.2 ∧
    (g.life x.1.1).birth = x.2
  links : t.tracker = none → ∀ b < t.nextBlock, ∀ p, t.heap b = .internal p → ∀ e ∈ p.units,
    e.pointer < t.nextBlock ∧ (g.life e.pointer).fence = e.fence ∧
    (g.life e.pointer).birth = e.version ∧ (g.life e.pointer).level + 1 = (g.life b).level
  retained : ∀ v, startVersion ≤ v → t.commit.globalMin ≤ v → Readable cfg t g v
  watermark : startVersion ≤ t.commit.globalMin

structure Inv (cfg : Config K) (t : MVBTSt K P) (g : Ghost K P) : Prop where
  living : Living cfg t g
  timeline : Timeline cfg t g

/-! ## One version further -/

/-- What a reader of version `v` sees of a block is the same in both nodes. -/
def SameAt (v : ℕ) : Node K P → Node K P → Prop
  | .leaf p, .leaf p' => (p'.asUnits.filter (fun r => r.version.matches v)).map RecordPoint.result =
      (p.asUnits.filter (fun r => r.version.matches v)).map RecordPoint.result
  | .internal p, .internal p' => ∀ k, routeAt p'.asUnits v k = routeAt p.asUnits v k
  | _, _ => False

theorem SameAt.refl (v : ℕ) (n : Node K P) : SameAt v n n := by
  cases n with
  | leaf p => exact rfl
  | internal p => exact fun k => rfl

theorem SameAt.trans {v : ℕ} {n₁ n₂ n₃ : Node K P} (h : SameAt v n₁ n₂) (h' : SameAt v n₂ n₃) :
    SameAt v n₁ n₃ := by
  cases n₁ <;> cases n₂ <;> cases n₃ <;> simp only [SameAt] at h h' ⊢
  · exact h'.trans h
  · exact fun k => (h' k).trans (h k)

/-- A block that lives on or ends its life at version `w`. -/
structure Kept (w : ℕ) (l l' : Life K) (n n' : Node K P) : Prop where
  life : l' = l ∨ (l.death = none ∧ l' = l.ended w)
  view : ∀ v < w, SameAt v n n'

/-- A dead block, out of reach of all readers, that starts anew. -/
structure Recycled (t : MVBTSt K P) (low b : ℕ) (l' : Life K) : Prop where
  alive : l'.death = none
  tracked : t.tracker.isSome = true
  buried : ∃ d ∈ graveyard t, d.block = b ∧ Forgotten t low d

/-- How a step at the version `t.commit.clock` treats the past. -/
structure Advance (t : MVBTSt K P) (g : Ghost K P) (t' : MVBTSt K P) (g' : Ghost K P) : Prop where
  clock : t'.commit.clock = t.commit.clock + 1
  raised : t.commit.globalMin ≤ t'.commit.globalMin
  tracked : t'.tracker.isSome = t.tracker.isSome
  in_place : t'.updateInPlace = t.updateInPlace
  readers : trace t' = trace t
  next : t.nextBlock ≤ t'.nextBlock
  births : ∀ b < t'.nextBlock,
    (b < t.nextBlock ∧ (g'.life b = g.life b ∨
      ((g.life b).death = none ∧ g'.life b = (g.life b).ended t.commit.clock))) ∨
    ((g'.life b).birth = t.commit.clock ∧ (g'.life b).death = none)
  old : ∀ b < t.nextBlock, Kept t.commit.clock (g.life b) (g'.life b) (t.heap b) (t'.heap b) ∨
    Recycled t t'.commit.globalMin b (g'.life b)
  entries : ∀ b < t'.nextBlock, ∀ p', t'.heap b = .internal p' → ∀ e' ∈ p'.units,
    Link g'.life t'.nextBlock (g'.life b).level e' ∨
    (b < t.nextBlock ∧ Kept t.commit.clock (g.life b) (g'.life b) (t.heap b) (t'.heap b) ∧
      ∃ p, t.heap b = .internal p ∧ ∃ e ∈ p.units,
        e'.fence = e.fence ∧ e'.version = e.version ∧ e'.pointer = e.pointer)
  roots : (t'.root = t.root ∧ g'.roots = g.roots) ∨
    (Chain t'.root g'.roots ∧ g'.roots = (t'.currentRoot, t.commit.clock) :: g.roots ∧
      (g'.life t'.currentRoot.1).birth = t.commit.clock)

theorem NodeInv.counted_internal {cfg : Config K} {clock : ℕ} {log : Log K P}
    {link : ℕ → Entry K → Prop} {l : Life K} {p : InternalPage K}
    (h : NodeInv cfg clock log link l (.internal p)) : p.asUnits = p.units := h.2.counted.asUnits

theorem NodeInv.counted_leaf {cfg : Config K} {clock : ℕ} {log : Log K P}
    {link : ℕ → Entry K → Prop} {l : Life K} {p : LeafPage K P}
    (h : NodeInv cfg clock log link l (.leaf p)) : p.asUnits = p.units := h.2.counted.asUnits

section Readable
variable {cfg : Config K} {t : MVBTSt K P} {g : Ghost K P} {v : ℕ}

/-- A directory that is visible routes every key of its fence. -/
theorem Visible.route (h : Inv cfg t g) {b level : ℕ} {f : Interval K} {p : InternalPage K}
    (hb : Visible t g v b f level) (hp : t.heap b = .internal p) : Partitions p.asUnits f v := by
  have hnode := h.living.node b hb.used
  rw [hp] at hnode
  rw [hnode.counted_internal, ← hb.fence]
  exact hnode.2.history v hb.birth_le

/-- A leaf that is visible shows the log. -/
theorem Visible.shows (h : Inv cfg t g) {b level : ℕ} {f : Interval K} {p : LeafPage K P}
    (hb : Visible t g v b f level) (hp : t.heap b = .leaf p) : Shows g.log f p.asUnits v := by
  have hnode := h.living.node b hb.used
  rw [hp] at hnode
  rw [hnode.counted_leaf, ← hb.fence]
  exact hnode.2.shows v hb.birth_le hb.alive

theorem Visible.level_leaf (h : Inv cfg t g) {b level : ℕ} {f : Interval K} {p : LeafPage K P}
    (hb : Visible t g v b f level) (hp : t.heap b = .leaf p) : level = 1 := by
  have hnode := h.living.node b hb.used
  rw [hp] at hnode
  exact hb.level_eq.symm.trans hnode.1

/-- The next block of a search below a visible directory. -/
theorem Readable.child (h : Inv cfg t g) (hr : Readable cfg t g v) {b level : ℕ} {f : Interval K}
    {p : InternalPage K} (hb : Visible t g v b f level) (hp : t.heap b = .internal p) {k : K}
    {next : Interval K × ℕ} (hroute : routeAt p.asUnits v k = some next) :
    ∃ below, level = below + 1 ∧ Visible t g v next.2 next.1 below := by
  have hnode := h.living.node b hb.used
  rw [hp] at hnode
  rw [hnode.counted_internal] at hroute
  exact hr.step b f level p hb hp k next hroute

end Readable

omit [LinearOrder K] in
theorem Link.until {life : ℕ → Life K} {nextBlock level : ℕ} {e : Entry K}
    (h : Link life nextBlock level e) (v : ℕ) : (life e.pointer).Until v := by
  obtain ⟨-, below, -, heq⟩ := h
  exact Life.Until.of_alive (by rw [heq]) v

section Step
variable {cfg : Config K} {t t' : MVBTSt K P} {g g' : Ghost K P}

theorem Living.not_buried (h : Living cfg t g) {b : ℕ} (halive : (g.life b).death = none) :
    ∀ d ∈ graveyard t, d.block ≠ b := by
  rintro d hd rfl
  rw [h.grave d hd] at halive
  cases halive

/-- An active record is the last one of its key. -/
theorem LeafInv.newest {cap clock : ℕ} {log : Log K P} {l : Life K} {p : LeafPage K P}
    (h : LeafInv cap clock log l p) {r : RecordPoint K P} (hr : r ∈ p.units)
    (ha : PageUnit.isActive r = true) :
    p.units.findRev? (fun x => x.key == r.key) = some r := by
  obtain ⟨l₁, l₂, hp⟩ := List.append_of_mem hr
  have hord := h.ordered
  rw [hp] at hord ⊢
  have hlater := (List.pairwise_cons.mp (List.pairwise_append.mp hord).2.1).1
  refine findRev?_split (by simp) (fun x hx => ?_)
  rw [beq_eq_false_iff_ne]
  intro hkey
  exact (hlater x hx).not_active hkey.symm ha

/-- The active records of a living leaf are its part of the current state. -/
theorem LeafInv.tiling {cap clock : ℕ} {log : Log K P} {l : Life K} {p : LeafPage K P}
    (h : LeafInv cap clock log l p) (hlog : Before log clock) (halive : l.death = none)
    (hbirth : l.birth < clock) :
    Tiling PageUnit.span (fun r => live log r.key = some r.payload)
      (fun k => (live log k).isSome = true) l.fence (p.units.filter PageUnit.isActive) := by
  have hs := h.shows clock hbirth.le (.of_alive halive _)
  unfold Shows at hs
  rw [filter_matches_eq_active (fun r hr => ⟨(h.stamps r hr).1.le,
    fun d hd => ((h.stamps r hr).2 d hd).le⟩)] at hs
  refine hs.congr ?_ ?_
  · intro r _ hg
    rwa [liveAt_of_before hlog le_rfl] at hg
  · intro k _ hn
    rwa [liveAt_of_before hlog le_rfl]

theorem Living.isLeaf_iff (h : Living cfg t g) {b : ℕ} (hb : b < t.nextBlock) :
    (t.heap b).isLeaf = true ↔ (g.life b).level = 1 := by
  have hnode := h.node b hb
  cases hn : t.heap b with
  | leaf p =>
    rw [hn] at hnode
    simp [Node.isLeaf, hnode.1]
  | internal p =>
    rw [hn] at hnode
    have := hnode.1
    simp only [Node.isLeaf, Bool.false_eq_true, false_iff]
    omega

/-- Searches at the newest version of a living directory follow its links. -/
theorem Living.link_of_route (h : Living cfg t g) {b : ℕ} (hb : b < t.nextBlock)
    {p : InternalPage K} (hp : t.heap b = .internal p) (halive : (g.life b).death = none) {v : ℕ}
    (hv : t.commit.clock ≤ v + 1) {k : K} {next : Interval K × ℕ}
    (hroute : routeAt p.units v k = some next) :
    ∃ e ∈ p.units, Link g.life t.nextBlock (g.life b).level e ∧ next = (e.fence, e.pointer) := by
  have hnode := h.node b hb
  rw [hp] at hnode
  obtain ⟨e₀, he₀, -, -, -, hk₀⟩ := routeAt_mem hroute
  obtain ⟨e, he, ha⟩ := hnode.2.newest halive k ((hnode.2.inside e₀ he₀).2.1 k hk₀)
  have hle : ∀ e ∈ p.units, e.version ≤ v := fun e he => by
    have := (hnode.2.inside e he).2.2
    omega
  rw [routeAt_newest hle, he] at hroute
  have hmem := findRev?_mem he
  exact ⟨e, hmem, (hnode.2.tiling halive).good e (List.mem_filter.mpr ⟨hmem, ha⟩),
    (Option.some.inj hroute).symm⟩

/-- The newest version is readable, also when blocks are recycled. -/
theorem Living.readable (hl : Living cfg t g) (hlt : ∀ x ∈ g.roots, x.2 < t.commit.clock) {w : ℕ}
    {rest : List ((ℕ × ℕ) × ℕ)} (hroots : g.roots = (t.currentRoot, w) :: rest) {v : ℕ}
    (hv : t.commit.clock ≤ v + 1) : Readable cfg t g v := by
  have halive : ∀ b < t.nextBlock, (g.life b).Until v → (g.life b).death = none := by
    intro b hb hu
    cases hd : (g.life b).death with
    | none => rfl
    | some d =>
      have h₁ := hu d hd
      have h₂ := (hl.born b hb).2.2 d hd
      omega
  refine ⟨?_, ?_⟩
  · have hlt := hlt (t.currentRoot, w) (by simp [hroots])
    have hle : w ≤ v := by
      change w < _ at hlt
      omega
    obtain ⟨birth, hlife⟩ := hl.root_life
    have hborn := (hl.born _ hl.root_lt).2.1
    refine ⟨(t.currentRoot, w), ?_, hl.root_lt, ?_, ?_, ?_, ?_⟩
    · rw [hroots, List.find?_cons_of_pos (by simpa using hle)]
    · exact congrArg Life.fence hlife
    · exact congrArg Life.level hlife
    · change (g.life t.currentRoot.1).birth ≤ v
      omega
    · exact .of_alive (congrArg Life.death hlife) v
  · intro b f level p hb hp k next hroute
    obtain ⟨e, he, ⟨hlt, below, hlevel, hlife⟩, rfl⟩ := hl.link_of_route hb.used hp
      (halive b hb.used hb.alive) (by omega) hroute
    have hnode := hl.node b hb.used
    rw [hp] at hnode
    have hver := (hnode.2.inside e he).2.2
    refine ⟨below, by rw [← hb.level_eq]; exact hlevel, hlt, ?_, ?_, ?_, ?_⟩
    · exact congrArg Life.fence hlife
    · exact congrArg Life.level hlife
    · change (g.life e.pointer).birth ≤ v
      rw [hlife]
      change e.version ≤ v
      omega
    · exact .of_alive (congrArg Life.death hlife) v

theorem Kept.until_old {w v : ℕ} {l l' : Life K} {n n' : Node K P} (h : Kept w l l' n n')
    (hu : l'.Until v) : l.Until v := by
  rcases h.life with rfl | ⟨halive, -⟩
  · exact hu
  · exact .of_alive halive v

theorem Kept.until_new {w v : ℕ} {l l' : Life K} {n n' : Node K P} (h : Kept w l l' n n')
    (hv : v < w) (hu : l.Until v) : l'.Until v := by
  rcases h.life with rfl | ⟨-, rfl⟩
  · exact hu
  · intro d hd
    cases hd
    exact hv

namespace Advance

theorem until_new (h : Advance t g t' g') {b v : ℕ} (hb : b < t.nextBlock)
    (hv : v < t.commit.clock) (hu : (g.life b).Until v) : (g'.life b).Until v := by
  rcases h.old b hb with hk | hr
  · exact hk.until_new hv hu
  · exact .of_alive hr.alive v

/-- Without a tracker every block keeps its fence, level and birth. -/
theorem same_life (h : Advance t g t' g') (ht : t.tracker = none) {b : ℕ} (hb : b < t.nextBlock) :
    (g'.life b).fence = (g.life b).fence ∧ (g'.life b).level = (g.life b).level ∧
      (g'.life b).birth = (g.life b).birth := by
  rcases h.old b hb with hk | hr
  · rcases hk.life with heq | ⟨-, heq⟩ <;> rw [heq] <;> exact ⟨rfl, rfl, rfl⟩
  · exact absurd hr.tracked (by simp [ht])

theorem tracker_none (h : Advance t g t' g') (ht : t'.tracker = none) : t.tracker = none := by
  have := h.tracked
  rw [ht] at this
  simpa using this.symm

/-- The view of a kept directory before the step. -/
theorem routeAt_old (h : Living cfg t g) (h' : Living cfg t' g') {b : ℕ} {w : ℕ}
    (hb : b < t.nextBlock) (hb' : b < t'.nextBlock)
    (hk : Kept w (g.life b) (g'.life b) (t.heap b) (t'.heap b)) {p' : InternalPage K}
    (hp' : t'.heap b = .internal p') {v : ℕ} (hv : v < w) (k : K) :
    ∃ p, t.heap b = .internal p ∧ routeAt p'.units v k = routeAt p.units v k := by
  have hview := hk.view v hv
  have hnode' := h'.node b hb'
  have hnode := h.node b hb
  rw [hp'] at hview hnode'
  cases hp : t.heap b with
  | leaf p =>
    rw [hp] at hview
    exact absurd hview id
  | internal p =>
    rw [hp] at hview hnode
    have := hview k
    rw [hnode'.counted_internal, hnode.counted_internal] at this
    exact ⟨p, rfl, this⟩

theorem routes (ha : Advance t g t' g') (h : Living cfg t g) (htl : Timeline cfg t g)
    (h' : Living cfg t' g') : ∀ b < t'.nextBlock, ∀ p', t'.heap b = .internal p' →
      ∀ v k next, (g'.life b).Until v → routeAt p'.units v k = some next →
        next.2 < t'.nextBlock ∧ (g'.life next.2).Until v := by
  intro b hb p' hp' v k next hu hroute
  by_cases hv : v < t.commit.clock
  · obtain ⟨e', he', hf, hptr, -, -⟩ := routeAt_mem hroute
    rcases ha.entries b hb p' hp' e' he' with hlink | ⟨hbo, hk, -⟩
    · rw [← hptr]
      exact ⟨hlink.1, hlink.until v⟩
    · obtain ⟨p, hp, heq⟩ := routeAt_old h h' hbo hb hk hp' hv k
      rw [heq] at hroute
      obtain ⟨hlt, hun⟩ := htl.routes b hbo p hp v k next (hk.until_old hu) hroute
      exact ⟨hlt.trans_le ha.next, ha.until_new hlt hv hun⟩
  · have halive : (g'.life b).death = none := by
      cases hd : (g'.life b).death with
      | none => rfl
      | some d =>
        have h₁ := hu d hd
        have h₂ := (h'.born b hb).2.2 d hd
        have h₃ := ha.clock
        omega
    obtain ⟨e, -, hlink, rfl⟩ := h'.link_of_route hb hp' halive
      (by have := ha.clock; omega) hroute
    exact ⟨hlink.1, hlink.until v⟩

theorem head_roots (ha : Advance t g t' g') (htl : Timeline cfg t g) :
    Chain t'.root g'.roots ∧ (∀ x ∈ g'.roots, x.2 < t'.commit.clock) ∧
      ∃ w rest, g'.roots = (t'.currentRoot, w) :: rest := by
  have hclock := ha.clock
  rcases ha.roots with ⟨hr, hg⟩ | ⟨hchain, hg, -⟩
  · rw [hr, hg]
    obtain ⟨rest, hrest⟩ := htl.chain.head
    refine ⟨htl.chain, ?_, t.root.insertVersion, rest, ?_⟩
    · intro x hx
      have := htl.roots_lt x hx
      omega
    · rw [hrest, MVBTSt.currentRoot, hr]
      rfl
  · refine ⟨hchain, ?_, _, _, hg⟩
    rw [hg]
    intro x hx
    rcases List.mem_cons.mp hx with rfl | hx
    · change t.commit.clock < _
      omega
    · have := htl.roots_lt x hx
      omega

theorem root_birth (ha : Advance t g t' g') (h : Living cfg t g) (htl : Timeline cfg t g)
    (h' : Living cfg t' g') : (g'.life t'.currentRoot.1).birth = t'.root.insertVersion := by
  rcases ha.roots with ⟨hr, -⟩ | ⟨hchain, hg, hbirth⟩
  · have hroot : t'.currentRoot = t.currentRoot := by rw [MVBTSt.currentRoot, hr]; rfl
    obtain ⟨birth, hlife⟩ := h.root_life
    obtain ⟨birth', hlife'⟩ := h'.root_life
    rw [hroot] at hlife' ⊢
    rw [hr, ← htl.root_birth]
    rcases ha.old _ h.root_lt with hk | hrec
    · rcases hk.life with heq | ⟨-, heq⟩
      · rw [heq]
      · rw [heq]
        rfl
    · obtain ⟨d, hd, hblock, -⟩ := hrec.buried
      exact absurd hblock (h.not_buried (by rw [hlife]) d hd)
  · obtain ⟨rest, hrest⟩ := hchain.head
    rw [hg] at hrest
    rw [hbirth]
    exact congrArg Prod.snd (List.cons.inj hrest).1

theorem roots_until (ha : Advance t g t' g') (htl : Timeline cfg t g) (h' : Living cfg t' g') :
    ∀ v x, g'.roots.find? (fun x => decide (x.2 ≤ v)) = some x →
      x.1.1 < t'.nextBlock ∧ (g'.life x.1.1).Until v := by
  intro v x hx
  have hclock := ha.clock
  by_cases hv : v < t.commit.clock
  · have hold : g.roots.find? (fun x => decide (x.2 ≤ v)) = some x := by
      rcases ha.roots with ⟨-, hg⟩ | ⟨-, hg, -⟩
      · rwa [hg] at hx
      · rw [hg, List.find?_cons_of_neg (by simpa using hv)] at hx
        exact hx
    obtain ⟨hlt, hun⟩ := htl.roots_until v x hold
    exact ⟨hlt.trans_le ha.next, ha.until_new hlt hv hun⟩
  · obtain ⟨-, hlt, w, rest, hroots⟩ := ha.head_roots htl
    have hw : w ≤ v := by
      have := hlt (t'.currentRoot, w) (by simp [hroots])
      simp only at this
      omega
    rw [hroots, List.find?_cons_of_pos (by simpa using hw)] at hx
    cases hx
    obtain ⟨birth, hlife⟩ := h'.root_life
    exact ⟨h'.root_lt, .of_alive (by rw [hlife]) v⟩

/-- A block that was visible at a version above the watermark is not recycled. -/
theorem kept_of_visible (ha : Advance t g t' g') (h : Living cfg t g) {v b level : ℕ}
    {f : Interval K} (hlow : t'.commit.globalMin ≤ v) (hb : Visible t g v b f level) :
    Kept t.commit.clock (g.life b) (g'.life b) (t.heap b) (t'.heap b) := by
  rcases ha.old b hb.used with hk | hr
  · exact hk
  · obtain ⟨d, hd, rfl, hforgotten⟩ := hr.buried
    have hdies := hb.alive _ (h.grave d hd)
    have := hforgotten.watermark
    omega

theorem visible_new (ha : Advance t g t' g') (h : Living cfg t g) {v b level : ℕ}
    {f : Interval K} (hlow : t'.commit.globalMin ≤ v) (hv : v < t.commit.clock)
    (hb : Visible t g v b f level) : Visible t' g' v b f level := by
  have hk := ha.kept_of_visible h hlow hb
  have hsame : (g'.life b).fence = (g.life b).fence ∧ (g'.life b).level = (g.life b).level ∧
      (g'.life b).birth = (g.life b).birth := by
    rcases hk.life with heq | ⟨-, heq⟩ <;> rw [heq] <;> exact ⟨rfl, rfl, rfl⟩
  exact ⟨hb.used.trans_le ha.next, hsame.1.trans hb.fence, hsame.2.1.trans hb.level_eq,
    hsame.2.2.trans_le hb.birth_le, hk.until_new hv hb.alive⟩

theorem visible_old (ha : Advance t g t' g') {v b level : ℕ} {f : Interval K}
    (hv : v < t.commit.clock) (hb : Visible t' g' v b f level) : Visible t g v b f level := by
  rcases ha.births b hb.used with ⟨hlt, heq | ⟨halive, heq⟩⟩ | ⟨hbirth, -⟩
  · exact ⟨hlt, heq ▸ hb.fence, heq ▸ hb.level_eq, heq ▸ hb.birth_le, heq ▸ hb.alive⟩
  · have hfence := hb.fence
    have hlevel := hb.level_eq
    have hbirth := hb.birth_le
    rw [heq] at hfence hlevel hbirth
    exact ⟨hlt, hfence, hlevel, hbirth, .of_alive halive v⟩
  · have := hb.birth_le
    omega

/-- Versions that are not below the watermark stay readable. -/
theorem readable (ha : Advance t g t' g') (h : Living cfg t g) (h' : Living cfg t' g') {v : ℕ}
    (hlow : t'.commit.globalMin ≤ v) (hv : v < t.commit.clock) (hr : Readable cfg t g v) :
    Readable cfg t' g' v := by
  refine ⟨?_, ?_⟩
  · obtain ⟨x, hx, hroot⟩ := hr.root
    refine ⟨x, ?_, ha.visible_new h hlow hv hroot⟩
    rcases ha.roots with ⟨-, hg⟩ | ⟨-, hg, -⟩
    · rwa [hg]
    · rwa [hg, List.find?_cons_of_neg (by simpa using hv)]
  · intro b f level p' hb hp' k next hroute
    have hold := ha.visible_old hv hb
    have hk := ha.kept_of_visible h hlow hold
    obtain ⟨p, hp, heq⟩ := routeAt_old h h' hold.used hb.used hk hp' hv k
    rw [heq] at hroute
    obtain ⟨below, hlevel, hnext⟩ := hr.step b f level p hold hp k next hroute
    exact ⟨below, hlevel, ha.visible_new h hlow hv hnext⟩

theorem retained (ha : Advance t g t' g') (h : Living cfg t g) (htl : Timeline cfg t g)
    (h' : Living cfg t' g') : ∀ v, startVersion ≤ v → t'.commit.globalMin ≤ v →
      Readable cfg t' g' v := by
  intro v hstart hlow
  by_cases hv : v < t.commit.clock
  · exact ha.readable h h' hlow hv (htl.retained v hstart (ha.raised.trans hlow))
  · obtain ⟨-, hlt, w, rest, hroots⟩ := ha.head_roots htl
    exact h'.readable hlt hroots (by have := ha.clock; omega)

theorem roots_life (ha : Advance t g t' g') (htl : Timeline cfg t g) (h' : Living cfg t' g')
    (ht' : t'.tracker = none) : ∀ x ∈ g'.roots, x.1.1 < t'.nextBlock ∧
      (g'.life x.1.1).fence = cfg.keys.full ∧ (g'.life x.1.1).level = x.1.2 ∧
      (g'.life x.1.1).birth = x.2 := by
  have ht := ha.tracker_none ht'
  have hold : ∀ x ∈ g.roots, x.1.1 < t'.nextBlock ∧
      (g'.life x.1.1).fence = cfg.keys.full ∧ (g'.life x.1.1).level = x.1.2 ∧
      (g'.life x.1.1).birth = x.2 := by
    intro x hx
    obtain ⟨hlt, hf, hl, hb⟩ := htl.roots_life ht x hx
    obtain ⟨hf', hl', hb'⟩ := ha.same_life ht hlt
    exact ⟨hlt.trans_le ha.next, hf'.trans hf, hl'.trans hl, hb'.trans hb⟩
  rcases ha.roots with ⟨-, hg⟩ | ⟨-, hg, hbirth⟩
  · rwa [hg]
  · rw [hg]
    intro x hx
    rcases List.mem_cons.mp hx with rfl | hx
    · obtain ⟨birth, hlife⟩ := h'.root_life
      refine ⟨h'.root_lt, ?_, ?_, hbirth⟩ <;> rw [hlife]
    · exact hold x hx

/-- A living block was born no earlier than the blocks it replaced died. -/
theorem succession (ha : Advance t g t' g') (h : Living cfg t g) (htl : Timeline cfg t g)
    (h' : Living cfg t' g') : ∀ a < t'.nextBlock, ∀ b < t'.nextBlock,
      (g'.life a).level = (g'.life b).level → (g'.life b).death = none →
      ∀ k, k ∈ (g'.life a).fence → k ∈ (g'.life b).fence →
      ∀ d, (g'.life a).death = some d → d ≤ (g'.life b).birth := by
  intro a hea b heb hlevel halive k hka hkb d hd
  rcases ha.births b heb with ⟨hb, hold | ⟨-, hend⟩⟩ | ⟨hbirth, -⟩
  · rw [hold] at hlevel halive hkb ⊢
    rcases ha.births a hea with ⟨hao, hsame | ⟨hala, hend⟩⟩ | ⟨-, hala⟩
    · rw [hsame] at hlevel hka hd
      exact htl.succession a hao b hb hlevel halive k hka hkb d hd
    · rw [hend] at hlevel hka
      have hne : a ≠ b := by
        rintro rfl
        rw [hend] at hold
        have := congrArg Life.death hold
        rw [hala] at this
        cases this
      exact absurd hkb (h.disjoint a hao b hb hala halive hlevel hne k hka)
    · rw [hala] at hd
      cases hd
  · rw [hend] at halive
    cases halive
  · have hlt := (h'.born a hea).2.2 d hd
    have hclock := ha.clock
    omega

theorem links (ha : Advance t g t' g') (htl : Timeline cfg t g) (ht' : t'.tracker = none) :
    ∀ b < t'.nextBlock, ∀ p', t'.heap b = .internal p' → ∀ e' ∈ p'.units,
      e'.pointer < t'.nextBlock ∧ (g'.life e'.pointer).fence = e'.fence ∧
      (g'.life e'.pointer).birth = e'.version ∧
      (g'.life e'.pointer).level + 1 = (g'.life b).level := by
  have ht := ha.tracker_none ht'
  intro b hb p' hp' e' he'
  rcases ha.entries b hb p' hp' e' he' with hlink | ⟨hbo, -, p, hp, e, he, hf, hver, hptr⟩
  · obtain ⟨hlt, below, hlevel, hlife⟩ := hlink
    refine ⟨hlt, ?_, ?_, ?_⟩ <;> rw [hlife]
    exact hlevel.symm
  · obtain ⟨hlt, hfe, hbe, hle⟩ := htl.links ht b hbo p hp e he
    obtain ⟨hf', hl', hb'⟩ := ha.same_life ht hlt
    obtain ⟨-, hl₀, -⟩ := ha.same_life ht hbo
    rw [hptr, hf, hver]
    exact ⟨hlt.trans_le ha.next, hf'.trans hfe, hb'.trans hbe, by rw [hl', hl₀, hle]⟩

/-- A step that keeps the past in place and leaves a well-formed current tree
preserves the invariant. -/
theorem inv (ha : Advance t g t' g') (h : Inv cfg t g) (h' : Living cfg t' g') :
    Inv cfg t' g' := by
  obtain ⟨hchain, hlt, -⟩ := ha.head_roots h.timeline
  obtain ⟨x, hx, hle⟩ := h.timeline.roots_start
  refine ⟨h', hchain, hlt, ?_, ?_, ha.root_birth h.living h.timeline h',
    ha.roots_until h.timeline h', ha.routes h.living h.timeline h',
    ha.succession h.living h.timeline h', ha.roots_life h.timeline h', ha.links h.timeline,
    ha.retained h.living h.timeline h', h.timeline.watermark.trans ha.raised⟩
  · rcases ha.roots with ⟨-, hg⟩ | ⟨-, hg, -⟩
    · exact ⟨x, by rwa [hg], hle⟩
    · exact ⟨x, by simp [hg, hx], hle⟩
  · rcases ha.roots with ⟨-, hg⟩ | ⟨-, hg, -⟩
    · rw [hg]
      exact h.timeline.roots_ge
    · rw [hg]
      intro y hy
      rcases List.mem_cons.mp hy with rfl | hy
      · exact (h.timeline.roots_ge x hx).trans (h.timeline.roots_lt x hx).le
      · exact h.timeline.roots_ge y hy

end Advance

/-- What announced readers reach is still there, and looks the same to them. -/
structure Intact (t : MVBTSt K P) (g : Ghost K P) (t' : MVBTSt K P) (g' : Ghost K P) : Prop where
  tracked : t'.tracker.isSome = t.tracker.isSome
  in_place : t'.updateInPlace = t.updateInPlace
  readers : trace t' = trace t
  clock : t.commit.clock ≤ t'.commit.clock
  roots : ∀ s < t.commit.clock, g'.roots.find? (fun x => decide (x.2 ≤ s)) =
    g.roots.find? (fun x => decide (x.2 ≤ s))
  blocks : ∀ v, Announced t v → v < t.commit.clock → ∀ b < t.nextBlock,
    (g.life b).Until v → b < t'.nextBlock ∧ (g'.life b).Until v ∧
      SameAt v (t.heap b) (t'.heap b)

theorem Intact.refl (t : MVBTSt K P) (g : Ghost K P) : Intact t g t g :=
  ⟨rfl, rfl, rfl, le_rfl, fun _ _ => rfl, fun _ _ _ _ hb hu => ⟨hb, hu, .refl _ _⟩⟩

theorem Intact.trans {t'' : MVBTSt K P} {g'' : Ghost K P} (h : Intact t g t' g')
    (h' : Intact t' g' t'' g'') : Intact t g t'' g'' := by
  refine ⟨h'.tracked.trans h.tracked, h'.in_place.trans h.in_place, h'.readers.trans h.readers,
    h.clock.trans h'.clock, ?_, ?_⟩
  · intro s hs
    rw [h'.roots s (hs.trans_le h.clock), h.roots s hs]
  · intro v hv hs b hb hu
    obtain ⟨hb', hu', hsame⟩ := h.blocks v hv hs b hb hu
    have hv' : Announced t' v := by
      unfold Announced
      rw [h.readers]
      exact hv
    obtain ⟨hb'', hu'', hsame'⟩ := h'.blocks v hv' (hs.trans_le h.clock) b hb' hu'
    exact ⟨hb'', hu'', hsame.trans hsame'⟩

/-- A step never takes a block away from an announced reader that can reach it. -/
theorem Advance.intact (ha : Advance t g t' g') (h : Living cfg t g) : Intact t g t' g' := by
  refine ⟨ha.tracked, ha.in_place, ha.readers, by rw [ha.clock]; exact Nat.le_succ _, ?_, ?_⟩
  · intro s hs
    rcases ha.roots with ⟨-, hg⟩ | ⟨-, hg, -⟩
    · rw [hg]
    · rw [hg, List.find?_cons_of_neg (by simpa using hs)]
  · intro v hv hs b hb hu
    refine ⟨hb.trans_le ha.next, ?_⟩
    rcases ha.old b hb with hk | hr
    · exact ⟨hk.until_new hs hu, hk.view _ hs⟩
    · -- a recycled block died before every announced snapshot
      obtain ⟨d, hd, rfl, hforgotten⟩ := hr.buried
      obtain ⟨ticket, hticket, hle⟩ := hv.reader
      exact absurd (hu _ (h.grave d hd))
        (not_lt.mpr ((hforgotten.readers ticket hticket).le.trans hle))

end Step

end CMVBT.TreeInvariant
