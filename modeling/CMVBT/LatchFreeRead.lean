import CMVBT.Interleaving
import CMVBT.PageContent
import CMVBT.PageStores

/-!
# Readers without latches, step by step

Any number of threads work on one tree without garbage collection. A writer latches a
page, draws a version, and changes the page in the stores of `PageStores`; new roots
are appended under the latch of the root index, and new blocks are filled before
anyone can reach them. A reader takes no latch. It loads the length of a page and
then one slot after another, and any step of any writer may come in between.

Which page a writer latches and what a new block contains is left open: the searches
of the writers and the copying of splits and merges are not steps here. Every step is
atomic and visible to all threads at once, as on hardware that keeps stores in order;
the source uses relaxed stores. A thread holds one latch at a time. The further
latches of a structure modification protect pages that it does not change.
-/
namespace CMVBT.LatchFreeRead
open KeyInterval LastMatch PageModel CommitClock CMVBT.Tree WritePath ReadPath PageStores RangeScan
open Interleaving (Run Anytime)

variable {K P : Type} [LinearOrder K]

/-! ## Writers -/

/-- The stores to a page that are still to come. -/
inductive Plan (K P : Type) where
  | leaf (stores : List (Store (RecordPoint K P)))
  | internal (stores : List (Store (Entry K)))

/-- One store. -/
def Plan.next : Plan K P → Node K P → Option (Node K P × Plan K P)
  | .leaf (store :: stores), .leaf page => some (.leaf (store.apply page), .leaf stores)
  | .internal (store :: stores), .internal page =>
    some (.internal (store.apply page), .internal stores)
  | _, _ => none

def Plan.isDone : Plan K P → Bool
  | .leaf stores => stores.isEmpty
  | .internal stores => stores.isEmpty

/-- What a writer with version `w` does to the page of block `b`. The checks are those
of the source; that the page has room is what the descent sees to. -/
inductive Plans (cfg : Config K) (t : MVBTSt K P) (b w : ℕ) : Plan K P → Prop
  | insert {page : LeafPage K P} {key : K} {payload : P} : t.heap b = .leaf page →
      page.units.length < cfg.numRecords →
      ((lastRecord page key).map (fun r => !r.version.isDeleted)).getD false = false →
      Plans cfg t b w (.leaf (insertStores page key payload w))
  | update {page : LeafPage K P} {key : K} {payload : P} {stores : List (Store (RecordPoint K P))} :
      t.heap b = .leaf page → page.units.length < cfg.numRecords →
      updateStores page key payload w = some stores → Plans cfg t b w (.leaf stores)
  | delete {page : LeafPage K P} {key : K} {stores : List (Store (RecordPoint K P))} :
      t.heap b = .leaf page → deleteStores page key w = some stores → Plans cfg t b w (.leaf stores)
  | replace {page : InternalPage K} {fresh m : List (Entry K)} {dead : List ℕ} :
      t.heap b = .internal page → page.units.length + fresh.length ≤ cfg.fanOut →
      (∀ e ∈ fresh, e.version = w ∧ PageUnit.isActive e = true ∧ e.pointer < t.nextBlock) →
      dead.Nodup → dead.map (page.units[·]?) = m.map some →
      (∀ e ∈ m, PageUnit.isActive e = true) →
      Plans cfg t b w (.internal
        (replaceStores page fresh (fresh.length - dead.length) dead.length dead))

/-! ## Readers -/

/-- What a reader does in a leaf: a point lookup, or the records of a range. -/
inductive Goal (K : Type) where
  | find (key : K)
  | collect (range : Interval K)
deriving DecidableEq, Repr

/-- What a page has to say: the child to go to, or records. -/
inductive Answer (K P : Type) where
  | route (next : Option (Interval K × ℕ))
  | records (out : List (RecordPointResult K P))

/-- Where a reader stands between two pages: the block of a point read, or the path, the
rest of the range and the records handed out of an iterator that is being collected. -/
inductive Reader (K P : Type) where
  | point (key : K) (block : ℕ)
  | scan (path : List (Interval K × ℕ)) (range : Interval K) (out : List (RecordPointResult K P))
  | done (out : List (RecordPointResult K P))

/-- The top of the loop of the iterator. -/
def Reader.scanOn (path : List (Interval K × ℕ)) (range : Interval K)
    (out : List (RecordPointResult K P)) : Reader K P :=
  if path = [] ∨ range.upper < range.lower then .done out else .scan path range out

/-- The next page, the key to route by if it is a directory, and what to do in a leaf. -/
def Reader.visit : Reader K P → Option (ℕ × K × Goal K)
  | .point key block => some (block, key, .find key)
  | .scan ((_, block) :: _) range _ => some (block, range.lower, .collect range)
  | .scan [] _ _ => none
  | .done _ => none

/-- How a reader goes on; a point read that finds no child panics. -/
def Reader.resume (cfg : Config K) : Reader K P → Answer K P → Option (Reader K P)
  | .point key _, .route (some next) => some (.point key next.2)
  | .point _ _, .route none => none
  | .point _ _, .records out => some (.done out)
  | .scan path range out, .route (some next) => some (.scanOn (next :: path) range out)
  | .scan ((fence, _) :: rest) range out, .route none =>
    some (.scanOn rest { range with lower := cfg.keys.incKey fence.upper } out)
  | .scan ((fence, _) :: rest) range out, .records found =>
    if found = [] ∧ cfg.keys.incKey fence.upper = cfg.keys.maxKey then some (.done out)
    else some (.scanOn rest { range with lower := cfg.keys.incKey fence.upper } (out ++ found))
  | .scan [] _ _, _ => none
  | .done _, _ => none

inductive Request (K : Type) where
  | point (key : K)
  | range (interval : Interval K)
deriving DecidableEq, Repr

/-- The reader at the root of its snapshot. -/
def Request.start (cfg : Config K) (root : ℕ) : Request K → Reader K P
  | .point key => .point key root
  | .range interval => .scanOn [(cfg.keys.full, root)] interval []

/-- A read at a version. History: `since` is the tree when the version was drawn. -/
structure Query (K P : Type) where
  request : Request K
  snapshot : ℕ
  since : MVBTSt K P

/-- Where a reader stands. A search backwards looks at slot `i - 1` next, a collecting one
at slot `i` of the `n` that it has seen the length of. -/
inductive Progress (K P : Type) where
  | root
  | ready (reader : Reader K P)
  | routing (reader : Reader K P) (block : ℕ) (key : K) (i : ℕ)
  | skipping (reader : Reader K P) (block : ℕ) (key : K) (i : ℕ)
  | finding (reader : Reader K P) (block : ℕ) (key : K) (i : ℕ)
  | collecting (reader : Reader K P) (block : ℕ) (range : Interval K) (n i : ℕ)
      (out : List (RecordPointResult K P))
  | answered (reader : Reader K P) (answer : Answer K P)

/-- A step of a reader of version `v`; `t` is the tree at that moment. -/
inductive ReaderStep (cfg : Config K) (t : MVBTSt K P) (request : Request K) (v : ℕ) :
    Progress K P → Progress K P → Prop
  | root {root : ℕ × ℕ} : t.rootFor v = .ok root →
      ReaderStep cfg t request v .root (.ready (request.start cfg root.1))
  -- the length of a page
  | enterInternal {reader : Reader K P} {b : ℕ} {key : K} {goal : Goal K} {page : InternalPage K} :
      reader.visit = some (b, key, goal) → t.heap b = .internal page →
      ReaderStep cfg t request v (.ready reader) (.routing reader b key page.sumLen)
  | enterFind {reader : Reader K P} {b : ℕ} {key k : K} {page : LeafPage K P} :
      reader.visit = some (b, key, .find k) → t.heap b = .leaf page →
      ReaderStep cfg t request v (.ready reader) (.skipping reader b k page.sumLen)
  | enterCollect {reader : Reader K P} {b : ℕ} {key : K} {range : Interval K} {page : LeafPage K P} :
      reader.visit = some (b, key, .collect range) → t.heap b = .leaf page →
      ReaderStep cfg t request v (.ready reader) (.collecting reader b range page.sumLen 0 [])
  -- `rfind` over the entries of a directory
  | routeHit {reader : Reader K P} {b i : ℕ} {key : K} {page : InternalPage K} {e : Entry K} :
      t.heap b = .internal page → page.units[i]? = some e →
      (e.matched v && e.fence.contains key) = true →
      ReaderStep cfg t request v (.routing reader b key (i + 1))
        (.answered reader (.route (some (e.fence, e.pointer))))
  | routeMiss {reader : Reader K P} {b i : ℕ} {key : K} {page : InternalPage K} {e : Entry K} :
      t.heap b = .internal page → page.units[i]? = some e →
      (e.matched v && e.fence.contains key) = false →
      ReaderStep cfg t request v (.routing reader b key (i + 1)) (.routing reader b key i)
  | routeNone {reader : Reader K P} {b : ℕ} {key : K} :
      ReaderStep cfg t request v (.routing reader b key 0) (.answered reader (.route none))
  -- `skip_while` over the newest records of a leaf, then `find`
  | skip {reader : Reader K P} {b i : ℕ} {key : K} {page : LeafPage K P} {r : RecordPoint K P} :
      t.heap b = .leaf page → page.units[i]? = some r → v < r.version.insertVersion →
      ReaderStep cfg t request v (.skipping reader b key (i + 1)) (.skipping reader b key i)
  | skipEnd {reader : Reader K P} {b i : ℕ} {key : K} {page : LeafPage K P} {r : RecordPoint K P} :
      t.heap b = .leaf page → page.units[i]? = some r → ¬ v < r.version.insertVersion →
      ReaderStep cfg t request v (.skipping reader b key (i + 1)) (.finding reader b key (i + 1))
  | skipAll {reader : Reader K P} {b : ℕ} {key : K} :
      ReaderStep cfg t request v (.skipping reader b key 0) (.finding reader b key 0)
  | findHit {reader : Reader K P} {b i : ℕ} {key : K} {page : LeafPage K P} {r : RecordPoint K P} :
      t.heap b = .leaf page → page.units[i]? = some r →
      (r.key == key && r.version.matches v) = true →
      ReaderStep cfg t request v (.finding reader b key (i + 1))
        (.answered reader (.records [RecordPoint.result r]))
  | findMiss {reader : Reader K P} {b i : ℕ} {key : K} {page : LeafPage K P} {r : RecordPoint K P} :
      t.heap b = .leaf page → page.units[i]? = some r →
      (r.key == key && r.version.matches v) = false →
      ReaderStep cfg t request v (.finding reader b key (i + 1)) (.finding reader b key i)
  | findNone {reader : Reader K P} {b : ℕ} {key : K} :
      ReaderStep cfg t request v (.finding reader b key 0) (.answered reader (.records []))
  -- `filter` and `map` over the records of a leaf
  | collect {reader : Reader K P} {b n i : ℕ} {range : Interval K}
      {out : List (RecordPointResult K P)} {page : LeafPage K P} {r : RecordPoint K P} : i < n →
      t.heap b = .leaf page → page.units[i]? = some r →
      ReaderStep cfg t request v (.collecting reader b range n i out)
        (.collecting reader b range n (i + 1)
          (if r.version.matches v && range.contains r.key then out ++ [RecordPoint.result r]
            else out))
  | collected {reader : Reader K P} {b n : ℕ} {range : Interval K}
      {out : List (RecordPointResult K P)} :
      ReaderStep cfg t request v (.collecting reader b range n n out)
        (.answered reader (.records out))
  | resume {reader reader' : Reader K P} {answer : Answer K P} :
      reader.resume cfg answer = some reader' →
      ReaderStep cfg t request v (.answered reader answer) (.ready reader')

/-! ## The system -/

/-- `latch none` is the latch of the root index, `latch (some b)` that of block `b`. -/
structure Shared (K P : Type) where
  tree : MVBTSt K P
  latch : Option ℕ → Option ℕ
  /-- History: the version of each thread that has one and may still write under it. -/
  running : ℕ → Option ℕ

inductive Pc (K P : Type) where
  | idle
  | latched (x : Option ℕ)
  | started (x : Option ℕ) (version : ℕ)
  | writing (block version : ℕ) (plan : Plan K P)
  | rooted (version : ℕ)
  | reading (query : Query K P) (progress : Progress K P)

/-- The latch that a thread holds. -/
def holds : Pc K P → Option (Option ℕ)
  | .latched x => some x
  | .started x _ => some x
  | .writing b _ _ => some (some b)
  | .rooted _ => some none
  | _ => none

/-- A block that nobody can reach yet. -/
def withBlock (t : MVBTSt K P) (node : Node K P) : MVBTSt K P :=
  { t with nextBlock := t.nextBlock + 1 }.setNode t.nextBlock node

/-- The pointers of a node lead to blocks below `n`. -/
def Closed (n : ℕ) (node : Node K P) : Prop :=
  ∀ page, node = .internal page → ∀ e ∈ page.units, e.pointer < n

/-- The atomic steps of thread `i`. -/
inductive Step (cfg : Config K) (i : ℕ) : Shared K P → Pc K P → Shared K P → Pc K P → Prop
  | latch {s : Shared K P} {x : Option ℕ} : s.latch x = none →
      (∀ b, x = some b → b < s.tree.nextBlock) →
      Step cfg i s .idle { s with latch := Function.update s.latch x (some i) } (.latched x)
  | release {s : Shared K P} {x : Option ℕ} :
      Step cfg i s (.latched x) { s with latch := Function.update s.latch x none } .idle
  | start {s : Shared K P} {x : Option ℕ} :
      Step cfg i s (.latched x)
        { s with tree := { s.tree with commit := (s.tree.commit.startCommit i).1 },
                 running := Function.update s.running i (some s.tree.commit.clock) }
        (.started x s.tree.commit.clock)
  -- a delete that finds nothing to end
  | abandon {s : Shared K P} {x : Option ℕ} {version : ℕ} :
      Step cfg i s (.started x version) { s with running := Function.update s.running i none }
        (.latched x)
  | plan {s : Shared K P} {b version : ℕ} {plan : Plan K P} : Plans cfg s.tree b version plan →
      Step cfg i s (.started (some b) version) s (.writing b version plan)
  | store {s : Shared K P} {b version : ℕ} {plan rest : Plan K P} {node : Node K P} :
      plan.next (s.tree.heap b) = some (node, rest) →
      Step cfg i s (.writing b version plan) { s with tree := s.tree.setNode b node }
        (.writing b version rest)
  | finish {s : Shared K P} {b version : ℕ} {plan : Plan K P} : plan.isDone = true →
      Step cfg i s (.writing b version plan)
        { s with tree := { s.tree with commit := s.tree.commit.endCommit i version },
                 running := Function.update s.running i none } (.latched (some b))
  | appendRoot {s : Shared K P} {version block height : ℕ} {t : MVBTSt K P} :
      block < s.tree.nextBlock → s.tree.appendRoot block version height = .ok t →
      Step cfg i s (.started none version) { s with tree := t } (.rooted version)
  | finishRoot {s : Shared K P} {version : ℕ} :
      Step cfg i s (.rooted version)
        { s with tree := { s.tree with commit := s.tree.commit.endCommit i version },
                 running := Function.update s.running i none } (.latched none)
  -- a writer fills a new block
  | allocate {s : Shared K P} {pc : Pc K P} {node : Node K P} : (holds pc).isSome = true →
      PageContent.CountedNode cfg node → Closed s.tree.nextBlock node →
      Step cfg i s pc { s with tree := withBlock s.tree node } pc
  -- a version below all that are running, and below the clock
  | draw {s : Shared K P} {request : Request K} {v : ℕ} : v < s.tree.commit.clock →
      (∀ j w, s.running j = some w → v < w) →
      Step cfg i s .idle s (.reading ⟨request, v, s.tree⟩ .root)
  | read {s : Shared K P} {q : Query K P} {p p' : Progress K P} :
      ReaderStep cfg s.tree q.request q.snapshot p p' →
      Step cfg i s (.reading q p) s (.reading q p')
  | deliver {s : Shared K P} {q : Query K P} {out : List (RecordPointResult K P)} :
      Step cfg i s (.reading q (.ready (.done out))) s .idle

abbrev State (K P : Type) := Interleaving.Config ℕ (Shared K P) (Pc K P)

/-- All threads are idle. -/
def begin (t : MVBTSt K P) : State K P := ⟨⟨t, fun _ => none, fun _ => none⟩, fun _ => .idle⟩

abbrev Runs (cfg : Config K) (c c' : State K P) : Prop := Run (Step cfg) Anytime c c'

end CMVBT.LatchFreeRead
