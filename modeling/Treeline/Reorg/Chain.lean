import Treeline.MemTable.Comparator
import Treeline.Reorg.Plan

/-!
# Reorganizing an overflow chain

`DBImpl::ReorganizeOverflowChain` (`src/db/db_impl_reorg.cc`) takes an overflow chain that
`FixOverflowChain` returned with every frame exclusively fixed, and redistributes its records
over `dist.num_pages()` fresh pages: a first pass over the chain's records collects the page
boundaries, a second pass puts the `i`-th record on page `⌊i / records_per_page⌋`, and the commit
loop writes the pages back from the last to the first, inserting each lower boundary into the
model before unfixing the frame. Surplus frames of a chain that shrank are zeroed.

The procedure is modelled as a function of the chain and the buffer state it starts from that
returns its status, the list of atomic steps it takes on the frames and the model, and the
outcome of each `assert`; `BufferState.run` replays the steps.

## Main definitions

* `Treeline.DBImpl.Page`, `BufferState`, `Step` — chain pages, the frames and the model, and
  the atomic steps of the procedure.
* `Treeline.DBImpl.firstPass`, `secondPass`, `commitSteps` — the two passes and the commit of
  lines 107-187.
* `Treeline.DBImpl.reorganizeOverflowChain` — the whole procedure.

## Main results

* `Treeline.DBImpl.reorganize_empty_chain_zeroes_head` — on a chain with no records the
  assertion of line 135 fails, no page is committed, and the surplus loop zeroes the head page
  that the model still maps the chain's lower boundary to.

## Implementation notes

`PageMergeIterator` and `Page` are not in the modelled sources. The merge follows the spec
(§4.2, a k-way merge in ascending key order); a page keeps its records in key order, and its key
prefix is the common prefix of its boundaries (§3). `Page::Put` is not sized: the reorganization
ignores its result (line 150), and the spec rules out `Full` on these paths (§7).
-/

namespace Treeline.DBImpl

/-- A page of the page-chain variant, decoded: its boundaries `[lower, upper)` (an empty `upper`
is unbounded), its records in key order and the id of the next chain link. -/
structure Page where
  lower : Slice
  upper : Slice
  records : List (Slice × Slice)
  overflow : Option ℕ
  deriving DecidableEq, Repr

/-- A page after `memset(…, 0, Page::kSize)`. -/
def Page.zero : Page := ⟨[], [], [], none⟩

/-- `Page(data, lower, upper)`: an empty page with these boundaries. -/
def Page.init (lower upper : Slice) : Page := ⟨lower, upper, [], none⟩

/-- The common prefix of two slices. -/
def commonPrefix : Slice → Slice → Slice
  | a :: as, b :: bs => if a = b then a :: commonPrefix as bs else []
  | _, _ => []

/-- `Page::GetKeyPrefix()`: the prefix every key of `[lower, upper)` shares. -/
def Page.keyPrefix (p : Page) : Slice := commonPrefix p.lower p.upper

/-- Insert a record into a key-ordered list, replacing the record of the same key. -/
def insertByKey (kv : Slice × Slice) : List (Slice × Slice) → List (Slice × Slice)
  | [] => [kv]
  | x :: xs =>
    match sliceCompare x.1 kv.1 with
    | .lt => x :: insertByKey kv xs
    | .eq => kv :: xs
    | .gt => kv :: x :: xs

/-- `Page::Put`, not under `src/`: it follows the spec's `Put(k, v)` on a key-ordered page (§3). -/
def Page.put (p : Page) (kv : Slice × Slice) : Page := { p with records := insertByKey kv p.records }

/-- `PageMergeIterator` over a chain: the pages' records merged in ascending key order. Not under
`src/`; it follows the spec's k-way ordered merge (§4.2). -/
def pageMergeIterator (pages : List Page) : List (Slice × Slice) :=
  pages.foldl (fun acc p => p.records.foldl (fun acc kv => insertByKey kv acc) acc) []

/-- A buffer frame: its page and whether it is fixed exclusively. -/
structure Frame where
  page : Page
  exclusive : Bool

/-- What the reorganization touches: the frames by page id, the model as a list of
`(lower boundary, page id)` entries in boundary order, and the next page id the file manager
hands out. -/
structure BufferState where
  frames : ℕ → Frame
  model : List (Slice × ℕ)
  nextPageId : ℕ

/-- `Model::Insert(lower, id)`: set the entry of `lower`, keeping boundary order. -/
def modelInsert (lower : Slice) (id : ℕ) : List (Slice × ℕ) → List (Slice × ℕ)
  | [] => [(lower, id)]
  | e :: es =>
    match sliceCompare e.1 lower with
    | .lt => e :: modelInsert lower id es
    | .eq => (lower, id) :: es
    | .gt => (lower, id) :: e :: es

/-- The model's page for key `k`: the entry with the greatest lower boundary not above `k`. -/
def modelLookup (m : List (Slice × ℕ)) (k : Slice) : Option ℕ :=
  ((m.filter fun e => sliceCompare k e.1 ≠ .lt).getLast?).map Prod.snd

/-- An atomic step of the reorganization on the frames and the model. -/
inductive Step
  /-- `AllocatePage()` then `FixPage(id, exclusive, newly allocated)`. -/
  | allocFix (id : ℕ)
  /-- `memcpy` of a page into a frame. -/
  | write (id : ℕ) (p : Page)
  /-- `model_->Insert(lower, id)`. -/
  | insert (lower : Slice) (id : ℕ)
  /-- `memset` of a frame to zero. -/
  | zero (id : ℕ)
  /-- `UnfixPage(frame, is_dirty)`. -/
  | unfix (id : ℕ) (dirty : Bool)
  deriving DecidableEq, Repr

/-- Set the frame of `id`. -/
def BufferState.setFrame (st : BufferState) (id : ℕ) (f : Frame) : BufferState :=
  { st with frames := Function.update st.frames id f }

/-- Perform one step. -/
def BufferState.step (st : BufferState) : Step → BufferState
  | .allocFix id => { st.setFrame id ⟨Page.zero, true⟩ with nextPageId := id + 1 }
  | .write id p => st.setFrame id { st.frames id with page := p }
  | .insert lower id => { st with model := modelInsert lower id st.model }
  | .zero id => st.setFrame id { st.frames id with page := Page.zero }
  | .unfix id _ => st.setFrame id { st.frames id with exclusive := false }

/-- Perform a list of steps. -/
def BufferState.run (st : BufferState) (steps : List Step) : BufferState := steps.foldl step st

/-- The first pass (lines 107-119): the chain's lower boundary, every `r`-th key after the
first record, and the chain's upper boundary. -/
def firstPass (r : ℕ) : ℕ → List (Slice × Slice) → List Slice
  | _, [] => []
  | count, kv :: rest =>
    (if count % r = 0 ∧ 0 < count then [kv.1] else []) ++ firstPass r (count + 1) rest

/-- The second pass (lines 144-153): the `count`-th record goes on page `count / r`
(`std::vector::at`, which throws past the end: `none`). -/
def secondPass (r : ℕ) : ℕ → List (Slice × Slice) → List Page → Option (List Page)
  | _, [], pages => some pages
  | count, kv :: rest, pages => do
    let p ← pages[count / r]?
    secondPass r (count + 1) rest (pages.set (count / r) (p.put kv))

/-- Page `i` of the `n` new pages, written back to `chain[i]`'s frame when there is one, and
otherwise to the page allocated for it (ids counting up from `nextId` as `i` counts down). -/
def commitPage (chain : List ℕ) (nextId n : ℕ) (i : ℕ) (p : Page) : List Step :=
  if h : i < chain.length then [.write chain[i] p, .insert p.lower chain[i], .unfix chain[i] true]
  else
    let id := nextId + (n - 1 - i)
    [.allocFix id, .write id p, .insert p.lower id, .unfix id true]

/-- Lines 155-187: commit the new pages from the last to the first, then zero and unfix the
frames the new pages did not reuse. -/
def commitSteps (chain : List ℕ) (nextId : ℕ) (newPages : List Page) : List Step :=
  (newPages.enum.reverse.flatMap fun ip => commitPage chain nextId newPages.length ip.1 ip.2) ++
    (chain.drop newPages.length).flatMap fun id => [.zero id, .unfix id true]

/-- What the procedure did: its status, its steps in order, and each `assert` with its line. -/
structure ReorgRun where
  status : Status
  steps : List Step
  asserts : List (ℕ × Bool)
  deriving DecidableEq, Repr

/-- `DBImpl::ReorganizeOverflowChain` on the chain `FixOverflowChain` returned (page ids, head
first), from buffer state `st`; `fuel` bounds the fill loop. `none` is a trap, an exception, or a
fill loop that has not stopped. -/
def reorganizeOverflowChain (P : PageLayout) (opts : Options) (st : BufferState)
    (chain : List ℕ) (pageFillPct fuel : ℕ) : Option ReorgRun :=
  match chain with
  | [] => none
  | head :: _ =>
    if chain.length = 1 then some ⟨.ok, [.unfix head false], []⟩
    else if opts.maxReorgFanout < chain.length then
      some ⟨.invalidArgument
          "Chain is too long to be reorganized without violating the maximum reorganization fanout.",
        chain.map (Step.unfix · false), []⟩
    else do
      let headPage := (st.frames head).page
      let dist ← fillLoop P opts.maxReorgFanout fuel
        (initialHints P opts chain.length headPage.keyPrefix.length pageFillPct)
      let r := dist.recordsPerPage P
      let records := pageMergeIterator (chain.map fun id => (st.frames id).page)
      let boundaries := headPage.lower :: firstPass r 0 records ++ [headPage.upper]
      let newNumPages ← { dist with numKeys := records.length }.numPages P
      let pages := (List.range newNumPages).map fun i =>
        Page.init (boundaries.getD i []) (boundaries.getD (i + 1) [])
      let newPages ← secondPass r 0 records pages
      pure ⟨.ok, commitSteps chain st.nextPageId newPages,
        [(121, decide (records.length ≤ dist.numKeys)),
          (135, decide (boundaries.length = newNumPages + 1))]⟩

/-- A chain of two exclusively fixed pages `0 → 1` with interval `[[1], [2])` and no records,
with the model mapping `[1]` to the head. -/
def emptyChainState : BufferState :=
  ⟨fun id => if id = 0 then ⟨⟨[1], [2], [], some 1⟩, true⟩ else ⟨⟨[1], [2], [], none⟩, true⟩,
    [([1], 0)], 2⟩

/-- **An empty chain loses its head.** With no records, `dist.num_pages()` is `0`, so the first
pass's two boundaries fail the assertion of line 135, the commit loop writes nothing, and the
surplus loop zeroes both frames — among them the head, which the model still maps the chain's
lower boundary `[1]` to. -/
theorem reorganize_empty_chain_zeroes_head :
    reorganizeOverflowChain ⟨4000, 4⟩ ⟨4, 16, 8⟩ emptyChainState [0, 1] 50 1 =
      some ⟨.ok, [.zero 0, .unfix 0 true, .zero 1, .unfix 1 true], [(121, true), (135, false)]⟩ ∧
    modelLookup (emptyChainState.run [.zero 0, .unfix 0 true, .zero 1, .unfix 1 true]).model [1] =
      some 0 ∧
    ((emptyChainState.run [.zero 0, .unfix 0 true, .zero 1, .unfix 1 true]).frames 0).page =
      Page.zero := by
  decide

end Treeline.DBImpl
