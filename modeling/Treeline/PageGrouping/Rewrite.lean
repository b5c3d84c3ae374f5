import Mathlib.Data.List.Sort
import Treeline.PageGrouping.Load

/-!
# Rewriting segments and flattening chains

`Manager::RewriteSegments` (`src/page_grouping/manager_rewrite.cc`, lines 135-431) rewrites the
segment at `segment_base` — with its neighbours that have overflow pages, when
`consider_neighbors_during_rewrite` is set — together with a sorted batch of new records. It
reads the segments one by one into a sliding window of 64 page slots, drives their records and
the batch through a `PagePlusRecordMerger` into the `SegmentBuilder`, writes each segment the
builder emits with `LoadIntoNewSegment`, and frees window slots once the builder no longer needs
their records. At the end the old segments and overflow pages are zeroed and freed and the index
is updated. `Manager::FlattenChain` (lines 433-533) handles a one-page segment with its overflow
page directly: it merges both pages with the batch and writes the result with
`LoadIntoNewPages`.

## Main definitions

* `Treeline.Pg.PageChain`, `CircularPageBuffer`, `PagePlusRecordMerger` — the window's chains,
  the ring of slots, and the merger.
* `Treeline.Pg.SegmentBuilder` — the interface of the builder, an external collaborator.
* `Treeline.Pg.RewriteState`, `Event` — the state of a rewrite and what it logs.
* `Treeline.Pg.selectSegments`, `rewriteOne`, `rewriteSegments` — `RewriteSegments`.
* `Treeline.Pg.flattenMerge`, `flattenChain` — `FlattenChain`.

## Implementation notes

`CircularPageBuffer`, `PageMergeIterator` and `SegmentBuilder` are not in the modelled sources.
The ring follows the spec (§4.4): `Allocate` fails when full and `Free` releases the oldest
outstanding slot, both modelled as a trap (`none`) when impossible. The builder is a parameter: a
state machine with `Offer`, `Finish` and `CurrentBaseKey`. With or without background threads
the same pages are zeroed and the same ids freed before the procedures return, so the model has
one path for both.
-/

namespace Treeline.Pg

/-- `PageChain`: the window slot of a main page and the slot of its overflow page, if any. -/
structure PageChain where
  main : ℕ
  overflow : Option ℕ
  deriving DecidableEq, Repr

/-- `PageChain::NumPages()`. -/
def PageChain.numPages (pc : PageChain) : ℕ := if pc.overflow.isSome then 2 else 1

/-- `CircularPageBuffer`: `capacity` page slots, of which `count` are outstanding from `head`
on, in allocation order. Not under `src/`; it follows the spec's ring allocator (§4.4). -/
structure CircularPageBuffer where
  capacity : ℕ
  slots : ℕ → Page
  head : ℕ
  count : ℕ

/-- `CircularPageBuffer(capacity)`. -/
def CircularPageBuffer.create (capacity : ℕ) : CircularPageBuffer :=
  ⟨capacity, fun _ => Page.zero, 0, 0⟩

/-- `CircularPageBuffer::NumFreePages()`. -/
def CircularPageBuffer.numFreePages (b : CircularPageBuffer) : ℕ := b.capacity - b.count

/-- `CircularPageBuffer::Allocate()`: the slot after the outstanding ones; fails when full. -/
def CircularPageBuffer.allocate (b : CircularPageBuffer) : Option (ℕ × CircularPageBuffer) :=
  if b.count < b.capacity then some ((b.head + b.count) % b.capacity, { b with count := b.count + 1 })
  else none

/-- `CircularPageBuffer::Free()`: release the oldest outstanding slot. -/
def CircularPageBuffer.free (b : CircularPageBuffer) : Option (ℕ × CircularPageBuffer) :=
  if 0 < b.count then some (b.head, { b with head := (b.head + 1) % b.capacity, count := b.count - 1 })
  else none

/-- A `memcpy` into a slot. -/
def CircularPageBuffer.write (b : CircularPageBuffer) (slot : ℕ) (p : Page) : CircularPageBuffer :=
  { b with slots := Function.update b.slots slot p }

/-- Insert a record into a key-ordered run after the records of smaller or equal key. -/
def mergeInsert (r : Record) : List Record → List Record
  | [] => [r]
  | x :: xs => if x.1 ≤ r.1 then x :: mergeInsert r xs else r :: x :: xs

/-- `PageMergeIterator` over some pages: their records merged in ascending key order. Not under
`src/`; it follows the spec's k-way ordered merge (§4.2). -/
def pageMergeIterator (pages : List Page) : List Record :=
  pages.foldl (fun acc p => p.records.foldl (fun acc r => mergeInsert r acc) acc) []

/-- `PageChain::GetIterator()`: the records of the chain's pages, merged. -/
def PageChain.records (b : CircularPageBuffer) (pc : PageChain) : List Record :=
  pageMergeIterator (b.slots pc.main :: (pc.overflow.map b.slots).toList)

/-- `PageChain::LargestKey()`: the larger of the pages' last keys; none for an empty chain. -/
def PageChain.largestKey (b : CircularPageBuffer) (pc : PageChain) : Option ℕ :=
  let mainLast := ((b.slots pc.main).records.getLast?).map Prod.fst
  match pc.overflow.bind fun o => ((b.slots o).records.getLast?).map Prod.fst with
  | none => mainLast
  | some o => some (match mainLast with | none => o | some l => max l o)

/-- `PagePlusRecordMerger`: the records left on the current page chain and in the batch. -/
structure PagePlusRecordMerger where
  pmi : List Record
  it : List Record
  deriving DecidableEq, Repr

/-- `PagePlusRecordMerger::GetNext()`: the smaller head; on equal keys the batch record, and
both sides advance. `none` when both are empty (the assertion of line 89). -/
def PagePlusRecordMerger.getNext : PagePlusRecordMerger → Option (Record × PagePlusRecordMerger)
  | ⟨[], []⟩ => none
  | ⟨[], r :: rest⟩ => some (r, ⟨[], rest⟩)
  | ⟨p :: ps, []⟩ => some (p, ⟨ps, []⟩)
  | ⟨p :: ps, r :: rest⟩ =>
    if r.1 ≤ p.1 then some (r, ⟨if r.1 = p.1 then ps else p :: ps, rest⟩)
    else some (p, ⟨ps, r :: rest⟩)

/-- `PagePlusRecordMerger::HasPageRecords()`. -/
def PagePlusRecordMerger.hasPageRecords (pm : PagePlusRecordMerger) : Bool := !pm.pmi.isEmpty

/-- `PagePlusRecordMerger::HasRecords()`. -/
def PagePlusRecordMerger.hasRecords (pm : PagePlusRecordMerger) : Bool :=
  pm.hasPageRecords || !pm.it.isEmpty

/-- The `SegmentBuilder` as the rewrite uses it: a state machine built from the page goal and
delta, offered records one by one, finished on demand, and asked for the first key it still
holds. -/
structure SegmentBuilder (σ : Type) where
  init : ℕ → ℕ → σ
  offer : σ → Record → σ × List Segment
  finish : σ → σ × List Segment
  currentBaseKey : σ → Option ℕ

/-- The options of `pg::Manager` the rewrite reads. -/
structure Options where
  recordsPerPageGoal : ℕ
  recordsPerPageDelta : ℕ
  considerNeighborsDuringRewrite : Bool

/-- What a rewrite does that the final state does not show. -/
inductive Event
  /-- An `assert` at a line, and whether it held. -/
  | assertion (line : ℕ) (holds : Bool)
  /-- `CircularPageBuffer::Allocate()` returned this slot. -/
  | allocate (slot : ℕ)
  /-- A processed chain was popped, and `Free()` released these slots for it. -/
  | release (chain : PageChain) (freed : List ℕ)
  /-- The records of the chain just released, as its slots held them. The source logs nothing
  here: the event records what the free drops, so that it can be stated over a whole run. -/
  | retire (records : List Record)
  /-- A record was offered to the builder. -/
  | offer (r : Record)
  /-- `LoadIntoNewSegment` wrote a segment with this upper bound. -/
  | load (seg : Segment) (upperBound : ℕ)
  deriving DecidableEq, Repr

/-- The state of a rewrite. -/
structure RewriteState (σ : Type) where
  mgr : Manager
  builder : σ
  pageBuf : CircularPageBuffer
  toProcess : List PageChain
  processed : List PageChain
  merger : PagePlusRecordMerger
  rewritten : Index
  overflowsToClear : List SegmentId
  log : List Event

section Rewrite

variable {σ : Type} (B : SegmentBuilder σ) (sequenceNumber : ℕ)

/-- Write one emitted segment with its upper bound and record its index entry. -/
def RewriteState.loadOne (s : RewriteState σ) (seg : Segment) (upperBound : ℕ) : RewriteState σ :=
  let (m, e) := s.mgr.loadIntoNewSegment sequenceNumber seg upperBound
  { s with mgr := m, rewritten := s.rewritten ++ [e], log := s.log ++ [.load seg upperBound] }

/-- Lines 225-257: each segment's upper bound is the next segment's base key; the last one's is
the builder's current base key, or, with the builder empty, the first index key above its last
record, or the largest key. -/
def loadSegments : List Segment → RewriteState σ → RewriteState σ
  | [], s => s
  | [seg], s =>
    s.loadOne sequenceNumber seg (match B.currentBaseKey s.builder with
      | some k => k
      | none => (indexUpperBound s.mgr.index ((seg.records.getLast?.map Prod.fst).getD 0)).getD kMaxKey)
  | seg :: next :: rest, s => loadSegments (next :: rest) (s.loadOne sequenceNumber seg next.baseKey)

/-- Release a processed chain: one `Free()` per page of the chain; the log also keeps the records
the chain held. -/
def RewriteState.freeChain (s : RewriteState σ) (pc : PageChain) : Option (RewriteState σ) := do
  let (a, b₁) ← s.pageBuf.free
  let (freed, b) ← if pc.overflow.isSome then (b₁.free.map fun (c, b₂) => ([a, c], b₂))
    else some ([a], b₁)
  pure { s with pageBuf := b, log := s.log ++ [.release pc freed, .retire (pc.records s.pageBuf)] }

/-- Whether a processed chain may leave the window (lines 262-272): the builder is empty, or the
chain's largest key is below the builder's current base key; an empty chain may always leave. -/
def PageChain.safeToFree (b : CircularPageBuffer) (pc : PageChain) (next : Option ℕ) : Bool :=
  match next, pc.largestKey b with
  | some k, some lk => lk < k
  | _, _ => true

/-- Lines 259-292: pop processed chains from the front while they may leave the window. -/
def freeProcessed (next : Option ℕ) : List PageChain → RewriteState σ → Option (RewriteState σ)
  | [], s => some { s with processed := [] }
  | pc :: rest, s =>
    if pc.safeToFree s.pageBuf next then (s.freeChain pc).bind (freeProcessed next rest)
    else some { s with processed := pc :: rest }

/-- `load_into_segments_and_free_pages`. -/
def loadAndFree (segs : List Segment) (s : RewriteState σ) : Option (RewriteState σ) :=
  let s := loadSegments B sequenceNumber segs s
  freeProcessed (B.currentBaseKey s.builder) s.processed s

/-- A flush of the window (lines 297-304 and 310-317): `Finish()` the builder, assert it
returned segments, write them and free chains, and assert that `need` slots are now free. -/
def flush (lineNonEmpty lineFits need : ℕ) (s : RewriteState σ) : Option (RewriteState σ) := do
  let (b, segs) := B.finish s.builder
  let s ← loadAndFree B sequenceNumber segs
    { s with builder := b, log := s.log ++ [.assertion lineNonEmpty !segs.isEmpty] }
  pure { s with log := s.log ++ [.assertion lineFits (decide (need ≤ s.pageBuf.numFreePages))] }

/-- The two guarded flushes of lines 296-305 and 309-318: flush when fewer than `need` slots
are free. -/
def makeRoom (lineNonEmpty lineFits need : ℕ) (s : RewriteState σ) : Option (RewriteState σ) :=
  if s.pageBuf.numFreePages < need then flush B sequenceNumber lineNonEmpty lineFits need s else some s

/-- Offer records to the builder while `more` holds of the merger (lines 352-356 with
`HasPageRecords`, lines 367-371 with `HasRecords`); `fuel` bounds the iterations. -/
def drainWhile (more : PagePlusRecordMerger → Bool) : ℕ → RewriteState σ → Option (RewriteState σ)
  | 0, _ => none
  | fuel + 1, s =>
    if more s.merger then do
      let (r, pm) ← s.merger.getNext
      let (b, segs) := B.offer s.builder r
      let s := { s with merger := pm, builder := b, log := s.log ++ [.offer r] }
      let s ← if segs.isEmpty then pure s else loadAndFree B sequenceNumber segs s
      drainWhile more fuel s
    else some s

/-- The number of iterations a drain takes at most, plus the final test. -/
def PagePlusRecordMerger.fuel (pm : PagePlusRecordMerger) : ℕ := pm.pmi.length + pm.it.length + 1

/-- Lines 348-361: point the merger at each chain in turn, drain it, and move it to the
processed chains. -/
def processChains : List PageChain → RewriteState σ → Option (RewriteState σ)
  | [], s => some s
  | pc :: rest, s => do
    let s := { s with merger := { s.merger with pmi := pc.records s.pageBuf } }
    let s ← drainWhile B sequenceNumber PagePlusRecordMerger.hasPageRecords s.merger.fuel s
    processChains rest { s with processed := s.processed ++ [pc], toProcess := rest }

/-- `ForEachPage` of lines 323-338: a main slot for every page and an overflow slot for every
page with an overflow; the overflow ids to load and to clear. -/
def allocChains : List Page → RewriteState σ →
    Option (RewriteState σ × List PageChain × List (SegmentId × ℕ))
  | [], s => some (s, [], [])
  | p :: ps, s =>
    match p.overflow with
    | some ov => do
      let (mainSlot, b₁) ← s.pageBuf.allocate
      let (ovSlot, b₂) ← b₁.allocate
      let s := { s with
        pageBuf := b₂.write mainSlot p
        overflowsToClear := s.overflowsToClear ++ [ov]
        log := s.log ++ [.allocate mainSlot, .allocate ovSlot] }
      let (s, chains, loads) ← allocChains ps s
      pure (s, ⟨mainSlot, some ovSlot⟩ :: chains, (ov, ovSlot) :: loads)
    | none => do
      let (mainSlot, b₁) ← s.pageBuf.allocate
      let s := { s with pageBuf := b₁.write mainSlot p, log := s.log ++ [.allocate mainSlot] }
      let (s, chains, loads) ← allocChains ps s
      pure (s, ⟨mainSlot, none⟩ :: chains, loads)

/-- The workspace pages `SegmentWrap` sees for a segment of `n` pages. -/
def Manager.bufferPages (m : Manager) (n : ℕ) : List Page := (List.range n).map m.buffer

/-- One iteration of lines 295-362: make room, read the segment, make room for its overflows,
copy its pages into the window, read the overflows, and process the chains. -/
def rewriteOne (s : RewriteState σ) (info : SegmentInfo) : Option (RewriteState σ) := do
  let pages := info.pageCount
  let s ← makeRoom B sequenceNumber 301 303 pages s
  let s := { s with mgr := s.mgr.readSegment info.id pages }
  let numOverflows := ((s.mgr.bufferPages pages).filter fun p => p.overflow.isSome).length
  let s ← makeRoom B sequenceNumber 314 316 (pages + numOverflows) s
  let (s, chains, loads) ← allocChains (s.mgr.bufferPages pages) s
  let s := { s with pageBuf := loads.foldl (fun b (l : SegmentId × ℕ) => b.write l.2 (s.mgr.readPage l.1 0)) s.pageBuf }
  processChains B sequenceNumber (s.toProcess ++ chains) { s with toProcess := s.toProcess ++ chains }

end Rewrite

/-- Lines 143-174: `(segment_base, info)` for the first index entry at or above `segment_base`,
with, when neighbours are considered, the run of entries with overflow pages right before it and
right after it; sorted by key. `none` when no entry is at or above `segment_base`. -/
def selectSegments (idx : Index) (segmentBase : ℕ) (considerNeighbors : Bool) :
    Option (List (ℕ × SegmentInfo)) :=
  let pos := (idx.takeWhile fun e => e.1 < segmentBase).length
  match idx.get? pos with
  | none => none
  | some e =>
    if considerNeighbors then
      some (((segmentBase, e.2) :: ((idx.take pos).reverse.takeWhile fun e => e.2.hasOverflow) ++
        ((idx.drop (pos + 1)).takeWhile fun e => e.2.hasOverflow)).insertionSort fun a b => a.1 ≤ b.1)
    else some [(segmentBase, e.2)]

/-! ## The segments to rewrite -/

/-- `index_.lower_bound(e.1)` (lines 143 and 436) in an index `lo ++ e :: hi` whose entries below
`e` are `lo`: the entries below `e.1` are `lo`, and the next one is `e`. -/
lemma lookup_split {lo hi : Index} {e : ℕ × SegmentInfo} (hlo : ∀ x ∈ lo, x.1 < e.1) :
    ((lo ++ e :: hi).takeWhile fun x => x.1 < e.1).length = lo.length ∧
      (lo ++ e :: hi).get? lo.length = some e := by
  constructor
  · rw [List.takeWhile_append_of_pos (by simpa using hlo), List.takeWhile_cons_of_neg (by simp),
      List.append_nil]
  · rw [List.get?_eq_getElem?, List.getElem?_append_right le_rfl, Nat.sub_self]
    exact List.getElem?_cons_zero

/-- The selection around the entry `e` of an index `lo ++ e :: hi` whose entries below `e` are
`lo`: the scans go backward through `lo` and forward through `hi`. -/
lemma selectSegments_split {lo hi : Index} {e : ℕ × SegmentInfo} (hlo : ∀ x ∈ lo, x.1 < e.1)
    (c : Bool) : selectSegments (lo ++ e :: hi) e.1 c = some (if c then
      ((e :: (lo.reverse.takeWhile fun x => x.2.hasOverflow) ++
        (hi.takeWhile fun x => x.2.hasOverflow)).insertionSort fun a b => a.1 ≤ b.1) else [e]) := by
  obtain ⟨hpos, hget⟩ := @lookup_split lo hi e hlo
  simp only [selectSegments, hpos, hget]
  cases c <;> simp

/-- Sorting by key a permutation of a run whose keys strictly ascend gives the run back. -/
lemma insertionSort_eq_of_perm {X T : Index} (hp : X.Perm T) (hT : T.Sorted) :
    X.insertionSort (fun a b => a.1 ≤ b.1) = T := by
  haveI : IsTotal (ℕ × SegmentInfo) fun a b => a.1 ≤ b.1 := ⟨fun a b => le_total a.1 b.1⟩
  haveI : IsTrans (ℕ × SegmentInfo) fun a b => a.1 ≤ b.1 := ⟨fun _ _ _ => le_trans⟩
  haveI : IsAntisymm (ℕ × SegmentInfo) fun a b => a.1 < b.1 :=
    ⟨fun _ _ h h' => absurd (h.trans h') (lt_irrefl _)⟩
  have hperm := (List.perm_insertionSort (fun a b : ℕ × SegmentInfo => a.1 ≤ b.1) X).trans hp
  have hne : (X.insertionSort fun a b => a.1 ≤ b.1).Pairwise fun a b => a.1 ≠ b.1 :=
    (hperm.pairwise_iff Ne.symm).mpr (hT.imp ne_of_lt)
  exact List.eq_of_perm_of_sorted hperm
    (((List.sorted_insertionSort (fun a b : ℕ × SegmentInfo => a.1 ≤ b.1) X).and hne).imp fun h => lt_of_le_of_ne h.1 h.2) hT

/-- The first element of what `dropWhile p` leaves fails `p`. -/
lemma head?_dropWhile_false {α : Type} (p : α → Bool) (l : List α) :
    ∀ x ∈ (l.dropWhile p).head?, p x = false := by
  intro x hx
  have h := List.head?_dropWhile_not p l
  rw [Option.mem_def.mp hx] at h
  exact h

/-- An index around one of its entries, cut where the runs of entries with overflow pages on either
side of it end. -/
lemma split_around_run (lo hi : Index) (e : ℕ × SegmentInfo) :
    lo ++ e :: hi = (lo.reverse.dropWhile fun x => x.2.hasOverflow).reverse ++
      ((lo.reverse.takeWhile fun x => x.2.hasOverflow).reverse ++ e ::
        hi.takeWhile fun x => x.2.hasOverflow) ++ hi.dropWhile fun x => x.2.hasOverflow := by
  have hlo : lo = (lo.reverse.dropWhile fun x => x.2.hasOverflow).reverse ++
      (lo.reverse.takeWhile fun x => x.2.hasOverflow).reverse := by
    rw [← List.reverse_append, List.takeWhile_append_dropWhile, List.reverse_reverse]
  conv_lhs => rw [hlo, ← List.takeWhile_append_dropWhile (fun x : ℕ × SegmentInfo => x.2.hasOverflow) hi]
  simp

/-- With neighbours considered, the selection around an entry of a sorted index is the run of
entries with overflow pages around it, in index order. -/
lemma selectSegments_true_split {lo hi : Index} {e : ℕ × SegmentInfo} (hs : (lo ++ e :: hi).Sorted)
    (hlo : ∀ x ∈ lo, x.1 < e.1) : selectSegments (lo ++ e :: hi) e.1 true =
      some ((lo.reverse.takeWhile fun x => x.2.hasOverflow).reverse ++ e ::
        hi.takeWhile fun x => x.2.hasOverflow) := by
  have hT : Index.Sorted ((lo.reverse.takeWhile fun x => x.2.hasOverflow).reverse ++ e ::
      hi.takeWhile fun x => x.2.hasOverflow) :=
    List.Pairwise.sublist ((List.sublist_append_right _ _).trans (List.sublist_append_left _ _))
      (split_around_run lo hi e ▸ hs)
  rw [selectSegments_split hlo, if_pos rfl, insertionSort_eq_of_perm ?_ hT]
  exact (((List.reverse_perm _).append_right _).symm.cons _).trans List.perm_middle.symm

/-- On one of the keys of a sorted index, the rewrite set is a run of consecutive entries, with
or without neighbours. -/
lemma selectSegments_run {idx : Index} (hs : idx.Sorted) {b : ℕ} {info : SegmentInfo}
    (hmem : (b, info) ∈ idx) (c : Bool) :
    ∃ pre run post, idx = pre ++ run ++ post ∧ selectSegments idx b c = some run := by
  obtain ⟨lo, hi, rfl, hlo, -, -, -⟩ := hs.split hmem
  cases c
  · exact ⟨lo, [(b, info)], hi, by simp, by rw [selectSegments_split hlo]; rfl⟩
  · exact ⟨_, _, _, split_around_run lo hi _, selectSegments_true_split hs hlo⟩

/-- **The rewrite set with neighbours is the maximal overflowing run around `segment_base`.**
For a sorted index and one of its keys, the selection of lines 143-174 with
`consider_neighbors_during_rewrite` is a contiguous run of index entries, so sorted by key with
each key paired with its own entry; it holds the entry of `segment_base`, every other entry of it
has overflow pages, and the entries just outside it on either side, where there are any, have
none. -/
theorem selectSegments_maximal_run {idx : Index} (hs : idx.Sorted) {b : ℕ} {info : SegmentInfo}
    (hmem : (b, info) ∈ idx) :
    ∃ pre run post, idx = pre ++ run ++ post ∧ selectSegments idx b true = some run ∧
      (b, info) ∈ run ∧ (∀ e ∈ run, e ≠ (b, info) → e.2.hasOverflow = true) ∧
      (∀ e ∈ pre.getLast?, e.2.hasOverflow = false) ∧
      (∀ e ∈ post.head?, e.2.hasOverflow = false) := by
  obtain ⟨lo, hi, rfl, hlo, -, -, -⟩ := hs.split hmem
  refine ⟨_, _, _, split_around_run lo hi _, selectSegments_true_split hs hlo, by simp, ?_, ?_,
    head?_dropWhile_false _ hi⟩
  · -- every other member has overflow pages
    intro e he hne
    simp only [List.mem_append, List.mem_reverse, List.mem_cons, hne, false_or] at he
    exact he.elim List.mem_takeWhile_imp List.mem_takeWhile_imp
  · -- the entry before the run has none
    rw [List.getLast?_reverse]
    exact head?_dropWhile_false _ _

/-- An index of five one-page segments, those at `10`, `30` and `40` with overflow pages. -/
def selectionScenario : Index :=
  [(0, ⟨⟨0, 0⟩, none, false⟩), (10, ⟨⟨0, 1⟩, none, true⟩), (20, ⟨⟨0, 2⟩, none, false⟩),
    (30, ⟨⟨0, 3⟩, none, true⟩), (40, ⟨⟨0, 4⟩, none, true⟩)]

/-- Rewriting at `20` takes the run from `10` to the end of the index. -/
theorem selectSegments_maximal_run_scenario :
    selectionScenario.Sorted ∧ ((20 : ℕ), (⟨⟨0, 2⟩, none, false⟩ : SegmentInfo)) ∈ selectionScenario ∧
      ∃ pre run post, selectionScenario = pre ++ run ++ post ∧
        selectSegments selectionScenario 20 true = some run ∧ (20, ⟨⟨0, 2⟩, none, false⟩) ∈ run ∧
        (∀ e ∈ run, e ≠ (20, ⟨⟨0, 2⟩, none, false⟩) → e.2.hasOverflow = true) ∧
        (∀ e ∈ pre.getLast?, e.2.hasOverflow = false) ∧ (∀ e ∈ post.head?, e.2.hasOverflow = false) :=
  have hs : selectionScenario.Sorted := by unfold Index.Sorted selectionScenario; decide
  have hmem : ((20 : ℕ), (⟨⟨0, 2⟩, none, false⟩ : SegmentInfo)) ∈ selectionScenario := by
    unfold selectionScenario; decide
  ⟨hs, hmem, selectSegments_maximal_run hs hmem⟩

/-- Mark a segment invalid: zero its page `0` and add its id to the free list (lines 384-413
and 509-525). -/
def Manager.invalidate (m : Manager) (id : SegmentId) : Manager :=
  { (m.writePage id 0 Page.zero) with free := m.free.add id }

@[simp] lemma Manager.invalidate_index (m : Manager) (id : SegmentId) :
    (m.invalidate id).index = m.index := rfl

@[simp] lemma Manager.invalidate_free (m : Manager) (id : SegmentId) :
    (m.invalidate id).free = id :: m.free := rfl

@[simp] lemma Manager.invalidate_fileEnd (m : Manager) (id : SegmentId) :
    (m.invalidate id).fileEnd = m.fileEnd := rfl

@[simp] lemma Manager.invalidate_nextSequenceNumber (m : Manager) (id : SegmentId) :
    (m.invalidate id).nextSequenceNumber = m.nextSequenceNumber := rfl

lemma Manager.readPage_invalidate (m : Manager) (id id' : SegmentId) (i : ℕ) :
    (m.invalidate id).readPage id' i = if id' = id ∧ i = 0 then Page.zero else m.readPage id' i := by
  split_ifs with h
  · obtain ⟨rfl, rfl⟩ := h; exact m.readPage_writePage_self _ 0 Page.zero
  · exact m.readPage_writePage_of_ne _ (not_and_or.mp h)

/-- Invalidating a list of ids zeroes page `0` of each and pushes each onto the free list;
nothing else changes. -/
lemma Manager.foldl_invalidate (ids : List SegmentId) : ∀ m : Manager,
    (ids.foldl Manager.invalidate m).index = m.index ∧
      (ids.foldl Manager.invalidate m).free = ids.reverse ++ m.free ∧
      (ids.foldl Manager.invalidate m).fileEnd = m.fileEnd ∧
      (ids.foldl Manager.invalidate m).nextSequenceNumber = m.nextSequenceNumber ∧
      ∀ id i, (ids.foldl Manager.invalidate m).readPage id i =
        if id ∈ ids ∧ i = 0 then Page.zero else m.readPage id i := by
  induction ids with
  | nil => simp
  | cons x ids ih =>
    intro m
    obtain ⟨h1, h2, h3, h4, h5⟩ := ih (m.invalidate x)
    refine ⟨h1, by simp [h2], h3, h4, fun id i => ?_⟩
    rw [List.foldl_cons, h5, Manager.readPage_invalidate]
    by_cases h0 : i = 0 <;> by_cases hx : id = x <;> simp [hx, h0]

/-- Lines 379-422: zero page `0` of every old segment and overflow page and free them, then erase
the old keys from the index (asserting each was there) and insert the new entries. -/
def finishRewrite (m : Manager) (toRewrite : List (ℕ × SegmentInfo)) (overflows : List SegmentId)
    (rewritten : Index) : Manager × List Event :=
  let m := (toRewrite.map (fun e => e.2.id) ++ overflows).foldl Manager.invalidate
    { m with buffer := Function.update m.buffer 0 Page.zero }
  let checks := toRewrite.map fun e => Event.assertion 418 (m.index.any fun x => x.1 = e.1)
  let idx := toRewrite.foldl (fun idx e => indexErase idx e.1) m.index
  ({ m with index := rewritten.foldl (fun idx e => indexInsert e idx) idx }, checks)

/-- `Manager::RewriteSegments(segment_base, batch)`: the store afterwards and the rewrite's log;
`none` is a trap. -/
def rewriteSegments {σ : Type} (B : SegmentBuilder σ) (opts : Options) (m : Manager)
    (segmentBase : ℕ) (batch : List Record) : Option (Manager × List Event) := do
  let toRewrite ← selectSegments m.index segmentBase opts.considerNeighborsDuringRewrite
  let sequenceNumber := m.nextSequenceNumber
  let s₀ : RewriteState σ :=
    ⟨{ m with nextSequenceNumber := m.nextSequenceNumber + 1 },
      B.init opts.recordsPerPageGoal opts.recordsPerPageDelta, CircularPageBuffer.create (16 * 4),
      [], [], ⟨[], batch⟩, [], [], []⟩
  let s ← toRewrite.foldlM (fun s e => rewriteOne B sequenceNumber s e.2) s₀
  let s := { s with log := s.log ++ [.assertion 364 !s.merger.hasPageRecords] }
  let s ← drainWhile B sequenceNumber PagePlusRecordMerger.hasRecords s.merger.fuel s
  let (b, segs) := B.finish s.builder
  let s ← if segs.isEmpty then pure { s with builder := b }
    else loadAndFree B sequenceNumber segs { s with builder := b }
  let (m, checks) := finishRewrite s.mgr toRewrite s.overflowsToClear s.rewritten
  pure (m, s.log ++ checks)

/-- The merge loop of `FlattenChain` (lines 464-492): the smaller key first, the batch record on
equal keys, then whichever side is left. `fuel` bounds the first loop; the sum of the lengths is
enough. -/
def flattenMerge : ℕ → List Record → List Record → List Record
  | _, ps, [] => ps
  | _, [], rs => rs
  | 0, ps, rs => ps ++ rs
  | fuel + 1, p :: ps, r :: rs =>
    if p.1 = r.1 then r :: flattenMerge fuel ps rs
    else if p.1 < r.1 then p :: flattenMerge fuel ps (r :: rs)
    else r :: flattenMerge fuel (p :: ps) rs

/-- The pages of a one-page segment's chain: its page `0` and the overflow page it names. -/
def Manager.chainPages (m : Manager) (id : SegmentId) : List Page :=
  m.readPage id 0 :: ((m.readPage id 0).overflow.map fun o => m.readPage o 0).toList

/-- `Manager::FlattenChain(base, batch)` with `records_per_page_goal = goal`: read the segment at
the first index entry at or above `base` and its overflow page, merge them with the batch, write
the result with `LoadIntoNewPages` under the next sequence number, zero and free the old pages,
and replace the index entry of `base` with the new pages. -/
def flattenChain (goal : ℕ) (m : Manager) (base : ℕ) (batch : List Record) : Option Manager := do
  let pos := (m.index.takeWhile fun e => e.1 < base).length
  let e ← m.index.get? pos
  let upper := ((m.index.drop (pos + 1)).head?.map Prod.fst).getD kMaxKey
  let pmi := pageMergeIterator (m.chainPages e.2.id)
  let records := flattenMerge (pmi.length + batch.length) pmi batch
  let sequenceNumber := m.nextSequenceNumber
  let (m', newPages) ← { m with nextSequenceNumber := sequenceNumber + 1 }.loadIntoNewPages goal
    sequenceNumber base upper records
  let m' := (m.readPage e.2.id 0).overflow.toList.foldl Manager.invalidate (m'.invalidate e.2.id)
  pure { m' with index := newPages.foldl (fun idx e => indexInsert e idx) (indexErase m'.index base) }

/-- The assertions of lines 437-439 as `FlattenChain` evaluates them on entry: an entry at or
above `base` (without one the lookup traps, and so does `flattenChain`), whose key is `base`, of
one page. `flattenChain` goes on past the last two, as a build without assertions does. -/
def flattenChainAssertions (m : Manager) (base : ℕ) : List Event :=
  match m.index.get? (m.index.takeWhile fun e => e.1 < base).length with
  | none => [.assertion 437 false]
  | some e => [.assertion 437 true, .assertion 438 (decide (base = e.1)),
      .assertion 439 (decide (e.2.pageCount = 1))]

/-- **The assertions of `FlattenChain` hold exactly on the key of a one-page segment.** -/
lemma flattenChainAssertions_hold {m : Manager} (hs : m.index.Sorted) {base : ℕ} :
    (∀ line ok, Event.assertion line ok ∈ flattenChainAssertions m base → ok = true) ↔
      ∃ info, (base, info) ∈ m.index ∧ info.pageCount = 1 := by
  constructor
  · intro h
    unfold flattenChainAssertions at h
    split at h
    · exact absurd (h 437 false (.head _)) Bool.false_ne_true
    · rename_i e he
      have h438 := h 438 _ (.tail _ (.head _))
      have h439 := h 439 _ (.tail _ (.tail _ (.head _)))
      rw [decide_eq_true_eq] at h438 h439
      exact ⟨e.2, h438 ▸ List.get?_mem he, h439⟩
  · rintro ⟨info, hmem, hpc⟩ line ok hev
    obtain ⟨lo, hi, hidx, hlo, -, -, -⟩ := hs.split hmem
    obtain ⟨hpos, hget⟩ := @lookup_split lo hi (base, info) hlo
    simp only [flattenChainAssertions, hidx, hpos, hget, hpc, decide_True, List.mem_cons,
      Event.assertion.injEq, List.mem_singleton, List.not_mem_nil, or_false] at hev
    rcases hev with ⟨-, rfl⟩ | ⟨-, rfl⟩ | ⟨-, rfl⟩ <;> rfl

end Treeline.Pg
