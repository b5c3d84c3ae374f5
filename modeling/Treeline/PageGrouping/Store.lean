import Mathlib.Data.Rat.Defs
import Treeline.Basic

/-!
# The segmented store: pages, segments, the index and the free list

The page-grouping variant (`src/page_grouping/`) keeps records on 4 KiB pages grouped into
*segments* of `1, 2, 4, 8` or `16` pages, each size class in its own segment file. The index maps
every segment's base key to its `SegmentInfo`; segments that are rewritten are zeroed and their
ids go to a free list, from which new segments of the same size are allocated first.

This module fixes the state the rewrite and flatten procedures act on (`Manager`) and the
operations on it they use: the segment files, the workspace buffer `w_`, the index as an ordered
map, and the free list.

## Main definitions

* `Treeline.Pg.Page` — a decoded on-disk page: its boundaries, records, overflow id, model,
  sequence number and checksum state.
* `Treeline.Pg.SegmentId`, `SegmentInfo`, `Segment` — segment ids, index values and the
  segments the `SegmentBuilder` emits.
* `Treeline.Pg.Manager` — the state of `pg::Manager` the procedures touch.
* `Treeline.Pg.Manager.storedRecords` — the records of the store, in index order.
* `Treeline.Pg.indexInsert`, `indexErase`, `indexUpperBound` — the index operations.
* `Treeline.Pg.FreeList.get`, `FreeList.add` — the free list.
* `Treeline.Pg.Manager.AllocSafe` — no id of a given list can be handed out again.

## Main results

* `Treeline.Pg.Manager.acquireSegment_spec` — an acquired id is none of the protected ids, and
  it becomes protected itself.

## Implementation notes

`Page`, `SegmentWrap`, `SegmentFile`, `FreeList` and the index are not in the modelled sources;
they follow the spec (§3, §4.6, §6). A segment file is modelled by the pages of the segment at
each id: ids come from the free list of their own size class or from the end of their file, so
two live ids never share a page. A page's checksum is modelled by whether
`ComputeAndSetChecksum` ran since its bytes last changed.
-/

namespace Treeline.Pg

/-- `SegmentId`: the segment file (size class `i` holds segments of `2 ^ i` pages) and the page
offset of the segment in it. -/
structure SegmentId where
  fileId : ℕ
  offset : ℕ
  deriving DecidableEq, Repr

/-- `plr::Line64`: a line `slope · x + intercept`, modelled exactly over `ℚ`. Its definition is not
under `src/`; it follows the spec's `model::Line(slope, intercept)` (§3). -/
structure Line64 where
  slope : ℚ
  intercept : ℚ
  deriving DecidableEq, Repr

/-- A decoded on-disk page: the interval `[lower, upper]` with an inclusive upper key as stored,
its records in key order, its overflow page, the segment model (page 0 only), its sequence
number, and whether its checksum is up to date. -/
structure Page where
  lower : ℕ
  upper : ℕ
  records : List Record
  overflow : Option SegmentId
  model : Option Line64
  sequenceNumber : ℕ
  checksum : Bool
  deriving DecidableEq, Repr

/-- A page after `memset(…, 0, Page::kSize)`. -/
def Page.zero : Page := ⟨0, 0, [], none, none, 0, false⟩

/-- `pg::Page(data, lower, upper)`: an empty page with these (inclusive) boundaries. -/
def Page.init (lower upper : ℕ) : Page := ⟨lower, upper, [], none, none, 0, false⟩

/-- Insert a record into a key-ordered list, replacing the record of the same key. -/
def insertRecord (r : Record) : List Record → List Record
  | [] => [r]
  | x :: xs => if x.1 < r.1 then x :: insertRecord r xs else if x.1 = r.1 then r :: xs else r :: x :: xs

/-- `pg::Page::Put`, whose definition is not under `src/`; it follows the spec's `Put(k, v)` (§3).
Pages are not sized: every caller asserts that `Put` succeeds, and the spec rules out `Full` on
these paths (§7). -/
def Page.put (p : Page) (r : Record) : Page :=
  { p with records := insertRecord r p.records, checksum := false }

/-- `SegmentInfo`: the segment id, its model, and the overflow flag of the index entry. -/
structure SegmentInfo where
  id : SegmentId
  model : Option Line64
  hasOverflow : Bool
  deriving DecidableEq, Repr

/-- `SegmentInfo::page_count()`: the size class of the segment file. -/
def SegmentInfo.pageCount (s : SegmentInfo) : ℕ := 2 ^ s.id.fileId

/-- A segment the `SegmentBuilder` emits: page count, base key, records and model. -/
structure Segment where
  pageCount : ℕ
  baseKey : ℕ
  records : List Record
  model : Option Line64
  deriving DecidableEq, Repr

/-- `SegmentBuilder::kPageCountToSegment`: the file of a page count in `{1, 2, 4, 8, 16}`; no
other count is ever looked up. -/
def pageCountToSegment : ℕ → ℕ
  | 2 => 1
  | 4 => 2
  | 8 => 3
  | 16 => 4
  | _ => 0

/-- The table inverts the page counts of the size classes. -/
lemma pageCountToSegment_two_pow : ∀ {k : ℕ}, k ≤ 4 → pageCountToSegment (2 ^ k) = k
  | 0, _ | 1, _ | 2, _ | 3, _ | 4, _ => rfl
  | _ + 5, h => absurd h (by omega)

/-! ## The index -/

/-- The index: `(base key, SegmentInfo)` entries in strictly ascending key order. -/
abbrev Index := List (ℕ × SegmentInfo)

/-- `index_.upper_bound(k)`: the first key above `k`. -/
def indexUpperBound (idx : Index) (k : ℕ) : Option ℕ := (idx.find? fun e => k < e.1).map Prod.fst

/-- `index_.erase(k)`. -/
def indexErase (idx : Index) (k : ℕ) : Index := idx.filter fun e => e.1 ≠ k

/-- `index_.insert(e)`: no effect if the key is present. -/
def indexInsert (e : ℕ × SegmentInfo) : Index → Index
  | [] => [e]
  | x :: xs => if x.1 < e.1 then x :: indexInsert e xs else if x.1 = e.1 then x :: xs else e :: x :: xs

/-- The index's keys strictly ascend. -/
def Index.Sorted (idx : Index) : Prop := idx.Pairwise fun a b => a.1 < b.1

/-- A sorted index around one of its entries: the entries below it, the entry, the entries above
it. -/
lemma Index.Sorted.split {idx : Index} (h : idx.Sorted) {e : ℕ × SegmentInfo} (he : e ∈ idx) :
    ∃ lo hi, idx = lo ++ e :: hi ∧ (∀ x ∈ lo, x.1 < e.1) ∧ (∀ x ∈ hi, e.1 < x.1) ∧
      idx.filter (fun x => x.1 < e.1) = lo ∧ idx.filter (fun x => e.1 < x.1) = hi := by
  obtain ⟨lo, hi, rfl⟩ := List.append_of_mem he
  have h' := List.pairwise_append.mp h
  have hlo : ∀ x ∈ lo, x.1 < e.1 := fun x hx => h'.2.2 x hx e (.head _)
  have hhi : ∀ x ∈ hi, e.1 < x.1 := fun x hx => (List.pairwise_cons.mp h'.2.1).1 x hx
  refine ⟨lo, hi, rfl, hlo, hhi, ?_, ?_⟩
  · rw [List.filter_append, List.filter_eq_self.mpr (by simpa using hlo),
      List.filter_eq_nil_iff.mpr fun x hx => by
        rcases List.mem_cons.mp hx with rfl | hx
        · simp
        · simpa using (hhi x hx).le, List.append_nil]
  · rw [List.filter_append, List.filter_eq_nil_iff.mpr fun x hx => by simpa using (hlo x hx).le,
      List.filter_cons_of_neg (by simp), List.filter_eq_self.mpr (by simpa using hhi), List.nil_append]

lemma indexErase_split {lo hi : Index} {e : ℕ × SegmentInfo} (hlo : ∀ x ∈ lo, x.1 < e.1)
    (hhi : ∀ x ∈ hi, e.1 < x.1) : indexErase (lo ++ e :: hi) e.1 = lo ++ hi := by
  rw [indexErase, List.filter_append, List.filter_cons_of_neg (by simp),
    List.filter_eq_self.mpr (by simpa using fun x hx => (hlo x hx).ne),
    List.filter_eq_self.mpr (by simpa using fun x hx => (hhi x hx).ne')]

lemma indexUpperBound_split {lo hi : Index} {e : ℕ × SegmentInfo} (hlo : ∀ x ∈ lo, x.1 < e.1)
    (hhi : ∀ x ∈ hi, e.1 < x.1) : indexUpperBound (lo ++ e :: hi) e.1 = hi.head?.map Prod.fst := by
  rw [indexUpperBound, List.find?_append, List.find?_eq_none.mpr (by simpa using fun x hx =>
    (hlo x hx).le), Option.none_or, List.find?_cons_of_neg _ (by simp)]
  cases hi with
  | nil => rfl
  | cons y ys => rw [List.find?_cons_of_pos _ (by simpa using hhi y (.head _))]; rfl

/-- A sorted index around one of its entries. -/
lemma Index.sorted_split {lo hi : Index} {e : ℕ × SegmentInfo} (h : (lo ++ e :: hi).Sorted) :
    lo.Sorted ∧ hi.Sorted ∧ (∀ x ∈ lo, x.1 < e.1) ∧ (∀ x ∈ hi, e.1 < x.1) ∧
      ∀ x ∈ lo, ∀ y ∈ hi, x.1 < y.1 := by
  obtain ⟨hlo, hcons, hcross⟩ := List.pairwise_append.mp h
  obtain ⟨hhi, hrest⟩ := List.pairwise_cons.mp hcons
  exact ⟨hlo, hrest, fun x hx => hcross x hx e (.head _), hhi, fun x hx y hy => hcross x hx y (.tail _ hy)⟩

/-- A run whose keys strictly ascend is sorted. -/
lemma Index.sorted_of_keys {X : Index} {keys : List ℕ} (h : X.map Prod.fst = keys)
    (hk : keys.Pairwise (· < ·)) : X.Sorted := by
  rw [Index.Sorted, ← List.pairwise_map (R := (· < ·)), h]; exact hk

/-- A key below the first key of a sorted run is below all of them. -/
lemma Index.lt_of_lt_next {hi : Index} (hs : hi.Sorted) {k : ℕ}
    (hk : k < (hi.head?.map Prod.fst).getD kMaxKey) : ∀ x ∈ hi, k < x.1 := by
  rcases hi with _ | ⟨y, ys⟩
  · exact fun _ h => nomatch h
  · rintro x (_ | ⟨_, hx⟩)
    · exact hk
    · exact hk.trans ((List.pairwise_cons.mp hs).1 x hx)

/-- Inserting a key that lies between two runs of the index puts it between them. -/
lemma indexInsert_middle {e : ℕ × SegmentInfo} {hi : Index} (hhi : ∀ x ∈ hi, e.1 < x.1) :
    ∀ {lo : Index}, (∀ x ∈ lo, x.1 < e.1) → indexInsert e (lo ++ hi) = lo ++ e :: hi
  | [], _ => by
    cases hi with
    | nil => rfl
    | cons y ys =>
      have := hhi y (.head _)
      simp [indexInsert, Nat.not_lt.mpr this.le, this.ne']
  | x :: lo, hlo => by
    simp [indexInsert, hlo x (.head _), indexInsert_middle hhi fun y hy => hlo y (.tail _ hy)]

/-- Inserting ascending keys that lie between two runs of the index puts them between them. -/
lemma foldl_indexInsert_middle {hi : Index} : ∀ {new lo : Index}, new.Sorted →
    (∀ e ∈ new, ∀ x ∈ lo, x.1 < e.1) → (∀ e ∈ new, ∀ x ∈ hi, e.1 < x.1) →
    new.foldl (fun idx e => indexInsert e idx) (lo ++ hi) = lo ++ new ++ hi
  | [], _, _, _, _ => by simp
  | e :: new, lo, hs, hlo, hhi => by
    have hs' := List.pairwise_cons.mp hs
    rw [List.foldl_cons, indexInsert_middle (hhi e (.head _)) (hlo e (.head _)),
      show lo ++ e :: hi = (lo ++ [e]) ++ hi by simp, foldl_indexInsert_middle hs'.2 ?_
        fun e' he' => hhi e' (.tail _ he')]
    · simp
    · intro e' he' x hx
      rcases List.mem_append.mp hx with hx | hx
      · exact (hlo e (.head _) x hx).trans (hs'.1 e' he')
      · rw [List.mem_singleton.mp hx]; exact hs'.1 e' he'

/-! ## The free list -/

/-- `FreeList`: freed segment ids. -/
abbrev FreeList := List SegmentId

/-- `FreeList::Get(page_count)`: an id of that size class, taken off the list. `FreeList` is not
under `src/`; this follows the spec's allocation rule (§4.6: an id of matching page count from the
free list, if there is one). -/
def FreeList.get (free : FreeList) (pageCount : ℕ) : Option (SegmentId × FreeList) :=
  match free.find? fun id => id.fileId = pageCountToSegment pageCount with
  | some id => some (id, free.erase id)
  | none => none

/-- `FreeList::Add(id)`, not under `src/`: the id joins the free list (spec §4.6, step 1). -/
def FreeList.add (free : FreeList) (id : SegmentId) : FreeList := id :: free

/-! ## The manager -/

/-- The state of `pg::Manager` the modelled procedures use: the index, the segment files (the
pages of the segment at each id, and the page offset at which each file grows), the free list,
`next_sequence_number_`, and the pages of the workspace buffer `w_.buffer()`. -/
structure Manager where
  index : Index
  disk : SegmentId → ℕ → Page
  fileEnd : ℕ → ℕ
  free : FreeList
  nextSequenceNumber : ℕ
  buffer : ℕ → Page

/-- `ReadPage(id, page, dst)`. -/
def Manager.readPage (m : Manager) (id : SegmentId) (i : ℕ) : Page := m.disk id i

/-- `WritePage(id, page, src)`. -/
def Manager.writePage (m : Manager) (id : SegmentId) (i : ℕ) (p : Page) : Manager :=
  { m with disk := Function.update m.disk id (Function.update (m.disk id) i p) }

/-- `SegmentFile::WritePages(offset, buf, n)`: the first `n` pages of `pages` over segment
`id`. -/
def Manager.writePages (m : Manager) (id : SegmentId) (pages : ℕ → Page) (n : ℕ) : Manager :=
  { m with disk := Function.update m.disk id fun i => if i < n then pages i else m.disk id i }

/-- `ReadSegment(id)`: the segment's `n` pages into the workspace buffer. -/
def Manager.readSegment (m : Manager) (id : SegmentId) (n : ℕ) : Manager :=
  { m with buffer := fun i => if i < n then m.disk id i else m.buffer i }

/-- The records a segment holds, each main page followed by its overflow page: the content of
the store as the spec's record-preservation property (P4) reads it. -/
def Manager.segmentRecords (m : Manager) (info : SegmentInfo) : List Record :=
  (List.range info.pageCount).flatMap fun i =>
    (m.readPage info.id i).records ++
      ((m.readPage info.id i).overflow.map fun o => (m.readPage o 0).records).getD []

/-- The records of the store, segment by segment in index order. -/
def Manager.storedRecords (m : Manager) : List Record :=
  m.index.flatMap fun e => m.segmentRecords e.2

/-- A segment id for `pageCount` pages: from the free list, else `SegmentFile::AllocateSegment`
at the end of the file of that size class. -/
def Manager.acquireSegment (m : Manager) (pageCount : ℕ) : SegmentId × Manager :=
  match m.free.get pageCount with
  | some (id, free) => (id, { m with free := free })
  | none =>
    let file := pageCountToSegment pageCount
    (⟨file, m.fileEnd file⟩,
      { m with fileEnd := Function.update m.fileEnd file (m.fileEnd file + pageCount) })

/-! ## Reads after writes -/

@[simp] lemma Manager.readPage_writePage_self (m : Manager) (id : SegmentId) (i : ℕ) (p : Page) :
    (m.writePage id i p).readPage id i = p := by
  simp [Manager.writePage, Manager.readPage]

lemma Manager.readPage_writePage_of_ne (m : Manager) {id id' : SegmentId} {i i' : ℕ} (p : Page)
    (h : id' ≠ id ∨ i' ≠ i) : (m.writePage id i p).readPage id' i' = m.readPage id' i' := by
  rcases h with h | h
  · simp [Manager.writePage, Manager.readPage, h]
  · by_cases e : id' = id <;> simp [Manager.writePage, Manager.readPage, e, h]

@[simp] lemma Manager.writePage_index (m : Manager) (id : SegmentId) (i : ℕ) (p : Page) :
    (m.writePage id i p).index = m.index := rfl

@[simp] lemma Manager.writePage_free (m : Manager) (id : SegmentId) (i : ℕ) (p : Page) :
    (m.writePage id i p).free = m.free := rfl

@[simp] lemma Manager.writePage_fileEnd (m : Manager) (id : SegmentId) (i : ℕ) (p : Page) :
    (m.writePage id i p).fileEnd = m.fileEnd := rfl

@[simp] lemma Manager.writePage_nextSequenceNumber (m : Manager) (id : SegmentId) (i : ℕ)
    (p : Page) : (m.writePage id i p).nextSequenceNumber = m.nextSequenceNumber := rfl

@[simp] lemma Manager.writePages_index (m : Manager) (id : SegmentId) (pages : ℕ → Page) (n : ℕ) :
    (m.writePages id pages n).index = m.index := rfl

@[simp] lemma Manager.writePages_free (m : Manager) (id : SegmentId) (pages : ℕ → Page) (n : ℕ) :
    (m.writePages id pages n).free = m.free := rfl

@[simp] lemma Manager.writePages_fileEnd (m : Manager) (id : SegmentId) (pages : ℕ → Page)
    (n : ℕ) : (m.writePages id pages n).fileEnd = m.fileEnd := rfl

@[simp] lemma Manager.writePages_nextSequenceNumber (m : Manager) (id : SegmentId)
    (pages : ℕ → Page) (n : ℕ) :
    (m.writePages id pages n).nextSequenceNumber = m.nextSequenceNumber := rfl

/-! ## Allocation never returns a protected id -/

/-- Allocation from `m` cannot return any id of `ids`: the free list has no repeats, and every
id on it or in `ids` lies below the end of its file; no id of `ids` is on the free list. -/
structure Manager.AllocSafe (m : Manager) (ids : List SegmentId) : Prop where
  free_nodup : m.free.Nodup
  free_below : ∀ id ∈ m.free, id.offset < m.fileEnd id.fileId
  ids_below : ∀ id ∈ ids, id.offset < m.fileEnd id.fileId
  ids_not_free : ∀ id ∈ ids, id ∉ m.free

/-- Only the free list and the file ends matter to `AllocSafe`, and only which ids it
protects. -/
lemma Manager.AllocSafe.congr {m m' : Manager} {ids ids' : List SegmentId} (hs : m.AllocSafe ids)
    (hfree : m'.free = m.free) (hend : m'.fileEnd = m.fileEnd) (hids : ∀ x ∈ ids', x ∈ ids) :
    m'.AllocSafe ids' :=
  ⟨hfree ▸ hs.free_nodup, hfree ▸ hend ▸ hs.free_below, fun x hx => hend ▸ hs.ids_below x (hids x hx),
    fun x hx => hfree ▸ hs.ids_not_free x (hids x hx)⟩

lemma FreeList.get_spec {free : FreeList} {pageCount : ℕ} {id : SegmentId} {free' : FreeList}
    (h : free.get pageCount = some (id, free')) :
    id ∈ free ∧ free' = free.erase id ∧ id.fileId = pageCountToSegment pageCount := by
  unfold FreeList.get at h
  split at h
  · rename_i id' hfind
    obtain ⟨rfl, rfl⟩ := Option.some.inj h
    exact ⟨List.mem_of_find?_eq_some hfind, rfl, by simpa using List.find?_some hfind⟩
  · cases h

/-- **An acquired id is fresh.** With a positive page count, the id `acquireSegment` returns is
none of the protected ids, it lies in the size class's file, and afterwards it is protected too.
Only the free list and the file ends change. -/
theorem Manager.acquireSegment_spec {m : Manager} {ids : List SegmentId} {pageCount : ℕ}
    (hpc : 0 < pageCount) (hs : m.AllocSafe ids) :
    let r := m.acquireSegment pageCount
    r.1 ∉ ids ∧ r.1.fileId = pageCountToSegment pageCount ∧ r.2.AllocSafe (r.1 :: ids) ∧
      (∀ x ∈ r.2.free, x ∈ m.free) ∧ r.2.index = m.index ∧ r.2.disk = m.disk ∧
      r.2.buffer = m.buffer ∧ r.2.nextSequenceNumber = m.nextSequenceNumber := by
  unfold Manager.acquireSegment
  split
  · rename_i id free' hget
    obtain ⟨hmem, rfl, hfile⟩ := FreeList.get_spec hget
    refine ⟨fun h => hs.ids_not_free id h hmem, hfile,
      ⟨hs.free_nodup.erase id, fun x hx => hs.free_below x (List.mem_of_mem_erase hx), ?_, ?_⟩,
      fun x hx => List.mem_of_mem_erase hx, rfl, rfl, rfl, rfl⟩
    · rintro x (_ | ⟨_, hx⟩)
      · exact hs.free_below id hmem
      · exact hs.ids_below x hx
    · rintro x (_ | ⟨_, hx⟩)
      · exact hs.free_nodup.not_mem_erase
      · exact fun h => hs.ids_not_free x hx (List.mem_of_mem_erase h)
  · rename_i hget
    have grow : ∀ x : SegmentId, x.offset < m.fileEnd x.fileId → x.offset <
        Function.update m.fileEnd (pageCountToSegment pageCount)
          (m.fileEnd (pageCountToSegment pageCount) + pageCount) x.fileId := by
      intro x hx
      by_cases e : x.fileId = pageCountToSegment pageCount
      · rw [e, Function.update_same]; rw [e] at hx; omega
      · rwa [Function.update_noteq e]
    refine ⟨fun h => (hs.ids_below _ h).false, rfl,
      ⟨hs.free_nodup, fun x hx => grow x (hs.free_below x hx), ?_, ?_⟩, fun _ h => h, rfl, rfl,
      rfl, rfl⟩
    · rintro x (_ | ⟨_, hx⟩)
      · simp; omega
      · exact grow x (hs.ids_below x hx)
    · rintro x (_ | ⟨_, hx⟩)
      · exact fun h => (hs.free_below _ h).false
      · exact hs.ids_not_free x hx

end Treeline.Pg
