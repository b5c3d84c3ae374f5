import Treeline.PageGrouping.FreeSafety
import Treeline.PageGrouping.Reachable

/-!
# Every page keeps its records in key order

`Page::Put` inserts a record at the place of its key and replaces a record of the same key, so
a page built by `LoadIntoPage` from an empty page holds strictly ascending keys, whatever the
order the records came in. Every page the page-grouping manager writes is built so or zeroed:
`LoadIntoNewSegment` and `LoadIntoNewPages` (`src/page_grouping/manager_load.cc`) write such
pages to the segment files and leave them in the workspace buffer, and `RewriteSegments` and
`FlattenChain` (`src/page_grouping/manager_rewrite.cc`) zero the pages they retire. A rewrite
copies into its window only pages it reads from the files or the workspace buffer.

This module proves that every page of the store, of the workspace buffer and of a rewrite's
window keeps its records in key order, at every state of a rewrite and in every store reachable
from a bulk load. `PageChain::LargestKey()` (lines 44-69) reads the last record of each page of a
chain, which is the largest record only on such a page: this is the page order that the free
guard of `load_into_segments_and_free_pages` relies on.

## Main definitions

* `Treeline.Pg.Manager.PagesOrdered` — every page of the files and of the workspace buffer is
  key-ordered.
* `Treeline.Pg.RewriteState.PagesOrdered` — so is every page of the rewrite window.

## Main results

* `Treeline.Pg.ascending_loadIntoPage` — `LoadIntoPage` builds a key-ordered page.
* `Treeline.Pg.rewriteOne_pagesOrdered` and the other step lemmas — each loop of a rewrite keeps
  the window's pages ordered.
* `Treeline.Pg.rewriteSegments_pagesOrdered`, `Treeline.Pg.flattenChain_pagesOrdered` — the two
  reorganizations keep every page ordered.
* `Treeline.Pg.Reachable.pagesOrdered` — so does every store reachable from a bulk load.
-/

namespace Treeline.Pg

/-! ## Pages built by `Page::Put` -/

lemma mem_insertRecord {r x : Record} : ∀ {rs : List Record}, x ∈ insertRecord r rs → x = r ∨ x ∈ rs
  | [], h => .inl (List.mem_singleton.mp h)
  | y :: ys, h => by
    unfold insertRecord at h
    split_ifs at h
    · rcases List.mem_cons.mp h with rfl | h
      · exact .inr (.head _)
      · exact (mem_insertRecord h).imp_right (.tail _)
    · rcases List.mem_cons.mp h with rfl | h
      · exact .inl rfl
      · exact .inr (.tail _ h)
    · rcases List.mem_cons.mp h with rfl | h
      · exact .inl rfl
      · exact .inr h

/-- `Page::Put` keeps a page's keys strictly ascending. -/
lemma ascending_insertRecord (r : Record) :
    ∀ {rs : List Record}, Ascending rs → Ascending (insertRecord r rs)
  | [], _ => List.pairwise_singleton _ _
  | x :: xs, h => by
    have h' := Ascending.cons_iff.mp h
    unfold insertRecord
    split_ifs with hlt heq
    · refine Ascending.cons_iff.mpr ⟨fun y hy => ?_, ascending_insertRecord r h'.2⟩
      rcases mem_insertRecord hy with rfl | hy
      · exact hlt
      · exact h'.1 y hy
    · exact Ascending.cons_iff.mpr ⟨fun y hy => heq ▸ h'.1 y hy, h'.2⟩
    · have hrx : r.1 < x.1 := by omega
      refine Ascending.cons_iff.mpr ⟨fun y hy => ?_, h⟩
      rcases List.mem_cons.mp hy with rfl | hy
      · exact hrx
      · exact hrx.trans (h'.1 y hy)

lemma ascending_foldl_put : ∀ (recs : List Record) {p : Page}, Ascending p.records →
    Ascending (recs.foldl Page.put p).records
  | [], _, h => h
  | r :: rs, _, h => ascending_foldl_put rs (ascending_insertRecord r h)

/-- `LoadIntoPage` builds a key-ordered page from records in any order. -/
lemma ascending_loadIntoPage (lower upper : ℕ) (recs : List Record) :
    Ascending (loadIntoPage lower upper recs).records :=
  ascending_foldl_put recs List.Pairwise.nil

/-- So does `LoadIntoNewPages` for each of its pages. -/
lemma ascending_newPage (headerSequence lower upper : ℕ) (recs : List Record) :
    Ascending (newPage headerSequence lower upper recs).records :=
  ascending_loadIntoPage lower upper recs

/-- Every page of a segment `LoadIntoNewSegment` builds is key-ordered. -/
lemma ascending_segmentPages (seg : Segment) (u : ℕ) :
    ∀ p ∈ segmentPages seg u, Ascending p.records := by
  intro p hp
  unfold segmentPages at hp
  split_ifs at hp
  · obtain ⟨i, hi⟩ := List.mem_iff_getElem?.mp hp
    obtain ⟨q, hq, -, -, hrec⟩ := getElem?_modifyHead_model hi
    obtain ⟨c, -, rfl⟩ := getElem?_zipWith3_loadIntoPage hq
    exact hrec ▸ ascending_loadIntoPage _ _ _
  · rw [List.mem_singleton.mp hp]
    exact ascending_loadIntoPage _ _ _

/-- The workspace pages `LoadIntoNewSegment` writes are key-ordered where the buffer was. -/
lemma ascending_wrapSegment {buf : ℕ → Page} (hbuf : ∀ i, Ascending (buf i).records)
    (sequenceNumber : ℕ) (seg : Segment) (u i : ℕ) :
    Ascending (wrapSegment buf sequenceNumber seg u i).records := by
  unfold wrapSegment
  split_ifs
  · rw [List.getD_eq_getElem?_getD]
    cases h : (segmentPages seg u)[i]? with
    | none => exact List.Pairwise.nil
    | some p => exact ascending_segmentPages seg u p (List.getElem?_mem h)
  · exact hbuf i

/-- Overwriting one page of a run of key-ordered pages with a key-ordered page. -/
lemma ascending_update {pages : ℕ → Page} (h : ∀ i, Ascending (pages i).records) (a : ℕ) {p : Page}
    (hp : Ascending p.records) (i : ℕ) : Ascending (Function.update pages a p i).records := by
  rw [Function.update_apply]
  split_ifs
  exacts [hp, h i]

/-! ## The store -/

/-- Every page of the segment files and of the workspace buffer keeps its records in key
order. -/
structure Manager.PagesOrdered (m : Manager) : Prop where
  disk : ∀ id i, Ascending (m.disk id i).records
  buffer : ∀ i, Ascending (m.buffer i).records

namespace Manager.PagesOrdered

variable {m : Manager}

lemma empty : Manager.empty.PagesOrdered := ⟨fun _ _ => .nil, fun _ => .nil⟩

lemma withBuffer (h : m.PagesOrdered) {buf : ℕ → Page} (hbuf : ∀ i, Ascending (buf i).records) :
    { m with buffer := buf }.PagesOrdered :=
  ⟨h.disk, hbuf⟩

lemma acquireSegment (h : m.PagesOrdered) (pageCount : ℕ) :
    (m.acquireSegment pageCount).2.PagesOrdered := by
  unfold Manager.acquireSegment
  split <;> exact ⟨h.disk, h.buffer⟩

lemma writePages (h : m.PagesOrdered) (id : SegmentId) {pages : ℕ → Page} {n : ℕ}
    (hp : ∀ i < n, Ascending (pages i).records) : (m.writePages id pages n).PagesOrdered := by
  refine ⟨fun id' i => ?_, h.buffer⟩
  by_cases hid : id' = id
  · subst hid
    simp only [Manager.writePages, Function.update_same]
    split_ifs with hi
    · exact hp i hi
    · exact h.disk id' i
  · simp only [Manager.writePages, Function.update_noteq hid]
    exact h.disk id' i

lemma writePage (h : m.PagesOrdered) (id : SegmentId) (i : ℕ) {p : Page}
    (hp : Ascending p.records) : (m.writePage id i p).PagesOrdered := by
  refine ⟨fun id' i' => ?_, h.buffer⟩
  show Ascending ((m.writePage id i p).readPage id' i').records
  by_cases he : id' = id ∧ i' = i
  · obtain ⟨rfl, rfl⟩ := he
    rw [Manager.readPage_writePage_self]
    exact hp
  · rw [Manager.readPage_writePage_of_ne _ _ (not_and_or.mp he)]
    exact h.disk id' i'

lemma readSegment (h : m.PagesOrdered) (id : SegmentId) (n : ℕ) : (m.readSegment id n).PagesOrdered := by
  refine ⟨h.disk, fun i => ?_⟩
  simp only [Manager.readSegment]
  split_ifs
  · exact h.disk id i
  · exact h.buffer i

lemma invalidate (h : m.PagesOrdered) (id : SegmentId) : (m.invalidate id).PagesOrdered :=
  have hz := h.writePage id 0 (show Ascending Page.zero.records from List.Pairwise.nil)
  ⟨hz.disk, hz.buffer⟩

lemma foldl_invalidate (ids : List SegmentId) : ∀ {m : Manager}, m.PagesOrdered →
    (ids.foldl Manager.invalidate m).PagesOrdered := by
  induction ids with
  | nil => exact id
  | cons id ids ih => exact fun h => ih (h.invalidate id)

lemma loadIntoNewSegment (h : m.PagesOrdered) (sequenceNumber : ℕ) (seg : Segment) (u : ℕ) :
    (m.loadIntoNewSegment sequenceNumber seg u).1.PagesOrdered :=
  ((h.acquireSegment seg.pageCount).writePages _ fun i _ =>
    ascending_wrapSegment h.buffer sequenceNumber seg u i).withBuffer
    (ascending_wrapSegment h.buffer sequenceNumber seg u)

lemma foldl_loadStep (sequenceNumber : ℕ) : ∀ (loads : List (Segment × ℕ)) {acc : Manager × Index},
    acc.1.PagesOrdered → (loads.foldl (loadStep sequenceNumber) acc).1.PagesOrdered
  | [], _, h => h
  | x :: loads, _, h => foldl_loadStep sequenceNumber loads (h.loadIntoNewSegment sequenceNumber x.1 x.2)

lemma writeNewPage (h : m.PagesOrdered) (lower : ℕ) {p : Page} (hp : Ascending p.records) :
    (m.writeNewPage lower p).1.PagesOrdered :=
  have h₁ := h.acquireSegment 1
  (h₁.writePages _ fun _ _ => hp).withBuffer (ascending_update h₁.buffer 0 hp)

lemma fullPages {goal sequenceNumber lowerBound upperBound : ℕ} {recs : List Record} :
    ∀ (fuel start : ℕ) {acc : Manager × Index} {r : ℕ × Manager × Index}, acc.1.PagesOrdered →
      Manager.fullPages goal sequenceNumber lowerBound upperBound recs fuel start acc = some r →
      r.2.1.PagesOrdered
  | 0, _, _, _, _, hr => by cases hr
  | fuel + 1, start, (m, out), r, h, hr => by
    rw [Manager.fullPages] at hr
    split_ifs at hr
    · have hw := h.writeNewPage (pageLower lowerBound recs start) (ascending_newPage sequenceNumber
        (pageLower lowerBound recs start) (pageUpper upperBound recs (start + goal))
        ((recs.drop start).take goal))
      exact fullPages fuel _ hw hr
    · obtain rfl := Option.some.inj hr
      exact h

lemma loadIntoNewPages (h : m.PagesOrdered) {goal sequenceNumber lowerBound upperBound : ℕ}
    {recs : List Record} {r : Manager × Index}
    (hr : m.loadIntoNewPages goal sequenceNumber lowerBound upperBound recs = some r) :
    r.1.PagesOrdered := by
  simp only [Manager.loadIntoNewPages, Option.bind_eq_bind, Option.bind_eq_some] at hr
  obtain ⟨⟨start, m₁, out⟩, h₁, hr⟩ := hr
  have ho := fullPages (recs.length + 1) 0 h h₁
  split_ifs at hr
  · obtain rfl := Option.some.inj hr
    exact ho.writeNewPage (pageLower lowerBound recs start)
      (ascending_newPage 0 (pageLower lowerBound recs start) upperBound (recs.drop start))
  · obtain rfl := Option.some.inj hr
    exact ho

lemma finishRewrite (h : m.PagesOrdered) (toRewrite : List (ℕ × SegmentInfo))
    (overflows : List SegmentId) (rewritten : Index) :
    (Pg.finishRewrite m toRewrite overflows rewritten).1.PagesOrdered :=
  have h₀ : { m with buffer := Function.update m.buffer 0 Page.zero }.PagesOrdered :=
    h.withBuffer (ascending_update h.buffer 0 List.Pairwise.nil)
  have h₁ := h₀.foldl_invalidate (toRewrite.map (fun e => e.2.id) ++ overflows)
  ⟨h₁.disk, h₁.buffer⟩

end Manager.PagesOrdered

/-! ## The rewrite window -/

/-- Every page of the store, of the workspace buffer and of the rewrite window is key-ordered. -/
structure RewriteState.PagesOrdered {σ : Type} (s : RewriteState σ) : Prop where
  mgr : s.mgr.PagesOrdered
  slots : ∀ slot, Ascending (s.pageBuf.slots slot).records

lemma RewriteState.PagesOrdered.of_frame {σ : Type} {s s' : RewriteState σ} (h : s.PagesOrdered)
    (hf : s.Frame s') : s'.PagesOrdered :=
  ⟨hf.mgr ▸ h.mgr, hf.slots ▸ h.slots⟩

/-- What the free guard of `load_into_segments_and_free_pages` assumes of the window: every page of
a processed chain is key-ordered. -/
lemma RewriteState.PagesOrdered.processed {σ : Type} {s : RewriteState σ} (h : s.PagesOrdered) :
    ∀ pc ∈ s.processed, ∀ slot ∈ pc.slots, Ascending (s.pageBuf.slots slot).records :=
  fun _ _ slot _ => h.slots slot

section Rewrite

variable {σ : Type} (B : SegmentBuilder σ) (sequenceNumber : ℕ)

lemma loadSegments_pagesOrdered (segs : List Segment) {s : RewriteState σ} (h : s.PagesOrdered) :
    (loadSegments B sequenceNumber segs s).PagesOrdered := by
  obtain ⟨u, -, -, heq⟩ := loadSegments_eq B sequenceNumber segs s
  rw [heq]
  exact ⟨Manager.PagesOrdered.foldl_loadStep sequenceNumber _ h.mgr, h.slots⟩

lemma loadAndFree_pagesOrdered {segs : List Segment} {s s' : RewriteState σ} (h : s.PagesOrdered)
    (hl : loadAndFree B sequenceNumber segs s = some s') : s'.PagesOrdered :=
  (loadSegments_pagesOrdered B sequenceNumber segs h).of_frame (freeProcessed_frame _ _ _ _ hl)

lemma loadIfEmitted_pagesOrdered {segs : List Segment} {s s' : RewriteState σ} (h : s.PagesOrdered)
    (hl : (if segs.isEmpty then some s else loadAndFree B sequenceNumber segs s) = some s') :
    s'.PagesOrdered := by
  split_ifs at hl
  · obtain rfl := Option.some.inj hl
    exact h
  · exact loadAndFree_pagesOrdered B sequenceNumber h hl

lemma makeRoom_pagesOrdered {line₁ line₂ need : ℕ} {s s' : RewriteState σ} (h : s.PagesOrdered)
    (hm : makeRoom B sequenceNumber line₁ line₂ need s = some s') : s'.PagesOrdered := by
  unfold makeRoom at hm
  split_ifs at hm
  · rcases hfin : B.finish s.builder with ⟨b, segs⟩
    simp only [flush, hfin, Option.bind_eq_bind] at hm
    obtain ⟨s₁, h₁, hm⟩ := Option.bind_eq_some.mp hm
    obtain rfl := Option.some.inj hm
    have := loadAndFree_pagesOrdered B sequenceNumber (by exact ⟨h.mgr, h.slots⟩) h₁
    exact ⟨this.mgr, this.slots⟩
  · obtain rfl := Option.some.inj hm
    exact h

lemma drainWhile_pagesOrdered (more : PagePlusRecordMerger → Bool) :
    ∀ (fuel : ℕ) (s s' : RewriteState σ), s.PagesOrdered →
      drainWhile B sequenceNumber more fuel s = some s' → s'.PagesOrdered
  | 0, _, _, _, h => by cases h
  | fuel + 1, s, s', hs, h => by
    rw [drainWhile_succ] at h
    split_ifs at h
    · obtain ⟨⟨r, pm⟩, -, h⟩ := Option.bind_eq_some.mp h
      obtain ⟨s₂, hs₂, h⟩ := Option.bind_eq_some.mp h
      exact drainWhile_pagesOrdered more fuel s₂ s'
        (loadIfEmitted_pagesOrdered B sequenceNumber (by exact ⟨hs.mgr, hs.slots⟩) hs₂) h
    · obtain rfl := Option.some.inj h
      exact hs

lemma processChains_pagesOrdered : ∀ (chains : List PageChain) (s s' : RewriteState σ),
    s.PagesOrdered → processChains B sequenceNumber chains s = some s' → s'.PagesOrdered
  | [], s, s', hs, h => by obtain rfl := Option.some.inj h; exact hs
  | pc :: rest, s, s', hs, h => by
    simp only [processChains, Option.bind_eq_bind] at h
    obtain ⟨s₂, hs₂, h⟩ := Option.bind_eq_some.mp h
    have h₂ := drainWhile_pagesOrdered B sequenceNumber _ _ _ _ (by exact ⟨hs.mgr, hs.slots⟩) hs₂
    exact processChains_pagesOrdered rest _ s' (by exact ⟨h₂.mgr, h₂.slots⟩) h

/-- Copying key-ordered pages into the window keeps its pages ordered. -/
lemma allocChains_pagesOrdered : ∀ (pages : List Page) (s : RewriteState σ)
    (r : RewriteState σ × List PageChain × List (SegmentId × ℕ)),
    (∀ p ∈ pages, Ascending p.records) → s.PagesOrdered → allocChains pages s = some r →
    r.1.PagesOrdered
  | [], s, r, _, hs, h => by obtain rfl := Option.some.inj h; exact hs
  | p :: ps, s, r, hp, hs, h => by
    have hps : ∀ q ∈ ps, Ascending q.records := fun q hq => hp q (.tail _ hq)
    simp only [allocChains, Option.bind_eq_bind] at h
    split at h
    · obtain ⟨⟨a, b₁⟩, ha, h⟩ := Option.bind_eq_some.mp h
      obtain ⟨⟨c, b₂⟩, hc, h⟩ := Option.bind_eq_some.mp h
      obtain ⟨⟨s', cs, ls⟩, hs', h⟩ := Option.bind_eq_some.mp h
      obtain rfl := Option.some.inj h
      have hslots : b₂.slots = s.pageBuf.slots :=
        (CircularPageBuffer.slots_of_allocate hc).trans (CircularPageBuffer.slots_of_allocate ha)
      exact allocChains_pagesOrdered ps _ (s', cs, ls) hps
        (by exact ⟨hs.mgr, ascending_update (hslots ▸ hs.slots) a (hp p (.head _))⟩) hs'
    · obtain ⟨⟨a, b₁⟩, ha, h⟩ := Option.bind_eq_some.mp h
      obtain ⟨⟨s', cs, ls⟩, hs', h⟩ := Option.bind_eq_some.mp h
      obtain rfl := Option.some.inj h
      exact allocChains_pagesOrdered ps _ (s', cs, ls) hps
        (by exact ⟨hs.mgr, ascending_update
          ((CircularPageBuffer.slots_of_allocate ha) ▸ hs.slots) a (hp p (.head _))⟩) hs'

/-- Reading each overflow page into its slot keeps the window's pages ordered. -/
lemma foldl_write_pagesOrdered {m : Manager} (hm : m.PagesOrdered) :
    ∀ (loads : List (SegmentId × ℕ)) {b : CircularPageBuffer},
      (∀ slot, Ascending (b.slots slot).records) →
      ∀ i, Ascending ((loads.foldl (fun b (l : SegmentId × ℕ) => b.write l.2 (m.readPage l.1 0)) b).slots i).records
  | [], _, hb => hb
  | l :: loads, _, hb => foldl_write_pagesOrdered hm loads
      (ascending_update hb l.2 (hm.disk l.1 0))

/-- **One segment of a rewrite keeps every page ordered**: the flushes, the read into the
workspace buffer, the copy into the window, and the drain of its chains. -/
lemma rewriteOne_pagesOrdered {s s' : RewriteState σ} {info : SegmentInfo} (hs : s.PagesOrdered)
    (h : rewriteOne B sequenceNumber s info = some s') : s'.PagesOrdered := by
  simp only [rewriteOne, Option.bind_eq_bind, Option.bind_eq_some] at h
  obtain ⟨s₁, h₁, s₂, h₂, ⟨s₃, chains, loads⟩, h₃, h⟩ := h
  have hs₁ := makeRoom_pagesOrdered B sequenceNumber hs h₁
  have hs₂ := makeRoom_pagesOrdered B sequenceNumber
    (by exact ⟨hs₁.mgr.readSegment info.id info.pageCount, hs₁.slots⟩) h₂
  have hs₃ := allocChains_pagesOrdered _ _ (s₃, chains, loads)
    (fun p hp => by
      obtain ⟨i, -, rfl⟩ := List.mem_map.mp hp
      exact hs₂.mgr.buffer i) hs₂ h₃
  exact processChains_pagesOrdered B sequenceNumber _ _ s'
    (by exact ⟨hs₃.mgr, foldl_write_pagesOrdered hs₃.mgr loads hs₃.slots⟩) h

lemma foldlM_rewriteOne_pagesOrdered : ∀ (segs : List (ℕ × SegmentInfo)) (s s' : RewriteState σ),
    s.PagesOrdered → segs.foldlM (fun s e => rewriteOne B sequenceNumber s e.2) s = some s' →
    s'.PagesOrdered
  | [], s, s', hs, h => by obtain rfl := Option.some.inj h; exact hs
  | e :: es, s, s', hs, h => by
    simp only [List.foldlM_cons, Option.bind_eq_bind] at h
    obtain ⟨s₁, h₁, h⟩ := Option.bind_eq_some.mp h
    exact foldlM_rewriteOne_pagesOrdered es s₁ s' (rewriteOne_pagesOrdered B sequenceNumber hs h₁) h

/-- **A rewrite keeps every page key-ordered.** For every builder, a run of `RewriteSegments` from a
store whose pages are key-ordered leaves them so, and every state it passes through, window
included, is key-ordered. -/
theorem rewriteSegments_pagesOrdered {opts : Options} {m m' : Manager} {segmentBase : ℕ}
    {batch : List Record} {log : List Event} (hm : m.PagesOrdered)
    (h : rewriteSegments B opts m segmentBase batch = some (m', log)) : m'.PagesOrdered := by
  simp only [rewriteSegments, Option.bind_eq_bind, Option.bind_eq_some] at h
  obtain ⟨toRewrite, -, s₁, h₁, s₂, h₂, h⟩ := h
  have hs₁ := foldlM_rewriteOne_pagesOrdered B _ toRewrite _ s₁
    (by exact ⟨⟨hm.disk, hm.buffer⟩, fun _ => List.Pairwise.nil⟩) h₁
  have hs₂ := drainWhile_pagesOrdered B _ _ _ _ _ (by exact ⟨hs₁.mgr, hs₁.slots⟩) h₂
  obtain ⟨s₃, h₃, rfl⟩ : ∃ s₃, (if (B.finish s₂.builder).2.isEmpty then
      some { s₂ with builder := (B.finish s₂.builder).1 }
      else loadAndFree B m.nextSequenceNumber (B.finish s₂.builder).2
        { s₂ with builder := (B.finish s₂.builder).1 }) = some s₃ ∧
      m' = (finishRewrite s₃.mgr toRewrite s₃.overflowsToClear s₃.rewritten).1 := by
    split_ifs at h ⊢ <;> obtain ⟨s₃, h₃, h⟩ := Option.bind_eq_some.mp h <;>
      exact ⟨s₃, h₃, (Prod.mk.inj (Option.some.inj h)).1.symm⟩
  exact (loadIfEmitted_pagesOrdered B _ (by exact ⟨hs₂.mgr, hs₂.slots⟩) h₃).mgr.finishRewrite _ _ _

end Rewrite

/-! ## Flattening and the bulk loads -/

/-- **`FlattenChain` keeps every page key-ordered.** -/
theorem flattenChain_pagesOrdered {goal : ℕ} {m m' : Manager} {base : ℕ} {batch : List Record}
    (hm : m.PagesOrdered) (h : flattenChain goal m base batch = some m') : m'.PagesOrdered := by
  simp only [flattenChain, Option.bind_eq_bind, Option.bind_eq_some] at h
  obtain ⟨e, -, ⟨m₁, newPages⟩, h₁, h⟩ := h
  obtain rfl := Option.some.inj h
  have hm₁ := Manager.PagesOrdered.loadIntoNewPages (by exact ⟨hm.disk, hm.buffer⟩) h₁
  have hm₂ := (hm₁.invalidate e.2.id).foldl_invalidate (m.readPage e.2.id 0).overflow.toList
  exact ⟨hm₂.disk, hm₂.buffer⟩

/-- **The flush worker's overflow pages are key-ordered**: `Page::Put` builds them, and the page it
chains them to keeps its records. -/
lemma Manager.PagesOrdered.chainOverflow {m : Manager} (h : m.PagesOrdered) (b : ℕ)
    (info : SegmentInfo) (i : ℕ) (recs : List Record) : (m.chainOverflow b info i recs).PagesOrdered :=
  have h₁ := h.acquireSegment 1
  have h₂ := (h₁.writePage _ 0 (ascending_foldl_put recs (p := Page.init _ _) List.Pairwise.nil)).writePage
    info.id i (p := { m.readPage info.id i with overflow := _, checksum := false }) (h.disk info.id i)
  ⟨h₂.disk, h₂.buffer⟩

lemma bulkLoadIntoSegments_pagesOrdered (segments : List Segment) :
    (bulkLoadIntoSegments segments).PagesOrdered :=
  have h := Manager.PagesOrdered.foldl_loadStep 0 (withUpperBounds segments)
    (show (Manager.empty, ([] : Index)).1.PagesOrdered from Manager.PagesOrdered.empty)
  ⟨h.disk, h.buffer⟩

lemma bulkLoadIntoPages_pagesOrdered {goal : ℕ} {recs : List Record} {m : Manager}
    (h : bulkLoadIntoPages goal recs = some m) : m.PagesOrdered := by
  simp only [bulkLoadIntoPages, Option.bind_eq_bind, Option.bind_eq_some] at h
  obtain ⟨⟨m₁, entries⟩, h₁, h⟩ := h
  obtain rfl := Option.some.inj h
  have hm₁ := Manager.PagesOrdered.empty.loadIntoNewPages h₁
  exact ⟨hm₁.disk, hm₁.buffer⟩

/-- **Every reachable store keeps every page key-ordered**: the pages of its segment files and
of its workspace buffer. From such a store, every state of a rewrite keeps the window's pages
key-ordered too (`rewriteOne_pagesOrdered` and the lemmas before it). -/
theorem Reachable.pagesOrdered {m : Manager} (h : Reachable m) : m.PagesOrdered := by
  induction h with
  | bulkLoadSegments => exact bulkLoadIntoSegments_pagesOrdered _
  | bulkLoadPages _ _ _ h => exact bulkLoadIntoPages_pagesOrdered h
  | rewrite _ _ _ _ _ _ hrun ih => exact rewriteSegments_pagesOrdered _ ih hrun
  | flatten _ _ _ _ _ hrun ih => exact flattenChain_pagesOrdered ih hrun
  | chainOverflow _ _ _ _ _ _ ih => exact ih.chainOverflow _ _ _ _

theorem Reachable.pagesOrdered_loaded :
    Reachable (bulkLoadIntoSegments loadScenario) ∧ (bulkLoadIntoSegments loadScenario).PagesOrdered :=
  ⟨loadScenario_reachable, Reachable.pagesOrdered loadScenario_reachable⟩

end Treeline.Pg
