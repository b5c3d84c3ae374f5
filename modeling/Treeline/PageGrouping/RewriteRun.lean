import Mathlib.Data.List.Chain
import Treeline.PageGrouping.Flatten
import Treeline.PageGrouping.Window

/-!
# What `RewriteSegments` writes

The rewrite offers the newest-wins merge of the segment's records with the batch to the
`SegmentBuilder`, one record at a time, and writes every segment the builder emits with
`LoadIntoNewSegment`. This module follows one run of `RewriteSegments` on a segment without
overflow pages (the kind the bulk loads, rewrites and flattens write, until the flush worker
chains overflow pages to it) and proves what it writes: the segments written hold the merge in order, each one's upper bound is the next one's
base key and the last one's the index key after the rewritten segment, and the index entry of the
segment is replaced by theirs.

## Main definitions

* `Treeline.Pg.SegmentBuilder.Contract` — what the rewrite needs of the builder, stated through
  the records it holds.
* `Treeline.Pg.RunInv` — the invariant of a run: what is written, what the builder holds and what
  is left to offer make up the merge.

## Main results

* `Treeline.Pg.drainWhile_runInv`, `processChains_runInv` — the loops of lines 348-371 keep the
  invariant.
* `Treeline.Pg.rewriteSegments_single` — the result of `RewriteSegments` on a segment without
  overflow pages.

## Implementation notes

Each lemma about a step is stated for a run that returns (`= some s'`); that the run returns at
all is proved in `Treeline.PageGrouping.Window`. The workspace buffer is left out of the
invariant: only `LoadIntoNewSegment`'s pages `0 … page_count - 1` reach the disk, and they do not
depend on it.
-/

namespace Treeline.Pg

/-! ## The builder contract -/

/-- What the builder promises of a segment it emits: it starts at its base key, has a size
class's page count, and has a model when it has several pages. -/
structure Segment.Shaped (seg : Segment) : Prop where
  base_eq : seg.records.head?.map Prod.fst = some seg.baseKey
  sizeClass : ∃ k ≤ 4, seg.pageCount = 2 ^ k
  model_isSome : 1 < seg.pageCount → seg.model.isSome

/-- A shaped segment of ascending records is well formed. -/
lemma Segment.Shaped.wellFormed {seg : Segment} (h : seg.Shaped) (hasc : Ascending seg.records) :
    seg.WellFormed :=
  ⟨hasc, h.base_eq, h.sizeClass, h.model_isSome⟩

/-- What the rewrite needs of the `SegmentBuilder`, through the records `held b` it holds: it
starts empty; an offer appends the record and may emit a prefix of what it holds, keeping at least
one record; `Finish` emits all it holds and is left empty; `CurrentBaseKey` is the key of the
first record held; every segment emitted is shaped. -/
structure SegmentBuilder.Contract {σ : Type} (B : SegmentBuilder σ) (held : σ → List Record) :
    Prop where
  init : ∀ g d, held (B.init g d) = []
  offer : ∀ b r, (B.offer b r).2.flatMap Segment.records ++ held (B.offer b r).1 = held b ++ [r]
  offer_holds : ∀ b r, held (B.offer b r).1 ≠ []
  finish : ∀ b, (B.finish b).2.flatMap Segment.records = held b
  finish_empty : ∀ b, held (B.finish b).1 = []
  currentBaseKey : ∀ b, B.currentBaseKey b = (held b).head?.map Prod.fst
  offer_shaped : ∀ b r, ∀ seg ∈ (B.offer b r).2, seg.Shaped
  finish_shaped : ∀ b, ∀ seg ∈ (B.finish b).2, seg.Shaped

/-- The builder of the scenarios, which emits only when finished, meets the contract. -/
lemma holdAllBuilder_contract : holdAllBuilder.Contract id where
  init _ _ := rfl
  offer _ _ := rfl
  offer_holds _ _ := by simp [holdAllBuilder]
  finish b := by by_cases h : b = [] <;> simp [holdAllBuilder, h]
  finish_empty _ := rfl
  currentBaseKey _ := rfl
  offer_shaped _ _ _ h := nomatch h
  finish_shaped b seg hseg := by
    by_cases h : b = [] <;> simp only [holdAllBuilder, h, if_true, if_false, List.mem_singleton,
      List.not_mem_nil] at hseg
    subst hseg
    obtain ⟨x, xs, rfl⟩ := List.exists_cons_of_ne_nil h
    exact ⟨rfl, ⟨0, by omega, rfl⟩, by simp⟩

/-! ## Loads -/

/-- The segments an event writes, with their upper bounds. -/
def Event.loads : Event → List (Segment × ℕ)
  | .load seg upperBound => [(seg, upperBound)]
  | _ => []

/-- Segments with the upper bounds `load_into_segments_and_free_pages` gives them: the next
segment's base key, and `u` for the last. -/
def chainUppers : List Segment → ℕ → List (Segment × ℕ)
  | [], _ => []
  | [seg], u => [(seg, u)]
  | seg :: next :: rest, u => (seg, next.baseKey) :: chainUppers (next :: rest) u

lemma map_fst_chainUppers : ∀ (segs : List Segment) (u : ℕ), (chainUppers segs u).map Prod.fst = segs
  | [], _ | [_], _ => rfl
  | _ :: next :: rest, u => by simp [chainUppers, map_fst_chainUppers (next :: rest) u]

lemma chain'_chainUppers : ∀ (segs : List Segment) (u : ℕ),
    (chainUppers segs u).Chain' fun x y => x.2 = y.1.baseKey
  | [], _ => List.chain'_nil
  | [_], _ => List.chain'_singleton _
  | _ :: next :: rest, u => by
    refine List.Chain'.cons' (chain'_chainUppers (next :: rest) u) ?_
    cases rest <;> simp [chainUppers]

lemma getLast?_chainUppers : ∀ (segs : List Segment) (u : ℕ),
    (chainUppers segs u).getLast? = segs.getLast?.map fun seg => (seg, u)
  | [], _ | [_], _ => rfl
  | seg :: next :: rest, u => by
    obtain ⟨y, ys, hy⟩ : ∃ y ys, chainUppers (next :: rest) u = y :: ys := by
      cases rest <;> exact ⟨_, _, rfl⟩
    rw [chainUppers, List.getLast?_cons_cons, ← getLast?_chainUppers (next :: rest) u, hy,
      List.getLast?_cons_cons]

/-- The pages `LoadIntoNewSegment` writes do not depend on the workspace buffer. -/
lemma Manager.writePages_wrapSegment (m : Manager) (id : SegmentId) (seq u : ℕ) (seg : Segment)
    (buf buf' : ℕ → Page) :
    m.writePages id (wrapSegment buf seq seg u) seg.pageCount =
      m.writePages id (wrapSegment buf' seq seg u) seg.pageCount := by
  have hpages : (fun i => if i < seg.pageCount then wrapSegment buf seq seg u i else m.disk id i) =
      fun i => if i < seg.pageCount then wrapSegment buf' seq seg u i else m.disk id i := by
    funext i
    split_ifs with h <;> simp [wrapSegment, h]
  simp only [Manager.writePages, hpages]

/-- The buffer the store starts with reaches only the buffer. -/
lemma foldl_loadStep_withBuffer (seq : ℕ) : ∀ (loads : List (Segment × ℕ)) (m : Manager)
    (buf : ℕ → Page) (out : Index), ∃ buf',
      loads.foldl (loadStep seq) ({ m with buffer := buf }, out) =
        ({ (loads.foldl (loadStep seq) (m, out)).1 with buffer := buf' },
          (loads.foldl (loadStep seq) (m, out)).2)
  | [], m, buf, out => ⟨buf, rfl⟩
  | x :: loads, m, buf, out => by
    have hstep : loadStep seq ({ m with buffer := buf }, out) x =
        ({ (loadStep seq (m, out) x).1 with buffer := wrapSegment buf seq x.1 x.2 },
          (loadStep seq (m, out) x).2) := by
      simp only [loadStep, Manager.loadIntoNewSegment, Manager.acquireSegment]
      split <;> (rw [Manager.writePages_wrapSegment _ _ _ _ _ buf m.buffer]; rfl)
    simpa only [List.foldl_cons, hstep] using foldl_loadStep_withBuffer seq loads _ _ _

@[simp] lemma foldl_loadStep_index (seq : ℕ) : ∀ (loads : List (Segment × ℕ)) (acc : Manager × Index),
    (loads.foldl (loadStep seq) acc).1.index = acc.1.index
  | [], _ => rfl
  | x :: loads, acc => by
    rw [List.foldl_cons, foldl_loadStep_index seq loads]
    simp only [loadStep, Manager.loadIntoNewSegment, Manager.acquireSegment]
    split <;> rfl

section Loads

variable {σ : Type} (B : SegmentBuilder σ) (sequenceNumber : ℕ)

/-- **Writing emitted segments.** `loadSegments` is a run of `LoadIntoNewSegment` over the
segments with their upper bounds, the last one being the builder's current base key, or with the
builder empty the index key after the last record (or `MAX`). -/
lemma loadSegments_eq : ∀ (segs : List Segment) (s : RewriteState σ), ∃ u,
    (∀ k, B.currentBaseKey s.builder = some k → u = k) ∧
    (B.currentBaseKey s.builder = none → ∀ seg ∈ segs.getLast?,
      u = (indexUpperBound s.mgr.index ((seg.records.getLast?.map Prod.fst).getD 0)).getD kMaxKey) ∧
    loadSegments B sequenceNumber segs s = { s with
      mgr := ((chainUppers segs u).foldl (loadStep sequenceNumber) (s.mgr, s.rewritten)).1
      rewritten := ((chainUppers segs u).foldl (loadStep sequenceNumber) (s.mgr, s.rewritten)).2
      log := s.log ++ (chainUppers segs u).map fun x => .load x.1 x.2 }
  | [], s => ⟨(B.currentBaseKey s.builder).getD 0, fun k hk => by simp [hk], by simp,
      by simp [loadSegments, chainUppers]⟩
  | [seg], s => by
    refine ⟨match B.currentBaseKey s.builder with
      | some k => k
      | none => (indexUpperBound s.mgr.index ((seg.records.getLast?.map Prod.fst).getD 0)).getD kMaxKey,
      fun k hk => by simp [hk], fun hk seg' hseg' => by simp_all, ?_⟩
    rfl
  | seg :: next :: rest, s => by
    obtain ⟨u, hsome, hnone, heq⟩ := loadSegments_eq (next :: rest) (s.loadOne sequenceNumber seg next.baseKey)
    have hidx : (s.loadOne sequenceNumber seg next.baseKey).mgr.index = s.mgr.index :=
      foldl_loadStep_index sequenceNumber [(seg, next.baseKey)] (s.mgr, s.rewritten)
    refine ⟨u, hsome, fun h seg' hseg' => ?_, ?_⟩
    · rw [← hidx]; exact hnone h seg' (by simpa using hseg')
    · rw [loadSegments, heq]
      simp [chainUppers, RewriteState.loadOne, loadStep]

end Loads

/-! ## Steps that leave the written segments alone -/

/-- `s'` differs from `s` at most in the window's occupancy, its processed chains and its log's
events other than loads. -/
structure RewriteState.Frame {σ : Type} (s s' : RewriteState σ) : Prop where
  mgr : s'.mgr = s.mgr
  rewritten : s'.rewritten = s.rewritten
  builder : s'.builder = s.builder
  merger : s'.merger = s.merger
  toProcess : s'.toProcess = s.toProcess
  overflows : s'.overflowsToClear = s.overflowsToClear
  slots : s'.pageBuf.slots = s.pageBuf.slots
  loads : s'.log.flatMap Event.loads = s.log.flatMap Event.loads

lemma RewriteState.Frame.trans {σ : Type} {s₁ s₂ s₃ : RewriteState σ} (h₁ : s₁.Frame s₂)
    (h₂ : s₂.Frame s₃) : s₁.Frame s₃ :=
  ⟨h₂.mgr.trans h₁.mgr, h₂.rewritten.trans h₁.rewritten, h₂.builder.trans h₁.builder,
    h₂.merger.trans h₁.merger, h₂.toProcess.trans h₁.toProcess, h₂.overflows.trans h₁.overflows,
    h₂.slots.trans h₁.slots, h₂.loads.trans h₁.loads⟩

lemma CircularPageBuffer.free_slots {b b' : CircularPageBuffer} {a : ℕ} (h : b.free = some (a, b')) :
    b'.slots = b.slots := by
  unfold CircularPageBuffer.free at h
  split_ifs at h
  cases h; rfl

/-- Freeing a chain changes only the window's occupancy and logs a release. -/
lemma RewriteState.freeChain_frame {σ : Type} {s s' : RewriteState σ} {pc : PageChain}
    (h : s.freeChain pc = some s') : s.Frame s' := by
  simp only [RewriteState.freeChain, Option.bind_eq_bind, Option.bind_eq_some] at h
  obtain ⟨⟨a, b₁⟩, hf₁, h⟩ := h
  have hb₁ := CircularPageBuffer.free_slots hf₁
  split_ifs at h
  · obtain ⟨⟨freed, b⟩, hy, h⟩ := Option.bind_eq_some.mp h
    obtain ⟨⟨c, b₂⟩, hf₂, he⟩ := Option.map_eq_some'.mp hy
    cases he; obtain rfl := Option.some.inj h
    exact ⟨rfl, rfl, rfl, rfl, rfl, rfl, (CircularPageBuffer.free_slots hf₂).trans hb₁,
      by simp [Event.loads]⟩
  · obtain rfl := Option.some.inj h
    exact ⟨rfl, rfl, rfl, rfl, rfl, rfl, hb₁, by simp [Event.loads]⟩

lemma freeProcessed_frame {σ : Type} (next : Option ℕ) : ∀ (chains : List PageChain)
    (s s' : RewriteState σ), freeProcessed next chains s = some s' → s.Frame s'
  | [], s, s', h => by
    obtain rfl := Option.some.inj h; exact ⟨rfl, rfl, rfl, rfl, rfl, rfl, rfl, rfl⟩
  | pc :: rest, s, s', h => by
    rw [freeProcessed] at h
    split_ifs at h
    · obtain ⟨s₁, h₁, h₂⟩ := Option.bind_eq_some.mp h
      exact (RewriteState.freeChain_frame h₁).trans (freeProcessed_frame next rest s₁ s' h₂)
    · obtain rfl := Option.some.inj h; exact ⟨rfl, rfl, rfl, rfl, rfl, rfl, rfl, rfl⟩

lemma PageChain.records_congr {b b' : CircularPageBuffer} (h : b'.slots = b.slots) (pc : PageChain) :
    pc.records b' = pc.records b := by
  simp [PageChain.records, h]

/-! ## The invariant of a run -/

section Run

variable {σ : Type} (B : SegmentBuilder σ) (held : σ → List Record) (sequenceNumber : ℕ)
  (m₀ : Manager) (target : List Record) (last : ℕ)

/-- A run against the merge `target` it has to write, from the store `m₀`, with `remaining` left
to offer: the store is `m₀` after the loads logged so far (up to the workspace buffer), and their
entries are the rewritten ones; the loaded records, then those the builder holds, then those left
are `target`; each load's upper bound is the next one's base key, and the last one's is the first
key not yet written, or `last` when nothing is left; every segment written is well formed; and no
overflow page is queued for clearing. -/
structure RunInv (s : RewriteState σ) (remaining : List Record) : Prop where
  mgr : ∃ buf, s.mgr =
    { ((s.log.flatMap Event.loads).foldl (loadStep sequenceNumber) (m₀, [])).1 with buffer := buf }
  rewritten : s.rewritten = ((s.log.flatMap Event.loads).foldl (loadStep sequenceNumber) (m₀, [])).2
  records : (s.log.flatMap Event.loads).flatMap (fun x => x.1.records) ++ held s.builder ++ remaining =
    target
  chain : (s.log.flatMap Event.loads).Chain' fun x y => x.2 = y.1.baseKey
  last_upper : ∀ x ∈ (s.log.flatMap Event.loads).getLast?,
    x.2 = ((held s.builder ++ remaining).head?.map Prod.fst).getD last
  wellFormed : ∀ x ∈ s.log.flatMap Event.loads, x.1.WellFormed
  overflows : s.overflowsToClear = []

variable {B held sequenceNumber m₀ target last}

lemma RunInv.of_frame {s s' : RewriteState σ} {rem : List Record}
    (h : RunInv held sequenceNumber m₀ target last s rem) (hf : s.Frame s') :
    RunInv held sequenceNumber m₀ target last s' rem := by
  obtain ⟨hm, hr, hb, -, -, ho, -, hl⟩ := hf
  exact ⟨hm ▸ hl ▸ h.mgr, hr ▸ hl ▸ h.rewritten, hb ▸ hl ▸ h.records, hl ▸ h.chain,
    hb ▸ hl ▸ h.last_upper, hl ▸ h.wellFormed, ho ▸ h.overflows⟩

lemma RunInv.congr {s s' : RewriteState σ} {rem : List Record}
    (h : RunInv held sequenceNumber m₀ target last s rem) (hm : s'.mgr = s.mgr)
    (hr : s'.rewritten = s.rewritten) (hb : s'.builder = s.builder)
    (hl : s'.log.flatMap Event.loads = s.log.flatMap Event.loads)
    (ho : s'.overflowsToClear = s.overflowsToClear) : RunInv held sequenceNumber m₀ target last s' rem :=
  ⟨hm ▸ hl ▸ h.mgr, hr ▸ hl ▸ h.rewritten, hb ▸ hl ▸ h.records, hl ▸ h.chain, hb ▸ hl ▸ h.last_upper,
    hl ▸ h.wellFormed, ho ▸ h.overflows⟩

/-- Reading into the workspace buffer changes nothing the invariant sees. -/
lemma RunInv.withBuffer {s : RewriteState σ} {rem : List Record}
    (h : RunInv held sequenceNumber m₀ target last s rem) (buf : ℕ → Page) :
    RunInv held sequenceNumber m₀ target last { s with mgr := { s.mgr with buffer := buf } } rem := by
  obtain ⟨buf', hm⟩ := h.mgr
  exact ⟨⟨buf, by rw [hm]⟩, h.rewritten, h.records, h.chain, h.last_upper, h.wellFormed, h.overflows⟩

lemma flatMap_loads_map (loads : List (Segment × ℕ)) :
    (loads.map fun x => Event.load x.1 x.2).flatMap Event.loads = loads := by
  induction loads with
  | nil => rfl
  | cons x loads ih => simp only [List.map_cons, List.flatMap_cons, ih]; rfl

/-- Loading segments after the loads so far: the store and the entries are those of all the
loads. -/
lemma RunInv.load_mgr {s : RewriteState σ} {rem : List Record}
    (h : RunInv held sequenceNumber m₀ target last s rem) (N : List (Segment × ℕ)) :
    (∃ buf, (N.foldl (loadStep sequenceNumber) (s.mgr, s.rewritten)).1 =
      { ((s.log.flatMap Event.loads ++ N).foldl (loadStep sequenceNumber) (m₀, [])).1 with buffer := buf }) ∧
    (N.foldl (loadStep sequenceNumber) (s.mgr, s.rewritten)).2 =
      ((s.log.flatMap Event.loads ++ N).foldl (loadStep sequenceNumber) (m₀, [])).2 := by
  obtain ⟨buf, hm⟩ := h.mgr
  obtain ⟨buf', hN⟩ := foldl_loadStep_withBuffer sequenceNumber N _ buf
    ((s.log.flatMap Event.loads).foldl (loadStep sequenceNumber) (m₀, [])).2
  rw [hm, h.rewritten, hN, List.foldl_append]
  exact ⟨⟨buf', rfl⟩, rfl⟩

/-- **Writing what the builder emits keeps the invariant.** The builder goes from holding
`held s.builder`, with `X` next to offer, to holding `held b'` after emitting `segs`; the segments
are written with the upper bounds `load_into_segments_and_free_pages` gives them, the last one up
to the first key not yet written. -/
lemma RunInv.emit (hasc : Ascending target) {s : RewriteState σ} (X : List Record) {rem : List Record}
    (h : RunInv held sequenceNumber m₀ target last s (X ++ rem)) (b' : σ) (segs : List Segment)
    (u : ℕ) (hsegs : segs.flatMap Segment.records ++ held b' = held s.builder ++ X)
    (hshape : ∀ seg ∈ segs, seg.Shaped)
    (hu : segs ≠ [] → u = ((held b' ++ rem).head?.map Prod.fst).getD last)
    (pm : PagePlusRecordMerger) (log : List Event)
    (hlog : log.flatMap Event.loads = s.log.flatMap Event.loads) :
    RunInv held sequenceNumber m₀ target last { s with
      mgr := ((chainUppers segs u).foldl (loadStep sequenceNumber) (s.mgr, s.rewritten)).1
      rewritten := ((chainUppers segs u).foldl (loadStep sequenceNumber) (s.mgr, s.rewritten)).2
      builder := b', merger := pm, log := log ++ (chainUppers segs u).map fun x => .load x.1 x.2 } rem := by
  set N := chainUppers segs u with hNdef
  have hNrec : N.flatMap (fun x => x.1.records) = segs.flatMap Segment.records := by
    conv_rhs => rw [← map_fst_chainUppers segs u, List.flatMap_map]
  have hL : (log ++ N.map fun x => Event.load x.1 x.2).flatMap Event.loads =
      s.log.flatMap Event.loads ++ N := by
    rw [List.flatMap_append, hlog, flatMap_loads_map]
  obtain ⟨hmgr, hrw⟩ := h.load_mgr N
  refine ⟨hL ▸ hmgr, hL ▸ hrw, ?_, ?_, ?_, ?_, h.overflows⟩
  · -- the records
    dsimp only
    rw [hL, List.flatMap_append, hNrec, List.append_assoc, List.append_assoc, ← List.append_assoc _ (held b'),
      hsegs, ← h.records]
    simp
  · -- the upper bounds chain into the next base keys
    dsimp only
    rw [hL]
    refine List.Chain'.append h.chain (chain'_chainUppers segs u) fun x hx z hz => ?_
    have hz' : z.1 ∈ segs.head? := by
      rw [← map_fst_chainUppers segs u, List.head?_map]; exact Option.mem_map_of_mem _ hz
    obtain ⟨rest, hrest⟩ := List.head?_eq_some_iff.mp hz'
    obtain ⟨q, qs, hq, hbase⟩ := exists_cons_of_head_key (hshape z.1 (hrest ▸ List.mem_cons_self _ _)).base_eq
    have hhead : (held s.builder ++ X).head? = some q := by
      rw [← hsegs, hrest, List.flatMap_cons, hq]; rfl
    rw [h.last_upper x hx, ← hbase, ← List.append_assoc, List.head?_append, hhead]
    rfl
  · -- the last upper bound
    dsimp only
    rw [hL]
    intro x hx
    by_cases hN : N = []
    · have hsegs' : segs = [] := by rw [← map_fst_chainUppers segs u, ← hNdef, hN]; rfl
      rw [hN, List.append_nil] at hx
      rw [h.last_upper x hx, ← List.append_assoc, ← hsegs, hsegs']
      rfl
    · rw [List.getLast?_append_of_ne_nil _ hN, getLast?_chainUppers] at hx
      obtain ⟨seg, -, rfl⟩ := Option.mem_map.mp hx
      exact hu fun h' => hN (by rw [hNdef, h']; rfl)
  · -- every segment written is well formed
    dsimp only
    rw [hL]
    intro x hx
    rcases List.mem_append.mp hx with hx | hx
    · exact h.wellFormed x hx
    · have hseg : x.1 ∈ segs := by
        rw [← map_fst_chainUppers segs u]; exact List.mem_map_of_mem _ hx
      refine (hshape x.1 hseg).wellFormed (hasc.sublist ?_)
      have htarget : target = (s.log.flatMap Event.loads).flatMap (fun x => x.1.records) ++
          (segs.flatMap Segment.records ++ held b') ++ rem := by
        rw [hsegs, ← h.records]; simp
      rw [htarget]
      exact ((List.sublist_flatten_of_mem (List.mem_map_of_mem Segment.records hseg)).trans
        (List.sublist_append_left _ _)).trans (List.infix_append _ _ _).sublist

/-- **Offering the next record keeps the invariant.** The record moves from what is left to what
the builder holds, and the segments the builder emits are written, the last one up to the first
key the builder still holds. -/
lemma RunInv.offer (hB : B.Contract held) (hasc : Ascending target) {s : RewriteState σ}
    {r : Record} {rem : List Record} (h : RunInv held sequenceNumber m₀ target last s (r :: rem))
    (pm : PagePlusRecordMerger) :
    RunInv held sequenceNumber m₀ target last
      (loadSegments B sequenceNumber (B.offer s.builder r).2
        { s with merger := pm, builder := (B.offer s.builder r).1, log := s.log ++ [.offer r] }) rem := by
  obtain ⟨y, ys, hy⟩ := List.exists_cons_of_ne_nil (hB.offer_holds s.builder r)
  obtain ⟨u, hsome, -, heq⟩ := loadSegments_eq B sequenceNumber (B.offer s.builder r).2
    { s with merger := pm, builder := (B.offer s.builder r).1, log := s.log ++ [.offer r] }
  have hu : u = y.1 := hsome _ (by simp only [hB.currentBaseKey, hy]; rfl)
  rw [heq]
  exact h.emit hasc [r] _ _ u (hB.offer s.builder r)
    (hB.offer_shaped _ _) (fun _ => by rw [hu, hy]; rfl)
    pm _ (by simp [Event.loads])

/-- **Offering a record, then writing what the builder emits.** After the offer, the window's
write-out keeps the invariant, the merger is the one given, and the queue and the slots' pages are
untouched. -/
lemma RunInv.offer_step (hB : B.Contract held) (hasc : Ascending target) {s s' : RewriteState σ}
    {r : Record} {rem : List Record} (h : RunInv held sequenceNumber m₀ target last s (r :: rem))
    (pm : PagePlusRecordMerger)
    (hs : (if (B.offer s.builder r).2.isEmpty then
        some { s with merger := pm, builder := (B.offer s.builder r).1, log := s.log ++ [.offer r] }
      else loadAndFree B sequenceNumber (B.offer s.builder r).2
        { s with merger := pm, builder := (B.offer s.builder r).1, log := s.log ++ [.offer r] }) =
      some s') :
    RunInv held sequenceNumber m₀ target last s' rem ∧ s'.merger = pm ∧ s'.toProcess = s.toProcess ∧
      s'.pageBuf.slots = s.pageBuf.slots := by
  have hoff := h.offer hB hasc pm
  obtain ⟨h1, -, h3, -, h5, -⟩ := loadSegments_spec B sequenceNumber (B.offer s.builder r).2
    { s with merger := pm, builder := (B.offer s.builder r).1, log := s.log ++ [.offer r] }
  split_ifs at hs with hempty
  · obtain rfl := Option.some.inj hs
    rw [List.isEmpty_iff.mp hempty] at hoff
    exact ⟨hoff, rfl, rfl, rfl⟩
  · have hf := freeProcessed_frame _ _ _ _ hs
    exact ⟨hoff.of_frame hf, hf.merger.trans h5, hf.toProcess.trans h3, hf.slots.trans (congrArg _ h1)⟩

/-- The merger's step is a step of the newest-wins merge: with the page run ascending and, when it
is exhausted, nothing after it, `GetNext` returns the merge's first record. -/
lemma PagePlusRecordMerger.getNext_newestWins {pm pm' : PagePlusRecordMerger} {r : Record}
    {F : List Record} (hasc : Ascending (pm.pmi ++ F)) (hF : pm.pmi = [] → F = [])
    (h : pm.getNext = some (r, pm')) :
    newestWins (pm.pmi ++ F) pm.it = r :: newestWins (pm'.pmi ++ F) pm'.it ∧
      pm'.pmi.Sublist pm.pmi ∧ pm'.it.Sublist pm.it := by
  rcases pm with ⟨_ | ⟨p, ps⟩, _ | ⟨q, qs⟩⟩
  · cases h
  · obtain rfl := hF rfl
    obtain ⟨rfl, rfl⟩ := Prod.mk.inj (Option.some.inj h)
    exact ⟨by simp, .refl _, List.sublist_cons_self _ _⟩
  · obtain ⟨rfl, rfl⟩ := Prod.mk.inj (Option.some.inj h)
    exact ⟨by simp, List.sublist_cons_self _ _, .refl _⟩
  · have hasc' := Ascending.cons_iff.mp hasc
    simp only [getNext] at h
    split_ifs at h with hle heq
    · obtain ⟨rfl, rfl⟩ := Prod.mk.inj (Option.some.inj h)
      exact ⟨newestWins_cons_of_eq qs heq.symm hasc, List.sublist_cons_self _ _,
        List.sublist_cons_self _ _⟩
    · obtain ⟨rfl, rfl⟩ := Prod.mk.inj (Option.some.inj h)
      refine ⟨newestWins_cons_of_forall_lt qs fun x hx => ?_, .refl _, List.sublist_cons_self _ _⟩
      rcases List.mem_cons.mp hx with rfl | hx
      · omega
      · have := hasc'.1 x hx; omega
    · obtain ⟨rfl, rfl⟩ := Prod.mk.inj (Option.some.inj h)
      exact ⟨newestWins_cons_of_lt _ _ (by omega), List.sublist_cons_self _ _, .refl _⟩

/-- **Draining keeps the run invariant.** While `more` holds, the merger offers the first record of
the merge of the current page run (then the runs `F` still queued) with the batch; when the
drain returns, `more` fails, and the queue and the slots' pages are as they were. -/
lemma drainWhile_runInv (hB : B.Contract held) (hasc : Ascending target)
    (more : PagePlusRecordMerger → Bool) (F : List Record)
    (hmoreF : ∀ pm, more pm = true → pm.pmi = [] → F = []) : ∀ (fuel : ℕ) (s s' : RewriteState σ),
    Pg.drainWhile B sequenceNumber more fuel s = some s' → Ascending (s.merger.pmi ++ F) →
    Ascending s.merger.it →
    RunInv held sequenceNumber m₀ target last s (newestWins (s.merger.pmi ++ F) s.merger.it) →
    RunInv held sequenceNumber m₀ target last s' (newestWins (s'.merger.pmi ++ F) s'.merger.it) ∧
      Ascending (s'.merger.pmi ++ F) ∧ Ascending s'.merger.it ∧ more s'.merger = false ∧
      s'.toProcess = s.toProcess ∧ s'.pageBuf.slots = s.pageBuf.slots
  | 0, _, _, h, _, _, _ => by cases h
  | fuel + 1, s, s', h, hpf, hit, hinv => by
    rw [drainWhile_succ] at h
    split_ifs at h with hm
    · obtain ⟨⟨r, pm⟩, hget, h⟩ := Option.bind_eq_some.mp h
      obtain ⟨s₂, hs₂, h⟩ := Option.bind_eq_some.mp h
      obtain ⟨heq, hp, hi⟩ := PagePlusRecordMerger.getNext_newestWins hpf (hmoreF _ hm) hget
      rw [heq] at hinv
      obtain ⟨h₂, hm₂, ht₂, hsl₂⟩ := hinv.offer_step hB hasc pm hs₂
      obtain ⟨h', hpf', hit', hmore', ht', hsl'⟩ := drainWhile_runInv hB hasc more F hmoreF fuel s₂ s' h
        (hm₂ ▸ (Ascending.append_iff.mpr ⟨(Ascending.append_iff.mp hpf).1.sublist hp,
          (Ascending.append_iff.mp hpf).2.1, fun a ha b hb =>
            (Ascending.append_iff.mp hpf).2.2 a (hp.subset ha) b hb⟩))
        (hm₂ ▸ hit.sublist hi) (hm₂ ▸ h₂)
      exact ⟨h', hpf', hit', hmore', ht'.trans ht₂, hsl'.trans hsl₂⟩
    · obtain rfl := Option.some.inj h
      exact ⟨hinv, hpf, hit, by simpa using hm, rfl, rfl⟩

/-- **Processing the queued chains keeps the run invariant.** Each chain's records are merged in
turn; afterwards what is left to offer is the rest of the batch. -/
lemma processChains_runInv (hB : B.Contract held) (hasc : Ascending target) :
    ∀ (chains : List PageChain) (s s' : RewriteState σ),
    processChains B sequenceNumber chains s = some s' → s.merger.pmi = [] → Ascending s.merger.it →
    Ascending (chains.flatMap (PageChain.records s.pageBuf)) →
    RunInv held sequenceNumber m₀ target last s
      (newestWins (chains.flatMap (PageChain.records s.pageBuf)) s.merger.it) →
    RunInv held sequenceNumber m₀ target last s' s'.merger.it ∧ s'.merger.pmi = [] ∧
      Ascending s'.merger.it
  | [], s, s', h, hp, hit, _, hinv => by
    obtain rfl := Option.some.inj h
    exact ⟨by simpa using hinv, hp, hit⟩
  | pc :: rest, s, s', h, hp, hit, hchains, hinv => by
    simp only [processChains, Option.bind_eq_bind] at h
    obtain ⟨s₂, hs₂, h⟩ := Option.bind_eq_some.mp h
    set F := rest.flatMap (PageChain.records s.pageBuf)
    rw [List.flatMap_cons] at hchains hinv
    obtain ⟨h₂, -, hit₂, hmore₂, -, hsl₂⟩ := drainWhile_runInv hB hasc
      PagePlusRecordMerger.hasPageRecords F (fun pm hm hpmi => by
        simp [PagePlusRecordMerger.hasPageRecords, hpmi] at hm) _ _ s₂ hs₂ hchains hit
      (hinv.congr rfl rfl rfl rfl rfl)
    have hpmi₂ : s₂.merger.pmi = [] := by
      simpa [PagePlusRecordMerger.hasPageRecords] using hmore₂
    have hF : rest.flatMap (PageChain.records s₂.pageBuf) = F := by
      rw [show PageChain.records s₂.pageBuf = PageChain.records s.pageBuf from
        funext (PageChain.records_congr hsl₂)]
    rw [hpmi₂, List.nil_append] at h₂
    refine processChains_runInv hB hasc rest _ s' h hpmi₂ hit₂ ?_ ?_
    · rw [hF]; exact (Ascending.append_iff.mp hchains).2.1
    · exact (hF ▸ h₂).congr rfl rfl rfl rfl rfl

/-- Allocating a slot leaves every slot's page in place. -/
lemma CircularPageBuffer.slots_of_allocate {b b' : CircularPageBuffer} {a : ℕ}
    (h : b.allocate = some (a, b')) : b'.slots = b.slots := by
  unfold CircularPageBuffer.allocate at h
  split_ifs at h
  obtain ⟨-, rfl⟩ := Prod.mk.inj (Option.some.inj h)
  rfl

/-- A guarded flush does nothing when the window has room. -/
lemma makeRoom_of_le {s : RewriteState σ} {line₁ line₂ need : ℕ}
    (h : need ≤ s.pageBuf.numFreePages) : makeRoom B sequenceNumber line₁ line₂ need s = some s :=
  if_neg (Nat.not_lt.mpr h)

/-- **Copying pages without overflow pages into the window.** Each page gets the next slot in
turn, which then holds it; no other slot changes, no overflow page is queued, and only
allocations are logged. -/
lemma allocChains_single : ∀ (pages : List Page) (s s' : RewriteState σ) (chains : List PageChain)
    (loads : List (SegmentId × ℕ)), allocChains pages s = some (s', chains, loads) →
    (∀ p ∈ pages, p.overflow = none) → s.pageBuf.capacity = 64 →
    s.pageBuf.count + pages.length ≤ 64 →
    loads = [] ∧ chains.map (fun pc => (pc.main, pc.overflow)) =
      (List.range pages.length).map (fun j => ((s.pageBuf.head + s.pageBuf.count + j) % 64, none)) ∧
    chains.map (fun pc => s'.pageBuf.slots pc.main) = pages ∧
    (∀ slot, (∀ j < pages.length, slot ≠ (s.pageBuf.head + s.pageBuf.count + j) % 64) →
      s'.pageBuf.slots slot = s.pageBuf.slots slot) ∧
    s'.mgr = s.mgr ∧ s'.rewritten = s.rewritten ∧ s'.builder = s.builder ∧ s'.merger = s.merger ∧
    s'.toProcess = s.toProcess ∧ s'.overflowsToClear = s.overflowsToClear ∧
    s'.log.flatMap Event.loads = s.log.flatMap Event.loads
  | [], s, s', chains, loads, h, _, _, _ => by
    simp only [allocChains, Option.some.injEq, Prod.mk.injEq] at h
    obtain ⟨rfl, rfl, rfl⟩ := h
    simp
  | p :: ps, s, s', chains, loads, h, hno, hcap, hfit => by
    have hov := hno p (.head _)
    simp only [List.length_cons] at hfit
    obtain ⟨b₁, ha, -, hc₁, hh₁, hn₁⟩ := CircularPageBuffer.allocate_spec (b := s.pageBuf) (by omega)
    rw [hcap] at ha
    simp only [allocChains, hov, ha, Option.bind_eq_bind, Option.some_bind, Option.bind_eq_some] at h
    obtain ⟨⟨s', chains', loads'⟩, hrest, h⟩ := h
    simp only [pure, Option.some.injEq, Prod.mk.injEq] at h
    obtain ⟨rfl, rfl, rfl⟩ := h
    obtain ⟨hl, hmain, hslots, hframe, hm, hr, hb, hmg, ht, ho, hlog⟩ := allocChains_single ps _ _ _ _ hrest
      (fun q hq => hno q (.tail _ hq)) (by simp [hc₁, hcap]) (by simp [hn₁]; omega)
    simp only [CircularPageBuffer.write_head, CircularPageBuffer.write_count, hh₁, hn₁] at hmain hframe
    have hslot : s'.pageBuf.slots ((s.pageBuf.head + s.pageBuf.count) % 64) = p := by
      rw [hframe _ fun j hj => by omega]
      simp [CircularPageBuffer.write]
    refine ⟨hl, ?_, by rw [List.map_cons, hslots, hslot], fun slot hslot' => ?_, hm, hr, hb, hmg, ht,
      ho, by simp [hlog, Event.loads]⟩
    · rw [List.map_cons, hmain, List.length_cons, List.range_succ_eq_map, List.map_cons, List.map_map]
      congr 1
      exact List.map_congr_left fun j _ => by simp only [Function.comp_apply]; congr 2; omega
    · rw [hframe slot fun j hj h' => hslot' (j + 1) (by simp; omega) (by rw [h']; omega)]
      simp only [CircularPageBuffer.write, Function.update_apply]
      rw [if_neg fun h' => hslot' 0 (by simp) (by rw [h']; rfl), CircularPageBuffer.slots_of_allocate ha]

/-- `ReadSegment` puts the segment's pages in the workspace buffer. -/
lemma Manager.bufferPages_readSegment (m : Manager) (id : SegmentId) (n : ℕ) :
    (m.readSegment id n).bufferPages n = (List.range n).map (m.readPage id) :=
  List.map_congr_left fun _ hi => if_pos (List.mem_range.mp hi)

/-- Chains without overflow pages over ascending pages yield their pages' records. -/
lemma flatMap_records_of_single {b : CircularPageBuffer} {chains : List PageChain}
    (hov : ∀ pc ∈ chains, pc.overflow = none) (hasc : ∀ pc ∈ chains, Ascending (b.slots pc.main).records) :
    chains.flatMap (PageChain.records b) = (chains.map fun pc => b.slots pc.main).flatMap Page.records := by
  rw [List.flatMap_map, List.flatMap_def, List.flatMap_def]
  exact congrArg List.flatten (List.map_congr_left fun pc hpc => by
    rw [PageChain.records, hov pc hpc, Option.map_none', Option.toList_none,
      pageMergeIterator_singleton (hasc pc hpc)])

/-- **Rewriting one segment without overflow pages keeps the run invariant.** With the window
empty, neither guarded flush runs; the segment's pages go into the window in order, and the
chains are processed, which merges the segment's records into what is left to offer. -/
lemma rewriteOne_runInv (hB : B.Contract held) (hasc : Ascending target) {s s' : RewriteState σ}
    {info : SegmentInfo} (h : rewriteOne B sequenceNumber s info = some s')
    (hcap : s.pageBuf.capacity = 64) (hcount : s.pageBuf.count = 0) (htp : s.toProcess = [])
    (hfile : info.id.fileId ≤ 4) (hov : ∀ i < info.pageCount, (s.mgr.readPage info.id i).overflow = none)
    (hrec : Ascending (s.mgr.segmentRecords info)) (hpmi : s.merger.pmi = []) (hit : Ascending s.merger.it)
    (hinv : RunInv held sequenceNumber m₀ target last s (newestWins (s.mgr.segmentRecords info) s.merger.it)) :
    RunInv held sequenceNumber m₀ target last s' s'.merger.it ∧ s'.merger.pmi = [] ∧
      Ascending s'.merger.it := by
  have hn : info.pageCount ≤ 16 := Nat.pow_le_pow_right (by norm_num) hfile
  set pages := (List.range info.pageCount).map (s.mgr.readPage info.id) with hpages
  have hpov : ∀ p ∈ pages, p.overflow = none := by
    simp only [hpages, List.mem_map, List.mem_range]
    rintro p ⟨i, hi, rfl⟩; exact hov i hi
  have hflat : pages.flatMap Page.records = s.mgr.segmentRecords info := by
    rw [Manager.segmentRecords_of_no_overflow hov, hpages, List.flatMap_map]
  have hnov : (pages.filter fun p => p.overflow.isSome) = [] :=
    List.filter_eq_nil_iff.mpr fun p hp => by simp [hpov p hp]
  simp only [rewriteOne, Option.bind_eq_bind, Option.bind_eq_some] at h
  obtain ⟨s₁, h₁, s₂, h₂, ⟨s₃, chains, loads⟩, h₃, h⟩ := h
  rw [makeRoom_of_le (by simp only [CircularPageBuffer.numFreePages, hcap, hcount]; omega)] at h₁
  obtain rfl := Option.some.inj h₁
  rw [Manager.bufferPages_readSegment, ← hpages, hnov, makeRoom_of_le
    (by simp only [CircularPageBuffer.numFreePages, hcap, hcount, List.length_nil]; omega)] at h₂
  obtain rfl := Option.some.inj h₂
  rw [Manager.bufferPages_readSegment, ← hpages] at h₃
  obtain ⟨rfl, hmain, hslots, -, hm, hr, hb, hmg, ht, ho, hl⟩ :=
    allocChains_single _ _ _ _ _ h₃ hpov hcap (by simp [hcount, hpages]; omega)
  have hcov : ∀ pc ∈ chains, pc.overflow = none := fun pc hpc => by
    have := List.mem_map_of_mem (fun pc : PageChain => (pc.main, pc.overflow)) hpc
    rw [hmain] at this
    obtain ⟨j, -, hj⟩ := List.mem_map.mp this
    exact (Prod.mk.inj hj).2.symm
  have hcasc : ∀ pc ∈ chains, Ascending (s₃.pageBuf.slots pc.main).records := fun pc hpc => by
    have hp : s₃.pageBuf.slots pc.main ∈ pages := hslots ▸ List.mem_map_of_mem _ hpc
    exact hrec.sublist (hflat ▸ List.sublist_flatten_of_mem (List.mem_map_of_mem Page.records hp))
  have hchains : chains.flatMap (PageChain.records s₃.pageBuf) = s.mgr.segmentRecords info := by
    rw [flatMap_records_of_single hcov hcasc, hslots, hflat]
  simp only [ht, htp, List.nil_append, List.foldl_nil] at h
  refine processChains_runInv hB hasc chains _ s' h (hmg ▸ hpmi) (hmg ▸ hit) (hchains ▸ hrec) ?_
  rw [hchains, hmg]
  exact (hinv.withBuffer _).congr hm hr hb hl ho

/-- **The final `Finish` writes what the builder holds.** With nothing left to offer, the
segments `Finish` emits are written, the last one up to `last`, the index key after every key of
the merge. -/
lemma RunInv.finish (hB : B.Contract held) (hasc : Ascending target)
    (hlast : ∀ r ∈ target, (indexUpperBound m₀.index r.1).getD kMaxKey = last) {s : RewriteState σ}
    (h : RunInv held sequenceNumber m₀ target last s []) :
    RunInv held sequenceNumber m₀ target last
      (loadSegments B sequenceNumber (B.finish s.builder).2 { s with builder := (B.finish s.builder).1 }) [] := by
  set segs := (B.finish s.builder).2
  obtain ⟨u, -, hnone, heq⟩ := loadSegments_eq B sequenceNumber segs
    { s with builder := (B.finish s.builder).1 }
  have hcb : B.currentBaseKey (B.finish s.builder).1 = none := by
    rw [hB.currentBaseKey, hB.finish_empty]; rfl
  have hidx : s.mgr.index = m₀.index := by
    obtain ⟨buf, hm⟩ := h.mgr
    rw [hm]; exact foldl_loadStep_index _ _ _
  have hu : segs ≠ [] → u = last := fun hne => by
    obtain ⟨seg, hseg⟩ := Option.ne_none_iff_exists'.mp (mt List.getLast?_eq_none_iff.mp hne)
    obtain ⟨q, qs, hq, -⟩ :=
      exists_cons_of_head_key (hB.finish_shaped _ seg (List.mem_of_getLast?_eq_some hseg)).base_eq
    obtain ⟨r, hr⟩ := Option.ne_none_iff_exists'.mp (by simp [hq] : seg.records.getLast? ≠ none)
    rw [hnone hcb seg hseg, hr, Option.map_some', Option.getD_some]
    refine hidx ▸ hlast r ?_
    rw [← h.records, List.append_nil]
    refine List.mem_append_right _ ?_
    rw [← hB.finish]
    exact List.mem_flatMap.mpr ⟨seg, List.mem_of_getLast?_eq_some hseg, List.mem_of_getLast?_eq_some hr⟩
  rw [heq]
  exact h.emit hasc [] _ segs u (by rw [hB.finish, hB.finish_empty, List.append_nil])
    (hB.finish_shaped _) (fun hne => by rw [hu hne, hB.finish_empty]; rfl) s.merger s.log rfl

/-- The step after the final drain: `Finish` the builder and write what it emits; afterwards the
builder holds nothing. -/
lemma RunInv.finish_step (hB : B.Contract held) (hasc : Ascending target)
    (hlast : ∀ r ∈ target, (indexUpperBound m₀.index r.1).getD kMaxKey = last) {s s' : RewriteState σ}
    (h : RunInv held sequenceNumber m₀ target last s [])
    (hs : (if (B.finish s.builder).2.isEmpty then some { s with builder := (B.finish s.builder).1 }
      else loadAndFree B sequenceNumber (B.finish s.builder).2
        { s with builder := (B.finish s.builder).1 }) = some s') :
    RunInv held sequenceNumber m₀ target last s' [] ∧ held s'.builder = [] := by
  have hfin := h.finish hB hasc hlast
  obtain ⟨-, -, -, hb, -⟩ := loadSegments_spec B sequenceNumber (B.finish s.builder).2
    { s with builder := (B.finish s.builder).1 }
  split_ifs at hs with hempty
  · obtain rfl := Option.some.inj hs
    rw [List.isEmpty_iff.mp hempty] at hfin
    exact ⟨hfin, hB.finish_empty _⟩
  · have hf := freeProcessed_frame _ _ _ _ hs
    exact ⟨hfin.of_frame hf, by rw [hf.builder, hb, hB.finish_empty]⟩

end Run

/-- Two one-page segments, `[10, 15]` and `[20]`, for the bulk load. -/
def loadScenario : List Segment :=
  [⟨1, 10, [(10, [1]), (15, [2])], none⟩, ⟨1, 20, [(20, [3])], none⟩]

end Treeline.Pg
