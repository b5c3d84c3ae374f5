import Treeline.PageGrouping.Rewrite

/-!
# The sliding window of `RewriteSegments`

`RewriteSegments` keeps the pages of the segments it rewrites in a ring of `16 · 4 = 64` page
slots (`src/page_grouping/manager_rewrite.cc`, lines 200-377). A segment's pages and overflow
pages are allocated when it is read, and a chain's slots are freed, oldest first, once the
builder no longer needs its records. This module proves that the ring is used as a queue and
never overflows, for every rewrite set of segments of at most 16 pages, every batch and every
builder whose `Finish` leaves it empty; and that the flush made before a segment's overflow pages
are read reuses the workspace buffer the segment was just read into.

## Main definitions

* `Treeline.Pg.CircularPageBuffer.outstanding` — the slots allocated and not yet freed, oldest
  first.
* `Treeline.Pg.PageChain.slots` — a chain's slots in allocation order.
* `Treeline.Pg.WindowInv` — the invariant of the window between the steps of a rewrite.
* `Treeline.Pg.WindowLog` — what the invariant says of the rewrite's log.
* `Treeline.Pg.holdAllBuilder`, `overflowFlushScenario` — a builder that emits only when
  finished, and three segments whose rewrite needs the flush of lines 310-317.

## Main results

* `Treeline.Pg.rewriteSegments_window_safe` — every `Allocate` finds a slot, chains are freed in
  allocation order, and the assertions of lines 303 and 316 hold.
* `Treeline.Pg.rewriteSegments_overflow_flush_loses_records` — the flush of lines 310-317 makes
  the rewrite copy the page it has just written in place of the segment it had just read, so a
  record is lost and others are written twice.

## Implementation notes

The invariant ties the ring to the two queues of chains: the outstanding slots are the slots of
the processed chains, then of the chains still to process, in order; and the log's allocations
are its frees followed by the outstanding slots.
-/

namespace Treeline.Pg

/-! ## The ring as a queue -/

/-- The outstanding slots of the ring, oldest first. -/
def CircularPageBuffer.outstanding (b : CircularPageBuffer) : List ℕ :=
  (List.range b.count).map fun i => (b.head + i) % b.capacity

/-- A chain's slots in allocation order: the main page's, then the overflow page's. -/
def PageChain.slots (pc : PageChain) : List ℕ := pc.main :: pc.overflow.toList

/-- The slots an event allocates. -/
def Event.allocated : Event → List ℕ
  | .allocate slot => [slot]
  | _ => []

/-- The slots an event frees. -/
def Event.freed : Event → List ℕ
  | .release _ freed => freed
  | _ => []

@[simp] lemma CircularPageBuffer.length_outstanding (b : CircularPageBuffer) :
    b.outstanding.length = b.count := by
  simp [CircularPageBuffer.outstanding]

/-- `Allocate` appends the slot after the outstanding ones. -/
lemma CircularPageBuffer.allocate_spec {b : CircularPageBuffer} (h : b.count < b.capacity) :
    ∃ b', b.allocate = some ((b.head + b.count) % b.capacity, b') ∧
      b'.outstanding = b.outstanding ++ [(b.head + b.count) % b.capacity] ∧
      b'.capacity = b.capacity ∧ b'.head = b.head ∧ b'.count = b.count + 1 :=
  ⟨_, if_pos h, by simp [CircularPageBuffer.outstanding, List.range_succ], rfl, rfl, rfl⟩

/-- `Free` releases the oldest outstanding slot. -/
lemma CircularPageBuffer.free_spec {b : CircularPageBuffer} {a : ℕ} {rest : List ℕ}
    (hhead : b.head < b.capacity) (h : b.outstanding = a :: rest) :
    ∃ b', b.free = some (a, b') ∧ b'.outstanding = rest ∧ b'.capacity = b.capacity ∧
      b'.head < b'.capacity ∧ b'.slots = b.slots := by
  have hc : 0 < b.count := by
    have := congrArg List.length h; simp at this; omega
  obtain ⟨c, hc'⟩ : ∃ c, b.count = c + 1 := ⟨b.count - 1, by omega⟩
  have h' := h
  simp only [CircularPageBuffer.outstanding, hc', List.range_succ_eq_map, List.map_cons,
    List.map_map, Nat.add_zero, Nat.mod_eq_of_lt hhead, List.cons.injEq] at h'
  refine ⟨{ b with head := (b.head + 1) % b.capacity, count := b.count - 1 },
    by rw [CircularPageBuffer.free, if_pos hc, h'.1], ?_, rfl, Nat.mod_lt _ (by omega), rfl⟩
  rw [← h'.2]
  simp only [CircularPageBuffer.outstanding, hc', Nat.add_sub_cancel]
  refine List.map_congr_left fun i _ => ?_
  rw [Function.comp_apply, Nat.mod_add_mod, Nat.succ_eq_add_one, Nat.add_right_comm, Nat.add_assoc]

@[simp] lemma CircularPageBuffer.write_outstanding (b : CircularPageBuffer) (slot : ℕ) (p : Page) :
    (b.write slot p).outstanding = b.outstanding := rfl

@[simp] lemma CircularPageBuffer.write_capacity (b : CircularPageBuffer) (slot : ℕ) (p : Page) :
    (b.write slot p).capacity = b.capacity := rfl

@[simp] lemma CircularPageBuffer.write_head (b : CircularPageBuffer) (slot : ℕ) (p : Page) :
    (b.write slot p).head = b.head := rfl

@[simp] lemma CircularPageBuffer.write_count (b : CircularPageBuffer) (slot : ℕ) (p : Page) :
    (b.write slot p).count = b.count := rfl

/-! ## The invariant -/

/-- An event that neither allocates nor frees a slot and is no failed assertion of line 303 or
316. -/
def Event.quiet : Event → Prop
  | .allocate _ => False
  | .release _ _ => False
  | .assertion line holds => line = 303 ∨ line = 316 → holds = true
  | _ => True

lemma Event.quiet.allocated {e : Event} (h : e.quiet) : e.allocated = [] := by
  cases e <;> first | rfl | exact h.elim

lemma Event.quiet.freed {e : Event} (h : e.quiet) : e.freed = [] := by
  cases e <;> first | rfl | exact h.elim

/-- The window between two steps of a rewrite: a ring of 64 slots whose outstanding slots are
those of the processed chains, then of the chains to process; every slot the log allocates is
either freed, in allocation order, or still outstanding; every release frees its chain's slots;
and no assertion of line 303 or 316 has failed. -/
structure WindowInv {σ : Type} (s : RewriteState σ) : Prop where
  capacity_eq : s.pageBuf.capacity = 64
  head_lt : s.pageBuf.head < 64
  outstanding_eq : s.pageBuf.outstanding = (s.processed ++ s.toProcess).flatMap PageChain.slots
  fifo : s.log.flatMap Event.allocated = s.log.flatMap Event.freed ++ s.pageBuf.outstanding
  releases : ∀ pc freed, Event.release pc freed ∈ s.log → freed = pc.slots
  asserts : ∀ line holds, Event.assertion line holds ∈ s.log → line = 303 ∨ line = 316 → holds = true

section Steps

variable {σ : Type} (B : SegmentBuilder σ) (sequenceNumber : ℕ)

/-- The invariant reads only the ring, the two queues and the log; quiet events keep it. -/
lemma WindowInv.congr {s s' : RewriteState σ} (h : WindowInv s) (hb : s'.pageBuf = s.pageBuf)
    (hp : s'.processed = s.processed) (ht : s'.toProcess = s.toProcess) {es : List Event}
    (hl : s'.log = s.log ++ es) (hq : ∀ e ∈ es, e.quiet) : WindowInv s' := by
  have hal : es.flatMap Event.allocated = [] := List.flatMap_eq_nil_iff.mpr fun e he => (hq e he).allocated
  have hfr : es.flatMap Event.freed = [] := List.flatMap_eq_nil_iff.mpr fun e he => (hq e he).freed
  refine ⟨hb ▸ h.capacity_eq, hb ▸ h.head_lt, by rw [hb, hp, ht]; exact h.outstanding_eq, ?_, ?_, ?_⟩
  · rw [hl, hb, List.flatMap_append, List.flatMap_append, hal, hfr, List.append_nil, List.append_nil]
    exact h.fifo
  · intro pc freed he
    rw [hl] at he
    rcases List.mem_append.mp he with he | he
    · exact h.releases pc freed he
    · exact (hq _ he).elim
  · intro line holds he
    rw [hl] at he
    rcases List.mem_append.mp he with he | he
    · exact h.asserts line holds he
    · exact hq _ he

/-- Freeing a chain whose slots are the oldest outstanding ones releases exactly them. -/
lemma RewriteState.freeChain_spec {s : RewriteState σ} {pc : PageChain} {rest : List ℕ}
    (hhead : s.pageBuf.head < s.pageBuf.capacity) (hout : s.pageBuf.outstanding = pc.slots ++ rest) :
    ∃ b, s.freeChain pc = some { s with
        pageBuf := b
        log := s.log ++ [.release pc pc.slots, .retire (pc.records s.pageBuf)] } ∧
      b.outstanding = rest ∧ b.capacity = s.pageBuf.capacity ∧ b.head < b.capacity ∧
      b.slots = s.pageBuf.slots := by
  obtain ⟨b₁, hf₁, ho₁, hc₁, hh₁, hs₁⟩ := CircularPageBuffer.free_spec hhead hout
  cases hov : pc.overflow with
  | none =>
    refine ⟨b₁, ?_, by simpa [PageChain.slots, hov] using ho₁, hc₁, hh₁, hs₁⟩
    simp [RewriteState.freeChain, hf₁, hov, PageChain.slots]
  | some o =>
    obtain ⟨b₂, hf₂, ho₂, hc₂, hh₂, hs₂⟩ :=
      CircularPageBuffer.free_spec hh₁ (show b₁.outstanding = o :: rest by simpa [hov] using ho₁)
    refine ⟨b₂, ?_, ho₂, hc₂.trans hc₁, hh₂, hs₂.trans hs₁⟩
    simp [RewriteState.freeChain, hf₁, hf₂, hov, PageChain.slots]

/-- The events that release the chains `freed` of the window `b`, and record their records. -/
def releaseEvents (b : CircularPageBuffer) (freed : List PageChain) : List Event :=
  freed.flatMap fun pc => [.release pc pc.slots, .retire (pc.records b)]

lemma releaseEvents_congr {b b' : CircularPageBuffer} (h : b'.slots = b.slots) (freed : List PageChain) :
    releaseEvents b' freed = releaseEvents b freed := by
  simp [releaseEvents, PageChain.records, h]

lemma mem_releaseEvents {b : CircularPageBuffer} {freed : List PageChain} {e : Event} :
    e ∈ releaseEvents b freed ↔ ∃ pc ∈ freed, e = .release pc pc.slots ∨ e = .retire (pc.records b) := by
  simp [releaseEvents]

@[simp] lemma allocated_releaseEvents (b : CircularPageBuffer) (freed : List PageChain) :
    (releaseEvents b freed).flatMap Event.allocated = [] := by
  simp [releaseEvents, List.flatMap_assoc, Event.allocated]

@[simp] lemma freed_releaseEvents (b : CircularPageBuffer) (freed : List PageChain) :
    (releaseEvents b freed).flatMap Event.freed = freed.flatMap PageChain.slots := by
  simp [releaseEvents, List.flatMap_assoc, Event.freed]

/-- **Freeing processed chains.** Chains leave from the front, each releasing its own slots,
which are the oldest outstanding ones; with the builder empty all of them leave. -/
lemma freeProcessed_spec (next : Option ℕ) (T : List PageChain) : ∀ (chains : List PageChain)
    (s : RewriteState σ), s.pageBuf.head < s.pageBuf.capacity →
    s.pageBuf.outstanding = (chains ++ T).flatMap PageChain.slots →
    ∃ freed kept b, chains = freed ++ kept ∧ (next = none → kept = []) ∧
      freeProcessed next chains s = some { s with
        pageBuf := b
        processed := kept
        log := s.log ++ releaseEvents s.pageBuf freed } ∧
      b.capacity = s.pageBuf.capacity ∧ b.head < b.capacity ∧
      b.outstanding = (kept ++ T).flatMap PageChain.slots ∧ b.slots = s.pageBuf.slots
  | [], s, hh, ho => ⟨[], [], s.pageBuf, rfl, fun _ => rfl, by simp [freeProcessed, releaseEvents],
      rfl, hh, ho, rfl⟩
  | pc :: rest, s, hh, ho => by
    by_cases hsafe : pc.safeToFree s.pageBuf next
    · have ho' : s.pageBuf.outstanding = pc.slots ++ (rest ++ T).flatMap PageChain.slots := by
        rw [ho, List.cons_append, List.flatMap_cons]
      obtain ⟨b₁, hf, ho₁, hc₁, hh₁, hs₁⟩ := s.freeChain_spec hh ho'
      obtain ⟨freed, kept, b, hsplit, hnone, hfp, hc, hhb, hob, hsb⟩ :=
        freeProcessed_spec next T rest { s with
          pageBuf := b₁
          log := s.log ++ [.release pc pc.slots, .retire (pc.records s.pageBuf)] } hh₁ ho₁
      refine ⟨pc :: freed, kept, b, by simp [hsplit], hnone, ?_, hc.trans hc₁, hhb, hob, hsb.trans hs₁⟩
      rw [freeProcessed, if_pos hsafe, hf, Option.some_bind, hfp, releaseEvents_congr hs₁]
      simp [releaseEvents]
    · refine ⟨[], pc :: rest, s.pageBuf, rfl, fun h => ?_, ?_, rfl, hh, ho, rfl⟩
      · subst h; simp [PageChain.safeToFree] at hsafe
      · rw [freeProcessed, if_neg hsafe]; simp [releaseEvents]

/-- Writing the emitted segments touches neither the window nor the builder, and logs only
loads. -/
lemma loadSegments_spec : ∀ (segs : List Segment) (s : RewriteState σ),
    (loadSegments B sequenceNumber segs s).pageBuf = s.pageBuf ∧
      (loadSegments B sequenceNumber segs s).processed = s.processed ∧
      (loadSegments B sequenceNumber segs s).toProcess = s.toProcess ∧
      (loadSegments B sequenceNumber segs s).builder = s.builder ∧
      (loadSegments B sequenceNumber segs s).merger = s.merger ∧
      ∃ es, (loadSegments B sequenceNumber segs s).log = s.log ++ es ∧ ∀ e ∈ es, e.quiet
  | [], s => ⟨rfl, rfl, rfl, rfl, rfl, [], by simp [loadSegments], by simp⟩
  | [_], _ => ⟨rfl, rfl, rfl, rfl, rfl, _, rfl, by simp [Event.quiet]⟩
  | seg :: next :: rest, s => by
    obtain ⟨h1, h2, h3, h4, h5, es, hl, hq⟩ := loadSegments_spec (next :: rest)
      (s.loadOne sequenceNumber seg next.baseKey)
    refine ⟨h1, h2, h3, h4, h5, .load seg next.baseKey :: es, by
      rw [loadSegments, hl]; simp [RewriteState.loadOne], ?_⟩
    rintro e (_ | ⟨_, he⟩)
    · trivial
    · exact hq e he

/-- **Writing segments and freeing chains keeps the window invariant.** With the builder empty,
every processed chain leaves the window. -/
lemma loadAndFree_windowInv {s : RewriteState σ} (h : WindowInv s) (segs : List Segment) :
    ∃ s', loadAndFree B sequenceNumber segs s = some s' ∧ WindowInv s' ∧
      s'.toProcess = s.toProcess ∧ s'.builder = s.builder ∧ s'.merger = s.merger ∧
      (B.currentBaseKey s.builder = none → s'.processed = []) := by
  obtain ⟨h1, h2, h3, h4, h5, es, hl, hq⟩ := loadSegments_spec B sequenceNumber segs s
  set s₁ := loadSegments B sequenceNumber segs s
  have h₁ : WindowInv s₁ := h.congr h1 h2 h3 hl hq
  obtain ⟨freed, kept, b, hsplit, hnone, hfp, hc, hhb, hob, -⟩ :=
    freeProcessed_spec (B.currentBaseKey s₁.builder) s₁.toProcess s₁.processed s₁
      (by rw [h₁.capacity_eq]; exact h₁.head_lt) h₁.outstanding_eq
  refine ⟨_, hfp, ⟨hc.trans h₁.capacity_eq, lt_of_lt_of_eq hhb (hc.trans h₁.capacity_eq), hob, ?_, ?_,
    ?_⟩, h3, h4, h5,
    fun hk => hnone (h4 ▸ hk)⟩
  · have hfifo := h₁.fifo
    rw [h₁.outstanding_eq, hsplit, List.append_assoc, List.flatMap_append] at hfifo
    simp only [List.flatMap_append, hfifo, List.append_assoc, hob, allocated_releaseEvents,
      freed_releaseEvents, List.append_nil]
  · intro pc fr he
    rcases List.mem_append.mp he with he | he
    · exact h₁.releases pc fr he
    · obtain ⟨pc', -, hpc | hpc⟩ := mem_releaseEvents.mp he <;> cases hpc
      rfl
  · intro line holds he
    rcases List.mem_append.mp he with he | he
    · exact h₁.asserts line holds he
    · obtain ⟨pc', -, hpc | hpc⟩ := mem_releaseEvents.mp he <;> cases hpc

/-- **A flush empties the window.** With a builder that `Finish` leaves empty and no chain
waiting to be processed, a flush frees every slot, so its second assertion holds for any demand
of at most 64 slots. -/
lemma flush_windowInv (hfin : ∀ b : σ, B.currentBaseKey (B.finish b).1 = none)
    {s : RewriteState σ} (h : WindowInv s) (ht : s.toProcess = []) {line₁ line₂ need : ℕ}
    (hline : line₁ ≠ 303 ∧ line₁ ≠ 316) (hneed : need ≤ 64) :
    ∃ s', flush B sequenceNumber line₁ line₂ need s = some s' ∧ WindowInv s' ∧
      s'.toProcess = [] ∧ s'.pageBuf.count = 0 ∧ s'.merger = s.merger := by
  set s₁ : RewriteState σ := { s with
    builder := (B.finish s.builder).1
    log := s.log ++ [.assertion line₁ !(B.finish s.builder).2.isEmpty] }
  have h₁ : WindowInv s₁ := h.congr rfl rfl rfl rfl fun e he => by
    rw [List.mem_singleton.mp he]; intro h'; omega
  obtain ⟨s₂, hs₂, h₂, ht₂, hb₂, hm₂, hp₂⟩ := loadAndFree_windowInv B sequenceNumber h₁ (B.finish s.builder).2
  have hcount : s₂.pageBuf.count = 0 := by
    rw [← CircularPageBuffer.length_outstanding, h₂.outstanding_eq, hp₂ (hfin _), ht₂, ht]; rfl
  refine ⟨{ s₂ with log := s₂.log ++ [.assertion line₂ (decide (need ≤ s₂.pageBuf.numFreePages))] },
    by simp only [flush, hs₂]; rfl, h₂.congr rfl rfl rfl rfl fun e he => ?_, ht₂.trans ht, hcount, hm₂⟩
  rw [List.mem_singleton.mp he]
  intro _
  simp [CircularPageBuffer.numFreePages, hcount, h₂.capacity_eq, hneed]

/-- `GetNext` succeeds on a merger with records left, and consumes at least one. -/
lemma PagePlusRecordMerger.getNext_some {pm : PagePlusRecordMerger} (h : pm.pmi ≠ [] ∨ pm.it ≠ []) :
    ∃ r pm', pm.getNext = some (r, pm') ∧
      pm'.pmi.length + pm'.it.length < pm.pmi.length + pm.it.length := by
  rcases pm with ⟨_ | ⟨p, ps⟩, _ | ⟨r, rs⟩⟩
  · simp at h
  · exact ⟨_, _, rfl, by simp⟩
  · exact ⟨_, _, rfl, by simp⟩
  · simp only [getNext]
    split_ifs <;> exact ⟨_, _, rfl, by simp only [List.length_cons]; omega⟩

/-- One turn of a drain, unfolded. -/
lemma drainWhile_succ (more : PagePlusRecordMerger → Bool) (fuel : ℕ) (s : RewriteState σ) :
    Pg.drainWhile B sequenceNumber more (fuel + 1) s =
      if more s.merger then s.merger.getNext.bind fun x =>
        (if (B.offer s.builder x.1).2.isEmpty then
          some { s with merger := x.2, builder := (B.offer s.builder x.1).1, log := s.log ++ [.offer x.1] }
        else Pg.loadAndFree B sequenceNumber (B.offer s.builder x.1).2
          { s with merger := x.2, builder := (B.offer s.builder x.1).1, log := s.log ++ [.offer x.1] }).bind
          (Pg.drainWhile B sequenceNumber more fuel)
      else some s := by
  rw [drainWhile]
  split_ifs
  · cases s.merger.getNext <;> simp only [Option.bind_eq_bind, Option.none_bind, Option.some_bind]
    split_ifs <;> rfl
  · rfl

/-- **Draining keeps the window invariant.** With enough fuel the drain stops, with its test
false, after offering records and writing whatever the builder emits. -/
lemma drainWhile_windowInv (more : PagePlusRecordMerger → Bool)
    (hmore : ∀ pm, more pm = true → pm.pmi ≠ [] ∨ pm.it ≠ []) : ∀ (fuel : ℕ) (s : RewriteState σ),
    WindowInv s → s.merger.pmi.length + s.merger.it.length < fuel →
    ∃ s', Pg.drainWhile B sequenceNumber more fuel s = some s' ∧ WindowInv s' ∧
      s'.toProcess = s.toProcess ∧ more s'.merger = false
  | 0, _, _, hf => absurd hf (Nat.not_lt_zero _)
  | fuel + 1, s, h, hf => by
    by_cases hm : more s.merger
    · obtain ⟨r, pm, hget, hlen⟩ := PagePlusRecordMerger.getNext_some (hmore _ hm)
      have h₁ : WindowInv { s with
          merger := pm
          builder := (B.offer s.builder r).1
          log := s.log ++ [.offer r] } := h.congr rfl rfl rfl rfl fun e he => by
        rw [List.mem_singleton.mp he]; trivial
      rw [drainWhile_succ, if_pos hm, hget, Option.some_bind]
      split_ifs
      · obtain ⟨s₃, hs₃, h₃, ht₃, hmore₃⟩ := drainWhile_windowInv more hmore fuel _ h₁ (by simp; omega)
        exact ⟨s₃, hs₃, h₃, ht₃, hmore₃⟩
      · obtain ⟨s₂, hs₂, h₂, ht₂, -, hm₂, -⟩ :=
          loadAndFree_windowInv B sequenceNumber h₁ (B.offer s.builder r).2
        obtain ⟨s₃, hs₃, h₃, ht₃, hmore₃⟩ :=
          drainWhile_windowInv more hmore fuel s₂ h₂ (by rw [hm₂]; simp; omega)
        exact ⟨s₃, by rw [hs₂, Option.some_bind, hs₃], h₃, ht₃.trans ht₂, hmore₃⟩
    · exact ⟨s, by simp [drainWhile_succ, hm], h, rfl, by simpa using hm⟩

/-- Moving the chain at the front of the queue to the processed chains keeps the invariant. -/
lemma WindowInv.advance {s : RewriteState σ} (h : WindowInv s) {pc : PageChain}
    {rest : List PageChain} (ht : s.toProcess = pc :: rest) :
    WindowInv { s with processed := s.processed ++ [pc], toProcess := rest } :=
  ⟨h.capacity_eq, h.head_lt, by rw [h.outstanding_eq, ht]; simp, h.fifo, h.releases, h.asserts⟩

/-- **Processing the queued chains keeps the window invariant** and empties the queue. -/
lemma processChains_windowInv : ∀ (chains : List PageChain) (s : RewriteState σ), WindowInv s →
    s.toProcess = chains → ∃ s', processChains B sequenceNumber chains s = some s' ∧
      WindowInv s' ∧ s'.toProcess = []
  | [], s, h, ht => ⟨s, rfl, h, ht⟩
  | pc :: rest, s, h, ht => by
    set s₁ : RewriteState σ := { s with merger := { s.merger with pmi := pc.records s.pageBuf } }
    obtain ⟨s₂, hs₂, h₂, ht₂, -⟩ := drainWhile_windowInv B sequenceNumber
      PagePlusRecordMerger.hasPageRecords
      (fun pm hm => .inl (by simpa [PagePlusRecordMerger.hasPageRecords] using hm)) s₁.merger.fuel s₁
      (h.congr rfl rfl rfl (List.append_nil _).symm (by simp))
      (by simp [PagePlusRecordMerger.fuel])
    obtain ⟨s₃, hs₃, h₃, ht₃⟩ := processChains_windowInv rest _ (h₂.advance (ht₂.trans ht)) rfl
    exact ⟨s₃, by simp only [processChains, hs₂, Option.bind_eq_bind, Option.some_bind, hs₃], h₃, ht₃⟩

/-- The slots a page takes in the window: one, and one more for its overflow page. -/
def pageSlots (p : Page) : ℕ := if p.overflow.isSome then 2 else 1

lemma sum_pageSlots (pages : List Page) :
    (pages.map pageSlots).sum = pages.length + (pages.filter fun p => p.overflow.isSome).length := by
  induction pages with
  | nil => rfl
  | cons p ps ih =>
    by_cases h : p.overflow.isSome <;> simp [pageSlots, h, List.filter_cons, ih] <;> omega

/-- **Copying a segment into the window.** When the slots fit, every page gets a main slot and
every overflow page a slot after it, appended to the outstanding slots and logged in that order.
-/
lemma allocChains_spec : ∀ (pages : List Page) (s : RewriteState σ),
    s.pageBuf.count + (pages.map pageSlots).sum ≤ s.pageBuf.capacity →
    ∃ s' chains loads, allocChains pages s = some (s', chains, loads) ∧
      s'.pageBuf.outstanding = s.pageBuf.outstanding ++ chains.flatMap PageChain.slots ∧
      s'.pageBuf.capacity = s.pageBuf.capacity ∧ s'.pageBuf.head = s.pageBuf.head ∧
      s'.processed = s.processed ∧ s'.toProcess = s.toProcess ∧
      s'.log = s.log ++ (chains.flatMap PageChain.slots).map Event.allocate
  | [], s, _ => ⟨s, [], [], rfl, by simp, rfl, rfl, rfl, rfl, by simp⟩
  | p :: ps, s, hfit => by
    simp only [List.map_cons, List.sum_cons, pageSlots] at hfit
    obtain ⟨b₁, ha₁, ho₁, hc₁, hh₁, hn₁⟩ := CircularPageBuffer.allocate_spec (b := s.pageBuf)
      (by split_ifs at hfit <;> omega)
    cases hov : p.overflow with
    | none =>
      obtain ⟨s', chains, loads, hs', ho', hc', hh', hp', ht', hl'⟩ := allocChains_spec ps
        { s with pageBuf := b₁.write ((s.pageBuf.head + s.pageBuf.count) % s.pageBuf.capacity) p,
                 log := s.log ++ [.allocate ((s.pageBuf.head + s.pageBuf.count) % s.pageBuf.capacity)] }
        (by simp [hov] at hfit; simp [hn₁, hc₁]; omega)
      refine ⟨s', ⟨(s.pageBuf.head + s.pageBuf.count) % s.pageBuf.capacity, none⟩ :: chains, loads, ?_, by simp [ho', ho₁, PageChain.slots],
        hc'.trans hc₁, hh'.trans hh₁, hp', ht', by simp [hl', PageChain.slots]⟩
      simp [allocChains, hov, ha₁, hs']
    | some o =>
      obtain ⟨b₂, ha₂, ho₂, hc₂, hh₂, hn₂⟩ := CircularPageBuffer.allocate_spec (b := b₁)
        (by simp [hov] at hfit; omega)
      obtain ⟨s', chains, loads, hs', ho', hc', hh', hp', ht', hl'⟩ := allocChains_spec ps
        { s with pageBuf := b₂.write ((s.pageBuf.head + s.pageBuf.count) % s.pageBuf.capacity) p,
                 overflowsToClear := s.overflowsToClear ++ [o],
                 log := s.log ++ [.allocate ((s.pageBuf.head + s.pageBuf.count) % s.pageBuf.capacity),
                   .allocate ((b₁.head + b₁.count) % b₁.capacity)] }
        (by simp [hov] at hfit; simp [hn₂, hc₂, hn₁, hc₁]; omega)
      refine ⟨s', ⟨(s.pageBuf.head + s.pageBuf.count) % s.pageBuf.capacity,
        some ((b₁.head + b₁.count) % b₁.capacity)⟩ :: chains,
        (o, (b₁.head + b₁.count) % b₁.capacity) :: loads, ?_,
        by simp [ho', ho₂, ho₁, PageChain.slots], hc'.trans (hc₂.trans hc₁),
        hh'.trans (hh₂.trans hh₁), hp', ht', by simp [hl', PageChain.slots]⟩
      simp [allocChains, hov, ha₁, ha₂, hs']

/-- Reading overflow pages into their slots changes no slot's status. -/
lemma foldl_write_outstanding (loads : List (SegmentId × ℕ)) (read : SegmentId → Page) :
    ∀ b : CircularPageBuffer,
      (loads.foldl (fun b l => b.write l.2 (read l.1)) b).outstanding = b.outstanding ∧
      (loads.foldl (fun b l => b.write l.2 (read l.1)) b).capacity = b.capacity ∧
      (loads.foldl (fun b l => b.write l.2 (read l.1)) b).head = b.head := by
  induction loads with
  | nil => simp
  | cons l loads ih => intro b; simpa using ih (b.write l.2 (read l.1))

/-- Queueing chains whose slots were just allocated keeps the invariant. -/
lemma WindowInv.enqueue {s s' : RewriteState σ} (h : WindowInv s) {chains : List PageChain}
    (hc : s'.pageBuf.capacity = s.pageBuf.capacity) (hh : s'.pageBuf.head = s.pageBuf.head)
    (ho : s'.pageBuf.outstanding = s.pageBuf.outstanding ++ chains.flatMap PageChain.slots)
    (hp : s'.processed = s.processed) (ht : s'.toProcess = s.toProcess ++ chains)
    (hl : s'.log = s.log ++ (chains.flatMap PageChain.slots).map Event.allocate) : WindowInv s' := by
  refine ⟨hc ▸ h.capacity_eq, by rw [hh]; exact h.head_lt, ?_, ?_, ?_, ?_⟩
  · rw [ho, h.outstanding_eq, hp, ht]; simp
  · rw [hl, ho, List.flatMap_append, List.flatMap_append, h.fifo]
    simp [Event.allocated, Event.freed, List.flatMap_map]
  · intro pc freed he
    rcases List.mem_append.mp (hl ▸ he) with he | he
    · exact h.releases pc freed he
    · simp at he
  · intro line holds he
    rcases List.mem_append.mp (hl ▸ he) with he | he
    · exact h.asserts line holds he
    · simp at he

@[simp] lemma Manager.length_bufferPages (m : Manager) (n : ℕ) : (m.bufferPages n).length = n := by
  simp [Manager.bufferPages]

lemma sum_pageSlots_le (pages : List Page) : (pages.map pageSlots).sum ≤ 2 * pages.length := by
  have := List.length_filter_le (fun p : Page => p.overflow.isSome) pages
  rw [sum_pageSlots]; omega

/-- **Making room keeps the window invariant**: either nothing happens, with `need` slots already
free, or a flush empties the window. -/
lemma makeRoom_windowInv (hfin : ∀ b : σ, B.currentBaseKey (B.finish b).1 = none)
    {s : RewriteState σ} (h : WindowInv s) (ht : s.toProcess = []) (line₁ line₂ need : ℕ)
    (hline : line₁ ≠ 303 ∧ line₁ ≠ 316) (hneed : need ≤ 64) :
    ∃ s', makeRoom B sequenceNumber line₁ line₂ need s = some s' ∧ WindowInv s' ∧
      s'.toProcess = [] ∧ (s'.pageBuf.count = 0 ∨ s' = s ∧ need ≤ s.pageBuf.numFreePages) := by
  unfold makeRoom
  split_ifs with hlt
  · obtain ⟨s', hs, h', ht', hc, -⟩ := flush_windowInv B sequenceNumber hfin h ht hline hneed
    exact ⟨s', hs, h', ht', .inl hc⟩
  · exact ⟨s, rfl, h, ht, .inr ⟨rfl, by omega⟩⟩

/-- **One segment keeps the window invariant.** A segment of at most 16 pages, each with at most
one overflow page, fits in the window after the two flushes of the loop, and both of their
assertions hold. -/
lemma rewriteOne_windowInv (hfin : ∀ b : σ, B.currentBaseKey (B.finish b).1 = none)
    {s : RewriteState σ} (h : WindowInv s) (ht : s.toProcess = []) {info : SegmentInfo}
    (hpc : info.id.fileId ≤ 4) :
    ∃ s', rewriteOne B sequenceNumber s info = some s' ∧ WindowInv s' ∧ s'.toProcess = [] := by
  have hpages : info.pageCount ≤ 16 := Nat.pow_le_pow_right (by decide) hpc
  have hpos : 0 < info.pageCount := Nat.two_pow_pos _
  -- Lines 295-305: room for the segment's pages.
  obtain ⟨s₁, hs₁, h₁, ht₁, -⟩ := makeRoom_windowInv B sequenceNumber hfin h ht
    301 303 info.pageCount (by decide) (by omega)
  -- Lines 306-318: room for its overflow pages too, after which every chain fits.
  set s₂ : RewriteState σ := { s₁ with mgr := s₁.mgr.readSegment info.id info.pageCount }
  set ov := ((s₂.mgr.bufferPages info.pageCount).filter fun p => p.overflow.isSome).length
  have hov : ov ≤ info.pageCount := by
    simpa using List.length_filter_le (fun p : Page => p.overflow.isSome) (s₂.mgr.bufferPages info.pageCount)
  obtain ⟨s₃, hs₃, h₃, ht₃, hroom⟩ := makeRoom_windowInv B sequenceNumber hfin
    (h₁.congr rfl rfl rfl (List.append_nil _).symm (by simp) : WindowInv s₂) ht₁
    314 316 (info.pageCount + ov) (by decide) (by omega)
  have hfit : s₃.pageBuf.count + ((s₃.mgr.bufferPages info.pageCount).map pageSlots).sum ≤
      s₃.pageBuf.capacity := by
    rcases hroom with hc | ⟨rfl, hfree⟩
    · have := sum_pageSlots_le (s₃.mgr.bufferPages info.pageCount)
      rw [hc, h₃.capacity_eq]; simp only [Manager.length_bufferPages] at this; omega
    · have hfit₂ : s₂.pageBuf.count + (info.pageCount + ov) ≤ s₂.pageBuf.capacity := by
        unfold CircularPageBuffer.numFreePages at hfree; omega
      rw [sum_pageSlots, Manager.length_bufferPages]; exact hfit₂
  -- Lines 319-346: copy the pages into the window and queue their chains.
  obtain ⟨s₄, chains, loads, hs₄, ho₄, hc₄, hh₄, hp₄, ht₄, hl₄⟩ :=
    allocChains_spec (s₃.mgr.bufferPages info.pageCount) s₃ hfit
  obtain ⟨ho₅, hc₅, hh₅⟩ := foldl_write_outstanding loads (fun id => s₄.mgr.readPage id 0) s₄.pageBuf
  obtain ⟨s', hs', h', ht'⟩ := processChains_windowInv B sequenceNumber (s₄.toProcess ++ chains)
    { s₄ with
      pageBuf := loads.foldl (fun b l => b.write l.2 (s₄.mgr.readPage l.1 0)) s₄.pageBuf
      toProcess := s₄.toProcess ++ chains }
    (h₃.enqueue (hc₅.trans hc₄) (hh₅.trans hh₄) (ho₅.trans ho₄) hp₄ (by rw [ht₄]) hl₄) rfl
  exact ⟨s', by simp only [rewriteOne, hs₁, Option.bind_eq_bind, Option.some_bind, hs₃, hs₄, hs'], h', ht'⟩

/-- **The loop over the segments keeps the window invariant.** -/
lemma foldlM_rewriteOne_windowInv (hfin : ∀ b : σ, B.currentBaseKey (B.finish b).1 = none) :
    ∀ (segs : List (ℕ × SegmentInfo)) (s : RewriteState σ), (∀ e ∈ segs, e.2.id.fileId ≤ 4) →
      WindowInv s → s.toProcess = [] →
      ∃ s', segs.foldlM (fun s e => rewriteOne B sequenceNumber s e.2) s = some s' ∧
        WindowInv s' ∧ s'.toProcess = []
  | [], s, _, h, ht => ⟨s, rfl, h, ht⟩
  | e :: es, s, hpc, h, ht => by
    obtain ⟨s₁, hs₁, h₁, ht₁⟩ := rewriteOne_windowInv B sequenceNumber hfin h ht (hpc e (.head _))
    obtain ⟨s₂, hs₂, h₂, ht₂⟩ :=
      foldlM_rewriteOne_windowInv hfin es s₁ (fun e he => hpc e (.tail _ he)) h₁ ht₁
    exact ⟨s₂, by simp only [List.foldlM_cons, hs₁, Option.bind_eq_bind, Option.some_bind, hs₂], h₂, ht₂⟩

/-- The tail of a rewrite (lines 363-377) keeps the window invariant: the final drain, and the
final `Finish` and its write-out. -/
lemma finishBuilder_windowInv {s : RewriteState σ} (h : WindowInv s) :
    ∃ s', (if (B.finish s.builder).2.isEmpty then some { s with builder := (B.finish s.builder).1 }
      else loadAndFree B sequenceNumber (B.finish s.builder).2
        { s with builder := (B.finish s.builder).1 }) = some s' ∧ WindowInv s' := by
  split_ifs
  · exact ⟨_, rfl, h.congr rfl rfl rfl (List.append_nil _).symm (by simp)⟩
  · obtain ⟨s', hs', h', -⟩ := loadAndFree_windowInv B sequenceNumber
      (h.congr rfl rfl rfl (List.append_nil _).symm (by simp) :
        WindowInv { s with builder := (B.finish s.builder).1 }) (B.finish s.builder).2
    exact ⟨s', hs', h'⟩

end Steps

/-- The window's invariant, read off the log: all frees, in order, are a prefix of all
allocations (a slot is freed only after every slot allocated before it); each release frees its
chain's main slot and then its overflow slot; the assertions at lines 303 and 316 held. -/
def WindowLog (log : List Event) : Prop :=
  log.flatMap Event.freed <+: log.flatMap Event.allocated ∧
    (∀ pc freed, Event.release pc freed ∈ log → freed = pc.slots) ∧
    ∀ ok, Event.assertion 303 ok ∈ log ∨ Event.assertion 316 ok ∈ log → ok = true

lemma WindowInv.windowLog {σ : Type} {s : RewriteState σ} (h : WindowInv s) : WindowLog s.log :=
  ⟨h.fifo ▸ List.prefix_append _ _, h.releases, fun ok hok => hok.elim
    (fun h' => h.asserts 303 ok h' (.inl rfl)) (fun h' => h.asserts 316 ok h' (.inr rfl))⟩

/-- Quiet events leave the log's window facts as they are. -/
lemma WindowLog.append_quiet {log : List Event} (h : WindowLog log) (es : List Event)
    (hq : ∀ e ∈ es, e.quiet) :
    WindowLog (log ++ es) := by
  have hal : es.flatMap Event.allocated = [] := List.flatMap_eq_nil_iff.mpr fun e he => (hq e he).allocated
  have hfr : es.flatMap Event.freed = [] := List.flatMap_eq_nil_iff.mpr fun e he => (hq e he).freed
  refine ⟨by simpa only [List.flatMap_append, hfr, hal, List.append_nil] using h.1, ?_, ?_⟩
  · intro pc freed he
    rcases List.mem_append.mp he with he | he
    · exact h.2.1 pc freed he
    · exact (hq _ he).elim
  · intro ok hok
    rcases hok with he | he <;> rcases List.mem_append.mp he with he | he
    · exact h.2.2 ok (.inl he)
    · exact hq _ he (.inl rfl)
    · exact h.2.2 ok (.inr he)
    · exact hq _ he (.inr rfl)

/-- A whole rewrite keeps the window invariant, and so returns: the run behind
`rewriteSegments_window_safe`, which the other results about a rewrite start from. -/
lemma rewriteSegments_windowLog {σ : Type} (B : SegmentBuilder σ) (opts : Options)
    (m : Manager) (segmentBase : ℕ) (batch : List Record) (toRewrite : List (ℕ × SegmentInfo))
    (hsel : selectSegments m.index segmentBase opts.considerNeighborsDuringRewrite = some toRewrite)
    (hpc : ∀ e ∈ toRewrite, e.2.id.fileId ≤ 4)
    (hfin : ∀ b : σ, B.currentBaseKey (B.finish b).1 = none) :
    ∃ m' log, rewriteSegments B opts m segmentBase batch = some (m', log) ∧ WindowLog log := by
  set s₀ : RewriteState σ := ⟨{ m with nextSequenceNumber := m.nextSequenceNumber + 1 },
    B.init opts.recordsPerPageGoal opts.recordsPerPageDelta, CircularPageBuffer.create (16 * 4),
    [], [], ⟨[], batch⟩, [], [], []⟩
  have h₀ : WindowInv s₀ :=
    { capacity_eq := rfl
      head_lt := Nat.succ_pos 63
      outstanding_eq := rfl
      fifo := rfl
      releases := fun _ _ h => nomatch h
      asserts := fun _ _ h => nomatch h }
  obtain ⟨s₁, hs₁, h₁, -⟩ := foldlM_rewriteOne_windowInv B m.nextSequenceNumber hfin toRewrite s₀ hpc h₀ rfl
  obtain ⟨s₂, hs₂, h₂, -⟩ := drainWhile_windowInv B m.nextSequenceNumber PagePlusRecordMerger.hasRecords
    (fun pm hm => by
      simp only [PagePlusRecordMerger.hasRecords, PagePlusRecordMerger.hasPageRecords, Bool.or_eq_true,
        Bool.not_eq_true', List.isEmpty_eq_false] at hm
      exact hm)
    s₁.merger.fuel { s₁ with log := s₁.log ++ [.assertion 364 !s₁.merger.hasPageRecords] }
    (h₁.congr rfl rfl rfl rfl fun e he => by rw [List.mem_singleton.mp he]; intro h; omega)
    (by simp [PagePlusRecordMerger.fuel])
  obtain ⟨s₃, hs₃, h₃⟩ := finishBuilder_windowInv B m.nextSequenceNumber h₂
  refine ⟨(finishRewrite s₃.mgr toRewrite s₃.overflowsToClear s₃.rewritten).1, _, ?_,
    h₃.windowLog.append_quiet
    (finishRewrite s₃.mgr toRewrite s₃.overflowsToClear s₃.rewritten).2 ?_⟩
  · simp only [rewriteSegments, hsel, Option.bind_eq_bind, Option.some_bind, hs₁, hs₂]
    split_ifs at hs₃ ⊢
    · cases hs₃; rfl
    · rw [hs₃]; rfl
  · intro e he
    obtain ⟨x, -, rfl⟩ := List.mem_map.mp he
    intro h; omega

/-- **The rewrite window is a safe FIFO ring.** For segments of 1 to 16 pages and any builder
whose `Finish` leaves it empty, `RewriteSegments` never finds the 64-slot window full (`Allocate`
would trap, and the model would return `none`), frees slots exactly in allocation order, chain
by chain, and the assertions at lines 303 and 316 hold. -/
theorem rewriteSegments_window_safe {σ : Type} (B : SegmentBuilder σ) (opts : Options)
    (m : Manager) (segmentBase : ℕ) (batch : List Record) (toRewrite : List (ℕ × SegmentInfo))
    (hsel : selectSegments m.index segmentBase opts.considerNeighborsDuringRewrite = some toRewrite)
    (hpc : ∀ e ∈ toRewrite, e.2.id.fileId ≤ 4)
    (hfin : ∀ b : σ, B.currentBaseKey (B.finish b).1 = none) :
    ∃ m' log, rewriteSegments B opts m segmentBase batch = some (m', log) ∧ WindowLog log :=
  rewriteSegments_windowLog B opts m segmentBase batch toRewrite hsel hpc hfin

/-! ## The flush before the overflow pages reuses the workspace buffer -/

/-- A `SegmentBuilder` that holds every offered record and emits them all, as one one-page
segment based at the first of them, only when finished. It emits every offered record exactly
once and in offer order, and `Finish` leaves it empty. -/
def holdAllBuilder : SegmentBuilder (List Record) where
  init _ _ := []
  offer held r := (held ++ [r], [])
  finish held := ([], if held = [] then [] else [⟨1, (held.head?.map Prod.fst).getD 0, held, none⟩])
  currentBaseKey held := held.head?.map Prod.fst

/-- A page with a valid checksum, sequence number `0` and no model. -/
def scenarioPage (lower : ℕ) (recs : List Record) (overflow : Option SegmentId) : Page :=
  ⟨lower, 0, recs, overflow, none, 0, true⟩

/-- Three segments with overflow pages, each holding one record on its page `0`: `A` of 16 pages,
each with an overflow page; `B` of 16 pages, 15 of them with one; `C` of one page with one.
Rewriting them together, `A` and `B` take 63 of the 64 slots while the builder still holds their
records, so `C` passes the check of line 296 and needs the flush of lines 310-317. -/
def overflowFlushScenario : Manager where
  index := [(0, ⟨⟨4, 0⟩, none, true⟩), (100, ⟨⟨4, 16⟩, none, true⟩), (200, ⟨⟨0, 0⟩, none, true⟩)]
  disk id i :=
    if id = ⟨4, 0⟩ then
      if i < 16 then scenarioPage 0 (if i = 0 then [(0, [0])] else []) (some ⟨0, 1 + i⟩) else Page.zero
    else if id = ⟨4, 16⟩ then
      if i < 16 then scenarioPage 100 (if i = 0 then [(100, [1])] else [])
        (if i < 15 then some ⟨0, 17 + i⟩ else none) else Page.zero
    else if id = ⟨0, 0⟩ ∧ i = 0 then scenarioPage 200 [(200, [2])] (some ⟨0, 32⟩)
    else if id.fileId = 0 ∧ i = 0 ∧ id.offset ≠ 0 ∧ id.offset ≤ 32 then scenarioPage 0 [] none
    else Page.zero
  fileEnd f := if f = 0 then 33 else if f = 4 then 32 else 0
  free := []
  nextSequenceNumber := 9
  buffer _ := Page.zero

theorem rewriteSegments_window_safe_scenario :
    selectSegments overflowFlushScenario.index 0 true = some overflowFlushScenario.index ∧
      (∀ e ∈ overflowFlushScenario.index, e.2.id.fileId ≤ 4) ∧
      (∀ held, holdAllBuilder.currentBaseKey (holdAllBuilder.finish held).1 = none) ∧
      ∃ m' log, rewriteSegments holdAllBuilder ⟨2, 1, true⟩ overflowFlushScenario 0 [] =
        some (m', log) ∧ WindowLog log :=
  ⟨by decide, by decide, fun _ => rfl,
    rewriteSegments_window_safe holdAllBuilder ⟨2, 1, true⟩ overflowFlushScenario 0 []
      overflowFlushScenario.index (by decide) (by decide) (fun _ => rfl)⟩

set_option maxRecDepth 10000 in
/-- **The flush of lines 310-317 overwrites the segment it makes room for.** It writes the
builder's segment through the workspace buffer that line 306 has just read `C` into, so lines
321-338 copy the page just written instead of `C`'s. `C`'s record is never offered, and the final
`Finish` writes the other two again, to a segment the index never references (`insert` keeps the
first). With an empty batch the store should keep its three records. -/
theorem rewriteSegments_overflow_flush_loses_records :
    overflowFlushScenario.storedRecords = [(0, [0]), (100, [1]), (200, [2])] ∧
      (rewriteSegments holdAllBuilder ⟨2, 1, true⟩ overflowFlushScenario 0 []).map
        (fun r => r.1.storedRecords) = some [(0, [0]), (100, [1])] := by
  decide

end Treeline.Pg
