import Treeline.PageGrouping.PageOrder

/-!
# A rewrite frees only chains whose offered records are written

`RewriteSegments` (`src/page_grouping/manager_rewrite.cc`, lines 135-431) calls
`load_into_segments_and_free_pages` (lines 259-292) after every offer on which the builder emits
segments, in each flush of its window (lines 296-305 and 309-318), and after its last `Finish()`.
Each call frees processed chains from the front of the window while the guard on
`PageChain::LargestKey()` lets them go. `FreeSafety` proves the guard safe for one call, from a
state whose records flow through the builder in order and whose window pages are key-ordered,
and `FreeSafety` and `PageOrder` prove that each loop of a rewrite keeps those two facts. This
module composes them over whole runs: every chain a rewrite frees, at any of its calls, holds only
records that lie below every record the builder then holds, and that were written before the
free if they were offered.

The model logs the records of each freed chain in a `retire` event, so the result is a property
of the rewrite's log: each `retire` is safe against the events before it.

## Main definitions

* `Treeline.Pg.RetireSafe` — a free is safe against the events before it.
* `Treeline.Pg.FreesWritten` — every free of a log is safe.
* `Treeline.Pg.RewriteState.FreesSafely` — the flow, the page order, and every free so far safe.

## Main results

* `Treeline.Pg.FreesWritten.snoc` — an event appended to a log keeps its frees safe.
* `Treeline.Pg.loadAndFree_freesSafely` — one call of `load_into_segments_and_free_pages`.
* `Treeline.Pg.rewriteSegments_frees_written` — every free of a whole rewrite is safe.
-/

namespace Treeline.Pg

/-! ## Safe frees in a log -/

/-- The records an event retires from the window. -/
def Event.retired : Event → List (List Record)
  | .retire rs => [rs]
  | _ => []

/-- What the guard of `load_into_segments_and_free_pages` establishes when a chain holding `rs`
leaves the window after the events `pre`: the records offered are those written, then `rest`,
those the builder holds; every record of the chain lies below each of them, so it is written if
it was offered. -/
def RetireSafe (pre : List Event) (rs : List Record) : Prop :=
  ∃ rest, pre.flatMap Event.offered = pre.flatMap Event.written ++ rest ∧
    ∀ r ∈ rs, (r ∈ pre.flatMap Event.offered → r ∈ pre.flatMap Event.written) ∧
      ∀ r' ∈ rest, r.1 < r'.1

/-- Every chain the log retires is retired safely against the events before it. -/
def FreesWritten (log : List Event) : Prop :=
  ∀ pre rs post, log = pre ++ .retire rs :: post → RetireSafe pre rs

lemma RetireSafe.of_lt {pre : List Event} {rest rs : List Record}
    (hfl : pre.flatMap Event.offered = pre.flatMap Event.written ++ rest)
    (hlt : ∀ r ∈ rs, ∀ r' ∈ rest, r.1 < r'.1) : RetireSafe pre rs :=
  ⟨rest, hfl, fun r hr => ⟨fun ho => mem_written_of_lt_held hfl ho (hlt r hr), hlt r hr⟩⟩

lemma FreesWritten.nil : FreesWritten [] := fun _ _ _ h => by simp at h

/-- Appending an event keeps every earlier free safe; a `retire` has to be safe itself. -/
lemma FreesWritten.snoc {log : List Event} (h : FreesWritten log) {e : Event}
    (he : ∀ rs, e = .retire rs → RetireSafe log rs) : FreesWritten (log ++ [e]) := by
  intro pre rs post hlog
  rcases List.eq_nil_or_concat post with rfl | ⟨L, b, rfl⟩
  · obtain ⟨rfl, he'⟩ := List.append_inj' hlog rfl
    exact he rs (List.singleton_inj.mp he')
  · rw [List.concat_eq_append, ← List.cons_append, ← List.append_assoc] at hlog
    exact h pre rs L (List.append_inj' hlog rfl).1

/-- Events that retire nothing keep every free safe. -/
lemma FreesWritten.append {log : List Event} (h : FreesWritten log) {es : List Event}
    (hes : es.flatMap Event.retired = []) : FreesWritten (log ++ es) := by
  induction es generalizing log with
  | nil => simpa
  | cons e es ih =>
    rw [List.flatMap_cons, List.append_eq_nil] at hes
    rw [← List.singleton_append, ← List.append_assoc]
    exact ih (h.snoc fun rs he => by simp [he, Event.retired] at hes) hes.2

/-- `FreeChain`'s two events: the release of the chain's slots, then the retire of its records,
safe against the log before the release. -/
lemma FreesWritten.free {log : List Event} (h : FreesWritten log) {rs : List Record}
    (hs : RetireSafe log rs) (pc : PageChain) (freed : List ℕ) :
    FreesWritten (log ++ [.release pc freed, .retire rs]) := by
  have h₁ := h.snoc (e := .release pc freed) fun _ h => by cases h
  have h₂ := h₁.snoc (e := .retire rs) fun _ h => by
    cases h
    simpa [RetireSafe, Event.offered, Event.written] using hs
  simpa using h₂

/-! ## Along a rewrite -/

section Rewrite

variable {σ : Type} {B : SegmentBuilder σ} {held : σ → List Record} (sequenceNumber : ℕ)

/-- A state of a rewrite from which each free is safe: the records flow through the builder,
every page is key-ordered, and every free so far was safe. -/
structure RewriteState.FreesSafely (held : σ → List Record) (s : RewriteState σ) : Prop where
  flows : Flows held s
  ordered : s.PagesOrdered
  frees : FreesWritten s.log

/-- A step that keeps the builder and the log, with key-ordered pages, keeps the invariant. -/
lemma RewriteState.FreesSafely.of_frame {s s' : RewriteState σ} (h : s.FreesSafely held)
    (ho : s'.PagesOrdered) (hb : s'.builder = s.builder) (hl : s'.log = s.log) :
    s'.FreesSafely held :=
  ⟨h.flows.congr hb (by rw [hl]) (by rw [hl]), ho, hl ▸ h.frees⟩

/-- An assertion keeps the invariant. -/
lemma RewriteState.FreesSafely.assert {s : RewriteState σ} (h : s.FreesSafely held) (line : ℕ)
    (holds : Bool) : ({ s with log := s.log ++ [.assertion line holds] } : RewriteState σ).FreesSafely held :=
  ⟨h.flows.append rfl rfl, ⟨h.ordered.mgr, h.ordered.slots⟩, h.frees.snoc fun _ h => by cases h⟩

/-- `freeProcessed` retires safely each chain it frees, when every chain that passes the guard
holds only records below those of `rest`, the records offered and not yet written. -/
lemma freeProcessed_freesWritten (next : Option ℕ) (rest : List Record) :
    ∀ (chains : List PageChain) (s s' : RewriteState σ), FreesWritten s.log →
    s.log.flatMap Event.offered = s.log.flatMap Event.written ++ rest →
    (∀ pc ∈ chains, pc.safeToFree s.pageBuf next = true →
      ∀ r ∈ pc.records s.pageBuf, ∀ r' ∈ rest, r.1 < r'.1) →
    freeProcessed next chains s = some s' → FreesWritten s'.log
  | [], s, s', hr, _, _, h => by obtain rfl := Option.some.inj h; exact hr
  | pc :: chains, s, s', hr, hfl, hlt, h => by
    rw [freeProcessed] at h
    split_ifs at h with hsafe
    · obtain ⟨s₁, h₁, h₂⟩ := Option.bind_eq_some.mp h
      obtain ⟨fr, hl⟩ := RewriteState.freeChain_log h₁
      have hslots := (RewriteState.freeChain_frame h₁).slots
      refine freeProcessed_freesWritten next rest chains s₁ s' ?_ ?_ ?_ h₂
      · rw [hl]
        exact hr.free (.of_lt hfl (hlt pc (.head _) hsafe)) pc fr
      · simpa [hl, Event.offered, Event.written] using hfl
      · intro pc' hpc' hg
        rw [PageChain.safeToFree_congr hslots] at hg
        rw [PageChain.records_congr hslots]
        exact hlt pc' (.tail _ hpc') hg
    · obtain rfl := Option.some.inj h
      exact hr

/-- **One call of `load_into_segments_and_free_pages` frees safely.** From a state where the
records offered are those written, then the emitted segments', then those the builder holds, with
key-ordered pages and every free so far safe, the call writes the segments and each chain it
frees is retired safely. -/
lemma loadAndFree_freesSafely (hK : B.BaseKeyContract held) {segs : List Segment}
    {s s' : RewriteState σ}
    (hpre : s.log.flatMap Event.offered =
      s.log.flatMap Event.written ++ segs.flatMap Segment.records ++ held s.builder)
    (ho : s.PagesOrdered) (hr : FreesWritten s.log)
    (h : loadAndFree B sequenceNumber segs s = some s') : s'.FreesSafely held := by
  have hlog := loadSegments_log B sequenceNumber segs s
  have hfl₁ : Flows held (loadSegments B sequenceNumber segs s) := by
    rw [Flows, hlog.1, hlog.2, (loadSegments_spec B sequenceNumber segs s).2.2.2.1, hpre,
      List.append_assoc]
  have hr₁ : FreesWritten (loadSegments B sequenceNumber segs s).log := by
    obtain ⟨u, -, -, heq⟩ := loadSegments_eq B sequenceNumber segs s
    rw [heq]
    exact hr.append (by simp [List.flatMap_map, Event.retired])
  have ho₁ := loadSegments_pagesOrdered B sequenceNumber segs ho
  exact ⟨loadAndFree_flows B sequenceNumber hpre h, loadAndFree_pagesOrdered B sequenceNumber ho h,
    freeProcessed_freesWritten _ _ _ _ s' hr₁ hfl₁
      (fun pc hpc hg => PageChain.lt_held_of_safeToFree hK (ho₁.processed pc hpc) hg) h⟩

lemma loadIfEmitted_freesSafely (hK : B.BaseKeyContract held) {segs : List Segment}
    {s s' : RewriteState σ}
    (hpre : s.log.flatMap Event.offered =
      s.log.flatMap Event.written ++ segs.flatMap Segment.records ++ held s.builder)
    (ho : s.PagesOrdered) (hr : FreesWritten s.log)
    (h : (if segs.isEmpty then some s else loadAndFree B sequenceNumber segs s) = some s') :
    s'.FreesSafely held := by
  split_ifs at h with hemp
  · obtain rfl := Option.some.inj h
    rw [List.isEmpty_iff.mp hemp, List.flatMap_nil, List.append_nil] at hpre
    exact ⟨hpre, ho, hr⟩
  · exact loadAndFree_freesSafely sequenceNumber hK hpre ho hr h

lemma drainWhile_freesSafely (hF : B.Flow held) (hK : B.BaseKeyContract held)
    (more : PagePlusRecordMerger → Bool) : ∀ (fuel : ℕ) (s s' : RewriteState σ),
    s.FreesSafely held → drainWhile B sequenceNumber more fuel s = some s' → s'.FreesSafely held
  | 0, _, _, _, h => by cases h
  | fuel + 1, s, s', hs, h => by
    rw [drainWhile_succ] at h
    split_ifs at h
    · obtain ⟨⟨r, pm⟩, -, h⟩ := Option.bind_eq_some.mp h
      obtain ⟨s₂, hs₂, h⟩ := Option.bind_eq_some.mp h
      exact drainWhile_freesSafely hF hK more fuel s₂ s' (loadIfEmitted_freesSafely sequenceNumber hK
        (by exact hs.flows.offer hF r) (by exact ⟨hs.ordered.mgr, hs.ordered.slots⟩)
        (hs.frees.snoc fun _ h => by cases h) hs₂) h
    · obtain rfl := Option.some.inj h
      exact hs

lemma processChains_freesSafely (hF : B.Flow held) (hK : B.BaseKeyContract held) :
    ∀ (chains : List PageChain) (s s' : RewriteState σ), s.FreesSafely held →
    processChains B sequenceNumber chains s = some s' → s'.FreesSafely held
  | [], s, s', hs, h => by obtain rfl := Option.some.inj h; exact hs
  | pc :: rest, s, s', hs, h => by
    simp only [processChains, Option.bind_eq_bind] at h
    obtain ⟨s₂, hs₂, h⟩ := Option.bind_eq_some.mp h
    have h₂ := drainWhile_freesSafely sequenceNumber hF hK _ _ _ _
      (by exact hs.of_frame ⟨hs.ordered.mgr, hs.ordered.slots⟩ rfl rfl) hs₂
    exact processChains_freesSafely hF hK rest _ s'
      (by exact h₂.of_frame ⟨h₂.ordered.mgr, h₂.ordered.slots⟩ rfl rfl) h

/-- A flush writes what `Finish()` emits, from the flow `Flows.finish` gives, and frees safely. -/
lemma makeRoom_freesSafely (hF : B.Flow held) (hK : B.BaseKeyContract held)
    {line₁ line₂ need : ℕ} {s s' : RewriteState σ} (hs : s.FreesSafely held)
    (h : makeRoom B sequenceNumber line₁ line₂ need s = some s') : s'.FreesSafely held := by
  unfold makeRoom at h
  split_ifs at h
  · have hpre := hs.flows.finish hF
    rcases hfin : B.finish s.builder with ⟨b, segs⟩
    rw [hfin] at hpre
    simp only [flush, hfin, Option.bind_eq_bind] at h
    obtain ⟨s₁, h₁, h⟩ := Option.bind_eq_some.mp h
    obtain rfl := Option.some.inj h
    exact (loadAndFree_freesSafely sequenceNumber hK
      (by simpa [Event.offered, Event.written] using hpre) (by exact ⟨hs.ordered.mgr, hs.ordered.slots⟩)
      (by exact hs.frees.snoc fun _ h => by cases h) h₁).assert _ _
  · obtain rfl := Option.some.inj h
    exact hs

/-- **One segment of a rewrite frees safely**: its two flushes, the read into the workspace
buffer, the copy into the window, and the drain of its chains. -/
lemma rewriteOne_freesSafely (hF : B.Flow held) (hK : B.BaseKeyContract held)
    {s s' : RewriteState σ} {info : SegmentInfo} (hs : s.FreesSafely held)
    (h : rewriteOne B sequenceNumber s info = some s') : s'.FreesSafely held := by
  simp only [rewriteOne, Option.bind_eq_bind, Option.bind_eq_some] at h
  obtain ⟨s₁, h₁, s₂, h₂, ⟨s₃, chains, loads⟩, h₃, h⟩ := h
  have hs₁ := makeRoom_freesSafely sequenceNumber hF hK hs h₁
  have hread : ({ s₁ with mgr := s₁.mgr.readSegment info.id info.pageCount } : RewriteState σ).FreesSafely
      held :=
    hs₁.of_frame ⟨hs₁.ordered.mgr.readSegment info.id info.pageCount, hs₁.ordered.slots⟩ rfl rfl
  have hs₂ := makeRoom_freesSafely sequenceNumber hF hK hread h₂
  obtain ⟨-, es, hl, hes⟩ := allocChains_log _ _ (s₃, chains, loads) h₃
  have hs₃ : s₃.FreesSafely held :=
    ⟨allocChains_flows hs₂.flows h₃,
      allocChains_pagesOrdered _ _ (s₃, chains, loads) (fun p hp => by
        obtain ⟨i, -, rfl⟩ := List.mem_map.mp hp
        exact hs₂.ordered.mgr.buffer i) hs₂.ordered h₃,
      hl ▸ hs₂.frees.append (List.flatMap_eq_nil_iff.mpr fun e he => by
        obtain ⟨a, rfl⟩ := hes e he
        rfl)⟩
  refine processChains_freesSafely sequenceNumber hF hK _ _ s' ?_ h
  exact hs₃.of_frame ⟨hs₃.ordered.mgr, foldl_write_pagesOrdered hs₃.ordered.mgr loads hs₃.ordered.slots⟩
    rfl rfl

lemma foldlM_rewriteOne_freesSafely (hF : B.Flow held) (hK : B.BaseKeyContract held) :
    ∀ (segs : List (ℕ × SegmentInfo)) (s s' : RewriteState σ), s.FreesSafely held →
    segs.foldlM (fun s e => rewriteOne B sequenceNumber s e.2) s = some s' → s'.FreesSafely held
  | [], s, s', hs, h => by obtain rfl := Option.some.inj h; exact hs
  | e :: es, s, s', hs, h => by
    simp only [List.foldlM_cons, Option.bind_eq_bind] at h
    obtain ⟨s₁, h₁, h⟩ := Option.bind_eq_some.mp h
    exact foldlM_rewriteOne_freesSafely hF hK es s₁ s'
      (rewriteOne_freesSafely sequenceNumber hF hK hs h₁) h

/-- **A rewrite frees only chains whose offered records are written.** For every builder through
which records pass in order and whose `CurrentBaseKey()` bounds what it holds from below, and every
store whose pages are key-ordered (every store reachable from a bulk load is), take any chain a
run of `RewriteSegments` frees, at any call of `load_into_segments_and_free_pages`: after the
events `pre` before the free, the records offered are those written, then those the builder
holds; each record of the chain that was offered is written, and it lies below every record the
builder holds. -/
theorem rewriteSegments_frees_written (hF : B.Flow held) (hK : B.BaseKeyContract held)
    {opts : Options} {m m' : Manager} {segmentBase : ℕ} {batch : List Record} {log : List Event}
    (hm : m.PagesOrdered) (h : rewriteSegments B opts m segmentBase batch = some (m', log)) :
    ∀ pre rs post, log = pre ++ .retire rs :: post →
      ∃ rest, pre.flatMap Event.offered = pre.flatMap Event.written ++ rest ∧
        ∀ r ∈ rs, (r ∈ pre.flatMap Event.offered → r ∈ pre.flatMap Event.written) ∧
          ∀ r' ∈ rest, r.1 < r'.1 := by
  simp only [rewriteSegments, Option.bind_eq_bind, Option.bind_eq_some] at h
  obtain ⟨toRewrite, -, s₁, h₁, s₂, h₂, h⟩ := h
  have hs₁ := foldlM_rewriteOne_freesSafely _ hF hK toRewrite _ s₁
    (by exact ⟨by simp [Flows, hF.init], ⟨⟨hm.disk, hm.buffer⟩, fun _ => .nil⟩, .nil⟩) h₁
  have hs₂ := drainWhile_freesSafely _ hF hK _ _ _ _ (hs₁.assert _ _) h₂
  obtain ⟨s₃, h₃, rfl⟩ : ∃ s₃, (if (B.finish s₂.builder).2.isEmpty then
      some { s₂ with builder := (B.finish s₂.builder).1 }
      else loadAndFree B m.nextSequenceNumber (B.finish s₂.builder).2
        { s₂ with builder := (B.finish s₂.builder).1 }) = some s₃ ∧
      log = s₃.log ++ (finishRewrite s₃.mgr toRewrite s₃.overflowsToClear s₃.rewritten).2 := by
    split_ifs at h ⊢ <;> obtain ⟨s₃, h₃, h⟩ := Option.bind_eq_some.mp h <;>
      exact ⟨s₃, h₃, (Prod.mk.inj (Option.some.inj h)).2.symm⟩
  have hs₃ := loadIfEmitted_freesSafely _ hK (by exact hs₂.flows.finish hF)
    (by exact ⟨hs₂.ordered.mgr, hs₂.ordered.slots⟩) (by exact hs₂.frees) h₃
  exact hs₃.frees.append (by simp [finishRewrite, List.flatMap_map, Event.retired])

end Rewrite

/-- A rewrite of the bulk-loaded segment at `10` of `loadScenario` with the batch record `12`,
under the builder that reports its smallest held key as its base: the call after the last
`Finish()` frees the segment's chain, which holds `10` and `15`, after writing them. -/
theorem rewriteSegments_frees_written_loaded :
    minKeyBuilder.Flow id ∧ minKeyBuilder.BaseKeyContract id ∧
      (bulkLoadIntoSegments loadScenario).PagesOrdered ∧
      ∃ m' log, rewriteSegments minKeyBuilder ⟨2, 1, true⟩ (bulkLoadIntoSegments loadScenario) 10
          [(12, [7])] = some (m', log) ∧
        log.flatMap Event.retired = [[(10, [1]), (15, [2])]] ∧
        ∀ pre rs post, log = pre ++ .retire rs :: post →
          ∃ rest, pre.flatMap Event.offered = pre.flatMap Event.written ++ rest ∧
            ∀ r ∈ rs, (r ∈ pre.flatMap Event.offered → r ∈ pre.flatMap Event.written) ∧
              ∀ r' ∈ rest, r.1 < r'.1 := by
  have hm := bulkLoadIntoSegments_pagesOrdered loadScenario
  obtain ⟨⟨m', log⟩, hrun⟩ := Option.isSome_iff_exists.mp (show (rewriteSegments minKeyBuilder
    ⟨2, 1, true⟩ (bulkLoadIntoSegments loadScenario) 10 [(12, [7])]).isSome by decide)
  have hret : (rewriteSegments minKeyBuilder ⟨2, 1, true⟩ (bulkLoadIntoSegments loadScenario) 10
      [(12, [7])]).all (fun r => decide (r.2.flatMap Event.retired = [[(10, [1]), (15, [2])]])) := by
    decide
  rw [hrun] at hret
  exact ⟨minKeyBuilder_flow, minKeyBuilder_baseKeyContract, hm, m', log, hrun, of_decide_eq_true hret,
    rewriteSegments_frees_written minKeyBuilder_flow minKeyBuilder_baseKeyContract hm hrun⟩

end Treeline.Pg
