import Treeline.PageGrouping.Merger

/-!
# Window slots are freed only after their records are written

`load_into_segments_and_free_pages` (`src/page_grouping/manager_rewrite.cc`, lines 259-292)
writes the segments the builder emitted. It then frees processed page chains from the front of
the window while `PageChain::LargestKey()` (lines 44-69) is below the builder's
`CurrentBaseKey()`, or all of them when the builder is empty. This module proves the guard
sufficient. Every record of a freed chain that was offered to the builder is already in a written
segment, and every record the builder still holds has a larger key than any of the chain's. Over
a whole rewrite, the records offered are exactly the records written, in the same order.

## Main definitions

* `Treeline.Pg.Event.written`, `Event.released` — the records an event writes, the chain it frees.
* `Treeline.Pg.SegmentBuilder.BaseKeyContract` — `CurrentBaseKey()` as the free guard reads it.
* `Treeline.Pg.SegmentBuilder.Flow` — records pass through the builder in order.
* `Treeline.Pg.Flows` — the records offered so far are those written, then those held.

## Main results

* `Treeline.Pg.loadAndFree_spec` — what one call writes and which chains it frees.
* `Treeline.Pg.loadAndFree_frees_written` — the guard frees only chains whose offered records are
  written.
* `Treeline.Pg.rewriteSegments_offered_written` — a rewrite writes every record it offers.

## Implementation notes

The builder is a parameter of the model, so its contract is stated through a function `held`,
the records it holds and has not emitted. The free guard needs only two facts. `CurrentBaseKey()`
is a lower bound of the held keys, and it is empty only when nothing is held; the smallest held
key has both properties. A chain's largest key bounds its records because a page keeps its
records in key order. This is assumed here of the pages in the window; `PageOrder` proves it of
every state of a rewrite from a store reachable from a bulk load.
-/

namespace Treeline.Pg

/-- The records of the segment an event writes. -/
def Event.written : Event → List Record
  | .load seg _ => seg.records
  | _ => []

/-- The chain an event frees. -/
def Event.released : Event → List PageChain
  | .release pc _ => [pc]
  | _ => []

lemma flatMap_written (log : List Event) :
    log.flatMap Event.written = (log.flatMap Event.loads).flatMap fun x => x.1.records := by
  induction log with
  | nil => rfl
  | cons e log ih => cases e <;> simp [Event.written, Event.loads, ih]

/-! ## The builder -/

section Builder

variable {σ : Type} (B : SegmentBuilder σ) (held : σ → List Record)

/-- What the free guard needs of `CurrentBaseKey()`, through the records `held b` the builder
holds: it is empty only when nothing is held, and no held record has a smaller key. -/
structure SegmentBuilder.BaseKeyContract : Prop where
  none_empty : ∀ b, B.currentBaseKey b = none → held b = []
  le_held : ∀ b k, B.currentBaseKey b = some k → ∀ r ∈ held b, k ≤ r.1

/-- Records pass through the builder in order: it starts empty, an offer appends the record and
may emit a prefix of what it holds, and `Finish` emits all it holds and is left empty. -/
structure SegmentBuilder.Flow : Prop where
  init : ∀ g d, held (B.init g d) = []
  offer : ∀ b r, (B.offer b r).2.flatMap Segment.records ++ held (B.offer b r).1 = held b ++ [r]
  finish : ∀ b, (B.finish b).2.flatMap Segment.records = held b
  finish_empty : ∀ b, held (B.finish b).1 = []

/-- The records offered so far are those written so far, then those the builder holds. -/
def Flows (s : RewriteState σ) : Prop :=
  s.log.flatMap Event.offered = s.log.flatMap Event.written ++ held s.builder

variable {B held}

lemma Flows.congr {s s' : RewriteState σ} (h : Flows held s) (hb : s'.builder = s.builder)
    (ho : s'.log.flatMap Event.offered = s.log.flatMap Event.offered)
    (hw : s'.log.flatMap Event.written = s.log.flatMap Event.written) : Flows held s' := by
  rw [Flows, ho, hw, hb]
  exact h

/-- Events that offer and write nothing keep the flow. -/
lemma Flows.append {s : RewriteState σ} (h : Flows held s) {es : List Event}
    (ho : es.flatMap Event.offered = []) (hw : es.flatMap Event.written = []) :
    Flows held { s with log := s.log ++ es } :=
  h.congr rfl (by simp [ho]) (by simp [hw])

end Builder

/-! ## The chains a call frees -/

/-- A key-ordered page that holds a record has a last record, of a key at least the record's. -/
lemma exists_getLast?_of_mem {rs : List Record} (h : Ascending rs) {r : Record} (hr : r ∈ rs) :
    ∃ l, rs.getLast? = some l ∧ r.1 ≤ l.1 := by
  obtain ⟨l, hl⟩ := Option.ne_none_iff_exists'.mp (mt List.getLast?_eq_none_iff.mp (List.ne_nil_of_mem hr))
  obtain ⟨front, rfl⟩ := List.getLast?_eq_some_iff.mp hl
  refine ⟨l, hl, ?_⟩
  rcases List.mem_append.mp hr with hr | hr
  · exact ((Ascending.append_iff.mp h).2.2 r hr l (.head _)).le
  · rw [List.mem_singleton.mp hr]

/-- `LargestKey()` is at least the last key of each page of the chain. -/
lemma PageChain.le_largestKey {b : CircularPageBuffer} {pc : PageChain} {slot : ℕ}
    (hs : slot ∈ pc.slots) {l : Record} (hl : (b.slots slot).records.getLast? = some l) :
    ∃ lk, pc.largestKey b = some lk ∧ l.1 ≤ lk := by
  unfold PageChain.largestKey
  rcases List.mem_cons.mp hs with rfl | ho
  · split <;> simp [hl]
  · have ho : pc.overflow = some slot := Option.mem_toList.mp ho
    simp only [ho, Option.some_bind, hl, Option.map_some']
    split <;> simp

/-- Every record of a chain of key-ordered pages is at most the chain's largest key. -/
lemma PageChain.key_le_largestKey {b : CircularPageBuffer} {pc : PageChain}
    (hasc : ∀ slot ∈ pc.slots, Ascending (b.slots slot).records) {r : Record}
    (hr : r ∈ pc.records b) : ∃ lk, pc.largestKey b = some lk ∧ r.1 ≤ lk := by
  obtain ⟨slot, hs, hrs⟩ : ∃ slot ∈ pc.slots, r ∈ (b.slots slot).records := by
    have := (pageMergeIterator_perm _).subset hr
    cases hov : pc.overflow <;> simp_all [PageChain.slots]
  obtain ⟨l, hl, hrl⟩ := exists_getLast?_of_mem (hasc slot hs) hrs
  obtain ⟨lk, hlk, hllk⟩ := PageChain.le_largestKey hs hl
  exact ⟨lk, hlk, hrl.trans hllk⟩

lemma PageChain.safeToFree_congr {b b' : CircularPageBuffer} (h : b'.slots = b.slots)
    (pc : PageChain) (next : Option ℕ) : pc.safeToFree b' next = pc.safeToFree b next := by
  simp [PageChain.safeToFree, PageChain.largestKey, h]

/-- **The guard against the base key.** A chain of key-ordered pages that passes the free guard
against the builder's `CurrentBaseKey()` holds only records below every record the builder
holds. -/
lemma PageChain.lt_held_of_safeToFree {σ : Type} {B : SegmentBuilder σ} {held : σ → List Record}
    (hB : B.BaseKeyContract held) {b : CircularPageBuffer} {pc : PageChain}
    (hasc : ∀ slot ∈ pc.slots, Ascending (b.slots slot).records) {bs : σ}
    (hg : pc.safeToFree b (B.currentBaseKey bs) = true) :
    ∀ r ∈ pc.records b, ∀ r' ∈ held bs, r.1 < r'.1 := by
  intro r hr r' hr'
  obtain ⟨lk, hlk, hle⟩ := PageChain.key_le_largestKey hasc hr
  cases hk : B.currentBaseKey bs with
  | none => simp [hB.none_empty _ hk] at hr'
  | some k =>
    simp only [PageChain.safeToFree, hk, hlk, decide_eq_true_eq] at hg
    have := hB.le_held _ k hk r' hr'
    omega

/-- When the records offered are those written and then `rest`, an offered record below every
record of `rest` is written. -/
lemma mem_written_of_lt_held {log : List Event} {rest : List Record}
    (hfl : log.flatMap Event.offered = log.flatMap Event.written ++ rest) {r : Record}
    (ho : r ∈ log.flatMap Event.offered) (hlt : ∀ r' ∈ rest, r.1 < r'.1) :
    r ∈ log.flatMap Event.written :=
  (List.mem_append.mp (hfl ▸ ho)).resolve_right fun hh => lt_irrefl _ (hlt r hh)

section Free

variable {σ : Type} (B : SegmentBuilder σ) (sequenceNumber : ℕ)

/-- `freeProcessed` frees a prefix of the chains, each passing the guard. -/
lemma freeProcessed_guard (next : Option ℕ) : ∀ (chains : List PageChain)
    (s s' : RewriteState σ), freeProcessed next chains s = some s' →
    ∃ freed, chains = freed ++ s'.processed ∧
      s'.log.flatMap Event.released = s.log.flatMap Event.released ++ freed ∧
      ∀ pc ∈ freed, pc.safeToFree s.pageBuf next = true
  | [], s, s', h => by obtain rfl := Option.some.inj h; exact ⟨[], rfl, by simp, by simp⟩
  | pc :: rest, s, s', h => by
    rw [freeProcessed] at h
    split_ifs at h with hsafe
    · obtain ⟨s₁, h₁, h₂⟩ := Option.bind_eq_some.mp h
      obtain ⟨freed, hsplit, hrel, hguard⟩ := freeProcessed_guard next rest s₁ s' h₂
      obtain ⟨fr, hl⟩ := RewriteState.freeChain_log h₁
      refine ⟨pc :: freed, by rw [hsplit, List.cons_append], by simp [hrel, hl, Event.released], ?_⟩
      rintro pc' (_ | ⟨_, hpc'⟩)
      · exact hsafe
      · rw [← PageChain.safeToFree_congr (RewriteState.freeChain_frame h₁).slots]
        exact hguard pc' hpc'
    · obtain rfl := Option.some.inj h
      exact ⟨[], rfl, by simp, by simp⟩

/-- Writing the emitted segments offers nothing and writes their records. -/
lemma loadSegments_log (segs : List Segment) (s : RewriteState σ) :
    (loadSegments B sequenceNumber segs s).log.flatMap Event.offered = s.log.flatMap Event.offered ∧
      (loadSegments B sequenceNumber segs s).log.flatMap Event.written =
        s.log.flatMap Event.written ++ segs.flatMap Segment.records := by
  obtain ⟨u, -, -, heq⟩ := loadSegments_eq B sequenceNumber segs s
  rw [heq]
  constructor
  · simp only [List.flatMap_append, List.append_right_eq_self, List.flatMap_eq_nil_iff, List.mem_map]
    rintro _ ⟨x, -, rfl⟩
    rfl
  · rw [flatMap_written, List.flatMap_append, List.flatMap_append, ← flatMap_written, flatMap_loads_map]
    conv_rhs => rw [← map_fst_chainUppers segs u, List.flatMap_map]

/-- **`load_into_segments_and_free_pages`.** A call writes the emitted segments and frees a
prefix of the processed chains, each of which passes the guard against the builder's current base
key. It leaves the builder, the slots' pages and the records offered alone. -/
lemma loadAndFree_spec {segs : List Segment} {s s' : RewriteState σ}
    (h : loadAndFree B sequenceNumber segs s = some s') :
    ∃ freed, s.processed = freed ++ s'.processed ∧
      s'.log.flatMap Event.released = s.log.flatMap Event.released ++ freed ∧
      (∀ pc ∈ freed, pc.safeToFree s.pageBuf (B.currentBaseKey s.builder) = true) ∧
      s'.builder = s.builder ∧ s'.pageBuf.slots = s.pageBuf.slots ∧
      s'.log.flatMap Event.offered = s.log.flatMap Event.offered ∧
      s'.log.flatMap Event.written = s.log.flatMap Event.written ++ segs.flatMap Segment.records := by
  obtain ⟨hb, hp, -, hbd, -, -⟩ := loadSegments_spec B sequenceNumber segs s
  obtain ⟨u, -, -, heq⟩ := loadSegments_eq B sequenceNumber segs s
  have hf := freeProcessed_frame _ _ _ _ h
  obtain ⟨freed, hsplit, hrel, hguard⟩ := freeProcessed_guard _ _ _ _ h
  rw [hb, hbd] at hguard
  refine ⟨freed, hp ▸ hsplit, ?_, hguard, hf.builder.trans hbd, hf.slots.trans (congrArg _ hb),
    ?_, ?_⟩
  · rw [hrel, heq]
    simp only [List.flatMap_append, List.append_assoc, List.append_right_inj, List.append_left_eq_self,
      List.flatMap_eq_nil_iff, List.mem_map]
    rintro _ ⟨x, -, rfl⟩
    rfl
  · rw [freeProcessed_offered _ _ _ _ h]
    exact (loadSegments_log B sequenceNumber segs s).1
  · rw [flatMap_written, hf.loads, ← flatMap_written]
    exact (loadSegments_log B sequenceNumber segs s).2

/-- A call of `load_into_segments_and_free_pages` on what the builder has just emitted restores
the flow. -/
lemma loadAndFree_flows {held : σ → List Record} {segs : List Segment} {s s' : RewriteState σ}
    (hpre : s.log.flatMap Event.offered =
      s.log.flatMap Event.written ++ segs.flatMap Segment.records ++ held s.builder)
    (h : loadAndFree B sequenceNumber segs s = some s') : Flows held s' := by
  obtain ⟨-, -, -, -, hb, -, hoff, hwr⟩ := loadAndFree_spec B sequenceNumber h
  rw [Flows, hoff, hwr, hb, hpre, List.append_assoc]

/-- **The free guard is safe.** Take a call of `load_into_segments_and_free_pages` from a state
where the records offered so far are those written, then the emitted segments', then those the
builder holds, and whose processed chains' pages keep their records in key order. The call writes
the emitted segments and frees a prefix of the processed chains. Every record of a freed chain
that was offered is written, and every record the builder still holds has a larger key. -/
theorem loadAndFree_frees_written {held : σ → List Record} (hB : B.BaseKeyContract held)
    {segs : List Segment} {s s' : RewriteState σ}
    (hflow : s.log.flatMap Event.offered =
      s.log.flatMap Event.written ++ segs.flatMap Segment.records ++ held s.builder)
    (hpages : ∀ pc ∈ s.processed, ∀ slot ∈ pc.slots, Ascending (s.pageBuf.slots slot).records)
    (h : loadAndFree B sequenceNumber segs s = some s') :
    ∃ freed, s.processed = freed ++ s'.processed ∧
      s'.log.flatMap Event.released = s.log.flatMap Event.released ++ freed ∧
      s'.log.flatMap Event.written = s.log.flatMap Event.written ++ segs.flatMap Segment.records ∧
      Flows held s' ∧
      ∀ pc ∈ freed, ∀ r ∈ pc.records s.pageBuf,
        (r ∈ s'.log.flatMap Event.offered → r ∈ s'.log.flatMap Event.written) ∧
        ∀ r' ∈ held s'.builder, r.1 < r'.1 := by
  obtain ⟨freed, hsplit, hrel, hguard, hb, -, -, hwr⟩ := loadAndFree_spec B sequenceNumber h
  have hflows : s'.log.flatMap Event.offered = s'.log.flatMap Event.written ++ held s'.builder :=
    loadAndFree_flows B sequenceNumber hflow h
  have hbelow : ∀ pc ∈ freed, ∀ r ∈ pc.records s.pageBuf, ∀ r' ∈ held s'.builder, r.1 < r'.1 :=
    fun pc hpc => hb ▸ PageChain.lt_held_of_safeToFree hB
      (hpages pc (hsplit ▸ List.mem_append_left _ hpc)) (hguard pc hpc)
  exact ⟨freed, hsplit, hrel, hwr, hflows, fun pc hpc r hr =>
    ⟨fun ho => mem_written_of_lt_held hflows ho (hbelow pc hpc r hr), hbelow pc hpc r hr⟩⟩

/-- A builder that holds every offered record and reports the smallest held key as its base. -/
def minKeyBuilder : SegmentBuilder (List Record) :=
  { holdAllBuilder with currentBaseKey := fun held => (held.map Prod.fst).min? }

/-- The smallest held key is a base key as the free guard reads it. -/
lemma minKeyBuilder_baseKeyContract : minKeyBuilder.BaseKeyContract id where
  none_empty _ h := List.map_eq_nil_iff.mp (List.min?_eq_none_iff.mp h)
  le_held _ _ h _ hr := (List.min?_eq_some_iff'.mp h).2 _ (List.mem_map_of_mem _ hr)

/-- One processed chain in window slot `0`, whose page holds the key `1`; the builder holds the
key `5`, and the segment about to be written holds the key `1`. -/
def freeScenario : RewriteState (List Record) where
  mgr := Manager.empty
  builder := [(5, [])]
  pageBuf := ⟨64, fun i => if i = 0 then scenarioPage 1 [(1, [])] none else Page.zero, 0, 1⟩
  toProcess := []
  processed := [⟨0, none⟩]
  merger := ⟨[], []⟩
  rewritten := []
  overflowsToClear := []
  log := [.offer (1, []), .offer (5, [])]

theorem loadAndFree_frees_written_scenario :
    minKeyBuilder.BaseKeyContract id ∧
      freeScenario.log.flatMap Event.offered = freeScenario.log.flatMap Event.written ++
        [⟨1, 1, [(1, [])], none⟩].flatMap Segment.records ++ id freeScenario.builder ∧
      (∀ pc ∈ freeScenario.processed, ∀ slot ∈ pc.slots,
        Ascending (freeScenario.pageBuf.slots slot).records) ∧
      ∃ s', loadAndFree minKeyBuilder 0 [⟨1, 1, [(1, [])], none⟩] freeScenario = some s' ∧
        ∃ freed, freeScenario.processed = freed ++ s'.processed ∧
          s'.log.flatMap Event.released = freeScenario.log.flatMap Event.released ++ freed ∧
          s'.log.flatMap Event.written = freeScenario.log.flatMap Event.written ++
            [⟨1, 1, [(1, [])], none⟩].flatMap Segment.records ∧
          Flows id s' ∧
          ∀ pc ∈ freed, ∀ r ∈ pc.records freeScenario.pageBuf,
            (r ∈ s'.log.flatMap Event.offered → r ∈ s'.log.flatMap Event.written) ∧
            ∀ r' ∈ id s'.builder, r.1 < r'.1 :=
  have hflow : freeScenario.log.flatMap Event.offered = freeScenario.log.flatMap Event.written ++
      [⟨1, 1, [(1, [])], none⟩].flatMap Segment.records ++ id freeScenario.builder := rfl
  have hpages : ∀ pc ∈ freeScenario.processed, ∀ slot ∈ pc.slots,
      Ascending (freeScenario.pageBuf.slots slot).records := by
    simp [freeScenario, PageChain.slots, scenarioPage, Ascending]
  ⟨minKeyBuilder_baseKeyContract, hflow, hpages, _, rfl,
    loadAndFree_frees_written minKeyBuilder 0 minKeyBuilder_baseKeyContract hflow hpages rfl⟩

end Free

/-! ## The flow along a rewrite -/

section Run

variable {σ : Type} {B : SegmentBuilder σ} {held : σ → List Record} (sequenceNumber : ℕ)

/-- Writing what the builder emitted, if it emitted anything, keeps the flow and the builder. -/
lemma loadIfEmitted_flows {segs : List Segment} {s s' : RewriteState σ}
    (hpre : s.log.flatMap Event.offered =
      s.log.flatMap Event.written ++ segs.flatMap Segment.records ++ held s.builder)
    (h : (if segs.isEmpty then some s else loadAndFree B sequenceNumber segs s) = some s') :
    Flows held s' ∧ s'.builder = s.builder := by
  split_ifs at h with hemp
  · obtain rfl := Option.some.inj h
    rw [List.isEmpty_iff.mp hemp, List.flatMap_nil, List.append_nil] at hpre
    exact ⟨hpre, rfl⟩
  · obtain ⟨-, -, -, -, hb, -⟩ := loadAndFree_spec B sequenceNumber h
    exact ⟨loadAndFree_flows B sequenceNumber hpre h, hb⟩

/-- `Finish()` emits what the builder held and leaves it holding nothing. -/
lemma Flows.finish (hF : B.Flow held) {s : RewriteState σ} (hs : Flows held s) :
    s.log.flatMap Event.offered = s.log.flatMap Event.written ++
      (B.finish s.builder).2.flatMap Segment.records ++ held (B.finish s.builder).1 := by
  rw [hF.finish, hF.finish_empty, hs, List.append_nil]

/-- Offering a record: what was offered is what was written, then what the builder emits in
return, then what it still holds. -/
lemma Flows.offer (hF : B.Flow held) {s : RewriteState σ} (hs : Flows held s) (r : Record) :
    (s.log ++ [Event.offer r]).flatMap Event.offered =
      (s.log ++ [Event.offer r]).flatMap Event.written ++
        (B.offer s.builder r).2.flatMap Segment.records ++ held (B.offer s.builder r).1 := by
  rw [List.append_assoc _ ((B.offer s.builder r).2.flatMap Segment.records), hF.offer,
    List.flatMap_append, List.flatMap_append, hs]
  simp [Event.offered, Event.written]

/-- Offering a record, and writing what the builder emits in return, keeps the flow. -/
lemma offer_flows (hF : B.Flow held) {s s' : RewriteState σ} (hs : Flows held s) (r : Record)
    (pm : PagePlusRecordMerger)
    (h : (if (B.offer s.builder r).2.isEmpty then
        some { s with merger := pm, builder := (B.offer s.builder r).1, log := s.log ++ [.offer r] }
      else loadAndFree B sequenceNumber (B.offer s.builder r).2
        { s with merger := pm, builder := (B.offer s.builder r).1, log := s.log ++ [.offer r] }) =
      some s') : Flows held s' :=
  (loadIfEmitted_flows sequenceNumber (by exact hs.offer hF r) h).1

lemma drainWhile_flows (hF : B.Flow held) (more : PagePlusRecordMerger → Bool) :
    ∀ (fuel : ℕ) (s s' : RewriteState σ), Flows held s →
      drainWhile B sequenceNumber more fuel s = some s' → Flows held s'
  | 0, _, _, _, h => by cases h
  | fuel + 1, s, s', hs, h => by
    rw [drainWhile_succ] at h
    split_ifs at h
    · obtain ⟨⟨r, pm⟩, -, h⟩ := Option.bind_eq_some.mp h
      obtain ⟨s₂, hs₂, h⟩ := Option.bind_eq_some.mp h
      exact drainWhile_flows hF more fuel s₂ s' (offer_flows sequenceNumber hF hs r pm hs₂) h
    · obtain rfl := Option.some.inj h
      exact hs

lemma processChains_flows (hF : B.Flow held) : ∀ (chains : List PageChain) (s s' : RewriteState σ),
    Flows held s → processChains B sequenceNumber chains s = some s' → Flows held s'
  | [], s, s', hs, h => by obtain rfl := Option.some.inj h; exact hs
  | pc :: rest, s, s', hs, h => by
    simp only [processChains, Option.bind_eq_bind] at h
    obtain ⟨s₂, hs₂, h⟩ := Option.bind_eq_some.mp h
    have h₂ : Flows held s₂ := drainWhile_flows sequenceNumber hF _ _ _ _ (by exact hs) hs₂
    exact processChains_flows hF rest _ s' (by exact h₂) h

/-- Copying a segment's pages into the window leaves the builder alone and logs only slot
allocations. -/
lemma allocChains_log : ∀ (pages : List Page) (s : RewriteState σ)
    (r : RewriteState σ × List PageChain × List (SegmentId × ℕ)), allocChains pages s = some r →
    r.1.builder = s.builder ∧ ∃ es, r.1.log = s.log ++ es ∧ ∀ e ∈ es, ∃ slot, e = .allocate slot
  | [], s, r, h => by obtain rfl := Option.some.inj h; exact ⟨rfl, [], by simp, by simp⟩
  | p :: ps, s, r, h => by
    simp only [allocChains, Option.bind_eq_bind] at h
    split at h
    · obtain ⟨⟨a, b₁⟩, -, h⟩ := Option.bind_eq_some.mp h
      obtain ⟨⟨c, b₂⟩, -, h⟩ := Option.bind_eq_some.mp h
      obtain ⟨⟨s', cs, ls⟩, hs', h⟩ := Option.bind_eq_some.mp h
      obtain rfl := Option.some.inj h
      obtain ⟨hb, es, hl, hes⟩ := allocChains_log ps _ (s', cs, ls) hs'
      refine ⟨hb, .allocate a :: .allocate c :: es, hl.trans (List.append_assoc _ _ _), ?_⟩
      rintro e (_ | ⟨_, _ | ⟨_, he⟩⟩)
      exacts [⟨a, rfl⟩, ⟨c, rfl⟩, hes e he]
    · obtain ⟨⟨a, b₁⟩, -, h⟩ := Option.bind_eq_some.mp h
      obtain ⟨⟨s', cs, ls⟩, hs', h⟩ := Option.bind_eq_some.mp h
      obtain rfl := Option.some.inj h
      obtain ⟨hb, es, hl, hes⟩ := allocChains_log ps _ (s', cs, ls) hs'
      refine ⟨hb, .allocate a :: es, hl.trans (List.append_assoc _ _ _), ?_⟩
      rintro e (_ | ⟨_, he⟩)
      exacts [⟨a, rfl⟩, hes e he]

/-- Copying a segment's pages into the window offers and writes nothing. -/
lemma allocChains_flows {pages : List Page} {s : RewriteState σ}
    {r : RewriteState σ × List PageChain × List (SegmentId × ℕ)} (hs : Flows held s)
    (h : allocChains pages s = some r) : Flows held r.1 := by
  obtain ⟨hb, es, hl, hes⟩ := allocChains_log pages s r h
  refine hs.congr hb ?_ ?_ <;>
    rw [hl, List.flatMap_append, List.append_right_eq_self, List.flatMap_eq_nil_iff] <;>
    rintro e he <;> obtain ⟨a, rfl⟩ := hes e he <;> rfl

/-- The final `Finish()` of a rewrite, with what it emits written, leaves the flow with the builder
empty. -/
lemma finish_flows (hF : B.Flow held) {s s' : RewriteState σ} (hs : Flows held s)
    (h : (if (B.finish s.builder).2.isEmpty then some { s with builder := (B.finish s.builder).1 }
      else loadAndFree B sequenceNumber (B.finish s.builder).2
        { s with builder := (B.finish s.builder).1 }) = some s') :
    Flows held s' ∧ held s'.builder = [] := by
  obtain ⟨hfl, hb⟩ := loadIfEmitted_flows sequenceNumber (by exact hs.finish hF) h
  exact ⟨hfl, by rw [hb]; exact hF.finish_empty _⟩

lemma makeRoom_flows (hF : B.Flow held) {line₁ line₂ need : ℕ} {s s' : RewriteState σ}
    (hs : Flows held s) (h : makeRoom B sequenceNumber line₁ line₂ need s = some s') :
    Flows held s' := by
  unfold makeRoom at h
  split_ifs at h
  · have hpre := hs.finish hF
    rcases hfin : B.finish s.builder with ⟨b, segs⟩
    rw [hfin] at hpre
    simp only [flush, hfin, Option.bind_eq_bind] at h
    obtain ⟨s₁, h₁, h⟩ := Option.bind_eq_some.mp h
    obtain rfl := Option.some.inj h
    refine (loadAndFree_flows B sequenceNumber ?_ h₁).append rfl rfl
    simpa [Event.offered, Event.written] using hpre
  · obtain rfl := Option.some.inj h
    exact hs

lemma rewriteOne_flows (hF : B.Flow held) {s s' : RewriteState σ} {info : SegmentInfo}
    (hs : Flows held s) (h : rewriteOne B sequenceNumber s info = some s') : Flows held s' := by
  simp only [rewriteOne, Option.bind_eq_bind, Option.bind_eq_some] at h
  obtain ⟨s₁, h₁, s₂, h₂, ⟨s₃, chains, loads⟩, h₃, h⟩ := h
  have hs₁ : Flows held s₁ := makeRoom_flows sequenceNumber hF hs h₁
  have hs₂ : Flows held s₂ := makeRoom_flows sequenceNumber hF (by exact hs₁) h₂
  have hs₃ : Flows held s₃ := allocChains_flows (by exact hs₂) h₃
  exact processChains_flows sequenceNumber hF _ _ s' (by exact hs₃) h

lemma foldlM_rewriteOne_flows (hF : B.Flow held) : ∀ (segs : List (ℕ × SegmentInfo))
    (s s' : RewriteState σ), Flows held s →
    segs.foldlM (fun s e => rewriteOne B sequenceNumber s e.2) s = some s' → Flows held s'
  | [], s, s', hs, h => by obtain rfl := Option.some.inj h; exact hs
  | e :: es, s, s', hs, h => by
    simp only [List.foldlM_cons, Option.bind_eq_bind] at h
    obtain ⟨s₁, h₁, h⟩ := Option.bind_eq_some.mp h
    exact foldlM_rewriteOne_flows hF es s₁ s' (rewriteOne_flows sequenceNumber hF hs h₁) h

/-- **A rewrite writes every record it offers.** For every builder through which records pass in
order, the records `RewriteSegments` offers the builder are, in offer order, the records of the
segments it writes with `LoadIntoNewSegment`: none is dropped between the builder and the disk,
and none is written twice. -/
theorem rewriteSegments_offered_written (hF : B.Flow held) {opts : Options} {m m' : Manager}
    {segmentBase : ℕ} {batch : List Record} {log : List Event}
    (h : rewriteSegments B opts m segmentBase batch = some (m', log)) :
    log.flatMap Event.offered = log.flatMap Event.written := by
  simp only [rewriteSegments, Option.bind_eq_bind, Option.bind_eq_some] at h
  obtain ⟨toRewrite, -, s₁, h₁, s₂, h₂, h⟩ := h
  have hs₁ : Flows held s₁ :=
    foldlM_rewriteOne_flows _ hF toRewrite _ s₁ (by simp [Flows, hF.init]) h₁
  have hs₂ : Flows held s₂ := drainWhile_flows _ hF _ _ _ _ (by exact hs₁.append rfl rfl) h₂
  obtain ⟨s₃, h₃, rfl⟩ : ∃ s₃, (if (B.finish s₂.builder).2.isEmpty then
      some { s₂ with builder := (B.finish s₂.builder).1 }
      else loadAndFree B m.nextSequenceNumber (B.finish s₂.builder).2
        { s₂ with builder := (B.finish s₂.builder).1 }) = some s₃ ∧
      log = s₃.log ++ (finishRewrite s₃.mgr toRewrite s₃.overflowsToClear s₃.rewritten).2 := by
    split_ifs at h ⊢ <;> obtain ⟨s₃, h₃, h⟩ := Option.bind_eq_some.mp h <;>
      exact ⟨s₃, h₃, (Prod.mk.inj (Option.some.inj h)).2.symm⟩
  obtain ⟨hfl, hheld⟩ := finish_flows _ hF hs₂ h₃
  rw [Flows, hheld, List.append_nil] at hfl
  simp [hfl, finishRewrite, List.flatMap_map, Event.offered, Event.written]

/-- `holdAllBuilder` passes records through in order. -/
lemma holdAllBuilder_flow : holdAllBuilder.Flow id where
  init _ _ := rfl
  offer _ _ := rfl
  finish b := by by_cases h : b = [] <;> simp [holdAllBuilder, h]
  finish_empty _ := rfl

/-- `minKeyBuilder` passes records through as `holdAllBuilder` does. -/
lemma minKeyBuilder_flow : minKeyBuilder.Flow id :=
  ⟨holdAllBuilder_flow.init, holdAllBuilder_flow.offer, holdAllBuilder_flow.finish,
    holdAllBuilder_flow.finish_empty⟩

theorem rewriteSegments_offered_written_scenario :
    holdAllBuilder.Flow id ∧ ∃ m' log,
      rewriteSegments holdAllBuilder ⟨2, 1, true⟩ overflowFlushScenario 0 [] = some (m', log) ∧
        log.flatMap Event.offered = log.flatMap Event.written :=
  have ⟨m', log, h, _⟩ := rewriteSegments_windowLog holdAllBuilder ⟨2, 1, true⟩
    overflowFlushScenario 0 [] overflowFlushScenario.index (by decide) (by decide) (fun _ => rfl)
  ⟨holdAllBuilder_flow, m', log, h, rewriteSegments_offered_written holdAllBuilder_flow h⟩

end Run

end Treeline.Pg
