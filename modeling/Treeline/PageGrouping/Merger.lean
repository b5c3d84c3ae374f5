import Treeline.PageGrouping.RewriteRun

/-!
# The stream of the page-plus-record merger

`RewriteSegments` (`src/page_grouping/manager_rewrite.cc`, lines 348-371) keeps one
`PagePlusRecordMerger` across the whole rewrite: it points the merger at each page chain in turn
with `UpdatePageIterator` and calls `GetNext` while `HasPageRecords`, and after the last chain it
calls `GetNext` while `HasRecords`, offering every record returned to the builder. The batch
cursor survives every `UpdatePageIterator`, and on equal keys `GetNext` (lines 79-128) returns
the batch record and advances both sides.

This module takes the merger's part of those loops on its own and proves that the records it
returns are the newest-wins merge of the chains' records with the batch, for chains whose
records ascend across all of them. It then shows that the loops of the model offer the builder
exactly these records.

## Main definitions

* `Treeline.Pg.PagePlusRecordMerger.drain` — `GetNext` while a test holds.
* `Treeline.Pg.PagePlusRecordMerger.feed`, `drive` — the merger's part of lines 348-371.
* `Treeline.Pg.Event.offered` — the record an event offers to the builder.

## Main results

* `Treeline.Pg.PagePlusRecordMerger.drain_newestWins` — a drain returns the merge record by
  record.
* `Treeline.Pg.PagePlusRecordMerger.drive_newestWins` — the whole drive returns the newest-wins
  merge of the chains with the batch.
* `Treeline.Pg.drainWhile_drain`, `Treeline.Pg.processChains_feed` — the loops of the model offer
  what the drive returns.
-/

namespace Treeline.Pg

namespace PagePlusRecordMerger

/-- `GetNext` while `more` holds, at most `fuel` times: the records returned, in order, and the
merger left. -/
def drain (more : PagePlusRecordMerger → Bool) : ℕ → PagePlusRecordMerger →
    List Record × PagePlusRecordMerger
  | 0, pm => ([], pm)
  | fuel + 1, pm =>
    if more pm then
      match pm.getNext with
      | some (r, pm') => (r :: (drain more fuel pm').1, (drain more fuel pm').2)
      | none => ([], pm)
    else ([], pm)

/-- Lines 348-361 for the merger: for each chain, `UpdatePageIterator` with its records, then
`GetNext` while `HasPageRecords`. -/
def feed : List (List Record) → PagePlusRecordMerger → List Record × PagePlusRecordMerger
  | [], pm => ([], pm)
  | c :: cs, pm =>
    let d := drain hasPageRecords (fuel { pm with pmi := c }) { pm with pmi := c }
    ((d.1 ++ (feed cs d.2).1), (feed cs d.2).2)

/-- Lines 348-371 for the merger: `feed` the chains, then `GetNext` while `HasRecords`; the
records returned. -/
def drive (chains : List (List Record)) (pm : PagePlusRecordMerger) : List Record :=
  (feed chains pm).1 ++ ((feed chains pm).2.drain hasRecords (feed chains pm).2.fuel).1

variable (more : PagePlusRecordMerger → Bool)

lemma drain_succ_of_getNext {pm pm' : PagePlusRecordMerger} {r : Record} (fuel : ℕ)
    (hm : more pm = true) (h : pm.getNext = some (r, pm')) :
    pm.drain more (fuel + 1) = (r :: (pm'.drain more fuel).1, (pm'.drain more fuel).2) := by
  simp [drain, hm, h]

lemma drain_succ_of_not {pm : PagePlusRecordMerger} (fuel : ℕ) (hm : more pm = false) :
    pm.drain more (fuel + 1) = ([], pm) := by
  simp [drain, hm]

/-- **A drain returns the newest-wins merge, record by record.** With the current chain's records
and the chains `F` after it ascending, the batch ascending, and enough fuel, a drain returns a
prefix of the merge of the page side with the batch, and leaves a merger on which `more` fails
whose merge is the rest. -/
lemma drain_newestWins (hmore : ∀ pm, more pm = true → pm.pmi ≠ [] ∨ pm.it ≠ [])
    (F : List Record) (hmoreF : ∀ pm, more pm = true → pm.pmi = [] → F = []) :
    ∀ (fuel : ℕ) (pm : PagePlusRecordMerger), pm.pmi.length + pm.it.length < fuel →
      Ascending (pm.pmi ++ F) → Ascending pm.it →
      newestWins (pm.pmi ++ F) pm.it = (pm.drain more fuel).1 ++
          newestWins ((pm.drain more fuel).2.pmi ++ F) (pm.drain more fuel).2.it ∧
        more (pm.drain more fuel).2 = false ∧ Ascending ((pm.drain more fuel).2.pmi ++ F) ∧
        Ascending (pm.drain more fuel).2.it
  | 0, _, h, _, _ => absurd h (Nat.not_lt_zero _)
  | fuel + 1, pm, hlen, hpf, hit => by
    cases hm : more pm
    · rw [drain_succ_of_not more fuel hm]
      exact ⟨rfl, hm, hpf, hit⟩
    · obtain ⟨r, pm', hget, hdec⟩ := getNext_some (hmore pm hm)
      obtain ⟨heq, hp, hi⟩ := getNext_newestWins hpf (hmoreF pm hm) hget
      obtain ⟨h₁, h₂, h₃, h₄⟩ := drain_newestWins hmore F hmoreF fuel pm' (by omega)
        (Ascending.sublist (hp.append_right F) hpf) (hit.sublist hi)
      rw [drain_succ_of_getNext more fuel hm hget, heq, h₁]
      exact ⟨rfl, h₂, h₃, h₄⟩

lemma hasPageRecords_eq_false {pm : PagePlusRecordMerger} :
    pm.hasPageRecords = false ↔ pm.pmi = [] := by
  simp [hasPageRecords]

lemma hasRecords_eq_false {pm : PagePlusRecordMerger} :
    pm.hasRecords = false ↔ pm.pmi = [] ∧ pm.it = [] := by
  simp [hasRecords, hasPageRecords]

/-- Feeding the chains returns the merge of their records with the batch up to what is left of
the batch, which follows it. -/
lemma feed_newestWins : ∀ (chains : List (List Record)) (pm : PagePlusRecordMerger), pm.pmi = [] →
    Ascending chains.flatten → Ascending pm.it →
    newestWins chains.flatten pm.it = (feed chains pm).1 ++ (feed chains pm).2.it ∧
      (feed chains pm).2.pmi = [] ∧ Ascending (feed chains pm).2.it
  | [], pm, hp, _, hit => ⟨by simp [feed, hp], hp, hit⟩
  | c :: cs, pm, _, hc, hit => by
    rw [List.flatten_cons] at hc
    obtain ⟨h₁, h₂, h₃, h₄⟩ := drain_newestWins hasPageRecords
      (fun pm h => .inl fun h' => by simp [hasPageRecords, h'] at h) cs.flatten
      (fun pm h h' => by simp [hasPageRecords, h'] at h) (fuel { pm with pmi := c })
      { pm with pmi := c } (Nat.lt_succ_self _) hc hit
    rw [hasPageRecords_eq_false.mp h₂, List.nil_append] at h₁ h₃
    obtain ⟨h₅, h₆, h₇⟩ := feed_newestWins cs _ (hasPageRecords_eq_false.mp h₂) h₃ h₄
    refine ⟨?_, h₆, h₇⟩
    rw [List.flatten_cons]
    simp only [feed, List.append_assoc, ← h₅]
    exact h₁

/-- **The merger's stream is the newest-wins merge.** Chains whose records strictly ascend, each
chain's keys below every later chain's, and a strictly ascending batch: driving the merger as
`RewriteSegments` does returns exactly the newest-wins merge of the chains' records with the
batch. So its keys strictly ascend (each key comes once), every key of either side comes, and a
key on both sides comes with the batch's record, wherever the batch's keys fall among the
chains'. -/
theorem drive_newestWins {chains : List (List Record)} (hc : ∀ c ∈ chains, Ascending c)
    (hord : chains.Pairwise fun c d => ∀ x ∈ c, ∀ y ∈ d, x.1 < y.1) {batch : List Record}
    (hb : Ascending batch) :
    drive chains ⟨[], batch⟩ = newestWins chains.flatten batch ∧
      Ascending (drive chains ⟨[], batch⟩) ∧
      (∀ r, r ∈ drive chains ⟨[], batch⟩ ↔ r ∈ batch ∨ (r ∈ chains.flatten ∧ ∀ b ∈ batch, b.1 ≠ r.1)) ∧
      ∀ k, k ∈ (drive chains ⟨[], batch⟩).map Prod.fst ↔
        k ∈ chains.flatten.map Prod.fst ∨ k ∈ batch.map Prod.fst := by
  have hflat : Ascending chains.flatten := List.pairwise_flatten.mpr ⟨hc, hord⟩
  obtain ⟨h₁, h₂, h₃⟩ := feed_newestWins chains ⟨[], batch⟩ rfl hflat hb
  set f := feed chains ⟨[], batch⟩
  obtain ⟨h₄, h₅, -, -⟩ := drain_newestWins hasRecords
    (fun pm h => by by_contra h'; simp [hasRecords, hasPageRecords, not_or.mp h'] at h) []
    (fun _ _ _ => rfl) f.2.fuel f.2 (Nat.lt_succ_self _) (by rw [h₂]; exact List.Pairwise.nil) h₃
  obtain ⟨h₆, h₇⟩ := hasRecords_eq_false.mp h₅
  have hdrive : drive chains ⟨[], batch⟩ = newestWins chains.flatten batch := by
    rw [h₁, drive]
    simpa [h₂, h₆, h₇] using h₄.symm
  exact ⟨hdrive, hdrive ▸ ascending_newestWins hflat hb, hdrive ▸ mem_newestWins hb chains.flatten,
    hdrive ▸ keys_newestWins hb chains.flatten⟩

/-- Three chains, the middle one empty, and a batch with keys before, on and after the chains'. -/
def driveScenario : List (List Record) × List Record :=
  ([[(1, []), (3, [])], [], [(5, [])]], [(0, [9]), (3, [7]), (6, [])])

/-- The batch record of key `3` replaces the page's; the others fall into place. -/
theorem drive_newestWins_scenario :
    (∀ c ∈ driveScenario.1, Ascending c) ∧
      driveScenario.1.Pairwise (fun c d => ∀ x ∈ c, ∀ y ∈ d, x.1 < y.1) ∧ Ascending driveScenario.2 ∧
      drive driveScenario.1 ⟨[], driveScenario.2⟩ = newestWins driveScenario.1.flatten driveScenario.2 ∧
      Ascending (drive driveScenario.1 ⟨[], driveScenario.2⟩) ∧
      (∀ r, r ∈ drive driveScenario.1 ⟨[], driveScenario.2⟩ ↔
        r ∈ driveScenario.2 ∨ (r ∈ driveScenario.1.flatten ∧ ∀ b ∈ driveScenario.2, b.1 ≠ r.1)) ∧
      ∀ k, k ∈ (drive driveScenario.1 ⟨[], driveScenario.2⟩).map Prod.fst ↔
        k ∈ driveScenario.1.flatten.map Prod.fst ∨ k ∈ driveScenario.2.map Prod.fst :=
  have hc : ∀ c ∈ driveScenario.1, Ascending c := by unfold Ascending driveScenario; decide
  have hord : driveScenario.1.Pairwise fun c d => ∀ x ∈ c, ∀ y ∈ d, x.1 < y.1 := by
    unfold driveScenario; decide
  have hb : Ascending driveScenario.2 := by unfold Ascending driveScenario; decide
  ⟨hc, hord, hb, drive_newestWins hc hord hb⟩

/-- Two chains out of order on either side of an empty one: each chain ascends and every key of a
chain is below every key of the next (vacuously, the middle chain having none), yet the drive
returns `4, 5, 3`, which does not ascend and is not the newest-wins merge `3, 4, 5`. -/
theorem drive_unordered_across_empty_chain :
    (∀ c ∈ [[((5 : ℕ), ([] : Slice))], [], [(3, [])]], Ascending c) ∧
      [[((5 : ℕ), ([] : Slice))], [], [(3, [])]].Chain' (fun c d => ∀ x ∈ c, ∀ y ∈ d, x.1 < y.1) ∧
      Ascending [((4 : ℕ), ([] : Slice))] ∧
      drive [[(5, [])], [], [(3, [])]] ⟨[], [(4, [])]⟩ = [(4, []), (5, []), (3, [])] ∧
      ¬ Ascending (drive [[(5, [])], [], [(3, [])]] ⟨[], [(4, [])]⟩) ∧
      drive [[(5, [])], [], [(3, [])]] ⟨[], [(4, [])]⟩ ≠ newestWins [(5, []), (3, [])] [(4, [])] := by
  refine ⟨?_, by simp, ?_⟩ <;> unfold Ascending <;> decide

end PagePlusRecordMerger

/-! ## The loops of the model -/

/-- The record an event offers to the builder. -/
def Event.offered : Event → List Record
  | .offer r => [r]
  | _ => []

section Loops

variable {σ : Type} (B : SegmentBuilder σ) (sequenceNumber : ℕ)

lemma RewriteState.freeChain_log {s s' : RewriteState σ} {pc : PageChain}
    (h : s.freeChain pc = some s') :
    ∃ freed, s'.log = s.log ++ [.release pc freed, .retire (pc.records s.pageBuf)] := by
  simp only [RewriteState.freeChain, Option.bind_eq_bind, Option.bind_eq_some] at h
  obtain ⟨⟨a, b₁⟩, -, h⟩ := h
  split_ifs at h
  · obtain ⟨⟨freed, b⟩, -, h⟩ := Option.bind_eq_some.mp h
    exact ⟨freed, by rw [← Option.some.inj h]⟩
  · exact ⟨[a], by rw [← Option.some.inj h]⟩

/-- Freeing chains offers nothing. -/
lemma freeProcessed_offered (next : Option ℕ) : ∀ (chains : List PageChain) (s s' : RewriteState σ),
    freeProcessed next chains s = some s' → s'.log.flatMap Event.offered = s.log.flatMap Event.offered
  | [], s, s', h => by obtain rfl := Option.some.inj h; rfl
  | pc :: rest, s, s', h => by
    rw [freeProcessed] at h
    split_ifs at h
    · obtain ⟨s₁, h₁, h₂⟩ := Option.bind_eq_some.mp h
      obtain ⟨freed, hl⟩ := RewriteState.freeChain_log h₁
      rw [freeProcessed_offered next rest s₁ s' h₂, hl, List.flatMap_append]
      simp [Event.offered]
    · obtain rfl := Option.some.inj h; rfl

/-- `load_into_segments_and_free_pages` offers nothing, and leaves the merger and the slots'
pages alone. -/
lemma loadAndFree_offered {segs : List Segment} {s s' : RewriteState σ}
    (h : loadAndFree B sequenceNumber segs s = some s') :
    s'.merger = s.merger ∧ s'.pageBuf.slots = s.pageBuf.slots ∧
      s'.log.flatMap Event.offered = s.log.flatMap Event.offered := by
  obtain ⟨h1, -, -, -, h5, -⟩ := loadSegments_spec B sequenceNumber segs s
  obtain ⟨u, -, -, heq⟩ := loadSegments_eq B sequenceNumber segs s
  have hf := freeProcessed_frame _ _ _ _ h
  refine ⟨hf.merger.trans h5, hf.slots.trans (congrArg _ h1), ?_⟩
  rw [freeProcessed_offered _ _ _ _ h, heq, List.flatMap_append]
  simp only [List.append_right_eq_self, List.flatMap_eq_nil_iff, List.mem_map]
  rintro _ ⟨x, -, rfl⟩
  rfl

/-- **The model's drain offers what the merger's drain returns.** A drain of the model offers the
builder exactly the records `GetNext` returns while `more` holds, and leaves the merger where the
merger's drain does. -/
lemma drainWhile_drain (more : PagePlusRecordMerger → Bool) : ∀ (fuel : ℕ) (s s' : RewriteState σ),
    Pg.drainWhile B sequenceNumber more fuel s = some s' →
    s'.merger = (s.merger.drain more fuel).2 ∧ s'.pageBuf.slots = s.pageBuf.slots ∧
      s'.log.flatMap Event.offered = s.log.flatMap Event.offered ++ (s.merger.drain more fuel).1
  | 0, _, _, h => by cases h
  | fuel + 1, s, s', h => by
    rw [drainWhile_succ] at h
    split_ifs at h with hm
    · obtain ⟨⟨r, pm⟩, hget, h⟩ := Option.bind_eq_some.mp h
      obtain ⟨s₂, hs₂, h⟩ := Option.bind_eq_some.mp h
      have h₂ : s₂.merger = pm ∧ s₂.pageBuf.slots = s.pageBuf.slots ∧
          s₂.log.flatMap Event.offered = s.log.flatMap Event.offered ++ [r] := by
        split_ifs at hs₂
        · obtain rfl := Option.some.inj hs₂
          simp [Event.offered]
        · obtain ⟨hm', hsl, ho⟩ := loadAndFree_offered B sequenceNumber hs₂
          exact ⟨hm', hsl, by rw [ho]; simp [Event.offered]⟩
      obtain ⟨hm', hsl', ho'⟩ := drainWhile_drain more fuel s₂ s' h
      rw [PagePlusRecordMerger.drain_succ_of_getNext more fuel hm hget, ← h₂.1]
      exact ⟨hm', hsl'.trans h₂.2.1, by rw [ho', h₂.2.2]; simp⟩
    · obtain rfl := Option.some.inj h
      rw [PagePlusRecordMerger.drain_succ_of_not more fuel (by simpa using hm)]
      exact ⟨rfl, rfl, by simp⟩

/-- **The model's chain loop offers what the merger's feed returns.** Processing the queued
chains offers the builder exactly what feeding the merger the chains' records returns. -/
lemma processChains_feed : ∀ (chains : List PageChain) (s s' : RewriteState σ),
    processChains B sequenceNumber chains s = some s' →
    s'.merger = (PagePlusRecordMerger.feed (chains.map (PageChain.records s.pageBuf)) s.merger).2 ∧
      s'.pageBuf.slots = s.pageBuf.slots ∧
      s'.log.flatMap Event.offered = s.log.flatMap Event.offered ++
        (PagePlusRecordMerger.feed (chains.map (PageChain.records s.pageBuf)) s.merger).1
  | [], s, s', h => by obtain rfl := Option.some.inj h; simp [PagePlusRecordMerger.feed]
  | pc :: rest, s, s', h => by
    simp only [processChains, Option.bind_eq_bind] at h
    obtain ⟨s₂, hs₂, h⟩ := Option.bind_eq_some.mp h
    obtain ⟨hm₂, hsl₂, ho₂⟩ := drainWhile_drain B sequenceNumber _ _ _ _ hs₂
    obtain ⟨hm', hsl', ho'⟩ := processChains_feed rest _ s' h
    have hrest : rest.map (PageChain.records s₂.pageBuf) = rest.map (PageChain.records s.pageBuf) :=
      List.map_congr_left fun pc _ => PageChain.records_congr hsl₂ pc
    simp only [hrest, hm₂] at hm' ho'
    refine ⟨by simp only [List.map_cons, PagePlusRecordMerger.feed, hm'], hsl'.trans hsl₂, ?_⟩
    simp only [List.map_cons, PagePlusRecordMerger.feed, ho', ho₂, List.append_assoc]

end Loops

end Treeline.Pg
