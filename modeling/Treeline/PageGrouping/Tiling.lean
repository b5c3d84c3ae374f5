import Treeline.PageGrouping.IdSafety

/-!
# A flush in the middle of a rewrite breaks the tiling

The bulk loads build a tiled store (`Treeline.Pg.Manager.Tiled`): page `0` of each index entry's
segment starts at the entry's key, and its last page ends just below the next key. `RewriteSegments`
(`src/page_grouping/manager_rewrite.cc`) does not keep this when it has to flush its window before
reading the next segment (lines 296-305). The flush writes what the builder holds with the upper
bound `index_.upper_bound(last key)` (lines 243-255) of the index as it was before the rewrite: the
base of the segment about to be read. When records of the batch that lie below that base are still
to come, the next segment written starts below it, and the two segments' pages overlap.

The segments' models are evaluated over `ℚ`, whose operations are irreducible, so the facts about
the concrete run below are decided with every definition unfolded.

## Main results

* `Treeline.Pg.reachable_pages_overlap` — a store reachable from a bulk load, through the flush
  worker and one rewrite, whose index entry `0` is followed by `280` while the entry's page ends at
  `299`.
-/

namespace Treeline.Pg

/-- Four segments of 16 pages at `0`, `100`, `200` and `300`, each holding one record at its base,
under the model that gives each page one key. -/
def tilingSegments : List Segment :=
  [⟨16, 0, [(0, [0])], some ⟨1, 0⟩⟩, ⟨16, 100, [(100, [1])], some ⟨1, 0⟩⟩,
    ⟨16, 200, [(200, [2])], some ⟨1, 0⟩⟩, ⟨16, 300, [(300, [3])], some ⟨1, 0⟩⟩]

/-- The bulk load of `tilingSegments`, after the flush worker has chained an overflow page to the
last page of the segments at `0`, `100` and `300`. Page `15` of each segment covers the keys from
its base plus 15 to the next base. -/
def tilingScenario : Manager :=
  (((bulkLoadIntoSegments tilingSegments).chainOverflow 0 ⟨⟨4, 0⟩, some ⟨1, 0⟩, false⟩ 15
    [(50, [4])]).chainOverflow 100 ⟨⟨4, 16⟩, some ⟨1, 0⟩, false⟩ 15 [(150, [5])]).chainOverflow
    300 ⟨⟨4, 48⟩, some ⟨1, 0⟩, false⟩ 15 [(350, [6])]

theorem tilingScenario_reachable : Reachable tilingScenario := by
  have h₀ : Reachable (bulkLoadIntoSegments tilingSegments) :=
    .bulkLoadSegments (fun seg hseg => by
        simp only [tilingSegments, List.mem_cons, List.mem_singleton, List.not_mem_nil,
          or_false] at hseg
        rcases hseg with rfl | rfl | rfl | rfl <;>
          exact ⟨by unfold Ascending; decide, rfl, ⟨4, by decide, rfl⟩, by decide⟩)
      (by unfold Ascending; decide) (by decide)
  unfold tilingScenario
  refine .chainOverflow (.chainOverflow (.chainOverflow h₀ ?_ ?_ ?_ ?_ ?_) ?_ ?_ ?_ ?_ ?_) ?_ ?_ ?_ ?_ ?_
  all_goals with_unfolding_all decide

/-- **A flush before a segment is read ends the flushed segment at that segment's old base.**
Rewrite the segment at `200` of `tilingScenario` with its neighbours and the batch `[(280, [9])]`,
inside the entry's range `[200, 300)`. The segments at `0`, `100` and `200` take 50 of the 64
window slots while the builder still holds their records, so the segment at `300` needs the flush
of lines 296-305. It writes `0 … 200` with the upper bound `300` of the old index. The batch record
`280` then starts the next segment, and the index becomes `0`, `280`: the pages of entry `0` end at
`299` instead of `279`, over the page of entry `280`. -/
theorem reachable_pages_overlap :
    ∃ m, Reachable m ∧ ∃ s t : SegmentInfo, m.index = [(0, s), (280, t)] ∧
      (m.readPage s.id 0).lower = 0 ∧ (m.readPage s.id (s.pageCount - 1)).upper = 299 ∧
      (m.readPage t.id 0).lower = 280 := by
  have hsome : (rewriteSegments holdAllBuilder ⟨2, 1, true⟩ tilingScenario 200 [(280, [9])]).isSome := by
    with_unfolding_all decide
  obtain ⟨⟨m, log⟩, hrun⟩ := Option.isSome_iff_exists.mp hsome
  have hbad : (rewriteSegments holdAllBuilder ⟨2, 1, true⟩ tilingScenario 200 [(280, [9])]).all
      (fun r => decide (r.1.index = [(0, ⟨⟨0, 3⟩, none, false⟩), (280, ⟨⟨0, 4⟩, none, false⟩)] ∧
        (r.1.readPage ⟨0, 3⟩ 0).lower = 0 ∧ (r.1.readPage ⟨0, 3⟩ 0).upper = 299 ∧
        (r.1.readPage ⟨0, 4⟩ 0).lower = 280)) = true := by
    with_unfolding_all decide
  rw [hrun] at hbad
  have hmem : ((200 : ℕ), (⟨⟨4, 32⟩, some ⟨1, 0⟩, false⟩ : SegmentInfo)) ∈ tilingScenario.index := by
    with_unfolding_all decide
  exact ⟨m, .rewrite holdAllBuilder_contract _ tilingScenario_reachable hmem (by unfold Ascending; decide)
    (by with_unfolding_all decide) hrun, _, _, of_decide_eq_true hbad⟩

end Treeline.Pg
