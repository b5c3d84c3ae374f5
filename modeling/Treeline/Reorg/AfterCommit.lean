import Treeline.Reorg.ReaderSafety

/-!
# The chain's interval after the commit

`ReaderSafety` shows that no reader goes wrong while the commit of `DBImpl::ReorganizeOverflowChain`
(`src/db/db_impl_reorg.cc`, lines 155-187) runs. This module shows what the commit leaves behind
once all its steps have run: every frame the model sends a key of the chain's interval to is
unfixed, holds a new page whose interval contains the key, and has no overflow link. A reader
that was interleaved with the commit under any schedule, whatever it is doing when the last step
has run, therefore answers the chain's value within three of its own steps, without chasing a
link.

The argument reads the final model off the order of the inserts: the commit inserts the new
pages' lower boundaries from the last page to the first, each below those already in, so the
model ends with the head's entry followed by the boundaries in ascending order
(`foldl_modelInsert_ascending`), and the last boundary not above a key is that of the one new
page whose interval holds it (`modelLookup_ascending`, `newPagesOf_upper`). What a reader may be
doing when the commit ends is what the reader invariant of `ReaderSafety` allows.

## Main results

* `Treeline.DBImpl.reorg_final_model` — the commit replaces the head's model entry by the new
  pages' boundaries, in ascending order, and leaves the other entries as they were.
* `Treeline.DBImpl.reorganize_model_entries` — the same for every run of the reorganization that
  returns, and a sorted model stays sorted.
* `Treeline.DBImpl.reorg_final_lookup` — the final model sends every key of the interval to an
  unfixed frame whose page contains it.
* `Treeline.DBImpl.reorg_reader_finishes` — a reader in any state the reader invariant allows
  answers the chain's value within three steps of the final buffer.
* `Treeline.DBImpl.reorganize_serves_interval` — under any schedule that runs the whole commit,
  every reader of a key of the interval answers the chain's value within three of its own steps.
-/

namespace Treeline.DBImpl

section Reorganization

variable {st : BufferState} {head : ℕ} {tl : List ℕ} (hc : ChainFixed st head tl) {r : ℕ}
  (hr : 0 < r)

include hc in
/-- The frame of the `i`-th new page ends unfixed, holding that page. -/
lemma reorg_run_frame {i : ℕ} (hi : i < (reorgPages st head tl r).length) :
    (st.run (commitSteps (head :: tl) st.nextPageId (reorgPages st head tl r))).frames
      (commitFrame (head :: tl) st.nextPageId (reorgPages st head tl r).length i) =
      ⟨(reorgPages st head tl r)[i], false⟩ := by
  rw [run_frames_filter _ _ rfl, commitSteps_filter_frame hc.nodup hc.fresh _ hi, run_commitPage_frame]

include hc in
/-- With no new page, the head ends unfixed, holding a zeroed page. -/
lemma reorg_run_frame_nil (hn : (reorgPages st head tl r).length = 0) :
    (st.run (commitSteps (head :: tl) st.nextPageId (reorgPages st head tl r))).frames head =
      ⟨Page.zero, false⟩ := by
  rw [run_frames_filter _ _ rfl, List.length_eq_zero.mp hn,
    commitSteps_nil_filter hc.nodup (List.mem_cons_self _ _)]
  simp [BufferState.run, BufferState.step, BufferState.setFrame]

include hc hr in
/-- The commit's entries rise strictly, as the new pages' lower boundaries do. -/
lemma reorg_entries_ascending :
    (commitEntries (head :: tl) st.nextPageId (reorgPages st head tl r)).Pairwise
      (fun a b => sliceCompare a.1 b.1 = .lt) := by
  obtain ⟨hR, -⟩ := pageMergeIterator_spec ((head :: tl).map fun id => (st.frames id).page)
  have hin := hc.records_contained
  refine List.pairwise_iff_getElem.mpr fun i j hi hj hij => ?_
  have hj' : j < (reorgPages st head tl r).length := by simpa using hj
  rw [getElem_commitEntries _ _ _ (by omega) hi, getElem_commitEntries _ _ _ hj' hj]
  exact newPagesOf_lower_lt hr hR (fun kv hkv => (Page.contains_iff.mp (hin kv hkv)).1)
    (fun kv hkv => (Page.contains_iff.mp (hin kv hkv)).2) hij hj'

/-- With a new page at all, the commit's first entry is the head's own. -/
lemma reorg_entries_head (hn : 0 < (reorgPages st head tl r).length) :
    ∃ G, commitEntries (head :: tl) st.nextPageId (reorgPages st head tl r) =
      ((st.frames head).page.lower, head) :: G := by
  obtain ⟨e, G, hG⟩ := List.exists_cons_of_ne_nil (List.ne_nil_of_length_pos
    (l := commitEntries (head :: tl) st.nextPageId (reorgPages st head tl r)) (by simpa using hn))
  have h0 := getElem_commitEntries (head :: tl) st.nextPageId _ hn (by simpa using hn)
  simp only [hG, List.getElem_cons_zero, commitFrame_zero] at h0
  exact ⟨G, by rw [hG, h0]; exact congrArg (fun x => (x, head) :: G) (newPagesOf_lower_zero hn)⟩

include hc hr in
/-- After the head's entry, the commit's entries rise strictly inside the chain's interval. -/
lemma reorg_entries_tail :
    (((st.frames head).page.lower, head) ::
        (commitEntries (head :: tl) st.nextPageId (reorgPages st head tl r)).tail).Pairwise
      (fun a b => sliceCompare a.1 b.1 = .lt) ∧
    ∀ e ∈ (commitEntries (head :: tl) st.nextPageId (reorgPages st head tl r)).tail,
      (st.frames head).page.contains e.1 = true := by
  rcases Nat.eq_zero_or_pos (reorgPages st head tl r).length with hn | hn
  · simp [commitEntries, List.length_eq_zero.mp hn]
  · have hasc := reorg_entries_ascending hc hr
    obtain ⟨G, hG⟩ := reorg_entries_head hn
    rw [hG] at hasc ⊢
    refine ⟨hasc, fun e he => ?_⟩
    obtain ⟨i, hi, rfl⟩ := (mem_commitEntries _ _).mp (hG ▸ List.mem_cons_of_mem _ he)
    exact (reorgPages_lower hc hr hi).1

include hc hr in
/-- **The model the commit leaves.** The commit replaces the head's entry by the new pages' lower
boundaries, in ascending order from the head's own, and leaves every other entry as it was. With
no new page the model is unchanged. -/
lemma reorg_final_model {A C : List (Slice × ℕ)}
    (hmodel : st.model = A ++ ((st.frames head).page.lower, head) :: C)
    (hA : ∀ e ∈ A, sliceCompare e.1 (st.frames head).page.lower = .lt)
    (hC : ∀ e ∈ C, ∀ k, (st.frames head).page.contains k = true → sliceCompare k e.1 = .lt) :
    (st.run (commitSteps (head :: tl) st.nextPageId (reorgPages st head tl r))).model =
      A ++ ((st.frames head).page.lower, head) ::
        (commitEntries (head :: tl) st.nextPageId (reorgPages st head tl r)).tail ++ C := by
  rw [run_model, commitSteps_inserted, hmodel]
  rcases Nat.eq_zero_or_pos (reorgPages st head tl r).length with hn | hn
  · simp [commitEntries, List.length_eq_zero.mp hn]
  · obtain ⟨hasc, hin⟩ := reorg_entries_tail hc hr
    obtain ⟨G, hG⟩ := reorg_entries_head hn
    rw [hG, List.tail_cons] at hasc hin ⊢
    rw [List.reverse_cons, List.foldl_append, foldl_modelInsert_ascending hA hC
      (List.pairwise_cons.mp hasc).2 fun e he => ⟨hin e he, (List.pairwise_cons.mp hasc).1 e he⟩]
    exact modelInsert_lower_self hA G

include hc hr in
/-- **The final lookup.** After the commit, the model sends every key of the chain's interval to
the head or a new page's frame, whose page contains the key: the last boundary not above the key
is the lower boundary of the page whose interval holds it, and the next one is its upper. -/
lemma reorg_final_lookup {k : Slice} (hk : (st.frames head).page.contains k = true) :
    ∃ id, modelLookup (st.run (commitSteps (head :: tl) st.nextPageId (reorgPages st head tl r))).model
        k = some id ∧
      (id = head ∨ ∃ i < (reorgPages st head tl r).length,
        id = commitFrame (head :: tl) st.nextPageId (reorgPages st head tl r).length i) ∧
      ((st.run (commitSteps (head :: tl) st.nextPageId (reorgPages st head tl r))).frames
        id).page.contains k = true := by
  obtain ⟨A, C, hmodel, hA, hC⟩ := hc.model
  rw [reorg_final_model hc hr hmodel hA hC]
  rcases Nat.eq_zero_or_pos (reorgPages st head tl r).length with hn | hn
  · -- no page: the model still sends the key to the head, which is zeroed
    obtain ⟨i, hi, hl, -⟩ := modelLookup_ascending (G := []) hC (List.pairwise_singleton _ _) hk
    refine ⟨head, by simpa [commitEntries, List.length_eq_zero.mp hn] using hl, .inl rfl, ?_⟩
    rw [reorg_run_frame_nil hc hn]
    exact Page.contains_iff.mpr ⟨sliceCompare_nil_ne_lt k, .inl rfl⟩
  · -- the page whose interval holds the key
    have hasc := reorg_entries_ascending hc hr
    obtain ⟨G, hG⟩ := reorg_entries_head hn
    have hlen : G.length + 1 = (reorgPages st head tl r).length := by
      simpa [hG] using length_commitEntries (head :: tl) st.nextPageId (reorgPages st head tl r)
    have hE : ∀ i (hi : i < (reorgPages st head tl r).length) (h : i < G.length + 1),
        (((st.frames head).page.lower, head) :: G)[i] = ((reorgPages st head tl r)[i].lower,
          commitFrame (head :: tl) st.nextPageId (reorgPages st head tl r).length i) := fun i hi h => by
      have := getElem_commitEntries (head :: tl) st.nextPageId _ hi (by simpa using hi)
      simp only [hG] at this
      exact this
    rw [hG] at hasc
    rw [hG, List.tail_cons]
    obtain ⟨i, hi, hl, hki, hnext⟩ := modelLookup_ascending (A := A) hC hasc hk
    rw [hE i (by omega) hi] at hl hki
    have hi' : i < (reorgPages st head tl r).length := by omega
    refine ⟨_, hl, .inr ⟨i, hi', rfl⟩, ?_⟩
    rw [reorg_run_frame hc hi']
    refine newPagesOf_contains hr hi' hki (fun h => ?_) (Page.contains_iff.mp hk).2
    have h' : i + 1 < (reorgPages st head tl r).length := h
    simpa only [hE (i + 1) h' (by omega)] using hnext (by omega)

include hc in
/-- Every frame a reader may be sent to ends unfixed. -/
lemma reorg_run_unfixed {id : ℕ} (hid : id = head ∨ ∃ i < (reorgPages st head tl r).length,
      id = commitFrame (head :: tl) st.nextPageId (reorgPages st head tl r).length i) :
    ((st.run (commitSteps (head :: tl) st.nextPageId (reorgPages st head tl r))).frames id).exclusive =
      false := by
  rcases Waitable.cases hid with ⟨i, hi, rfl⟩ | ⟨hn, rfl⟩
  · rw [reorg_run_frame hc hi]
  · rw [reorg_run_frame_nil hc hn]

/-- Once the commit has run, every frame left for the interval may be waited on. -/
lemma reorg_waitable_final {id : ℕ} (hid : id = head ∨ ∃ i < (reorgPages st head tl r).length,
      id = commitFrame (head :: tl) st.nextPageId (reorgPages st head tl r).length i) :
    Waitable head (head :: tl) st.nextPageId (reorgPages st head tl r).length id
      (commitSteps (head :: tl) st.nextPageId (reorgPages st head tl r)) := by
  refine ⟨hid, ?_⟩
  rcases Waitable.cases hid with ⟨i, hi, rfl⟩ | ⟨-, rfl⟩
  · have he : ((reorgPages st head tl r)[i].lower,
        commitFrame (head :: tl) st.nextPageId (reorgPages st head tl r).length i) ∈
        (commitSteps (head :: tl) st.nextPageId (reorgPages st head tl r)).filterMap Step.inserted := by
      rw [commitSteps_inserted, List.mem_reverse]
      exact (mem_commitEntries _ _).mpr ⟨i, hi, rfl⟩
    obtain ⟨s, hs, hse⟩ := List.mem_filterMap.mp he
    exact .inr ⟨_, Step.eq_of_inserted hse ▸ hs⟩
  · exact .inl (List.mem_cons_self _ _)

include hc hr in
/-- A reader at a frame the commit leaves for the interval, whose page holds its key, finishes
with the chain's value in one step. -/
lemma reorg_step_fix {k : Slice} (hk : (st.frames head).page.contains k = true) {id : ℕ}
    (hid : id = head ∨ ∃ i < (reorgPages st head tl r).length,
      id = commitFrame (head :: tl) st.nextPageId (reorgPages st head tl r).length i)
    (hcont : ((st.run (commitSteps (head :: tl) st.nextPageId (reorgPages st head tl r))).frames
      id).page.contains k = true) :
    Lookup.step (st.run (commitSteps (head :: tl) st.nextPageId (reorgPages st head tl r))) k (.fix id) =
      .done (chainValue st (head :: tl) k) := by
  obtain ⟨hov, hsearch⟩ := reorg_final hc hr _ id (reorg_waitable_final hid)
  simp only [Lookup.step, reorg_run_unfixed hc hid, hcont, Lookup.afterSearch, hsearch k hk hcont, hov,
    if_true, Bool.false_eq_true, if_false]
  cases chainValue st (head :: tl) k <;> rfl

include hc hr in
/-- A reader that resolves its key after the commit is sent to a frame that answers it. -/
lemma reorg_step_resolve {k : Slice} (hk : (st.frames head).page.contains k = true) :
    ∃ id, Lookup.step (st.run (commitSteps (head :: tl) st.nextPageId (reorgPages st head tl r))) k
        .resolve = .fix id ∧
      Lookup.step (st.run (commitSteps (head :: tl) st.nextPageId (reorgPages st head tl r))) k
        (.fix id) = .done (chainValue st (head :: tl) k) := by
  obtain ⟨id, hlook, hid, hcont⟩ := reorg_final_lookup hc hr hk
  exact ⟨id, by simp [Lookup.step, hlook], reorg_step_fix hc hr hk hid hcont⟩

include hc hr in
/-- **A reader after the commit.** Whatever a reader of a key of the interval was doing when the
commit ended, as the reader invariant allows, it answers the chain's value within three of its
own steps: a waiting reader is either answered by its frame or sent back to the model, which
sends it to the frame that answers it. -/
lemma reorg_reader_finishes {k : Slice} (hk : (st.frames head).page.contains k = true) :
    ∀ {l : Lookup}, ReaderOK (Waitable head (head :: tl) st.nextPageId (reorgPages st head tl r).length)
        (commitSteps (head :: tl) st.nextPageId (reorgPages st head tl r)) (chainValue st (head :: tl) k) l →
      ((l.step (st.run (commitSteps (head :: tl) st.nextPageId (reorgPages st head tl r))) k).step
          (st.run (commitSteps (head :: tl) st.nextPageId (reorgPages st head tl r))) k).step
          (st.run (commitSteps (head :: tl) st.nextPageId (reorgPages st head tl r))) k =
        .done (chainValue st (head :: tl) k)
  | .resolve, _ => by
    obtain ⟨id, h1, h2⟩ := reorg_step_resolve hc hr hk
    rw [h1, h2]
    rfl
  | .fix id, hW => by
    by_cases hcont : ((st.run (commitSteps (head :: tl) st.nextPageId (reorgPages st head tl r))).frames
        id).page.contains k = true
    · rw [reorg_step_fix hc hr hk hW.1 hcont]
      rfl
    · obtain ⟨id', h1, h2⟩ := reorg_step_resolve hc hr hk
      have : Lookup.step (st.run (commitSteps (head :: tl) st.nextPageId (reorgPages st head tl r))) k
          (.fix id) = .resolve := by
        simp [Lookup.step, reorg_run_unfixed hc hW.1, hcont]
      rw [this, h1, h2]
  | .chase _, h => h.elim
  | .done _, h => by
    subst h
    rfl

end Reorganization

/-- **The reorganization rewrites only the chain's part of the model.** On a chain of `2 …
max_reorg_fanout` frames as `FixOverflowChain` returns it, every run of `ReorganizeOverflowChain`
that returns commits new pages whose lower boundaries, each mapped to the frame that receives its
page, follow the head's entry in strictly ascending order inside the chain's interval; every
other entry of the model is left as it was, and a sorted model stays sorted. -/
theorem reorganize_model_entries {P : PageLayout} {opts : Options} {st : BufferState} {head : ℕ}
    {tl : List ℕ} {pageFillPct fuel : ℕ} {run : ReorgRun} (hc : ChainFixed st head tl)
    (h : reorganizeOverflowChain P opts st (head :: tl) pageFillPct fuel = some run)
    (h2 : 2 ≤ tl.length + 1) (hfan : tl.length + 1 ≤ opts.maxReorgFanout) :
    ∃ A C newPages, st.model = A ++ ((st.frames head).page.lower, head) :: C ∧
      run.steps = commitSteps (head :: tl) st.nextPageId newPages ∧
      (st.run run.steps).model = A ++ ((st.frames head).page.lower, head) ::
        (commitEntries (head :: tl) st.nextPageId newPages).tail ++ C ∧
      (((st.frames head).page.lower, head) ::
        (commitEntries (head :: tl) st.nextPageId newPages).tail).Pairwise
          (fun a b => sliceCompare a.1 b.1 = .lt) ∧
      (∀ e ∈ (commitEntries (head :: tl) st.nextPageId newPages).tail,
        (st.frames head).page.contains e.1 = true) ∧
      (st.model.Pairwise (fun a b => sliceCompare a.1 b.1 = .lt) →
        (st.run run.steps).model.Pairwise (fun a b => sliceCompare a.1 b.1 = .lt)) := by
  obtain ⟨r, hr, hsteps⟩ := reorganizeOverflowChain_commit h h2 hfan
  change run.steps = commitSteps (head :: tl) st.nextPageId (reorgPages st head tl r) at hsteps
  obtain ⟨A, C, hmodel, hA, hC⟩ := hc.model
  obtain ⟨hasc, hin⟩ := reorg_entries_tail hc hr
  have hfinal := reorg_final_model hc hr hmodel hA hC
  rw [← hsteps] at hfinal
  refine ⟨A, C, _, hmodel, hsteps, hfinal, hasc, hin, fun hs => ?_⟩
  rw [hfinal]
  exact pairwise_shape hC (hmodel ▸ hs) hasc hin

/-- On the chain of `threeRecordChainState`, whose model is the single entry `([1], 0)`, the
reorganization leaves the boundaries of its three new pages, each mapped to its frame. -/
theorem reorganize_model_entries_scenario :
    ∃ run, ChainFixed threeRecordChainState 0 [1] ∧
      reorganizeOverflowChain ⟨160, 0⟩ ⟨4, 40, 8⟩ threeRecordChainState [0, 1] 30 1 = some run ∧
      (threeRecordChainState.run run.steps).model = [([1], 0), ([1, 2], 1), ([1, 3], 2)] ∧
      ∃ A C newPages, threeRecordChainState.model =
          A ++ ((threeRecordChainState.frames 0).page.lower, 0) :: C ∧
        run.steps = commitSteps [0, 1] threeRecordChainState.nextPageId newPages ∧
        (threeRecordChainState.run run.steps).model = A ++ ((threeRecordChainState.frames 0).page.lower, 0) ::
          (commitEntries [0, 1] threeRecordChainState.nextPageId newPages).tail ++ C ∧
        (((threeRecordChainState.frames 0).page.lower, 0) ::
          (commitEntries [0, 1] threeRecordChainState.nextPageId newPages).tail).Pairwise
            (fun a b => sliceCompare a.1 b.1 = .lt) ∧
        (∀ e ∈ (commitEntries [0, 1] threeRecordChainState.nextPageId newPages).tail,
          (threeRecordChainState.frames 0).page.contains e.1 = true) ∧
        (threeRecordChainState.model.Pairwise (fun a b => sliceCompare a.1 b.1 = .lt) →
          (threeRecordChainState.run run.steps).model.Pairwise (fun a b => sliceCompare a.1 b.1 = .lt)) := by
  have hc := chainFixed_threeRecordChainState
  have hrun := reorganizeOverflowChain_threeRecordChainState
  exact ⟨_, hc, hrun, by decide, reorganize_model_entries hc hrun (by decide) (by decide)⟩

/-- **After the commit, the interval is served.** Let the reorganization's steps run interleaved
with readers of the chain, each resolving its key or waiting on the head, under any schedule that
performs all the steps. The buffer is then the one the commit leaves, and every reader of a key of
the chain's interval, whatever it is doing, finishes within three of its own steps with the value
the chain held for its key. -/
theorem reorganize_serves_interval {P : PageLayout} {opts : Options} {st : BufferState} {head : ℕ}
    {tl : List ℕ} {pageFillPct fuel : ℕ} {run : ReorgRun} (hc : ChainFixed st head tl)
    (h : reorganizeOverflowChain P opts st (head :: tl) pageFillPct fuel = some run)
    (h2 : 2 ≤ tl.length + 1) (hfan : tl.length + 1 ≤ opts.maxReorgFanout)
    (readers : List (Slice × Lookup)) (hreaders : ∀ x ∈ readers, x.2 = .resolve ∨ x.2 = .fix head)
    (schedule : List Turn) (hend : (System.run ⟨st, run.steps, readers⟩ schedule).pending = []) :
    (System.run ⟨st, run.steps, readers⟩ schedule).buffer = st.run run.steps ∧
      ∀ x ∈ (System.run ⟨st, run.steps, readers⟩ schedule).readers,
        (st.frames head).page.contains x.1 = true →
        ((x.2.step (st.run run.steps) x.1).step (st.run run.steps) x.1).step (st.run run.steps) x.1 =
          .done (chainValue st (head :: tl) x.1) := by
  obtain ⟨r, hr, hsteps⟩ := reorganizeOverflowChain_commit h h2 hfan
  change run.steps = commitSteps (head :: tl) st.nextPageId (reorgPages st head tl r) at hsteps
  rw [hsteps] at hend ⊢
  have h₀ : SystemOK st (commitSteps (head :: tl) st.nextPageId (reorgPages st head tl r))
      (fun k => (st.frames head).page.contains k = true)
      (Waitable head (head :: tl) st.nextPageId (reorgPages st head tl r).length)
      (chainValue st (head :: tl))
      ⟨st, commitSteps (head :: tl) st.nextPageId (reorgPages st head tl r), readers⟩ :=
    ⟨[], rfl, rfl, fun x hx _ => by
    rcases hreaders x hx with h | h <;> rw [h]
    · trivial
    · exact ⟨.inl rfl, .inl (List.mem_cons_self _ _)⟩⟩
  obtain ⟨p, hp, hbuf, hok⟩ := SystemOK.run (reorg_commitSafe hc hr) schedule h₀
  rw [hend, List.append_nil] at hp
  rw [← hp] at hbuf hok
  exact ⟨hbuf, fun x hx hk => reorg_reader_finishes hc hr hk (hok x hx hk)⟩

/-- On the chain of `threeRecordChainState`, a reader of `[1, 3]` that waits on the head and one
of `[1, 2]` that resolves its key midway are both answered once the commit's ten steps are done:
the first goes back to the model, which now sends it to the new page `2`. -/
theorem reorganize_serves_interval_scenario :
    ∃ run, ChainFixed threeRecordChainState 0 [1] ∧
      reorganizeOverflowChain ⟨160, 0⟩ ⟨4, 40, 8⟩ threeRecordChainState [0, 1] 30 1 = some run ∧
      (System.run ⟨threeRecordChainState, run.steps, [([1, 3], .fix 0), ([1, 2], .resolve)]⟩
          [.read 0, .commit, .commit, .commit, .commit, .read 1, .commit, .commit, .commit, .commit,
            .commit, .commit]).pending = [] ∧
      (System.run ⟨threeRecordChainState, run.steps, [([1, 3], .fix 0), ([1, 2], .resolve)]⟩
          [.read 0, .commit, .commit, .commit, .commit, .read 1, .commit, .commit, .commit, .commit,
            .commit, .commit]).buffer = threeRecordChainState.run run.steps ∧
      ∀ x ∈ (System.run ⟨threeRecordChainState, run.steps, [([1, 3], .fix 0), ([1, 2], .resolve)]⟩
          [.read 0, .commit, .commit, .commit, .commit, .read 1, .commit, .commit, .commit, .commit,
            .commit, .commit]).readers,
        (threeRecordChainState.frames 0).page.contains x.1 = true →
        ((x.2.step (threeRecordChainState.run run.steps) x.1).step (threeRecordChainState.run run.steps)
            x.1).step (threeRecordChainState.run run.steps) x.1 =
          .done (chainValue threeRecordChainState [0, 1] x.1) := by
  have hc := chainFixed_threeRecordChainState
  have hrun := reorganizeOverflowChain_threeRecordChainState
  refine ⟨_, hc, hrun, ?hend,
    reorganize_serves_interval hc hrun (by decide) (by decide) _ (by decide) _ ?hend⟩
  rfl

end Treeline.DBImpl
