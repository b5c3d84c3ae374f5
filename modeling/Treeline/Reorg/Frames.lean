import Mathlib.Data.List.Nodup
import Treeline.Reorg.Chain

/-!
# Every frame of a reorganization is unfixed once

`DBImpl::ReorganizeOverflowChain` (`src/db/db_impl_reorg.cc`) starts from a chain whose `c`
frames `FixOverflowChain` fixed, and must unfix each of them, and each frame it fixes itself for
a page it allocates, exactly once on every path (the spec's scoped frame acquisition, §8). With
`c = 1` (lines 47-50) or `c > max_reorg_fanout` (lines 53-65) it unfixes the chain's frames
clean and changes nothing. Otherwise the commit loop (lines 155-172) writes the `n` new pages
from the last to the first into `chain[i]` for `i < c` and into freshly allocated frames for
`i ≥ c`, unfixing each dirty, and the surplus loop (lines 178-181) zeroes `chain[n … c-1]` and
unfixes them dirty.

## Main definitions

* `Treeline.DBImpl.Step.unfixed`, `Step.allocated`, `Step.written` — what a step unfixes, fixes
  fresh, and writes.
* `Treeline.DBImpl.commitFrame` — the frame page `i` of the new pages is committed to.

## Main results

* `Treeline.DBImpl.reorganizeOverflowChain_cases` — the paths of the procedure.
* `Treeline.DBImpl.reorganize_unfixes_each_frame_once` — every chain frame and every allocated
  frame is unfixed exactly once; clean with nothing changed on the early exits, dirty after every
  write on the success path.
-/

namespace Treeline.DBImpl

/-- The frame a step unfixes, with whether it is unfixed dirty. -/
def Step.unfixed : Step → List (ℕ × Bool)
  | .unfix id dirty => [(id, dirty)]
  | _ => []

/-- The frame a step allocates and fixes. -/
def Step.allocated : Step → List ℕ
  | .allocFix id => [id]
  | _ => []

/-- The frame whose bytes a step changes: a `memcpy` or a `memset`. -/
def Step.written : Step → List ℕ
  | .write id _ | .zero id => [id]
  | _ => []

/-- The frame page `i` of `n` new pages is committed to: `chain[i]`, or the page allocated for
it. -/
def commitFrame (chain : List ℕ) (nextId n i : ℕ) : ℕ :=
  if h : i < chain.length then chain[i] else nextId + (n - 1 - i)

/-! ## The paths -/

/-- **The paths of `ReorganizeOverflowChain`.** A run that returns either is an early exit, with
one clean unfix per chain frame, or commits new pages into a chain of `2 … max_reorg_fanout`
frames. -/
lemma reorganizeOverflowChain_cases {P : PageLayout} {opts : Options} {st : BufferState}
    {chain : List ℕ} {pageFillPct fuel : ℕ} {run : ReorgRun}
    (h : reorganizeOverflowChain P opts st chain pageFillPct fuel = some run) :
    ((chain.length = 1 ∨ opts.maxReorgFanout < chain.length) ∧
        run.steps = chain.map (Step.unfix · false)) ∨
      (2 ≤ chain.length ∧ chain.length ≤ opts.maxReorgFanout ∧
        ∃ newPages, run.steps = commitSteps chain st.nextPageId newPages) := by
  cases chain with
  | nil => cases h
  | cons head tail =>
    simp only [reorganizeOverflowChain] at h
    split_ifs at h with h1 h2
    · obtain rfl := Option.some.inj h
      obtain rfl : tail = [] := List.length_eq_zero.mp (by simpa using h1)
      exact .inl ⟨.inl h1, rfl⟩
    · obtain rfl := Option.some.inj h
      exact .inl ⟨.inr h2, rfl⟩
    · simp only [Option.bind_eq_bind] at h
      obtain ⟨dist, -, h⟩ := Option.bind_eq_some.mp h
      obtain ⟨n, -, h⟩ := Option.bind_eq_some.mp h
      obtain ⟨newPages, -, h⟩ := Option.bind_eq_some.mp h
      obtain rfl := Option.some.inj h
      exact .inr ⟨by simp only [List.length_cons] at h1 ⊢; omega, by simpa using h2, newPages, rfl⟩

/-! ## The early exits -/

lemma flatMap_singleton_map {α β : Type} (f : α → β) (l : List α) :
    (l.flatMap fun x => [f x]) = l.map f := by
  induction l <;> simp [*]

/-- Unfixing frames changes no page and no model entry. -/
lemma BufferState.run_unfix (d : Bool) : ∀ (ids : List ℕ) (st : BufferState),
    (∀ id, ((st.run (ids.map (Step.unfix · d))).frames id).page = (st.frames id).page) ∧
      (st.run (ids.map (Step.unfix · d))).model = st.model
  | [], _ => ⟨fun _ => rfl, rfl⟩
  | x :: ids, st => by
    obtain ⟨h1, h2⟩ := BufferState.run_unfix d ids (st.step (.unfix x d))
    refine ⟨fun id => (h1 id).trans ?_, h2⟩
    by_cases h : id = x <;> simp [BufferState.step, BufferState.setFrame, h]

/-! ## The commit -/

section Commit

variable (chain : List ℕ) (nextId n : ℕ)

lemma commitPage_unfixed (i : ℕ) (p : Page) :
    (commitPage chain nextId n i p).flatMap Step.unfixed = [(commitFrame chain nextId n i, true)] := by
  unfold commitPage commitFrame; split_ifs <;> rfl

lemma commitPage_written (i : ℕ) (p : Page) :
    (commitPage chain nextId n i p).flatMap Step.written = [commitFrame chain nextId n i] := by
  unfold commitPage commitFrame; split_ifs <;> rfl

lemma commitPage_allocated (i : ℕ) (p : Page) :
    (commitPage chain nextId n i p).flatMap Step.allocated =
      if chain.length ≤ i then [nextId + (n - 1 - i)] else [] := by
  unfold commitPage; split_ifs <;> first | rfl | omega

/-- The surplus loop zeroes and unfixes each frame dirty. -/
lemma surplus_steps (l : List ℕ) :
    (l.flatMap fun id => [Step.zero id, .unfix id true]).flatMap Step.unfixed = l.map (·, true) ∧
      (l.flatMap fun id => [Step.zero id, .unfix id true]).flatMap Step.written = l ∧
      (l.flatMap fun id => [Step.zero id, .unfix id true]).flatMap Step.allocated = [] := by
  induction l with
  | nil => simp
  | cons x l ih => simp [ih, Step.unfixed, Step.written, Step.allocated]

/-- The commit loop, over the new pages from the last to the first. -/
lemma enum_reverse_map_fst (newPages : List Page) :
    newPages.enum.reverse.map Prod.fst = (List.range newPages.length).reverse := by
  rw [List.map_reverse, List.enum_map_fst]

/-- The frames the commit unfixes, all dirty: those of the new pages from the last to the first,
then the surplus chain frames. -/
lemma commitSteps_unfixed (newPages : List Page) :
    (commitSteps chain nextId newPages).flatMap Step.unfixed =
      (((List.range newPages.length).map (commitFrame chain nextId newPages.length)).reverse ++
        chain.drop newPages.length).map (·, true) := by
  rw [commitSteps, List.flatMap_append, List.flatMap_assoc, (surplus_steps _).1]
  simp only [commitPage_unfixed, flatMap_singleton_map, List.map_append, List.map_reverse,
    List.map_map]
  rw [← List.enum_map_fst, List.map_map]
  rfl

/-- The commit writes the frames it unfixes, and no other. -/
lemma commitSteps_written (newPages : List Page) :
    (commitSteps chain nextId newPages).flatMap Step.written =
      ((List.range newPages.length).map (commitFrame chain nextId newPages.length)).reverse ++
        chain.drop newPages.length := by
  rw [commitSteps, List.flatMap_append, List.flatMap_assoc, (surplus_steps _).2.1]
  simp only [commitPage_written, flatMap_singleton_map, List.map_reverse]
  rw [← List.enum_map_fst, List.map_map]
  rfl

/-- The commit allocates a frame for each new page past the chain. -/
lemma commitSteps_allocated (newPages : List Page) :
    (commitSteps chain nextId newPages).flatMap Step.allocated =
      ((List.range newPages.length).flatMap fun i =>
        if chain.length ≤ i then [nextId + (newPages.length - 1 - i)] else []).reverse := by
  rw [commitSteps, List.flatMap_append, List.flatMap_assoc, (surplus_steps _).2.2, List.append_nil]
  simp only [commitPage_allocated]
  rw [← List.flatMap_map Prod.fst
      (fun i => if chain.length ≤ i then [nextId + (newPages.length - 1 - i)] else []),
    enum_reverse_map_fst, List.reverse_flatMap]
  exact List.flatMap_congr fun i _ => by dsimp only [Function.comp]; split_ifs <;> rfl

/-- New pages that fit in the chain go to its first frames. -/
lemma map_range_commitFrame_of_le (h : n ≤ chain.length) :
    (List.range n).map (commitFrame chain nextId n) = chain.take n := by
  refine List.ext_getElem (by simp [h]) fun i h₁ h₂ => ?_
  simp only [List.length_map, List.length_range] at h₁
  simp [commitFrame, show i < chain.length by omega]

/-- New pages past the chain go to the chain's frames, then to the allocated ones. -/
lemma map_range_commitFrame_of_ge (h : chain.length ≤ n) :
    (List.range n).map (commitFrame chain nextId n) =
      chain ++ (List.range (n - chain.length)).map fun j => nextId + (n - 1 - (chain.length + j)) := by
  conv_lhs => rw [show n = chain.length + (n - chain.length) by omega, List.range_add]
  rw [List.map_append, List.map_map, Nat.add_sub_cancel' h]
  congr 1
  · refine List.ext_getElem (by simp) fun i h₁ _ => ?_
    simp only [List.length_map, List.length_range] at h₁
    simp [commitFrame, h₁]
  · exact List.map_congr_left fun j _ => by simp [commitFrame]

/-- The allocated frames: one per new page past the chain. -/
lemma flatMap_range_allocated (h : chain.length ≤ n) :
    ((List.range n).flatMap fun i => if chain.length ≤ i then [nextId + (n - 1 - i)] else []) =
      (List.range (n - chain.length)).map fun j => nextId + (n - 1 - (chain.length + j)) := by
  conv_lhs => rw [show n = chain.length + (n - chain.length) by omega, List.range_add]
  rw [List.flatMap_append, List.flatMap_map, Nat.add_sub_cancel' h,
    List.flatMap_eq_nil_iff.mpr fun i hi => if_neg (by simpa using hi), List.nil_append]
  rw [← flatMap_singleton_map]
  exact List.flatMap_congr fun j _ => if_pos (by omega)

lemma flatMap_range_allocated_of_le (h : n ≤ chain.length) :
    ((List.range n).flatMap fun i => if chain.length ≤ i then [nextId + (n - 1 - i)] else []) = [] :=
  List.flatMap_eq_nil_iff.mpr fun i hi => if_neg (by simp at hi; omega)

end Commit

/-! ## Every frame unfixed once -/

/-- **Every frame is unfixed exactly once.** For a chain of distinct frames below the next page
id the file manager hands out, every run of `ReorganizeOverflowChain` that returns unfixes each
chain frame and each frame it allocates exactly once, and no other. On the two early exits
(`c = 1`, and `c > max_reorg_fanout`) every unfix is clean and no page and no model entry
changes. On the success path, whatever the number of new pages, every unfix is dirty, and every
frame whose bytes were written is among them. -/
theorem reorganize_unfixes_each_frame_once {P : PageLayout} {opts : Options} {st : BufferState}
    {chain : List ℕ} {pageFillPct fuel : ℕ} {run : ReorgRun} (hnd : chain.Nodup)
    (hfresh : ∀ id ∈ chain, id < st.nextPageId)
    (h : reorganizeOverflowChain P opts st chain pageFillPct fuel = some run) :
    ((run.steps.flatMap Step.unfixed).map Prod.fst).Perm
        (chain ++ run.steps.flatMap Step.allocated) ∧
      (chain ++ run.steps.flatMap Step.allocated).Nodup ∧
      (chain.length = 1 ∨ opts.maxReorgFanout < chain.length →
        (∀ x ∈ run.steps.flatMap Step.unfixed, x.2 = false) ∧
        (∀ id, ((st.run run.steps).frames id).page = (st.frames id).page) ∧
        (st.run run.steps).model = st.model) ∧
      (2 ≤ chain.length → chain.length ≤ opts.maxReorgFanout →
        (∀ x ∈ run.steps.flatMap Step.unfixed, x.2 = true) ∧
        ∀ id ∈ run.steps.flatMap Step.written, (id, true) ∈ run.steps.flatMap Step.unfixed) := by
  rcases reorganizeOverflowChain_cases h with ⟨hpath, hsteps⟩ | ⟨h2, hfan, newPages, hsteps⟩
  · -- an early exit: one clean unfix per chain frame
    have hU : run.steps.flatMap Step.unfixed = chain.map (·, false) := by
      rw [hsteps, List.flatMap_map]; exact flatMap_singleton_map _ _
    have hA : run.steps.flatMap Step.allocated = [] := by
      rw [hsteps, List.flatMap_map]; exact List.flatMap_eq_nil_iff.mpr fun _ _ => rfl
    obtain ⟨hpage, hmodel⟩ := BufferState.run_unfix false chain st
    refine ⟨by simp [hU, hA, Function.comp_def], by simpa [hA] using hnd,
      fun _ => ⟨?_, hsteps ▸ hpage, hsteps ▸ hmodel⟩, fun h2 hfan => by omega⟩
    intro x hx
    rw [hU] at hx
    obtain ⟨_, -, rfl⟩ := List.mem_map.mp hx
    rfl
  · -- the commit
    have hW := commitSteps_written chain st.nextPageId newPages
    have hU : run.steps.flatMap Step.unfixed = (run.steps.flatMap Step.written).map (·, true) := by
      rw [hsteps, hW, commitSteps_unfixed]
    have hUfst : (run.steps.flatMap Step.unfixed).map Prod.fst = run.steps.flatMap Step.written := by
      rw [hU, List.map_map]; exact List.map_id _
    have hA := commitSteps_allocated chain st.nextPageId newPages
    rw [← hsteps] at hW hA
    refine ⟨?_, ?_, fun hp => by omega, fun _ _ => ⟨fun x hx => ?_, fun id hid => ?_⟩⟩
    · -- the unfixed frames are the chain's and the allocated ones
      rw [hUfst, hW, hA]
      rcases le_total newPages.length chain.length with hle | hge
      · rw [map_range_commitFrame_of_le chain _ _ hle, flatMap_range_allocated_of_le chain _ _ hle,
          List.reverse_nil, List.append_nil]
        exact ((List.reverse_perm _).append_right _).trans (by rw [List.take_append_drop])
      · rw [map_range_commitFrame_of_ge chain _ _ hge, flatMap_range_allocated chain _ _ hge,
          List.drop_eq_nil_of_le hge, List.append_nil]
        exact ((List.reverse_perm _).trans ((List.reverse_perm _).symm.append_left chain))
    · -- the chain's frames and the allocated ones are distinct
      rw [hA]
      rcases le_total newPages.length chain.length with hle | hge
      · simpa [flatMap_range_allocated_of_le chain _ _ hle] using hnd
      · rw [flatMap_range_allocated chain _ _ hge, List.nodup_append]
        refine ⟨hnd, List.nodup_reverse.mpr ((List.nodup_range _).map_on fun i hi j hj hij => ?_),
          fun a ha hb => ?_⟩
        · simp only [List.mem_range] at hi hj; omega
        · obtain ⟨j, -, rfl⟩ := List.mem_map.mp (List.mem_reverse.mp hb)
          have := hfresh _ ha; omega
    · rw [hU] at hx
      obtain ⟨_, -, rfl⟩ := List.mem_map.mp hx
      rfl
    · rw [hU]; exact List.mem_map_of_mem _ hid

/-- A chain of two exclusively fixed pages `0 → 1` over `[[1], [2])` holding three records, with
the model mapping `[1]` to the head. Its records fit its pages: with 40-byte records on 160-byte
pages, the sizing estimate is two records a page, four for the chain. -/
def threeRecordChainState : BufferState :=
  ⟨fun id => if id = 0 then ⟨⟨[1], [2], [([1, 1], []), ([1, 3], [])], some 1⟩, true⟩
    else ⟨⟨[1], [2], [([1, 2], [])], none⟩, true⟩, [([1], 0)], 2⟩

/-- At a fill percentage of `30`, one record per page, the three records go to three pages: the
two chain frames and one frame allocated as page `2`, each unfixed once, dirty. Both assertions
(lines 121 and 135) hold. -/
theorem reorganize_unfixes_each_frame_once_scenario :
    ∃ run, [0, 1].Nodup ∧ (∀ id ∈ [0, 1], id < threeRecordChainState.nextPageId) ∧
      reorganizeOverflowChain ⟨160, 0⟩ ⟨4, 40, 8⟩ threeRecordChainState [0, 1] 30 1 = some run ∧
      run.steps.flatMap Step.allocated = [2] ∧
      ((run.steps.flatMap Step.unfixed).map Prod.fst).Perm ([0, 1] ++ run.steps.flatMap Step.allocated) ∧
      ([0, 1] ++ run.steps.flatMap Step.allocated).Nodup ∧
      ([0, 1].length = 1 ∨ (4 : ℕ) < [0, 1].length →
        (∀ x ∈ run.steps.flatMap Step.unfixed, x.2 = false) ∧
        (∀ id, ((threeRecordChainState.run run.steps).frames id).page =
          (threeRecordChainState.frames id).page) ∧
        (threeRecordChainState.run run.steps).model = threeRecordChainState.model) ∧
      (2 ≤ [0, 1].length → [0, 1].length ≤ 4 →
        (∀ x ∈ run.steps.flatMap Step.unfixed, x.2 = true) ∧
        ∀ id ∈ run.steps.flatMap Step.written, (id, true) ∈ run.steps.flatMap Step.unfixed) := by
  have hnd : [0, 1].Nodup := by decide
  have hfresh : ∀ id ∈ [0, 1], id < threeRecordChainState.nextPageId := by decide
  have hrun : reorganizeOverflowChain ⟨160, 0⟩ ⟨4, 40, 8⟩ threeRecordChainState [0, 1] 30 1 =
      some ⟨.ok, [.allocFix 2, .write 2 ⟨[1, 3], [2], [([1, 3], [])], none⟩, .insert [1, 3] 2,
        .unfix 2 true, .write 1 ⟨[1, 2], [1, 3], [([1, 2], [])], none⟩, .insert [1, 2] 1,
        .unfix 1 true, .write 0 ⟨[1], [1, 2], [([1, 1], [])], none⟩, .insert [1] 0, .unfix 0 true],
        [(121, true), (135, true)]⟩ := by decide
  exact ⟨_, hnd, hfresh, hrun, rfl, reorganize_unfixes_each_frame_once hnd hfresh hrun⟩

end Treeline.DBImpl
