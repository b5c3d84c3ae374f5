import Treeline.Reorg.Frames
import Treeline.Reorg.Passes

/-!
# The commit of a reorganization, frame by frame

The commit loop of `DBImpl::ReorganizeOverflowChain` (`src/db/db_impl_reorg.cc`, lines 155-187)
writes the new pages from the last to the first, each into its frame, inserting the page's lower
boundary into the model before it unfixes the frame, and then zeroes and unfixes the surplus
frames. This module says what any prefix of those steps has done: to a frame, only the steps on
that frame count, and for each frame they are a short block that keeps the frame fixed
exclusively until its last step; to the model, only the insertions count, and inserting
boundaries of the chain's interval keeps every other entry where it was.

## Main definitions

* `Treeline.DBImpl.Step.id`, `Step.inserted` — the frame a step acts on, and the model entry it
  inserts.
* `Treeline.DBImpl.commitEntries` — the entries a commit inserts, in page order.

## Main results

* `Treeline.DBImpl.run_frames_filter`, `run_model` — a frame after a run depends only on the
  run's steps on it, and the model only on the run's insertions.
* `Treeline.DBImpl.run_prefix_frame` — along the steps on a frame that end in its unfix, the
  frame is fixed exclusively or already final.
* `Treeline.DBImpl.foldl_modelInsert_shape`, `modelLookup_shape` — inserting boundaries of the
  chain's interval leaves the entries outside it as they were, and the model sends every key of
  the interval to the chain's head or to an inserted entry.
* `Treeline.DBImpl.foldl_modelInsert_ascending`, `modelLookup_ascending` — boundaries of the
  interval inserted from the highest down follow the head's entry in ascending order, and the
  model sends a key to the last of them not above it.
* `Treeline.DBImpl.commitSteps_filter_frame`, `commitSteps_inserted` — the commit's steps on the
  frame of each new page, and its insertions (`commitEntries`, from the last page to the first).
-/

namespace Treeline.DBImpl

/-! ## Steps, frame by frame -/

/-- The page id a step acts on. -/
def Step.id : Step → ℕ
  | .allocFix id | .write id _ | .insert _ id | .zero id | .unfix id _ => id

/-- The model entry a step inserts. -/
def Step.inserted : Step → Option (Slice × ℕ)
  | .insert lower id => some (lower, id)
  | _ => none

lemma Step.eq_of_inserted {s : Step} {e : Slice × ℕ} (h : s.inserted = some e) :
    s = .insert e.1 e.2 := by
  cases s <;> simp only [Step.inserted, reduceCtorEq, Option.some.injEq] at h
  subst h
  rfl

lemma BufferState.run_cons (st : BufferState) (s : Step) (p : List Step) :
    st.run (s :: p) = (st.step s).run p := rfl

lemma BufferState.run_append (st : BufferState) (p q : List Step) :
    st.run (p ++ q) = (st.run p).run q :=
  List.foldl_append _ _ _ _

lemma step_frames_of_ne {st : BufferState} {s : Step} {id : ℕ} (h : s.id ≠ id) :
    (st.step s).frames id = st.frames id := by
  cases s <;> simp only [Step.id] at h <;>
    simp [BufferState.step, BufferState.setFrame, Function.update_noteq (Ne.symm h)]

lemma step_frames_congr {st st' : BufferState} (s : Step) {id : ℕ}
    (h : st.frames id = st'.frames id) : (st.step s).frames id = (st'.step s).frames id := by
  cases s <;> simp only [BufferState.step, BufferState.setFrame, Function.update_apply] <;>
    (try split_ifs) <;> subst_vars <;> simp [h]

/-- A frame after a run depends only on the run's steps on it. -/
lemma run_frames_filter (id : ℕ) : ∀ (p : List Step) {st st' : BufferState},
    st.frames id = st'.frames id → (st.run p).frames id = (st'.run (p.filter (·.id = id))).frames id
  | [], _, _, h => h
  | s :: p, st, st', h => by
    by_cases hs : s.id = id
    · rw [List.filter_cons_of_pos (by simpa using hs), BufferState.run_cons, BufferState.run_cons]
      exact run_frames_filter id p (step_frames_congr s h)
    · rw [List.filter_cons_of_neg (by simpa using hs), BufferState.run_cons]
      exact run_frames_filter id p ((step_frames_of_ne hs).trans h)

/-- The model after a run: the run's insertions, in order. -/
lemma run_model : ∀ (p : List Step) (st : BufferState),
    (st.run p).model = (p.filterMap Step.inserted).foldl (fun m e => modelInsert e.1 e.2 m) st.model
  | [], _ => rfl
  | s :: p, st => by
    rw [BufferState.run_cons, run_model p]
    cases s <;> rfl

/-- A step that does not unfix a frame keeps it fixed exclusively, and `allocFix` fixes it. -/
lemma step_exclusive {st : BufferState} {s : Step} {id : ℕ} (hs : ∀ d, s ≠ .unfix id d)
    (h : (st.frames id).exclusive = true ∨ s = .allocFix id) : ((st.step s).frames id).exclusive = true := by
  by_cases hid : s.id = id
  · cases s <;> simp only [Step.id] at hid <;> subst hid <;>
      simp_all [BufferState.step, BufferState.setFrame]
  · rw [step_frames_of_ne hid]
    exact h.resolve_right fun hs' => hid (hs' ▸ rfl)

lemma run_exclusive {id : ℕ} : ∀ (q : List Step) (st : BufferState), (∀ s ∈ q, ∀ d, s ≠ .unfix id d) →
    (st.frames id).exclusive = true ∨ Step.allocFix id ∈ q → ((st.run q).frames id).exclusive = true
  | [], _, _, h => h.resolve_right (List.not_mem_nil _)
  | s :: q, st, hq, h => by
    rw [BufferState.run_cons]
    refine run_exclusive q _ (fun s hs => hq s (List.mem_cons_of_mem _ hs)) ?_
    by_cases hs : s = .allocFix id
    · exact .inl (step_exclusive (hq s (List.mem_cons_self _ _)) (.inr hs))
    · rcases h with h | h
      · exact .inl (step_exclusive (hq s (List.mem_cons_self _ _)) (.inl h))
      · exact .inr ((List.mem_cons.mp h).resolve_left (Ne.symm hs))

/-- **A frame during its block.** Along the steps on frame `id` that end with its unfix, and
unfix it nowhere before, the frame is fixed exclusively — if it was at the start, or once it is
allocated — or it already is what the whole block leaves. -/
lemma run_prefix_frame {st : BufferState} {id : ℕ} {B : List Step} {d : Bool}
    (hB : ∀ s ∈ B, ∀ d, s ≠ .unfix id d) {q : List Step} (hq : q <+: B ++ [.unfix id d])
    (hex : (st.frames id).exclusive = true ∨ Step.allocFix id ∈ q) :
    ((st.run q).frames id).exclusive = true ∨ st.run q = st.run (B ++ [.unfix id d]) := by
  rcases List.prefix_concat_iff.mp hq with rfl | hq
  · exact .inr rfl
  · exact .inl (run_exclusive q st (fun s hs => hB s (hq.subset hs)) hex)

/-! ## The model during the commit -/

lemma mem_modelInsert {b : Slice} {id : ℕ} {e : Slice × ℕ} : ∀ {X : List (Slice × ℕ)},
    e ∈ modelInsert b id X → e = (b, id) ∨ e ∈ X
  | [], h => by simpa [modelInsert] using h
  | x :: X, h => by
    simp only [modelInsert] at h
    split at h
    · rcases List.mem_cons.mp h with rfl | h
      · exact .inr (List.mem_cons_self _ _)
      · exact (mem_modelInsert h).imp_right (List.mem_cons_of_mem x)
    · exact (List.mem_cons.mp h).imp_right (List.mem_cons_of_mem x)
    · exact List.mem_cons.mp h

lemma modelInsert_append_of_lt {b : Slice} {id : ℕ} (Y : List (Slice × ℕ)) :
    ∀ {X : List (Slice × ℕ)}, (∀ e ∈ X, sliceCompare e.1 b = .lt) →
      modelInsert b id (X ++ Y) = X ++ modelInsert b id Y
  | [], _ => rfl
  | x :: X, h => by
    rw [List.cons_append, modelInsert, h x (List.mem_cons_self _ _),
      modelInsert_append_of_lt Y fun e he => h e (List.mem_cons_of_mem x he)]
    rfl

lemma modelInsert_append_of_gt {b : Slice} {id : ℕ} {Y : List (Slice × ℕ)}
    (hY : ∀ e ∈ Y, sliceCompare b e.1 = .lt) : ∀ X : List (Slice × ℕ),
      modelInsert b id (X ++ Y) = modelInsert b id X ++ Y
  | [] => by
    cases Y with
    | nil => rfl
    | cons y Y =>
      have : sliceCompare y.1 b = .gt := by
        rw [sliceCompare_swap, hY y (List.mem_cons_self _ _)]; rfl
      simp [modelInsert, this]
  | x :: X => by
    rw [List.cons_append]
    simp only [modelInsert]
    split <;> simp [modelInsert_append_of_gt hY X]

lemma modelInsert_of_lt_head {b : Slice} {id : ℕ} :
    ∀ {D : List (Slice × ℕ)}, (∀ e ∈ D, sliceCompare b e.1 = .lt) → modelInsert b id D = (b, id) :: D
  | [], _ => rfl
  | e :: D, h => by
    have : sliceCompare e.1 b = .gt := by rw [sliceCompare_swap, h e (List.mem_cons_self _ _)]; rfl
    simp [modelInsert, this]

section Shape

variable {I : Page} {head : ℕ} {A C : List (Slice × ℕ)}
  (hA : ∀ e ∈ A, sliceCompare e.1 I.lower = .lt)
  (hC : ∀ e ∈ C, ∀ k, I.contains k = true → sliceCompare k e.1 = .lt)

include hA hC in
lemma modelInsert_shape {b : Slice} {id : ℕ} (hb : I.contains b = true)
    (hhead : b = I.lower → id = head) (D : List (Slice × ℕ)) :
    ∃ D', modelInsert b id (A ++ (I.lower, head) :: D ++ C) = A ++ (I.lower, head) :: D' ++ C ∧
      ∀ e ∈ D', e ∈ D ∨ e = (b, id) := by
  have hbL := (Page.contains_iff.mp hb).1
  rw [List.append_assoc, List.cons_append,
    modelInsert_append_of_lt _ fun e he => sliceCompare_lt_of_lt_of_le (hA e he) hbL]
  simp only [modelInsert]
  split
  · refine ⟨modelInsert b id D, ?_, fun e he => (mem_modelInsert he).symm⟩
    rw [modelInsert_append_of_gt (fun e he => hC e he b hb)]
    simp
  · next heq =>
    obtain rfl := sliceCompare_eq_iff.mp heq
    exact ⟨D, by rw [hhead rfl]; simp, fun e he => .inl he⟩
  · next hgt =>
    exact absurd (by rw [sliceCompare_swap, hgt]; rfl) hbL

include hA hC in
lemma foldl_modelInsert_shape : ∀ (es D : List (Slice × ℕ)),
    (∀ e ∈ es, I.contains e.1 = true ∧ (e.1 = I.lower → e.2 = head)) →
    ∃ D', es.foldl (fun m e => modelInsert e.1 e.2 m) (A ++ (I.lower, head) :: D ++ C) =
      A ++ (I.lower, head) :: D' ++ C ∧ ∀ e ∈ D', e ∈ D ∨ e ∈ es
  | [], D, _ => ⟨D, rfl, fun e he => .inl he⟩
  | e :: es, D, h => by
    obtain ⟨he, hhe⟩ := h e (List.mem_cons_self _ _)
    obtain ⟨D₁, h₁, hD₁⟩ := modelInsert_shape hA hC he hhe D
    obtain ⟨D₂, h₂, hD₂⟩ := foldl_modelInsert_shape es D₁ fun e' he' => h e' (List.mem_cons_of_mem _ he')
    refine ⟨D₂, by rw [List.foldl_cons, h₁, h₂], fun x hx => ?_⟩
    rcases hD₂ x hx with hx | hx
    · rcases hD₁ x hx with hx | rfl
      · exact .inl hx
      · exact .inr (List.mem_cons_self _ _)
    · exact .inr (List.mem_cons_of_mem _ hx)

include hC in
lemma modelLookup_shape (D : List (Slice × ℕ)) {k : Slice} (hk : I.contains k = true) :
    ∃ id, modelLookup (A ++ (I.lower, head) :: D ++ C) k = some id ∧
      (id = head ∨ ∃ b, (b, id) ∈ D) := by
  have hCf : C.filter (fun e => sliceCompare k e.1 ≠ .lt) = [] :=
    List.filter_eq_nil_iff.mpr fun e he => by simpa using hC e he k hk
  have hL : decide (sliceCompare k I.lower ≠ .lt) = true := by
    simpa using (Page.contains_iff.mp hk).1
  simp only [modelLookup, List.filter_append, List.filter_cons, hCf, List.append_nil, hL, if_pos,
    List.getLast?_append, List.getLast?_cons, Option.or_some, Option.map_some']
  cases hD : (D.filter fun e => sliceCompare k e.1 ≠ .lt).getLast? with
  | none => exact ⟨head, rfl, .inl rfl⟩
  | some e =>
    obtain ⟨ys, hys⟩ := List.getLast?_eq_some_iff.mp hD
    have he : e ∈ D := List.mem_of_mem_filter (hys ▸ List.mem_append_right ys (List.mem_singleton_self e))
    exact ⟨e.2, rfl, .inr ⟨e.1, he⟩⟩

/-! ### Boundaries inserted in ascending order -/

include hA in
lemma modelInsert_lower_self (D : List (Slice × ℕ)) :
    modelInsert I.lower head (A ++ (I.lower, head) :: D ++ C) = A ++ (I.lower, head) :: D ++ C := by
  rw [List.append_assoc, List.cons_append, modelInsert_append_of_lt _ hA]
  simp [modelInsert]

include hA hC in
lemma modelInsert_below {b : Slice} {id : ℕ} (hb : I.contains b = true)
    (hLb : sliceCompare I.lower b = .lt) {D : List (Slice × ℕ)} (hD : ∀ e ∈ D, sliceCompare b e.1 = .lt) :
    modelInsert b id (A ++ (I.lower, head) :: D ++ C) = A ++ (I.lower, head) :: (b, id) :: D ++ C := by
  rw [List.append_assoc, List.cons_append,
    modelInsert_append_of_lt _ fun e he => sliceCompare_lt_trans (hA e he) hLb]
  simp only [modelInsert, hLb]
  rw [modelInsert_of_lt_head]
  · simp
  · intro e he
    rcases List.mem_append.mp he with he | he
    exacts [hD e he, hC e he b hb]

include hA hC in
lemma foldl_modelInsert_ascending : ∀ {G : List (Slice × ℕ)},
    G.Pairwise (fun a b => sliceCompare a.1 b.1 = .lt) →
    (∀ e ∈ G, I.contains e.1 = true ∧ sliceCompare I.lower e.1 = .lt) →
    G.reverse.foldl (fun m e => modelInsert e.1 e.2 m) (A ++ (I.lower, head) :: C) =
      A ++ (I.lower, head) :: G ++ C
  | [], _, _ => by simp
  | y :: G, hasc, hG => by
    obtain ⟨hy, hasc⟩ := List.pairwise_cons.mp hasc
    obtain ⟨hyI, hyL⟩ := hG y (List.mem_cons_self _ _)
    rw [List.reverse_cons, List.foldl_append,
      foldl_modelInsert_ascending hasc fun e he => hG e (List.mem_cons_of_mem _ he)]
    exact modelInsert_below hA hC hyI hyL hy

/-- In an ascending list, the last entry not above `k` is followed, if at all, by one above `k`. -/
lemma getLast?_filter_ascending {k : Slice} : ∀ (x : Slice × ℕ) (G : List (Slice × ℕ)),
    (x :: G).Pairwise (fun a b => sliceCompare a.1 b.1 = .lt) → sliceCompare k x.1 ≠ .lt →
    ∃ i, ∃ hi : i < G.length + 1,
      ((x :: G).filter fun e => sliceCompare k e.1 ≠ .lt).getLast? = some (x :: G)[i] ∧
      sliceCompare k (x :: G)[i].1 ≠ .lt ∧
      ∀ h : i + 1 < G.length + 1, sliceCompare k (x :: G)[i + 1].1 = .lt
  | x, [], _, hx => ⟨0, by simp, by simp [hx], hx, fun h => absurd h (by simp)⟩
  | x, y :: G, hasc, hx => by
    obtain ⟨hxy, hasc⟩ := List.pairwise_cons.mp hasc
    by_cases hy : sliceCompare k y.1 = .lt
    · have hnil : ((y :: G).filter fun e => sliceCompare k e.1 ≠ .lt) = [] :=
        List.filter_eq_nil_iff.mpr fun e he hke => of_decide_eq_true hke
          ((List.mem_cons.mp he).elim (· ▸ hy) fun he =>
            sliceCompare_lt_trans hy ((List.pairwise_cons.mp hasc).1 e he))
      refine ⟨0, by simp, ?_, hx, fun _ => hy⟩
      rw [List.filter_cons_of_pos (by simpa using hx), hnil]
      rfl
    · obtain ⟨i, hi, hlast, hki, hnext⟩ := getLast?_filter_ascending y G hasc hy
      refine ⟨i + 1, by simp at hi ⊢; omega, ?_, hki, fun h => hnext (by simp at h ⊢; omega)⟩
      rw [List.filter_cons_of_pos (by simpa using hx), List.getLast?_cons, hlast]
      rfl

include hC in
lemma modelLookup_ascending {G : List (Slice × ℕ)}
    (hasc : ((I.lower, head) :: G).Pairwise (fun a b => sliceCompare a.1 b.1 = .lt))
    {k : Slice} (hk : I.contains k = true) :
    ∃ i, ∃ hi : i < G.length + 1,
      modelLookup (A ++ (I.lower, head) :: G ++ C) k = some ((I.lower, head) :: G)[i].2 ∧
      sliceCompare k ((I.lower, head) :: G)[i].1 ≠ .lt ∧
      ∀ h : i + 1 < G.length + 1, sliceCompare k ((I.lower, head) :: G)[i + 1].1 = .lt := by
  obtain ⟨i, hi, hlast, hki, hnext⟩ :=
    getLast?_filter_ascending _ G hasc (Page.contains_iff.mp hk).1
  have hCf : C.filter (fun e => sliceCompare k e.1 ≠ .lt) = [] :=
    List.filter_eq_nil_iff.mpr fun e he => by simpa using hC e he k hk
  refine ⟨i, hi, ?_, hki, hnext⟩
  rw [modelLookup, List.filter_append, List.filter_append, hCf, List.append_nil,
    List.getLast?_append, hlast, Option.or_some]
  rfl

include hC in
/-- Ascending entries of the interval between a sorted model's head entry and the entries above
keep the model sorted. -/
lemma pairwise_shape {G : List (Slice × ℕ)}
    (hsorted : (A ++ (I.lower, head) :: C).Pairwise (fun a b => sliceCompare a.1 b.1 = .lt))
    (hasc : ((I.lower, head) :: G).Pairwise (fun a b => sliceCompare a.1 b.1 = .lt))
    (hG : ∀ e ∈ G, I.contains e.1 = true) :
    (A ++ (I.lower, head) :: G ++ C).Pairwise (fun a b => sliceCompare a.1 b.1 = .lt) := by
  obtain ⟨hAs, hLC, hAL⟩ := List.pairwise_append.mp hsorted
  obtain ⟨hLC, hCs⟩ := List.pairwise_cons.mp hLC
  obtain ⟨hLG, -⟩ := List.pairwise_cons.mp hasc
  rw [List.append_assoc, List.cons_append]
  refine List.pairwise_append.mpr ⟨hAs, ?_, fun a ha b hb => ?_⟩
  · rw [← List.cons_append]
    refine List.pairwise_append.mpr ⟨hasc, hCs, fun x hx c hc => ?_⟩
    rcases List.mem_cons.mp hx with rfl | hx
    exacts [hLC c hc, hC c hc x.1 (hG x hx)]
  · have haL := hAL a ha _ (List.mem_cons_self _ _)
    rcases List.mem_cons.mp hb with rfl | hb
    · exact haL
    rcases List.mem_append.mp hb with hb | hb
    exacts [sliceCompare_lt_trans haL (hLG b hb), hAL a ha b (List.mem_cons_of_mem _ hb)]

end Shape

/-! ## The commit's steps -/

lemma filter_flatMap_blocks {β : Type} (g : β → List Step) (f : β → ℕ) (id : ℕ) :
    ∀ l : List β, (∀ b ∈ l, ∀ s ∈ g b, s.id = f b) →
      (l.flatMap g).filter (·.id = id) = (l.filter (f · = id)).flatMap g
  | [], _ => rfl
  | b :: l, hg => by
    have hb := hg b (List.mem_cons_self _ _)
    rw [List.flatMap_cons, List.filter_append, List.filter_cons,
      filter_flatMap_blocks g f id l fun b' hb' => hg b' (List.mem_cons_of_mem _ hb')]
    by_cases h : f b = id
    · rw [List.filter_eq_self.mpr fun s hs => by simpa [hb s hs] using h, if_pos (by simpa using h),
        List.flatMap_cons]
    · rw [List.filter_eq_nil_iff.mpr fun s hs => by simpa [hb s hs] using h, if_neg (by simpa using h),
        List.nil_append]

lemma filter_eq_singleton_of_nodup {β : Type} (f : β → ℕ) : ∀ {l : List β}, (l.map f).Nodup →
    ∀ {b : β}, b ∈ l → ∀ {id : ℕ}, f b = id → l.filter (f · = id) = [b]
  | [], _, _, hb, _, _ => absurd hb (List.not_mem_nil _)
  | c :: l, hnd, b, hb, id, hid => by
    obtain ⟨hc, hnd⟩ := List.nodup_cons.mp (List.map_cons f c l ▸ hnd)
    rw [List.filter_cons]
    by_cases h : f c = id
    · have : l.filter (f · = id) = [] := List.filter_eq_nil_iff.mpr fun x hx hfx =>
        hc (List.mem_map.mpr ⟨x, hx, by simpa [h] using hfx⟩)
      obtain rfl : b = c := (List.mem_cons.mp hb).resolve_right fun hb =>
        hc (List.mem_map.mpr ⟨b, hb, by rw [h, hid]⟩)
      rw [if_pos (by simpa using h), this]
    · rw [if_neg (by simpa using h)]
      exact filter_eq_singleton_of_nodup f hnd ((List.mem_cons.mp hb).resolve_left
        (by rintro rfl; exact h hid)) hid

section Commit

variable (chain : List ℕ) (nextId : ℕ)

lemma commitPage_id (n i : ℕ) (p : Page) :
    ∀ s ∈ commitPage chain nextId n i p, s.id = commitFrame chain nextId n i := by
  unfold commitPage commitFrame; split_ifs <;> simp [Step.id]

lemma commitPage_inserted (n i : ℕ) (p : Page) :
    (commitPage chain nextId n i p).filterMap Step.inserted = [(p.lower, commitFrame chain nextId n i)] := by
  unfold commitPage commitFrame; split_ifs <;> rfl

/-- A page's block leaves its frame holding the page, unfixed. -/
lemma run_commitPage_frame (st : BufferState) (n i : ℕ) (p : Page) :
    (st.run (commitPage chain nextId n i p)).frames (commitFrame chain nextId n i) = ⟨p, false⟩ := by
  unfold commitPage commitFrame
  split_ifs <;> simp [BufferState.run_cons, BufferState.run, BufferState.step, BufferState.setFrame]

lemma commitFrames_nodup {chain : List ℕ} {nextId : ℕ} (hnd : chain.Nodup)
    (hfresh : ∀ id ∈ chain, id < nextId) (n : ℕ) :
    ((List.range n).map (commitFrame chain nextId n) ++ chain.drop n).Nodup := by
  rcases le_total n chain.length with hle | hge
  · rwa [map_range_commitFrame_of_le chain nextId n hle, List.take_append_drop]
  · rw [map_range_commitFrame_of_ge chain nextId n hge, List.drop_eq_nil_of_le hge, List.append_nil,
      List.nodup_append]
    refine ⟨hnd, (List.nodup_range _).map_on fun i hi j hj hij => ?_, fun a ha hb => ?_⟩
    · simp only [List.mem_range] at hi hj; omega
    · obtain ⟨j, -, rfl⟩ := List.mem_map.mp hb
      have := hfresh _ ha; omega

lemma commitSteps_filter_frame {chain : List ℕ} {nextId : ℕ} (hnd : chain.Nodup)
    (hfresh : ∀ id ∈ chain, id < nextId) (newPages : List Page) {i : ℕ} (hi : i < newPages.length) :
    (commitSteps chain nextId newPages).filter (·.id = commitFrame chain nextId newPages.length i) =
      commitPage chain nextId newPages.length i newPages[i] := by
  have hnd' := commitFrames_nodup hnd hfresh newPages.length
  have hmap : newPages.enum.reverse.map (fun ip => commitFrame chain nextId newPages.length ip.1) =
      ((List.range newPages.length).map (commitFrame chain nextId newPages.length)).reverse := by
    rw [show (fun ip : ℕ × Page => commitFrame chain nextId newPages.length ip.1) =
      commitFrame chain nextId newPages.length ∘ Prod.fst from rfl, ← List.map_map,
      List.map_reverse, List.enum_map_fst, List.map_reverse]
  have hmem : (i, newPages[i]) ∈ newPages.enum.reverse :=
    List.mem_reverse.mpr (List.mem_enum_iff_getElem?.mpr (List.getElem?_eq_getElem hi))
  rw [commitSteps, List.filter_append,
    filter_flatMap_blocks _ (fun ip => commitFrame chain nextId newPages.length ip.1) _ _
      fun ip _ => commitPage_id chain nextId _ ip.1 ip.2,
    filter_flatMap_blocks (fun x => [Step.zero x, .unfix x true]) (fun x => x) _ _
      (by simp [Step.id]),
    filter_eq_singleton_of_nodup _ (hmap ▸ List.nodup_reverse.mpr (List.nodup_append.mp hnd').1)
      hmem rfl,
    List.filter_eq_nil_iff.mpr fun x hx h => (List.nodup_append.mp hnd').2.2
      (List.mem_map_of_mem _ (List.mem_range.mpr hi))
      ((of_decide_eq_true h : x = commitFrame chain nextId newPages.length i) ▸ hx)]
  simp

lemma commitSteps_nil_filter {chain : List ℕ} {nextId : ℕ} (hnd : chain.Nodup) {id : ℕ}
    (hid : id ∈ chain) :
    (commitSteps chain nextId []).filter (·.id = id) = [.zero id, .unfix id true] := by
  rw [commitSteps, List.enum_nil, List.reverse_nil, List.flatMap_nil, List.nil_append,
    List.length_nil, List.drop_zero, filter_flatMap_blocks _ (fun x => x) _ _ (by simp [Step.id]),
    filter_eq_singleton_of_nodup (fun x => x) (by simpa using hnd) hid rfl, List.flatMap_singleton]

/-- The model entries the commit of `newPages` inserts, in page order: each page's lower
boundary, mapped to the frame that receives the page. -/
def commitEntries (chain : List ℕ) (nextId : ℕ) (newPages : List Page) : List (Slice × ℕ) :=
  newPages.enum.map fun ip => (ip.2.lower, commitFrame chain nextId newPages.length ip.1)

@[simp] lemma length_commitEntries (newPages : List Page) :
    (commitEntries chain nextId newPages).length = newPages.length := by
  simp [commitEntries]

lemma getElem_commitEntries (newPages : List Page) {i : ℕ} (hi : i < newPages.length)
    (h : i < (commitEntries chain nextId newPages).length) :
    (commitEntries chain nextId newPages)[i] =
      (newPages[i].lower, commitFrame chain nextId newPages.length i) := by
  simp [commitEntries]

lemma mem_commitEntries {newPages : List Page} {e : Slice × ℕ} :
    e ∈ commitEntries chain nextId newPages ↔
      ∃ i, ∃ hi : i < newPages.length, e = (newPages[i].lower, commitFrame chain nextId newPages.length i) := by
  simp only [commitEntries, List.mem_map, List.mem_enum_iff_getElem?, Prod.exists,
    List.getElem?_eq_some_iff]
  constructor
  · rintro ⟨i, pg, ⟨hi, hpg⟩, rfl⟩
    exact ⟨i, hi, by rw [hpg]⟩
  · rintro ⟨i, hi, rfl⟩
    exact ⟨i, _, ⟨hi, rfl⟩, rfl⟩

lemma commitSteps_inserted (newPages : List Page) :
    (commitSteps chain nextId newPages).filterMap Step.inserted =
      (commitEntries chain nextId newPages).reverse := by
  rw [commitSteps, List.filterMap_append, List.filterMap_flatMap, List.filterMap_flatMap]
  simp only [commitPage_inserted, flatMap_singleton_map]
  simp [Step.inserted, commitEntries, List.map_reverse]

end Commit

end Treeline.DBImpl
