import Mathlib.Data.List.Pairwise
import Treeline.PageGrouping.PageOrder

/-!
# Live ids are never reused or freed

`RewriteSegments` and `FlattenChain` (`src/page_grouping/manager_rewrite.cc`, lines 379-422 and
494-528) zero and free the old segments and the overflow pages they read, then update the index.
`LoadIntoNewSegment` and `LoadIntoNewPages` (`manager_load.cc`, lines 309-320 and 353-366) take
the ids they write from the free list or from the end of a file. This module proves that the ids
the index reaches stay distinct and off the free list, and that every free id has a zeroed page
`0`. The ids reached are the segment ids and the overflow page ids their pages name. The result
holds over every run from a bulk load, overflow pages included.

## Main definitions

* `Treeline.Pg.Manager.overflowIds`, `Manager.entryIds`, `Manager.liveIds` — the overflow page
  ids of a segment, the ids an index entry reaches, and every id the index reaches.
* `Treeline.Pg.Manager.IdsSafe` — the invariant.
* `Treeline.Pg.Manager.FreshSince` — a store during an operation: the entries written since it
  began lie on fresh ids, and nothing else changed but the free list.
* `Treeline.Pg.RewriteState.FreshStep` — a step of a rewrite that writes only fresh segments.

## Main results

* `Treeline.Pg.Manager.IdsSafe.retire` — zeroing and freeing the replaced segments and the
  overflow pages read, then updating the index, keeps the invariant.
* `Treeline.Pg.Manager.IdsSafe.rewriteSegments`, `Manager.IdsSafe.flattenChain`,
  `Manager.IdsSafe.chainOverflow` — each operation keeps it.
* `Treeline.Pg.reachable_ids_safe` — in a reachable store, live ids are distinct and not free, and
  free ids are zeroed.

## Implementation notes

A rewrite frees the overflow ids it collected from the workspace buffer. The flush of lines
310-317 overwrites that buffer, so a rewrite may collect fewer overflow ids than its segments
name, and it leaks the others. It never collects an id its segments do not name
(`BufferFrom`), so it frees no live id.
-/

namespace Treeline.Pg

/-! ## Lists -/

section Lists

variable {α β : Type}

lemma flatMap_sublist_flatMap (f : α → List β) :
    ∀ {l₁ l₂ : List α}, l₁.Sublist l₂ → (l₁.flatMap f).Sublist (l₂.flatMap f)
  | _, _, .slnil => .slnil
  | _, _, .cons a h => by
    rw [List.flatMap_cons]
    exact (flatMap_sublist_flatMap f h).trans (List.sublist_append_right _ _)
  | _, _, .cons₂ a h => by
    rw [List.flatMap_cons, List.flatMap_cons]
    exact (flatMap_sublist_flatMap f h).append_left _

lemma flatMap_subperm_flatMap (f : α → List β) {l₁ l₂ : List α} (h : l₁.Subperm l₂) :
    (l₁.flatMap f).Subperm (l₂.flatMap f) :=
  let ⟨l, hp, hs⟩ := h
  ⟨l.flatMap f, hp.flatMap_right f, flatMap_sublist_flatMap f hs⟩

lemma nodup_of_subperm {l₁ l₂ : List α} (h : l₁.Subperm l₂) (hn : l₂.Nodup) : l₁.Nodup :=
  let ⟨_, hp, hs⟩ := h
  hp.nodup_iff.mp (hs.nodup hn)

/-- A `filterMap` that drops or keeps each value of another keeps a sublist of its values. -/
lemma filterMap_sublist_of_none_or {f g : α → Option β} :
    ∀ {l : List α}, (∀ a ∈ l, f a = none ∨ f a = g a) → (l.filterMap f).Sublist (l.filterMap g)
  | [], _ => .slnil
  | a :: l, h => by
    have ih := filterMap_sublist_of_none_or fun b hb => h b (.tail _ hb)
    rw [List.filterMap_cons, List.filterMap_cons]
    rcases h a (.head _) with hf | hf <;> rw [hf]
    · cases g a with
      | none => exact ih
      | some x => exact ih.cons x
    · cases g a with
      | none => exact ih
      | some x => exact ih.cons₂ x

/-- Setting the value at one position of a `filterMap` over distinct positions, where there was
none, adds it to the values. -/
lemma filterMap_update_perm {f : ℕ → Option β} {i : ℕ} {o : β} (hf : f i = none) :
    ∀ {l : List ℕ}, l.Nodup → i ∈ l →
      (l.filterMap fun j => if j = i then some o else f j).Perm (o :: l.filterMap f)
  | j :: l, hnd, hi => by
    obtain ⟨hj, hnd⟩ := List.nodup_cons.mp hnd
    rw [List.filterMap_cons, List.filterMap_cons]
    by_cases e : j = i
    · subst e
      rw [if_pos rfl, hf, List.filterMap_congr fun k hk => if_neg fun h : k = j => hj (h ▸ hk)]
    · rw [if_neg e]
      have ih := filterMap_update_perm (o := o) hf hnd ((List.mem_cons.mp hi).resolve_left (Ne.symm e))
      cases f j with
      | none => exact ih
      | some x => exact (ih.cons x).trans (List.Perm.swap o x _)

/-- Splitting each group into its head and the rest. -/
lemma flatMap_cons_perm (f : α → β) (g : α → List β) :
    ∀ l : List α, (l.flatMap fun a => f a :: g a).Perm (l.map f ++ l.flatMap g)
  | [] => .nil
  | a :: l => by
    simp only [List.flatMap_cons, List.map_cons, List.cons_append]
    exact (((flatMap_cons_perm f g l).append_left (g a)).trans
      (List.perm_append_comm_assoc _ _ _)).cons _

/-- Replacing the group of one member `x` of a list without repeats by a group with one more
value `a` adds `a` to the concatenation. -/
lemma flatMap_perm_of_update {G G' : α → List β} {x : α} {a : β} (hx' : (G' x).Perm (a :: G x)) :
    ∀ {l : List α}, x ∈ l → l.Nodup → (∀ y ∈ l, y ≠ x → G' y = G y) →
      (l.flatMap G').Perm (a :: l.flatMap G)
  | y :: l, hx, hnd, hG => by
    rw [List.flatMap_cons, List.flatMap_cons]
    obtain ⟨hy, hnd⟩ := List.nodup_cons.mp hnd
    by_cases e : y = x
    · subst e
      rw [List.flatMap_congr fun z hz => hG z (.tail _ hz) fun h => hy (h ▸ hz)]
      exact hx'.append_right _
    · rw [hG y (.head _) e]
      exact ((flatMap_perm_of_update hx' ((List.mem_cons.mp hx).resolve_left (Ne.symm e)) hnd
        fun z hz => hG z (.tail _ hz)).append_left _).trans List.perm_middle

end Lists

/-! ## The index -/

/-- A sorted index has no repeated entry. -/
lemma Index.Sorted.nodup {idx : Index} (h : idx.Sorted) : idx.Nodup :=
  h.imp fun hlt => ne_of_apply_ne Prod.fst hlt.ne

/-- `index_.insert(e)` adds `e` or nothing. -/
lemma indexInsert_subperm (e : ℕ × SegmentInfo) : ∀ idx : Index, (indexInsert e idx).Subperm (e :: idx)
  | [] => List.Subperm.refl _
  | x :: xs => by
    unfold indexInsert
    split_ifs
    · exact ((List.subperm_cons x).mpr (indexInsert_subperm e xs)).trans (List.Perm.swap e x xs).subperm
    · exact (List.sublist_cons_self e _).subperm
    · exact List.Subperm.refl _

lemma indexInsert_sorted (e : ℕ × SegmentInfo) : ∀ {idx : Index}, idx.Sorted → (indexInsert e idx).Sorted
  | [], _ => List.pairwise_singleton _ _
  | x :: xs, h => by
    obtain ⟨hx, hxs⟩ := List.pairwise_cons.mp h
    unfold indexInsert
    split_ifs with hlt heq
    · refine List.pairwise_cons.mpr ⟨fun y hy => ?_, indexInsert_sorted e hxs⟩
      rcases List.mem_cons.mp ((indexInsert_subperm e xs).subset hy) with rfl | hy
      · exact hlt
      · exact hx y hy
    · exact h
    · have hex : e.1 < x.1 := by omega
      refine List.pairwise_cons.mpr ⟨fun y hy => ?_, h⟩
      rcases List.mem_cons.mp hy with rfl | hy
      · exact hex
      · exact hex.trans (hx y hy)

/-- The insertions of lines 419-421 add some of the new entries. -/
lemma foldl_indexInsert_subperm : ∀ (new idx : Index),
    (new.foldl (fun idx e => indexInsert e idx) idx).Subperm (idx ++ new)
  | [], idx => by rw [List.append_nil]; exact List.Subperm.refl _
  | e :: new, idx =>
    (foldl_indexInsert_subperm new _).trans
      (((List.subperm_append_right new).mpr (indexInsert_subperm e idx)).trans List.perm_middle.symm.subperm)

lemma foldl_indexInsert_sorted : ∀ (new : Index) {idx : Index}, idx.Sorted →
    (new.foldl (fun idx e => indexInsert e idx) idx).Sorted
  | [], _, h => h
  | e :: new, _, h => foldl_indexInsert_sorted new (indexInsert_sorted e h)

/-- The erasures of lines 414-418 remove the entries of the erased keys. -/
lemma foldl_indexErase (T : Index) : ∀ idx : Index,
    T.foldl (fun idx e => indexErase idx e.1) idx = idx.filter fun x => x.1 ∉ T.map Prod.fst := by
  induction T with
  | nil => simp
  | cons e T ih =>
    intro idx
    rw [List.foldl_cons, ih, indexErase, List.filter_filter]
    exact List.filter_congr fun x _ => by by_cases hx : x.1 = e.1 <;> simp [hx]

/-- Erasing the keys of a run of a sorted index leaves the entries around it. -/
lemma foldl_indexErase_run {pre run post : Index} (hs : (pre ++ run ++ post).Sorted) :
    run.foldl (fun idx e => indexErase idx e.1) (pre ++ run ++ post) = pre ++ post := by
  obtain ⟨hpr, -, hpost⟩ := List.pairwise_append.mp hs
  obtain ⟨-, -, hrun⟩ := List.pairwise_append.mp hpr
  rw [foldl_indexErase, List.filter_append, List.filter_append, List.filter_eq_self.mpr,
    List.filter_eq_nil_iff.mpr, List.filter_eq_self.mpr, List.append_nil]
  · simp only [List.mem_map, not_exists, not_and, decide_eq_true_eq]
    exact fun x hx y hy heq => (hpost y (List.mem_append_right _ hy) x hx).ne heq
  · simp only [List.mem_map, not_exists, not_and, decide_eq_true_eq, not_forall, not_not]
    exact fun x hx => ⟨x, hx, rfl⟩
  · simp only [List.mem_map, not_exists, not_and, decide_eq_true_eq]
    exact fun x hx y hy heq => (hrun x hx y hy).ne' heq

/-! ## Live ids -/

/-- The overflow page ids a segment's pages name. -/
def Manager.overflowIds (m : Manager) (info : SegmentInfo) : List SegmentId :=
  (List.range info.pageCount).filterMap fun i => (m.readPage info.id i).overflow

/-- The ids an index entry reaches: its segment id, then the overflow page ids of its pages. -/
def Manager.entryIds (m : Manager) (e : ℕ × SegmentInfo) : List SegmentId :=
  e.2.id :: m.overflowIds e.2

/-- The ids the index reaches. -/
def Manager.liveIds (m : Manager) : List SegmentId := m.index.flatMap m.entryIds

/-- An entry's ids depend only on its own segment's pages. -/
lemma Manager.entryIds_congr {m m' : Manager} {e : ℕ × SegmentInfo}
    (h : ∀ i, m'.readPage e.2.id i = m.readPage e.2.id i) : m'.entryIds e = m.entryIds e := by
  simp only [Manager.entryIds, Manager.overflowIds, h]

lemma Manager.entryIds_of_no_overflow {m : Manager} {e : ℕ × SegmentInfo}
    (h : ∀ i < e.2.pageCount, (m.readPage e.2.id i).overflow = none) : m.entryIds e = [e.2.id] := by
  rw [Manager.entryIds, Manager.overflowIds,
    List.filterMap_eq_nil_iff.mpr fun i hi => h i (List.mem_range.mp hi)]

/-- Without overflow pages, the live ids are the index's segment ids. -/
lemma Manager.flatMap_entryIds_of_no_overflow {m : Manager} {idx : Index}
    (h : ∀ e ∈ idx, ∀ i < e.2.pageCount, (m.readPage e.2.id i).overflow = none) :
    idx.flatMap m.entryIds = idx.ids := by
  rw [List.flatMap_congr fun e he => m.entryIds_of_no_overflow (h e he), Index.ids,
    List.map_eq_flatMap]

/-- The invariant of the id lifecycle: the index is sorted, the live ids are distinct, allocation
cannot return any of them, and every free id has a zeroed page `0`. -/
structure Manager.IdsSafe (m : Manager) : Prop where
  sorted : m.index.Sorted
  nodup : m.liveIds.Nodup
  safe : m.AllocSafe m.liveIds
  free_zero : ∀ id ∈ m.free, m.readPage id 0 = Page.zero

namespace Manager.IdsSafe

variable {m : Manager}

lemma mem_liveIds {e : ℕ × SegmentInfo} (he : e ∈ m.index) {x : SegmentId} (hx : x ∈ m.entryIds e) :
    x ∈ m.liveIds :=
  List.mem_flatMap.mpr ⟨e, he, hx⟩

/-- Two entries of the index reach disjoint ids. -/
lemma id_not_mem (h : m.IdsSafe) {e f : ℕ × SegmentInfo} (he : e ∈ m.index) (hf : f ∈ m.index)
    (hne : e ≠ f) : e.2.id ∉ m.entryIds f :=
  (List.nodup_flatMap.mp h.nodup).2.forall
    (fun _ _ h _ ha hb => h hb ha : Symmetric (List.Disjoint on m.entryIds)) he hf hne (.head _)

end Manager.IdsSafe

/-- A tiled store has no overflow pages, so its live ids are its segment ids. -/
lemma Manager.Tiled.idsSafe {m : Manager} (h : m.Tiled) : m.IdsSafe := by
  have hl : m.liveIds = m.index.ids :=
    Manager.flatMap_entryIds_of_no_overflow fun e he => h.tiles.no_overflow e he
  exact ⟨h.sorted, hl ▸ h.nodup, hl ▸ h.safe, h.free_zero⟩

/-! ## The flush worker -/

/-- **The flush worker chains a fresh page.** Chaining an overflow page to a page without one
adds its fresh id to the live ids. -/
lemma Manager.IdsSafe.chainOverflow {m : Manager} (h : m.IdsSafe) {b : ℕ} {info : SegmentInfo}
    {i : ℕ} (recs : List Record) (hmem : (b, info) ∈ m.index) (hi : i < info.pageCount)
    (hnone : (m.readPage info.id i).overflow = none) : (m.chainOverflow b info i recs).IdsSafe := by
  obtain ⟨ho, -, hsafe, hfree, hidx, hdisk, -, -⟩ := Manager.acquireSegment_spec Nat.one_pos h.safe
  rcases hacq : m.acquireSegment 1 with ⟨o, m₁⟩
  simp only [hacq] at ho hsafe hfree hidx hdisk
  have hinfo : info.id ∈ m.liveIds := Manager.IdsSafe.mem_liveIds hmem (.head _)
  have hio : info.id ≠ o := fun e => ho (e ▸ hinfo)
  set m' := m.chainOverflow b info i recs
  have hread : ∀ x j, x ≠ info.id → x ≠ o → m'.readPage x j = m.readPage x j := fun x j h₁ h₂ => by
    simp only [m', Manager.chainOverflow, hacq, Manager.readPage, Manager.writePage,
      Function.update_noteq h₁, Function.update_noteq h₂, hdisk]
  have hreadInfo : ∀ j, (m'.readPage info.id j).overflow =
      if j = i then some o else (m.readPage info.id j).overflow := fun j => by
    by_cases e : j = i
    · subst e; simp [m', Manager.chainOverflow, hacq, Manager.readPage, Manager.writePage]
    · simp [m', Manager.chainOverflow, hacq, Manager.readPage, Manager.writePage, e, hio, hdisk]
  -- the flag on the entry leaves its ids alone
  have hfree' : m'.free = m₁.free := by simp only [m', Manager.chainOverflow, hacq, Manager.writePage_free]
  have hend' : m'.fileEnd = m₁.fileEnd := by
    simp only [m', Manager.chainOverflow, hacq, Manager.writePage_fileEnd]
  have hlive : m'.liveIds = m.index.flatMap m'.entryIds := by
    have hidx' : m'.index = m.index.map fun e =>
        if e.1 = b then (e.1, { e.2 with hasOverflow := true }) else e := by
      simp only [m', Manager.chainOverflow, hacq, Manager.writePage_index, hidx]
    rw [Manager.liveIds, hidx', List.flatMap_map]
    exact List.flatMap_congr fun e _ => by split_ifs <;> rfl
  have hperm : m'.liveIds.Perm (o :: m.liveIds) := by
    rw [hlive]
    refine flatMap_perm_of_update ?_ hmem h.sorted.nodup fun y hy hne =>
      Manager.entryIds_congr fun j => hread _ j (fun e => h.id_not_mem hy hmem hne (e ▸ .head _))
        fun e => ho (e ▸ Manager.IdsSafe.mem_liveIds hy (.head _))
    simp only [Manager.entryIds, Manager.overflowIds, hreadInfo]
    exact ((filterMap_update_perm hnone (List.nodup_range _) (List.mem_range.mpr hi)).cons _).trans
      (List.Perm.swap _ _ _)
  refine ⟨?_, hperm.nodup_iff.mpr (List.nodup_cons.mpr ⟨ho, h.nodup⟩),
    hsafe.congr hfree' hend' fun x hx => hperm.subset hx, fun x hx => ?_⟩
  · simp only [m', Manager.chainOverflow, hacq, Manager.writePage_index, hidx]
    exact List.pairwise_map.mpr (h.sorted.imp fun hlt => by split_ifs <;> exact hlt)
  · rw [hfree'] at hx
    rw [hread x 0 (fun e => h.safe.ids_not_free _ hinfo (e ▸ hfree x hx))
      fun e => hsafe.ids_not_free o (.head _) (e ▸ hx)]
    exact h.free_zero x (hfree x hx)

/-! ## Fresh writes during an operation -/

/-- A store `m` during an operation that began at `m₀`, with the entries `out` written so far: the
index is `m₀`'s, the new entries lie on distinct ids that are neither live in `m₀` nor
allocatable, no other segment's pages changed, no new page names an overflow page, and the free
list only shrank. -/
structure Manager.FreshSince (m₀ m : Manager) (out : Index) : Prop where
  index : m.index = m₀.index
  nodup : (out.ids ++ m₀.liveIds).Nodup
  safe : m.AllocSafe (out.ids ++ m₀.liveIds)
  free : ∀ x ∈ m.free, x ∈ m₀.free
  disk : ∀ x ∉ out.ids, m.disk x = m₀.disk x
  written : ∀ e ∈ out, ∀ i < e.2.pageCount, (m.readPage e.2.id i).overflow = none

/-- Every one of the first `n` workspace pages names no overflow page, or the one `X` names for its
position. -/
def BufferFrom (buf : ℕ → Page) (n : ℕ) (X : ℕ → Option SegmentId) : Prop :=
  ∀ i < n, (buf i).overflow = none ∨ (buf i).overflow = X i

namespace Manager.FreshSince

variable {m₀ m : Manager} {out : Index}

/-- An operation starts fresh. -/
lemma start (h : m₀.IdsSafe) (seq : ℕ) : m₀.FreshSince { m₀ with nextSequenceNumber := seq } [] :=
  ⟨rfl, h.nodup, h.safe.congr rfl rfl fun _ h => h, fun _ h => h, fun _ _ => rfl, fun _ h => nomatch h⟩

lemma withBuffer (h : m₀.FreshSince m out) (buf : ℕ → Page) :
    m₀.FreshSince { m with buffer := buf } out :=
  ⟨h.index, h.nodup, h.safe.congr rfl rfl fun _ h => h, h.free, h.disk, h.written⟩

lemma not_mem_ids (h : m₀.FreshSince m out) {x : SegmentId} (hx : x ∈ m₀.liveIds) : x ∉ out.ids :=
  fun hx' => List.disjoint_of_nodup_append h.nodup hx' hx

lemma readPage_live (h : m₀.FreshSince m out) {x : SegmentId} (hx : x ∈ m₀.liveIds) (i : ℕ) :
    m.readPage x i = m₀.readPage x i := by
  simp only [Manager.readPage, h.disk x (h.not_mem_ids hx)]

/-- **`LoadIntoNewSegment` writes onto a fresh id.** One load of a segment of a size class keeps
the store fresh, and clears the overflow of every workspace page it changes. -/
lemma loadStep (h : m₀.FreshSince m out) (seq : ℕ) {x : Segment × ℕ}
    (hsz : ∃ k ≤ 4, x.1.pageCount = 2 ^ k) :
    m₀.FreshSince (Treeline.Pg.loadStep seq (m, out) x).1 (Treeline.Pg.loadStep seq (m, out) x).2 ∧
      ∀ n X, BufferFrom m.buffer n X → BufferFrom (Treeline.Pg.loadStep seq (m, out) x).1.buffer n X := by
  obtain ⟨k, hk, hpc⟩ := hsz
  obtain ⟨hnot, hfile, hsafe, hfree, hidx, hdisk, -, -⟩ :=
    Manager.acquireSegment_spec (hpc ▸ Nat.two_pow_pos k) h.safe
  rcases hacq : m.acquireSegment x.1.pageCount with ⟨id, m₁⟩
  simp only [hacq] at hnot hfile hsafe hfree hidx hdisk
  have hcount : 2 ^ id.fileId = x.1.pageCount := by rw [hfile, hpc, pageCountToSegment_two_pow hk]
  have hperm : ((out.ids ++ [id]) ++ m₀.liveIds).Perm (id :: (out.ids ++ m₀.liveIds)) :=
    (List.perm_append_singleton id _).append_right _
  have hstep : Treeline.Pg.loadStep seq (m, out) x =
      ({ m₁.writePages id (wrapSegment m.buffer seq x.1 x.2) x.1.pageCount with
          buffer := wrapSegment m.buffer seq x.1 x.2 },
        out ++ [((x.1.records.head?.map Prod.fst).getD 0, ⟨id, x.1.model, false⟩)]) := by
    simp only [Treeline.Pg.loadStep, Manager.loadIntoNewSegment, hacq]
  have hread : ∀ y i, y ≠ id → (m₁.writePages id (wrapSegment m.buffer seq x.1 x.2) x.1.pageCount).readPage y i =
      m.readPage y i := fun y i hy => by
    simp only [Manager.readPage, Manager.writePages, Function.update_noteq hy, hdisk]
  rw [hstep]
  refine ⟨⟨hidx.trans h.index, ?_, ?_, fun y hy => h.free y (hfree y hy), fun y hy => ?_,
    fun e he i hi => ?_⟩, fun n X hb i hi => ?_⟩
  · simpa only [Index.ids_append, Index.ids_cons, Index.ids_nil] using
      hperm.nodup_iff.mpr (List.nodup_cons.mpr ⟨hnot, h.nodup⟩)
  · simp only [Index.ids_append, Index.ids_cons, Index.ids_nil]
    exact hsafe.congr rfl rfl fun y hy => hperm.subset hy
  · simp only [Index.ids_append, Index.ids_cons, Index.ids_nil, List.mem_append, List.mem_singleton,
      not_or] at hy
    simp only [Manager.writePages, Function.update_noteq hy.2, hdisk, h.disk y hy.1]
  · rcases List.mem_append.mp he with he | he
    · rw [show ({ m₁.writePages id (wrapSegment m.buffer seq x.1 x.2) x.1.pageCount with
          buffer := wrapSegment m.buffer seq x.1 x.2 } : Manager).readPage e.2.id i =
          (m₁.writePages id (wrapSegment m.buffer seq x.1 x.2) x.1.pageCount).readPage e.2.id i from rfl,
        hread _ _ fun e' => hnot (List.mem_append_left _ (e' ▸ List.mem_map_of_mem _ he))]
      exact h.written e he i hi
    · obtain rfl := List.mem_singleton.mp he
      have hi' : i < x.1.pageCount := hcount ▸ hi
      simp [Manager.readPage, Manager.writePages, hi', wrapSegment, Page.clearOverflow]
  · show (wrapSegment m.buffer seq x.1 x.2 i).overflow = none ∨
      (wrapSegment m.buffer seq x.1 x.2 i).overflow = X i
    unfold wrapSegment
    split_ifs
    · exact .inl rfl
    · exact hb i hi

lemma foldl_loadStep (seq : ℕ) : ∀ (loads : List (Segment × ℕ)) {m : Manager} {out : Index},
    m₀.FreshSince m out → (∀ x ∈ loads, ∃ k ≤ 4, x.1.pageCount = 2 ^ k) →
    m₀.FreshSince (loads.foldl (Treeline.Pg.loadStep seq) (m, out)).1
        (loads.foldl (Treeline.Pg.loadStep seq) (m, out)).2 ∧
      ∀ n X, BufferFrom m.buffer n X →
        BufferFrom (loads.foldl (Treeline.Pg.loadStep seq) (m, out)).1.buffer n X
  | [], _, _, h, _ => ⟨h, fun _ _ hb => hb⟩
  | x :: loads, m, out, h, hsz => by
    obtain ⟨h₁, hb₁⟩ := h.loadStep seq (hsz x (.head _))
    obtain ⟨h₂, hb₂⟩ := foldl_loadStep seq loads h₁ fun y hy => hsz y (.tail _ hy)
    exact ⟨h₂, fun n X hb => hb₂ n X (hb₁ n X hb)⟩

end Manager.FreshSince

/-! ## The replacement of the old segments -/

/-- Pushing protected ids `D` onto the free list, with the file ends kept, leaves protected the ids
`L` that are not among them. -/
lemma Manager.AllocSafe.release {m m' : Manager} {ids L D : List SegmentId} (hs : m.AllocSafe ids)
    (hD : ∀ x ∈ D, x ∈ ids) (hDnd : D.Nodup) (hL : ∀ x ∈ L, x ∈ ids) (hLD : ∀ x ∈ L, x ∉ D)
    (hfree : m'.free = D.reverse ++ m.free) (hend : m'.fileEnd = m.fileEnd) : m'.AllocSafe L := by
  refine ⟨?_, fun x hx => ?_, fun x hx => hend ▸ hs.ids_below x (hL x hx), fun x hx hx' => ?_⟩
  · rw [hfree]
    exact List.nodup_append.mpr ⟨List.nodup_reverse.mpr hDnd, hs.free_nodup,
      fun x hx hx' => hs.ids_not_free x (hD x (List.mem_reverse.mp hx)) hx'⟩
  · rw [hfree, List.mem_append, List.mem_reverse] at hx
    rw [hend]
    exact hx.elim (fun hx => hs.ids_below x (hD x hx)) (hs.free_below x)
  · rw [hfree, List.mem_append, List.mem_reverse] at hx'
    exact hx'.elim (hLD x hx) (hs.ids_not_free x (hL x hx))

/-- **Retiring the old segments keeps the ids safe.** Let `m₀` be safe with index
`pre ++ run ++ post`, and let `m` be a store written since `m₀` with fresh entries `out`. Zero
and free the segments of `run` and overflow ids `ovs` that pages of `run` name, in order, then
erase the keys of `run` and insert `out`: the store is safe again. This is the tail of
`RewriteSegments` (lines 379-422) and of `FlattenChain` (lines 494-528). -/
theorem Manager.IdsSafe.retire {m₀ m : Manager} {pre run post out : Index} {ovs : List SegmentId}
    (h : m₀.IdsSafe) (hidx : m₀.index = pre ++ run ++ post) (hf : m₀.FreshSince m out)
    (hov : ovs.Sublist (run.flatMap fun e => m₀.overflowIds e.2)) :
    { (run.ids ++ ovs).foldl Manager.invalidate m with
      index := out.foldl (fun idx e => indexInsert e idx)
        (run.foldl (fun idx (e : ℕ × SegmentInfo) => indexErase idx e.1)
          ((run.ids ++ ovs).foldl Manager.invalidate m).index) }.IdsSafe := by
  obtain ⟨hMidx, hMfree, hMend, -, hMread⟩ := Manager.foldl_invalidate (run.ids ++ ovs) m
  set D := run.ids ++ ovs
  set A := (pre ++ post).flatMap m₀.entryIds
  have hs : (pre ++ run ++ post).Sorted := hidx ▸ h.sorted
  have herase : run.foldl (fun idx e => indexErase idx e.1) (D.foldl Manager.invalidate m).index =
      pre ++ post := by
    rw [hMidx, hf.index, hidx, foldl_indexErase_run hs]
  -- what is freed and what stays live are disjoint parts of the old live ids
  have hD : D.Subperm (run.flatMap m₀.entryIds) :=
    ((hov.append_left _).subperm).trans
      (flatMap_cons_perm (fun e : ℕ × SegmentInfo => e.2.id) (fun e => m₀.overflowIds e.2) run).symm.subperm
  have hkey : (A ++ D).Subperm m₀.liveIds := by
    refine ((List.subperm_append_left A).mpr hD).trans (List.Perm.subperm ?_)
    rw [Manager.liveIds, hidx]
    simp only [A, List.flatMap_append, List.append_assoc]
    exact List.perm_append_comm.append_left _
  have hall : ((A ++ out.ids) ++ D).Subperm (out.ids ++ m₀.liveIds) := by
    rw [List.append_assoc]
    exact (List.perm_append_comm_assoc _ _ _).subperm.trans ((List.subperm_append_left _).mpr hkey)
  obtain ⟨hAO, hDnd, hdisj⟩ := List.nodup_append.mp (nodup_of_subperm hall hf.nodup)
  -- the pages of every entry afterwards are as before
  have hkeep : ∀ x ∈ A ++ out.ids, ∀ i, (D.foldl Manager.invalidate m).readPage x i = m.readPage x i :=
    fun x hx i => by rw [hMread, if_neg fun hc => hdisj hx hc.1]
  have hlive : (pre ++ post ++ out).flatMap (D.foldl Manager.invalidate m).entryIds = A ++ out.ids := by
    rw [List.flatMap_append]
    congr 1
    · refine List.flatMap_congr fun e he => Manager.entryIds_congr fun i => ?_
      have hx : e.2.id ∈ A := List.mem_flatMap.mpr ⟨e, he, .head _⟩
      rw [hkeep _ (List.mem_append_left _ hx), hf.readPage_live (hkey.subset (List.mem_append_left _ hx))]
    · refine Manager.flatMap_entryIds_of_no_overflow fun e he i hi => ?_
      rw [hkeep _ (List.mem_append_right _ (List.mem_map_of_mem _ he))]
      exact hf.written e he i hi
  set M := D.foldl Manager.invalidate m
  set I := out.foldl (fun idx e => indexInsert e idx) (pre ++ post)
  have hlive' : ({ M with index := I } : Manager).liveIds.Subperm (A ++ out.ids) :=
    hlive ▸ flatMap_subperm_flatMap M.entryIds (foldl_indexInsert_subperm out (pre ++ post))
  have hfree' : ({ M with index := I } : Manager).free = D.reverse ++ m.free := hMfree
  rw [herase]
  refine ⟨foldl_indexInsert_sorted out (List.Pairwise.sublist
    ((List.sublist_append_left pre run).append (List.Sublist.refl post)) hs),
    nodup_of_subperm hlive' hAO,
    hf.safe.release (fun x hx => hall.subset (List.mem_append_right _ hx)) hDnd
      (fun x hx => hall.subset (List.mem_append_left _ (hlive'.subset hx)))
      (fun x hx => hdisj (hlive'.subset hx)) hfree' hMend, fun x hx => ?_⟩
  rw [hfree', List.mem_append, List.mem_reverse] at hx
  show M.readPage x 0 = Page.zero
  rw [hMread]
  split_ifs with hc
  · rfl
  · rcases hx with hx | hx
    · exact absurd ⟨hx, rfl⟩ hc
    · rw [Manager.readPage, hf.disk x fun ho => hf.safe.ids_not_free x (List.mem_append_left _ ho) hx]
      exact h.free_zero x (hf.free x hx)

/-! ## A rewrite writes only fresh segments -/

/-- A step of a rewrite from `s` to `s'` that keeps the store fresh since `m₀`, collects no
overflow id, and clears the overflow of every workspace page it changes. -/
structure RewriteState.FreshStep {σ : Type} (m₀ : Manager) (s s' : RewriteState σ) : Prop where
  fresh : m₀.FreshSince s'.mgr s'.rewritten
  overflows : s'.overflowsToClear = s.overflowsToClear
  buffer : ∀ n X, BufferFrom s.mgr.buffer n X → BufferFrom s'.mgr.buffer n X

namespace RewriteState.FreshStep

variable {σ : Type} {m₀ : Manager} {s₁ s₂ s₃ : RewriteState σ}

lemma trans (h₁ : FreshStep m₀ s₁ s₂) (h₂ : FreshStep m₀ s₂ s₃) : FreshStep m₀ s₁ s₃ :=
  ⟨h₂.fresh, h₂.overflows.trans h₁.overflows, fun n X hb => h₂.buffer n X (h₁.buffer n X hb)⟩

/-- A step that leaves the store, the entries written and the overflow ids alone. -/
lemma of_eq (h : m₀.FreshSince s₁.mgr s₁.rewritten) (hm : s₂.mgr = s₁.mgr)
    (hr : s₂.rewritten = s₁.rewritten) (ho : s₂.overflowsToClear = s₁.overflowsToClear) :
    FreshStep m₀ s₁ s₂ :=
  ⟨hm ▸ hr ▸ h, ho, fun _ _ hb => hm ▸ hb⟩

/-- A step from a state with the same store and overflow ids. -/
lemma left {s₀ : RewriteState σ} (h : FreshStep m₀ s₀ s₂) (hm : s₀.mgr = s₁.mgr)
    (ho : s₀.overflowsToClear = s₁.overflowsToClear) : FreshStep m₀ s₁ s₂ :=
  ⟨h.fresh, h.overflows.trans ho, fun n X hb => h.buffer n X (hm ▸ hb)⟩

end RewriteState.FreshStep

section Rewrite

open RewriteState

variable {σ : Type} {B : SegmentBuilder σ} {held : σ → List Record} (sequenceNumber : ℕ)
  {m₀ : Manager}

lemma loadAndFree_freshStep {segs : List Segment} {s s' : RewriteState σ}
    (hsz : ∀ seg ∈ segs, ∃ k ≤ 4, seg.pageCount = 2 ^ k) (h : m₀.FreshSince s.mgr s.rewritten)
    (hl : loadAndFree B sequenceNumber segs s = some s') : FreshStep m₀ s s' := by
  obtain ⟨u, -, -, heq⟩ := loadSegments_eq B sequenceNumber segs s
  have hf := freeProcessed_frame _ _ _ _ hl
  rw [heq] at hf
  obtain ⟨h₁, hb₁⟩ := h.foldl_loadStep sequenceNumber (chainUppers segs u)
    fun x hx => hsz x.1 (map_fst_chainUppers segs u ▸ List.mem_map_of_mem _ hx)
  refine ⟨?_, hf.overflows, fun n X hb => ?_⟩
  · rw [hf.mgr, hf.rewritten]; exact h₁
  · rw [hf.mgr]; exact hb₁ n X hb

lemma loadIfEmitted_freshStep {segs : List Segment} {s s' : RewriteState σ}
    (hsz : ∀ seg ∈ segs, ∃ k ≤ 4, seg.pageCount = 2 ^ k) (h : m₀.FreshSince s.mgr s.rewritten)
    (hl : (if segs.isEmpty then some s else loadAndFree B sequenceNumber segs s) = some s') :
    FreshStep m₀ s s' := by
  split_ifs at hl
  · obtain rfl := Option.some.inj hl
    exact .of_eq h rfl rfl rfl
  · exact loadAndFree_freshStep sequenceNumber hsz h hl

lemma makeRoom_freshStep (hB : B.Contract held) {line₁ line₂ need : ℕ} {s s' : RewriteState σ}
    (h : m₀.FreshSince s.mgr s.rewritten)
    (hm : makeRoom B sequenceNumber line₁ line₂ need s = some s') : FreshStep m₀ s s' := by
  unfold makeRoom at hm
  split_ifs at hm
  · rcases hfin : B.finish s.builder with ⟨b, segs⟩
    simp only [flush, hfin, Option.bind_eq_bind] at hm
    obtain ⟨s₁, h₁, hm⟩ := Option.bind_eq_some.mp hm
    obtain rfl := Option.some.inj hm
    have f₁ : FreshStep m₀ s s₁ := (loadAndFree_freshStep sequenceNumber
      (fun seg hseg => (hB.finish_shaped s.builder seg (by rw [hfin]; exact hseg)).sizeClass)
      (by exact h) h₁).left
        rfl rfl
    exact f₁.trans (.of_eq f₁.fresh rfl rfl rfl)
  · obtain rfl := Option.some.inj hm
    exact .of_eq h rfl rfl rfl

lemma drainWhile_freshStep (hB : B.Contract held) (more : PagePlusRecordMerger → Bool) :
    ∀ (fuel : ℕ) (s s' : RewriteState σ), m₀.FreshSince s.mgr s.rewritten →
      drainWhile B sequenceNumber more fuel s = some s' → FreshStep m₀ s s'
  | 0, _, _, _, h => by cases h
  | fuel + 1, s, s', hs, h => by
    rw [drainWhile_succ] at h
    split_ifs at h
    · obtain ⟨⟨r, pm⟩, -, h⟩ := Option.bind_eq_some.mp h
      obtain ⟨s₂, hs₂, h⟩ := Option.bind_eq_some.mp h
      have f₂ : FreshStep m₀ s s₂ := (loadIfEmitted_freshStep sequenceNumber
        (fun seg hseg => (hB.offer_shaped _ _ seg hseg).sizeClass) (by exact hs) hs₂).left rfl rfl
      exact f₂.trans (drainWhile_freshStep hB more fuel s₂ s' f₂.fresh h)
    · obtain rfl := Option.some.inj h
      exact .of_eq hs rfl rfl rfl

lemma processChains_freshStep (hB : B.Contract held) : ∀ (chains : List PageChain)
    (s s' : RewriteState σ), m₀.FreshSince s.mgr s.rewritten →
      processChains B sequenceNumber chains s = some s' → FreshStep m₀ s s'
  | [], s, s', hs, h => by
    obtain rfl := Option.some.inj h
    exact .of_eq hs rfl rfl rfl
  | pc :: rest, s, s', hs, h => by
    simp only [processChains, Option.bind_eq_bind] at h
    obtain ⟨s₂, hs₂, h⟩ := Option.bind_eq_some.mp h
    have f₂ : FreshStep m₀ s s₂ :=
      (drainWhile_freshStep sequenceNumber hB _ _ _ _ (by exact hs) hs₂).left rfl rfl
    exact f₂.trans ((processChains_freshStep hB rest _ s' (by exact f₂.fresh) h).left rfl rfl)

/-- Copying a segment's pages into the window collects the overflow ids they name. -/
lemma allocChains_overflows : ∀ (pages : List Page) (s : RewriteState σ)
    (r : RewriteState σ × List PageChain × List (SegmentId × ℕ)), allocChains pages s = some r →
    r.1.mgr = s.mgr ∧ r.1.rewritten = s.rewritten ∧
      r.1.overflowsToClear = s.overflowsToClear ++ pages.filterMap Page.overflow
  | [], s, r, h => by obtain rfl := Option.some.inj h; simp
  | p :: ps, s, r, h => by
    simp only [allocChains, Option.bind_eq_bind] at h
    split at h
    · rename_i ov hov
      obtain ⟨⟨a, b₁⟩, -, h⟩ := Option.bind_eq_some.mp h
      obtain ⟨⟨c, b₂⟩, -, h⟩ := Option.bind_eq_some.mp h
      obtain ⟨⟨s', cs, ls⟩, hs', h⟩ := Option.bind_eq_some.mp h
      obtain rfl := Option.some.inj h
      obtain ⟨h₁, h₂, h₃⟩ := allocChains_overflows ps _ _ hs'
      exact ⟨h₁, h₂, h₃.trans (by simp [hov])⟩
    · rename_i hov
      obtain ⟨⟨a, b₁⟩, -, h⟩ := Option.bind_eq_some.mp h
      obtain ⟨⟨s', cs, ls⟩, hs', h⟩ := Option.bind_eq_some.mp h
      obtain rfl := Option.some.inj h
      obtain ⟨h₁, h₂, h₃⟩ := allocChains_overflows ps _ _ hs'
      exact ⟨h₁, h₂, h₃.trans (by simp [hov])⟩

/-- **One segment of a rewrite writes only fresh segments**, and collects overflow ids that the
segment's pages name, in page order. The pages it copies are those `ReadSegment` read, or pages of
segments the flush of lines 310-317 wrote over them, which name none. -/
lemma rewriteOne_fresh (hB : B.Contract held) {s s' : RewriteState σ} {info : SegmentInfo}
    (hinfo : info.id ∈ m₀.liveIds) (hs : m₀.FreshSince s.mgr s.rewritten)
    (h : rewriteOne B sequenceNumber s info = some s') :
    m₀.FreshSince s'.mgr s'.rewritten ∧ ∃ ovs, s'.overflowsToClear = s.overflowsToClear ++ ovs ∧
      ovs.Sublist (m₀.overflowIds info) := by
  simp only [rewriteOne, Option.bind_eq_bind, Option.bind_eq_some] at h
  obtain ⟨s₁, h₁, s₂, h₂, ⟨s₃, chains, loads⟩, h₃, h⟩ := h
  have f₁ := makeRoom_freshStep sequenceNumber hB hs h₁
  have f₂ := makeRoom_freshStep sequenceNumber hB (by exact f₁.fresh.withBuffer _) h₂
  -- the pages read are the segment's own
  have hread : BufferFrom (s₁.mgr.readSegment info.id info.pageCount).buffer info.pageCount
      fun i => (m₀.readPage info.id i).overflow := fun i hi => .inr (by
    simp only [Manager.readSegment, if_pos hi]
    rw [← f₁.fresh.readPage_live hinfo]
    rfl)
  obtain ⟨hm₃, hr₃, ho₃⟩ := allocChains_overflows _ _ _ h₃
  have f₄ := processChains_freshStep sequenceNumber hB _ _ s' (by rw [hm₃, hr₃]; exact f₂.fresh) h
  refine ⟨f₄.fresh, _, f₄.overflows.trans (ho₃.trans (by rw [f₂.overflows, f₁.overflows])), ?_⟩
  rw [Manager.bufferPages, List.filterMap_map]
  exact filterMap_sublist_of_none_or fun i hi => f₂.buffer _ _ hread i (List.mem_range.mp hi)

lemma foldlM_rewriteOne_fresh (hB : B.Contract held) : ∀ (T : Index) (s s' : RewriteState σ),
    (∀ e ∈ T, e.2.id ∈ m₀.liveIds) → m₀.FreshSince s.mgr s.rewritten →
    T.foldlM (fun s e => rewriteOne B sequenceNumber s e.2) s = some s' →
    m₀.FreshSince s'.mgr s'.rewritten ∧ ∃ ovs, s'.overflowsToClear = s.overflowsToClear ++ ovs ∧
      ovs.Sublist (T.flatMap fun e => m₀.overflowIds e.2)
  | [], s, s', _, hs, h => by
    obtain rfl := Option.some.inj h
    exact ⟨hs, [], by simp, .slnil⟩
  | e :: T, s, s', hT, hs, h => by
    simp only [List.foldlM_cons, Option.bind_eq_bind] at h
    obtain ⟨s₁, h₁, h⟩ := Option.bind_eq_some.mp h
    obtain ⟨f₁, o₁, ho₁, hs₁⟩ := rewriteOne_fresh sequenceNumber hB (hT e (.head _)) hs h₁
    obtain ⟨f₂, o₂, ho₂, hs₂⟩ :=
      foldlM_rewriteOne_fresh hB T s₁ s' (fun x hx => hT x (.tail _ hx)) f₁ h
    exact ⟨f₂, o₁ ++ o₂, by rw [ho₂, ho₁, List.append_assoc], by
      rw [List.flatMap_cons]; exact hs₁.append hs₂⟩

end Rewrite

/-! ## The operations -/

/-- **`RewriteSegments` keeps the ids safe**, for every builder that emits segments of size
classes, whatever records it loses. -/
theorem Manager.IdsSafe.rewriteSegments {σ : Type} {B : SegmentBuilder σ} {held : σ → List Record}
    (hB : B.Contract held) {opts : Options} {m m' : Manager} {b : ℕ} {info : SegmentInfo}
    {batch : List Record} {log : List Event} (h : m.IdsSafe) (hmem : (b, info) ∈ m.index)
    (hrun : Treeline.Pg.rewriteSegments B opts m b batch = some (m', log)) : m'.IdsSafe := by
  obtain ⟨pre, run, post, hidx, hsel⟩ :=
    selectSegments_run h.sorted hmem opts.considerNeighborsDuringRewrite
  simp only [Treeline.Pg.rewriteSegments, hsel, Option.bind_eq_bind, Option.some_bind,
    Option.bind_eq_some] at hrun
  obtain ⟨s₁, h₁, s₂, h₂, hrun⟩ := hrun
  have hT : ∀ e ∈ run, e.2.id ∈ m.liveIds := fun e he =>
    Manager.IdsSafe.mem_liveIds (hidx ▸ List.mem_append_left _ (List.mem_append_right _ he)) (.head _)
  obtain ⟨f₁, ovs, hovs, hsub⟩ := foldlM_rewriteOne_fresh m.nextSequenceNumber hB run _ s₁ hT
    (Manager.FreshSince.start h _) h₁
  have f₂ := drainWhile_freshStep m.nextSequenceNumber hB _ _ _ _ (by exact f₁) h₂
  obtain ⟨s₃, h₃, rfl⟩ : ∃ s₃, (if (B.finish s₂.builder).2.isEmpty then
      some { s₂ with builder := (B.finish s₂.builder).1 }
      else loadAndFree B m.nextSequenceNumber (B.finish s₂.builder).2
        { s₂ with builder := (B.finish s₂.builder).1 }) = some s₃ ∧
      m' = (finishRewrite s₃.mgr run s₃.overflowsToClear s₃.rewritten).1 := by
    split_ifs at hrun ⊢ <;> obtain ⟨s₃, h₃, h⟩ := Option.bind_eq_some.mp hrun <;>
      exact ⟨s₃, h₃, (Prod.mk.inj (Option.some.inj h)).1.symm⟩
  have f₃ := loadIfEmitted_freshStep m.nextSequenceNumber
    (fun seg hseg => (hB.finish_shaped _ seg hseg).sizeClass) (by exact f₂.fresh) h₃
  have hov : s₃.overflowsToClear = ovs := by rw [f₃.overflows, f₂.overflows, hovs]; rfl
  rw [hov]
  exact h.retire hidx (f₃.fresh.withBuffer _) hsub

/-- Every page `LoadIntoNewPages` plans names no overflow page. -/
lemma overflow_of_mem_loadPlan {goal sequenceNumber lowerBound upperBound : ℕ} {recs : List Record}
    {x : ℕ × Page} (hx : x ∈ loadPlan goal sequenceNumber lowerBound upperBound recs) :
    x.2.overflow = none := by
  obtain ⟨j, -, rfl⟩ := List.mem_map.mp hx
  exact (plannedPage_header j).1

/-- **`FlattenChain` keeps the ids safe.** -/
theorem Manager.IdsSafe.flattenChain {goal : ℕ} {m m' : Manager} {b : ℕ} {batch : List Record}
    (h : m.IdsSafe) (hg : 0 < goal)
    (hasserts : ∀ line ok, Event.assertion line ok ∈ flattenChainAssertions m b → ok = true)
    (hrun : Treeline.Pg.flattenChain goal m b batch = some m') : m'.IdsSafe := by
  obtain ⟨info, hmem, hpc⟩ := (flattenChainAssertions_hold h.sorted).mp hasserts
  obtain ⟨lo, hi, hidx, hlo, -, -, -⟩ := h.sorted.split hmem
  obtain ⟨hpos, hget⟩ : (m.index.takeWhile fun e => e.1 < b).length = lo.length ∧
      m.index.get? lo.length = some (b, info) := hidx ▸ @lookup_split lo hi (b, info) hlo
  simp only [Treeline.Pg.flattenChain, hpos, hget, Option.bind_eq_bind, Option.some_bind,
    loadIntoNewPages_eq hg] at hrun
  generalize hplan : loadPlan _ _ _ _ _ = plan at hrun
  have hplan' : ∀ x ∈ plan, x.2.overflow = none := hplan ▸ fun x hx => overflow_of_mem_loadPlan hx
  obtain ⟨new, hlen, hnd, hnew, hout, hreads, hframe, hsafe₁, hfree₁, hidx₁, -⟩ :=
    foldl_writeStep_spec plan { m with nextSequenceNumber := m.nextSequenceNumber + 1 } [] m.liveIds
      (h.safe.congr rfl rfl fun _ h => h)
  rcases hw : plan.foldl writeStep ({ m with nextSequenceNumber := m.nextSequenceNumber + 1 }, [])
    with ⟨m₁, newPages⟩
  simp only [hw, List.nil_append] at hrun hout hreads hframe hsafe₁ hfree₁ hidx₁
  obtain rfl := Option.some.inj hrun
  have hids : newPages.ids = new := hout ▸ Index.ids_zipWith _ (fun _ _ => rfl) plan new hlen
  have hfresh : m.FreshSince m₁ newPages := by
    refine ⟨hidx₁, hids ▸ List.nodup_append.mpr ⟨hnd, h.nodup, fun x hx hx' => (hnew x hx).1 hx'⟩,
      hids ▸ hsafe₁, hfree₁, fun x hx => hframe x (hids ▸ hx), fun e he i hi => ?_⟩
    rw [hout, ← List.map_uncurry_zip_eq_zipWith] at he
    obtain ⟨⟨x, id⟩, hxid, rfl⟩ := List.mem_map.mp he
    have hi0 : i = 0 := by
      have : 2 ^ id.fileId = 1 := by rw [(hnew id (List.of_mem_zip hxid).2).2]; rfl
      simp only [SegmentInfo.pageCount, Function.uncurry_apply_pair] at hi
      omega
    subst hi0
    simp only [Function.uncurry_apply_pair]
    rw [hreads _ hxid]
    exact hplan' x (List.of_mem_zip hxid).1
  have hov : ((m.readPage info.id 0).overflow.toList).Sublist
      ([(b, info)].flatMap fun e => m.overflowIds e.2) := by
    cases hov : (m.readPage info.id 0).overflow <;> simp [Manager.overflowIds, hpc, hov]
  exact h.retire (show m.index = lo ++ [(b, info)] ++ hi by simp [hidx]) hfresh hov

/-- **Every reachable store keeps its ids safe.** -/
theorem Reachable.idsSafe {m : Manager} (h : Reachable m) : m.IdsSafe := by
  induction h with
  | bulkLoadSegments hwf hasc hmax =>
    exact (Manager.bulkLoadIntoSegments_refines hwf hasc hmax).1.idsSafe
  | bulkLoadPages hg hasc hmax hm => exact (Manager.bulkLoadIntoPages_refines hg hasc hmax hm).1.idsSafe
  | rewrite hB _ _ hmem _ _ hrun ih => exact ih.rewriteSegments hB hmem hrun
  | flatten _ hg hasserts _ _ hrun ih => exact ih.flattenChain hg hasserts hrun
  | chainOverflow _ hmem hi hnone _ _ ih => exact ih.chainOverflow _ hmem hi hnone

/-- **No live id is reused or freed.** In every store reachable from a bulk load, overflow pages
included, the segment ids of the index and the overflow page ids their pages name are pairwise
distinct and none is on the free list, and every id on the free list has a zeroed page `0`. -/
theorem reachable_ids_safe {m : Manager} (h : Reachable m) :
    m.liveIds.Nodup ∧ (∀ id ∈ m.liveIds, id ∉ m.free) ∧ ∀ id ∈ m.free, m.readPage id 0 = Page.zero :=
  have hs := h.idsSafe
  ⟨hs.nodup, hs.safe.ids_not_free, hs.free_zero⟩

/-- The bulk-loaded scenario with an overflow page holding `(12, [4])` chained to the page of the
segment at `10`. -/
def overflowScenario : Manager :=
  (bulkLoadIntoSegments loadScenario).chainOverflow 10 ⟨⟨0, 0⟩, none, false⟩ 0 [(12, [4])]

theorem overflowScenario_reachable : Reachable overflowScenario :=
  .chainOverflow loadScenario_reachable (by decide) (by decide) (by decide) (by simp)
    (by simp only [List.mem_singleton, forall_eq]; decide)

/-- In the scenario the overflow page's id is live, beside the two segment ids. -/
theorem reachable_ids_safe_overflow :
    Reachable overflowScenario ∧ overflowScenario.liveIds = [⟨0, 0⟩, ⟨0, 2⟩, ⟨0, 1⟩] ∧
      overflowScenario.liveIds.Nodup ∧ (∀ id ∈ overflowScenario.liveIds, id ∉ overflowScenario.free) ∧
      ∀ id ∈ overflowScenario.free, overflowScenario.readPage id 0 = Page.zero :=
  ⟨overflowScenario_reachable, by decide, reachable_ids_safe overflowScenario_reachable⟩

end Treeline.Pg
