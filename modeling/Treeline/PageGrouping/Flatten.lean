import Mathlib.Data.List.Range
import Treeline.PageGrouping.Rewrite

/-!
# Flattening a chain

`Manager::FlattenChain` (`src/page_grouping/manager_rewrite.cc`, lines 433-533) replaces a
one-page segment and its overflow page by fresh one-page segments that hold the newest-wins merge
of the two pages with a batch. This module proves what it does: the merge loop computes the
newest-wins merge, `LoadIntoNewPages` writes that merge in pages of `records_per_page_goal`
records that tile the segment's key range, and the index entry of the segment is replaced by the
entries of the new pages.

## Main definitions

* `Treeline.Pg.plannedPage`, `loadPlan` — the pages `LoadIntoNewPages` writes, as a list.
* `Treeline.Pg.writeStep` — one iteration's write of a planned page.

## Main results

* `Treeline.Pg.flattenMerge_eq_newestWins` — the three-phase merge loop is the newest-wins merge.
* `Treeline.Pg.loadIntoNewPages_eq` — `LoadIntoNewPages` writes the planned pages in order.
* `Treeline.Pg.foldl_writeStep_spec` — each planned page lands on a fresh id of its own.
* `Treeline.Pg.flattenChain_eq` — the store `FlattenChain` returns, with the ids it writes.
* `Treeline.Pg.flattenChain_spec` — the contract of `FlattenChain`.

## Implementation notes

The plan is indexed the way the loop is: page `j` starts at record `j * goal`. Whether it is
written by the full-page loop or as the short last page only decides its sequence number.
-/

namespace Treeline.Pg

/-! ## The merge loop -/

/-- **The merge loop is the newest-wins merge.** With the loop's fuel (the two lengths), the
three loops of lines 464-492 emit the newest-wins merge of an ascending page run with the batch.
-/
theorem flattenMerge_eq_newestWins (fuel : ℕ) {ps : List Record} (rs : List Record)
    (hps : Ascending ps) (hfuel : ps.length + rs.length ≤ fuel + 1) :
    flattenMerge fuel ps rs = newestWins ps rs := by
  induction fuel generalizing ps rs with
  | zero =>
    match ps, rs with
    | ps, [] => cases ps <;> rfl
    | [], _ :: _ => simp [flattenMerge]
    | _ :: _, _ :: _ => simp at hfuel; omega
  | succ fuel ih =>
    match ps, rs with
    | ps, [] => cases ps <;> rfl
    | [], _ :: _ => simp [flattenMerge]
    | p :: ps, r :: rs =>
      have hps' := Ascending.cons_iff.mp hps
      simp only [List.length_cons] at hfuel
      simp only [flattenMerge]
      split_ifs with heq hlt
      · rw [newestWins_cons_of_eq rs heq hps, ih rs hps'.2 (by omega)]
      · rw [newestWins_cons_of_lt ps rs hlt, ih (r :: rs) hps'.2 (by simp; omega)]
      · rw [newestWins_cons_of_forall_lt rs fun x hx => ?_, ih rs hps (by simp; omega)]
        rcases List.mem_cons.mp hx with rfl | hx
        · omega
        · have := hps'.1 x hx; omega

/-! ## The page merge iterator -/

lemma mergeInsert_perm (r : Record) : ∀ l : List Record, (mergeInsert r l).Perm (r :: l)
  | [] => .refl _
  | x :: xs => by
    unfold mergeInsert
    split_ifs
    · exact ((mergeInsert_perm r xs).cons x).trans (.swap r x xs)
    · exact .refl _

lemma ascending_mergeInsert {r : Record} : ∀ {l : List Record}, Ascending l →
    (∀ x ∈ l, x.1 ≠ r.1) → Ascending (mergeInsert r l)
  | [], _, _ => List.pairwise_singleton _ r
  | x :: xs, hl, hne => by
    have hl' := Ascending.cons_iff.mp hl
    have hx := hne x (.head _)
    unfold mergeInsert
    split_ifs with hle
    · refine Ascending.cons_iff.mpr ⟨fun y hy => ?_, ascending_mergeInsert hl'.2
        fun y hy => hne y (.tail _ hy)⟩
      rcases List.mem_cons.mp ((mergeInsert_perm r xs).mem_iff.mp hy) with rfl | hy
      · omega
      · exact hl'.1 y hy
    · refine Ascending.cons_iff.mpr ⟨fun y hy => ?_, hl⟩
      rcases List.mem_cons.mp hy with rfl | hy
      · omega
      · have := hl'.1 y hy; omega

lemma mergeInsert_of_forall_lt {r : Record} : ∀ {l : List Record}, (∀ x ∈ l, x.1 < r.1) →
    mergeInsert r l = l ++ [r]
  | [], _ => rfl
  | x :: xs, h => by
    simp only [mergeInsert, if_pos (Nat.le_of_lt (h x (.head _))), List.cons_append,
      mergeInsert_of_forall_lt fun y hy => h y (.tail _ hy)]

/-- Merging a run of records into an accumulator one by one. -/
lemma foldl_mergeInsert_perm (rs : List Record) : ∀ acc : List Record,
    (rs.foldl (fun acc r => mergeInsert r acc) acc).Perm (acc ++ rs) := by
  induction rs with
  | nil => simp
  | cons r rs ih =>
    intro acc
    exact (ih _).trans (((mergeInsert_perm r acc).append_right rs).trans List.perm_middle.symm)

lemma ascending_foldl_mergeInsert (rs : List Record) : ∀ acc : List Record, Ascending acc →
    ((acc ++ rs).map Prod.fst).Nodup → Ascending (rs.foldl (fun acc r => mergeInsert r acc) acc) := by
  induction rs with
  | nil => intro acc hacc _; simpa using hacc
  | cons r rs ih =>
    intro acc hacc hnd
    have hr : ∀ x ∈ acc, x.1 ≠ r.1 := fun x hx e => by
      simp only [List.map_append, List.map_cons] at hnd
      exact List.disjoint_of_nodup_append hnd (List.mem_map_of_mem _ hx) (e ▸ .head _)
    refine ih _ (ascending_mergeInsert hacc hr) ?_
    exact List.Perm.nodup_iff (List.Perm.map _
      (((mergeInsert_perm r acc).append_right rs).trans List.perm_middle.symm)) |>.mpr hnd

/-- The records of a chain's pages, merged, are a rearrangement of the pages' records. -/
theorem pageMergeIterator_perm (pages : List Page) :
    (pageMergeIterator pages).Perm (pages.map Page.records).flatten := by
  suffices ∀ acc : List Record, (pages.foldl (fun acc p => p.records.foldl
      (fun acc r => mergeInsert r acc) acc) acc).Perm (acc ++ (pages.map Page.records).flatten) by
    simpa using this []
  induction pages with
  | nil => simp
  | cons p ps ih => intro acc; simpa using (ih _).trans ((foldl_mergeInsert_perm _ _).append_right _)

/-- With pairwise distinct keys on ascending pages, the merged records ascend. -/
theorem ascending_pageMergeIterator {pages : List Page} (hasc : ∀ p ∈ pages, Ascending p.records)
    (hkeys : ((pages.map Page.records).flatten.map Prod.fst).Nodup) :
    Ascending (pageMergeIterator pages) := by
  suffices ∀ acc : List Record, Ascending acc → ((acc ++ (pages.map Page.records).flatten).map
      Prod.fst).Nodup → Ascending (pages.foldl (fun acc p => p.records.foldl
        (fun acc r => mergeInsert r acc) acc) acc) from this [] (List.Pairwise.nil) (by simpa using hkeys)
  clear hkeys
  induction pages with
  | nil => intro acc hacc _; simpa using hacc
  | cons p ps ih =>
    intro acc hacc hnd
    simp only [List.foldl_cons]
    refine ih (fun q hq => hasc q (.tail _ hq)) _ (ascending_foldl_mergeInsert _ _ hacc ?_) ?_
    · simp only [List.map_cons, List.flatten_cons, ← List.append_assoc, List.map_append] at hnd
      simpa using (List.nodup_append.mp hnd).1
    · refine List.Perm.nodup_iff (List.Perm.map _ ?_) |>.mpr hnd
      simpa using (foldl_mergeInsert_perm _ _).append_right _

/-- A single ascending page iterates as its records. -/
theorem pageMergeIterator_singleton {p : Page} (h : Ascending p.records) :
    pageMergeIterator [p] = p.records := by
  suffices ∀ acc : List Record, Ascending (acc ++ p.records) →
      p.records.foldl (fun acc r => mergeInsert r acc) acc = acc ++ p.records by
    simpa [pageMergeIterator] using this [] (by simpa using h)
  induction p.records with
  | nil => simp
  | cons r rs ih =>
    intro acc hacc
    have h' := Ascending.append_iff.mp hacc
    rw [List.foldl_cons, mergeInsert_of_forall_lt fun x hx => h'.2.2 x hx r (.head _),
      ih _ (by simpa using hacc)]
    simp

/-! ## The pages `LoadIntoNewPages` writes -/

/-- `⌈n / goal⌉`, the number of pages `LoadIntoNewPages` writes for `n` records. -/
def pagesFor (goal n : ℕ) : ℕ := (n + goal - 1) / goal

lemma lt_pagesFor_iff {goal n j : ℕ} (hg : 0 < goal) : j < pagesFor goal n ↔ j * goal < n := by
  rw [pagesFor, ← Nat.add_one_le_iff, Nat.le_div_iff_mul_le hg, Nat.add_mul, one_mul]
  omega

/-- The full pages, and one more when records are left over. -/
lemma pagesFor_eq {goal n : ℕ} (hg : 0 < goal) :
    pagesFor goal n = n / goal + if n / goal * goal < n then 1 else 0 := by
  have h := Nat.div_add_mod' n goal
  have hr := Nat.mod_lt n hg
  rw [pagesFor, show n + goal - 1 = (n % goal + goal - 1) + n / goal * goal by omega,
    Nat.add_mul_div_right _ _ hg]
  split_ifs with h0
  · rw [show (n % goal + goal - 1) / goal = 1 from Nat.div_eq_of_lt_le (by omega) (by omega),
      add_comm]
  · rw [Nat.div_eq_of_lt (by omega), zero_add, add_zero]

/-- Page `j` of `LoadIntoNewPages`, with its index key: the `goal` records from record
`j * goal` on, over `[page_start_idx == 0 ? lower_bound : first key, next page's first key or
upper_bound)`, under the loop's sequence number when the page is full and `0` when it is the short
last page. -/
def plannedPage (goal sequenceNumber lowerBound upperBound : ℕ) (recs : List Record) (j : ℕ) :
    ℕ × Page :=
  let lower := pageLower lowerBound recs (j * goal)
  (lower, newPage (if (j + 1) * goal ≤ recs.length then sequenceNumber else 0) lower
    (pageUpper upperBound recs ((j + 1) * goal)) ((recs.drop (j * goal)).take goal))

/-- All pages of `LoadIntoNewPages`, in order. -/
def loadPlan (goal sequenceNumber lowerBound upperBound : ℕ) (recs : List Record) :
    List (ℕ × Page) :=
  (List.range (pagesFor goal recs.length)).map (plannedPage goal sequenceNumber lowerBound upperBound recs)

/-- One iteration of `LoadIntoNewPages`'s loops: write a planned page and record its entry. -/
def writeStep (acc : Manager × Index) (x : ℕ × Page) : Manager × Index :=
  let r := acc.1.writeNewPage x.1 x.2
  (r.1, acc.2 ++ [r.2])

section Plan

variable {goal sequenceNumber lowerBound upperBound : ℕ} {recs : List Record}

/-- The full-page loop, started at page `k`, writes the planned pages `k, …, ⌊n / goal⌋ - 1`. -/
lemma fullPages_eq (hg : 0 < goal) : ∀ (fuel k : ℕ) (acc : Manager × Index),
    k * goal ≤ recs.length → recs.length / goal < k + fuel →
    Manager.fullPages goal sequenceNumber lowerBound upperBound recs fuel (k * goal) acc =
      some (recs.length / goal * goal, ((List.range' k (recs.length / goal - k)).map
        (plannedPage goal sequenceNumber lowerBound upperBound recs)).foldl writeStep acc)
  | 0, k, _, hk, hfuel => absurd ((Nat.le_div_iff_mul_le hg).mpr hk) (by omega)
  | fuel + 1, k, (m, out), hk, hfuel => by
    simp only [Manager.fullPages]
    split_ifs with h
    · have hk' : k < recs.length / goal := by
        rw [← Nat.add_one_le_iff, Nat.le_div_iff_mul_le hg, Nat.add_mul, one_mul]; exact h
      rw [show k * goal + goal = (k + 1) * goal by ring, show recs.length / goal - k =
        recs.length / goal - (k + 1) + 1 by omega, List.range'_succ, List.map_cons,
        List.foldl_cons, ← fullPages_eq hg fuel (k + 1) _ (by rw [Nat.add_mul, one_mul]; exact h)
        (by omega)]
      simp [writeStep, plannedPage, Nat.add_mul, h]
    · have : recs.length / goal = k :=
        Nat.div_eq_of_lt_le hk (by rw [Nat.add_mul, one_mul]; omega)
      simp [this]

/-- **`LoadIntoNewPages` writes the planned pages.** For a positive goal, the full-page loop and
the short last page together write `loadPlan`, page by page. -/
theorem loadIntoNewPages_eq (hg : 0 < goal) (m : Manager) :
    m.loadIntoNewPages goal sequenceNumber lowerBound upperBound recs =
      some ((loadPlan goal sequenceNumber lowerBound upperBound recs).foldl writeStep (m, [])) := by
  have hfull := @fullPages_eq goal sequenceNumber lowerBound upperBound recs hg (recs.length + 1) 0
    (m, []) (by simp) (by have := Nat.div_le_self recs.length goal; omega)
  simp only [zero_mul, Nat.sub_zero, ← List.range_eq_range'] at hfull
  have hle : recs.length / goal * goal ≤ recs.length := Nat.div_mul_le_self _ _
  have hlt : recs.length < (recs.length / goal + 1) * goal := by
    rw [Nat.add_mul, one_mul]; exact Nat.lt_div_mul_add hg
  simp only [Manager.loadIntoNewPages, hfull, Option.bind_eq_bind, Option.some_bind]
  split_ifs with h
  · rw [loadPlan, pagesFor_eq hg, if_pos h, List.range_succ, List.map_append, List.foldl_append]
    simp [writeStep, plannedPage, Nat.add_mul, show ¬ (recs.length / goal * goal + goal ≤ recs.length) by
      rw [Nat.add_mul, one_mul] at hlt; omega, pageUpper, show ¬ (recs.length / goal * goal + goal < recs.length) by
      rw [Nat.add_mul, one_mul] at hlt; omega, List.take_of_length_le (show (recs.drop
        (recs.length / goal * goal)).length ≤ goal by simp; rw [Nat.add_mul, one_mul] at hlt; omega)]
  · simp [loadPlan, pagesFor_eq hg, h]

/-! ### What the plan's pages hold -/

@[simp] lemma plannedPage_fst (j : ℕ) :
    (plannedPage goal sequenceNumber lowerBound upperBound recs j).1 =
      pageLower lowerBound recs (j * goal) := rfl

lemma plannedPage_records (hasc : Ascending recs) (j : ℕ) :
    (plannedPage goal sequenceNumber lowerBound upperBound recs j).2.records =
      (recs.drop (j * goal)).take goal :=
  newPage_records (hasc.sublist ((List.take_sublist _ _).trans (List.drop_sublist _ _)))

@[simp] lemma plannedPage_lower (j : ℕ) :
    (plannedPage goal sequenceNumber lowerBound upperBound recs j).2.lower =
      pageLower lowerBound recs (j * goal) := newPage_lower ..

@[simp] lemma plannedPage_upper (j : ℕ) :
    (plannedPage goal sequenceNumber lowerBound upperBound recs j).2.upper =
      inclusiveUpper (pageUpper upperBound recs ((j + 1) * goal)) := newPage_upper ..

/-- The header `LoadIntoNewPages` gives page `j`: no overflow and no checksum, and the loop's
sequence number only when the page is full. -/
lemma plannedPage_header (j : ℕ) :
    (plannedPage goal sequenceNumber lowerBound upperBound recs j).2.overflow = none ∧
      (plannedPage goal sequenceNumber lowerBound upperBound recs j).2.checksum = false ∧
      (plannedPage goal sequenceNumber lowerBound upperBound recs j).2.sequenceNumber =
        if (j + 1) * goal ≤ recs.length then sequenceNumber else 0 := by
  simp [plannedPage]

/-- The chunks of the first `q` pages, read in order, are the first `q * goal` records. -/
lemma flatten_chunks {α : Type} (l : List α) (goal : ℕ) : ∀ q : ℕ,
    ((List.range q).map fun j => (l.drop (j * goal)).take goal).flatten = l.take (q * goal)
  | 0 => by simp
  | q + 1 => by
    rw [List.range_succ, List.map_append, List.flatten_append, flatten_chunks l goal q,
      Nat.add_mul, one_mul, List.take_add]
    simp

lemma dropLast_range : ∀ K : ℕ, (List.range K).dropLast = List.range (K - 1)
  | 0 => rfl
  | K + 1 => by rw [List.range_succ, List.dropLast_concat]; rfl

/-- A record's key, read by index as the loop does. -/
lemma getD_key_lt {l : List Record} (h : Ascending l) {i j : ℕ} (hij : i < j) (hj : j < l.length) :
    (l.getD i (0, [])).1 < (l.getD j (0, [])).1 := by
  rw [List.getD_eq_getElem?_getD, List.getD_eq_getElem?_getD, List.getElem?_eq_getElem (by omega),
    List.getElem?_eq_getElem hj]
  exact List.pairwise_iff_getElem.mp h i j (by omega) hj hij

/-- Pages that hold `recs` in runs of `goal` records and tile `[lower, upper)`: read in order,
their records are `recs`; all but the last hold `goal` records; the first page's key is `lower`
and every later page's key is its first record's; each page's interval runs from its key to the
next page's key, or to `upper` for the last. -/
structure PagesTile (lower upper goal : ℕ) (recs : List Record) (pages : List (ℕ × Page)) :
    Prop where
  length_eq : pages.length = pagesFor goal recs.length
  records_eq : (pages.map fun x => x.2.records).flatten = recs
  full : ∀ x ∈ pages.dropLast, x.2.records.length = goal
  head_key : ∀ x ∈ pages.head?, x.1 = lower
  tail_keys : ∀ x ∈ pages.tail, x.2.records.head?.map Prod.fst = some x.1
  lower_eq : ∀ x ∈ pages, x.2.lower = x.1
  upper_chain : pages.Chain' fun x y => x.2.upper = inclusiveUpper y.1
  upper_last : ∀ x ∈ pages.getLast?, x.2.upper = inclusiveUpper upper

/-- **The planned pages tile the range.** For a positive goal and ascending records, the pages of
`LoadIntoNewPages` hold the records in runs of `goal` and tile `[lower_bound, upper_bound)`. -/
theorem loadPlan_tiles (hg : 0 < goal) (hasc : Ascending recs) :
    PagesTile lowerBound upperBound goal recs
      (loadPlan goal sequenceNumber lowerBound upperBound recs) := by
  have hK : ∀ j, j < pagesFor goal recs.length ↔ j * goal < recs.length := fun j => lt_pagesFor_iff hg
  have hlast : recs.length ≤ pagesFor goal recs.length * goal :=
    Nat.le_of_not_lt fun h => lt_irrefl _ ((hK _).mpr h)
  constructor
  · simp [loadPlan]
  · simp only [loadPlan, List.map_map, Function.comp_def, plannedPage_records hasc]
    rw [flatten_chunks, List.take_of_length_le hlast]
  · simp only [loadPlan, ← List.map_dropLast, dropLast_range, List.mem_map, List.mem_range]
    rintro _ ⟨j, hj, rfl⟩
    have := (hK (j + 1)).mp (by omega)
    rw [plannedPage_records hasc, List.length_take, List.length_drop, Nat.add_mul, one_mul] at *
    omega
  · simp only [loadPlan, List.head?_map, List.head?_range]
    split_ifs <;> simp [pageLower]
  · simp only [loadPlan, ← List.map_tail]
    cases h : pagesFor goal recs.length with
    | zero => simp
    | succ K =>
      simp only [List.range_succ_eq_map, List.tail_cons, List.map_map, List.mem_map, List.mem_range,
        Function.comp_apply]
      rintro _ ⟨j, hj, rfl⟩
      have hlt := (hK (j + 1)).mp (by omega)
      rw [plannedPage_records hasc, plannedPage_fst, pageLower, if_neg (by positivity),
        List.getD_eq_getElem?_getD, List.getElem?_eq_getElem hlt]
      simp [List.head?_take, Nat.pos_iff_ne_zero.mp hg, List.getElem?_eq_getElem hlt]
  · simp [loadPlan]
  · rw [loadPlan, List.chain'_map]
    cases h : pagesFor goal recs.length with
    | zero => exact List.chain'_nil
    | succ K =>
      refine (List.chain'_range_succ _ K).mpr fun j hj => ?_
      have hlt := (hK (j + 1)).mp (by omega)
      simp [pageUpper, pageLower, hlt, Nat.pos_iff_ne_zero.mp hg]
  · simp only [loadPlan, List.getLast?_map, List.getLast?_range]
    split_ifs with h0
    · simp
    · simp [pageUpper, Nat.sub_add_cancel (Nat.pos_of_ne_zero h0), Nat.not_lt.mpr hlast]

/-- The plan's keys strictly ascend; each lies at or above `lower_bound` and at or below some
record's key. -/
theorem loadPlan_keys (hg : 0 < goal) (hasc : Ascending recs) (hlb : ∀ r ∈ recs, lowerBound ≤ r.1) :
    (loadPlan goal sequenceNumber lowerBound upperBound recs).Pairwise (fun x y => x.1 < y.1) ∧
      ∀ x ∈ loadPlan goal sequenceNumber lowerBound upperBound recs,
        lowerBound ≤ x.1 ∧ ∃ r ∈ recs, x.1 ≤ r.1 := by
  have hK : ∀ j, j < pagesFor goal recs.length ↔ j * goal < recs.length := fun j => lt_pagesFor_iff hg
  have hmem : ∀ i < recs.length, recs.getD i (0, []) ∈ recs := fun i hi => by
    rw [List.getD_eq_getElem?_getD, List.getElem?_eq_getElem hi]; exact List.getElem_mem hi
  constructor
  · refine List.pairwise_map.mpr ((List.pairwise_lt_range _).imp_of_mem fun {i j} _ hj hij => ?_)
    have hj' := (hK j).mp (List.mem_range.mp hj)
    have hij' : i * goal < j * goal := Nat.mul_lt_mul_of_pos_right hij hg
    simp only [plannedPage_fst, pageLower, if_neg (show j * goal ≠ 0 by omega)]
    split_ifs with hi
    · exact (hlb _ (hmem 0 (by omega))).trans_lt (getD_key_lt hasc (show 0 < j * goal by omega) hj')
    · exact getD_key_lt hasc hij' hj'
  · simp only [loadPlan, List.mem_map, List.mem_range]
    rintro _ ⟨j, hj, rfl⟩
    have hj' := (hK j).mp hj
    simp only [plannedPage_fst, pageLower]
    split_ifs with h0
    · exact ⟨le_rfl, _, hmem 0 (by omega), hlb _ (hmem 0 (by omega))⟩
    · exact ⟨hlb _ (hmem _ hj'), _, hmem _ hj', le_rfl⟩

end Plan

/-! ## Every planned page lands on a fresh id -/

/-- Writing one page as a new segment: the id is fresh, the page is at its page `0`, and no
other segment changes. -/
lemma writeNewPage_spec {m : Manager} {ids : List SegmentId} (hs : m.AllocSafe ids) (lower : ℕ)
    (page : Page) : ∃ id, (m.writeNewPage lower page).2 = (lower, ⟨id, none, false⟩) ∧ id ∉ ids ∧
      id.fileId = 0 ∧ (m.writeNewPage lower page).1.readPage id 0 = page ∧
      (∀ x ≠ id, (m.writeNewPage lower page).1.disk x = m.disk x) ∧
      (m.writeNewPage lower page).1.AllocSafe (id :: ids) ∧
      (∀ x ∈ (m.writeNewPage lower page).1.free, x ∈ m.free) ∧
      (m.writeNewPage lower page).1.index = m.index ∧
      (m.writeNewPage lower page).1.nextSequenceNumber = m.nextSequenceNumber := by
  obtain ⟨hnot, hfile, hsafe, hfree, hidx, hdisk, -, hseq⟩ := Manager.acquireSegment_spec one_pos hs
  refine ⟨(m.acquireSegment 1).1, rfl, hnot, hfile, ?_, fun x hx => ?_,
    hsafe.congr rfl rfl fun _ h => h, hfree, hidx, hseq⟩
  · simp [Manager.writeNewPage, Manager.readPage, Manager.writePages]
  · simp [Manager.writeNewPage, Manager.writePages, hx, hdisk]

/-- **The planned pages land on fresh, distinct ids.** Writing a plan page by page records one
entry per page with the page's key, puts each page at page `0` of its own new id (none of the
protected ids), and changes no other segment; only the free list shrinks. -/
theorem foldl_writeStep_spec (plan : List (ℕ × Page)) : ∀ (m : Manager) (out : Index)
    (ids : List SegmentId), m.AllocSafe ids → ∃ new : List SegmentId,
      new.length = plan.length ∧ new.Nodup ∧ (∀ id ∈ new, id ∉ ids ∧ id.fileId = 0) ∧
      (plan.foldl writeStep (m, out)).2 =
        out ++ List.zipWith (fun x id => (x.1, ⟨id, none, false⟩)) plan new ∧
      (∀ x ∈ plan.zip new, (plan.foldl writeStep (m, out)).1.readPage x.2 0 = x.1.2) ∧
      (∀ id ∉ new, (plan.foldl writeStep (m, out)).1.disk id = m.disk id) ∧
      (plan.foldl writeStep (m, out)).1.AllocSafe (new ++ ids) ∧
      (∀ x ∈ (plan.foldl writeStep (m, out)).1.free, x ∈ m.free) ∧
      (plan.foldl writeStep (m, out)).1.index = m.index ∧
      (plan.foldl writeStep (m, out)).1.nextSequenceNumber = m.nextSequenceNumber := by
  induction plan with
  | nil => exact fun m out ids hs => ⟨[], rfl, .nil, by simp, by simp, by simp, by simp, by simpa, by simp,
      rfl, rfl⟩
  | cons x plan ih =>
    intro m out ids hs
    obtain ⟨id, he, hnot, hfile, hread, hdisk, hsafe, hfree, hidx, hseq⟩ := writeNewPage_spec hs x.1 x.2
    obtain ⟨new, hlen, hnd, hnew, hout, hreads, hframe, hsafe', hfree', hidx', hseq'⟩ :=
      ih _ (out ++ [(x.1, ⟨id, none, false⟩)]) _ hsafe
    have hid : id ∉ new := fun h => (hnew id h).1 (.head _)
    simp only [List.foldl_cons, writeStep, he] at hout hreads hframe hsafe' hfree' hidx' hseq' ⊢
    refine ⟨id :: new, by simp [hlen], .cons hid hnd, ?_, by simp [hout],
      ?_, ?_, hsafe'.congr rfl rfl ?_, fun y hy => hfree y (hfree' y hy), hidx'.trans hidx,
      hseq'.trans hseq⟩
    · rintro y (_ | ⟨_, hy⟩)
      · exact ⟨hnot, hfile⟩
      · exact ⟨fun h => (hnew y hy).1 (.tail _ h), (hnew y hy).2⟩
    · rintro y (_ | ⟨_, hy⟩)
      · rw [Manager.readPage, hframe id hid, ← Manager.readPage, hread]
      · exact hreads y hy
    · intro y hy
      rw [hframe y fun h => hy (.tail _ h), hdisk y fun h => hy (h ▸ .head _)]
    · intro y hy
      simp only [List.mem_append, List.mem_cons] at hy ⊢
      tauto

/-- Reading the recorded entries' pages back gives the plan. -/
lemma map_zipWith_entries {read : SegmentId → Page} : ∀ {plan : List (ℕ × Page)}
    {ids : List SegmentId}, ids.length = plan.length → (∀ x ∈ plan.zip ids, read x.2 = x.1.2) →
    (List.zipWith (fun x id => (x.1, (⟨id, none, false⟩ : SegmentInfo))) plan ids).map
      (fun e => (e.1, read e.2.id)) = plan
  | [], [], _, _ => rfl
  | x :: plan, id :: ids, hlen, h => by
    simp only [List.zipWith_cons_cons, List.map_cons, h (x, id) (.head _),
      map_zipWith_entries (by simpa using hlen) fun y hy => h y (.tail _ hy)]

lemma map_fst_zipWith_entries : ∀ {plan : List (ℕ × Page)} {ids : List SegmentId},
    ids.length = plan.length →
    (List.zipWith (fun x id => (x.1, (⟨id, none, false⟩ : SegmentInfo))) plan ids).map Prod.fst =
      plan.map Prod.fst
  | [], [], _ => rfl
  | _ :: _, id :: ids, h => by
    simp only [List.zipWith_cons_cons, List.map_cons, map_fst_zipWith_entries (by simpa using h)]
  | [], _ :: _, h | _ :: _, [], h => by simp at h

lemma mem_zipWith_entries : ∀ {plan : List (ℕ × Page)} {ids : List SegmentId}
    {e : ℕ × SegmentInfo}, e ∈ List.zipWith (fun x id => (x.1, (⟨id, none, false⟩ : SegmentInfo)))
      plan ids → ∃ id ∈ ids, e.2 = ⟨id, none, false⟩
  | [], _, _, h => by simp at h
  | _ :: _, [], _, h => by simp at h
  | _ :: _, id :: _, _, h => by
    rcases List.mem_cons.mp h with rfl | h
    · exact ⟨id, .head _, rfl⟩
    · obtain ⟨id', hid', he⟩ := mem_zipWith_entries h
      exact ⟨id', .tail _ hid', he⟩

/-! ## The contract of `FlattenChain` -/

section Contract

variable {g : ℕ} {m : Manager} {base upper : ℕ} {info : SegmentInfo} {batch : List Record}

/-- The merged records `FlattenChain` writes lie in the segment's range. -/
lemma flatten_range (hasc : ∀ p ∈ m.chainPages info.id, Ascending p.records)
    (hkeys : (((m.chainPages info.id).map Page.records).flatten.map Prod.fst).Nodup)
    (hrange : ∀ p ∈ m.chainPages info.id, ∀ r ∈ p.records, base ≤ r.1 ∧ r.1 < upper)
    (hbatch : Ascending batch) (hbrange : ∀ r ∈ batch, base ≤ r.1 ∧ r.1 < upper) :
    Ascending (newestWins (pageMergeIterator (m.chainPages info.id)) batch) ∧
      ∀ r ∈ newestWins (pageMergeIterator (m.chainPages info.id)) batch, base ≤ r.1 ∧ r.1 < upper := by
  refine ⟨ascending_newestWins (ascending_pageMergeIterator hasc hkeys) hbatch, fun r hr => ?_⟩
  rcases (mem_newestWins hbatch _ r).mp hr with h | ⟨h, -⟩
  · exact hbrange r h
  · obtain ⟨l, hl, hr⟩ := List.mem_flatten.mp ((pageMergeIterator_perm _).mem_iff.mp h)
    obtain ⟨p, hp, rfl⟩ := List.mem_map.mp hl
    exact hrange p hp r hr

/-- **What `FlattenChain` computes.** Under the hypotheses of `flattenChain_spec`, with the
allocator unable to hand out any of the ids `P` (the old pages among them), `FlattenChain` writes
the planned pages onto fresh, distinct one-page ids, zeroes and frees the old pages, and splices
the new entries into the index in place of `base`.

**Proof sketch.** The sorted index splits around `base`, which fixes the lookup and the upper
bound. The merged chain ascends, so the merge loop is the newest-wins merge. `LoadIntoNewPages`
writes the plan onto fresh ids; its keys ascend inside `[base, upper)`, so the inserts land
between the entries below and above `base`. -/
lemma flattenChain_eq {P : List SegmentId} (hg : 0 < g) (hsorted : m.index.Sorted)
    (hmem : (base, info) ∈ m.index) (hupper : (indexUpperBound m.index base).getD kMaxKey = upper)
    (hasc : ∀ p ∈ m.chainPages info.id, Ascending p.records)
    (hkeys : (((m.chainPages info.id).map Page.records).flatten.map Prod.fst).Nodup)
    (hrange : ∀ p ∈ m.chainPages info.id, ∀ r ∈ p.records, base ≤ r.1 ∧ r.1 < upper)
    (hbatch : Ascending batch) (hbrange : ∀ r ∈ batch, base ≤ r.1 ∧ r.1 < upper)
    (hsafe : m.AllocSafe P) :
    ∃ (m₁ : Manager) (ids : List SegmentId),
      ids.length = (loadPlan g m.nextSequenceNumber base upper
        (newestWins (pageMergeIterator (m.chainPages info.id)) batch)).length ∧
      ids.Nodup ∧ (∀ id ∈ ids, id ∉ P ∧ id.fileId = 0) ∧
      (∀ x ∈ (loadPlan g m.nextSequenceNumber base upper
        (newestWins (pageMergeIterator (m.chainPages info.id)) batch)).zip ids, m₁.readPage x.2 0 = x.1.2) ∧
      (∀ id ∉ ids, m₁.disk id = m.disk id) ∧ m₁.AllocSafe (ids ++ P) ∧ (∀ x ∈ m₁.free, x ∈ m.free) ∧
      flattenChain g m base batch = some
        { (m.readPage info.id 0).overflow.toList.foldl Manager.invalidate (m₁.invalidate info.id) with
          index := m.index.filter (fun e => e.1 < base) ++
            List.zipWith (fun x id => (x.1, (⟨id, none, false⟩ : SegmentInfo)))
              (loadPlan g m.nextSequenceNumber base upper
                (newestWins (pageMergeIterator (m.chainPages info.id)) batch)) ids ++
            m.index.filter (fun e => base < e.1) } := by
  obtain ⟨lo, hi, hidx, hlo, hhi, hflo, hfhi⟩ := hsorted.split hmem
  set pmi := pageMergeIterator (m.chainPages info.id)
  set M := newestWins pmi batch
  have hpmi : Ascending pmi := ascending_pageMergeIterator hasc hkeys
  obtain ⟨hM, hMrange⟩ := flatten_range hasc hkeys hrange hbatch hbrange
  -- the lookup of lines 437-447
  obtain ⟨hpos, hget⟩ : (m.index.takeWhile fun e => e.1 < base).length = lo.length ∧
      m.index.get? lo.length = some (base, info) := hidx ▸ @lookup_split lo hi (base, info) hlo
  have hhead : (hi.head?.map Prod.fst).getD kMaxKey = upper := by
    rw [← hupper, hidx, indexUpperBound_split hlo hhi]
  have hup : ((m.index.drop (lo.length + 1)).head?.map Prod.fst).getD kMaxKey = upper := by
    simpa [hidx] using hhead
  -- the pages written
  set plan := loadPlan g m.nextSequenceNumber base upper M
  obtain ⟨ids, hlen, hnd, hids, hout, hreads, hframe, hsafe₁, hfree₁, hidx₁, -⟩ :=
    foldl_writeStep_spec plan { m with nextSequenceNumber := m.nextSequenceNumber + 1 } [] P
      (hsafe.congr rfl rfl fun _ h => h)
  set m₁ := (plan.foldl writeStep ({ m with nextSequenceNumber := m.nextSequenceNumber + 1 }, [])).1
  set new := List.zipWith (fun x id => (x.1, (⟨id, none, false⟩ : SegmentInfo))) plan ids
  refine ⟨m₁, ids, hlen, hnd, hids, hreads, hframe, hsafe₁, hfree₁, ?_⟩
  have hkeys' := @loadPlan_keys g m.nextSequenceNumber base upper M hg hM fun r hr => (hMrange r hr).1
  have hfst : new.map Prod.fst = plan.map Prod.fst := map_fst_zipWith_entries hlen
  have hsorted' : Index.Sorted new := Index.sorted_of_keys hfst (List.pairwise_map.mpr hkeys'.1)
  have hkey : ∀ e ∈ new, base ≤ e.1 ∧ e.1 < upper := by
    intro e he
    obtain ⟨x, hx, hxe⟩ := List.mem_map.mp (hfst ▸ List.mem_map_of_mem Prod.fst he)
    obtain ⟨h1, r, hr, h2⟩ := hkeys'.2 x hx
    exact ⟨hxe ▸ h1, hxe ▸ h2.trans_lt (hMrange r hr).2⟩
  obtain ⟨-, hshi, -, -, -⟩ := Index.sorted_split (hidx ▸ hsorted)
  have hins : new.foldl (fun idx e => indexInsert e idx) (indexErase m.index base) =
      m.index.filter (fun e => e.1 < base) ++ new ++ m.index.filter (fun e => base < e.1) := by
    simp only [hidx]
    rw [indexErase_split hlo hhi, foldl_indexInsert_middle hsorted'
      (fun e he x hx => (hlo x hx).trans_le (hkey e he).1)
      fun e he x hx => Index.lt_of_lt_next hshi (hhead ▸ (hkey e he).2) x hx, ← hidx, hflo, hfhi]
  simp only [flattenChain, hpos, hget, hup, Option.bind_eq_bind, Option.some_bind,
    flattenMerge_eq_newestWins _ _ hpmi (Nat.le_succ _), loadIntoNewPages_eq hg]
  rw [show (plan.foldl writeStep ({ m with nextSequenceNumber := m.nextSequenceNumber + 1 }, [])) =
    (m₁, new) from Prod.ext rfl (by simpa using hout)]
  simp only [(Manager.foldl_invalidate _ _).1, Manager.invalidate_index, hidx₁, hins]
  rfl

/-- **`FlattenChain` replaces a segment by pages that tile its range.** Let `base` be an index
key whose segment's page `0` and overflow page hold pairwise distinct keys in `[base, upper)`,
`upper` the next index key or `MAX`, the batch ascending in the same range, the goal positive,
and allocation unable to hand out the old pages' ids. Then `FlattenChain` succeeds; the index
entry of `base` is replaced by new one-page segments, the others are unchanged; the new pages
hold the newest-wins merge of the chain with the batch in runs of `goal` records and tile
`[base, upper)`; and the old main and overflow pages are zeroed and freed. (`FlattenChain` reads
only page `0` of the segment, so its page count does not matter here.)

**Proof sketch.** `flattenChain_eq` gives the store; the new ids are fresh, so the invalidation
leaves their pages alone and reading the entries back gives the plan, which tiles the range. -/
theorem flattenChain_spec {g : ℕ} {m : Manager} {base upper : ℕ} {info : SegmentInfo}
    {batch : List Record} (hg : 0 < g) (hsorted : m.index.Sorted) (hmem : (base, info) ∈ m.index)
    (hupper : (indexUpperBound m.index base).getD kMaxKey = upper)
    (hasc : ∀ p ∈ m.chainPages info.id, Ascending p.records)
    (hkeys : (((m.chainPages info.id).map Page.records).flatten.map Prod.fst).Nodup)
    (hrange : ∀ p ∈ m.chainPages info.id, ∀ r ∈ p.records, base ≤ r.1 ∧ r.1 < upper)
    (hbatch : Ascending batch) (hbrange : ∀ r ∈ batch, base ≤ r.1 ∧ r.1 < upper)
    (hsafe : m.AllocSafe (info.id :: (m.readPage info.id 0).overflow.toList)) :
    ∃ m' new, flattenChain g m base batch = some m' ∧
      m'.index = m.index.filter (fun e => e.1 < base) ++ new ++
        m.index.filter (fun e => base < e.1) ∧
      (∀ e ∈ new, e.2.pageCount = 1) ∧
      PagesTile base upper g (newestWins (pageMergeIterator (m.chainPages info.id)) batch)
        (new.map fun e => (e.1, m'.readPage e.2.id 0)) ∧
      m'.readPage info.id 0 = Page.zero ∧ info.id ∈ m'.free ∧
      ∀ o ∈ (m.readPage info.id 0).overflow, m'.readPage o 0 = Page.zero ∧ o ∈ m'.free := by
  obtain ⟨m₁, ids, hlen, -, hids, hreads, -, -, -, hflat⟩ :=
    flattenChain_eq hg hsorted hmem hupper hasc hkeys hrange hbatch hbrange hsafe
  set ov := (m.readPage info.id 0).overflow
  obtain ⟨-, hfree₃, -, -, hread₃⟩ := Manager.foldl_invalidate ov.toList (m₁.invalidate info.id)
  set m₃ := ov.toList.foldl Manager.invalidate (m₁.invalidate info.id)
  refine ⟨_, _, hflat, rfl, ?_, ?_, ?_, ?_, fun o ho => ?_⟩
  · intro e he
    obtain ⟨id, hid, he⟩ := mem_zipWith_entries he
    simp [SegmentInfo.pageCount, he, (hids id hid).2]
  · show PagesTile base upper g _ ((List.zipWith _ _ ids).map fun e : ℕ × SegmentInfo => (e.1, m₃.readPage e.2.id 0))
    rw [@map_zipWith_entries (fun id => m₃.readPage id 0) _ ids hlen fun x hx => ?_]
    · exact loadPlan_tiles hg (flatten_range hasc hkeys hrange hbatch hbrange).1
    have hx' := (hids x.2 (List.of_mem_zip hx).2).1
    show m₃.readPage x.2 0 = x.1.2
    rw [hread₃, if_neg (show ¬(x.2 ∈ ov.toList ∧ (0 : ℕ) = 0) from fun h => hx' (.tail _ h.1)),
      Manager.readPage_invalidate,
      if_neg (show ¬(x.2 = info.id ∧ (0 : ℕ) = 0) from fun h => hx' (h.1 ▸ List.mem_cons_self _ _))]
    exact hreads x hx
  · show m₃.readPage info.id 0 = Page.zero
    rw [hread₃, Manager.readPage_invalidate]
    simp
  · simp [hfree₃]
  · show m₃.readPage o 0 = Page.zero ∧ o ∈ m₃.free
    rw [hread₃, if_pos ⟨Option.mem_toList.mpr ho, rfl⟩]
    exact ⟨rfl, by simp [hfree₃, Option.mem_toList.mpr ho]⟩

end Contract

/-- Spec scenario 6: the one-page segment at base `1000` holds `(1000, v0)` on its page and
`(1010, v1)` on its overflow page; the files of one-page segments end after both. -/
def flattenScenario : Manager :=
  ⟨[(1000, ⟨⟨0, 0⟩, none, true⟩)],
    fun id i =>
      if id = ⟨0, 0⟩ ∧ i = 0 then ⟨1000, inclusiveUpper kMaxKey, [(1000, [0])], some ⟨0, 1⟩, none, 3, true⟩
      else if id = ⟨0, 1⟩ ∧ i = 0 then ⟨1000, inclusiveUpper kMaxKey, [(1010, [1])], none, none, 3, true⟩
      else Page.zero,
    fun f => if f = 0 then 2 else 0, [], 4, fun _ => Page.zero⟩

/-- Scenario 6 flattened with the batch `(1010, v1')`, `(1020, v2)` at two records per page. -/
theorem flattenChain_spec_scenario :
    ∃ m' new, flattenChain 2 flattenScenario 1000 [(1010, [2]), (1020, [3])] = some m' ∧
      m'.index = flattenScenario.index.filter (fun e => e.1 < 1000) ++ new ++
        flattenScenario.index.filter (fun e => 1000 < e.1) ∧
      (∀ e ∈ new, e.2.pageCount = 1) ∧
      PagesTile 1000 kMaxKey 2 (newestWins (pageMergeIterator (flattenScenario.chainPages ⟨0, 0⟩))
          [(1010, [2]), (1020, [3])]) (new.map fun e => (e.1, m'.readPage e.2.id 0)) ∧
      m'.readPage ⟨0, 0⟩ 0 = Page.zero ∧ ⟨0, 0⟩ ∈ m'.free ∧
      ∀ o ∈ (flattenScenario.readPage ⟨0, 0⟩ 0).overflow, m'.readPage o 0 = Page.zero ∧ o ∈ m'.free :=
  @flattenChain_spec 2 flattenScenario 1000 kMaxKey ⟨⟨0, 0⟩, none, true⟩ [(1010, [2]), (1020, [3])]
    (by decide) (by unfold Index.Sorted; decide) (by decide) rfl (by unfold Ascending; decide)
    (by decide) (by decide) (by unfold Ascending; decide) (by decide)
    ⟨by decide, by decide, by decide, by decide⟩

/-- **The pages of `LoadIntoNewPages` do not carry the header of `LoadIntoNewSegment`.** In
scenario 6 `next_sequence_number_` is `4` on entry and `5` afterwards. The two new pages go to
the fresh ids `(0, 2)` and `(0, 3)`: the full page carries `4` but no checksum, and the short
last page carries `0` (line 383) and no checksum either. -/
theorem flattenChain_pages_lack_header :
    (flattenChain 2 flattenScenario 1000 [(1010, [2]), (1020, [3])]).map (fun m =>
      (m.nextSequenceNumber, m.index.map (fun e => e.2.id),
        (m.readPage ⟨0, 2⟩ 0).sequenceNumber, (m.readPage ⟨0, 2⟩ 0).checksum,
        (m.readPage ⟨0, 3⟩ 0).sequenceNumber, (m.readPage ⟨0, 3⟩ 0).checksum)) =
      some (5, [⟨0, 2⟩, ⟨0, 3⟩], 4, false, 0, false) := by
  decide

end Treeline.Pg
