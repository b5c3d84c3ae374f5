import Treeline.Reorg.Frames
import Treeline.Reorg.Readers

/-!
# The two passes of a reorganization

`DBImpl::ReorganizeOverflowChain` (`src/db/db_impl_reorg.cc`) redistributes the records of an
overflow chain in two passes over `PageMergeIterator`. The first (lines 107-119) keeps the key of
every `records_per_page`-th record after the first as a page boundary, between the chain's own
lower and upper boundaries; the second (lines 144-153) puts the `count`-th record on page
`count / records_per_page`. This module computes what the two passes build: page `i` of the
`⌈|R| / r⌉` new pages has the boundaries `i` and `i + 1` and the records `R[i·r … i·r + r)`, and
with the records in ascending key order that is a page holding exactly the records of its own
interval.

## Main definitions

* `Treeline.DBImpl.KeyAscending` — records in strictly ascending key order.
* `Treeline.DBImpl.chainRecords` — the chain's records as `PageMergeIterator` yields them.
* `Treeline.DBImpl.newPagesOf` — the pages the two passes build.

## Main results

* `Treeline.DBImpl.reorganizeOverflowChain_commit` — a run that reorganizes commits
  `newPagesOf` with a positive `records_per_page`.
* `Treeline.DBImpl.newPagesOf_search` — on a new page, the search for any key of its interval
  gives the chain's value for it.
* `Treeline.DBImpl.reorganize_redistributes_records` — the new pages hold the chain's records
  exactly once, in key order, each inside its page's interval, and tile the chain's interval.
-/

namespace Treeline.DBImpl

/-! ## Key order -/

/-- Records in strictly ascending key order: what `PageMergeIterator` yields, and what a page
holds. -/
def KeyAscending (l : List (Slice × Slice)) : Prop :=
  l.Pairwise fun a b => sliceCompare a.1 b.1 = .lt

lemma mem_insertByKey {kv x : Slice × Slice} : ∀ {l : List (Slice × Slice)},
    x ∈ insertByKey kv l → x = kv ∨ x ∈ l
  | [], h => by simpa [insertByKey] using h
  | y :: ys, h => by
    simp only [insertByKey] at h
    split at h
    · rcases List.mem_cons.mp h with rfl | h
      · exact .inr (List.mem_cons_self _ _)
      · exact (mem_insertByKey h).imp_right (List.mem_cons_of_mem y)
    · exact (List.mem_cons.mp h).imp_right (List.mem_cons_of_mem y)
    · exact List.mem_cons.mp h

lemma keyAscending_insertByKey (kv : Slice × Slice) : ∀ {l : List (Slice × Slice)},
    KeyAscending l → KeyAscending (insertByKey kv l)
  | [], _ => List.pairwise_singleton _ _
  | y :: ys, h => by
    obtain ⟨hy, hys⟩ := List.pairwise_cons.mp h
    simp only [insertByKey]
    split
    · next hlt =>
      refine List.pairwise_cons.mpr ⟨fun x hx => ?_, keyAscending_insertByKey kv hys⟩
      rcases mem_insertByKey hx with rfl | hx
      exacts [hlt, hy x hx]
    · next heq =>
      rw [sliceCompare_eq_iff] at heq
      exact List.pairwise_cons.mpr ⟨fun x hx => heq ▸ hy x hx, hys⟩
    · next hgt =>
      have hlt : sliceCompare kv.1 y.1 = .lt := by rw [sliceCompare_swap, hgt]; rfl
      exact List.pairwise_cons.mpr ⟨fun x hx => (List.mem_cons.mp hx).elim (· ▸ hlt)
        fun hx => sliceCompare_lt_trans hlt (hy x hx), h⟩

/-- A record above every key of a key-ordered list is appended. -/
lemma insertByKey_of_lt {kv : Slice × Slice} : ∀ {l : List (Slice × Slice)},
    (∀ x ∈ l, sliceCompare x.1 kv.1 = .lt) → insertByKey kv l = l ++ [kv]
  | [], _ => rfl
  | y :: ys, h => by
    rw [insertByKey, h y (List.mem_cons_self _ _),
      insertByKey_of_lt fun x hx => h x (List.mem_cons_of_mem y hx)]
    rfl

lemma foldl_insertByKey (l : List (Slice × Slice)) : ∀ acc : List (Slice × Slice),
    KeyAscending acc → KeyAscending (l.foldl (fun acc kv => insertByKey kv acc) acc) ∧
      ∀ x ∈ l.foldl (fun acc kv => insertByKey kv acc) acc, x ∈ acc ∨ x ∈ l := by
  induction l with
  | nil => exact fun acc h => ⟨h, fun x hx => .inl hx⟩
  | cons kv l ih =>
    intro acc h
    obtain ⟨h1, h2⟩ := ih _ (keyAscending_insertByKey kv h)
    refine ⟨h1, fun x hx => ?_⟩
    rcases h2 x hx with hx | hx
    · rcases mem_insertByKey hx with rfl | hx
      exacts [.inr (List.mem_cons_self _ _), .inl hx]
    · exact .inr (List.mem_cons_of_mem kv hx)

/-- `PageMergeIterator` yields its records in ascending key order, each from one of the pages. -/
lemma pageMergeIterator_spec (pages : List Page) :
    KeyAscending (pageMergeIterator pages) ∧
      ∀ x ∈ pageMergeIterator pages, ∃ p ∈ pages, x ∈ p.records := by
  suffices ∀ acc, KeyAscending acc →
      KeyAscending (pages.foldl (fun acc p => p.records.foldl (fun acc kv => insertByKey kv acc) acc)
        acc) ∧
      ∀ x ∈ pages.foldl (fun acc p => p.records.foldl (fun acc kv => insertByKey kv acc) acc) acc,
        x ∈ acc ∨ ∃ p ∈ pages, x ∈ p.records by
    obtain ⟨h1, h2⟩ := this [] List.Pairwise.nil
    exact ⟨h1, fun x hx => (h2 x hx).resolve_left (List.not_mem_nil x)⟩
  induction pages with
  | nil => exact fun acc h => ⟨h, fun x hx => .inl hx⟩
  | cons p pages ih =>
    intro acc h
    obtain ⟨hp1, hp2⟩ := foldl_insertByKey p.records acc h
    obtain ⟨h1, h2⟩ := ih _ hp1
    refine ⟨h1, fun x hx => ?_⟩
    rcases h2 x hx with hx | ⟨q, hq, hx⟩
    · exact (hp2 x hx).imp_right fun hx => ⟨p, List.mem_cons_self _ _, hx⟩
    · exact .inr ⟨q, List.mem_cons_of_mem p hq, hx⟩

/-- The records of a chain as `PageMergeIterator` yields them (lines 107 and 144). -/
def chainRecords (st : BufferState) (chain : List ℕ) : List (Slice × Slice) :=
  pageMergeIterator (chain.map fun id => (st.frames id).page)

lemma drop_eq_getD_cons {α : Type} {l : List α} {m : ℕ} (d : α) (hm : m < l.length) :
    l.drop m = l.getD m d :: l.drop (m + 1) := by
  rw [List.drop_eq_getElem_cons hm, List.getD_eq_getElem?_getD, List.getElem?_eq_getElem hm]
  rfl

/-- In key order, every record before position `m` is below the record at `m`, and every record
after it is above. -/
lemma KeyAscending.lt_getD {R : List (Slice × Slice)} (hR : KeyAscending R) {m : ℕ}
    (hm : m < R.length) :
    (∀ x ∈ R.take m, sliceCompare x.1 (R.getD m ([], [])).1 = .lt) ∧
      ∀ y ∈ R.drop (m + 1), sliceCompare (R.getD m ([], [])).1 y.1 = .lt := by
  have h : KeyAscending (R.take m ++ (R.getD m ([], []) :: R.drop (m + 1))) := by
    rwa [← drop_eq_getD_cons _ hm, List.take_append_drop]
  obtain ⟨-, hcons, hcross⟩ := List.pairwise_append.mp h
  exact ⟨fun x hx => hcross x hx _ (List.mem_cons_self _ _), (List.pairwise_cons.mp hcons).1⟩

/-! ## Intervals -/

lemma ordering_bne_lt (o : Ordering) : (o != .lt) = true ↔ o ≠ .lt := by cases o <;> decide

lemma ordering_beq_lt (o : Ordering) : (o == .lt) = true ↔ o = .lt := by cases o <;> decide

lemma Page.contains_iff {p : Page} {k : Slice} : p.contains k = true ↔
    sliceCompare k p.lower ≠ .lt ∧ (p.upper = [] ∨ sliceCompare k p.upper = .lt) := by
  simp [Page.contains, ordering_bne_lt, ordering_beq_lt]

/-- No slice is below the empty one. -/
lemma sliceCompare_nil_ne_lt (a : Slice) : sliceCompare a [] ≠ .lt := by
  cases a <;> simp [sliceCompare]

lemma sliceCompare_lt_of_le_of_lt {a b c : Slice} (h1 : sliceCompare b a ≠ .lt)
    (h2 : sliceCompare b c = .lt) : sliceCompare a c = .lt := by
  by_cases hab : a = b
  · exact hab ▸ h2
  · exact sliceCompare_lt_trans (sliceCompare_lt_of_not_lt h1 (Ne.symm hab)) h2

lemma sliceCompare_lt_of_lt_of_le {a b c : Slice} (h1 : sliceCompare a b = .lt)
    (h2 : sliceCompare c b ≠ .lt) : sliceCompare a c = .lt := by
  by_cases hbc : b = c
  · exact hbc ▸ h1
  · exact sliceCompare_lt_trans h1 (sliceCompare_lt_of_not_lt h2 (Ne.symm hbc))

/-! ## The first pass -/

/-- The first pass keeps the key at every position `j` counted from `c` with `r ∣ j` and
`0 < j`. -/
lemma firstPass_eq (r : ℕ) : ∀ (c : ℕ) (l : List (Slice × Slice)),
    firstPass r c l = ((List.range' c l.length).filter fun j => j % r = 0 ∧ 0 < j).map
      fun j => (l.getD (j - c) ([], [])).1
  | _, [] => rfl
  | c, kv :: rest => by
    rw [firstPass, firstPass_eq r (c + 1) rest, List.length_cons, List.range'_succ,
      List.filter_cons]
    have : ∀ j ∈ (List.range' (c + 1) rest.length).filter (fun j => j % r = 0 ∧ 0 < j),
        (rest.getD (j - (c + 1)) ([], [])).1 = ((kv :: rest).getD (j - c) ([], [])).1 := by
      intro j hj
      obtain ⟨hj, -⟩ := List.mem_range'_1.mp (List.mem_of_mem_filter hj)
      rw [show j - c = j - (c + 1) + 1 by omega]
      rfl
    rw [List.map_congr_left this]
    by_cases h : c % r = 0 ∧ 0 < c
    · rw [if_pos h, if_pos (decide_eq_true h), List.map_cons, Nat.sub_self]
      rfl
    · rw [if_neg h, if_neg (by simpa using h), List.nil_append]

/-- The positive multiples of `r` below `m`. -/
lemma range_filter_multiple {r : ℕ} (hr : 0 < r) : ∀ m : ℕ,
    (List.range m).filter (fun j => j % r = 0 ∧ 0 < j) =
      (List.range ((m - 1) / r)).map fun t => (t + 1) * r
  | 0 => by simp
  | m + 1 => by
    rw [List.range_succ, List.filter_append, range_filter_multiple hr m]
    rcases Nat.eq_zero_or_pos m with rfl | hm
    · simp
    rw [show m + 1 - 1 = m - 1 + 1 by omega, Nat.succ_div, show m - 1 + 1 = m by omega]
    by_cases hd : r ∣ m
    · have hmr : ((m - 1) / r + 1) * r = m := by
        rw [← Nat.succ_div_of_dvd (by rwa [show m - 1 + 1 = m by omega]),
          show m - 1 + 1 = m by omega, Nat.div_mul_cancel hd]
      simp [hd, List.range_succ, hmr, Nat.mod_eq_zero_of_dvd hd, hm]
    · simp [hd, ← Nat.dvd_iff_mod_eq_zero]

/-- The boundaries the first pass collects: the keys at positions `r, 2r, …` below `|l|`. -/
lemma firstPass_zero {r : ℕ} (hr : 0 < r) (l : List (Slice × Slice)) :
    firstPass r 0 l =
      (List.range ((l.length - 1) / r)).map fun t => (l.getD ((t + 1) * r) ([], [])).1 := by
  rw [firstPass_eq, ← List.range_eq_range', range_filter_multiple hr, List.map_map]
  rfl

lemma lt_ceilDiv_iff {r : ℕ} (hr : 0 < r) {a i : ℕ} : i < (a + r - 1) / r ↔ i * r < a := by
  rw [← Nat.succ_le, Nat.le_div_iff_mul_le hr, Nat.succ_mul]
  omega

lemma le_ceilDiv_mul {r : ℕ} (hr : 0 < r) (a : ℕ) : a ≤ (a + r - 1) / r * r := by
  have := Nat.lt_div_mul_add (a := a + r - 1) hr
  omega

/-- Boundary `i + 1` of `n = ⌈|R| / r⌉` pages is the key at position `(i + 1)·r`, and the chain's
upper boundary for the last page. -/
lemma boundaries_getD_succ {r : ℕ} (hr : 0 < r) (L U : Slice) (R : List (Slice × Slice)) {i : ℕ}
    (hi : i < (R.length + r - 1) / r) :
    (L :: firstPass r 0 R ++ [U]).getD (i + 1) [] =
      if i + 1 < (R.length + r - 1) / r then (R.getD ((i + 1) * r) ([], [])).1 else U := by
  have hlen : 0 < R.length := by have := (lt_ceilDiv_iff hr).mp hi; omega
  have hn : (R.length + r - 1) / r = (R.length - 1) / r + 1 := by
    rw [show R.length + r - 1 = R.length - 1 + r by omega, Nat.add_div_right _ hr]
  rw [List.cons_append, List.getD_cons_succ, List.getD_eq_getElem?_getD, firstPass_zero hr]
  split_ifs with h
  · rw [List.getElem?_append_left (by simp; omega)]
    simp [List.getElem?_range (show i < (R.length - 1) / r by omega)]
  · rw [List.getElem?_append_right (by simp; omega)]
    simp [show i = (R.length - 1) / r by omega]

/-! ## The second pass -/

/-- Pages `lo i, hi i` holding the records of `l` at positions `i·r … i·r + r`. -/
def chunkPages (r n : ℕ) (lo hi : ℕ → Slice) (l : List (Slice × Slice)) : List Page :=
  (List.range n).map fun i => ⟨lo i, hi i, (l.drop (i * r)).take r, none⟩

/-- Appending a record at position `|pre|` extends only the chunk of page `|pre| / r`. -/
lemma take_drop_append_singleton {α : Type} {r : ℕ} (hr : 0 < r) (pre : List α) (x : α) (i : ℕ) :
    ((pre ++ [x]).drop (i * r)).take r =
      if i = pre.length / r then (pre.drop (i * r)).take r ++ [x] else (pre.drop (i * r)).take r := by
  have hlo := Nat.div_mul_le_self pre.length r
  have hhi := Nat.lt_div_mul_add (a := pre.length) hr
  split_ifs with hi
  · subst hi
    rw [List.drop_append_of_le_length (by simpa using hlo), List.take_of_length_le (by simp; omega),
      List.take_of_length_le (by simp; omega)]
  · rcases Nat.lt_or_gt_of_ne hi with hi | hi
    · have : i * r + r ≤ pre.length := by
        have := Nat.mul_le_mul_right r (Nat.succ_le_of_lt hi); rw [Nat.succ_mul] at this; omega
      rw [List.drop_append_of_le_length (by omega),
        List.take_append_of_le_length (by simp; omega)]
    · have : pre.length + 1 ≤ i * r := by
        have := Nat.mul_le_mul_right r (Nat.succ_le_of_lt hi); rw [Nat.succ_mul] at this; omega
      rw [List.drop_eq_nil_of_le (by simp; omega), List.drop_eq_nil_of_le (by omega)]

/-- **The second pass, record by record.** Past the records `pre`, the pages hold `pre` in
chunks of `r`; putting the next record on page `|pre| / r` appends it there, since it is above
every record before it. -/
lemma secondPass_chunkPages {r n : ℕ} (hr : 0 < r) (lo hi : ℕ → Slice) :
    ∀ (l pre : List (Slice × Slice)), KeyAscending (pre ++ l) → (pre ++ l).length ≤ n * r →
      secondPass r pre.length l (chunkPages r n lo hi pre) = some (chunkPages r n lo hi (pre ++ l))
  | [], pre, _, _ => by rw [List.append_nil]; rfl
  | kv :: rest, pre, hasc, hlen => by
    have hc : pre.length / r < n := (Nat.div_lt_iff_lt_mul hr).mpr (by simp at hlen; omega)
    have hlt : ∀ x ∈ (pre.drop (pre.length / r * r)).take r, sliceCompare x.1 kv.1 = .lt :=
      fun x hx => (List.pairwise_append.mp hasc).2.2 x
        (List.mem_of_mem_drop (List.mem_of_mem_take hx)) kv (List.mem_cons_self _ _)
    have hset : (chunkPages r n lo hi pre).set (pre.length / r)
        (Page.put ⟨lo (pre.length / r), hi (pre.length / r),
          (pre.drop (pre.length / r * r)).take r, none⟩ kv) = chunkPages r n lo hi (pre ++ [kv]) := by
      refine List.ext_getElem (by simp [chunkPages]) fun i h₁ h₂ => ?_
      simp only [chunkPages, List.getElem_set, List.getElem_map, List.getElem_range,
        take_drop_append_singleton hr, Page.put, insertByKey_of_lt hlt]
      rcases eq_or_ne i (pre.length / r) with rfl | h
      · simp
      · simp [h, Ne.symm h]
    have ih := secondPass_chunkPages hr lo hi rest (pre ++ [kv]) (by simpa using hasc)
      (by simpa using hlen)
    rw [List.length_append, List.length_singleton, List.append_assoc, List.singleton_append] at ih
    rw [secondPass, chunkPages, List.getElem?_map, List.getElem?_range hc, Option.map_some']
    exact (congrArg (secondPass r (pre.length + 1) rest) hset).trans ih

lemma secondPass_init {r n : ℕ} (hr : 0 < r) (lo hi : ℕ → Slice) {R : List (Slice × Slice)}
    (hR : KeyAscending R) (hn : R.length ≤ n * r) :
    secondPass r 0 R ((List.range n).map fun i => Page.init (lo i) (hi i)) =
      some (chunkPages r n lo hi R) := by
  simpa [chunkPages, Page.init] using secondPass_chunkPages hr lo hi R [] hR hn

lemma flatMap_chunkPages (r : ℕ) (lo hi : ℕ → Slice) (R : List (Slice × Slice)) :
    ∀ n, (chunkPages r n lo hi R).flatMap Page.records = R.take (n * r)
  | 0 => by simp [chunkPages]
  | n + 1 => by
    rw [chunkPages, List.range_succ, List.map_append, List.flatMap_append, ← chunkPages,
      flatMap_chunkPages r lo hi R n, Nat.succ_mul, List.take_add]
    simp

/-- The pages the two passes build from key-ordered records `R`, `r` to a page, over the chain's
interval `[lower, upper)`: page `i` of `⌈|R| / r⌉` has boundaries `i` and `i + 1` of
`lower :: firstPass r 0 R ++ [upper]` and the records `R[i·r … i·r + r)`. -/
def newPagesOf (r : ℕ) (lower upper : Slice) (R : List (Slice × Slice)) : List Page :=
  chunkPages r ((R.length + r - 1) / r) (fun i => (lower :: firstPass r 0 R ++ [upper]).getD i [])
    (fun i => (lower :: firstPass r 0 R ++ [upper]).getD (i + 1) []) R

lemma mem_newPagesOf {r : ℕ} {L U : Slice} {R : List (Slice × Slice)} {p : Page} :
    p ∈ newPagesOf r L U R ↔ ∃ i < (R.length + r - 1) / r,
      p = ⟨(L :: firstPass r 0 R ++ [U]).getD i [], (L :: firstPass r 0 R ++ [U]).getD (i + 1) [],
        (R.drop (i * r)).take r, none⟩ := by
  simp [newPagesOf, chunkPages, eq_comm]

/-- **The passes of a reorganization.** A run that reorganizes commits the pages the two passes
build from the chain's merged records, with a positive `records_per_page`. -/
lemma reorganizeOverflowChain_commit {P : PageLayout} {opts : Options} {st : BufferState}
    {head : ℕ} {tl : List ℕ} {pageFillPct fuel : ℕ} {run : ReorgRun}
    (h : reorganizeOverflowChain P opts st (head :: tl) pageFillPct fuel = some run)
    (h2 : 2 ≤ tl.length + 1) (hfan : tl.length + 1 ≤ opts.maxReorgFanout) :
    ∃ r, 0 < r ∧ run.steps = commitSteps (head :: tl) st.nextPageId
      (newPagesOf r (st.frames head).page.lower (st.frames head).page.upper
        (chainRecords st (head :: tl))) := by
  simp only [reorganizeOverflowChain, List.length_cons] at h
  rw [if_neg (by omega), if_neg (by omega)] at h
  simp only [Option.bind_eq_bind] at h
  obtain ⟨dist, -, h⟩ := Option.bind_eq_some.mp h
  obtain ⟨n, hn, h⟩ := Option.bind_eq_some.mp h
  obtain ⟨newPages, hnp, h⟩ := Option.bind_eq_some.mp h
  obtain rfl := Option.some.inj h
  simp only [KeyDistHints.numPages] at hn
  split_ifs at hn with hr0
  obtain rfl := Option.some.inj hn
  have hr : 0 < dist.recordsPerPage P := Nat.pos_of_ne_zero hr0
  refine ⟨_, hr, congrArg (commitSteps _ _) (Option.some.inj (hnp.symm.trans ?_))⟩
  exact secondPass_init hr _ _ (pageMergeIterator_spec _).1 (le_ceilDiv_mul hr _)

/-! ## The new pages -/

/-- The new pages tile the chain's interval: the first starts at its lower boundary, each ends
where the next starts, and the last ends at its upper boundary. -/
lemma newPagesOf_tiling {r : ℕ} (hr : 0 < r) (L U : Slice) (R : List (Slice × Slice))
    (hne : newPagesOf r L U R ≠ []) :
    ((newPagesOf r L U R).map Page.lower).head? = some L ∧
      (newPagesOf r L U R).map Page.upper = ((newPagesOf r L U R).map Page.lower).tail ++ [U] := by
  obtain ⟨m, hm⟩ : ∃ m, (R.length + r - 1) / r = m + 1 :=
    Nat.exists_eq_succ_of_ne_zero fun h => hne (by simp [newPagesOf, chunkPages, h])
  have hU := boundaries_getD_succ hr L U R (show m < (R.length + r - 1) / r by omega)
  rw [if_neg (by omega)] at hU
  simp only [newPagesOf, chunkPages, List.map_map, hm]
  refine ⟨by rw [List.range_succ_eq_map]; rfl, ?_⟩
  conv_lhs => rw [List.range_succ, List.map_append]
  conv_rhs => rw [List.range_succ_eq_map, List.map_cons, List.tail_cons, List.map_map]
  exact congrArg₂ (· ++ ·) rfl (congrArg (fun x => [x]) hU)

lemma newPagesOf_lower_zero {r : ℕ} {L U : Slice} {R : List (Slice × Slice)}
    (h : 0 < (newPagesOf r L U R).length) : (newPagesOf r L U R)[0].lower = L := by
  simp only [newPagesOf, chunkPages, List.getElem_map, List.getElem_range]
  rfl

lemma newPagesOf_lower_succ {r : ℕ} (hr : 0 < r) {L U : Slice} {R : List (Slice × Slice)} {i : ℕ}
    (hi : i + 1 < (newPagesOf r L U R).length) :
    (newPagesOf r L U R)[i + 1].lower = (R.getD ((i + 1) * r) ([], [])).1 := by
  simp only [newPagesOf, chunkPages, List.length_map, List.length_range] at hi
  simp only [newPagesOf, chunkPages, List.getElem_map, List.getElem_range,
    boundaries_getD_succ hr L U R (show i < (R.length + r - 1) / r by omega), if_pos hi]

lemma newPagesOf_upper {r : ℕ} {L U : Slice} {R : List (Slice × Slice)} {i : ℕ}
    (hi : i + 1 < (newPagesOf r L U R).length) :
    (newPagesOf r L U R)[i].upper = (newPagesOf r L U R)[i + 1].lower := by
  simp only [newPagesOf, chunkPages, List.getElem_map, List.getElem_range]

lemma newPagesOf_upper_last {r : ℕ} (hr : 0 < r) {L U : Slice} {R : List (Slice × Slice)} {i : ℕ}
    (hi : i + 1 = (newPagesOf r L U R).length) : (newPagesOf r L U R)[i].upper = U := by
  simp only [newPagesOf, chunkPages, List.length_map, List.length_range] at hi
  simp only [newPagesOf, chunkPages, List.getElem_map, List.getElem_range,
    boundaries_getD_succ hr L U R (show i < (R.length + r - 1) / r by omega)]
  exact if_neg (by omega)

/-- A key from a new page's lower boundary up to the next page's, or up to `U` past the last
page, lies in that page's interval. -/
lemma newPagesOf_contains {r : ℕ} (hr : 0 < r) {L U : Slice} {R : List (Slice × Slice)} {i : ℕ}
    (hi : i < (newPagesOf r L U R).length) {k : Slice}
    (hlo : sliceCompare k (newPagesOf r L U R)[i].lower ≠ .lt)
    (hnext : ∀ h : i + 1 < (newPagesOf r L U R).length,
      sliceCompare k (newPagesOf r L U R)[i + 1].lower = .lt)
    (hU : U = [] ∨ sliceCompare k U = .lt) : (newPagesOf r L U R)[i].contains k = true := by
  refine Page.contains_iff.mpr ⟨hlo, ?_⟩
  by_cases hlast : i + 1 < (newPagesOf r L U R).length
  · exact .inr (newPagesOf_upper hlast ▸ hnext hlast)
  · rw [newPagesOf_upper_last hr (by omega)]
    exact hU

section NewPages

variable {r : ℕ} (hr : 0 < r) {L U : Slice} {R : List (Slice × Slice)} (hR : KeyAscending R)
include hr hR

/-- **A new page answers for its interval.** For every key of a new page's interval, the page's
search gives the value the merged records hold for it: every record of that key lies on this
page, since the records before position `i·r` are below its lower boundary and those from
position `(i + 1)·r` on are not below its upper one. -/
lemma newPagesOf_search {p : Page} (hp : p ∈ newPagesOf r L U R) {k : Slice}
    (hk : p.contains k = true) : p.search k = (R.find? fun kv => kv.1 = k).map Prod.snd := by
  obtain ⟨i, hi, rfl⟩ := mem_newPagesOf.mp hp
  obtain ⟨hlo, hhi⟩ := Page.contains_iff.mp hk
  dsimp only at hlo hhi
  have hbefore : (R.take (i * r)).find? (fun kv => kv.1 = k) = none := by
    refine List.find?_eq_none.mpr fun x hx hxk => ?_
    rcases i with _ | j
    · simp at hx
    · have hm := (lt_ceilDiv_iff hr).mp hi
      rw [boundaries_getD_succ hr L U R (by omega), if_pos hi] at hlo
      exact hlo (of_decide_eq_true hxk ▸ (hR.lt_getD hm).1 x hx)
  have hafter : (R.drop (i * r + r)).find? (fun kv => kv.1 = k) = none := by
    rw [boundaries_getD_succ hr L U R hi] at hhi
    split_ifs at hhi with hn
    · have hm : (i + 1) * r < R.length := (lt_ceilDiv_iff hr).mp hn
      have hu : (R.getD ((i + 1) * r) ([], [])).1 ≠ [] := fun hu =>
        sliceCompare_nil_ne_lt _ (hu ▸ (hR.lt_getD hm).1 _
          (List.getElem_mem (l := R.take ((i + 1) * r)) (n := 0) (by simp [hr]; omega)))
      have hku := hhi.resolve_left hu
      refine List.find?_eq_none.mpr fun y hy hyk => ?_
      rw [← Nat.succ_mul, drop_eq_getD_cons ([], []) hm, List.mem_cons] at hy
      rcases hy with rfl | hy
      · exact sliceCompare_lt_irrefl _ (of_decide_eq_true hyk ▸ hku)
      · exact sliceCompare_lt_irrefl _
          (sliceCompare_lt_trans hku (of_decide_eq_true hyk ▸ (hR.lt_getD hm).2 y hy))
    · rw [List.drop_eq_nil_of_le]
      · rfl
      · have := le_ceilDiv_mul hr R.length
        have := Nat.mul_le_mul_right r (show (R.length + r - 1) / r ≤ i + 1 by omega)
        rw [Nat.succ_mul] at this
        omega
  have hsplit : R = R.take (i * r) ++ ((R.drop (i * r)).take r ++ R.drop (i * r + r)) := by
    rw [← List.drop_drop, List.take_append_drop, List.take_append_drop]
  conv_rhs => rw [hsplit, List.find?_append, List.find?_append, hbefore, hafter]
  rw [Option.none_or, Option.or_none]
  rfl

variable (hL : ∀ kv ∈ R, sliceCompare kv.1 L ≠ .lt)
  (hU : ∀ kv ∈ R, U = [] ∨ sliceCompare kv.1 U = .lt)
include hL hU

/-- With the records inside `[L, U)`, every record of a new page lies in that page's interval. -/
lemma newPagesOf_records_contained {p : Page} (hp : p ∈ newPagesOf r L U R) :
    ∀ kv ∈ p.records, p.contains kv.1 = true := by
  obtain ⟨i, hi, rfl⟩ := mem_newPagesOf.mp hp
  intro kv hkv
  have hmem : kv ∈ R := List.mem_of_mem_drop (List.mem_of_mem_take hkv)
  refine Page.contains_iff.mpr ⟨?_, ?_⟩
  · dsimp only
    rcases i with _ | j
    · exact hL kv hmem
    · have hm := (lt_ceilDiv_iff hr).mp hi
      rw [boundaries_getD_succ hr L U R (by omega), if_pos hi]
      have hkv' := List.mem_of_mem_take hkv
      rw [drop_eq_getD_cons ([], []) hm, List.mem_cons] at hkv'
      rcases hkv' with rfl | hkv'
      · exact sliceCompare_lt_irrefl _
      · exact fun h => sliceCompare_lt_irrefl _ (sliceCompare_lt_trans h ((hR.lt_getD hm).2 kv hkv'))
  · dsimp only
    rw [boundaries_getD_succ hr L U R hi]
    split_ifs with hn
    · have hm : (i + 1) * r < R.length := (lt_ceilDiv_iff hr).mp hn
      refine .inr ((hR.lt_getD hm).1 kv ?_)
      rw [Nat.succ_mul, List.take_add]
      exact List.mem_append_right _ hkv
    · exact hU kv hmem

/-- With the records inside `[L, U)`, every new page past the first starts strictly above `L`
and inside the interval. -/
lemma newPagesOf_lower {i : ℕ} (hi : i + 1 < (newPagesOf r L U R).length) :
    sliceCompare L (newPagesOf r L U R)[i + 1].lower = .lt ∧
      (U = [] ∨ sliceCompare (newPagesOf r L U R)[i + 1].lower U = .lt) := by
  have hm : (i + 1) * r < R.length := (lt_ceilDiv_iff hr).mp
    (by simpa only [newPagesOf, chunkPages, List.length_map, List.length_range] using hi)
  have hmem : R.getD ((i + 1) * r) ([], []) ∈ R := by
    rw [List.getD_eq_getElem?_getD, List.getElem?_eq_getElem hm]; exact List.getElem_mem _
  rw [newPagesOf_lower_succ hr hi]
  refine ⟨?_, hU _ hmem⟩
  have h0 : 0 < R.length := by omega
  have hmem0 : R.getD 0 ([], []) ∈ R := by
    rw [List.getD_eq_getElem?_getD, List.getElem?_eq_getElem h0]; exact List.getElem_mem _
  refine sliceCompare_lt_of_le_of_lt (hL _ hmem0) ((hR.lt_getD (m := 0) h0).2 _ ?_)
  have hpos : 0 + 1 ≤ (i + 1) * r := Nat.mul_pos (by omega) hr
  refine (List.drop_sublist_drop_left R hpos).subset ?_
  rw [drop_eq_getD_cons ([], []) hm]
  exact List.mem_cons_self _ _

/-- With the records inside `[L, U)`, the new pages' lower boundaries rise strictly. -/
lemma newPagesOf_lower_lt {i j : ℕ} (hij : i < j) (hj : j < (newPagesOf r L U R).length) :
    sliceCompare (newPagesOf r L U R)[i].lower (newPagesOf r L U R)[j].lower = .lt := by
  obtain ⟨j, rfl⟩ : ∃ j', j = j' + 1 := ⟨j - 1, by omega⟩
  rcases i with _ | i
  · rw [newPagesOf_lower_zero (by omega)]
    exact (newPagesOf_lower hr hR hL hU hj).1
  · have hn : (j + 1) * r < R.length :=
      (lt_ceilDiv_iff hr).mp (by simpa only [newPagesOf, chunkPages, List.length_map, List.length_range] using hj)
    have hlt : (i + 1) * r < (j + 1) * r := Nat.mul_lt_mul_of_pos_right hij hr
    rw [newPagesOf_lower_succ hr (by omega), newPagesOf_lower_succ hr hj,
      List.getD_eq_getElem?_getD, List.getD_eq_getElem?_getD, List.getElem?_eq_getElem hn,
      List.getElem?_eq_getElem (by omega)]
    exact List.pairwise_iff_getElem.mp hR _ _ (by omega) hn hlt

end NewPages

/-- **The reorganization redistributes the chain's records.** On a chain of `2 …
max_reorg_fanout` frames whose records all lie in the head's interval `[lower, upper)`, every run
of `ReorganizeOverflowChain` that returns commits new pages that hold, in page order, exactly the
records `PageMergeIterator` yields, each page's records in ascending key order and inside the
page's own interval, with no overflow link; and unless there is no page at all, the pages tile
the chain's interval: the first starts at `lower`, each ends where the next starts, and the last
ends at `upper`. -/
theorem reorganize_redistributes_records {P : PageLayout} {opts : Options} {st : BufferState}
    {head : ℕ} {tl : List ℕ} {pageFillPct fuel : ℕ} {run : ReorgRun}
    (hrec : ∀ id ∈ head :: tl, ∀ kv ∈ (st.frames id).page.records,
      (st.frames head).page.contains kv.1 = true)
    (h : reorganizeOverflowChain P opts st (head :: tl) pageFillPct fuel = some run)
    (h2 : 2 ≤ tl.length + 1) (hfan : tl.length + 1 ≤ opts.maxReorgFanout) :
    ∃ newPages, run.steps = commitSteps (head :: tl) st.nextPageId newPages ∧
      newPages.flatMap Page.records = chainRecords st (head :: tl) ∧
      (∀ p ∈ newPages, KeyAscending p.records ∧ p.overflow = none ∧
        ∀ kv ∈ p.records, p.contains kv.1 = true) ∧
      (newPages ≠ [] → (newPages.map Page.lower).head? = some (st.frames head).page.lower ∧
        newPages.map Page.upper =
          (newPages.map Page.lower).tail ++ [(st.frames head).page.upper]) := by
  obtain ⟨r, hr, hsteps⟩ := reorganizeOverflowChain_commit h h2 hfan
  obtain ⟨hR, hfrom⟩ := pageMergeIterator_spec ((head :: tl).map fun id => (st.frames id).page)
  have hin : ∀ kv ∈ chainRecords st (head :: tl), (st.frames head).page.contains kv.1 = true := by
    intro kv hkv
    obtain ⟨_, hp, hkv⟩ := hfrom kv hkv
    obtain ⟨id, hid, rfl⟩ := List.mem_map.mp hp
    exact hrec id hid kv hkv
  refine ⟨_, hsteps, ?_, fun p hp => ⟨?_, ?_, ?_⟩, newPagesOf_tiling hr _ _ _⟩
  · rw [newPagesOf, flatMap_chunkPages, List.take_of_length_le (le_ceilDiv_mul hr _)]
  · obtain ⟨i, -, rfl⟩ := mem_newPagesOf.mp hp
    exact hR.sublist ((List.take_sublist _ _).trans (List.drop_sublist _ _))
  · obtain ⟨i, -, rfl⟩ := mem_newPagesOf.mp hp
    rfl
  · exact newPagesOf_records_contained hr hR (fun kv hkv => (Page.contains_iff.mp (hin kv hkv)).1)
      (fun kv hkv => (Page.contains_iff.mp (hin kv hkv)).2) hp

/-- `ReorganizeOverflowChain` on the chain of `threeRecordChainState` at a fill percentage of `30`,
one record a page; both assertions hold. -/
lemma reorganizeOverflowChain_threeRecordChainState :
    reorganizeOverflowChain ⟨160, 0⟩ ⟨4, 40, 8⟩ threeRecordChainState [0, 1] 30 1 =
      some ⟨.ok, [.allocFix 2, .write 2 ⟨[1, 3], [2], [([1, 3], [])], none⟩, .insert [1, 3] 2,
        .unfix 2 true, .write 1 ⟨[1, 2], [1, 3], [([1, 2], [])], none⟩, .insert [1, 2] 1,
        .unfix 1 true, .write 0 ⟨[1], [1, 2], [([1, 1], [])], none⟩, .insert [1] 0, .unfix 0 true],
        [(121, true), (135, true)]⟩ := by
  decide

/-- The three records of `threeRecordChainState`, one to a page: three pages tiling `[[1], [2])`. -/
theorem reorganize_redistributes_records_scenario :
    ∃ run, (∀ id ∈ [0, 1], ∀ kv ∈ (threeRecordChainState.frames id).page.records,
        (threeRecordChainState.frames 0).page.contains kv.1 = true) ∧
      reorganizeOverflowChain ⟨160, 0⟩ ⟨4, 40, 8⟩ threeRecordChainState [0, 1] 30 1 = some run ∧
      ∃ newPages, run.steps = commitSteps [0, 1] threeRecordChainState.nextPageId newPages ∧
        newPages.flatMap Page.records = chainRecords threeRecordChainState [0, 1] ∧
        (∀ p ∈ newPages, KeyAscending p.records ∧ p.overflow = none ∧
          ∀ kv ∈ p.records, p.contains kv.1 = true) ∧
        (newPages ≠ [] → (newPages.map Page.lower).head? = some (threeRecordChainState.frames 0).page.lower ∧
          newPages.map Page.upper =
            (newPages.map Page.lower).tail ++ [(threeRecordChainState.frames 0).page.upper]) := by
  have hrec : ∀ id ∈ [0, 1], ∀ kv ∈ (threeRecordChainState.frames id).page.records,
      (threeRecordChainState.frames 0).page.contains kv.1 = true := by decide
  have hrun := reorganizeOverflowChain_threeRecordChainState
  exact ⟨_, hrec, hrun, reorganize_redistributes_records hrec hrun (by decide) (by decide)⟩

end Treeline.DBImpl
