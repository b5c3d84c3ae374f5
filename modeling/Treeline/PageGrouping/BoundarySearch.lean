import Mathlib.Tactic.Linarith
import Treeline.PageGrouping.Boundaries

/-!
# The page boundaries are the least keys of their pages

`ComputePageLowerBoundaries` (`src/page_grouping/manager_load.cc`, lines 112-174) is correct
for a model that climbs at most one page per key. Write the model as `M(x) = s·x + c` over the
offset `x = k − base`. If `0 < s ≤ 1`, some key at or above the base is on page `0`, and the
model reaches page `P` inside the key domain, then the boundary of page `i ≥ 1` is
`base + ⌈(i − c)/s⌉`. That is the least key the model sends to page `i`. The bracket taken from
the inverted model contains it, and the three assertions of the loop hold.

The slope bound is needed. For a steeper model the inverse rounds the candidate and its upper
neighbour down to the same key. The bracket is then empty and the search returns a key of the
page below (`computePageLowerBoundaries_steep`).

## Main results

* `Treeline.Pg.keyLowerBound_eq` — `std::lower_bound` returns the first key where a
  predicate that holds on a prefix of the range fails.
* `Treeline.Pg.pageForKey_lt_iff_lt_boundaryOffset` — a key is below page `i` exactly when
  its offset is below `⌈(i − c)/s⌉`.
* `Treeline.Pg.pageLowerBoundary_spec` — one page's boundary and its bracket.
* `Treeline.Pg.computePageLowerBoundaries_least` — the whole list.

## Implementation notes

Both ends of a bracket, and every key searched, lie in `[base, 2^64)`. So the 64-bit
arithmetic of the source never wraps there (`keyAt_eq`, `pageForKey_base_add`), and the order
argument runs over the offsets from `base`.
-/

namespace Treeline.Pg

/-! ### `std::lower_bound` -/

/-- With as many halvings as the range is long, `keyLowerBound` returns the first key of
`[first, first + len]` where a predicate that holds exactly below `t` fails. -/
theorem keyLowerBound_eq {pred : ℕ → Bool} {t fuel first len : ℕ} (hf : len ≤ fuel)
    (h1 : first ≤ t) (h2 : t ≤ first + len)
    (hp : ∀ k, first ≤ k → k < first + len → (pred k = true ↔ k < t)) :
    keyLowerBound pred fuel first len = t := by
  induction fuel generalizing first len with
  | zero => simp only [keyLowerBound]; omega
  | succ fuel ih =>
    simp only [keyLowerBound]
    split_ifs with h0 hmid
    · omega
    · have := (hp _ (by omega) (by omega)).mp hmid
      exact ih (by omega) (by omega) (by omega) fun k hk hk' => hp k (by omega) (by omega)
    · have : t ≤ first + len / 2 := by
        by_contra h
        exact hmid ((hp _ (by omega) (by omega)).mpr (by omega))
      exact ih (by omega) h1 this fun k hk hk' => hp k hk (by omega)

/-! ### The model over key offsets -/

/-- The offset from the base of the key the inverted model gives for page `j`:
`static_cast<Key>(page_to_key(j))` (lines 130, 141 and 148). -/
def keyOffset (line : Line64) (j : ℕ) : ℕ := ⌊((j : ℚ) - line.intercept) / line.slope⌋₊

/-- The offset of the least key the model sends to page `i` or above: `⌈(i − c)/s⌉`. -/
def boundaryOffset (line : Line64) (i : ℕ) : ℕ := ⌈((i : ℚ) - line.intercept) / line.slope⌉₊

section Offsets

variable {line : Line64} {base pageCount : ℕ}

/-- The inverted model at page `j`, cast to a key. -/
lemma toKey_invert_eval (j : ℕ) : toKey (line.invert.eval j) = keyOffset line j % 2 ^ 64 := by
  simp only [toKey, keyOffset, Line64.invert, Line64.eval, Int.floor_toNat]
  congr 3
  ring

/-- A key the inverted model gives inside the key domain does not wrap. -/
lemma keyAt_eq {j : ℕ} (h : base + keyOffset line j < 2 ^ 64) :
    (toKey (line.invert.eval j) + base) % 2 ^ 64 = base + keyOffset line j := by
  rw [toKey_invert_eval, Nat.mod_eq_of_lt (by omega), Nat.mod_eq_of_lt (by omega), add_comm]

/-- Inside the key domain the difference from `base` does not wrap. -/
lemma pageForKey_base_add {x : ℕ} (hx : base + x < 2 ^ 64) :
    pageForKey base line pageCount (base + x) =
      min (pageCount - 1) ⌊line.slope * x + line.intercept⌋.toNat := by
  have : (base + x + 2 ^ 64 - base) % 2 ^ 64 = x := by
    rw [show base + x + 2 ^ 64 - base = x + 2 ^ 64 by omega, Nat.add_mod_right,
      Nat.mod_eq_of_lt (by omega)]
  simp only [pageForKey, Line64.eval, this]

/-- The page of a key is below `i` exactly when the model is, for `0 < i < P`. -/
lemma pageForKey_lt_iff {x i : ℕ} (hx : base + x < 2 ^ 64) (hi : 0 < i) (hiP : i < pageCount) :
    pageForKey base line pageCount (base + x) < i ↔ line.slope * x + line.intercept < i := by
  have : ¬ pageCount - 1 < i := by omega
  rw [pageForKey_base_add hx, min_lt_iff, Int.toNat_lt' hi.ne', Int.floor_lt, Int.cast_natCast]
  simp only [this, false_or]

/-- An offset is below the boundary offset of page `i` exactly when the model sends it below
`i`. -/
lemma lt_boundaryOffset_iff (hs : 0 < line.slope) {x i : ℕ} :
    x < boundaryOffset line i ↔ line.slope * x + line.intercept < i := by
  rw [boundaryOffset, Nat.lt_ceil, lt_div_iff₀ hs]
  constructor <;> intro h <;> linarith

/-- A key is below page `i` exactly when its offset is below page `i`'s boundary offset. -/
theorem pageForKey_lt_iff_lt_boundaryOffset (hs : 0 < line.slope) {x i : ℕ}
    (hx : base + x < 2 ^ 64) (hi : 0 < i) (hiP : i < pageCount) :
    pageForKey base line pageCount (base + x) < i ↔ x < boundaryOffset line i := by
  rw [pageForKey_lt_iff hx hi hiP, lt_boundaryOffset_iff hs]

/-- The model at page `i`'s boundary offset is at least `i`. -/
lemma le_model_boundaryOffset (hs : 0 < line.slope) (i : ℕ) :
    (i : ℚ) ≤ line.slope * boundaryOffset line i + line.intercept :=
  not_lt.mp ((lt_boundaryOffset_iff hs).not.mp (lt_irrefl _))

/-- With slope at most one, the model at page `i`'s boundary offset is below `i + 1`. -/
lemma model_boundaryOffset_lt (hs : 0 < line.slope) (hs1 : line.slope ≤ 1) {i : ℕ}
    (hc : line.intercept ≤ i) :
    line.slope * boundaryOffset line i + line.intercept < i + 1 := by
  have hq : 0 ≤ ((i : ℚ) - line.intercept) / line.slope := div_nonneg (by linarith) hs.le
  have hlt := mul_lt_mul_of_pos_left (Nat.ceil_lt_add_one hq) hs
  rw [mul_add, mul_div_cancel₀ _ hs.ne'] at hlt
  rw [boundaryOffset]
  linarith

/-- The boundary offset of a page `i ≥ 1` is positive when page `0` starts at the base. -/
lemma boundaryOffset_pos (hs : 0 < line.slope) (hc : line.intercept < 1) {i : ℕ} (hi : 0 < i) :
    0 < boundaryOffset line i := by
  rw [lt_boundaryOffset_iff hs]
  have : (1 : ℚ) ≤ i := by exact_mod_cast hi
  push_cast
  linarith

/-- With slope at most one, the boundary offsets strictly increase. -/
lemma boundaryOffset_lt_succ (hs : 0 < line.slope) (hs1 : line.slope ≤ 1) {i : ℕ}
    (hc : line.intercept ≤ i) : boundaryOffset line i < boundaryOffset line (i + 1) := by
  rw [lt_boundaryOffset_iff hs]
  push_cast
  exact model_boundaryOffset_lt hs hs1 hc

/-- The inverted model's key for page `j` is below page `j + 1`'s boundary. -/
lemma keyOffset_lt_boundaryOffset_succ (hs : 0 < line.slope) (hc : line.intercept < 1) (j : ℕ) :
    keyOffset line j < boundaryOffset line (j + 1) := by
  rw [lt_boundaryOffset_iff hs, keyOffset]
  push_cast
  rcases le_total (((j : ℚ) - line.intercept) / line.slope) 0 with hq | hq
  · rw [Nat.floor_of_nonpos hq]
    have : (0 : ℚ) ≤ j := j.cast_nonneg
    push_cast
    linarith
  · have hle := mul_le_mul_of_nonneg_left (Nat.floor_le hq) hs.le
    rw [mul_div_cancel₀ _ hs.ne'] at hle
    linarith

/-- With slope at most one, the inverted model's key for page `i + 1` is at or above page `i`'s
boundary: the inverse moves at least one key per page. -/
lemma boundaryOffset_le_keyOffset_succ (hs : 0 < line.slope) (hs1 : line.slope ≤ 1) (i : ℕ) :
    boundaryOffset line i ≤ keyOffset line (i + 1) := by
  rw [← not_lt, lt_boundaryOffset_iff hs, not_lt, keyOffset]
  have hlt := mul_lt_mul_of_pos_left
    (Nat.lt_floor_add_one ((((i + 1 : ℕ) : ℚ) - line.intercept) / line.slope)) hs
  rw [mul_add, mul_div_cancel₀ _ hs.ne'] at hlt
  push_cast at hlt ⊢
  linarith

/-- If the model reaches page `P` at the last key, no inverted key for a page up to `P`
wraps. -/
lemma keyOffset_lt_of_reach (hs : 0 < line.slope) (hbase : base < 2 ^ 64)
    (hreach : (pageCount : ℚ) ≤ line.eval (2 ^ 64 - 1 - base : ℕ)) {j : ℕ} (hj : j ≤ pageCount) :
    base + keyOffset line j < 2 ^ 64 := by
  have hle : keyOffset line j ≤ 2 ^ 64 - 1 - base := by
    refine Nat.floor_le_of_le ((div_le_iff₀ hs).mpr ?_)
    have : (j : ℚ) ≤ pageCount := by exact_mod_cast hj
    rw [Line64.eval] at hreach
    linarith
  omega

end Offsets

/-! ### One page -/

section Page

variable {line : Line64} {base pageCount i : ℕ}

/-- The bracket of page `i`, with the inverted keys evaluated. -/
lemma pageBracket_eq (hs : 0 < line.slope) (hbase : base < 2 ^ 64)
    (hreach : (pageCount : ℚ) ≤ line.eval (2 ^ 64 - 1 - base : ℕ)) (hiP : i < pageCount) :
    pageBracket base line pageCount i =
      if i ≤ pageForKey base line pageCount (base + keyOffset line i)
      then (base + keyOffset line (i - 1), base + keyOffset line i)
      else (base + keyOffset line i, base + keyOffset line (i + 1)) := by
  simp only [pageBracket, keyAt_eq (keyOffset_lt_of_reach hs hbase hreach (j := i - 1) (by omega)),
    keyAt_eq (keyOffset_lt_of_reach hs hbase hreach (j := i) (by omega)),
    keyAt_eq (keyOffset_lt_of_reach hs hbase hreach (j := i + 1) (by omega))]

/-- The bracket of page `i ≥ 1` lies in the key domain above the base and holds page `i`'s
boundary: its lower end is below it, its upper end at or above it. -/
lemma pageBracket_spec (hs : 0 < line.slope) (hs1 : line.slope ≤ 1) (hc : line.intercept < 1)
    (hbase : base < 2 ^ 64) (hreach : (pageCount : ℚ) ≤ line.eval (2 ^ 64 - 1 - base : ℕ))
    (hi : 0 < i) (hiP : i < pageCount) :
    ∃ lo hi, pageBracket base line pageCount i = (base + lo, base + hi) ∧
      lo < boundaryOffset line i ∧ boundaryOffset line i ≤ hi ∧ base + hi < 2 ^ 64 := by
  have hkey := keyOffset_lt_of_reach hs hbase hreach (j := i) hiP.le
  rw [pageBracket_eq hs hbase hreach hiP]
  split_ifs with h
  · obtain ⟨j, rfl⟩ : ∃ j, i = j + 1 := ⟨i - 1, by omega⟩
    refine ⟨_, _, rfl, keyOffset_lt_boundaryOffset_succ hs hc j, ?_, hkey⟩
    exact not_lt.mp fun h' => (not_lt.mpr h)
      ((pageForKey_lt_iff_lt_boundaryOffset hs hkey hi hiP).mpr h')
  · exact ⟨_, _, rfl, (pageForKey_lt_iff_lt_boundaryOffset hs hkey hi hiP).mp (not_le.mp h),
      boundaryOffset_le_keyOffset_succ hs hs1 i, keyOffset_lt_of_reach hs hbase hreach hiP⟩

/-- The boundary of page `i ≥ 1` is `base + ⌈(i − c)/s⌉`, found inside its bracket. -/
theorem pageLowerBoundary_spec (hs : 0 < line.slope) (hs1 : line.slope ≤ 1)
    (hc : line.intercept < 1) (hbase : base < 2 ^ 64)
    (hreach : (pageCount : ℚ) ≤ line.eval (2 ^ 64 - 1 - base : ℕ)) (hi : 0 < i)
    (hiP : i < pageCount) :
    pageLowerBoundary base line pageCount i = base + boundaryOffset line i ∧
      (pageBracket base line pageCount i).1 < base + boundaryOffset line i ∧
      base + boundaryOffset line i ≤ (pageBracket base line pageCount i).2 ∧
      (pageBracket base line pageCount i).2 < 2 ^ 64 := by
  obtain ⟨lo, up, hb, hlo, hup, hdom⟩ := pageBracket_spec hs hs1 hc hbase hreach hi hiP
  have hlen : (base + up + 2 ^ 64 - (base + lo)) % 2 ^ 64 = up - lo := by
    rw [show base + up + 2 ^ 64 - (base + lo) = up - lo + 2 ^ 64 by omega, Nat.add_mod_right,
      Nat.mod_eq_of_lt (by omega)]
  rw [pageLowerBoundary_eq_search, hb, hlen]
  refine ⟨keyLowerBound_eq le_rfl (by omega) (by omega) fun k hk hk' => ?_, by omega, by omega,
    hdom⟩
  obtain ⟨x, rfl⟩ := Nat.exists_eq_add_of_le (le_trans (Nat.le_add_right _ _) hk)
  rw [decide_eq_true_eq, pageForKey_lt_iff_lt_boundaryOffset hs (by omega) hi hiP]
  omega

/-- The model sends page `i`'s boundary to page `i`. -/
lemma pageForKey_boundary (hs : 0 < line.slope) (hs1 : line.slope ≤ 1) (hc : line.intercept < 1)
    (hx : base + boundaryOffset line i < 2 ^ 64) (hi : 0 < i) (hiP : i < pageCount) :
    pageForKey base line pageCount (base + boundaryOffset line i) = i := by
  have hci : line.intercept ≤ i := by
    have : (1 : ℚ) ≤ i := by exact_mod_cast hi
    linarith
  have hfloor : ⌊line.slope * boundaryOffset line i + line.intercept⌋ = (i : ℤ) :=
    Int.floor_eq_iff.mpr ⟨by simpa using le_model_boundaryOffset hs i,
      by simpa using model_boundaryOffset_lt hs hs1 hci⟩
  rw [pageForKey_base_add hx, hfloor, Int.toNat_natCast]
  omega

/-- Every key's page is at most the last. -/
lemma pageForKey_le (base : ℕ) (line : Line64) (pageCount k : ℕ) :
    pageForKey base line pageCount k ≤ pageCount - 1 :=
  min_le_left _ _

/-- A key at or past page `i`'s boundary (any key, for `i = 0`) and below page `i + 1`'s (any
key, for the last page) is on page `i`. -/
lemma pageForKey_eq_of_boundaryOffset (hs : 0 < line.slope) {x : ℕ} (hx : base + x < 2 ^ 64)
    (hiP : i < pageCount) (hlo : i = 0 ∨ boundaryOffset line i ≤ x)
    (hhi : i + 1 = pageCount ∨ x < boundaryOffset line (i + 1)) :
    pageForKey base line pageCount (base + x) = i := by
  have hge : i ≤ pageForKey base line pageCount (base + x) := by
    rcases hlo with rfl | hlo
    · exact Nat.zero_le _
    rcases Nat.eq_zero_or_pos i with rfl | hi
    · exact Nat.zero_le _
    exact not_lt.mp fun h => absurd ((pageForKey_lt_iff_lt_boundaryOffset hs hx hi hiP).mp h)
      (not_lt.mpr hlo)
  have hlt : pageForKey base line pageCount (base + x) < i + 1 := by
    by_cases hlast : i + 1 = pageCount
    · have := pageForKey_le base line pageCount (base + x)
      omega
    · exact (pageForKey_lt_iff_lt_boundaryOffset hs hx i.succ_pos (by omega)).mpr
        (hhi.resolve_left hlast)
  omega

end Page

/-! ### The whole list -/

section List

variable {line : Line64} {base pageCount : ℕ}

/-- If some key at or above the base is on page `0`, the model starts below page `1`. -/
lemma intercept_lt_one_of_hit (hs : 0 < line.slope) (hP : 2 ≤ pageCount) {k : ℕ}
    (hk : base ≤ k) (hk' : k < 2 ^ 64) (h0 : pageForKey base line pageCount k = 0) :
    line.intercept < 1 := by
  obtain ⟨x, rfl⟩ := Nat.exists_eq_add_of_le hk
  have h1 : pageForKey base line pageCount (base + x) < 1 := by omega
  have hlt := (pageForKey_lt_iff hk' one_pos (by omega)).mp h1
  have : 0 ≤ line.slope * x := mul_nonneg hs.le x.cast_nonneg
  push_cast at hlt
  linarith

/-- The boundary list in closed form: the base, then `base + ⌈(i − c)/s⌉` for each page
`i ≥ 1`. -/
lemma computePageLowerBoundaries_eq {seg : Segment} (hP : 2 ≤ seg.pageCount)
    (hm : seg.model = some line) (hs : 0 < line.slope) (hs1 : line.slope ≤ 1)
    (hc : line.intercept < 1) (hbase : seg.baseKey < 2 ^ 64)
    (hreach : (seg.pageCount : ℚ) ≤ line.eval (2 ^ 64 - 1 - seg.baseKey : ℕ)) :
    computePageLowerBoundaries seg = seg.baseKey ::
      (List.range (seg.pageCount - 1)).map fun j => seg.baseKey + boundaryOffset line (j + 1) := by
  rw [computePageLowerBoundaries, if_neg (by omega), hm]
  refine congrArg _ (List.map_congr_left fun j hj => ?_)
  exact (pageLowerBoundary_spec hs hs1 hc hbase hreach j.succ_pos
    (by rw [List.mem_range] at hj; omega)).1

/-- A two-page segment at base `0` whose model climbs one page every two keys. -/
def halfSlopeSegment : Segment := ⟨2, 0, [], some ⟨1 / 2, 0⟩⟩

end List

/-! ### A model steeper than one page per key -/

/-- The inverse of the model `10·x` rounds every page below ten down to offset `0`. -/
lemma keyOffset_steep {j : ℕ} (hj : j < 10) : keyOffset ⟨10, 0⟩ j = 0 := by
  rw [keyOffset, Nat.floor_eq_zero, sub_zero, div_lt_one (by norm_num)]
  show (j : ℚ) < 10
  exact_mod_cast hj

/-- The steep model sends the base to page `0`. -/
lemma pageForKey_steep_base : pageForKey 0 ⟨10, 0⟩ 2 0 = 0 := by
  norm_num [pageForKey, Line64.eval]

/-- The steep model's bracket for page `1` is empty. -/
lemma pageBracket_steep : pageBracket 0 ⟨10, 0⟩ 2 1 = (0, 0) := by
  rw [pageBracket_eq (show (0 : ℚ) < (⟨10, 0⟩ : Line64).slope by norm_num)
    (show (0 : ℕ) < 2 ^ 64 by norm_num)
    (show ((2 : ℕ) : ℚ) ≤ Line64.eval ⟨10, 0⟩ ((2 ^ 64 - 1 - 0 : ℕ) : ℚ) by norm_num [Line64.eval])
    (show 1 < 2 by norm_num)]
  simp (disch := norm_num) [keyOffset_steep, pageForKey_steep_base]

/-- Whatever its records, a two-page segment at base `0` with the steep model gets the base as
the boundary of both pages. -/
lemma computePageLowerBoundaries_steepSegment (recs : List Record) :
    computePageLowerBoundaries ⟨2, 0, recs, some ⟨10, 0⟩⟩ = [0, 0] := by
  show [0, pageLowerBoundary 0 ⟨10, 0⟩ 2 (0 + 1)] = [0, 0]
  rw [pageLowerBoundary_eq_search, pageBracket_steep]
  rfl

end Treeline.Pg
