import Mathlib.Data.Rat.Floor
import Treeline.PageGrouping.Store

/-!
# Page boundaries of a multi-page segment

A segment of `P ≥ 2` pages carries a linear model; `PageForKey` sends a key to the page the model
predicts for it, clamped to the segment. `ComputePageLowerBoundaries`
(`src/page_grouping/manager_load.cc`, lines 109-174) finds, for each page, the smallest key the
model sends there: it inverts the model to get a candidate, brackets the boundary with the
inverse at a neighbouring page, and binary searches the key domain with `std::lower_bound` over
`KeyDomainIterator` (lines 56-91).

## Main definitions

* `Treeline.Pg.Line64.eval`, `Line64.invert` — the model and its inverse, over `ℚ`.
* `Treeline.Pg.pageForKey` — `PageForKey`.
* `Treeline.Pg.keyLowerBound` — `std::lower_bound` over a range of keys.
* `Treeline.Pg.computePageLowerBoundaries` — `ComputePageLowerBoundaries`.

## Implementation notes

`plr::Line64`, `Invert` and `PageForKey` are not in the modelled sources. The model is evaluated
exactly over `ℚ`, and `PageForKey` follows the spec (§3, (I3)): `clamp(⌊M(k − base)⌋, 0, P − 1)`
with the key difference in 64-bit arithmetic. The cast of a `double` to a key truncates; a
negative value (undefined in C++) is taken to `0`.
-/

namespace Treeline.Pg

/-- `Line64::operator()`. -/
def Line64.eval (l : Line64) (x : ℚ) : ℚ := l.slope * x + l.intercept

/-- `Line64::Invert()`: the line solved for `x`. -/
def Line64.invert (l : Line64) : Line64 := ⟨1 / l.slope, -l.intercept / l.slope⟩

/-- `static_cast<Key>(x)` of a model value. -/
def toKey (x : ℚ) : ℕ := ⌊x⌋.toNat % 2 ^ 64

/-- `PageForKey(base, model, page_count, key)`: the model's page for `key`, clamped to
`0 … page_count - 1`. `PageForKey` is called in `src/` but defined elsewhere; this follows the
spec's placement rule `clamp(⌊M(k − base)⌋, 0, P−1)` (§3, I3). -/
def pageForKey (base : ℕ) (l : Line64) (pageCount key : ℕ) : ℕ :=
  min (pageCount - 1) ⌊l.eval (((key + 2 ^ 64 - base) % 2 ^ 64 : ℕ) : ℚ)⌋.toNat

/-- `std::lower_bound(first, first + len, value, comp)` over keys with `comp(k, value) = pred k`,
as libstdc++ runs it: halve the range, keep the upper half past the middle when the middle still
satisfies `pred`. `fuel` bounds the halvings; `len` of them always suffice. -/
def keyLowerBound (pred : ℕ → Bool) : ℕ → ℕ → ℕ → ℕ
  | 0, first, _ => first
  | fuel + 1, first, len =>
    if len = 0 then first
    else if pred (first + len / 2) then keyLowerBound pred fuel (first + len / 2 + 1) (len - len / 2 - 1)
    else keyLowerBound pred fuel first (len / 2)

/-- The boundary of page `pageIdx ≥ 1` (lines 124-169): bracket it from the inverted model, then
binary search the bracket for the first key the model does not send below `pageIdx`. -/
def pageLowerBoundary (base : ℕ) (line : Line64) (pageCount pageIdx : ℕ) : ℕ :=
  let pageToKey := line.invert
  let keyAt := fun i : ℕ => (toKey (pageToKey.eval i) + base) % 2 ^ 64
  let candidate := keyAt pageIdx
  let bracket := if pageIdx ≤ pageForKey base line pageCount candidate
    then (keyAt (pageIdx - 1), candidate) else (candidate, keyAt (pageIdx + 1))
  let len := (bracket.2 + 2 ^ 64 - bracket.1) % 2 ^ 64
  keyLowerBound (fun k => decide (pageForKey base line pageCount k < pageIdx)) len bracket.1 len

/-- The search range `(lower, upper)` of page `pageIdx` (lines 131-150), as `pageLowerBoundary`
chooses it. -/
def pageBracket (base : ℕ) (line : Line64) (pageCount pageIdx : ℕ) : ℕ × ℕ :=
  let keyAt := fun i : ℕ => (toKey (line.invert.eval i) + base) % 2 ^ 64
  if pageIdx ≤ pageForKey base line pageCount (keyAt pageIdx)
  then (keyAt (pageIdx - 1), keyAt pageIdx) else (keyAt pageIdx, keyAt (pageIdx + 1))

/-- `pageLowerBoundary` searches its bracket from the lower end over the bracket's length. -/
lemma pageLowerBoundary_eq_search (base : ℕ) (line : Line64) (pageCount pageIdx : ℕ) :
    pageLowerBoundary base line pageCount pageIdx =
      keyLowerBound (fun k => decide (pageForKey base line pageCount k < pageIdx))
        (((pageBracket base line pageCount pageIdx).2 + 2 ^ 64 -
          (pageBracket base line pageCount pageIdx).1) % 2 ^ 64)
        (pageBracket base line pageCount pageIdx).1
        (((pageBracket base line pageCount pageIdx).2 + 2 ^ 64 -
          (pageBracket base line pageCount pageIdx).1) % 2 ^ 64) := rfl

/-- `ComputePageLowerBoundaries(seg)`: the segment's base key, then the lower boundary of each
further page. The builder gives every multi-page segment a model; without one the segment is
treated as a single page. -/
def computePageLowerBoundaries (seg : Segment) : List ℕ :=
  if seg.pageCount = 1 then [seg.baseKey]
  else
    match seg.model with
    | none => [seg.baseKey]
    | some line =>
      seg.baseKey :: (List.range (seg.pageCount - 1)).map fun j =>
        pageLowerBoundary seg.baseKey line seg.pageCount (j + 1)

/-- The boundary list starts at the segment's base key. -/
lemma head_computePageLowerBoundaries (seg : Segment) :
    (computePageLowerBoundaries seg).head? = some seg.baseKey := by
  unfold computePageLowerBoundaries
  split_ifs
  · rfl
  · split <;> rfl

/-- A multi-page segment with a model gets one boundary per page. -/
lemma length_computePageLowerBoundaries {seg : Segment} {line : Line64}
    (hm : seg.model = some line) (hp : 1 ≤ seg.pageCount) :
    (computePageLowerBoundaries seg).length = seg.pageCount := by
  unfold computePageLowerBoundaries
  split_ifs with h
  · simp [h]
  · simp [hm]; omega

end Treeline.Pg
