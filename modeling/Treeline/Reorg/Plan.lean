import Mathlib.Algebra.Order.BigOperators.Group.List
import Mathlib.Algebra.Order.Group.Nat
import Mathlib.Algebra.Order.Ring.Nat
import Treeline.Basic

/-!
# Sizing a chain reorganization

Before it reads a record, `DBImpl::ReorganizeOverflowChain` (`src/db/db_impl_reorg.cc`,
lines 68-105) estimates how many records the chain may hold — every page full of records of the
effective size `record_size - prefix`, two records' worth of fences subtracted — and raises the
fill percentage until the estimate fits in `max_reorg_fanout` pages. After the first pass it
replaces the estimate by the observed count, and the number of pages it writes is
`dist.num_pages()` for that count (lines 121-134).

## Main definitions

* `Treeline.DBImpl.KeyDistHints` with `recordsPerPage` and `numPages` — the sizing hints.
* `Treeline.DBImpl.initialHints` — the estimate of lines 68-93, in `size_t` arithmetic.
* `Treeline.DBImpl.fillLoop` — the loop of lines 95-104.

## Main results

* `Treeline.DBImpl.fillLoop_crashes_at_one_percent` — at a fill percentage of `1` a page of
  4 KiB holds no record of 64 bytes, and `num_pages()` divides by zero before the loop runs.
* `Treeline.DBImpl.fillLoop_fits` — when two records fit in a page and one record fits at the
  initial fill percentage, the loop stops at a fill percentage of at most `100`, with at least
  one record per page, an estimate that bounds the observed count, and at most
  `max_reorg_fanout` pages written.

## Implementation notes

`KeyDistHints::records_per_page()` and `KeyDistHints::num_pages()` and the page constants
`Page::UsableSize()` and `Page::PerRecordMetadataSize()` are not in the modelled sources. The
constants are a parameter (`PageLayout`); the two functions follow the spec (§4.5): the records
that fit in the usable part of a page filled to `page_fill_pct` percent, and the number of pages
that many records per page take, rounded up. A division by zero is a crash (`none`).
-/

namespace Treeline.DBImpl

/-- `Page::UsableSize()` and `Page::PerRecordMetadataSize()`. -/
structure PageLayout where
  usableSize : ℕ
  perRecordMetadataSize : ℕ

/-- The options the reorganization reads: `max_reorg_fanout` and the record and key sizes of
`key_hints`. -/
structure Options where
  maxReorgFanout : ℕ
  recordSize : ℕ
  keySize : ℕ

/-- `KeyDistHints`: the sizing hints of a page layout. -/
structure KeyDistHints where
  numKeys : ℕ
  keySize : ℕ
  recordSize : ℕ
  pageFillPct : ℕ

variable (P : PageLayout)

/-- Modelled from the spec: `KeyDistHints::records_per_page()`, the records of size
`record_size` (plus per-record metadata) that fit in the usable part of a page filled to
`page_fill_pct` percent. -/
def KeyDistHints.recordsPerPage (d : KeyDistHints) : ℕ :=
  P.usableSize * d.pageFillPct / 100 / (d.recordSize + P.perRecordMetadataSize)

/-- Modelled from the spec: `KeyDistHints::num_pages()`, `⌈num_keys / records_per_page⌉`; the
integer division traps when no record fits in a page (`none`). -/
def KeyDistHints.numPages (d : KeyDistHints) : Option ℕ :=
  if d.recordsPerPage P = 0 then none
  else some ((d.numKeys + d.recordsPerPage P - 1) / d.recordsPerPage P)

/-- `size_t` subtraction. -/
def subSizeT (a b : ℕ) : ℕ := (a + 2 ^ 64 - b) % 2 ^ 64

lemma subSizeT_of_le {a b : ℕ} (hb : b ≤ a) (ha : a < 2 ^ 64) : subSizeT a b = a - b := by
  rw [subSizeT, show a + 2 ^ 64 - b = (a - b) + 2 ^ 64 by omega, Nat.add_mod_right,
    Nat.mod_eq_of_lt (by omega)]

/-- The hints of lines 68-93 for a chain of `chainSize` pages whose head has a key prefix of
`prefixSize` bytes: the effective record size, and the estimate "every page full of such
records, less two records' worth of fences". -/
def initialHints (opts : Options) (chainSize prefixSize pageFillPct : ℕ) : KeyDistHints :=
  let effective := subSizeT opts.recordSize prefixSize
  { numKeys := chainSize * (subSizeT P.usableSize (2 * opts.recordSize) /
        (effective + P.perRecordMetadataSize)) % 2 ^ 64
    keySize := opts.keySize
    recordSize := effective
    pageFillPct := pageFillPct }

/-- The loop of lines 95-104: `while (dist.num_pages() > max_reorg_fanout) ++dist.page_fill_pct;`
with `page_fill_pct` a `uint32_t`. `fuel` bounds the iterations; `none` is a trap or a loop that
has not stopped. -/
def fillLoop (fanout : ℕ) : ℕ → KeyDistHints → Option KeyDistHints
  | 0, _ => none
  | fuel + 1, d => do
    let p ← d.numPages P
    if fanout < p then fillLoop fanout fuel { d with pageFillPct := (d.pageFillPct + 1) % 2 ^ 32 }
    else pure d

/-- The loop fits a chain of `recordCount` records: it stops at a fill percentage of at most
`100` with at least one record per page, the estimate bounds the observed `recordCount` (the
assertion of line 121), and the pages written for that count are at most `max_reorg_fanout`. -/
def FillLoopFits (opts : Options) (d₀ : KeyDistHints) (recordCount : ℕ) : Prop :=
  ∃ fuel d, fillLoop P opts.maxReorgFanout fuel d₀ = some d ∧ d.pageFillPct ≤ 100 ∧
    1 ≤ d.recordsPerPage P ∧ recordCount ≤ d.numKeys ∧
    ∃ n, { d with numKeys := recordCount }.numPages P = some n ∧ n ≤ opts.maxReorgFanout

/-- The loop traps at once when no record fits in a page at the starting fill percentage. -/
lemma fillLoop_eq_none_of_recordsPerPage_eq_zero {fanout : ℕ} {d : KeyDistHints}
    (h : d.recordsPerPage P = 0) (fuel : ℕ) : fillLoop P fanout fuel d = none := by
  cases fuel <;> simp [fillLoop, KeyDistHints.numPages, h]

/-- **A 1% fill percentage traps.** With a 4 KiB page (an upper bound on `Page::UsableSize()`),
no per-record metadata, records of 64 bytes with no key prefix, and a chain of two empty pages
under a fanout of two — a chain within the fanout whose fences fit in a page — one percent of the
page holds no record, and `num_pages()` divides by zero before the loop's first test. -/
theorem fillLoop_crashes_at_one_percent :
    ¬ FillLoopFits ⟨4096, 0⟩ ⟨2, 64, 8⟩ (initialHints ⟨4096, 0⟩ ⟨2, 64, 8⟩ 2 0 1) 0 := by
  rintro ⟨fuel, d, h, -⟩
  rw [fillLoop_eq_none_of_recordsPerPage_eq_zero _ (by decide)] at h
  cases h

/-- The hints `d` with the fill percentage set to `f`. -/
def KeyDistHints.withFill (d : KeyDistHints) (f : ℕ) : KeyDistHints := { d with pageFillPct := f }

lemma recordsPerPage_mono (d : KeyDistHints) {f f' : ℕ} (h : f ≤ f') :
    (d.withFill f).recordsPerPage P ≤ (d.withFill f').recordsPerPage P :=
  Nat.div_le_div_right (Nat.div_le_div_right (Nat.mul_le_mul_left _ h))

/-- `⌈a / r⌉ ≤ c` once `a ≤ c · r`. -/
lemma ceilDiv_le {a r c : ℕ} (hr : 0 < r) (h : a ≤ c * r) : (a + r - 1) / r ≤ c :=
  Nat.lt_succ_iff.mp ((Nat.div_lt_iff_lt_mul hr).mpr (by rw [Nat.succ_mul]; omega))

lemma numPages_eq {d : KeyDistHints} (hr : 0 < d.recordsPerPage P) :
    d.numPages P = some ((d.numKeys + d.recordsPerPage P - 1) / d.recordsPerPage P) := by
  simp [KeyDistHints.numPages, hr.ne']

/-- The loop stops at the first fill percentage, counting up from the start, at which the pages
fit, provided no record size traps on the way and the counter does not wrap. -/
lemma fillLoop_stops (fanout : ℕ) (d : KeyDistHints) :
    ∀ (k fuel f : ℕ), k < fuel → f + k < 2 ^ 32 → 0 < (d.withFill f).recordsPerPage P →
      (∃ p, (d.withFill (f + k)).numPages P = some p ∧ p ≤ fanout) →
      ∃ f', fillLoop P fanout fuel (d.withFill f) = some (d.withFill f') ∧ f ≤ f' ∧
        f' ≤ f + k ∧ ∃ p, (d.withFill f').numPages P = some p ∧ p ≤ fanout
  | _, 0, _, hk, _, _, _ => absurd hk (Nat.not_lt_zero _)
  | k, fuel + 1, f, hk, hw, hr, hfit => by
    by_cases hp : fanout < ((d.withFill f).numKeys + (d.withFill f).recordsPerPage P - 1) /
        (d.withFill f).recordsPerPage P
    · cases k with
      | zero => obtain ⟨p, hp', hle⟩ := hfit; simp [numPages_eq P hr] at hp'; omega
      | succ k =>
        have hf₁ : (f + 1) % 2 ^ 32 = f + 1 := Nat.mod_eq_of_lt (by omega)
        obtain ⟨f', hd', h1, h2, hfit'⟩ := fillLoop_stops fanout d k fuel (f + 1) (by omega)
          (by omega) (lt_of_lt_of_le hr (recordsPerPage_mono P d (by omega)))
          (by rwa [Nat.add_right_comm])
        refine ⟨f', ?_, by omega, by omega, hfit'⟩
        rw [fillLoop, numPages_eq P hr]
        simp only [Option.bind_eq_bind, Option.some_bind, if_pos hp]
        rw [← hd', ← hf₁]
        rfl
    · exact ⟨f, by simp [fillLoop, numPages_eq P hr, hp], le_rfl, by omega, _, numPages_eq P hr,
        by omega⟩

/-- **The loop fits the chain.** For a chain of `2 ≤ c ≤ max_reorg_fanout` pages with a key
prefix shorter than the record size, each page holding at most the estimated records per page,
a starting fill percentage in `1‥100` at which a record fits in a page, two records fitting in a
page, and a chain whose bytes fit in a `size_t`: the loop stops at a fill percentage of at most
`100` with at least one record per page, the estimate bounds the observed count (the assertion
of line 121), and the pages written for that count are at most `max_reorg_fanout`.

**Proof sketch.** At `100%` a page holds `⌊usable / (E + meta)⌋ ≥ ⌊(usable - 2R) / (E + meta)⌋`
records, so the estimate `c · ⌊(usable - 2R) / (E + meta)⌋` takes at most `c` pages; the loop
stops no later than there (`fillLoop_stops`), and the observed count is below the estimate. -/
theorem fillLoop_fits (opts : Options) (c prefixSize f₀ : ℕ) (pageCounts : List ℕ)
    (hc : 2 ≤ c) (hcf : c ≤ opts.maxReorgFanout) (hlen : pageCounts.length = c)
    (hf₀ : 1 ≤ f₀) (hf₁ : f₀ ≤ 100) (hpre : prefixSize < opts.recordSize)
    (hfence : 2 * opts.recordSize ≤ P.usableSize)
    (hone : 1 ≤ (initialHints P opts c prefixSize f₀).recordsPerPage P)
    (hmem : c * P.usableSize < 2 ^ 64)
    (hpages : ∀ x ∈ pageCounts, x ≤ (P.usableSize - 2 * opts.recordSize) /
      (opts.recordSize - prefixSize + P.perRecordMetadataSize)) :
    FillLoopFits P opts (initialHints P opts c prefixSize f₀) pageCounts.sum := by
  set E := opts.recordSize - prefixSize
  set M := (P.usableSize - 2 * opts.recordSize) / (E + P.perRecordMetadataSize)
  set d₀ := initialHints P opts c prefixSize f₀
  have hU : P.usableSize < 2 ^ 64 := lt_of_le_of_lt (Nat.le_mul_of_pos_left _ (by omega)) hmem
  have hM : M ≤ P.usableSize := (Nat.div_le_self _ _).trans (Nat.sub_le _ _)
  have hcM : c * M ≤ c * P.usableSize := Nat.mul_le_mul_left c hM
  have hd₀ : d₀ = ⟨c * M, opts.keySize, E, f₀⟩ := by
    simp only [d₀, initialHints, subSizeT_of_le hpre.le (by omega), subSizeT_of_le hfence hU,
      Nat.mod_eq_of_lt (lt_of_le_of_lt hcM hmem)]
  -- at 100% a page holds at least the estimated records per page
  have hr100 : M ≤ (d₀.withFill 100).recordsPerPage P := by
    rw [hd₀]
    exact Nat.div_le_div_right (by simp [KeyDistHints.withFill])
  have hr₀ : 0 < (d₀.withFill f₀).recordsPerPage P := hone
  have hpos : 0 < (d₀.withFill 100).recordsPerPage P :=
    lt_of_lt_of_le hr₀ (recordsPerPage_mono P d₀ hf₁)
  have hfit100 : ∃ p, (d₀.withFill (f₀ + (100 - f₀))).numPages P = some p ∧
      p ≤ opts.maxReorgFanout := by
    rw [Nat.add_sub_cancel' hf₁, numPages_eq P hpos]
    refine ⟨_, rfl, (ceilDiv_le hpos ?_).trans hcf⟩
    rw [show (d₀.withFill 100).numKeys = c * M by rw [hd₀]; rfl]
    exact Nat.mul_le_mul_left c hr100
  obtain ⟨f, hloop, hf, hf100, p, hp, hpf⟩ :=
    fillLoop_stops P opts.maxReorgFanout d₀ (100 - f₀) (100 - f₀ + 1) f₀ (by omega) (by omega) hr₀
      hfit100
  have hrf : 0 < (d₀.withFill f).recordsPerPage P := lt_of_lt_of_le hr₀ (recordsPerPage_mono P d₀ hf)
  have hsum : pageCounts.sum ≤ c * M := by
    have := List.sum_le_card_nsmul pageCounts M hpages
    rw [hlen] at this
    exact this
  have hkeys : (d₀.withFill f).numKeys = c * M := by rw [hd₀]; rfl
  refine ⟨100 - f₀ + 1, d₀.withFill f, hloop, by simp only [KeyDistHints.withFill]; omega, hrf,
    hkeys ▸ hsum, ?_⟩
  have hr' : ({ d₀.withFill f with numKeys := pageCounts.sum }).recordsPerPage P =
      (d₀.withFill f).recordsPerPage P := rfl
  rw [numPages_eq P (hr' ▸ hrf), hr']
  rw [numPages_eq P hrf, hkeys] at hp
  refine ⟨_, rfl, le_trans (Nat.div_le_div_right ?_) (Option.some_inj.mp hp ▸ hpf)⟩
  exact Nat.sub_le_sub_right (Nat.add_le_add_right hsum _) _

/-- `fillLoop_fits` at a 4000-byte usable page with 4 bytes of per-record metadata, 16-byte
records, a fanout of 4 and a two-page chain holding 10 and 20 records, starting at 50%. -/
theorem fillLoop_fits_two_pages :
    FillLoopFits ⟨4000, 4⟩ ⟨4, 16, 8⟩ (initialHints ⟨4000, 4⟩ ⟨4, 16, 8⟩ 2 0 50) [10, 20].sum :=
  fillLoop_fits ⟨4000, 4⟩ ⟨4, 16, 8⟩ 2 0 50 [10, 20] (by decide) (by decide) rfl (by decide)
    (by decide) (by decide) (by decide) (by decide) (by decide) (by decide)

end Treeline.DBImpl
