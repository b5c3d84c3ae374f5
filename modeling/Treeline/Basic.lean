import Mathlib.Algebra.Group.Nat.Basic
import Mathlib.Data.List.Sort

/-!
# Keys, records and the newest-wins merge

The page-grouping path of the store (`src/page_grouping/`) works with 64-bit unsigned integer
keys and records `(key, value)`; the write buffer (`src/db/memtable.cc`) works with byte strings.
This module fixes those types, the `Status` values the code returns, and the one abstract
operation several procedures are specified against: the *newest-wins merge* of on-disk records
with a sorted batch of in-memory records, in which a batch record replaces the disk record of the
same key.

## Main definitions

* `Treeline.Ascending` — records whose keys strictly ascend.
* `Treeline.newestWins` — the newest-wins merge of a sorted disk run with a sorted batch.

## Main results

* `Treeline.mem_newestWins` — a record is in the merge iff it is a batch record, or a disk record
  whose key no batch record has.
* `Treeline.ascending_newestWins` — the merge of two ascending runs is ascending.
-/

namespace Treeline

/-- A byte string, as `Slice` and `std::string` hold it. -/
abbrev Slice := List UInt8

/-- `std::numeric_limits<Key>::max()`. Keys of the page-grouping path are 64-bit unsigned
integers, modelled as natural numbers below `2 ^ 64`. -/
def kMaxKey : ℕ := 2 ^ 64 - 1

/-- `pg::Record`: a key with its value. -/
abbrev Record := ℕ × Slice

/-- The `Status` values the modelled code returns, with their messages. -/
inductive Status
  | ok
  | notFound (msg : String)
  | invalidArgument (msg : String)
  deriving DecidableEq, Repr

/-- Records whose keys strictly ascend (so no key occurs twice). -/
def Ascending (rs : List Record) : Prop := rs.Pairwise (fun a b => a.1 < b.1)

lemma Ascending.cons_iff {r : Record} {rs : List Record} :
    Ascending (r :: rs) ↔ (∀ b ∈ rs, r.1 < b.1) ∧ Ascending rs :=
  List.pairwise_cons

lemma Ascending.sublist {rs ts : List Record} (h : rs.Sublist ts) (ht : Ascending ts) :
    Ascending rs :=
  List.Pairwise.sublist h ht

lemma Ascending.filter {rs : List Record} (p : Record → Bool) (h : Ascending rs) :
    Ascending (rs.filter p) :=
  h.sublist (List.filter_sublist _)

lemma Ascending.append_iff {rs ts : List Record} :
    Ascending (rs ++ ts) ↔ Ascending rs ∧ Ascending ts ∧ ∀ a ∈ rs, ∀ b ∈ ts, a.1 < b.1 :=
  List.pairwise_append

/-- A run whose first key is `k` starts with an element of key `k`. -/
lemma exists_cons_of_head_key {α : Type} {l : List (ℕ × α)} {k : ℕ} (h : l.head?.map Prod.fst = some k) :
    ∃ q qs, l = q :: qs ∧ q.1 = k := by
  obtain ⟨q, hq, rfl⟩ := Option.map_eq_some'.mp h
  obtain ⟨qs, rfl⟩ := List.head?_eq_some_iff.mp hq
  exact ⟨q, qs, rfl, rfl⟩

/-! ## The newest-wins merge -/

/-- The newest-wins merge of a disk run `olds` with a batch `b :: bs`: the disk records below `b`,
then `b` (which replaces a disk record of its key), then the merge of the rest. -/
def newestWins (olds : List Record) : List Record → List Record
  | [] => olds
  | b :: bs => olds.filter (fun a => a.1 < b.1) ++ b :: newestWins (olds.filter (fun a => b.1 < a.1)) bs

@[simp] lemma newestWins_nil (olds : List Record) : newestWins olds [] = olds := rfl

@[simp] lemma newestWins_nil_left : ∀ bs : List Record, newestWins [] bs = bs
  | [] => rfl
  | b :: bs => by simp [newestWins, newestWins_nil_left bs]

/-- A disk record below the batch's next key comes first. -/
lemma newestWins_cons_of_lt {p r : Record} (ps rs : List Record) (h : p.1 < r.1) :
    newestWins (p :: ps) (r :: rs) = p :: newestWins ps (r :: rs) := by
  simp [newestWins, h, Nat.lt_asymm h]

/-- A batch record below every disk record comes first. -/
lemma newestWins_cons_of_forall_lt {r : Record} {olds : List Record} (rs : List Record)
    (h : ∀ x ∈ olds, r.1 < x.1) : newestWins olds (r :: rs) = r :: newestWins olds rs := by
  have hlt : olds.filter (fun a => a.1 < r.1) = [] :=
    List.filter_eq_nil_iff.mpr fun x hx => by simpa using Nat.le_of_lt (h x hx)
  have hgt : olds.filter (fun a => r.1 < a.1) = olds := List.filter_eq_self.mpr fun x hx => by
    simpa using h x hx
  simp [newestWins, hlt, hgt]

/-- A batch record replaces the disk record of its key. -/
lemma newestWins_cons_of_eq {p r : Record} {ps : List Record} (rs : List Record)
    (h : p.1 = r.1) (hps : Ascending (p :: ps)) : newestWins (p :: ps) (r :: rs) = r :: newestWins ps rs := by
  have hps' := Ascending.cons_iff.mp hps
  have hlt : (p :: ps).filter (fun a => a.1 < r.1) = [] :=
    List.filter_eq_nil_iff.mpr fun x hx => by
      rcases List.mem_cons.mp hx with rfl | hx
      · simp [h]
      · have := hps'.1 x hx; simp; omega
  have hgt : (p :: ps).filter (fun a => r.1 < a.1) = ps := by
    rw [List.filter_cons_of_neg (by simp [h]), List.filter_eq_self.mpr fun x hx => by
      have := hps'.1 x hx; simp; omega]
  simp [newestWins, hlt, hgt]

/-- A record is in the merge iff it is a batch record, or a disk record whose key the batch does
not have. -/
theorem mem_newestWins {bs : List Record} (hb : Ascending bs) (olds : List Record) (r : Record) :
    r ∈ newestWins olds bs ↔ r ∈ bs ∨ (r ∈ olds ∧ ∀ b ∈ bs, b.1 ≠ r.1) := by
  induction bs generalizing olds with
  | nil => simp
  | cons b bs ih =>
    rw [Ascending.cons_iff] at hb
    simp only [newestWins, List.mem_append, List.mem_filter, decide_eq_true_eq, List.mem_cons,
      ih hb.2, forall_eq_or_imp]
    constructor
    · rintro (⟨hr, hlt⟩ | rfl | hr | ⟨⟨hr, hgt⟩, hne⟩)
      · exact .inr ⟨hr, by omega, fun c hc => by have := hb.1 c hc; omega⟩
      · exact .inl (.inl rfl)
      · exact .inl (.inr hr)
      · exact .inr ⟨hr, by omega, hne⟩
    · rintro ((rfl | hr) | ⟨hr, hne, hall⟩)
      · exact .inr (.inl rfl)
      · exact .inr (.inr (.inl hr))
      · rcases Nat.lt_or_gt_of_ne hne with h | h
        · exact .inr (.inr (.inr ⟨⟨hr, h⟩, hall⟩))
        · exact .inl ⟨hr, h⟩

/-- A key is in the merge iff one of the two sides has it. -/
theorem keys_newestWins {bs : List Record} (hb : Ascending bs) (olds : List Record) (k : ℕ) :
    k ∈ (newestWins olds bs).map Prod.fst ↔ k ∈ olds.map Prod.fst ∨ k ∈ bs.map Prod.fst := by
  simp only [List.mem_map, mem_newestWins hb]
  constructor
  · rintro ⟨r, hr | ⟨hr, -⟩, rfl⟩
    · exact .inr ⟨r, hr, rfl⟩
    · exact .inl ⟨r, hr, rfl⟩
  · rintro (⟨r, hr, rfl⟩ | ⟨b, hb', rfl⟩)
    · by_cases hk : ∃ b ∈ bs, b.1 = r.1
      · obtain ⟨b, hb', hbk⟩ := hk
        exact ⟨b, .inl hb', hbk⟩
      · exact ⟨r, .inr ⟨hr, fun b hb' h => hk ⟨b, hb', h⟩⟩, rfl⟩
    · exact ⟨b, .inl hb', rfl⟩

/-- The newest-wins merge of two ascending runs is ascending. -/
theorem ascending_newestWins {olds bs : List Record} (ho : Ascending olds) (hb : Ascending bs) :
    Ascending (newestWins olds bs) := by
  induction bs generalizing olds with
  | nil => exact ho
  | cons b bs ih =>
    have hb' := Ascending.cons_iff.mp hb
    have hrest : ∀ r ∈ newestWins (olds.filter fun a => b.1 < a.1) bs, b.1 < r.1 := by
      intro r hr
      rcases (mem_newestWins hb'.2 _ r).mp hr with h | ⟨h, -⟩
      · exact hb'.1 r h
      · simpa using (List.mem_filter.mp h).2
    refine Ascending.append_iff.mpr ⟨ho.filter _, Ascending.cons_iff.mpr ⟨hrest, ih (ho.filter _) hb'.2⟩, ?_⟩
    intro a ha c hc
    have ha' : a.1 < b.1 := by simpa using (List.mem_filter.mp ha).2
    rcases List.mem_cons.mp hc with rfl | hc
    · exact ha'
    · exact ha'.trans (hrest c hc)

end Treeline
