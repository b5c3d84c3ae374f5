import Treeline.Basic

/-!
# Slice order and the `MemTable` comparator

`MemTable::Comparator` (`src/db/memtable.cc`, lines 68-99) orders records by user key, and among
records of one key puts the **greater** sequence number first. The skip list keeps its records
sorted by this comparator, so "latest wins" is a property of iteration order. This module
models `Slice::compare` and the comparator, and proves that the comparator is a strict order
that is total on records with distinct `(key, sequence number)`.

## Main definitions

* `Treeline.sliceCompare` — `Slice::compare`: bytewise over the common prefix, then by length.
* `Treeline.MemTable.Record`, `Treeline.MemTable.comparator` — a buffered record and
  `MemTable::Comparator`.

## Main results

* `Treeline.MemTable.comparator_eq_lt` — `r1 < r2` iff the key of `r1` is smaller, or the keys
  agree and `r1` has the larger sequence number.
* `Treeline.MemTable.comparator_lt_trans`, `comparator_lt_asymm`, `comparator_lt_total` — the
  comparator is a strict total order on records with distinct sequence numbers per key.
-/

namespace Treeline

/-- `Slice::compare`: compare bytes as unsigned values over the common prefix; a proper prefix
comes first. -/
def sliceCompare : Slice → Slice → Ordering
  | [], [] => .eq
  | [], _ :: _ => .lt
  | _ :: _, [] => .gt
  | a :: as, b :: bs =>
    if a.toNat < b.toNat then .lt else if b.toNat < a.toNat then .gt else sliceCompare as bs

@[simp] lemma sliceCompare_self : ∀ a : Slice, sliceCompare a a = .eq
  | [] => rfl
  | a :: as => by simp [sliceCompare, sliceCompare_self as]

/-- Two slices compare equal exactly when they are equal. -/
lemma sliceCompare_eq_iff : ∀ {a b : Slice}, sliceCompare a b = .eq ↔ a = b
  | [], [] => by simp [sliceCompare]
  | [], _ :: _ => by simp [sliceCompare]
  | _ :: _, [] => by simp [sliceCompare]
  | a :: as, b :: bs => by
    have hab : a = b ↔ a.toNat = b.toNat := ⟨congrArg _, UInt8.toNat.inj⟩
    simp only [sliceCompare, List.cons.injEq, hab]
    split_ifs <;> simp [sliceCompare_eq_iff] <;> omega

/-- Comparing the other way round swaps the answer. -/
lemma sliceCompare_swap : ∀ a b : Slice, sliceCompare b a = (sliceCompare a b).swap
  | [], [] => rfl
  | [], _ :: _ => rfl
  | _ :: _, [] => rfl
  | a :: as, b :: bs => by
    simp only [sliceCompare]
    split_ifs <;> first | omega | rfl | exact sliceCompare_swap as bs

lemma sliceCompare_lt_trans : ∀ {a b c : Slice},
    sliceCompare a b = .lt → sliceCompare b c = .lt → sliceCompare a c = .lt
  | [], [], _, h, _ => by simp at h
  | [], _ :: _, [], _, h => by simp [sliceCompare] at h
  | [], _ :: _, _ :: _, _, _ => rfl
  | _ :: _, [], _, h, _ => by simp [sliceCompare] at h
  | _ :: _, _ :: _, [], _, h => by simp [sliceCompare] at h
  | a :: as, b :: bs, c :: cs, h1, h2 => by
    simp only [sliceCompare] at h1 h2 ⊢
    split_ifs at h1 h2 ⊢ <;>
      first | rfl | omega | exact sliceCompare_lt_trans h1 h2

lemma sliceCompare_lt_irrefl (a : Slice) : sliceCompare a a ≠ .lt := by simp

/-- Two different slices are ordered one way or the other. -/
lemma sliceCompare_lt_of_not_lt {a b : Slice} (h : sliceCompare a b ≠ .lt) (hne : a ≠ b) :
    sliceCompare b a = .lt := by
  rw [sliceCompare_swap]
  cases hab : sliceCompare a b
  · exact absurd hab h
  · exact absurd (sliceCompare_eq_iff.mp hab) hne
  · rfl

/-- Slices that are not ordered either way are equal. -/
lemma sliceCompare_antisymm {a b : Slice} (h : sliceCompare a b ≠ .lt)
    (h' : sliceCompare b a ≠ .lt) : a = b :=
  by_contra fun hne => h' (sliceCompare_lt_of_not_lt h hne)

namespace MemTable

/-- A buffered write: `MemTable::Record` with its key and value bytes and its 64-bit sequence
number (the counter in the high 56 bits, the entry type in the low 8). -/
structure Record where
  key : Slice
  value : Slice
  sequenceNumber : ℕ
  deriving DecidableEq, Repr

/-- `MemTable::Comparator`: by key, and among records of one key the larger sequence number
first ("we purposely report r1 > r2 here so the latest record (r2) is ordered ahead"). -/
def comparator (r1 r2 : Record) : Ordering :=
  match sliceCompare r1.key r2.key with
  | .eq =>
    if r1.sequenceNumber < r2.sequenceNumber then .gt
    else if r2.sequenceNumber < r1.sequenceNumber then .lt
    else .eq
  | c => c

/-- The comparator's `<`, spelled out. -/
theorem comparator_eq_lt {r1 r2 : Record} :
    comparator r1 r2 = .lt ↔ sliceCompare r1.key r2.key = .lt ∨
      (r1.key = r2.key ∧ r2.sequenceNumber < r1.sequenceNumber) := by
  unfold comparator
  cases h : sliceCompare r1.key r2.key
  · simp
  · have := sliceCompare_eq_iff.mp h
    simp only [this, true_and, reduceCtorEq, false_or]
    split_ifs <;> simp <;> omega
  · simp only [reduceCtorEq, false_or, false_iff, not_and, not_lt]
    intro e
    simp [e] at h

lemma comparator_lt_trans {a b c : Record} (h1 : comparator a b = .lt)
    (h2 : comparator b c = .lt) : comparator a c = .lt := by
  rw [comparator_eq_lt] at *
  rcases h1 with h1 | ⟨k1, s1⟩ <;> rcases h2 with h2 | ⟨k2, s2⟩
  · exact .inl (sliceCompare_lt_trans h1 h2)
  · exact .inl (k2 ▸ h1)
  · exact .inl (k1 ▸ h2)
  · exact .inr ⟨k1.trans k2, s2.trans s1⟩

lemma comparator_lt_asymm {a b : Record} (h : comparator a b = .lt) : comparator b a ≠ .lt := by
  intro h'
  have := comparator_lt_trans h h'
  rw [comparator_eq_lt] at this
  rcases this with h | ⟨-, h⟩
  · exact sliceCompare_lt_irrefl _ h
  · exact lt_irrefl _ h

/-- Records that differ in key or in sequence number are comparable. -/
lemma comparator_lt_total {a b : Record} (h : comparator a b ≠ .lt)
    (hne : ¬(a.key = b.key ∧ a.sequenceNumber = b.sequenceNumber)) : comparator b a = .lt := by
  rw [ne_eq, comparator_eq_lt] at h
  rw [comparator_eq_lt]
  push_neg at h
  by_cases hk : a.key = b.key
  · have hs : a.sequenceNumber ≠ b.sequenceNumber := fun e => hne ⟨hk, e⟩
    have := h.2 hk
    exact .inr ⟨hk.symm, by omega⟩
  · exact .inl (sliceCompare_lt_of_not_lt h.1 hk)

/-- Under `comparator a b = .lt` the key of `a` is at most that of `b`. -/
lemma key_le_of_comparator_lt {a b : Record} (h : comparator a b = .lt) :
    sliceCompare b.key a.key ≠ .lt := by
  rw [comparator_eq_lt] at h
  rcases h with h | ⟨h, -⟩
  · rw [sliceCompare_swap, h]; decide
  · rw [h]; exact sliceCompare_lt_irrefl _

end MemTable

end Treeline
