import Treeline.MemTable.Comparator

/-!
# The skip list as a sorted list, and the `MemTable` iterator

The `MemTable`'s skip list is modelled by the list of its records in skip-list order, that is,
sorted by `MemTable::Comparator`. `SkipList::Insert` puts a record in front of the first record
that is not less than it, and the skip list's `Seek` moves to the first record that is not less
than its argument. `MemTable::Iterator::Next` (lines 120-142) then steps over every older record
of the current key, and `MemTable::Iterator::Seek` (lines 144-156) looks up `(target, UINT64_MAX)`.

## Main definitions

* `Treeline.MemTable.tableInsert` — `SkipList::Insert`.
* `Treeline.MemTable.Iterator.seek`, `Iterator.next` — `MemTable::Iterator::Seek` and `Next`.
* `Treeline.MemTable.Iterator.yields` — the records a `Valid()` / `Next()` loop visits.

## Main results

* `Treeline.MemTable.sorted_tableInsert` — inserting a record with a fresh sequence number keeps
  the list sorted.
* `Treeline.MemTable.Iterator.pairwise_keys_yields`, `exists_key_yields`, `latest_of_mem_yields`
  — on a sorted list the iteration visits each key once, in ascending order, at the record with
  the greatest sequence number of that key.
* `Treeline.MemTable.Iterator.mem_seek`, `head_seek_latest` — `Seek(t)` keeps exactly the
  records with key `≥ t`, and its first record is the latest of its key.
-/

namespace Treeline.MemTable

/-- The skip list's records, in its order: strictly sorted by `comparator`. -/
def Sorted (l : List Record) : Prop := l.Pairwise (fun a b => comparator a b = .lt)

/-- `SkipList::Insert`: the new record goes in front of the first record that is not less
than it. -/
def tableInsert (r : Record) : List Record → List Record
  | [] => [r]
  | x :: xs => if comparator x r = .lt then x :: tableInsert r xs else r :: x :: xs

lemma mem_tableInsert {r y : Record} : ∀ {l : List Record}, y ∈ tableInsert r l ↔ y = r ∨ y ∈ l
  | [] => by simp [tableInsert]
  | x :: xs => by
    unfold tableInsert
    split_ifs <;> simp only [List.mem_cons, mem_tableInsert]; tauto

/-- Inserting a record whose `(key, sequence number)` is new keeps the list sorted. -/
theorem sorted_tableInsert {r : Record} : ∀ {l : List Record}, Sorted l →
    (∀ x ∈ l, ¬(x.key = r.key ∧ x.sequenceNumber = r.sequenceNumber)) → Sorted (tableInsert r l)
  | [], _, _ => List.pairwise_singleton _ _
  | x :: xs, hs, hne => by
    rw [Sorted, List.pairwise_cons] at hs
    unfold tableInsert
    split_ifs with hx
    · refine List.pairwise_cons.mpr ⟨fun y hy => ?_, sorted_tableInsert hs.2 fun y hy => hne y (.tail _ hy)⟩
      rcases mem_tableInsert.mp hy with rfl | hy
      · exact hx
      · exact hs.1 y hy
    · have hrx : comparator r x = .lt := comparator_lt_total hx (hne x (.head _))
      refine List.pairwise_cons.mpr ⟨fun y hy => ?_, List.pairwise_cons.mpr hs⟩
      rcases List.mem_cons.mp hy with rfl | hy
      · exact hrx
      · exact comparator_lt_trans hrx (hs.1 y hy)

/-- In a list sorted by `R`, a predicate that holds of everything before an element it holds of
marks a prefix, and `dropWhile` removes exactly the elements it holds of. -/
lemma mem_dropWhile_of_pairwise {α : Type} {R : α → α → Prop} {p : α → Bool} :
    ∀ {l : List α}, l.Pairwise R → (∀ a ∈ l, ∀ b ∈ l, R a b → p b → p a) →
      ∀ {x : α}, x ∈ l.dropWhile p ↔ x ∈ l ∧ p x = false
  | [], _, _, _ => by simp
  | a :: l, hs, hp, x => by
    rw [List.pairwise_cons] at hs
    have hp' : ∀ a ∈ l, ∀ b ∈ l, R a b → p b → p a :=
      fun c hc d hd => hp c (.tail _ hc) d (.tail _ hd)
    by_cases ha : p a
    · rw [List.dropWhile_cons_of_pos ha, mem_dropWhile_of_pairwise hs.2 hp', List.mem_cons]
      constructor
      · exact fun h => ⟨.inr h.1, h.2⟩
      · rintro ⟨rfl | h, hx⟩
        · simp [ha] at hx
        · exact ⟨h, hx⟩
    · rw [List.dropWhile_cons_of_neg ha]
      refine ⟨fun h => ⟨h, ?_⟩, fun h => h.1⟩
      rcases List.mem_cons.mp h with rfl | h
      · simpa using ha
      · cases hx : p x
        · rfl
        · exact absurd (hp a (.head _) x (.tail _ h) (hs.1 x h) hx) ha

lemma Sorted.sublist {l l' : List Record} (h : l'.Sublist l) (hs : Sorted l) : Sorted l' :=
  List.Pairwise.sublist h hs

/-- The lookup record of `MemTable::Iterator::Seek`: the target key with sequence number
`std::numeric_limits<uint64_t>::max()`, which sorts before every record of that key. -/
def seekSentinel (target : Slice) : Record := ⟨target, [], 2 ^ 64 - 1⟩

namespace Iterator

/-- `MemTable::Iterator::Seek`: the skip list's `Seek` moves to the first record that is not
less than the lookup record. An iterator position is the list of records from it on. -/
def seek (l : List Record) (target : Slice) : List Record :=
  l.dropWhile fun x => decide (comparator x (seekSentinel target) = .lt)

/-- `MemTable::Iterator::Next`: advance, then keep advancing past records of the same key. -/
def next : List Record → List Record
  | [] => []
  | r :: rest => rest.dropWhile fun x => decide (sliceCompare r.key x.key = .eq)

/-- The records a `while (it.Valid()) { ...; it.Next(); }` loop visits, with `n` steps of
fuel. -/
def scan : ℕ → List Record → List Record
  | 0, _ => []
  | _ + 1, [] => []
  | n + 1, r :: rest => r :: scan n (next (r :: rest))

/-- The records visited from an iterator position until it is no longer valid. Each `Next`
consumes at least one record, so the length of the position is enough fuel. -/
def yields (l : List Record) : List Record := scan l.length l

lemma next_sublist (r : Record) (rest : List Record) : (next (r :: rest)).Sublist rest :=
  List.dropWhile_sublist _

/-- After `Next`, exactly the records of other keys remain. -/
lemma mem_next {r x : Record} {rest : List Record} (hs : Sorted (r :: rest)) :
    x ∈ next (r :: rest) ↔ x ∈ rest ∧ x.key ≠ r.key := by
  rw [Sorted, List.pairwise_cons] at hs
  rw [next, mem_dropWhile_of_pairwise hs.2]
  · simp only [decide_eq_false_iff_not, sliceCompare_eq_iff]
    exact and_congr_right fun _ => ⟨fun h e => h e.symm, fun h e => h e.symm⟩
  · intro a ha b _ hab hb
    simp only [decide_eq_true_eq, sliceCompare_eq_iff] at hb ⊢
    exact sliceCompare_antisymm (hb ▸ key_le_of_comparator_lt hab) (key_le_of_comparator_lt (hs.1 a ha))

/-- Every record left after `Next` has a larger key than the one stepped over. -/
lemma key_lt_of_mem_next {r x : Record} {rest : List Record} (hs : Sorted (r :: rest))
    (hx : x ∈ next (r :: rest)) : sliceCompare r.key x.key = .lt := by
  obtain ⟨hx, hne⟩ := (mem_next hs).mp hx
  exact sliceCompare_lt_of_not_lt (key_le_of_comparator_lt ((List.pairwise_cons.mp hs).1 x hx)) hne

lemma sorted_next {r : Record} {rest : List Record} (hs : Sorted (r :: rest)) :
    Sorted (next (r :: rest)) :=
  hs.sublist ((next_sublist r rest).trans (List.sublist_cons_self r rest))

lemma length_next_le (r : Record) (rest : List Record) : (next (r :: rest)).length ≤ rest.length :=
  (next_sublist r rest).length_le

lemma scan_sublist : ∀ (n : ℕ) (l : List Record), (scan n l).Sublist l
  | 0, _ => List.nil_sublist _
  | _ + 1, [] => List.Sublist.slnil
  | n + 1, r :: rest => ((scan_sublist n _).trans (next_sublist r rest)).cons₂ r

/-- The keys visited strictly ascend. -/
lemma pairwise_keys_scan : ∀ (n : ℕ) {l : List Record}, Sorted l →
    (scan n l).Pairwise (fun a b => sliceCompare a.key b.key = .lt)
  | 0, _, _ => List.Pairwise.nil
  | _ + 1, [], _ => List.Pairwise.nil
  | n + 1, _ :: _, hs => List.pairwise_cons.mpr
    ⟨fun _ hx => key_lt_of_mem_next hs ((scan_sublist n _).subset hx),
      pairwise_keys_scan n (sorted_next hs)⟩

/-- With enough fuel the visit meets every key of the list. -/
lemma exists_key_scan : ∀ (n : ℕ) {l : List Record}, Sorted l → l.length ≤ n → ∀ k : Slice,
    (∃ r ∈ scan n l, r.key = k) ↔ ∃ r ∈ l, r.key = k
  | 0, [], _, _, _ => by simp [scan]
  | _ + 1, [], _, _, _ => by simp [scan]
  | n + 1, r :: rest, hs, hn, k => by
    have ih := exists_key_scan n (sorted_next hs)
      ((length_next_le r rest).trans (by simpa using hn)) k
    simp only [scan, List.mem_cons, exists_eq_or_imp, ih]
    constructor
    · rintro (h | ⟨x, hx, rfl⟩)
      · exact .inl h
      · exact .inr ⟨x, ((mem_next hs).mp hx).1, rfl⟩
    · rintro (h | ⟨x, hx, rfl⟩)
      · exact .inl h
      · by_cases hk : x.key = r.key
        · exact .inl hk.symm
        · exact .inr ⟨x, (mem_next hs).mpr ⟨hx, hk⟩, rfl⟩

/-- Each visited record has the greatest sequence number of its key. -/
lemma latest_of_mem_scan : ∀ (n : ℕ) {l : List Record}, Sorted l → ∀ {r : Record},
    r ∈ scan n l → ∀ x ∈ l, x.key = r.key → x.sequenceNumber ≤ r.sequenceNumber
  | 0, _, _, _, h, _, _, _ => by simp [scan] at h
  | _ + 1, [], _, _, h, _, _, _ => by simp [scan] at h
  | n + 1, r₀ :: rest, hs, r, hr, x, hx, hk => by
    rcases List.mem_cons.mp hr with rfl | hr
    · rcases List.mem_cons.mp hx with rfl | hx
      · exact le_rfl
      · have := comparator_eq_lt.mp ((List.pairwise_cons.mp hs).1 x hx)
        rcases this with h | ⟨-, h⟩
        · rw [hk] at h; exact absurd h (sliceCompare_lt_irrefl _)
        · exact h.le
    · have hr' := (mem_next hs).mp ((scan_sublist n _).subset hr)
      rcases List.mem_cons.mp hx with rfl | hx
      · exact absurd hk.symm hr'.2
      · exact latest_of_mem_scan n (sorted_next hs) hr x ((mem_next hs).mpr ⟨hx, hk ▸ hr'.2⟩) hk

lemma pairwise_keys_yields {l : List Record} (hs : Sorted l) :
    (yields l).Pairwise (fun a b => sliceCompare a.key b.key = .lt) :=
  pairwise_keys_scan _ hs

lemma exists_key_yields {l : List Record} (hs : Sorted l) (k : Slice) :
    (∃ r ∈ yields l, r.key = k) ↔ ∃ r ∈ l, r.key = k :=
  exists_key_scan _ hs le_rfl k

lemma latest_of_mem_yields {l : List Record} (hs : Sorted l) {r : Record} (hr : r ∈ yields l) :
    r ∈ l ∧ ∀ x ∈ l, x.key = r.key → x.sequenceNumber ≤ r.sequenceNumber :=
  ⟨(scan_sublist _ _).subset hr, latest_of_mem_scan _ hs hr⟩

/-- Against the seek sentinel, a record with a 64-bit sequence number is smaller exactly when its
key is. -/
lemma comparator_seekSentinel {x : Record} (hx : x.sequenceNumber < 2 ^ 64) (t : Slice) :
    comparator x (seekSentinel t) = .lt ↔ sliceCompare x.key t = .lt := by
  rw [comparator_eq_lt]
  simp only [seekSentinel, or_iff_left_iff_imp, and_imp]
  intro _ h
  omega

/-- `Seek(t)` keeps exactly the records whose key is not below `t`. -/
theorem mem_seek {l : List Record} (hs : Sorted l) (hseq : ∀ x ∈ l, x.sequenceNumber < 2 ^ 64)
    (t : Slice) {x : Record} : x ∈ seek l t ↔ x ∈ l ∧ sliceCompare x.key t ≠ .lt := by
  rw [seek, mem_dropWhile_of_pairwise hs]
  · simp only [decide_eq_false_iff_not, and_congr_right_iff]
    exact fun hx => not_congr (comparator_seekSentinel (hseq x hx) t)
  · intro a ha b hb hab h
    simp only [decide_eq_true_eq, comparator_seekSentinel (hseq a ha),
      comparator_seekSentinel (hseq b hb)] at h ⊢
    by_cases e : a.key = b.key
    · rwa [e]
    · exact sliceCompare_lt_trans (sliceCompare_lt_of_not_lt (key_le_of_comparator_lt hab) (Ne.symm e)) h

lemma sorted_seek {l : List Record} (hs : Sorted l) (t : Slice) : Sorted (seek l t) :=
  hs.sublist (List.dropWhile_sublist _)

/-- The record `Seek(t)` lands on has key `≥ t` and is below every other record with key
`≥ t`. -/
theorem head_seek_le {l : List Record} (hs : Sorted l)
    (hseq : ∀ x ∈ l, x.sequenceNumber < 2 ^ 64) {t : Slice} {r : Record} {rest : List Record}
    (h : seek l t = r :: rest) :
    r ∈ l ∧ sliceCompare r.key t ≠ .lt ∧
      ∀ y ∈ l, sliceCompare y.key t ≠ .lt → y = r ∨ comparator r y = .lt := by
  have hr := (mem_seek hs hseq t).mp (h ▸ List.mem_cons_self r rest)
  refine ⟨hr.1, hr.2, fun y hy hyt => ?_⟩
  have hy' : y ∈ r :: rest := h ▸ (mem_seek hs hseq t).mpr ⟨hy, hyt⟩
  have hsr := h ▸ sorted_seek hs t
  rcases List.mem_cons.mp hy' with rfl | hy'
  · exact .inl rfl
  · exact .inr ((List.pairwise_cons.mp hsr).1 y hy')

end Iterator

end Treeline.MemTable
