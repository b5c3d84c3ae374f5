import Treeline.MemTable.SkipList

/-!
# The write buffer over a trace of writes and deletes

`MemTable::Put` and `MemTable::Delete` (`src/db/memtable.cc`, lines 20-66) stamp each record with
the next sequence number, shifted into the high 56 bits, with the entry type in the low byte, and
insert it into the skip list. `MemTable::Get` seeks to `(key, UINT64_MAX)` and reports the record
found there if its key matches. This module runs the buffer over an arbitrary trace of `Put` and
`Delete` calls and proves the latest-wins law for `Get` and for iteration.

## Main definitions

* `Treeline.MemTable` — the buffer: the skip list's records and `next_sequence_num_`.
* `Treeline.MemTable.insertImpl`, `put`, `delete`, `get` — the buffer's operations.
* `Treeline.MemTable.run` — the buffer after a trace of operations, from `MemTable()`.
* `Treeline.MemTable.lastWrite` — the last operation of a trace on a key.
* `Treeline.MemTable.IterationSpec` — what an iteration must yield.

## Main results

* `Treeline.MemTable.Inv` and `Treeline.MemTable.inv_run` — the invariant of the buffer over
  every trace of fewer than `2 ^ 56` operations.
* `Treeline.MemTable.latestWins_run` — `Get`, and iteration from `SeekToFirst` or `Seek(t)`,
  report exactly the last operation of each written key.
* `Treeline.MemTable.put_lost_after_wrap` — the bound is exact: after `2 ^ 56` operations the
  counter shifts out of the sequence number, and a `Put` on a key written before is hidden from
  `Get` by the key's older records.

## Implementation notes

The enumerator values of `MemTable::EntryType` are declared in `memtable.h`, which is not part
of the modelled sources; the model keeps the byte each type is stored as (`enc`) as a parameter,
and the results hold for every choice of it.
-/

namespace Treeline

/-- `MemTable::EntryType`. -/
inductive MemTable.EntryType
  | kWrite
  | kDelete
  deriving DecidableEq, Repr

/-- The write buffer: the skip list's records, in skip-list order, and `next_sequence_num_`. -/
structure MemTable where
  table : List MemTable.Record
  nextSequenceNum : ℕ

namespace MemTable

variable (enc : EntryType → UInt8)

/-- `MemTable::MemTable()`: an empty skip list and sequence number `0`. -/
def init : MemTable := ⟨[], 0⟩

/-- The sequence number `InsertImpl` stamps: `(next_sequence_num_++ << 8) | entry_type` in
64-bit arithmetic. -/
def stamp (counter : ℕ) (entryType : EntryType) : ℕ :=
  (counter <<< 8) % 2 ^ 64 ||| (enc entryType).toNat

/-- `MemTable::InsertImpl`: a fresh record with the next sequence number, inserted into the skip
list. -/
def insertImpl (m : MemTable) (key value : Slice) (entryType : EntryType) : MemTable :=
  { table := tableInsert ⟨key, value, stamp enc m.nextSequenceNum entryType⟩ m.table
    nextSequenceNum := m.nextSequenceNum + 1 }

/-- `MemTable::Put`. -/
def put (m : MemTable) (key value : Slice) : MemTable := m.insertImpl enc key value .kWrite

/-- `MemTable::Delete`: a record with an empty value. -/
def delete (m : MemTable) (key : Slice) : MemTable := m.insertImpl enc key [] .kDelete

/-- `MemTable::Iterator::type`: the low byte of the sequence number. -/
def Record.type (r : Record) : UInt8 := UInt8.ofNat (r.sequenceNumber &&& 0xFF)

/-- `MemTable::Get`: seek to `(key, UINT64_MAX)`; a record of another key, or none, is
`NotFound`. -/
def get (m : MemTable) (key : Slice) : Except Status (UInt8 × Slice) :=
  match Iterator.seek m.table key with
  | r :: _ =>
    if sliceCompare key r.key = .eq then .ok (r.type, r.value)
    else .error (.notFound "Requested key was not found.")
  | [] => .error (.notFound "Requested key was not found.")

/-- A call on the buffer. -/
inductive Op
  | put (key value : Slice)
  | delete (key : Slice)

/-- The key an operation writes. -/
def Op.key : Op → Slice
  | .put k _ => k
  | .delete k => k

/-- The value an operation stores (`Slice()` for a delete). -/
def Op.value : Op → Slice
  | .put _ v => v
  | .delete _ => []

/-- The entry type an operation stores. -/
def Op.entryType : Op → EntryType
  | .put .. => .kWrite
  | .delete _ => .kDelete

/-- Perform one call. -/
def apply (m : MemTable) : Op → MemTable
  | .put k v => m.put enc k v
  | .delete k => m.delete enc k

/-- The buffer after a trace of calls, from `MemTable()`. -/
def run (ops : List Op) : MemTable := ops.foldl (apply enc) init

/-- The last call of a trace on key `k`. -/
def lastWrite (ops : List Op) (k : Slice) : Option Op := (ops.filter fun op => op.key = k).getLast?

lemma apply_eq (m : MemTable) (op : Op) :
    m.apply enc op = m.insertImpl enc op.key op.value op.entryType := by
  cases op <;> rfl

lemma run_append (ops : List Op) (op : Op) : run enc (ops ++ [op]) = (run enc ops).apply enc op :=
  List.foldl_append ..

lemma lastWrite_append (ops : List Op) (op : Op) (k : Slice) :
    lastWrite (ops ++ [op]) k = if op.key = k then some op else lastWrite ops k := by
  by_cases h : op.key = k <;> simp [lastWrite, List.filter_append, h]

lemma lastWrite_eq_none {ops : List Op} {k : Slice} :
    lastWrite ops k = none ↔ ∀ op ∈ ops, op.key ≠ k := by
  simp [lastWrite, List.filter_eq_nil_iff]

/-- Below `2 ^ 56` calls the shift does not overflow, and the stamp is `counter · 256 + byte`. -/
lemma stamp_eq {n : ℕ} (hn : n < 2 ^ 56) (t : EntryType) :
    stamp enc n t = n * 256 + (enc t).toNat := by
  have hb : (enc t).toNat < 2 ^ 8 := (enc t).toNat_lt_size
  rw [stamp, Nat.shiftLeft_eq, Nat.mod_eq_of_lt (by omega), Nat.mul_comm,
    ← Nat.mul_add_lt_is_or hb]

/-- The entry type read back from a sequence number is its low byte. -/
lemma type_eq {r : Record} {b : UInt8} (h : r.sequenceNumber % 256 = b.toNat) : r.type = b := by
  have hmask : (0xFF : ℕ) = 2 ^ 8 - 1 := rfl
  have hsize : UInt8.size = 2 ^ 8 := rfl
  apply UInt8.toNat.inj
  rw [Record.type, hmask, Nat.and_pow_two_sub_one_eq_mod, UInt8.toNat_ofNat_of_lt] <;>
    simp only [h, hsize]
  omega

/-- The invariant of the buffer after a trace `ops`: the skip list is sorted, every record is
older than the next sequence number, the keys present are the keys written, and the newest record
of each key holds that key's last call. -/
structure Inv (m : MemTable) (ops : List Op) : Prop where
  next_eq : m.nextSequenceNum = ops.length
  sorted : Sorted m.table
  seq_lt : ∀ x ∈ m.table, x.sequenceNumber < ops.length * 256
  written : ∀ x ∈ m.table, ∃ op ∈ ops, op.key = x.key
  present : ∀ op ∈ ops, ∃ x ∈ m.table, x.key = op.key
  latest : ∀ x ∈ m.table,
    (∀ y ∈ m.table, y.key = x.key → y.sequenceNumber ≤ x.sequenceNumber) →
      ∃ op, lastWrite ops x.key = some op ∧ x.type = enc op.entryType ∧ x.value = op.value

lemma inv_init : Inv enc init [] :=
  ⟨rfl, List.Pairwise.nil, by simp [init], by simp [init], by simp, by simp [init]⟩

/-- One more call keeps the invariant. -/
theorem Inv.apply {m : MemTable} {ops : List Op} (h : Inv enc m ops) (hn : ops.length < 2 ^ 56)
    (op : Op) : Inv enc (m.apply enc op) (ops ++ [op]) := by
  set n := ops.length
  set x₀ : Record := ⟨op.key, op.value, n * 256 + (enc op.entryType).toNat⟩ with hx₀
  have hb : (enc op.entryType).toNat < 256 := (enc op.entryType).toNat_lt_size
  have happ : m.apply enc op = ⟨tableInsert x₀ m.table, n + 1⟩ := by
    rw [apply_eq, insertImpl, h.next_eq, stamp_eq enc hn]
  have hold : ∀ x ∈ m.table, x.sequenceNumber < x₀.sequenceNumber := fun x hx => by
    have := h.seq_lt x hx; simp only [hx₀]; omega
  rw [happ]
  refine ⟨by simp, sorted_tableInsert h.sorted fun x hx hk => (hold x hx).ne hk.2, ?_, ?_, ?_, ?_⟩
  · intro x hx
    rcases mem_tableInsert.mp hx with rfl | hx
    · simp only [List.length_append, List.length_singleton, hx₀]; omega
    · have := h.seq_lt x hx; simp only [List.length_append, List.length_singleton]; omega
  · intro x hx
    rcases mem_tableInsert.mp hx with rfl | hx
    · exact ⟨op, by simp, rfl⟩
    · obtain ⟨o, ho, hk⟩ := h.written x hx
      exact ⟨o, List.mem_append_left _ ho, hk⟩
  · intro o ho
    rcases List.mem_append.mp ho with ho | ho
    · obtain ⟨x, hx, hk⟩ := h.present o ho
      exact ⟨x, mem_tableInsert.mpr (.inr hx), hk⟩
    · rw [List.mem_singleton.mp ho]
      exact ⟨x₀, mem_tableInsert.mpr (.inl rfl), rfl⟩
  · intro x hx hmax
    rcases mem_tableInsert.mp hx with rfl | hx
    · refine ⟨op, by simp [lastWrite_append, hx₀], type_eq (by simp only [hx₀]; omega), rfl⟩
    · by_cases hk : x.key = op.key
      · have := hmax x₀ (mem_tableInsert.mpr (.inl rfl)) hk.symm
        exact absurd (hold x hx) (not_lt.mpr this)
      · rw [lastWrite_append, if_neg (Ne.symm hk)]
        exact h.latest x hx fun y hy hyk => hmax y (mem_tableInsert.mpr (.inr hy)) hyk

/-- **The buffer invariant holds after every trace of fewer than `2 ^ 56` calls.** -/
theorem inv_run (ops : List Op) (hn : ops.length < 2 ^ 56) : Inv enc (run enc ops) ops := by
  induction ops using List.reverseRecOn with
  | nil => exact inv_init enc
  | append_singleton ops op ih =>
    rw [run_append]
    exact (ih (by simp at hn; omega)).apply enc (by simp at hn; omega) op

lemma Inv.seq_lt_two_pow {m : MemTable} {ops : List Op} (h : Inv enc m ops)
    (hn : ops.length < 2 ^ 56) : ∀ x ∈ m.table, x.sequenceNumber < 2 ^ 64 :=
  fun x hx => by have := h.seq_lt x hx; omega

/-- `Get` against the invariant: `NotFound` for a key never written, otherwise the entry type
and value of the key's last call. -/
theorem Inv.get_eq {m : MemTable} {ops : List Op} (h : Inv enc m ops) (hn : ops.length < 2 ^ 56)
    (k : Slice) : m.get k = match lastWrite ops k with
      | none => .error (.notFound "Requested key was not found.")
      | some op => .ok (enc op.entryType, op.value) := by
  have hseq := h.seq_lt_two_pow enc hn
  have hnone : (∀ x ∈ m.table, x.key ≠ k) → lastWrite ops k = none := fun hx =>
    lastWrite_eq_none.mpr fun o ho hk => by
      obtain ⟨x, hx', hxk⟩ := h.present o ho
      exact hx x hx' (hxk.trans hk)
  unfold get
  split
  · next r rest hs =>
    obtain ⟨hr, hrt, hmin⟩ := Iterator.head_seek_le h.sorted hseq hs
    split_ifs with hk
    · rw [sliceCompare_eq_iff] at hk
      subst hk
      obtain ⟨o, ho, hty, hv⟩ := h.latest r hr fun y hy hyk => by
        rcases hmin y hy (hyk ▸ hrt) with rfl | hlt
        · exact le_rfl
        · rcases comparator_eq_lt.mp hlt with hlt | ⟨-, hlt⟩
          · rw [hyk] at hlt; exact absurd hlt (sliceCompare_lt_irrefl _)
          · exact hlt.le
      rw [ho, hty, hv]
    · rw [hnone fun x hx hxk => ?_]
      rcases hmin x hx (hxk ▸ sliceCompare_lt_irrefl k) with rfl | hlt
      · exact hk (sliceCompare_eq_iff.mpr hxk.symm)
      · exact hk (sliceCompare_eq_iff.mpr
          (sliceCompare_antisymm hrt (hxk ▸ key_le_of_comparator_lt hlt)).symm)
  · next hs =>
    rw [hnone fun x hx hxk => by
      have := (Iterator.mem_seek h.sorted hseq k).mpr ⟨hx, hxk ▸ sliceCompare_lt_irrefl k⟩
      rw [hs] at this
      exact List.not_mem_nil _ this]

/-- What an iteration over the buffer of trace `ops` must visit, among keys satisfying `sel`:
each written key once, in ascending order, with the entry type and value of its last call. -/
structure IterationSpec (ops : List Op) (sel : Slice → Prop) (out : List Record) : Prop where
  ascending : out.Pairwise fun a b => sliceCompare a.key b.key = .lt
  keys : ∀ k, (∃ r ∈ out, r.key = k) ↔ sel k ∧ ∃ op ∈ ops, op.key = k
  latest : ∀ r ∈ out,
    ∃ op, lastWrite ops r.key = some op ∧ r.type = enc op.entryType ∧ r.value = op.value

/-- Iterating over a sorted part of the buffer that holds, for each key it selects, all of that
key's records. -/
lemma Inv.iterationSpec {m : MemTable} {ops : List Op} (h : Inv enc m ops) {sel : Slice → Prop}
    {l : List Record} (hs : Sorted l) (hsub : ∀ x ∈ l, x ∈ m.table ∧ sel x.key)
    (hall : ∀ x ∈ m.table, sel x.key → x ∈ l) : IterationSpec enc ops sel (Iterator.yields l) where
  ascending := Iterator.pairwise_keys_yields hs
  keys k := by
    rw [Iterator.exists_key_yields hs]
    constructor
    · rintro ⟨x, hx, rfl⟩
      exact ⟨(hsub x hx).2, h.written x (hsub x hx).1⟩
    · rintro ⟨hk, o, ho, rfl⟩
      obtain ⟨x, hx, hxk⟩ := h.present o ho
      exact ⟨x, hall x hx (hxk ▸ hk), hxk⟩
  latest r hr := by
    obtain ⟨hrl, hmax⟩ := Iterator.latest_of_mem_yields hs hr
    exact h.latest r (hsub r hrl).1 fun y hy hyk =>
      hmax y (hall y hy (hyk ▸ (hsub r hrl).2)) hyk

/-- **Latest wins.** After any trace of fewer than `2 ^ 56` `Put`/`Delete` calls on a fresh
buffer, `Get(k)` is `NotFound` iff `k` was never written and otherwise reports the entry type and
value of the last call on `k`; iterating from `SeekToFirst`, or from `Seek(t)`, visits every
written key (every written key `≥ t`) exactly once, in ascending order, with its last call's entry
type and value. -/
theorem latestWins_run (ops : List Op) (hn : ops.length < 2 ^ 56) :
    (∀ k, (run enc ops).get k = match lastWrite ops k with
      | none => .error (.notFound "Requested key was not found.")
      | some op => .ok (enc op.entryType, op.value)) ∧
    IterationSpec enc ops (fun _ => True) (Iterator.yields (run enc ops).table) ∧
    ∀ t, IterationSpec enc ops (fun k => sliceCompare k t ≠ .lt)
      (Iterator.yields (Iterator.seek (run enc ops).table t)) := by
  have h := inv_run enc ops hn
  have hseq := h.seq_lt_two_pow enc hn
  refine ⟨h.get_eq enc hn, h.iterationSpec enc h.sorted (fun x hx => ⟨hx, trivial⟩)
    (fun x hx _ => hx), fun t => h.iterationSpec enc (Iterator.sorted_seek h.sorted t)
    (fun x hx => (Iterator.mem_seek h.sorted hseq t).mp hx)
    (fun x hx hxt => (Iterator.mem_seek h.sorted hseq t).mpr ⟨hx, hxt⟩)⟩

/-- Spec scenario 1: `Put(5, "a")`, `Put(5, "b")`, `Delete(5)`, `Put(7, "c")`, with one-byte
keys and values. -/
def scenarioOps : List Op := [.put [5] [97], .put [5] [98], .delete [5], .put [7] [99]]

/-- An encoding of the entry types: `kWrite` as `1`, `kDelete` as `0`. -/
def scenarioEnc : EntryType → UInt8
  | .kWrite => 1
  | .kDelete => 0

/-- Latest wins on scenario 1. -/
theorem latestWins_scenario :
    (∀ k, (run scenarioEnc scenarioOps).get k = match lastWrite scenarioOps k with
      | none => .error (.notFound "Requested key was not found.")
      | some op => .ok (scenarioEnc op.entryType, op.value)) ∧
    IterationSpec scenarioEnc scenarioOps (fun _ => True)
      (Iterator.yields (run scenarioEnc scenarioOps).table) ∧
    ∀ t, IterationSpec scenarioEnc scenarioOps (fun k => sliceCompare k t ≠ .lt)
      (Iterator.yields (Iterator.seek (run scenarioEnc scenarioOps).table t)) :=
  latestWins_run scenarioEnc scenarioOps (by decide)

/-! ## Past `2 ^ 56` calls -/

/-- The invariant also holds after exactly `2 ^ 56` calls: the last of them is numbered
`2 ^ 56 - 1`. -/
lemma inv_run_of_le (ops : List Op) (hn : ops.length ≤ 2 ^ 56) : Inv enc (run enc ops) ops := by
  rcases List.eq_nil_or_concat ops with rfl | ⟨L, b, rfl⟩
  · exact inv_init enc
  · rw [List.concat_eq_append] at hn ⊢
    simp only [List.length_append, List.length_singleton] at hn
    rw [run_append]
    exact (inv_run enc L (by omega)).apply enc (by omega) b

/-- Every call of a trace of at most `2 ^ 56` calls leaves its record in the buffer, stamped with
its position. -/
lemma mem_run_table : ∀ (ops : List Op), ops.length ≤ 2 ^ 56 → ∀ i (hi : i < ops.length),
    (⟨ops[i].key, ops[i].value, i * 256 + (enc ops[i].entryType).toNat⟩ : Record) ∈
      (run enc ops).table := by
  intro ops
  induction ops using List.reverseRecOn with
  | nil => intro _ i hi; simp at hi
  | append_singleton ops op ih =>
    intro hlen i hi
    simp only [List.length_append, List.length_singleton] at hlen hi
    rw [run_append, apply_eq, insertImpl, (inv_run enc ops (by omega)).next_eq,
      stamp_eq enc (by omega)]
    refine mem_tableInsert.mpr ?_
    rcases Nat.lt_or_ge i ops.length with h | h
    · exact .inr (by simpa [List.getElem_append_left h] using ih (by omega) i h)
    · obtain rfl : i = ops.length := by omega
      exact .inl (by simp)

/-- The call numbered `2 ^ 56` shifts out of the 64-bit sequence number: its stamp is its entry
type alone. -/
lemma stamp_two_pow (t : EntryType) : stamp enc (2 ^ 56) t = (enc t).toNat := by
  rw [stamp, Nat.shiftLeft_eq, show 2 ^ 56 * 2 ^ 8 % 2 ^ 64 = 0 by decide, Nat.zero_or]

/-- A record inserted behind the record `Seek(k)` lands on leaves that record in front. -/
lemma seek_tableInsert_of_lt {x₀ r : Record} {k : Slice} (hx₀ : x₀.key = k)
    (hr : comparator r x₀ = .lt) : ∀ {l rest : List Record}, (∀ x ∈ l, x.sequenceNumber < 2 ^ 64) →
      Iterator.seek l k = r :: rest → Iterator.seek (tableInsert x₀ l) k = r :: tableInsert x₀ rest
  | [], _, _, h => by simp [Iterator.seek] at h
  | y :: l, rest, hseq, h => by
    unfold Iterator.seek at h ⊢
    by_cases hy : comparator y (seekSentinel k) = .lt
    · have hyx : comparator y x₀ = .lt := comparator_eq_lt.mpr
        (.inl (hx₀ ▸ (Iterator.comparator_seekSentinel (hseq y (.head _)) k).mp hy))
      rw [List.dropWhile_cons_of_pos (by simpa using hy)] at h
      rw [tableInsert, if_pos hyx, List.dropWhile_cons_of_pos (by simpa using hy)]
      exact seek_tableInsert_of_lt hx₀ hr (fun x hx => hseq x (.tail _ hx)) h
    · rw [List.dropWhile_cons_of_neg (by simpa using hy)] at h
      obtain ⟨rfl, rfl⟩ := List.cons.inj h
      rw [tableInsert, if_pos hr, List.dropWhile_cons_of_neg (by simpa using hy)]

/-- **Past `2 ^ 56` calls a `Put` is lost.** `InsertImpl` shifts the call counter into the high
56 bits of a 64-bit sequence number, so the call numbered `2 ^ 56` is stamped with its entry type
alone. On a key that any call but the first wrote, that record sorts behind the key's older
records, and `Get` keeps answering what it answered before the `Put`. -/
theorem put_lost_after_wrap (ops : List Op) (hlen : ops.length = 2 ^ 56) {k : Slice}
    (hk : ∃ op ∈ ops.tail, op.key = k) (v : Slice) :
    (run enc (ops ++ [.put k v])).get k = (run enc ops).get k := by
  have hinv := inv_run_of_le enc ops hlen.le
  have hseq : ∀ x ∈ (run enc ops).table, x.sequenceNumber < 2 ^ 64 := fun x hx =>
    (hinv.seq_lt x hx).trans_le (by rw [hlen]; decide)
  -- the call numbered `i + 1 ≥ 1` on `k` left a record of key `k` stamped at least `256`
  obtain ⟨op, hop, rfl⟩ := hk
  obtain ⟨i, hi, rfl⟩ := List.getElem_of_mem hop
  have hi' : i + 1 < ops.length := by simp at hi; omega
  have hy := mem_run_table enc ops hlen.le (i + 1) hi'
  rw [List.getElem_tail]
  have hput : run enc (ops ++ [.put ops[i + 1].key v]) =
      ⟨tableInsert ⟨ops[i + 1].key, v, (enc .kWrite).toNat⟩ (run enc ops).table, 2 ^ 56 + 1⟩ := by
    rw [run_append, apply, put, insertImpl, hinv.next_eq, hlen, stamp_two_pow]
  cases hs : Iterator.seek (run enc ops).table ops[i + 1].key with
  | nil =>
    have := (Iterator.mem_seek hinv.sorted hseq ops[i + 1].key).mpr ⟨hy, by simp [sliceCompare_self]⟩
    rw [hs] at this
    exact absurd this (List.not_mem_nil _)
  | cons r rest =>
    obtain ⟨-, hrk, hmin⟩ := Iterator.head_seek_le hinv.sorted hseq hs
    -- the record `Seek` lands on is of key `k` and stamped at least `256`
    have hr : comparator r ⟨ops[i + 1].key, v, (enc .kWrite).toNat⟩ = .lt := by
      have hb : (enc .kWrite).toNat < 256 := (enc .kWrite).toNat_lt_size
      rcases hmin _ hy (by simp [sliceCompare_self]) with rfl | hlt
      · exact comparator_eq_lt.mpr (.inr ⟨rfl, by simp only; omega⟩)
      · rcases comparator_eq_lt.mp hlt with hlt | ⟨hrk', hlt⟩
        · exact absurd hlt hrk
        · exact comparator_eq_lt.mpr (.inr ⟨hrk', by simp only at hlt ⊢; omega⟩)
    rw [hput, get, get, hs, seek_tableInsert_of_lt rfl hr hseq hs]

/-- `2 ^ 56` writes of `[1]`, then a write of `[2]`: `Get([1])` answers as before the last write. -/
theorem put_lost_after_wrap_scenario :
    (List.replicate (2 ^ 56) (Op.put [1] [1])).length = 2 ^ 56 ∧
      (∃ op ∈ (List.replicate (2 ^ 56) (Op.put [1] [1])).tail, op.key = [1]) ∧
      (run scenarioEnc (List.replicate (2 ^ 56) (Op.put [1] [1]) ++ [.put [1] [2]])).get [1] =
        (run scenarioEnc (List.replicate (2 ^ 56) (Op.put [1] [1]))).get [1] := by
  have hlen : (List.replicate (2 ^ 56) (Op.put [1] [1])).length = 2 ^ 56 := List.length_replicate _ _
  have hk : ∃ op ∈ (List.replicate (2 ^ 56) (Op.put [1] [1])).tail, op.key = [1] :=
    ⟨.put [1] [1], by rw [List.tail_replicate, List.mem_replicate]; exact ⟨by decide, rfl⟩, rfl⟩
  exact ⟨hlen, hk, put_lost_after_wrap scenarioEnc _ hlen hk [2]⟩

end MemTable

end Treeline
