import Treeline.PageGrouping.RewriteRun

/-!
# The stores the manager reaches

A store is reached from a bulk load (`BulkLoadIntoSegments` or `BulkLoadIntoPages`) by any
sequence of `RewriteSegments` and `FlattenChain` calls, each called as its assertions require and
given an ascending batch inside the key range of the index entry it is called on, and of the
overflow pages the flush worker chains to full pages in between. This module defines these stores,
and what a bulk load builds: a tiled store, whose segments' pages cover the key space exactly as
the index does and hold exactly the records loaded.

## Main definitions

* `Treeline.Pg.Manager.EntryOK` — what an index entry of a bulk-loaded store is: its pages have no
  overflow pages, hold ascending records from its key up to the next key, and are bounded by them.
* `Treeline.Pg.Index.TilesTo` — every entry of an index run is `EntryOK` up to the next one's key.
* `Treeline.Pg.Manager.Tiled` — a sorted index that tiles the key space, with distinct ids that
  the allocator cannot hand out, and zeroed free pages.
* `Treeline.Pg.Manager.chainOverflow` — the flush worker chains an overflow page to a page.
* `Treeline.Pg.Reachable` — the stores reached from a bulk load.

## Main results

* `Treeline.Pg.Manager.bulkLoadIntoSegments_refines`, `Manager.bulkLoadIntoPages_refines` — the
  bulk loads build a tiled store that holds the records loaded.

## Implementation notes

The flush worker is not in the modelled sources. It is modelled from the spec (§1-§3) by the one
step the rewrite and the flatten depend on: it chains an overflow page, holding records of the
page's interval, to a page that has none, and sets the `has_overflow_bit` of the segment's index
entry. `RewriteSegments` selects neighbours by that bit, and both operations read, zero and free
the overflow pages.
-/

namespace Treeline.Pg

/-! ## One index entry -/

/-- The entry `(b, info)` tiles `[b, u)`: its segment is of a size class, has no overflow page and
no `HasOverflow` flag, holds ascending records from key `b` on and below `u`, and its first and
last pages are bounded by `b` and `u`. -/
structure Manager.EntryOK (m : Manager) (b : ℕ) (info : SegmentInfo) (u : ℕ) : Prop where
  fileId_le : info.id.fileId ≤ 4
  no_flag : info.hasOverflow = false
  no_overflow : ∀ i < info.pageCount, (m.readPage info.id i).overflow = none
  ascending : Ascending (m.segmentRecords info)
  head_eq : (m.segmentRecords info).head?.map Prod.fst = some b
  keys_lt : ∀ r ∈ m.segmentRecords info, r.1 < u
  lower_eq : (m.readPage info.id 0).lower = b
  upper_eq : (m.readPage info.id (info.pageCount - 1)).upper = inclusiveUpper u

namespace Manager.EntryOK

variable {m m' : Manager} {b u : ℕ} {info : SegmentInfo}

/-- An entry's records depend only on its own segment's pages. -/
lemma segmentRecords_eq (h : m.EntryOK b info u) (hd : m'.disk info.id = m.disk info.id) :
    m'.segmentRecords info = m.segmentRecords info := by
  have hr : ∀ i, m'.readPage info.id i = m.readPage info.id i := fun i => by
    simp [Manager.readPage, hd]
  rw [Manager.segmentRecords_of_no_overflow fun i hi => hr i ▸ h.no_overflow i hi,
    Manager.segmentRecords_of_no_overflow h.no_overflow]
  simp only [hr]

/-- An entry's facts depend only on its own segment's pages. -/
lemma of_disk_eq (h : m.EntryOK b info u) (hd : m'.disk info.id = m.disk info.id) :
    m'.EntryOK b info u := by
  have hr : ∀ i, m'.readPage info.id i = m.readPage info.id i := fun i => by
    simp [Manager.readPage, hd]
  have hrec := h.segmentRecords_eq hd
  exact ⟨h.fileId_le, h.no_flag, fun i hi => hr i ▸ h.no_overflow i hi, hrec ▸ h.ascending,
    hrec ▸ h.head_eq, hrec ▸ h.keys_lt, hr 0 ▸ h.lower_eq, hr _ ▸ h.upper_eq⟩

/-- Every record of the entry's segment lies in `[b, u)`. -/
lemma mem_range (h : m.EntryOK b info u) {r : Record} (hr : r ∈ m.segmentRecords info) :
    b ≤ r.1 ∧ r.1 < u := by
  refine ⟨?_, h.keys_lt r hr⟩
  obtain ⟨p, ps, hps, hp⟩ := exists_cons_of_head_key h.head_eq
  rw [hps] at hr
  rcases List.mem_cons.mp hr with rfl | hr
  · exact hp.ge
  · exact hp ▸ ((Ascending.cons_iff.mp (hps ▸ h.ascending)).1 r hr).le

/-- The entry's key lies below its bound. -/
lemma key_lt (h : m.EntryOK b info u) : b < u := by
  obtain ⟨r, hr, hrk⟩ := Option.map_eq_some'.mp h.head_eq
  exact hrk ▸ h.keys_lt r (List.mem_of_mem_head? hr)

end Manager.EntryOK

/-- A one-page segment holds its page's records. -/
lemma Manager.segmentRecords_of_single {m : Manager} {info : SegmentInfo} (hpc : info.id.fileId = 0)
    (hov : (m.readPage info.id 0).overflow = none) :
    m.segmentRecords info = (m.readPage info.id 0).records := by
  rw [Manager.segmentRecords, SegmentInfo.pageCount, hpc, pow_zero, show List.range 1 = [0] from rfl]
  simp [hov]

/-- A one-page segment without an overflow page holds its page's records. -/
lemma Manager.segmentRecords_of_page {m : Manager} {id : SegmentId} {p : Page} (hfile : id.fileId = 0)
    (hp : m.readPage id 0 = p) (hov : p.overflow = none) :
    m.segmentRecords ⟨id, none, false⟩ = p.records :=
  hp ▸ Manager.segmentRecords_of_single hfile (hp ▸ hov)

/-- A one-page entry is `EntryOK` when its page is. -/
lemma Manager.EntryOK.of_page {m : Manager} {k u : ℕ} {id : SegmentId} (hfile : id.fileId = 0)
    (hov : (m.readPage id 0).overflow = none) (hasc : Ascending (m.readPage id 0).records)
    (hhead : (m.readPage id 0).records.head?.map Prod.fst = some k)
    (hlt : ∀ r ∈ (m.readPage id 0).records, r.1 < u) (hlower : (m.readPage id 0).lower = k)
    (hupper : (m.readPage id 0).upper = inclusiveUpper u) : m.EntryOK k ⟨id, none, false⟩ u := by
  have hpc : (⟨id, none, false⟩ : SegmentInfo).pageCount = 1 := by simp [SegmentInfo.pageCount, hfile]
  have hrec := @Manager.segmentRecords_of_single m ⟨id, none, false⟩ hfile hov
  refine ⟨by simp [hfile], rfl, fun i hi => ?_, hrec ▸ hasc, hrec ▸ hhead, hrec ▸ hlt, hlower, ?_⟩
  · rw [hpc, Nat.lt_one_iff] at hi; subst hi; exact hov
  · rw [hpc]; exact hupper

/-- A segment written by `LoadIntoNewSegment` with upper bound `u` is `EntryOK` up to `u` when its
records lie below `u`. -/
lemma Manager.EntryOK.of_holds {m : Manager} {seg : Segment} {id : SegmentId} {u : ℕ}
    (hh : m.HoldsSegment ⟨id, seg.model, false⟩ seg u) (hfile : id.fileId ≤ 4)
    (hwf : seg.WellFormed) (hlt : ∀ r ∈ seg.records, r.1 < u) :
    m.EntryOK seg.baseKey ⟨id, seg.model, false⟩ u :=
  ⟨hfile, rfl, hh.no_overflow, hh.records_eq ▸ hwf.ascending, hh.records_eq ▸ hwf.base_eq,
    hh.records_eq ▸ hlt, hh.lower_eq, hh.upper_eq⟩

/-! ## A run of index entries -/

/-- Every entry of the run `l` tiles up to the next entry's key, the last one up to `u`. -/
def Index.TilesTo (m : Manager) : Index → ℕ → Prop
  | [], _ => True
  | e :: rest, u => m.EntryOK e.1 e.2 ((rest.head?.map Prod.fst).getD u) ∧ Index.TilesTo m rest u

namespace Index

variable {m m' : Manager}

@[simp] lemma tilesTo_nil (u : ℕ) : TilesTo m [] u := trivial

@[simp] lemma tilesTo_cons (e : ℕ × SegmentInfo) (rest : Index) (u : ℕ) :
    TilesTo m (e :: rest) u ↔ m.EntryOK e.1 e.2 ((rest.head?.map Prod.fst).getD u) ∧ TilesTo m rest u :=
  Iff.rfl

/-- Two runs tile when the first tiles up to the second's first key. -/
lemma tilesTo_append (u : ℕ) : ∀ l₁ l₂ : Index,
    TilesTo m (l₁ ++ l₂) u ↔ TilesTo m l₁ ((l₂.head?.map Prod.fst).getD u) ∧ TilesTo m l₂ u
  | [], _ => by simp
  | e :: l₁, l₂ => by
    have hnext : (((l₁ ++ l₂).head?.map Prod.fst).getD u) =
        ((l₁.head?.map Prod.fst).getD ((l₂.head?.map Prod.fst).getD u)) := by
      cases l₁ <;> rfl
    rw [List.cons_append, tilesTo_cons, tilesTo_cons, tilesTo_append u l₁ l₂, hnext, and_assoc]

/-- A tiling run stays tiling when its segments' pages stay. -/
lemma TilesTo.of_disk_eq {u : ℕ} : ∀ {l : Index}, TilesTo m l u →
    (∀ e ∈ l, m'.disk e.2.id = m.disk e.2.id) → TilesTo m' l u
  | [], _, _ => trivial
  | _ :: _, ⟨he, hrest⟩, hd =>
    ⟨he.of_disk_eq (hd _ (.head _)), TilesTo.of_disk_eq hrest fun e h => hd e (.tail _ h)⟩

/-- Every entry of a tiling run tiles up to a bound no larger than the run's. -/
lemma TilesTo.exists_entryOK {u : ℕ} : ∀ {l : Index}, TilesTo m l u →
    ∀ e ∈ l, ∃ v ≤ u, m.EntryOK e.1 e.2 v
  | [], _, _, h => nomatch h
  | _ :: rest, ⟨he, hrest⟩, x, hx => by
    rcases List.mem_cons.mp hx with rfl | hx
    · refine ⟨_, ?_, he⟩
      cases rest with
      | nil => exact le_rfl
      | cons y ys =>
        obtain ⟨v, hv, hy⟩ := hrest.exists_entryOK y (.head _)
        exact (hy.key_lt.trans_le hv).le
    · exact hrest.exists_entryOK x hx

variable {u : ℕ} {l : Index}

lemma TilesTo.no_flag (h : TilesTo m l u) (e) (he : e ∈ l) : e.2.hasOverflow = false :=
  let ⟨_, _, hok⟩ := h.exists_entryOK e he; hok.no_flag

lemma TilesTo.no_overflow (h : TilesTo m l u) (e) (he : e ∈ l) :
    ∀ i < e.2.pageCount, (m.readPage e.2.id i).overflow = none :=
  let ⟨_, _, hok⟩ := h.exists_entryOK e he; hok.no_overflow

lemma TilesTo.keys_lt (h : TilesTo m l u) (e) (he : e ∈ l) : e.1 < u :=
  let ⟨_, hv, hok⟩ := h.exists_entryOK e he; hok.key_lt.trans_le hv

end Index

/-! ## Tiled stores -/

/-- The ids of the index's segments. -/
def Index.ids (idx : Index) : List SegmentId := idx.map fun e => e.2.id

/-- A tiled store: a sorted index whose entries tile the key space, distinct segment ids that the
allocator cannot hand out, and a zeroed page `0` under every free id. The bulk loads build one. -/
structure Manager.Tiled (m : Manager) : Prop where
  sorted : m.index.Sorted
  tiles : m.index.TilesTo m kMaxKey
  nodup : m.index.ids.Nodup
  safe : m.AllocSafe m.index.ids
  free_zero : ∀ id ∈ m.free, m.readPage id 0 = Page.zero

@[simp] lemma Index.ids_append (l₁ l₂ : Index) : (l₁ ++ l₂).ids = l₁.ids ++ l₂.ids := List.map_append ..

@[simp] lemma Index.ids_nil : Index.ids [] = [] := rfl

@[simp] lemma Index.ids_cons (e : ℕ × SegmentInfo) (l : Index) : Index.ids (e :: l) = e.2.id :: l.ids := rfl


/-! ## The entries of new segments and pages -/

namespace Index

/-- Entries made from a list of items and fresh ids carry the ids. -/
lemma ids_zipWith {α : Type} (f : α → SegmentId → ℕ × SegmentInfo) (hf : ∀ a id, (f a id).2.id = id) :
    ∀ (l : List α) (ids : List SegmentId), ids.length = l.length → Index.ids (List.zipWith f l ids) = ids
  | [], [], _ => rfl
  | _ :: l, _ :: ids, h => by
    rw [List.zipWith_cons_cons, ids_cons, hf, ids_zipWith f hf l ids (by simpa using h)]
  | [], _ :: _, h | _ :: _, [], h => by simp at h

/-- Entries made from a list of items and ids have the items' keys. -/
lemma keys_zipWith {α : Type} (f : α → SegmentId → ℕ × SegmentInfo) (k : α → ℕ)
    (hf : ∀ a id, (f a id).1 = k a) : ∀ (l : List α) (ids : List SegmentId), ids.length = l.length →
    (List.zipWith f l ids).map Prod.fst = l.map k
  | [], [], _ => rfl
  | _ :: l, _ :: ids, h => by
    rw [List.zipWith_cons_cons, List.map_cons, List.map_cons, hf, keys_zipWith f k hf l ids (by simpa using h)]
  | [], _ :: _, h | _ :: _, [], h => by simp at h

/-- Entries made from items and ids hold the items' records when each entry holds its own. -/
lemma flatMap_zipWith {α : Type} (f : α → SegmentId → ℕ × SegmentInfo) (rec : SegmentInfo → List Record)
    (g : α → List Record) : ∀ (l : List α) (ids : List SegmentId), ids.length = l.length →
    (∀ x ∈ l.zip ids, rec (f x.1 x.2).2 = g x.1) → (List.zipWith f l ids).flatMap (fun e => rec e.2) = l.flatMap g
  | [], [], _, _ => rfl
  | x :: l, id :: ids, hlen, h => by
    rw [List.zipWith_cons_cons, List.flatMap_cons, List.flatMap_cons, h (x, id) (.head _),
      flatMap_zipWith f rec g l ids (by simpa using hlen) fun y hy => h y (.tail _ hy)]
  | [], _ :: _, h, _ | _ :: _, [], h, _ => by simp at h

end Index

/-- **Segments written in a chain tile their range.** Segments of ascending records, each written
by `LoadIntoNewSegment` up to the next one's base key and the last one up to `u`, with every record
below `u`, tile up to `u` under their new ids. -/
lemma tilesTo_loads {m : Manager} {u : ℕ} : ∀ (L : List (Segment × ℕ)) (ids : List SegmentId),
    ids.length = L.length →
    (∀ x ∈ L.zip ids, m.HoldsSegment ⟨x.2, x.1.1.model, false⟩ x.1.1 x.1.2 ∧ x.2.fileId ≤ 4) →
    (∀ x ∈ L, x.1.WellFormed) → L.Chain' (fun x y => x.2 = y.1.baseKey) →
    (∀ x ∈ L.getLast?, x.2 = u) → Ascending (L.flatMap fun x => x.1.records) →
    (∀ r ∈ L.flatMap (fun x => x.1.records), r.1 < u) →
    Index.TilesTo m (List.zipWith (fun x id => (x.1.baseKey, (⟨id, x.1.model, false⟩ : SegmentInfo)))
      L ids) u
  | [], [], _, _, _, _, _, _, _ => trivial
  | x :: L, id :: ids, hlen, hholds, hwf, hchain, hlast, hasc, hlt => by
    simp only [List.length_cons, add_left_inj] at hlen
    rw [List.flatMap_cons] at hasc hlt
    have hasc' := Ascending.append_iff.mp hasc
    -- the next key after `x` is its upper bound
    have hnext : ∀ r ∈ x.1.records, r.1 < x.2 := by
      cases L with
      | nil =>
        rw [show x.2 = u from hlast x rfl]
        exact fun r hr => hlt r (List.mem_append_left _ hr)
      | cons y L =>
        obtain ⟨q, qs, hq, hy⟩ := exists_cons_of_head_key (hwf y (.tail _ (.head _))).base_eq
        intro r hr
        rw [(List.chain'_cons.mp hchain).1, ← hy]
        exact hasc'.2.2 r hr q (by rw [List.flatMap_cons, hq]; exact List.mem_append_left _ (.head _))
    have hkey : ((List.zipWith (fun x id => (x.1.baseKey, (⟨id, x.1.model, false⟩ : SegmentInfo)))
        L ids).head?.map Prod.fst).getD u = x.2 := by
      cases L with
      | nil => exact (hlast x rfl).symm
      | cons y L =>
        cases ids with
        | nil => simp at hlen
        | cons id' ids => exact (List.chain'_cons.mp hchain).1.symm
    refine ⟨?_, tilesTo_loads L ids hlen (fun y hy => hholds y (.tail _ hy)) (fun y hy => hwf y (.tail _ hy))
      hchain.tail (fun y hy => hlast y ?_) hasc'.2.1 fun r hr => hlt r (List.mem_append_right _ hr)⟩
    · show m.EntryOK x.1.baseKey ⟨id, x.1.model, false⟩ _
      rw [hkey]
      exact Manager.EntryOK.of_holds (hholds (x, id) (.head _)).1 (hholds (x, id) (.head _)).2
        (hwf x (.head _)) hnext
    · cases L with
      | nil => simp at hy
      | cons z L => simpa [List.getLast?_cons_cons] using hy

/-- The entries of segments written in order: sorted by their base keys, each the key of one of
their records, the first one the key of their first record. -/
lemma loadEntries_keys {L : List (Segment × ℕ)} {ids : List SegmentId} (hlen : ids.length = L.length)
    (hwf : ∀ x ∈ L, x.1.WellFormed) (hasc : Ascending (L.flatMap fun x => x.1.records)) :
    Index.Sorted (List.zipWith (fun x id => (x.1.baseKey, (⟨id, x.1.model, false⟩ : SegmentInfo))) L ids) ∧
    (∀ e ∈ List.zipWith (fun x id => (x.1.baseKey, (⟨id, x.1.model, false⟩ : SegmentInfo))) L ids,
      ∃ r ∈ L.flatMap (fun x => x.1.records), r.1 = e.1) ∧
    (List.zipWith (fun x id => (x.1.baseKey, (⟨id, x.1.model, false⟩ : SegmentInfo))) L ids).head?.map
      Prod.fst = (L.flatMap fun x => x.1.records).head?.map Prod.fst := by
  have hkeys := Index.keys_zipWith (fun x id => (x.1.baseKey, (⟨id, x.1.model, false⟩ : SegmentInfo)))
    (fun x => x.1.baseKey) (fun _ _ => rfl) L ids hlen
  have hbase : ∀ x ∈ L, ∃ r ∈ x.1.records, r.1 = x.1.baseKey := fun x hx => by
    obtain ⟨r, hr, hr'⟩ := Option.map_eq_some'.mp (hwf x hx).base_eq
    exact ⟨r, List.mem_of_mem_head? hr, hr'⟩
  refine ⟨Index.sorted_of_keys hkeys (List.pairwise_map.mpr
    ((List.pairwise_flatMap.mp hasc).2.imp_of_mem fun {x y} hx hy hxy => ?_)), fun e he => ?_, ?_⟩
  · obtain ⟨r, hr, hrk⟩ := hbase x hx
    obtain ⟨q, hq, hqk⟩ := hbase y hy
    exact hrk ▸ hqk ▸ hxy r hr q hq
  · obtain ⟨x, hx, hxe⟩ := List.mem_map.mp (hkeys ▸ List.mem_map_of_mem Prod.fst he)
    obtain ⟨r, hr, hrk⟩ := hbase x hx
    exact ⟨r, List.mem_flatMap.mpr ⟨x, hx, hr⟩, hrk.trans hxe⟩
  · rw [← List.head?_map, hkeys]
    obtain _ | ⟨x, L'⟩ := L
    · rfl
    · obtain ⟨r, rs, hr, hrk⟩ := exists_cons_of_head_key (hwf x (.head _)).base_eq
      simp [hr, hrk]

/-- **Pages written in a chain tile their range.** One-page segments whose pages have no overflow
page, start at their keys, hold ascending records from their keys on, end at the next page's key
and the last one at `u`, with every record below `u`, tile up to `u`. -/
lemma tilesTo_pages {m : Manager} {u : ℕ} : ∀ (plan : List (ℕ × Page)) (ids : List SegmentId),
    ids.length = plan.length → (∀ x ∈ plan.zip ids, m.readPage x.2 0 = x.1.2 ∧ x.2.fileId = 0) →
    (∀ x ∈ plan, x.2.overflow = none ∧ x.2.lower = x.1 ∧ x.2.records.head?.map Prod.fst = some x.1) →
    plan.Chain' (fun x y => x.2.upper = inclusiveUpper y.1) →
    (∀ x ∈ plan.getLast?, x.2.upper = inclusiveUpper u) → Ascending (plan.flatMap fun x => x.2.records) →
    (∀ r ∈ plan.flatMap (fun x => x.2.records), r.1 < u) →
    Index.TilesTo m (List.zipWith (fun x id => (x.1, (⟨id, none, false⟩ : SegmentInfo))) plan ids) u
  | [], [], _, _, _, _, _, _, _ => trivial
  | x :: plan, id :: ids, hlen, hread, hpage, hchain, hlast, hasc, hlt => by
    simp only [List.length_cons, add_left_inj] at hlen
    rw [List.flatMap_cons] at hasc hlt
    have hasc' := Ascending.append_iff.mp hasc
    obtain ⟨hx, hfile⟩ := hread (x, id) (.head _)
    obtain ⟨hov, hlower, hhead⟩ := hpage x (.head _)
    set n := ((List.zipWith (fun x id => (x.1, (⟨id, none, false⟩ : SegmentInfo))) plan ids).head?.map
      Prod.fst).getD u
    -- the page ends at the next key, and its records lie below it
    have hnext : x.2.upper = inclusiveUpper n ∧ ∀ r ∈ x.2.records, r.1 < n := by
      cases plan with
      | nil => exact ⟨hlast x rfl, fun r hr => hlt r (List.mem_append_left _ hr)⟩
      | cons y plan =>
        cases ids with
        | nil => simp at hlen
        | cons id' ids =>
          obtain ⟨q, qs, hq, hy⟩ := exists_cons_of_head_key (hpage y (.tail _ (.head _))).2.2
          refine ⟨(List.chain'_cons.mp hchain).1, fun r hr => ?_⟩
          show r.1 < y.1
          rw [← hy]
          exact hasc'.2.2 r hr q (by rw [List.flatMap_cons, hq]; exact List.mem_append_left _ (.head _))
    refine ⟨?_, tilesTo_pages plan ids hlen (fun y hy => hread y (.tail _ hy))
      (fun y hy => hpage y (.tail _ hy)) hchain.tail (fun y hy => hlast y ?_) hasc'.2.1
      fun r hr => hlt r (List.mem_append_right _ hr)⟩
    · show m.EntryOK x.1 ⟨id, none, false⟩ n
      exact Manager.EntryOK.of_page hfile (hx ▸ hov) (hx ▸ hasc'.1) (hx ▸ hhead) (hx ▸ hnext.2)
        (hx ▸ hlower) (hx ▸ hnext.1)
    · cases plan with
      | nil => simp at hy
      | cons z plan => simpa [List.getLast?_cons_cons] using hy

/-- The pages of `LoadIntoNewPages` start with their keys, when the records start at the lower
bound. -/
lemma PagesTile.head_eq {lower upper goal : ℕ} {recs : List Record} {pages : List (ℕ × Page)}
    (h : PagesTile lower upper goal recs pages) (hg : 0 < goal) (hhead : ∀ r ∈ recs.head?, r.1 = lower) :
    ∀ x ∈ pages, x.2.records.head?.map Prod.fst = some x.1 := by
  obtain _ | ⟨p, ps⟩ := pages
  · exact fun _ h => nomatch h
  have hrecs := h.records_eq
  rw [List.map_cons, List.flatten_cons] at hrecs
  have hp : p.2.records ≠ [] := by
    cases ps with
    | nil =>
      have hpos : 0 * goal < recs.length := (lt_pagesFor_iff hg).mp (by rw [← h.length_eq]; simp)
      rw [zero_mul, List.length_pos, ← hrecs] at hpos
      simpa using hpos
    | cons q qs =>
      have := h.full p (by simp)
      exact fun h' => by simp [h'] at this; omega
  obtain ⟨q, qs, hq⟩ := List.exists_cons_of_ne_nil hp
  rintro x (_ | ⟨_, hx⟩)
  · rw [h.head_key p rfl, hq, List.head?_cons, Option.map_some', ← hhead q (by rw [← hrecs, hq]; rfl)]
  · exact h.tail_keys x hx


/-! ## The bulk loads -/

/-- The upper bounds of the bulk load: each segment's is the next one's first key, its base key. -/
lemma withUpperBounds_eq : ∀ segs : List Segment, (∀ seg ∈ segs, seg.WellFormed) →
    withUpperBounds segs = chainUppers segs kMaxKey
  | [], _ | [_], _ => rfl
  | s :: t :: rest, h => by
    rw [withUpperBounds, chainUppers, withUpperBounds_eq (t :: rest) fun x hx => h x (.tail _ hx),
      (h t (.tail _ (.head _))).base_eq, Option.getD_some]

lemma Manager.empty_allocSafe : Manager.empty.AllocSafe [] :=
  ⟨List.nodup_nil, fun _ h => (nomatch h), fun _ h => (nomatch h), fun _ h => (nomatch h)⟩

/-- **`BulkLoadIntoSegments` makes a tiled store that holds the segments' records**, from
well-formed segments whose records ascend across them and lie below `MAX`. -/
lemma Manager.bulkLoadIntoSegments_refines {segments : List Segment}
    (hwf : ∀ seg ∈ segments, seg.WellFormed) (hasc : Ascending (segments.flatMap Segment.records))
    (hmax : ∀ r ∈ segments.flatMap Segment.records, r.1 < kMaxKey) :
    (bulkLoadIntoSegments segments).Tiled ∧
      (bulkLoadIntoSegments segments).storedRecords = segments.flatMap Segment.records := by
  set L := chainUppers segments kMaxKey
  have hL : L.map Prod.fst = segments := map_fst_chainUppers _ _
  have hLwf : ∀ x ∈ L, x.1.WellFormed := fun x hx => hwf _ (hL ▸ List.mem_map_of_mem _ hx)
  have hLrec : L.flatMap (fun x => x.1.records) = segments.flatMap Segment.records := by
    rw [← hL, List.flatMap_map]
  obtain ⟨new, hlen, hnd, hnew, hout, hholds, -, hsafe₁, hfree₁, -, -⟩ :=
    foldl_loadStep_spec 0 L Manager.empty [] [] hLwf Manager.empty_allocSafe
  rw [List.nil_append] at hout
  obtain ⟨hXsorted, -, -⟩ := loadEntries_keys hlen hLwf (hLrec ▸ hasc)
  have hXids := Index.ids_zipWith (fun x id => (x.1.baseKey, (⟨id, x.1.model, false⟩ : SegmentInfo)))
    (fun _ _ => rfl) L new hlen
  unfold bulkLoadIntoSegments
  rw [withUpperBounds_eq segments hwf]
  show Manager.Tiled { (L.foldl (loadStep 0) (Manager.empty, [])).1 with
    index := (L.foldl (loadStep 0) (Manager.empty, [])).2 } ∧ Manager.storedRecords { (L.foldl
      (loadStep 0) (Manager.empty, [])).1 with index := (L.foldl (loadStep 0) (Manager.empty, [])).2 } = _
  rw [hout]
  refine ⟨⟨hXsorted, tilesTo_loads L new hlen (fun x hx => ⟨(hholds x hx).of_disk_eq rfl,
    (hnew x.2 (List.of_mem_zip hx).2).2⟩) hLwf (chain'_chainUppers _ _) (fun x hx => ?_)
    (hLrec ▸ hasc) (hLrec ▸ hmax), by dsimp only; rw [hXids]; exact hnd, hsafe₁.congr rfl rfl fun id hid => ?_,
    fun id hid => absurd (hfree₁ id hid) (List.not_mem_nil id)⟩, ?_⟩
  · rw [getLast?_chainUppers] at hx
    obtain ⟨_, -, rfl⟩ := Option.mem_map.mp hx
    rfl
  · exact List.mem_append_left _ (hXids ▸ hid)
  · rw [Manager.storedRecords, ← hLrec]
    refine Index.flatMap_zipWith _ (Manager.segmentRecords _) (fun x => x.1.records) L new hlen
      fun x hx => ?_
    exact ((hholds x hx).of_disk_eq rfl).records_eq

/-- **`BulkLoadIntoPages` makes a tiled store that holds the records**, from ascending records
below `MAX` and a positive goal. -/
lemma Manager.bulkLoadIntoPages_refines {goal : ℕ} {recs : List Record} {m : Manager} (hg : 0 < goal)
    (hasc : Ascending recs) (hmax : ∀ r ∈ recs, r.1 < kMaxKey)
    (h : bulkLoadIntoPages goal recs = some m) : m.Tiled ∧ m.storedRecords = recs := by
  set lower := (recs.head?.map Prod.fst).getD 0
  set plan := loadPlan goal 0 lower kMaxKey recs
  have hhead : ∀ r ∈ recs.head?, r.1 = lower := fun r hr => by
    simp [lower, Option.mem_def.mp hr]
  have hlb : ∀ r ∈ recs, lower ≤ r.1 := by
    obtain _ | ⟨q, qs⟩ := recs
    · exact fun _ h => nomatch h
    · rintro r (_ | ⟨_, hr⟩)
      · exact (hhead _ rfl).ge
      · exact (hhead q rfl) ▸ ((Ascending.cons_iff.mp hasc).1 r hr).le
  have htile : PagesTile lower kMaxKey goal recs plan := loadPlan_tiles hg hasc
  have hkeys := @loadPlan_keys goal 0 lower kMaxKey recs hg hasc hlb
  have hpov : ∀ x ∈ plan, x.2.overflow = none := fun x hx => by
    obtain ⟨j, -, rfl⟩ := List.mem_map.mp hx
    exact (plannedPage_header j).1
  obtain ⟨ids, hlen, hnd, hids, hout, hreads, -, hsafe₁, hfree₁, -, -⟩ :=
    foldl_writeStep_spec plan Manager.empty [] [] Manager.empty_allocSafe
  rw [List.nil_append] at hout
  simp only [bulkLoadIntoPages, loadIntoNewPages_eq hg, Option.bind_eq_bind, Option.some_bind] at h
  obtain rfl := (Option.some.inj h).symm
  have hXids := Index.ids_zipWith (fun x id => (x.1, (⟨id, none, false⟩ : SegmentInfo)))
    (fun _ _ => rfl) plan ids hlen
  have hXkeys := map_fst_zipWith_entries hlen
  have hflat : (plan.flatMap fun x => x.2.records) = recs := htile.records_eq
  show Manager.Tiled { (plan.foldl writeStep (Manager.empty, [])).1 with
    index := (plan.foldl writeStep (Manager.empty, [])).2 } ∧ Manager.storedRecords { (plan.foldl
      writeStep (Manager.empty, [])).1 with index := (plan.foldl writeStep (Manager.empty, [])).2 } = _
  rw [hout]
  refine ⟨⟨Index.sorted_of_keys hXkeys (List.pairwise_map.mpr hkeys.1),
    tilesTo_pages plan ids hlen (fun x hx => ⟨hreads x hx, (hids x.2 (List.of_mem_zip hx).2).2⟩)
      (fun x hx => ⟨hpov x hx, htile.lower_eq x hx, htile.head_eq hg hhead x hx⟩) htile.upper_chain
      htile.upper_last (hflat ▸ hasc) (hflat ▸ hmax), by dsimp only; rw [hXids]; exact hnd,
    hsafe₁.congr rfl rfl fun id hid => List.mem_append_left _ (hXids ▸ hid),
    fun id hid => absurd (hfree₁ id hid) (List.not_mem_nil id)⟩, ?_⟩
  rw [Manager.storedRecords, ← hflat]
  refine Index.flatMap_zipWith _ (Manager.segmentRecords _) (fun x => x.2.records) plan ids hlen
    fun x hx => ?_
  exact Manager.segmentRecords_of_page (hids x.2 (List.of_mem_zip hx).2).2 (hreads x hx)
    (hpov x.1 (List.of_mem_zip hx).1)


/-! ## The flush worker's overflow pages -/

/-- The flush worker chains an overflow page to page `i` of the segment `info` at index key `b`:
it takes a one-page id (from the free list, else at the end of file `0`), writes there a page with
page `i`'s boundaries holding `recs`, points page `i` at it, and sets the `has_overflow_bit` of
the entry. The flush worker is not under `src/`; this follows the spec (§1: a page that overflows
chains an overflow page; §3: an `OverflowChain` shares its interval, `SegmentInfo` carries the
bit). -/
def Manager.chainOverflow (m : Manager) (b : ℕ) (info : SegmentInfo) (i : ℕ) (recs : List Record) :
    Manager :=
  let (o, m₁) := m.acquireSegment 1
  let p := m.readPage info.id i
  let m₂ := (m₁.writePage o 0 (recs.foldl Page.put (Page.init p.lower p.upper))).writePage info.id i
    { p with overflow := some o, checksum := false }
  { m₂ with index := m₂.index.map fun e => if e.1 = b then (e.1, { e.2 with hasOverflow := true }) else e }

/-! ## Reachable stores -/

/-- The stores reached from a bulk load by rewrites, flattens and the flush worker's overflow
pages. Each rewrite or flatten is called as its assertions require (lines 143-145 and 435-439): a
rewrite on an index key, a flatten on the key of a one-page segment; and each is given an
ascending batch in the key range of that entry. -/
inductive Reachable : Manager → Prop
  /-- `BulkLoadIntoSegments` on the segments a `SegmentBuilder` emits for ascending records below
  `MAX`. -/
  | bulkLoadSegments {segments : List Segment} (hwf : ∀ seg ∈ segments, seg.WellFormed)
      (hasc : Ascending (segments.flatMap Segment.records))
      (hmax : ∀ r ∈ segments.flatMap Segment.records, r.1 < kMaxKey) :
      Reachable (bulkLoadIntoSegments segments)
  /-- `BulkLoadIntoPages` on ascending records below `MAX`. -/
  | bulkLoadPages {goal : ℕ} {recs : List Record} {m : Manager} (hg : 0 < goal)
      (hasc : Ascending recs) (hmax : ∀ r ∈ recs, r.1 < kMaxKey)
      (h : bulkLoadIntoPages goal recs = some m) : Reachable m
  /-- `RewriteSegments(b, batch)` with a builder that meets the contract. -/
  | rewrite {σ : Type} {B : SegmentBuilder σ} {held : σ → List Record} (hB : B.Contract held)
      (opts : Options) {m m' : Manager} {b : ℕ} {info : SegmentInfo} {batch : List Record}
      {log : List Event} (h : Reachable m) (hmem : (b, info) ∈ m.index) (hbatch : Ascending batch)
      (hrange : ∀ r ∈ batch, b ≤ r.1 ∧ r.1 < (indexUpperBound m.index b).getD kMaxKey)
      (hrun : rewriteSegments B opts m b batch = some (m', log)) : Reachable m'
  /-- `FlattenChain(b, batch)` with a positive `records_per_page_goal`, its assertions holding. -/
  | flatten {goal : ℕ} {m m' : Manager} {b : ℕ} {batch : List Record}
      (h : Reachable m) (hg : 0 < goal)
      (hasserts : ∀ line ok, Event.assertion line ok ∈ flattenChainAssertions m b → ok = true)
      (hbatch : Ascending batch)
      (hrange : ∀ r ∈ batch, b ≤ r.1 ∧ r.1 < (indexUpperBound m.index b).getD kMaxKey)
      (hrun : flattenChain goal m b batch = some m') : Reachable m'
  /-- The flush worker chains an overflow page holding `recs` to page `i` of the segment at index
  key `b`, a page without one; the records lie in the page's interval and in the entry's range. -/
  | chainOverflow {m : Manager} {b : ℕ} {info : SegmentInfo} {i : ℕ} {recs : List Record}
      (h : Reachable m) (hmem : (b, info) ∈ m.index) (hi : i < info.pageCount)
      (hnone : (m.readPage info.id i).overflow = none) (hne : recs ≠ [])
      (hrange : ∀ r ∈ recs, (m.readPage info.id i).lower ≤ r.1 ∧ r.1 ≤ (m.readPage info.id i).upper ∧
        b ≤ r.1 ∧ r.1 < (indexUpperBound m.index b).getD kMaxKey) :
      Reachable (m.chainOverflow b info i recs)

/-- The scenario's segments may be bulk loaded. -/
theorem loadScenario_reachable : Reachable (bulkLoadIntoSegments loadScenario) :=
  .bulkLoadSegments (fun seg hseg => by
      simp only [loadScenario, List.mem_cons, List.mem_singleton, List.not_mem_nil, or_false] at hseg
      rcases hseg with rfl | rfl <;> exact ⟨by unfold Ascending; decide, rfl, ⟨0, by decide, rfl⟩, by decide⟩)
    (by unfold Ascending; decide) (by decide)

end Treeline.Pg
