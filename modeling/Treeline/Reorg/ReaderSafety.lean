import Treeline.Reorg.Commit

/-!
# Readers during the commit of a reorganization

The comment of `DBImpl::ReorganizeOverflowChain` (`src/db/db_impl_reorg.cc`, lines 25-33) says
why readers need no lock of their own while the commit loop (lines 155-187) runs: a reader
resolves its key through the model, waits while the page it got is fixed exclusively, goes back
to the model when its key is outside that page, and otherwise searches the page. This module
proves that argument for every interleaving of the commit's steps with any number of readers.

It does so in two layers. The first is a discipline for any commit (`CommitSafe`): at every point
of its steps, the model sends every key of an interval to a frame a reader may wait on, such a
frame is fixed exclusively or already final, and a final page answers for its interval. Under
that discipline a reader never follows an overflow link and every answer it gives is the right
one, whatever the schedule (`CommitSafe.readers_answer`). The second layer shows that the
reorganization's commit keeps the discipline, from what `FixOverflowChain` hands it
(`ChainFixed`).

## Main definitions

* `Treeline.DBImpl.CommitSafe` — the commit discipline.
* `Treeline.DBImpl.ReaderOK`, `SystemOK` — the reader invariant and the system invariant.
* `Treeline.DBImpl.ChainFixed` — the chain `FixOverflowChain` returns.
* `Treeline.DBImpl.chainValue` — the value the chain holds for a key.

## Main results

* `Treeline.DBImpl.CommitSafe.readers_answer` — readers against a commit that keeps the
  discipline, under any schedule.
* `Treeline.DBImpl.reorg_commitSafe` — the reorganization's commit keeps it.
* `Treeline.DBImpl.reorganize_readers_safe` — every reader of a key of the chain's interval,
  under any interleaving with the commit, never follows an overflow link and answers the chain's
  value.
-/

namespace Treeline.DBImpl

/-! ## Readers against a commit -/

lemma mem_modify {α : Type} {f : α → α} : ∀ {n : ℕ} {l : List α} {x : α},
    x ∈ l.modify f n → x ∈ l ∨ ∃ y ∈ l, x = f y
  | _, [], _, h => by simp at h
  | 0, a :: l, x, h => by
    rw [List.modify_zero_cons, List.mem_cons] at h
    rcases h with rfl | h
    · exact .inr ⟨a, List.mem_cons_self _ _, rfl⟩
    · exact .inl (List.mem_cons_of_mem a h)
  | n + 1, a :: l, x, h => by
    rw [List.modify_succ_cons, List.mem_cons] at h
    rcases h with rfl | h
    · exact .inl (List.mem_cons_self _ _)
    · exact (mem_modify h).imp (List.mem_cons_of_mem a)
        fun ⟨y, hy, hxy⟩ => ⟨y, List.mem_cons_of_mem a hy, hxy⟩

/-- **The commit discipline.** At every point `p` of the commit's steps `S`, the model sends
every key of `inI` to a frame a reader may wait on (`W id p`); such a frame is fixed exclusively
or already holds its final page; and the final page of such a frame has no overflow link and
answers every key of `inI` in its interval with `value`. What a reader may wait on only grows as
the commit goes on. -/
structure CommitSafe (st : BufferState) (S : List Step) (inI : Slice → Prop)
    (W : ℕ → List Step → Prop) (value : Slice → Option Slice) : Prop where
  model : ∀ p q, S = p ++ q → ∀ k, inI k →
    ∃ id, modelLookup (st.run p).model k = some id ∧ W id p
  frame : ∀ p q, S = p ++ q → ∀ id, W id p →
    ((st.run p).frames id).exclusive = true ∨ (st.run p).frames id = (st.run S).frames id
  final : ∀ p id, W id p → ((st.run S).frames id).page.overflow = none ∧
    ∀ k, inI k → ((st.run S).frames id).page.contains k = true →
      ((st.run S).frames id).page.search k = value k
  mono : ∀ p s id, W id p → W id (p ++ [s])

/-- What a reader may be doing once the steps `done` are performed, given the value `v` it must
answer: resolving, waiting on a frame it may wait on, or finished with `v`; never following an
overflow link. -/
def ReaderOK (W : ℕ → List Step → Prop) (done : List Step) (v : Option Slice) : Lookup → Prop
  | .resolve => True
  | .fix id => W id done
  | .chase _ => False
  | .done v' => v' = v

lemma afterSearch_of_overflow {p : Page} (h : p.overflow = none) (k : Slice) :
    Lookup.afterSearch p k = .done (p.search k) := by
  unfold Lookup.afterSearch
  split <;> simp_all

section Readers

variable {st : BufferState} {S : List Step} {inI : Slice → Prop} {W : ℕ → List Step → Prop}
  {value : Slice → Option Slice} (hS : CommitSafe st S inI W value)
include hS

lemma ReaderOK.mono {p : List Step} {v : Option Slice} (s : Step) :
    ∀ {l : Lookup}, ReaderOK W p v l → ReaderOK W (p ++ [s]) v l
  | .resolve, h | .chase _, h | .done _, h => h
  | .fix id, h => hS.mono p s id h

/-- **One reader step.** A step of a reader keeps its invariant. -/
lemma ReaderOK.step {p q : List Step} (hpq : S = p ++ q) {k : Slice} (hk : inI k) :
    ∀ {l : Lookup}, ReaderOK W p (value k) l → ReaderOK W p (value k) (l.step (st.run p) k)
  | .resolve, _ => by
    obtain ⟨id, hid, hW⟩ := hS.model p q hpq k hk
    simp only [Lookup.step, hid]
    exact hW
  | .fix id, hW => by
    simp only [Lookup.step]
    split_ifs with hex hc
    · exact hW
    · rcases hS.frame p q hpq id hW with h | h
      · exact absurd h hex
      · obtain ⟨hov, hsearch⟩ := hS.final p id hW
        rw [h] at hc ⊢
        rw [afterSearch_of_overflow hov, hsearch k hk hc]
        rfl
    · trivial
  | .chase _, h => h.elim
  | .done _, h => h

/-- The system invariant: the commit has performed a prefix `p` of its steps, the buffer is what
they leave, and every reader of a key of `inI` is as `ReaderOK` allows. -/
def SystemOK (st : BufferState) (S : List Step) (inI : Slice → Prop) (W : ℕ → List Step → Prop)
    (value : Slice → Option Slice) (s : System) : Prop :=
  ∃ p, S = p ++ s.pending ∧ s.buffer = st.run p ∧
    ∀ x ∈ s.readers, inI x.1 → ReaderOK W p (value x.1) x.2

/-- **One turn.** Whichever moves, the commit or a reader, the system invariant holds after. -/
lemma SystemOK.act {s : System} (h : SystemOK st S inI W value s) :
    ∀ t, SystemOK st S inI W value (s.act t)
  | .commit => by
    obtain ⟨p, hpq, hbuf, hr⟩ := h
    cases hpend : s.pending with
    | nil =>
      rw [show s.act .commit = s by simp only [System.act, hpend]]
      exact ⟨p, hpq, hbuf, hr⟩
    | cons s₀ rest =>
      simp only [System.act, hpend]
      exact ⟨p ++ [s₀], by rw [hpq, hpend, List.append_assoc]; rfl,
        by rw [hbuf, BufferState.run_append]; rfl, fun x hx hk => (hr x hx hk).mono hS s₀⟩
  | .read j => by
    obtain ⟨p, hpq, hbuf, hr⟩ := h
    refine ⟨p, hpq, hbuf, fun x hx hk => ?_⟩
    rcases mem_modify hx with hx | ⟨y, hy, rfl⟩
    · exact hr x hx hk
    · rw [hbuf]
      exact ReaderOK.step hS hpq hk (hr y hy hk)

/-- The system invariant holds after any schedule. -/
lemma SystemOK.run : ∀ (schedule : List Turn) {s : System},
    SystemOK st S inI W value s → SystemOK st S inI W value (s.run schedule)
  | [], _, h => h
  | t :: schedule, _, h => SystemOK.run schedule (h.act hS t)

end Readers


lemma ReaderOK.answer {W : ℕ → List Step → Prop} {p : List Step} {v : Option Slice} :
    ∀ {l : Lookup}, ReaderOK W p v l → (∀ id, l ≠ .chase id) ∧ ∀ v', l = .done v' → v' = v
  | .resolve, _ => ⟨fun _ => nofun, fun _ => nofun⟩
  | .fix _, _ => ⟨fun _ => nofun, fun _ => nofun⟩
  | .chase _, h => h.elim
  | .done _, h => ⟨fun _ => nofun, fun _ hv => by cases hv; exact h⟩

/-- **Readers against a safe commit.** Under any schedule of commit steps and reader steps, a
reader of a key of `inI` that starts as `ReaderOK` allows never follows an overflow link, and any
answer it gives is `value` of its key. -/
theorem CommitSafe.readers_answer {st : BufferState} {S : List Step} {inI : Slice → Prop}
    {W : ℕ → List Step → Prop} {value : Slice → Option Slice} (hS : CommitSafe st S inI W value)
    (readers : List (Slice × Lookup)) (hr : ∀ x ∈ readers, inI x.1 → ReaderOK W [] (value x.1) x.2)
    (schedule : List Turn) :
    ∀ x ∈ (System.run ⟨st, S, readers⟩ schedule).readers, inI x.1 →
      (∀ id, x.2 ≠ .chase id) ∧ ∀ v, x.2 = .done v → v = value x.1 := by
  have h₀ : SystemOK st S inI W value ⟨st, S, readers⟩ := ⟨[], rfl, rfl, hr⟩
  obtain ⟨p, -, -, hok⟩ := SystemOK.run hS schedule h₀
  exact fun x hx hk => (hok x hx hk).answer

/-! ## The reorganization's commit -/

/-- What `FixOverflowChain` hands the reorganization of chain `head :: tl`: distinct frames below
the next page id the file manager hands out, each fixed exclusively, every record inside the
head's interval `[lower, upper)`, and a model that maps `lower` to the head, with every other
entry below `lower` or above the whole interval. -/
structure ChainFixed (st : BufferState) (head : ℕ) (tl : List ℕ) : Prop where
  nodup : (head :: tl).Nodup
  fresh : ∀ id ∈ head :: tl, id < st.nextPageId
  exclusive : ∀ id ∈ head :: tl, (st.frames id).exclusive = true
  records : ∀ id ∈ head :: tl, ∀ kv ∈ (st.frames id).page.records,
    (st.frames head).page.contains kv.1 = true
  model : ∃ A C, st.model = A ++ ((st.frames head).page.lower, head) :: C ∧
    (∀ e ∈ A, sliceCompare e.1 (st.frames head).page.lower = .lt) ∧
    ∀ e ∈ C, ∀ k, (st.frames head).page.contains k = true → sliceCompare k e.1 = .lt

/-- The value chain `chain` holds for `k`: that of its records as `PageMergeIterator` merges
them. -/
def chainValue (st : BufferState) (chain : List ℕ) (k : Slice) : Option Slice :=
  ((chainRecords st chain).find? fun kv => kv.1 = k).map Prod.snd

/-- The new pages of a reorganization of `head :: tl` with `r` records to a page. -/
def reorgPages (st : BufferState) (head : ℕ) (tl : List ℕ) (r : ℕ) : List Page :=
  newPagesOf r (st.frames head).page.lower (st.frames head).page.upper (chainRecords st (head :: tl))

/-- The frames a reader of the chain may wait on once the steps `done` of the commit are
performed: the head or the frame of a new page, that is a chain frame or already in the
model. -/
def Waitable (head : ℕ) (chain : List ℕ) (nextId n id : ℕ) (done : List Step) : Prop :=
  (id = head ∨ ∃ i < n, id = commitFrame chain nextId n i) ∧
    (id ∈ chain ∨ ∃ b, Step.insert b id ∈ done)

section Reorganization

variable {st : BufferState} {head : ℕ} {tl : List ℕ} (hc : ChainFixed st head tl) {r : ℕ}
  (hr : 0 < r)

include hc in
lemma ChainFixed.records_contained :
    ∀ kv ∈ chainRecords st (head :: tl), (st.frames head).page.contains kv.1 = true := by
  intro kv hkv
  obtain ⟨_, hp, hkv⟩ := (pageMergeIterator_spec _).2 kv hkv
  obtain ⟨id, hid, rfl⟩ := List.mem_map.mp hp
  exact hc.records id hid kv hkv

lemma commitFrame_zero (nextId n : ℕ) : commitFrame (head :: tl) nextId n 0 = head := by
  simp [commitFrame]

lemma Waitable.cases {nextId n id : ℕ} (h : id = head ∨ ∃ i < n, id = commitFrame (head :: tl) nextId n i) :
    (∃ i < n, id = commitFrame (head :: tl) nextId n i) ∨ (n = 0 ∧ id = head) := by
  rcases h with rfl | h
  · rcases Nat.eq_zero_or_pos n with hn | hn
    · exact .inr ⟨hn, rfl⟩
    · exact .inl ⟨0, hn, (commitFrame_zero _ _).symm⟩
  · exact .inl h

include hc hr in
/-- The lower boundary of every new page lies in the chain's interval, and only the first page's,
whose frame is the head, is the chain's own. -/
lemma reorgPages_lower {i : ℕ} (hi : i < (reorgPages st head tl r).length) :
    (st.frames head).page.contains (reorgPages st head tl r)[i].lower = true ∧
      ((reorgPages st head tl r)[i].lower = (st.frames head).page.lower →
        commitFrame (head :: tl) st.nextPageId (reorgPages st head tl r).length i = head) := by
  have hin := hc.records_contained
  obtain ⟨hR, -⟩ := pageMergeIterator_spec ((head :: tl).map fun id => (st.frames id).page)
  have hL : ∀ kv ∈ chainRecords st (head :: tl), sliceCompare kv.1 (st.frames head).page.lower ≠ .lt :=
    fun kv hkv => (Page.contains_iff.mp (hin kv hkv)).1
  have hU := fun kv hkv => (Page.contains_iff.mp (hin kv hkv)).2
  rcases i with _ | i
  · refine ⟨?_, fun _ => commitFrame_zero _ _⟩
    have hlen : 0 < (chainRecords st (head :: tl)).length := by
      have := (lt_ceilDiv_iff hr).mp (by simpa [reorgPages, newPagesOf, chunkPages] using hi)
      omega
    obtain ⟨kv, hkv⟩ := List.exists_mem_of_length_pos hlen
    have h0 : (reorgPages st head tl r)[0].lower = (st.frames head).page.lower := by
      simp [reorgPages, newPagesOf, chunkPages]
    rw [h0]
    exact Page.contains_iff.mpr ⟨sliceCompare_lt_irrefl _,
      (hU kv hkv).imp_right (sliceCompare_lt_of_le_of_lt (hL kv hkv))⟩
  · obtain ⟨hlo, hup⟩ := newPagesOf_lower hr hR hL hU hi
    refine ⟨Page.contains_iff.mpr ⟨fun h => sliceCompare_lt_irrefl _ (sliceCompare_lt_trans h hlo), hup⟩,
      fun h => absurd (h ▸ hlo) (sliceCompare_lt_irrefl _)⟩

include hc hr in
/-- At every point of the commit, the model sends every key of the chain's interval to the head
or to the frame of a new page whose boundary is already inserted. -/
lemma reorg_model : ∀ p q, commitSteps (head :: tl) st.nextPageId (reorgPages st head tl r) = p ++ q →
    ∀ k, (st.frames head).page.contains k = true →
      ∃ id, modelLookup (st.run p).model k = some id ∧
        Waitable head (head :: tl) st.nextPageId (reorgPages st head tl r).length id p := by
  intro p q hpq k hk
  obtain ⟨A, C, hmodel, hA, hC⟩ := hc.model
  have hes : ∀ e ∈ p.filterMap Step.inserted, ∃ i, ∃ hi : i < (reorgPages st head tl r).length,
      e = ((reorgPages st head tl r)[i].lower,
        commitFrame (head :: tl) st.nextPageId (reorgPages st head tl r).length i) := by
    intro e he
    have he' := (List.IsPrefix.filterMap Step.inserted ⟨q, hpq.symm⟩).subset he
    rw [commitSteps_inserted, List.mem_reverse] at he'
    exact (mem_commitEntries _ _).mp he'
  obtain ⟨D, hD, hDmem⟩ := foldl_modelInsert_shape hA hC (p.filterMap Step.inserted) [] fun e he => by
    obtain ⟨i, hi, rfl⟩ := hes e he
    exact reorgPages_lower hc hr hi
  obtain ⟨id, hid, hhead⟩ := modelLookup_shape hC D hk
  refine ⟨id, ?_, ?_⟩
  · rwa [run_model, hmodel, show A ++ ((st.frames head).page.lower, head) :: C =
      A ++ ((st.frames head).page.lower, head) :: [] ++ C by simp, hD]
  · rcases hhead with rfl | ⟨b, hb⟩
    · exact ⟨.inl rfl, .inl (List.mem_cons_self _ _)⟩
    · have hb' := (hDmem _ hb).resolve_left (List.not_mem_nil _)
      obtain ⟨i, hi, he⟩ := hes _ hb'
      obtain ⟨s, hs, hse⟩ := List.mem_filterMap.mp hb'
      exact ⟨.inr ⟨i, hi, (Prod.mk.inj he).2⟩, .inr ⟨b, Step.eq_of_inserted hse ▸ hs⟩⟩

include hc in
/-- At every point of the commit, a frame a reader may wait on is fixed exclusively or already
final: its block of steps keeps it fixed until its unfix, the last of them. -/
lemma reorg_frame : ∀ p q, commitSteps (head :: tl) st.nextPageId (reorgPages st head tl r) = p ++ q →
    ∀ id, Waitable head (head :: tl) st.nextPageId (reorgPages st head tl r).length id p →
      ((st.run p).frames id).exclusive = true ∨
        (st.run p).frames id = (st.run (commitSteps (head :: tl) st.nextPageId (reorgPages st head tl r))).frames id := by
  intro p q hpq id ⟨hw, hdone⟩
  have hpre := List.IsPrefix.filter (·.id = id) (⟨q, hpq.symm⟩ : p <+: _)
  rw [run_frames_filter id p rfl,
    run_frames_filter id (commitSteps (head :: tl) st.nextPageId (reorgPages st head tl r)) rfl]
  rcases Waitable.cases hw with ⟨i, hi, rfl⟩ | ⟨hn, rfl⟩
  · rw [commitSteps_filter_frame hc.nodup hc.fresh _ hi] at hpre ⊢
    unfold commitPage commitFrame at hpre ⊢
    unfold commitFrame at hdone
    split_ifs at hpre hdone ⊢ with hic
    · exact (run_prefix_frame (B := [.write _ _, .insert _ _]) (by simp) hpre
        (.inl (hc.exclusive _ (List.getElem_mem _)))).imp_right fun h => by rw [h]; rfl
    · refine (run_prefix_frame (B := [.allocFix _, .write _ _, .insert _ _]) (by simp) hpre
        ?_).imp_right fun h => by rw [h]; rfl
      rcases hdone with hmem | ⟨b, hb⟩
      · exact .inl (hc.exclusive _ hmem)
      · obtain ⟨t, ht, -⟩ := (List.prefix_cons_iff.mp hpre).resolve_left
          (List.ne_nil_of_mem (List.mem_filter.mpr ⟨hb, decide_eq_true rfl⟩))
        exact .inr (ht ▸ List.mem_cons_self _ _)
  · rw [List.length_eq_zero.mp hn, commitSteps_nil_filter hc.nodup (List.mem_cons_self _ _)] at hpre ⊢
    exact (run_prefix_frame (B := [.zero _]) (by simp) hpre
      (.inl (hc.exclusive _ (List.mem_cons_self _ _)))).imp_right fun h => by rw [h]; rfl

include hc hr in
/-- The final page of a frame a reader may wait on is a new page, or the zeroed head of a chain
with no records; either has no overflow link and answers for its interval with the chain's
value. -/
lemma reorg_final : ∀ p id, Waitable head (head :: tl) st.nextPageId (reorgPages st head tl r).length id p →
    ((st.run (commitSteps (head :: tl) st.nextPageId (reorgPages st head tl r))).frames id).page.overflow = none ∧
      ∀ k, (st.frames head).page.contains k = true →
        ((st.run (commitSteps (head :: tl) st.nextPageId (reorgPages st head tl r))).frames id).page.contains k = true →
        ((st.run (commitSteps (head :: tl) st.nextPageId (reorgPages st head tl r))).frames id).page.search k =
          chainValue st (head :: tl) k := by
  rintro p id ⟨hw, -⟩
  rw [run_frames_filter id (commitSteps (head :: tl) st.nextPageId (reorgPages st head tl r)) rfl]
  rcases Waitable.cases hw with ⟨i, hi, rfl⟩ | ⟨hn, rfl⟩
  · rw [commitSteps_filter_frame hc.nodup hc.fresh _ hi, run_commitPage_frame]
    have hmem : (reorgPages st head tl r)[i] ∈ reorgPages st head tl r := List.getElem_mem _
    obtain ⟨j, -, hj⟩ := mem_newPagesOf.mp hmem
    exact ⟨by rw [hj], fun k _ hk => newPagesOf_search hr (pageMergeIterator_spec _).1 hmem hk⟩
  · have hR0 : chainRecords st (id :: tl) = [] := by
      have hn' : ((chainRecords st (id :: tl)).length + r - 1) / r = 0 := by
        simpa [reorgPages, newPagesOf, chunkPages] using hn
      have := (lt_ceilDiv_iff hr (a := (chainRecords st (id :: tl)).length) (i := 0)).not.mp
        (by omega)
      exact List.eq_nil_of_length_eq_zero (by omega)
    rw [List.length_eq_zero.mp hn, commitSteps_nil_filter hc.nodup (List.mem_cons_self _ _)]
    simp [chainValue, hR0, Page.search, BufferState.run, BufferState.step, BufferState.setFrame,
      Page.zero]

include hc hr in
/-- **The reorganization's commit keeps the discipline.** -/
theorem reorg_commitSafe :
    CommitSafe st (commitSteps (head :: tl) st.nextPageId (reorgPages st head tl r))
      (fun k => (st.frames head).page.contains k = true)
      (Waitable head (head :: tl) st.nextPageId (reorgPages st head tl r).length)
      (chainValue st (head :: tl)) :=
  ⟨reorg_model hc hr, reorg_frame hc, reorg_final hc hr,
    fun _ _ _ ⟨hw, hd⟩ => ⟨hw, hd.imp_right fun ⟨b, hb⟩ => ⟨b, List.mem_append_left _ hb⟩⟩⟩

end Reorganization

/-- **Readers are safe during a reorganization.** For a chain of `2 … max_reorg_fanout` frames as
`FixOverflowChain` returns it, every run of `ReorganizeOverflowChain` that returns commits steps
that, interleaved in any order with any number of readers, each of which resolves its key or
waits on the head, never send a reader of a key of the chain's interval along an overflow link,
and every answer such a reader gives is the value the chain holds for its key — also on a chain
with no records, where the answer is `NotFound`. -/
theorem reorganize_readers_safe {P : PageLayout} {opts : Options} {st : BufferState}
    {head : ℕ} {tl : List ℕ} {pageFillPct fuel : ℕ} {run : ReorgRun}
    (hc : ChainFixed st head tl)
    (h : reorganizeOverflowChain P opts st (head :: tl) pageFillPct fuel = some run)
    (h2 : 2 ≤ tl.length + 1) (hfan : tl.length + 1 ≤ opts.maxReorgFanout)
    (readers : List (Slice × Lookup)) (hreaders : ∀ x ∈ readers, x.2 = .resolve ∨ x.2 = .fix head)
    (schedule : List Turn) :
    ∀ x ∈ (System.run ⟨st, run.steps, readers⟩ schedule).readers,
      (st.frames head).page.contains x.1 = true →
        (∀ id, x.2 ≠ .chase id) ∧ ∀ v, x.2 = .done v → v = chainValue st (head :: tl) x.1 := by
  obtain ⟨r, hr, hsteps⟩ := reorganizeOverflowChain_commit h h2 hfan
  rw [hsteps]
  refine (reorg_commitSafe hc hr).readers_answer readers (fun x hx _ => ?_) schedule
  rcases hreaders x hx with h | h <;> rw [h]
  · trivial
  · exact ⟨.inl rfl, .inl (List.mem_cons_self _ _)⟩

/-- The chain `[0, 1]` of `threeRecordChainState` meets the reorganization's precondition. -/
lemma chainFixed_threeRecordChainState : ChainFixed threeRecordChainState 0 [1] :=
  ⟨by decide, by decide, by decide, by decide, ⟨[], [], rfl, by simp, by simp⟩⟩

/-- The three-record chain of `threeRecordChainState` reorganized to one record a page, with a
reader waiting on the head and one resolving its key, interleaved with the commit. -/
theorem reorganize_readers_safe_scenario :
    ∃ run, ChainFixed threeRecordChainState 0 [1] ∧
      reorganizeOverflowChain ⟨160, 0⟩ ⟨4, 40, 8⟩ threeRecordChainState [0, 1] 30 1 = some run ∧
      ∀ x ∈ (System.run ⟨threeRecordChainState, run.steps, [([1, 3], .fix 0), ([1, 2], .resolve)]⟩
          [.read 0, .commit, .read 1, .commit, .commit, .read 1, .commit]).readers,
        (threeRecordChainState.frames 0).page.contains x.1 = true →
          (∀ id, x.2 ≠ .chase id) ∧ ∀ v, x.2 = .done v → v = chainValue threeRecordChainState [0, 1] x.1 := by
  have hc := chainFixed_threeRecordChainState
  have hrun := reorganizeOverflowChain_threeRecordChainState
  exact ⟨_, hc, hrun, reorganize_readers_safe hc hrun (by decide) (by decide) _ (by decide) _⟩

end Treeline.DBImpl
