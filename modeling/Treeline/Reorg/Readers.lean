import Treeline.Reorg.Chain

/-!
# Readers during the commit of a reorganization

The commit loop of `DBImpl::ReorganizeOverflowChain` (`src/db/db_impl_reorg.cc`, lines
155-187) runs while readers look keys up. Its comment (lines 25-33) says how they meet: a reader
resolves its key through the model, blocks in `FixPage` while the frame is fixed exclusively,
re-consults the model when the key is outside the page it got, and otherwise searches that page
and its overflow chain. The commit writes the new pages from the last to the first so that a
reader blocked on the head finds every later page already in the model once the head is
released.

This module runs readers against the commit's atomic steps under an arbitrary schedule.

## Main definitions

* `Treeline.DBImpl.Lookup`, `Lookup.step` — a reader's lookup and one step of it.
* `Treeline.DBImpl.System`, `System.run` — the commit's pending steps and the readers, run under
  a schedule that interleaves them.

## Main results

* `Treeline.DBImpl.reader_reaches_zeroed_head` — on a chain with no records the surplus loop
  zeroes the head while the model still maps the chain to it, and a reader that resolves its key
  after the commit fixes that zeroed frame.
-/

namespace Treeline.DBImpl

/-- Whether key `k` lies in a page's interval `[lower, upper)`; an empty upper boundary is
unbounded. -/
def Page.contains (p : Page) (k : Slice) : Bool :=
  sliceCompare k p.lower != .lt && (p.upper.isEmpty || sliceCompare k p.upper == .lt)

/-- The value a page holds for `k`. -/
def Page.search (p : Page) (k : Slice) : Option Slice :=
  (p.records.find? fun kv => kv.1 = k).map Prod.snd

/-- Where a reader's lookup of a key stands. -/
inductive Lookup
  /-- About to consult the model. -/
  | resolve
  /-- Fixing the page the model gave (shared; waits while it is fixed exclusively). -/
  | fix (id : ℕ)
  /-- Following the overflow chain to page `id`. -/
  | chase (id : ℕ)
  /-- Finished, with the value found or `NotFound`. -/
  | done (value : Option Slice)
  deriving DecidableEq, Repr

/-- After reading page `p`: the value if `p` has the key, else the next link, else `NotFound`. -/
def Lookup.afterSearch (p : Page) (k : Slice) : Lookup :=
  match p.search k with
  | some v => .done (some v)
  | none =>
    match p.overflow with
    | some q => .chase q
    | none => .done none

/-- One step of a reader looking up `k` in buffer state `st`. A reader whose frame is fixed
exclusively stays where it is. `DBImpl::Get` is not under `src/`; the step follows the reader
protocol that the comment of lines 25-33 describes and the spec's §4.5 (readers block on the fix,
then re-resolve through the model). -/
def Lookup.step (st : BufferState) (k : Slice) : Lookup → Lookup
  | .resolve =>
    match modelLookup st.model k with
    | some id => .fix id
    | none => .done none
  | .fix id =>
    if (st.frames id).exclusive then .fix id
    else if (st.frames id).page.contains k then afterSearch (st.frames id).page k
    else .resolve
  | .chase id =>
    if (st.frames id).exclusive then .chase id else afterSearch (st.frames id).page k
  | .done v => .done v

/-- The commit's remaining steps, the buffer they act on, and each reader's key and lookup. -/
structure System where
  buffer : BufferState
  pending : List Step
  readers : List (Slice × Lookup)

/-- Who moves next: the commit, or reader `j`. -/
inductive Turn
  | commit
  | read (j : ℕ)
  deriving DecidableEq, Repr

/-- One turn of the schedule. -/
def System.act (s : System) : Turn → System
  | .commit =>
    match s.pending with
    | [] => s
    | st :: rest => { s with buffer := s.buffer.step st, pending := rest }
  | .read j => { s with readers := s.readers.modify (fun r => (r.1, r.2.step s.buffer r.1)) j }

/-- Run a schedule. -/
def System.run (s : System) (schedule : List Turn) : System := schedule.foldl act s

/-- **A reader reaches the zeroed head.** On the empty chain of `emptyChainState` the
reorganization commits no page and zeroes both frames (`reorganize_empty_chain_zeroes_head`);
a reader of `[1, 5]` that resolves its key once the steps are done is sent to the head, which
is no longer fixed and has been zeroed, and reads it. -/
theorem reader_reaches_zeroed_head :
    ∃ s, System.run ⟨emptyChainState, [.zero 0, .unfix 0 true, .zero 1, .unfix 1 true],
        [([1, 5], .resolve)]⟩ [.commit, .commit, .commit, .commit, .read 0] = s ∧
      s.readers = [([1, 5], .fix 0)] ∧ (s.buffer.frames 0).exclusive = false ∧
      (s.buffer.frames 0).page = Page.zero :=
  ⟨_, rfl, by decide⟩

end Treeline.DBImpl
