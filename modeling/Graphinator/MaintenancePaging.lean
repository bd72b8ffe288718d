import Graphinator.Lib.Machine
import Mathlib.Data.Finset.Sort
import Mathlib.Data.List.Chain

/-!
# Checkpointed sweeps

`run_checkpointed_step` sweeps the nodes of one step in pages after a key cursor, and commits the
cursor to the `MaintenanceCheckpoint` node of the step after every page. A page that was too much
for a transaction is tried again at half the size. An invocation may end at any await: the next one
reads the checkpoint and goes on from there.

The machine runs one invocation after another over a fixed set of keys. An action names what the
environment decides: the page a processor takes, how far an attempt at it got, and what became of
the statement in flight when an invocation ended. The log records the attempts and the checkpoint
writes in order.

## Main definitions

* `Checkpoint`, `readCheckpoint`, `IsPage` : the contract of a page processor.
* `Sweep`, `sweepMachine` : the invocations of `run_checkpointed_step`.

## Main results

* `isPage_firstPage` : the listing of the per-key and keyed processors meets the contract.
* `Sweep.Inv.step` : what each action keeps.
* `sweep_complete` : no key is missed, and only interrupted pages are done again.
-/

namespace Graphinator

/-! ### Pages -/

section Pages

variable {κ : Type} [LinearOrder κ]

/-- The contract of a page processor: the keys after the cursor in ascending order, at most `size`
of them, and none only where there is none. -/
structure IsPage (keys : Finset κ) (cursor : κ) (size : ℕ) (page : List κ) : Prop where
  sorted : page.Pairwise (· < ·)
  mem : ∀ k ∈ page, k ∈ keys ∧ cursor < k
  initial : ∀ k ∈ keys, cursor < k → k ∈ page ∨ ∀ x ∈ page, x < k
  length : page.length ≤ size
  exhausted : page = [] → ∀ k ∈ keys, ¬cursor < k

theorem isPage_iff {keys : Finset κ} {cursor : κ} {size : ℕ} {page : List κ} :
    IsPage keys cursor size page ↔ page.Pairwise (· < ·) ∧ (∀ k ∈ page, k ∈ keys ∧ cursor < k) ∧
      (∀ k ∈ keys, cursor < k → k ∈ page ∨ ∀ x ∈ page, x < k) ∧ page.length ≤ size ∧
      (page = [] → ∀ k ∈ keys, ¬cursor < k) :=
  ⟨fun h => ⟨h.sorted, h.mem, h.initial, h.length, h.exhausted⟩,
    fun ⟨h₁, h₂, h₃, h₄, h₅⟩ => ⟨h₁, h₂, h₃, h₄, h₅⟩⟩

instance (keys : Finset κ) (cursor : κ) (size : ℕ) (page : List κ) :
    Decidable (IsPage keys cursor size page) := decidable_of_iff _ isPage_iff.symm

/-- `WHERE n.key > $cursor .. ORDER BY key LIMIT $size`, the page of either kind of processor. -/
def firstPage (keys : Finset κ) (cursor : κ) (size : ℕ) : List κ :=
  ((keys.filter (cursor < ·)).sort (· ≤ ·)).take size

theorem isPage_firstPage (keys : Finset κ) (cursor : κ) {size : ℕ} (hsize : 1 ≤ size) :
    IsPage keys cursor size (firstPage keys cursor size) := by
  have hsorted : ((keys.filter (cursor < ·)).sort (· ≤ ·)).Pairwise (· < ·) :=
    Finset.sortedLT_sort _ |>.pairwise
  have hmem : ∀ k, k ∈ (keys.filter (cursor < ·)).sort (· ≤ ·) ↔ k ∈ keys ∧ cursor < k := by simp
  refine ⟨hsorted.sublist (List.take_sublist ..), fun k hk => (hmem k).mp (List.mem_of_mem_take hk),
    fun k hk hlt => ?_, List.length_take_le .., fun hnil k hk hlt => ?_⟩
  · have hk' := (hmem k).mpr ⟨hk, hlt⟩
    rw [← List.take_append_drop size ((keys.filter (cursor < ·)).sort (· ≤ ·))] at hk' hsorted
    rcases List.mem_append.mp hk' with hk' | hk'
    · exact Or.inl hk'
    · exact Or.inr fun x hx => (List.pairwise_append.mp hsorted).2.2 x hx k hk'
  · have hk' := (hmem k).mpr ⟨hk, hlt⟩
    rcases List.take_eq_nil_iff.mp hnil with h | h
    · omega
    · rw [h] at hk'
      exact absurd hk' List.not_mem_nil

/-- A page that is large enough holds all the keys after the cursor. -/
theorem mem_firstPage {keys : Finset κ} {size : ℕ} (h : keys.card ≤ size) {cursor k : κ} :
    k ∈ firstPage keys cursor size ↔ k ∈ keys ∧ cursor < k := by
  have hlength : ((keys.filter (cursor < ·)).sort (· ≤ ·)).length ≤ size := by
    rw [Finset.length_sort]
    exact (Finset.card_filter_le ..).trans h
  rw [firstPage, List.take_of_length_le hlength, Finset.mem_sort, Finset.mem_filter]

theorem mem_of_mem_firstPage {keys : Finset κ} {cursor k : κ} {size : ℕ}
    (h : k ∈ firstPage keys cursor size) : k ∈ keys := by
  have hmem := List.mem_of_mem_take h
  rw [Finset.mem_sort, Finset.mem_filter] at hmem
  exact hmem.1

namespace IsPage

variable {keys : Finset κ} {cursor last : κ} {size : ℕ} {page : List κ}

/-- The last key of a page is its greatest. -/
theorem le_last (h : IsPage keys cursor size page) (hlast : page.getLast? = some last) {k : κ}
    (hk : k ∈ page) : k ≤ last := by
  obtain ⟨front, rfl⟩ := List.getLast?_eq_some_iff.mp hlast
  rcases List.mem_append.mp hk with hk | hk
  · exact ((List.pairwise_append.mp h.sorted).2.2 k hk last (List.mem_singleton.mpr rfl)).le
  · exact (List.mem_singleton.mp hk).le

/-- A key after the cursor, up to the last of a page, is on the page. -/
theorem mem_of_le (h : IsPage keys cursor size page) (hlast : page.getLast? = some last) {k : κ}
    (hk : k ∈ keys) (hlt : cursor < k) (hle : k ≤ last) : k ∈ page := by
  rcases h.initial k hk hlt with hmem | hafter
  · exact hmem
  · exact absurd (hafter last (List.mem_of_getLast? hlast)) hle.not_gt

theorem cursor_lt (h : IsPage keys cursor size page) (hlast : page.getLast? = some last) :
    cursor < last := (h.mem last (List.mem_of_getLast? hlast)).2

/-- Fewer than `size` keys lie between the cursor and a key of the page. -/
theorem card_between_lt (h : IsPage keys cursor size page) {k : κ} (hk : k ∈ page) :
    (keys.filter fun x => cursor < x ∧ x < k).card < size := by
  have hsub : keys.filter (fun x => cursor < x ∧ x < k) ⊆ page.toFinset.erase k := by
    intro x hx
    obtain ⟨hx, hlt, hxk⟩ := Finset.mem_filter.mp hx
    refine Finset.mem_erase.mpr ⟨hxk.ne, List.mem_toFinset.mpr ?_⟩
    rcases h.initial x hx hlt with hmem | hafter
    · exact hmem
    · exact absurd (hafter k hk) hxk.not_gt
  have hcard : (page.toFinset.erase k).card < page.toFinset.card :=
    Finset.card_erase_lt_of_mem (List.mem_toFinset.mpr hk)
  calc (keys.filter fun x => cursor < x ∧ x < k).card
      ≤ (page.toFinset.erase k).card := Finset.card_le_card hsub
    _ < page.toFinset.card := hcard
    _ ≤ page.length := List.toFinset_card_le page
    _ ≤ size := h.length

end IsPage

end Pages

/-! ### Checkpoints -/

variable {κ : Type} [LinearOrder κ] [OrderBot κ]

/-- `Checkpoint`. The least key stands for START_CURSOR, below every key. -/
structure Checkpoint (κ : Type) [LinearOrder κ] [OrderBot κ] where
  cursor : κ := ⊥
  size : Option ℕ := none
  done : Bool := false

/-- The MaintenanceCheckpoint node of a step; its properties may be null. -/
structure MaintenanceCheckpoint (κ : Type) where
  runKey : Option String
  cursor : Option κ
  size : Option ℕ
  done : Option Bool

/-- `read_checkpoint`: a node of another run key reads as fresh. -/
def readCheckpoint (node : Option (MaintenanceCheckpoint κ)) (runKey : String) : Checkpoint κ :=
  match node with
  | some c =>
    if c.runKey = some runKey then
      { cursor := c.cursor.getD ⊥, size := c.size, done := c.done.getD false }
    else {}
  | none => {}

/-- `write_checkpoint`. -/
def writeCheckpoint (runKey : String) (c : Checkpoint κ) : Option (MaintenanceCheckpoint κ) :=
  some { runKey := some runKey, cursor := some c.cursor, size := c.size, done := some c.done }

@[simp] theorem readCheckpoint_writeCheckpoint (runKey : String) (c : Checkpoint κ) :
    readCheckpoint (writeCheckpoint runKey c) runKey = c := by
  simp [readCheckpoint, writeCheckpoint]

/-! ### The machine -/

/-- MAX_FAILURES_AT_MIN_PAGE. -/
def maxFailuresAtMinPage : ℕ := 3

/-- The locals of `run_checkpointed_step`, with its argument `page_size`. -/
structure SweepLocals (κ : Type) where
  pageSize : ℕ
  size : ℕ
  cursor : κ
  total : ℕ := 0
  failuresAtMin : ℕ := 0

/-- The locals before the loop. A remembered size of zero counts as none. -/
def SweepLocals.start (minPageSize pageSize : ℕ) (c : Checkpoint κ) : SweepLocals κ :=
  { pageSize
    size := max minPageSize (min pageSize (match c.size with
      | some (n + 1) => n + 1
      | _ => pageSize))
    cursor := c.cursor }

/-- Where the invocation is suspended. -/
inductive SweepPc (κ : Type)
  /-- No invocation runs. -/
  | idle
  | reading (pageSize : ℕ)
  /-- At `before_page`. -/
  | before (l : SweepLocals κ)
  | paging (l : SweepLocals κ)
  | sleeping (l : SweepLocals κ)
  | writing (l : SweepLocals κ) (done : Bool)

/-- What the log records. -/
inductive SweepEvent (κ : Type)
  /-- An attempt at a page, with the keys it processed. -/
  | attempt (size : ℕ) (page handled : List κ) (committed : Bool)
  /-- A checkpoint write that was committed. -/
  | checkpointed (cursor : κ) (done : Bool)
  /-- A checkpoint write that was not. -/
  | checkpointLost

/-- A sweep over its invocations. -/
structure Sweep (κ : Type) where
  node : Option (MaintenanceCheckpoint κ) := none
  pc : SweepPc κ := .idle
  log : List (SweepEvent κ) := []

/-- What became of a checkpoint write: it returned, it was committed and the invocation ended
nevertheless, or the invocation ended and it was not committed. -/
inductive WriteOutcome
  | returned | unanswered | lost
deriving DecidableEq, Repr

/-- The steps of a sweep. -/
inductive SweepAction (κ : Type)
  /-- `run_checkpointed_step` is called. -/
  | invoke (pageSize : ℕ)
  | readReturns
  | beforePageReturns
  | pageReturns (page : List κ)
  /-- `process_page` raises after it has processed the keys `handled`. A crash or a cancellation
  during a page ends the invocation like an error that is not retryable. -/
  | pageRaises (retryable : Bool) (page handled : List κ)
  | sleepReturns
  | writeEnds (outcome : WriteOutcome)
  /-- An error, a cancellation or a crash at any of the other awaits. -/
  | stop

namespace Sweep

/-- What follows a page that was committed. -/
def afterPage (runKey : Option String) (l : SweepLocals κ) (page : List κ) : SweepPc κ :=
  match page.getLast?, runKey with
  | none, none => .idle
  | none, some _ => .writing { l with failuresAtMin := 0 } true
  | some last, none =>
    .before { l with failuresAtMin := 0, cursor := last, total := l.total + page.length }
  | some last, some _ =>
    .writing { l with failuresAtMin := 0, cursor := last, total := l.total + page.length } false

/-- What follows an error of a page. -/
def afterError (minPageSize : ℕ) (retryable : Bool) (l : SweepLocals κ) : SweepPc κ :=
  if !retryable then
    .idle
  else if minPageSize < l.size then
    .before { l with size := max minPageSize (l.size / 2) }
  else if maxFailuresAtMinPage ≤ l.failuresAtMin + 1 then
    .idle
  else
    .sleeping { l with failuresAtMin := l.failuresAtMin + 1 }

/-- One step of `run_checkpointed_step`. Without a run key it neither reads nor writes a
checkpoint. -/
def step (keys : Finset κ) (minPageSize : ℕ) (runKey : Option String) (s : Sweep κ) :
    SweepAction κ → Option (Sweep κ)
  | .invoke pageSize => match s.pc with
    | .idle =>
      if minPageSize ≤ pageSize then
        some { s with pc := match runKey with
          | some _ => .reading pageSize
          | none => .before (.start minPageSize pageSize {}) }
      else none
    | _ => none
  | .readReturns => match s.pc, runKey with
    | .reading pageSize, some runKey =>
      let checkpoint := readCheckpoint s.node runKey
      some { s with pc :=
        if checkpoint.done then .idle else .before (.start minPageSize pageSize checkpoint) }
    | _, _ => none
  | .beforePageReturns => match s.pc with
    | .before l => some { s with pc := .paging l }
    | _ => none
  | .pageReturns page => match s.pc with
    | .paging l =>
      if IsPage keys l.cursor l.size page then
        some { s with
          pc := afterPage runKey l page, log := s.log ++ [.attempt l.size page page true] }
      else none
    | _ => none
  | .pageRaises retryable page handled => match s.pc with
    | .paging l =>
      if IsPage keys l.cursor l.size page ∧ handled <+: page then
        some { s with
          pc := afterError minPageSize retryable l
          log := s.log ++ [.attempt l.size page handled false] }
      else none
    | _ => none
  | .sleepReturns => match s.pc with
    | .sleeping l => some { s with pc := .before l }
    | _ => none
  | .writeEnds outcome => match s.pc, runKey with
    | .writing l done, some runKey =>
      let node := writeCheckpoint runKey { cursor := l.cursor, size := some l.size, done }
      match outcome with
      | .returned =>
        some { node, pc := if done then .idle else .before l,
               log := s.log ++ [.checkpointed l.cursor done] }
      | .unanswered => some { node, pc := .idle, log := s.log ++ [.checkpointed l.cursor done] }
      | .lost => some { s with pc := .idle, log := s.log ++ [.checkpointLost] }
    | _, _ => none
  | .stop => match s.pc with
    | .reading _ | .before _ | .sleeping _ => some { s with pc := .idle }
    | _ => none

end Sweep

/-- The invocations of one step over a set of keys. No checkpoint of the run key is there at
first. -/
def sweepMachine (keys : Finset κ) (minPageSize : ℕ) (runKey : Option String) :
    Machine (Sweep κ) (SweepAction κ) where
  init s := s.pc = .idle ∧ s.log = [] ∧ ∀ c, s.node = some c → c.runKey ≠ runKey
  step := Sweep.step keys minPageSize runKey

/-! ### What a sweep keeps -/

namespace SweepEvent

/-- The attempt processed the key, in whole or in part of its page. -/
def Handles (k : κ) : SweepEvent κ → Prop
  | .attempt _ _ handled _ => k ∈ handled
  | _ => False

/-- The attempt committed a page with the key. -/
def Commits (k : κ) : SweepEvent κ → Prop
  | .attempt _ page _ committed => committed = true ∧ k ∈ page
  | _ => False

/-- The size of the page that was attempted. -/
def SizeLe (bound : ℕ) : SweepEvent κ → Prop
  | .attempt size .. => size ≤ bound
  | _ => True

/-- The cursor that a checkpoint write committed. -/
def cursor? : SweepEvent κ → Option κ
  | .checkpointed cursor _ => some cursor
  | _ => none

/-- The last key of a page that was committed. -/
def last? : SweepEvent κ → Option κ
  | .attempt _ page _ true => page.getLast?
  | _ => none

/-- What comes next after a page that was committed is its checkpoint write. -/
def Follows (e e' : SweepEvent κ) : Prop :=
  ∀ last, e.last? = some last → e' = .checkpointed last false ∨ e' = .checkpointLost

end SweepEvent

namespace Sweep

open SweepEvent

variable {keys : Finset κ} {minPageSize : ℕ} {runKey : String} {s s' : Sweep κ}

/-- The checkpoint as the next invocation reads it. -/
def checkpoint (runKey : String) (s : Sweep κ) : Checkpoint κ := readCheckpoint s.node runKey

/-- Every key up to the cursor is on a committed page. -/
def Covered (keys : Finset κ) (log : List (SweepEvent κ)) (cursor : κ) : Prop :=
  ∀ k ∈ keys, k ≤ cursor → ∃ e ∈ log, e.Commits k

/-- The page sizes of an invocation stay between the minimum, and its starting size and the
remembered one. -/
structure Sized (minPageSize : ℕ) (c : Checkpoint κ) (l : SweepLocals κ) : Prop where
  min_le : minPageSize ≤ l.size
  le_start : l.size ≤ l.pageSize
  le_remembered : ∀ n, c.size = some n → l.size ≤ n

/-- What holds while an invocation runs. Before its checkpoint write is committed, the cursor of
the invocation is ahead of the checkpoint; at every page they agree. -/
def PcInv (keys : Finset κ) (minPageSize : ℕ) (runKey : String) (s : Sweep κ) : Prop :=
  match s.pc with
  | .idle => True
  | .reading pageSize => minPageSize ≤ pageSize
  | .before l | .paging l | .sleeping l =>
    Sized minPageSize (s.checkpoint runKey) l ∧ l.cursor = (s.checkpoint runKey).cursor
  | .writing l true => Sized minPageSize (s.checkpoint runKey) l ∧
    l.cursor = (s.checkpoint runKey).cursor ∧ ∀ k ∈ keys, k ≤ l.cursor
  | .writing l false => Sized minPageSize (s.checkpoint runKey) l ∧
    (s.checkpoint runKey).cursor ≤ l.cursor ∧ Covered keys s.log l.cursor

/-- The invariant of a sweep. -/
structure Inv (keys : Finset κ) (minPageSize : ℕ) (runKey : String) (s : Sweep κ) : Prop where
  covered : Covered keys s.log (s.checkpoint runKey).cursor
  done : (s.checkpoint runKey).done = true → ∀ k ∈ keys, k ≤ (s.checkpoint runKey).cursor
  size : ∀ n, (s.checkpoint runKey).size = some n → minPageSize ≤ n
  passed : ∀ e ∈ s.log, ∀ c, e.cursor? = some c → c ≤ (s.checkpoint runKey).cursor
  notRedone : s.log.Pairwise fun e e' => ∀ c, e.cursor? = some c → ∀ k, e'.Handles k → c < k
  near : ∀ bound, (∀ e ∈ s.log, e.SizeLe bound) → ∀ e ∈ s.log, ∀ k, e.Handles k →
    (s.checkpoint runKey).cursor < k →
    (keys.filter fun x => (s.checkpoint runKey).cursor < x ∧ x < k).card < bound
  whole : ∀ e ∈ s.log, ∀ last, e.last? = some last → ∀ k, e.Commits k → k ≤ last
  chain : s.log.IsChain Follows
  last : ∀ e ∈ s.log.getLast?, ∀ last, e.last? = some last → ∃ l, s.pc = .writing l false ∧
    l.cursor = last
  pc : PcInv keys minPageSize runKey s

/-- The sizes an invocation starts with. -/
theorem sized_start {c : Checkpoint κ} {pageSize : ℕ} (hmin : 1 ≤ minPageSize)
    (hstart : minPageSize ≤ pageSize) (hsize : ∀ n, c.size = some n → minPageSize ≤ n) :
    Sized minPageSize c (.start minPageSize pageSize c) := by
  have hcases : ∀ n, c.size = some n → ∃ m, n = m + 1 := fun n hn =>
    Nat.exists_eq_add_of_lt (Nat.lt_of_lt_of_le hmin (hsize n hn)) |>.imp fun m hm => by omega
  constructor
  · exact le_max_left ..
  · exact max_le hstart (min_le_left ..)
  · intro n hn
    obtain ⟨m, rfl⟩ := hcases n hn
    simp only [SweepLocals.start, hn]
    exact max_le (hsize _ hn) (min_le_right ..)

/-- The sizes stay in their bounds when a page is halved. -/
theorem Sized.halve {c : Checkpoint κ} {l : SweepLocals κ} (h : Sized minPageSize c l) :
    Sized minPageSize c { l with size := max minPageSize (l.size / 2) } := by
  have hle : max minPageSize (l.size / 2) ≤ l.size := max_le h.min_le (Nat.div_le_self ..)
  exact ⟨le_max_left .., hle.trans h.le_start, fun n hn => hle.trans (h.le_remembered n hn)⟩

/-- Steps that neither end an attempt nor write a checkpoint. -/
theorem Inv.setPc (h : Inv keys minPageSize runKey s) (hw : ∀ l, s.pc ≠ .writing l false)
    {pc : SweepPc κ} (hpc : PcInv keys minPageSize runKey { s with pc }) :
    Inv keys minPageSize runKey { s with pc } where
  covered := h.covered
  done := h.done
  size := h.size
  passed := h.passed
  notRedone := h.notRedone
  near := h.near
  whole := h.whole
  chain := h.chain
  last e he last hlast := by
    obtain ⟨l, hl, -⟩ := h.last e he last hlast
    exact absurd hl (hw l)
  pc := hpc

/-- The end of an attempt at a page, as a whole or in part. -/
theorem Inv.attempt (h : Inv keys minPageSize runKey s) {l : SweepLocals κ}
    (hl : s.pc = .paging l) {page handled : List κ} {committed : Bool}
    (hpage : IsPage keys l.cursor l.size page) (hsub : handled ⊆ page) {pc : SweepPc κ}
    (hpc : PcInv keys minPageSize runKey
      { s with pc, log := s.log ++ [.attempt l.size page handled committed] })
    (hlast : committed = true → ∀ last, page.getLast? = some last →
      ∃ l', pc = .writing l' false ∧ l'.cursor = last) :
    Inv keys minPageSize runKey
      { s with pc, log := s.log ++ [.attempt l.size page handled committed] } := by
  have hl' := h.pc
  rw [PcInv, hl] at hl'
  obtain ⟨hsized, hcursor⟩ := hl'
  constructor
  · intro k hk hle
    obtain ⟨e, he, hc⟩ := h.covered k hk hle
    exact ⟨e, List.mem_append_left _ he, hc⟩
  · exact h.done
  · exact h.size
  · intro e he c hc
    rcases List.mem_append.mp he with he | he
    · exact h.passed e he c hc
    · rw [List.mem_singleton.mp he] at hc
      cases hc
  · refine List.pairwise_append.mpr ⟨h.notRedone, List.pairwise_singleton .., ?_⟩
    intro e he e' he' c hc k hk
    rw [List.mem_singleton.mp he'] at hk
    calc c ≤ (s.checkpoint runKey).cursor := h.passed e he c hc
      _ = l.cursor := hcursor.symm
      _ < k := (hpage.mem k (hsub hk)).2
  · intro bound hbound e he k hk hlt
    rcases List.mem_append.mp he with he | he
    · exact h.near bound (fun e he => hbound e (List.mem_append_left _ he)) e he k hk hlt
    · have hsize : l.size ≤ bound :=
        hbound _ (List.mem_append_right _ (List.mem_singleton.mpr rfl))
      rw [List.mem_singleton.mp he] at hk
      refine lt_of_lt_of_le ?_ hsize
      have := hpage.card_between_lt (hsub hk)
      rwa [hcursor] at this
  · intro e he last hlast' k hk
    rcases List.mem_append.mp he with he | he
    · exact h.whole e he last hlast' k hk
    · rw [List.mem_singleton.mp he] at hlast' hk
      cases committed with
      | false => cases hlast'
      | true => exact hpage.le_last hlast' hk.2
  · refine List.isChain_append.mpr ⟨h.chain, List.isChain_singleton _, ?_⟩
    intro e he e' _ last hlast'
    obtain ⟨l', hl', -⟩ := h.last e he last hlast'
    rw [hl] at hl'
    cases hl'
  · intro e he last hlast'
    rw [List.getLast?_append, List.getLast?_singleton] at he
    obtain rfl : e = _ := (Option.some.inj he).symm
    cases committed with
    | false => cases hlast'
    | true => exact hlast rfl last hlast'
  · exact hpc

/-- A checkpoint write that is committed, whatever becomes of the invocation. -/
theorem Inv.checkpointed (h : Inv keys minPageSize runKey s) {l : SweepLocals κ} {done : Bool}
    (hl : s.pc = .writing l done) {pc : SweepPc κ}
    (hpc : pc = .idle ∨ done = false ∧ pc = .before l) :
    Inv keys minPageSize runKey
      { node := writeCheckpoint runKey { cursor := l.cursor, size := some l.size, done }
        pc, log := s.log ++ [.checkpointed l.cursor done] } := by
  have hl' := h.pc
  rw [PcInv, hl] at hl'
  obtain ⟨hsized, hle, hcov, hdone⟩ : Sized minPageSize (s.checkpoint runKey) l ∧
      (s.checkpoint runKey).cursor ≤ l.cursor ∧ Covered keys s.log l.cursor ∧
      (done = true → ∀ k ∈ keys, k ≤ l.cursor) := by
    cases done with
    | true => exact ⟨hl'.1, hl'.2.1.ge, hl'.2.1 ▸ h.covered, fun _ => hl'.2.2⟩
    | false => exact ⟨hl'.1, hl'.2.1, hl'.2.2, nofun⟩
  constructor
  · simp only [checkpoint, readCheckpoint_writeCheckpoint]
    intro k hk hk'
    obtain ⟨e, he, hc⟩ := hcov k hk hk'
    exact ⟨e, List.mem_append_left _ he, hc⟩
  · simpa only [checkpoint, readCheckpoint_writeCheckpoint] using hdone
  · simp only [checkpoint, readCheckpoint_writeCheckpoint, Option.some.injEq]
    rintro n rfl
    exact hsized.min_le
  · simp only [checkpoint, readCheckpoint_writeCheckpoint]
    intro e he c hc
    rcases List.mem_append.mp he with he | he
    · exact (h.passed e he c hc).trans hle
    · rw [List.mem_singleton.mp he] at hc
      exact (Option.some.inj hc).ge
  · refine List.pairwise_append.mpr ⟨h.notRedone, List.pairwise_singleton .., ?_⟩
    intro e _ e' he' c _ k hk
    rw [List.mem_singleton.mp he'] at hk
    exact hk.elim
  · simp only [checkpoint, readCheckpoint_writeCheckpoint]
    intro bound hbound e he k hk hlt
    rcases List.mem_append.mp he with he | he
    · refine lt_of_le_of_lt (Finset.card_le_card ?_)
        (h.near bound (fun e he => hbound e (List.mem_append_left _ he)) e he k hk
          (hle.trans_lt hlt))
      exact Finset.monotone_filter_right _ fun x _ hx => ⟨hle.trans_lt hx.1, hx.2⟩
    · rw [List.mem_singleton.mp he] at hk
      exact hk.elim
  · intro e he last hlast k hk
    rcases List.mem_append.mp he with he | he
    · exact h.whole e he last hlast k hk
    · rw [List.mem_singleton.mp he] at hk
      exact hk.elim
  · refine List.isChain_append.mpr ⟨h.chain, List.isChain_singleton _, ?_⟩
    intro e he e' he' last hlast
    obtain rfl : e' = _ := (Option.some.inj he').symm
    obtain ⟨l', hl', rfl⟩ := h.last e he last hlast
    rw [hl] at hl'
    cases hl'
    exact Or.inl rfl
  · intro e he last hlast
    rw [List.getLast?_append, List.getLast?_singleton] at he
    obtain rfl : e = _ := (Option.some.inj he).symm
    cases hlast
  · rcases hpc with rfl | ⟨rfl, rfl⟩
    · trivial
    · refine ⟨⟨hsized.min_le, hsized.le_start, ?_⟩, ?_⟩
      · simp only [checkpoint, readCheckpoint_writeCheckpoint, Option.some.injEq]
        rintro n rfl
        exact le_rfl
      · simp only [checkpoint, readCheckpoint_writeCheckpoint]

/-- A checkpoint write that is not committed ends its invocation. -/
theorem Inv.checkpointLost (h : Inv keys minPageSize runKey s) :
    Inv keys minPageSize runKey { s with pc := .idle, log := s.log ++ [.checkpointLost] } := by
  constructor
  · intro k hk hle
    obtain ⟨e, he, hc⟩ := h.covered k hk hle
    exact ⟨e, List.mem_append_left _ he, hc⟩
  · exact h.done
  · exact h.size
  · intro e he c hc
    rcases List.mem_append.mp he with he | he
    · exact h.passed e he c hc
    · rw [List.mem_singleton.mp he] at hc
      cases hc
  · refine List.pairwise_append.mpr ⟨h.notRedone, List.pairwise_singleton .., ?_⟩
    intro e _ e' he' c _ k hk
    rw [List.mem_singleton.mp he'] at hk
    exact hk.elim
  · intro bound hbound e he k hk hlt
    rcases List.mem_append.mp he with he | he
    · exact h.near bound (fun e he => hbound e (List.mem_append_left _ he)) e he k hk hlt
    · rw [List.mem_singleton.mp he] at hk
      exact hk.elim
  · intro e he last hlast k hk
    rcases List.mem_append.mp he with he | he
    · exact h.whole e he last hlast k hk
    · rw [List.mem_singleton.mp he] at hk
      exact hk.elim
  · refine List.isChain_append.mpr ⟨h.chain, List.isChain_singleton _, ?_⟩
    intro e _ e' he' last _
    obtain rfl : e' = _ := (Option.some.inj he').symm
    exact Or.inr rfl
  · intro e he last hlast
    rw [List.getLast?_append, List.getLast?_singleton] at he
    obtain rfl : e = _ := (Option.some.inj he).symm
    cases hlast
  · trivial

/-- What follows a page that was committed. -/
theorem Inv.afterPage (h : Inv keys minPageSize runKey s) {l : SweepLocals κ}
    (hl : s.pc = .paging l) {page : List κ} (hpage : IsPage keys l.cursor l.size page) :
    PcInv keys minPageSize runKey
      { s with pc := Sweep.afterPage (some runKey) l page
               log := s.log ++ [.attempt l.size page page true] } := by
  have hl' := h.pc
  rw [PcInv, hl] at hl'
  obtain ⟨hsized, hcursor⟩ := hl'
  cases hlast : page.getLast? with
  | none =>
    simp only [Sweep.afterPage, hlast, PcInv]
    have hnil := List.getLast?_eq_none_iff.mp hlast
    exact ⟨⟨hsized.min_le, hsized.le_start, hsized.le_remembered⟩, hcursor,
      fun k hk => not_lt.mp (hpage.exhausted hnil k hk)⟩
  | some last =>
    simp only [Sweep.afterPage, hlast, PcInv]
    refine ⟨⟨hsized.min_le, hsized.le_start, hsized.le_remembered⟩, ?_, fun k hk hle => ?_⟩
    · exact hcursor ▸ (hpage.cursor_lt hlast).le
    · rcases le_or_gt k l.cursor with hle' | hlt
      · obtain ⟨e, he, hc⟩ := h.covered k hk (hcursor ▸ hle')
        exact ⟨e, List.mem_append_left _ he, hc⟩
      · exact ⟨_, List.mem_append_right _ (List.mem_singleton.mpr rfl), rfl,
          hpage.mem_of_le hlast hk hlt hle⟩

/-- What follows an error of a page. -/
theorem Inv.afterError (h : Inv keys minPageSize runKey s) {l : SweepLocals κ}
    (hl : s.pc = .paging l) (retryable : Bool) (log : List (SweepEvent κ)) :
    PcInv keys minPageSize runKey
      { s with pc := Sweep.afterError minPageSize retryable l, log } := by
  have hl' := h.pc
  rw [PcInv, hl] at hl'
  obtain ⟨hsized, hcursor⟩ := hl'
  unfold Sweep.afterError
  split_ifs
  · trivial
  · exact ⟨hsized.halve, hcursor⟩
  · trivial
  · exact ⟨⟨hsized.min_le, hsized.le_start, hsized.le_remembered⟩, hcursor⟩

/-- A key is processed again only after a page that was not committed, or whose checkpoint write
was not. -/
theorem Inv.redone (h : Inv keys minPageSize runKey s)
    {before between after : List (SweepEvent κ)} {e e' : SweepEvent κ}
    (hlog : s.log = before ++ e :: between ++ e' :: after) {k : κ} (hk' : e'.Handles k)
    (hk : e.Commits k) : ∃ rest, between = .checkpointLost :: rest := by
  have hmem : e ∈ s.log := by simp [hlog]
  obtain ⟨last, hlast⟩ : ∃ last, e.last? = some last := by
    cases e with
    | attempt size page handled committed =>
      obtain ⟨rfl, hpage⟩ := hk
      exact ⟨_, List.getLast?_eq_some_getLast (List.ne_nil_of_mem hpage)⟩
    | checkpointed cursor done => exact hk.elim
    | checkpointLost => exact hk.elim
  have hle := h.whole e hmem last hlast k hk
  have hchain := h.chain
  have hpair := h.notRedone
  rw [hlog] at hchain hpair
  cases between with
  | nil =>
    rw [List.append_assoc] at hchain
    have hnext : Follows e e' := (List.isChain_append_cons_cons.mp hchain).2.1
    rcases hnext last hlast with rfl | rfl <;> exact hk'.elim
  | cons b rest =>
    rw [List.append_assoc] at hchain hpair
    have hnext : Follows e b := (List.isChain_append_cons_cons.mp hchain).2.1
    rcases hnext last hlast with rfl | rfl
    · have hrest := (List.pairwise_append.mp hpair).2.1
      have hb := (List.pairwise_cons.mp (List.pairwise_cons.mp hrest).2).1 e' (by simp)
      exact absurd (hb last rfl k hk') hle.not_gt
    · exact ⟨rest, rfl⟩

/-- Every action keeps the invariant. -/
theorem Inv.step (hmin : 1 ≤ minPageSize) (h : Inv keys minPageSize runKey s)
    {a : SweepAction κ} (hs : s.step keys minPageSize (some runKey) a = some s') :
    Inv keys minPageSize runKey s' := by
  have hpc := h.pc
  cases a with
  | invoke pageSize =>
    simp only [Sweep.step] at hs
    split at hs
    · next hidle =>
      split_ifs at hs with hle
      obtain rfl := Option.some.inj hs
      exact h.setPc (fun l hl => by rw [hidle] at hl; cases hl) hle
    · cases hs
  | readReturns =>
    simp only [Sweep.step] at hs
    split at hs
    · next pageSize key hreading hkey =>
      obtain rfl := Option.some.inj hkey
      obtain rfl := Option.some.inj hs
      rw [PcInv, hreading] at hpc
      refine h.setPc (fun l hl => by rw [hreading] at hl; cases hl) ?_
      split_ifs
      · trivial
      · exact ⟨sized_start hmin hpc h.size, rfl⟩
    · cases hs
  | beforePageReturns =>
    simp only [Sweep.step] at hs
    split at hs
    · next l hbefore =>
      obtain rfl := Option.some.inj hs
      rw [PcInv, hbefore] at hpc
      exact h.setPc (fun l hl => by rw [hbefore] at hl; cases hl) hpc
    · cases hs
  | pageReturns page =>
    simp only [Sweep.step] at hs
    split at hs
    · next l hpaging =>
      split_ifs at hs with hpage
      obtain rfl := Option.some.inj hs
      refine h.attempt hpaging hpage (List.Subset.refl page) (h.afterPage hpaging hpage) ?_
      intro _ last hlast
      simp only [Sweep.afterPage, hlast]
      exact ⟨_, rfl, rfl⟩
    · cases hs
  | pageRaises retryable page handled =>
    simp only [Sweep.step] at hs
    split at hs
    · next l hpaging =>
      split_ifs at hs with hpage
      obtain rfl := Option.some.inj hs
      exact h.attempt hpaging hpage.1 hpage.2.subset (h.afterError hpaging retryable _) nofun
    · cases hs
  | sleepReturns =>
    simp only [Sweep.step] at hs
    split at hs
    · next l hsleeping =>
      obtain rfl := Option.some.inj hs
      rw [PcInv, hsleeping] at hpc
      exact h.setPc (fun l hl => by rw [hsleeping] at hl; cases hl) hpc
    · cases hs
  | writeEnds outcome =>
    simp only [Sweep.step] at hs
    split at hs
    · next l done key hwriting hkey =>
      obtain rfl := Option.some.inj hkey
      cases outcome with
      | returned =>
        obtain rfl := Option.some.inj hs
        refine h.checkpointed hwriting ?_
        cases done with
        | true => exact Or.inl rfl
        | false => exact Or.inr ⟨rfl, rfl⟩
      | unanswered =>
        obtain rfl := Option.some.inj hs
        exact h.checkpointed hwriting (Or.inl rfl)
      | lost =>
        obtain rfl := Option.some.inj hs
        exact h.checkpointLost
    · cases hs
  | stop =>
    simp only [Sweep.step] at hs
    split at hs
    · next pageSize hreading =>
      obtain rfl := Option.some.inj hs
      exact h.setPc (fun l hl => by rw [hreading] at hl; cases hl) trivial
    · next l hbefore =>
      obtain rfl := Option.some.inj hs
      exact h.setPc (fun l hl => by rw [hbefore] at hl; cases hl) trivial
    · next l hsleeping =>
      obtain rfl := Option.some.inj hs
      exact h.setPc (fun l hl => by rw [hsleeping] at hl; cases hl) trivial
    · cases hs

theorem inv_init (hbot : ⊥ ∉ keys) (h : (sweepMachine keys minPageSize (some runKey)).init s) :
    Inv keys minPageSize runKey s := by
  obtain ⟨hpc, hlog, hnode⟩ := h
  have hfresh : s.checkpoint runKey = {} := by
    unfold checkpoint readCheckpoint
    split
    · next c hc => exact if_neg (hnode c hc)
    · rfl
  constructor
  · intro k hk hle
    rw [hfresh] at hle
    exact absurd (le_bot_iff.mp hle ▸ hk) hbot
  · rw [hfresh]
    exact nofun
  · rw [hfresh]
    exact nofun
  · simp [hlog]
  · simp [hlog]
  · simp [hlog]
  · simp [hlog]
  · simp [hlog]
  · simp [hlog]
  · rw [PcInv, hpc]
    trivial

/-- The invariant holds in every reachable state. -/
theorem inv_of_reachable (hbot : ⊥ ∉ keys) (hmin : 1 ≤ minPageSize)
    (h : (sweepMachine keys minPageSize (some runKey)).Reachable s) :
    Inv keys minPageSize runKey s :=
  Machine.ReachableIn.invariant h (fun _ ht => inv_init hbot ht)
    fun _ _ _ _ hI hs => hI.step hmin hs

end Sweep

open SweepEvent in
/-- **A checkpointed sweep misses no key and does one page again at most.** In every run of
invocations under one run key: once the checkpoint is done, every key is on a committed page; no
key up to a cursor that a checkpoint write committed is processed after it; a key is processed
again only after an attempt that failed or was interrupted, or a committed page whose checkpoint
write was not committed; what was processed beyond the checkpoint is within one page after it; and
the page size stays between the minimum, and the starting size and the remembered size. -/
theorem sweep_complete {keys : Finset κ} (hbot : ⊥ ∉ keys) {minPageSize : ℕ}
    (hmin : 1 ≤ minPageSize) {runKey : String} {s : Sweep κ}
    (h : (sweepMachine keys minPageSize (some runKey)).Reachable s) :
    ((readCheckpoint s.node runKey).done = true → ∀ k ∈ keys, ∃ e ∈ s.log, e.Commits k) ∧
    (s.log.Pairwise fun e e' => ∀ c, e.cursor? = some c → ∀ k, e'.Handles k → c < k) ∧
    (∀ before between after e e' k, s.log = before ++ e :: between ++ e' :: after →
      e.Handles k → e'.Handles k →
        ¬e.Commits k ∨ ∃ rest, between = .checkpointLost :: rest) ∧
    (∀ bound, (∀ e ∈ s.log, e.SizeLe bound) → ∀ e ∈ s.log, ∀ k, e.Handles k →
      (readCheckpoint s.node runKey).cursor < k →
      (keys.filter fun x => (readCheckpoint s.node runKey).cursor < x ∧ x < k).card < bound) ∧
    ∀ l, s.pc = .paging l → minPageSize ≤ l.size ∧ l.size ≤ l.pageSize ∧
      ∀ n, (readCheckpoint s.node runKey).size = some n → l.size ≤ n := by
  have hinv := Sweep.inv_of_reachable hbot hmin h
  refine ⟨fun hdone k hk => ?_, hinv.notRedone, ?_, hinv.near, fun l hl => ?_⟩
  · exact hinv.covered k hk (hinv.done hdone k hk)
  · intro before between after e e' k hlog _ hk'
    rcases Classical.em (e.Commits k) with hk | hk
    · exact Or.inr (hinv.redone hlog hk' hk)
    · exact Or.inl hk
  · have hpc := hinv.pc
    rw [Sweep.PcInv, hl] at hpc
    exact ⟨hpc.1.min_le, hpc.1.le_start, hpc.1.le_remembered⟩

/-- Three keys: a crash loses the first checkpoint write, a second invocation halves its page and
ends between a page and the answer of its write, and a third one finishes. -/
theorem sweep_complete_three_keys :
    ∃ s, (sweepMachine {10, 20, 30} 1 (some "20260701@stats-1")).Reachable s ∧
      ∀ k ∈ ({10, 20, 30} : Finset ℕ), ∃ e ∈ s.log, e.Commits k := by
  have hrun : ((sweepMachine {10, 20, 30} 1 (some "20260701@stats-1")).exec (fun _ _ => true) {}
      [.invoke 2, .readReturns, .beforePageReturns, .pageReturns [10, 20], .writeEnds .lost,
       .invoke 2, .readReturns, .beforePageReturns, .pageRaises true [10, 20] [10],
       .beforePageReturns, .pageReturns [10], .writeEnds .unanswered,
       .invoke 5, .readReturns, .beforePageReturns, .pageReturns [20], .writeEnds .returned,
       .beforePageReturns, .pageReturns [30], .writeEnds .returned,
       .beforePageReturns, .pageReturns [], .writeEnds .returned]).map
        (fun s => (readCheckpoint s.node "20260701@stats-1").done) = some true := by decide
  obtain ⟨s, hs, hdone⟩ := Option.map_eq_some_iff.mp hrun
  have hreach : (sweepMachine {10, 20, 30} 1 (some "20260701@stats-1")).Reachable s :=
    ⟨{}, ⟨rfl, rfl, nofun⟩, Machine.steps_of_exec (fun _ _ _ => trivial) hs⟩
  exact ⟨s, hreach, (sweep_complete (by decide) (by decide) hreach).1 hdone⟩

end Graphinator
