import Graphinator.MaintenancePaging

/-!
# The paging loop ends

One call of `run_checkpointed_step`, as a loop with fuel over what its awaits give. A failed page is
tried again, at half the size or after a pause, and a page that succeeds sets the count of failures
back. What grows smaller with each attempt is the sum of the halvings that are left, three times the
keys after the cursor, and the failures that are left.

## Main definitions

* `isPageRetryable`.
* `StepCall`, `attemptPage`, `pageLoop`, `runCheckpointedStep`.
* `halvings`, `rank` : the measure.
* `PageAttempt.Progress` : what an attempt brings about.

## Main results

* `rank_lt` : every attempt that goes on makes the measure smaller.
* `steps_runCheckpointedStep` : a call is a run of the sweep machine.
* `run_checkpointed_step_ends` : the number of attempts, for all that the awaits may give.
-/

namespace Graphinator

variable {κ : Type}

/-! ### One call -/

/-- An exception, as far as `is_page_retryable` looks at it. -/
inductive SweepError
  | transientError
  /-- Any other `Neo4jError`, with its code. -/
  | neo4jError (code : Option String)
  | other
deriving DecidableEq, Repr

/-- `is_page_retryable`. -/
def isPageRetryable : SweepError → Bool
  | .transientError => true
  | .neo4jError code => decide ("TransactionTimedOut".toList <:+: (code.getD "").toList)
  | .other => false

/-- The arguments of a call of `run_checkpointed_step`, and what its awaits give. Each answer may
depend on the number of pages that were attempted before it. -/
structure StepCall (κ : Type) where
  runKey : Option String
  pageSize : ℕ
  minPageSize : ℕ
  /-- The MaintenanceCheckpoint node of the step. -/
  checkpointNode : Except SweepError (Option (MaintenanceCheckpoint κ))
  beforePage : ℕ → Except SweepError Unit
  processPage : ℕ → κ → ℕ → Except SweepError (Option κ × ℕ)
  sleep : ℕ → Except SweepError Unit
  checkpointWrite : ℕ → Except SweepError Unit

/-- How a call ends. -/
inductive StepEnd
  | returned (processed : ℕ)
  | raised (error : SweepError)
deriving DecidableEq, Repr

/-- The loop ends, or goes on with other locals. -/
abbrev Continuation (κ : Type) := StepEnd ⊕ SweepLocals κ

/-- The checkpoint write of a page, and what follows it. -/
def commitPage (c : StepCall κ) (i : ℕ) (next : Continuation κ) : Continuation κ :=
  match c.runKey with
  | none => next
  | some _ =>
    match c.checkpointWrite i with
    | .error error => .inl (.raised error)
    | .ok _ => next

/-- What follows an error of a page. -/
def failPage (c : StepCall κ) (i : ℕ) (l : SweepLocals κ) (error : SweepError) : Continuation κ :=
  if !isPageRetryable error then
    .inl (.raised error)
  else if c.minPageSize < l.size then
    .inr { l with size := max c.minPageSize (l.size / 2) }
  else if maxFailuresAtMinPage ≤ l.failuresAtMin + 1 then
    .inl (.raised error)
  else
    match c.sleep i with
    | .error error => .inl (.raised error)
    | .ok _ => .inr { l with failuresAtMin := l.failuresAtMin + 1 }

/-- One attempt at a page. -/
def attemptPage (c : StepCall κ) (i : ℕ) (l : SweepLocals κ) : Continuation κ :=
  match c.processPage i l.cursor l.size with
  | .error error => failPage c i l error
  | .ok (none, _) => commitPage c i (.inl (.returned l.total))
  | .ok (some last, processed) =>
    if processed = 0 then
      commitPage c i (.inl (.returned l.total))
    else
      commitPage c i (.inr
        { l with failuresAtMin := 0, cursor := last, total := l.total + processed })

/-- An attempt of the loop: the locals before it, what the processor gave, and what followed. -/
structure PageAttempt (κ : Type) where
  before : SweepLocals κ
  answer : Except SweepError (Option κ × ℕ)
  next : Continuation κ

/-- The attempt that the loop makes with some locals. -/
def StepCall.attempt (c : StepCall κ) (i : ℕ) (l : SweepLocals κ) : PageAttempt κ :=
  ⟨l, c.processPage i l.cursor l.size, attemptPage c i l⟩

/-- The loop, for at most `fuel` attempts: the attempts made, and how the call ends. -/
def pageLoop (c : StepCall κ) : ℕ → ℕ → SweepLocals κ → List (PageAttempt κ) × Option StepEnd
  | 0, _, _ => ([], none)
  | fuel + 1, i, l =>
    match c.beforePage i with
    | .error error => ([], some (.raised error))
    | .ok _ =>
      match attemptPage c i l with
      | .inl ending => ([c.attempt i l], some ending)
      | .inr l' =>
        let rest := pageLoop c fuel (i + 1) l'
        (c.attempt i l :: rest.1, rest.2)

/-- `run_checkpointed_step`. -/
def runCheckpointedStep [LinearOrder κ] [OrderBot κ] (c : StepCall κ) (fuel : ℕ) :
    List (PageAttempt κ) × Option StepEnd :=
  match c.runKey with
  | none => pageLoop c fuel 0 (.start c.minPageSize c.pageSize {})
  | some runKey =>
    match c.checkpointNode with
    | .error error => ([], some (.raised error))
    | .ok node =>
      let checkpoint := readCheckpoint node runKey
      if checkpoint.done then
        ([], some (.returned 0))
      else
        pageLoop c fuel 0 (.start c.minPageSize c.pageSize checkpoint)

/-- The contract of a page processor: a page ends at a key after the cursor, and where none is
processed none is left. -/
structure StepCall.Processes [LinearOrder κ] (c : StepCall κ) (keys : Finset κ) : Prop where
  advances : ∀ i cursor size last processed, 1 ≤ size →
    c.processPage i cursor size = .ok (some last, processed) → processed ≠ 0 →
      last ∈ keys ∧ cursor < last
  exhausted : ∀ i cursor size last processed, 1 ≤ size →
    c.processPage i cursor size = .ok (last, processed) → last = none ∨ processed = 0 →
      ∀ k ∈ keys, ¬cursor < k

section Pages

variable [LinearOrder κ] {c : StepCall κ} {keys : Finset κ}

/-- The processor takes pages of the keys, and returns the last key of a page and its length. -/
def StepCall.TakesPages (c : StepCall κ) (keys : Finset κ) : Prop :=
  ∀ i cursor size, 1 ≤ size → ∃ page, IsPage keys cursor size page ∧
    ∀ answer, c.processPage i cursor size = .ok answer → answer = (page.getLast?, page.length)

theorem StepCall.TakesPages.processes (h : c.TakesPages keys) : c.Processes keys where
  advances i cursor size last processed hsize hanswer _ := by
    obtain ⟨page, hpage, hgives⟩ := h i cursor size hsize
    have hlast : page.getLast? = some last := (Prod.mk.inj (hgives _ hanswer)).1.symm
    exact ⟨(hpage.mem last (List.mem_of_getLast? hlast)).1, hpage.cursor_lt hlast⟩
  exhausted i cursor size last processed hsize hanswer hempty := by
    obtain ⟨page, hpage, hgives⟩ := h i cursor size hsize
    obtain ⟨rfl, rfl⟩ := Prod.mk.inj (hgives _ hanswer)
    refine hpage.exhausted ?_
    rcases hempty with hnone | hzero
    · exact List.getLast?_eq_none_iff.mp hnone
    · exact List.length_eq_zero_iff.mp hzero

end Pages

/-! ### One attempt -/

section Attempt

variable {c : StepCall κ} {i : ℕ} {l l' : SweepLocals κ} {error : SweepError}

theorem exists_commitPage_inl (c : StepCall κ) (i : ℕ) (ending : StepEnd) :
    ∃ ending', commitPage c i (.inl ending) = .inl ending' := by
  unfold commitPage
  split
  · exact ⟨_, rfl⟩
  · split <;> exact ⟨_, rfl⟩

theorem commitPage_eq_inr {next : Continuation κ} (h : commitPage c i next = .inr l') :
    next = .inr l' := by
  unfold commitPage at h
  split at h
  · exact h
  · split at h
    · cases h
    · exact h

/-- An error of a page goes on at a smaller size, or counts a failure at the minimum. -/
theorem failPage_eq_inr (h : failPage c i l error = .inr l') : isPageRetryable error = true ∧
    (c.minPageSize < l.size ∧ l' = { l with size := max c.minPageSize (l.size / 2) } ∨
      l.size ≤ c.minPageSize ∧ l.failuresAtMin + 1 < maxFailuresAtMinPage ∧
        l' = { l with failuresAtMin := l.failuresAtMin + 1 }) := by
  unfold failPage at h
  split_ifs at h with hretryable hsize hfailures
  · refine ⟨by simpa using hretryable, Or.inl ⟨hsize, ?_⟩⟩
    exact (Sum.inr.inj h).symm
  · split at h
    · cases h
    · exact ⟨by simpa using hretryable,
        Or.inr ⟨not_lt.mp hsize, not_le.mp hfailures, (Sum.inr.inj h).symm⟩⟩

/-- What an attempt that goes on does to the locals. -/
theorem attemptPage_eq_inr (h : attemptPage c i l = .inr l') :
    (∃ error, c.processPage i l.cursor l.size = .error error ∧ failPage c i l error = .inr l') ∨
      ∃ last processed, c.processPage i l.cursor l.size = .ok (some last, processed) ∧
        processed ≠ 0 ∧
        l' = { l with failuresAtMin := 0, cursor := last, total := l.total + processed } := by
  unfold attemptPage at h
  split at h
  · next error hanswer => exact Or.inl ⟨error, hanswer, h⟩
  · cases commitPage_eq_inr h
  · next last processed hanswer =>
    split_ifs at h with hprocessed
    · cases commitPage_eq_inr h
    · exact Or.inr ⟨last, processed, hanswer, hprocessed, (Sum.inr.inj (commitPage_eq_inr h)).symm⟩

/-- The locals in the loop. -/
structure InLoop (c : StepCall κ) (l : SweepLocals κ) : Prop where
  min_le : c.minPageSize ≤ l.size
  failures_lt : l.failuresAtMin < maxFailuresAtMinPage

theorem InLoop.attemptPage (hl : InLoop c l) (h : attemptPage c i l = .inr l') : InLoop c l' := by
  rcases attemptPage_eq_inr h with ⟨error, -, hfail⟩ | ⟨last, processed, -, -, rfl⟩
  · obtain ⟨-, ⟨-, rfl⟩ | ⟨-, hfailures, rfl⟩⟩ := failPage_eq_inr hfail
    · exact ⟨le_max_left .., hl.failures_lt⟩
    · exact ⟨hl.min_le, hfailures⟩
  · exact ⟨hl.min_le, Nat.zero_lt_succ _⟩

theorem pageLoop_next (hbefore : c.beforePage i = .ok ()) (hnext : attemptPage c i l = .inr l')
    (fuel : ℕ) : pageLoop c (fuel + 1) i l =
      (c.attempt i l :: (pageLoop c fuel (i + 1) l').1, (pageLoop c fuel (i + 1) l').2) := by
  simp only [pageLoop, hbefore, hnext]

end Attempt

/-! ### The measure -/

section Measure

variable [LinearOrder κ] {minPageSize size size' : ℕ}

/-- The number of halvings from a size down to the minimum. -/
def halvings (minPageSize size : ℕ) : ℕ :=
  if minPageSize < size then halvings minPageSize (max minPageSize (size / 2)) + 1 else 0
termination_by size
decreasing_by omega

theorem halvings_of_lt (h : minPageSize < size) :
    halvings minPageSize size = halvings minPageSize (max minPageSize (size / 2)) + 1 := by
  rw [halvings, if_pos h]

theorem halvings_of_le (h : size ≤ minPageSize) : halvings minPageSize size = 0 := by
  rw [halvings, if_neg (not_lt.mpr h)]

/-- So many halvings lead to the minimum. -/
theorem iterate_halvings (h : minPageSize ≤ size) :
    (fun n => max minPageSize (n / 2))^[halvings minPageSize size] size = minPageSize := by
  induction size using Nat.strong_induction_on with
  | _ size ih =>
    by_cases hlt : minPageSize < size
    · rw [halvings_of_lt hlt, Function.iterate_succ_apply]
      exact ih _ (by omega) (le_max_left ..)
    · obtain rfl : minPageSize = size := by omega
      rw [halvings_of_le le_rfl]
      rfl

/-- A smaller size is not halved more often. -/
theorem halvings_mono (h : size ≤ size') :
    halvings minPageSize size ≤ halvings minPageSize size' := by
  induction size using Nat.strong_induction_on generalizing size' with
  | _ size ih =>
    by_cases hlt : minPageSize < size
    · rw [halvings_of_lt hlt, halvings_of_lt (hlt.trans_le h)]
      have hhalf : halvings minPageSize (max minPageSize (size / 2)) ≤
          halvings minPageSize (max minPageSize (size' / 2)) := ih _ (by omega) (by omega)
      omega
    · rw [halvings_of_le (not_lt.mp hlt)]
      exact Nat.zero_le _

/-- The keys after a cursor. -/
def keysAfter (keys : Finset κ) (cursor : κ) : ℕ := (keys.filter (cursor < ·)).card

theorem keysAfter_le (keys : Finset κ) (cursor : κ) : keysAfter keys cursor ≤ keys.card :=
  Finset.card_filter_le ..

/-- A cursor that moves on to a key leaves fewer keys behind it. -/
theorem keysAfter_lt {keys : Finset κ} {cursor last : κ} (hlast : last ∈ keys)
    (hlt : cursor < last) : keysAfter keys last < keysAfter keys cursor := by
  refine Finset.card_lt_card ⟨Finset.monotone_filter_right _ fun k _ hk => hlt.trans hk, ?_⟩
  intro hsub
  have hmem := hsub (Finset.mem_filter.mpr ⟨hlast, hlt⟩)
  exact lt_irrefl last (Finset.mem_filter.mp hmem).2

/-- The number of attempts that are left at most. -/
def rank (keys : Finset κ) (minPageSize : ℕ) (l : SweepLocals κ) : ℕ :=
  halvings minPageSize l.size + 3 * keysAfter keys l.cursor + (3 - l.failuresAtMin)

variable {c : StepCall κ} {keys : Finset κ} {i : ℕ} {l l' : SweepLocals κ}

/-- **Every attempt that goes on makes the measure smaller.** -/
theorem rank_lt (hmin : 1 ≤ c.minPageSize) (hproc : c.Processes keys) (hl : InLoop c l)
    (h : attemptPage c i l = .inr l') :
    rank keys c.minPageSize l' < rank keys c.minPageSize l := by
  have hsize : 1 ≤ l.size := hmin.trans hl.min_le
  have hfailures : l.failuresAtMin < 3 := hl.failures_lt
  rcases attemptPage_eq_inr h with ⟨error, -, hfail⟩ | ⟨last, processed, hanswer, hprocessed, rfl⟩
  · obtain ⟨-, ⟨hlt, rfl⟩ | ⟨-, -, rfl⟩⟩ := failPage_eq_inr hfail
    · simp only [rank, halvings_of_lt hlt]
      omega
    · simp only [rank]
      omega
  · obtain ⟨hlast, hlt⟩ := hproc.advances i _ _ _ _ hsize hanswer hprocessed
    have hkeys := keysAfter_lt hlast hlt
    simp only [rank]
    omega

theorem rank_pos (keys : Finset κ) (hl : InLoop c l) : 0 < rank keys c.minPageSize l := by
  have hfailures : l.failuresAtMin < 3 := hl.failures_lt
  unfold rank
  omega

end Measure

/-! ### What an attempt brings about -/

namespace PageAttempt

/-- A failure at the minimum size. -/
def FailsAtMin (minPageSize : ℕ) (a : PageAttempt κ) : Prop :=
  a.before.size = minPageSize ∧ ∃ error, a.answer = .error error ∧ isPageRetryable error = true

/-- What an attempt brings about. -/
inductive Progress [LinearOrder κ] (keys : Finset κ) (minPageSize : ℕ) (a : PageAttempt κ) : Prop
  /-- It moves the cursor past a key. -/
  | advanced (last : κ) (processed : ℕ) (hanswer : a.answer = .ok (some last, processed))
      (hlast : last ∈ keys) (hlt : a.before.cursor < last)
      (hnext : ∀ l, a.next = .inr l → l.cursor = last)
  /-- It finds no key after the cursor. -/
  | exhausted (hkeys : ∀ k ∈ keys, ¬a.before.cursor < k)
      (hnext : ∃ ending, a.next = .inl ending)
  /-- It makes the size smaller. -/
  | shrunk (l : SweepLocals κ) (hnext : a.next = .inr l) (hmin : minPageSize ≤ l.size)
      (hlt : l.size < a.before.size)
  | failed (hfails : a.FailsAtMin minPageSize)
  /-- It ends the call with an error that is not tried again. -/
  | fatal (error : SweepError) (hanswer : a.answer = .error error)
      (hfatal : isPageRetryable error = false) (hnext : a.next = .inl (.raised error))

end PageAttempt

/-! ### Runs of the loop -/

section Runs

variable {c : StepCall κ} {i : ℕ} {l l' : SweepLocals κ} {ending : StepEnd}
  {attempts : List (PageAttempt κ)}

/-- An attempt that fails at the minimum and goes on counts its failure. -/
theorem failuresAtMin_of_failsAtMin (hfails : (c.attempt i l).FailsAtMin c.minPageSize)
    (hnext : attemptPage c i l = .inr l') : l'.failuresAtMin = l.failuresAtMin + 1 := by
  obtain ⟨hsize, error, hanswer, -⟩ := hfails
  have hsize' : l.size = c.minPageSize := hsize
  have hanswer' : c.processPage i l.cursor l.size = .error error := hanswer
  rcases attemptPage_eq_inr hnext with ⟨error', -, hfail⟩ | ⟨last, processed, hok, -⟩
  · obtain ⟨-, ⟨hlt, -⟩ | ⟨-, -, rfl⟩⟩ := failPage_eq_inr hfail
    · omega
    · rfl
  · rw [hanswer'] at hok
    cases hok

/-- The runs of the loop, from the locals before an attempt to the end. -/
inductive PageRun (c : StepCall κ) :
    ℕ → SweepLocals κ → List (PageAttempt κ) → StepEnd → Prop
  | stopped {i : ℕ} {l : SweepLocals κ} {error : SweepError}
      (hbefore : c.beforePage i = .error error) : PageRun c i l [] (.raised error)
  | ended {i : ℕ} {l : SweepLocals κ} {ending : StepEnd} (hbefore : c.beforePage i = .ok ())
      (hnext : attemptPage c i l = .inl ending) : PageRun c i l [c.attempt i l] ending
  | next {i : ℕ} {l l' : SweepLocals κ} {rest : List (PageAttempt κ)} {ending : StepEnd}
      (hbefore : c.beforePage i = .ok ()) (hnext : attemptPage c i l = .inr l')
      (hrest : PageRun c (i + 1) l' rest ending) : PageRun c i l (c.attempt i l :: rest) ending

namespace PageRun

/-- Failures at the minimum with which a run begins come on top of those counted before it. -/
theorem length_le_at_start (h : PageRun c i l attempts ending) (hl : InLoop c l)
    {block : List (PageAttempt κ)} (hblock : block <+: attempts)
    (hfails : ∀ a ∈ block, a.FailsAtMin c.minPageSize) :
    l.failuresAtMin + block.length ≤ maxFailuresAtMinPage := by
  have hlt := hl.failures_lt
  induction h generalizing block with
  | stopped =>
    rw [List.prefix_nil.mp hblock]
    exact hlt.le
  | ended =>
    have hlength := hblock.length_le
    rw [List.length_singleton] at hlength
    omega
  | next _ hnext _ ih =>
    rcases block with _ | ⟨a, block⟩
    · exact hlt.le
    · obtain ⟨rfl, htail⟩ := List.cons_prefix_cons.mp hblock
      have hcount := failuresAtMin_of_failsAtMin (hfails _ (List.mem_cons_self ..)) hnext
      have hl' := hl.attemptPage hnext
      have hrest := ih hl' htail (fun a ha => hfails a (List.mem_cons_of_mem _ ha)) hl'.failures_lt
      rw [List.length_cons]
      omega

/-- Nowhere in a run are there more failures at the minimum in a row. -/
theorem length_le_in_row (h : PageRun c i l attempts ending) (hl : InLoop c l)
    {block : List (PageAttempt κ)} (hblock : block <:+: attempts)
    (hfails : ∀ a ∈ block, a.FailsAtMin c.minPageSize) : block.length ≤ maxFailuresAtMinPage := by
  induction h with
  | stopped =>
    rw [List.infix_nil.mp hblock]
    exact Nat.zero_le _
  | ended =>
    have hlength := hblock.length_le
    rw [List.length_singleton] at hlength
    exact hlength.trans (by decide)
  | next hbefore hnext hrest ih =>
    rcases List.infix_cons_iff.mp hblock with hprefix | hinfix
    · have hle := (PageRun.next hbefore hnext hrest).length_le_at_start hl hprefix hfails
      omega
    · exact ih (hl.attemptPage hnext) hinfix

end PageRun

variable [LinearOrder κ] {keys : Finset κ}

/-- **Every attempt brings something about.** -/
theorem progress_attempt (hmin : 1 ≤ c.minPageSize) (hproc : c.Processes keys) (hl : InLoop c l) :
    (c.attempt i l).Progress keys c.minPageSize := by
  have hsize : 1 ≤ l.size := hmin.trans hl.min_le
  rcases hanswer : c.processPage i l.cursor l.size with error | ⟨_ | last, processed⟩
  · have hnext : attemptPage c i l = failPage c i l error := by
      rw [attemptPage, hanswer]
    by_cases hretryable : isPageRetryable error = true
    · by_cases hlt : c.minPageSize < l.size
      · refine .shrunk { l with size := max c.minPageSize (l.size / 2) } ?_ (le_max_left ..) ?_
        · show attemptPage c i l = _
          simp [hnext, failPage, hretryable, hlt]
        · show max c.minPageSize (l.size / 2) < l.size
          omega
      · exact .failed ⟨le_antisymm (not_lt.mp hlt) hl.min_le, error, hanswer, hretryable⟩
    · refine .fatal error hanswer (by simpa using hretryable) ?_
      show attemptPage c i l = _
      simp [hnext, failPage, hretryable]
  · refine .exhausted (hproc.exhausted i _ _ _ _ hsize hanswer (Or.inl rfl)) ?_
    show ∃ ending, attemptPage c i l = .inl ending
    rw [attemptPage, hanswer]
    exact exists_commitPage_inl c i _
  · by_cases hprocessed : processed = 0
    · refine .exhausted (hproc.exhausted i _ _ _ _ hsize hanswer (Or.inr hprocessed)) ?_
      show ∃ ending, attemptPage c i l = .inl ending
      simp only [attemptPage, hanswer, if_pos hprocessed]
      exact exists_commitPage_inl c i _
    · obtain ⟨hlast, hlt⟩ := hproc.advances i _ _ _ _ hsize hanswer hprocessed
      refine .advanced last processed hanswer hlast hlt fun l' hnext => ?_
      have hcommit : attemptPage c i l = .inr l' := hnext
      simp only [attemptPage, hanswer, if_neg hprocessed] at hcommit
      rw [← Sum.inr.inj (commitPage_eq_inr hcommit)]

/-- The loop has a run: the induction is on the measure. -/
theorem exists_pageRun (hmin : 1 ≤ c.minPageSize) (hproc : c.Processes keys) (hl : InLoop c l) :
    ∃ attempts ending, PageRun c i l attempts ending := by
  induction hrank : rank keys c.minPageSize l using Nat.strong_induction_on
    generalizing i l with
  | _ n ih =>
    cases hbefore : c.beforePage i with
    | error error => exact ⟨[], _, .stopped hbefore⟩
    | ok =>
      cases hnext : attemptPage c i l with
      | inl ending => exact ⟨_, _, .ended hbefore hnext⟩
      | inr l' =>
        obtain ⟨rest, ending, hrest⟩ :=
          ih _ (hrank ▸ rank_lt hmin hproc hl hnext) (hl.attemptPage hnext) rfl
        exact ⟨_, _, .next hbefore hnext hrest⟩

namespace PageRun

/-- A run makes as many attempts as the measure admits. -/
theorem length_le (hmin : 1 ≤ c.minPageSize) (hproc : c.Processes keys)
    (h : PageRun c i l attempts ending) (hl : InLoop c l) :
    attempts.length ≤ rank keys c.minPageSize l := by
  induction h with
  | stopped => exact Nat.zero_le _
  | ended => exact rank_pos keys hl
  | next _ hnext _ ih =>
    have hrest := ih (hl.attemptPage hnext)
    have hlt := rank_lt hmin hproc hl hnext
    rw [List.length_cons]
    omega

/-- With enough fuel the loop makes the run. -/
theorem pageLoop_eq (hmin : 1 ≤ c.minPageSize) (hproc : c.Processes keys)
    (h : PageRun c i l attempts ending) (hl : InLoop c l) {fuel : ℕ}
    (hfuel : rank keys c.minPageSize l ≤ fuel) :
    pageLoop c fuel i l = (attempts, some ending) := by
  have hpos := (rank_pos keys hl).trans_le hfuel
  induction h generalizing fuel with
  | stopped hbefore =>
    obtain ⟨fuel, rfl⟩ := Nat.exists_eq_succ_of_ne_zero hpos.ne'
    simp only [pageLoop, hbefore]
  | ended hbefore hnext =>
    obtain ⟨fuel, rfl⟩ := Nat.exists_eq_succ_of_ne_zero hpos.ne'
    simp only [pageLoop, hbefore, hnext]
  | next hbefore hnext _ ih =>
    obtain ⟨fuel, rfl⟩ := Nat.exists_eq_succ_of_ne_zero hpos.ne'
    have hl' := hl.attemptPage hnext
    have hlt := rank_lt hmin hproc hl hnext
    have hpos' := rank_pos keys hl'
    have hle : rank keys c.minPageSize _ ≤ fuel := Nat.le_of_lt_succ (hlt.trans_le hfuel)
    rw [pageLoop_next hbefore hnext, ih hl' hle (hpos'.trans_le hle)]

theorem progress (hmin : 1 ≤ c.minPageSize) (hproc : c.Processes keys)
    (h : PageRun c i l attempts ending) (hl : InLoop c l) :
    ∀ a ∈ attempts, a.Progress keys c.minPageSize := by
  induction h with
  | stopped => exact fun _ ha => absurd ha List.not_mem_nil
  | ended =>
    intro a ha
    rw [List.mem_singleton.mp ha]
    exact progress_attempt hmin hproc hl
  | next _ hnext _ ih =>
    intro a ha
    rcases List.mem_cons.mp ha with rfl | ha
    · exact progress_attempt hmin hproc hl
    · exact ih (hl.attemptPage hnext) a ha

end PageRun

end Runs

/-! ### The guarantee -/

section Calls

variable [LinearOrder κ] {c : StepCall κ} {keys : Finset κ}

/-- What is guaranteed about the attempts of a call: there are as many at most as halvings from the
starting size to the minimum, and three for each key and for the end of the keys. -/
structure BoundedAttempts (c : StepCall κ) (keys : Finset κ) (attempts : List (PageAttempt κ)) :
    Prop where
  length_le : attempts.length ≤ halvings c.minPageSize c.pageSize + 3 * (keys.card + 1)
  progress : ∀ a ∈ attempts, a.Progress keys c.minPageSize
  failures : ∀ block, block <:+: attempts → (∀ a ∈ block, a.FailsAtMin c.minPageSize) →
    block.length ≤ maxFailuresAtMinPage

/-- A call that makes no attempt. -/
theorem boundedAttempts_nil : BoundedAttempts c keys [] where
  length_le := Nat.zero_le _
  progress _ ha := absurd ha List.not_mem_nil
  failures block hblock _ := by
    rw [List.infix_nil.mp hblock]
    exact Nat.zero_le _

variable [OrderBot κ]

theorem inLoop_start (c : StepCall κ) (checkpoint : Checkpoint κ) :
    InLoop c (.start c.minPageSize c.pageSize checkpoint) :=
  ⟨le_max_left .., Nat.zero_lt_succ _⟩

/-- The measure at the start, whatever the checkpoint remembers. -/
theorem rank_start_le (keys : Finset κ) (hsize : c.minPageSize ≤ c.pageSize)
    (checkpoint : Checkpoint κ) :
    rank keys c.minPageSize (.start c.minPageSize c.pageSize checkpoint) ≤
      halvings c.minPageSize c.pageSize + 3 * (keys.card + 1) := by
  have hhalvings : halvings c.minPageSize
      (SweepLocals.start c.minPageSize c.pageSize checkpoint).size ≤
        halvings c.minPageSize c.pageSize :=
    halvings_mono (max_le hsize (min_le_left ..))
  have hkeys := keysAfter_le keys (SweepLocals.start c.minPageSize c.pageSize checkpoint).cursor
  unfold rank
  omega

/-- The loop of a call, from what its checkpoint remembers. -/
theorem pageLoop_ends (hmin : 1 ≤ c.minPageSize) (hsize : c.minPageSize ≤ c.pageSize)
    (hproc : c.Processes keys) (checkpoint : Checkpoint κ) :
    ∃ attempts ending,
      (∀ fuel, halvings c.minPageSize c.pageSize + 3 * (keys.card + 1) ≤ fuel →
        pageLoop c fuel 0 (.start c.minPageSize c.pageSize checkpoint) =
          (attempts, some ending)) ∧ BoundedAttempts c keys attempts := by
  have hl := inLoop_start c checkpoint
  have hrank := rank_start_le keys hsize checkpoint
  obtain ⟨attempts, ending, hrun⟩ := exists_pageRun (i := 0) hmin hproc hl
  refine ⟨attempts, ending, fun fuel hfuel => hrun.pageLoop_eq hmin hproc hl (hrank.trans hfuel), ?_⟩
  exact ⟨(hrun.length_le hmin hproc hl).trans hrank, hrun.progress hmin hproc hl,
    fun _ hblock hfails => hrun.length_le_in_row hl hblock hfails⟩

/-- **The paging loop ends.** For all that the awaits of a call may give, where the page processor
meets its contract, and whatever the checkpoint remembers, the call returns or raises after a
bounded number of attempts. Each attempt moves the cursor past a key, finds the keys exhausted,
makes the size smaller, is one of three failures in a row at most at the minimum size, or ends the
call with an error that is not retryable. -/
theorem run_checkpointed_step_ends (hmin : 1 ≤ c.minPageSize) (hsize : c.minPageSize ≤ c.pageSize)
    (hproc : c.Processes keys) :
    ∃ attempts ending,
      (∀ fuel, halvings c.minPageSize c.pageSize + 3 * (keys.card + 1) ≤ fuel →
        runCheckpointedStep c fuel = (attempts, some ending)) ∧ BoundedAttempts c keys attempts := by
  unfold runCheckpointedStep
  split
  · exact pageLoop_ends hmin hsize hproc {}
  · next runKey _ =>
    split
    · next error _ => exact ⟨[], .raised error, fun _ _ => rfl, boundedAttempts_nil⟩
    · next node _ =>
      by_cases hdone : (readCheckpoint node runKey).done = true
      · exact ⟨[], .returned 0, fun _ _ => if_pos hdone, boundedAttempts_nil⟩
      · obtain ⟨attempts, ending, hloop, hbounded⟩ :=
          pageLoop_ends hmin hsize hproc (readCheckpoint node runKey)
        exact ⟨attempts, ending, fun fuel hfuel => (if_neg hdone).trans (hloop fuel hfuel), hbounded⟩

end Calls

/-- A call over three keys with a page size of four. Of three attempts at a page two fail. -/
def alternatingCall : StepCall ℕ where
  runKey := some "20260701@stats-1"
  pageSize := 4
  minPageSize := 1
  checkpointNode := .ok none
  beforePage _ := .ok ()
  processPage i cursor size :=
    if i % 3 = 2 then
      let page := firstPage {10, 20, 30} cursor size
      .ok (page.getLast?, page.length)
    else .error .transientError
  sleep _ := .ok ()
  checkpointWrite _ := .ok ()

theorem takesPages_alternatingCall : alternatingCall.TakesPages {10, 20, 30} := by
  intro i cursor size hsize
  refine ⟨_, isPage_firstPage _ cursor hsize, fun answer hanswer => ?_⟩
  simp only [alternatingCall] at hanswer
  split_ifs at hanswer
  exact (Except.ok.inj hanswer).symm

theorem run_checkpointed_step_ends_alternating : ∃ attempts ending,
    (∀ fuel, 14 ≤ fuel → runCheckpointedStep alternatingCall fuel = (attempts, some ending)) ∧
      BoundedAttempts alternatingCall {10, 20, 30} attempts := by
  have hhalvings : halvings 1 4 = 2 := by
    rw [halvings_of_lt (by decide), halvings_of_lt (by decide), halvings_of_le (by decide)]
  obtain ⟨attempts, ending, hruns, hbounded⟩ :=
    run_checkpointed_step_ends (by decide) (by decide) takesPages_alternatingCall.processes
  refine ⟨attempts, ending, fun fuel hfuel => hruns fuel ?_, hbounded⟩
  show halvings 1 4 + 3 * (3 + 1) ≤ fuel
  rw [hhalvings]
  exact hfuel

/-! ### The calls as runs of the sweep machine -/

section Machine

variable [LinearOrder κ] {c : StepCall κ} {keys : Finset κ} {i : ℕ} {l l' : SweepLocals κ}
  {ending : StepEnd} {attempts : List (PageAttempt κ)}

/-- The size of an attempt in the log. -/
def SweepEvent.attemptSize? : SweepEvent κ → Option ℕ
  | .attempt size .. => some size
  | _ => none

/-- Where the invocation stands after an attempt. -/
def Continuation.pc : Continuation κ → SweepPc κ
  | .inl _ => .idle
  | .inr l => .before l

variable [OrderBot κ]

/-- The steps from one await of the invocation to another, with the sizes of the attempts in
between. -/
def SweepSteps (c : StepCall κ) (keys : Finset κ) (pc pc' : SweepPc κ) (sizes : List ℕ) : Prop :=
  ∀ node log, ∃ node' log',
    (sweepMachine keys c.minPageSize c.runKey).Steps Machine.anyStep
      { node, pc, log } { node := node', pc := pc', log := log ++ log' } ∧
    log'.filterMap SweepEvent.attemptSize? = sizes

theorem SweepSteps.refl (c : StepCall κ) (keys : Finset κ) (pc : SweepPc κ) :
    SweepSteps c keys pc pc [] := by
  intro node log
  refine ⟨node, [], ?_, rfl⟩
  rw [List.append_nil]
  exact Relation.ReflTransGen.refl

theorem SweepSteps.trans {pc pc' pc'' : SweepPc κ} {sizes sizes' : List ℕ}
    (h : SweepSteps c keys pc pc' sizes) (h' : SweepSteps c keys pc' pc'' sizes') :
    SweepSteps c keys pc pc'' (sizes ++ sizes') := by
  intro node log
  obtain ⟨node', log', hsteps, hsizes⟩ := h node log
  obtain ⟨node'', log'', hsteps', hsizes'⟩ := h' node' (log ++ log')
  refine ⟨node'', log' ++ log'', ?_, by rw [List.filterMap_append, hsizes, hsizes']⟩
  rw [← List.append_assoc]
  exact Relation.ReflTransGen.trans hsteps hsteps'

/-- One step, with what it adds to the log. -/
theorem SweepSteps.single {pc pc' : SweepPc κ} (a : SweepAction κ) (events : List (SweepEvent κ))
    (h : ∀ node log, ∃ node', Sweep.step keys c.minPageSize c.runKey { node, pc, log } a =
      some { node := node', pc := pc', log := log ++ events }) :
    SweepSteps c keys pc pc' (events.filterMap SweepEvent.attemptSize?) := by
  intro node log
  obtain ⟨node', hstep⟩ := h node log
  exact ⟨node', events, Relation.ReflTransGen.single ⟨a, trivial, hstep⟩, rfl⟩

theorem sweepSteps_beforePage (keys : Finset κ) (l : SweepLocals κ) :
    SweepSteps c keys (.before l) (.paging l) [] :=
  .single .beforePageReturns [] fun node log => ⟨node, by rw [List.append_nil]; rfl⟩

/-- What interrupts an invocation at its other awaits ends it. -/
theorem sweepSteps_stop (keys : Finset κ) {pc : SweepPc κ}
    (hpc : pc = .before l ∨ pc = .sleeping l) : SweepSteps c keys pc .idle [] := by
  refine .single .stop [] fun node log => ⟨node, ?_⟩
  rw [List.append_nil]
  rcases hpc with rfl | rfl <;> rfl

/-- The checkpoint write of a page. -/
theorem sweepSteps_writing {done : Bool} {next : Continuation κ} {runKey : String}
    (hkey : c.runKey = some runKey)
    (hnext : Continuation.pc next = if done then .idle else .before l) :
    SweepSteps c keys (.writing l done) (Continuation.pc (commitPage c i next)) [] := by
  unfold commitPage
  rw [hkey]
  cases hwrite : c.checkpointWrite i with
  | error error =>
    refine .single (.writeEnds .lost) [.checkpointLost] fun node log => ⟨node, ?_⟩
    rw [hkey]
    rfl
  | ok =>
    refine .single (.writeEnds .returned) [.checkpointed l.cursor done] fun node log =>
      ⟨writeCheckpoint runKey { cursor := l.cursor, size := some l.size, done }, ?_⟩
    rw [hkey, hnext]
    rfl

/-- What follows a page that was processed. -/
theorem sweepSteps_afterPage {page : List κ}
    (hanswer : c.processPage i l.cursor l.size = .ok (page.getLast?, page.length)) :
    SweepSteps c keys (Sweep.afterPage c.runKey l page) (Continuation.pc (attemptPage c i l)) [] := by
  cases hlast : page.getLast? with
  | none =>
    have hnext : attemptPage c i l = commitPage c i (.inl (.returned l.total)) := by
      simp only [attemptPage, hanswer, hlast]
    rw [hnext]
    cases hkey : c.runKey with
    | none =>
      simp only [Sweep.afterPage, hlast, commitPage, hkey]
      exact .refl c keys .idle
    | some runKey =>
      simp only [Sweep.afterPage, hlast]
      exact sweepSteps_writing hkey rfl
  | some last =>
    have hlength : page.length ≠ 0 := by
      rw [ne_eq, List.length_eq_zero_iff]
      rintro rfl
      cases hlast
    have hnext : attemptPage c i l = commitPage c i (.inr
        { l with failuresAtMin := 0, cursor := last, total := l.total + page.length }) := by
      simp only [attemptPage, hanswer, hlast, if_neg hlength]
    rw [hnext]
    cases hkey : c.runKey with
    | none =>
      simp only [Sweep.afterPage, hlast, commitPage, hkey]
      exact .refl c keys _
    | some runKey =>
      simp only [Sweep.afterPage, hlast]
      exact sweepSteps_writing hkey rfl

/-- What follows a page that failed. -/
theorem sweepSteps_afterError (keys : Finset κ) (error : SweepError) :
    SweepSteps c keys (Sweep.afterError c.minPageSize (isPageRetryable error) l)
      (Continuation.pc (failPage c i l error)) [] := by
  unfold failPage Sweep.afterError
  split_ifs
  · exact .refl c keys _
  · exact .refl c keys _
  · exact .refl c keys _
  · cases hsleep : c.sleep i with
    | error error => exact sweepSteps_stop keys (Or.inr rfl)
    | ok => exact .single .sleepReturns [] fun node log => ⟨node, by rw [List.append_nil]; rfl⟩

/-- **An attempt of the loop is one of the machine.** -/
theorem sweepSteps_attempt (hmin : 1 ≤ c.minPageSize) (hpages : c.TakesPages keys)
    (hl : InLoop c l) (i : ℕ) :
    SweepSteps c keys (.paging l) (Continuation.pc (attemptPage c i l)) [l.size] := by
  obtain ⟨page, hpage, hgives⟩ := hpages i l.cursor l.size (hmin.trans hl.min_le)
  cases hanswer : c.processPage i l.cursor l.size with
  | error error =>
    have hnext : attemptPage c i l = failPage c i l error := by
      simp only [attemptPage, hanswer]
    have hraises : SweepSteps c keys (.paging l)
        (Sweep.afterError c.minPageSize (isPageRetryable error) l) [l.size] :=
      .single (.pageRaises (isPageRetryable error) page []) [.attempt l.size page [] false]
        fun node log => ⟨node, if_pos ⟨hpage, List.nil_prefix⟩⟩
    rw [hnext]
    exact hraises.trans (sweepSteps_afterError keys error)
  | ok answer =>
    obtain rfl := hgives answer hanswer
    have hreturns : SweepSteps c keys (.paging l) (Sweep.afterPage c.runKey l page) [l.size] :=
      .single (.pageReturns page) [.attempt l.size page page true]
        fun node log => ⟨node, if_pos hpage⟩
    exact hreturns.trans (sweepSteps_afterPage hanswer)

/-- **The loop is a run of the machine**, with the same attempts. -/
theorem PageRun.sweepSteps (hmin : 1 ≤ c.minPageSize) (hpages : c.TakesPages keys)
    (h : PageRun c i l attempts ending) (hl : InLoop c l) :
    SweepSteps c keys (.before l) .idle (attempts.map fun a => a.before.size) := by
  induction h with
  | stopped => exact sweepSteps_stop keys (Or.inl rfl)
  | @ended i l ending _ hnext =>
    have hattempt := sweepSteps_attempt hmin hpages hl i
    rw [hnext] at hattempt
    exact (sweepSteps_beforePage keys l).trans hattempt
  | @next i l l' rest ending _ hnext _ ih =>
    have hattempt := sweepSteps_attempt hmin hpages hl i
    rw [hnext] at hattempt
    exact ((sweepSteps_beforePage keys l).trans hattempt).trans (ih (hl.attemptPage hnext))

/-- **A call is an invocation of the sweep machine**, with the same attempts. -/
theorem steps_runCheckpointedStep (hmin : 1 ≤ c.minPageSize)
    (hsize : c.minPageSize ≤ c.pageSize) (hpages : c.TakesPages keys)
    {node : Option (MaintenanceCheckpoint κ)} (hnode : ∀ n, c.checkpointNode = .ok n → n = node)
    (log : List (SweepEvent κ)) {fuel : ℕ}
    (hfuel : halvings c.minPageSize c.pageSize + 3 * (keys.card + 1) ≤ fuel) :
    ∃ node' log', (sweepMachine keys c.minPageSize c.runKey).Steps Machine.anyStep
        { node, pc := .idle, log } { node := node', pc := .idle, log := log ++ log' } ∧
      log'.filterMap SweepEvent.attemptSize? =
        (runCheckpointedStep c fuel).1.map fun a => a.before.size := by
  have hloop : ∀ checkpoint : Checkpoint κ,
      SweepSteps c keys (.before (.start c.minPageSize c.pageSize checkpoint)) .idle
        ((pageLoop c fuel 0 (.start c.minPageSize c.pageSize checkpoint)).1.map
          fun a => a.before.size) := by
    intro checkpoint
    have hl := inLoop_start c checkpoint
    have hrank := (rank_start_le keys hsize checkpoint).trans hfuel
    obtain ⟨attempts, ending, hrun⟩ := exists_pageRun (i := 0) hmin hpages.processes hl
    rw [hrun.pageLoop_eq hmin hpages.processes hl hrank]
    exact hrun.sweepSteps hmin hpages hl
  cases hkey : c.runKey with
  | none =>
    obtain ⟨node', log', hsteps, hsizes⟩ := hloop {} node log
    rw [hkey] at hsteps
    have hinvoke : (sweepMachine keys c.minPageSize none).Step Machine.anyStep
        { node, pc := .idle, log }
        { node, pc := .before (.start c.minPageSize c.pageSize {}), log } :=
      ⟨.invoke c.pageSize, trivial, if_pos hsize⟩
    refine ⟨node', log', .head hinvoke hsteps, ?_⟩
    simp only [runCheckpointedStep, hkey]
    exact hsizes
  | some runKey =>
    have hinvoke : (sweepMachine keys c.minPageSize (some runKey)).Step Machine.anyStep
        { node, pc := .idle, log } { node, pc := .reading c.pageSize, log } :=
      ⟨.invoke c.pageSize, trivial, if_pos hsize⟩
    cases hread : c.checkpointNode with
    | error error =>
      refine ⟨node, [], .head hinvoke (.single ⟨.stop, trivial, ?_⟩), ?_⟩
      · rw [List.append_nil]
        rfl
      · simp only [runCheckpointedStep, hkey, hread]
        rfl
    | ok n =>
      obtain rfl := hnode n hread
      have hreads : (sweepMachine keys c.minPageSize (some runKey)).Step Machine.anyStep
          { node := n, pc := .reading c.pageSize, log }
          { node := n, log, pc := if (readCheckpoint n runKey).done then .idle
            else .before (.start c.minPageSize c.pageSize (readCheckpoint n runKey)) } :=
        ⟨.readReturns, trivial, rfl⟩
      by_cases hdone : (readCheckpoint n runKey).done = true
      · rw [if_pos hdone] at hreads
        refine ⟨n, [], .head hinvoke (.single ?_), ?_⟩
        · rw [List.append_nil]
          exact hreads
        · simp only [runCheckpointedStep, hkey, hread, if_pos hdone]
          rfl
      · rw [if_neg hdone] at hreads
        obtain ⟨node', log', hsteps, hsizes⟩ := hloop (readCheckpoint n runKey) n log
        rw [hkey] at hsteps
        refine ⟨node', log', .head hinvoke (.head hreads hsteps), ?_⟩
        simp only [runCheckpointedStep, hkey, hread, if_neg hdone]
        exact hsizes

end Machine

end Graphinator
