import Graphinator.Lib.Machine
import Mathlib.Data.Finset.Card
import Mathlib.Data.PNat.Basic
import Mathlib.Data.Prod.Lex

/-!
# Deletions in chunks

A query deletes what it matches in a store. It reads the items one after another, and deletes each
full chunk in a transaction of its own, so that an attempt that fails leaves what it has committed.
The next attempt goes over what is left, with smaller chunks. A query without a chunk size deletes
all of its items in one transaction.

## Main definitions

* `Deletion` : what a query matches in a store, and what the deletion of items makes of it.
* `Deletion.Run`, `Deletion.machine` : the attempts of a query.
* `Deletion.Lacks` : the store lacks some of what was matched.

## Main results

* `Deletion.move_of_step`, `Deletion.Inv.move` : what a step may be, and what every step keeps.
* `Deletion.reachable_lacks` : at every point the store lacks some items, and at a successful end
  all of them.
* `Deletion.exists_delete_of_step` : the transactions are bounded by the chunk size.
* `Deletion.wellFounded_step` : however the attempts fail, a run ends.
-/

/-- A query over a store: the items that it matches, and the deletion of items. -/
structure Deletion (σ ι : Type*) [DecidableEq ι] where
  matched : σ → Finset ι
  delete : Finset ι → σ → σ
  matched_delete (c : Finset ι) (s : σ) : matched (delete c s) = matched s \ c
  delete_empty (s : σ) : delete ∅ s = s
  delete_delete (c c' : Finset ι) (s : σ) : delete c' (delete c s) = delete (c ∪ c') s

namespace Deletion

/-- An attempt of a query while it runs. -/
structure Query (ι : Type*) where
  attempt : ℕ
  /-- The rows of a chunk, where the query has chunks. -/
  size : Option ℕ+
  unread : List ι
  /-- The items that it has read and not deleted. -/
  rows : List ι

/-- Where the attempts are. -/
inductive Pc (ι : Type*)
  /-- Before an attempt. -/
  | waiting (attempt : ℕ) (size : Option ℕ+)
  | running (q : Query ι)
  | returned (ok : Bool)

/-- A store, and the attempts of a query over it. -/
structure Run (σ ι : Type*) where
  store : σ
  pc : Pc ι

/-- What the environment decides. -/
inductive Action (ι : Type*)
  | start (scan : List ι)
  | read
  /-- A chunk is deleted, and its transaction commits. -/
  | commit
  | complete
  /-- The attempt fails, and another one may help. -/
  | transient
  | fail

namespace Query

variable {ι : Type*} {q : Query ι}

/-- The rows that the next transaction deletes. -/
def chunk (q : Query ι) : List ι :=
  match q.size with
  | some n => q.rows.take n
  | none => q.rows

/-- A chunk is full, or it is the last one. -/
def full (q : Query ι) : Bool :=
  !q.rows.isEmpty && (q.unread.isEmpty || q.size.any fun n => n ≤ q.rows.length)

theorem chunk_append_drop : q.chunk ++ q.rows.drop q.chunk.length = q.rows := by
  unfold chunk
  cases q.size with
  | none => simp
  | some n =>
    simp only [List.length_take]
    rcases Nat.le_total n q.rows.length with h | h
    · rw [min_eq_left h, List.take_append_drop]
    · rw [min_eq_right h, List.take_of_length_le h, List.drop_length, List.append_nil]

theorem chunk_ne_nil (h : q.rows ≠ []) : q.chunk ≠ [] := by
  unfold chunk
  cases q.size with
  | none => exact h
  | some n => simp [h]

/-- **A transaction deletes no more rows than a chunk has.** -/
theorem length_chunk_le {n : ℕ+} (h : q.size = some n) : q.chunk.length ≤ n := by
  unfold chunk
  rw [h]
  exact List.length_take_le ..

end Query

/-- Half a chunk, but not less than the smallest. -/
def halve (minSize n : ℕ+) : ℕ+ := ⟨max minSize (n / 2), lt_max_of_lt_left minSize.pos⟩

variable {σ ι : Type*} [DecidableEq ι] (D : Deletion σ ι) (minSize : ℕ+) (maxAttempts : ℕ)

/-- One step of the attempts. -/
def step (r : Run σ ι) : Action ι → Option (Run σ ι)
  | .start scan => match r.pc with
    | .waiting attempt size =>
      if scan.Nodup ∧ scan.toFinset = D.matched r.store then
        some { r with pc := .running { attempt, size, unread := scan, rows := [] } }
      else none
    | _ => none
  | .read => match r.pc with
    | .running q => match q.unread with
      | x :: unread => some { r with pc := .running { q with unread, rows := q.rows ++ [x] } }
      | [] => none
    | _ => none
  | .commit => match r.pc with
    | .running q =>
      if q.full then
        some { store := D.delete q.chunk.toFinset r.store
               pc := .running { q with rows := q.rows.drop q.chunk.length } }
      else none
    | _ => none
  | .complete => match r.pc with
    | .running q =>
      if q.unread = [] ∧ q.rows = [] then some { r with pc := .returned true } else none
    | _ => none
  | .transient => match r.pc with
    | .running q =>
      some { r with pc :=
        if q.attempt < maxAttempts then .waiting (q.attempt + 1) (q.size.map (halve minSize))
        else .returned false }
    | _ => none
  | .fail => match r.pc with
    | .running _ => some { r with pc := .returned false }
    | _ => none

/-- The runs of a query over a store, from its first attempt. -/
def machine (size : Option ℕ+) (s : σ) : Machine (Run σ ι) (Action ι) where
  init r := r = ⟨s, .waiting 1 size⟩
  step := D.step minSize maxAttempts

/-- What a step may be. -/
inductive Move : Run σ ι → Run σ ι → Prop
  | start {s : σ} {attempt : ℕ} {size : Option ℕ+} {scan : List ι} (hnodup : scan.Nodup)
    (hscan : scan.toFinset = D.matched s) :
    Move ⟨s, .waiting attempt size⟩ ⟨s, .running { attempt, size, unread := scan, rows := [] }⟩
  | read {s : σ} {q : Query ι} {x : ι} {unread : List ι} (h : q.unread = x :: unread) :
    Move ⟨s, .running q⟩ ⟨s, .running { q with unread, rows := q.rows ++ [x] }⟩
  | commit {s : σ} {q : Query ι} (h : q.rows ≠ []) :
    Move ⟨s, .running q⟩
      ⟨D.delete q.chunk.toFinset s, .running { q with rows := q.rows.drop q.chunk.length }⟩
  | complete {s : σ} {q : Query ι} (hunread : q.unread = []) (hrows : q.rows = []) :
    Move ⟨s, .running q⟩ ⟨s, .returned true⟩
  | retry {s : σ} {q : Query ι} (h : q.attempt < maxAttempts) :
    Move ⟨s, .running q⟩ ⟨s, .waiting (q.attempt + 1) (q.size.map (halve minSize))⟩
  | fail {s : σ} {q : Query ι} : Move ⟨s, .running q⟩ ⟨s, .returned false⟩

variable {D minSize maxAttempts} {s : σ} {r r' : Run σ ι} {a : Action ι} {q : Query ι}
  {size : Option ℕ+}

/-- **The steps are these moves.** -/
theorem move_of_step (hs : D.step minSize maxAttempts r a = some r') :
    D.Move minSize maxAttempts r r' := by
  obtain ⟨s, pc⟩ := r
  cases pc with
  | waiting attempt size =>
    cases a with
    | start scan =>
      simp only [step] at hs
      split_ifs at hs with hscan
      cases hs
      exact .start hscan.1 hscan.2
    | _ => cases hs
  | running q =>
    cases a with
    | start scan => cases hs
    | read =>
      simp only [step] at hs
      split at hs
      · next x unread hunread =>
        cases hs
        exact .read hunread
      · cases hs
    | commit =>
      simp only [step] at hs
      split_ifs at hs with hfull
      cases hs
      refine .commit fun hrows => ?_
      simp [Query.full, hrows] at hfull
    | complete =>
      simp only [step] at hs
      split_ifs at hs with hdone
      cases hs
      exact .complete hdone.1 hdone.2
    | transient =>
      simp only [step] at hs
      split_ifs at hs with hattempt
      · cases hs
        exact .retry hattempt
      · cases hs
        exact .fail
    | fail =>
      cases hs
      exact .fail
  | returned ok => cases a <;> cases hs

theorem halve_le {bound n : ℕ+} (hmin : minSize ≤ bound) (h : n ≤ bound) :
    halve minSize n ≤ bound :=
  PNat.coe_le_coe _ _ |>.mp (max_le hmin ((Nat.div_le_self ..).trans h))

/-- All chunks of the attempts are within a bound. -/
def Within (bound : ℕ+) : Pc ι → Prop
  | .waiting _ size => ∃ n, size = some n ∧ n ≤ bound
  | .running q => ∃ n, q.size = some n ∧ n ≤ bound
  | .returned _ => True

/-! ### What a run deletes -/

variable (D) in
/-- The store lacks some of the items that were matched, and nothing else. -/
def Lacks (s s' : σ) : Prop := ∃ c ⊆ D.matched s, s' = D.delete c s

theorem Lacks.delete {s' : σ} {c : Finset ι} (h : D.Lacks s s') (hc : c ⊆ D.matched s') :
    D.Lacks s (D.delete c s') := by
  obtain ⟨c₀, hc₀, rfl⟩ := h
  rw [D.matched_delete] at hc
  exact ⟨c₀ ∪ c, Finset.union_subset hc₀ (hc.trans Finset.sdiff_subset), D.delete_delete c₀ c s⟩

/-- Where nothing is matched any more, all that was matched is deleted. -/
theorem Lacks.eq_delete {s' : σ} (h : D.Lacks s s') (hnone : D.matched s' = ∅) :
    s' = D.delete (D.matched s) s := by
  obtain ⟨c, hc, rfl⟩ := h
  rw [D.matched_delete, Finset.sdiff_eq_empty_iff_subset] at hnone
  rw [Finset.Subset.antisymm hc hnone]

variable (D) in
/-- The invariant of the attempts: a query that runs has read or is to read all that is matched. -/
structure Inv (s : σ) (r : Run σ ι) : Prop where
  lacks : D.Lacks s r.store
  query : ∀ q, r.pc = .running q → (q.rows ++ q.unread).Nodup ∧
    (q.rows ++ q.unread).toFinset = D.matched r.store
  done : r.pc = .returned true → D.matched r.store = ∅

theorem Inv.chunk_subset (h : D.Inv s r) (hpc : r.pc = .running q) :
    q.chunk.toFinset ⊆ D.matched r.store := by
  intro x hx
  rw [← (h.query q hpc).2, List.mem_toFinset]
  refine List.mem_append_left _ ?_
  rw [← Query.chunk_append_drop (q := q)]
  exact List.mem_append_left _ (List.mem_toFinset.mp hx)

/-- **What every step keeps.** -/
theorem Inv.move (h : D.Inv s r) (hmove : D.Move minSize maxAttempts r r') : D.Inv s r' := by
  cases hmove with
  | start hnodup hscan =>
    refine ⟨h.lacks, fun q hq => ?_, by rintro ⟨⟩⟩
    cases hq
    exact ⟨hnodup, hscan⟩
  | @read t q x unread hunread =>
    refine ⟨h.lacks, fun q' hq => ?_, by rintro ⟨⟩⟩
    cases hq
    have hquery := h.query q rfl
    rw [hunread, List.append_cons] at hquery
    exact hquery
  | @commit t q _ =>
    refine ⟨h.lacks.delete (h.chunk_subset rfl), fun q' hq => ?_, by rintro ⟨⟩⟩
    cases hq
    obtain ⟨hnodup, hall⟩ := h.query q rfl
    rw [← Query.chunk_append_drop (q := q), List.append_assoc] at hnodup hall
    refine ⟨(List.nodup_append.mp hnodup).2.1, ?_⟩
    have hdisjoint : Disjoint q.chunk.toFinset
        (q.rows.drop q.chunk.length ++ q.unread).toFinset :=
      List.disjoint_toFinset_iff_disjoint.mpr (List.disjoint_of_nodup_append hnodup)
    have hmatched := D.matched_delete q.chunk.toFinset t
    rw [← hall, List.toFinset_append, Finset.union_sdiff_cancel_left hdisjoint] at hmatched
    exact hmatched.symm
  | @complete t q hunread hrows =>
    refine ⟨h.lacks, by rintro _ ⟨⟩, fun _ => ?_⟩
    have hquery := (h.query q rfl).2
    rwa [hunread, hrows, List.nil_append, List.toFinset_nil, eq_comm] at hquery
  | retry _ => exact ⟨h.lacks, by rintro _ ⟨⟩, by rintro ⟨⟩⟩
  | fail => exact ⟨h.lacks, by rintro _ ⟨⟩, by rintro ⟨⟩⟩

theorem Inv.reachable (h : (D.machine minSize maxAttempts size s).Reachable r) : D.Inv s r := by
  refine h.invariant (I := D.Inv s) (fun r' hinit => ?_)
    fun _ _ _ _ hinv hs => hinv.move (move_of_step hs)
  obtain rfl : r' = _ := hinit
  exact ⟨⟨∅, Finset.empty_subset _, (D.delete_empty s).symm⟩, by rintro _ ⟨⟩, by rintro ⟨⟩⟩

/-- **What a run has deleted**: some of the items at any point, and all of them when it has
succeeded. -/
theorem reachable_lacks (h : (D.machine minSize maxAttempts size s).Reachable r) :
    D.Lacks s r.store ∧ (r.pc = .returned true → r.store = D.delete (D.matched s) s) :=
  ⟨(Inv.reachable h).lacks,
    fun hdone => (Inv.reachable h).lacks.eq_delete ((Inv.reachable h).done hdone)⟩

/-! ### Transactions -/

theorem Within.move {bound : ℕ+} (h : Within bound r.pc) (hmin : minSize ≤ bound)
    (hmove : D.Move minSize maxAttempts r r') : Within bound r'.pc := by
  cases hmove with
  | start _ _ => exact h
  | read _ => exact h
  | commit _ => exact h
  | complete _ _ => trivial
  | retry _ =>
    obtain ⟨n, hn, hle⟩ := h
    exact ⟨halve minSize n, congrArg (Option.map (halve minSize)) hn, halve_le hmin hle⟩
  | fail => trivial

theorem Within.reachable {bound n : ℕ+} (hmin : minSize ≤ bound) (hn : n ≤ bound)
    (h : (D.machine minSize maxAttempts (some n) s).Reachable r) : Within bound r.pc := by
  refine h.invariant (I := fun r => Within bound r.pc) (fun r' hinit => ?_)
    fun _ _ _ _ hwithin hs => hwithin.move hmin (move_of_step hs)
  obtain rfl : r' = _ := hinit
  exact ⟨n, rfl, hn⟩

/-- **Every step is one transaction, or none**, of no more rows than a chunk may have. -/
theorem exists_delete_of_step {bound : ℕ+} (h : Within bound r.pc)
    (hs : D.step minSize maxAttempts r a = some r') :
    ∃ c : Finset ι, c.card ≤ bound ∧ r'.store = D.delete c r.store := by
  have hnone : ∃ c : Finset ι, c.card ≤ bound ∧ r.store = D.delete c r.store :=
    ⟨∅, Nat.zero_le _, (D.delete_empty _).symm⟩
  cases move_of_step hs with
  | @commit t q _ =>
    obtain ⟨n, hn, hle⟩ := h
    refine ⟨q.chunk.toFinset, ?_, rfl⟩
    exact (List.toFinset_card_le _).trans ((Query.length_chunk_le hn).trans hle)
  | _ => exact hnone

/-! ### Every run ends -/

/-- What is left of a run: attempts, and then rows to read and to delete. -/
def rank (maxAttempts : ℕ) : Pc ι → ℕ ×ₗ ℕ
  | .waiting attempt _ => toLex (2 * (maxAttempts - attempt) + 2, 0)
  | .running q =>
    toLex (2 * (maxAttempts - q.attempt) + 1, 2 * q.unread.length + q.rows.length + 1)
  | .returned _ => toLex (0, 0)

theorem rank_lt_of_move (hmove : D.Move minSize maxAttempts r r') :
    rank maxAttempts r'.pc < rank maxAttempts r.pc := by
  cases hmove with
  | start _ _ => exact Prod.Lex.toLex_lt_toLex.mpr (Or.inl (by dsimp only; omega))
  | @read t q x unread hunread =>
    refine Prod.Lex.toLex_lt_toLex.mpr (Or.inr ⟨rfl, ?_⟩)
    simp only [hunread, List.length_append, List.length_cons, List.length_nil]
    omega
  | @commit t q hrows =>
    refine Prod.Lex.toLex_lt_toLex.mpr (Or.inr ⟨rfl, ?_⟩)
    have hchunk := List.length_pos_of_ne_nil (Query.chunk_ne_nil hrows)
    have hlength := List.length_pos_of_ne_nil hrows
    simp only [List.length_drop]
    omega
  | complete _ _ => exact Prod.Lex.toLex_lt_toLex.mpr (Or.inl (by omega))
  | retry _ => exact Prod.Lex.toLex_lt_toLex.mpr (Or.inl (by dsimp only; omega))
  | fail => exact Prod.Lex.toLex_lt_toLex.mpr (Or.inl (by omega))

variable (D minSize maxAttempts) in
/-- **However the attempts fail, a run ends.** -/
theorem wellFounded_step :
    WellFounded fun r' r : Run σ ι => ∃ a, D.step minSize maxAttempts r a = some r' :=
  Subrelation.wf (fun ⟨_, hs⟩ => rank_lt_of_move (move_of_step hs))
    (InvImage.wf (fun r : Run σ ι => rank maxAttempts r.pc) wellFounded_lt)

end Deletion
