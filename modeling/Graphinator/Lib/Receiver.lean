import Mathlib.Data.List.Basic
import Mathlib.Logic.Function.Basic

/-!
# Receivers of messages that may come again

A transport that delivers at least once delivers a message again where it does not learn that the
message was taken. A receiver that keeps for each key the tag of the last message of the key can
tell such a message from a new one. Several messages may be taken in one step, and then those that
come again are left out of the step by the receiver itself.

The ledger of a list of steps is the tag of the last message of each key. If the receiver keeps what
the ledger says, the list has the same runs as the list without the messages that the ledger already
has, so that what is delivered again has no effect.

## Main definitions

* `Receiver` : a receiver, with what it keeps for a key.
* `Receiver.Run` : the runs of a list of steps.
* `Receiver.ledger`, `Receiver.firsts` : the tags of the last messages, and the steps without the
  messages that come again.

## Main results

* `Receiver.holds_ledger` : after a run the receiver keeps what the ledger says.
* `Receiver.run_firsts_iff` : what comes again has no effect.
* `Receiver.firsts_disjoint` : a message whose key has one tag is taken in one step at most.
-/

/-- A receiver with states `σ` that takes messages `ι` in steps `ε`. The steps that are valid take
the messages they carry, and leave the messages of other keys as they are. -/
structure Receiver (σ ε ι κ τ : Type*) where
  /-- A step from one state to another. -/
  Step : ε → σ → σ → Prop
  /-- The messages that a step carries. -/
  items : ε → List ι
  key : ι → κ
  tag : ι → τ
  /-- The step with only the messages that satisfy a predicate. -/
  only : (ι → Bool) → ε → ε
  /-- The last message of the key that the receiver has taken carries the tag. -/
  Keeps : σ → κ → τ → Prop
  Valid : ε → Prop
  items_only (p : ι → Bool) (e : ε) : items (only p e) = (items e).filter p
  /-- A message whose tag is kept may as well be left out. -/
  step_only {p : ι → Bool} {e : ε} {s s' : σ} : Valid e →
    (∀ i ∈ items e, p i = false → Keeps s (key i) (tag i)) → (Step (only p e) s s' ↔ Step e s s')
  keeps_items {e : ε} {s s' : σ} : Valid e → Step e s s' → ∀ i ∈ items e, Keeps s' (key i) (tag i)
  keeps_other {e : ε} {s s' : σ} {k : κ} {t : τ} : Valid e → Step e s s' →
    (∀ i ∈ items e, key i ≠ k) → Keeps s k t → Keeps s' k t

namespace Receiver

variable {σ ε ι κ τ : Type*} (R : Receiver σ ε ι κ τ)

/-- The runs of a list of steps. -/
def Run : List ε → σ → σ → Prop
  | [], s, s' => s = s'
  | e :: es, s, s' => ∃ t, R.Step e s t ∧ Run es t s'

/-- The receiver keeps what a ledger says. -/
def Holds (ledger : κ → Option τ) (s : σ) : Prop := ∀ k t, ledger k = some t → R.Keeps s k t

variable {R} in
/-- A run that goes on for a step. -/
theorem run_append_singleton {es : List ε} {e : ε} {s t s' : σ} (h : R.Run es s t)
    (hstep : R.Step e t s') : R.Run (es ++ [e]) s s' := by
  induction es generalizing s with
  | nil =>
    obtain rfl : s = t := h
    exact ⟨s', hstep, rfl⟩
  | cons e' es ih =>
    obtain ⟨u, hfirst, hrest⟩ := h
    exact ⟨u, hfirst, ih hrest⟩

variable [DecidableEq κ]

/-- A ledger after a step: the last message of the key counts. -/
def note (ledger : κ → Option τ) (e : ε) (k : κ) : Option τ :=
  match (R.items e).reverse.find? fun i => R.key i = k with
  | some i => some (R.tag i)
  | none => ledger k

/-- The tag of the last message of each key. -/
def ledger (es : List ε) (before : κ → Option τ) : κ → Option τ := es.foldl R.note before

/-- The steps without the messages that the ledger has. -/
def firsts [DecidableEq τ] : (κ → Option τ) → List ε → List ε
  | _, [] => []
  | ledger, e :: es =>
    R.only (fun i => decide (ledger (R.key i) ≠ some (R.tag i))) e :: firsts (R.note ledger e) es

section Ledger

variable {R} {before : κ → Option τ} {e : ε} {es : List ε} {k : κ} {t : τ}

theorem note_cases (R : Receiver σ ε ι κ τ) (before : κ → Option τ) (e : ε) (k : κ) :
    (∃ i ∈ R.items e, R.key i = k ∧ R.note before e k = some (R.tag i)) ∨
      ((∀ i ∈ R.items e, R.key i ≠ k) ∧ R.note before e k = before k) := by
  unfold note
  cases hlast : (R.items e).reverse.find? fun i => R.key i = k with
  | some i =>
    refine Or.inl ⟨i, List.mem_reverse.mp (List.mem_of_find?_eq_some hlast), ?_, rfl⟩
    simpa using List.find?_some hlast
  | none =>
    refine Or.inr ⟨fun i hi heq => ?_, rfl⟩
    exact List.find?_eq_none.mp hlast i (List.mem_reverse.mpr hi) (decide_eq_true heq)

/-- A ledger that has a message goes on to have it where each key has one tag. -/
theorem note_eq_some {T : κ → τ} (hT : ∀ i ∈ R.items e, R.tag i = T (R.key i))
    (h : before k = some (T k)) : R.note before e k = some (T k) := by
  rcases R.note_cases before e k with ⟨i, hi, rfl, hnote⟩ | ⟨-, hnote⟩
  · rw [hnote, hT i hi]
  · rw [hnote, h]

theorem note_of_mem {T : κ → τ} (hT : ∀ i ∈ R.items e, R.tag i = T (R.key i)) {i : ι}
    (hi : i ∈ R.items e) : R.note before e (R.key i) = some (T (R.key i)) := by
  rcases R.note_cases before e (R.key i) with ⟨j, hj, hkey, hnote⟩ | ⟨hother, -⟩
  · rw [hnote, hT j hj, hkey]
  · exact absurd rfl (hother i hi)

/-- The ledger has the last message of a key. -/
theorem ledger_of_last {front back : List ε} {i : ι} (hi : i ∈ R.items e)
    (hsame : ∀ j ∈ R.items e, R.key j = R.key i → R.tag j = R.tag i)
    (hlast : ∀ e' ∈ back, ∀ j ∈ R.items e', R.key j ≠ R.key i) :
    R.ledger (front ++ e :: back) before (R.key i) = some (R.tag i) := by
  have hafter : ∀ l : κ → Option τ, R.ledger back l (R.key i) = l (R.key i) := by
    induction back with
    | nil => exact fun _ => rfl
    | cons e' back ih =>
      obtain ⟨hfirst, hlast⟩ := List.forall_mem_cons.mp hlast
      intro l
      refine (ih hlast (R.note l e')).trans ?_
      rcases R.note_cases l e' (R.key i) with ⟨j, hj, hkey, -⟩ | ⟨-, hnote⟩
      · exact absurd hkey (hfirst j hj)
      · exact hnote
  rw [ledger, List.foldl_append, List.foldl_cons]
  refine (hafter _).trans ?_
  rcases R.note_cases (R.ledger front before) e (R.key i) with ⟨j, hj, hkey, hnote⟩ | ⟨hother, -⟩
  · exact hnote.trans (congrArg some (hsame j hj hkey))
  · exact absurd rfl (hother i hi)

theorem ledger_isSome (h : (before k).isSome) : (R.ledger es before k).isSome := by
  induction es generalizing before with
  | nil => exact h
  | cons e es ih =>
    refine ih ?_
    rcases R.note_cases before e k with ⟨i, -, -, hnote⟩ | ⟨-, hnote⟩
    · rw [hnote]
      rfl
    · rwa [hnote]

/-- The ledger has a message of the key of every message that was taken. -/
theorem ledger_isSome_of_mem (he : e ∈ es) {i : ι} (hi : i ∈ R.items e) :
    (R.ledger es before (R.key i)).isSome := by
  induction es generalizing before with
  | nil => cases he
  | cons e' es ih =>
    change (R.ledger es (R.note before e') (R.key i)).isSome
    rcases List.mem_cons.mp he with rfl | he
    · refine ledger_isSome ?_
      rcases R.note_cases before e (R.key i) with ⟨j, -, -, hnote⟩ | ⟨hother, -⟩
      · rw [hnote]
        rfl
      · exact absurd rfl (hother i hi)
    · exact ih he

end Ledger

section Runs

variable {R} {before : κ → Option τ} {e : ε} {es : List ε} {s s' : σ}

/-- **A step keeps what the ledger says**, with the messages of the step. -/
theorem Holds.step (h : R.Holds before s) (hvalid : R.Valid e) (hstep : R.Step e s s') :
    R.Holds (R.note before e) s' := by
  intro k t hk
  rcases R.note_cases before e k with ⟨i, hi, rfl, hnote⟩ | ⟨hother, hnote⟩
  · obtain rfl : R.tag i = t := Option.some.inj (hnote.symm.trans hk)
    exact R.keeps_items hvalid hstep i hi
  · exact R.keeps_other hvalid hstep hother (h k t (hnote.symm.trans hk))

/-- **After a run the receiver keeps what the ledger says.** -/
theorem holds_ledger (hvalid : ∀ e ∈ es, R.Valid e) (h : R.Holds before s) (hrun : R.Run es s s') :
    R.Holds (R.ledger es before) s' := by
  induction es generalizing before s with
  | nil =>
    obtain rfl : s = s' := hrun
    exact h
  | cons e es ih =>
    obtain ⟨t, hstep, hrest⟩ := hrun
    obtain ⟨hfirst, hvalid⟩ := List.forall_mem_cons.mp hvalid
    exact ih hvalid (h.step hfirst hstep) hrest

variable [DecidableEq τ]

/-- **What comes again has no effect.** -/
theorem run_firsts_iff (hvalid : ∀ e ∈ es, R.Valid e) (h : R.Holds before s) :
    R.Run (R.firsts before es) s s' ↔ R.Run es s s' := by
  induction es generalizing before s with
  | nil => exact Iff.rfl
  | cons e es ih =>
    obtain ⟨hfirst, hvalid⟩ := List.forall_mem_cons.mp hvalid
    refine exists_congr fun t => ?_
    have honly : R.Step (R.only (fun i => decide (before (R.key i) ≠ some (R.tag i))) e) s t ↔
        R.Step e s t := by
      refine R.step_only hfirst fun i _ hi => h _ _ ?_
      exact not_not.mp (of_decide_eq_false hi)
    rw [honly]
    exact and_congr_right fun hstep => ih hvalid (h.step hfirst hstep)

/-- The messages that are left are messages of the steps, and not in the ledger. -/
theorem mem_items_firsts {T : κ → τ} (hT : ∀ e ∈ es, ∀ i ∈ R.items e, R.tag i = T (R.key i))
    {e' : ε} (he' : e' ∈ R.firsts before es) {i : ι} (hi : i ∈ R.items e') :
    R.tag i = T (R.key i) ∧ before (R.key i) ≠ some (R.tag i) := by
  induction es generalizing before with
  | nil => exact absurd he' List.not_mem_nil
  | cons e es ih =>
    obtain ⟨hfirst, hT⟩ := List.forall_mem_cons.mp hT
    rcases List.mem_cons.mp he' with rfl | he'
    · rw [R.items_only, List.mem_filter] at hi
      exact ⟨hfirst i hi.1, of_decide_eq_true hi.2⟩
    · obtain ⟨htag, hnote⟩ := ih hT he'
      exact ⟨htag, fun hbefore => hnote (htag ▸ note_eq_some hfirst (htag ▸ hbefore))⟩

/-- **A message whose key has one tag is taken in one step at most.** -/
theorem firsts_disjoint {T : κ → τ} (hT : ∀ e ∈ es, ∀ i ∈ R.items e, R.tag i = T (R.key i)) :
    (R.firsts before es).Pairwise fun e e' =>
      ∀ i ∈ R.items e, ∀ i' ∈ R.items e', R.key i ≠ R.key i' := by
  induction es generalizing before with
  | nil => exact List.Pairwise.nil
  | cons e es ih =>
    obtain ⟨hfirst, hT⟩ := List.forall_mem_cons.mp hT
    refine List.pairwise_cons.mpr ⟨fun e' he' i hi i' hi' heq => ?_, ih hT⟩
    obtain ⟨htag, hnote⟩ := mem_items_firsts hT he' hi'
    rw [R.items_only, List.mem_filter] at hi
    exact hnote (by rw [htag, ← heq, note_of_mem hfirst hi.1])

end Runs

end Receiver
