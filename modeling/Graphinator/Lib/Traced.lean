import Mathlib.Data.List.Basic

/-!
# Computations with a trace

A computation that may raise an error, and that leaves a trace of events behind, whether it raises
or returns. What it ensures is said by two postconditions, on the traces it returns with and on
those it raises with.

## Main definitions

* `Traced`, `Traced.record`, `Traced.outcome`.
* `Traced.Ensures` : from a trace, what a computation ensures.

## Main results

* `Traced.ensures_bind`, `Traced.ensures_tryCatch`, `Traced.ensures_observing` and the rest : one
  rule for each way to build a computation.
* `Traced.Ensures.mono` : the rule of consequence.
-/

/-- A computation that raises errors `ε` and leaves events `ω`. -/
abbrev Traced (ω ε α : Type) := EStateM ε (List ω) α

namespace Traced

variable {ω ε α β : Type}

/-- An event happens. -/
def record (event : ω) : Traced ω ε Unit := modify (· ++ [event])

/-- A call whose outcome is known. -/
def outcome : Except ε α → Traced ω ε α
  | .ok a => pure a
  | .error e => throw e

/-- From the trace `s`, the computation returns with `Q` or raises with `E`. -/
def Ensures (f : Traced ω ε α) (s : List ω) (Q : α → List ω → Prop) (E : ε → List ω → Prop) :
    Prop :=
  match f s with
  | .ok a s' => Q a s'
  | .error e s' => E e s'

variable {f : Traced ω ε α} {s : List ω} {Q Q' : α → List ω → Prop} {E E' : ε → List ω → Prop}

@[simp] theorem ensures_pure {a : α} : Ensures (pure a : Traced ω ε α) s Q E ↔ Q a s := Iff.rfl

@[simp] theorem ensures_throw {e : ε} : Ensures (throw e : Traced ω ε α) s Q E ↔ E e s := Iff.rfl

@[simp] theorem ensures_record {event : ω} {Q : Unit → List ω → Prop} :
    Ensures (record event : Traced ω ε Unit) s Q E ↔ Q () (s ++ [event]) := Iff.rfl

@[simp] theorem ensures_outcome_ok {a : α} :
    Ensures (outcome (.ok a) : Traced ω ε α) s Q E ↔ Q a s := Iff.rfl

@[simp] theorem ensures_outcome_error {e : ε} :
    Ensures (outcome (.error e) : Traced ω ε α) s Q E ↔ E e s := Iff.rfl

/-- One computation after another. -/
@[simp] theorem ensures_bind {g : α → Traced ω ε β} {Q : β → List ω → Prop} :
    Ensures (f >>= g) s Q E ↔ Ensures f s (fun a s' => Ensures (g a) s' Q E) E := by
  change (match EStateM.bind f g s with | .ok b s' => Q b s' | .error e s' => E e s') ↔ _
  unfold EStateM.bind Ensures
  cases f s <;> rfl

@[simp] theorem ensures_map {g : α → β} {Q : β → List ω → Prop} :
    Ensures (g <$> f) s Q E ↔ Ensures f s (fun a => Q (g a)) E := by
  change (match EStateM.map g f s with | .ok b s' => Q b s' | .error e s' => E e s') ↔ _
  unfold EStateM.map Ensures
  cases f s <;> rfl

/-- An error is handled from the trace that it was raised with. -/
@[simp] theorem ensures_tryCatch {h : ε → Traced ω ε α} :
    Ensures (tryCatch f h) s Q E ↔ Ensures f s Q fun e s' => Ensures (h e) s' Q E := by
  change (match EStateM.tryCatch f h s with | .ok a s' => Q a s' | .error e s' => E e s') ↔ _
  unfold EStateM.tryCatch Ensures
  cases f s <;> rfl

/-- An error is observed. -/
@[simp] theorem ensures_observing {Q : Except ε α → List ω → Prop} :
    Ensures (observing f : Traced ω ε (Except ε α)) s Q E ↔
      Ensures f s (fun a => Q (.ok a)) fun e => Q (.error e) := by
  rw [observing, ensures_tryCatch, ensures_bind]
  rfl

/-- **The rule of consequence.** -/
theorem Ensures.mono (h : Ensures f s Q E) (hQ : ∀ a s', Q a s' → Q' a s')
    (hE : ∀ e s', E e s' → E' e s') : Ensures f s Q' E' := by
  unfold Ensures at h ⊢
  cases hf : f s with
  | ok a s' =>
    rw [hf] at h
    exact hQ a s' h
  | error e s' =>
    rw [hf] at h
    exact hE e s' h

/-- A computation that raises with no trace returns. -/
theorem Ensures.exists_ok (h : Ensures f s Q fun _ _ => False) : ∃ a s', f s = .ok a s' ∧ Q a s' := by
  unfold Ensures at h
  cases hf : f s with
  | ok a s' =>
    rw [hf] at h
    exact ⟨a, s', rfl, h⟩
  | error e s' =>
    rw [hf] at h
    exact h.elim

end Traced
