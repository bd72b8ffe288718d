import Mathlib.Data.List.Basic

/-!
# Three-valued logic

The truth values of a query language with nulls: true, false, and unknown. A row passes a condition
only where the condition is true.

## Main definitions

* `Kleene.Truth`, `Kleene.not`, `Kleene.and`, `Kleene.or`.
* `Kleene.isIn` : membership in a list, under a given comparison.

## Main results

* `Kleene.or_eq_true`, `Kleene.and_eq_true` : a disjunction is true where a part of it is, a
  conjunction where all of it is, whatever is unknown besides.
-/

namespace Kleene

/-- A truth value; `none` is unknown. -/
abbrev Truth := Option Bool

/-- Negation. -/
def not (a : Truth) : Truth := a.map Bool.not

/-- Conjunction: false where a part is, and true where both are. -/
def and : Truth → Truth → Truth
  | some false, _ | _, some false => some false
  | some true, some true => some true
  | _, _ => none

/-- Disjunction: true where a part is, and false where both are. -/
def or : Truth → Truth → Truth
  | some true, _ | _, some true => some true
  | some false, some false => some false
  | _, _ => none

/-- `x IN xs`: true where an item is equal, and unknown where a comparison is. -/
def isIn {α : Type*} (equals : α → α → Truth) (x : α) (xs : List α) : Truth :=
  xs.foldr (fun y truth => or (equals x y) truth) (some false)

variable {a b : Truth}

@[simp] theorem and_eq_true : and a b = some true ↔ a = some true ∧ b = some true := by
  rcases a with _ | _ | _ <;> rcases b with _ | _ | _ <;> decide

@[simp] theorem or_eq_true : or a b = some true ↔ a = some true ∨ b = some true := by
  rcases a with _ | _ | _ <;> rcases b with _ | _ | _ <;> decide

@[simp] theorem or_eq_false : or a b = some false ↔ a = some false ∧ b = some false := by
  rcases a with _ | _ | _ <;> rcases b with _ | _ | _ <;> decide

@[simp] theorem not_eq_true : not a = some true ↔ a = some false := by
  rcases a with _ | _ | _ <;> decide

/-- A value is known not to be in a list where each comparison is false. -/
theorem isIn_eq_false {α : Type*} {equals : α → α → Truth} {x : α} {xs : List α} :
    isIn equals x xs = some false ↔ ∀ y ∈ xs, equals x y = some false := by
  induction xs with
  | nil => simp [isIn]
  | cons y xs ih =>
    rw [List.forall_mem_cons, ← ih]
    exact or_eq_false

end Kleene
