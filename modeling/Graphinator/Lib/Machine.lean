import Mathlib.Logic.Relation
import Mathlib.Data.Set.Basic

/-!
# Machines driven by an environment

A machine is a set of initial states and a partial step function. An action names one step of
the machine together with everything the environment decides in it: which coroutine resumes,
whether a call returns or raises, what a read returns. The step function is then deterministic,
and every interleaving is a list of actions.

Runs may be restricted to steps that satisfy a predicate `ok`, so that a theorem about "every
run in which no step takes that branch" is a theorem about `ReachableIn ok`.

## Main definitions

* `Machine`, `Machine.Steps`, `Machine.ReachableIn`, `Machine.Reachable`.
* `Machine.exec` : run a list of actions, to exhibit a run.

## Main results

* `Machine.Steps.invariant` : the invariant rule, for runs from one state.
* `Machine.ReachableIn.invariant` : the invariant rule, for reachable states.
* `Machine.Steps.mono` : what no step shrinks, no run shrinks.
* `Machine.steps_of_exec` : a list of actions that executes is a run.
-/

/-- A machine with states `σ` whose steps are named by actions `α`. -/
structure Machine (σ α : Type*) where
  /-- The states a run may start in. -/
  init : σ → Prop
  /-- The state after an action, or `none` where the action is not enabled. -/
  step : σ → α → Option σ

namespace Machine

variable {σ α : Type*} (M : Machine σ α)

/-- The steps of `M` that `ok` admits. -/
def Step (ok : σ → α → Prop) (s s' : σ) : Prop := ∃ a, ok s a ∧ M.step s a = some s'

/-- Runs of `M` whose steps all satisfy `ok`, from the first state to the last. -/
def Steps (ok : σ → α → Prop) : σ → σ → Prop := Relation.ReflTransGen (M.Step ok)

/-- The states reached by runs whose steps all satisfy `ok`. -/
def ReachableIn (ok : σ → α → Prop) (s : σ) : Prop := ∃ s₀, M.init s₀ ∧ M.Steps ok s₀ s

/-- The predicate that admits every step. -/
def anyStep : σ → α → Prop := fun _ _ => True

/-- The states reached by runs of any kind. -/
def Reachable : σ → Prop := M.ReachableIn anyStep

variable {M} {ok ok' : σ → α → Prop} {s s' s'' : σ}

/-- **The invariant rule.** What holds at the start of a run and is preserved by each admitted
step holds at its end. -/
theorem Steps.invariant {I : σ → Prop} (h : M.Steps ok s s') (h₀ : I s)
    (hstep : ∀ t a t', ok t a → I t → M.step t a = some t' → I t') : I s' := by
  induction h with
  | refl => exact h₀
  | tail _ hlast ih =>
    obtain ⟨a, hok, hs⟩ := hlast
    exact hstep _ a _ hok ih hs

/-- The invariant rule for reachable states. -/
theorem ReachableIn.invariant {I : σ → Prop} (h : M.ReachableIn ok s)
    (h₀ : ∀ t, M.init t → I t)
    (hstep : ∀ t a t', ok t a → I t → M.step t a = some t' → I t') : I s := by
  obtain ⟨s₀, hinit, hsteps⟩ := h
  exact hsteps.invariant (h₀ s₀ hinit) hstep

/-- A quantity that no admitted step makes smaller is at least as large at the end of a run. -/
theorem Steps.mono {β : Type*} [Preorder β] {f : σ → β} (h : M.Steps ok s s')
    (hstep : ∀ t a t', ok t a → M.step t a = some t' → f t ≤ f t') : f s ≤ f s' :=
  h.invariant (I := fun t => f s ≤ f t) le_rfl fun t a t' hok hle hs =>
    hle.trans (hstep t a t' hok hs)

theorem Steps.weaken (h : M.Steps ok s s') (himp : ∀ t a, ok t a → ok' t a) :
    M.Steps ok' s s' :=
  Relation.ReflTransGen.mono (fun t _ ⟨a, hok, hs⟩ => ⟨a, himp t a hok, hs⟩) _ _ h

theorem ReachableIn.weaken (h : M.ReachableIn ok s) (himp : ∀ t a, ok t a → ok' t a) :
    M.ReachableIn ok' s := by
  obtain ⟨s₀, hinit, hsteps⟩ := h
  exact ⟨s₀, hinit, hsteps.weaken himp⟩

theorem ReachableIn.reachable (h : M.ReachableIn ok s) : M.Reachable s :=
  h.weaken fun _ _ _ => trivial

theorem ReachableIn.trans (h : M.ReachableIn ok s) (hs : M.Steps ok s s') :
    M.ReachableIn ok s' := by
  obtain ⟨s₀, hinit, hsteps⟩ := h
  exact ⟨s₀, hinit, Relation.ReflTransGen.trans hsteps hs⟩

/-! ### Executing a list of actions -/

variable (M) in
/-- Run a list of actions, stopping at the first that is not enabled or that `ok` refuses. -/
def exec (ok : σ → α → Bool) (s : σ) : List α → Option σ
  | [] => some s
  | a :: as => if ok s a then (M.step s a).bind fun t => exec ok t as else none

/-- A list of actions that executes to the end is a run. -/
theorem steps_of_exec {okb : σ → α → Bool} (hok : ∀ t a, okb t a = true → ok t a)
    {as : List α} (h : M.exec okb s as = some s') : M.Steps ok s s' := by
  induction as generalizing s with
  | nil =>
    obtain rfl : s = s' := by simpa [exec] using h
    exact Relation.ReflTransGen.refl
  | cons a as ih =>
    simp only [exec] at h
    split at h
    · next hb =>
      obtain ⟨t, ht, hrest⟩ := Option.bind_eq_some_iff.mp h
      exact Relation.ReflTransGen.head ⟨a, hok s a hb, ht⟩ (ih hrest)
    · cases h

end Machine
