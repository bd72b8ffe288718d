import Mathlib.Data.List.Destutter
import Mathlib.Data.Set.Basic

/-!
# Facts that records assert and withdraw

Each record has an owner. It withdraws some facts, and then asserts some. A fact may lie in the
scope of an owner, and then only the records of this owner assert or withdraw it; the other facts
are never withdrawn. The facts that a log of records leaves are a function of the log. A record that
is given again when no other of its owner came in between has no effect on them, whatever the
records of other owners were.

## Main definitions

* `AssertionLog` : what records assert and withdraw, and the scopes of facts.
* `AssertionLog.after` : the facts after a list of records.
* `AssertionLog.Settled` : a record that has no effect.

## Main results

* `AssertionLog.settled_of_last` : the last record of an owner is settled.
* `AssertionLog.after_filter` : records of different owners that are settled may be left out.
* `AssertionLog.mem_after_iff_exists_own` : the facts of a log are those of the logs of the owners.
* `AssertionLog.after_destutter` : repetitions may be left out.
-/

/-- What records `ρ` of owners `κ` assert and withdraw among facts `φ`. -/
structure AssertionLog (ρ κ φ : Type*) where
  own : ρ → κ
  asserts : ρ → Set φ
  drops : ρ → Set φ
  /-- The owner in whose scope a fact lies. -/
  scope : φ → Option κ
  scope_of_drops {r : ρ} {a : φ} : a ∈ drops r → scope a = some (own r)
  scope_of_asserts {r : ρ} {a : φ} : a ∈ asserts r → scope a = none ∨ scope a = some (own r)

namespace AssertionLog

variable {ρ κ φ : Type*} (L : AssertionLog ρ κ φ)

/-- The facts after a record. -/
def step (S : Set φ) (r : ρ) : Set φ := S \ L.drops r ∪ L.asserts r

/-- The facts after a list of records. -/
def after (S : Set φ) (rows : List ρ) : Set φ := rows.foldl L.step S

/-- The record asserts nothing new, and what it withdraws it asserts itself or is not there. -/
def Settled (S : Set φ) (r : ρ) : Prop :=
  L.asserts r ⊆ S ∧ ∀ a ∈ L.drops r, a ∈ S → a ∈ L.asserts r

variable {L} {S S' : Set φ} {r r' : ρ} {rows : List ρ} {a : φ}

theorem after_append (S : Set φ) (rows rows' : List ρ) :
    L.after S (rows ++ rows') = L.after (L.after S rows) rows' := List.foldl_append

/-- Whether a fact is there afterwards depends on whether it was there. -/
theorem mem_after_congr (h : a ∈ S ↔ a ∈ S') : a ∈ L.after S rows ↔ a ∈ L.after S' rows := by
  induction rows generalizing S S' with
  | nil => exact h
  | cons r rows ih =>
    refine ih ?_
    simp only [step, Set.mem_union, Set.mem_sdiff, h]

/-- A settled record has no effect. -/
theorem Settled.step_eq (h : L.Settled S r) : L.step S r = S := by
  ext a
  constructor
  · rintro (⟨ha, -⟩ | ha)
    · exact ha
    · exact h.1 ha
  · intro ha
    by_cases hdrop : a ∈ L.drops r
    · exact Or.inr (h.2 a hdrop ha)
    · exact Or.inl ⟨ha, hdrop⟩

theorem settled_step (S : Set φ) (r : ρ) : L.Settled (L.step S r) r := by
  refine ⟨fun a ha => Or.inr ha, ?_⟩
  rintro a hdrop (⟨-, hkept⟩ | ha)
  · exact absurd hdrop hkept
  · exact ha

/-- The record of another owner leaves a settled record settled. -/
theorem Settled.step_other (h : L.Settled S r) (hne : L.own r' ≠ L.own r) :
    L.Settled (L.step S r') r := by
  refine ⟨fun a ha => Or.inl ⟨h.1 ha, fun hdrop => ?_⟩, ?_⟩
  · have hscope := L.scope_of_drops hdrop
    rcases L.scope_of_asserts ha with hnone | hsome
    · cases hnone.symm.trans hscope
    · exact hne (Option.some.inj (hscope.symm.trans hsome))
  · rintro a hdrop (⟨ha, -⟩ | ha)
    · exact h.2 a hdrop ha
    · have hscope := L.scope_of_drops hdrop
      rcases L.scope_of_asserts ha with hnone | hsome
      · cases hnone.symm.trans hscope
      · exact absurd (Option.some.inj (hsome.symm.trans hscope)) hne

theorem Settled.after_other (h : L.Settled S r) (hne : ∀ r' ∈ rows, L.own r' ≠ L.own r) :
    L.Settled (L.after S rows) r := by
  induction rows generalizing S with
  | nil => exact h
  | cons r' rows ih =>
    obtain ⟨hfirst, hne⟩ := List.forall_mem_cons.mp hne
    exact ih (h.step_other hfirst) hne

/-- **The last record of an owner is settled.** -/
theorem settled_of_last (S : Set φ) (before : List ρ) (hne : ∀ r' ∈ rows, L.own r' ≠ L.own r) :
    L.Settled (L.after S (before ++ r :: rows)) r := by
  rw [after_append]
  exact (settled_step (L.after S before) r).after_other hne

/-- **Records of different owners that are settled may be left out.** -/
theorem after_filter {ι : Type*} {f : ι → Option ρ} {p : ι → Bool} {items : List ι}
    (hown : (items.filterMap f).Pairwise fun r r' => L.own r ≠ L.own r')
    (hsettled : ∀ i ∈ items, p i = false → ∀ r, f i = some r → L.Settled S r) :
    L.after S ((items.filter p).filterMap f) = L.after S (items.filterMap f) := by
  induction items generalizing S with
  | nil => rfl
  | cons i items ih =>
    obtain ⟨hfirst, hsettled⟩ := List.forall_mem_cons.mp hsettled
    cases hrow : f i with
    | none =>
      rw [List.filterMap_cons_none hrow] at hown ⊢
      rw [← ih hown hsettled]
      cases hp : p i with
      | true => rw [List.filter_cons_of_pos hp, List.filterMap_cons_none hrow]
      | false => rw [List.filter_cons_of_neg (by simp [hp])]
    | some r =>
      rw [List.filterMap_cons_some hrow] at hown ⊢
      obtain ⟨hother, hown⟩ := List.pairwise_cons.mp hown
      change _ = L.after (L.step S r) (items.filterMap f)
      cases hp : p i with
      | true =>
        rw [List.filter_cons_of_pos hp, List.filterMap_cons_some hrow]
        refine ih hown fun j hj hpj r' hr' => (hsettled j hj hpj r' hr').step_other ?_
        exact hother r' (List.mem_filterMap.mpr ⟨j, hj, hr'⟩)
      | false =>
        rw [List.filter_cons_of_neg (by simp [hp]), (hfirst hp r hrow).step_eq]
        exact ih hown hsettled

/-! ### Logs of single owners -/

theorem after_append_singleton (S : Set φ) (rows : List ρ) (r : ρ) :
    L.after S (rows ++ [r]) = L.step (L.after S rows) r := after_append S rows [r]

/-- A fact that is there was asserted. -/
theorem exists_asserts (h : a ∈ L.after ∅ rows) : ∃ r ∈ rows, a ∈ L.asserts r := by
  induction rows using List.reverseRecOn with
  | nil => exact absurd h (Set.notMem_empty a)
  | append_singleton rows r ih =>
    rw [after_append_singleton] at h
    rcases h with ⟨h, -⟩ | h
    · obtain ⟨r', hr', ha⟩ := ih h
      exact ⟨r', List.mem_append_left _ hr', ha⟩
    · exact ⟨r, List.mem_append_right _ (List.mem_singleton_self r), h⟩

/-- **The facts of a log are those of the logs of the single owners.** -/
theorem mem_after_iff_exists_own [DecidableEq κ] :
    a ∈ L.after ∅ rows ↔ ∃ k, a ∈ L.after ∅ (rows.filter (L.own · = k)) := by
  induction rows using List.reverseRecOn with
  | nil => exact ⟨fun h => absurd h (Set.notMem_empty a), fun ⟨_, h⟩ => h⟩
  | append_singleton rows r ih =>
    have hother : ∀ k, L.own r ≠ k →
        (rows ++ [r]).filter (L.own · = k) = rows.filter (L.own · = k) := by
      intro k hk
      rw [List.filter_append, List.filter_singleton]
      simp [hk]
    have hown : (rows ++ [r]).filter (L.own · = L.own r) =
        rows.filter (L.own · = L.own r) ++ [r] := by
      rw [List.filter_append, List.filter_singleton]
      simp
    rw [after_append_singleton]
    constructor
    · rintro (⟨h, hkept⟩ | h)
      · obtain ⟨k, hk⟩ := ih.mp h
        refine ⟨k, ?_⟩
        by_cases hr : L.own r = k
        · subst hr
          rw [hown, after_append_singleton]
          exact Or.inl ⟨hk, hkept⟩
        · rwa [hother k hr]
      · refine ⟨L.own r, ?_⟩
        rw [hown, after_append_singleton]
        exact Or.inr h
    · rintro ⟨k, hk⟩
      by_cases hr : L.own r = k
      · subst hr
        rw [hown, after_append_singleton] at hk
        exact hk.imp_left fun hk => ⟨ih.mpr ⟨_, hk.1⟩, hk.2⟩
      · rw [hother k hr] at hk
        refine Or.inl ⟨ih.mpr ⟨k, hk⟩, fun hdrop => hr ?_⟩
        -- the fact is not in the scope of another owner
        obtain ⟨r', hr', ha⟩ := exists_asserts hk
        have hk' : L.own r' = k := of_decide_eq_true (List.mem_filter.mp hr').2
        have hscope := L.scope_of_drops hdrop
        rcases L.scope_of_asserts ha with hnone | hsome
        · cases hnone.symm.trans hscope
        · exact (Option.some.inj (hscope.symm.trans hsome)).trans hk'

/-- **Repetitions may be left out.** -/
theorem after_destutter {ι : Type*} [DecidableEq ι] {f : ι → Option ρ} (items : List ι) :
    L.after S ((items.destutter (· ≠ ·)).filterMap f) = L.after S (items.filterMap f) := by
  have hcons : ∀ (T : Set φ) (i : ι) (rest : List ι), L.after T ((i :: rest).filterMap f) =
      L.after (L.after T ([i].filterMap f)) (rest.filterMap f) := by
    intro T i rest
    rw [← after_append, ← List.filterMap_append]
    rfl
  -- a record right after itself has no effect
  have htwice : ∀ (T : Set φ) (i : ι), L.after (L.after T ([i].filterMap f)) ([i].filterMap f) =
      L.after T ([i].filterMap f) := by
    intro T i
    cases hi : f i with
    | none =>
      rw [List.filterMap_cons_none hi]
      rfl
    | some r =>
      rw [List.filterMap_cons_some hi]
      exact (settled_step T r).step_eq
  cases items with
  | nil => rfl
  | cons i items =>
    change L.after S ((items.destutter' (· ≠ ·) i).filterMap f) = _
    induction items generalizing S i with
    | nil => rfl
    | cons j items ih =>
      by_cases hne : i ≠ j
      · rw [List.destutter'_cons_pos items hne, hcons S i, ih]
        exact (hcons S i (j :: items)).symm
      · obtain rfl : i = j := not_not.mp hne
        rw [List.destutter'_cons_neg items hne, ih, hcons S i (i :: items),
          hcons (L.after S _) i items, htwice, ← hcons]

end AssertionLog
