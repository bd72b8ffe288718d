import Mathlib.Data.Finset.Image
import Mathlib.Data.Finset.Filter
import Mathlib.Logic.Function.Conjugate

/-!
# Finite tables

A finite set of keys with a row for each. A key the table does not have reads as the default row,
so two tables are equal as soon as they have the same keys and read alike everywhere.

## Main definitions

* `Table`, `Table.upsert`, `Table.filter`, `Table.modify`.
-/

/-- A finite table with rows `ν` under keys `κ`. -/
@[ext]
structure Table (κ ν : Type*) [Inhabited ν] where
  /-- The keys that have a row. -/
  keys : Finset κ
  /-- The row of a key. -/
  row : κ → ν
  row_of_notMem : ∀ k, k ∉ keys → row k = default

namespace Table

variable {κ ν : Type*} [Inhabited ν]

instance : Membership κ (Table κ ν) := ⟨fun t k => k ∈ t.keys⟩

instance [DecidableEq κ] (k : κ) (t : Table κ ν) : Decidable (k ∈ t) :=
  inferInstanceAs (Decidable (k ∈ t.keys))

theorem mem_def {k : κ} {t : Table κ ν} : k ∈ t ↔ k ∈ t.keys := Iff.rfl

/-- Tables with the same keys that read alike are equal. -/
theorem ext_iff_mem {t t' : Table κ ν} :
    t = t' ↔ (∀ k, k ∈ t ↔ k ∈ t') ∧ ∀ k, t.row k = t'.row k := by
  constructor
  · rintro rfl
    exact ⟨fun _ => Iff.rfl, fun _ => rfl⟩
  · rintro ⟨hk, hr⟩
    exact Table.ext (Finset.ext hk) (funext hr)

/-- The table without rows. -/
instance : EmptyCollection (Table κ ν) := ⟨⟨∅, fun _ => default, fun _ _ => rfl⟩⟩

@[simp] theorem notMem_empty (k : κ) : k ∉ (∅ : Table κ ν) := Finset.notMem_empty k

@[simp] theorem row_empty (k : κ) : (∅ : Table κ ν).row k = default := rfl

/-- Keep the rows whose key satisfies `p`. -/
def filter (t : Table κ ν) (p : κ → Prop) [DecidablePred p] : Table κ ν where
  keys := t.keys.filter p
  row k := if p k then t.row k else default
  row_of_notMem k hk := by
    split_ifs with hp
    · exact t.row_of_notMem k fun h => hk (Finset.mem_filter.mpr ⟨h, hp⟩)
    · rfl

/-- Apply `f` to the rows whose key satisfies `p`. -/
def modify [DecidableEq κ] (t : Table κ ν) (p : κ → Prop) [DecidablePred p] (f : ν → ν) :
    Table κ ν where
  keys := t.keys
  row k := if k ∈ t.keys ∧ p k then f (t.row k) else t.row k
  row_of_notMem k hk := by
    rw [if_neg fun h => hk h.1]
    exact t.row_of_notMem k hk

/-- Apply `f` to the row of `k`, from the default row if there is none. -/
def upsert [DecidableEq κ] (t : Table κ ν) (k : κ) (f : ν → ν) : Table κ ν where
  keys := insert k t.keys
  row := Function.update t.row k (f (t.row k))
  row_of_notMem k' hk' := by
    rw [Finset.mem_insert, not_or] at hk'
    rw [Function.update_of_ne hk'.1]
    exact t.row_of_notMem k' hk'.2

variable {t : Table κ ν} {k k' : κ}

section filter

variable {p : κ → Prop} [DecidablePred p]

@[simp] theorem mem_filter : k ∈ t.filter p ↔ k ∈ t ∧ p k := Finset.mem_filter

@[simp] theorem row_filter : (t.filter p).row k = if p k then t.row k else default := rfl

end filter

section upsert

variable [DecidableEq κ]

@[simp] theorem mem_upsert {f : ν → ν} : k' ∈ t.upsert k f ↔ k' = k ∨ k' ∈ t :=
  Finset.mem_insert

theorem row_upsert (f : ν → ν) :
    (t.upsert k f).row k' = if k' = k then f (t.row k') else t.row k' := by
  by_cases h : k' = k
  · subst h
    simp [upsert]
  · simp [upsert, h]

@[simp] theorem row_upsert_self (f : ν → ν) : (t.upsert k f).row k = f (t.row k) := by
  simp [upsert]

theorem row_upsert_of_ne (h : k' ≠ k) (f : ν → ν) : (t.upsert k f).row k' = t.row k' := by
  simp [upsert, h]

@[simp] theorem row_upsert_id : (t.upsert k id).row = t.row := by
  simp [upsert]

@[simp] theorem mem_modify {p : κ → Prop} [DecidablePred p] {f : ν → ν} :
    k ∈ t.modify p f ↔ k ∈ t := Iff.rfl

theorem row_modify {p : κ → Prop} [DecidablePred p] (f : ν → ν) :
    (t.modify p f).row k = if k ∈ t ∧ p k then f (t.row k) else t.row k := rfl

end upsert

end Table
