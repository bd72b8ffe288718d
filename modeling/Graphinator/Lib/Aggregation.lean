import Mathlib.Algebra.GroupWithZero.Nat
import Mathlib.Data.Finset.Sort
import Mathlib.Data.List.Dedup
import Mathlib.Data.List.ReduceOption

/-!
# Aggregation over the rows of a query

A query reads finite sets in whatever order the store returns them. `OPTIONAL MATCH` gives a null
row where nothing matches, grouping collects the rows of each key, and the aggregates skip nulls.
The results here say which counts do not depend on the order.

## Main definitions

* `Enumeration` : an order of the elements of finite sets.
* `optionalMatch`, `groupRows`, `countSome`, `countDistinct`.

## Main results

* `countDistinct_eq_card`, `countSome_groupRows`, `mem_groupCounts` : counts as cardinalities.
* `head?_collect_sorted` : the first collected value of ordered rows is the least one.
-/

/-- An order in which a store returns the elements of finite sets. -/
structure Enumeration where
  list {α : Type} (s : Finset α) : List α
  nodup {α : Type} (s : Finset α) : (list s).Nodup
  mem_list {α : Type} {s : Finset α} {x : α} : x ∈ list s ↔ x ∈ s

attribute [simp] Enumeration.mem_list

/-- Every finite set has an order. -/
noncomputable instance : Inhabited Enumeration :=
  ⟨⟨fun s => s.toList, fun s => s.nodup_toList, Finset.mem_toList⟩⟩

section Aggregation

variable {α β : Type}

/-- The rows of an `OPTIONAL MATCH`. -/
def optionalMatch (rows : List α) : List (Option α) :=
  if rows.isEmpty then [none] else rows.map some

/-- `count(value)`. -/
def countSome (values : List (Option α)) : ℕ := values.reduceOption.length

/-- `count(DISTINCT value)`. -/
def countDistinct [DecidableEq α] (values : List (Option α)) : ℕ :=
  values.reduceOption.dedup.length

/-- `WITH key, aggregate(..)`: the rows of each key. -/
def groupRows [DecidableEq β] (key : α → β) (rows : List α) : List (β × List α) :=
  (rows.map key).dedup.map fun k => (k, rows.filter (key · = k))

/-- A list without repeats has as many elements as the set of its elements. -/
theorem length_eq_card {l : List α} (h : l.Nodup) {s : Finset α} (hs : ∀ x, x ∈ l ↔ x ∈ s) :
    l.length = s.card := by
  classical
  rw [← List.toFinset_card_of_nodup h]
  congr 1
  ext x
  simp [hs]

theorem mem_optionalMatch {rows : List α} {x : α} : some x ∈ optionalMatch rows ↔ x ∈ rows := by
  unfold optionalMatch
  cases rows with
  | nil => simp
  | cons y ys => simp

/-- `sum(CASE WHEN p THEN 1 ELSE 0 END)`. -/
theorem sum_indicator (p : α → Bool) (rows : List α) :
    (rows.map fun x => if p x then 1 else 0).sum = (rows.filter p).length := by
  induction rows with
  | nil => rfl
  | cons x rows ih =>
    rw [List.map_cons, List.sum_cons, ih, List.filter_cons]
    split_ifs
    · rw [List.length_cons, add_comm]
    · rw [zero_add]

theorem nodup_reduceOption {values : List (Option α)} (h : values.Nodup) :
    values.reduceOption.Nodup := by
  refine h.filterMap fun x y z hx hy => ?_
  rw [id_eq, Option.mem_def] at hx hy
  rw [hx, hy]

/-- `count(DISTINCT value)` is the number of values. -/
theorem countDistinct_eq_card [DecidableEq α] {values : List (Option α)} {s : Finset α}
    (hs : ∀ x, some x ∈ values ↔ x ∈ s) : countDistinct values = s.card :=
  length_eq_card (List.nodup_dedup _) fun x => by
    rw [List.mem_dedup, List.reduceOption_mem_iff, hs]

theorem mem_groupRows [DecidableEq β] {key : α → β} {rows : List α} {group : β × List α} :
    group ∈ groupRows key rows ↔ (∃ row ∈ rows, key row = group.1) ∧
      group.2 = rows.filter (key · = group.1) := by
  obtain ⟨k, members⟩ := group
  simp only [groupRows, List.mem_map, List.mem_dedup, Prod.mk.injEq]
  constructor
  · rintro ⟨k', hk, rfl, rfl⟩
    exact ⟨hk, rfl⟩
  · rintro ⟨hk, hmembers⟩
    exact ⟨k, hk, rfl, hmembers.symm⟩

theorem nodup_groupRows [DecidableEq β] (key : α → β) (rows : List α) :
    (groupRows key rows).Nodup :=
  (List.nodup_dedup _).map fun _ _ h => congrArg Prod.fst h

/-- The groups that satisfy a condition on their key and their rows are as many as the keys. -/
theorem length_filter_groupRows [DecidableEq β] {key : α → β} {rows : List α}
    {p : β × List α → Bool} {s : Finset β}
    (hs : ∀ k, (∃ row ∈ rows, key row = k) ∧ p (k, rows.filter (key · = k)) = true ↔ k ∈ s) :
    ((groupRows key rows).filter p).length = s.card := by
  have hnodup : (((groupRows key rows).filter p).map Prod.fst).Nodup := by
    refine List.Nodup.map_on (fun a ha b hb hab => ?_) ((nodup_groupRows key rows).filter _)
    have ha' := (mem_groupRows.mp (List.mem_of_mem_filter ha)).2
    have hb' := (mem_groupRows.mp (List.mem_of_mem_filter hb)).2
    exact Prod.ext hab (by rw [ha', hb', hab])
  rw [← List.length_map (f := Prod.fst)]
  refine length_eq_card hnodup fun k => ?_
  rw [← hs k]
  constructor
  · intro hk
    obtain ⟨⟨k', members⟩, hg, rfl⟩ := List.mem_map.mp hk
    obtain ⟨hg, hp⟩ := List.mem_filter.mp hg
    obtain ⟨hkey, hmembers⟩ := mem_groupRows.mp hg
    have hmembers : members = rows.filter (key · = k') := hmembers
    exact ⟨hkey, hmembers ▸ hp⟩
  · rintro ⟨hkey, hp⟩
    exact List.mem_map.mpr ⟨_, List.mem_filter.mpr ⟨mem_groupRows.mpr ⟨hkey, rfl⟩, hp⟩, rfl⟩

/-- `count(key)` over groups: the keys that are not null. -/
theorem countSome_groupRows [DecidableEq β] {key : α → Option β} {rows : List α} {s : Finset β}
    (hs : ∀ k, (∃ row ∈ rows, key row = some k) ↔ k ∈ s) :
    countSome ((groupRows key rows).map (·.1)) = s.card := by
  have hkeys : (groupRows key rows).map (·.1) = (rows.map key).dedup := by
    unfold groupRows
    rw [List.map_map]
    exact List.map_id _
  unfold countSome
  rw [hkeys]
  refine length_eq_card (nodup_reduceOption (List.nodup_dedup _)) fun k => ?_
  rw [List.reduceOption_mem_iff, List.mem_dedup, List.mem_map, hs]

/-- `OPTIONAL MATCH .. WITH f(row), count(row)`. -/
def groupCounts [DecidableEq β] (E : Enumeration) (f : α → β) (rows : Finset α) :
    List (Option β × ℕ) :=
  (groupRows (Option.map f) (optionalMatch (E.list rows))).map fun group =>
    (group.1, countSome group.2)

theorem mem_groupCounts [DecidableEq β] {E : Enumeration} {f : α → β} {rows : Finset α} {k : β}
    {n : ℕ} : (some k, n) ∈ groupCounts E f rows ↔
      (∃ x ∈ rows, f x = k) ∧ n = (rows.filter (f · = k)).card := by
  have hcount : countSome ((optionalMatch (E.list rows)).filter (Option.map f · = some k)) =
      (rows.filter (f · = k)).card := by
    refine length_eq_card (nodup_reduceOption (List.Nodup.filter _ ?_)) fun x => ?_
    · unfold optionalMatch
      split_ifs
      · exact List.nodup_singleton _
      · exact (E.nodup rows).map (Option.some_injective _)
    · rw [List.reduceOption_mem_iff, List.mem_filter, mem_optionalMatch, E.mem_list,
        Finset.mem_filter]
      simp
  simp only [groupCounts, List.mem_map, Prod.mk.injEq]
  constructor
  · rintro ⟨group, hg, hk, rfl⟩
    obtain ⟨⟨row, hrow, hkey⟩, hmembers⟩ := mem_groupRows.mp hg
    rw [hk] at hkey hmembers
    obtain ⟨x, rfl, rfl⟩ := Option.map_eq_some_iff.mp hkey
    exact ⟨⟨x, E.mem_list.mp (mem_optionalMatch.mp hrow), rfl⟩, by rw [hmembers, hcount]⟩
  · rintro ⟨⟨x, hx, rfl⟩, rfl⟩
    refine ⟨(some (f x), _), mem_groupRows.mpr ⟨?_, rfl⟩, rfl, hcount⟩
    exact ⟨some x, mem_optionalMatch.mpr (E.mem_list.mpr hx), rfl⟩

/-- `count(CASE WHEN p THEN 1 END)` over the groups: the keys that satisfy `p`. -/
theorem countSome_groupCounts [DecidableEq β] (E : Enumeration) (f : α → β) (rows : Finset α)
    (p : β → Bool) :
    countSome ((groupCounts E f rows).map fun group => if group.1.any p then some 1 else none) =
      ((rows.image f).filter fun k => p k = true).card := by
  have hcase : ∀ xs : List (Option β × List (Option α)),
      ((xs.map fun group => (group.1, countSome group.2)).map
        fun group => if group.1.any p then some 1 else none).reduceOption.length =
        (xs.filter fun group => group.1.any p).length := by
    intro xs
    induction xs with
    | nil => rfl
    | cons x xs ih =>
      rw [List.map_cons, List.map_cons, List.filter_cons]
      split_ifs
      · rw [List.reduceOption_cons_of_some, List.length_cons, List.length_cons, ih]
      · rw [List.reduceOption_cons_of_none, ih]
  have hcard : (((rows.image f).filter fun k => p k = true).image some).card =
      ((rows.image f).filter fun k => p k = true).card :=
    Finset.card_image_of_injective _ (Option.some_injective _)
  rw [← hcard]
  refine (hcase _).trans (length_filter_groupRows fun k => ?_)
  simp only [Option.any_eq_true, Finset.mem_image, Finset.mem_filter]
  constructor
  · rintro ⟨⟨row, hrow, rfl⟩, k, hk, hp⟩
    obtain ⟨x, rfl, rfl⟩ := Option.map_eq_some_iff.mp hk
    exact ⟨f x, ⟨⟨x, E.mem_list.mp (mem_optionalMatch.mp hrow), rfl⟩, hp⟩, rfl⟩
  · rintro ⟨_, ⟨⟨x, hx, rfl⟩, hp⟩, rfl⟩
    exact ⟨⟨some x, mem_optionalMatch.mpr (E.mem_list.mpr hx), rfl⟩, f x, rfl, hp⟩

/-- `head(collect(f(row)))` over ordered rows: the least of the rows with a value. -/
theorem head?_collect_sorted {r : α → α → Prop} {f : α → Option β} {rows : List α}
    (h : rows.Pairwise r) {y : β} (hy : (rows.map f).reduceOption.head? = some y) :
    ∃ x ∈ rows, f x = some y ∧ ∀ z ∈ rows, (f z).isSome → z = x ∨ r x z := by
  induction rows with
  | nil => cases hy
  | cons x rows ih =>
    obtain ⟨hx, hrows⟩ := List.pairwise_cons.mp h
    rw [List.map_cons] at hy
    cases hfx : f x with
    | some y' =>
      rw [hfx, List.reduceOption_cons_of_some, List.head?_cons] at hy
      obtain rfl := Option.some.inj hy
      refine ⟨x, List.mem_cons_self .., hfx, fun z hz _ => ?_⟩
      exact (List.mem_cons.mp hz).imp_right (hx z)
    | none =>
      rw [hfx, List.reduceOption_cons_of_none] at hy
      obtain ⟨w, hw, hfw, hleast⟩ := ih hrows hy
      refine ⟨w, List.mem_cons_of_mem _ hw, hfw, fun z hz hsome => ?_⟩
      rcases List.mem_cons.mp hz with rfl | hz
      · rw [hfx] at hsome
        cases hsome
      · exact hleast z hz hsome

theorem head?_collect_eq_none {f : α → Option β} {rows : List α} :
    (rows.map f).reduceOption.head? = none ↔ ∀ x ∈ rows, f x = none := by
  rw [List.head?_eq_none_iff, List.reduceOption, List.filterMap_eq_nil_iff]
  simp

end Aggregation
