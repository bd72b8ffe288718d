import Graphinator.MaintenancePaging
import Graphinator.Updates
import Mathlib.Data.String.Basic

/-!
# The credit counts of persons

`build_credit_count_page_cypher`: one statement recomputes the credit counts of a page of persons.
It groups the credits of a person by release, and collects the categories of each release, so that
a release counts once in the total and once in each of its categories.

The categories are those of the `common` package.

## Main definitions

* `keyTexts` : the keys a sweep pages over.
* `creditCounts`, `creditCountPage`.
* `creditedReleases` : what the counts are meant to count.

## Main results

* `creditCounts_eq` : the counts are numbers of distinct releases, in any order of the store.
* `credit_counts_exact` : what the page statement leaves, and that a rerun writes nothing.
-/

namespace Graphinator

open PropertyGraph

/-- The key of a node of a label, where it is a text. A comparison with the cursor is null for any
other key. -/
def textKey? (nodeLabel : Label) (v : Node) : Option String :=
  match v.key with
  | .str s => if v.label = nodeLabel then some s else none
  | _ => none

theorem textKey?_eq_some {nodeLabel : Label} {v : Node} {s : String} :
    textKey? nodeLabel v = some s ↔ v = ⟨nodeLabel, .str s⟩ := by
  obtain ⟨l, key⟩ := v
  cases key with
  | str t =>
    simp only [textKey?, Option.ite_none_right_eq_some, Option.some.injEq, Node.mk.injEq,
      PyValue.str.injEq]
  | _ => simp [textKey?]

/-- The keys a sweep over the nodes of a label goes through. -/
def keyTexts (g : Graph) (nodeLabel : Label) : Finset String :=
  g.nodes.keys.filterMap (textKey? nodeLabel) fun v w s hv hw => by
    rw [Option.mem_def, textKey?_eq_some] at hv hw
    rw [hv, hw]

theorem mem_keyTexts {g : Graph} {nodeLabel : Label} {s : String} :
    s ∈ keyTexts g nodeLabel ↔ (⟨nodeLabel, .str s⟩ : Node) ∈ g.nodes := by
  simp only [keyTexts, Finset.mem_filterMap, textKey?_eq_some]
  constructor
  · rintro ⟨v, hv, rfl⟩
    exact hv
  · exact fun h => ⟨_, h, rfl⟩

/-- Graphs with the same nodes have the same pages. -/
theorem keyTexts_congr {g g' : Graph} (h : ∀ v, v ∈ g'.nodes ↔ v ∈ g.nodes) (nodeLabel : Label) :
    keyTexts g' nodeLabel = keyTexts g nodeLabel := by
  ext s
  rw [mem_keyTexts, mem_keyTexts, h]

/-! ### The statement -/

/-- A CREDITED_ON, whatever its role. -/
def Rel.isCreditedOn : Rel → Bool
  | .CREDITED_ON _ => true
  | _ => false

/-- `(p)-[c:CREDITED_ON]->(r:Release)`. -/
def creditEdges (g : Graph) (p : Node) : Finset (Edge Node Rel) :=
  g.edges.keys.filter fun e =>
    e.arc.src = p ∧ e.arc.kind.isCreditedOn = true ∧ e.arc.dst.label = .release

/-- `collect(DISTINCT c.category)`. -/
def categoriesOf (g : Graph) (rows : List (Option (Edge Node Rel))) : List PyValue :=
  ((rows.reduceOption.map fun e => g.edges.row e "category").filter (· ≠ .null)).dedup

/-- `credit_count_property`. -/
def creditCountProperty (category : String) : String := "credit_count_" ++ category

/-- `WITH p, r, collect(DISTINCT c.category) AS categories`. -/
def creditGroups (E : Enumeration) (g : Graph) (p : Node) : List (Option Node × List PyValue) :=
  (groupRows (Option.map (·.arc.dst)) (optionalMatch (E.list (creditEdges g p)))).map
    fun group => (group.1, categoriesOf g group.2)

/-- `sum(CASE WHEN category IN categories THEN 1 ELSE 0 END)`. -/
def sumCategory (groups : List (Option Node × List PyValue)) (category : String) : ℕ :=
  (groups.map fun group => if .str category ∈ group.2 then 1 else 0).sum

/-- The properties the statement writes for one person, total first. -/
def creditCounts (E : Enumeration) (allCategories : List String) (g : Graph) (p : Node) :
    List (String × PyValue) :=
  ("credit_count", .int (countSome ((creditGroups E g p).map (·.1)))) ::
    allCategories.map fun category =>
      (creditCountProperty category, .int (sumCategory (creditGroups E g p) category))

/-- The statement for one person. -/
def setCreditCounts (E : Enumeration) (allCategories : List String) (p : Node) : Statement :=
  fun g => seqAll (fun kv => guardedSet p kv.1 kv.2) (creditCounts E allCategories g p) g

/-- `build_credit_count_page_cypher`. -/
def creditCountPage (E : Enumeration) (allCategories : List String) (cursor : String) (size : ℕ) :
    Statement := fun g =>
  seqAll (fun name => setCreditCounts E allCategories (.person (.str name)))
    (firstPage (keyTexts g .person) cursor size) g

/-! ### The counts -/

/-- The releases a person is credited on. -/
def creditedReleases (g : Graph) (p : Node) : Finset Node :=
  (creditEdges g p).image (·.arc.dst)

/-- The releases a person is credited on in a category. -/
def creditedIn (g : Graph) (p : Node) (category : String) : Finset Node :=
  ((creditEdges g p).filter fun e => g.edges.row e "category" = .str category).image (·.arc.dst)

theorem creditedIn_subset (g : Graph) (p : Node) (category : String) :
    creditedIn g p category ⊆ creditedReleases g p :=
  Finset.image_subset_image (Finset.filter_subset ..)

theorem mem_categoriesOf {g : Graph} {rows : List (Option (Edge Node Rel))} {category : String} :
    .str category ∈ categoriesOf g rows ↔
      ∃ e, some e ∈ rows ∧ g.edges.row e "category" = .str category := by
  simp only [categoriesOf, List.mem_dedup, List.mem_filter, List.mem_map,
    List.reduceOption_mem_iff]
  constructor
  · rintro ⟨⟨e, he, hc⟩, -⟩
    exact ⟨e, he, hc⟩
  · rintro ⟨e, he, hc⟩
    exact ⟨⟨e, he, hc⟩, by simp⟩

theorem countSome_creditGroups (E : Enumeration) (g : Graph) (p : Node) :
    countSome ((creditGroups E g p).map (·.1)) = (creditedReleases g p).card := by
  unfold creditGroups
  rw [List.map_map]
  refine countSome_groupRows fun r => ?_
  rw [creditedReleases, Finset.mem_image]
  constructor
  · rintro ⟨row, hrow, hr⟩
    obtain ⟨e, rfl, rfl⟩ := Option.map_eq_some_iff.mp hr
    exact ⟨e, E.mem_list.mp (mem_optionalMatch.mp hrow), rfl⟩
  · rintro ⟨e, he, rfl⟩
    exact ⟨some e, mem_optionalMatch.mpr (E.mem_list.mpr he), rfl⟩

theorem sumCategory_creditGroups (E : Enumeration) (g : Graph) (p : Node) (category : String) :
    sumCategory (creditGroups E g p) category = (creditedIn g p category).card := by
  have hsum := sum_indicator (fun group => decide (.str category ∈ categoriesOf g group.2))
    (groupRows (Option.map (·.arc.dst)) (optionalMatch (E.list (creditEdges g p))))
  have hcard : ((creditedIn g p category).image some).card = (creditedIn g p category).card :=
    Finset.card_image_of_injective _ (Option.some_injective _)
  unfold sumCategory creditGroups
  rw [List.map_map, ← hcard]
  simp only [decide_eq_true_eq] at hsum
  refine hsum.trans (length_filter_groupRows fun k => ?_)
  simp only [decide_eq_true_eq, mem_categoriesOf, List.mem_filter, mem_optionalMatch,
    Enumeration.mem_list, creditedIn, Finset.mem_image, Finset.mem_filter]
  constructor
  · rintro ⟨-, e, ⟨he, hk⟩, hc⟩
    exact ⟨_, ⟨e, ⟨he, hc⟩, rfl⟩, hk⟩
  · rintro ⟨_, ⟨e, ⟨he, hc⟩, rfl⟩, rfl⟩
    exact ⟨⟨some e, mem_optionalMatch.mpr (E.mem_list.mpr he), rfl⟩, e, ⟨he, rfl⟩, hc⟩

/-- **The counts do not depend on the order of the store**: they are the distinct releases, in all
and in each category. -/
theorem creditCounts_eq (E : Enumeration) (allCategories : List String) (g : Graph) (p : Node) :
    creditCounts E allCategories g p =
      ("credit_count", .int (creditedReleases g p).card) :: allCategories.map fun category =>
        (creditCountProperty category, .int (creditedIn g p category).card) := by
  simp only [creditCounts, countSome_creditGroups, sumCategory_creditGroups]

/-- The counts are a function of the edges. -/
theorem creditCounts_congr (E E' : Enumeration) {allCategories : List String} {g g' : Graph}
    (h : g'.edges = g.edges) (p : Node) :
    creditCounts E allCategories g' p = creditCounts E' allCategories g p := by
  simp only [creditCounts_eq, creditedReleases, creditedIn, creditEdges, h]

/-! ### What the statement leaves -/

section Page

variable (E : Enumeration) (allCategories : List String) {g : Graph} {p : Node}

theorem creditCounts_ne_null : ∀ kv ∈ creditCounts E allCategories g p, kv.2 ≠ .null := by
  simp only [creditCounts, List.mem_cons, List.mem_map]
  rintro kv (rfl | ⟨category, -, rfl⟩) <;> exact nofun

/-- Each property is written with one value. -/
theorem creditCounts_functional : ∀ kv ∈ creditCounts E allCategories g p,
    ∀ kv' ∈ creditCounts E allCategories g p, kv.1 = kv'.1 → kv = kv' := by
  have htotal : ∀ category, creditCountProperty category ≠ "credit_count" := by
    intro category h
    have hlength := congrArg String.length h
    have h₁ : "credit_count_".length = 13 := rfl
    have h₂ : "credit_count".length = 12 := rfl
    rw [creditCountProperty, String.length_append] at hlength
    omega
  simp only [creditCounts, List.mem_cons, List.mem_map]
  rintro kv (rfl | ⟨category, -, rfl⟩) kv' (rfl | ⟨category', -, rfl⟩) h
  · rfl
  · exact absurd h.symm (htotal category')
  · exact absurd h (htotal category)
  · have hc : category = category' := by simpa [creditCountProperty] using h
    rw [hc]

/-- What the statement leaves for one person. -/
theorem setCreditCounts_spec (hp : p ∈ g.nodes) :
    OnlyProps p Set.univ g (setCreditCounts E allCategories p g).1 ∧
      ∀ kv ∈ creditCounts E allCategories g p,
        Settled (setCreditCounts E allCategories p g).1 p kv := by
  obtain ⟨honly, hsettled⟩ := seqAll_guardedSet _ hp (creditCounts_ne_null E allCategories)
    (creditCounts_functional E allCategories)
  exact ⟨honly.mono (Set.subset_univ _), hsettled⟩

/-- A person has its counts. -/
def Counted (g : Graph) (name : String) : Prop :=
  ∀ kv ∈ creditCounts E allCategories g (.person (.str name)), Settled g (.person (.str name)) kv

/-- What the statements of a page leave. -/
theorem counted_page {names : List String}
    (hnames : ∀ name ∈ names, (.person (.str name) : Node) ∈ g.nodes) :
    let g' := (seqAll (fun name => setCreditCounts E allCategories (.person (.str name))) names g).1
    g'.edges = g.edges ∧ (∀ v, v ∈ g'.nodes ↔ v ∈ g.nodes) ∧
      ∀ name ∈ names, Counted E allCategories g' name := by
  intro g'
  suffices h : (g'.edges = g.edges ∧ ∀ v, v ∈ g'.nodes ↔ v ∈ g.nodes) ∧
      ∀ name ∈ names, ∀ other ∈ ({name} : Set String), Counted E allCategories g' other from
    ⟨h.1.1, h.1.2, fun name hname => h.2 name hname name rfl⟩
  refine seqAll_cover (I := fun t => t.edges = g.edges ∧ ∀ v, v ∈ t.nodes ↔ v ∈ g.nodes)
    (fun name hname t ht => ?_) ⟨rfl, fun _ => Iff.rfl⟩
  obtain ⟨honly, hsettled⟩ := setCreditCounts_spec E allCategories ((ht.2 _).mpr (hnames name hname))
  refine ⟨⟨honly.edges.trans ht.1, fun v => (honly.mem_nodes v).trans (ht.2 v)⟩, ?_,
    fun other hne hother kv hkv => ?_⟩
  · rintro _ rfl kv hkv
    rw [creditCounts_congr E E honly.edges] at hkv
    exact hsettled kv hkv
  · rw [creditCounts_congr E E honly.edges] at hkv
    exact (hother kv hkv).of_row_eq (honly.other _ (by simpa using hne))

end Page

/-- **The credit counts of a page are exact.** Whatever the graph held before and in whatever order
the store returns it: every property of a person on the page is present, the total is the number of
distinct releases the person is credited on, and the count of a category the number of distinct
releases with a credit of that category, at most the total; and the statement sets nothing when it
runs again. Numbers are equal as Cypher compares them. -/
theorem credit_counts_exact (E : Enumeration) (allCategories : List String) (g : Graph)
    {cursor : String} {size : ℕ} {name : String}
    (hname : name ∈ firstPage (keyTexts g .person) cursor size) :
    let p : Node := .person (.str name)
    let g' := (creditCountPage E allCategories cursor size g).1
    (prop g' p "credit_count" ≠ .null ∧
      cypherNumber (prop g' p "credit_count") = .int (creditedReleases g p).card) ∧
    (∀ category ∈ allCategories,
      prop g' p (creditCountProperty category) ≠ .null ∧
      cypherNumber (prop g' p (creditCountProperty category)) =
        .int (creditedIn g p category).card ∧
      (creditedIn g p category).card ≤ (creditedReleases g p).card) ∧
    ∀ E', creditCountPage E' allCategories cursor size g' = (g', []) := by
  intro p g'
  have hpage : ∀ name ∈ firstPage (keyTexts g .person) cursor size,
      (.person (.str name) : Node) ∈ g.nodes :=
    fun name hname => mem_keyTexts.mp (mem_of_mem_firstPage hname)
  obtain ⟨hedges, hnodes, hcounted⟩ := counted_page E allCategories hpage
  have hvalue : ∀ kv ∈ creditCounts E allCategories g p, Settled g' p kv := fun kv hkv =>
    hcounted name hname kv (by rwa [creditCounts_congr E E hedges])
  rw [creditCounts_eq] at hvalue
  refine ⟨hvalue _ (List.mem_cons_self ..), fun category hc => ?_, fun E' => ?_⟩
  · obtain ⟨hnull, hval⟩ := hvalue _
      (List.mem_cons_of_mem _ (List.mem_map.mpr ⟨category, hc, rfl⟩))
    exact ⟨hnull, hval, Finset.card_le_card (creditedIn_subset g p category)⟩
  · have hkeys : keyTexts g' .person = keyTexts g .person := keyTexts_congr hnodes _
    unfold creditCountPage
    rw [hkeys]
    refine seqAll_eq_of_forall fun other hother => ?_
    refine seqAll_guardedSet_eq fun kv hkv => hcounted other hother kv ?_
    rwa [creditCounts_congr E E' rfl]

/-- A person with two roles on one release. -/
def twoRoles : Graph :=
  let role (name category : String) : Graph → Graph :=
    mergeEdge ⟨.CREDITED_ON (.str name), .person (.str "Ann"), .release (.str "1")⟩
      (setProps [("category", .str category)])
  (∅ : Graph) |> role "Producer" "production" |> role "Mixed By" "engineering"

/-- The release counts once in the total and once in each category. -/
theorem credit_counts_exact_two_roles :
    let E : Enumeration := default
    let g' := (creditCountPage E ["production", "session"] "" 10 twoRoles).1
    cypherNumber (prop g' (.person (.str "Ann")) "credit_count") = .int 1 ∧
      cypherNumber (prop g' (.person (.str "Ann")) "credit_count_production") = .int 1 ∧
      cypherNumber (prop g' (.person (.str "Ann")) "credit_count_session") = .int 0 := by
  intro E g'
  have hname : "Ann" ∈ firstPage (keyTexts twoRoles .person) "" 10 := by
    rw [mem_firstPage (by decide), mem_keyTexts]
    exact ⟨by decide, by decide⟩
  obtain ⟨⟨-, htotal⟩, hcategory, -⟩ :=
    credit_counts_exact E ["production", "session"] twoRoles hname
  have hproduction := (hcategory "production" (by decide)).2.1
  have hsession := (hcategory "session" (by decide)).2.1
  have h₁ : (creditedReleases twoRoles (.person (.str "Ann"))).card = 1 := by decide
  have h₂ : (creditedIn twoRoles (.person (.str "Ann")) "production").card = 1 := by decide
  have h₃ : (creditedIn twoRoles (.person (.str "Ann")) "session").card = 0 := by decide
  rw [h₁] at htotal
  rw [h₂] at hproduction
  rw [h₃] at hsession
  exact ⟨htotal, hproduction, hsession⟩

end Graphinator
