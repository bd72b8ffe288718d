import Graphinator.CreditCounts
import Graphinator.ReleaseExpansion
import Mathlib.Data.Prod.Lex
import Mathlib.Order.OrderDual

/-!
# The statistics of artists

`build_artist_stats_page_cypher`: one statement writes the release count, the label count and the
primary genre of a page of artists. Labels and genres are counted in one expansion of the releases
of an artist and ordered by their counts; the primary genre is the first genre in that order.

## Main definitions

* `orderKey` : `ORDER BY` of values.
* `artistReleaseCount`, `artistLabelCount`, `primaryGenre`, `artistStatsPage`.
* `PrimaryGenre` : what the primary genre is meant to be.

## Main results

* `primaryGenre_spec` : the first genre in the order is the primary genre, in any order of the
  store.
* `artist_stats_exact` : what the page statement leaves, and that a rerun writes nothing.
-/

namespace Graphinator

open PropertyGraph

/-! ### The order of values -/

/-- Values as `ORDER BY` compares them: lists, texts, booleans, numbers, null. Lists are not told
apart. -/
def orderKey : PyValue → ℕ ×ₗ (String ×ₗ ℚ)
  | .obj _ | .arr _ => toLex (0, toLex ("", 0))
  | .str s => toLex (1, toLex (s, 0))
  | .bool b => toLex (2, toLex ("", if b then 1 else 0))
  | .int n => toLex (3, toLex ("", n))
  | .float q => toLex (3, toLex ("", q))
  | .null => toLex (4, toLex ("", 0))

theorem orderKey_str_le {s t : String} : orderKey (.str s) ≤ orderKey (.str t) ↔ s ≤ t := by
  simp only [orderKey, Prod.Lex.toLex_le_toLex, lt_self_iff_false, false_or, true_and, le_refl,
    and_true]
  exact ⟨fun h => h.elim le_of_lt Eq.le, fun h => h.lt_or_eq⟩

/-! ### The statement -/

/-- `CASE WHEN t:Genre THEN t.name END`. -/
def genreName? (group : Option Node × ℕ) : Option PyValue :=
  group.1.bind fun t => if t.label = .genre then some t.key else none

/-- `OPTIONAL MATCH (a)<-[:BY]-(r:Release)-[:ON|IS]->(t) WHERE t:Label OR t:Genre
WITH t, count(r) AS n`. -/
def artistTargets (E : Enumeration) (g : Graph) (a : Node) : List (Option Node × ℕ) :=
  groupCounts E (·.2.arc.dst) (expansion g a .BY [.ON, .IS] [.label, .genre])

/-- `n DESC, CASE WHEN t:Genre THEN t.name END`. -/
def groupOrder (group : Option Node × ℕ) : ℕᵒᵈ ×ₗ (ℕ ×ₗ (String ×ₗ ℚ)) :=
  toLex (OrderDual.toDual group.2, orderKey ((genreName? group).getD .null))

/-- `rc`. -/
def artistReleaseCount (E : Enumeration) (g : Graph) (a : Node) : ℕ :=
  countDistinct ((optionalMatch (E.list (releaseEdges g a .BY))).map (Option.map (·.arc.src)))

/-- `lc`. -/
def artistLabelCount (E : Enumeration) (g : Graph) (a : Node) : ℕ :=
  countSome ((artistTargets E g a).map fun group =>
    if group.1.any (·.label = .label) then some 1 else none)

/-- `pg`. -/
def primaryGenre (E : Enumeration) (g : Graph) (a : Node) : PyValue :=
  let ordered := (artistTargets E g a).mergeSort fun x y => groupOrder x ≤ groupOrder y
  (ordered.map genreName?).reduceOption.head?.getD .null

/-- `coalesce(value, '')`. -/
def orEmpty (value : PyValue) : PyValue := if value = .null then .str "" else value

/-- `FOREACH (_ IN CASE WHEN coalesce(a.primary_genre, '') <> coalesce(pg, '') THEN [1] ELSE [] END |
SET a.primary_genre = pg)`. -/
def setPrimaryGenre (a : Node) (pg : PyValue) : Statement := emit fun g =>
  if cypherNumber (orEmpty (prop g a "primary_genre")) ≠ cypherNumber (orEmpty pg) then
    [.setNode a "primary_genre" pg]
  else []

/-- The statement for one artist. -/
def setArtistStats (E : Enumeration) (a : Node) : Statement := fun g =>
  seqAll (fun clause => clause)
    [guardedSet a "release_count" (.int (artistReleaseCount E g a)),
     guardedSet a "label_count" (.int (artistLabelCount E g a)),
     setPrimaryGenre a (primaryGenre E g a)] g

/-- `build_artist_stats_page_cypher`. -/
def artistStatsPage (E : Enumeration) (cursor : String) (size : ℕ) : Statement := fun g =>
  seqAll (fun id => setArtistStats E (.artist (.str id)))
    (firstPage (keyTexts g .artist) cursor size) g

/-! ### What it computes -/

/-- The name of the genre on the most releases of an artist, the first in the alphabet on a tie;
null exactly when the releases have no genre. -/
def PrimaryGenre (g : Graph) (a : Node) (value : PyValue) : Prop :=
  (value = .null ∧ ∀ t : Node, t.label = .genre → releasesTo g a .BY .IS t = ∅) ∨
  ∃ name : String, value = .str name ∧
    (releasesTo g a .BY .IS (.genre (.str name))).Nonempty ∧
    ∀ other : String,
      (releasesTo g a .BY .IS (.genre (.str other))).card <
        (releasesTo g a .BY .IS (.genre (.str name))).card ∨
      (releasesTo g a .BY .IS (.genre (.str other))).card =
        (releasesTo g a .BY .IS (.genre (.str name))).card ∧ name ≤ other

section Values

variable {E : Enumeration} {g : Graph} {a : Node}

theorem artistReleaseCount_eq (E : Enumeration) (g : Graph) (a : Node) :
    artistReleaseCount E g a = (releasesOf g a .BY).card := countDistinct_releases E g a .BY

theorem artistLabelCount_eq (E : Enumeration) (hs : ReleaseSchema g) (a : Node) :
    artistLabelCount E g a = (targetsOf g a .BY .ON .label).card := by
  have hcount := countSome_groupCounts E (fun x : Edge Node Rel × Edge Node Rel => x.2.arc.dst)
    (expansion g a .BY [.ON, .IS] [.label, .genre]) fun t : Node => decide (t.label = .label)
  exact hcount.trans (congrArg Finset.card
    (image_expansion hs (by decide) (by decide) (List.mem_cons_self ..)))

/-- The groups of genres, each with the number of its releases. -/
theorem mem_artistTargets_genre (hone : OneEdge g) (hs : ReleaseSchema g) {t : Node}
    (ht : t.label = .genre) {n : ℕ} : (some t, n) ∈ artistTargets E g a ↔
      (releasesTo g a .BY .IS t).Nonempty ∧ n = (releasesTo g a .BY .IS t).card := by
  have hmem : t.label ∈ [Label.label, .genre] := by simp [ht]
  have hrel : schemaRel t.label = .IS := by rw [ht]; rfl
  have hiff : ∀ r, (∃ x ∈ expansion g a .BY [.ON, .IS] [.label, .genre],
      x.2.arc.dst = t ∧ x.1.arc.src = r) ↔ r ∈ releasesTo g a .BY (schemaRel t.label) t := fun r =>
    mem_expansion_iff hs (by decide) (by decide) hmem
  have hcard : ((expansion g a .BY [.ON, .IS] [.label, .genre]).filter
      fun x => x.2.arc.dst = t).card = (releasesTo g a .BY (schemaRel t.label) t).card :=
    card_expansion_filter hone hs (by decide) (by decide) (by decide) hmem
  rw [hrel] at hcard
  simp only [hrel] at hiff
  rw [artistTargets, mem_groupCounts, hcard]
  refine and_congr_left fun _ => ?_
  constructor
  · rintro ⟨x, hx, hdst⟩
    exact ⟨_, (hiff _).mp ⟨x, hx, hdst, rfl⟩⟩
  · rintro ⟨r, hr⟩
    obtain ⟨x, hx, hdst, -⟩ := (hiff r).mpr hr
    exact ⟨x, hx, hdst⟩

theorem genreName?_eq_some {group : Option Node × ℕ} {name : PyValue} :
    genreName? group = some name ↔ group.1 = some (.genre name) := by
  obtain ⟨t, n⟩ := group
  simp only [genreName?, Option.bind_eq_some_iff, Option.ite_none_right_eq_some,
    Option.some.injEq]
  constructor
  · rintro ⟨t', rfl, hl, rfl⟩
    exact congrArg some (Node.mk.injEq .. ▸ ⟨hl, rfl⟩)
  · rintro rfl
    exact ⟨_, rfl, rfl, rfl⟩

/-- **The head of the ordered groups is the primary genre**, however the store orders the rows. -/
theorem primaryGenre_spec (E : Enumeration) (hone : OneEdge g) (hs : ReleaseSchema g)
    (hnames : ∀ name, (.genre name : Node) ∈ g.nodes → ∃ s : String, name = .str s) (a : Node) :
    PrimaryGenre g a (primaryGenre E g a) := by
  have hsorted : ((artistTargets E g a).mergeSort fun x y => groupOrder x ≤ groupOrder y).Pairwise
      fun x y => groupOrder x ≤ groupOrder y := by
    refine (List.pairwise_mergeSort (fun x y z hxy hyz => ?_) (fun x y => ?_) _).imp
      of_decide_eq_true
    · exact decide_eq_true ((of_decide_eq_true hxy).trans (of_decide_eq_true hyz))
    · simpa using le_total (groupOrder x) (groupOrder y)
  have hgroup : ∀ t : Node, t.label = .genre → (releasesTo g a .BY .IS t).Nonempty →
      (some t, (releasesTo g a .BY .IS t).card) ∈ artistTargets E g a := fun t ht hne =>
    (mem_artistTargets_genre hone hs ht).mpr ⟨hne, rfl⟩
  unfold primaryGenre
  cases hhead : ((((artistTargets E g a).mergeSort fun x y => groupOrder x ≤ groupOrder y).map
      genreName?).reduceOption).head? with
  | none =>
    refine Or.inl ⟨by simp only [hhead, Option.getD_none], fun t ht => ?_⟩
    by_contra hne
    have hmem := hgroup t ht (Finset.nonempty_iff_ne_empty.mpr hne)
    have hnone := head?_collect_eq_none.mp hhead _ (List.mem_mergeSort.mpr hmem)
    simp [genreName?, ht] at hnone
  | some name =>
    obtain ⟨⟨t, n⟩, hx, hname, hleast⟩ := head?_collect_sorted hsorted hhead
    obtain rfl : t = some (.genre name) := genreName?_eq_some.mp hname
    obtain ⟨hne, rfl⟩ := (mem_artistTargets_genre hone hs rfl).mp (List.mem_mergeSort.mp hx)
    obtain ⟨s, rfl⟩ : ∃ s : String, name = .str s := by
      obtain ⟨r, hr⟩ := hne
      exact hnames name ((Finset.mem_filter.mp hr).2.dst_mem)
    refine Or.inr ⟨s, by simp only [hhead, Option.getD_some], hne, fun other => ?_⟩
    rcases (releasesTo g a .BY .IS (.genre (.str other))).eq_empty_or_nonempty with hempty | hother
    · left
      rw [hempty, Finset.card_empty]
      exact hne.card_pos
    · have hmem : (some (.genre (.str other)), _) ∈ (artistTargets E g a).mergeSort
          fun x y => groupOrder x ≤ groupOrder y := List.mem_mergeSort.mpr (hgroup _ rfl hother)
      rcases hleast _ hmem rfl with heq | hle
      · simp only [Prod.mk.injEq, Option.some.injEq, Node.mk.injEq, PyValue.str.injEq, true_and]
          at heq
        rw [heq.1]
        exact Or.inr ⟨rfl, le_rfl⟩
      · simp only [groupOrder, Prod.Lex.toLex_le_toLex, OrderDual.toDual_lt_toDual,
          OrderDual.toDual_inj] at hle
        rcases hle with hlt | ⟨heq, hle⟩
        · exact Or.inl hlt
        · exact Or.inr ⟨heq.symm, orderKey_str_le.mp hle⟩

end Values

/-! ### What the statement leaves -/

/-- The properties of an artist that a rerun of the statement leaves alone. -/
structure ArtistSettled (E : Enumeration) (g : Graph) (a : Node) : Prop where
  release_count : Settled g a ("release_count", .int (artistReleaseCount E g a))
  label_count : Settled g a ("label_count", .int (artistLabelCount E g a))
  primary_genre : cypherNumber (orEmpty (prop g a "primary_genre")) =
    cypherNumber (orEmpty (primaryGenre E g a))

section Statement

variable {E : Enumeration} {g g' : Graph} {a : Node}

theorem artistTargets_congr (h : g'.edges = g.edges) (a : Node) :
    artistTargets E g' a = artistTargets E g a := by
  rw [artistTargets, artistTargets, expansion_congr h]

theorem artistReleaseCount_congr (h : g'.edges = g.edges) (a : Node) :
    artistReleaseCount E g' a = artistReleaseCount E g a := by
  simp only [artistReleaseCount, releaseEdges, h]

theorem artistLabelCount_congr (h : g'.edges = g.edges) (a : Node) :
    artistLabelCount E g' a = artistLabelCount E g a := by
  simp only [artistLabelCount, artistTargets_congr h]

theorem primaryGenre_congr (h : g'.edges = g.edges) (a : Node) :
    primaryGenre E g' a = primaryGenre E g a := by
  simp only [primaryGenre, artistTargets_congr h]

/-- The property the statement leaves for the primary genre. -/
theorem setPrimaryGenre_spec (hv : a ∈ g.nodes) (pg : PyValue) :
    OnlyProps a {"primary_genre"} g (setPrimaryGenre a pg g).1 ∧
      prop (setPrimaryGenre a pg g).1 a "primary_genre" =
        if cypherNumber (orEmpty (prop g a "primary_genre")) ≠ cypherNumber (orEmpty pg) then pg
        else prop g a "primary_genre" := by
  by_cases h : cypherNumber (orEmpty (prop g a "primary_genre")) ≠ cypherNumber (orEmpty pg)
  · have hgraph : (setPrimaryGenre a pg g).1 =
        (GraphUpdate.setNode a "primary_genre" pg).apply g := by
      simp only [setPrimaryGenre, emit, if_pos h, runAll_cons, runAll_nil]
    rw [hgraph, if_pos h, prop_setNode hv, if_pos rfl]
    exact ⟨onlyProps_setNode .., rfl⟩
  · have hgraph : (setPrimaryGenre a pg g).1 = g := by
      simp only [setPrimaryGenre, emit, if_neg h, runAll_nil]
    rw [hgraph, if_neg h]
    exact ⟨.refl .., rfl⟩

/-- What the statement leaves for one artist. -/
theorem setArtistStats_spec (hv : a ∈ g.nodes) :
    OnlyProps a Set.univ g (setArtistStats E a g).1 ∧ ArtistSettled E (setArtistStats E a g).1 a ∧
      prop (setArtistStats E a g).1 a "primary_genre" =
        if cypherNumber (orEmpty (prop g a "primary_genre")) ≠
          cypherNumber (orEmpty (primaryGenre E g a)) then primaryGenre E g a
        else prop g a "primary_genre" := by
  -- The states after the three clauses.
  obtain ⟨h₁, hrc⟩ := guardedSet_spec ("release_count", .int (artistReleaseCount E g a)) hv
    nofun
  have hv₁ := (h₁.mem_nodes a).mpr hv
  obtain ⟨h₂, hlc⟩ := guardedSet_spec ("label_count", .int (artistLabelCount E g a)) hv₁ nofun
  have hv₂ := (h₂.mem_nodes a).mpr hv₁
  obtain ⟨h₃, hpg⟩ := setPrimaryGenre_spec hv₂ (primaryGenre E g a)
  have hstored := (h₂.prop "primary_genre" (by simp)).trans (h₁.prop "primary_genre" (by simp))
  rw [hstored] at hpg
  have honly := ((h₁.mono (Set.subset_univ _)).trans (h₂.mono (Set.subset_univ _))).trans
    (h₃.mono (Set.subset_univ _))
  change OnlyProps a Set.univ g (setArtistStats E a g).1 at honly
  change prop (setArtistStats E a g).1 a "primary_genre" = _ at hpg
  refine ⟨honly, ⟨?_, ?_, ?_⟩, hpg⟩
  · rw [artistReleaseCount_congr honly.edges]
    have hsame := (h₃.prop "release_count" (by simp)).trans (h₂.prop "release_count" (by simp))
    exact ⟨fun h => hrc.1 (hsame.symm.trans h), (congrArg cypherNumber hsame).trans hrc.2⟩
  · rw [artistLabelCount_congr honly.edges]
    have hsame := h₃.prop "label_count" (by simp)
    exact ⟨fun h => hlc.1 (hsame.symm.trans h), (congrArg cypherNumber hsame).trans hlc.2⟩
  · rw [hpg, primaryGenre_congr honly.edges]
    split_ifs with h
    · rfl
    · exact not_not.mp h

theorem ArtistSettled.of_onlyProps (h : ArtistSettled E g a) {w : Node}
    (honly : OnlyProps w Set.univ g g') (hne : a ≠ w) : ArtistSettled E g' a where
  release_count := by
    rw [artistReleaseCount_congr honly.edges]
    exact h.release_count.of_row_eq (honly.other a hne)
  label_count := by
    rw [artistLabelCount_congr honly.edges]
    exact h.label_count.of_row_eq (honly.other a hne)
  primary_genre := by
    have hprop : prop g' a "primary_genre" = prop g a "primary_genre" :=
      congrFun (honly.other a hne) _
    rw [primaryGenre_congr honly.edges, hprop]
    exact h.primary_genre

/-- The statement does nothing where the properties are settled. -/
theorem setArtistStats_eq (h : ArtistSettled E g a) : setArtistStats E a g = (g, []) := by
  refine seqAll_eq_of_forall ?_
  simp only [List.forall_mem_cons]
  refine ⟨guardedSet_eq_of_settled ("release_count", _) h.release_count,
    guardedSet_eq_of_settled ("label_count", _) h.label_count, ?_, List.forall_mem_nil _⟩
  simp only [setPrimaryGenre, emit, if_neg (not_not.mpr h.primary_genre), runAll_nil]

/-- The primary genre is unique. -/
theorem PrimaryGenre.unique {x y : PyValue} (hx : PrimaryGenre g a x) (hy : PrimaryGenre g a y) :
    x = y := by
  rcases hx with ⟨rfl, hx⟩ | ⟨s, rfl, hs, hx⟩
  · rcases hy with ⟨rfl, -⟩ | ⟨t, rfl, ht, -⟩
    · rfl
    · exact absurd (hx _ rfl) ht.ne_empty
  · rcases hy with ⟨rfl, hy⟩ | ⟨t, rfl, ht, hy⟩
    · exact absurd (hy _ rfl) hs.ne_empty
    · rcases hx t with hlt | ⟨heq, hle⟩
      · rcases hy s with hlt' | ⟨heq', -⟩
        · exact absurd hlt hlt'.not_gt
        · exact absurd heq' hlt.ne'
      · rcases hy s with hlt' | ⟨-, hle'⟩
        · exact absurd heq hlt'.ne'
        · rw [le_antisymm hle hle']

/-- The statements of a page. -/
theorem artistSettled_page {ids : List String}
    (hids : ∀ id ∈ ids, (.artist (.str id) : Node) ∈ g.nodes) :
    let g' := (seqAll (fun id => setArtistStats E (.artist (.str id))) ids g).1
    g'.edges = g.edges ∧ (∀ v, v ∈ g'.nodes ↔ v ∈ g.nodes) ∧
      ∀ id ∈ ids, ArtistSettled E g' (.artist (.str id)) := by
  intro g'
  suffices h : (g'.edges = g.edges ∧ ∀ v, v ∈ g'.nodes ↔ v ∈ g.nodes) ∧
      ∀ id ∈ ids, ∀ other ∈ ({id} : Set String), ArtistSettled E g' (.artist (.str other)) from
    ⟨h.1.1, h.1.2, fun id hid => h.2 id hid id rfl⟩
  refine seqAll_cover (I := fun t => t.edges = g.edges ∧ ∀ v, v ∈ t.nodes ↔ v ∈ g.nodes)
    (Q := fun t id => ArtistSettled E t (.artist (.str id))) (fun id hid t ht => ?_)
    ⟨rfl, fun _ => Iff.rfl⟩
  obtain ⟨honly, hid, -⟩ := setArtistStats_spec (E := E) ((ht.2 _).mpr (hids id hid))
  refine ⟨⟨honly.edges.trans ht.1, fun v => (honly.mem_nodes v).trans (ht.2 v)⟩, ?_,
    fun other hne hother => hother.of_onlyProps honly (by simpa using hne)⟩
  rintro _ rfl
  exact hid

theorem eq_str_of_cypherNumber {value : PyValue} {s : String}
    (h : cypherNumber value = .str s) : value = .str s := by
  cases value with
  | float q =>
    simp only [cypherNumber] at h
    split_ifs at h
  | _ => exact h

/-- A stored genre that compares equal to the primary genre is the primary genre, unless it is the
empty text, which compares like no genre at all. -/
theorem eq_of_orEmpty {value pg : PyValue} (hvalue : value ≠ .str "")
    (hpg : pg = .null ∨ ∃ s : String, s ≠ "" ∧ pg = .str s)
    (h : cypherNumber (orEmpty value) = cypherNumber (orEmpty pg)) : value = pg := by
  rcases hpg with rfl | ⟨s, hs, rfl⟩
  · have hempty : orEmpty value = .str "" := eq_str_of_cypherNumber h
    unfold orEmpty at hempty
    split_ifs at hempty with hnull
    · exact hnull
    · exact absurd hempty hvalue
  · have htext : orEmpty value = .str s := eq_str_of_cypherNumber h
    unfold orEmpty at htext
    split_ifs at htext
    · exact absurd (PyValue.str.inj htext).symm hs
    · exact htext

end Statement

/-- The names of the genres are texts, and not empty. -/
def GenreNames (g : Graph) : Prop :=
  ∀ name, (.genre name : Node) ∈ g.nodes → ∃ s : String, s ≠ "" ∧ name = .str s

/-- A name of a genre: a text that is not empty. -/
def isName : PyValue → Bool
  | .str s => s ≠ ""
  | _ => false

instance (g : Graph) : Decidable (GenreNames g) :=
  decidable_of_iff (∀ v ∈ g.nodes.keys, v.label = .genre → isName v.key = true) <| by
    have hname : ∀ value, isName value = true ↔ ∃ s : String, s ≠ "" ∧ value = .str s := by
      intro value
      cases value <;> simp [isName]
    simp only [hname]
    constructor
    · exact fun h name hv => h _ hv rfl
    · rintro h ⟨_, name⟩ hv rfl
      exact h name hv

theorem primaryGenre_cases {E : Enumeration} {g : Graph} (hone : OneEdge g) (hs : ReleaseSchema g)
    (hnames : GenreNames g) (a : Node) :
    primaryGenre E g a = .null ∨ ∃ s : String, s ≠ "" ∧ primaryGenre E g a = .str s := by
  have hspec := primaryGenre_spec E hone hs (fun name h => (hnames name h).imp fun _ h => h.2) a
  rcases hspec with ⟨hnull, -⟩ | ⟨s, hstr, hne, -⟩
  · exact Or.inl hnull
  · obtain ⟨r, hr⟩ := hne
    obtain ⟨s', hs', heq⟩ := hnames _ (Finset.mem_filter.mp hr).2.dst_mem
    obtain rfl := PyValue.str.inj heq
    exact Or.inr ⟨s, hs', hstr⟩

/-- **The statistics of a page of artists are exact**, in whatever order the store returns nodes and
edges: the release count is the number of distinct releases, the label count the number of distinct
labels of these, and the primary genre is theirs unless the empty text was stored for it. The
statement writes nothing when it runs again. -/
theorem artist_stats_exact (E : Enumeration) {g : Graph} (hone : OneEdge g) (hs : ReleaseSchema g)
    (hnames : GenreNames g) {cursor : String} {size : ℕ} {id : String}
    (hid : id ∈ firstPage (keyTexts g .artist) cursor size)
    (hstored : prop g (.artist (.str id)) "primary_genre" ≠ .str "") :
    let a : Node := .artist (.str id)
    let g' := (artistStatsPage E cursor size g).1
    (prop g' a "release_count" ≠ .null ∧
      cypherNumber (prop g' a "release_count") = .int (releasesOf g a .BY).card) ∧
    (prop g' a "label_count" ≠ .null ∧
      cypherNumber (prop g' a "label_count") = .int (targetsOf g a .BY .ON .label).card) ∧
    PrimaryGenre g a (prop g' a "primary_genre") ∧
    ∀ E', artistStatsPage E' cursor size g' = (g', []) := by
  intro a g'
  have hnames' : ∀ name, (.genre name : Node) ∈ g.nodes → ∃ s : String, name = .str s :=
    fun name h => (hnames name h).imp fun _ h => h.2
  have hpage : ∀ id ∈ firstPage (keyTexts g .artist) cursor size,
      (.artist (.str id) : Node) ∈ g.nodes :=
    fun id hid => mem_keyTexts.mp (mem_of_mem_firstPage hid)
  obtain ⟨hedges, hnodes, hsettled⟩ := artistSettled_page (E := E) hpage
  change g'.edges = g.edges at hedges
  have hcounts : ArtistSettled E g' a := hsettled id hid
  -- No statement of the page stores the empty text.
  have hstored' : prop g' a "primary_genre" ≠ .str "" := by
    refine (seqAll_invariant (I := fun t => (t.edges = g.edges ∧ ∀ v, v ∈ t.nodes ↔ v ∈ g.nodes) ∧
      prop t a "primary_genre" ≠ .str "") (fun other hother t ht => ?_)
      ⟨⟨rfl, fun _ => Iff.rfl⟩, hstored⟩).2
    obtain ⟨honly, -, hprop⟩ := setArtistStats_spec (E := E) ((ht.1.2 _).mpr (hpage other hother))
    refine ⟨⟨honly.edges.trans ht.1.1, fun v => (honly.mem_nodes v).trans (ht.1.2 v)⟩, ?_⟩
    by_cases heq : other = id
    · subst heq
      rw [hprop, primaryGenre_congr ht.1.1]
      split_ifs
      · rcases primaryGenre_cases (E := E) hone hs hnames a with h | ⟨s, hne, h⟩
        · rw [h]
          exact nofun
        · rw [h]
          exact fun h => hne (PyValue.str.inj h)
      · exact ht.2
    · have hrow : prop _ a "primary_genre" = prop t a "primary_genre" :=
        congrFun (honly.other a (by simpa [a] using fun h => heq h.symm)) _
      rw [hrow]
      exact ht.2
  have hgenre : prop g' a "primary_genre" = primaryGenre E g a := by
    refine eq_of_orEmpty hstored' (primaryGenre_cases hone hs hnames a) ?_
    rw [← primaryGenre_congr hedges]
    exact hcounts.primary_genre
  refine ⟨?_, ?_, ?_, fun E' => ?_⟩
  · have h := hcounts.release_count
    rwa [artistReleaseCount_congr hedges, artistReleaseCount_eq] at h
  · have h := hcounts.label_count
    rwa [artistLabelCount_congr hedges, artistLabelCount_eq E hs] at h
  · rw [hgenre]
    exact primaryGenre_spec E hone hs hnames' a
  · have hkeys : keyTexts g' .artist = keyTexts g .artist := keyTexts_congr hnodes _
    unfold artistStatsPage
    rw [hkeys]
    refine seqAll_eq_of_forall fun other hother => setArtistStats_eq ?_
    -- The values do not depend on the order in which the store returns the rows.
    have hother' : ArtistSettled E g' (.artist (.str other)) := hsettled other hother
    have hrc : artistReleaseCount E' g' (.artist (.str other)) =
        artistReleaseCount E g' (.artist (.str other)) := by
      rw [artistReleaseCount_eq, artistReleaseCount_eq]
    have hlc : artistLabelCount E' g' (.artist (.str other)) =
        artistLabelCount E g' (.artist (.str other)) := by
      rw [artistLabelCount_congr hedges, artistLabelCount_congr hedges, artistLabelCount_eq E' hs,
        artistLabelCount_eq E hs]
    have hpg : primaryGenre E' g' (.artist (.str other)) =
        primaryGenre E g' (.artist (.str other)) := by
      rw [primaryGenre_congr hedges, primaryGenre_congr hedges]
      exact (primaryGenre_spec E' hone hs hnames' _).unique (primaryGenre_spec E hone hs hnames' _)
    exact ⟨hrc ▸ hother'.release_count, hlc ▸ hother'.label_count, hpg ▸ hother'.primary_genre⟩

/-- Two releases of an artist on one label, both of them Rock and one of them Jazz. -/
def twoReleases : Graph :=
  (∅ : Graph)
    |> mergeEdge ⟨.BY, .release (.str "10"), .artist (.str "1")⟩ id
    |> mergeEdge ⟨.BY, .release (.str "11"), .artist (.str "1")⟩ id
    |> mergeEdge ⟨.ON, .release (.str "10"), .ofLabel (.str "7")⟩ id
    |> mergeEdge ⟨.ON, .release (.str "11"), .ofLabel (.str "7")⟩ id
    |> mergeEdge ⟨.IS, .release (.str "10"), .genre (.str "Jazz")⟩ id
    |> mergeEdge ⟨.IS, .release (.str "10"), .genre (.str "Rock")⟩ id
    |> mergeEdge ⟨.IS, .release (.str "11"), .genre (.str "Rock")⟩ id

theorem artist_stats_exact_two_releases :
    let g' := (artistStatsPage default "" 10 twoReleases).1
    cypherNumber (prop g' (.artist (.str "1")) "release_count") = .int 2 ∧
      cypherNumber (prop g' (.artist (.str "1")) "label_count") = .int 1 ∧
      prop g' (.artist (.str "1")) "primary_genre" = .str "Rock" := by
  intro g'
  have hid : "1" ∈ firstPage (keyTexts twoReleases .artist) "" 10 := by
    rw [mem_firstPage (by decide), mem_keyTexts]
    exact ⟨by decide, by decide⟩
  obtain ⟨⟨-, hrc⟩, ⟨-, hlc⟩, hpg, -⟩ :=
    artist_stats_exact default (by decide) (by decide) (by decide) hid (by decide)
  have hrock : PrimaryGenre twoReleases (.artist (.str "1")) (.str "Rock") := by
    refine Or.inr ⟨"Rock", rfl, by decide, fun other => ?_⟩
    have hkeys : keyTexts twoReleases .genre = {"Jazz", "Rock"} := by decide
    rcases (releasesTo twoReleases (.artist (.str "1")) .BY .IS
      (.genre (.str other))).eq_empty_or_nonempty with hempty | ⟨r, hr⟩
    · rw [hempty]
      exact Or.inl (by decide)
    · have hmem := mem_keyTexts.mpr (Finset.mem_filter.mp hr).2.dst_mem
      simp only [hkeys, Finset.mem_insert, Finset.mem_singleton] at hmem
      rcases hmem with rfl | rfl
      · exact Or.inl (by decide)
      · exact Or.inr ⟨rfl, le_rfl⟩
  exact ⟨hrc, hlc, hpg.unique hrock⟩

/-- An artist without releases, for which the empty text is stored as the primary genre. -/
def emptyStored : Graph :=
  (∅ : Graph).mergeNode (.artist (.str "1")) (setProps [("primary_genre", .str "")])

/-- A release of an artist with an IS edge to a label. -/
def isLabel : Graph :=
  (∅ : Graph)
    |> mergeEdge ⟨.BY, .release (.str "10"), .artist (.str "1")⟩ id
    |> mergeEdge ⟨.IS, .release (.str "10"), .ofLabel (.str "7")⟩ id

/-- The empty text is taken for no genre at all, and kept. -/
theorem emptyStored_kept (cursor : String) (size : ℕ) :
    prop (artistStatsPage default cursor size emptyStored).1 (.artist (.str "1")) "primary_genre" =
      .str "" := by
  have hpg : primaryGenre default emptyStored (.artist (.str "1")) = .null := by
    rcases primaryGenre_spec default (g := emptyStored) (by decide) (by decide)
      (fun name h => ((by decide : GenreNames emptyStored) name h).imp fun _ h => h.2)
      (.artist (.str "1")) with ⟨h, -⟩ | ⟨s, -, ⟨r, hr⟩, -⟩
    · exact h
    · obtain ⟨e, he, -⟩ := (Finset.mem_filter.mp hr).2
      exact absurd he (Finset.notMem_empty e)
  refine (seqAll_invariant (I := fun t => (t.edges = emptyStored.edges ∧
    ∀ v, v ∈ t.nodes ↔ v ∈ emptyStored.nodes) ∧
      prop t (.artist (.str "1")) "primary_genre" = .str "") (fun id hid t ht => ?_)
    ⟨⟨rfl, fun _ => Iff.rfl⟩, by decide⟩).2
  have hmem := mem_keyTexts.mp (mem_of_mem_firstPage hid)
  obtain ⟨honly, -, hprop⟩ := setArtistStats_spec (E := default) ((ht.1.2 _).mpr hmem)
  refine ⟨⟨honly.edges.trans ht.1.1, fun v => (honly.mem_nodes v).trans (ht.1.2 v)⟩, ?_⟩
  obtain rfl : id = "1" := by
    have hkeys : keyTexts emptyStored .artist = {"1"} := by decide
    have hid := mem_of_mem_firstPage hid
    rwa [hkeys, Finset.mem_singleton] at hid
  rw [hprop, primaryGenre_congr ht.1.1, hpg, ht.2]
  exact if_neg (not_not.mpr rfl)

/-- The statement leaves the empty text as the primary genre of an artist without a genre, and it
counts a label that a release is not ON. -/
theorem artist_stats_counterexample :
    (OneEdge emptyStored ∧ GenreNames emptyStored ∧
      "1" ∈ firstPage (keyTexts emptyStored .artist) "" 10 ∧
      (∀ t : Node, releasesTo emptyStored (.artist (.str "1")) .BY .IS t = ∅) ∧
      prop (artistStatsPage default "" 10 emptyStored).1 (.artist (.str "1")) "primary_genre" =
        .str "") ∧
    (OneEdge isLabel ∧ GenreNames isLabel ∧ "1" ∈ firstPage (keyTexts isLabel .artist) "" 10 ∧
      targetsOf isLabel (.artist (.str "1")) .BY .ON .label = ∅ ∧
      cypherNumber (prop (artistStatsPage default "" 10 isLabel).1 (.artist (.str "1"))
        "label_count") = .int 1) := by
  have hfirst : ∀ g : Graph, (keyTexts g .artist).card ≤ 10 →
      (.artist (.str "1") : Node) ∈ g.nodes → "1" ∈ firstPage (keyTexts g .artist) "" 10 := by
    intro g hcard hmem
    rw [mem_firstPage hcard, mem_keyTexts]
    exact ⟨hmem, by decide⟩
  have hid := hfirst isLabel (by decide) (by decide)
  refine ⟨⟨by decide, by decide, hfirst _ (by decide) (by decide), fun t => ?_,
    emptyStored_kept "" 10⟩, by decide, by decide, hid, by decide, ?_⟩
  · refine Finset.eq_empty_of_forall_notMem fun r hr => ?_
    obtain ⟨e, he, -⟩ := (Finset.mem_filter.mp hr).2
    exact absurd he (Finset.notMem_empty e)
  · obtain ⟨hedges, -, hsettled⟩ := artistSettled_page (E := default)
      fun id (hid : id ∈ firstPage (keyTexts isLabel .artist) "" 10) =>
        mem_keyTexts.mp (mem_of_mem_firstPage hid)
    have hcount : artistLabelCount default isLabel (.artist (.str "1")) = 1 :=
      (countSome_groupCounts default (fun x : Edge Node Rel × Edge Node Rel => x.2.arc.dst)
        (expansion isLabel (.artist (.str "1")) .BY [.ON, .IS] [.label, .genre])
        fun t : Node => decide (t.label = .label)).trans (by decide)
    have h := (hsettled "1" hid).label_count.2
    rwa [artistLabelCount_congr hedges, hcount] at h

end Graphinator
