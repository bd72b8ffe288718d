import Graphinator.ReleaseExpansion
import Mathlib.Data.List.MinMax

/-!
# The statistics of genres and styles

`build_node_stat_statements`: three statements for a Genre or a Style, each in a transaction of its
own. The first counts edges and not releases, the second counts artists, labels and the nodes of the
other taxonomy in one expansion of each release, the third takes the least positive year.

## Main definitions

* `nodeStatStatements`, `TaxonomyStats`.
* `StatFrame`, `SameCatalog` : what the statistics of a node leave alone.

## Main results

* `taxonomy_stats` : what the three statements leave for a node.
-/

namespace Graphinator

open PropertyGraph

/-! ### What statistics leave alone -/

/-- The statistics of a node write the properties of the node and its HAS_STYLE edges. -/
structure StatFrame (n : Node) (g g' : Graph) : Prop where
  mem_nodes (v : Node) : v ∈ g'.nodes ↔ v ∈ g.nodes
  row_nodes (v : Node) : v ≠ n → g'.nodes.row v = g.nodes.row v
  mem_edges (e : Edge Node Rel) : ¬(e.arc.src = n ∧ e.arc.kind = .HAS_STYLE) →
    (e ∈ g'.edges ↔ e ∈ g.edges)
  row_edges (e : Edge Node Rel) : ¬(e.arc.src = n ∧ e.arc.kind = .HAS_STYLE) →
    g'.edges.row e = g.edges.row e

theorem StatFrame.refl (n : Node) (g : Graph) : StatFrame n g g :=
  ⟨fun _ => Iff.rfl, fun _ _ => rfl, fun _ _ => Iff.rfl, fun _ _ => rfl⟩

theorem StatFrame.trans {n : Node} {g g' g'' : Graph} (h : StatFrame n g g')
    (h' : StatFrame n g' g'') : StatFrame n g g'' where
  mem_nodes v := (h'.mem_nodes v).trans (h.mem_nodes v)
  row_nodes v hv := (h'.row_nodes v hv).trans (h.row_nodes v hv)
  mem_edges e he := (h'.mem_edges e he).trans (h.mem_edges e he)
  row_edges e he := (h'.row_edges e he).trans (h.row_edges e he)

theorem OnlyProps.statFrame {n : Node} {keys : Set String} {g g' : Graph}
    (h : OnlyProps n keys g g') : StatFrame n g g' :=
  ⟨h.mem_nodes, h.other, fun _ _ => by rw [h.edges], fun _ _ => by rw [h.edges]⟩

/-- The catalog that the statistics read is the same. -/
structure SameCatalog (g g' : Graph) : Prop where
  mem_nodes (v : Node) : v ∈ g'.nodes ↔ v ∈ g.nodes
  release (v : Node) : v.label = .release → g'.nodes.row v = g.nodes.row v
  mem_edges (e : Edge Node Rel) : e.arc.kind ≠ .HAS_STYLE → (e ∈ g'.edges ↔ e ∈ g.edges)

theorem SameCatalog.refl (g : Graph) : SameCatalog g g :=
  ⟨fun _ => Iff.rfl, fun _ _ => rfl, fun _ _ => Iff.rfl⟩

theorem SameCatalog.statFrame {n : Node} {g g' g'' : Graph} (h : SameCatalog g g')
    (hf : StatFrame n g' g'') (hn : n.label ≠ .release) : SameCatalog g g'' where
  mem_nodes v := (hf.mem_nodes v).trans (h.mem_nodes v)
  release v hv := (hf.row_nodes v fun heq => hn (heq ▸ hv)).trans (h.release v hv)
  mem_edges e he := (hf.mem_edges e fun hs => he hs.2).trans (h.mem_edges e he)

section SameCatalog

variable {g g' : Graph} {n : Node} {into kind : Rel}

theorem SameCatalog.hasArc (h : SameCatalog g g') {a : Arc Node Rel} (ha : a.kind ≠ .HAS_STYLE) :
    g'.HasArc a ↔ g.HasArc a := by
  rw [hasArc_iff, hasArc_iff]
  exact exists_congr fun copy => h.mem_edges ⟨a, copy⟩ ha

theorem SameCatalog.releasesOf_eq (h : SameCatalog g g') (hinto : into ≠ .HAS_STYLE) :
    releasesOf g' n into = releasesOf g n into := by
  ext r
  rw [mem_releasesOf, mem_releasesOf, h.hasArc hinto]

theorem SameCatalog.releasesTo_eq (h : SameCatalog g g') (hinto : into ≠ .HAS_STYLE)
    (hkind : kind ≠ .HAS_STYLE) (t : Node) : releasesTo g' n into kind t = releasesTo g n into kind t := by
  ext r
  simp only [releasesTo, Finset.mem_filter, h.releasesOf_eq hinto]
  exact and_congr_right fun _ => h.hasArc hkind

theorem SameCatalog.targetsOf_eq (h : SameCatalog g g') (hinto : into ≠ .HAS_STYLE)
    (hkind : kind ≠ .HAS_STYLE) (target : Label) :
    targetsOf g' n into kind target = targetsOf g n into kind target := by
  ext t
  simp only [targetsOf, Finset.mem_filter, h.releasesTo_eq hinto hkind]
  exact and_congr_left fun _ => h.mem_nodes t

theorem SameCatalog.oneEdge (h : SameCatalog g g') (hone : OneEdge g) : OneEdge g' := by
  intro e he e' he' hr hk harc
  have hne : ∀ kind ∈ [Rel.BY, .ON, .IS], kind ≠ .HAS_STYLE := by decide
  exact hone e ((h.mem_edges e (hne _ hk)).mp he) e' ((h.mem_edges e' (harc ▸ hne _ hk)).mp he') hr hk
    harc

theorem SameCatalog.releaseSchema (h : SameCatalog g g') (hs : ReleaseSchema g) :
    ReleaseSchema g' where
  by_artist e he hr hk := hs.by_artist e ((h.mem_edges e (by rw [hk]; decide)).mp he) hr hk
  on_label e he hr hk := hs.on_label e ((h.mem_edges e (by rw [hk]; decide)).mp he) hr hk
  is_taxonomy e he hr hk := hs.is_taxonomy e ((h.mem_edges e (by rw [hk]; decide)).mp he) hr hk

end SameCatalog

/-! ### The statements -/

/-- `MATCH (n)<-[:IS]-(r:Release) OPTIONAL MATCH (r)-[x:BY|ON|IS]->(t)`, as the rows of `x`. -/
def linkRows (E : Enumeration) (g : Graph) (n : Node) : List (Option (Edge Node Rel)) :=
  (E.list (releaseEdges g n .IS)).flatMap fun e =>
    optionalMatch (E.list (g.edges.keys.filter fun x =>
      x.arc.src = e.arc.src ∧ x.arc.kind ∈ [Rel.BY, .ON, .IS]))

/-- `CASE WHEN type(x) = kind AND t:target THEN t END`. -/
def caseTarget (kind : Rel) (target : Label) (row : Option (Edge Node Rel)) : Option Node :=
  row.bind fun x => if x.arc.kind = kind ∧ x.arc.dst.label = target then some x.arc.dst else none

/-- The number a value compares as, in Cypher. -/
def cypherNum? : PyValue → Option ℚ
  | .int n => some n
  | .float q => some q
  | _ => none

/-- `r.year > 0`. -/
def isPositive (value : PyValue) : Bool := (cypherNum? value).any (0 < ·)

/-- `min(r.year)` over the positive years; null where there is none. -/
def firstYear (E : Enumeration) (g : Graph) (n : Node) : PyValue :=
  ((((E.list (releaseEdges g n .IS)).map fun e => prop g e.arc.src "year").filter
    isPositive).argmin fun year => (cypherNum? year).getD 0).getD .null

/-- `MATCH (n) .. SET n.k₁ = x₁, n.k₂ = x₂, ..`. -/
def setAll (n : Node) (props : Graph → List (String × PyValue)) : Statement := emit fun g =>
  if n ∈ g.nodes then (props g).map fun kv => .setNode n kv.1 kv.2 else []

/-- The first of `_node_stat_metrics`: a count of edges. -/
def releaseCountMetric (E : Enumeration) (n : Node) (g : Graph) : List (String × PyValue) :=
  [("release_count", .int (E.list (releaseEdges g n .IS)).length)]

/-- The second: three counts that share one expansion of each release. -/
def linkMetric (E : Enumeration) (n : Node) (other : Label) (otherProp : String) (g : Graph) :
    List (String × PyValue) :=
  [("artist_count", .int (countDistinct ((linkRows E g n).map (caseTarget .BY .artist)))),
   ("label_count", .int (countDistinct ((linkRows E g n).map (caseTarget .ON .label)))),
   (otherProp, .int (countDistinct ((linkRows E g n).map (caseTarget .IS other))))]

/-- The third. -/
def firstYearMetric (E : Enumeration) (n : Node) (g : Graph) : List (String × PyValue) :=
  [("first_year", firstYear E g n)]

/-- `build_node_stat_statements` for one node, with the label and the property of the other
taxonomy. -/
def nodeStatStatements (E : Enumeration) (n : Node) (other : Label) (otherProp : String) :
    List Statement :=
  [setAll n (releaseCountMetric E n), setAll n (linkMetric E n other otherProp),
   setAll n (firstYearMetric E n)]

/-! ### What they compute -/

/-- The least positive year of the releases of a node, or null where there is none. -/
def FirstYear (g : Graph) (n : Node) (value : PyValue) : Prop :=
  (value = .null ∧ ∀ r ∈ releasesOf g n .IS, isPositive (prop g r "year") = false) ∨
  ∃ r ∈ releasesOf g n .IS, value = prop g r "year" ∧ isPositive value = true ∧
    ∀ r' ∈ releasesOf g n .IS, isPositive (prop g r' "year") = true →
      (cypherNum? value).getD 0 ≤ (cypherNum? (prop g r' "year")).getD 0

section Values

variable {E : Enumeration} {g : Graph} {n : Node}

theorem length_releaseEdges (E : Enumeration) (hone : OneEdge g) {into : Rel}
    (hinto : into ∈ [Rel.BY, .ON, .IS]) :
    (E.list (releaseEdges g n into)).length = (releasesOf g n into).card := by
  rw [length_eq_card (E.nodup _) fun _ => E.mem_list, releasesOf, Finset.card_image_of_injOn]
  intro e he e' he' hsrc
  obtain ⟨he, hk, hd, hr⟩ := mem_releaseEdges.mp he
  obtain ⟨he', hk', hd', -⟩ := mem_releaseEdges.mp he'
  refine hone e he e' he' hr (hk ▸ hinto) ?_
  obtain ⟨⟨k, s, d⟩, c⟩ := e
  obtain ⟨⟨k', s', d'⟩, c'⟩ := e'
  simp only at hk hk' hd hd' hsrc
  rw [hk, hk', hd, hd', hsrc]

theorem countDistinct_linkRows (E : Enumeration) (g : Graph) (n : Node) {kind : Rel}
    (hkind : kind ∈ [Rel.BY, .ON, .IS]) (target : Label) :
    countDistinct ((linkRows E g n).map (caseTarget kind target)) =
      (targetsOf g n .IS kind target).card := by
  refine countDistinct_eq_card fun t => ?_
  simp only [linkRows, List.mem_map, List.mem_flatMap, E.mem_list, targetsOf, Finset.mem_filter]
  constructor
  · rintro ⟨row, ⟨e, he, hrow⟩, ht⟩
    obtain ⟨x, rfl, hx⟩ := Option.bind_eq_some_iff.mp ht
    obtain ⟨⟨hk, hl⟩, hdst⟩ := Option.ite_none_right_eq_some.mp hx
    obtain rfl := Option.some.inj hdst
    rw [mem_optionalMatch, E.mem_list, Finset.mem_filter] at hrow
    obtain ⟨hmem, hsrc, -⟩ := hrow
    refine ⟨g.dst_mem x hmem, hl, e.arc.src, Finset.mem_filter.mpr ⟨?_, ?_⟩⟩
    · exact Finset.mem_image_of_mem (fun e : Edge Node Rel => e.arc.src) he
    · have harc : x.arc = ⟨kind, e.arc.src, x.arc.dst⟩ := by rw [← hk, ← hsrc]
      exact harc ▸ hasArc_of_mem hmem
  · rintro ⟨-, hl, r, hr⟩
    obtain ⟨hr, x, hx, harc⟩ := Finset.mem_filter.mp hr
    obtain ⟨e, he, rfl⟩ := Finset.mem_image.mp hr
    refine ⟨some x, ⟨e, he, mem_optionalMatch.mpr (E.mem_list.mpr (Finset.mem_filter.mpr
      ⟨hx, by rw [harc], by rwa [harc]⟩))⟩, ?_⟩
    simp [caseTarget, harc, hl]

theorem firstYear_spec (E : Enumeration) (g : Graph) (n : Node) :
    FirstYear g n (firstYear E g n) := by
  have hmem : ∀ year, year ∈ ((E.list (releaseEdges g n .IS)).map fun e =>
      prop g e.arc.src "year").filter isPositive ↔
      (∃ r ∈ releasesOf g n .IS, prop g r "year" = year) ∧ isPositive year = true := by
    intro year
    simp only [List.mem_filter, List.mem_map, E.mem_list, releasesOf, Finset.mem_image,
      exists_exists_and_eq_and]
  unfold firstYear
  cases hmin : (((E.list (releaseEdges g n .IS)).map fun e => prop g e.arc.src "year").filter
      isPositive).argmin fun year => (cypherNum? year).getD 0 with
  | none =>
    refine Or.inl ⟨rfl, fun r hr => ?_⟩
    by_contra hpos
    have h := (hmem (prop g r "year")).mpr ⟨⟨r, hr, rfl⟩, by simpa using hpos⟩
    rw [List.argmin_eq_none.mp hmin] at h
    exact List.not_mem_nil h
  | some year =>
    obtain ⟨⟨r, hr, rfl⟩, hpos⟩ := (hmem year).mp (List.argmin_mem hmin)
    refine Or.inr ⟨r, hr, rfl, hpos, fun r' hr' hpos' => ?_⟩
    exact List.le_of_mem_argmin ((hmem _).mpr ⟨⟨r', hr', rfl⟩, hpos'⟩) hmin

end Values

/-! ### What the statements leave -/

/-- The statistics of a genre or a style, with the label and the property of the other taxonomy. -/
structure TaxonomyStats (g₀ : Graph) (other : Label) (otherProp : String) (g : Graph) (n : Node) :
    Prop where
  release_count : prop g n "release_count" = .int (releasesOf g₀ n .IS).card
  artist_count : prop g n "artist_count" = .int (targetsOf g₀ n .IS .BY .artist).card
  label_count : prop g n "label_count" = .int (targetsOf g₀ n .IS .ON .label).card
  other_count : prop g n otherProp = .int (targetsOf g₀ n .IS .IS other).card
  first_year : FirstYear g₀ n (prop g n "first_year")

section Statements

variable {E : Enumeration} {g g₀ : Graph} {n : Node}

/-- `SET`s of different properties of one node. -/
theorem runAll_setNode {props : List (String × PyValue)} (hn : n ∈ g.nodes)
    (hnodup : (props.map (·.1)).Nodup) :
    let g' := runAll GraphUpdate.apply (props.map fun kv => .setNode n kv.1 kv.2) g
    OnlyProps n {key | key ∈ props.map (·.1)} g g' ∧ ∀ kv ∈ props, prop g' n kv.1 = kv.2 := by
  induction props generalizing g with
  | nil => exact ⟨.refl .., nofun⟩
  | cons kv props ih =>
    rw [List.map_cons, List.nodup_cons] at hnodup
    have hfirst := onlyProps_setNode g n kv.1 kv.2
    obtain ⟨honly, hprops⟩ := ih ((hfirst.mem_nodes n).mpr hn) hnodup.2
    refine ⟨(hfirst.mono ?_).trans (honly.mono ?_), fun kv' hkv' => ?_⟩
    · rintro key rfl
      exact List.mem_cons_self ..
    · exact fun key hkey => List.mem_cons_of_mem _ hkey
    · rcases List.mem_cons.mp hkv' with rfl | hkv'
      · have hset := prop_setNode hn kv'.1 kv'.1 kv'.2
        rw [if_pos rfl] at hset
        exact (honly.prop kv'.1 hnodup.1).trans hset
      · exact hprops kv' hkv'

theorem setAll_spec (props : Graph → List (String × PyValue)) (hn : n ∈ g.nodes)
    (hnodup : ((props g).map (·.1)).Nodup) :
    OnlyProps n {key | key ∈ (props g).map (·.1)} g (setAll n props g).1 ∧
      ∀ kv ∈ props g, prop (setAll n props g).1 n kv.1 = kv.2 := by
  have h := runAll_setNode hn hnodup
  simp only [setAll, emit, if_pos hn]
  exact h

theorem SameCatalog.onlyProps {g' : Graph} {keys : Set String} (h : SameCatalog g₀ g)
    (honly : OnlyProps n keys g g') (hn : n.label ≠ .release) : SameCatalog g₀ g' :=
  h.statFrame honly.statFrame hn

theorem FirstYear.congr {value : PyValue} (h : SameCatalog g₀ g) (hy : FirstYear g n value) :
    FirstYear g₀ n value := by
  have hyear : ∀ r ∈ releasesOf g₀ n .IS, prop g r "year" = prop g₀ r "year" := fun r hr =>
    congrFun (h.release r (mem_releasesOf.mp hr).1) _
  unfold FirstYear at hy
  rw [h.releasesOf_eq (by decide)] at hy
  refine hy.imp (fun ⟨hnull, hnone⟩ => ⟨hnull, fun r hr => hyear r hr ▸ hnone r hr⟩) ?_
  rintro ⟨r, hr, hval, hpos, hleast⟩
  exact ⟨r, hr, hval.trans (hyear r hr), hpos, fun r' hr' hpos' => by
    have hle := hleast r' hr' (by rwa [hyear r' hr'])
    rwa [hyear r' hr'] at hle⟩

/-- **The statements of a genre or a style.** Each count is a number of distinct nodes, and the year
is the least positive one. -/
theorem taxonomy_stats (E : Enumeration) (hone : OneEdge g₀) (h : SameCatalog g₀ g)
    (hn : n ∈ g.nodes) (hlabel : n.label ≠ .release) (other : Label) (otherProp : String)
    (hother : otherProp ∉ ["release_count", "artist_count", "label_count", "first_year"]) :
    StatFrame n g (seqAll (fun s => s) (nodeStatStatements E n other otherProp) g).1 ∧
      TaxonomyStats g₀ other otherProp
        (seqAll (fun s => s) (nodeStatStatements E n other otherProp) g).1 n := by
  simp only [List.mem_cons, List.not_mem_nil, or_false, not_or] at hother
  obtain ⟨hor, hoa, hol, hof⟩ := hother
  -- Each statement leaves the catalog that the next one reads.
  obtain ⟨h₁, hp₁⟩ := setAll_spec (releaseCountMetric E n) hn (by simp [releaseCountMetric])
  have hn₁ := (h₁.mem_nodes n).mpr hn
  have hsame₁ := h.onlyProps h₁ hlabel
  obtain ⟨h₂, hp₂⟩ := setAll_spec (linkMetric E n other otherProp) hn₁
    (by simp [linkMetric, Ne.symm hoa, Ne.symm hol])
  have hn₂ := (h₂.mem_nodes n).mpr hn₁
  have hsame₂ := hsame₁.onlyProps h₂ hlabel
  obtain ⟨h₃, hp₃⟩ := setAll_spec (firstYearMetric E n) hn₂ (by simp [firstYearMetric])
  simp only [releaseCountMetric, List.forall_mem_cons] at hp₁
  simp only [linkMetric, List.forall_mem_cons] at hp₂
  simp only [firstYearMetric, List.forall_mem_cons] at hp₃
  simp only [linkMetric, firstYearMetric, List.map_cons, List.map_nil, List.mem_cons,
    List.not_mem_nil, or_false] at h₂ h₃
  refine ⟨(h₁.statFrame.trans h₂.statFrame).trans h₃.statFrame, ⟨?_, ?_, ?_, ?_, ?_⟩⟩
  · refine (h₃.prop "release_count" (by simp)).trans ((h₂.prop "release_count" ?_).trans ?_)
    · simpa using Ne.symm hor
    · rw [hp₁.1, length_releaseEdges E (h.oneEdge hone) (by decide), h.releasesOf_eq (by decide)]
  · refine (h₃.prop "artist_count" (by simp)).trans (hp₂.1.trans ?_)
    rw [countDistinct_linkRows E _ n (by decide), hsame₁.targetsOf_eq (by decide) (by decide)]
  · refine (h₃.prop "label_count" (by simp)).trans (hp₂.2.1.trans ?_)
    rw [countDistinct_linkRows E _ n (by decide), hsame₁.targetsOf_eq (by decide) (by decide)]
  · refine (h₃.prop otherProp (by simpa using hof)).trans (hp₂.2.2.1.trans ?_)
    rw [countDistinct_linkRows E _ n (by decide), hsame₁.targetsOf_eq (by decide) (by decide)]
  · have hyear := FirstYear.congr hsame₂ (firstYear_spec E _ n)
    exact hp₃.1.symm ▸ hyear

end Statements

end Graphinator
