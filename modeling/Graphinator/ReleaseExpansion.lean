import Graphinator.Updates
import Mathlib.Data.Finset.Prod

/-!
# The releases of a node, and what they lead to

The statistics of artists and labels start from the releases of a node and expand each release
once. The rows of such an expansion are pairs of edges, one between the release and the node and
one from the release to a target.

## Main definitions

* `releasesOf`, `expansion`, `targetsOf`, `releasesTo`.
* `OneEdge`, `ReleaseSchema` : what the projections guarantee about the edges of releases.

## Main results

* `image_expansion` : the targets of the rows.
* `card_expansion_filter` : the rows of a target are the releases that lead to it.
-/

namespace Graphinator

open PropertyGraph

variable {g : Graph} {n : Node} {into : Rel} {out : List Rel} {targets : List Label}

/-- `(n)<-[:into]-(r:Release)`, as the edges it matches. -/
def releaseEdges (g : Graph) (n : Node) (into : Rel) : Finset (Edge Node Rel) :=
  g.edges.keys.filter fun e =>
    e.arc.kind = into ∧ e.arc.dst = n ∧ e.arc.src.label = .release

/-- The releases of a node. -/
def releasesOf (g : Graph) (n : Node) (into : Rel) : Finset Node :=
  (releaseEdges g n into).image (·.arc.src)

/-- `(r)-[:out]->(t)` for a target with one of the labels. -/
def targetEdges (g : Graph) (r : Node) (out : List Rel) (targets : List Label) :
    Finset (Edge Node Rel) :=
  g.edges.keys.filter fun x => x.arc.src = r ∧ x.arc.kind ∈ out ∧ x.arc.dst.label ∈ targets

/-- `(n)<-[:into]-(r:Release)-[:out]->(t) WHERE t:targets`, as the pairs of edges it matches. -/
def expansion (g : Graph) (n : Node) (into : Rel) (out : List Rel) (targets : List Label) :
    Finset (Edge Node Rel × Edge Node Rel) :=
  (releaseEdges g n into ×ˢ g.edges.keys).filter fun x =>
    x.2 ∈ targetEdges g x.1.arc.src out targets

/-- The releases of `n` with an edge to `t`. -/
def releasesTo (g : Graph) (n : Node) (into kind : Rel) (t : Node) : Finset Node :=
  (releasesOf g n into).filter fun r => g.HasArc ⟨kind, r, t⟩

/-- The nodes of a label that a release of `n` leads to. -/
def targetsOf (g : Graph) (n : Node) (into kind : Rel) (target : Label) : Finset Node :=
  g.nodes.keys.filter fun t => t.label = target ∧ (releasesTo g n into kind t).Nonempty

/-- Between a release and a node there is at most one edge of each of these types. -/
def OneEdge (g : Graph) : Prop :=
  ∀ e ∈ g.edges, ∀ e' ∈ g.edges, e.arc.src.label = .release →
    e.arc.kind ∈ [Rel.BY, .ON, .IS] → e.arc = e'.arc → e = e'

instance (g : Graph) : Decidable (OneEdge g) :=
  inferInstanceAs (Decidable (∀ e ∈ g.edges.keys, ∀ e' ∈ g.edges.keys, e.arc.src.label = .release →
    e.arc.kind ∈ [Rel.BY, .ON, .IS] → e.arc = e'.arc → e = e'))

/-- The edges of releases lead where the projections let them. -/
structure ReleaseSchema (g : Graph) : Prop where
  by_artist : ∀ e ∈ g.edges, e.arc.src.label = .release → e.arc.kind = .BY →
    e.arc.dst.label = .artist
  on_label : ∀ e ∈ g.edges, e.arc.src.label = .release → e.arc.kind = .ON → e.arc.dst.label = .label
  is_taxonomy : ∀ e ∈ g.edges, e.arc.src.label = .release → e.arc.kind = .IS →
    e.arc.dst.label = .genre ∨ e.arc.dst.label = .style

instance (g : Graph) : Decidable (ReleaseSchema g) :=
  decidable_of_iff (∀ e ∈ g.edges.keys, e.arc.src.label = .release →
    (e.arc.kind = .BY → e.arc.dst.label = .artist) ∧ (e.arc.kind = .ON → e.arc.dst.label = .label) ∧
      (e.arc.kind = .IS → e.arc.dst.label = .genre ∨ e.arc.dst.label = .style))
    ⟨fun h => ⟨fun e he hr => (h e he hr).1, fun e he hr => (h e he hr).2.1,
      fun e he hr => (h e he hr).2.2⟩,
    fun h e he hr => ⟨h.by_artist e he hr, h.on_label e he hr, h.is_taxonomy e he hr⟩⟩

/-- The type of the edges of releases to the nodes of a label. -/
def schemaRel : Label → Rel
  | .artist => .BY
  | .label => .ON
  | _ => .IS

theorem ReleaseSchema.kind_eq (h : ReleaseSchema g) {e : Edge Node Rel} (he : e ∈ g.edges)
    (hr : e.arc.src.label = .release) (hk : e.arc.kind ∈ [Rel.BY, .ON, .IS]) :
    e.arc.kind = schemaRel e.arc.dst.label := by
  simp only [List.mem_cons, List.not_mem_nil, or_false] at hk
  rcases hk with hk | hk | hk
  · rw [h.by_artist e he hr hk]
    exact hk
  · rw [h.on_label e he hr hk]
    exact hk
  · rcases h.is_taxonomy e he hr hk with hl | hl <;> rw [hl] <;> exact hk

theorem mem_releaseEdges {e : Edge Node Rel} : e ∈ releaseEdges g n into ↔
    e ∈ g.edges ∧ e.arc.kind = into ∧ e.arc.dst = n ∧ e.arc.src.label = .release :=
  Finset.mem_filter

theorem mem_releasesOf {r : Node} :
    r ∈ releasesOf g n into ↔ r.label = .release ∧ g.HasArc ⟨into, r, n⟩ := by
  simp only [releasesOf, Finset.mem_image, mem_releaseEdges]
  constructor
  · rintro ⟨e, ⟨he, rfl, rfl, hr⟩, rfl⟩
    exact ⟨hr, hasArc_of_mem he⟩
  · rintro ⟨hr, e, he, harc⟩
    exact ⟨e, ⟨he, by rw [harc], by rw [harc], by rwa [harc]⟩, by rw [harc]⟩

/-- `OPTIONAL MATCH (n)<-[:into]-(r:Release) RETURN count(DISTINCT r)`. -/
theorem countDistinct_releases (E : Enumeration) (g : Graph) (n : Node) (into : Rel) :
    countDistinct ((optionalMatch (E.list (releaseEdges g n into))).map (Option.map (·.arc.src))) =
      (releasesOf g n into).card := by
  refine countDistinct_eq_card fun r => ?_
  rw [releasesOf, Finset.mem_image, List.mem_map]
  constructor
  · rintro ⟨row, hrow, hr⟩
    obtain ⟨e, rfl, rfl⟩ := Option.map_eq_some_iff.mp hr
    exact ⟨e, E.mem_list.mp (mem_optionalMatch.mp hrow), rfl⟩
  · rintro ⟨e, he, rfl⟩
    exact ⟨some e, mem_optionalMatch.mpr (E.mem_list.mpr he), rfl⟩

theorem mem_expansion {x : Edge Node Rel × Edge Node Rel} :
    x ∈ expansion g n into out targets ↔ x.1 ∈ releaseEdges g n into ∧ x.2 ∈ g.edges ∧
      x.2.arc.src = x.1.arc.src ∧ x.2.arc.kind ∈ out ∧ x.2.arc.dst.label ∈ targets := by
  simp only [expansion, targetEdges, Finset.mem_filter, Finset.mem_product]
  constructor
  · rintro ⟨⟨h₁, -⟩, h₂, h₃⟩
    exact ⟨h₁, h₂, h₃⟩
  · rintro ⟨h₁, h₂, h₃⟩
    exact ⟨⟨h₁, h₂⟩, h₂, h₃⟩

/-- The expansion is a function of the edges. -/
theorem expansion_congr {g' : Graph} (h : g'.edges = g.edges) :
    expansion g' n into out targets = expansion g n into out targets := by
  ext x
  simp only [mem_expansion, mem_releaseEdges, h]

/-- Edges of the release to a target have the type of its label. -/
theorem mem_expansion_iff (hs : ReleaseSchema g) (hout : out ⊆ [Rel.BY, .ON, .IS])
    (htargets : ∀ l ∈ targets, schemaRel l ∈ out) {t : Node} (ht : t.label ∈ targets) {r : Node} :
    (∃ x ∈ expansion g n into out targets, x.2.arc.dst = t ∧ x.1.arc.src = r) ↔
      r ∈ releasesTo g n into (schemaRel t.label) t := by
  simp only [mem_expansion, releasesTo, Finset.mem_filter, mem_releasesOf]
  constructor
  · rintro ⟨⟨e, x⟩, ⟨he, hx, hsrc, hkind, -⟩, rfl, rfl⟩
    obtain ⟨hmem, rfl, rfl, hr⟩ := mem_releaseEdges.mp he
    have hk := hs.kind_eq hx (hsrc ▸ hr) (hout hkind)
    refine ⟨⟨hr, hasArc_of_mem hmem⟩, ?_⟩
    have harc : x.arc = ⟨schemaRel x.arc.dst.label, e.arc.src, x.arc.dst⟩ := by
      rw [← hk, ← hsrc]
    exact harc ▸ hasArc_of_mem hx
  · rintro ⟨⟨hr, e, he, harc⟩, x, hx, hxarc⟩
    refine ⟨(e, x), ⟨mem_releaseEdges.mpr ⟨he, by rw [harc], by rw [harc], by rwa [harc]⟩, hx,
      by rw [harc, hxarc], ?_, ?_⟩, by rw [hxarc], by rw [harc]⟩
    · rw [hxarc]
      exact htargets _ ht
    · rwa [hxarc]

/-- The targets of the rows with a label are those that the releases of the node lead to. -/
theorem image_expansion (hs : ReleaseSchema g) (hout : out ⊆ [Rel.BY, .ON, .IS])
    (htargets : ∀ l ∈ targets, schemaRel l ∈ out) {target : Label} (ht : target ∈ targets) :
    (((expansion g n into out targets).image (·.2.arc.dst)).filter
      fun t => decide (t.label = target) = true) = targetsOf g n into (schemaRel target) target := by
  ext t
  simp only [Finset.mem_filter, Finset.mem_image, decide_eq_true_eq, targetsOf]
  constructor
  · rintro ⟨⟨x, hx, rfl⟩, rfl⟩
    have hmem := (mem_expansion_iff hs hout htargets ht).mp ⟨x, hx, rfl, rfl⟩
    have hdst : x.2.arc.dst ∈ g.nodes := g.dst_mem x.2 (mem_expansion.mp hx).2.1
    exact ⟨hdst, rfl, _, hmem⟩
  · rintro ⟨-, rfl, r, hr⟩
    obtain ⟨x, hx, hdst, -⟩ := (mem_expansion_iff hs hout htargets ht).mpr hr
    exact ⟨⟨x, hx, hdst⟩, rfl⟩

/-- **One row for each release.** The rows of a target are as many as the releases of the node that
lead to it. -/
theorem card_expansion_filter (hone : OneEdge g) (hs : ReleaseSchema g)
    (hinto : into ∈ [Rel.BY, .ON, .IS]) (hout : out ⊆ [Rel.BY, .ON, .IS])
    (htargets : ∀ l ∈ targets, schemaRel l ∈ out) {t : Node} (ht : t.label ∈ targets) :
    ((expansion g n into out targets).filter fun x => x.2.arc.dst = t).card =
      (releasesTo g n into (schemaRel t.label) t).card := by
  refine Finset.card_bij (fun x _ => x.1.arc.src) (fun x hx => ?_) (fun x hx y hy hxy => ?_)
    fun r hr => ?_
  · obtain ⟨hx, hdst⟩ := Finset.mem_filter.mp hx
    exact (mem_expansion_iff hs hout htargets ht).mp ⟨x, hx, hdst, rfl⟩
  · obtain ⟨hx, hxt⟩ := Finset.mem_filter.mp hx
    obtain ⟨hy, hyt⟩ := Finset.mem_filter.mp hy
    obtain ⟨hx₁, hx₂, hxs, hxk, -⟩ := mem_expansion.mp hx
    obtain ⟨hy₁, hy₂, hys, hyk, -⟩ := mem_expansion.mp hy
    obtain ⟨hx₁, hxi, hxn, hxr⟩ := mem_releaseEdges.mp hx₁
    obtain ⟨hy₁, hyi, hyn, hyr⟩ := mem_releaseEdges.mp hy₁
    have harc : ∀ {a b : Arc Node Rel}, a.kind = b.kind → a.src = b.src → a.dst = b.dst → a = b := by
      rintro ⟨_, _, _⟩ ⟨_, _, _⟩ rfl rfl rfl
      rfl
    refine Prod.ext (hone _ hx₁ _ hy₁ hxr (hxi ▸ hinto) ?_)
      (hone _ hx₂ _ hy₂ (hxs ▸ hxr) (hout hxk) ?_)
    · exact harc (hxi.trans hyi.symm) hxy (hxn.trans hyn.symm)
    · refine harc ?_ (hxs.trans (hxy.trans hys.symm)) (hxt.trans hyt.symm)
      rw [hs.kind_eq hx₂ (hxs ▸ hxr) (hout hxk), hs.kind_eq hy₂ (hys ▸ hyr) (hout hyk), hxt, hyt]
  · obtain ⟨x, hx, hdst, hsrc⟩ := (mem_expansion_iff hs hout htargets ht).mpr hr
    exact ⟨x, Finset.mem_filter.mpr ⟨hx, hdst⟩, hsrc⟩

end Graphinator
