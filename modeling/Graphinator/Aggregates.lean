import Graphinator.CatalogSchema

/-!
# Aggregates that stay exact

The sweeps store on a node what they count over the releases. Between two writes of the catalog only
upkeep changes the graph: other sweeps, cleanups, backfills. None of these changes what the sweeps
count, so what a statement stored for a node is exact until a record is written.

## Main definitions

* `Exact`, `ExactPart` : the aggregates of a node are what the graph says they are, all of them or
  those that one statement stores.
* `SameReleases`, `SameReading` : what the counts read, and what one node has to do with them.

## Main results

* `exactPart_statement` : a statement leaves exact aggregates.
* `Upkeep.exactPart` : upkeep keeps them exact.
* `aggregates_stay_exact` : the two, over whole runs.
-/

namespace Graphinator

open PropertyGraph PyValue
open Maintenance (SweepName)

/-! ### Exact aggregates -/

/-- The names of the genres are texts. -/
def TextGenres (g : Graph) : Prop :=
  ∀ name, (.genre name : Node) ∈ g.nodes → ∃ s : String, name = .str s

/-- The aggregates of an artist. -/
structure ArtistAggregates (g : Graph) (a : Node) : Prop where
  release_count : Settled g a ("release_count", .int (releasesOf g a .BY).card)
  label_count : Settled g a ("label_count", .int (targetsOf g a .BY .ON .label).card)
  /-- The primary genre, where an empty text stands for none. -/
  primary_genre : TextGenres g → ∃ pg, PrimaryGenre g a pg ∧
    cypherNumber (orEmpty (prop g a "primary_genre")) = cypherNumber (orEmpty pg)

/-- The aggregates of a person. -/
structure PersonAggregates (allCategories : List String) (g : Graph) (p : Node) : Prop where
  credit_count : Settled g p ("credit_count", .int (creditedReleases g p).card)
  category : ∀ category ∈ allCategories,
    Settled g p (creditCountProperty category, .int (creditedIn g p category).card)

/-- The aggregates of a genre or a style that the `i`-th of its statements stores. -/
def TaxonomyPart (g : Graph) (other : Label) (otherProp : String) (i : ℕ) (n : Node) : Prop :=
  match i with
  | 0 => prop g n "release_count" = .int (releasesOf g n .IS).card
  | 1 => prop g n "artist_count" = .int (targetsOf g n .IS .BY .artist).card ∧
      prop g n "label_count" = .int (targetsOf g n .IS .ON .label).card ∧
      prop g n otherProp = .int (targetsOf g n .IS .IS other).card
  | 2 => FirstYear g n (prop g n "first_year")
  | _ => True

/-- What the `i`-th statement of a sweep stores on a node is what the graph says it is. -/
def ExactPart (allCategories : List String) (g : Graph) (sweep : SweepName) (i : ℕ) (n : Node) :
    Prop :=
  match sweep with
  | .genreStats => TaxonomyPart g .style "style_count" i n
  | .styleStats => TaxonomyPart g .genre "genre_count" i n
  | .labelStats => i = 0 → LabelStats g g n
  | .artistStats => i = 0 → ArtistAggregates g n
  | .personCreditCounts => i = 0 → PersonAggregates allCategories g n

/-- What a sweep stores on a node is what the graph says it is. -/
def Exact (allCategories : List String) (g : Graph) (sweep : SweepName) (n : Node) : Prop :=
  match sweep with
  | .genreStats => TaxonomyStats g .style "style_count" g n
  | .styleStats => TaxonomyStats g .genre "genre_count" g n
  | .labelStats => LabelStats g g n
  | .artistStats => ArtistAggregates g n
  | .personCreditCounts => PersonAggregates allCategories g n

/-- The number of statements of a sweep for a node. -/
def statementCount : SweepName → ℕ
  | .genreStats | .styleStats => 3
  | .labelStats | .artistStats | .personCreditCounts => 1

theorem taxonomyStats_of_parts {g : Graph} {other : Label} {otherProp : String} {n : Node}
    (h : ∀ i < 3, TaxonomyPart g other otherProp i n) : TaxonomyStats g other otherProp g n := by
  obtain ⟨hartist, hlabel, hother⟩ := h 1 (by decide)
  exact ⟨h 0 (by decide), hartist, hlabel, hother, h 2 (by decide)⟩

/-- All statements together store what the sweep stores. -/
theorem exact_of_parts {allCategories : List String} {g : Graph} {sweep : SweepName} {n : Node}
    (h : ∀ i < statementCount sweep, ExactPart allCategories g sweep i n) :
    Exact allCategories g sweep n := by
  cases sweep with
  | genreStats => exact taxonomyStats_of_parts h
  | styleStats => exact taxonomyStats_of_parts h
  | labelStats => exact h 0 (by decide) rfl
  | artistStats => exact h 0 (by decide) rfl
  | personCreditCounts => exact h 0 (by decide) rfl

theorem sweepNode_inj {sweep sweep' : SweepName} {key key' : String} :
    sweepNode sweep key = sweepNode sweep' key' ↔ sweep = sweep' ∧ key = key' := by
  constructor
  · intro h
    have hlabel : nodeLabelOf sweep = nodeLabelOf sweep' := congrArg Node.label h
    have hkey : PyValue.str key = .str key' := congrArg Node.key h
    refine ⟨?_, PyValue.str.inj hkey⟩
    cases sweep <;> cases sweep' <;> first | rfl | cases hlabel
  · rintro ⟨rfl, rfl⟩
    rfl

/-! ### What the counts read -/

/-- The releases, with the edges that the counts go over, are the same. -/
structure SameReleases (g g' : Graph) : Prop where
  link (e : Edge Node Rel) : e.arc.src.label = .release → e.arc.kind ∈ [Rel.BY, .ON, .IS] →
    (e ∈ g'.edges ↔ e ∈ g.edges)
  credit (e : Edge Node Rel) : e.arc.kind.isCreditedOn = true → e.arc.src.label = .person →
    e.arc.dst.label = .release → (e ∈ g'.edges ↔ e ∈ g.edges)
  category (e : Edge Node Rel) : e ∈ g'.edges → e.arc.kind.isCreditedOn = true →
    g'.edges.row e = g.edges.row e
  year (r : Node) : r ∈ g'.nodes → r.label = .release → prop g' r "year" = prop g r "year"
  genre (name : PyValue) : (.genre name : Node) ∈ g.nodes → (.genre name : Node) ∈ g'.nodes

/-- What the aggregates of a node are read from is the same: the releases, the aggregates themselves
and the HAS_STYLE edges of the node. -/
structure SameReading (n : Node) (g g' : Graph) : Prop where
  releases : SameReleases g g'
  own (key : String) : key ≠ "name" → prop g' n key = prop g n key
  style (e : Edge Node Rel) : e.arc.src = n → e.arc.kind = .HAS_STYLE →
    (e ∈ g'.edges ↔ e ∈ g.edges) ∧ (e ∈ g'.edges → g'.edges.row e = g.edges.row e)

section SameReleases

variable {g g₀ g₁ g' : Graph} {n m : Node} {into kind : Rel} {allCategories : List String}

/-- The statistics of a node that is no release leave the releases as they are. -/
theorem StatFrame.sameReleases (hf : StatFrame m g g') (hm : m.label ≠ .release) :
    SameReleases g g' where
  link e _ hkind := hf.mem_edges e fun hs => by
    rw [hs.2] at hkind
    exact absurd hkind (by decide)
  credit e hkind _ _ := hf.mem_edges e fun hs => by
    rw [hs.2] at hkind
    cases hkind
  category e _ hkind := hf.row_edges e fun hs => by
    rw [hs.2] at hkind
    cases hkind
  year r _ hr := congrFun (hf.row_nodes r fun heq => hm (heq ▸ hr)) _
  genre name := (hf.mem_nodes _).mpr

theorem StatFrame.sameReading (hf : StatFrame m g g') (hm : m.label ≠ .release) (hne : n ≠ m) :
    SameReading n g g' where
  releases := hf.sameReleases hm
  own key _ := congrFun (hf.row_nodes n hne) key
  style e hsrc _ := ⟨hf.mem_edges e fun hs => hne (hsrc.symm.trans hs.1),
    fun _ => hf.row_edges e fun hs => hne (hsrc.symm.trans hs.1)⟩

namespace SameReleases

theorem hasArc (h : SameReleases g g') {a : Arc Node Rel} (hr : a.src.label = .release)
    (ha : a.kind ∈ [Rel.BY, .ON, .IS]) : g'.HasArc a ↔ g.HasArc a := by
  rw [hasArc_iff, hasArc_iff]
  exact exists_congr fun copy => h.link ⟨a, copy⟩ hr ha

theorem releasesOf_eq (h : SameReleases g g') (n : Node) (hinto : into ∈ [Rel.BY, .ON, .IS]) :
    releasesOf g' n into = releasesOf g n into := by
  ext r
  rw [mem_releasesOf, mem_releasesOf]
  exact and_congr_right fun hr => h.hasArc hr hinto

theorem releasesTo_eq (h : SameReleases g g') (n t : Node) (hinto : into ∈ [Rel.BY, .ON, .IS])
    (hkind : kind ∈ [Rel.BY, .ON, .IS]) :
    releasesTo g' n into kind t = releasesTo g n into kind t := by
  ext r
  simp only [releasesTo, Finset.mem_filter, h.releasesOf_eq n hinto]
  exact and_congr_right fun hr => h.hasArc (mem_releasesOf.mp hr).1 hkind

theorem targetsOf_eq (h : SameReleases g g') (n : Node) (hinto : into ∈ [Rel.BY, .ON, .IS])
    (hkind : kind ∈ [Rel.BY, .ON, .IS]) (target : Label) :
    targetsOf g' n into kind target = targetsOf g n into kind target := by
  ext t
  simp only [targetsOf, Finset.mem_filter, h.releasesTo_eq n t hinto hkind]
  -- The ends of the edges are there on both sides.
  have hmem : ∀ {u : Graph}, (∃ r, r ∈ releasesTo u n into kind t) → t ∈ u.nodes := by
    rintro u ⟨r, hr⟩
    exact (Finset.mem_filter.mp hr).2.dst_mem
  constructor
  · rintro ⟨-, hlabel, hne⟩
    exact ⟨hmem hne, hlabel, hne⟩
  · rintro ⟨-, hlabel, hne⟩
    exact ⟨hmem (u := g') (by rwa [h.releasesTo_eq n t hinto hkind]), hlabel, hne⟩

theorem creditedReleases_eq (h : SameReleases g g') (hn : n.label = .person) :
    creditedReleases g' n = creditedReleases g n := by
  unfold creditedReleases
  congr 1
  ext e
  simp only [creditEdges, Finset.mem_filter]
  constructor
  · rintro ⟨he, rfl, hkind, hdst⟩
    exact ⟨(h.credit e hkind hn hdst).mp he, rfl, hkind, hdst⟩
  · rintro ⟨he, rfl, hkind, hdst⟩
    exact ⟨(h.credit e hkind hn hdst).mpr he, rfl, hkind, hdst⟩

theorem creditedIn_eq (h : SameReleases g g') (hn : n.label = .person) (category : String) :
    creditedIn g' n category = creditedIn g n category := by
  unfold creditedIn
  congr 1
  ext e
  simp only [creditEdges, Finset.mem_filter]
  constructor
  · rintro ⟨⟨he, rfl, hkind, hdst⟩, hcat⟩
    exact ⟨⟨(h.credit e hkind hn hdst).mp he, rfl, hkind, hdst⟩, h.category e he hkind ▸ hcat⟩
  · rintro ⟨⟨he, rfl, hkind, hdst⟩, hcat⟩
    have he' := (h.credit e hkind hn hdst).mpr he
    exact ⟨⟨he', rfl, hkind, hdst⟩, (h.category e he' hkind).symm ▸ hcat⟩

theorem firstYear (h : SameReleases g g') {value : PyValue} (hy : FirstYear g n value) :
    FirstYear g' n value := by
  have hyear : ∀ r ∈ releasesOf g n .IS, prop g' r "year" = prop g r "year" := by
    intro r hr
    rw [← h.releasesOf_eq n (by decide)] at hr
    obtain ⟨hr, harc⟩ := mem_releasesOf.mp hr
    exact h.year r harc.src_mem hr
  unfold FirstYear
  rw [h.releasesOf_eq n (by decide)]
  refine hy.imp (fun ⟨hnull, hnone⟩ => ⟨hnull, fun r hr => hyear r hr ▸ hnone r hr⟩) ?_
  rintro ⟨r, hr, hval, hpos, hleast⟩
  refine ⟨r, hr, hval.trans (hyear r hr).symm, hpos, fun r' hr' hpos' => ?_⟩
  rw [hyear r' hr'] at hpos' ⊢
  exact hleast r' hr' hpos'

/-- The counts of a genre or a style are kept with the properties they are stored in. -/
theorem taxonomyPart (h : SameReleases g g') {other : Label} {otherProp : String} {i : ℕ}
    (hprops : ∀ key ∈ partKeys otherProp i, prop g' n key = prop g n key)
    (hn : TaxonomyPart g other otherProp i n) : TaxonomyPart g' other otherProp i n := by
  rcases i with _ | _ | _ | i
  · simp only [partKeys, List.forall_mem_cons] at hprops
    refine hprops.1.trans ?_
    rw [h.releasesOf_eq n (by decide)]
    exact hn
  · simp only [partKeys, List.forall_mem_cons] at hprops
    obtain ⟨hartist, hlabel, hother, -⟩ := hprops
    refine ⟨hartist.trans ?_, hlabel.trans ?_, hother.trans ?_⟩
    all_goals rw [h.targetsOf_eq n (by decide) (by decide)]
    · exact hn.1
    · exact hn.2.1
    · exact hn.2.2
  · simp only [partKeys, List.forall_mem_cons] at hprops
    unfold TaxonomyPart
    rw [hprops.1]
    exact h.firstYear hn
  · trivial

/-- The statistics of a label may be taken of either graph. -/
theorem labelStats (h : SameReleases g₀ g₁) (hn : LabelStats g₀ g n) : LabelStats g₁ g n where
  release_count := by
    rw [h.releasesOf_eq n (by decide)]
    exact hn.release_count
  artist_count := by
    rw [h.targetsOf_eq n (by decide) (by decide)]
    exact hn.artist_count
  genre_count := by
    rw [h.targetsOf_eq n (by decide) (by decide)]
    exact hn.genre_count
  style_mem e he hsrc hkind := by
    rw [h.targetsOf_eq n (by decide) (by decide), h.releasesTo_eq n _ (by decide) (by decide)]
    exact hn.style_mem e he hsrc hkind
  style_unique t ht := by
    rw [h.targetsOf_eq n (by decide) (by decide)] at ht
    exact hn.style_unique t ht

theorem textGenres (h : SameReleases g g') (hg : TextGenres g') : TextGenres g :=
  fun name hname => hg name (h.genre name hname)

theorem primaryGenre (h : SameReleases g g') {value : PyValue} (hn : PrimaryGenre g n value) :
    PrimaryGenre g' n value := by
  unfold PrimaryGenre
  have his : Rel.IS ∈ [Rel.BY, .ON, .IS] := by decide
  simp only [h.releasesTo_eq n _ (List.mem_cons_self ..) his]
  exact hn

end SameReleases

end SameReleases

/-! ### Exact aggregates are kept -/

section Reading

variable {g g' : Graph} {n : Node} {allCategories : List String}

theorem creditCountProperty_ne_name (category : String) :
    creditCountProperty category ≠ "name" := by
  intro h
  have hlength := congrArg String.length h
  have h₁ : "credit_count_".length = 13 := rfl
  have h₂ : "name".length = 4 := rfl
  rw [creditCountProperty, String.length_append] at hlength
  omega

namespace SameReading

theorem settled (h : SameReading n g g') {key : String} {value : PyValue} (hkey : key ≠ "name")
    (hn : Settled g n (key, value)) : Settled g' n (key, value) := by
  unfold Settled at hn ⊢
  rwa [h.own key hkey]

theorem taxonomyPart (h : SameReading n g g') {other : Label} {otherProp : String}
    (hother : otherProp ≠ "name") {i : ℕ} (hn : TaxonomyPart g other otherProp i n) :
    TaxonomyPart g' other otherProp i n := by
  refine h.releases.taxonomyPart (fun key hkey => h.own key ?_) hn
  rintro rfl
  rcases i with _ | _ | _ | i <;> simp [partKeys, Ne.symm hother] at hkey

theorem labelStats (h : SameReading n g g') (hn : LabelStats g g n) : LabelStats g' g' n := by
  have hmoved := h.releases.labelStats hn
  refine ⟨h.settled (by decide) hmoved.release_count, h.settled (by decide) hmoved.artist_count,
    h.settled (by decide) hmoved.genre_count, fun e he hsrc hkind => ?_, fun t ht => ?_⟩
  · obtain ⟨hiff, hrow⟩ := h.style e hsrc hkind
    rw [hrow he]
    exact hmoved.style_mem e (hiff.mp he) hsrc hkind
  · obtain ⟨e, ⟨he, harc⟩, hunique⟩ := hmoved.style_unique t ht
    have hiff : ∀ e : Edge Node Rel, e.arc = ⟨.HAS_STYLE, n, t⟩ → (e ∈ g'.edges ↔ e ∈ g.edges) :=
      fun e harc => (h.style e (by rw [harc]) (by rw [harc])).1
    refine ⟨e, ⟨(hiff e harc).mpr he, harc⟩, ?_⟩
    rintro e' ⟨he', harc'⟩
    exact hunique e' ⟨(hiff e' harc').mp he', harc'⟩

theorem artistAggregates (h : SameReading n g g') (hn : ArtistAggregates g n) :
    ArtistAggregates g' n where
  release_count := by
    rw [h.releases.releasesOf_eq n (by decide)]
    exact h.settled (by decide) hn.release_count
  label_count := by
    rw [h.releases.targetsOf_eq n (by decide) (by decide)]
    exact h.settled (by decide) hn.label_count
  primary_genre htext := by
    obtain ⟨pg, hpg, hstored⟩ := hn.primary_genre (h.releases.textGenres htext)
    refine ⟨pg, h.releases.primaryGenre hpg, ?_⟩
    rw [h.own _ (by decide)]
    exact hstored

theorem personAggregates (h : SameReading n g g') (hlabel : n.label = .person)
    (hn : PersonAggregates allCategories g n) : PersonAggregates allCategories g' n where
  credit_count := by
    rw [h.releases.creditedReleases_eq hlabel]
    exact h.settled (by decide) hn.credit_count
  category category hc := by
    rw [h.releases.creditedIn_eq hlabel]
    exact h.settled (creditCountProperty_ne_name category) (hn.category category hc)

end SameReading

/-- Where the same is read, what was exact is exact. -/
theorem ExactPart.of_sameReading {sweep : SweepName} {i : ℕ} {key : String}
    (hex : ExactPart allCategories g sweep i (sweepNode sweep key))
    (h : SameReading (sweepNode sweep key) g g') :
    ExactPart allCategories g' sweep i (sweepNode sweep key) := by
  cases sweep with
  | genreStats => exact h.taxonomyPart (by decide) hex
  | styleStats => exact h.taxonomyPart (by decide) hex
  | labelStats => exact fun hi => h.labelStats (hex hi)
  | artistStats => exact fun hi => h.artistAggregates (hex hi)
  | personCreditCounts => exact fun hi => h.personAggregates rfl (hex hi)

end Reading

/-! ### Statements -/

section Statements

variable {E : Enumeration} {allCategories : List String} {g : Graph} {n : Node}

/-- The statements of a genre or a style, one by one. -/
theorem taxonomyPart_statement (h : Schema g) (hn : n ∈ g.nodes) (hlabel : n.label ≠ .release)
    {other : Label} {otherProp : String}
    (hother : otherProp ∉ ["release_count", "artist_count", "label_count", "first_year"]) {i : ℕ}
    {st : Statement} (hst : (nodeStatStatements E n other otherProp)[i]? = some st) :
    TaxonomyPart (st g).1 other otherProp i n := by
  have hreleases : SameReleases g (st g).1 :=
    (onlyProps_nodeStatStatements hn hother hst).statFrame.sameReleases hlabel
  simp only [List.mem_cons, List.not_mem_nil, or_false, not_or] at hother
  obtain ⟨-, hoa, hol, -⟩ := hother
  rcases i with _ | _ | _ | i
  · obtain rfl := Option.some.inj hst
    obtain ⟨-, hp⟩ := setAll_spec (releaseCountMetric E n) hn (by simp [releaseCountMetric])
    simp only [releaseCountMetric, List.forall_mem_cons] at hp
    refine hp.1.trans ?_
    rw [length_releaseEdges E h.oneEdge (by decide), hreleases.releasesOf_eq n (by decide)]
  · obtain rfl := Option.some.inj hst
    obtain ⟨-, hp⟩ := setAll_spec (linkMetric E n other otherProp) hn
      (by simp [linkMetric, Ne.symm hoa, Ne.symm hol])
    simp only [linkMetric, List.forall_mem_cons] at hp
    refine ⟨hp.1.trans ?_, hp.2.1.trans ?_, hp.2.2.1.trans ?_⟩
    all_goals
      rw [countDistinct_linkRows E _ n (by decide),
        hreleases.targetsOf_eq n (by decide) (by decide)]
  · obtain rfl := Option.some.inj hst
    obtain ⟨-, hp⟩ := setAll_spec (firstYearMetric E n) hn (by simp [firstYearMetric])
    simp only [firstYearMetric, List.forall_mem_cons] at hp
    unfold TaxonomyPart
    rw [hp.1]
    exact hreleases.firstYear (firstYear_spec E g n)
  · trivial

/-- A statement of a genre or a style keeps what the others stored. -/
theorem taxonomyPart_other (hn : n ∈ g.nodes) (hlabel : n.label ≠ .release) {other : Label}
    {otherProp : String}
    (hother : otherProp ∉ ["release_count", "artist_count", "label_count", "first_year"]) {i j : ℕ}
    {st : Statement} (hst : (nodeStatStatements E n other otherProp)[j]? = some st) (hne : i ≠ j)
    (hex : TaxonomyPart g other otherProp i n) : TaxonomyPart (st g).1 other otherProp i n := by
  have honly := onlyProps_nodeStatStatements hn hother hst
  refine (honly.statFrame.sameReleases hlabel).taxonomyPart (fun key hkey => honly.prop key ?_) hex
  -- No two statements write the same property.
  simp only [List.mem_cons, List.not_mem_nil, or_false, not_or] at hother
  intro hkey'
  rcases i with _ | _ | _ | i <;> rcases j with _ | _ | _ | j <;>
    simp [partKeys] at hkey hkey' <;> grind

/-- **A statement of a sweep leaves exact aggregates.** -/
theorem exactPart_statement (h : Schema g) {sweep : SweepName} {key : String} {i : ℕ}
    {st : Statement} (hst : (keyStatements E allCategories sweep key)[i]? = some st)
    (hmem : sweepNode sweep key ∈ g.nodes) :
    ExactPart allCategories (st g).1 sweep i (sweepNode sweep key) := by
  obtain ⟨hframe, hschema⟩ := keyStatements_frame h hst hmem
  cases sweep with
  | genreStats => exact taxonomyPart_statement h hmem (by rintro ⟨⟩) (by decide) hst
  | styleStats => exact taxonomyPart_statement h hmem (by rintro ⟨⟩) (by decide) hst
  | labelStats =>
    rintro rfl
    obtain rfl := Option.some.inj hst
    exact (hframe.sameReleases (by rintro ⟨⟩)).labelStats
      (setLabelStats_spec E (.refl g) h.oneEdge h.release h.styleSchema hmem rfl).2.2
  | artistStats =>
    rintro rfl
    obtain rfl := Option.some.inj hst
    obtain ⟨-, ⟨hrc, hlc, hpg⟩, -⟩ := setArtistStats_spec (E := E) hmem
    change Schema (setArtistStats E (sweepNode .artistStats key) g).1 at hschema
    rw [artistReleaseCount_eq] at hrc
    rw [artistLabelCount_eq E hschema.release] at hlc
    exact ⟨hrc, hlc, fun htext =>
      ⟨_, primaryGenre_spec E hschema.oneEdge hschema.release htext _, hpg⟩⟩
  | personCreditCounts =>
    rintro rfl
    obtain rfl := Option.some.inj hst
    obtain ⟨honly, hsettled⟩ := setCreditCounts_spec E allCategories hmem
    rw [← creditCounts_congr E E honly.edges, creditCounts_eq] at hsettled
    refine ⟨hsettled _ (List.mem_cons_self ..), fun category hc => ?_⟩
    exact hsettled _ (List.mem_cons_of_mem _ (List.mem_map.mpr ⟨category, hc, rfl⟩))

end Statements

/-! ### Upkeep -/

/-- The arcs that the aggregates of a node are read from. -/
def ReadFor (n : Node) (a : Arc Node Rel) : Prop :=
  a.src.label = .release ∧ a.kind ∈ [Rel.BY, .ON, .IS] ∨
    a.kind.isCreditedOn = true ∧ a.src.label = .person ∧ a.dst.label = .release ∨
    a.src = n ∧ a.kind = .HAS_STYLE

section Upkeep

variable {env : Env} {allCategories : List String} {g g' : Graph} {n : Node}

/-- A deletion that spares the edges that the aggregates of a node are read from. -/
theorem sameReading_of_deletion (hrow : ∀ v ∈ g'.nodes, g'.nodes.row v = g.nodes.row v)
    (hsub : ∀ e ∈ g'.edges, e ∈ g.edges ∧ g'.edges.row e = g.edges.row e)
    (hkept : ∀ e ∈ g.edges, ReadFor n e.arc → e ∈ g'.edges)
    (hgenre : ∀ name, (.genre name : Node) ∈ g.nodes → (.genre name : Node) ∈ g'.nodes)
    (hn : n ∈ g'.nodes) : SameReading n g g' where
  releases :=
    { link := fun e hr hkind => ⟨fun he => (hsub e he).1,
        fun he => hkept e he (Or.inl ⟨hr, hkind⟩)⟩
      credit := fun e hkind hsrc hdst => ⟨fun he => (hsub e he).1,
        fun he => hkept e he (Or.inr (Or.inl ⟨hkind, hsrc, hdst⟩))⟩
      category := fun e he _ => (hsub e he).2
      year := fun r hr _ => congrFun (hrow r hr) _
      genre := hgenre }
  own key _ := congrFun (hrow n hn) key
  style e hsrc hkind := ⟨⟨fun he => (hsub e he).1,
    fun he => hkept e he (Or.inr (Or.inr ⟨hsrc, hkind⟩))⟩, fun he => (hsub e he).2⟩

/-- Where nodes are deleted that are at none of these edges. -/
theorem sameReading_detachDelete {p : Node → Prop} [DecidablePred p]
    (hspared : ∀ e ∈ g.edges, ReadFor n e.arc → ¬p n → ¬p e.arc.src ∧ ¬p e.arc.dst)
    (hgenre : ∀ name, ¬p (.genre name)) (hn : n ∈ (g.detachDelete p).nodes) :
    SameReading n g (g.detachDelete p) := by
  refine sameReading_of_deletion (fun v hv => ?_) (fun e he => ?_) (fun e he hread => ?_)
    (fun name hname => mem_nodes_detachDelete.mpr ⟨hname, hgenre name⟩) hn
  · rw [row_nodes_detachDelete, if_neg (mem_nodes_detachDelete.mp hv).2]
  · obtain ⟨he, hsrc, hdst⟩ := mem_edges_detachDelete.mp he
    refine ⟨he, ?_⟩
    rw [row_edges_detachDelete, if_pos ⟨hsrc, hdst⟩]
  · exact mem_edges_detachDelete.mpr ⟨he, hspared e he hread (mem_nodes_detachDelete.mp hn).2⟩

/-- No edge that aggregates are read from is at a master. -/
theorem ends_of_readFor (h : Schema g) {e : Edge Node Rel} (he : e ∈ g.edges)
    (hread : ReadFor n e.arc) : e.arc.src.label ≠ .master ∧ e.arc.dst.label ≠ .master := by
  rcases hread with ⟨hr, hkind⟩ | ⟨-, hp, hr⟩ | ⟨-, hkind⟩
  · refine ⟨by rw [hr]; rintro ⟨⟩, ?_⟩
    simp only [List.mem_cons, List.not_mem_nil, or_false] at hkind
    rcases hkind with hkind | hkind | hkind
    · rw [h.release.by_artist e he hr hkind]
      rintro ⟨⟩
    · rw [h.release.on_label e he hr hkind]
      rintro ⟨⟩
    · rcases h.release.is_taxonomy e he hr hkind with hl | hl <;> rw [hl] <;> rintro ⟨⟩
  · exact ⟨by rw [hp]; rintro ⟨⟩, by rw [hr]; rintro ⟨⟩⟩
  · obtain ⟨hsrc, hdst⟩ := h.style e he hkind
    exact ⟨by rw [hsrc]; rintro ⟨⟩, by rw [hdst]; rintro ⟨⟩⟩

theorem not_atSentinel (h : Schema g) {e : Edge Node Rel} (he : e ∈ g.edges)
    (hread : ReadFor n e.arc) : ¬AtSentinel e.arc := by
  obtain ⟨hsrc, hdst⟩ := ends_of_readFor h he hread
  rintro (hat | hat)
  · exact hsrc (by rw [hat]; rfl)
  · exact hdst (by rw [hat]; rfl)

/-- A cleanup spares what aggregates are read from: a stub is at HAS_STYLE edges only, and no style
is collected. -/
theorem Cleanup.Lacks.sameReading (hlacks : Cleanup.Lacks g g') (h : Schema g) (hn : n ∈ g'.nodes) :
    SameReading n g g' := by
  obtain ⟨deleted, hdeleted, rfl⟩ := hlacks
  have hlabels : ∀ v ∈ deleted, v.label ≠ .genre ∧ v.label ≠ .style := by
    rintro v hv
    obtain ⟨⟨t, -, hlabel⟩, -⟩ := hdeleted v hv
    rw [hlabel]
    cases t <;> exact ⟨by rintro ⟨⟩, by rintro ⟨⟩⟩
  refine sameReading_detachDelete (fun e he hread hn => ?_)
    (fun name hname => (hlabels _ hname).1 rfl) hn
  have hspared (hkind : e.arc.kind ≠ .HAS_STYLE) : e.arc.src ∉ deleted ∧ e.arc.dst ∉ deleted :=
    notMem_of_kind (fun w hw => (hdeleted w hw).2) he hkind
  rcases hread with ⟨-, hkind⟩ | ⟨hkind, -⟩ | ⟨hsrc, hkind⟩
  · exact hspared fun heq => absurd (heq ▸ hkind) (by decide)
  · exact hspared fun heq => absurd (heq ▸ hkind) (by decide)
  · exact ⟨hsrc ▸ hn, fun hdst => (hlabels _ hdst).2 (h.style e he hkind).2⟩

/-- **What upkeep does to the aggregates of a node**: it is a statement of the node, or what they
are read from is the same. -/
theorem Upkeep.sameReading (hup : Upkeep env allCategories g g') (h : Schema g) {sweep : SweepName}
    {key : String} (hmem : sweepNode sweep key ∈ g'.nodes) :
    (sweepNode sweep key ∈ g.nodes ∧ ∃ (E : Enumeration) (i : ℕ) (st : Statement),
      (keyStatements E allCategories sweep key)[i]? = some st ∧ g' = (st g).1) ∨
      SameReading (sweepNode sweep key) g g' := by
  cases hup with
  | @statement E sweep' key' i st hst hmem' =>
    obtain ⟨hframe, -⟩ := keyStatements_frame h hst hmem'
    by_cases heq : sweepNode sweep key = sweepNode sweep' key'
    · obtain ⟨rfl, rfl⟩ := sweepNode_inj.mp heq
      exact Or.inl ⟨hmem', E, i, st, hst, rfl⟩
    · exact Or.inr (hframe.sameReading (by cases sweep' <;> rintro ⟨⟩) heq)
  | cleanup hreach => exact Or.inr ((Cleanup.Inv.reachable hreach).lacks.sameReading h hmem)
  | sentinelEdges chunk =>
    refine Or.inr (sameReading_of_deletion (fun _ _ => rfl) (fun e he => ?_) (fun e he hread => ?_)
      (fun _ => id) hmem)
    · obtain ⟨he, hp⟩ := mem_edges_deleteEdges.mp he
      exact ⟨he, row_edges_deleteEdges.trans (if_neg hp)⟩
    · exact mem_edges_deleteEdges.mpr ⟨he, fun hp => not_atSentinel h he hread hp.2⟩
  | sentinelMaster =>
    refine Or.inr (sameReading_detachDelete (fun e he hread _ => ?_) (fun _ => by rintro ⟨⟩) hmem)
    have hat := not_atSentinel h he hread
    exact ⟨fun hsrc => hat (Or.inl hsrc), fun hdst => hat (Or.inr hdst)⟩
  | backfill kind lines =>
    obtain ⟨hnodes, hedges, hprops⟩ := backfill_frame env kind lines g
    refine Or.inr ⟨⟨fun e _ _ => by rw [hedges], fun e _ _ _ => by rw [hedges],
      fun e _ _ => by rw [hedges], fun r _ _ => hprops r "year" (by decide),
      fun name => (hnodes _).mpr⟩, hprops _, fun e _ _ => ?_⟩
    rw [hedges]
    exact ⟨Iff.rfl, fun _ => rfl⟩

/-- **Upkeep keeps exact aggregates exact**, on the nodes that it leaves. -/
theorem Upkeep.exactPart (hup : Upkeep env allCategories g g') (h : Schema g) {sweep : SweepName}
    {i : ℕ} {key : String} (hmem : sweepNode sweep key ∈ g'.nodes)
    (hex : ExactPart allCategories g sweep i (sweepNode sweep key)) :
    ExactPart allCategories g' sweep i (sweepNode sweep key) := by
  rcases hup.sameReading h hmem with ⟨hmem', E, j, st, hst, rfl⟩ | hread
  · rcases eq_or_ne i j with rfl | hne
    · exact exactPart_statement h hst hmem'
    · cases sweep with
      | genreStats => exact taxonomyPart_other hmem' (by rintro ⟨⟩) (by decide) hst hne hex
      | styleStats => exact taxonomyPart_other hmem' (by rintro ⟨⟩) (by decide) hst hne hex
      | labelStats | artistStats | personCreditCounts =>
        -- There is one statement only.
        rcases j with _ | j
        · exact fun hi => absurd hi hne
        · cases hst
  · exact hex.of_sameReading hread

end Upkeep

/-- **Aggregates stay exact.** In any graph of the service, a statement of a sweep leaves what it
stores on its node exact. As long as no record is written it stays so, whatever other statements of
the sweeps, cleanups, aborted ones among them, and backfills run after it and in whatever order: as
long as the node is there, its aggregates are what the graph of the moment says they are. -/
theorem aggregates_stay_exact {env : Env} {allCategories : List String}
    {written : List (DataType × PyValue)} {g g' : Graph}
    (h : Reached env allCategories written g) {E : Enumeration} {sweep : SweepName} {key : String}
    {i : ℕ} {st : Statement} (hst : (keyStatements E allCategories sweep key)[i]? = some st)
    (hmem : sweepNode sweep key ∈ g.nodes)
    (hrun : Relation.ReflTransGen (Upkeep env allCategories) (st g).1 g')
    (hstill : sweepNode sweep key ∈ g'.nodes) :
    ExactPart allCategories g' sweep i (sweepNode sweep key) := by
  have hschema := h.grounded.schema
  -- Upkeep adds no nodes, so that the node was there all the time.
  suffices hboth : Schema g' ∧ (sweepNode sweep key ∈ g'.nodes →
      ExactPart allCategories g' sweep i (sweepNode sweep key)) from hboth.2 hstill
  clear hstill
  induction hrun with
  | refl =>
    exact ⟨(keyStatements_frame hschema hst hmem).2, fun _ => exactPart_statement hschema hst hmem⟩
  | tail _ hup ih =>
    obtain ⟨hschema', hnodes, -⟩ := hup.schema ih.1
    exact ⟨hschema', fun hstill => hup.exactPart ih.1 hstill (ih.2 (hnodes _ hstill))⟩

/-- The first statement of the genre of one release, and the sentinel cleanup after it. -/
theorem aggregates_stay_exact_one_genre :
    let n : Node := .genre (.str "Rock")
    let g := (setAll n (releaseCountMetric default n) rockGraph).1
    prop (deleteSentinelMaster g) n "release_count" =
      .int (releasesOf (deleteSentinelMaster g) n .IS).card := by
  intro n g
  have hst : (keyStatements default [] .genreStats "Rock")[0]? =
      some (setAll n (releaseCountMetric default n)) := rfl
  have hmem : sweepNode .genreStats "Rock" ∈ rockGraph.nodes := by decide
  obtain ⟨hframe, -⟩ := keyStatements_frame rockGraph_reached.grounded.schema hst hmem
  have hrun : Relation.ReflTransGen (Upkeep plainEnv []) g (deleteSentinelMaster g) :=
    .single .sentinelMaster
  exact aggregates_stay_exact rockGraph_reached hst hmem hrun
    (mem_nodes_detachDelete.mpr ⟨(hframe.mem_nodes _).mpr hmem, by rintro ⟨⟩⟩)

end Graphinator
