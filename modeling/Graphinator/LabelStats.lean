import Graphinator.CreditCounts
import Graphinator.TaxonomyStats

/-!
# The statistics of labels

`build_label_stats_page_cypher`: one statement writes three counts of each label on a page, and one
HAS_STYLE edge for each style of its releases. Stale edges are deleted first.

## Main definitions

* `labelStyles`, `setLabelStats`, `labelStatsPage`.
* `LabelStats` : what the statement is meant to leave for a label.
* `StatRun` : what the Genre, Style and Label sweeps run.

## Main results

* `setLabelStats_spec` : what the statement leaves for one label.
* `statistics_exact` : what the three sweeps leave; the Label statement then writes nothing.
* `statistics_counterexample` : the edges that no projection writes.
-/

namespace Graphinator

open PropertyGraph

/-! ### The statement -/

/-- `OPTIONAL MATCH (l)<-[:ON]-(r:Release)-[:BY|IS]->(t) WHERE t:Artist OR t:Genre OR t:Style
WITH t, count(r) AS n`. -/
def labelTargets (E : Enumeration) (g : Graph) (l : Node) : List (Option Node × ℕ) :=
  groupCounts E (·.2.arc.dst) (expansion g l .ON [.BY, .IS] [.artist, .genre, .style])

/-- `count(CASE WHEN t:target THEN 1 END)`. -/
def labelTargetCount (E : Enumeration) (g : Graph) (l : Node) (target : Label) : ℕ :=
  countSome ((labelTargets E g l).map fun group =>
    if group.1.any (·.label = target) then some 1 else none)

/-- `collect(CASE WHEN t:Style THEN {style: t, releases: n} END)`. -/
def labelStyles (E : Enumeration) (g : Graph) (l : Node) : List (Node × ℕ) :=
  (labelTargets E g l).filterMap fun group => match group with
    | (some t, n) => if t.label = .style then some (t, n) else none
    | (none, _) => none

/-- `count(DISTINCT r)`. -/
def labelReleaseCount (E : Enumeration) (g : Graph) (l : Node) : ℕ :=
  countDistinct ((optionalMatch (E.list (releaseEdges g l .ON))).map (Option.map (·.arc.src)))

/-- The properties of a label. -/
def labelCounts (E : Enumeration) (g : Graph) (l : Node) : List (String × PyValue) :=
  [("release_count", .int (labelReleaseCount E g l)),
   ("artist_count", .int (labelTargetCount E g l .artist)),
   ("genre_count", .int (labelTargetCount E g l .genre))]

/-- `MATCH (l)-[stale:HAS_STYLE]->(old:Style) WHERE NOT old IN styles DELETE stale`. -/
def deleteStaleStyles (E : Enumeration) (l : Node) (styles : List Node) : Statement := emit fun g =>
  (E.list (g.edges.keys.filter fun e => e.arc.src = l ∧ e.arc.kind = .HAS_STYLE ∧
    e.arc.dst.label = .style ∧ e.arc.dst ∉ styles)).map .deleteEdge

/-- `MERGE (l)-[h:HAS_STYLE]->(style)`. -/
def mergeHasStyle (l style : Node) : Statement := emit fun g =>
  if g.HasArc ⟨.HAS_STYLE, l, style⟩ then [] else [.createEdge ⟨.HAS_STYLE, l, style⟩]

/-- `FOREACH (_ IN CASE WHEN h.release_count IS NULL OR h.release_count <> releases THEN [1] ELSE []
END | SET h.release_count = releases)`, for the edges that the `MERGE` binds. -/
def setStyleReleases (E : Enumeration) (l style : Node) (releases : ℕ) : Statement := emit fun g =>
  (E.list (g.edges.keys.filter fun e => e.arc = ⟨.HAS_STYLE, l, style⟩ ∧
    (g.edges.row e "release_count" = .null ∨
      cypherNumber (g.edges.row e "release_count") ≠ .int releases))).map
    fun e => .setEdge e "release_count" (.int releases)

/-- `UNWIND styles AS row`, for one row. -/
def mergeStyleRow (E : Enumeration) (l : Node) (row : Node × ℕ) : Statement := fun g =>
  seqAll (fun clause => clause) [mergeHasStyle l row.1, setStyleReleases E l row.1 row.2] g

/-- The statement for one label. -/
def setLabelStats (E : Enumeration) (l : Node) : Statement := fun g =>
  seqAll (fun clause => clause)
    [seqAll (fun kv => guardedSet l kv.1 kv.2) (labelCounts E g l),
     deleteStaleStyles E l ((labelStyles E g l).map (·.1)),
     seqAll (mergeStyleRow E l) (labelStyles E g l)] g

/-- `build_label_stats_page_cypher`. -/
def labelStatsPage (E : Enumeration) (cursor : String) (size : ℕ) : Statement := fun g =>
  seqAll (fun id => setLabelStats E (.ofLabel (.str id)))
    (firstPage (keyTexts g .label) cursor size) g

/-! ### What it computes -/

/-- The statistics of a label: its counts, and one HAS_STYLE edge for each style of its releases. -/
structure LabelStats (g₀ g : Graph) (l : Node) : Prop where
  release_count : Settled g l ("release_count", .int (releasesOf g₀ l .ON).card)
  artist_count : Settled g l ("artist_count", .int (targetsOf g₀ l .ON .BY .artist).card)
  genre_count : Settled g l ("genre_count", .int (targetsOf g₀ l .ON .IS .genre).card)
  style_mem : ∀ e ∈ g.edges, e.arc.src = l → e.arc.kind = .HAS_STYLE →
    e.arc.dst ∈ targetsOf g₀ l .ON .IS .style ∧ g.edges.row e "release_count" ≠ .null ∧
      cypherNumber (g.edges.row e "release_count") =
        .int (releasesTo g₀ l .ON .IS e.arc.dst).card
  style_unique : ∀ t ∈ targetsOf g₀ l .ON .IS .style,
    ∃! e, e ∈ g.edges ∧ e.arc = ⟨.HAS_STYLE, l, t⟩

/-- HAS_STYLE edges lead from a label to a style, at most one for each pair. -/
structure StyleSchema (g : Graph) : Prop where
  style : ∀ e ∈ g.edges, e.arc.src.label = .label → e.arc.kind = .HAS_STYLE → e.arc.dst.label = .style
  unique : ∀ e ∈ g.edges, ∀ e' ∈ g.edges, e.arc.src.label = .label → e.arc.kind = .HAS_STYLE →
    e.arc = e'.arc → e = e'

section Values

variable {E : Enumeration} {g : Graph} {l : Node}

theorem labelReleaseCount_eq (E : Enumeration) (g : Graph) (l : Node) :
    labelReleaseCount E g l = (releasesOf g l .ON).card := countDistinct_releases E g l .ON

theorem labelTargetCount_eq (E : Enumeration) (hs : ReleaseSchema g) (l : Node) {target : Label}
    (ht : target ∈ [Label.artist, .genre, .style]) :
    labelTargetCount E g l target = (targetsOf g l .ON (schemaRel target) target).card := by
  have hcount := countSome_groupCounts E (fun x : Edge Node Rel × Edge Node Rel => x.2.arc.dst)
    (expansion g l .ON [.BY, .IS] [.artist, .genre, .style]) fun t : Node => decide (t.label = target)
  exact hcount.trans (congrArg Finset.card (image_expansion hs (by decide) (by decide) ht))

/-- The styles of a label, each with the number of its releases. -/
theorem mem_labelStyles (E : Enumeration) (hone : OneEdge g) (hs : ReleaseSchema g) {t : Node}
    {n : ℕ} : (t, n) ∈ labelStyles E g l ↔
      t ∈ targetsOf g l .ON .IS .style ∧ n = (releasesTo g l .ON .IS t).card := by
  have hgroup : (t, n) ∈ labelStyles E g l ↔ (some t, n) ∈ labelTargets E g l ∧ t.label = .style := by
    simp only [labelStyles, List.mem_filterMap]
    constructor
    · rintro ⟨⟨_ | t', n'⟩, hmem, heq⟩
      · cases heq
      · obtain ⟨hl, heq⟩ := Option.ite_none_right_eq_some.mp heq
        cases heq
        exact ⟨hmem, hl⟩
    · rintro ⟨hmem, hl⟩
      exact ⟨_, hmem, if_pos hl⟩
  rw [hgroup, labelTargets, mem_groupCounts]
  have himage : (((expansion g l .ON [.BY, .IS] [.artist, .genre, .style]).image
      (·.2.arc.dst)).filter fun u => decide (u.label = .style) = true) =
        targetsOf g l .ON .IS .style := image_expansion hs (by decide) (by decide) (by decide)
  have ht : t ∈ targetsOf g l .ON .IS .style ↔ (∃ x ∈ expansion g l .ON [.BY, .IS]
      [.artist, .genre, .style], x.2.arc.dst = t) ∧ t.label = .style := by
    rw [← himage, Finset.mem_filter, Finset.mem_image, decide_eq_true_eq]
  have hcard : t.label = .style → ((expansion g l .ON [.BY, .IS] [.artist, .genre, .style]).filter
      fun x => x.2.arc.dst = t).card = (releasesTo g l .ON .IS t).card := by
    intro hl
    have hrel : schemaRel t.label = .IS := by rw [hl]; rfl
    rw [← hrel]
    exact card_expansion_filter hone hs (by decide) (by rw [hrel]; decide) (by rw [hrel]; decide)
      (by simp [hl])
  rw [ht]
  constructor
  · rintro ⟨⟨hx, rfl⟩, hl⟩
    exact ⟨⟨hx, hl⟩, hcard hl⟩
  · rintro ⟨⟨hx, hl⟩, rfl⟩
    exact ⟨⟨hx, (hcard hl).symm⟩, hl⟩

end Values

/-! ### What the statement leaves -/

section Statement

variable {E : Enumeration} {g g' : Graph} {l t : Node} {n : ℕ}

/-- The edge to a style of a label, with the number of its releases. -/
structure StyleRow (g : Graph) (l t : Node) (n : ℕ) : Prop where
  unique : ∃! e, e ∈ g.edges ∧ e.arc = ⟨.HAS_STYLE, l, t⟩
  release_count : ∀ e ∈ g.edges, e.arc = ⟨.HAS_STYLE, l, t⟩ →
    g.edges.row e "release_count" ≠ .null ∧ cypherNumber (g.edges.row e "release_count") = .int n

/-- What the row of a style leaves alone. -/
structure StyleFrame (a : Arc Node Rel) (g g' : Graph) : Prop where
  mem_nodes (v : Node) : v ∈ g'.nodes ↔ v ∈ g.nodes
  row_nodes : g'.nodes.row = g.nodes.row
  mem_edges (e : Edge Node Rel) : e.arc ≠ a → (e ∈ g'.edges ↔ e ∈ g.edges)
  row_edges (e : Edge Node Rel) : e.arc ≠ a → g'.edges.row e = g.edges.row e

theorem StyleFrame.trans {a : Arc Node Rel} {g'' : Graph} (h : StyleFrame a g g')
    (h' : StyleFrame a g' g'') : StyleFrame a g g'' where
  mem_nodes v := (h'.mem_nodes v).trans (h.mem_nodes v)
  row_nodes := h'.row_nodes.trans h.row_nodes
  mem_edges e he := (h'.mem_edges e he).trans (h.mem_edges e he)
  row_edges e he := (h'.row_edges e he).trans (h.row_edges e he)

theorem mergeHasStyle_spec (hl : l ∈ g.nodes) (ht : t ∈ g.nodes)
    (hunique : ∀ e ∈ g.edges, ∀ e' ∈ g.edges, e.arc = ⟨.HAS_STYLE, l, t⟩ → e.arc = e'.arc → e = e') :
    StyleFrame ⟨.HAS_STYLE, l, t⟩ g (mergeHasStyle l t g).1 ∧
      ∃! e, e ∈ (mergeHasStyle l t g).1.edges ∧ e.arc = ⟨.HAS_STYLE, l, t⟩ := by
  by_cases harc : g.HasArc ⟨.HAS_STYLE, l, t⟩
  · have hgraph : (mergeHasStyle l t g).1 = g := by
      simp only [mergeHasStyle, emit, if_pos harc, runAll_nil]
    rw [hgraph]
    refine ⟨⟨fun _ => Iff.rfl, rfl, fun _ _ => Iff.rfl, fun _ _ => rfl⟩, ?_⟩
    obtain ⟨e, he, hea⟩ := harc
    exact ⟨e, ⟨he, hea⟩, fun e' he' => hunique e' he'.1 e he he'.2 (he'.2.trans hea.symm)⟩
  · have hgraph : (mergeHasStyle l t g).1 = g.mergeEdge ⟨.HAS_STYLE, l, t⟩ id := by
      simp only [mergeHasStyle, emit, if_neg harc]
      rfl
    rw [hgraph]
    refine ⟨⟨fun v => ?_, row_nodes_mergeEdge, fun e he => ?_, fun e he => ?_⟩, ⟨_, 0⟩, ⟨?_, rfl⟩,
      ?_⟩
    · rw [mem_nodes_mergeEdge]
      constructor
      · rintro (rfl | rfl | hv)
        · exact ht
        · exact hl
        · exact hv
      · exact fun hv => Or.inr (Or.inr hv)
    · rw [mem_edges_mergeEdge, or_iff_left]
      rintro ⟨rfl, -⟩
      exact he rfl
    · rw [row_edges_mergeEdge, if_neg fun h => he h.2]
    · exact mem_edges_mergeEdge.mpr (Or.inr ⟨rfl, harc⟩)
    · rintro e ⟨he, hea⟩
      rcases mem_edges_mergeEdge.mp he with he | ⟨rfl, -⟩
      · exact absurd (hea ▸ hasArc_of_mem he) harc
      · rfl

theorem setStyleReleases_spec (E : Enumeration) (g : Graph) (l t : Node) (n : ℕ) :
    StyleFrame ⟨.HAS_STYLE, l, t⟩ g (setStyleReleases E l t n g).1 ∧
      (∀ e, e ∈ (setStyleReleases E l t n g).1.edges ↔ e ∈ g.edges) ∧
      ∀ e ∈ g.edges, e.arc = ⟨.HAS_STYLE, l, t⟩ →
        (setStyleReleases E l t n g).1.edges.row e "release_count" ≠ .null ∧
        cypherNumber ((setStyleReleases E l t n g).1.edges.row e "release_count") = .int n := by
  obtain ⟨hnodes, hmem, hrow⟩ := runAll_setEdge (g := g) (E.list (g.edges.keys.filter fun e =>
    e.arc = ⟨.HAS_STYLE, l, t⟩ ∧ (g.edges.row e "release_count" = .null ∨
      cypherNumber (g.edges.row e "release_count") ≠ .int n))) "release_count" (.int n)
  change (setStyleReleases E l t n g).1.nodes = g.nodes at hnodes
  change ∀ e, e ∈ (setStyleReleases E l t n g).1.edges ↔ e ∈ g.edges at hmem
  change ∀ e ∈ g.edges, (setStyleReleases E l t n g).1.edges.row e = _ at hrow
  simp only [E.mem_list, Finset.mem_filter] at hrow
  refine ⟨⟨fun v => by rw [hnodes], by rw [hnodes], fun e _ => hmem e, fun e he => ?_⟩, hmem,
    fun e hmem' he => ?_⟩
  · by_cases hmem' : e ∈ g.edges
    · rw [hrow e hmem', if_neg fun h => he h.2.1]
    · rw [Table.row_of_notMem _ _ hmem', Table.row_of_notMem _ _ fun h => hmem' ((hmem e).mp h)]
  · rw [hrow e hmem']
    split_ifs with hstale
    · rw [Function.update_self]
      exact ⟨nofun, rfl⟩
    · by_contra hne
      refine hstale ⟨hmem', he, ?_⟩
      by_contra hsettled
      exact hne ⟨fun h => hsettled (Or.inl h), by_contra fun h => hsettled (Or.inr h)⟩

/-- What the row of a style leaves. -/
theorem mergeStyleRow_spec (E : Enumeration) (hl : l ∈ g.nodes) (ht : t ∈ g.nodes)
    (hunique : ∀ e ∈ g.edges, ∀ e' ∈ g.edges, e.arc = ⟨.HAS_STYLE, l, t⟩ → e.arc = e'.arc → e = e') :
    StyleFrame ⟨.HAS_STYLE, l, t⟩ g (mergeStyleRow E l (t, n) g).1 ∧
      StyleRow (mergeStyleRow E l (t, n) g).1 l t n := by
  obtain ⟨hframe, e, ⟨he, hea⟩, honly⟩ := mergeHasStyle_spec hl ht hunique
  obtain ⟨hframe', hmem, hcount⟩ := setStyleReleases_spec E (mergeHasStyle l t g).1 l t n
  refine ⟨hframe.trans hframe', ⟨e, ⟨(hmem e).mpr he, hea⟩, fun e' he' => ?_⟩, fun e' he' => ?_⟩
  · exact honly e' ⟨(hmem e').mp he'.1, he'.2⟩
  · exact hcount e' ((hmem e').mp he')

theorem StyleRow.of_frame (h : StyleRow g l t n) {a : Arc Node Rel} (hf : StyleFrame a g g')
    (hne : (⟨.HAS_STYLE, l, t⟩ : Arc Node Rel) ≠ a) : StyleRow g' l t n := by
  have hmem : ∀ e : Edge Node Rel, e.arc = ⟨.HAS_STYLE, l, t⟩ → (e ∈ g'.edges ↔ e ∈ g.edges) :=
    fun e he => hf.mem_edges e (he ▸ hne)
  obtain ⟨e, ⟨he, hea⟩, honly⟩ := h.unique
  refine ⟨⟨e, ⟨(hmem e hea).mpr he, hea⟩, fun e' he' => ?_⟩, fun e' he' hea' => ?_⟩
  · exact honly e' ⟨(hmem e' he'.2).mp he'.1, he'.2⟩
  · rw [hf.row_edges e' (hea' ▸ hne)]
    exact h.release_count e' ((hmem e' hea').mp he') hea'

/-- The HAS_STYLE edges of a label: at most one to each style. -/
def OneStyle (g : Graph) (l : Node) : Prop :=
  ∀ e ∈ g.edges, ∀ e' ∈ g.edges, e.arc.src = l → e.arc.kind = .HAS_STYLE → e.arc = e'.arc → e = e'

/-- What the rows of the styles leave. -/
structure StylesMerged (l : Node) (styles : List Node) (g g' : Graph) : Prop where
  frame : StatFrame l g g'
  unique : OneStyle g' l
  mem : ∀ e ∈ g'.edges, e.arc.src = l → e.arc.kind = .HAS_STYLE → e ∈ g.edges ∨ e.arc.dst ∈ styles

theorem StylesMerged.step {styles : List Node} {g'' : Graph} (h : StylesMerged l styles g g')
    (ht : t ∈ styles) (hf : StyleFrame ⟨.HAS_STYLE, l, t⟩ g' g'') (hrow : StyleRow g'' l t n) :
    StylesMerged l styles g g'' := by
  refine ⟨h.frame.trans ⟨hf.mem_nodes, fun v _ => by rw [hf.row_nodes], fun e he => ?_,
    fun e he => ?_⟩, fun e he e' he' hsrc hk harc => ?_, fun e he hsrc hk => ?_⟩
  · exact hf.mem_edges e fun heq => he ⟨by rw [heq], by rw [heq]⟩
  · exact hf.row_edges e fun heq => he ⟨by rw [heq], by rw [heq]⟩
  · by_cases hea : e.arc = ⟨.HAS_STYLE, l, t⟩
    · exact hrow.unique.unique ⟨he, hea⟩ ⟨he', harc ▸ hea⟩
    · exact h.unique e ((hf.mem_edges e hea).mp he) e' ((hf.mem_edges e' (harc ▸ hea)).mp he') hsrc hk
        harc
  · by_cases hea : e.arc = ⟨.HAS_STYLE, l, t⟩
    · exact Or.inr (by rwa [hea])
    · exact h.mem e ((hf.mem_edges e hea).mp he) hsrc hk

theorem mergeStyles_spec (E : Enumeration) (rows : List (Node × ℕ)) (count : Node → ℕ)
    (hl : l ∈ g.nodes) (hrows : ∀ row ∈ rows, row.1 ∈ g.nodes ∧ row.2 = count row.1)
    (hunique : OneStyle g l) :
    let g' := (seqAll (mergeStyleRow E l) rows g).1
    StylesMerged l (rows.map (·.1)) g g' ∧ ∀ row ∈ rows, StyleRow g' l row.1 (count row.1) := by
  intro g'
  suffices h : StylesMerged l (rows.map (·.1)) g g' ∧
      ∀ row ∈ rows, ∀ t ∈ ({row.1} : Set Node), StyleRow g' l t (count t) from
    ⟨h.1, fun row hrow => h.2 row hrow row.1 rfl⟩
  refine seqAll_cover (I := StylesMerged l (rows.map (·.1)) g)
    (Q := fun g' t => StyleRow g' l t (count t)) (fun row hrow g' hI => ?_)
    ⟨.refl l g, hunique, fun e he _ _ => Or.inl he⟩
  obtain ⟨t, n⟩ := row
  obtain ⟨ht, hn⟩ := hrows (t, n) hrow
  change n = count t at hn
  subst hn
  obtain ⟨hframe, hstyle⟩ := mergeStyleRow_spec (n := count t) E ((hI.frame.mem_nodes l).mpr hl)
    ((hI.frame.mem_nodes t).mpr ht) fun e he e' he' hea =>
      hI.unique e he e' he' (by rw [hea]) (by rw [hea])
  refine ⟨hI.step (List.mem_map_of_mem hrow) hframe hstyle, ?_, fun t' hne ht' => ?_⟩
  · rintro _ rfl
    exact hstyle
  · exact ht'.of_frame hframe fun heq => hne (by simpa using heq)

/-- What the deletion of stale edges leaves. -/
theorem deleteStaleStyles_spec (E : Enumeration) (g : Graph) (l : Node) (styles : List Node) :
    let g' := (deleteStaleStyles E l styles g).1
    StatFrame l g g' ∧ g'.nodes = g.nodes ∧ (∀ e ∈ g'.edges, e ∈ g.edges) ∧
      ∀ e ∈ g'.edges, e.arc.src = l → e.arc.kind = .HAS_STYLE → e.arc.dst.label = .style →
        e.arc.dst ∈ styles := by
  obtain ⟨hnodes, hmem, hrow⟩ := runAll_deleteEdge (g := g) (E.list (g.edges.keys.filter fun e =>
    e.arc.src = l ∧ e.arc.kind = .HAS_STYLE ∧ e.arc.dst.label = .style ∧ e.arc.dst ∉ styles))
  change (deleteStaleStyles E l styles g).1.nodes = g.nodes at hnodes
  change ∀ e, e ∈ (deleteStaleStyles E l styles g).1.edges ↔ _ at hmem
  change ∀ e, _ → (deleteStaleStyles E l styles g).1.edges.row e = _ at hrow
  simp only [E.mem_list, Finset.mem_filter] at hmem hrow
  intro g'
  refine ⟨⟨fun v => by rw [hnodes], fun v _ => by rw [hnodes], fun e he => ?_, fun e he => ?_⟩, hnodes,
    fun e he => ((hmem e).mp he).1, fun e he hsrc hk hl => ?_⟩
  · exact (hmem e).trans (and_iff_left fun h => he ⟨h.2.1, h.2.2.1⟩)
  · exact hrow e fun h => he ⟨h.2.1, h.2.2.1⟩
  · obtain ⟨he, hkept⟩ := (hmem e).mp he
    by_contra hstale
    exact hkept ⟨he, hsrc, hk, hl, hstale⟩

/-! ### One label -/

variable {g₀ : Graph}

theorem labelCounts_eq (E : Enumeration) (h : SameCatalog g₀ g) (hs : ReleaseSchema g₀) (l : Node) :
    labelCounts E g l =
      [("release_count", .int (releasesOf g₀ l .ON).card),
       ("artist_count", .int (targetsOf g₀ l .ON .BY .artist).card),
       ("genre_count", .int (targetsOf g₀ l .ON .IS .genre).card)] := by
  have hs' := h.releaseSchema hs
  rw [labelCounts, labelReleaseCount_eq, labelTargetCount_eq E hs' l (by decide),
    labelTargetCount_eq E hs' l (by decide), h.releasesOf_eq (by decide),
    h.targetsOf_eq (by decide) (by decide), h.targetsOf_eq (by decide) (by decide)]
  rfl

theorem mem_labelStyles_of_same (E : Enumeration) (h : SameCatalog g₀ g) (hone : OneEdge g₀)
    (hs : ReleaseSchema g₀) : (t, n) ∈ labelStyles E g l ↔
      t ∈ targetsOf g₀ l .ON .IS .style ∧ n = (releasesTo g₀ l .ON .IS t).card := by
  rw [mem_labelStyles E (h.oneEdge hone) (h.releaseSchema hs), h.targetsOf_eq (by decide) (by decide),
    h.releasesTo_eq (by decide) (by decide)]

/-- The HAS_STYLE edges of the other labels are as they were. -/
theorem StyleSchema.of_frame (h : StyleSchema g) (hf : StatFrame l g g')
    (hone : l.label = .label → OneStyle g' l)
    (hdst : l.label = .label → ∀ e ∈ g'.edges, e.arc.src = l → e.arc.kind = .HAS_STYLE →
      e.arc.dst.label = .style) : StyleSchema g' where
  style e he hlabel hk := by
    by_cases hsrc : e.arc.src = l
    · exact hdst (hsrc ▸ hlabel) e he hsrc hk
    · exact h.style e ((hf.mem_edges e fun hs => hsrc hs.1).mp he) hlabel hk
  unique e he e' he' hlabel hk harc := by
    by_cases hsrc : e.arc.src = l
    · exact hone (hsrc ▸ hlabel) e he e' he' hsrc hk harc
    · have hsrc' : ¬(e'.arc.src = l ∧ e'.arc.kind = .HAS_STYLE) := fun hs => hsrc (harc ▸ hs.1)
      exact h.unique e ((hf.mem_edges e fun hs => hsrc hs.1).mp he) e' ((hf.mem_edges e' hsrc').mp he')
        hlabel hk harc

/-- The rows of the styles write no node. -/
theorem row_nodes_mergeStyles (E : Enumeration) (rows : List (Node × ℕ)) :
    (seqAll (mergeStyleRow E l) rows g).1.nodes.row = g.nodes.row := by
  refine seqAll_invariant (I := fun t => t.nodes.row = g.nodes.row) (fun row _ t ht => ?_) rfl
  refine (setStyleReleases_spec E _ l row.1 row.2).1.row_nodes.trans (Eq.trans ?_ ht)
  change (runAll _ (if _ then _ else _) t).nodes.row = _
  split_ifs
  · rfl
  · exact row_nodes_mergeEdge

/-- The counts are written on every graph, whatever its schema. -/
theorem settled_setLabelStats (E : Enumeration) (hl : l ∈ g.nodes) :
    ∀ kv ∈ labelCounts E g l, Settled (setLabelStats E l g).1 l kv := by
  intro kv hkv
  obtain ⟨-, hset⟩ := seqAll_guardedSet (labelCounts E g l) hl (by simp [labelCounts])
    (by simp [labelCounts])
  refine (hset kv hkv).of_row_eq ?_
  obtain ⟨-, hnodes, -⟩ := deleteStaleStyles_spec E
    (seqAll (fun kv => guardedSet l kv.1 kv.2) (labelCounts E g l) g).1 l
    ((labelStyles E g l).map (·.1))
  have hrow := row_nodes_mergeStyles (l := l) (g := (deleteStaleStyles E l
    ((labelStyles E g l).map (·.1)) (seqAll (fun kv => guardedSet l kv.1 kv.2)
      (labelCounts E g l) g).1).1) E (labelStyles E g l)
  exact congrFun (hrow.trans (by rw [hnodes])) l

/-- **One label.** The statement leaves its statistics, whatever edges it finds. -/
theorem setLabelStats_spec (E : Enumeration) (h : SameCatalog g₀ g) (hone : OneEdge g₀)
    (hs : ReleaseSchema g₀) (hstyle : StyleSchema g) (hl : l ∈ g.nodes) (hlabel : l.label = .label) :
    StatFrame l g (setLabelStats E l g).1 ∧ StyleSchema (setLabelStats E l g).1 ∧
      LabelStats g₀ (setLabelStats E l g).1 l := by
  have hstyles : ∀ t n, (t, n) ∈ labelStyles E g l ↔ _ := fun t n =>
    mem_labelStyles_of_same (t := t) (n := n) E h hone hs
  have hmem : ∀ t, t ∈ (labelStyles E g l).map (·.1) ↔ t ∈ targetsOf g₀ l .ON .IS .style := by
    intro t
    simp only [List.mem_map, Prod.exists, hstyles, exists_and_right, exists_eq_right]
  -- The counts, the deletion of the stale edges, the rows of the styles.
  obtain ⟨hcounts, -⟩ := seqAll_guardedSet (g := g) (labelCounts E g l) hl
    (by simp [labelCounts]) (by simp [labelCounts])
  obtain ⟨hframe, -, hkept, hdeleted⟩ := deleteStaleStyles_spec E
    (seqAll (fun kv => guardedSet l kv.1 kv.2) (labelCounts E g l) g).1 l
    ((labelStyles E g l).map (·.1))
  have hframe' := hcounts.statFrame.trans hframe
  have hedges : ∀ e ∈ (deleteStaleStyles E l ((labelStyles E g l).map (·.1))
      (seqAll (fun kv => guardedSet l kv.1 kv.2) (labelCounts E g l) g).1).1.edges,
      e ∈ g.edges := fun e he => hcounts.edges ▸ hkept e he
  obtain ⟨hmerged, hrows⟩ := mergeStyles_spec E (labelStyles E g l)
    (fun t => (releasesTo g₀ l .ON .IS t).card) ((hframe'.mem_nodes l).mpr hl)
    (fun row hrow => by
      obtain ⟨ht, hn⟩ := (hstyles row.1 row.2).mp hrow
      have hnode := (h.mem_nodes row.1).mpr (Finset.mem_filter.mp ht).1
      exact ⟨(hframe'.mem_nodes row.1).mpr hnode, hn⟩)
    (fun e he e' he' hsrc hk harc =>
      hstyle.unique e (hedges e he) e' (hedges e' he') (hsrc ▸ hlabel) hk harc)
  have hrow : ∀ t ∈ targetsOf g₀ l .ON .IS .style,
      StyleRow (setLabelStats E l g).1 l t (releasesTo g₀ l .ON .IS t).card := by
    intro t ht
    exact hrows _ ((hstyles t _).mpr ⟨ht, rfl⟩)
  -- Every edge that is left leads to a style of the label.
  have hdst : ∀ e ∈ (setLabelStats E l g).1.edges, e.arc.src = l → e.arc.kind = .HAS_STYLE →
      e.arc.dst ∈ targetsOf g₀ l .ON .IS .style := by
    intro e he hsrc hk
    refine (hmem _).mp ((hmerged.mem e he hsrc hk).elim (fun he => ?_) id)
    exact hdeleted e he hsrc hk (hstyle.style e (hedges e he) (hsrc ▸ hlabel) hk)
  have hsettled := settled_setLabelStats E hl
  have hfinal := hframe'.trans hmerged.frame
  simp only [labelCounts_eq E h hs, List.forall_mem_cons] at hsettled
  refine ⟨hfinal, hstyle.of_frame hfinal (fun _ => hmerged.unique) fun _ e he hsrc hk => ?_,
    hsettled.1,
    hsettled.2.1, hsettled.2.2.1, fun e he hsrc hk => ?_, fun t ht =>
    (hrow t ht).unique⟩
  · exact (Finset.mem_filter.mp (hdst e he hsrc hk)).2.1
  · have ht := hdst e he hsrc hk
    have harc : e.arc = ⟨.HAS_STYLE, l, e.arc.dst⟩ := by rw [← hsrc, ← hk]
    exact ⟨ht, (hrow _ ht).release_count e he harc⟩

/-- Only stale edges are deleted. -/
theorem mem_edges_setLabelStats (E : Enumeration) {e : Edge Node Rel} (he : e ∈ g.edges)
    (hkept : e.arc.dst.label = .style → e.arc.dst ∈ (labelStyles E g l).map (·.1)) :
    e ∈ (setLabelStats E l g).1.edges := by
  refine seqAll_invariant (I := fun t => e ∈ t.edges) ?_ he
  simp only [List.forall_mem_cons]
  refine ⟨fun t ht => seqAll_invariant (I := fun t => e ∈ t.edges) (fun kv _ t ht => ?_) ht,
    fun t ht => ?_,
    fun t ht => seqAll_invariant (I := fun t => e ∈ t.edges) (fun row _ t ht => ?_) ht, List.forall_mem_nil _⟩
  · simp only [guardedSet, emit]
    split_ifs
    · exact ht
    · exact ht
  · obtain ⟨-, hmem, -⟩ := runAll_deleteEdge (g := t) (E.list (t.edges.keys.filter fun e =>
      e.arc.src = l ∧ e.arc.kind = .HAS_STYLE ∧ e.arc.dst.label = .style ∧
        e.arc.dst ∉ (labelStyles E g l).map (·.1)))
    refine (hmem e).mpr ⟨ht, fun hstale => ?_⟩
    obtain ⟨-, -, -, hl, hstale⟩ := Finset.mem_filter.mp (E.mem_list.mp hstale)
    exact hstale (hkept hl)
  · refine ((setStyleReleases_spec E _ l row.1 row.2).2.1 e).mpr ?_
    change e ∈ (runAll _ (if _ then _ else _) t).edges
    split_ifs
    · exact ht
    · exact mem_edges_mergeEdge.mpr (Or.inl ht)

/-- The statistics of a label survive what other nodes get. -/
theorem LabelStats.of_frame {m : Node} (h : LabelStats g₀ g l) (hf : StatFrame m g g')
    (hne : l ≠ m) : LabelStats g₀ g' l := by
  have hrow := hf.row_nodes l hne
  have hother : ∀ e : Edge Node Rel, e.arc.src = l → ¬(e.arc.src = m ∧ e.arc.kind = .HAS_STYLE) :=
    fun e hsrc hm => hne (hsrc.symm.trans hm.1)
  refine ⟨h.release_count.of_row_eq hrow, h.artist_count.of_row_eq hrow, h.genre_count.of_row_eq hrow,
    fun e he hsrc hk => ?_, fun t ht => ?_⟩
  · rw [hf.row_edges e (hother e hsrc)]
    exact h.style_mem e ((hf.mem_edges e (hother e hsrc)).mp he) hsrc hk
  · refine (existsUnique_congr fun e => and_congr_left fun harc => ?_).mp (h.style_unique t ht)
    exact (hf.mem_edges e (hother e (by rw [harc]))).symm

/-- The statement writes nothing where it finds the statistics of the label. -/
theorem setLabelStats_eq (E : Enumeration) (h : SameCatalog g₀ g) (hone : OneEdge g₀)
    (hs : ReleaseSchema g₀) (hstats : LabelStats g₀ g l) : setLabelStats E l g = (g, []) := by
  have hstyles : ∀ t n, (t, n) ∈ labelStyles E g l ↔ _ := fun t n =>
    mem_labelStyles_of_same (t := t) (n := n) E h hone hs
  refine seqAll_eq_of_forall ?_
  simp only [List.forall_mem_cons]
  refine ⟨seqAll_guardedSet_eq ?_, ?_, seqAll_eq_of_forall ?_, List.forall_mem_nil _⟩
  · simp only [labelCounts_eq E h hs, List.forall_mem_cons]
    exact ⟨hstats.release_count, hstats.artist_count, hstats.genre_count, List.forall_mem_nil _⟩
  · have hnone : E.list (g.edges.keys.filter fun e => e.arc.src = l ∧ e.arc.kind = .HAS_STYLE ∧
        e.arc.dst.label = .style ∧ e.arc.dst ∉ (labelStyles E g l).map (·.1)) = [] := by
      refine List.eq_nil_iff_forall_not_mem.mpr fun e he => ?_
      obtain ⟨he, hsrc, hk, -, hstale⟩ := Finset.mem_filter.mp (E.mem_list.mp he)
      refine hstale (List.mem_map.mpr ⟨_, (hstyles e.arc.dst _).mpr ⟨?_, rfl⟩, rfl⟩)
      exact (hstats.style_mem e he hsrc hk).1
    simp only [deleteStaleStyles, emit, hnone, List.map_nil, runAll_nil]
  · rintro ⟨t, n⟩ hrow
    obtain ⟨ht, rfl⟩ := (hstyles t n).mp hrow
    obtain ⟨e, ⟨he, harc⟩, -⟩ := hstats.style_unique t ht
    have hmerge : g.HasArc ⟨.HAS_STYLE, l, t⟩ := ⟨e, he, harc⟩
    have hnone : E.list (g.edges.keys.filter fun e => e.arc = ⟨.HAS_STYLE, l, t⟩ ∧
        (g.edges.row e "release_count" = .null ∨ cypherNumber (g.edges.row e "release_count") ≠
          .int (releasesTo g₀ l .ON .IS t).card)) = [] := by
      refine List.eq_nil_iff_forall_not_mem.mpr fun e he => ?_
      obtain ⟨he, harc, hdiffers⟩ := Finset.mem_filter.mp (E.mem_list.mp he)
      obtain ⟨-, hne, heq⟩ := hstats.style_mem e he (by rw [harc]) (by rw [harc])
      rw [harc] at heq
      exact hdiffers.elim hne fun h => h heq
    refine seqAll_eq_of_forall ?_
    simp only [List.forall_mem_cons]
    refine ⟨?_, ?_, List.forall_mem_nil _⟩
    · simp only [mergeHasStyle, emit, if_pos hmerge, runAll_nil]
    · simp only [setStyleReleases, emit, hnone, List.map_nil, runAll_nil]

end Statement

/-! ### The sweeps -/

/-- What the sweeps run: the three statements of a genre or a style, or a page of labels. Each is a
transaction of its own and may see the rows in another order. -/
inductive StatRun
  | genre (E : Enumeration) (key : String)
  | style (E : Enumeration) (key : String)
  | labels (E : Enumeration) (cursor : String) (size : ℕ)

namespace StatRun

/-- The statements of a run. -/
def statement : StatRun → Statement
  | .genre E key => seqAll (fun s => s) (nodeStatStatements E (.genre (.str key)) .style "style_count")
  | .style E key => seqAll (fun s => s) (nodeStatStatements E (.style (.str key)) .genre "genre_count")
  | .labels E cursor size => labelStatsPage E cursor size

/-- The nodes that get their statistics from a run. -/
def nodes (g : Graph) : StatRun → Set Node
  | .genre _ key => {n | n ∈ g.nodes ∧ n = .genre (.str key)}
  | .style _ key => {n | n ∈ g.nodes ∧ n = .style (.str key)}
  | .labels _ cursor size =>
    {l | ∃ id ∈ firstPage (keyTexts g .label) cursor size, l = .ofLabel (.str id)}

end StatRun

/-- The statistics of a genre, a style or a label; the other nodes have none. -/
def NodeStats (g₀ g : Graph) (n : Node) : Prop :=
  match n.label with
  | .genre => TaxonomyStats g₀ .style "style_count" g n
  | .style => TaxonomyStats g₀ .genre "genre_count" g n
  | .label => LabelStats g₀ g n
  | _ => True

section Sweep

variable {g₀ g g' : Graph} {n m : Node}

theorem TaxonomyStats.of_frame {other : Label} {otherProp : String}
    (h : TaxonomyStats g₀ other otherProp g n) (hf : StatFrame m g g') (hne : n ≠ m) :
    TaxonomyStats g₀ other otherProp g' n := by
  have hprop : ∀ key, prop g' n key = prop g n key := congrFun (hf.row_nodes n hne)
  exact ⟨(hprop _).trans h.release_count, (hprop _).trans h.artist_count,
    (hprop _).trans h.label_count, (hprop _).trans h.other_count, hprop "first_year" ▸ h.first_year⟩

theorem NodeStats.of_frame (h : NodeStats g₀ g n) (hf : StatFrame m g g') (hne : n ≠ m) :
    NodeStats g₀ g' n := by
  obtain ⟨nodeLabel, key⟩ := n
  cases nodeLabel with
  | genre => exact TaxonomyStats.of_frame h hf hne
  | style => exact TaxonomyStats.of_frame h hf hne
  | label => exact LabelStats.of_frame h hf hne
  | _ => trivial

/-- A page of labels. -/
theorem labelStatsPage_spec (E : Enumeration) (h : SameCatalog g₀ g) (hone : OneEdge g₀)
    (hs : ReleaseSchema g₀) (hstyle : StyleSchema g) (cursor : String) (size : ℕ) :
    let run := StatRun.labels E cursor size
    let g' := (run.statement g).1
    (SameCatalog g₀ g' ∧ StyleSchema g') ∧ (∀ n ∈ run.nodes g₀, NodeStats g₀ g' n) ∧
      ∀ n ∉ run.nodes g₀, NodeStats g₀ g n → NodeStats g₀ g' n := by
  have hkeys : keyTexts g .label = keyTexts g₀ .label := keyTexts_congr h.mem_nodes _
  intro run g'
  have hcover : _ ∧ ∀ id ∈ firstPage (keyTexts g .label) cursor size, ∀ n ∈ _, NodeStats g₀ g' n :=
    seqAll_cover (f := fun id => setLabelStats E (.ofLabel (.str id))) (g := g) (I := fun t => (SameCatalog g₀ t ∧ StyleSchema t) ∧
      ∀ n ∉ run.nodes g₀, NodeStats g₀ g n → NodeStats g₀ t n)
    (C := fun id => {.ofLabel (.str id)}) (Q := NodeStats g₀) ?_ ⟨⟨h, hstyle⟩, fun _ _ hn => hn⟩
  · refine ⟨hcover.1.1, ?_, hcover.1.2⟩
    rintro _ ⟨id, hid, rfl⟩
    exact hcover.2 id (hkeys.symm ▸ hid) _ rfl
  · rintro id hid t ⟨⟨hsame, hst⟩, hkept⟩
    have hmem : (.ofLabel (.str id) : Node) ∈ t.nodes :=
      (hsame.mem_nodes _).mpr ((h.mem_nodes _).mp (mem_keyTexts.mp (mem_of_mem_firstPage hid)))
    obtain ⟨hf, hst', hstats⟩ := setLabelStats_spec E hsame hone hs hst hmem rfl
    refine ⟨⟨⟨hsame.statFrame hf nofun, hst'⟩, fun n hn hnode => ?_⟩, ?_, fun n hn hnode => ?_⟩
    · exact (hkept n hn hnode).of_frame hf fun heq => hn ⟨id, hkeys ▸ hid, heq⟩
    · rintro _ rfl
      exact hstats
    · exact hnode.of_frame hf hn


/-- The statements do nothing for a node that is not there. -/
theorem nodeStatStatements_eq (E : Enumeration) (hn : n ∉ g.nodes) (other : Label)
    (otherProp : String) :
    seqAll (fun s => s) (nodeStatStatements E n other otherProp) g = (g, []) := by
  refine seqAll_eq_of_forall ?_
  simp only [nodeStatStatements, setAll, emit, List.forall_mem_cons, if_neg hn, runAll_nil, true_and]
  exact List.forall_mem_nil _

/-- The statements of one genre or style. -/
theorem taxonomyRun_spec (E : Enumeration) (h : SameCatalog g₀ g) (hone : OneEdge g₀)
    (hstyle : StyleSchema g) (hlabel : n.label ≠ .release) (hnl : n.label ≠ .label)
    {other : Label} {otherProp : String}
    (hother : otherProp ∉ ["release_count", "artist_count", "label_count", "first_year"])
    (hnode : ∀ g', TaxonomyStats g₀ other otherProp g' n → NodeStats g₀ g' n) :
    let g' := (seqAll (fun s => s) (nodeStatStatements E n other otherProp) g).1
    (SameCatalog g₀ g' ∧ StyleSchema g') ∧
      (∀ m ∈ {m | m ∈ g₀.nodes ∧ m = n}, NodeStats g₀ g' m) ∧
      ∀ m ∉ {m | m ∈ g₀.nodes ∧ m = n}, NodeStats g₀ g m → NodeStats g₀ g' m := by
  intro g'
  by_cases hn : n ∈ g.nodes
  · obtain ⟨hf, hstats⟩ := taxonomy_stats E hone h hn hlabel other otherProp hother
    refine ⟨⟨h.statFrame hf hlabel, hstyle.of_frame hf ?_ ?_⟩, ?_, fun m hm hmnode => ?_⟩
    · exact fun hl => absurd hl hnl
    · exact fun hl => absurd hl hnl
    · rintro _ ⟨-, rfl⟩
      exact hnode g' hstats
    · refine hmnode.of_frame hf fun heq => hm ⟨?_, heq⟩
      exact heq ▸ (h.mem_nodes n).mp hn
  · have hg' : g' = g := congrArg Prod.fst (nodeStatStatements_eq E hn other otherProp)
    rw [hg']
    refine ⟨⟨h, hstyle⟩, ?_, fun m _ hm => hm⟩
    rintro _ ⟨hmem, rfl⟩
    exact absurd ((h.mem_nodes _).mpr hmem) hn

/-- Every run keeps the catalog, and leaves the statistics of its nodes. -/
theorem statRun_spec (run : StatRun) (h : SameCatalog g₀ g) (hone : OneEdge g₀)
    (hs : ReleaseSchema g₀) (hstyle : StyleSchema g) :
    (SameCatalog g₀ (run.statement g).1 ∧ StyleSchema (run.statement g).1) ∧
      (∀ n ∈ run.nodes g₀, NodeStats g₀ (run.statement g).1 n) ∧
      ∀ n ∉ run.nodes g₀, NodeStats g₀ g n → NodeStats g₀ (run.statement g).1 n := by
  cases run with
  | genre E key =>
    exact taxonomyRun_spec (n := .genre (.str key)) E h hone hstyle nofun nofun (by decide)
      fun _ => id
  | style E key =>
    exact taxonomyRun_spec (n := .style (.str key)) E h hone hstyle nofun nofun (by decide)
      fun _ => id
  | labels E cursor size => exact labelStatsPage_spec E h hone hs hstyle cursor size

/-- **The statistics are exact.** The sweeps run their statements for every genre, style and label,
in any order and as often as they like. Each count is then the number of distinct nodes of its
definition, the HAS_STYLE edges of a label are one for each style of its releases, and the Label
statement writes nothing when it runs again. -/
theorem statistics_exact (runs : List StatRun) {g : Graph} (hone : OneEdge g)
    (hs : ReleaseSchema g) (hstyle : StyleSchema g)
    (hcover : ∀ n ∈ g.nodes, n.label ∈ [Label.genre, .style, .label] →
      ∃ run ∈ runs, n ∈ run.nodes g) :
    let g' := (seqAll StatRun.statement runs g).1
    (∀ n ∈ g.nodes, n.label = .genre → TaxonomyStats g .style "style_count" g' n) ∧
      (∀ n ∈ g.nodes, n.label = .style → TaxonomyStats g .genre "genre_count" g' n) ∧
      (∀ n ∈ g.nodes, n.label = .label → LabelStats g g' n) ∧
      ∀ E cursor size, labelStatsPage E cursor size g' = (g', []) := by
  intro g'
  obtain ⟨⟨hsame, -⟩, hstats⟩ := seqAll_cover (I := fun t => SameCatalog g t ∧ StyleSchema t)
    (C := StatRun.nodes g) (Q := NodeStats g)
    (fun run _ t ht => statRun_spec run ht.1 hone hs ht.2) ⟨.refl g, hstyle⟩
  have hnode : ∀ n ∈ g.nodes, n.label ∈ [Label.genre, .style, .label] → NodeStats g g' n := by
    intro n hn hlabel
    obtain ⟨run, hrun, hmem⟩ := hcover n hn hlabel
    exact hstats run hrun n hmem
  have hlabels : ∀ n ∈ g.nodes, n.label = .label → LabelStats g g' n := by
    intro n hn hlabel
    have h := hnode n hn (by simp [hlabel])
    unfold NodeStats at h
    rwa [hlabel] at h
  refine ⟨fun n hn hlabel => ?_, fun n hn hlabel => ?_, hlabels, fun E cursor size => ?_⟩
  · have h := hnode n hn (by simp [hlabel])
    unfold NodeStats at h
    rwa [hlabel] at h
  · have h := hnode n hn (by simp [hlabel])
    unfold NodeStats at h
    rwa [hlabel] at h
  · refine seqAll_eq_of_forall fun id hid => setLabelStats_eq E hsame hone hs ?_
    exact hlabels _ ((hsame.mem_nodes _).mp (mem_keyTexts.mp (mem_of_mem_firstPage hid))) rfl

end Sweep

/-- A release on a label, in a style and a genre and by an artist, and a label that a stale edge
leads to another style. -/
def oneStyle : Graph :=
  (∅ : Graph)
    |> mergeEdge ⟨.ON, .release (.str "10"), .ofLabel (.str "7")⟩ id
    |> mergeEdge ⟨.IS, .release (.str "10"), .style (.str "Dub")⟩ id
    |> mergeEdge ⟨.IS, .release (.str "10"), .genre (.str "Reggae")⟩ id
    |> mergeEdge ⟨.BY, .release (.str "10"), .artist (.str "1")⟩ id
    |> mergeEdge ⟨.HAS_STYLE, .ofLabel (.str "7"), .style (.str "Ska")⟩ id

/-- A run over every key of `oneStyle`. -/
noncomputable def oneStyleRuns : List StatRun :=
  [.genre default "Reggae", .style default "Dub", .style default "Ska", .labels default "" 10]

theorem statistics_exact_one_style :
    let g' := (seqAll StatRun.statement oneStyleRuns oneStyle).1
    prop g' (.genre (.str "Reggae")) "release_count" = .int 1 ∧
      prop g' (.style (.str "Ska")) "release_count" = .int 0 ∧
      (∃! e, e ∈ g'.edges ∧
        e.arc = ⟨.HAS_STYLE, .ofLabel (.str "7"), .style (.str "Dub")⟩) ∧
      ¬g'.HasArc ⟨.HAS_STYLE, .ofLabel (.str "7"), .style (.str "Ska")⟩ ∧
      labelStatsPage default "" 10 g' = (g', []) := by
  intro g'
  have hpage : "7" ∈ firstPage (keyTexts oneStyle .label) "" 10 := by
    rw [mem_firstPage (by decide), mem_keyTexts]
    exact ⟨by decide, by decide⟩
  have hkeys : ∀ n ∈ oneStyle.nodes.keys, n.label ∈ [Label.genre, .style, .label] →
      n = .genre (.str "Reggae") ∨ n = .style (.str "Dub") ∨ n = .style (.str "Ska") ∨
        n = .ofLabel (.str "7") := by decide
  obtain ⟨hgenre, hstyle, hlabel, hrerun⟩ :=
    statistics_exact oneStyleRuns (g := oneStyle) (by decide) (by decide)
      ⟨by decide, by decide⟩ fun n hn hl => by
        rcases hkeys n hn hl with rfl | rfl | rfl | rfl
        · exact ⟨.genre default "Reggae", by simp [oneStyleRuns], hn, rfl⟩
        · exact ⟨.style default "Dub", by simp [oneStyleRuns], hn, rfl⟩
        · exact ⟨.style default "Ska", by simp [oneStyleRuns], hn, rfl⟩
        · exact ⟨.labels default "" 10, by simp [oneStyleRuns], "7", hpage, rfl⟩
  have hstats := hlabel (.ofLabel (.str "7")) (by decide) rfl
  refine ⟨(hgenre _ (by decide) rfl).release_count.trans (by decide),
    (hstyle _ (by decide) rfl).release_count.trans (by decide),
    hstats.style_unique _ (by decide), ?_, hrerun ..⟩
  rintro ⟨e, he, harc⟩
  have hmem := (hstats.style_mem e he (by rw [harc]) (by rw [harc])).1
  rw [harc] at hmem
  exact absurd hmem (by decide)

/-! ### Graphs that other writers leave -/

/-- Two edges over one arc. -/
def twinEdges (a : Arc Node Rel) (g : Graph) : Graph where
  nodes := (mergeEdge a id g).nodes
  edges := (mergeEdge a id g).edges.upsert ⟨a, 1⟩ id
  src_mem e he := by
    rcases Table.mem_upsert.mp he with rfl | he
    · exact (hasArc_mergeEdge.mpr (Or.inl rfl) : (mergeEdge a id g).HasArc a).src_mem
    · exact (mergeEdge a id g).src_mem e he
  dst_mem e he := by
    rcases Table.mem_upsert.mp he with rfl | he
    · exact (hasArc_mergeEdge.mpr (Or.inl rfl) : (mergeEdge a id g).HasArc a).dst_mem
    · exact (mergeEdge a id g).dst_mem e he

/-- A label with two edges to the style of its release, and one to an artist. -/
def strayStyles : Graph :=
  (∅ : Graph)
    |> mergeEdge ⟨.ON, .release (.str "10"), .ofLabel (.str "7")⟩ id
    |> mergeEdge ⟨.IS, .release (.str "10"), .style (.str "Dub")⟩ id
    |> twinEdges ⟨.HAS_STYLE, .ofLabel (.str "7"), .style (.str "Dub")⟩
    |> mergeEdge ⟨.HAS_STYLE, .ofLabel (.str "7"), .artist (.str "1")⟩ id

/-- A release of a label with an IS edge to an artist. -/
def isArtist : Graph :=
  (∅ : Graph)
    |> mergeEdge ⟨.ON, .release (.str "10"), .ofLabel (.str "7")⟩ id
    |> mergeEdge ⟨.IS, .release (.str "10"), .artist (.str "1")⟩ id

/-- The page of a graph with one label. -/
theorem labelStatsPage_singleton {g : Graph} (h : keyTexts g .label = {"7"}) :
    (labelStatsPage default "" 10 g).1 = (setLabelStats default (.ofLabel (.str "7")) g).1 := by
  have hpage : firstPage (keyTexts g .label) "" 10 = ["7"] := by
    rw [h, firstPage, Finset.filter_true_of_mem (by decide), Finset.sort_singleton]
    rfl
  simp only [labelStatsPage, hpage, fst_seqAll_cons, seqAll_nil]

/-- The statements keep the two edges and the edge to an artist, and they count the artist of an IS
edge. -/
theorem statistics_counterexample :
    (OneEdge strayStyles ∧
      let g' := (seqAll StatRun.statement [.style default "Dub", .labels default "" 10] strayStyles).1
      (¬∃! e, e ∈ g'.edges ∧
        e.arc = ⟨.HAS_STYLE, .ofLabel (.str "7"), .style (.str "Dub")⟩) ∧
      g'.HasArc ⟨.HAS_STYLE, .ofLabel (.str "7"), .artist (.str "1")⟩) ∧
    (OneEdge isArtist ∧ targetsOf isArtist (.ofLabel (.str "7")) .ON .BY .artist = ∅ ∧
      cypherNumber (prop (seqAll StatRun.statement [.labels default "" 10] isArtist).1
        (.ofLabel (.str "7")) "artist_count") = .int 1) := by
  refine ⟨⟨by decide, ?_⟩, by decide, by decide, ?_⟩
  · intro g'
    obtain ⟨hf, -⟩ := taxonomy_stats (g := strayStyles) (n := .style (.str "Dub")) default (by decide)
      (.refl _) (by decide) nofun .genre "genre_count" (by decide)
    have hsame := (SameCatalog.refl strayStyles).statFrame hf nofun
    set g₁ := (seqAll (fun s => s) (nodeStatStatements default (.style (.str "Dub")) .genre
      "genre_count") strayStyles).1
    have hg' : g' = (setLabelStats default (.ofLabel (.str "7")) g₁).1 :=
      labelStatsPage_singleton ((keyTexts_congr hsame.mem_nodes _).trans (by decide))
    have hdub : .style (.str "Dub") ∈ (labelStyles default g₁ (.ofLabel (.str "7"))).map (·.1) :=
      List.mem_map.mpr ⟨_, (mem_labelStyles_of_same default hsame (by decide) (by decide)).mpr
        ⟨by decide, rfl⟩, rfl⟩
    have hkept : ∀ e ∈ strayStyles.edges, e.arc.src = .ofLabel (.str "7") →
        (e.arc.dst.label = .style → e.arc.dst = .style (.str "Dub")) → e ∈ g'.edges := by
      intro e he hsrc hdst
      rw [hg']
      refine mem_edges_setLabelStats default ((hf.mem_edges e fun hs => ?_).mpr he)
        fun hl => hdst hl ▸ hdub
      rw [hsrc] at hs
      exact absurd hs.1 nofun
    refine ⟨fun hunique => ?_, ⟨⟨⟨.HAS_STYLE, .ofLabel (.str "7"), .artist (.str "1")⟩, 0⟩,
      hkept _ (by decide) rfl nofun, rfl⟩⟩
    have htwins := hunique.unique
      ⟨hkept ⟨⟨.HAS_STYLE, .ofLabel (.str "7"), .style (.str "Dub")⟩, 0⟩ (by decide) rfl fun _ => rfl, rfl⟩
      ⟨hkept ⟨⟨.HAS_STYLE, .ofLabel (.str "7"), .style (.str "Dub")⟩, 1⟩ (by decide) rfl fun _ => rfl, rfl⟩
    exact absurd htwins (by decide)
  · change cypherNumber (prop (labelStatsPage default "" 10 isArtist).1 _ _) = _
    rw [labelStatsPage_singleton (by decide)]
    have hcount : labelTargetCount default isArtist (.ofLabel (.str "7")) .artist = 1 :=
      (countSome_groupCounts default (fun x : Edge Node Rel × Edge Node Rel => x.2.arc.dst)
        (expansion isArtist (.ofLabel (.str "7")) .ON [.BY, .IS] [.artist, .genre, .style])
        fun t : Node => decide (t.label = .artist)).trans (by decide)
    have h := settled_setLabelStats (g := isArtist) (l := .ofLabel (.str "7")) default (by decide)
      ("artist_count", .int (labelTargetCount default isArtist (.ofLabel (.str "7")) .artist))
      (by simp [labelCounts])
    rw [hcount] at h
    exact h.2

end Graphinator
