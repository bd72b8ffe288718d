import Graphinator.MaintenancePasses
import Graphinator.ReleaseFrames

/-!
# What is in the graph

The catalog is written by the projections of four types of records. The cleanups delete nodes and
edges, the sweeps write aggregates and the HAS_STYLE edges of labels, and the backfill fills in
names. So every other edge, and every node, goes back to a record that some projection wrote, and
the graph keeps to a schema: the one that the statistics rely on.

## Main definitions

* `rowAsserts` : the arcs that a row of a type of record merges.
* `keyStatements` : the statements of a sweep for one node.
* `Upkeep` : what the service does to the graph besides projecting records.
* `Reached` : the graphs that runs of the service reach, with the records they wrote.
* `Schema` : where the edges lead that the statistics read, at most one between two nodes.

## Main results

* `Upkeep.schema`, `Schema.write` : every step keeps the schema.
* `catalog_grounded` : nothing is in the graph that no record asserts.
-/

namespace Graphinator

open PropertyGraph PyValue
open Maintenance (SweepName)

/-! ### What the rows of a record assert -/

section Asserts

variable {α : Type} {n : Node} {kind : Rel} {t : α → Node} {xs : List α}

/-- The arcs to a node from each of some others. -/
def arcsFrom (n : Node) (kind : Rel) (t : α → Node) (xs : List α) : Set (Arc Node Rel) :=
  {a | ∃ x ∈ xs, a = ⟨kind, t x, n⟩}

theorem arcEffect_linkFrom : ArcEffect ∅ (arcsFrom n kind t xs)
    (runAll (fun x => linkFrom n kind (t x)) xs) :=
  arcEffect_each fun _ => .mergeEdge_mergeNode _ _ _ _

/-- The arcs that an artist merges. -/
def ArtistRow.Asserts (r : ArtistRow) : Set (Arc Node Rel) :=
  {a | a ∈ arcsFrom (.artist r.id) .MEMBER_OF .artist r.members ∨
    a ∈ arcsTo (.artist r.id) .MEMBER_OF .artist r.groups ∨
    a ∈ arcsFrom (.artist r.id) .ALIAS_OF .artist r.aliases}

/-- The arcs that a label merges. -/
def LabelRow.Asserts (r : LabelRow) : Set (Arc Node Rel) :=
  {a | a ∈ arcsTo (.ofLabel r.id) .SUBLABEL_OF .ofLabel r.parentLabel.toList ∨
    a ∈ arcsFrom (.ofLabel r.id) .SUBLABEL_OF .ofLabel r.sublabels}

/-- The effects of the stages of an artist. -/
def artistEffects : List (ArtistRow → Set (Arc Node Rel) × Set (Arc Node Rel)) :=
  [fun _ => (∅, ∅), fun r => (∅, arcsFrom (.artist r.id) .MEMBER_OF .artist r.members),
    fun r => (∅, arcsTo (.artist r.id) .MEMBER_OF .artist r.groups),
    fun r => (∅, arcsFrom (.artist r.id) .ALIAS_OF .artist r.aliases)]

/-- The effects of the stages of a label. -/
def labelEffects : List (LabelRow → Set (Arc Node Rel) × Set (Arc Node Rel)) :=
  [fun _ => (∅, ∅), fun r => (∅, arcsTo (.ofLabel r.id) .SUBLABEL_OF .ofLabel r.parentLabel.toList),
    fun r => (∅, arcsFrom (.ofLabel r.id) .SUBLABEL_OF .ofLabel r.sublabels)]

/-- **The effect of a batch of artists**, which deletes nothing. -/
theorem arcEffect_artists (rows : List ArtistRow) :
    ArcEffect ∅ {a | ∃ r ∈ rows, a ∈ r.Asserts} (runStages artistStages.programs rows) := by
  have hstages : List.Forall₂ (fun f E => ∀ r, ArcEffect (E r).1 (E r).2 (f r))
      artistStages.programs artistEffects :=
    .cons (fun _ => .mergeNode _ _) (.cons (fun _ => arcEffect_linkFrom)
      (.cons (fun _ => arcEffect_linkTo) (.cons (fun _ => arcEffect_linkFrom) .nil)))
  refine (ArcEffect.stages hstages ?_ ?_).congr ?_ ?_
  · simp [artistEffects]
  · simp [artistEffects]
  · simp [artistEffects]
  · ext a
    simp [artistEffects, ArtistRow.Asserts]

/-- **The effect of a batch of labels**, which deletes nothing. -/
theorem arcEffect_labels (rows : List LabelRow) :
    ArcEffect ∅ {a | ∃ r ∈ rows, a ∈ r.Asserts} (runStages labelStages.programs rows) := by
  have hstages : List.Forall₂ (fun f E => ∀ r, ArcEffect (E r).1 (E r).2 (f r))
      labelStages.programs labelEffects :=
    .cons (fun _ => .mergeNode _ _) (.cons (fun _ => arcEffect_linkTo)
      (.cons (fun _ => arcEffect_linkFrom) .nil))
  refine (ArcEffect.stages hstages ?_ ?_).congr ?_ ?_
  · simp [labelEffects]
  · simp [labelEffects]
  · simp [labelEffects]
  · ext a
    simp [labelEffects, LabelRow.Asserts]

/-- The arcs that a row of a type of record asserts, those of its credits with an artist id
included. -/
def rowAsserts : (t : DataType) → RowOf t → Set (Arc Node Rel)
  | .artists, (r : ArtistRow) => r.Asserts
  | .labels, (r : LabelRow) => r.Asserts
  | .masters, (r : MasterRow) => r.Asserts
  | .releases, (r : ReleaseRow) => r.Asserts ∪ {a | a ∈ r.sameAs}

end Asserts

/-! ### What a write adds -/

section Writes

variable {env : Env} {g : Graph} {t : DataType} {rows : List (RowOf t)} {a : Arc Node Rel}
  {v : Node}

theorem hasArc_linkAll {links : List (Arc Node Rel)} (h : (linkAll links g).HasArc a) :
    g.HasArc a ∨ a ∈ links := by
  obtain ⟨e, he, rfl⟩ := h
  rcases mem_edges_linkAll.mp he with he | ⟨-, -, hmem, -⟩
  · exact Or.inl (hasArc_of_mem he)
  · exact Or.inr hmem

/-- The arcs after the stages of a batch were there, or a row asserts them. -/
theorem hasArc_runStages (h : (runStages (stagesOf t).programs rows g).HasArc a) :
    g.HasArc a ∨ ∃ r ∈ rows, a ∈ rowAsserts t r := by
  cases t with
  | artists => exact ((arcEffect_artists rows g a).mp h).imp And.left id
  | labels => exact ((arcEffect_labels rows g a).mp h).imp And.left id
  | masters => exact ((arcEffect_masters rows g a).mp h).imp And.left id
  | releases =>
    refine ((arcEffect_releases rows g a).mp h).imp And.left ?_
    rintro ⟨r, hr, ha⟩
    exact ⟨r, hr, Or.inl ha⟩

/-- **The arcs after a write** were there, or a row asserts them. -/
theorem hasArc_write (h : ((writerOf env t).projector.write rows g).HasArc a) :
    g.HasArc a ∨ ∃ r ∈ rows, a ∈ rowAsserts t r := by
  rw [write_eq_linkAll] at h
  rcases hasArc_linkAll h with h | h
  · exact hasArc_runStages h
  · obtain rfl := releases_of_sameAsLinks h
    obtain ⟨r, hr, ha⟩ := List.mem_flatMap.mp h
    exact Or.inr ⟨r, hr, Or.inr ha⟩

/-- **The nodes after a write** were there, or a row merges them. -/
theorem mem_nodes_write : v ∈ ((writerOf env t).projector.write rows g).nodes ↔
    v ∈ g.nodes ∨ v ∈ mergedNodes t rows := by
  rw [write_eq_linkAll, mem_nodes_linkAll]
  exact nodeEffect_runStages t rows g v

theorem simple_write (hg : g.Simple) : ((writerOf env t).projector.write rows g).Simple := by
  rw [write_eq_linkAll]
  have hlinks : SparesReleases ∅ (runStages (stagesOf t).programs rows g)
      (linkAll (sameAsLinks t rows) (runStages (stagesOf t).programs rows g)) :=
    sparesReleases_linkAll (fun a ha => (mem_sameAsLinks ha).1) _
  exact hlinks.simple ((stagesOf t).simple_runStages rows hg)

end Writes

/-! ### Sweeps, node by node -/

/-- The label of the nodes that a sweep goes through. -/
def nodeLabelOf : SweepName → Label
  | .genreStats => .genre
  | .styleStats => .style
  | .labelStats => .label
  | .artistStats => .artist
  | .personCreditCounts => .person

/-- The node of a key of a sweep. -/
def sweepNode (sweep : SweepName) (key : String) : Node := ⟨nodeLabelOf sweep, .str key⟩

/-- The statements of a sweep for the node of a key, each in a transaction of its own. A page of the
last three sweeps is one transaction, of the statement for each of its keys. -/
def keyStatements (E : Enumeration) (allCategories : List String) (sweep : SweepName)
    (key : String) : List Statement :=
  match sweep with
  | .genreStats => nodeStatStatements E (.genre (.str key)) .style "style_count"
  | .styleStats => nodeStatStatements E (.style (.str key)) .genre "genre_count"
  | .labelStats => [setLabelStats E (.ofLabel (.str key))]
  | .artistStats => [setArtistStats E (.artist (.str key))]
  | .personCreditCounts => [setCreditCounts E allCategories (.person (.str key))]

/-- The properties that the `i`-th statement of a genre or a style writes. -/
def partKeys (otherProp : String) : ℕ → List String
  | 0 => ["release_count"]
  | 1 => ["artist_count", "label_count", otherProp]
  | 2 => ["first_year"]
  | _ => []

/-! ### The schema -/

/-- Where the edges lead that the statistics read, and that there is one edge at most over an
arc. -/
structure Schema (g : Graph) : Prop where
  simple : g.Simple
  release : ReleaseSchema g
  style : ∀ e ∈ g.edges, e.arc.kind = .HAS_STYLE →
    e.arc.src.label = .label ∧ e.arc.dst.label = .style

section Schema

variable {g g' : Graph}

theorem eq_of_arc_eq (hg : g.Simple) {e e' : Edge Node Rel} (he : e ∈ g.edges)
    (he' : e' ∈ g.edges) (harc : e.arc = e'.arc) : e = e' := by
  obtain ⟨arc, copy⟩ := e
  obtain ⟨arc', copy'⟩ := e'
  obtain rfl : arc = arc' := harc
  obtain rfl : copy = 0 := hg _ he
  obtain rfl : copy' = 0 := hg _ he'
  rfl

/-- The statistics count every release once. -/
theorem Schema.oneEdge (h : Schema g) : OneEdge g :=
  fun _ he _ he' _ _ harc => eq_of_arc_eq h.simple he he' harc

/-- A label has one HAS_STYLE edge to a style at most. -/
theorem Schema.styleSchema (h : Schema g) : StyleSchema g where
  style e he _ hkind := (h.style e he hkind).2
  unique _ he _ he' _ _ harc := eq_of_arc_eq h.simple he he' harc

/-- Deletions keep the schema, and so do changes of rows. -/
theorem Schema.of_subset (h : Schema g) (hsub : ∀ e ∈ g'.edges, e ∈ g.edges) : Schema g' where
  simple e he := h.simple e (hsub e he)
  release := ⟨fun e he => h.release.by_artist e (hsub e he),
    fun e he => h.release.on_label e (hsub e he), fun e he => h.release.is_taxonomy e (hsub e he)⟩
  style e he := h.style e (hsub e he)

theorem schema_empty : Schema ∅ where
  simple _ he := absurd he (Table.notMem_empty _)
  release := ⟨fun e he => absurd he (Table.notMem_empty e),
    fun e he => absurd he (Table.notMem_empty e), fun e he => absurd he (Table.notMem_empty e)⟩
  style e he := absurd he (Table.notMem_empty e)

/-- An arc of the schema. -/
def FitsSchema (a : Arc Node Rel) : Prop :=
  match a.kind with
  | .BY => a.src.label = .release → a.dst.label = .artist
  | .ON => a.src.label = .release → a.dst.label = .label
  | .IS => a.src.label = .release → a.dst.label = .genre ∨ a.dst.label = .style
  | .HAS_STYLE => a.src.label = .label ∧ a.dst.label = .style
  | _ => True

theorem schema_iff : Schema g ↔ g.Simple ∧ ∀ a, g.HasArc a → FitsSchema a := by
  constructor
  · rintro ⟨hsimple, hrelease, hstyle⟩
    refine ⟨hsimple, ?_⟩
    rintro _ ⟨e, he, rfl⟩
    unfold FitsSchema
    split
    · next hkind => exact fun hr => hrelease.by_artist e he hr hkind
    · next hkind => exact fun hr => hrelease.on_label e he hr hkind
    · next hkind => exact fun hr => hrelease.is_taxonomy e he hr hkind
    · next hkind => exact hstyle e he hkind
    · trivial
  · rintro ⟨hsimple, hfits⟩
    have hedge : ∀ e ∈ g.edges, FitsSchema e.arc := fun e he => hfits _ (hasArc_of_mem he)
    refine ⟨hsimple, ⟨fun e he hr hkind => ?_, fun e he hr hkind => ?_, fun e he hr hkind => ?_⟩,
      fun e he hkind => ?_⟩
    all_goals
      have h := hedge e he
      unfold FitsSchema at h
      rw [hkind] at h
    · exact h hr
    · exact h hr
    · exact h hr
    · exact h

/-- What a row asserts fits the schema, and is no HAS_STYLE edge. -/
theorem fitsSchema_of_rowAsserts {t : DataType} {r : RowOf t} {a : Arc Node Rel}
    (h : a ∈ rowAsserts t r) : FitsSchema a ∧ a.kind ≠ .HAS_STYLE := by
  cases t with
  | artists =>
    rcases h with ⟨x, -, rfl⟩ | ⟨x, -, rfl⟩ | ⟨x, -, rfl⟩ <;> exact ⟨trivial, by rintro ⟨⟩⟩
  | labels =>
    rcases h with ⟨x, -, rfl⟩ | ⟨x, -, rfl⟩ <;> exact ⟨trivial, by rintro ⟨⟩⟩
  | masters =>
    rcases h with ⟨x, -, rfl⟩ | ⟨x, -, rfl⟩ | ⟨x, -, rfl⟩ | ⟨x, -, rfl⟩
    · exact ⟨by rintro ⟨⟩, by rintro ⟨⟩⟩
    · exact ⟨by rintro ⟨⟩, by rintro ⟨⟩⟩
    · exact ⟨by rintro ⟨⟩, by rintro ⟨⟩⟩
    · exact ⟨trivial, by rintro ⟨⟩⟩
  | releases =>
    rcases h with h | h
    · rcases h with ⟨x, -, rfl⟩ | ⟨x, -, rfl⟩ | ⟨x, -, rfl⟩ | ⟨x, -, rfl⟩ | ⟨x, -, rfl⟩ |
        ⟨x, -, rfl⟩ | ⟨x, -, rfl | rfl⟩ | ⟨x, -, rfl⟩ | ⟨x, -, rfl⟩
      · exact ⟨fun _ => rfl, by rintro ⟨⟩⟩
      · exact ⟨fun _ => rfl, by rintro ⟨⟩⟩
      · exact ⟨trivial, by rintro ⟨⟩⟩
      · exact ⟨fun _ => Or.inl rfl, by rintro ⟨⟩⟩
      · exact ⟨fun _ => Or.inr rfl, by rintro ⟨⟩⟩
      · exact ⟨trivial, by rintro ⟨⟩⟩
      · exact ⟨trivial, by rintro ⟨⟩⟩
      · exact ⟨trivial, by rintro ⟨⟩⟩
      · exact ⟨trivial, by rintro ⟨⟩⟩
      · exact ⟨trivial, by rintro ⟨⟩⟩
    · have hlink : a ∈ sameAsLinks .releases [r] :=
        List.mem_flatMap.mpr ⟨r, List.mem_singleton.mpr rfl, h⟩
      have hkind := (mem_sameAsLinks hlink).1
      unfold FitsSchema
      rw [hkind]
      exact ⟨trivial, by rintro ⟨⟩⟩

/-- **A write keeps the schema.** -/
theorem Schema.write {env : Env} {t : DataType} (h : Schema g) (rows : List (RowOf t)) :
    Schema ((writerOf env t).projector.write rows g) := by
  rw [schema_iff] at h ⊢
  refine ⟨simple_write h.1, fun a ha => ?_⟩
  rcases hasArc_write ha with ha | ⟨r, -, ha⟩
  · exact h.2 a ha
  · exact (fitsSchema_of_rowAsserts ha).1

end Schema

/-! ### Upkeep -/

/-- What the service does to the graph besides projecting records: a statement of a sweep for a node
that is there, a cleanup as far as it came, a chunk or the node of the sentinel cleanup, a batch of
the backfill. -/
inductive Upkeep (env : Env) (allCategories : List String) (g : Graph) : Graph → Prop
  | statement (E : Enumeration) (sweep : SweepName) (key : String) {i : ℕ} {st : Statement}
    (hst : (keyStatements E allCategories sweep key)[i]? = some st)
    (h : sweepNode sweep key ∈ g.nodes) : Upkeep env allCategories g (st g).1
  | cleanup {batchSize minBatchSize maxAttempts : ℕ} {s : Cleanup}
    (h : (cleanupMachine batchSize minBatchSize maxAttempts g).Reachable s) :
    Upkeep env allCategories g s.graph
  | sentinelEdges (chunk : Finset (Edge Node Rel)) :
    Upkeep env allCategories g (deleteSentinelEdges chunk g)
  | sentinelMaster : Upkeep env allCategories g (deleteSentinelMaster g)
  | backfill (kind : Label) (lines : List PyValue) :
    Upkeep env allCategories g (Names.step env (.backfill kind lines) g)

section Upkeep

variable {env : Env} {allCategories : List String} {E : Enumeration} {g g' : Graph}

/-- The `i`-th statement of a genre or a style writes its properties of its node. -/
theorem onlyProps_nodeStatStatements {n : Node} (hn : n ∈ g.nodes) {other : Label}
    {otherProp : String}
    (hother : otherProp ∉ ["release_count", "artist_count", "label_count", "first_year"]) {i : ℕ}
    {st : Statement} (hst : (nodeStatStatements E n other otherProp)[i]? = some st) :
    OnlyProps n {key | key ∈ partKeys otherProp i} g (st g).1 := by
  simp only [List.mem_cons, List.not_mem_nil, or_false, not_or] at hother
  obtain ⟨-, hoa, hol, -⟩ := hother
  rcases i with _ | _ | _ | i
  · obtain rfl := Option.some.inj hst
    exact (setAll_spec (releaseCountMetric E n) hn (by simp [releaseCountMetric])).1
  · obtain rfl := Option.some.inj hst
    exact (setAll_spec (linkMetric E n other otherProp) hn
      (by simp [linkMetric, Ne.symm hoa, Ne.symm hol])).1
  · obtain rfl := Option.some.inj hst
    exact (setAll_spec (firstYearMetric E n) hn (by simp [firstYearMetric])).1
  · cases hst

/-- **What a statement of a sweep for a node leaves alone.** -/
theorem keyStatements_frame (h : Schema g) {sweep : SweepName} {key : String} {i : ℕ}
    {st : Statement} (hst : (keyStatements E allCategories sweep key)[i]? = some st)
    (hmem : sweepNode sweep key ∈ g.nodes) :
    StatFrame (sweepNode sweep key) g (st g).1 ∧ Schema (st g).1 := by
  have hsingle {st' : Statement} (hst : [st'][i]? = some st) : st = st' :=
    List.mem_singleton.mp (List.mem_of_getElem? hst)
  have hprops {n : Node} {keys : Set String} (honly : OnlyProps n keys g (st g).1) :
      StatFrame n g (st g).1 ∧ Schema (st g).1 :=
    ⟨honly.statFrame, h.of_subset fun e he => honly.edges ▸ he⟩
  cases sweep with
  | genreStats => exact hprops (onlyProps_nodeStatStatements hmem (by decide) hst)
  | styleStats => exact hprops (onlyProps_nodeStatStatements hmem (by decide) hst)
  | labelStats =>
    obtain rfl := hsingle hst
    obtain ⟨hf, hstyle, -⟩ :=
      setLabelStats_spec E (.refl g) h.oneEdge h.release h.styleSchema hmem rfl
    refine ⟨hf, ?_, ((SameCatalog.refl g).statFrame hf (by rintro ⟨⟩)).releaseSchema h.release, ?_⟩
    · exact (Statement.Aggregates.setLabelStats E (by rintro ⟨⟩) g).simple h.simple
    · intro e he hkind
      by_cases hsrc : e.arc.src = sweepNode .labelStats key
      · have hlabel : e.arc.src.label = .label := by rw [hsrc]; rfl
        exact ⟨hlabel, hstyle.style e he hlabel hkind⟩
      · exact h.style e ((hf.mem_edges e fun hs => hsrc hs.1).mp he) hkind
  | artistStats =>
    obtain rfl := hsingle hst
    exact hprops (setArtistStats_spec hmem).1
  | personCreditCounts =>
    obtain rfl := hsingle hst
    exact hprops (setCreditCounts_spec E allCategories hmem).1

/-- Filling in names writes names only. -/
theorem fillMissingNames_frame (kind : Label) (rows : List BackfillRow) (g : Graph) :
    (∀ v, v ∈ (fillMissingNames kind rows g).nodes ↔ v ∈ g.nodes) ∧
      (fillMissingNames kind rows g).edges = g.edges ∧
      ∀ v key, key ≠ "name" → prop (fillMissingNames kind rows g) v key = prop g v key := by
  unfold fillMissingNames
  refine runAll_invariant (I := fun t : Graph => (∀ v, v ∈ t.nodes ↔ v ∈ g.nodes) ∧
    t.edges = g.edges ∧ ∀ v key, key ≠ "name" → prop t v key = prop g v key)
    (fun row _ t ht => ?_) ⟨fun _ => Iff.rfl, rfl, fun _ _ _ => rfl⟩
  refine ⟨ht.1, ht.2.1, fun v key hkey => ?_⟩
  rw [← ht.2.2 v key hkey]
  change (t.setNodes (· = row.node kind) _).nodes.row _ _ = _
  rw [row_nodes_setNodes]
  split_ifs
  · exact setProps_of_notMem (by simpa using hkey.symm) _
  · rfl

/-- A batch of the backfill fills in names, or nothing. -/
theorem backfill_frame (env : Env) (kind : Label) (lines : List PyValue) (g : Graph) :
    (∀ v, v ∈ (Names.step env (.backfill kind lines) g).nodes ↔ v ∈ g.nodes) ∧
      (Names.step env (.backfill kind lines) g).edges = g.edges ∧
      ∀ v key, key ≠ "name" →
        prop (Names.step env (.backfill kind lines) g) v key = prop g v key := by
  simp only [Names.step]
  cases backfillRows env kind lines with
  | error error => exact ⟨fun _ => Iff.rfl, rfl, fun _ _ _ => rfl⟩
  | ok rows => exact fillMissingNames_frame kind rows g

/-- **Upkeep keeps the schema**, and adds nothing but HAS_STYLE edges. -/
theorem Upkeep.schema (hup : Upkeep env allCategories g g') (h : Schema g) :
    Schema g' ∧ (∀ v ∈ g'.nodes, v ∈ g.nodes) ∧
      ∀ e ∈ g'.edges, e.arc.kind ≠ .HAS_STYLE → e ∈ g.edges := by
  have hdelete : ∀ {t : Graph}, (∀ v ∈ t.nodes, v ∈ g.nodes) → (∀ e ∈ t.edges, e ∈ g.edges) →
      Schema t ∧ (∀ v ∈ t.nodes, v ∈ g.nodes) ∧
        ∀ e ∈ t.edges, e.arc.kind ≠ .HAS_STYLE → e ∈ g.edges :=
    fun hnodes hedges => ⟨h.of_subset hedges, hnodes, fun e he _ => hedges e he⟩
  cases hup with
  | statement E sweep key hst hmem =>
    obtain ⟨hf, hschema⟩ := keyStatements_frame h hst hmem
    exact ⟨hschema, fun v hv => (hf.mem_nodes v).mp hv,
      fun e he hkind => (hf.mem_edges e fun hs => hkind hs.2).mp he⟩
  | cleanup hreach =>
    obtain ⟨deleted, -, hgraph⟩ := (Cleanup.Inv.reachable hreach).lacks
    rw [hgraph]
    exact hdelete (fun v hv => (mem_nodes_detachDelete.mp hv).1)
      fun e he => (mem_edges_detachDelete.mp he).1
  | sentinelEdges chunk =>
    exact hdelete (fun _ hv => hv) fun e he => (mem_edges_deleteEdges.mp he).1
  | sentinelMaster =>
    exact hdelete (fun v hv => (mem_nodes_detachDelete.mp hv).1)
      fun e he => (mem_edges_detachDelete.mp he).1
  | backfill kind lines =>
    obtain ⟨hnodes, hedges, -⟩ := backfill_frame env kind lines g
    exact hdelete (fun v hv => (hnodes v).mp hv) fun e he => hedges ▸ he

end Upkeep

/-! ### Runs -/

/-- The graphs that runs of the service reach from an empty one, with the records that their
projections wrote. Records come in batches or one by one, whatever they hold. -/
inductive Reached (env : Env) (allCategories : List String) :
    List (DataType × PyValue) → Graph → Prop
  | empty : Reached env allCategories [] ∅
  | batch {written : List (DataType × PyValue)} {g : Graph} (t : DataType)
    (messages : List PyValue) (h : Reached env allCategories written g) :
    Reached env allCategories
      (written ++ (Names.writtenRecords env g (.batch t messages)).map fun record => (t, record))
      (Names.step env (.batch t messages) g)
  | record {written : List (DataType × PyValue)} {g : Graph} (t : DataType) (record : PyValue)
    (h : Reached env allCategories written g) :
    Reached env allCategories
      (written ++ (Names.writtenRecords env g (.record t record)).map fun record => (t, record))
      (Names.step env (.record t record) g)
  | upkeep {written : List (DataType × PyValue)} {g g' : Graph}
    (h : Reached env allCategories written g) (hup : Upkeep env allCategories g g') :
    Reached env allCategories written g'

/-- Some written record has a row of its type with the property. -/
def Backed (env : Env) (written : List (DataType × PyValue)) (P : (t : DataType) → RowOf t → Prop) :
    Prop :=
  ∃ t record r, (t, record) ∈ written ∧ RowFor env t record r ∧ P t r

section Runs

variable {env : Env} {allCategories : List String} {written : List (DataType × PyValue)}
  {g g' : Graph} {P : (t : DataType) → RowOf t → Prop}

theorem Backed.append (h : Backed env written P) (more : List (DataType × PyValue)) :
    Backed env (written ++ more) P := by
  obtain ⟨t, record, r, hmem, hrow, hP⟩ := h
  exact ⟨t, record, r, List.mem_append_left _ hmem, hrow, hP⟩

/-- The records of a write back its rows. -/
theorem backed_of_rows {t : DataType} {records : List PyValue} {rows : List (RowOf t)}
    (hrows : List.Forall₂ (RowFor env t) records rows) {r : RowOf t} (hr : r ∈ rows) (hP : P t r) :
    Backed env (written ++ records.map fun record => (t, record)) P := by
  obtain ⟨record, hrecord, hrow⟩ := exists_left_of_mem hrows hr
  exact ⟨t, record, r, List.mem_append_right _ (List.mem_map_of_mem hrecord), hrow, hP⟩

/-- What a graph of the service holds. -/
structure Grounded (env : Env) (written : List (DataType × PyValue)) (g : Graph) : Prop where
  schema : Schema g
  /-- Every node is one that a written record merges. -/
  nodes : ∀ v ∈ g.nodes, Backed env written fun t r => v ∈ mergedNodes t [r]
  /-- Every edge that is no HAS_STYLE edge is one that a written record asserts. -/
  arcs : ∀ a, g.HasArc a → a.kind ≠ .HAS_STYLE → Backed env written fun t r => a ∈ rowAsserts t r

/-- **A write keeps the graph grounded** in the records written. -/
theorem Grounded.write (h : Grounded env written g) {t : DataType} {records : List PyValue}
    {rows : List (RowOf t)} (hrows : List.Forall₂ (RowFor env t) records rows) :
    Grounded env (written ++ records.map fun record => (t, record))
      ((writerOf env t).projector.write rows g) where
  schema := h.schema.write rows
  nodes v hv := by
    rcases mem_nodes_write.mp hv with hv | ⟨r, hr, N, hN, hv⟩
    · exact (h.nodes v hv).append _
    · exact backed_of_rows hrows hr ⟨r, List.mem_singleton.mpr rfl, N, hN, hv⟩
  arcs a ha hkind := by
    rcases hasArc_write ha with ha | ⟨r, hr, ha⟩
    · exact (h.arcs a ha hkind).append _
    · exact backed_of_rows hrows hr ha

theorem Grounded.upkeep (h : Grounded env written g) (hup : Upkeep env allCategories g g') :
    Grounded env written g' := by
  obtain ⟨hschema, hnodes, hedges⟩ := hup.schema h.schema
  refine ⟨hschema, fun v hv => h.nodes v (hnodes v hv), ?_⟩
  rintro _ ⟨e, he, rfl⟩ hkind
  exact h.arcs _ (hasArc_of_mem (hedges e he hkind)) hkind

/-- Every graph of the service is grounded in the records written. -/
theorem Reached.grounded (h : Reached env allCategories written g) : Grounded env written g := by
  induction h with
  | empty =>
    refine ⟨schema_empty, fun v hv => absurd hv (Table.notMem_empty v), ?_⟩
    rintro a ⟨e, he, -⟩
    exact absurd he (Table.notMem_empty e)
  | @batch written g t messages _ ih =>
    obtain ⟨rows, hrows, hstep⟩ := Names.step_batch env t messages g
    rw [hstep]
    exact ih.write hrows
  | @record written g t record _ ih =>
    obtain ⟨rows, hrows, hstep⟩ := Names.step_record env t record g
    rw [hstep]
    exact ih.write hrows
  | upkeep _ hup ih => exact ih.upkeep hup

end Runs

/-- **Nothing is in the graph that no record asserts.** In every run of batches, single records,
sweeps, cleanups and backfills, aborted ones among them: every node is the node of a record that was
written or one that such a record refers to; every edge is asserted by such a record, but the
HAS_STYLE edges of the statistics, which lead from labels to styles; there is one edge at most over
an arc; and the edges of releases lead where the statistics expect them. -/
theorem catalog_grounded {env : Env} {allCategories : List String}
    {written : List (DataType × PyValue)} {g : Graph} (h : Reached env allCategories written g) :
    (∀ v ∈ g.nodes, ∃ t record r, (t, record) ∈ written ∧ RowFor env t record r ∧
      v ∈ mergedNodes t [r]) ∧
    (∀ e ∈ g.edges, e.arc.kind ≠ .HAS_STYLE →
      ∃ t record r, (t, record) ∈ written ∧ RowFor env t record r ∧ e.arc ∈ rowAsserts t r) ∧
    (∀ e ∈ g.edges, e.arc.kind = .HAS_STYLE → e.arc.src.label = .label ∧ e.arc.dst.label = .style) ∧
    (∀ e ∈ g.edges, ∀ e' ∈ g.edges, e.arc = e'.arc → e = e') ∧
    ReleaseSchema g := by
  obtain ⟨hschema, hnodes, harcs⟩ := h.grounded
  exact ⟨hnodes, fun e he hkind => harcs _ (hasArc_of_mem he) hkind, hschema.style,
    fun e he e' he' harc => eq_of_arc_eq hschema.simple he he' harc, hschema.release⟩

/-- A release of one genre. -/
def rockRelease : PyValue :=
  .obj [("id", .str "1"), ("sha256", .str "r"), ("genres", .arr [.str "Rock"])]

/-- The graph that it makes. -/
def rockGraph : Graph := Names.step plainEnv (.batch .releases [rockRelease]) ∅

theorem rockGraph_reached : Reached plainEnv [] [(.releases, rockRelease)] rockGraph := by
  have hwritten : Names.writtenRecords plainEnv ∅ (.batch .releases [rockRelease]) =
      [rockRelease] := by decide
  have h : Reached plainEnv [] _ rockGraph := .batch .releases [rockRelease] .empty
  rw [hwritten] at h
  exact h

theorem catalog_grounded_one_genre :
    (.genre (.str "Rock") : Node) ∈ rockGraph.nodes ∧
      ∃ t record r, (t, record) ∈ [(DataType.releases, rockRelease)] ∧
        RowFor plainEnv t record r ∧ .genre (.str "Rock") ∈ mergedNodes t [r] := by
  have hmem : (.genre (.str "Rock") : Node) ∈ rockGraph.nodes := by decide
  exact ⟨hmem, (catalog_grounded rockGraph_reached).1 _ hmem⟩

end Graphinator
