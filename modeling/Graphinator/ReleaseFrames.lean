import Graphinator.ArtistStats
import Graphinator.CreditCounts
import Graphinator.LabelStats
import Graphinator.MasterSentinel
import Graphinator.QueueOrder
import Graphinator.RecordAsserts
import Graphinator.StubCleanup

/-!
# What leaves the edges of releases alone

A record of a release decides the edges of its release, and nothing but another record of that
release changes them: not a batch of another type, a cleanup, a statistics sweep or the backfill of
names. The cleanup of the sentinel master deletes edges of releases, but only those to a master that
no record asserts.

## Main definitions

* `OfReleases`, `AtSentinel` : the edges that records of releases decide, and those of the sentinel.
* `SparesReleases` : what a writer leaves alone that does not write these releases.
* `deleteSentinelEdges`, `deleteSentinelMaster` : the two statements of the sentinel cleanup.

## Main results

* `sparesReleases_of_within` : programs whose footprint has no edge and no hash of a release.
* `sparesReleases_record` : a record spares the releases of the others.
* `sparesReleases_batch`, `Cleanup.Lacks.sparesReleases`, `sparesReleases_statRun` and the rest: one
  for each of the other writers.
-/

namespace Graphinator

open PropertyGraph PyValue

/-! ### The edges of releases -/

/-- The edges that the records of some releases decide. -/
def OfReleases (ids : Set PyValue) (a : Arc Node Rel) : Prop :=
  match a.kind with
  | .BY | .ON | .DERIVED_FROM | .IS | .ISSUED_ON _ | .CREDITED_TO .. =>
    ∃ id ∈ ids, a.src = .release id
  | .CREDITED_ON _ => ∃ id ∈ ids, a.dst = .release id
  | _ => False

/-- The master that a release without a master was once derived from. -/
def sentinelMaster : Node := .master (.str noMasterId)

/-- The sentinel is one of the ends. -/
def AtSentinel (a : Arc Node Rel) : Prop := a.src = sentinelMaster ∨ a.dst = sentinelMaster

instance : DecidablePred AtSentinel := fun _ => inferInstanceAs (Decidable (_ ∨ _))

section Arcs

variable {env : Env} {record id : PyValue} {ids : Set PyValue} {a : Arc Node Rel}

theorem ofReleases_of_mem (ha : a ∈ releaseArcs record id) (hid : id ∈ ids) : OfReleases ids a := by
  obtain ⟨kind, src, dst⟩ := a
  rcases ha with ⟨hsrc, hkind⟩ | ⟨hdst, role, hkind⟩
  · cases kind <;> first | exact ⟨id, hid, hsrc⟩ | exact hkind.elim
  · obtain rfl : kind = .CREDITED_ON role := hkind
    exact ⟨id, hid, hdst⟩

/-- Other edges lead anywhere. -/
theorem wellTyped_of_not (ha : ¬OfReleases Set.univ a) : WellTyped a := by
  obtain ⟨kind, ⟨srcLabel, src⟩, ⟨dstLabel, dst⟩⟩ := a
  cases kind <;> first
    | trivial
    | (rintro (rfl : _ = Label.release); exact absurd ⟨_, trivial, rfl⟩ ha)

/-- No record asserts an edge of the sentinel. -/
theorem AssertsArc.not_atSentinel (h : AssertsArc env record id a) : ¬AtSentinel a := by
  have hne : ∀ {v : Node}, v.label ≠ .master → v ≠ sentinelMaster := by
    rintro v hv rfl
    exact hv rfl
  cases h with
  | master _ hm =>
    rintro (h | h)
    · exact hne (by rintro ⟨⟩) h
    · obtain rfl := PyValue.str.inj (Node.mk.inj h).2
      exact (not_sentinelId hm).2 (Or.inr ⟨_, rfl, Or.inr (by decide)⟩)
  | _ =>
    rintro (h | h)
    · exact hne (by rintro ⟨⟩) h
    · exact hne (by rintro ⟨⟩) h

/-- Edges that projections share are of no release. -/
theorem not_ofReleases_of_shared (h : a.kind.isShared = true) : ¬OfReleases ids a := by
  obtain ⟨kind, src, dst⟩ := a
  cases kind <;> first | exact fun h => h | cases h

theorem not_ofReleases_of_kind (h : a.kind = .HAS_STYLE ∨ a.kind = .SAME_AS) :
    ¬OfReleases ids a := by
  rcases h with h | h
  · rw [OfReleases, h]
    exact id
  · rw [OfReleases, h]
    exact id

end Arcs

/-! ### What is spared -/

/-- The hashes of some releases are the same, and so are their edges, but for some of the
sentinel. -/
structure SparesReleases (ids : Set PyValue) (g g' : Graph) : Prop where
  hash : ∀ id ∈ ids, prop g' (.release id) "sha256" = prop g (.release id) "sha256"
  old : ∀ e ∈ g'.edges, OfReleases ids e.arc → e ∈ g.edges ∧ g'.edges.row e = g.edges.row e
  kept : ∀ e ∈ g.edges, OfReleases ids e.arc → ¬AtSentinel e.arc → e ∈ g'.edges
  simple : g.Simple → g'.Simple

namespace SparesReleases

variable {ids : Set PyValue} {g g' g'' : Graph}

theorem refl (ids : Set PyValue) (g : Graph) : SparesReleases ids g g :=
  ⟨fun _ _ => rfl, fun _ he _ => ⟨he, rfl⟩, fun _ he _ _ => he, id⟩

theorem trans (h : SparesReleases ids g g') (h' : SparesReleases ids g' g'') :
    SparesReleases ids g g'' where
  hash id hid := (h'.hash id hid).trans (h.hash id hid)
  old e he ha := by
    obtain ⟨he', hrow'⟩ := h'.old e he ha
    obtain ⟨he, hrow⟩ := h.old e he' ha
    exact ⟨he, hrow'.trans hrow⟩
  kept e he ha hs := h'.kept e (h.kept e he ha hs) ha hs
  simple hg := h'.simple (h.simple hg)

theorem runAll {α : Type} {f : α → Graph → Graph} {xs : List α}
    (h : ∀ x ∈ xs, ∀ t, SparesReleases ids t (f x t)) (g : Graph) :
    SparesReleases ids g (runAll f xs g) :=
  runAll_invariant (I := SparesReleases ids g) (fun x hx t ht => ht.trans (h x hx t)) (.refl ids g)

/-- A change of rows of nodes. -/
theorem of_edges (hedges : g'.edges = g.edges)
    (hhash : ∀ id ∈ ids, prop g' (.release id) "sha256" = prop g (.release id) "sha256") :
    SparesReleases ids g g' where
  hash := hhash
  old e he _ := ⟨hedges ▸ he, by rw [hedges]⟩
  kept e he _ _ := hedges ▸ he
  simple hg e he := hg e (hedges ▸ he)

/-- A deletion of edges. -/
theorem deleteEdges {p : Edge Node Rel → Prop} [DecidablePred p]
    (h : ∀ e, p e → OfReleases ids e.arc → AtSentinel e.arc) (g : Graph) :
    SparesReleases ids g (g.deleteEdges p) where
  hash _ _ := rfl
  old e he _ := by
    obtain ⟨he, hp⟩ := mem_edges_deleteEdges.mp he
    exact ⟨he, by rw [row_edges_deleteEdges, if_neg hp]⟩
  kept e he ha hs := mem_edges_deleteEdges.mpr ⟨he, fun hp => hs (h e hp ha)⟩
  simple hg e he := hg e (mem_edges_deleteEdges.mp he).1

/-- A deletion of nodes that are no releases with a hash. -/
theorem detachDelete {p : Node → Prop} [DecidablePred p]
    (hhash : ∀ id ∈ ids, p (.release id) → prop g (.release id) "sha256" = .null)
    (h : ∀ e ∈ g.edges, OfReleases ids e.arc → p e.arc.src ∨ p e.arc.dst → AtSentinel e.arc) :
    SparesReleases ids g (g.detachDelete p) where
  hash id hid := by
    rw [prop, row_nodes_detachDelete]
    split_ifs with hp
    · exact (hhash id hid hp).symm
    · rfl
  old e he _ := by
    obtain ⟨he, hends⟩ := mem_edges_detachDelete.mp he
    exact ⟨he, by rw [row_edges_detachDelete, if_pos hends]⟩
  kept e he ha hs := by
    refine mem_edges_detachDelete.mpr ⟨he, fun hp => hs ?_, fun hp => hs ?_⟩
    · exact h e he ha (Or.inl hp)
    · exact h e he ha (Or.inr hp)
  simple hg e he := hg e (mem_edges_detachDelete.mp he).1

/-- A merge of an edge of another type. -/
theorem mergeEdge {a : Arc Node Rel} (ha : ¬OfReleases ids a) (s : Row → Row) (g : Graph) :
    SparesReleases ids g (g.mergeEdge a s) where
  hash id _ := by rw [prop, row_nodes_mergeEdge, prop]
  old e he hof := by
    have hne : e.arc ≠ a := fun h => ha (h ▸ hof)
    refine ⟨?_, by rw [row_edges_mergeEdge, if_neg fun h => hne h.2]⟩
    rcases mem_edges_mergeEdge.mp he with he | ⟨rfl, -⟩
    · exact he
    · exact absurd rfl hne
  kept e he _ _ := mem_edges_mergeEdge.mpr (Or.inl he)
  simple hg := hg.mergeEdge a s

end SparesReleases

/-! ### Projections, and links -/

/-- **Programs that own and merge no edge of the releases** and keep their hashes. -/
theorem sparesReleases_of_within {ids : Set PyValue} {F : Footprint Node Rel Row}
    {f : Graph → Graph} (hf : Within F f) (howned : ∀ a ∈ F.owned, ¬OfReleases ids a)
    (hmerged : ∀ a ∈ F.merged, ¬OfReleases ids a)
    (hupdates : ∀ id ∈ ids, ∀ u ∈ F.updates (.release id), ∀ row, u row "sha256" = row "sha256")
    (g : Graph) : SparesReleases ids g (f g) := by
  have hedges : ∀ {e : Edge Node Rel}, OfReleases ids e.arc →
      (e ∈ (f g).edges ↔ e ∈ g.edges) ∧ (f g).edges.row e = g.edges.row e := fun ha =>
    hf.edges_of_notMem (fun h => howned _ h ha) (fun h => hmerged _ h ha) g
  refine ⟨fun id hid => ?_, fun e he ha => ⟨(hedges ha).1.mp he, (hedges ha).2⟩,
    fun e he ha _ => (hedges ha).1.mpr he, hf.simple⟩
  exact hf.row_nodes (R := fun row row' => row' "sha256" = row "sha256") (fun _ => rfl)
    (fun h h' => h'.trans h) (hupdates id hid) g

/-- SAME_AS edges. -/
theorem sparesReleases_linkAll {ids : Set PyValue} {links : List (Arc Node Rel)}
    (h : ∀ a ∈ links, a.kind = .SAME_AS) (g : Graph) : SparesReleases ids g (linkAll links g) := by
  refine .runAll (fun a ha t => ?_) g
  simp only [matchEdge, matchNode]
  split_ifs
  · exact .mergeEdge (not_ofReleases_of_kind (Or.inr (h a ha))) id t
  · exact .refl ids t
  · exact .refl ids t

/-- **A batch of another type.** -/
theorem sparesReleases_batch (env : Env) {t : DataType} (ht : t ≠ .releases)
    (messages : List PyValue) (g : Graph) :
    SparesReleases Set.univ g (Names.step env (.batch t messages) g) := by
  obtain ⟨rows, -, hstep⟩ := Names.step_batch env t messages g
  have hown : ∀ {r : RowOf t} {id : PyValue}, (stagesOf t).own r ≠ .release id := by
    intro r id heq
    have hlabel := congrArg Node.label heq
    rw [label_own] at hlabel
    cases t <;> first | exact ht rfl | cases hlabel
  rw [hstep, write_eq_linkAll]
  refine .trans (sparesReleases_of_within (Staged.within_batch _ rows) ?_ ?_ ?_ g)
    (sparesReleases_linkAll (fun a ha => (mem_sameAsLinks ha).1) _)
  · rintro ⟨kind, src, dst⟩ ⟨r, -, ha⟩ hof
    rcases managed_cases ha with ⟨hsrc, hkind⟩ | ⟨hdst, role, hkind⟩
    · cases kind with
      | CREDITED_ON role => exact hkind role rfl
      | BY | ON | DERIVED_FROM | IS | ISSUED_ON | CREDITED_TO =>
        obtain ⟨id, -, hof⟩ := hof
        exact hown (hsrc.symm.trans hof)
      | _ => exact hof
    · obtain rfl : kind = .CREDITED_ON role := hkind
      obtain ⟨id, -, hof⟩ := hof
      exact hown (hdst.symm.trans hof)
  · exact fun a ha => not_ofReleases_of_shared (isShared_of_shared ha)
  · rintro id - u ⟨r, -, hu⟩ row
    exact hash_of_updates env hu hown row

/-- **A record of a release** spares the other releases. -/
theorem sparesReleases_record (r : ReleaseRow) (g : Graph) :
    SparesReleases {id | id ≠ r.id} g (releaseStages.record r g) := by
  refine sparesReleases_of_within (releaseStages.within_record r) ?_ ?_ ?_ g
  · rintro ⟨kind, src, dst⟩ ha hof
    rcases ha with ⟨hsrc, hkind⟩ | ⟨hdst, role, hkind⟩
    · cases kind with
      | BY | ON | DERIVED_FROM | IS | ISSUED_ON | CREDITED_TO =>
        obtain ⟨id, hid, hof⟩ := hof
        exact hid (Node.mk.inj (hof.symm.trans hsrc)).2
      | _ => exact hkind
    · obtain rfl : kind = .CREDITED_ON role := hkind
      obtain ⟨id, hid, hof⟩ := hof
      exact hid (Node.mk.inj (hof.symm.trans hdst)).2
  · exact fun a ha => not_ofReleases_of_shared (isShared_of_shared (t := .releases) ha)
  · rintro id hid u hu
    have hu : u ∈ releaseUpdates r (.release id) := hu
    exact absurd (Node.mk.inj hu.1).2 hid

/-! ### Cleanups -/

/-- A stub is at no edge of a release. -/
theorem Cleanup.Lacks.sparesReleases {g g' : Graph} (h : Cleanup.Lacks g g') :
    SparesReleases Set.univ g g' := by
  obtain ⟨deleted, hdeleted, rfl⟩ := h
  refine .detachDelete (fun id _ hid => (hdeleted _ hid).2.1) fun e he hof hends => ?_
  have hkind : e.arc.kind ≠ .HAS_STYLE := fun h => not_ofReleases_of_kind (Or.inl h) hof
  have hnot := notMem_of_kind (fun w hw => (hdeleted w hw).2) he hkind
  rcases hends with h | h
  · exact absurd h hnot.1
  · exact absurd h hnot.2

/-- A chunk of `MATCH (:Master {id: '0'})-[rel]-() .. DELETE rel`. -/
def deleteSentinelEdges (chunk : Finset (Edge Node Rel)) : Graph → Graph :=
  deleteEdges fun e => e ∈ chunk ∧ AtSentinel e.arc

/-- `MATCH (m:Master {id: '0'}) DETACH DELETE m`. -/
def deleteSentinelMaster : Graph → Graph := detachDelete (· = sentinelMaster)

theorem sparesReleases_deleteSentinelEdges (chunk : Finset (Edge Node Rel)) (g : Graph) :
    SparesReleases Set.univ g (deleteSentinelEdges chunk g) :=
  .deleteEdges (fun _ hp _ => hp.2) g

theorem sparesReleases_deleteSentinelMaster (g : Graph) :
    SparesReleases Set.univ g (deleteSentinelMaster g) :=
  .detachDelete (fun _ _ h => by cases h) fun _ _ _ h => h

/-! ### Statistics and names -/

/-- The changes that a statistics sweep may make. -/
def GraphUpdate.Aggregate : GraphUpdate → Prop
  | .setNode v _ _ => v.label ≠ .release
  | .setEdge e _ _ | .deleteEdge e => e.arc.kind = .HAS_STYLE
  | .createEdge a => a.kind = .HAS_STYLE

theorem GraphUpdate.Aggregate.sparesReleases {u : GraphUpdate} (h : u.Aggregate) (g : Graph) :
    SparesReleases Set.univ g (u.apply g) := by
  cases u with
  | setNode v key value =>
    refine .of_edges rfl fun id _ => ?_
    have hne : (.release id : Node) ≠ v := by
      rintro rfl
      exact h rfl
    change (g.setNodes (· = v) _).nodes.row _ _ = _
    rw [row_nodes_setNodes, if_neg fun h => hne h.2]
    rfl
  | setEdge e key value =>
    refine ⟨fun _ _ => rfl, fun e' he' hof => ⟨he', ?_⟩, fun _ he' _ _ => he', id⟩
    have hne : e' ≠ e := by
      rintro rfl
      exact not_ofReleases_of_kind (Or.inl h) hof
    change (g.setEdges (· = e) _).edges.row e' = _
    rw [row_edges_setEdges, if_neg fun h => hne h.2]
  | createEdge a => exact .mergeEdge (not_ofReleases_of_kind (Or.inl h)) id g
  | deleteEdge e =>
    refine .deleteEdges (fun e' he' hof => ?_) g
    obtain rfl : e' = e := he'
    exact absurd hof (not_ofReleases_of_kind (Or.inl h))

/-- A statement that computes aggregates only. -/
def Statement.Aggregates (f : Statement) : Prop := ∀ g, SparesReleases Set.univ g (f g).1

namespace Statement.Aggregates

theorem emit {updates : Graph → List GraphUpdate} (h : ∀ g, ∀ u ∈ updates g, u.Aggregate) :
    Aggregates (emit updates) :=
  fun g => .runAll (fun u hu t => (h g u hu).sparesReleases t) g

theorem seqAll {α : Type} {f : α → Statement} {xs : List α} (h : ∀ x ∈ xs, Aggregates (f x)) :
    Aggregates (seqAll f xs) :=
  fun g => seqAll_invariant (I := SparesReleases Set.univ g)
    (fun x hx t ht => ht.trans (h x hx t)) (.refl _ g)

theorem guardedSet {v : Node} (hv : v.label ≠ .release) (key : String) (value : PyValue) :
    Aggregates (guardedSet v key value) := by
  refine emit fun g u hu => ?_
  split_ifs at hu
  · obtain rfl := List.mem_singleton.mp hu
    exact hv
  · cases hu

theorem setAll {n : Node} (hn : n.label ≠ .release) (props : Graph → List (String × PyValue)) :
    Aggregates (setAll n props) := by
  refine emit fun g u hu => ?_
  split_ifs at hu
  · obtain ⟨kv, -, rfl⟩ := List.mem_map.mp hu
    exact hn
  · cases hu

/-- The statements of a genre or a style. -/
theorem nodeStatStatements (E : Enumeration) {n : Node} (hn : n.label ≠ .release) (other : Label)
    (otherProp : String) : ∀ f ∈ nodeStatStatements E n other otherProp, Aggregates f := by
  simp only [Graphinator.nodeStatStatements, List.forall_mem_cons]
  exact ⟨setAll hn _, setAll hn _, setAll hn _, List.forall_mem_nil _⟩

/-- The edges to the styles of a label. -/
theorem mergeStyleRow (E : Enumeration) (l : Node) (row : Node × ℕ) :
    Aggregates (mergeStyleRow E l row) := by
  refine fun g => seqAll (f := fun clause => clause) ?_ g
  simp only [List.forall_mem_cons]
  refine ⟨emit fun g u hu => ?_, emit fun g u hu => ?_, List.forall_mem_nil _⟩
  · split_ifs at hu
    · cases hu
    · obtain rfl := List.mem_singleton.mp hu
      rfl
  · obtain ⟨e, he, rfl⟩ := List.mem_map.mp hu
    have harc := (Finset.mem_filter.mp (E.mem_list.mp he)).2.1
    exact congrArg Arc.kind harc

theorem setLabelStats (E : Enumeration) {l : Node} (hl : l.label ≠ .release) :
    Aggregates (setLabelStats E l) := by
  refine fun g => seqAll (f := fun clause => clause) ?_ g
  simp only [List.forall_mem_cons]
  refine ⟨seqAll fun kv _ => guardedSet hl kv.1 kv.2, emit fun g u hu => ?_,
    seqAll fun row _ => mergeStyleRow E l row, List.forall_mem_nil _⟩
  obtain ⟨e, he, rfl⟩ := List.mem_map.mp hu
  exact (Finset.mem_filter.mp (E.mem_list.mp he)).2.2.1

theorem setArtistStats (E : Enumeration) {a : Node} (ha : a.label ≠ .release) :
    Aggregates (setArtistStats E a) := by
  refine fun g => seqAll (f := fun clause => clause) ?_ g
  simp only [List.forall_mem_cons]
  refine ⟨guardedSet ha _ _, guardedSet ha _ _, emit fun g u hu => ?_, List.forall_mem_nil _⟩
  split_ifs at hu
  · obtain rfl := List.mem_singleton.mp hu
    exact ha
  · cases hu

theorem setCreditCounts (E : Enumeration) (allCategories : List String) {p : Node}
    (hp : p.label ≠ .release) : Aggregates (setCreditCounts E allCategories p) :=
  fun g => seqAll (fun kv _ => guardedSet hp kv.1 kv.2) g

end Statement.Aggregates

/-- **The sweeps of genres, styles and labels.** -/
theorem sparesReleases_statRun (run : StatRun) (g : Graph) :
    SparesReleases Set.univ g (run.statement g).1 := by
  cases run with
  | genre E key =>
    exact Statement.Aggregates.seqAll
      (Statement.Aggregates.nodeStatStatements E (by rintro ⟨⟩) _ _) g
  | style E key =>
    exact Statement.Aggregates.seqAll
      (Statement.Aggregates.nodeStatStatements E (by rintro ⟨⟩) _ _) g
  | labels E cursor size =>
    exact Statement.Aggregates.seqAll
      (fun id _ => Statement.Aggregates.setLabelStats E (by rintro ⟨⟩)) g

theorem sparesReleases_artistStatsPage (E : Enumeration) (cursor : String) (size : ℕ) (g : Graph) :
    SparesReleases Set.univ g (artistStatsPage E cursor size g).1 :=
  Statement.Aggregates.seqAll (fun _ _ => Statement.Aggregates.setArtistStats E (by rintro ⟨⟩)) g

theorem sparesReleases_creditCountPage (E : Enumeration) (allCategories : List String)
    (cursor : String) (size : ℕ) (g : Graph) :
    SparesReleases Set.univ g (creditCountPage E allCategories cursor size g).1 :=
  Statement.Aggregates.seqAll
    (fun _ _ => Statement.Aggregates.setCreditCounts E allCategories (by rintro ⟨⟩)) g

/-- **The backfill of names.** -/
theorem sparesReleases_backfill (env : Env) (kind : Label) (lines : List PyValue) (g : Graph) :
    SparesReleases Set.univ g (Names.step env (.backfill kind lines) g) := by
  simp only [Names.step]
  cases backfillRows env kind lines with
  | error error => exact .refl _ g
  | ok rows =>
    change SparesReleases Set.univ g (fillMissingNames kind rows g)
    refine .runAll (fun row _ t => ?_) g
    refine .of_edges rfl fun id _ => ?_
    change (t.setNodes (· = row.node kind) _).nodes.row _ _ = _
    rw [row_nodes_setNodes]
    split_ifs
    · exact setProps_of_notMem (by simp) _
    · rfl

end Graphinator
