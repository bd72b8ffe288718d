import Graphinator.ReleaseFrames
import Graphinator.ReleaseScope

/-!
# What the hash skip relies on

A batch of releases skips a record whose hash its release carries: the edges of the release are
taken to be those that the record asserts. So a release with a hash may never lack an edge that the
record of that hash asserts, or keep another one, whatever is written, cleaned up or recomputed
between two batches.

## Main definitions

* `VersionOf`, `Versions` : the versions of a release, and a feed whose hashes tell versions apart.
* `Reflects` : the edges of a release are those that a record asserts.
* `Sound` : every release that carries a hash reflects the version with this hash.
* `CatalogStep` : the transactions and the sweeps of batch mode.

## Main results

* `Sound.of_spares` : what spares the releases keeps the skip sound.
* `Sound.write` : so does a record of a release.
* `Sound.step` : so does every step.
* `hash_skip_sound` : the skip is sound in every graph that a run reaches.
-/

namespace Graphinator

open PropertyGraph PyValue

/-! ### Versions -/

/-- The record is the version of a release with this hash. -/
def VersionOf (record id hash : PyValue) : Prop :=
  recordNode? .release record = some (.release id) ∧ record.get "sha256" = .ok hash

/-- Ids and hashes of release records are texts that are not empty, and two records of one release
with the same hash are the same. -/
structure Versions (published : Set PyValue) : Prop where
  id : ∀ record ∈ published, ∃ s, s ≠ "" ∧ record.get "id" = .ok (.str s)
  sha256 : ∀ record ∈ published, ∃ s, s ≠ "" ∧ record.get "sha256" = .ok (.str s)
  same : ∀ record ∈ published, ∀ other ∈ published, record.get "id" = other.get "id" →
    record.get "sha256" = other.get "sha256" → record = other

/-- The edges of a release to the companies of this provider. -/
def providerCompanies (id : PyValue) : Set (Arc Node Rel) :=
  {a | a.src = .release id ∧ ∃ role, a.kind = .CREDITED_TO role companySource}

/-- **The edges of a release are those that a record asserts**, one each, and its media have the
quantities of the record. -/
structure Reflects (env : Env) (record id : PyValue) (g : Graph) : Prop where
  arcs : ∀ a ∈ releaseArcs record id, g.HasArc a ↔ AssertsArc env record id a
  single : ∀ e ∈ g.edges, ∀ e' ∈ g.edges, e.arc ∈ releaseArcs record id → e.arc = e'.arc → e = e'
  qty : ∀ e ∈ g.edges, ∀ medium,
    e.arc = ⟨.ISSUED_ON mediaSource, .release id, .medium medium⟩ →
      g.edges.row e "qty" = .int (assertedQty (mediaItems env record) medium)

/-- The companies of a release are those of a record of it that carries a block. -/
def CompaniesFrom (env : Env) (published : Set PyValue) (id : PyValue) (g : Graph) : Prop :=
  ∃ record ∈ published, recordNode? .release record = some (.release id) ∧
    companiesBlock record ≠ none ∧
      ∀ a ∈ providerCompanies id, g.HasArc a ↔ AssertsArc env record id a

/-- **The skip is sound**: every release that carries a hash reflects the version with this hash.
The edges to companies are those of a record that speaks of companies, or there are none. -/
structure Sound (env : Env) (published : Set PyValue) (g : Graph) : Prop where
  simple : g.Simple
  typed : ∀ a, g.HasArc a → WellTyped a
  reflects : ∀ id, prop g (.release id) "sha256" ≠ .null → ∃ record ∈ published,
    VersionOf record id (prop g (.release id) "sha256") ∧ Reflects env record id g
  companies : ∀ id, (∀ a ∈ providerCompanies id, ¬g.HasArc a) ∨ CompaniesFrom env published id g

section Spares

variable {env : Env} {record id : PyValue} {ids published : Set PyValue} {g g' : Graph}
  {a : Arc Node Rel}

theorem ofReleases_of_company (ha : a ∈ providerCompanies id) (hid : id ∈ ids) :
    OfReleases ids a := by
  obtain ⟨hsrc, role, hkind⟩ := ha
  rw [OfReleases, hkind]
  exact ⟨id, hid, hsrc⟩

namespace SparesReleases

theorem hasArc_old (h : SparesReleases ids g g') (ha : OfReleases ids a) (harc : g'.HasArc a) :
    g.HasArc a := by
  obtain ⟨e, he, rfl⟩ := harc
  exact hasArc_of_mem (h.old e he ha).1

/-- Edges that are asserted come and go with no other writer. -/
theorem hasArc_iff_asserts (h : SparesReleases ids g g') (ha : OfReleases ids a)
    (hiff : g.HasArc a ↔ AssertsArc env record id a) :
    g'.HasArc a ↔ AssertsArc env record id a := by
  constructor
  · exact fun harc => hiff.mp (h.hasArc_old ha harc)
  · intro hasserts
    obtain ⟨e, he, rfl⟩ := hiff.mpr hasserts
    exact hasArc_of_mem (h.kept e he ha hasserts.not_atSentinel)

theorem reflects (h : SparesReleases ids g g') (hid : id ∈ ids)
    (hreflects : Reflects env record id g) : Reflects env record id g' where
  arcs a ha := h.hasArc_iff_asserts (ofReleases_of_mem ha hid) (hreflects.arcs a ha)
  single e he e' he' ha heq := by
    have hof := ofReleases_of_mem ha hid
    exact hreflects.single e (h.old e he hof).1 e' (h.old e' he' (heq ▸ hof)).1 ha heq
  qty e he medium harc := by
    have hof : OfReleases ids e.arc := by
      rw [harc]
      exact ⟨id, hid, rfl⟩
    obtain ⟨he, hrow⟩ := h.old e he hof
    rw [hrow]
    exact hreflects.qty e he medium harc

/-- The companies of a release that is spared. -/
theorem companies (h : SparesReleases ids g g') (hid : id ∈ ids)
    (hcompanies : (∀ a ∈ providerCompanies id, ¬g.HasArc a) ∨ CompaniesFrom env published id g) :
    (∀ a ∈ providerCompanies id, ¬g'.HasArc a) ∨ CompaniesFrom env published id g' := by
  rcases hcompanies with hnone | ⟨record, hrecord, hnode, hblock, hiff⟩
  · exact Or.inl fun a ha harc => hnone a ha (h.hasArc_old (ofReleases_of_company ha hid) harc)
  · refine Or.inr ⟨record, hrecord, hnode, hblock, fun a ha => ?_⟩
    exact h.hasArc_iff_asserts (ofReleases_of_company ha hid) (hiff a ha)

end SparesReleases

/-- **What spares the releases keeps the skip sound.** -/
theorem Sound.of_spares (hsound : Sound env published g) (h : SparesReleases Set.univ g g') :
    Sound env published g' where
  simple := h.simple hsound.simple
  typed a harc := by
    by_cases ha : OfReleases Set.univ a
    · exact hsound.typed a (h.hasArc_old ha harc)
    · exact wellTyped_of_not ha
  reflects id hhash := by
    rw [h.hash id trivial] at hhash ⊢
    obtain ⟨record, hrecord, hversion, hreflects⟩ := hsound.reflects id hhash
    exact ⟨record, hrecord, hversion, h.reflects trivial hreflects⟩
  companies id := h.companies trivial (hsound.companies id)

end Spares

/-! ### A record of a release -/

section Record

variable {env : Env} {record : PyValue} {published : Set PyValue} {r : ReleaseRow} {g : Graph}

/-- The hash that a record leaves on its release. -/
theorem hash_record (hr : releaseRow env record = .ok r) (g : Graph) :
    prop (releaseStages.record r g) (.release r.id) "sha256" = r.sha256 := by
  have hrow : (releaseStages.record r g).nodes.row (.release r.id) =
      setProps r.props (g.nodes.row (.release r.id)) := by
    refine (releaseStages.row_own ReleaseRow.props rfl (fun _ => rfl) rfl [r] g).trans ?_
    exact if_pos rfl
  rw [prop, hrow]
  have hmem : ("sha256", r.sha256) ∈ r.props := by simp [ReleaseRow.props]
  exact setProps_of_mem (ReleaseRow.props_nodup hr) hmem _

/-- The media statement writes the edge to its medium only. -/
theorem sameEdge_linkMedium {release : PyValue} {e : Edge Node Rel} {medium : String}
    {row : MediaRow} (hne : medium ≠ row.medium)
    (harc : e.arc = ⟨.ISSUED_ON mediaSource, .release release, .medium medium⟩) (g : Graph) :
    SameEdge e g (linkMedium release row g) := by
  let F : Footprint Node Rel Row := ⟨fun _ => Set.univ,
    {⟨.ISSUED_ON mediaSource, .release release, .medium row.medium⟩}, {a | a.kind = .IN_FAMILY}⟩
  have hwithin : Within (σ := Row) F (linkMedium release row) := within_linkMedium trivial rfl rfl
  refine hwithin.edges_of_notMem (fun h => hne ?_) (fun h => ?_) g
  · have heq := (Arc.mk.inj (harc.symm.trans h)).2.2
    exact PyValue.str.inj (Node.mk.inj heq).2
  · have hkind : e.arc.kind = .IN_FAMILY := h
    rw [harc] at hkind
    cases hkind

/-- The quantities that the media statements leave. -/
theorem qty_linkMedium {rows : List MediaRow} (hnodup : (rows.map (·.medium)).Nodup)
    {release : PyValue} {e : Edge Node Rel} {row : MediaRow} (hrow : row ∈ rows)
    (harc : e.arc = ⟨.ISSUED_ON mediaSource, .release release, .medium row.medium⟩) (g : Graph)
    (he : e ∈ (runAll (linkMedium release) rows g).edges) :
    (runAll (linkMedium release) rows g).edges.row e "qty" = .int row.qty := by
  induction rows generalizing g with
  | nil => cases hrow
  | cons first rows ih =>
    rw [List.map_cons, List.nodup_cons] at hnodup
    rw [runAll_cons] at he ⊢
    rcases List.mem_cons.mp hrow with rfl | hrow
    · -- the rest of the rows are of other media
      have hrest : SameEdge e (linkMedium release row g)
          (runAll (linkMedium release) rows (linkMedium release row g)) := by
        refine sameEdge_runAll (fun other hother t => sameEdge_linkMedium ?_ harc t) _
        exact fun heq => hnodup.1 (heq ▸ List.mem_map_of_mem hother)
      have he' := hrest.1.mp he
      rw [hrest.2]
      unfold linkMedium at he' ⊢
      rw [row_edges_mergeEdge, if_pos ⟨he', harc⟩, setProps_cons, setProps_nil,
        Function.update_self]
    · exact ih hnodup.2 hrow _ he

/-- What the statements after the media may touch. -/
def afterMediaFootprint : Footprint Node Rel Row where
  updates _ := Set.univ
  owned := {a | ∀ source, a.kind ≠ .ISSUED_ON source}
  merged := ∅

theorem within_afterMedia (r : ReleaseRow) : Within (σ := Row) afterMediaFootprint fun g =>
    g |> pruneCompanies r |> runAll (linkCompany r.id) (r.companyRows.getD [])
      |> pruneCreditedOn r |> runAll (linkCredit r.id) r.creditRows := by
  have hcompanies : Within (σ := Row) afterMediaFootprint (pruneCompanies r) := by
    unfold pruneCompanies
    split
    · exact .skip
    · next rows hrows =>
      refine .deleteEdges _ fun e he source hkind => ?_
      obtain ⟨role, source', hkind'⟩ := kind_droppedCompanies r (a := e.arc) ⟨rows, hrows, he⟩
      cases hkind.symm.trans hkind'
  have hcredits : Within (σ := Row) afterMediaFootprint (pruneCreditedOn r) := by
    refine .deleteEdges _ fun e he source hkind => ?_
    obtain ⟨role, hkind'⟩ := kind_droppedCredits r (a := e.arc) he
    cases hkind.symm.trans hkind'
  refine .comp (.runAll fun row _ => ?_)
    (.comp hcredits (.comp (.runAll fun row _ => ?_) hcompanies))
  · exact .comp (.mergeOwned _ _ (by rintro source ⟨⟩)) (.mergeNode _ _ (Or.inl rfl))
  · exact .comp (.mergeOwned _ _ (by rintro source ⟨⟩)) (.mergeNode _ _ (Or.inr trivial))

/-- The quantities that a record leaves. -/
theorem qty_record (hrow : ReleaseRowOf env record r) {e : Edge Node Rel} {medium : String}
    (harc : e.arc = ⟨.ISSUED_ON mediaSource, .release r.id, .medium medium⟩)
    (hasserts : AssertsArc env record r.id e.arc) (he : e ∈ (releaseStages.record r g).edges) :
    (releaseStages.record r g).edges.row e "qty" =
      .int (assertedQty (mediaItems env record) medium) := by
  obtain ⟨row, hmem, rfl⟩ : ∃ row ∈ r.mediaRows, row.medium = medium := by
    rw [harc] at hasserts
    cases hasserts with
    | medium hitem =>
      exact List.mem_map.mp ((hrow.mediaRowsOf.mem_iff _).mpr (List.mem_map_of_mem hitem))
  have hsplit : releaseStages.record r g = _ := runStages_releaseStages r g
  have hsame := (within_afterMedia r).edges_of_notMem (e := e)
    (fun h => h mediaSource (by rw [harc])) (Set.notMem_empty _)
    (runAll (linkMedium r.id) r.mediaRows
      (pruneIssuedOn r (linkReferences r (pruneReleaseEdges r (mergeRelease r g)))))
  rw [hsplit] at he ⊢
  refine (congrFun hsame.2 "qty").trans ?_
  rw [qty_linkMedium hrow.mediaRowsOf.nodup hmem harc _ (hsame.1.mp he),
    hrow.mediaRowsOf.qty row hmem]

/-- A record without a companies block leaves the companies of its release. -/
theorem hasArc_silent (hnone : r.companyRows = none) {a : Arc Node Rel}
    (ha : a ∈ providerCompanies r.id) (g : Graph) :
    (releaseStages.record r g).HasArc a ↔ g.HasArc a := by
  obtain ⟨-, role, hkind⟩ := ha
  have hmanaged : a ∉ releaseManaged r := by
    rintro (⟨-, h⟩ | ⟨-, role', h⟩)
    · rw [hkind] at h
      exact h.2 hnone
    · cases hkind.symm.trans h
  have hshared : a.kind ∉ releaseStages.shared := by simp [releaseStages, hkind]
  simp only [hasArc_iff]
  exact exists_congr fun n =>
    ((releaseStages.within_record r).edges_of_notMem (e := ⟨a, n⟩) hmanaged hshared g).1

/-- **A record keeps the skip sound.** -/
theorem Sound.write (hversions : Versions published) (hrecord : record ∈ published)
    (hr : releaseRow env record = .ok r) (hsound : Sound env published g) :
    Sound env published (releaseStages.record r g) := by
  have hrow := releaseRow_spec hr
  have hspares := sparesReleases_record r g
  have hsimple : (releaseStages.record r g).Simple := hspares.simple hsound.simple
  have hnode : recordNode? .release record = some (.release r.id) :=
    NodeWriter.recordNode?_eq (T := releasesWriter env) hr
  have harcs : ∀ a ∈ releaseArcs record r.id, (releaseStages.record r g).HasArc a ↔
      AssertsArc env record r.id a := fun a ha => hasArc_record_iff hrow ha (hsound.typed a)
  refine ⟨hsimple, fun a harc => ?_, fun id hhash => ?_, fun id => ?_⟩
  · rcases (arcEffect_release r g a).mp harc with ⟨harc, -⟩ | hasserts
    · exact hsound.typed a harc
    · exact wellTyped_asserts hrow hasserts
  · by_cases hid : id = r.id
    · subst hid
      refine ⟨record, hrecord, ⟨hnode, ?_⟩, harcs, fun e he e' he' _ heq => ?_, ?_⟩
      · rw [hash_record hr]
        obtain ⟨value, hvalue, hstored⟩ := hrow.sha256
        obtain ⟨s, -, hs⟩ := hversions.sha256 record hrecord
        obtain rfl := Except.ok.inj (hs.symm.trans hvalue)
        rw [hs, ← Except.ok.inj hstored]
      · obtain ⟨arc, copy⟩ := e
        obtain ⟨arc', copy'⟩ := e'
        obtain rfl : arc = arc' := heq
        obtain rfl : copy = 0 := hsimple _ he
        obtain rfl : copy' = 0 := hsimple _ he'
        rfl
      · intro e he medium harc
        have ha : e.arc ∈ releaseArcs record r.id := by
          rw [harc]
          exact Or.inl ⟨rfl, rfl⟩
        exact qty_record hrow harc ((harcs _ ha).mp (hasArc_of_mem he)) he
    · rw [hspares.hash id hid] at hhash ⊢
      obtain ⟨other, hother, hversion, hreflects⟩ := hsound.reflects id hhash
      exact ⟨other, hother, hversion, hspares.reflects hid hreflects⟩
  · by_cases hid : id = r.id
    · subst hid
      by_cases hblock : companiesBlock record = none
      · have hsame : ∀ a ∈ providerCompanies r.id,
            ((releaseStages.record r g).HasArc a ↔ g.HasArc a) := fun a ha =>
          hasArc_silent (hrow.companyRows_eq_none.mpr hblock) ha g
        refine (hsound.companies r.id).imp (fun hnone a ha harc => ?_) fun hfrom => ?_
        · exact hnone a ha ((hsame a ha).mp harc)
        · obtain ⟨other, hother, hnode', hblock', hiff⟩ := hfrom
          exact ⟨other, hother, hnode', hblock', fun a ha => (hsame a ha).trans (hiff a ha)⟩
      · refine Or.inr ⟨record, hrecord, hnode, hblock, fun a ha => harcs a (Or.inl ⟨ha.1, ?_⟩)⟩
        obtain ⟨-, role, hkind⟩ := ha
        rw [hkind]
        exact ⟨rfl, hblock⟩
    · exact hspares.companies hid (hsound.companies id)

end Record

/-! ### Batches -/

section Batches

variable {env : Env} {published : Set PyValue} {g g' : Graph} {t : DataType}
  {messages : List PyValue}

theorem usableMessages_sublist (messages : List PyValue) (usable : List Bool) :
    (usableMessages messages usable).Sublist messages := by
  induction messages generalizing usable with
  | nil => exact List.Sublist.slnil
  | cons record messages ih =>
    cases usable with
    | nil => exact List.nil_sublist _
    | cons u usable =>
      unfold usableMessages
      rw [List.zip_cons_cons]
      cases u with
      | true =>
        rw [List.filterMap_cons_some (by rfl)]
        exact (ih usable).cons_cons record
      | false =>
        rw [List.filterMap_cons_none (by rfl)]
        exact (ih usable).cons record

/-- The rows of a batch are those of some of its messages, in order. -/
theorem Transaction.batchRows_sublist (env : Env) (g : Graph) (t : DataType)
    (messages : List PyValue) : ∃ written : List PyValue, written.Sublist messages ∧
      List.Forall₂ (fun record r => (writerOf env t).projector.row record = .ok r) written
        (Transaction.batchRows env g t messages) := by
  unfold Transaction.batchRows
  cases messages.mapM (writerOf env t).projector.usable with
  | error error => exact ⟨[], List.nil_sublist _, .nil⟩
  | ok usable =>
    obtain ⟨changed, hchanged⟩ : ∃ changed, (usableMessages messages usable).filter (fun record =>
      !skips env g t.nodeLabel (usableMessages messages usable) record) = changed := ⟨_, rfl⟩
    simp only [hchanged]
    cases hrows : changed.mapM (writerOf env t).projector.row with
    | error error => exact ⟨[], List.nil_sublist _, .nil⟩
    | ok rows =>
      refine ⟨changed, ?_, mapM_eq_ok.mp hrows⟩
      rw [← hchanged]
      exact List.filter_sublist.trans (usableMessages_sublist messages usable)

/-- Records of different ids are of different releases. -/
theorem pairwise_own (hversions : Versions published) {written : List PyValue}
    {rows : List ReleaseRow} (hwritten : ∀ record ∈ written, record ∈ published)
    (hnodup : (written.map (·.get "id")).Nodup)
    (hrows : List.Forall₂ (fun record r => releaseRow env record = .ok r) written rows) :
    rows.Pairwise fun r r' => releaseStages.own r ≠ releaseStages.own r' := by
  have hids : rows.map (fun r => (.ok r.id : Except PyError PyValue)) =
      written.map (·.get "id") := by
    induction hrows with
    | nil => rfl
    | cons hr _ ih =>
      rename_i record r written rows _
      obtain ⟨value, hvalue, hkey⟩ := (releaseRow_spec hr).id
      obtain ⟨s, -, hs⟩ := hversions.id record (hwritten record (List.mem_cons_self ..))
      obtain rfl := Except.ok.inj (hs.symm.trans hvalue)
      have hid : PyValue.str s = r.id := Except.ok.inj hkey
      rw [List.map_cons, List.map_cons, hs, hid,
        ih (fun other hother => hwritten other (List.mem_cons_of_mem _ hother))
          (List.nodup_cons.mp hnodup).2]
  rw [← hids] at hnodup
  refine (List.pairwise_map.mp hnodup).imp fun hne heq => hne ?_
  rw [(Node.mk.inj heq).2]

/-- **A batch of releases keeps the skip sound.** -/
theorem Sound.batch (hversions : Versions published)
    (hmessages : ∀ record ∈ messages, record ∈ published)
    (hnodup : (messages.map (·.get "id")).Nodup) (hsound : Sound env published g) :
    Sound env published (Transaction.run env (.batch .releases messages) g) := by
  have hread : ∀ record ∈ messages, ∃ id sha256, record.item "id" = .ok id ∧
      record.get "sha256" = .ok sha256 := by
    intro record hrecord
    obtain ⟨s, -, hs⟩ := hversions.id record (hmessages record hrecord)
    obtain ⟨sha256, -, hsha⟩ := hversions.sha256 record (hmessages record hrecord)
    exact ⟨_, _, item_of_get hs (by rintro ⟨⟩), hsha⟩
  obtain ⟨written, hwritten, hrows⟩ := Transaction.batchRows_sublist env g .releases messages
  have hpublished : ∀ record ∈ written, record ∈ published :=
    fun record hrecord => hmessages record (hwritten.subset hrecord)
  rw [Transaction.run_batch hread, write_eq_linkAll]
  refine Sound.of_spares ?_ (sparesReleases_linkAll (fun a ha => (mem_sameAsLinks ha).1) _)
  have hown := pairwise_own hversions hpublished (hnodup.sublist (hwritten.map _)) hrows
  change Sound env published (runStages releaseStages.programs _ g)
  rw [releaseStages.runStages_programs hown]
  refine runAll_invariant (I := Sound env published) (fun r hr t ht => ?_) hsound
  obtain ⟨record, hrecord, hrow⟩ := exists_left_of_mem hrows hr
  exact ht.write hversions (hpublished record hrecord) hrow

end Batches

/-! ### Runs -/

/-- A step of batch mode: a transaction of a batch, of a sweep or of a backfill, or a cleanup as far
as it came. `published` are the records of releases that the feed carries. -/
inductive CatalogStep (env : Env) (published : Set PyValue) (g : Graph) : Graph → Prop
  /-- A batch of messages of one type, at most one for each id. One that raises leaves the graph. -/
  | batch (t : DataType) (messages : List PyValue)
    (hmessages : t = .releases → ∀ record ∈ messages, record ∈ published)
    (hnodup : (messages.map (·.get "id")).Nodup) :
    CatalogStep env published g (Transaction.run env (.batch t messages) g)
  /-- A transaction that the database aborts. -/
  | abort : CatalogStep env published g g
  | cleanup {batchSize minBatchSize maxAttempts : ℕ} {s : Cleanup}
    (h : (cleanupMachine batchSize minBatchSize maxAttempts g).Reachable s) :
    CatalogStep env published g s.graph
  | sentinelEdges (chunk : Finset (Edge Node Rel)) :
    CatalogStep env published g (deleteSentinelEdges chunk g)
  | sentinelMaster : CatalogStep env published g (deleteSentinelMaster g)
  | statistics (run : StatRun) : CatalogStep env published g (run.statement g).1
  | artistStats (E : Enumeration) (cursor : String) (size : ℕ) :
    CatalogStep env published g (artistStatsPage E cursor size g).1
  | creditCounts (E : Enumeration) (allCategories : List String) (cursor : String) (size : ℕ) :
    CatalogStep env published g (creditCountPage E allCategories cursor size g).1
  | backfill (kind : Label) (lines : List PyValue) :
    CatalogStep env published g (Names.step env (.backfill kind lines) g)

section Runs

variable {env : Env} {published : Set PyValue} {g g' : Graph}

/-- **Every step keeps the skip sound.** -/
theorem Sound.step (hversions : Versions published) (hsound : Sound env published g)
    (h : CatalogStep env published g g') : Sound env published g' := by
  cases h with
  | batch t messages hmessages hnodup =>
    by_cases ht : t = .releases
    · subst ht
      exact hsound.batch hversions (hmessages rfl) hnodup
    · exact hsound.of_spares (sparesReleases_batch env ht messages g)
  | abort => exact hsound
  | cleanup h => exact hsound.of_spares (Cleanup.Inv.reachable h).lacks.sparesReleases
  | sentinelEdges chunk => exact hsound.of_spares (sparesReleases_deleteSentinelEdges chunk g)
  | sentinelMaster => exact hsound.of_spares (sparesReleases_deleteSentinelMaster g)
  | statistics run => exact hsound.of_spares (sparesReleases_statRun run g)
  | artistStats E cursor size =>
    exact hsound.of_spares (sparesReleases_artistStatsPage E cursor size g)
  | creditCounts E allCategories cursor size =>
    exact hsound.of_spares (sparesReleases_creditCountPage E allCategories cursor size g)
  | backfill kind lines => exact hsound.of_spares (sparesReleases_backfill env kind lines g)

/-- The empty graph. -/
theorem sound_empty (env : Env) (published : Set PyValue) : Sound env published ∅ where
  simple := fun _ he => absurd he (Table.notMem_empty _)
  typed := by
    rintro a ⟨e, he, -⟩
    exact absurd he (Table.notMem_empty e)
  reflects id hhash := absurd rfl hhash
  companies id := by
    refine Or.inl fun a _ harc => ?_
    obtain ⟨e, he, -⟩ := harc
    exact absurd he (Table.notMem_empty e)

/-- **The skip is sound in every graph that a run reaches.** -/
theorem Sound.reachable (hversions : Versions published)
    (h : Relation.ReflTransGen (CatalogStep env published) ∅ g) : Sound env published g := by
  induction h with
  | refl => exact sound_empty env published
  | tail _ hstep ih => exact ih.step hversions hstep

/-- A release has one version of each hash. -/
theorem Versions.eq (hversions : Versions published) {record other id hash : PyValue}
    (hrecord : record ∈ published) (hother : other ∈ published) (h : VersionOf record id hash)
    (h' : VersionOf other id hash) : other = record := by
  have hid : ∀ {record : PyValue}, record ∈ published → VersionOf record id hash →
      record.get "id" = .ok id := by
    intro record hrecord h
    obtain ⟨s, -, hs⟩ := hversions.id record hrecord
    have hnode := recordNode?_text .release hs
    rw [h.1] at hnode
    rw [hs, (Node.mk.inj (Option.some.inj hnode)).2]
  refine hversions.same other hother record hrecord ?_ (h'.2.trans h.2.symm)
  rw [hid hother h', hid hrecord h]

end Runs

/-- **What a batch skips is there.** The release of a record that a batch leaves out has the edges
that the record asserts, and no others. -/
theorem reflects_of_skips {env : Env} {published : Set PyValue} (hversions : Versions published)
    {g : Graph} (hsound : Sound env published g) {records : List PyValue}
    (hrecords : ∀ record ∈ records, record ∈ published) {record : PyValue}
    (hrecord : record ∈ records)
    (hskips : skips env g .release records record = true) :
    ∃ id, recordNode? .release record = some (.release id) ∧ Reflects env record id g := by
  obtain ⟨s, -, hs⟩ := hversions.id record (hrecords record hrecord)
  obtain ⟨sha256, -, hsha⟩ := hversions.sha256 record (hrecords record hrecord)
  have hnode := recordNode?_text .release hs
  simp only [skips, hs, hsha, existingHash] at hskips
  split at hskips
  · next id hfind =>
    have htext := List.find?_some hfind
    obtain ⟨other, hother, hget⟩ := List.mem_filterMap.mp
      (List.mem_reverse.mp (List.mem_of_find?_eq_some hfind))
    obtain ⟨s', -, hs'⟩ := hversions.id other (hrecords other hother)
    rw [hs'] at hget
    obtain rfl : PyValue.str s' = id := Option.some.inj hget
    obtain rfl : s' = s := of_decide_eq_true (Bool.and_eq_true_iff.mp htext).1
    have hhash : prop g (.release (.str s')) "sha256" = .str sha256 := by
      change (prop g (.release (.str s')) "sha256").pyEq (.str sha256) = true at hskips
      generalize prop g (.release (.str s')) "sha256" = stored at hskips
      cases stored with
      | str t => rw [of_decide_eq_true ((pyEq_str t sha256).symm.trans hskips)]
      | _ => simp [pyEq, number?] at hskips
    obtain ⟨version, hversion, hof, hreflects⟩ :=
      hsound.reflects (.str s') (by rw [hhash]; rintro ⟨⟩)
    rw [hhash] at hof
    obtain rfl := hversions.eq hversion (hrecords record hrecord) hof ⟨hnode, hsha⟩
    exact ⟨_, hnode, hreflects⟩
  · cases pyEq_null hskips

/-- A release of one artist on two records. -/
def doubleAlbum : PyValue :=
  .obj [("id", .str "1"), ("sha256", .str "h"), ("artists", .arr [.obj [("id", .str "2")]]),
    ("media", .obj [("items", .arr [.obj [("medium", .str "vinyl_12in"), ("family", .str "vinyl"),
      ("qty", .int 2)]])])]

end Graphinator
