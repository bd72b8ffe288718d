import Graphinator.Acknowledged

/-!
# The two write paths

A record is written by `process_<type>` in a transaction of its own, or as a message of a batch. The
two paths share the statements for media, companies and credits; everything else they spell out
twice, in another order. On the same rows the two transactions are the same.

## Main definitions

* `processOne`, `oneRow`, `oneWrite` : the single-record path, by type.
* `oneOutcome`, `batchOutcome` : what a record comes to on each path.

## Main results

* `writeMaster_eq_batch`, `writeRelease_eq_batch`, `oneWrite_eq` : the transactions agree on the
  same rows.
* `oneOutcome_of_found`, `oneOutcome_of_not_found`, `batchOutcome_eq` : the outcomes, case by case.
-/

namespace Graphinator

open PropertyGraph PyValue

/-! ### The statements of the two paths -/

section Statements

/-- Merging all the targets and then all the edges, or each target with its edge. -/
theorem runAll_linkTo {n : Node} {kind : Rel} {t : PyValue → Node} (names : List PyValue)
    (g : Graph) : runAll (fun name => linkTo n kind (t name)) names g =
      runAll (fun name => mergeEdge ⟨kind, n, t name⟩ id) names
        (runAll (fun name => mergeNode (t name) id) names g) :=
  runAll_comp (List.pairwise_of_forall fun x y =>
    (mergeNode_mergeEdge_commute (t y) id ⟨kind, n, t x⟩ id).symm) g

theorem runAll_linkTo_genre (n : Node) (names : List PyValue) (g : Graph) :
    runAll (fun name => linkTo n .IS (.genre name)) names g =
      runAll (fun name => mergeEdge ⟨.IS, n, .genre name⟩ id) names (runAll mergeGenre names g) :=
  runAll_linkTo names g

theorem runAll_linkTo_style (n : Node) (names : List PyValue) (g : Graph) :
    runAll (fun name => linkTo n .IS (.style name)) names g =
      runAll (fun name => mergeEdge ⟨.IS, n, .style name⟩ id) names (runAll mergeStyle names g) :=
  runAll_linkTo names g

/-- The stages of a master on the single-record path, written out. -/
theorem runStages_masterRecordStages (m : MasterRow) (g : Graph) :
    runStages masterRecordStages.programs [m] g =
      (g |> mergeMaster m
        |> pruneStaleEdges (.master m.id) .BY .artist m.artists
        |> pruneStaleEdges (.master m.id) .IS .genre m.keepGenres
        |> pruneStaleEdges (.master m.id) .IS .style m.keepStyles
        |> runAll (fun a => linkTo (.master m.id) .BY (.artist a)) m.artists
        |> runAll (fun name => linkTo (.master m.id) .IS (.genre name)) m.genres
        |> runAll (fun name => linkTo (.master m.id) .IS (.style name)) m.styles
        |> runAll mergePartOf m.pairs) := rfl

/-- Those of the batch. -/
theorem runStages_masterStages (m : MasterRow) (g : Graph) :
    runStages masterStages.programs [m] g =
      (g |> mergeMaster m
        |> pruneStaleEdges (.master m.id) .BY .artist m.artists
        |> pruneStaleEdges (.master m.id) .IS .genre m.keepGenres
        |> pruneStaleEdges (.master m.id) .IS .style m.keepStyles
        |> runAll (fun a => linkTo (.master m.id) .BY (.artist a)) m.artists
        |> runAll mergeGenre m.genres
        |> runAll (fun name => mergeEdge ⟨.IS, .master m.id, .genre name⟩ id) m.genres
        |> runAll mergeStyle m.styles
        |> runAll (fun name => mergeEdge ⟨.IS, .master m.id, .style name⟩ id) m.styles
        |> runAll mergePartOf m.pairs) := rfl

/-- The transaction of a master is the same on both paths. -/
theorem writeMaster_eq_batch (m : MasterRow) (g : Graph) : writeMaster m g = writeMasters [m] g := by
  rw [writeMaster_eq, writeMasters_eq, runStages_masterRecordStages, runStages_masterStages,
    runAll_linkTo_genre, runAll_linkTo_style]

/-- One prune of the five types of edges, or five prunes. -/
theorem pruneReleaseEdges_eq (r : ReleaseRow) (g : Graph) :
    pruneReleaseEdges r g =
      (g |> pruneStaleEdges (.release r.id) .BY .artist (r.artists.map (·.id))
        |> pruneStaleEdges (.release r.id) .ON .label (r.labels.map (·.id))
        |> pruneStaleEdges (.release r.id) .DERIVED_FROM .master (r.masterId.map PyValue.str).toList
        |> pruneStaleEdges (.release r.id) .IS .genre r.keepGenres
        |> pruneStaleEdges (.release r.id) .IS .style r.keepStyles) := by
  simp only [pruneReleaseEdges, pruneStaleEdges, deleteEdges_deleteEdges]
  refine deleteEdges_congr fun e => ?_
  simp only [StaleReleaseEdge, and_or_left, or_assoc]

/-- The statements of a release for its references and its taxonomy. -/
def linkReferences (r : ReleaseRow) (g : Graph) : Graph :=
  g |> runAll (fun a => linkNamed (.release r.id) .BY (.artist a.id) a.name) r.artists
    |> runAll (fun l => linkNamed (.release r.id) .ON (.ofLabel l.id) l.name) r.labels
    |> runAll (fun m => linkTo (.release r.id) .DERIVED_FROM (.master (.str m))) r.masterId.toList
    |> runAll mergeGenre r.genres
    |> runAll (fun name => mergeEdge ⟨.IS, .release r.id, .genre name⟩ id) r.genres
    |> runAll mergeStyle r.styles
    |> runAll (fun name => mergeEdge ⟨.IS, .release r.id, .style name⟩ id) r.styles
    |> runAll mergePartOf r.pairs

/-- Those for its media and its companies. -/
def linkMediaAndCompanies (r : ReleaseRow) (g : Graph) : Graph :=
  g |> pruneIssuedOn r |> runAll (linkMedium r.id) r.mediaRows
    |> pruneCompanies r |> runAll (linkCompany r.id) (r.companyRows.getD [])

/-- The stages of a release in a batch, written out. -/
theorem runStages_releaseStages (r : ReleaseRow) (g : Graph) :
    runStages releaseStages.programs [r] g =
      (g |> mergeRelease r |> pruneReleaseEdges r |> linkReferences r |> linkMediaAndCompanies r
        |> pruneCreditedOn r |> runAll (linkCredit r.id) r.creditRows) := rfl

/-- Those of the single-record path. -/
theorem runStages_releaseRecordStages (r : ReleaseRow) (g : Graph) :
    runStages releaseRecordStages.programs [r] g =
      (g |> mergeRelease r
        |> pruneStaleEdges (.release r.id) .BY .artist (r.artists.map (·.id))
        |> pruneStaleEdges (.release r.id) .ON .label (r.labels.map (·.id))
        |> pruneStaleEdges (.release r.id) .DERIVED_FROM .master (r.masterId.map PyValue.str).toList
        |> pruneStaleEdges (.release r.id) .IS .genre r.keepGenres
        |> pruneStaleEdges (.release r.id) .IS .style r.keepStyles
        |> linkMediaAndCompanies r
        |> runAll (fun a => linkNamed (.release r.id) .BY (.artist a.id) a.name) r.artists
        |> runAll (fun l => linkNamed (.release r.id) .ON (.ofLabel l.id) l.name) r.labels
        |> runAll (fun m => linkTo (.release r.id) .DERIVED_FROM (.master (.str m)))
          r.masterId.toList
        |> runAll (fun name => linkTo (.release r.id) .IS (.genre name)) r.genres
        |> runAll (fun name => linkTo (.release r.id) .IS (.style name)) r.styles
        |> runAll mergePartOf r.pairs
        |> pruneCreditedOn r |> runAll (linkCredit r.id) r.creditRows) := rfl

/-- What the references and the taxonomy of a release may touch. -/
def referencesFootprint (r : ReleaseRow) : Footprint Node Rel Row where
  updates v := {u | (v.label = .artist ∨ v.label = .label) ∧ u ∈ releaseUpdates r v}
  owned := {a | a.kind = .BY ∨ a.kind = .ON ∨ a.kind = .DERIVED_FROM ∨ a.kind = .IS}
  merged := {a | a.kind = .PART_OF}

/-- What its media and its companies may touch. -/
def mediaFootprint (r : ReleaseRow) : Footprint Node Rel Row where
  updates v := {u | (v.label = .medium ∨ v.label = .company) ∧ u ∈ releaseUpdates r v}
  owned := {a | (∃ source, a.kind = .ISSUED_ON source) ∨ ∃ role source, a.kind = .CREDITED_TO role source}
  merged := {a | a.kind = .IN_FAMILY}

theorem within_linkReferences (r : ReleaseRow) :
    Within (referencesFootprint r) (linkReferences r) := by
  have hby : Within (referencesFootprint r) (runAll
      (fun a => linkNamed (.release r.id) .BY (.artist a.id) a.name) r.artists) :=
    .runAll fun a ha => within_linkNamed ⟨Or.inl rfl, a, ha, rfl, rfl⟩ (Or.inl rfl)
  have hon : Within (referencesFootprint r) (runAll
      (fun l => linkNamed (.release r.id) .ON (.ofLabel l.id) l.name) r.labels) :=
    .runAll fun l hl => within_linkNamed ⟨Or.inr rfl, l, hl, rfl, rfl⟩ (Or.inr (Or.inl rfl))
  have hfrom : Within (referencesFootprint r) (runAll
      (fun m => linkTo (.release r.id) .DERIVED_FROM (.master (.str m))) r.masterId.toList) :=
    .runAll fun m _ => within_linkTo (Or.inl (Or.inr (Or.inr (Or.inl rfl))))
  have hgenres : Within (referencesFootprint r) (runAll mergeGenre r.genres) :=
    .runAll fun name _ => .mergeNode _ _ (Or.inl rfl)
  have hisGenre : Within (σ := Row) (referencesFootprint r) (runAll
      (fun name => mergeEdge ⟨.IS, .release r.id, .genre name⟩ id) r.genres) :=
    .runAll fun name _ => .mergeOwned _ _ (Or.inr (Or.inr (Or.inr rfl)))
  have hstyles : Within (referencesFootprint r) (runAll mergeStyle r.styles) :=
    .runAll fun name _ => .mergeNode _ _ (Or.inl rfl)
  have hisStyle : Within (σ := Row) (referencesFootprint r) (runAll
      (fun name => mergeEdge ⟨.IS, .release r.id, .style name⟩ id) r.styles) :=
    .runAll fun name _ => .mergeOwned _ _ (Or.inr (Or.inr (Or.inr rfl)))
  have hpart : Within (referencesFootprint r) (runAll mergePartOf r.pairs) :=
    .runAll fun pair _ => .comp (within_linkFrom (Or.inr rfl)) (.mergeNode _ _ (Or.inl rfl))
  exact hpart.comp (hisStyle.comp (hstyles.comp (hisGenre.comp (hgenres.comp (hfrom.comp
    (hon.comp hby))))))

theorem within_linkMediaAndCompanies (r : ReleaseRow) :
    Within (mediaFootprint r) (linkMediaAndCompanies r) := by
  have hissued : Within (mediaFootprint r) (pruneIssuedOn r) :=
    .deleteEdges _ fun e he => Or.inl ⟨_, he.2.1⟩
  have hmedia : Within (mediaFootprint r) (runAll (linkMedium r.id) r.mediaRows) :=
    .runAll fun row hrow => within_linkMedium ⟨Or.inl rfl, row, hrow, rfl, rfl⟩ rfl
      (Or.inl ⟨_, rfl⟩)
  have hprune : Within (mediaFootprint r) (pruneCompanies r) := by
    unfold pruneCompanies
    cases r.companyRows with
    | none => exact .skip
    | some rows =>
      refine .deleteEdges _ fun e he => Or.inr ?_
      have hstale := he.2.2
      unfold staleCompanyEdge at hstale
      split at hstale
      · next role source hkind => exact ⟨role, source, hkind⟩
      · cases hstale
  have hcompanies : Within (mediaFootprint r)
      (runAll (linkCompany r.id) (r.companyRows.getD [])) := by
    refine .runAll fun row hrow => .comp (.mergeOwned _ _ (Or.inr ⟨_, _, rfl⟩))
      (.mergeNode _ _ (Or.inr ⟨Or.inr rfl, ?_⟩))
    cases hrows : r.companyRows with
    | none =>
      rw [hrows] at hrow
      exact absurd hrow List.not_mem_nil
    | some rows =>
      rw [hrows] at hrow
      exact ⟨rows, hrows, row, hrow, rfl, rfl⟩
  exact hcompanies.comp (hprune.comp (hmedia.comp hissued))

/-- The two blocks commute: they write nodes of different labels and edges of different types. -/
theorem linkReferences_commute (r : ReleaseRow) :
    Function.Commute (linkReferences r) (linkMediaAndCompanies r) := by
  refine Within.commute ⟨fun v u u' hu hu' => ?_, ?_, ?_, ?_⟩ (within_linkReferences r)
    (within_linkMediaAndCompanies r)
  · rcases hu.1 with h | h <;> rcases hu'.1 with h' | h' <;> rw [h] at h' <;> cases h'
  all_goals
    refine Set.disjoint_left.mpr fun a ha ha' => ?_
    simp only [referencesFootprint, mediaFootprint, Set.mem_ofPred_eq] at ha ha'
    grind

/-- The transaction of a release is the same on both paths. -/
theorem writeRelease_eq_batch (r : ReleaseRow) (g : Graph) :
    writeRelease r g = writeReleases [r] g := by
  have hcore : writeReleaseCore r g = writeReleasesCore [r] g := by
    rw [writeReleaseCore_eq, writeReleasesCore_eq, runStages_releaseRecordStages,
      runStages_releaseStages]
    have hcomm := linkReferences_commute r (pruneReleaseEdges r (mergeRelease r g))
    rw [← hcomm, pruneReleaseEdges_eq, runAll_linkTo_genre, runAll_linkTo_style]
    rfl
  exact congrArg (mergeSameAs r) hcore

end Statements

/-! ### The paths, by type -/

/-- `process_<type>`. -/
def processOne (env : Env) : DataType → PyValue → Graph → Except PyError (Graph × Bool)
  | .artists => processArtist env
  | .labels => processLabel
  | .masters => processMaster
  | .releases => processRelease env

/-- The label of the nodes of a type of record. -/
def DataType.nodeLabel : DataType → Label
  | .artists => .artist
  | .labels => .label
  | .masters => .master
  | .releases => .release

/-- The rows of a record on the single-record path. -/
def oneRow (env : Env) : (t : DataType) → PyValue → Except PyError (RowOf t)
  | .artists => artistRecord env
  | .labels => labelRecord
  | .masters => masterRecord
  | .releases => releaseRecord env

/-- The statements of the single-record path. -/
def oneWrite : (t : DataType) → RowOf t → Graph → Graph
  | .artists => writeArtist
  | .labels => writeLabel
  | .masters => writeMaster
  | .releases => writeRelease

section Paths

variable {env : Env} {t : DataType} {g : Graph} {record : PyValue}

theorem projector_label (env : Env) (t : DataType) :
    (writerOf env t).projector.label = t.nodeLabel := by
  cases t <;> rfl

theorem processOne_eq (env : Env) (t : DataType) :
    processOne env t = processRecord t.nodeLabel (oneRow env t) (oneWrite t) := by
  cases t <;> rfl

/-- **The transactions of the two paths agree on the same rows.** -/
theorem oneWrite_eq (env : Env) (t : DataType) (r : RowOf t) (g : Graph) :
    oneWrite t r g = (writerOf env t).projector.write [r] g := by
  cases t with
  | artists => rfl
  | labels => rfl
  | masters => exact writeMaster_eq_batch r g
  | releases => exact writeRelease_eq_batch r g

/-- What a record comes to. -/
inductive Outcome
  | refused
  | unchanged
  | written (g : Graph)

/-- What a record comes to on the single-record path. -/
def oneOutcome (env : Env) (t : DataType) (g : Graph) (record : PyValue) : Outcome :=
  match processOne env t record g with
  | .ok (g', true) => .written g'
  | .ok (_, false) => .unchanged
  | .error _ => .refused

/-- What a record comes to as the only message of a batch. -/
def batchOutcome (env : Env) (t : DataType) (g : Graph) (record : PyValue) : Outcome :=
  match write (processBatch env t) [record] g with
  | .ok (g', [.ack]) => if skips env g t.nodeLabel [record] record then .unchanged else .written g'
  | _ => .refused

/-- The single-record path finds the hash of the record on its node. -/
def FoundUnchanged (g : Graph) (nodeLabel : Label) (record : PyValue) : Prop :=
  ∃ v, recordNode? nodeLabel record = some v ∧ v ∈ g.nodes ∧
    ∃ sha256, record.item "sha256" = .ok sha256 ∧ (prop g v "sha256").pyEq sha256 = true

theorem item_of_get {x : PyValue} {key : String} (h : record.get key = .ok x) (hx : x ≠ .null) :
    record.item key = .ok x := by
  cases record with
  | obj fields =>
    simp only [PyValue.get, PyValue.getD, PyValue.item, Except.ok.injEq] at h ⊢
    cases hfield : field? fields key with
    | none => exact absurd (by simpa [hfield] using h.symm) hx
    | some y => simpa [hfield] using h
  | _ => cases h

/-- A row of the single-record path needs a hash. -/
theorem item_of_oneRow {r : RowOf t} (h : oneRow env t record = .ok r) :
    ∃ sha256, record.item "sha256" = .ok sha256 := by
  cases t with
  | artists =>
    have hrow : ∀ r : ArtistRow, artistRecord env record = .ok r →
        ∃ sha256, record.item "sha256" = .ok sha256 := by
      intro r h
      simp only [artistRecord, bind_eq_ok, pure_eq_ok] at h
      grind
    exact hrow r h
  | labels =>
    have hrow : ∀ r : LabelRow, labelRecord record = .ok r →
        ∃ sha256, record.item "sha256" = .ok sha256 := by
      intro r h
      simp only [labelRecord, bind_eq_ok, pure_eq_ok] at h
      grind
    exact hrow r h
  | masters =>
    have hrow : ∀ r : MasterRow, masterRecord record = .ok r →
        ∃ sha256, record.item "sha256" = .ok sha256 := by
      intro r h
      simp only [masterRecord, bind_eq_ok, pure_eq_ok] at h
      grind
    exact hrow r h
  | releases =>
    have hrow : ∀ r : ReleaseRow, releaseRecord env record = .ok r →
        ∃ sha256, record.item "sha256" = .ok sha256 := by
      intro r h
      simp only [releaseRecord, bind_eq_ok, pure_eq_ok] at h
      grind
    exact hrow r h

theorem storedHash_of_recordNode? {nodeLabel : Label} {id : PyValue} {v : Node}
    (hid : record.get "id" = .ok id) (hv : recordNode? nodeLabel record = some v) :
    storedHash g nodeLabel id = prop g v "sha256" := by
  unfold recordNode? idNode? at hv
  simp only [hid] at hv
  unfold storedHash
  split at hv
  · next key hkey =>
    cases hv
    simp only [hkey]
  · cases hv

theorem recordNode?_of_get {nodeLabel : Label} {id : PyValue} (hid : record.get "id" = .ok id) :
    recordNode? nodeLabel record = idNode? nodeLabel id := by
  simp only [recordNode?, hid]

/-- The single-record path finds the record unchanged. -/
theorem oneOutcome_of_found {id : PyValue} (hid : record.get "id" = .ok id)
    (hitem : record.item "id" = .ok id) (hfound : FoundUnchanged g t.nodeLabel record) :
    oneOutcome env t g record = .unchanged := by
  obtain ⟨v, hv, hmem, sha256, hsha, heq⟩ := hfound
  have hstored := storedHash_of_recordNode? (g := g) hid hv
  rw [recordNode?_of_get hid, idNode?] at hv
  cases hkey : nodeKey id with
  | error error => simp [hkey] at hv
  | ok key =>
    simp only [hkey, Option.some.injEq] at hv
    subst hv
    have hprocess : processOne env t record g = .ok (g, false) := by
      rw [processOne_eq]
      simp only [processRecord, hitem, hkey, bind, Except.bind, hmem, decide_true, if_true, hsha,
        hstored, heq]
      rfl
    simp only [oneOutcome, hprocess]

/-- Otherwise it computes the rows of the record: it writes them, or it refuses the record. -/
theorem oneOutcome_of_not_found {id : PyValue} (hid : record.get "id" = .ok id)
    (hitem : record.item "id" = .ok id) (hnot : ¬FoundUnchanged g t.nodeLabel record) :
    oneOutcome env t g record = match oneRow env t record with
      | .ok r => .written ((writerOf env t).projector.write [r] g)
      | .error _ => .refused := by
  have hrow : processOne env t record g =
        (do return (oneWrite t (← oneRow env t record) g, true)) →
      oneOutcome env t g record = match oneRow env t record with
        | .ok r => .written ((writerOf env t).projector.write [r] g)
        | .error _ => .refused := by
    intro hprocess
    cases hone : oneRow env t record with
    | error error => simp [oneOutcome, hprocess, hone, bind, Except.bind]
    | ok r => simp [oneOutcome, hprocess, hone, bind, Except.bind, pure, Except.pure, oneWrite_eq env]
  cases hkey : nodeKey id with
  | error error =>
    refine hrow ?_
    rw [processOne_eq]
    simp only [processRecord, hitem, hkey, bind, Except.bind]
    rfl
  | ok key =>
    have hv : recordNode? t.nodeLabel record = some ⟨t.nodeLabel, key⟩ := by
      simp only [recordNode?_of_get hid, idNode?, hkey]
    by_cases hmem : (⟨t.nodeLabel, key⟩ : Node) ∈ g.nodes
    · cases hsha : record.item "sha256" with
      | error error =>
        have hprocess : processOne env t record g = .error error := by
          rw [processOne_eq]
          simp only [processRecord, hitem, hkey, bind, Except.bind, hmem, decide_true, if_true, hsha]
        cases hone : oneRow env t record with
        | error error => simp only [oneOutcome, hprocess]
        | ok r =>
          obtain ⟨sha256, hok⟩ := item_of_oneRow hone
          rw [hsha] at hok
          cases hok
      | ok sha256 =>
        have hne : (prop g ⟨t.nodeLabel, key⟩ "sha256").pyEq sha256 = false := by
          rw [Bool.eq_false_iff]
          exact fun heq => hnot ⟨_, hv, hmem, sha256, hsha, heq⟩
        refine hrow ?_
        rw [processOne_eq]
        simp only [processRecord, hitem, hkey, bind, Except.bind, hmem, decide_true, if_true, hsha,
          storedHash_of_recordNode? (g := g) hid hv, hne]
        rfl
    · refine hrow ?_
      rw [processOne_eq]
      simp only [processRecord, hitem, hkey, bind, Except.bind, hmem, decide_false]
      rfl

theorem changedRecords_singleton {nodeLabel : Label} {id : PyValue}
    (hid : record.get "id" = .ok id) (hitem : record.item "id" = .ok id) :
    changedRecords env g nodeLabel [record] =
      .ok (if skips env g nodeLabel [record] record then [] else [record]) := by
  obtain ⟨sha256, hsha⟩ : ∃ sha256, record.get "sha256" = .ok sha256 := by
    cases record with
    | obj fields => exact ⟨_, rfl⟩
    | _ => cases hid
  have hids : recordIds [record] = [id] := recordIds_eq (by simp [hid, pure, Except.pure, bind, Except.bind])
  simp only [changedRecords, List.mapM_cons, List.mapM_nil, hid, hitem, hsha, skips, hids, bind,
    Except.bind, pure, Except.pure]
  split_ifs <;> simp_all

/-- A batch of one record refuses it, finds its hash stored, or writes its rows. -/
theorem batchOutcome_eq {id : PyValue} (hid : record.get "id" = .ok id)
    (hitem : record.item "id" = .ok id) :
    batchOutcome env t g record =
      if (writerOf env t).projector.usable record = .ok true then
        if skips env g t.nodeLabel [record] record then .unchanged
        else match (writerOf env t).projector.row record with
          | .ok r => .written ((writerOf env t).projector.write [r] g)
          | .error _ => .refused
      else .refused := by
  unfold batchOutcome
  rw [processBatch_eq]
  cases husable : (writerOf env t).projector.usable record with
  | error error =>
    simp [write, Projector.process, husable, bind, Except.bind]
  | ok usable =>
    cases usable with
    | false =>
      simp [write, Projector.process, husable, bind, Except.bind, pure, Except.pure, changedRecords]
    | true =>
      have hchanged : changedRecords env g (writerOf env t).projector.label [record] = _ :=
        changedRecords_singleton hid hitem
      rw [projector_label] at hchanged
      by_cases hskip : skips env g t.nodeLabel [record] record = true
      · rw [if_pos hskip] at hchanged
        simp [write, Projector.process, husable, hchanged, hskip, bind, Except.bind, pure, Except.pure,
          projector_label]
      · rw [if_neg hskip] at hchanged
        cases hrow : (writerOf env t).projector.row record with
        | error error =>
          simp [write, Projector.process, husable, hchanged, hskip, hrow, bind, Except.bind, pure,
            Except.pure, projector_label]
        | ok r =>
          simp [write, Projector.process, husable, hchanged, hskip, hrow, bind, Except.bind, pure,
            Except.pure, projector_label]

end Paths

end Graphinator
