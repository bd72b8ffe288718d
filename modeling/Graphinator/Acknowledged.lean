import Graphinator.Completion
import Graphinator.ProjectionStages

/-!
# Acknowledged records

A batch acknowledges every message whose id is usable, written or not. A message is not written
when the hash that the batch read for the text of its id equals the hash of the record, and a
missing hash equals a missing hash. So an acknowledged record is in the graph where its node
already stored it and no other record of the batch overwrites the node, or where it is written.

## Main definitions

* `NodeWriter` : the properties that a projector writes on the nodes of its records, with one value
  for each type.
* `skips` : the decision of a batch not to write a record.
* `StoredBefore`, `Acknowledged`, `Kept`.

## Main results

* `Staged.row_own` : what a transaction makes of the properties of the node of a record.
* `acknowledged_records_stored` : the results of a batch, and when its acknowledged records are in
  the graph.
-/

namespace Graphinator

open PropertyGraph PyValue

/-! ### The properties of the node of a record -/

section Rows

variable {ρ : Type}

/-- What records make of the properties of a node, one after another. -/
def updateRow (own : ρ → Node) (props : ρ → List (String × PyValue)) (rows : List ρ) (v : Node)
    (row : Row) : Row :=
  rows.foldl (fun row r => if own r = v then setProps (props r) row else row) row

/-- The row of a node is written by the stage of its label only. -/
theorem Staged.row_zone {P : Staged ρ} {v : Node} {stage : ρ → Graph → Graph}
    (hstage : (some v.label, stage) ∈ P.stages) (rows : List ρ) (g : Graph) :
    ∃ t : Graph, t.nodes.row v = g.nodes.row v ∧
      (runStages P.programs rows g).nodes.row v = (runAll stage rows t).nodes.row v := by
  obtain ⟨before, after, hsplit⟩ := List.append_of_mem hstage
  have hzones := P.zones
  rw [hsplit, List.pairwise_append, List.pairwise_cons] at hzones
  have hframe : ∀ stages : List (Option Label × (ρ → Graph → Graph)),
      (∀ s ∈ stages, s ∈ P.stages ∧ s.1 ≠ some v.label) → ∀ t : Graph,
      (runStages (stages.map fun s => s.2) rows t).nodes.row v = t.nodes.row v := by
    intro stages hstages t
    refine runAll_invariant (I := fun t' : Graph => t'.nodes.row v = t.nodes.row v)
      (fun f hf t' ht' => ?_) rfl
    obtain ⟨s, hs, rfl⟩ := List.mem_map.mp hf
    obtain ⟨hmem, hzone⟩ := hstages s hs
    refine runAll_invariant (I := fun t' : Graph => t'.nodes.row v = t.nodes.row v)
      (fun r _ t'' ht'' => ?_) ht'
    refine Eq.trans (Within.row_nodes_of_empty (P.within s hmem r) ?_ t'') ht''
    exact Set.eq_empty_of_forall_notMem fun u hu => hzone hu.1.symm
  refine ⟨runStages (before.map fun s => s.2) rows g, hframe before (fun s hs => ⟨?_, ?_⟩) g, ?_⟩
  · rw [hsplit]
    exact List.mem_append_left _ hs
  · rcases hzones.2.2 s hs _ (List.mem_cons_self ..) with hnone | hne
    · simp [hnone]
    · exact hne
  · have hrun : runStages P.programs rows g = runStages (after.map fun s => s.2) rows
        (runAll stage rows (runStages (before.map fun s => s.2) rows g)) := by
      rw [Staged.programs, hsplit, List.map_append, List.map_cons, runStages, runAll_append]
      rfl
    rw [hrun]
    refine hframe after (fun s hs => ⟨?_, ?_⟩) _
    · rw [hsplit]
      exact List.mem_append_right _ (List.mem_cons_of_mem _ hs)
    · rcases hzones.2.1.1 s hs with hnone | hne
      · exact absurd hnone nofun
      · exact hne.symm

/-- Only the first stage writes the properties of the nodes of the records. -/
theorem Staged.row_own {P : Staged ρ} {nodeLabel : Label} (props : ρ → List (String × PyValue))
    {first : ρ → Graph → Graph} {rest : List (Option Label × (ρ → Graph → Graph))}
    (hstages : P.stages = (some nodeLabel, first) :: rest)
    (hfirst : ∀ r, first r = mergeNode (P.own r) (setProps (props r))) {v : Node}
    (hv : v.label = nodeLabel) (rows : List ρ) (g : Graph) :
    (runStages P.programs rows g).nodes.row v = updateRow P.own props rows v (g.nodes.row v) := by
  have hstage : (some v.label, first) ∈ P.stages := by
    rw [hstages, hv]
    exact List.mem_cons_self ..
  obtain ⟨t, ht, hrun⟩ := P.row_zone hstage rows g
  rw [hrun, ← ht]
  clear hrun ht
  induction rows generalizing t with
  | nil => rfl
  | cons r rows ih =>
    rw [runAll_cons, ih, hfirst, row_nodes_mergeNode]
    unfold updateRow
    rw [List.foldl_cons]
    by_cases hown : P.own r = v
    · rw [if_pos hown, if_pos hown.symm]
    · rw [if_neg hown, if_neg (Ne.symm hown)]

/-- A `SET` leaves each of its values. -/
theorem setProps_of_mem {props : List (String × PyValue)} (hnodup : (props.map (·.1)).Nodup)
    {kv : String × PyValue} (h : kv ∈ props) (row : Row) : setProps props row kv.1 = kv.2 := by
  induction props generalizing row with
  | nil => exact absurd h List.not_mem_nil
  | cons kv' props ih =>
    rw [List.map_cons, List.nodup_cons] at hnodup
    rw [setProps_cons]
    rcases List.mem_cons.mp h with rfl | h
    · rw [setProps_of_notMem fun kv' hkv' heq => hnodup.1 (List.mem_map.mpr ⟨kv', hkv', heq⟩),
        Function.update_self]
    · exact ih hnodup.2 h _

/-- The last record of a node is the one whose properties it has. -/
theorem updateRow_append_cons (own : ρ → Node) (props : ρ → List (String × PyValue))
    (before : List ρ) {after : List ρ} {r : ρ} (hafter : ∀ r' ∈ after, own r' ≠ own r)
    (row : Row) :
    ∃ row', updateRow own props (before ++ r :: after) (own r) row = setProps (props r) row' := by
  refine ⟨updateRow own props before (own r) row, ?_⟩
  unfold updateRow
  rw [List.foldl_append, List.foldl_cons, if_pos rfl]
  generalize setProps (props r) (before.foldl _ row) = row'
  induction after with
  | nil => rfl
  | cons r' after ih =>
    rw [List.foldl_cons, if_neg (hafter r' (List.mem_cons_self ..))]
    exact ih fun r'' hr'' => hafter r'' (List.mem_cons_of_mem _ hr'')

end Rows

/-- A projector with the properties that it writes on the node of a record. -/
structure NodeWriter (env : Env) (ρ : Type) where
  projector : Projector ρ
  own : ρ → Node
  props : ρ → List (String × PyValue)
  write_nil (g : Graph) : projector.write [] g = g
  write_row (rows : List ρ) (g : Graph) (v : Node) : v.label = projector.label →
    (projector.write rows g).nodes.row v = updateRow own props rows v (g.nodes.row v)
  write_mem (rows : List ρ) (g : Graph) {v : Node} : (v ∈ g.nodes ∨ ∃ r ∈ rows, own r = v) →
    v ∈ (projector.write rows g).nodes
  row_node {record : PyValue} {r : ρ} : projector.row record = .ok r →
    ∃ id key, record.get "id" = .ok id ∧ nodeKey id = .ok key ∧ own r = ⟨projector.label, key⟩
  row_nodup {record : PyValue} {r : ρ} : projector.row record = .ok r →
    ((props r).map (·.1)).Nodup

/-- The node that an id names. -/
def idNode? (nodeLabel : Label) (id : PyValue) : Option Node :=
  match nodeKey id with
  | .ok key => some ⟨nodeLabel, key⟩
  | .error _ => none

/-- The node of a record. -/
def recordNode? (nodeLabel : Label) (record : PyValue) : Option Node :=
  match record.get "id" with
  | .ok id => idNode? nodeLabel id
  | .error _ => none

/-- The ids of records. -/
def recordIds (records : List PyValue) : List PyValue :=
  records.filterMap fun record => (record.get "id").toOption

/-- Whether a batch of `records` leaves a record out: the hash it read for the text of its id equals
the hash of the record. -/
def skips (env : Env) (g : Graph) (nodeLabel : Label) (records : List PyValue) (record : PyValue) :
    Bool :=
  match record.get "id", record.get "sha256" with
  | .ok id, .ok sha256 =>
    (existingHash env g nodeLabel (recordIds records) (id.pyStr env.repr)).pyEq sha256
  | _, _ => false

section Batches

variable {env : Env} {g : Graph} {nodeLabel : Label} {records changed : List PyValue}

theorem recordIds_eq {ids : List PyValue} (h : records.mapM (·.get "id") = .ok ids) :
    recordIds records = ids := by
  rw [mapM_eq_ok] at h
  induction h with
  | nil => rfl
  | cons hx _ ih =>
    rw [recordIds, List.filterMap_cons_some (by rw [hx]; rfl)]
    exact congrArg _ ih

theorem filterMap_eq_filter {α : Type} {p : α → Bool} {xs : List α} {ys : List (Option α)}
    (h : List.Forall₂ (fun x y => y = if p x then none else some x) xs ys) :
    ys.filterMap id = xs.filter fun x => !p x := by
  induction h with
  | nil => rfl
  | cons hxy _ ih =>
    subst hxy
    split_ifs with hp
    · rw [List.filterMap_cons_none (f := id) rfl, List.filter_cons_of_neg (by simp [hp]), ih]
    · rw [List.filterMap_cons_some (f := id) rfl, List.filter_cons_of_pos (by simp [hp]), ih]

/-- A batch that does not raise writes the records that it does not skip. -/
theorem changedRecords_eq (h : changedRecords env g nodeLabel records = .ok changed) :
    changed = records.filter fun record => !skips env g nodeLabel records record := by
  simp only [changedRecords, bind_eq_ok, pure_eq_ok] at h
  obtain ⟨ids, hids, kept, hkept, rfl⟩ := h
  have hids' := recordIds_eq hids
  have hone : List.Forall₂ (fun record kept =>
      kept = if skips env g nodeLabel records record then none else some record) records kept := by
    refine (mapM_eq_ok.mp hkept).imp fun record kept hrecord => ?_
    simp only [bind_eq_ok, pure_eq_ok] at hrecord
    obtain ⟨id, hid, sha256, hsha, rfl⟩ := hrecord
    simp only [skips, get_of_item hid, hsha, hids']
  exact filterMap_eq_filter hone

end Batches

namespace NodeWriter

variable {env : Env} {ρ : Type} (T : NodeWriter env ρ) (g g' : Graph) (records : List PyValue)
  (record : PyValue)

/-- The record is one that the batch leaves out. -/
abbrev Skips : Prop := skips env g T.projector.label records record = true

/-- The node is there and holds the hash of the record, or all its properties. -/
def StoredBefore (v : Node) : Prop :=
  v ∈ g.nodes ∧
    ((prop g v "sha256" ≠ .null ∧
        ∃ sha256, record.get "sha256" = .ok sha256 ∧ (prop g v "sha256").pyEq sha256 = true) ∨
      ∃ r, T.projector.row record = .ok r ∧ ∀ kv ∈ T.props r, prop g v kv.1 = kv.2)

/-- The record is in the graph that the batch leaves: the batch wrote its properties on its node, or
they were stored before and are as they were. -/
def Acknowledged : Prop :=
  ∃ v, recordNode? T.projector.label record = some v ∧ v ∈ g'.nodes ∧
    ((¬T.Skips g records record ∧
        ∃ r, T.projector.row record = .ok r ∧ ∀ kv ∈ T.props r, prop g' v kv.1 = kv.2) ∨
      (T.StoredBefore g record v ∧ g'.nodes.row v = g.nodes.row v))

/-- The last record of a node in a batch. -/
def IsLast : Prop :=
  ∃ before after, records = before ++ record :: after ∧
    ∀ other ∈ after, recordNode? T.projector.label other ≠ recordNode? T.projector.label record

/-- A record that the batch leaves out was stored before, and the records of its node that the batch
writes change none of the node's properties. -/
def Kept : Prop :=
  T.Skips g records record →
    ∃ v, recordNode? T.projector.label record = some v ∧ T.StoredBefore g record v ∧
      ∀ rows, (records.filter fun other => !skips env g T.projector.label records other).mapM
        T.projector.row = .ok rows → updateRow T.own T.props rows v (g.nodes.row v) = g.nodes.row v

variable {T g g' records record}

theorem label_of_recordNode? {nodeLabel : Label} {v : Node}
    (h : recordNode? nodeLabel record = some v) : v.label = nodeLabel := by
  unfold recordNode? idNode? at h
  split at h
  · split at h
    · cases h
      rfl
    · cases h
  · cases h

theorem recordNode?_eq {r : ρ} (h : T.projector.row record = .ok r) :
    recordNode? T.projector.label record = some (T.own r) := by
  obtain ⟨id, key, hid, hkey, hown⟩ := T.row_node h
  simp only [recordNode?, hid, idNode?, hkey, hown]

/-- The last record of a node is in the graph exactly where it is kept. -/
theorem acknowledged_iff {rows : List ρ}
    (hrows : (records.filter fun other => !skips env g T.projector.label records other).mapM
      T.projector.row = .ok rows) (hlast : T.IsLast records record) :
    T.Acknowledged g (T.projector.write rows g) records record ↔ T.Kept g records record := by
  have hrow : ∀ v, recordNode? T.projector.label record = some v →
      (T.projector.write rows g).nodes.row v =
        updateRow T.own T.props rows v (g.nodes.row v) :=
    fun v hv => T.write_row rows g v (label_of_recordNode? hv)
  constructor
  · rintro ⟨v, hv, hmem, ⟨hwritten, -⟩ | ⟨hstored, hsame⟩⟩ hskip
    · exact absurd hskip hwritten
    · refine ⟨v, hv, hstored, fun rows' hrows' => ?_⟩
      obtain rfl : rows' = rows := Except.ok.inj (hrows'.symm.trans hrows)
      exact (hrow v hv).symm.trans hsame
  · intro hkept
    by_cases hskip : T.Skips g records record
    · obtain ⟨v, hv, hstored, hupdate⟩ := hkept hskip
      exact ⟨v, hv, T.write_mem rows g (Or.inl hstored.1),
        Or.inr ⟨hstored, (hrow v hv).trans (hupdate rows hrows)⟩⟩
    · -- The row of the record is the last one of its node.
      obtain ⟨before, after, hsplit, hafter⟩ := hlast
      have hkeep : (!skips env g T.projector.label records record) = true := by simpa using hskip
      have hfilter : records.filter (fun other => !skips env g T.projector.label records other) =
          before.filter (fun other => !skips env g T.projector.label records other) ++
            record :: after.filter fun other => !skips env g T.projector.label records other := by
        conv_lhs => rw [hsplit]
        rw [List.filter_append, List.filter_cons, ← hsplit, if_pos hkeep]
      rw [hfilter] at hrows
      simp only [List.mapM_append, List.mapM_cons, bind_eq_ok, pure_eq_ok] at hrows
      obtain ⟨rowsBefore, -, _, ⟨r, hr, rowsAfter, hrowsAfter, rfl⟩, rfl⟩ := hrows
      have hown := recordNode?_eq hr
      refine ⟨T.own r, hown, T.write_mem _ g (Or.inr ⟨r, by simp, rfl⟩), Or.inl ⟨hskip, r, hr,
        fun kv hkv => ?_⟩⟩
      have hother : ∀ r' ∈ rowsAfter, T.own r' ≠ T.own r := by
        intro r' hr' heq
        obtain ⟨other, hother, hr'⟩ := exists_left_of_mem (mapM_eq_ok.mp hrowsAfter) hr'
        refine hafter other (List.mem_filter.mp hother).1 ?_
        rw [recordNode?_eq hr', hown, heq]
      obtain ⟨row, hlast⟩ := updateRow_append_cons T.own T.props rowsBefore hother
        (g.nodes.row (T.own r))
      change (T.projector.write (rowsBefore ++ r :: rowsAfter) g).nodes.row (T.own r) kv.1 = kv.2
      rw [hrow _ hown, hlast]
      exact setProps_of_mem (T.row_nodup hr) hkv row

end NodeWriter

/-! ### The four types -/

section Writers

/-- A transaction leaves the nodes of the graph and those of its records. -/
theorem Staged.mem_own {ρ : Type} {P : Staged ρ} {nodeLabel : Label}
    (props : ρ → List (String × PyValue)) {first : ρ → Graph → Graph}
    {rest : List (Option Label × (ρ → Graph → Graph))}
    (hstages : P.stages = (some nodeLabel, first) :: rest)
    (hfirst : ∀ r, first r = mergeNode (P.own r) (setProps (props r))) (rows : List ρ) (g : Graph)
    {v : Node} (h : v ∈ g.nodes ∨ ∃ r ∈ rows, P.own r = v) :
    v ∈ (runStages P.programs rows g).nodes := by
  have hkeeps : ∀ f ∈ P.programs, ∀ r, Keeps (f r) := fun f hf r _ _ hv =>
    (P.within_programs hf r).mem_nodes hv
  have hprog : P.programs = first :: rest.map fun s => s.2 := by
    rw [Staged.programs, hstages, List.map_cons]
  have hfirst' : v ∈ (runAll first rows g).nodes := by
    rcases h with hv | ⟨r, hr, rfl⟩
    · exact Keeps.runAll (fun r _ => hkeeps first (by simp [hprog]) r) g v hv
    · have hpresent : Present P.own rows (runAll first rows g) := by
        refine present_runAll (fun r t => ?_) (fun r => ?_) g
        · rw [hfirst]
          exact mem_nodes_mergeNode.mpr (Or.inl rfl)
        · rw [hfirst]
          exact keeps_mergeNode _ _
      exact hpresent r hr
  have hrun : runStages P.programs rows g =
      runStages (rest.map fun s => s.2) rows (runAll first rows g) := by
    rw [hprog, runStages, runAll_cons]
    rfl
  rw [hrun]
  refine Keeps.runAll (fun f hf => Keeps.runAll fun r _ => hkeeps f ?_ r) _ v hfirst'
  rw [hprog]
  exact List.mem_cons_of_mem _ hf

/-- The last statement writes no node. -/
theorem row_nodes_mergeSameAs (rows : List ReleaseRow) (g : Graph) :
    (runAll mergeSameAs rows g).nodes.row = g.nodes.row ∧
      ∀ v ∈ g.nodes, v ∈ (runAll mergeSameAs rows g).nodes := by
  refine runAll_mergeSameAs (I := fun t : Graph => t.nodes.row = g.nodes.row ∧
    ∀ v ∈ g.nodes, v ∈ t.nodes) (fun person artist t _ _ ht => ?_) rows ⟨rfl, fun _ => id⟩
  exact ⟨row_nodes_mergeEdge.trans ht.1, fun v hv => keeps_mergeEdge _ id t v (ht.2 v hv)⟩

/-- The metadata bag holds the catalogue number, or nothing. -/
theorem releaseMetadata_keys {record : PyValue} {metadata : List (String × PyValue)}
    (h : releaseMetadata record = .ok metadata) :
    metadata.map (·.1) = [] ∨ metadata.map (·.1) = ["catalog_number"] := by
  simp only [releaseMetadata, bind_eq_ok] at h
  obtain ⟨labels, -, h⟩ := h
  split at h
  · split_ifs at h
    · simp only [bind_eq_ok, pure_eq_ok] at h
      obtain ⟨catno, -, h⟩ := h
      exact Or.inr (by rw [← h]; rfl)
    · exact Or.inl (by rw [← pure_eq_ok.mp h]; rfl)
  · exact Or.inl (by rw [← pure_eq_ok.mp h]; rfl)

/-- The metadata of a release have names of their own. -/
theorem ReleaseRow.props_nodup {env : Env} {record : PyValue} {r : ReleaseRow}
    (h : releaseRow env record = .ok r) : (r.props.map (·.1)).Nodup := by
  have hmetadata : releaseMetadata record = .ok r.metadata := by
    simp only [releaseRow, bind_eq_ok, pure_eq_ok] at h
    grind
  rw [ReleaseRow.props, List.map_append]
  rcases releaseMetadata_keys hmetadata with hkeys | hkeys <;> rw [hkeys] <;> simp

def artistsWriter (env : Env) : NodeWriter env ArtistRow where
  projector := artistsProjector env
  own a := .artist a.id
  props := ArtistRow.props
  write_nil _ := rfl
  write_row rows g v hv :=
    (congrArg (fun t : Graph => t.nodes.row v) (writeArtists_eq rows g)).trans
      (artistStages.row_own ArtistRow.props rfl (fun _ => rfl) hv rows g)
  write_mem rows g v h := by
    have hmem := artistStages.mem_own ArtistRow.props rfl (fun _ => rfl) rows g h
    rwa [← writeArtists_eq] at hmem
  row_node h := by
    simp only [artistsProjector, artistRow, bind_eq_ok, pure_eq_ok] at h
    grind [artistsProjector]
  row_nodup _ := by simp [ArtistRow.props]

def labelsWriter (env : Env) : NodeWriter env LabelRow where
  projector := labelsProjector
  own l := .ofLabel l.id
  props := LabelRow.props
  write_nil _ := rfl
  write_row rows g v hv :=
    (congrArg (fun t : Graph => t.nodes.row v) (writeLabels_eq rows g)).trans
      (labelStages.row_own LabelRow.props rfl (fun _ => rfl) hv rows g)
  write_mem rows g v h := by
    have hmem := labelStages.mem_own LabelRow.props rfl (fun _ => rfl) rows g h
    rwa [← writeLabels_eq] at hmem
  row_node h := by
    simp only [labelsProjector, labelRow, bind_eq_ok, pure_eq_ok] at h
    grind [labelsProjector]
  row_nodup _ := by simp [LabelRow.props]

def mastersWriter (env : Env) : NodeWriter env MasterRow where
  projector := mastersProjector
  own m := .master m.id
  props := MasterRow.props
  write_nil _ := rfl
  write_row rows g v hv :=
    (congrArg (fun t : Graph => t.nodes.row v) (writeMasters_eq rows g)).trans
      (masterStages.row_own MasterRow.props rfl (fun _ => rfl) hv rows g)
  write_mem rows g v h := by
    have hmem := masterStages.mem_own MasterRow.props rfl (fun _ => rfl) rows g h
    rwa [← writeMasters_eq] at hmem
  row_node h := by
    simp only [mastersProjector, masterRow, bind_eq_ok, pure_eq_ok] at h
    grind [mastersProjector]
  row_nodup _ := by simp [MasterRow.props]

def releasesWriter (env : Env) : NodeWriter env ReleaseRow where
  projector := releasesProjector env
  own r := .release r.id
  props := ReleaseRow.props
  write_nil _ := rfl
  write_row rows g v hv := by
    have hcore := releaseStages.row_own ReleaseRow.props rfl (fun _ => rfl) hv rows g
    rw [← writeReleasesCore_eq] at hcore
    exact (congrFun (row_nodes_mergeSameAs rows _).1 v).trans hcore
  write_mem rows g v h := by
    have hmem := releaseStages.mem_own ReleaseRow.props rfl (fun _ => rfl) rows g h
    rw [← writeReleasesCore_eq] at hmem
    exact (row_nodes_mergeSameAs rows _).2 v hmem
  row_node h := by
    simp only [releasesProjector, releaseRow, bind_eq_ok, pure_eq_ok] at h
    grind [releasesProjector]
  row_nodup h := ReleaseRow.props_nodup h

/-- The rows of a type of record. -/
def RowOf : DataType → Type
  | .artists => ArtistRow
  | .labels => LabelRow
  | .masters => MasterRow
  | .releases => ReleaseRow

/-- What the batches of a type write. -/
def writerOf (env : Env) : (t : DataType) → NodeWriter env (RowOf t)
  | .artists => artistsWriter env
  | .labels => labelsWriter env
  | .masters => mastersWriter env
  | .releases => releasesWriter env

/-- The processor that `write` takes for a type. -/
def processBatch (env : Env) :
    DataType → List PyValue → Graph → Except PyError (Graph × List ℕ)
  | .artists => processArtistsBatch env
  | .labels => processLabelsBatch env
  | .masters => processMastersBatch env
  | .releases => processReleasesBatch env

theorem processBatch_eq (env : Env) (t : DataType) :
    processBatch env t = (writerOf env t).projector.process env := by
  cases t <;> rfl

end Writers

/-- The results of a batch: one for each message, in order. -/
theorem results_eq (usable : List Bool) :
    ((List.range usable.length).map fun i =>
      if i ∈ (usable.zipIdx.filter fun m => !m.1).map (·.2) then Settlement.reject else .ack) =
      usable.map fun u => if u then .ack else .reject := by
  refine List.ext_getElem (by simp) fun i hi hi' => ?_
  have hlt : i < usable.length := by simpa using hi
  have hmem : i ∈ (usable.zipIdx.filter fun m => !m.1).map (·.2) ↔ usable.get ⟨i, hlt⟩ = false := by
    simp only [List.mem_map, List.mem_filter, Prod.exists, List.mem_zipIdx_iff_getElem?]
    simp [hlt]
  simp only [List.getElem_map, List.getElem_range, hmem]
  change _ = if usable.get ⟨i, hlt⟩ = true then _ else _
  cases usable.get ⟨i, hlt⟩ with
  | false => rfl
  | true => rfl

/-- **Acknowledged records.** A batch that does not raise returns one result for each message, and
rejects exactly the messages without a usable id. The last record of every node is in the graph that
it leaves if and only if it is kept: the batch writes it, or the node stored it before and the
records that the batch writes leave the node's properties as they are. -/
theorem acknowledged_records_stored (env : Env) (t : DataType) {messages : List PyValue}
    {g g' : Graph} {results : List Settlement}
    (h : write (processBatch env t) messages g = .ok (g', results)) :
    ∃ usable, messages.mapM (writerOf env t).projector.usable = .ok usable ∧
      results = usable.map (fun u => if u then .ack else .reject) ∧
      ((∀ record, (writerOf env t).IsLast (usableMessages messages usable) record →
          (writerOf env t).Acknowledged g g' (usableMessages messages usable) record) ↔
        ∀ record, (writerOf env t).IsLast (usableMessages messages usable) record →
          (writerOf env t).Kept g (usableMessages messages usable) record) := by
  simp only [write, bind_eq_ok, pure_eq_ok] at h
  obtain ⟨⟨g'', rejected⟩, hprocess, h⟩ := h
  rw [processBatch_eq] at hprocess
  obtain ⟨usable, changed, rows, husable, hchanged, hrows, rfl, rfl⟩ :=
    Projector.process_eq_ok ((writerOf env t).write_nil g) hprocess
  cases h
  rw [changedRecords_eq hchanged] at hrows
  have hlength : messages.length = usable.length := (mapM_eq_ok.mp husable).length_eq
  refine ⟨usable, husable, ?_, forall₂_congr fun record hlast =>
    NodeWriter.acknowledged_iff hrows hlast⟩
  rw [hlength]
  exact results_eq usable

/-- A label record, with or without a hash. -/
def warp (sha256 : List (String × PyValue)) : PyValue :=
  .obj ([("id", .str "5"), ("name", .str "Warp")] ++ sha256)

theorem acknowledged_records_stored_warp :
    ∃ g', write (processBatch plainEnv .labels) [warp [("sha256", .str "h")], .obj []] ∅ =
        .ok (g', [.ack, .reject]) ∧
      (writerOf plainEnv .labels).Acknowledged ∅ g' [warp [("sha256", .str "h")]]
        (warp [("sha256", .str "h")]) := by
  have hrun : write (processBatch plainEnv .labels) [warp [("sha256", .str "h")], .obj []] ∅ =
    .ok (_, [.ack, .reject]) := rfl
  obtain ⟨usable, husable, -, hiff⟩ := acknowledged_records_stored plainEnv .labels hrun
  obtain rfl : [true, false] = usable := Except.ok.inj husable
  refine ⟨_, hrun, hiff.mpr (fun record hlast hskip => ?_) _ ⟨[], [], rfl, nofun⟩⟩
  obtain ⟨before, after, hsplit, -⟩ := hlast
  have hmem : record ∈ [warp [("sha256", .str "h")]] := by
    change record ∈ usableMessages [warp [("sha256", .str "h")], .obj []] [true, false]
    rw [hsplit]
    simp
  obtain rfl := List.mem_singleton.mp hmem
  exact absurd hskip (by decide)

/-- The graph that stores the label with a hash. -/
def storedWarp : Graph :=
  (∅ : Graph).mergeNode (.ofLabel (.str "5")) (setProps [("name", .str "Warp"), ("sha256", .str "h")])

/-- A record without a hash is acknowledged and not written, and so is the last of two records whose
hash is stored when the first one overwrites it. -/
theorem acknowledged_records_counterexample :
    (write (processBatch plainEnv .labels) [warp []] ∅ = .ok (∅, [.ack]) ∧
      (.ofLabel (.str "5") : Node) ∉ (∅ : Graph).nodes) ∧
    ∃ g', write (processBatch plainEnv .labels)
        [warp [("sha256", .str "h2")], warp [("sha256", .str "h")]] storedWarp =
          .ok (g', [.ack, .ack]) ∧
      prop g' (.ofLabel (.str "5")) "sha256" = .str "h2" :=
  ⟨⟨rfl, by decide⟩, _, rfl, by decide⟩

end Graphinator
