import Graphinator.WritePaths

/-!
# Who names an artist or a label

An artist or a label record sets the name of its node. A release copies the name of a reference onto
the node it references, and `stub_name_backfill` reads names from a file; both fill in a name that
is missing and change none.

A backfill statement is `MATCH .. WHERE n.name IS NULL` and then `SET`: its conditions are all read
before the first name is written, and it creates no node.

## Main definitions

* `parseLine`, `backfillRows`, `fillMissingNames` : the backfill.
* `Names.Action`, `Names.step` : a transaction of the projections or of the backfill.
* `Names.ownRecords`, `Names.sources` : what a run wrote under a node's own id, and the names that
  it offered to the node.
* `NameStep` : what own records and offered names make of the name and the hash of a node.

## Main results

* `NameStep.trans` : the law of two runs in a row.
* `names_owned` : the law holds of every run.
-/

namespace Graphinator

open PropertyGraph PyValue

/-! ### The backfill -/

/-- A row of FILL_NAME_CYPHER. -/
structure BackfillRow where
  id : String
  name : String
deriving DecidableEq, Repr

/-- The kinds of FILL_NAME_CYPHER. A value that has no hash cannot be looked up. -/
def backfillKind : PyValue → Except PyError (Option Label)
  | .str "Label" => .ok (some .label)
  | .str "Artist" => .ok (some .artist)
  | .arr _ | .obj _ => .error .typeError
  | _ => .ok none

/-- `parse_line`, of a line that is JSON. -/
def parseLine (env : Env) (data : PyValue) : Except PyError (Option (Label × BackfillRow)) := do
  if !data.isDict then
    return none
  match ← backfillKind (← data.get "kind") with
  | none => return none
  | some kind =>
    let name ← referenceName data
    let entityId ← data.get "id"
    match name, entityId with
    | none, _ | _, .null | _, .bool _ => return none
    | some name, entityId => return some (kind, { id := entityId.pyStr env.repr, name })

/-- The rows of a kind among the lines of a batch. -/
def backfillRows (env : Env) (kind : Label) (lines : List PyValue) :
    Except PyError (List BackfillRow) := do
  let parsed ← lines.mapM (parseLine env)
  return parsed.filterMap fun row => match row with
    | some (kind', row) => if kind' = kind then some row else none
    | none => none

/-- The node of a row. -/
def BackfillRow.node (kind : Label) (row : BackfillRow) : Node := ⟨kind, .str row.id⟩

/-- FILL_NAME_CYPHER: the rows whose node is there without a name, and then their names. -/
def fillMissingNames (kind : Label) (rows : List BackfillRow) (g : Graph) : Graph :=
  runAll (fun row => setNodes (· = row.node kind) (setProps [("name", .str row.name)]))
    (rows.filter fun row => row.node kind ∈ g.nodes ∧ prop g (row.node kind) "name" = .null) g

/-! ### The law of a name -/

/-- The record carries a name that is not blank. -/
def Named (record : PyValue) : Prop := ∃ s, record.get "name" = .ok (.str s) ∧ strip s ≠ ""

/-- What the records of a node, and the names offered to it, make of the node's properties, each in
the order they were written. -/
structure NameStep (own : List PyValue) (sources : List String) (old new : Row) : Prop where
  /-- The last record of the node gives the name. -/
  owned : ∀ record, own.getLast? = some record → record.get "name" = .ok (new "name")
  /-- Without a record of the node, the first name offered fills in a missing one. -/
  filled : own = [] → new "name" = if old "name" = .null then textValue sources.head? else old "name"
  /-- Only a record of the node sets the hash. -/
  unhashed : own = [] → new "sha256" = old "sha256"

namespace NameStep

variable {own own' : List PyValue} {sources sources' : List String} {a b c : Row}

theorem refl (row : Row) : NameStep [] [] row row where
  owned _ h := by cases h
  filled _ := by
    split_ifs with h
    · exact h
    · rfl
  unhashed _ := rfl

/-- A name that is there stays, whatever is offered. -/
theorem name_eq (h : NameStep [] sources a b) (ha : a "name" ≠ .null) : b "name" = a "name" := by
  rw [h.filled rfl, if_neg ha]

/-- **The law of two writes in a row.** -/
theorem trans (h : NameStep own sources a b) (h' : NameStep own' sources' b c)
    (hnamed : ∀ record ∈ own, Named record) : NameStep (own ++ own') (sources ++ sources') a c := by
  refine ⟨fun record hlast => ?_, fun hnil => ?_, fun hnil => ?_⟩
  · rcases List.eq_nil_or_concat own' with rfl | ⟨_, record', rfl⟩
    · rw [List.append_nil] at hlast
      have hb := h.owned record hlast
      obtain ⟨s, hs, -⟩ := hnamed record (List.mem_of_getLast? hlast)
      have hne : b "name" ≠ .null := by
        intro hnull
        rw [hs, hnull] at hb
        cases hb
      rw [h'.name_eq hne]
      exact hb
    · refine h'.owned record ?_
      rw [List.getLast?_append_of_ne_nil _ (by simp)] at hlast
      exact hlast
  · obtain ⟨rfl, rfl⟩ := List.append_eq_nil_iff.mp hnil
    rw [h'.filled rfl, h.filled rfl]
    by_cases ha : a "name" = .null
    · simp only [if_pos ha]
      cases sources with
      | nil => exact if_pos rfl
      | cons s sources => exact if_neg nofun
    · simp only [if_neg ha]
  · obtain ⟨rfl, rfl⟩ := List.append_eq_nil_iff.mp hnil
    rw [h'.unhashed rfl, h.unhashed rfl]

/-- The law of a record of the node. -/
theorem record {props : List (String × PyValue)} {r name : PyValue}
    (hnodup : (props.map (·.1)).Nodup) (hname : ("name", name) ∈ props)
    (hr : r.get "name" = .ok name) (row : Row) : NameStep [r] [] row (setProps props row) where
  owned record h := by
    obtain rfl : r = record := by simpa using h
    rw [hr]
    exact congrArg Except.ok (setProps_of_mem hnodup hname row).symm
  filled h := absurd h (List.cons_ne_nil _ _)
  unhashed h := absurd h (List.cons_ne_nil _ _)

/-- The law of a reference. -/
theorem reference (name : Option String) (row : Row) :
    NameStep [] name.toList row (fillName (textValue name) row) where
  owned _ h := by cases h
  filled _ := by
    unfold fillName
    split_ifs
    · rw [Function.update_self]
      cases name with
      | none => rfl
      | some s => rfl
    · rfl
  unhashed _ := fillName_of_ne (by decide) _ row

/-- The law of a list of programs that offer names. -/
theorem run {α : Type} {f : α → Graph → Graph} {xs : List α} {v : Node}
    {sources : α → List String}
    (h : ∀ x ∈ xs, ∀ t : Graph, NameStep [] (sources x) (t.nodes.row v) ((f x t).nodes.row v))
    (g : Graph) : NameStep [] (xs.flatMap sources) (g.nodes.row v) ((runAll f xs g).nodes.row v) := by
  induction xs generalizing g with
  | nil => exact .refl _
  | cons x xs ih =>
    have hx := h x (List.mem_cons_self ..) g
    exact hx.trans (ih (fun y hy => h y (List.mem_cons_of_mem _ hy)) _) nofun

/-- The law of the records of a type, of which some are records of the node. -/
theorem records {ρ : Type} {own : ρ → Node} {props : ρ → List (String × PyValue)}
    {nodeLabel : Label} {records : List PyValue} {rows : List ρ} (v : Node)
    (hrows : List.Forall₂ (fun record r => recordNode? nodeLabel record = some (own r) ∧
      ((props r).map (·.1)).Nodup ∧
      ∀ s, record.get "name" = .ok (.str s) → ("name", .str s) ∈ props r) records rows)
    (hnamed : ∀ record ∈ records, Named record) (row : Row) :
    NameStep (records.filter fun record => recordNode? nodeLabel record = some v) [] row
      (updateRow own props rows v row) := by
  induction hrows generalizing row with
  | nil => exact .refl row
  | cons hr _ ih =>
    rename_i record r records rows _
    obtain ⟨hnode, hnodup, hprops⟩ := hr
    have hrest := ih (fun record hrecord => hnamed record (List.mem_cons_of_mem _ hrecord))
      (if own r = v then setProps (props r) row else row)
    have hfirst := hnamed record (List.mem_cons_self ..)
    by_cases hown : own r = v
    · obtain ⟨s, hs, -⟩ := id hfirst
      rw [List.filter_cons_of_pos (by simp [hnode, hown])]
      rw [if_pos hown] at hrest
      have hstep := (NameStep.record hnodup (hprops s hs) hs row).trans hrest fun record' h => by
        rw [List.mem_singleton.mp h]
        exact hfirst
      rwa [updateRow, List.foldl_cons, if_pos hown]
    · rw [List.filter_cons_of_neg (by simp [hnode, hown])]
      rw [if_neg hown] at hrest
      rwa [updateRow, List.foldl_cons, if_neg hown]

end NameStep

/-! ### Transactions -/

/-- The names that a record of a release gives to a node, in order. -/
def referenceNames (v : Node) (record : PyValue) : List String :=
  match record.get (if v.label = .artist then "artists" else "labels") >>= references with
  | .ok references => references.flatMap fun r => if ⟨v.label, r.id⟩ = v then r.name.toList else []
  | .error _ => []

/-- The names of the rows of a node in a backfill batch, in order. -/
def backfillNames (env : Env) (v : Node) (kind : Label) (lines : List PyValue) : List String :=
  match backfillRows env kind lines with
  | .ok rows => rows.filterMap fun row => if row.node kind = v then some row.name else none
  | .error _ => []

namespace Names

/-- A transaction. -/
inductive Action
  | batch (t : DataType) (messages : List PyValue)
  | record (t : DataType) (record : PyValue)
  | backfill (kind : Label) (lines : List PyValue)

/-- The graph a transaction leaves. One that raises is rolled back. -/
def step (env : Env) (a : Action) (g : Graph) : Graph :=
  match a with
  | .batch t messages =>
    match write (processBatch env t) messages g with
    | .ok (g', _) => g'
    | .error _ => g
  | .record t record =>
    match processOne env t record g with
    | .ok (g', _) => g'
    | .error _ => g
  | .backfill kind lines =>
    match backfillRows env kind lines with
    | .ok rows => fillMissingNames kind rows g
    | .error _ => g

/-- The records that a transaction writes. -/
def writtenRecords (env : Env) (g : Graph) : Action → List PyValue
  | .batch t messages =>
    match write (processBatch env t) messages g, messages.mapM (writerOf env t).projector.usable with
    | .ok _, .ok usable =>
      let records := usableMessages messages usable
      records.filter fun record => !skips env g t.nodeLabel records record
    | _, _ => []
  | .record t record =>
    match processOne env t record g with
    | .ok (_, true) => [record]
    | _ => []
  | .backfill .. => []

/-- The records of a node that a transaction writes. -/
def Action.ownRecords (env : Env) (g : Graph) (v : Node) (a : Action) : List PyValue :=
  match a with
  | .batch t _ | .record t _ =>
    (writtenRecords env g a).filter fun record => recordNode? t.nodeLabel record = some v
  | .backfill .. => []

/-- The names that a transaction offers to a node, in the order in which it processes them. -/
def Action.offered (env : Env) (g : Graph) (v : Node) (a : Action) : List String :=
  match a with
  | .batch .releases _ | .record .releases _ => (writtenRecords env g a).flatMap (referenceNames v)
  | .backfill kind lines => backfillNames env v kind lines
  | _ => []

/-- The names that can fill in a missing one: a backfill names no node that is not there, and of
several rows of one node in a batch the last one counts. -/
def Action.sources (env : Env) (g : Graph) (v : Node) (a : Action) : List String :=
  match a with
  | .backfill kind lines =>
    if v ∈ g.nodes then (backfillNames env v kind lines).getLast?.toList else []
  | a => a.offered env g v

/-- Whether a transaction is one of a release projection or of the backfill. -/
def Action.fillsOnly : Action → Bool
  | .batch t _ | .record t _ => t = .releases
  | .backfill .. => true

/-- Every artist and label record carries a name. -/
def Action.Named : Action → Prop
  | .batch t messages => t = .artists ∨ t = .labels → ∀ record ∈ messages, Graphinator.Named record
  | .record t r => t = .artists ∨ t = .labels → Graphinator.Named r
  | .backfill .. => True

/-- What the transactions of a run do, each in the graph that it finds. -/
def along {α : Type} (env : Env) (f : Graph → Action → List α) : List Action → Graph → List α
  | [], _ => []
  | a :: actions, g => f g a ++ along env f actions (step env a g)

/-- The records of a node that a run writes, in order. -/
def ownRecords (env : Env) (v : Node) := along env fun g a => a.ownRecords env g v

/-- The names that a run offers to a node, in order. -/
def offered (env : Env) (v : Node) := along env fun g a => a.offered env g v

/-- The names of a run that can fill in a missing one, in order. -/
def sources (env : Env) (v : Node) := along env fun g a => a.sources env g v

end Names

/-! ### What a projection does to a name -/

/-- The rows of a record on either path. -/
def RowFor (env : Env) (t : DataType) (record : PyValue) (r : RowOf t) : Prop :=
  (writerOf env t).projector.row record = .ok r ∨ oneRow env t record = .ok r

section Projections

variable {env : Env} {v : Node} {g g' : Graph} {records : List PyValue}

/-- A transaction leaves the rows of the nodes that its records do not update. -/
theorem Staged.row_frame {ρ : Type} {P : Staged ρ} (rows : List ρ)
    (h : ∀ r ∈ rows, P.updates r v = ∅) (g : Graph) :
    (runStages P.programs rows g).nodes.row v = g.nodes.row v := by
  refine runAll_invariant (I := fun t : Graph => t.nodes.row v = g.nodes.row v)
    (fun f hf t ht => ?_) rfl
  refine runAll_invariant (I := fun t : Graph => t.nodes.row v = g.nodes.row v)
    (fun r hr t ht => ?_) ht
  exact ((P.within_programs hf r).row_nodes_of_empty (h r hr) t).trans ht

theorem filter_recordNode? {nodeLabel : Label} (h : v.label ≠ nodeLabel) :
    (records.filter fun record => recordNode? nodeLabel record = some v) = [] := by
  rw [List.filter_eq_nil_iff]
  intro record _ hrecord
  exact h (NodeWriter.label_of_recordNode? (of_decide_eq_true hrecord))

/-- A default is not taken where the field has a value. -/
theorem getD_of_get {record x d : PyValue} {key : String} (h : record.get key = .ok x)
    (hx : x ≠ .null) : record.getD key d = .ok x := by
  cases record with
  | obj fields =>
    simp only [PyValue.get, PyValue.getD, Except.ok.injEq] at h ⊢
    cases hfield : field? fields key with
    | none => exact absurd (by simpa [hfield] using h.symm) hx
    | some y => simpa [hfield] using h
  | _ => cases h

/-- What a record puts on its own node: its name among other properties. -/
def Writes (nodeLabel : Label) (record : PyValue) (own : Node) (props : List (String × PyValue)) :
    Prop :=
  recordNode? nodeLabel record = some own ∧ (props.map (·.1)).Nodup ∧
    ∀ s, record.get "name" = .ok (.str s) → ("name", .str s) ∈ props

theorem RowFor.artist {record : PyValue} {r : ArtistRow} (h : RowFor env .artists record r) :
    Writes .artist record (.artist r.id) r.props := by
  refine ⟨?_, by simp [ArtistRow.props], fun s hs => ?_⟩
  · rcases h with h | h
    · exact NodeWriter.recordNode?_eq (T := artistsWriter env) h
    · change artistRecord env record = .ok r at h
      simp only [artistRecord, bind_eq_ok, pure_eq_ok] at h
      obtain ⟨id, hid, hkey⟩ : ∃ id, record.item "id" = .ok id ∧ nodeKey id = .ok r.id := by grind
      simp only [recordNode?, get_of_item hid, idNode?, hkey]
  · have hname : r.name = .str s := by
      rcases h with h | h
      · change artistRow env record = .ok r at h
        simp only [artistRow, bind_eq_ok, pure_eq_ok] at h
        grind [storable_str]
      · change artistRecord env record = .ok r at h
        have hs' := getD_of_get (d := .str "Unknown Artist") hs (by rintro ⟨⟩)
        simp only [artistRecord, bind_eq_ok, pure_eq_ok] at h
        grind [storable_str]
    simp [ArtistRow.props, hname]

theorem RowFor.ofLabel {record : PyValue} {r : LabelRow} (h : RowFor env .labels record r) :
    Writes .label record (.ofLabel r.id) r.props := by
  refine ⟨?_, by simp [LabelRow.props], fun s hs => ?_⟩
  · rcases h with h | h
    · exact NodeWriter.recordNode?_eq (T := labelsWriter env) h
    · change labelRecord record = .ok r at h
      simp only [labelRecord, bind_eq_ok, pure_eq_ok] at h
      obtain ⟨id, hid, hkey⟩ : ∃ id, record.item "id" = .ok id ∧ nodeKey id = .ok r.id := by grind
      simp only [recordNode?, get_of_item hid, idNode?, hkey]
  · have hname : r.name = .str s := by
      rcases h with h | h
      · change labelRow record = .ok r at h
        simp only [labelRow, bind_eq_ok, pure_eq_ok] at h
        grind [storable_str]
      · change labelRecord record = .ok r at h
        have hs' := getD_of_get (d := .str "Unknown Label") hs (by rintro ⟨⟩)
        simp only [labelRecord, bind_eq_ok, pure_eq_ok] at h
        grind [storable_str]
    simp [LabelRow.props, hname]

/-- The law of a write of the records that own the names. -/
theorem nameStep_own {ρ : Type} {T : NodeWriter env ρ} {rows : List ρ}
    (hrows : List.Forall₂ (fun record r => Writes T.projector.label record (T.own r) (T.props r))
      records rows)
    (hnamed : ∀ record ∈ records, Named record)
    (hother : v.label ≠ T.projector.label →
      (T.projector.write rows g).nodes.row v = g.nodes.row v) :
    NameStep (records.filter fun record => recordNode? T.projector.label record = some v) []
      (g.nodes.row v) ((T.projector.write rows g).nodes.row v) := by
  by_cases hv : v.label = T.projector.label
  · rw [T.write_row rows g v hv]
    exact NameStep.records v hrows hnamed _
  · rw [filter_recordNode? hv, hother hv]
    exact .refl _

theorem nameStep_artists {rows : List ArtistRow}
    (hrows : List.Forall₂ (RowFor env .artists) records rows)
    (hnamed : ∀ record ∈ records, Named record) :
    NameStep (records.filter fun record => recordNode? .artist record = some v) []
      (g.nodes.row v) ((writeArtists rows g).nodes.row v) := by
  refine nameStep_own (T := artistsWriter env) (hrows.imp fun _ _ => RowFor.artist) hnamed
    fun hv => ?_
  have hframe := artistStages.row_frame rows (v := v) ?_ g
  · rwa [← writeArtists_eq] at hframe
  · rintro r -
    exact Set.eq_empty_of_forall_notMem fun u hu => hv (congrArg Node.label hu.1)

theorem nameStep_labels {rows : List LabelRow}
    (hrows : List.Forall₂ (RowFor env .labels) records rows)
    (hnamed : ∀ record ∈ records, Named record) :
    NameStep (records.filter fun record => recordNode? .label record = some v) []
      (g.nodes.row v) ((writeLabels rows g).nodes.row v) := by
  refine nameStep_own (T := labelsWriter env) (hrows.imp fun _ _ => RowFor.ofLabel) hnamed
    fun hv => ?_
  have hframe := labelStages.row_frame rows (v := v) ?_ g
  · rwa [← writeLabels_eq] at hframe
  · rintro r -
    exact Set.eq_empty_of_forall_notMem fun u hu => hv (congrArg Node.label hu.1)

/-- A master names nothing. -/
theorem nameStep_masters (hv : v.label ≠ .master) (rows : List MasterRow) (g : Graph) :
    NameStep [] [] (g.nodes.row v) ((writeMasters rows g).nodes.row v) := by
  have hframe := masterStages.row_frame rows (v := v) ?_ g
  · rw [← writeMasters_eq] at hframe
    rw [hframe]
    exact .refl _
  · rintro r -
    exact Set.eq_empty_of_forall_notMem fun u hu => hv (congrArg Node.label hu.1)

/-- The law of the references of a list of releases to nodes of one label. -/
theorem nameStep_references {kind : Rel} (refs : ReleaseRow → List Reference)
    (rows : List ReleaseRow) (g : Graph) :
    NameStep [] (rows.flatMap fun r => (refs r).flatMap fun a =>
        if ⟨v.label, a.id⟩ = v then a.name.toList else [])
      (g.nodes.row v)
      ((runAll (fun r => runAll (fun a => linkNamed (.release r.id) kind ⟨v.label, a.id⟩ a.name)
        (refs r)) rows g).nodes.row v) := by
  refine NameStep.run (fun r _ t => NameStep.run (fun a _ t => ?_) t) g
  simp only [linkNamed, row_nodes_mergeEdge, row_nodes_mergeNode]
  by_cases hv : (⟨v.label, a.id⟩ : Node) = v
  · rw [if_pos hv, if_pos hv.symm]
    exact .reference a.name _
  · rw [if_neg hv, if_neg (Ne.symm hv)]
    exact .refl _

theorem RowFor.references {record : PyValue} {r : ReleaseRow}
    (h : RowFor env .releases record r) :
    (record.get "artists" >>= Graphinator.references) = .ok r.artists ∧
      (record.get "labels" >>= Graphinator.references) = .ok r.labels := by
  simp only [bind_eq_ok]
  rcases h with h | h
  · change releaseRow env record = .ok r at h
    simp only [releaseRow, bind_eq_ok, pure_eq_ok] at h
    grind
  · change releaseRecord env record = .ok r at h
    simp only [releaseRecord, bind_eq_ok, pure_eq_ok] at h
    grind

/-- The names of the references of a release to a node. -/
def ReleaseRow.namesOf (v : Node) (r : ReleaseRow) : List String :=
  (if v.label = .artist then r.artists else r.labels).flatMap fun a =>
    if ⟨v.label, a.id⟩ = v then a.name.toList else []

theorem RowFor.namesOf {record : PyValue} {r : ReleaseRow} (h : RowFor env .releases record r) :
    referenceNames v record = r.namesOf v := by
  obtain ⟨hartists, hlabels⟩ := h.references
  unfold referenceNames ReleaseRow.namesOf
  by_cases hv : v.label = .artist
  · simp only [if_pos hv, hartists]
  · simp only [if_neg hv, hlabels]

theorem flatMap_eq_of_forall₂ {α β γ : Type} {R : α → β → Prop} {f : α → List γ} {h : β → List γ}
    {xs : List α} {ys : List β} (hR : List.Forall₂ R xs ys) (heq : ∀ x y, R x y → f x = h y) :
    xs.flatMap f = ys.flatMap h := by
  induction hR with
  | nil => rfl
  | cons hxy _ ih => rw [List.flatMap_cons, List.flatMap_cons, heq _ _ hxy, ih]

/-- Releases fill in the names of the nodes that they reference. -/
theorem nameStep_releases {rows : List ReleaseRow}
    (hrows : List.Forall₂ (RowFor env .releases) records rows)
    (hv : v.label = .artist ∨ v.label = .label) (g : Graph) :
    NameStep [] (records.flatMap (referenceNames v)) (g.nodes.row v)
      ((writeReleases rows g).nodes.row v) := by
  have hlast : (writeReleases rows g).nodes.row v = (writeReleasesCore rows g).nodes.row v :=
    congrFun (row_nodes_mergeSameAs rows (writeReleasesCore rows g)).1 v
  rw [flatMap_eq_of_forall₂ hrows fun _ _ => RowFor.namesOf, hlast, writeReleasesCore_eq]
  obtain ⟨nodeLabel, key⟩ := v
  rcases hv with rfl | rfl
  · obtain ⟨t, ht, hrun⟩ := releaseStages.row_zone (v := .artist key)
      (.tail _ (.tail _ (.head _))) rows g
    rw [hrun, ← ht]
    exact nameStep_references ReleaseRow.artists rows t
  · obtain ⟨t, ht, hrun⟩ := releaseStages.row_zone (v := .ofLabel key)
      (.tail _ (.tail _ (.tail _ (.head _)))) rows g
    rw [hrun, ← ht]
    exact nameStep_references ReleaseRow.labels rows t

end Projections

/-! ### What the backfill does to a name -/

section Backfill

variable {kind : Label} {rows : List BackfillRow} {v : Node} {g : Graph}

/-- What the names of some rows make of the properties of a node that is there. -/
theorem row_setNames (hv : v ∈ g.nodes) :
    (runAll (fun row => setNodes (· = row.node kind) (setProps [("name", .str row.name)])) rows
      g).nodes.row v =
      updateRow (BackfillRow.node kind) (fun row => [("name", .str row.name)]) rows v
        (g.nodes.row v) := by
  induction rows generalizing g with
  | nil => rfl
  | cons row rows ih =>
    rw [runAll_cons, ih (mem_nodes_setNodes.mpr hv), row_nodes_setNodes, updateRow, updateRow,
      List.foldl_cons]
    by_cases hrow : row.node kind = v
    · rw [if_pos ⟨hv, hrow.symm⟩, if_pos hrow]
    · rw [if_neg fun h => hrow h.2.symm, if_neg hrow]

/-- A statement leaves the nodes that are not there. -/
theorem row_setNames_of_notMem (hv : v ∉ g.nodes) :
    (runAll (fun row => setNodes (· = row.node kind) (setProps [("name", .str row.name)])) rows
      g).nodes.row v = g.nodes.row v := by
  induction rows generalizing g with
  | nil => rfl
  | cons row rows ih =>
    rw [runAll_cons, ih (fun h => hv (mem_nodes_setNodes.mp h)), row_nodes_setNodes,
      if_neg fun h => hv h.1]

/-- The last of the names of a node is the one it gets. -/
theorem updateRow_node (rows : List BackfillRow) (row : Row) :
    updateRow (BackfillRow.node kind) (fun r => [("name", .str r.name)]) rows v row =
      match (rows.filterMap fun r => if r.node kind = v then some r.name else none).getLast? with
      | some name => Function.update row "name" (.str name)
      | none => row := by
  induction rows using List.reverseRecOn with
  | nil => rfl
  | append_singleton rows r ih =>
    unfold updateRow at ih ⊢
    rw [List.foldl_append, ih, List.filterMap_append]
    by_cases hr : r.node kind = v
    · have hlast : [r].filterMap (fun r => if r.node kind = v then some r.name else none) =
          [r.name] := by simp [hr]
      rw [hlast, List.getLast?_concat, List.foldl_cons, List.foldl_nil, if_pos hr]
      generalize (rows.filterMap _).getLast? = last
      cases last with
      | none => rfl
      | some name => exact Function.update_idem ..
    · have hlast : [r].filterMap (fun r => if r.node kind = v then some r.name else none) = [] := by
        simp [hr]
      rw [hlast, List.append_nil, List.foldl_cons, List.foldl_nil, if_neg hr]

/-- What a backfill statement makes of the properties of a node. -/
theorem row_fillMissingNames (rows : List BackfillRow) (g : Graph) :
    (fillMissingNames kind rows g).nodes.row v =
      if v ∈ g.nodes ∧ prop g v "name" = .null then
        match (rows.filterMap fun r => if r.node kind = v then some r.name else none).getLast? with
        | some name => Function.update (g.nodes.row v) "name" (.str name)
        | none => g.nodes.row v
      else g.nodes.row v := by
  unfold fillMissingNames
  by_cases hv : v ∈ g.nodes
  · rw [row_setNames hv, updateRow_node, List.filterMap_filter]
    by_cases hname : prop g v "name" = .null
    · have hcond : ∀ r ∈ rows, (if decide (r.node kind ∈ g.nodes ∧
          prop g (r.node kind) "name" = .null) = true then
            if r.node kind = v then some r.name else none else none) =
          if r.node kind = v then some r.name else none := by
        intro r _
        by_cases hr : r.node kind = v
        · rw [if_pos (decide_eq_true (hr ▸ ⟨hv, hname⟩))]
        · simp only [if_neg hr, ite_self]
      rw [List.filterMap_congr hcond, if_pos ⟨hv, hname⟩]
    · have hcond : ∀ r ∈ rows, (if decide (r.node kind ∈ g.nodes ∧
          prop g (r.node kind) "name" = .null) = true then
            if r.node kind = v then some r.name else none else none) = none := by
        intro r _
        by_cases hr : r.node kind = v
        · rw [if_neg fun h => hname (hr ▸ (of_decide_eq_true h).2)]
        · simp only [if_neg hr, ite_self]
      have hnone : rows.filterMap (fun _ => (none : Option String)) = [] := by simp
      rw [List.filterMap_congr hcond, hnone, if_neg fun h => hname h.2]
      rfl
  · rw [row_setNames_of_notMem hv, if_neg fun h => hv h.1]

/-- **The law of a backfill statement.** -/
theorem nameStep_backfill (rows : List BackfillRow) (g : Graph) :
    NameStep [] (if v ∈ g.nodes then
        (rows.filterMap fun r => if r.node kind = v then some r.name else none).getLast?.toList
      else []) (g.nodes.row v) ((fillMissingNames kind rows g).nodes.row v) := by
  rw [row_fillMissingNames]
  generalize (rows.filterMap fun r => if r.node kind = v then some r.name else none).getLast? = last
  by_cases hv : v ∈ g.nodes
  · rw [if_pos hv]
    by_cases hname : prop g v "name" = .null
    · rw [if_pos ⟨hv, hname⟩]
      cases last with
      | none => exact .refl _
      | some name =>
        refine ⟨nofun, fun _ => ?_, fun _ => ?_⟩
        · exact (Function.update_self ..).trans (if_pos hname).symm
        · exact Function.update_of_ne (by decide) ..
    · rw [if_neg fun h => hname h.2]
      exact ⟨nofun, fun _ => (if_neg hname).symm, fun _ => rfl⟩
  · rw [if_neg hv, if_neg fun h => hv h.1]
    exact .refl _

end Backfill

/-! ### Runs -/

namespace Names

section Steps

variable {env : Env} {v : Node} {g : Graph}

theorem mem_usableMessages {messages : List PyValue} {usable : List Bool} {record : PyValue}
    (h : record ∈ usableMessages messages usable) : record ∈ messages := by
  obtain ⟨m, hm, hrecord⟩ := List.mem_filterMap.mp h
  split_ifs at hrecord
  obtain rfl : m.1 = record := Option.some.inj hrecord
  exact (List.of_mem_zip hm).1

/-- A batch writes the rows of its records, or nothing. -/
theorem step_batch (env : Env) (t : DataType) (messages : List PyValue) (g : Graph) :
    ∃ rows, List.Forall₂ (RowFor env t) (writtenRecords env g (.batch t messages)) rows ∧
      step env (.batch t messages) g = (writerOf env t).projector.write rows g := by
  rcases hwrite : write (processBatch env t) messages g with error | ⟨g', results⟩
  · refine ⟨[], ?_, ?_⟩
    · simp only [writtenRecords, hwrite]
      exact .nil
    · simp only [step, hwrite]
      exact ((writerOf env t).write_nil g).symm
  · have h := hwrite
    simp only [write, bind_eq_ok, pure_eq_ok] at h
    obtain ⟨⟨g'', rejected⟩, hprocess, h⟩ := h
    rw [processBatch_eq] at hprocess
    obtain ⟨usable, changed, rows, husable, hchanged, hrows, rfl, -⟩ :=
      Projector.process_eq_ok ((writerOf env t).write_nil g) hprocess
    cases h
    rw [changedRecords_eq hchanged, projector_label] at hrows
    refine ⟨rows, ?_, ?_⟩
    · simp only [writtenRecords, hwrite, husable]
      exact (mapM_eq_ok.mp hrows).imp fun _ _ => Or.inl
    · simp only [step, hwrite]

/-- So does the projection of one record. -/
theorem step_record (env : Env) (t : DataType) (record : PyValue) (g : Graph) :
    ∃ rows, List.Forall₂ (RowFor env t) (writtenRecords env g (.record t record)) rows ∧
      step env (.record t record) g = (writerOf env t).projector.write rows g := by
  have hone := congrFun (congrFun (processOne_eq env t) record) g
  have hskip := ((writerOf env t).write_nil g).symm
  rcases hprocess : processOne env t record g with error | ⟨g', changed⟩
  · refine ⟨[], ?_, ?_⟩
    · simp only [writtenRecords, hprocess]
      exact .nil
    · simpa only [step, hprocess] using hskip
  · rcases processRecord_eq_ok (hone.symm.trans hprocess) with ⟨rfl, rfl⟩ | ⟨rfl, r, hr, rfl⟩
    · refine ⟨[], ?_, ?_⟩
      · simp only [writtenRecords, hprocess]
        exact .nil
      · simpa only [step, hprocess] using hskip
    · refine ⟨[r], ?_, ?_⟩
      · simp only [writtenRecords, hprocess]
        exact .cons (Or.inr hr) .nil
      · simp only [step, hprocess]
        exact oneWrite_eq env t r g

theorem named_writtenRecords {a : Action} (ha : a.Named) {t : DataType}
    (ht : t = .artists ∨ t = .labels) (hat : (∃ messages, a = .batch t messages) ∨
      ∃ record, a = .record t record) : ∀ record ∈ writtenRecords env g a, Named record := by
  intro record hrecord
  rcases hat with ⟨messages, rfl⟩ | ⟨r, rfl⟩
  · simp only [writtenRecords] at hrecord
    split at hrecord
    · exact ha ht record (mem_usableMessages (List.mem_filter.mp hrecord).1)
    · exact absurd hrecord List.not_mem_nil
  · simp only [writtenRecords] at hrecord
    split at hrecord
    · obtain rfl := List.mem_singleton.mp hrecord
      exact ha ht
    · exact absurd hrecord List.not_mem_nil

/-- The law of a write of a type of record. -/
theorem nameStep_projection {t : DataType} {records : List PyValue} {rows : List (RowOf t)}
    (hrows : List.Forall₂ (RowFor env t) records rows)
    (hnamed : t = .artists ∨ t = .labels → ∀ record ∈ records, Named record)
    (hv : v.label = .artist ∨ v.label = .label) (g : Graph) :
    NameStep (records.filter fun record => recordNode? t.nodeLabel record = some v)
      (if t = .releases then records.flatMap (referenceNames v) else []) (g.nodes.row v)
      (((writerOf env t).projector.write rows g).nodes.row v) := by
  cases t with
  | artists => exact nameStep_artists hrows (hnamed (Or.inl rfl))
  | labels => exact nameStep_labels hrows (hnamed (Or.inr rfl))
  | masters =>
    have hne : v.label ≠ .master := by
      rcases hv with hv | hv <;> simp [hv]
    have hnil : (records.filter fun record =>
        recordNode? DataType.masters.nodeLabel record = some v) = [] := filter_recordNode? hne
    rw [hnil]
    exact nameStep_masters hne rows g
  | releases =>
    have hne : v.label ≠ .release := by
      rcases hv with hv | hv <;> simp [hv]
    have hnil : (records.filter fun record =>
        recordNode? DataType.releases.nodeLabel record = some v) = [] := filter_recordNode? hne
    rw [hnil]
    exact nameStep_releases hrows hv g

/-- **The law of a transaction.** -/
theorem nameStep_step {a : Action} (ha : a.Named) (hv : v.label = .artist ∨ v.label = .label) :
    NameStep (a.ownRecords env g v) (a.sources env g v) (g.nodes.row v)
      ((step env a g).nodes.row v) := by
  cases a with
  | batch t messages =>
    obtain ⟨rows, hrows, hg⟩ := step_batch env t messages g
    have h := nameStep_projection hrows (fun ht => named_writtenRecords ha ht
      (Or.inl ⟨messages, rfl⟩)) hv g
    rw [← hg] at h
    cases t <;> exact h
  | record t r =>
    obtain ⟨rows, hrows, hg⟩ := step_record env t r g
    have h := nameStep_projection hrows (fun ht => named_writtenRecords ha ht
      (Or.inr ⟨r, rfl⟩)) hv g
    rw [← hg] at h
    cases t <;> exact h
  | backfill kind lines =>
    simp only [Action.ownRecords, Action.sources, backfillNames, step]
    cases hlines : backfillRows env kind lines with
    | error error =>
      simp only [List.getLast?_nil, Option.toList_none, ite_self]
      exact .refl _
    | ok rows => exact nameStep_backfill rows g

/-- A transaction writes records of a node only where their type carries names. -/
theorem named_ownRecords {a : Action} (ha : a.Named) (hv : v.label = .artist ∨ v.label = .label) :
    ∀ record ∈ a.ownRecords env g v, Named record := by
  have howner : ∀ t : DataType, ∀ record, recordNode? t.nodeLabel record = some v →
      t = .artists ∨ t = .labels := by
    intro t record hrecord
    rw [NodeWriter.label_of_recordNode? hrecord] at hv
    cases t <;> simp_all [DataType.nodeLabel]
  intro record hrecord
  cases a with
  | batch t messages =>
    obtain ⟨hwritten, hnode⟩ := List.mem_filter.mp hrecord
    exact named_writtenRecords ha (howner t record (of_decide_eq_true hnode))
      (Or.inl ⟨messages, rfl⟩) record hwritten
  | record t r =>
    obtain ⟨hwritten, hnode⟩ := List.mem_filter.mp hrecord
    exact named_writtenRecords ha (howner t record (of_decide_eq_true hnode))
      (Or.inr ⟨r, rfl⟩) record hwritten
  | backfill kind lines => exact absurd hrecord List.not_mem_nil

/-- **The law of a run.** -/
theorem nameStep_run {actions : List Action} (hnamed : ∀ a ∈ actions, a.Named)
    (hv : v.label = .artist ∨ v.label = .label) (g : Graph) :
    NameStep (ownRecords env v actions g) (sources env v actions g) (g.nodes.row v)
      ((runAll (step env) actions g).nodes.row v) := by
  induction actions generalizing g with
  | nil => exact .refl _
  | cons a actions ih =>
    have ha := hnamed a (List.mem_cons_self ..)
    exact (nameStep_step ha hv).trans (ih (fun b hb => hnamed b (List.mem_cons_of_mem _ hb)) _)
      (named_ownRecords ha hv)

end Steps

section Offered

variable {env : Env} {v : Node} {g : Graph}

theorem mem_along {α : Type} {f : Graph → Action → List α} {actions : List Action} {x : α}
    (h : x ∈ along env f actions g) : ∃ a ∈ actions, ∃ t, x ∈ f t a := by
  induction actions generalizing g with
  | nil => exact absurd h List.not_mem_nil
  | cons a actions ih =>
    rcases List.mem_append.mp h with h | h
    · exact ⟨a, List.mem_cons_self .., g, h⟩
    · obtain ⟨b, hb, t, ht⟩ := ih h
      exact ⟨b, List.mem_cons_of_mem _ hb, t, ht⟩

theorem trimmed_text {value : PyValue} {s : String} (h : text value = some s) :
    s ≠ "" ∧ strip s = s := by
  cases value with
  | str raw =>
    simp only [text] at h
    split_ifs at h with hblank
    cases h
    exact ⟨hblank, strip_strip raw⟩
  | _ => cases h

theorem trimmed_referenceName {reference : PyValue} {s : String}
    (h : referenceName reference = .ok (some s)) : s ≠ "" ∧ strip s = s := by
  simp only [referenceName, bind_eq_ok, pure_eq_ok] at h
  obtain ⟨name, -, hname⟩ := h
  exact trimmed_text hname

/-- The references of a list carry trimmed names. -/
theorem trimmed_references {values : PyValue} {refs : List Reference}
    (h : references values = .ok refs) {r : Reference} (hr : r ∈ refs) {s : String}
    (hs : r.name = some s) : s ≠ "" ∧ strip s = s := by
  simp only [references, bind_eq_ok, pure_eq_ok] at h
  obtain ⟨items, -, rows, hrows, rfl⟩ := h
  obtain ⟨row, hrow, hid⟩ := List.mem_filterMap.mp hr
  obtain ⟨item, -, hitem⟩ := exists_left_of_mem (mapM_eq_ok.mp hrows) hrow
  simp only [bind_eq_ok] at hitem
  obtain ⟨id, -, hitem⟩ := hitem
  split_ifs at hitem
  · simp only [bind_eq_ok, pure_eq_ok] at hitem
    obtain ⟨id', -, key, -, name, hname, hrow⟩ := hitem
    obtain rfl : ({ id := key, name := name } : Reference) = r :=
      Option.some.inj (hrow.trans hid)
    exact trimmed_referenceName (hname.trans (congrArg _ hs))
  · rw [pure_eq_ok] at hitem
    subst hitem
    cases hid

/-- The rows of a backfill carry trimmed names. -/
theorem trimmed_parseLine {data : PyValue} {kind : Label} {row : BackfillRow}
    (h : parseLine env data = .ok (some (kind, row))) : row.name ≠ "" ∧ strip row.name = row.name := by
  simp only [parseLine] at h
  split_ifs at h
  · cases h
  simp only [bind_eq_ok] at h
  obtain ⟨value, -, kind', -, h⟩ := h
  cases kind' with
  | none => cases h
  | some kind' =>
    simp only [bind_eq_ok] at h
    obtain ⟨name, hname, id, -, h⟩ := h
    split at h
    · cases h
    · cases h
    · cases h
    · rw [pure_eq_ok] at h
      cases h
      exact trimmed_referenceName hname

theorem trimmed_referenceNames {record : PyValue} {s : String} (h : s ∈ referenceNames v record) :
    s ≠ "" ∧ strip s = s := by
  unfold referenceNames at h
  split at h
  · next refs hrefs =>
    obtain ⟨values, -, hrefs⟩ := bind_eq_ok.mp hrefs
    obtain ⟨r, hr, hs⟩ := List.mem_flatMap.mp h
    split_ifs at hs
    · exact trimmed_references hrefs hr (Option.mem_toList.mp hs)
    · exact absurd hs List.not_mem_nil
  · exact absurd h List.not_mem_nil

theorem trimmed_backfillNames {kind : Label} {lines : List PyValue} {s : String}
    (h : s ∈ backfillNames env v kind lines) : s ≠ "" ∧ strip s = s := by
  unfold backfillNames at h
  split at h
  · next rows hrows =>
    obtain ⟨row, hrow, hs⟩ := List.mem_filterMap.mp h
    split_ifs at hs
    cases hs
    simp only [backfillRows, bind_eq_ok, pure_eq_ok] at hrows
    obtain ⟨parsed, hparsed, rfl⟩ := hrows
    obtain ⟨pair, hpair, hkind⟩ := List.mem_filterMap.mp hrow
    obtain ⟨data, -, hdata⟩ := exists_left_of_mem (mapM_eq_ok.mp hparsed) hpair
    split at hkind
    · split_ifs at hkind
      cases hkind
      exact trimmed_parseLine hdata
    · cases hkind
  · exact absurd h List.not_mem_nil

theorem trimmed_offered {a : Action} {s : String} (h : s ∈ a.offered env g v) :
    s ≠ "" ∧ strip s = s := by
  unfold Action.offered at h
  split at h
  · obtain ⟨record, -, hs⟩ := List.mem_flatMap.mp h
    exact trimmed_referenceNames hs
  · obtain ⟨record, -, hs⟩ := List.mem_flatMap.mp h
    exact trimmed_referenceNames hs
  · exact trimmed_backfillNames h
  · exact absurd h List.not_mem_nil

/-- What can fill in a name is offered. -/
theorem mem_offered_of_mem_sources {a : Action} {s : String} (h : s ∈ a.sources env g v) :
    s ∈ a.offered env g v := by
  cases a with
  | batch t messages => exact h
  | record t r => exact h
  | backfill kind lines =>
    simp only [Action.sources] at h
    split_ifs at h
    · exact List.mem_of_getLast? (Option.mem_toList.mp h)
    · exact absurd h List.not_mem_nil

/-- The names that a run offers are trimmed and not blank. -/
theorem trimmed_sources {actions : List Action} {s : String}
    (h : s ∈ sources env v actions g) : s ≠ "" ∧ strip s = s := by
  obtain ⟨a, -, t, hs⟩ := mem_along h
  exact trimmed_offered (mem_offered_of_mem_sources hs)

/-- A release projection and a backfill write no record of an artist or a label. -/
theorem ownRecords_of_fillsOnly {a : Action} (ha : a.fillsOnly = true)
    (hv : v.label = .artist ∨ v.label = .label) : a.ownRecords env g v = [] := by
  have hne : v.label ≠ DataType.releases.nodeLabel := by
    rcases hv with hv | hv <;> simp [hv, DataType.nodeLabel]
  cases a with
  | batch t messages =>
    obtain rfl : t = .releases := of_decide_eq_true ha
    exact filter_recordNode? hne
  | record t r =>
    obtain rfl : t = .releases := of_decide_eq_true ha
    exact filter_recordNode? hne
  | backfill kind lines => rfl

theorem named_of_fillsOnly {a : Action} (ha : a.fillsOnly = true) : a.Named := by
  cases a with
  | batch t messages =>
    obtain rfl : t = .releases := of_decide_eq_true ha
    exact fun h => absurd h (by decide)
  | record t r =>
    obtain rfl : t = .releases := of_decide_eq_true ha
    exact fun h => absurd h (by decide)
  | backfill kind lines => trivial

end Offered

/-- **Names.** A release projection or a backfill never changes the name of an artist or a label that
has one. At every point of a run, the name of a node is that of the last record of the node that was
written; while there was none, it is the first name that a reference, or a backfill that found the
node, offered to it, trimmed and not blank, and the node has no hash. -/
theorem names_owned (env : Env) {actions : List Action} (hnamed : ∀ a ∈ actions, a.Named) (g : Graph)
    {v : Node} (hv : v.label = .artist ∨ v.label = .label) :
    (∀ (a : Action) (t : Graph), a.fillsOnly = true → prop t v "name" ≠ .null →
      prop (step env a t) v "name" = prop t v "name") ∧
    (∀ record, (ownRecords env v actions g).getLast? = some record →
      record.get "name" = .ok (prop (runAll (step env) actions g) v "name")) ∧
    (ownRecords env v actions g = [] → prop g v "name" = .null → prop g v "sha256" = .null →
      prop (runAll (step env) actions g) v "name" = textValue (sources env v actions g).head? ∧
        prop (runAll (step env) actions g) v "sha256" = .null) ∧
    ∀ name ∈ sources env v actions g, name ≠ "" ∧ strip name = name := by
  have hrun : NameStep (ownRecords env v actions g) (sources env v actions g) (g.nodes.row v)
      ((runAll (step env) actions g).nodes.row v) := nameStep_run hnamed hv g
  refine ⟨fun a t hfills hname => ?_, hrun.owned, fun hown hname hsha => ⟨?_, ?_⟩,
    fun _ => trimmed_sources⟩
  · have hstep : NameStep (a.ownRecords env t v) (a.sources env t v) (t.nodes.row v)
        ((step env a t).nodes.row v) := nameStep_step (named_of_fillsOnly hfills) hv
    rw [ownRecords_of_fillsOnly hfills hv] at hstep
    exact hstep.name_eq hname
  · exact (hrun.filled hown).trans (if_pos hname)
  · exact (hrun.unhashed hown).trans hsha

/-- A release that references a label, with a name that is not trimmed. -/
def warpRelease : PyValue :=
  .obj [("id", .str "1"), ("sha256", .str "r"),
    ("labels", .arr [.obj [("id", .str "5"), ("name", .str " Warp ")]])]

/-- A line of a backfill file. -/
def warpLine (name : String) : PyValue :=
  .obj [("kind", .str "Label"), ("id", .str "5"), ("name", .str name)]

theorem names_owned_reference :
    prop (runAll (step plainEnv)
      [.batch .releases [warpRelease], .backfill .label [warpLine "Other"]] ∅) (.ofLabel (.str "5"))
      "name" = .str "Warp" := by
  have hnamed : ∀ a ∈ [Action.batch .releases [warpRelease], .backfill .label [warpLine "Other"]],
      a.Named := by
    simp [Action.Named]
  exact ((names_owned plainEnv hnamed ∅ (v := .ofLabel (.str "5")) (Or.inr rfl)).2.2.1 (by decide)
    rfl rfl).1

/-- A label that another label names as its sublabel. -/
def parentOfWarp : PyValue :=
  .obj [("id", .str "6"), ("name", .str "Parent"), ("sha256", .str "p"),
    ("sublabels", .arr [.obj [("id", .str "5")]])]

/-- A backfill that names a label before a release references it. -/
def backfillFirst : List Action :=
  [.backfill .label [warpLine "Early"], .batch .releases [warpRelease]]

/-- A backfill that names a stub twice. -/
def backfillTwice : List Action :=
  [.batch .labels [parentOfWarp], .backfill .label [warpLine "First", warpLine "Second"]]

/-- The name of a stub is not always the first one offered: a backfill before the stub is there has
no effect, and of two rows in one batch the last one counts. -/
theorem names_counterexample :
    (ownRecords plainEnv (.ofLabel (.str "5")) backfillFirst ∅ = [] ∧
      offered plainEnv (.ofLabel (.str "5")) backfillFirst ∅ = ["Early", "Warp"] ∧
      prop (runAll (step plainEnv) backfillFirst ∅) (.ofLabel (.str "5")) "name" = .str "Warp") ∧
    ownRecords plainEnv (.ofLabel (.str "5")) backfillTwice ∅ = [] ∧
      offered plainEnv (.ofLabel (.str "5")) backfillTwice ∅ = ["First", "Second"] ∧
      prop (runAll (step plainEnv) backfillTwice ∅) (.ofLabel (.str "5")) "name" =
        .str "Second" := by
  decide

end Names

end Graphinator
