import Graphinator.Lib.Kleene
import Graphinator.Records

/-!
# The prunes of a release, merged and separate

A batch deletes the stale BY, ON, DERIVED_FROM and IS edges of its releases with one statement whose
condition has a disjunct for each type of edge. The single-record path runs a statement for each of
them. Here the graph is as the database stores it: a node may carry several labels, its id and its
name may be null, and a condition is true, false or unknown.

How Cypher compares two values is given. No law of the comparison is used.

## Main definitions

* `StoredGraph` : nodes with labels and nullable keys.
* `releasePruneRecord`, `pruneStale`, `pruneSeparately`, `pruneMerged`.

## Main results

* `release_prunes_agree` : the merged statement deletes what the separate ones delete.
-/

namespace Graphinator

open PyValue Kleene

/-- A graph as it is stored. -/
structure StoredGraph (V E : Type) where
  labels : V → List Label
  id : V → PyValue
  name : V → PyValue
  type : E → Rel
  src : E → V
  dst : E → V
  edges : List E

/-- The property that keys a node of some label. -/
inductive NodeKey where
  | id
  | name

/-- `n.id` or `n.name`. -/
def StoredGraph.property {V E : Type} (g : StoredGraph V E) : NodeKey → V → PyValue
  | .id => g.id
  | .name => g.name

/-! ### Parameters -/

/-- `[a["id"] for a in (values or []) if a.get("id")]`. -/
def keepIds (values : PyValue) : Except PyError (List PyValue) := do
  let items ← (values.orElse (.arr [])).iter
  let ids ← items.mapM fun item => do
    if (← item.get "id").truthy then
      return some (← item.item "id")
    else
      return (none : Option PyValue)
  return ids.filterMap fun id => id

/-- `[x for x in (values or []) if x]`. -/
def keepNames (values : PyValue) : Except PyError (List PyValue) := do
  return (← (values.orElse (.arr [])).iter).filter truthy

/-- `[] if master is None else [master]`. -/
def keepMaster (masterId : PyValue) : List PyValue := ((usableMasterId masterId).map .str).toList

/-- A record of PRUNE_RELEASE_EDGES_CYPHER. -/
structure PruneRecord where
  key : PyValue
  artists : List PyValue
  labels : List PyValue
  masters : List PyValue
  genres : List PyValue
  styles : List PyValue

/-- `_release_prune_record`. -/
def releasePruneRecord (release : PyValue) : Except PyError PruneRecord := do
  return {
    masters := keepMaster (← release.get "master_id")
    key := ← release.item "id"
    artists := ← keepIds (← release.get "artists")
    labels := ← keepIds (← release.get "labels")
    genres := ← keepNames (← release.get "genres")
    styles := ← keepNames (← release.get "styles") }

/-! ### Statements -/

section Statements

variable {V E : Type} (equals : PyValue → PyValue → Truth)

/-- `MATCH (n:label {id: key})`. -/
def matchesNode (g : StoredGraph V E) (nodeLabel : Label) (key : PyValue) (v : V) : Bool :=
  nodeLabel ∈ g.labels v && equals (g.id v) key == some true

/-- `type(rel) = relType AND t:targetLabel AND NOT t.key IN keep`. -/
def unasserted (g : StoredGraph V E) (relType : Rel) (targetLabel : Label) (targetKey : NodeKey)
    (keep : List PyValue) (e : E) : Truth :=
  and (some (g.type e = relType)) <| and (some (targetLabel ∈ g.labels (g.dst e))) <|
    Kleene.not (isIn equals (g.property targetKey (g.dst e)) keep)

/-- `DELETE rel`, of the edges that pass. -/
def deleteWhere (p : E → Bool) (g : StoredGraph V E) : StoredGraph V E :=
  { g with edges := g.edges.filter fun e => !p e }

/-- `_prune_stale_edges`. -/
def pruneStale (nodeLabel : Label) (nodeId : PyValue) (relType : Rel) (targetLabel : Label)
    (targetKey : NodeKey) (keep : List PyValue) (g : StoredGraph V E) : StoredGraph V E :=
  deleteWhere (fun e => matchesNode equals g nodeLabel nodeId (g.src e) &&
    unasserted equals g relType targetLabel targetKey keep e == some true) g

/-- The condition of PRUNE_RELEASE_EDGES_CYPHER. -/
def pruneCondition (record : PruneRecord) (g : StoredGraph V E) (e : E) : Truth :=
  or (unasserted equals g .BY .artist .id record.artists e) <|
    or (unasserted equals g .ON .label .id record.labels e) <|
    or (unasserted equals g .DERIVED_FROM .master .id record.masters e) <|
    or (unasserted equals g .IS .genre .name record.genres e)
      (unasserted equals g .IS .style .name record.styles e)

/-- PRUNE_RELEASE_EDGES_CYPHER for one record. -/
def pruneMergedOne (record : PruneRecord) (g : StoredGraph V E) : StoredGraph V E :=
  deleteWhere (fun e => matchesNode equals g .release record.key (g.src e) &&
    decide (g.type e ∈ [Rel.BY, .ON, .DERIVED_FROM, .IS]) &&
    pruneCondition equals record g e == some true) g

/-- PRUNE_RELEASE_EDGES_CYPHER. No deletion changes what a later row matches, so the rows are taken
one after another. -/
def pruneMerged (records : List PruneRecord) (g : StoredGraph V E) : StoredGraph V E :=
  records.foldl (fun g record => pruneMergedOne equals record g) g

/-- The five prunes of `process_release`. -/
def pruneSeparately (record : PyValue) (g : StoredGraph V E) :
    Except PyError (StoredGraph V E) := do
  let masterId ← record.get "master_id"
  let g := pruneStale equals .release (← record.item "id") .BY .artist .id
    (← keepIds (← record.get "artists")) g
  let g := pruneStale equals .release (← record.item "id") .ON .label .id
    (← keepIds (← record.get "labels")) g
  let g := pruneStale equals .release (← record.item "id") .DERIVED_FROM .master .id
    (keepMaster masterId) g
  let g := pruneStale equals .release (← record.item "id") .IS .genre .name
    (← keepNames (← record.get "genres")) g
  return pruneStale equals .release (← record.item "id") .IS .style .name
    (← keepNames (← record.get "styles")) g

variable {equals} {g : StoredGraph V E} {record : PruneRecord} {p q : E → Bool}

/-- One deletion after another. -/
theorem deleteWhere_deleteWhere :
    deleteWhere p (deleteWhere q g) = deleteWhere (fun e => q e || p e) g := by
  simp only [deleteWhere, List.filter_filter]
  congr 2
  funext e
  cases p e <;> cases q e <;> rfl

theorem unasserted_eq_true {relType : Rel} {targetLabel : Label} {targetKey : NodeKey}
    {keep : List PyValue} {e : E} :
    unasserted equals g relType targetLabel targetKey keep e = some true ↔
      g.type e = relType ∧ targetLabel ∈ g.labels (g.dst e) ∧
        isIn equals (g.property targetKey (g.dst e)) keep = some false := by
  simp only [unasserted, and_eq_true, not_eq_true, Option.some.injEq, decide_eq_true_eq]

/-- A prune after a deletion, as one deletion: what is stale does not depend on other edges. -/
theorem pruneStale_deleteWhere {nodeLabel : Label} {nodeId : PyValue} {relType : Rel}
    {targetLabel : Label} {targetKey : NodeKey} {keep : List PyValue} :
    pruneStale equals nodeLabel nodeId relType targetLabel targetKey keep (deleteWhere p g) =
      deleteWhere (fun e => p e || (matchesNode equals g nodeLabel nodeId (g.src e) &&
        unasserted equals g relType targetLabel targetKey keep e == some true)) g :=
  deleteWhere_deleteWhere

/-- **The merged statement for one record is the five separate ones.** -/
theorem pruneMergedOne_eq (equals : PyValue → PyValue → Truth) (record : PruneRecord)
    (g : StoredGraph V E) : pruneMergedOne equals record g =
      (g |> pruneStale equals .release record.key .BY .artist .id record.artists
        |> pruneStale equals .release record.key .ON .label .id record.labels
        |> pruneStale equals .release record.key .DERIVED_FROM .master .id record.masters
        |> pruneStale equals .release record.key .IS .genre .name record.genres
        |> pruneStale equals .release record.key .IS .style .name record.styles) := by
  conv_rhs => arg 8; arg 8; arg 8; arg 8; unfold pruneStale
  simp only [pruneStale_deleteWhere]
  refine congrArg (deleteWhere · g) (funext fun e => Bool.eq_iff_iff.mpr ?_)
  simp only [pruneCondition, Bool.and_eq_true, Bool.or_eq_true, beq_iff_eq, decide_eq_true_eq,
    or_eq_true, and_assoc, ← and_or_left, or_assoc]
  refine and_congr_right fun _ => and_iff_right_of_imp fun stale => ?_
  -- A disjunct that is true names its type of edge.
  rcases stale with stale | stale | stale | stale | stale <;>
    simp [(unasserted_eq_true.mp stale).1]

/-- The five prunes of a record are the merged statement on its lists, or raise as they do. -/
theorem pruneSeparately_eq (record : PyValue) (g : StoredGraph V E) :
    pruneSeparately equals record g =
      (pruneMergedOne equals · g) <$> releasePruneRecord record := by
  simp only [pruneSeparately, releasePruneRecord, pruneMergedOne_eq, map_bind, map_pure]
  refine bind_congr fun masterId => ?_
  -- The separate prunes read the id again, and read it alike.
  cases record.item "id" with
  | error _ => rfl
  | ok key =>
    simp only [show (Except.ok key : Except PyError PyValue) = pure key from rfl, pure_bind]

/-- **Merging the prunes changes nothing**: the prunes of the records one after another delete what
the merged statement deletes, and raise where its lists cannot be built. -/
theorem release_prunes_agree (equals : PyValue → PyValue → Truth) (records : List PyValue)
    (g : StoredGraph V E) :
    records.foldlM (fun g record => pruneSeparately equals record g) g =
      (pruneMerged equals · g) <$> records.mapM releasePruneRecord := by
  induction records generalizing g with
  | nil => rfl
  | cons record records ih =>
    simp only [List.foldlM_cons, List.mapM_cons, ih, map_bind, map_pure]
    rw [pruneSeparately_eq, bind_map_left]
    refine bind_congr fun row => ?_
    rw [← bind_pure_comp]
    rfl

end Statements

end Graphinator
