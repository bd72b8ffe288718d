import Graphinator.Lib.Machine
import Graphinator.WritePaths

/-!
# Stub cleanup

A projection creates nodes for the entities its record refers to. Those whose own record never came
are stubs, and the cleanup after an import deletes the stubs that nothing refers to any more. Each
label is swept by one query, which deletes in chunks: a chunk is committed while the query still
reads the nodes to come. Where a chunk is too much for a transaction, the query fails, what it has
committed stays, and it is run again with smaller chunks.

The machine runs the cleanup of the four labels. An action names what the environment decides: the
order in which a query reads the nodes, when it deletes the chunk it holds, and where it fails.

## Main definitions

* `IsolatedStub`, `Collected` : the condition of the query, and the nodes of the four labels that
  satisfy it.
* `Cleanup`, `cleanupMachine` : the runs of `cleanup_all_stub_nodes`.

## Main results

* `isolatedStub_detachDelete` : deleting stubs neither makes nor unmakes a stub.
* `Cleanup.Inv.step` : what each action keeps.
* `stub_cleanup_exact` : what a cleanup has deleted, at any point and at its end.
-/

namespace Graphinator

open PropertyGraph

/-! ### Stubs -/

/-- `n.sha256 IS NULL AND NOT EXISTS { (n)-[e]-() WHERE NOT e:HAS_STYLE }`. -/
def IsolatedStub (g : Graph) (v : Node) : Prop :=
  prop g v "sha256" = .null ∧
    ∀ e ∈ g.edges.keys, e.arc.src = v ∨ e.arc.dst = v → e.arc.kind = .HAS_STYLE

instance (g : Graph) : DecidablePred (IsolatedStub g) := fun _ =>
  inferInstanceAs (Decidable (_ ∧ ∀ e ∈ g.edges.keys, _ → _))

/-- The nodes that a cleanup collects: isolated stubs of one of the four labels. -/
def Collected (g : Graph) (v : Node) : Prop :=
  (∃ t ∈ dataTypes, v.label = t.nodeLabel) ∧ IsolatedStub g v

instance (g : Graph) : DecidablePred (Collected g) := fun v =>
  inferInstanceAs (Decidable ((∃ t ∈ dataTypes, v.label = t.nodeLabel) ∧ IsolatedStub g v))

section Stubs

variable {g : Graph} {deleted : Finset Node} {v : Node}

/-- An edge that is no HAS_STYLE edge has no stub at its ends. -/
theorem notMem_of_kind {e : Edge Node Rel} (hdeleted : ∀ w ∈ deleted, IsolatedStub g w)
    (he : e ∈ g.edges) (hkind : e.arc.kind ≠ .HAS_STYLE) :
    e.arc.src ∉ deleted ∧ e.arc.dst ∉ deleted :=
  ⟨fun h => hkind ((hdeleted _ h).2 e he (Or.inl rfl)),
    fun h => hkind ((hdeleted _ h).2 e he (Or.inr rfl))⟩

/-- **Deleting stubs neither makes nor unmakes a stub**: it deletes HAS_STYLE edges only. -/
theorem isolatedStub_detachDelete (hdeleted : ∀ w ∈ deleted, IsolatedStub g w) :
    IsolatedStub (g.detachDelete (· ∈ deleted)) v ↔ IsolatedStub g v := by
  constructor
  · rintro ⟨hsha, hedges⟩
    by_cases hv : v ∈ deleted
    · exact hdeleted v hv
    refine ⟨?_, fun e he hend => ?_⟩
    · rwa [prop, row_nodes_detachDelete, if_neg hv] at hsha
    · by_contra hkind
      exact hkind (hedges e (mem_edges_detachDelete.mpr ⟨he, notMem_of_kind hdeleted he hkind⟩) hend)
  · rintro ⟨hsha, hedges⟩
    refine ⟨?_, fun e he hend => hedges e (mem_edges_detachDelete.mp he).1 hend⟩
    rw [prop, row_nodes_detachDelete]
    split_ifs
    · rfl
    · exact hsha

theorem collected_detachDelete (hdeleted : ∀ w ∈ deleted, Collected g w) :
    Collected (g.detachDelete (· ∈ deleted)) v ↔ Collected g v :=
  and_congr_right fun _ => isolatedStub_detachDelete fun w hw => (hdeleted w hw).2

end Stubs

/-! ### The machine -/

/-- `STUB_CLEANUP_BATCH_SIZE`. -/
def stubCleanupBatchSize : ℕ := 1000

/-- `MAINTENANCE_MIN_BATCH_SIZE`. -/
def maintenanceMinBatchSize : ℕ := 50

/-- `MAINTENANCE_MAX_ATTEMPTS`. -/
def maintenanceMaxAttempts : ℕ := 4

/-- `MATCH (n:Label)`: every node of the label, in some order. -/
def IsScan (g : Graph) (nodeLabel : Label) (scan : List Node) : Prop :=
  scan.Nodup ∧ scan.toFinset = g.nodes.keys.filter (·.label = nodeLabel)

instance (g : Graph) (nodeLabel : Label) (scan : List Node) :
    Decidable (IsScan g nodeLabel scan) := inferInstanceAs (Decidable (_ ∧ _))

theorem IsScan.mem_iff {g : Graph} {nodeLabel : Label} {scan : List Node} (h : IsScan g nodeLabel scan)
    {v : Node} : v ∈ scan ↔ v ∈ g.nodes ∧ v.label = nodeLabel := by
  rw [← List.mem_toFinset, h.2, Finset.mem_filter]
  exact Iff.rfl

/-- A cleanup query while it runs. -/
structure CleanupQuery where
  dataType : DataType
  attempt : ℕ
  size : ℕ
  /-- The nodes of the label that it has yet to read. -/
  unread : List Node
  /-- The rows that it has read and not deleted. -/
  rows : List Node := []

/-- Where the cleanup is suspended. -/
inductive CleanupPc
  /-- Between two labels, or at the end. -/
  | between
  | running (query : CleanupQuery)
  /-- Before the next attempt. -/
  | sleeping (dataType : DataType) (attempt size : ℕ)

/-- The type whose label is being cleaned up. -/
def CleanupPc.dataType? : CleanupPc → Option DataType
  | .between => none
  | .running query => some query.dataType
  | .sleeping t _ _ => some t

theorem CleanupPc.dataType?_eq_none {pc : CleanupPc} : pc.dataType? = none ↔ pc = .between := by
  cases pc <;> simp [CleanupPc.dataType?]

/-- A run of `cleanup_all_stub_nodes`. -/
structure Cleanup where
  graph : Graph
  /-- The types whose cleanup is still to come. -/
  rest : List DataType
  ok : Bool := true
  pc : CleanupPc := .between

/-- The steps of a cleanup. -/
inductive CleanupAction
  /-- The query of the next label starts, or the next attempt at one. -/
  | start (scan : List Node)
  /-- It reads the next node. -/
  | read
  /-- It deletes a chunk, and commits. -/
  | commit
  | complete
  /-- It fails with a TransientError. -/
  | transient
  /-- It fails with another error. -/
  | fail

namespace Cleanup

/-- The query of a label starts. -/
def startQuery (s : Cleanup) (rest : List DataType) (t : DataType) (attempt size : ℕ)
    (scan : List Node) : Option Cleanup :=
  if IsScan s.graph t.nodeLabel scan then
    some { s with rest, pc := .running { dataType := t, attempt, size, unread := scan } }
  else none

/-- One step of `cleanup_all_stub_nodes`, with `cleanup_stub_nodes` and `_run_maintenance_query`
inside it. -/
def step (batchSize minBatchSize maxAttempts : ℕ) (s : Cleanup) : CleanupAction → Option Cleanup
  | .start scan => match s.pc, s.rest with
    | .between, t :: rest => s.startQuery rest t 1 batchSize scan
    | .sleeping t attempt size, rest => s.startQuery rest t attempt size scan
    | _, _ => none
  | .read => match s.pc with
    | .running query => match query.unread with
      | v :: unread =>
        let rows := if IsolatedStub s.graph v then query.rows ++ [v] else query.rows
        some { s with pc := .running { query with unread, rows } }
      | [] => none
    | _ => none
  | .commit => match s.pc with
    | .running query =>
      -- a chunk is full, or it is the last one
      if query.rows ≠ [] ∧ (query.size ≤ query.rows.length ∨ query.unread = []) then
        some { s with
          graph := s.graph.detachDelete (· ∈ (query.rows.take query.size).toFinset)
          pc := .running { query with rows := query.rows.drop query.size } }
      else none
    | _ => none
  | .complete => match s.pc with
    | .running query =>
      if query.unread = [] ∧ query.rows = [] then some { s with pc := .between } else none
    | _ => none
  | .transient => match s.pc with
    | .running query =>
      if query.attempt = maxAttempts then
        some { s with ok := false, pc := .between }
      else
        let size := max minBatchSize (query.size / 2)
        some { s with pc := .sleeping query.dataType (query.attempt + 1) size }
    | _ => none
  | .fail => match s.pc with
    | .running _ => some { s with ok := false, pc := .between }
    | _ => none

/-- The cleanup has returned. -/
def Returned (s : Cleanup) : Prop := s.pc = .between ∧ s.rest = []

end Cleanup

/-- The cleanups of a graph, of the four labels in any order. -/
def cleanupMachine (batchSize minBatchSize maxAttempts : ℕ) (g : Graph) :
    Machine Cleanup CleanupAction where
  init s := s.graph = g ∧ s.rest.Perm dataTypes ∧ s.ok = true ∧ s.pc = .between
  step := Cleanup.step batchSize minBatchSize maxAttempts

/-! ### What a cleanup keeps -/

namespace Cleanup

variable {g : Graph} {s s' : Cleanup} {batchSize minBatchSize maxAttempts : ℕ}

/-- The graph lacks some nodes that are collected, and nothing else. -/
def Lacks (g g' : Graph) : Prop :=
  ∃ deleted : Finset Node, (∀ v ∈ deleted, Collected g v) ∧ g' = g.detachDelete (· ∈ deleted)

/-- What a query knows: its rows are to be collected, and it reads the others. -/
structure QueryInv (g g' : Graph) (query : CleanupQuery) : Prop where
  rows : ∀ v ∈ query.rows, Collected g v
  label : ∀ v ∈ query.unread, v.label = query.dataType.nodeLabel
  rest : ∀ v ∈ g'.nodes, Collected g v → v.label = query.dataType.nodeLabel →
    v ∈ query.unread ∨ v ∈ query.rows

/-- The invariant of a cleanup of `g`. -/
structure Inv (g : Graph) (s : Cleanup) : Prop where
  lacks : Lacks g s.graph
  query : ∀ query, s.pc = .running query → QueryInv g s.graph query
  /-- While nothing has failed, what is left to collect has a label that is still to come. -/
  left : s.ok = true → ∀ v ∈ s.graph.nodes, Collected g v →
    ∃ t, (t ∈ s.rest ∨ s.pc.dataType? = some t) ∧ v.label = t.nodeLabel

theorem Lacks.collected {g' : Graph} (h : Lacks g g') {v : Node} : Collected g' v ↔ Collected g v := by
  obtain ⟨deleted, hdeleted, rfl⟩ := h
  exact collected_detachDelete hdeleted

theorem Lacks.isolatedStub {g' : Graph} (h : Lacks g g') {v : Node} :
    IsolatedStub g' v ↔ IsolatedStub g v := by
  obtain ⟨deleted, hdeleted, rfl⟩ := h
  exact isolatedStub_detachDelete fun w hw => (hdeleted w hw).2

/-- A chunk more. -/
theorem Lacks.delete {g' : Graph} (h : Lacks g g') {chunk : Finset Node}
    (hchunk : ∀ v ∈ chunk, Collected g v) : Lacks g (g'.detachDelete (· ∈ chunk)) := by
  obtain ⟨deleted, hdeleted, rfl⟩ := h
  refine ⟨deleted ∪ chunk, fun v hv => ?_, ?_⟩
  · rcases Finset.mem_union.mp hv with hv | hv
    · exact hdeleted v hv
    · exact hchunk v hv
  · rw [detachDelete_detachDelete]
    exact detachDelete_congr fun v _ => Finset.mem_union.symm

/-- The query of a label starts. -/
theorem Inv.startQuery {rest : List DataType} {t : DataType} {attempt size : ℕ} {scan : List Node}
    (h : Inv g s) (hs : s.startQuery rest t attempt size scan = some s')
    (hleft : ∀ t', t' ∈ s.rest ∨ s.pc.dataType? = some t' → t' ∈ rest ∨ t' = t) : Inv g s' := by
  simp only [Cleanup.startQuery] at hs
  split_ifs at hs with hscan
  cases hs
  refine ⟨h.lacks, fun query hquery => ?_, fun hok v hv hcollected => ?_⟩
  · cases hquery
    refine ⟨nofun, fun v hv => (hscan.mem_iff.mp hv).2, fun v hv _ hlabel => ?_⟩
    exact Or.inl (hscan.mem_iff.mpr ⟨hv, hlabel⟩)
  · obtain ⟨t', ht', hlabel⟩ := h.left hok v hv hcollected
    refine ⟨t', ?_, hlabel⟩
    rcases hleft t' ht' with ht' | rfl
    · exact Or.inl ht'
    · exact Or.inr rfl

/-- It reads a node. -/
theorem QueryInv.read {g' : Graph} {query : CleanupQuery} {v : Node} {unread : List Node}
    (h : QueryInv g g' query) (hlacks : Lacks g g') (hunread : query.unread = v :: unread) :
    QueryInv g g' { query with
      unread, rows := if IsolatedStub g' v then query.rows ++ [v] else query.rows } := by
  have hcollected : IsolatedStub g' v ↔ Collected g v := by
    rw [hlacks.isolatedStub]
    exact ⟨fun hstub => ⟨⟨query.dataType, mem_dataTypes _, h.label v (by simp [hunread])⟩, hstub⟩,
      fun hstub => hstub.2⟩
  refine ⟨fun w hw => ?_, fun w hw => h.label w ?_, fun w hw hw' hlabel => ?_⟩
  · by_cases hstub : IsolatedStub g' v
    · rw [if_pos hstub, List.mem_append, List.mem_singleton] at hw
      rcases hw with hw | rfl
      · exact h.rows w hw
      · exact hcollected.mp hstub
    · rw [if_neg hstub] at hw
      exact h.rows w hw
  · rw [hunread]
    exact List.mem_cons_of_mem _ hw
  · rcases h.rest w hw hw' hlabel with hmem | hmem
    · rw [hunread] at hmem
      rcases List.mem_cons.mp hmem with rfl | hmem
      · right
        simp [hcollected.mpr hw']
      · exact Or.inl hmem
    · right
      split_ifs
      · exact List.mem_append_left _ hmem
      · exact hmem

/-- It deletes a chunk. -/
theorem QueryInv.commit {g' : Graph} {query : CleanupQuery} (h : QueryInv g g' query) (n : ℕ) :
    QueryInv g (g'.detachDelete (· ∈ (query.rows.take n).toFinset))
      { query with rows := query.rows.drop n } := by
  refine ⟨fun w hw => h.rows w (List.mem_of_mem_drop hw), h.label, fun w hw hw' hlabel => ?_⟩
  obtain ⟨hw, hkept⟩ := mem_nodes_detachDelete.mp hw
  refine (h.rest w hw hw' hlabel).imp_right fun hmem => ?_
  rw [← List.take_append_drop n query.rows] at hmem
  rcases List.mem_append.mp hmem with hmem | hmem
  · exact absurd (List.mem_toFinset.mpr hmem) hkept
  · exact hmem

/-- **What each action keeps.** -/
theorem Inv.step {a : CleanupAction} (h : Inv g s)
    (hs : s.step batchSize minBatchSize maxAttempts a = some s') : Inv g s' := by
  cases a with
  | start scan =>
    simp only [Cleanup.step] at hs
    split at hs
    · next t rest hpc hrest =>
      refine h.startQuery hs fun t' ht' => ?_
      rw [hpc, hrest] at ht'
      simpa [CleanupPc.dataType?, or_comm] using ht'
    · next t attempt size rest hpc =>
      refine h.startQuery hs fun t' ht' => ?_
      rw [hpc] at ht'
      simpa [CleanupPc.dataType?, eq_comm] using ht'
    · cases hs
  | read =>
    simp only [Cleanup.step] at hs
    split at hs
    · next query hpc =>
      split at hs
      · next v unread hunread =>
        cases hs
        refine ⟨h.lacks, fun query' hquery => ?_, fun hok v hv hcollected => ?_⟩
        · cases hquery
          exact (h.query query hpc).read h.lacks hunread
        · obtain ⟨t, ht, hlabel⟩ := h.left hok v hv hcollected
          rw [hpc] at ht
          exact ⟨t, ht, hlabel⟩
      · cases hs
    · cases hs
  | commit =>
    simp only [Cleanup.step] at hs
    split at hs
    · next query hpc =>
      split_ifs at hs
      cases hs
      have hquery := h.query query hpc
      refine ⟨h.lacks.delete fun v hv => ?_, fun query' hquery' => ?_, fun hok v hv hcollected => ?_⟩
      · exact hquery.rows v (List.mem_of_mem_take (List.mem_toFinset.mp hv))
      · cases hquery'
        exact hquery.commit query.size
      · obtain ⟨t, ht, hlabel⟩ := h.left hok v (mem_nodes_detachDelete.mp hv).1 hcollected
        rw [hpc] at ht
        exact ⟨t, ht, hlabel⟩
    · cases hs
  | complete =>
    simp only [Cleanup.step] at hs
    split at hs
    · next query hpc =>
      split_ifs at hs with hdone
      cases hs
      refine ⟨h.lacks, by rintro _ ⟨⟩, fun hok v hv hcollected => ?_⟩
      obtain ⟨t, ht, hlabel⟩ := h.left hok v hv hcollected
      rcases ht with ht | ht
      · exact ⟨t, Or.inl ht, hlabel⟩
      · -- the query has read the nodes of its label and deleted its rows
        rw [hpc] at ht
        obtain rfl : query.dataType = t := Option.some.inj ht
        rcases (h.query query hpc).rest v hv hcollected hlabel with hmem | hmem
        · rw [hdone.1] at hmem
          exact absurd hmem List.not_mem_nil
        · rw [hdone.2] at hmem
          exact absurd hmem List.not_mem_nil
    · cases hs
  | transient =>
    simp only [Cleanup.step] at hs
    split at hs
    · next query hpc =>
      split_ifs at hs
      · cases hs
        exact ⟨h.lacks, by rintro _ ⟨⟩, by rintro ⟨⟩⟩
      · cases hs
        refine ⟨h.lacks, by rintro _ ⟨⟩, fun hok v hv hcollected => ?_⟩
        obtain ⟨t, ht, hlabel⟩ := h.left hok v hv hcollected
        rw [hpc] at ht
        exact ⟨t, ht, hlabel⟩
    · cases hs
  | fail =>
    simp only [Cleanup.step] at hs
    split at hs
    · cases hs
      exact ⟨h.lacks, by rintro _ ⟨⟩, by rintro ⟨⟩⟩
    · cases hs

theorem Inv.init (h : (cleanupMachine batchSize minBatchSize maxAttempts g).init s) : Inv g s := by
  obtain ⟨rfl, hrest, -, hpc⟩ := h
  refine ⟨⟨∅, nofun, (detachDelete_of_forall_not (by simp)).symm⟩, fun query hquery => ?_,
    fun _ v _ hcollected => ?_⟩
  · rw [hpc] at hquery
    cases hquery
  · obtain ⟨⟨t, ht, hlabel⟩, -⟩ := hcollected
    exact ⟨t, Or.inl (hrest.mem_iff.mpr ht), hlabel⟩

theorem Inv.reachable (h : (cleanupMachine batchSize minBatchSize maxAttempts g).Reachable s) :
    Inv g s :=
  h.invariant (I := Inv g) (fun _ => Inv.init) fun _ _ _ _ => Inv.step

/-- A cleanup that returns without a failure has deleted every node that it collects. -/
theorem Inv.complete (h : Inv g s) (hreturned : s.Returned) (hok : s.ok = true) :
    s.graph = g.detachDelete (Collected g) := by
  obtain ⟨deleted, hdeleted, hgraph⟩ := h.lacks
  rw [hgraph]
  refine detachDelete_congr fun v hv => ⟨hdeleted v, fun hcollected => ?_⟩
  by_contra hkept
  have hleft : v ∈ s.graph.nodes := by
    rw [hgraph]
    exact mem_nodes_detachDelete.mpr ⟨hv, hkept⟩
  obtain ⟨t, ht, -⟩ := h.left hok v hleft hcollected
  rw [hreturned.1, hreturned.2] at ht
  simp [CleanupPc.dataType?] at ht

end Cleanup

/-! ### Cleanups -/

/-- A node with a sha256 or an edge of another type. -/
def Held (g : Graph) (v : Node) : Prop :=
  prop g v "sha256" ≠ .null ∨
    ∃ e ∈ g.edges, (e.arc.src = v ∨ e.arc.dst = v) ∧ e.arc.kind ≠ .HAS_STYLE

theorem held_iff {g : Graph} {v : Node} : Held g v ↔ ¬IsolatedStub g v := by
  simp only [Held, IsolatedStub, not_and_or, not_forall, exists_prop]
  rfl

/-- The part of a graph that a cleanup leaves alone: the nodes that are held or of another label, and
the edges of other types. -/
def Spares (g g' : Graph) : Prop :=
  (∀ v ∈ g.nodes, Held g v ∨ (∀ t : DataType, v.label ≠ t.nodeLabel) →
    v ∈ g'.nodes ∧ g'.nodes.row v = g.nodes.row v) ∧
  ∀ e ∈ g.edges, e.arc.kind ≠ .HAS_STYLE → e ∈ g'.edges ∧ g'.edges.row e = g.edges.row e

theorem Cleanup.Lacks.spares {g g' : Graph} (h : Cleanup.Lacks g g') : Spares g g' := by
  obtain ⟨deleted, hdeleted, rfl⟩ := h
  refine ⟨fun v hv hkept => ?_, fun e he hkind => ?_⟩
  · have hv' : v ∉ deleted := by
      intro hmem
      obtain ⟨⟨t, -, hlabel⟩, hstub⟩ := hdeleted v hmem
      rcases hkept with hheld | hother
      · exact held_iff.mp hheld hstub
      · exact hother t hlabel
    exact ⟨mem_nodes_detachDelete.mpr ⟨hv, hv'⟩, by rw [row_nodes_detachDelete, if_neg hv']⟩
  · have hends := notMem_of_kind (fun w hw => (hdeleted w hw).2) he hkind
    exact ⟨mem_edges_detachDelete.mpr ⟨he, hends⟩, by rw [row_edges_detachDelete, if_pos hends]⟩

/-- **Stub cleanup.** At every point of a cleanup the graph lacks some isolated stubs with their
HAS_STYLE edges, and nothing else. Once it has returned without a failure it lacks all of them, and
another cleanup deletes nothing. -/
theorem stub_cleanup_exact {batchSize minBatchSize maxAttempts : ℕ} {g : Graph} {s : Cleanup}
    (h : (cleanupMachine batchSize minBatchSize maxAttempts g).Reachable s) :
    Cleanup.Lacks g s.graph ∧ Spares g s.graph ∧
      (s.Returned → s.ok = true → s.graph = g.detachDelete (Collected g) ∧
        ∀ batchSize' minBatchSize' maxAttempts' s',
          (cleanupMachine batchSize' minBatchSize' maxAttempts' s.graph).Reachable s' →
            s'.graph = s.graph) := by
  have hinv := Cleanup.Inv.reachable h
  refine ⟨hinv.lacks, hinv.lacks.spares, fun hreturned hok => ?_⟩
  have hgraph := hinv.complete hreturned hok
  refine ⟨hgraph, fun _ _ _ s' h' => ?_⟩
  obtain ⟨deleted, hdeleted, hgraph'⟩ := (Cleanup.Inv.reachable h').lacks
  rw [hgraph']
  refine detachDelete_of_forall_not fun v hv hmem => ?_
  have hcollected : Collected g v := hinv.lacks.collected.mp (hdeleted v hmem)
  rw [hgraph] at hv
  exact (mem_nodes_detachDelete.mp hv).2 hcollected

/-- An artist that nothing refers to, a label with a style, and an artist of a release. -/
def stubGraph : Graph :=
  (∅ : Graph) |> mergeNode (.artist (.str "9")) id
    |> mergeEdge ⟨.HAS_STYLE, .ofLabel (.str "5"), .style (.str "Dub")⟩ id
    |> mergeEdge ⟨.BY, .release (.str "1"), .artist (.str "2")⟩ id

/-- A cleanup of this graph in chunks of one row, whose first query fails. -/
def stubGraphCleanup : List CleanupAction :=
  [.start [.artist (.str "9"), .artist (.str "2")], .read, .transient,
    .start [.artist (.str "2"), .artist (.str "9")], .read, .read, .commit, .complete,
    .start [.ofLabel (.str "5")], .read, .commit, .complete, .start [], .complete,
    .start [.release (.str "1")], .read, .complete]

theorem stub_cleanup_exact_stubGraph :
    ∃ s : Cleanup, s.graph = stubGraph.detachDelete (Collected stubGraph) ∧
      .artist (.str "2") ∈ s.graph.nodes ∧ .artist (.str "9") ∉ s.graph.nodes := by
  have hrun : ((cleanupMachine 1 1 4 stubGraph).exec (fun _ _ => true)
      { graph := stubGraph, rest := dataTypes } stubGraphCleanup).map
        (fun s => (s.pc.dataType?, s.rest, s.ok)) = some (none, [], true) := by decide +kernel
  obtain ⟨s, hexec, hend⟩ := Option.map_eq_some_iff.mp hrun
  simp only [Prod.mk.injEq] at hend
  obtain ⟨hpc, hrest, hok⟩ := hend
  have hreachable : (cleanupMachine 1 1 4 stubGraph).Reachable s :=
    ⟨_, ⟨rfl, .refl _, rfl, rfl⟩, Machine.steps_of_exec (fun _ _ _ => trivial) hexec⟩
  have hgraph := ((stub_cleanup_exact hreachable).2.2
    ⟨CleanupPc.dataType?_eq_none.mp hpc, hrest⟩ hok).1
  refine ⟨s, hgraph, ?_, ?_⟩ <;> rw [hgraph] <;> decide +kernel

end Graphinator
