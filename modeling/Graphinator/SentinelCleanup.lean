import Graphinator.CatalogSchema
import Graphinator.Lib.ChunkedDeletion

/-!
# The cleanup of the sentinel master

A graph that was loaded before the projections knew the sentinel has one master with the id 0, and
every release without a master points at it. The cleanup deletes the edges first, in chunks, and
then the node, so that no transaction has to detach a node with millions of edges.

## Main definitions

* `sentinelEdges`, `sentinelNode` : the two queries as deletions.
* `SentinelCleanup` : the runs of `cleanup_sentinel_master`.

## Main results

* `SentinelCleanup.upkeep` : what a run does is upkeep.
* `sentinel_cleanup_exact` : what a run has deleted, at any point and at its end, in transactions of
  bounded size.
-/

namespace Graphinator

open PropertyGraph

/-! ### The two queries -/

/-- `MATCH (:Master {id: '0'})-[rel]-()`, and `DELETE rel`. -/
def sentinelEdges : Deletion Graph (Edge Node Rel) where
  matched g := g.edges.keys.filter fun e => AtSentinel e.arc
  delete c := deleteEdges (· ∈ c)
  matched_delete c g := by
    ext e
    have hmem : e ∈ (g.deleteEdges (· ∈ c)).edges.keys ↔ e ∈ g.edges.keys ∧ e ∉ c :=
      mem_edges_deleteEdges
    rw [Finset.mem_filter, Finset.mem_sdiff, Finset.mem_filter, hmem]
    exact and_right_comm
  delete_empty g := ext_cells (fun _ => Iff.rfl) (fun _ => rfl) (fun e => by simp) fun e => by simp
  delete_delete c c' g := by
    rw [deleteEdges_deleteEdges]
    exact deleteEdges_congr fun e => Finset.mem_union.symm

/-- `MATCH (m:Master {id: '0'})`, and `DETACH DELETE m`. -/
def sentinelNode : Deletion Graph Node where
  matched g := g.nodes.keys.filter (· = sentinelMaster)
  delete c := detachDelete (· ∈ c)
  matched_delete c g := by
    ext v
    have hmem : v ∈ (g.detachDelete (· ∈ c)).nodes.keys ↔ v ∈ g.nodes.keys ∧ v ∉ c :=
      mem_nodes_detachDelete
    rw [Finset.mem_filter, Finset.mem_sdiff, Finset.mem_filter, hmem]
    exact and_right_comm
  delete_empty g := detachDelete_of_forall_not fun v _ => Finset.notMem_empty v
  delete_delete c c' g := by
    rw [detachDelete_detachDelete]
    exact detachDelete_congr fun v _ => Finset.mem_union.symm

section Queries

variable {g : Graph}

theorem mem_matched_sentinelEdges {e : Edge Node Rel} :
    e ∈ sentinelEdges.matched g ↔ e ∈ g.edges ∧ AtSentinel e.arc := Finset.mem_filter

/-- Deleting matched edges is a chunk of the cleanup. -/
theorem delete_sentinelEdges {c : Finset (Edge Node Rel)} (hc : c ⊆ sentinelEdges.matched g) :
    sentinelEdges.delete c g = deleteSentinelEdges c g :=
  deleteEdges_congr fun _ => ⟨fun h => ⟨h, (mem_matched_sentinelEdges.mp (hc h)).2⟩, And.left⟩

theorem delete_sentinelNode : sentinelNode.delete (sentinelNode.matched g) g =
    deleteSentinelMaster g := by
  refine detachDelete_congr fun v hv => ?_
  rw [sentinelNode, Finset.mem_filter]
  exact and_iff_right hv

theorem not_atSentinel_of_matched (h : sentinelEdges.matched g = ∅) :
    ∀ e ∈ g.edges, ¬AtSentinel e.arc := by
  intro e he hsentinel
  have hmem := mem_matched_sentinelEdges.mpr ⟨he, hsentinel⟩
  rw [h] at hmem
  exact Finset.notMem_empty e hmem

/-- The sentinel goes with its edges, or after them. -/
theorem deleteSentinelMaster_delete :
    deleteSentinelMaster (sentinelEdges.delete (sentinelEdges.matched g) g) =
      deleteSentinelMaster g := by
  refine ext_cells (fun v => Iff.rfl) (fun v => rfl) (fun e => ?_) fun e => ?_
  · change e ∈ ((g.deleteEdges _).detachDelete _).edges ↔ e ∈ (g.detachDelete _).edges
    rw [mem_edges_detachDelete, mem_edges_detachDelete, mem_edges_deleteEdges]
    refine ⟨fun h => ⟨h.1.1, h.2⟩, fun h => ⟨⟨h.1, fun hmem => ?_⟩, h.2⟩⟩
    exact (mem_matched_sentinelEdges.mp hmem).2.elim h.2.1 h.2.2
  · change ((g.deleteEdges _).detachDelete _).edges.row e = (g.detachDelete _).edges.row e
    rw [row_edges_detachDelete, row_edges_detachDelete, row_edges_deleteEdges]
    refine ite_congr rfl (fun hends => if_neg fun hmem => ?_) fun _ => rfl
    exact (mem_matched_sentinelEdges.mp hmem).2.elim hends.1 hends.2

end Queries

/-! ### Runs -/

/-- `MAINTENANCE_MIN_BATCH_SIZE` and `STUB_CLEANUP_BATCH_SIZE` as chunk sizes. -/
def minChunk : ℕ+ := ⟨maintenanceMinBatchSize, by decide⟩

def sentinelChunk : ℕ+ := ⟨stubCleanupBatchSize, by decide⟩

/-- `_run_maintenance_query` with the query of the edges. -/
def edgeCleanup (g : Graph) :
    Machine (Deletion.Run Graph (Edge Node Rel)) (Deletion.Action (Edge Node Rel)) :=
  sentinelEdges.machine minChunk maintenanceMaxAttempts (some sentinelChunk) g

/-- `_run_maintenance_query` with the query of the node, which has no chunks. -/
def nodeCleanup (g : Graph) : Machine (Deletion.Run Graph Node) (Deletion.Action Node) :=
  sentinelNode.machine minChunk maintenanceMaxAttempts none g

/-- What an attempt has returned so far. -/
def result {ι : Type} : Deletion.Pc ι → Option Bool
  | .returned ok => some ok
  | _ => none

/-- The runs of `cleanup_sentinel_master` over `g`, with the graph that they have reached and what
they have returned. -/
inductive SentinelCleanup (g : Graph) : Graph → Option Bool → Prop
  | edges {r : Deletion.Run Graph (Edge Node Rel)} (h : (edgeCleanup g).Reachable r)
    (hpc : r.pc ≠ .returned true) : SentinelCleanup g r.store (result r.pc)
  | node {r : Deletion.Run Graph (Edge Node Rel)} {r' : Deletion.Run Graph Node}
    (h : (edgeCleanup g).Reachable r) (hpc : r.pc = .returned true)
    (h' : (nodeCleanup r.store).Reachable r') : SentinelCleanup g r'.store (result r'.pc)

section Cleanup

variable {g g' : Graph} {r : Deletion.Run Graph (Edge Node Rel)} {r' : Deletion.Run Graph Node}

/-- The edges that a run of the first query has deleted. -/
theorem edgeCleanup_lacks (h : (edgeCleanup g).Reachable r) :
    ∃ chunk ⊆ sentinelEdges.matched g, r.store = deleteSentinelEdges chunk g := by
  obtain ⟨⟨c, hc, hstore⟩, -⟩ := Deletion.reachable_lacks h
  exact ⟨c, hc, hstore.trans (delete_sentinelEdges hc)⟩

/-- The node has no edges when the second query starts. -/
theorem edgeCleanup_done (h : (edgeCleanup g).Reachable r) (hpc : r.pc = .returned true) :
    r.store = sentinelEdges.delete (sentinelEdges.matched g) g ∧
      ∀ e ∈ r.store.edges, ¬AtSentinel e.arc :=
  ⟨(Deletion.reachable_lacks h).2 hpc,
    not_atSentinel_of_matched ((Deletion.Inv.reachable h).done hpc)⟩

/-- The second query has deleted the node, or nothing. -/
theorem nodeCleanup_lacks (h : (nodeCleanup g).Reachable r') :
    (r'.store = g ∨ r'.store = deleteSentinelMaster g) ∧
      (r'.pc = .returned true → r'.store = deleteSentinelMaster g) := by
  obtain ⟨⟨c, hc, hstore⟩, hdone⟩ := Deletion.reachable_lacks h
  refine ⟨?_, fun hpc => (hdone hpc).trans delete_sentinelNode⟩
  rcases Finset.eq_empty_or_nonempty c with rfl | ⟨v, hv⟩
  · exact Or.inl (hstore.trans (sentinelNode.delete_empty g))
  · have hall : c = sentinelNode.matched g := by
      refine Finset.Subset.antisymm hc fun w hw => ?_
      have hsentinel : ∀ u ∈ sentinelNode.matched g, u = sentinelMaster :=
        fun u hu => (Finset.mem_filter.mp hu).2
      rwa [hsentinel w hw, ← hsentinel v (hc hv)]
    exact Or.inr (hstore.trans (hall ▸ delete_sentinelNode))

/-- **A transaction of the first query deletes no more edges than a chunk.** -/
theorem card_edges_le {r₁ : Deletion.Run Graph (Edge Node Rel)} {a : Deletion.Action _}
    (h : (edgeCleanup g).Reachable r) (hs : (edgeCleanup g).step r a = some r₁) :
    (r.store.edges.keys \ r₁.store.edges.keys).card ≤ stubCleanupBatchSize := by
  have hwithin : Deletion.Within sentinelChunk r.pc :=
    Deletion.Within.reachable (by decide) le_rfl h
  obtain ⟨c, hcard, hstore⟩ := Deletion.exists_delete_of_step hwithin hs
  refine (Finset.card_le_card fun e he => ?_).trans hcard
  obtain ⟨he, hgone⟩ := Finset.mem_sdiff.mp he
  by_contra hkept
  refine hgone ?_
  rw [hstore]
  exact mem_edges_deleteEdges.mpr ⟨he, hkept⟩

/-- What a run has deleted. -/
theorem SentinelCleanup.lacks {returned : Option Bool} (h : SentinelCleanup g g' returned) :
    (∃ chunk ⊆ sentinelEdges.matched g, g' = deleteSentinelEdges chunk g) ∨
      g' = deleteSentinelMaster g := by
  cases h with
  | edges h hpc => exact Or.inl (edgeCleanup_lacks h)
  | node h hpc h' =>
    obtain ⟨hdone, -⟩ := edgeCleanup_done h hpc
    rcases (nodeCleanup_lacks h').1 with hstore | hstore
    · rw [hstore]
      exact Or.inl (edgeCleanup_lacks h)
    · rw [hstore, hdone]
      exact Or.inr deleteSentinelMaster_delete

/-- Without the sentinel there is nothing to delete. -/
theorem SentinelCleanup.eq_of_notMem {returned : Option Bool} (h : SentinelCleanup g g' returned)
    (hnot : sentinelMaster ∉ g.nodes) : g' = g := by
  have hnone : sentinelEdges.matched g = ∅ := by
    refine Finset.eq_empty_of_forall_notMem fun e hmem => ?_
    obtain ⟨he, hsentinel⟩ := mem_matched_sentinelEdges.mp hmem
    rcases hsentinel with hend | hend
    · exact hnot (hend ▸ g.src_mem e he)
    · exact hnot (hend ▸ g.dst_mem e he)
  rcases h.lacks with ⟨chunk, hchunk, rfl⟩ | rfl
  · rw [hnone, Finset.subset_empty] at hchunk
    subst hchunk
    rw [← delete_sentinelEdges (Finset.empty_subset _)]
    exact sentinelEdges.delete_empty g
  · exact detachDelete_of_forall_not fun v hv heq => hnot (heq ▸ hv)

/-- **What a run does is upkeep**, in two steps. -/
theorem SentinelCleanup.upkeep {returned : Option Bool} (h : SentinelCleanup g g' returned)
    (env : Env) (allCategories : List String) :
    Relation.ReflTransGen (Upkeep env allCategories) g g' := by
  have hedges : ∀ {r : Deletion.Run Graph (Edge Node Rel)}, (edgeCleanup g).Reachable r →
      Upkeep env allCategories g r.store := by
    intro r hr
    obtain ⟨chunk, -, hstore⟩ := edgeCleanup_lacks hr
    exact hstore ▸ .sentinelEdges chunk
  cases h with
  | edges h hpc => exact .single (hedges h)
  | node h hpc h' =>
    rcases (nodeCleanup_lacks h').1 with hstore | hstore
    · rw [hstore]
      exact .single (hedges h)
    · rw [hstore]
      exact (Relation.ReflTransGen.single (hedges h)).tail .sentinelMaster

end Cleanup

theorem result_eq_true {ι : Type} {pc : Deletion.Pc ι} (h : result pc = some true) :
    pc = .returned true := by
  cases pc with
  | returned ok => exact congrArg _ (Option.some.inj h)
  | _ => cases h

/-- **The sentinel cleanup.** At every point of a run the graph lacks some edges of the sentinel, or
the sentinel with all its edges, and nothing else. A run that succeeded leaves neither, and another
run after it changes nothing. No transaction deletes more edges than a chunk, the node has none left
when it is deleted, and however the queries fail, both come to an end. -/
theorem sentinel_cleanup_exact {g g' : Graph} {returned : Option Bool}
    (h : SentinelCleanup g g' returned) :
    ((∃ chunk ⊆ sentinelEdges.matched g, g' = deleteSentinelEdges chunk g) ∨
      g' = deleteSentinelMaster g) ∧
    (returned = some true → g' = deleteSentinelMaster g ∧
      ∀ g'' returned', SentinelCleanup g' g'' returned' → g'' = g') ∧
    (∀ r, (edgeCleanup g).Reachable r →
      (∀ a r', (edgeCleanup g).step r a = some r' →
        (r.store.edges.keys \ r'.store.edges.keys).card ≤ stubCleanupBatchSize) ∧
      (r.pc = .returned true → ∀ e ∈ r.store.edges, ¬AtSentinel e.arc)) ∧
    (WellFounded fun r' r => ∃ a, (edgeCleanup g).step r a = some r') ∧
    WellFounded fun r' r => ∃ a, (nodeCleanup g).step r a = some r' := by
  refine ⟨h.lacks, fun hreturned => ?_,
    fun r hr => ⟨fun a r' hs => card_edges_le hr hs, fun hpc => (edgeCleanup_done hr hpc).2⟩,
    Deletion.wellFounded_step .., Deletion.wellFounded_step ..⟩
  have hgraph : g' = deleteSentinelMaster g := by
    cases h with
    | edges h hpc => exact absurd (result_eq_true hreturned) hpc
    | @node r r' h hpc h' =>
      rw [(nodeCleanup_lacks h').2 (result_eq_true hreturned), (edgeCleanup_done h hpc).1]
      exact deleteSentinelMaster_delete
  refine ⟨hgraph, fun g'' returned' h'' => h''.eq_of_notMem fun hmem => ?_⟩
  rw [hgraph] at hmem
  exact (mem_nodes_detachDelete.mp hmem).2 rfl

/-! Two releases point at the sentinel, and the first attempt at their edges fails. -/

def mastered : Graph :=
  (∅ : Graph) |> mergeEdge ⟨.DERIVED_FROM, .release (.str "1"), sentinelMaster⟩ id
    |> mergeEdge ⟨.DERIVED_FROM, .release (.str "2"), sentinelMaster⟩ id

def masteredEdges : List (Edge Node Rel) :=
  [⟨⟨.DERIVED_FROM, .release (.str "1"), sentinelMaster⟩, 0⟩,
    ⟨⟨.DERIVED_FROM, .release (.str "2"), sentinelMaster⟩, 0⟩]

theorem sentinel_cleanup_exact_two_releases :
    ∃ g', SentinelCleanup mastered g' (some true) ∧ g' = deleteSentinelMaster mastered ∧
      sentinelMaster ∉ g'.nodes ∧ .release (.str "1") ∈ g'.nodes := by
  have hedges : ((edgeCleanup mastered).exec (fun _ _ => true)
      ⟨mastered, .waiting 1 (some sentinelChunk)⟩ [.start masteredEdges, .read, .transient,
        .start masteredEdges, .read, .read, .commit, .complete]).map (fun r => result r.pc) =
      some (some true) := by decide +kernel
  obtain ⟨r, hexec, hresult⟩ := Option.map_eq_some_iff.mp hedges
  have hr : (edgeCleanup mastered).Reachable r :=
    ⟨_, rfl, Machine.steps_of_exec (fun _ _ _ => trivial) hexec⟩
  have hpc := result_eq_true hresult
  have hnode : ((nodeCleanup r.store).exec (fun _ _ => true) ⟨r.store, .waiting 1 none⟩
      [.start [sentinelMaster], .read, .commit, .complete]).map (fun r => result r.pc) =
      some (some true) := by
    rw [(edgeCleanup_done hr hpc).1]
    decide +kernel
  obtain ⟨r', hexec', hresult'⟩ := Option.map_eq_some_iff.mp hnode
  have hrun : SentinelCleanup mastered r'.store (result r'.pc) :=
    .node hr hpc ⟨_, rfl, Machine.steps_of_exec (fun _ _ _ => trivial) hexec'⟩
  obtain ⟨hgraph, -⟩ := (sentinel_cleanup_exact hrun).2.1 hresult'
  rw [hresult'] at hrun
  refine ⟨r'.store, hrun, hgraph, ?_, ?_⟩ <;> rw [hgraph] <;> decide

end Graphinator
