import Graphinator.Lib.Table

/-!
# Property graphs

Nodes and edges with rows of properties, written by the clauses of a graph query language: `MERGE`
of a node or an edge with a `SET`, `DELETE` of edges, `DETACH DELETE` of nodes.

A node is its key, so a key names at most one node. An edge is an arc, that is its endpoints with
the type and the properties a merge is keyed on, and a copy number: a graph may hold parallel edges
over one arc, although a merge creates an edge only where the arc has none.

## Main definitions

* `Arc`, `Edge`, `PropertyGraph`, `PropertyGraph.HasArc`.
* `PropertyGraph.mergeNode`, `PropertyGraph.mergeEdge`, `PropertyGraph.deleteEdges`,
  `PropertyGraph.detachDelete`, `PropertyGraph.setNode`, `PropertyGraph.setEdges`.

## Main results

* `PropertyGraph.ext_cells` : graphs with the same nodes, edges and rows are equal.
* `PropertyGraph.mergeNode_commute`, `PropertyGraph.mergeEdge_commute` and the rest: clauses that
  write different rows and arcs commute.
-/

/-- A place for edges: two endpoints, and what a merge is keyed on. -/
structure Arc (V K : Type*) where
  kind : K
  src : V
  dst : V
deriving DecidableEq

/-- An edge over an arc, numbered among the parallel edges over it. -/
structure Edge (V K : Type*) where
  arc : Arc V K
  copy : ℕ := 0
deriving DecidableEq

/-- A graph with nodes `V`, edges of the kinds `K`, and rows of properties. -/
structure PropertyGraph (V K ρ σ : Type*) [Inhabited ρ] [Inhabited σ] where
  nodes : Table V ρ
  edges : Table (Edge V K) σ
  src_mem : ∀ e ∈ edges, e.arc.src ∈ nodes
  dst_mem : ∀ e ∈ edges, e.arc.dst ∈ nodes

set_option linter.unusedSectionVars false

namespace PropertyGraph

variable {V K ρ σ : Type*} [Inhabited ρ] [Inhabited σ]

/-- Graphs with the same nodes, edges and rows are equal. -/
theorem ext_cells {g g' : PropertyGraph V K ρ σ} (hn : ∀ v, v ∈ g.nodes ↔ v ∈ g'.nodes)
    (hr : ∀ v, g.nodes.row v = g'.nodes.row v) (he : ∀ e, e ∈ g.edges ↔ e ∈ g'.edges)
    (hs : ∀ e, g.edges.row e = g'.edges.row e) : g = g' := by
  obtain ⟨n, e, _, _⟩ := g
  obtain ⟨n', e', _, _⟩ := g'
  obtain rfl : n = n' := Table.ext_iff_mem.mpr ⟨hn, hr⟩
  obtain rfl : e = e' := Table.ext_iff_mem.mpr ⟨he, hs⟩
  rfl

/-- The graph without nodes. -/
instance : EmptyCollection (PropertyGraph V K ρ σ) :=
  ⟨⟨∅, ∅, fun e h => absurd h (Table.notMem_empty e), fun e h => absurd h (Table.notMem_empty e)⟩⟩

@[simp] theorem nodes_empty : (∅ : PropertyGraph V K ρ σ).nodes = ∅ := rfl

@[simp] theorem edges_empty : (∅ : PropertyGraph V K ρ σ).edges = ∅ := rfl

/-- Some edge lies over the arc. -/
def HasArc (g : PropertyGraph V K ρ σ) (a : Arc V K) : Prop := ∃ e ∈ g.edges.keys, e.arc = a

variable [DecidableEq V] [DecidableEq K]

instance (g : PropertyGraph V K ρ σ) (a : Arc V K) : Decidable (g.HasArc a) :=
  inferInstanceAs (Decidable (∃ e ∈ g.edges.keys, e.arc = a))

/-! ### The clauses -/

/-- `MERGE (v)` with a `SET` that turns the row of `v` by `u`. -/
def mergeNode (v : V) (u : ρ → ρ) (g : PropertyGraph V K ρ σ) : PropertyGraph V K ρ σ where
  nodes := g.nodes.upsert v u
  edges := g.edges
  src_mem e he := Table.mem_upsert.mpr (Or.inr (g.src_mem e he))
  dst_mem e he := Table.mem_upsert.mpr (Or.inr (g.dst_mem e he))

/-- `SET` on the nodes that satisfy `p`. -/
def setNodes (p : V → Prop) [DecidablePred p] (u : ρ → ρ) (g : PropertyGraph V K ρ σ) :
    PropertyGraph V K ρ σ :=
  { g with nodes := g.nodes.modify p u }

/-- `SET` on the edges that satisfy `p`. -/
def setEdges (p : Edge V K → Prop) [DecidablePred p] (u : σ → σ) (g : PropertyGraph V K ρ σ) :
    PropertyGraph V K ρ σ :=
  { g with edges := g.edges.modify p u }

/-- `MERGE` of an edge over the arc. Its endpoints are bound, so the graph has them already;
inserting them keeps every graph closed whatever the arc. -/
def createEdge (a : Arc V K) (g : PropertyGraph V K ρ σ) : PropertyGraph V K ρ σ where
  nodes := (g.nodes.upsert a.src id).upsert a.dst id
  edges := if g.HasArc a then g.edges else g.edges.upsert ⟨a, 0⟩ id
  src_mem e he := by
    simp only [Table.mem_upsert]
    split_ifs at he
    · exact Or.inr (Or.inr (g.src_mem e he))
    · rcases Table.mem_upsert.mp he with rfl | he
      · exact Or.inr (Or.inl rfl)
      · exact Or.inr (Or.inr (g.src_mem e he))
  dst_mem e he := by
    simp only [Table.mem_upsert]
    split_ifs at he
    · exact Or.inr (Or.inr (g.dst_mem e he))
    · rcases Table.mem_upsert.mp he with rfl | he
      · exact Or.inl rfl
      · exact Or.inr (Or.inr (g.dst_mem e he))

/-- `MERGE` of an edge over the arc, with a `SET` that turns its row by `u`. A merge binds every
parallel edge over the arc. -/
def mergeEdge (a : Arc V K) (u : σ → σ) (g : PropertyGraph V K ρ σ) : PropertyGraph V K ρ σ :=
  (g.createEdge a).setEdges (·.arc = a) u

/-- `DELETE` of the edges that satisfy `p`. -/
def deleteEdges (p : Edge V K → Prop) [DecidablePred p] (g : PropertyGraph V K ρ σ) :
    PropertyGraph V K ρ σ where
  nodes := g.nodes
  edges := g.edges.filter fun e => ¬p e
  src_mem e he := g.src_mem e (Table.mem_filter.mp he).1
  dst_mem e he := g.dst_mem e (Table.mem_filter.mp he).1

/-- `DETACH DELETE` of the nodes that satisfy `p`. -/
def detachDelete (p : V → Prop) [DecidablePred p] (g : PropertyGraph V K ρ σ) :
    PropertyGraph V K ρ σ where
  nodes := g.nodes.filter fun v => ¬p v
  edges := g.edges.filter fun e => ¬p e.arc.src ∧ ¬p e.arc.dst
  src_mem e he := by
    obtain ⟨he, hs, -⟩ := Table.mem_filter.mp he
    exact Table.mem_filter.mpr ⟨g.src_mem e he, hs⟩
  dst_mem e he := by
    obtain ⟨he, -, hd⟩ := Table.mem_filter.mp he
    exact Table.mem_filter.mpr ⟨g.dst_mem e he, hd⟩

/-- `MATCH (v)`: the rest of the statement runs where the graph has `v`. -/
def matchNode (v : V) (f : PropertyGraph V K ρ σ → PropertyGraph V K ρ σ)
    (g : PropertyGraph V K ρ σ) : PropertyGraph V K ρ σ :=
  if v ∈ g.nodes then f g else g

/-! ### What each clause leaves -/

section Cells

variable {g : PropertyGraph V K ρ σ} {v w : V} {u : ρ → ρ} {s : σ → σ} {a b : Arc V K}
  {e : Edge V K}

@[simp] theorem mem_nodes_mergeNode : w ∈ (g.mergeNode v u).nodes ↔ w = v ∨ w ∈ g.nodes :=
  Table.mem_upsert

theorem row_nodes_mergeNode :
    (g.mergeNode v u).nodes.row w = if w = v then u (g.nodes.row w) else g.nodes.row w :=
  Table.row_upsert u

@[simp] theorem edges_mergeNode : (g.mergeNode v u).edges = g.edges := rfl

@[simp] theorem mem_nodes_mergeEdge :
    v ∈ (g.mergeEdge a s).nodes ↔ v = a.dst ∨ v = a.src ∨ v ∈ g.nodes := by
  change v ∈ (g.nodes.upsert a.src id).upsert a.dst id ↔ _
  simp

@[simp] theorem row_nodes_mergeEdge : (g.mergeEdge a s).nodes.row = g.nodes.row := by
  change ((g.nodes.upsert a.src id).upsert a.dst id).row = _
  simp

theorem mem_edges_mergeEdge :
    e ∈ (g.mergeEdge a s).edges ↔ e ∈ g.edges ∨ (e = ⟨a, 0⟩ ∧ ¬g.HasArc a) := by
  change e ∈ (if g.HasArc a then g.edges else g.edges.upsert ⟨a, 0⟩ id) ↔ _
  split_ifs with h
  · simp [h]
  · simp [h, or_comm]

theorem row_edges_mergeEdge :
    (g.mergeEdge a s).edges.row e =
      if e ∈ (g.mergeEdge a s).edges ∧ e.arc = a then s (g.edges.row e) else g.edges.row e := by
  have hrow : (g.createEdge a).edges.row = g.edges.row := by
    change (if g.HasArc a then g.edges else g.edges.upsert ⟨a, 0⟩ id).row = _
    split_ifs
    · rfl
    · exact Table.row_upsert_id
  change ((g.createEdge a).edges.modify (·.arc = a) s).row e = _
  rw [Table.row_modify, hrow]
  rfl

theorem hasArc_iff : g.HasArc a ↔ ∃ n, (⟨a, n⟩ : Edge V K) ∈ g.edges := by
  constructor
  · rintro ⟨⟨_, n⟩, he, rfl⟩
    exact ⟨n, he⟩
  · rintro ⟨n, he⟩
    exact ⟨_, he, rfl⟩

theorem hasArc_of_mem (h : e ∈ g.edges) : g.HasArc e.arc := ⟨e, h, rfl⟩

theorem HasArc.src_mem (h : g.HasArc a) : a.src ∈ g.nodes := by
  obtain ⟨e, he, rfl⟩ := h
  exact g.src_mem e he

theorem HasArc.dst_mem (h : g.HasArc a) : a.dst ∈ g.nodes := by
  obtain ⟨e, he, rfl⟩ := h
  exact g.dst_mem e he

@[simp] theorem hasArc_mergeNode : (g.mergeNode v u).HasArc a ↔ g.HasArc a := Iff.rfl

@[simp] theorem hasArc_mergeEdge : (g.mergeEdge a s).HasArc b ↔ b = a ∨ g.HasArc b := by
  simp only [hasArc_iff, mem_edges_mergeEdge, Edge.mk.injEq]
  constructor
  · rintro ⟨n, h | ⟨⟨rfl, -⟩, -⟩⟩
    · exact Or.inr ⟨n, h⟩
    · exact Or.inl rfl
  · rintro (rfl | ⟨n, h⟩)
    · by_cases hb : ∃ n, (⟨b, n⟩ : Edge V K) ∈ g.edges
      · obtain ⟨n, h⟩ := hb
        exact ⟨n, Or.inl h⟩
      · exact ⟨0, Or.inr ⟨⟨rfl, rfl⟩, hb⟩⟩
    · exact ⟨n, Or.inl h⟩

section deleteEdges

variable {p : Edge V K → Prop} [DecidablePred p]

@[simp] theorem nodes_deleteEdges : (g.deleteEdges p).nodes = g.nodes := rfl

@[simp] theorem mem_edges_deleteEdges : e ∈ (g.deleteEdges p).edges ↔ e ∈ g.edges ∧ ¬p e :=
  Table.mem_filter

@[simp] theorem row_edges_deleteEdges :
    (g.deleteEdges p).edges.row e = if p e then default else g.edges.row e := by
  change (g.edges.filter fun e => ¬p e).row e = _
  rw [Table.row_filter]
  by_cases h : p e <;> simp [h]

theorem deleteEdges_congr {q : Edge V K → Prop} [DecidablePred q] (h : ∀ e, p e ↔ q e) :
    g.deleteEdges p = g.deleteEdges q :=
  ext_cells (fun _ => Iff.rfl) (fun _ => rfl) (fun e => by simp [h]) fun e => by simp [h]

/-- One deletion after another deletes what either condition says. -/
theorem deleteEdges_deleteEdges {q : Edge V K → Prop} [DecidablePred q] :
    (g.deleteEdges p).deleteEdges q = g.deleteEdges fun e => p e ∨ q e := by
  refine ext_cells (fun _ => Iff.rfl) (fun _ => rfl) (fun e => ?_) fun e => ?_
  · simp only [mem_edges_deleteEdges, not_or, and_assoc]
  · by_cases hp : p e <;> by_cases hq : q e <;> simp [hp, hq]

/-- A deletion that spares an arc leaves it. -/
theorem hasArc_deleteEdges_of (h : ∀ n, ¬p ⟨a, n⟩) : (g.deleteEdges p).HasArc a ↔ g.HasArc a := by
  simp [hasArc_iff, h]

end deleteEdges

section detachDelete

variable {p : V → Prop} [DecidablePred p]

@[simp] theorem mem_nodes_detachDelete : v ∈ (g.detachDelete p).nodes ↔ v ∈ g.nodes ∧ ¬p v :=
  Table.mem_filter

theorem row_nodes_detachDelete :
    (g.detachDelete p).nodes.row v = if p v then default else g.nodes.row v := by
  change (g.nodes.filter fun v => ¬p v).row v = _
  rw [Table.row_filter]
  by_cases h : p v <;> simp [h]

@[simp] theorem mem_edges_detachDelete :
    e ∈ (g.detachDelete p).edges ↔ e ∈ g.edges ∧ ¬p e.arc.src ∧ ¬p e.arc.dst :=
  Table.mem_filter

theorem row_edges_detachDelete : (g.detachDelete p).edges.row e =
    if ¬p e.arc.src ∧ ¬p e.arc.dst then g.edges.row e else default :=
  Table.row_filter

theorem detachDelete_congr {q : V → Prop} [DecidablePred q] (h : ∀ v ∈ g.nodes, p v ↔ q v) :
    g.detachDelete p = g.detachDelete q := by
  refine ext_cells (fun v => ?_) (fun v => ?_) (fun e => ?_) fun e => ?_
  · simp only [mem_nodes_detachDelete]
    exact and_congr_right fun hv => not_congr (h v hv)
  · simp only [row_nodes_detachDelete]
    by_cases hv : v ∈ g.nodes
    · simp only [h v hv]
    · simp only [g.nodes.row_of_notMem v hv, ite_self]
  · simp only [mem_edges_detachDelete]
    exact and_congr_right fun he =>
      and_congr (not_congr (h _ (g.src_mem e he))) (not_congr (h _ (g.dst_mem e he)))
  · simp only [row_edges_detachDelete]
    by_cases he : e ∈ g.edges
    · simp only [h _ (g.src_mem e he), h _ (g.dst_mem e he)]
    · simp only [g.edges.row_of_notMem e he, ite_self]

/-- One deletion after another deletes what either condition says. -/
theorem detachDelete_detachDelete {q : V → Prop} [DecidablePred q] :
    (g.detachDelete p).detachDelete q = g.detachDelete fun v => p v ∨ q v := by
  refine ext_cells (fun v => ?_) (fun v => ?_) (fun e => ?_) fun e => ?_
  · simp only [mem_nodes_detachDelete, not_or, and_assoc]
  · simp only [row_nodes_detachDelete]
    by_cases hp : p v <;> by_cases hq : q v <;> simp [hp, hq]
  · simp only [mem_edges_detachDelete, not_or]
    tauto
  · simp only [row_edges_detachDelete, not_or]
    by_cases hp : p e.arc.src <;> by_cases hq : q e.arc.src <;> simp [hp, hq]
    split_ifs <;> simp_all

theorem detachDelete_of_forall_not (h : ∀ v ∈ g.nodes, ¬p v) : g.detachDelete p = g := by
  rw [detachDelete_congr (q := fun _ => False) fun v hv => iff_of_false (h v hv) not_false]
  exact ext_cells (fun v => by simp) (fun v => by simp [row_nodes_detachDelete]) (fun e => by simp)
    fun e => by simp [row_edges_detachDelete]

end detachDelete

@[simp] theorem mem_nodes_setNodes {p : V → Prop} [DecidablePred p] :
    v ∈ (g.setNodes p u).nodes ↔ v ∈ g.nodes := Iff.rfl

theorem row_nodes_setNodes {p : V → Prop} [DecidablePred p] : (g.setNodes p u).nodes.row v =
    if v ∈ g.nodes ∧ p v then u (g.nodes.row v) else g.nodes.row v := rfl

@[simp] theorem edges_setNodes {p : V → Prop} [DecidablePred p] :
    (g.setNodes p u).edges = g.edges := rfl

@[simp] theorem nodes_setEdges {p : Edge V K → Prop} [DecidablePred p] :
    (g.setEdges p s).nodes = g.nodes := rfl

@[simp] theorem mem_edges_setEdges {p : Edge V K → Prop} [DecidablePred p] :
    e ∈ (g.setEdges p s).edges ↔ e ∈ g.edges := Iff.rfl

theorem row_edges_setEdges {p : Edge V K → Prop} [DecidablePred p] : (g.setEdges p s).edges.row e =
    if e ∈ g.edges ∧ p e then s (g.edges.row e) else g.edges.row e := rfl

theorem matchNode_of_mem {f : PropertyGraph V K ρ σ → PropertyGraph V K ρ σ} (h : v ∈ g.nodes) :
    g.matchNode v f = f g := if_pos h

end Cells

/-! ### Clauses that commute -/

section Commute


/-- Merges of nodes commute where their updates do. -/
theorem mergeNode_commute {v w : V} {u u' : ρ → ρ} (h : v = w → Function.Commute u u') :
    Function.Commute (mergeNode (K := K) (σ := σ) v u) (mergeNode w u') := by
  intro g
  refine ext_cells (fun x => ?_) (fun x => ?_) (fun _ => Iff.rfl) fun _ => rfl
  · simp only [mem_nodes_mergeNode]
    tauto
  · simp only [row_nodes_mergeNode]
    by_cases hv : x = v
    · by_cases hw : x = w
      · simp only [if_pos hv, if_pos hw]
        exact h (hv.symm.trans hw) (g.nodes.row x)
      · simp only [if_pos hv, if_neg hw]
    · simp only [if_neg hv]

theorem mergeNode_mergeEdge_commute (v : V) (u : ρ → ρ) (a : Arc V K) (s : σ → σ) :
    Function.Commute (mergeNode v u) (mergeEdge a s) := by
  intro g
  refine ext_cells (fun x => ?_) (fun x => ?_) (fun x => ?_) fun x => ?_
  · simp only [mem_nodes_mergeNode, mem_nodes_mergeEdge]
    tauto
  · simp only [row_nodes_mergeNode, row_nodes_mergeEdge]
  · simp only [edges_mergeNode, mem_edges_mergeEdge, hasArc_mergeNode]
  · simp only [edges_mergeNode, row_edges_mergeEdge, mem_edges_mergeEdge, hasArc_mergeNode]

theorem mergeNode_deleteEdges_commute (v : V) (u : ρ → ρ) (p : Edge V K → Prop)
    [DecidablePred p] : Function.Commute (mergeNode (σ := σ) v u) (deleteEdges p) :=
  fun _ => ext_cells (fun _ => Iff.rfl) (fun _ => rfl) (fun _ => Iff.rfl) fun _ => rfl

/-- Merges of edges over one arc commute where their updates do, and over different arcs always. -/
theorem mergeEdge_commute {a b : Arc V K} {s s' : σ → σ} (h : a = b → Function.Commute s s') :
    Function.Commute (mergeEdge (ρ := ρ) a s) (mergeEdge b s') := by
  intro g
  have hmem : ∀ e, e ∈ ((g.mergeEdge b s').mergeEdge a s).edges ↔
      e ∈ ((g.mergeEdge a s).mergeEdge b s').edges := by
    intro e
    simp only [mem_edges_mergeEdge, hasArc_mergeEdge, not_or]
    by_cases hab : a = b
    · subst hab
      tauto
    · have hba : ¬b = a := fun h => hab h.symm
      simp only [hab, hba, not_false_eq_true, true_and]
      tauto
  refine ext_cells (fun x => ?_) (fun x => ?_) hmem fun e => ?_
  · simp only [mem_nodes_mergeEdge]
    tauto
  · simp only [row_nodes_mergeEdge]
  · simp only [row_edges_mergeEdge, hmem]
    by_cases ha : e.arc = a
    · by_cases hb' : e.arc = b
      · have hab : a = b := ha.symm.trans hb'
        subst hab
        have hsame : e ∈ (g.mergeEdge a s').edges ↔
            e ∈ ((g.mergeEdge a s).mergeEdge a s').edges := by
          simp only [mem_edges_mergeEdge, hasArc_mergeEdge, true_or, not_true_eq_false, and_false,
            or_false]
        have hsame' : e ∈ (g.mergeEdge a s).edges ↔
            e ∈ ((g.mergeEdge a s).mergeEdge a s').edges := by
          simp only [mem_edges_mergeEdge, hasArc_mergeEdge, true_or, not_true_eq_false, and_false,
            or_false]
        simp only [hsame, hsame', ha, and_true]
        split_ifs
        · exact h rfl _
        · rfl
      · have hsame : e ∈ (g.mergeEdge a s).edges ↔
            e ∈ ((g.mergeEdge a s).mergeEdge b s').edges := by
          rw [mem_edges_mergeEdge (g := g.mergeEdge a s)]
          refine ⟨Or.inl, ?_⟩
          rintro (he | ⟨rfl, -⟩)
          · exact he
          · exact absurd rfl hb'
        simp only [hsame, hb', and_false, if_false]
    · have hsame : e ∈ (g.mergeEdge b s').edges ↔
          e ∈ ((g.mergeEdge a s).mergeEdge b s').edges := by
        rw [← hmem, mem_edges_mergeEdge (g := g.mergeEdge b s')]
        refine ⟨Or.inl, ?_⟩
        rintro (he | ⟨rfl, -⟩)
        · exact he
        · exact absurd rfl ha
      simp only [hsame, ha, and_false, if_false]

theorem mergeEdge_deleteEdges_commute {a : Arc V K} (s : σ → σ) {p : Edge V K → Prop}
    [DecidablePred p] (h : ∀ n, ¬p ⟨a, n⟩) :
    Function.Commute (mergeEdge (ρ := ρ) a s) (deleteEdges p) := by
  intro g
  have hp : ∀ e : Edge V K, e.arc = a → ¬p e := by
    rintro ⟨_, n⟩ rfl
    exact h n
  have hmem : ∀ e, e ∈ ((g.deleteEdges p).mergeEdge a s).edges ↔
      e ∈ ((g.mergeEdge a s).deleteEdges p).edges := by
    intro e
    simp only [mem_edges_mergeEdge, mem_edges_deleteEdges, hasArc_deleteEdges_of h]
    constructor
    · rintro (⟨he, hpe⟩ | ⟨rfl, ha⟩)
      · exact ⟨Or.inl he, hpe⟩
      · exact ⟨Or.inr ⟨rfl, ha⟩, h 0⟩
    · rintro ⟨he | he, hpe⟩
      · exact Or.inl ⟨he, hpe⟩
      · exact Or.inr he
  refine ext_cells (fun x => ?_) (fun x => ?_) hmem fun e => ?_
  · simp only [mem_nodes_mergeEdge, nodes_deleteEdges]
  · simp only [row_nodes_mergeEdge, nodes_deleteEdges]
  · simp only [row_edges_mergeEdge, hmem, row_edges_deleteEdges, mem_edges_deleteEdges]
    by_cases ha : e.arc = a
    · simp only [ha, hp e ha, not_false_eq_true, and_true, if_false]
    · simp only [ha, and_false, if_false]

theorem deleteEdges_commute (p q : Edge V K → Prop) [DecidablePred p] [DecidablePred q] :
    Function.Commute (deleteEdges (ρ := ρ) (σ := σ) p) (deleteEdges q) := by
  intro g
  refine ext_cells (fun _ => Iff.rfl) (fun _ => rfl) (fun e => ?_) fun e => ?_
  · simp only [mem_edges_deleteEdges]
    tauto
  · simp only [row_edges_deleteEdges]
    split_ifs <;> rfl

end Commute

end PropertyGraph
