import Graphinator.Lib.Footprint

/-!
# What programs make of the arcs and the nodes of a graph

A program of clauses deletes the edges over some arcs and then merges an edge over each of some
others. Such an effect is a pair of sets of arcs, and the effects of programs compose. The nodes
that a program adds lie in a set, too.

## Main definitions

* `PropertyGraph.ArcEffect` : the effect of a program on the arcs.
* `PropertyGraph.AddsNodes` : a bound on the nodes that a program adds.
* `PropertyGraph.NodeEffect` : the nodes that a program adds.
* `PropertyGraph.Simple` : no two edges over one arc.

## Main results

* `PropertyGraph.ArcEffect.comp` : one program after another.
* `PropertyGraph.ArcEffect.each` : a list of programs that delete nothing.
* `PropertyGraph.ArcEffect.stages`, `PropertyGraph.NodeEffect.stages` : the stages of a list of
  records.
* `PropertyGraph.Within.simple` : programs keep a graph simple.
-/

namespace PropertyGraph

variable {V K ρ σ : Type*} [Inhabited ρ] [Inhabited σ]

/-- The program deletes the edges over the arcs `D`, and then merges an edge over each arc of
`M`. -/
def ArcEffect (D M : Set (Arc V K)) (f : PropertyGraph V K ρ σ → PropertyGraph V K ρ σ) : Prop :=
  ∀ g a, (f g).HasArc a ↔ (g.HasArc a ∧ a ∉ D) ∨ a ∈ M

namespace ArcEffect

variable {D D' M M' : Set (Arc V K)} {f h : PropertyGraph V K ρ σ → PropertyGraph V K ρ σ}

/-- **The effect of one program after another**, which deletes nothing that the first one merged. -/
theorem comp (hh : ArcEffect D' M' h) (hf : ArcEffect D M f) (hdisj : Disjoint M D') :
    ArcEffect (D ∪ D') (M ∪ M') fun g => h (f g) := by
  intro g a
  have hMD : a ∈ M → a ∉ D' := fun hM hD => Set.disjoint_left.mp hdisj hM hD
  rw [hh, hf]
  simp only [Set.mem_union]
  tauto

theorem congr (hf : ArcEffect D M f) (hD : D = D') (hM : M = M') : ArcEffect D' M' f := by
  subst hD hM
  exact hf

/-- One program that deletes nothing after another. -/
theorem comp_merge (hh : ArcEffect ∅ M' h) (hf : ArcEffect D M f) :
    ArcEffect D (M ∪ M') fun g => h (f g) :=
  (hh.comp hf (Set.disjoint_empty M)).congr (Set.union_empty D) rfl

theorem skip : ArcEffect ∅ ∅ (fun g : PropertyGraph V K ρ σ => g) := by
  intro g a
  simp

/-- **The effect of a list of programs that delete nothing.** -/
theorem each {α : Type*} {f : α → PropertyGraph V K ρ σ → PropertyGraph V K ρ σ}
    {M : α → Set (Arc V K)} {xs : List α} (h : ∀ x ∈ xs, ArcEffect ∅ (M x) (f x)) :
    ArcEffect ∅ {a | ∃ x ∈ xs, a ∈ M x} (runAll f xs) := by
  induction xs with
  | nil =>
    refine skip.congr rfl ?_
    simp
  | cons x xs ih =>
    have hrest := ih fun y hy => h y (List.mem_cons_of_mem _ hy)
    refine (hrest.comp_merge (h x (List.mem_cons_self ..))).congr rfl ?_
    ext a
    simp

/-- The effect of a list of programs that touch no arc. -/
theorem each_skip {α : Type*} {f : α → PropertyGraph V K ρ σ → PropertyGraph V K ρ σ}
    {xs : List α} (h : ∀ x ∈ xs, ArcEffect ∅ ∅ (f x)) : ArcEffect ∅ ∅ (runAll f xs) :=
  (each (M := fun _ => ∅) h).congr rfl (by simp)

/-- The effect of a list of programs none of which deletes what one of them merges. -/
theorem all {α : Type*} {f : α → PropertyGraph V K ρ σ → PropertyGraph V K ρ σ}
    {D M : α → Set (Arc V K)} {xs : List α} (h : ∀ x ∈ xs, ArcEffect (D x) (M x) (f x))
    (hdisj : ∀ x ∈ xs, ∀ y ∈ xs, Disjoint (M x) (D y)) :
    ArcEffect {a | ∃ x ∈ xs, a ∈ D x} {a | ∃ x ∈ xs, a ∈ M x} (runAll f xs) := by
  induction xs with
  | nil =>
    refine skip.congr ?_ ?_ <;> simp
  | cons x xs ih =>
    have hx := List.mem_cons_self (a := x) (l := xs)
    have hrest := ih (fun y hy => h y (List.mem_cons_of_mem _ hy)) fun y hy z hz =>
      hdisj y (List.mem_cons_of_mem _ hy) z (List.mem_cons_of_mem _ hz)
    refine (hrest.comp (h x hx) (Set.disjoint_left.mpr ?_)).congr ?_ ?_
    · rintro a ha ⟨y, hy, ha'⟩
      exact Set.disjoint_left.mp (hdisj x hx y (List.mem_cons_of_mem _ hy)) ha ha'
    · ext a
      simp
    · ext a
      simp

/-- **The effect of stages on a list of records**, of which none deletes what it or an earlier one
merged for a record. -/
theorem stages {α : Type*} {programs : List (α → PropertyGraph V K ρ σ → PropertyGraph V K ρ σ)}
    {effects : List (α → Set (Arc V K) × Set (Arc V K))} {xs : List α}
    (h : List.Forall₂ (fun f E => ∀ x, ArcEffect (E x).1 (E x).2 (f x)) programs effects)
    (hself : ∀ E ∈ effects, ∀ x y, Disjoint (E x).2 (E y).1)
    (hdisj : effects.Pairwise fun E E' => ∀ x y, Disjoint (E x).2 (E' y).1) :
    ArcEffect {a | ∃ x ∈ xs, ∃ E ∈ effects, a ∈ (E x).1}
      {a | ∃ x ∈ xs, ∃ E ∈ effects, a ∈ (E x).2} (runStages programs xs) := by
  induction h with
  | nil =>
    refine skip.congr ?_ ?_ <;> simp
  | cons hf _ ih =>
    rename_i f E programs effects _
    rw [List.pairwise_cons] at hdisj
    rw [List.forall_mem_cons] at hself
    have hfirst : ArcEffect _ _ (runAll f xs) :=
      all (fun x _ => hf x) fun x _ y _ => hself.1 x y
    refine ((ih hself.2 hdisj.2).comp hfirst (Set.disjoint_left.mpr ?_)).congr ?_ ?_
    · rintro a ⟨x, -, ha⟩ ⟨y, -, E', hE', ha'⟩
      exact Set.disjoint_left.mp (hdisj.1 E' hE' x y) ha ha'
    · ext a
      simp [exists_or, and_or_left]
    · ext a
      simp [exists_or, and_or_left]

variable [DecidableEq V] [DecidableEq K]

theorem mergeNode (v : V) (u : ρ → ρ) :
    ArcEffect (K := K) (σ := σ) ∅ ∅ (PropertyGraph.mergeNode v u) := by
  intro g a
  simp

theorem mergeEdge (a : Arc V K) (s : σ → σ) :
    ArcEffect (ρ := ρ) ∅ {a} (PropertyGraph.mergeEdge a s) := by
  intro g b
  simp [or_comm]

/-- A merge of a node and of an edge. -/
theorem mergeEdge_mergeNode (v : V) (u : ρ → ρ) (a : Arc V K) (s : σ → σ) :
    ArcEffect ∅ {a} fun g => PropertyGraph.mergeEdge a s (PropertyGraph.mergeNode v u g) :=
  ((mergeEdge a s).comp_merge (mergeNode v u)).congr rfl (Set.empty_union _)

/-- A deletion by the arcs of the edges. -/
theorem deleteEdges (p : Arc V K → Prop) [DecidablePred p] :
    ArcEffect (ρ := ρ) (σ := σ) {a | p a} ∅ (PropertyGraph.deleteEdges fun e => p e.arc) := by
  intro g a
  simp only [hasArc_iff, mem_edges_deleteEdges, Set.mem_ofPred_eq, Set.mem_empty_iff_false, or_false]
  exact exists_and_right

end ArcEffect

/-! ### Nodes -/

/-- The nodes that the program adds lie in `S`. -/
def AddsNodes (S : Set V) (f : PropertyGraph V K ρ σ → PropertyGraph V K ρ σ) : Prop :=
  ∀ g v, v ∈ (f g).nodes → v ∈ g.nodes ∨ v ∈ S

namespace AddsNodes

variable {S S' : Set V} {f h : PropertyGraph V K ρ σ → PropertyGraph V K ρ σ}

theorem skip : AddsNodes S (fun g : PropertyGraph V K ρ σ => g) := fun _ _ => Or.inl

theorem mono (hS : S ⊆ S') (hf : AddsNodes S f) : AddsNodes S' f :=
  fun g v hv => (hf g v hv).imp_right fun h => hS h

/-- One program after another. -/
theorem comp (hh : AddsNodes S h) (hf : AddsNodes S f) : AddsNodes S fun g => h (f g) := by
  intro g v hv
  rcases hh (f g) v hv with hv | hv
  · exact hf g v hv
  · exact Or.inr hv

/-- A list of programs. -/
theorem each {α : Type*} {f : α → PropertyGraph V K ρ σ → PropertyGraph V K ρ σ} {xs : List α}
    (h : ∀ x ∈ xs, AddsNodes S (f x)) : AddsNodes S (runAll f xs) := by
  intro g v
  refine runAll_invariant (I := fun t : PropertyGraph V K ρ σ => v ∈ t.nodes → v ∈ g.nodes ∨ v ∈ S)
    (fun x hx t ht hv => ?_) Or.inl
  rcases h x hx t v hv with hv | hv
  · exact ht hv
  · exact Or.inr hv

theorem deleteEdges (p : Edge V K → Prop) [DecidablePred p] :
    AddsNodes (ρ := ρ) (σ := σ) S (PropertyGraph.deleteEdges p) := fun _ _ => Or.inl

variable [DecidableEq V] [DecidableEq K]

theorem mergeNode {v : V} {u : ρ → ρ} (hv : v ∈ S) :
    AddsNodes (K := K) (σ := σ) S (PropertyGraph.mergeNode v u) := by
  intro g w hw
  rcases mem_nodes_mergeNode.mp hw with rfl | hw
  · exact Or.inr hv
  · exact Or.inl hw

theorem mergeEdge {a : Arc V K} {s : σ → σ} (hsrc : a.src ∈ S) (hdst : a.dst ∈ S) :
    AddsNodes (ρ := ρ) S (PropertyGraph.mergeEdge a s) := by
  intro g w hw
  rcases mem_nodes_mergeEdge.mp hw with rfl | rfl | hw
  · exact Or.inr hdst
  · exact Or.inr hsrc
  · exact Or.inl hw

/-- A merge of a node and of an edge. -/
theorem mergeEdge_mergeNode {v : V} {u : ρ → ρ} {a : Arc V K} {s : σ → σ} (hv : v ∈ S)
    (hsrc : a.src ∈ S) (hdst : a.dst ∈ S) :
    AddsNodes S fun g => PropertyGraph.mergeEdge a s (PropertyGraph.mergeNode v u g) :=
  (mergeEdge hsrc hdst).comp (mergeNode hv)

omit [DecidableEq K] in
theorem matchNode {v : V} (hf : AddsNodes S f) : AddsNodes S (PropertyGraph.matchNode v f) := by
  intro g w hw
  unfold PropertyGraph.matchNode at hw
  split_ifs at hw
  · exact hf g w hw
  · exact Or.inl hw

end AddsNodes

/-- The program adds the nodes of `N` that are not there, and takes none away. -/
def NodeEffect (N : Set V) (f : PropertyGraph V K ρ σ → PropertyGraph V K ρ σ) : Prop :=
  ∀ g v, v ∈ (f g).nodes ↔ v ∈ g.nodes ∨ v ∈ N

namespace NodeEffect

variable {N N' : Set V} {f h : PropertyGraph V K ρ σ → PropertyGraph V K ρ σ}

theorem skip : NodeEffect ∅ (fun g : PropertyGraph V K ρ σ => g) := by
  intro g v
  simp

theorem congr (hf : NodeEffect N f) (hN : N = N') : NodeEffect N' f := hN ▸ hf

/-- One program after another. -/
theorem comp (hh : NodeEffect N' h) (hf : NodeEffect N f) :
    NodeEffect (N ∪ N') fun g => h (f g) := by
  intro g v
  rw [hh, hf, Set.mem_union, or_assoc]

/-- A list of programs. -/
theorem each {α : Type*} {f : α → PropertyGraph V K ρ σ → PropertyGraph V K ρ σ}
    {N : α → Set V} {xs : List α} (h : ∀ x ∈ xs, NodeEffect (N x) (f x)) :
    NodeEffect {v | ∃ x ∈ xs, v ∈ N x} (runAll f xs) := by
  induction xs with
  | nil =>
    refine skip.congr ?_
    simp
  | cons x xs ih =>
    have hrest := ih fun y hy => h y (List.mem_cons_of_mem _ hy)
    refine (hrest.comp (h x (List.mem_cons_self ..))).congr ?_
    ext v
    simp

/-- The stages of a list of records. -/
theorem stages {α : Type*} {programs : List (α → PropertyGraph V K ρ σ → PropertyGraph V K ρ σ)}
    {effects : List (α → Set V)} {xs : List α}
    (h : List.Forall₂ (fun f N => ∀ x, NodeEffect (N x) (f x)) programs effects) :
    NodeEffect {v | ∃ x ∈ xs, ∃ N ∈ effects, v ∈ N x} (runStages programs xs) := by
  induction h with
  | nil =>
    refine skip.congr ?_
    simp
  | cons hf _ ih =>
    refine (ih.comp (each fun x _ => hf x)).congr ?_
    ext v
    simp [exists_or, and_or_left]

theorem deleteEdges (p : Edge V K → Prop) [DecidablePred p] :
    NodeEffect (ρ := ρ) (σ := σ) ∅ (PropertyGraph.deleteEdges p) := by
  intro g v
  simp

variable [DecidableEq V] [DecidableEq K]

theorem mergeNode (v : V) (u : ρ → ρ) :
    NodeEffect (K := K) (σ := σ) {v} (PropertyGraph.mergeNode v u) := by
  intro g w
  rw [mem_nodes_mergeNode, Set.mem_singleton_iff, or_comm]

theorem mergeEdge (a : Arc V K) (s : σ → σ) :
    NodeEffect (ρ := ρ) {a.src, a.dst} (PropertyGraph.mergeEdge a s) := by
  intro g w
  rw [mem_nodes_mergeEdge, Set.mem_insert_iff, Set.mem_singleton_iff]
  tauto

end NodeEffect

/-! ### Parallel edges -/

/-- No two edges lie over one arc, and the only one is the first. -/
def Simple (g : PropertyGraph V K ρ σ) : Prop := ∀ e ∈ g.edges, e.copy = 0

section Simple

variable [DecidableEq V] [DecidableEq K] {g : PropertyGraph V K ρ σ}

theorem Simple.mergeEdge (hg : g.Simple) (a : Arc V K) (s : σ → σ) : (g.mergeEdge a s).Simple := by
  intro e he
  rcases mem_edges_mergeEdge.mp he with he | ⟨rfl, -⟩
  · exact hg e he
  · rfl

/-- **Programs keep a graph simple.** -/
theorem Within.simple {F : Footprint V K ρ} {f : PropertyGraph V K ρ σ → PropertyGraph V K ρ σ}
    (hf : Within F f) (hg : g.Simple) : (f g).Simple := by
  induction hf generalizing g with
  | skip => exact hg
  | comp _ _ ihf ihh => exact ihf (ihh hg)
  | mergeNode v u _ => exact hg
  | mergeOwned a s _ => exact hg.mergeEdge a s
  | mergeArc a _ => exact hg.mergeEdge a id
  | deleteEdges p _ => exact fun e he => hg e (mem_edges_deleteEdges.mp he).1

end Simple

end PropertyGraph
