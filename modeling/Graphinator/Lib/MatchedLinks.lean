import Graphinator.Lib.Footprint

/-!
# Links that wait for no endpoint

A program may end with links: it merges an edge over an arc if the graph has both endpoints at that
moment, and does nothing otherwise. The rest of the program takes no notice of such edges. Programs
of different queues may commute and their links still depend on the order, since a program of
another queue may create an endpoint before or after the link is tried.

## Main definitions

* `PropertyGraph.matchEdge`, `PropertyGraph.linkAll` : a link, and a list of links.
* `Linking` : a family of programs with their links.
* `Linking.Links` : some program of a list tries the link when its target is there.
* `SameQueues` : two interleavings of the same queues.

## Main results

* `Linking.run_eq_iff` : two orders of the programs give the same graph exactly where they make the
  same links.
* `Linking.forall_interleaving_iff` : exactly when the order of the queues does not matter.
-/

set_option linter.unusedSectionVars false

namespace PropertyGraph

variable {V K ρ σ : Type*} [Inhabited ρ] [Inhabited σ] [DecidableEq V] [DecidableEq K]

/-- `MATCH` of both endpoints, then `MERGE` of an edge over the arc. -/
def matchEdge (a : Arc V K) : PropertyGraph V K ρ σ → PropertyGraph V K ρ σ :=
  matchNode a.src fun g => g.matchNode a.dst (mergeEdge a id)

/-- A list of links, in order. -/
def linkAll (arcs : List (Arc V K)) : PropertyGraph V K ρ σ → PropertyGraph V K ρ σ :=
  runAll matchEdge arcs

/-- The graph without the edges over the arcs that satisfy `p`. -/
def erase (p : Arc V K → Prop) [DecidablePred p] : PropertyGraph V K ρ σ → PropertyGraph V K ρ σ :=
  deleteEdges fun e => p e.arc

section Cells

variable {g : PropertyGraph V K ρ σ} {a b : Arc V K} {arcs : List (Arc V K)} {v : V} {e : Edge V K}

theorem matchEdge_eq (a : Arc V K) (g : PropertyGraph V K ρ σ) : g.matchEdge a =
    if a.src ∈ g.nodes ∧ a.dst ∈ g.nodes then g.mergeEdge a id else g := by
  unfold matchEdge matchNode
  by_cases hsrc : a.src ∈ g.nodes <;> by_cases hdst : a.dst ∈ g.nodes <;> simp [hsrc, hdst]

@[simp] theorem mem_nodes_matchEdge : v ∈ (g.matchEdge a).nodes ↔ v ∈ g.nodes := by
  rw [matchEdge_eq]
  split_ifs with h
  · rw [mem_nodes_mergeEdge]
    constructor
    · rintro (rfl | rfl | hv)
      · exact h.2
      · exact h.1
      · exact hv
    · exact fun hv => Or.inr (Or.inr hv)
  · exact Iff.rfl

@[simp] theorem row_nodes_matchEdge : (g.matchEdge a).nodes.row = g.nodes.row := by
  rw [matchEdge_eq]
  split_ifs
  · exact row_nodes_mergeEdge
  · rfl

theorem mem_edges_matchEdge : e ∈ (g.matchEdge a).edges ↔
    e ∈ g.edges ∨ (e = ⟨a, 0⟩ ∧ ¬g.HasArc a ∧ a.src ∈ g.nodes ∧ a.dst ∈ g.nodes) := by
  rw [matchEdge_eq]
  split_ifs with h
  · rw [mem_edges_mergeEdge, and_iff_left h.2, and_iff_left h.1]
  · exact ⟨Or.inl, fun he => he.resolve_right fun he => h he.2.2⟩

@[simp] theorem row_edges_matchEdge : (g.matchEdge a).edges.row = g.edges.row := by
  rw [matchEdge_eq]
  split_ifs
  · ext e
    rw [row_edges_mergeEdge]
    split_ifs <;> rfl
  · rfl

@[simp] theorem mem_nodes_linkAll : v ∈ (g.linkAll arcs).nodes ↔ v ∈ g.nodes := by
  induction arcs generalizing g with
  | nil => rfl
  | cons a arcs ih => exact ih.trans mem_nodes_matchEdge

@[simp] theorem row_nodes_linkAll : (g.linkAll arcs).nodes.row = g.nodes.row := by
  induction arcs generalizing g with
  | nil => rfl
  | cons a arcs ih => exact ih.trans row_nodes_matchEdge

@[simp] theorem row_edges_linkAll : (g.linkAll arcs).edges.row = g.edges.row := by
  induction arcs generalizing g with
  | nil => rfl
  | cons a arcs ih => exact ih.trans row_edges_matchEdge

theorem hasArc_matchEdge : (g.matchEdge a).HasArc b ↔
    g.HasArc b ∨ (b = a ∧ a.src ∈ g.nodes ∧ a.dst ∈ g.nodes) := by
  simp only [hasArc_iff, mem_edges_matchEdge, Edge.mk.injEq, exists_or]
  by_cases hb : ∃ n, (⟨b, n⟩ : Edge V K) ∈ g.edges
  · simp only [hb, true_or]
  · simp only [hb, false_or]
    constructor
    · rintro ⟨n, ⟨rfl, -⟩, -, hnodes⟩
      exact ⟨rfl, hnodes⟩
    · rintro ⟨rfl, hnodes⟩
      exact ⟨0, ⟨rfl, rfl⟩, hb, hnodes⟩

/-- A list of links adds the first edge over each of its arcs that has none and whose endpoints are
there. -/
theorem mem_edges_linkAll : e ∈ (g.linkAll arcs).edges ↔
    e ∈ g.edges ∨ (e.copy = 0 ∧ ¬g.HasArc e.arc ∧ e.arc ∈ arcs ∧ e.arc.src ∈ g.nodes ∧
      e.arc.dst ∈ g.nodes) := by
  induction arcs generalizing g with
  | nil => simp [linkAll]
  | cons a arcs ih =>
    change e ∈ ((g.matchEdge a).linkAll arcs).edges ↔ _
    obtain ⟨arc, copy⟩ := e
    simp only [ih, mem_edges_matchEdge, hasArc_matchEdge, mem_nodes_matchEdge, Edge.mk.injEq,
      List.mem_cons]
    by_cases harc : arc = a
    · subst harc
      tauto
    · simp only [harc, false_and, or_false, false_or]

end Cells

section Erase

variable {p : Arc V K → Prop} [DecidablePred p] {F : Footprint V K ρ}
  {f : PropertyGraph V K ρ σ → PropertyGraph V K ρ σ} {g g' : PropertyGraph V K ρ σ}

@[simp] theorem nodes_erase : (g.erase p).nodes = g.nodes := rfl

/-- Links over erased arcs leave no trace but themselves. -/
theorem erase_linkAll {arcs : List (Arc V K)} (h : ∀ a ∈ arcs, p a) :
    (g.linkAll arcs).erase p = g.erase p := by
  refine ext_cells (fun v => ?_) (fun v => ?_) (fun e => ?_) fun e => ?_
  · exact mem_nodes_linkAll
  · exact congrFun row_nodes_linkAll v
  · simp only [erase, mem_edges_deleteEdges, mem_edges_linkAll]
    constructor
    · rintro ⟨he | ⟨-, -, harc, -⟩, hp⟩
      · exact ⟨he, hp⟩
      · exact absurd (h _ harc) hp
    · exact fun he => ⟨Or.inl he.1, he.2⟩
  · simp only [erase, row_edges_deleteEdges, row_edges_linkAll]

/-- A program that does not write the erased arcs commutes with the erasure. -/
theorem Within.erase (hf : Within (σ := σ) F f) (howned : ∀ a ∈ F.owned, ¬p a)
    (hmerged : ∀ a ∈ F.merged, ¬p a) (g : PropertyGraph V K ρ σ) :
    (f g).erase p = f (g.erase p) := by
  let E : Footprint V K ρ := { updates := fun _ => ∅, owned := {a | p a}, merged := ∅ }
  have hE : Within (σ := σ) E (PropertyGraph.erase p) := .deleteEdges _ fun _ he => he
  have hind : E.Independent F := by
    refine ⟨fun _ _ _ hu => absurd hu (Set.notMem_empty _), ?_, ?_, Set.empty_disjoint _⟩
    · exact Set.disjoint_left.mpr fun a ha ha' => howned a ha' ha
    · exact Set.disjoint_left.mpr fun a ha ha' => hmerged a ha' ha
  exact hE.commute hind hf g

/-- Graphs are equal if they are without the edges over some arcs and agree on these. -/
theorem ext_erase (herase : g.erase p = g'.erase p)
    (he : ∀ e : Edge V K, p e.arc → (e ∈ g.edges ↔ e ∈ g'.edges))
    (hs : ∀ e : Edge V K, p e.arc → g.edges.row e = g'.edges.row e) : g = g' := by
  refine ext_cells (fun v => ?_) (fun v => ?_) (fun e => ?_) fun e => ?_
  · rw [← nodes_erase (p := p) (g := g), herase, nodes_erase]
  · rw [← nodes_erase (p := p) (g := g), herase, nodes_erase]
  · by_cases hp : p e.arc
    · exact he e hp
    · have h := congrArg (fun g : PropertyGraph V K ρ σ => e ∈ g.edges) herase
      simpa [PropertyGraph.erase, hp] using h
  · by_cases hp : p e.arc
    · exact hs e hp
    · have h := congrArg (fun g : PropertyGraph V K ρ σ => g.edges.row e) herase
      simpa [PropertyGraph.erase, hp] using h

end Erase

end PropertyGraph

open PropertyGraph

/-- Programs with the links that each tries at its end. -/
structure Linking (V K ρ σ α : Type*) [Inhabited ρ] [Inhabited σ] [DecidableEq V]
    [DecidableEq K] where
  /-- The arcs of the links. -/
  isLink : Arc V K → Prop
  [decidable_isLink : DecidablePred isLink]
  /-- A program up to its links. -/
  program : α → PropertyGraph V K ρ σ → PropertyGraph V K ρ σ
  footprint : α → Footprint V K ρ
  links : α → List (Arc V K)
  /-- The nodes that a program creates where they are not there yet. -/
  creates : α → Set V
  within (x : α) : Within (footprint x) (program x)
  owned_not_link (x : α) : ∀ a ∈ (footprint x).owned, ¬isLink a
  merged_not_link (x : α) : ∀ a ∈ (footprint x).merged, ¬isLink a
  isLink_of_mem {x : α} {a : Arc V K} : a ∈ links x → isLink a
  /-- A program creates the sources of its links. -/
  src_mem {x : α} {a : Arc V K} (g : PropertyGraph V K ρ σ) : a ∈ links x →
    a.src ∈ (program x g).nodes
  dst_mem_iff (x : α) {a : Arc V K} (g : PropertyGraph V K ρ σ) : isLink a →
    (a.dst ∈ (program x g).nodes ↔ a.dst ∈ g.nodes ∨ a.dst ∈ creates x)

namespace Linking

variable {V K ρ σ α : Type*} [Inhabited ρ] [Inhabited σ] [DecidableEq V] [DecidableEq K]
  (L : Linking V K ρ σ α)

attribute [instance] decidable_isLink

/-- A program with its links. -/
def run (x : α) (g : PropertyGraph V K ρ σ) : PropertyGraph V K ρ σ :=
  (L.program x g).linkAll (L.links x)

/-- Some program of the list tries the link when its target is there: it was there before, or the
program or an earlier one creates it. -/
def Links (xs : List α) (present : Set V) (a : Arc V K) : Prop :=
  ∃ before x after, xs = before ++ x :: after ∧ a ∈ L.links x ∧
    (a.dst ∈ present ∨ ∃ y ∈ before ++ [x], a.dst ∈ L.creates y)

variable {L} {xs ys : List α} {S : Set V} {a : Arc V K} {x : α}

theorem not_links_nil : ¬L.Links [] S a := by
  rintro ⟨before, x, after, h, -⟩
  exact List.append_ne_nil_of_right_ne_nil _ (List.cons_ne_nil _ _) h.symm

theorem links_cons : L.Links (x :: xs) S a ↔
    (a ∈ L.links x ∧ (a.dst ∈ S ∨ a.dst ∈ L.creates x)) ∨ L.Links xs (S ∪ L.creates x) a := by
  constructor
  · rintro ⟨before, y, after, h, hlink, hdst⟩
    cases before with
    | nil =>
      obtain ⟨rfl, rfl⟩ := List.cons.inj h
      exact Or.inl ⟨hlink, by simpa using hdst⟩
    | cons z before =>
      obtain ⟨rfl, rfl⟩ := List.cons.inj h
      refine Or.inr ⟨before, y, after, rfl, hlink, ?_⟩
      rcases hdst with hdst | ⟨w, hw, hdst⟩
      · exact Or.inl (Or.inl hdst)
      · rcases List.mem_cons.mp hw with rfl | hw
        · exact Or.inl (Or.inr hdst)
        · exact Or.inr ⟨w, hw, hdst⟩
  · rintro (⟨hlink, hdst⟩ | ⟨before, y, after, rfl, hlink, hdst⟩)
    · exact ⟨[], x, xs, rfl, hlink, by simpa using hdst⟩
    · refine ⟨x :: before, y, after, rfl, hlink, ?_⟩
      rcases hdst with (hdst | hdst) | ⟨w, hw, hdst⟩
      · exact Or.inl hdst
      · exact Or.inr ⟨x, List.mem_cons_self .., hdst⟩
      · exact Or.inr ⟨w, List.mem_cons_of_mem _ hw, hdst⟩

theorem Links.mem (h : L.Links xs S a) : ∃ x ∈ xs, a ∈ L.links x := by
  obtain ⟨before, x, after, rfl, hlink, -⟩ := h
  exact ⟨x, by simp, hlink⟩

/-- A target that is there all along waits for nothing. -/
theorem links_of_mem (hx : x ∈ xs) (hlink : a ∈ L.links x) (hdst : a.dst ∈ S) : L.Links xs S a := by
  obtain ⟨before, after, rfl⟩ := List.append_of_mem hx
  exact ⟨before, x, after, rfl, hlink, Or.inl hdst⟩

section Runs

variable {g : PropertyGraph V K ρ σ}

/-- What a run makes of the rest of the graph does not depend on the links. -/
theorem erase_run (xs : List α) (g : PropertyGraph V K ρ σ) :
    (runAll L.run xs g).erase L.isLink = runAll L.program xs (g.erase L.isLink) := by
  induction xs generalizing g with
  | nil => rfl
  | cons x xs ih =>
    rw [runAll_cons, runAll_cons, ih]
    congr 1
    exact (erase_linkAll fun _ => L.isLink_of_mem).trans
      ((L.within x).erase (L.owned_not_link x) (L.merged_not_link x) g)

/-- A program leaves the links of the others alone. -/
theorem edges_program (x : α) {e : Edge V K} (he : L.isLink e.arc) (g : PropertyGraph V K ρ σ) :
    (e ∈ (L.program x g).edges ↔ e ∈ g.edges) ∧
      (L.program x g).edges.row e = g.edges.row e :=
  (L.within x).edges_of_notMem (fun h => L.owned_not_link x _ h he)
    (fun h => L.merged_not_link x _ h he) g

theorem hasArc_program (x : α) (ha : L.isLink a) (g : PropertyGraph V K ρ σ) :
    (L.program x g).HasArc a ↔ g.HasArc a := by
  simp only [hasArc_iff]
  exact exists_congr fun n => (edges_program x (e := ⟨a, n⟩) ha g).1

theorem dst_mem_run (x : α) (ha : L.isLink a) (g : PropertyGraph V K ρ σ) :
    a.dst ∈ (L.run x g).nodes ↔ a.dst ∈ g.nodes ∨ a.dst ∈ L.creates x := by
  unfold run
  rw [mem_nodes_linkAll]
  exact L.dst_mem_iff x g ha

/-- **The links of a run**: those that were there, and those that it makes. -/
theorem mem_edges_run (xs : List α) (g : PropertyGraph V K ρ σ) {e : Edge V K}
    (he : L.isLink e.arc) : e ∈ (runAll L.run xs g).edges ↔
      e ∈ g.edges ∨ (e.copy = 0 ∧ ¬g.HasArc e.arc ∧ L.Links xs {v | v ∈ g.nodes} e.arc) := by
  induction xs generalizing g with
  | nil => simp [not_links_nil]
  | cons x xs ih =>
    have hedges : ∀ e : Edge V K, L.isLink e.arc → (e ∈ (L.run x g).edges ↔ e ∈ g.edges ∨
        (e.copy = 0 ∧ ¬g.HasArc e.arc ∧ e.arc ∈ L.links x ∧
          (e.arc.dst ∈ g.nodes ∨ e.arc.dst ∈ L.creates x))) := by
      intro e he
      unfold run
      rw [mem_edges_linkAll, (edges_program x he g).1, hasArc_program x he,
        L.dst_mem_iff x g he]
      constructor
      · rintro (h | ⟨hcopy, harc, hlink, -, hdst⟩)
        · exact Or.inl h
        · exact Or.inr ⟨hcopy, harc, hlink, hdst⟩
      · rintro (h | ⟨hcopy, harc, hlink, hdst⟩)
        · exact Or.inl h
        · exact Or.inr ⟨hcopy, harc, hlink, L.src_mem g hlink, hdst⟩
    have harc : (L.run x g).HasArc e.arc ↔ g.HasArc e.arc ∨
        (e.arc ∈ L.links x ∧ (e.arc.dst ∈ g.nodes ∨ e.arc.dst ∈ L.creates x)) := by
      simp only [hasArc_iff]
      constructor
      · rintro ⟨n, hn⟩
        rcases (hedges ⟨e.arc, n⟩ he).mp hn with h | ⟨-, -, h⟩
        · exact Or.inl ⟨n, h⟩
        · exact Or.inr h
      · intro h
        by_cases hg : g.HasArc e.arc
        · obtain ⟨n, hn⟩ := hasArc_iff.mp hg
          exact ⟨n, (hedges ⟨e.arc, n⟩ he).mpr (Or.inl hn)⟩
        · rcases h with h | h
          · exact absurd (hasArc_iff.mpr h) hg
          · exact ⟨0, (hedges ⟨e.arc, 0⟩ he).mpr (Or.inr ⟨rfl, hg, h⟩)⟩
    have hpresent : L.Links xs {v | v ∈ (L.run x g).nodes} e.arc ↔
        L.Links xs ({v | v ∈ g.nodes} ∪ L.creates x) e.arc := by
      unfold Links
      refine exists_congr fun before => exists_congr fun y => exists_congr fun after => ?_
      refine and_congr_right fun _ => and_congr_right fun _ => or_congr ?_ Iff.rfl
      exact dst_mem_run x he g
    rw [runAll_cons, ih, hedges e he, harc, hpresent, links_cons, Set.mem_ofPred_eq]
    generalize (e.arc ∈ L.links x ∧ (e.arc.dst ∈ g.nodes ∨ e.arc.dst ∈ L.creates x)) = linked
    by_cases hlinked : linked <;> simp [hlinked]

theorem row_edges_run (xs : List α) (g : PropertyGraph V K ρ σ) {e : Edge V K}
    (he : L.isLink e.arc) : (runAll L.run xs g).edges.row e = g.edges.row e := by
  induction xs generalizing g with
  | nil => rfl
  | cons x xs ih =>
    rw [runAll_cons, ih]
    exact (congrFun row_edges_linkAll e).trans (edges_program x he g).2

/-- **Two orders of the programs give the same graph exactly where they make the same links**, if
the programs agree up to the links. -/
theorem run_eq_iff (h : ∀ g, runAll L.program xs g = runAll L.program ys g) :
    runAll L.run xs g = runAll L.run ys g ↔ ∀ a, L.isLink a → ¬g.HasArc a →
      (L.Links xs {v | v ∈ g.nodes} a ↔ L.Links ys {v | v ∈ g.nodes} a) := by
  constructor
  · intro heq a ha hno
    have hedge : (⟨a, 0⟩ : Edge V K) ∉ g.edges := fun he => hno (hasArc_of_mem he)
    have hmem := congrArg (fun g : PropertyGraph V K ρ σ => (⟨a, 0⟩ : Edge V K) ∈ g.edges) heq
    simpa [mem_edges_run (e := ⟨a, 0⟩) _ _ ha, hedge, hno] using hmem
  · intro hlinks
    refine ext_erase (p := L.isLink) ?_ (fun e he => ?_) fun e he => ?_
    · rw [erase_run, erase_run, h]
    · rw [mem_edges_run xs g he, mem_edges_run ys g he]
      refine or_congr Iff.rfl (and_congr_right fun _ => and_congr_right fun hno => ?_)
      exact hlinks e.arc he hno
    · rw [row_edges_run xs g he, row_edges_run ys g he]

end Runs

end Linking

/-- Two interleavings of the same queues. -/
def SameQueues {α τ : Type*} [DecidableEq τ] (queue : α → τ) (xs ys : List α) : Prop :=
  ∀ t, xs.filter (queue · = t) = ys.filter (queue · = t)

namespace SameQueues

variable {α τ : Type*} [DecidableEq τ] {queue : α → τ} {xs ys zs : List α}

theorem refl (xs : List α) : SameQueues queue xs xs := fun _ => rfl

theorem symm (h : SameQueues queue xs ys) : SameQueues queue ys xs := fun t => (h t).symm

theorem trans (h : SameQueues queue xs ys) (h' : SameQueues queue ys zs) : SameQueues queue xs zs :=
  fun t => (h t).trans (h' t)

theorem mem_iff (h : SameQueues queue xs ys) {x : α} : x ∈ xs ↔ x ∈ ys := by
  have hmem := congrArg (x ∈ ·) (h (queue x))
  simpa using hmem

/-- What relates the records of different queues, and those of one queue in order, relates the
records of an interleaving. -/
theorem pairwise_of_filter {R : α → α → Prop} (hne : ∀ x y, queue x ≠ queue y → R x y)
    (h : ∀ t, (xs.filter (queue · = t)).Pairwise R) : xs.Pairwise R := by
  induction xs with
  | nil => exact .nil
  | cons x xs ih =>
    refine .cons (fun y hy => ?_) (ih fun t => (h t).sublist (.filter _ (List.sublist_cons_self x xs)))
    by_cases hxy : queue x = queue y
    · have hx := h (queue x)
      rw [List.filter_cons_of_pos (by simp)] at hx
      exact List.rel_of_pairwise_cons hx (by simp [hy, hxy])
    · exact hne x y hxy

theorem pairwise {R : α → α → Prop} (h : SameQueues queue xs ys)
    (hne : ∀ x y, queue x ≠ queue y → R x y) (hxs : xs.Pairwise R) : ys.Pairwise R :=
  pairwise_of_filter hne fun t => h t ▸ hxs.filter _

/-- One queue before the others. -/
theorem filter_append (queue : α → τ) (q : τ) (xs : List α) :
    SameQueues queue xs (xs.filter (queue · = q) ++ xs.filter (queue · ≠ q)) := by
  intro t
  rw [List.filter_append, List.filter_filter, List.filter_filter]
  by_cases ht : t = q
  · subst ht
    have hnil : xs.filter (fun x => decide (queue x = t) && decide (queue x ≠ t)) = [] := by simp
    rw [hnil, List.append_nil]
    simp
  · have hnil : xs.filter (fun x => decide (queue x = t) && decide (queue x = q)) = [] := by
      rw [List.filter_eq_nil_iff]
      intro x _ hx
      obtain ⟨rfl, hxq⟩ : queue x = t ∧ queue x = q := by simpa using hx
      exact ht hxq
    rw [hnil, List.nil_append]
    refine List.filter_congr fun x _ => ?_
    by_cases hx : queue x = t <;> simp [hx, ht]

/-- The other queues before one. -/
theorem append_filter (queue : α → τ) (q : τ) (xs : List α) :
    SameQueues queue xs (xs.filter (queue · ≠ q) ++ xs.filter (queue · = q)) := by
  intro t
  rw [filter_append queue q xs t, List.filter_append, List.filter_append]
  by_cases ht : t = q
  · have hnil : (xs.filter (queue · ≠ q)).filter (queue · = t) = [] := by
      rw [List.filter_filter, List.filter_eq_nil_iff]
      intro x _ hx
      simp [ht] at hx
    rw [hnil, List.append_nil, List.nil_append]
  · have hnil : (xs.filter (queue · = q)).filter (queue · = t) = [] := by
      rw [List.filter_filter, List.filter_eq_nil_iff]
      intro x _ hx
      obtain ⟨rfl, hxq⟩ : queue x = t ∧ queue x = q := by simpa using hx
      exact ht hxq
    rw [hnil, List.append_nil, List.nil_append]

end SameQueues

namespace Linking

variable {V K ρ σ α τ : Type*} [Inhabited ρ] [Inhabited σ] [DecidableEq V] [DecidableEq K]
  [DecidableEq τ] {L : Linking V K ρ σ α} {queue : α → τ} {q : τ} {xs ys : List α} {S T : Set V}
  {a : Arc V K}

theorem Links.mono (h : L.Links xs S a) (hS : a.dst ∈ S → a.dst ∈ T) : L.Links xs T a := by
  obtain ⟨before, x, after, rfl, hlink, hdst⟩ := h
  exact ⟨before, x, after, rfl, hlink, hdst.imp_left hS⟩

/-- Programs without the link add nothing at the end. -/
theorem Links.of_append (h : L.Links (xs ++ ys) S a) (hys : ∀ y ∈ ys, a ∉ L.links y) :
    L.Links xs S a := by
  induction xs generalizing S with
  | nil =>
    obtain ⟨y, hy, hlink⟩ := h.mem
    exact absurd hlink (hys y hy)
  | cons x xs ih =>
    rw [List.cons_append, links_cons] at h
    exact links_cons.mpr (h.imp_right ih)

/-- What a queue links by itself, it links whatever the other queues do. -/
theorem Links.of_filter (h : L.Links (xs.filter (queue · = q)) S a) : L.Links xs S a := by
  induction xs generalizing S with
  | nil => exact h
  | cons x xs ih =>
    rw [links_cons]
    by_cases hx : queue x = q
    · rw [List.filter_cons_of_pos (by simpa using hx), links_cons] at h
      exact h.imp_right ih
    · rw [List.filter_cons_of_neg (by simpa using hx)] at h
      exact Or.inr ((ih h).mono Or.inl)

/-- Where the other queues neither try the link nor create its target, they do not matter. -/
theorem links_filter_iff (hlink : ∀ x ∈ xs, a ∈ L.links x → queue x = q)
    (hdst : ∀ x ∈ xs, queue x ≠ q → a.dst ∉ L.creates x) :
    L.Links xs S a ↔ L.Links (xs.filter (queue · = q)) S a := by
  refine ⟨fun h => ?_, .of_filter⟩
  induction xs generalizing S with
  | nil => exact h
  | cons x xs ih =>
    have hrest := ih (S := S ∪ L.creates x) (fun y hy => hlink y (List.mem_cons_of_mem _ hy))
      fun y hy => hdst y (List.mem_cons_of_mem _ hy)
    rw [links_cons] at h
    by_cases hx : queue x = q
    · rw [List.filter_cons_of_pos (by simpa using hx), links_cons]
      exact h.imp_right hrest
    · rw [List.filter_cons_of_neg (by simpa using hx)]
      rcases h with ⟨ha, -⟩ | h
      · exact absurd (hlink x (List.mem_cons_self ..) ha) hx
      · refine (hrest h).mono fun hmem => ?_
        exact hmem.resolve_right (hdst x (List.mem_cons_self ..) hx)

/-- **Exactly when the order of the queues does not matter.** One queue `q` makes the links. Each of
them has its target in the graph, or no other queue creates the target, or the queue makes the link
by itself. -/
theorem forall_interleaving_iff (hlink : ∀ x ∈ xs, ∀ a ∈ L.links x, queue x = q)
    (hcomm : ∀ x ∈ xs, ∀ y ∈ xs, queue x ≠ queue y →
      Function.Commute (L.program x) (L.program y)) (g : PropertyGraph V K ρ σ) :
    (∀ ys zs, SameQueues queue xs ys → SameQueues queue xs zs →
      runAll L.run ys g = runAll L.run zs g) ↔
    ∀ x ∈ xs, ∀ a ∈ L.links x, a.dst ∈ g.nodes ∨
      (∀ y ∈ xs, queue y ≠ q → a.dst ∉ L.creates y) ∨
      L.Links (xs.filter (queue · = q)) {v | v ∈ g.nodes} a := by
  have hprogram : ∀ ys zs, SameQueues queue xs ys → SameQueues queue xs zs →
      ∀ g, runAll L.program ys g = runAll L.program zs g := by
    intro ys zs hys hzs
    refine runAll_eq_of_interleaving queue (hys.symm.trans hzs) fun x hx y hy => ?_
    exact hcomm x (hys.mem_iff.mpr hx) y (hys.mem_iff.mpr hy)
  constructor
  · intro hall x hx a ha
    by_contra hnot
    simp only [not_or, not_forall, not_not] at hnot
    obtain ⟨hdst, ⟨y, hy, hyq, hcreates⟩, hown⟩ := hnot
    have hfirst := SameQueues.filter_append queue q xs
    have hlast := SameQueues.append_filter queue q xs
    have hno : ¬g.HasArc a := fun h => hdst h.dst_mem
    -- With the other queues first, the target is there when the link is tried.
    have hlater : L.Links (xs.filter (queue · ≠ q) ++ xs.filter (queue · = q))
        {v | v ∈ g.nodes} a := by
      have hxq : x ∈ xs.filter (queue · = q) := by simpa [hx] using hlink x hx a ha
      obtain ⟨before, after, hsplit⟩ := List.append_of_mem hxq
      refine ⟨xs.filter (queue · ≠ q) ++ before, x, after, by simp [hsplit], ha, Or.inr ⟨y, ?_, hcreates⟩⟩
      simp [hy, hyq]
    have hsame := (run_eq_iff (hprogram _ _ hfirst hlast)).mp (hall _ _ hfirst hlast) a
      (L.isLink_of_mem ha) hno
    -- With the queue itself first, it makes the link by itself or not at all.
    refine hown ((hsame.mpr hlater).of_append fun z hz hza => ?_)
    exact of_decide_eq_true (List.mem_filter.mp hz).2 (hlink z (List.mem_of_mem_filter hz) a hza)
  · intro hcond ys zs hys hzs
    refine (run_eq_iff (hprogram ys zs hys hzs)).mpr fun a _ _ => ?_
    -- Whether a link is made can be told from the queues alone.
    have htell : ∀ ys, SameQueues queue xs ys → (L.Links ys {v | v ∈ g.nodes} a ↔
        L.Links (ys.filter (queue · = q)) {v | v ∈ g.nodes} a) := by
      intro ys hys
      refine ⟨fun h => ?_, .of_filter⟩
      obtain ⟨x, hx, ha⟩ := h.mem
      have hxs := hys.mem_iff.mpr hx
      have hxq : x ∈ ys.filter (queue · = q) := by simpa [hx] using hlink x hxs a ha
      rcases hcond x hxs a ha with hdst | hcreates | hown
      · exact links_of_mem hxq ha hdst
      · refine (links_filter_iff (fun y hy => hlink y (hys.mem_iff.mpr hy) a) fun y hy => ?_).mp h
        exact hcreates y (hys.mem_iff.mpr hy)
      · rwa [← hys q]
    rw [htell ys hys, htell zs hzs, ← hys q, hzs q]

end Linking
