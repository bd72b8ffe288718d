import Graphinator.Lib.PropertyGraph
import Mathlib.Data.List.Basic
import Mathlib.Data.Set.Lattice
import Mathlib.Order.CompletePartialOrder

/-!
# Programs over a property graph and what they write

A program is a composition of clauses. Its footprint bounds what it writes: which updates it may
apply to the row of each node, which arcs it may delete edges of or set rows on, and which arcs it
may only merge. Merging a node is no part of a footprint, because merges of nodes never conflict.
Programs with independent footprints commute, and a run of several programs then gives the same
graph in any order that keeps the dependent ones in place.

## Main definitions

* `Footprint`, `Within`, `Footprint.Independent`.
* `runAll`, `runStages` : one program for each record of a list, and a list of such stages.

## Main results

* `Within.commute` : programs with independent footprints commute.
* `runStages_eq` : stages over a list of records, each stage over all records before the next, act
  like all stages on one record after another.
* `runAll_eq_of_interleaving` : two interleavings of commuting sequences have the same result.
-/

set_option linter.unusedSectionVars false


/-- What a program may write. -/
structure Footprint (V K ρ : Type*) where
  /-- The updates that may be applied to the row of a node. -/
  updates : V → Set (ρ → ρ)
  /-- The arcs whose edges may be deleted or have their rows set. -/
  owned : Set (Arc V K)
  /-- The arcs that may be merged and are left alone otherwise. -/
  merged : Set (Arc V K)

namespace PropertyGraph

variable {V K ρ σ : Type*} [Inhabited ρ] [Inhabited σ] [DecidableEq V] [DecidableEq K]

/-- Programs made of clauses that a footprint allows. -/
inductive Within (F : Footprint V K ρ) :
    (PropertyGraph V K ρ σ → PropertyGraph V K ρ σ) → Prop
  | skip : Within F id
  | comp {f h} : Within F f → Within F h → Within F (f ∘ h)
  | mergeNode (v : V) (u : ρ → ρ) : u = id ∨ u ∈ F.updates v → Within F (mergeNode v u)
  | mergeOwned (a : Arc V K) (s : σ → σ) : a ∈ F.owned → Within F (mergeEdge a s)
  | mergeArc (a : Arc V K) : a ∈ F.merged → Within F (mergeEdge a id)
  | deleteEdges (p : Edge V K → Prop) [DecidablePred p] :
    (∀ e, p e → e.arc ∈ F.owned) → Within F (deleteEdges p)

end PropertyGraph

/-- Neither footprint writes what the other writes, up to updates that commute. -/
structure Footprint.Independent {V K ρ : Type*} (F F' : Footprint V K ρ) : Prop where
  updates (v : V) {u u' : ρ → ρ} : u ∈ F.updates v → u' ∈ F'.updates v → Function.Commute u u'
  owned_owned : Disjoint F.owned F'.owned
  owned_merged : Disjoint F.owned F'.merged
  merged_owned : Disjoint F.merged F'.owned

/-- Whatever the one footprint allows, the other does. -/
structure Footprint.Covers {V K ρ : Type*} (F F' : Footprint V K ρ) : Prop where
  updates (v : V) : F'.updates v ⊆ F.updates v
  owned : F'.owned ⊆ F.owned
  merged : F'.merged ⊆ F.merged

namespace PropertyGraph

variable {V K ρ σ : Type*} [Inhabited ρ] [Inhabited σ] [DecidableEq V] [DecidableEq K]
  {F F' : Footprint V K ρ} {f h : PropertyGraph V K ρ σ → PropertyGraph V K ρ σ}

theorem commute_of_update (hF : F.Independent F') {v : V} {u u' : ρ → ρ}
    (hu : u = id ∨ u ∈ F.updates v) (hu' : u' = id ∨ u' ∈ F'.updates v) : Function.Commute u u' := by
  rcases hu with rfl | hu
  · exact fun _ => rfl
  · rcases hu' with rfl | hu'
    · exact fun _ => rfl
    · exact hF.updates v hu hu'

theorem Within.mono (hF : F.Covers F') (hf : Within (σ := σ) F' f) : Within F f := by
  induction hf with
  | skip => exact .skip
  | comp _ _ ihf ihh => exact .comp ihf ihh
  | mergeNode v u hu => exact .mergeNode v u (hu.imp_right fun h => hF.updates v h)
  | mergeOwned a s ha => exact .mergeOwned a s (hF.owned ha)
  | mergeArc a ha => exact .mergeArc a (hF.merged ha)
  | deleteEdges p hp => exact .deleteEdges p fun e he => hF.owned (hp e he)

/-- **Independent programs commute.** The induction over the second program is nested in the one
over the first; each pair of clauses is a lemma about clauses. -/
theorem Within.commute (hF : F.Independent F') (hf : Within (σ := σ) F f) (hh : Within F' h) :
    Function.Commute f h := by
  induction hf with
  | skip => exact fun _ => rfl
  | comp _ _ ih₁ ih₂ => exact ih₁.comp_left ih₂
  | mergeNode v u hu =>
    induction hh with
    | skip => exact fun _ => rfl
    | comp _ _ ih₁ ih₂ => exact ih₁.comp_right ih₂
    | mergeNode w u' hu' =>
      refine mergeNode_commute fun hvw => ?_
      subst hvw
      exact commute_of_update hF hu hu'
    | mergeOwned a s _ => exact mergeNode_mergeEdge_commute v u a s
    | mergeArc a _ => exact mergeNode_mergeEdge_commute v u a id
    | deleteEdges p _ => exact mergeNode_deleteEdges_commute v u p
  | mergeOwned a s ha =>
    induction hh with
    | skip => exact fun _ => rfl
    | comp _ _ ih₁ ih₂ => exact ih₁.comp_right ih₂
    | mergeNode w u' _ => exact (mergeNode_mergeEdge_commute w u' a s).symm
    | mergeOwned b s' hb =>
      refine mergeEdge_commute fun hab => ?_
      exact absurd (hab ▸ hb) (Set.disjoint_left.mp hF.owned_owned ha)
    | mergeArc b _ => exact mergeEdge_commute fun _ => fun _ => rfl
    | deleteEdges p hp =>
      exact mergeEdge_deleteEdges_commute s fun n hn =>
        Set.disjoint_left.mp hF.owned_owned ha (hp _ hn)
  | mergeArc a ha =>
    induction hh with
    | skip => exact fun _ => rfl
    | comp _ _ ih₁ ih₂ => exact ih₁.comp_right ih₂
    | mergeNode w u' _ => exact (mergeNode_mergeEdge_commute w u' a id).symm
    | mergeOwned b s' _ => exact mergeEdge_commute fun _ => fun _ => rfl
    | mergeArc b _ => exact mergeEdge_commute fun _ => fun _ => rfl
    | deleteEdges p hp =>
      exact mergeEdge_deleteEdges_commute id fun n hn =>
        Set.disjoint_left.mp hF.merged_owned ha (hp _ hn)
  | deleteEdges p hp =>
    induction hh with
    | skip => exact fun _ => rfl
    | comp _ _ ih₁ ih₂ => exact ih₁.comp_right ih₂
    | mergeNode w u' _ => exact (mergeNode_deleteEdges_commute w u' p).symm
    | mergeOwned b s' hb =>
      exact (mergeEdge_deleteEdges_commute s' fun n hn =>
        Set.disjoint_left.mp hF.owned_owned (hp _ hn) hb).symm
    | mergeArc b hb =>
      exact (mergeEdge_deleteEdges_commute id fun n hn =>
        Set.disjoint_left.mp hF.owned_merged (hp _ hn) hb).symm
    | deleteEdges q _ => exact deleteEdges_commute p q

/-- **Frame.** A program leaves the edges over arcs outside its footprint as they are. -/
theorem Within.edges_of_notMem (hf : Within (σ := σ) F f) {e : Edge V K} (ho : e.arc ∉ F.owned)
    (hm : e.arc ∉ F.merged) (g : PropertyGraph V K ρ σ) :
    (e ∈ (f g).edges ↔ e ∈ g.edges) ∧ (f g).edges.row e = g.edges.row e := by
  have hmerge : ∀ (a : Arc V K) (s : σ → σ) (g : PropertyGraph V K ρ σ), e.arc ≠ a →
      (e ∈ (g.mergeEdge a s).edges ↔ e ∈ g.edges) ∧
        (g.mergeEdge a s).edges.row e = g.edges.row e := by
    intro a s g hne
    refine ⟨?_, ?_⟩
    · rw [mem_edges_mergeEdge, or_iff_left]
      rintro ⟨rfl, -⟩
      exact hne rfl
    · rw [row_edges_mergeEdge, if_neg fun h => hne h.2]
  induction hf generalizing g with
  | skip => exact ⟨Iff.rfl, rfl⟩
  | comp _ _ ih₁ ih₂ => exact ⟨(ih₁ _).1.trans (ih₂ g).1, (ih₁ _).2.trans (ih₂ g).2⟩
  | mergeNode v u _ => exact ⟨Iff.rfl, rfl⟩
  | mergeOwned a s ha => exact hmerge a s g fun h => ho (h ▸ ha)
  | mergeArc a ha => exact hmerge a id g fun h => hm (h ▸ ha)
  | deleteEdges p hp =>
    have hpe : ¬p e := fun h => ho (hp e h)
    exact ⟨by simp [hpe], by simp [hpe]⟩

/-- A program keeps the edges it may only merge, with their rows. -/
theorem Within.edges_of_notOwned (hf : Within (σ := σ) F f) {e : Edge V K} (ho : e.arc ∉ F.owned)
    {g : PropertyGraph V K ρ σ} (he : e ∈ g.edges) :
    e ∈ (f g).edges ∧ (f g).edges.row e = g.edges.row e := by
  induction hf generalizing g with
  | skip => exact ⟨he, rfl⟩
  | comp _ _ ih₁ ih₂ =>
    obtain ⟨h₂, hr₂⟩ := ih₂ he
    obtain ⟨h₁, hr₁⟩ := ih₁ h₂
    exact ⟨h₁, hr₁.trans hr₂⟩
  | mergeNode v u _ => exact ⟨he, rfl⟩
  | mergeOwned a s ha =>
    have hne : e.arc ≠ a := fun h => ho (h ▸ ha)
    exact ⟨mem_edges_mergeEdge.mpr (Or.inl he), by rw [row_edges_mergeEdge, if_neg fun h => hne h.2]⟩
  | mergeArc a _ =>
    refine ⟨mem_edges_mergeEdge.mpr (Or.inl he), ?_⟩
    rw [row_edges_mergeEdge]
    split_ifs <;> rfl
  | deleteEdges p hp =>
    have hpe : ¬p e := fun h => ho (hp e h)
    exact ⟨by simp [hpe, he], by simp [hpe]⟩

/-- A relation between rows that every allowed update of a node keeps holds between its row before
and its row after a program. -/
theorem Within.row_nodes (hf : Within (σ := σ) F f) {v : V} {R : ρ → ρ → Prop}
    (hrefl : ∀ row, R row row) (htrans : ∀ {a b c}, R a b → R b c → R a c)
    (hu : ∀ u ∈ F.updates v, ∀ row, R row (u row)) (g : PropertyGraph V K ρ σ) :
    R (g.nodes.row v) ((f g).nodes.row v) := by
  induction hf generalizing g with
  | skip => exact hrefl _
  | comp _ _ ih₁ ih₂ => exact htrans (ih₂ g) (ih₁ _)
  | mergeNode w u hw =>
    rw [row_nodes_mergeNode]
    split_ifs with h
    · subst h
      rcases hw with rfl | hw
      · exact hrefl _
      · exact hu u hw _
    · exact hrefl _
  | mergeOwned a s _ =>
    rw [row_nodes_mergeEdge]
    exact hrefl _
  | mergeArc a _ =>
    rw [row_nodes_mergeEdge]
    exact hrefl _
  | deleteEdges p _ => exact hrefl _

/-- A program leaves the row of a node outside its footprint as it is. -/
theorem Within.row_nodes_of_empty (hf : Within (σ := σ) F f) {v : V} (hv : F.updates v = ∅)
    (g : PropertyGraph V K ρ σ) : (f g).nodes.row v = g.nodes.row v :=
  (hf.row_nodes (R := fun a b => b = a) (fun _ => rfl) (fun h h' => h'.trans h)
    (fun u hu => absurd (hv ▸ hu) (Set.notMem_empty u)) g)

/-- No clause of a program takes a node away. -/
theorem Within.mem_nodes (hf : Within (σ := σ) F f) {g : PropertyGraph V K ρ σ} {v : V}
    (hv : v ∈ g.nodes) : v ∈ (f g).nodes := by
  induction hf generalizing g with
  | skip => exact hv
  | comp _ _ ih₁ ih₂ => exact ih₁ (ih₂ hv)
  | mergeNode w u _ => exact mem_nodes_mergeNode.mpr (Or.inr hv)
  | mergeOwned a s _ => exact mem_nodes_mergeEdge.mpr (Or.inr (Or.inr hv))
  | mergeArc a _ => exact mem_nodes_mergeEdge.mpr (Or.inr (Or.inr hv))
  | deleteEdges p _ => exact hv

end PropertyGraph

/-! ### Lists of programs -/

section Runs

variable {α γ : Type*}

/-- Run the program of each record of a list, in order. -/
def runAll (f : α → γ → γ) (xs : List α) (g : γ) : γ := xs.foldl (fun g x => f x g) g

@[simp] theorem runAll_nil (f : α → γ → γ) (g : γ) : runAll f [] g = g := rfl

@[simp] theorem runAll_cons (f : α → γ → γ) (x : α) (xs : List α) (g : γ) :
    runAll f (x :: xs) g = runAll f xs (f x g) := rfl

@[simp] theorem runAll_append (f : α → γ → γ) (xs ys : List α) (g : γ) :
    runAll f (xs ++ ys) g = runAll f ys (runAll f xs g) := List.foldl_append

theorem runAll_flatMap {β : Type*} (f : β → γ → γ) (k : α → List β) (xs : List α) (g : γ) :
    runAll f (xs.flatMap k) g = runAll (fun x => runAll f (k x)) xs g := by
  induction xs generalizing g with
  | nil => rfl
  | cons x xs ih => rw [List.flatMap_cons, runAll_append, runAll_cons, ih]

theorem runAll_map {β : Type*} (f : β → γ → γ) (k : α → β) (xs : List α) (g : γ) :
    runAll f (xs.map k) g = runAll (fun x => f (k x)) xs g := List.foldl_map

theorem runAll_congr {f f' : α → γ → γ} {xs : List α} (h : ∀ x ∈ xs, f x = f' x) (g : γ) :
    runAll f xs g = runAll f' xs g := by
  induction xs generalizing g with
  | nil => rfl
  | cons x xs ih =>
    rw [runAll_cons, runAll_cons, h x (List.mem_cons_self ..),
      ih fun y hy => h y (List.mem_cons_of_mem _ hy)]

/-- What commutes with the program of each record commutes with the run. -/
theorem runAll_commute {f : α → γ → γ} {h : γ → γ} {xs : List α}
    (hc : ∀ x ∈ xs, Function.Commute (f x) h) : Function.Commute (runAll f xs) h := by
  induction xs with
  | nil => exact fun _ => rfl
  | cons x xs ih =>
    intro g
    rw [runAll_cons, runAll_cons, hc x (List.mem_cons_self ..) g,
      ih (fun y hy => hc y (List.mem_cons_of_mem _ hy)) (f x g)]

/-- What each program keeps, the run keeps. -/
theorem runAll_invariant {f : α → γ → γ} {xs : List α} {I : γ → Prop}
    (hstep : ∀ x ∈ xs, ∀ g, I g → I (f x g)) {g : γ} (hg : I g) : I (runAll f xs g) := by
  induction xs generalizing g with
  | nil => exact hg
  | cons x xs ih =>
    exact ih (fun y hy => hstep y (List.mem_cons_of_mem _ hy)) (hstep x (List.mem_cons_self ..) g hg)

/-- Run the stages in order, each over all the records. -/
def runStages (stages : List (α → γ → γ)) (xs : List α) (g : γ) : γ :=
  runAll (fun stage => runAll stage xs) stages g

/-- All the stages on one record. -/
def runRecord (stages : List (α → γ → γ)) (x : α) (g : γ) : γ :=
  runAll (fun stage => stage x) stages g

theorem runAll_comp {s r : α → γ → γ} {xs : List α}
    (hc : xs.Pairwise fun x y => Function.Commute (r x) (s y)) (g : γ) :
    runAll (fun x g => r x (s x g)) xs g = runAll r xs (runAll s xs g) := by
  induction xs generalizing g with
  | nil => rfl
  | cons x xs ih =>
    obtain ⟨hx, hxs⟩ := List.pairwise_cons.mp hc
    have hcomm : Function.Commute (runAll s xs) (r x) := runAll_commute fun y hy => (hx y hy).symm
    calc runAll (fun x g => r x (s x g)) (x :: xs) g
        = runAll (fun x g => r x (s x g)) xs (r x (s x g)) := rfl
      _ = runAll r xs (runAll s xs (r x (s x g))) := ih hxs _
      _ = runAll r xs (r x (runAll s xs (s x g))) := by rw [hcomm (s x g)]
      _ = runAll r (x :: xs) (runAll s (x :: xs) g) := rfl

/-- **Stages and records may be swapped.** Each stage over all records before the next stage is
the same as all stages on one record after another, as soon as a later stage on an earlier record
commutes with an earlier stage on a later record. -/
theorem runStages_eq {stages : List (α → γ → γ)} {xs : List α}
    (hc : stages.Pairwise fun s r => xs.Pairwise fun x y => Function.Commute (r x) (s y)) (g : γ) :
    runStages stages xs g = runAll (runRecord stages) xs g := by
  induction stages generalizing g with
  | nil =>
    induction xs generalizing g with
    | nil => rfl
    | cons x xs ih => exact ih (by simp) g
  | cons s stages ih =>
    obtain ⟨hs, hrest⟩ := List.pairwise_cons.mp hc
    have hcomp : xs.Pairwise fun x y => Function.Commute (runRecord stages x) (s y) := by
      have hall : ∀ r ∈ stages, xs.Pairwise fun x y => Function.Commute (r x) (s y) := hs
      clear hs hrest hc ih
      induction stages with
      | nil => exact List.pairwise_of_forall fun _ _ _ => rfl
      | cons r stages ih =>
        refine List.Pairwise.imp₂ (fun x y hxy hrec => ?_)
          (hall r (List.mem_cons_self ..)) (ih fun r hr => hall r (List.mem_cons_of_mem _ hr))
        exact hrec.comp_left hxy
    calc runStages (s :: stages) xs g
        = runStages stages xs (runAll s xs g) := rfl
      _ = runAll (runRecord stages) xs (runAll s xs g) := ih hrest _
      _ = runAll (fun x g => runRecord stages x (s x g)) xs g := (runAll_comp hcomp g).symm
      _ = runAll (runRecord (s :: stages)) xs g := rfl

/-- Moving a record to the front, past records whose programs commute with its own. -/
theorem runAll_append_cons {f : α → γ → γ} {xs ys : List α} {x : α}
    (hc : ∀ y ∈ xs, Function.Commute (f y) (f x)) (g : γ) :
    runAll f (xs ++ x :: ys) g = runAll f (x :: (xs ++ ys)) g := by
  have hcomm : Function.Commute (runAll f xs) (f x) := runAll_commute hc
  rw [runAll_append, runAll_cons, runAll_cons, runAll_append, ← hcomm g]

/-- **Interleavings.** Lists whose records agree queue by queue run alike, as soon as records of
different queues commute. -/
theorem runAll_eq_of_interleaving {τ : Type*} [DecidableEq τ] (queue : α → τ) {f : α → γ → γ}
    {xs ys : List α} (hq : ∀ t, xs.filter (queue · = t) = ys.filter (queue · = t))
    (hc : ∀ x ∈ xs, ∀ y ∈ xs, queue x ≠ queue y → Function.Commute (f x) (f y)) (g : γ) :
    runAll f xs g = runAll f ys g := by
  induction xs generalizing ys g with
  | nil =>
    obtain rfl : ys = [] := by
      rw [List.eq_nil_iff_forall_not_mem]
      intro y hy
      have hmem : y ∈ ys.filter (queue · = queue y) := by simp [hy]
      rw [← hq] at hmem
      simp at hmem
    rfl
  | cons x xs ih =>
    -- The first record of its queue in `ys` is `x`, and only records of other queues precede it.
    have hx := hq (queue x)
    rw [List.filter_cons_of_pos (by simp)] at hx
    obtain ⟨ys₁, ys₂, rfl, hne, -, hys₂⟩ := List.filter_eq_cons_iff.mp hx.symm
    have hne : ∀ y ∈ ys₁, queue y ≠ queue x := by simpa using hne
    have hrest : ∀ t, xs.filter (queue · = t) = (ys₁ ++ ys₂).filter (queue · = t) := by
      intro t
      have ht := hq t
      by_cases hxt : queue x = t
      · subst hxt
        have h₁ : ys₁.filter (queue · = queue x) = [] := by
          simpa using hne
        rw [List.filter_append, h₁, List.nil_append]
        exact hys₂.symm
      · simpa [List.filter_append, List.filter_cons, hxt] using ht
    have hmem : ∀ y, y ∈ ys₁ ++ ys₂ → y ∈ xs := by
      intro y hy
      have hy' : y ∈ (ys₁ ++ ys₂).filter (queue · = queue y) := by
        simpa using hy
      rw [← hrest] at hy'
      exact (List.mem_filter.mp hy').1
    rw [runAll_append_cons fun y hy => hc y
      (List.mem_cons_of_mem _ (hmem y (List.mem_append_left _ hy))) x (List.mem_cons_self ..)
      (hne y hy)]
    exact ih hrest (fun y hy z hz => hc y (List.mem_cons_of_mem _ hy) z (List.mem_cons_of_mem _ hz))
      (f x g)

end Runs

namespace PropertyGraph

variable {V K ρ σ : Type*} [Inhabited ρ] [Inhabited σ] [DecidableEq V] [DecidableEq K]
  {F : Footprint V K ρ}

/-- A run of programs within a footprint is within it. -/
theorem Within.runAll {α : Type*} {f : α → PropertyGraph V K ρ σ → PropertyGraph V K ρ σ}
    {xs : List α} (h : ∀ x ∈ xs, Within F (f x)) : Within F (runAll f xs) := by
  induction xs with
  | nil => exact .skip
  | cons x xs ih =>
    exact .comp (ih fun y hy => h y (List.mem_cons_of_mem _ hy)) (h x (List.mem_cons_self ..))

end PropertyGraph
