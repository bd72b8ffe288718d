import Graphinator.Catalog
import Graphinator.Lib.Aggregation

/-!
# Statements that report what they write

The sweeps of post-import maintenance compare before they write, so that a rerun over unchanged
data writes nothing. A statement here gives the graph it leaves together with the updates it made,
clause by clause.

## Main definitions

* `GraphUpdate`, `Statement`, `seqAll`.
* `guardedSet` : `SET` of a property where it differs.

## Main results

* `seqAll_cover` : a sweep over items.
* `seqAll_guardedSet`, `seqAll_guardedSet_eq` : what guarded sets leave, and when they do nothing.
-/

namespace Graphinator

open PropertyGraph

/-- A change to a graph. -/
inductive GraphUpdate
  | setNode (v : Node) (key : String) (value : PyValue)
  | setEdge (e : Edge Node Rel) (key : String) (value : PyValue)
  | createEdge (a : Arc Node Rel)
  | deleteEdge (e : Edge Node Rel)
deriving DecidableEq

/-- The graph after a change. -/
def GraphUpdate.apply : GraphUpdate → Graph → Graph
  | .setNode v key value => setNodes (· = v) fun row => Function.update row key value
  | .setEdge e key value => setEdges (· = e) fun row => Function.update row key value
  | .createEdge a => mergeEdge a id
  | .deleteEdge e => deleteEdges (· = e)

/-- The graph a statement leaves, and the changes it made. -/
abbrev Statement := Graph → Graph × List GraphUpdate

/-- A clause that makes the changes it computes. -/
def emit (updates : Graph → List GraphUpdate) : Statement := fun g =>
  (runAll GraphUpdate.apply (updates g) g, updates g)

/-- One statement after another, each on the graph that the last one left. -/
def seqAll {α : Type*} (f : α → Statement) : List α → Statement
  | [], g => (g, [])
  | x :: xs, g =>
    let (g₁, updates₁) := f x g
    let (g₂, updates₂) := seqAll f xs g₁
    (g₂, updates₁ ++ updates₂)

/-- `FOREACH (_ IN CASE WHEN v.key IS NULL OR v.key <> value THEN [1] ELSE [] END |
SET v.key = value)`. Numbers compare by value, so a whole float counts as the integer. -/
def guardedSet (v : Node) (key : String) (value : PyValue) : Statement := emit fun g =>
  if prop g v key = .null ∨ cypherNumber (prop g v key) ≠ cypherNumber value then
    [.setNode v key value]
  else []

section seqAll

variable {α : Type*} {f : α → Statement} {xs : List α} {g : Graph}

@[simp] theorem seqAll_nil : seqAll f [] g = (g, []) := rfl

theorem fst_seqAll_cons {x : α} : (seqAll f (x :: xs) g).1 = (seqAll f xs (f x g).1).1 := rfl

/-- What each statement keeps, the sequence keeps. -/
theorem seqAll_invariant {I : Graph → Prop} (hstep : ∀ x ∈ xs, ∀ g, I g → I (f x g).1)
    (hg : I g) : I (seqAll f xs g).1 := by
  induction xs generalizing g with
  | nil => exact hg
  | cons x xs ih =>
    exact ih (fun y hy => hstep y (List.mem_cons_of_mem _ hy)) (hstep x (List.mem_cons_self ..) g hg)

/-- Statements that do nothing, one after another. -/
theorem seqAll_eq_of_forall (h : ∀ x ∈ xs, f x g = (g, [])) : seqAll f xs g = (g, []) := by
  induction xs with
  | nil => rfl
  | cons x xs ih =>
    have hx := h x (List.mem_cons_self ..)
    have hxs := ih fun y hy => h y (List.mem_cons_of_mem _ hy)
    simp only [seqAll, hx, hxs, List.append_nil]

/-- A sweep: what each statement establishes for the items it covers and keeps for the others holds
of every covered item in the end. -/
theorem seqAll_cover {β : Type*} {I : Graph → Prop} {C : α → Set β} {Q : Graph → β → Prop}
    (hstep : ∀ x ∈ xs, ∀ g, I g →
      I (f x g).1 ∧ (∀ b ∈ C x, Q (f x g).1 b) ∧ ∀ b ∉ C x, Q g b → Q (f x g).1 b)
    (hg : I g) :
    I (seqAll f xs g).1 ∧ ∀ x ∈ xs, ∀ b ∈ C x, Q (seqAll f xs g).1 b := by
  refine ⟨seqAll_invariant (fun x hx g hI => (hstep x hx g hI).1) hg, ?_⟩
  suffices hall : ∀ b, Q g b ∨ (∃ x ∈ xs, b ∈ C x) → Q (seqAll f xs g).1 b from
    fun x hx b hb => hall b (Or.inr ⟨x, hx, hb⟩)
  induction xs generalizing g with
  | nil =>
    rintro b (hb | ⟨x, hx, -⟩)
    · exact hb
    · exact absurd hx List.not_mem_nil
  | cons y ys ih =>
    intro b hb
    obtain ⟨hI, hcovered, hkept⟩ := hstep y (List.mem_cons_self ..) g hg
    refine ih (fun x hx => hstep x (List.mem_cons_of_mem _ hx)) hI b ?_
    by_cases hy : b ∈ C y
    · exact Or.inl (hcovered b hy)
    · rcases hb with hb | ⟨x, hx, hbx⟩
      · exact Or.inl (hkept b hy hb)
      · rcases List.mem_cons.mp hx with rfl | hx
        · exact absurd hbx hy
        · exact Or.inr ⟨x, hx, hbx⟩

end seqAll

/-- What a statement on the properties of one node leaves alone. -/
structure OnlyProps (v : Node) (keys : Set String) (g g' : Graph) : Prop where
  mem_nodes (w : Node) : w ∈ g'.nodes ↔ w ∈ g.nodes
  edges : g'.edges = g.edges
  other (w : Node) : w ≠ v → g'.nodes.row w = g.nodes.row w
  prop (key : String) : key ∉ keys → prop g' v key = prop g v key

theorem OnlyProps.refl (v : Node) (keys : Set String) (g : Graph) : OnlyProps v keys g g :=
  ⟨fun _ => Iff.rfl, rfl, fun _ _ => rfl, fun _ _ => rfl⟩

theorem OnlyProps.trans {v : Node} {keys : Set String} {g g' g'' : Graph}
    (h : OnlyProps v keys g g') (h' : OnlyProps v keys g' g'') : OnlyProps v keys g g'' where
  mem_nodes w := (h'.mem_nodes w).trans (h.mem_nodes w)
  edges := h'.edges.trans h.edges
  other w hw := (h'.other w hw).trans (h.other w hw)
  prop key hk := (h'.prop key hk).trans (h.prop key hk)

theorem OnlyProps.mono {v : Node} {keys keys' : Set String} {g g' : Graph}
    (h : OnlyProps v keys g g') (hk : keys ⊆ keys') : OnlyProps v keys' g g' :=
  ⟨h.mem_nodes, h.edges, h.other, fun key hkey => h.prop key fun hmem => hkey (hk hmem)⟩

/-- A property that a guarded set need not write. -/
def Settled (g : Graph) (v : Node) (kv : String × PyValue) : Prop :=
  prop g v kv.1 ≠ .null ∧ cypherNumber (prop g v kv.1) = cypherNumber kv.2

/-- A settled property stays so where the row stays as it is. -/
theorem Settled.of_row_eq {g g' : Graph} {v : Node} {kv : String × PyValue} (h : Settled g v kv)
    (hrow : g'.nodes.row v = g.nodes.row v) : Settled g' v kv := by
  unfold Settled prop at h ⊢
  rwa [hrow]

section guardedSet

variable {g : Graph} {v : Node} {props : List (String × PyValue)}

theorem guardedSet_eq_of_settled (kv : String × PyValue) (h : Settled g v kv) : guardedSet v kv.1 kv.2 g = (g, []) := by
  have hcond : ¬(prop g v kv.1 = .null ∨ cypherNumber (prop g v kv.1) ≠ cypherNumber kv.2) := by
    rintro (hnull | hne)
    · exact h.1 hnull
    · exact hne h.2
  simp only [guardedSet, emit, if_neg hcond, runAll_nil]

theorem prop_setNode (hv : v ∈ g.nodes) (key key' : String) (value : PyValue) :
    prop ((GraphUpdate.setNode v key value).apply g) v key' =
      if key' = key then value else prop g v key' := by
  change (g.setNodes (· = v) fun row => Function.update row key value).nodes.row v key' = _
  rw [row_nodes_setNodes, if_pos ⟨hv, rfl⟩, Function.update_apply]
  rfl

theorem onlyProps_setNode (g : Graph) (v : Node) (key : String) (value : PyValue) :
    OnlyProps v {key} g ((GraphUpdate.setNode v key value).apply g) where
  mem_nodes _ := Iff.rfl
  edges := rfl
  other w hw := by
    change (g.setNodes (· = v) fun row => Function.update row key value).nodes.row w = _
    rw [row_nodes_setNodes, if_neg fun h => hw h.2]
  prop key' hk := by
    change (g.setNodes (· = v) fun row => Function.update row key value).nodes.row v key' = _
    rw [row_nodes_setNodes]
    split_ifs
    · exact Function.update_of_ne hk ..
    · rfl

/-- What one guarded set leaves. -/
theorem guardedSet_spec (kv : String × PyValue) (hv : v ∈ g.nodes) (hvalue : kv.2 ≠ .null) :
    OnlyProps v {kv.1} g (guardedSet v kv.1 kv.2 g).1 ∧
      Settled (guardedSet v kv.1 kv.2 g).1 v kv := by
  by_cases hs : Settled g v kv
  · rw [guardedSet_eq_of_settled kv hs]
    exact ⟨.refl .., hs⟩
  · have hcond : prop g v kv.1 = .null ∨ cypherNumber (prop g v kv.1) ≠ cypherNumber kv.2 := by
      by_contra hcond
      exact hs ⟨fun h => hcond (Or.inl h), by_contra fun h => hcond (Or.inr h)⟩
    have hgraph : (guardedSet v kv.1 kv.2 g).1 =
        (GraphUpdate.setNode v kv.1 kv.2).apply g := by
      simp only [guardedSet, emit, if_pos hcond, runAll_cons, runAll_nil]
    have hprop := prop_setNode hv kv.1 kv.1 kv.2
    rw [if_pos rfl] at hprop
    rw [hgraph]
    exact ⟨onlyProps_setNode .., by rwa [hprop], by rw [hprop]⟩

/-- What guarded sets of the properties of a node leave. -/
theorem seqAll_guardedSet (props : List (String × PyValue)) (hv : v ∈ g.nodes) (hvalue : ∀ kv ∈ props, kv.2 ≠ .null)
    (hfun : ∀ kv ∈ props, ∀ kv' ∈ props, kv.1 = kv'.1 → kv = kv') :
    OnlyProps v {key | ∃ kv ∈ props, kv.1 = key} g
        (seqAll (fun kv => guardedSet v kv.1 kv.2) props g).1 ∧
      ∀ kv ∈ props, Settled (seqAll (fun kv => guardedSet v kv.1 kv.2) props g).1 v kv := by
  induction props generalizing g with
  | nil => exact ⟨.refl .., nofun⟩
  | cons kv props ih =>
    have hmem := List.mem_cons_self (a := kv) (l := props)
    obtain ⟨honly, hsettled⟩ := guardedSet_spec kv hv (hvalue kv hmem)
    obtain ⟨honly', hsettled'⟩ := ih ((honly.mem_nodes v).mpr hv)
      (fun kv' hkv' => hvalue kv' (List.mem_cons_of_mem _ hkv'))
      (fun a ha b hb => hfun a (List.mem_cons_of_mem _ ha) b (List.mem_cons_of_mem _ hb))
    rw [fst_seqAll_cons]
    refine ⟨(honly.mono ?_).trans (honly'.mono ?_), fun kv' hkv' => ?_⟩
    · rintro key rfl
      exact ⟨kv, hmem, rfl⟩
    · rintro key ⟨kv', hkv', rfl⟩
      exact ⟨kv', List.mem_cons_of_mem _ hkv', rfl⟩
    · rcases List.mem_cons.mp hkv' with rfl | hkv'
      · by_cases hlater : ∃ kv'' ∈ props, kv''.1 = kv'.1
        · obtain ⟨kv'', hkv'', heq⟩ := hlater
          obtain rfl := hfun kv'' (List.mem_cons_of_mem _ hkv'') kv' hmem heq
          exact hsettled' kv'' hkv''
        · have hsame := honly'.prop kv'.1 hlater
          exact ⟨hsame ▸ hsettled.1, hsame ▸ hsettled.2⟩
      · exact hsettled' kv' hkv'

/-- Guarded sets of settled properties do nothing. -/
theorem seqAll_guardedSet_eq (h : ∀ kv ∈ props, Settled g v kv) :
    seqAll (fun kv => guardedSet v kv.1 kv.2) props g = (g, []) :=
  seqAll_eq_of_forall fun kv hkv => guardedSet_eq_of_settled kv (h kv hkv)

end guardedSet

/-! ### Changes to edges -/

section Edges

variable {g : Graph}

theorem runAll_deleteEdge (es : List (Edge Node Rel)) :
    let g' := runAll GraphUpdate.apply (es.map .deleteEdge) g
    g'.nodes = g.nodes ∧ (∀ e, e ∈ g'.edges ↔ e ∈ g.edges ∧ e ∉ es) ∧
      ∀ e, e ∉ es → g'.edges.row e = g.edges.row e := by
  induction es generalizing g with
  | nil => exact ⟨rfl, fun e => by simp, fun _ _ => rfl⟩
  | cons e es ih =>
    obtain ⟨hnodes, hmem, hrow⟩ := ih (g := (GraphUpdate.deleteEdge e).apply g)
    refine ⟨hnodes, fun e' => ?_, fun e' he' => ?_⟩
    · refine (hmem e').trans ?_
      have hdel : e' ∈ ((GraphUpdate.deleteEdge e).apply g).edges ↔ e' ∈ g.edges ∧ ¬e' = e :=
        mem_edges_deleteEdges
      rw [hdel, List.mem_cons, not_or, and_assoc]
    · rw [List.mem_cons, not_or] at he'
      refine (hrow e' he'.2).trans ?_
      exact row_edges_deleteEdges.trans (if_neg he'.1)

theorem runAll_setEdge (es : List (Edge Node Rel)) (key : String) (value : PyValue) :
    let g' := runAll GraphUpdate.apply (es.map fun e => .setEdge e key value) g
    g'.nodes = g.nodes ∧ (∀ e, e ∈ g'.edges ↔ e ∈ g.edges) ∧
      ∀ e ∈ g.edges, g'.edges.row e =
        if e ∈ es then Function.update (g.edges.row e) key value else g.edges.row e := by
  induction es generalizing g with
  | nil => exact ⟨rfl, fun _ => Iff.rfl, fun _ _ => rfl⟩
  | cons e es ih =>
    obtain ⟨hnodes, hmem, hrow⟩ := ih (g := (GraphUpdate.setEdge e key value).apply g)
    refine ⟨hnodes, hmem, fun e' he' => (hrow e' he').trans ?_⟩
    by_cases heq : e' = e
    · subst heq
      have hset : ((GraphUpdate.setEdge e' key value).apply g).edges.row e' =
          Function.update (g.edges.row e') key value := if_pos ⟨he', rfl⟩
      rw [hset, if_pos (List.mem_cons_self ..), Function.update_idem, ite_self]
    · have hother : ((GraphUpdate.setEdge e key value).apply g).edges.row e' = g.edges.row e' :=
        if_neg fun h => heq h.2
      simp only [hother, List.mem_cons, heq, false_or]

end Edges

end Graphinator
