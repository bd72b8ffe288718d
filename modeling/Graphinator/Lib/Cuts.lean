import Graphinator.Lib.MatchedLinks

/-!
# Cuts of a queue into batches

The items of a queue are taken in batches, and how many at a time is not for the writer of the
program to say. Up to its links a batch acts like its items one after another, so that all cuts of a
queue into batches leave the same graph but for the links. A batch tries its links when the nodes of
all its items are there: a link may find a target that a later item of the batch creates, and finds
nothing where the items come one by one.

## Main definitions

* `Linking.Batches` : programs for the batches of a queue.
* `Linking.LinksFindEarlier` : no link waits for a later item.

## Main results

* `Linking.forall_cut_iff` : exactly when the cut does not matter.
-/

open PropertyGraph

/-- Where an element of the concatenation comes from. -/
theorem List.exists_of_flatten_eq {β : Type*} {cs : List (List β)} {before after : List β} {z : β}
    (h : cs.flatten = before ++ z :: after) : ∃ front c back c₁ c₂,
      cs = front ++ c :: back ∧ c = c₁ ++ z :: c₂ ∧ before = front.flatten ++ c₁ := by
  induction cs generalizing before with
  | nil => exact absurd h.symm (List.append_ne_nil_of_right_ne_nil _ (List.cons_ne_nil _ _))
  | cons c cs ih =>
    have hlater : ∀ {rest : List β}, cs.flatten = rest ++ z :: after → before = c ++ rest →
        ∃ front c' back c₁ c₂, c :: cs = front ++ c' :: back ∧ c' = c₁ ++ z :: c₂ ∧
          before = front.flatten ++ c₁ := by
      intro rest hrest hbefore
      obtain ⟨front, c', back, c₁, c₂, rfl, hc', rfl⟩ := ih hrest
      refine ⟨c :: front, c', back, c₁, c₂, rfl, hc', ?_⟩
      rw [hbefore, List.flatten_cons, List.append_assoc]
    rw [List.flatten_cons, List.append_eq_append_iff] at h
    rcases h with ⟨rest, hbefore, hrest⟩ | ⟨rest, hc, hrest⟩
    · exact hlater hrest hbefore
    · cases rest with
      | nil =>
        have hnil : cs.flatten = [] ++ z :: after := hrest.symm
        exact hlater hnil (by rw [hc, List.append_nil, List.append_nil])
      | cons z' rest =>
        obtain ⟨rfl, -⟩ := List.cons.inj hrest
        exact ⟨[], c, cs, before, rest, rfl, hc, rfl⟩

namespace Linking

variable {V K ρ σ α β : Type*} [Inhabited ρ] [Inhabited σ] [DecidableEq V] [DecidableEq K]

/-- Programs for the batches of a queue. A batch of consecutive items acts like its items one after
another up to its links, and has their links and their nodes. -/
structure Batches (L : Linking V K ρ σ α) (batch : List β → α) (items : List β) : Prop where
  program {c : List β} : c <:+: items → ∀ g : PropertyGraph V K ρ σ,
    L.program (batch c) g = runAll (fun x => L.program (batch [x])) c g
  links {c : List β} {a : Arc V K} : c <:+: items →
    (a ∈ L.links (batch c) ↔ ∃ x ∈ c, a ∈ L.links (batch [x]))
  creates {c : List β} {a : Arc V K} : c <:+: items → L.isLink a →
    (a.dst ∈ L.creates (batch c) ↔ ∃ x ∈ c, a.dst ∈ L.creates (batch [x]))

/-- No link waits for a later item: its target is there at the start, or no item creates it, or an
item creates it that does not come after all the items with the link. -/
def LinksFindEarlier (L : Linking V K ρ σ α) (batch : List β → α) (items : List β)
    (present : Set V) : Prop :=
  ∀ x ∈ items, ∀ a ∈ L.links (batch [x]), a.dst ∈ present ∨
    (∀ y ∈ items, a.dst ∉ L.creates (batch [y])) ∨
    ∃ before z after, items = before ++ z :: after ∧ a ∈ L.links (batch [z]) ∧
      ∃ y ∈ before ++ [z], a.dst ∈ L.creates (batch [y])

variable {L : Linking V K ρ σ α} {batch : List β → α} {items : List β} {S : Set V} {a : Arc V K}
  {cs : List (List β)}

/-- The batches of a cut are parts of the queue. -/
theorem infix_of_cut (hcs : cs.flatten = items) {c : List β} (hc : c ∈ cs) : c <:+: items :=
  hcs ▸ List.infix_of_mem_flatten hc

namespace Batches

variable (h : L.Batches batch items)
include h

/-- All cuts leave the same graph but for the links. -/
theorem runAll_program (hcs : cs.flatten = items) (g : PropertyGraph V K ρ σ) :
    runAll L.program (cs.map batch) g = runAll (fun x => L.program (batch [x])) items g := by
  have hparts : ∀ c ∈ cs, c <:+: items := fun c hc => infix_of_cut hcs hc
  rw [← hcs]
  clear hcs
  induction cs generalizing g with
  | nil => rfl
  | cons c cs ih =>
    obtain ⟨hc, hparts⟩ := List.forall_mem_cons.mp hparts
    rw [List.map_cons, runAll_cons, h.program hc, List.flatten_cons, runAll_append]
    exact ih _ hparts

/-- A cut makes the links whose target is there or is created by some item of the queue, at most. -/
theorem of_links (hcs : cs.flatten = items) (ha : L.isLink a)
    (hlinks : L.Links (cs.map batch) S a) : (∃ x ∈ items, a ∈ L.links (batch [x])) ∧
      (a.dst ∈ S ∨ ∃ y ∈ items, a.dst ∈ L.creates (batch [y])) := by
  have hitems : ∀ c ∈ cs, ∀ x ∈ c, x ∈ items :=
    fun c hc x hx => hcs ▸ List.mem_flatten.mpr ⟨c, hc, hx⟩
  obtain ⟨before, b, after, hsplit, hlink, hdst⟩ := hlinks
  have hmem : ∀ b' ∈ before ++ [b], b' ∈ cs.map batch := by
    intro b' hb'
    rw [hsplit]
    simp only [List.mem_append, List.mem_cons, List.not_mem_nil, or_false] at hb' ⊢
    tauto
  constructor
  · obtain ⟨c, hc, rfl⟩ := List.mem_map.mp (hmem b (by simp))
    obtain ⟨x, hx, hxa⟩ := (h.links (infix_of_cut hcs hc)).mp hlink
    exact ⟨x, hitems c hc x hx, hxa⟩
  · refine hdst.imp_right fun ⟨b', hb', hcreates⟩ => ?_
    obtain ⟨c, hc, rfl⟩ := List.mem_map.mp (hmem b' hb')
    obtain ⟨y, hy, hya⟩ := (h.creates (infix_of_cut hcs hc) ha).mp hcreates
    exact ⟨y, hitems c hc y hy, hya⟩

/-- A cut makes the links that find their target with the items one by one. -/
theorem links_of_split (hcs : cs.flatten = items) {before after : List β} {z : β}
    (hsplit : items = before ++ z :: after) (hlink : a ∈ L.links (batch [z]))
    (hdst : a.dst ∈ S ∨ ∃ y ∈ before ++ [z], a.dst ∈ L.creates (batch [y])) :
    L.Links (cs.map batch) S a := by
  have ha := L.isLink_of_mem hlink
  obtain ⟨front, c, back, c₁, c₂, rfl, rfl, rfl⟩ :=
    List.exists_of_flatten_eq (hcs.trans hsplit)
  have hpart : ∀ c' ∈ front ++ (c₁ ++ z :: c₂) :: back, c' <:+: items :=
    fun c' hc' => infix_of_cut hcs hc'
  have hc := hpart (c₁ ++ z :: c₂) (by simp)
  refine ⟨front.map batch, batch (c₁ ++ z :: c₂), back.map batch, by simp,
    (h.links hc).mpr ⟨z, by simp, hlink⟩, hdst.imp_right fun ⟨y, hy, hcreates⟩ => ?_⟩
  -- the item that creates the target is in an earlier batch, or in the same
  rw [List.append_assoc, List.mem_append] at hy
  rcases hy with hy | hy
  · obtain ⟨c', hc', hyc'⟩ := List.mem_flatten.mp hy
    refine ⟨batch c', by simpa using Or.inl ⟨c', hc', rfl⟩, ?_⟩
    exact (h.creates (hpart c' (by simp [hc'])) ha).mpr ⟨y, hyc', hcreates⟩
  · refine ⟨batch (c₁ ++ z :: c₂), by simp, (h.creates hc ha).mpr ⟨y, ?_, hcreates⟩⟩
    simp only [List.mem_append, List.mem_cons, List.not_mem_nil, or_false] at hy ⊢
    tauto

/-- **The cut does not matter exactly where no link waits for a later item.** -/
theorem forall_cut_iff (g : PropertyGraph V K ρ σ) :
    (∀ cs cs' : List (List β), cs.flatten = items → cs'.flatten = items →
      runAll L.run (cs.map batch) g = runAll L.run (cs'.map batch) g) ↔
    L.LinksFindEarlier batch items {v | v ∈ g.nodes} := by
  have hprogram : ∀ cs cs' : List (List β), cs.flatten = items → cs'.flatten = items →
      ∀ g : PropertyGraph V K ρ σ,
        runAll L.program (cs.map batch) g = runAll L.program (cs'.map batch) g :=
    fun cs cs' hcs hcs' g => (h.runAll_program hcs g).trans (h.runAll_program hcs' g).symm
  have hone : (items.map fun x => [x]).flatten = items := by
    rw [← List.flatMap_def]
    exact List.flatMap_singleton' items
  have hall : [items].flatten = items := List.flatten_singleton
  constructor
  · intro hsame x hx a ha
    by_contra hnot
    simp only [not_or, not_forall, not_not] at hnot
    obtain ⟨hdst, ⟨y, hy, hcreates⟩, hlater⟩ := hnot
    have hno : ¬g.HasArc a := fun harc => hdst harc.dst_mem
    -- One batch makes the link, and the items one by one do not.
    have hlinks : L.Links ([items].map batch) {v | v ∈ g.nodes} a := by
      refine ⟨[], batch items, [], rfl, (h.links List.infix_rfl).mpr ⟨x, hx, ha⟩, Or.inr ?_⟩
      exact ⟨batch items, by simp,
        (h.creates List.infix_rfl (L.isLink_of_mem ha)).mpr ⟨y, hy, hcreates⟩⟩
    rw [run_eq_iff (hprogram _ _ hall hone) |>.mp (hsame _ _ hall hone) a (L.isLink_of_mem ha) hno]
      at hlinks
    obtain ⟨before, b, after, hsplit, hlink, hfound⟩ := hlinks
    rw [List.map_map] at hsplit
    obtain ⟨front, rest, hitems, rfl, hrest⟩ := List.map_eq_append_iff.mp hsplit
    obtain ⟨z, back, rfl, rfl, -⟩ := List.map_eq_cons_iff.mp hrest
    obtain ⟨b', hb', hcreates'⟩ := hfound.resolve_left hdst
    refine hlater ⟨front, z, back, hitems, hlink, ?_⟩
    rw [← List.map_singleton, ← List.map_append] at hb'
    obtain ⟨y', hy', rfl⟩ := List.mem_map.mp hb'
    exact ⟨y', hy', hcreates'⟩
  · intro hfind cs cs' hcs hcs'
    refine (run_eq_iff (hprogram cs cs' hcs hcs')).mpr fun a ha _ => ?_
    have hlinks : ∀ {cs cs' : List (List β)}, cs.flatten = items → cs'.flatten = items →
        L.Links (cs.map batch) {v | v ∈ g.nodes} a →
          L.Links (cs'.map batch) {v | v ∈ g.nodes} a := by
      intro cs cs' hcs hcs' hmade
      obtain ⟨⟨x, hx, hxa⟩, hdst⟩ := h.of_links hcs ha hmade
      rcases hfind x hx a hxa with hthere | hnone | ⟨before, z, after, hsplit, hlink, hearlier⟩
      · obtain ⟨before, after, hsplit⟩ := List.append_of_mem hx
        exact h.links_of_split hcs' hsplit hxa (Or.inl hthere)
      · obtain ⟨before, after, hsplit⟩ := List.append_of_mem hx
        refine h.links_of_split hcs' hsplit hxa (Or.inl (hdst.resolve_right ?_))
        exact fun ⟨y, hy, hcreates⟩ => hnone y hy hcreates
      · exact h.links_of_split hcs' hsplit hlink (Or.inr hearlier)
    exact ⟨hlinks hcs hcs', hlinks hcs' hcs⟩

end Batches

end Linking
