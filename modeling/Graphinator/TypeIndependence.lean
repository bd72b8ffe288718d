import Graphinator.Lib.ArcEffect
import Graphinator.Transactions

/-!
# What the projections of different types share

Up to its links, the projection of a type of record is its stages. Those of different types replace
different edges, and where they write properties of one node the order does not matter: the record
of an artist or a label sets its name, and a release fills it in where it is missing.

## Main definitions

* `Staged.batchFootprint` : what a list of rows may write.
* `NamedRows` : rows with a name of their own.
* `mergedNodes` : the nodes that a list of rows merges.

## Main results

* `independent_of_ne` : rows of different types are independent.
* `nodeEffect_runStages` : the nodes that a transaction leaves.
-/

namespace Graphinator

open PropertyGraph PyValue

/-! ### Footprints -/

/-- What the rows of a transaction may write. -/
def Staged.batchFootprint {ρ : Type} (P : Staged ρ) (rows : List ρ) : Footprint Node Rel Row where
  updates v := {u | ∃ r ∈ rows, u ∈ P.updates r v}
  owned := {a | ∃ r ∈ rows, a ∈ P.managed r}
  merged := {a | a.kind ∈ P.shared}

theorem Staged.within_batch {ρ : Type} (P : Staged ρ) (rows : List ρ) :
    Within (P.batchFootprint rows) (runStages P.programs rows) := by
  refine Within.runAll fun f hf => Within.runAll fun r hr => ?_
  refine (P.within_programs hf r).mono ⟨fun v u hu => ⟨r, hr, hu⟩, fun a ha => ⟨r, hr, ha⟩, ?_⟩
  exact subset_rfl

/-- The types of the edges that a projection replaces. -/
def Rel.isReplaced : Rel → Bool
  | .BY | .ON | .DERIVED_FROM | .IS | .CREDITED_ON _ | .ISSUED_ON _ | .CREDITED_TO .. => true
  | _ => false

/-- The types of the edges that a projection merges and leaves alone otherwise. -/
def Rel.isShared : Rel → Bool
  | .MEMBER_OF | .ALIAS_OF | .SUBLABEL_OF | .PART_OF | .IN_FAMILY => true
  | _ => false

section Footprints

variable {t t' : DataType} {a : Arc Node Rel} {v : Node} {u : Row → Row}

theorem isReplaced_of_managed {r : RowOf t} (h : a ∈ (stagesOf t).managed r) :
    a.kind.isReplaced = true := by
  obtain ⟨kind, src, dst⟩ := a
  cases t with
  | artists => cases h
  | labels => cases h
  | masters =>
    rcases h.2 with rfl | rfl
    · rfl
    · rfl
  | releases =>
    rcases h with ⟨-, hkind⟩ | ⟨-, role, rfl⟩
    · cases kind <;> first | rfl | cases hkind
    · rfl

theorem isShared_of_shared {kind : Rel} (h : kind ∈ (stagesOf t).shared) :
    kind.isShared = true := by
  cases t with
  | artists => rcases h with rfl | rfl <;> rfl
  | labels =>
    obtain rfl := Set.mem_singleton_iff.mp h
    rfl
  | masters =>
    obtain rfl := Set.mem_singleton_iff.mp h
    rfl
  | releases => rcases h with rfl | rfl <;> rfl

theorem isReplaced_eq_false {kind : Rel} (h : kind.isShared = true) : kind.isReplaced = false := by
  cases kind <;> first | rfl | cases h

/-- The label of the node of a row. -/
theorem label_own {r : RowOf t} : ((stagesOf t).own r).label = t.nodeLabel := by
  cases t <;> rfl

/-- A projection sets the properties of the nodes of its records, and a release fills in the names
of the artists and labels it references and sets properties of media and companies. -/
theorem updates_cases (env : Env) {r : RowOf t} (h : u ∈ (stagesOf t).updates r v) :
    (v = (stagesOf t).own r ∧ u = setProps ((writerOf env t).props r)) ∨
    (t = .releases ∧ (v.label = .artist ∨ v.label = .label) ∧
      ∃ name, u = fillName (textValue name)) ∨
    (t = .releases ∧ (v.label = .medium ∨ v.label = .company) ∧
      ∀ row, u row "sha256" = row "sha256") := by
  cases t with
  | artists => exact Or.inl h
  | labels => exact Or.inl h
  | masters => exact Or.inl h
  | releases =>
    change u ∈ releaseUpdates r v at h
    unfold releaseUpdates at h
    split at h
    · exact Or.inl h
    · next hv =>
      obtain ⟨a, -, -, rfl⟩ := h
      exact Or.inr (Or.inl ⟨rfl, Or.inl hv, a.name, rfl⟩)
    · next hv =>
      obtain ⟨l, -, -, rfl⟩ := h
      exact Or.inr (Or.inl ⟨rfl, Or.inr hv, l.name, rfl⟩)
    · next hv =>
      obtain ⟨row, -, -, rfl⟩ := h
      exact Or.inr (Or.inr ⟨rfl, Or.inl hv, setProps_of_notMem (by simp)⟩)
    · next hv =>
      obtain ⟨rows, -, row, -, -, rfl⟩ := h
      exact Or.inr (Or.inr ⟨rfl, Or.inr hv, setProps_of_notMem (by simp)⟩)
    · cases h

/-- A projection keeps the hashes of the nodes that are not of its records. -/
theorem hash_of_updates (env : Env) {r : RowOf t} (h : u ∈ (stagesOf t).updates r v)
    (hv : (stagesOf t).own r ≠ v) (row : Row) : u row "sha256" = row "sha256" := by
  rcases updates_cases env h with ⟨rfl, -⟩ | ⟨-, -, name, rfl⟩ | ⟨-, -, hu⟩
  · exact absurd rfl hv
  · exact fillName_of_ne (by decide) _ row
  · exact hu row

/-- A name that is there is not filled in. -/
theorem setProps_fillName_commute {props : List (String × PyValue)} {name own : PyValue}
    (hnodup : (props.map (·.1)).Nodup) (hname : ("name", own) ∈ props) (hown : own ≠ .null) :
    Function.Commute (setProps props) (fillName name) := by
  intro row
  have hset : fillName name (setProps props row) = setProps props row := by
    unfold fillName
    rw [if_neg]
    rw [setProps_of_mem hnodup hname row]
    exact hown
  rw [hset]
  ext key
  by_cases hkey : ∃ x, (key, x) ∈ props
  · obtain ⟨x, hx⟩ := hkey
    exact (setProps_of_mem hnodup hx _).trans (setProps_of_mem hnodup hx row).symm
  · have hne : key ≠ "name" := fun h => hkey ⟨own, h ▸ hname⟩
    have hnot : ∀ kv ∈ props, kv.1 ≠ key := fun kv hkv h => hkey ⟨kv.2, h ▸ hkv⟩
    rw [setProps_of_notMem hnot, setProps_of_notMem hnot, fillName_of_ne hne]

/-- The rows carry a name of their own, where their type does. -/
def NamedRows (env : Env) (t : DataType) (rows : List (RowOf t)) : Prop :=
  t = .artists ∨ t = .labels → ∀ r ∈ rows, (((writerOf env t).props r).map (·.1)).Nodup ∧
    ∃ name, name ≠ .null ∧ ("name", name) ∈ (writerOf env t).props r

/-- What two types of record do to the properties of one node commutes. -/
theorem updates_commute (env : Env) (hne : t ≠ t') {rows : List (RowOf t)}
    {rows' : List (RowOf t')} (hrows : NamedRows env t rows) (hrows' : NamedRows env t' rows')
    {u' : Row → Row} {r : RowOf t} {r' : RowOf t'} (hr : r ∈ rows) (hr' : r' ∈ rows')
    (hu : u ∈ (stagesOf t).updates r v) (hu' : u' ∈ (stagesOf t').updates r' v) :
    Function.Commute u u' := by
  rcases updates_cases env hu with ⟨rfl, rfl⟩ | ⟨rfl, hlabel, name, rfl⟩ | ⟨rfl, hlabel, -⟩
  · rcases updates_cases env hu' with ⟨hv, -⟩ | ⟨rfl, hlabel, name, rfl⟩ | ⟨rfl, hlabel, -⟩
    · have hsame := congrArg Node.label hv
      rw [label_own, label_own] at hsame
      cases t <;> cases t' <;> first | exact absurd rfl hne | cases hsame
    · rw [label_own] at hlabel
      obtain ⟨hnodup, own, hnull, hmem⟩ := hrows (by cases t <;> simp_all [DataType.nodeLabel]) r hr
      exact setProps_fillName_commute hnodup hmem hnull
    · rw [label_own] at hlabel
      cases t <;> rcases hlabel with h | h <;> cases h
  · rcases updates_cases env hu' with ⟨rfl, rfl⟩ | ⟨rfl, -⟩ | ⟨rfl, -⟩
    · rw [label_own] at hlabel
      obtain ⟨hnodup, own, hnull, hmem⟩ :=
        hrows' (by cases t' <;> simp_all [DataType.nodeLabel]) r' hr'
      exact (setProps_fillName_commute hnodup hmem hnull).symm
    · exact absurd rfl hne
    · exact absurd rfl hne
  · rcases updates_cases env hu' with ⟨rfl, -⟩ | ⟨rfl, -⟩ | ⟨rfl, -⟩
    · rw [label_own] at hlabel
      cases t' <;> rcases hlabel with h | h <;> cases h
    · exact absurd rfl hne
    · exact absurd rfl hne

/-- The edges that a record replaces leave its node, or are credits that enter it. -/
theorem managed_cases {r : RowOf t} (h : a ∈ (stagesOf t).managed r) :
    (a.src = (stagesOf t).own r ∧ ∀ role, a.kind ≠ .CREDITED_ON role) ∨
      (a.dst = (stagesOf t).own r ∧ ∃ role, a.kind = .CREDITED_ON role) := by
  cases t with
  | artists => cases h
  | labels => cases h
  | masters =>
    refine Or.inl ⟨h.1, fun role hkind => ?_⟩
    rcases h.2 with h | h <;> exact nomatch h.symm.trans hkind
  | releases =>
    rcases h with ⟨hsrc, hkind⟩ | ⟨hdst, hkind⟩
    · refine Or.inl ⟨hsrc, fun role h => ?_⟩
      rw [h] at hkind
      cases hkind
    · exact Or.inr ⟨hdst, hkind⟩

/-- The records of two types replace different edges. -/
theorem notMem_managed (hne : t ≠ t') {r : RowOf t} {r' : RowOf t'}
    (h : a ∈ (stagesOf t).managed r) : a ∉ (stagesOf t').managed r' := by
  intro h'
  have hown : (stagesOf t).own r ≠ (stagesOf t').own r' := by
    intro heq
    have hlabel := congrArg Node.label heq
    rw [label_own, label_own] at hlabel
    cases t <;> cases t' <;> first | exact hne rfl | cases hlabel
  rcases managed_cases h with ⟨hsrc, hkind⟩ | ⟨hdst, role, hkind⟩
  · rcases managed_cases h' with ⟨hsrc', -⟩ | ⟨-, role, hkind'⟩
    · exact hown (hsrc.symm.trans hsrc')
    · exact hkind role hkind'
  · rcases managed_cases h' with ⟨-, hkind'⟩ | ⟨hdst', -⟩
    · exact hkind' role hkind
    · exact hown (hdst.symm.trans hdst')

/-- **Transactions of different types are independent.** -/
theorem independent_of_ne (env : Env) (hne : t ≠ t') {rows : List (RowOf t)}
    {rows' : List (RowOf t')} (hrows : NamedRows env t rows) (hrows' : NamedRows env t' rows') :
    ((stagesOf t).batchFootprint rows).Independent ((stagesOf t').batchFootprint rows') where
  updates v := by
    rintro u u' ⟨r, hr, hu⟩ ⟨r', hr', hu'⟩
    exact updates_commute env hne hrows hrows' hr hr' hu hu'
  owned_owned := by
    refine Set.disjoint_left.mpr ?_
    rintro a ⟨r, -, h⟩ ⟨r', -, h'⟩
    exact notMem_managed hne h h'
  owned_merged := by
    refine Set.disjoint_left.mpr ?_
    rintro a ⟨r, -, h⟩ h'
    have hshared := isReplaced_eq_false (isShared_of_shared h')
    rw [isReplaced_of_managed h] at hshared
    cases hshared
  merged_owned := by
    refine Set.disjoint_left.mpr ?_
    rintro a h ⟨r', -, h'⟩
    have hshared := isReplaced_eq_false (isShared_of_shared h)
    rw [isReplaced_of_managed h'] at hshared
    cases hshared

end Footprints

/-! ### The nodes that a transaction merges -/

section Nodes

variable {n v : Node} {kind : Rel}

theorem nodeEffect_linkTo : NodeEffect {n, v} (linkTo n kind v) :=
  ((NodeEffect.mergeEdge ⟨kind, n, v⟩ id).comp (.mergeNode v id)).congr (by simp)

theorem nodeEffect_linkFrom : NodeEffect {n, v} (linkFrom n kind v) := by
  refine ((NodeEffect.mergeEdge ⟨kind, v, n⟩ id).comp (.mergeNode v id)).congr ?_
  simp [Set.pair_comm]

theorem nodeEffect_linkNamed {name : Option String} :
    NodeEffect {n, v} (linkNamed n kind v name) :=
  ((NodeEffect.mergeEdge ⟨kind, n, v⟩ id).comp (.mergeNode v _)).congr (by simp)

theorem nodeEffect_mergePartOf (pair : PyValue × PyValue) :
    NodeEffect {.genre pair.1, .style pair.2} (mergePartOf pair) :=
  (nodeEffect_linkFrom.comp (.mergeNode _ id)).congr (by simp [Set.pair_comm])

theorem nodeEffect_linkMedium (release : PyValue) (row : MediaRow) :
    NodeEffect {.release release, .medium row.medium, .mediaFamily row.family}
      (linkMedium release row) := by
  intro g v
  simp only [linkMedium, mem_nodes_mergeEdge, mem_nodes_mergeNode, Set.mem_insert_iff,
    Set.mem_singleton_iff]
  grind

theorem nodeEffect_linkCompany (release : PyValue) (row : CompanyRow) :
    NodeEffect {.release release, .company row.id} (linkCompany release row) :=
  ((NodeEffect.mergeEdge _ _).comp (.mergeNode _ _)).congr (by simp)

theorem nodeEffect_linkCredit (release : PyValue) (row : CreditRow) :
    NodeEffect {.person row.name, .release release} (linkCredit release row) :=
  ((NodeEffect.mergeEdge _ _).comp (.mergeNode _ _)).congr (by simp [Set.pair_comm])

/-- The nodes of the arcs from `n` to the nodes that `t` gives to some values. -/
def star {α : Type} (n : Node) (t : α → Node) (xs : List α) : Set Node :=
  {v | ∃ x ∈ xs, v ∈ ({n, t x} : Set Node)}

/-- The nodes that each stage of an artist merges. -/
def artistNodes : List (ArtistRow → Set Node) := [
  fun a => {.artist a.id},
  fun a => star (.artist a.id) Node.artist a.members,
  fun a => star (.artist a.id) Node.artist a.groups,
  fun a => star (.artist a.id) Node.artist a.aliases]

/-- Those of a label. -/
def labelNodes : List (LabelRow → Set Node) := [
  fun l => {.ofLabel l.id},
  fun l => star (.ofLabel l.id) Node.ofLabel l.parentLabel.toList,
  fun l => star (.ofLabel l.id) Node.ofLabel l.sublabels]

/-- Those of a master. -/
def masterNodes : List (MasterRow → Set Node) := [
  fun m => {.master m.id}, fun _ => ∅, fun _ => ∅, fun _ => ∅,
  fun m => star (.master m.id) Node.artist m.artists,
  fun m => {v | ∃ name ∈ m.genres, v ∈ ({.genre name} : Set Node)},
  fun m => star (.master m.id) Node.genre m.genres,
  fun m => {v | ∃ name ∈ m.styles, v ∈ ({.style name} : Set Node)},
  fun m => star (.master m.id) Node.style m.styles,
  fun m => {v | ∃ p ∈ m.pairs, v ∈ ({.genre p.1, .style p.2} : Set Node)}]

/-- Those of a release. -/
def releaseNodes : List (ReleaseRow → Set Node) := [
  fun r => {.release r.id}, fun _ => ∅,
  fun r => star (.release r.id) (fun a => Node.artist a.id) r.artists,
  fun r => star (.release r.id) (fun l => Node.ofLabel l.id) r.labels,
  fun r => star (.release r.id) (fun m => Node.master (.str m)) r.masterId.toList,
  fun r => {v | ∃ name ∈ r.genres, v ∈ ({.genre name} : Set Node)},
  fun r => star (.release r.id) Node.genre r.genres,
  fun r => {v | ∃ name ∈ r.styles, v ∈ ({.style name} : Set Node)},
  fun r => star (.release r.id) Node.style r.styles,
  fun r => {v | ∃ p ∈ r.pairs, v ∈ ({.genre p.1, .style p.2} : Set Node)},
  fun _ => ∅,
  fun r => {v | ∃ row ∈ r.mediaRows,
    v ∈ ({.release r.id, .medium row.medium, .mediaFamily row.family} : Set Node)},
  fun _ => ∅,
  fun r => {v | ∃ row ∈ r.companyRows.getD [],
    v ∈ ({.release r.id, .company row.id} : Set Node)},
  fun _ => ∅,
  fun r => {v | ∃ row ∈ r.creditRows, v ∈ ({.person row.name, .release r.id} : Set Node)}]

/-- The nodes that the stages of a type merge for a row. -/
def stageNodes : (t : DataType) → List (RowOf t → Set Node)
  | .artists => artistNodes
  | .labels => labelNodes
  | .masters => masterNodes
  | .releases => releaseNodes

/-- The nodes that the rows of a transaction merge. -/
def mergedNodes (t : DataType) (rows : List (RowOf t)) : Set Node :=
  {v | ∃ r ∈ rows, ∃ N ∈ stageNodes t, v ∈ N r}

theorem nodeEffect_artists : List.Forall₂ (fun f N => ∀ a, NodeEffect (N a) (f a))
    artistStages.programs artistNodes :=
  .cons (fun _ => .mergeNode _ _) <| .cons (fun _ => .each fun _ _ => nodeEffect_linkFrom) <|
  .cons (fun _ => .each fun _ _ => nodeEffect_linkTo) <|
  .cons (fun _ => .each fun _ _ => nodeEffect_linkFrom) .nil

theorem nodeEffect_labels : List.Forall₂ (fun f N => ∀ l, NodeEffect (N l) (f l))
    labelStages.programs labelNodes :=
  .cons (fun _ => .mergeNode _ _) <| .cons (fun _ => .each fun _ _ => nodeEffect_linkTo) <|
  .cons (fun _ => .each fun _ _ => nodeEffect_linkFrom) .nil

theorem nodeEffect_masters : List.Forall₂ (fun f N => ∀ m, NodeEffect (N m) (f m))
    masterStages.programs masterNodes :=
  .cons (fun _ => .mergeNode _ _) <| .cons (fun _ => .deleteEdges _) <|
  .cons (fun _ => .deleteEdges _) <| .cons (fun _ => .deleteEdges _) <|
  .cons (fun _ => .each fun _ _ => nodeEffect_linkTo) <|
  .cons (fun _ => .each fun _ _ => .mergeNode _ _) <|
  .cons (fun _ => .each fun _ _ => .mergeEdge _ _) <|
  .cons (fun _ => .each fun _ _ => .mergeNode _ _) <|
  .cons (fun _ => .each fun _ _ => .mergeEdge _ _) <|
  .cons (fun _ => .each fun pair _ => nodeEffect_mergePartOf pair) .nil

theorem nodeEffect_pruneReleaseEdges (r : ReleaseRow) : NodeEffect ∅ (pruneReleaseEdges r) := by
  intro g v
  simp [pruneReleaseEdges]

theorem nodeEffect_pruneCompanies (r : ReleaseRow) : NodeEffect ∅ (pruneCompanies r) := by
  unfold pruneCompanies
  cases r.companyRows with
  | none => exact .skip
  | some rows => exact .deleteEdges _

theorem nodeEffect_releases : List.Forall₂ (fun f N => ∀ r, NodeEffect (N r) (f r))
    releaseStages.programs releaseNodes :=
  .cons (fun _ => .mergeNode _ _) <| .cons nodeEffect_pruneReleaseEdges <|
  .cons (fun _ => .each fun _ _ => nodeEffect_linkNamed) <|
  .cons (fun _ => .each fun _ _ => nodeEffect_linkNamed) <|
  .cons (fun _ => .each fun _ _ => nodeEffect_linkTo) <|
  .cons (fun _ => .each fun _ _ => .mergeNode _ _) <|
  .cons (fun _ => .each fun _ _ => .mergeEdge _ _) <|
  .cons (fun _ => .each fun _ _ => .mergeNode _ _) <|
  .cons (fun _ => .each fun _ _ => .mergeEdge _ _) <|
  .cons (fun _ => .each fun pair _ => nodeEffect_mergePartOf pair) <|
  .cons (fun _ => .deleteEdges _) <|
  .cons (fun r => .each fun row _ => nodeEffect_linkMedium r.id row) <|
  .cons nodeEffect_pruneCompanies <|
  .cons (fun r => .each fun row _ => nodeEffect_linkCompany r.id row) <|
  .cons (fun _ => .deleteEdges _) <|
  .cons (fun r => .each fun row _ => nodeEffect_linkCredit r.id row) .nil

/-- **The nodes that a transaction leaves**: those of the graph, and those that its rows merge. -/
theorem nodeEffect_runStages (t : DataType) (rows : List (RowOf t)) :
    NodeEffect (mergedNodes t rows) (runStages (stagesOf t).programs rows) := by
  cases t with
  | artists => exact NodeEffect.stages nodeEffect_artists
  | labels => exact NodeEffect.stages nodeEffect_labels
  | masters => exact NodeEffect.stages nodeEffect_masters
  | releases => exact NodeEffect.stages nodeEffect_releases

/-- The ids of the artists that a row merges. -/
def mergedArtists : (t : DataType) → RowOf t → List PyValue
  | .artists, (a : ArtistRow) => a.id :: (a.members ++ a.groups ++ a.aliases)
  | .labels, _ => []
  | .masters, (m : MasterRow) => m.artists
  | .releases, (r : ReleaseRow) => r.artists.map (·.id)

/-- The artists that a stage of a release merges. -/
theorem artist_mem_releaseNodes {r : ReleaseRow} {id : PyValue} :
    (∃ N ∈ releaseNodes, .artist id ∈ N r) ↔ id ∈ r.artists.map (·.id) := by
  simp [releaseNodes, star, eq_comm]

/-- The persons that a release credits are among its nodes. -/
theorem person_mem_releaseNodes {r : ReleaseRow} {row : CreditRow} (h : row ∈ r.creditRows) :
    ∃ N ∈ releaseNodes, .person row.name ∈ N r := by
  simp [releaseNodes, star]
  exact ⟨row, h, rfl⟩

theorem artist_mem_masterNodes {m : MasterRow} {id : PyValue} :
    (∃ N ∈ masterNodes, .artist id ∈ N m) ↔ id ∈ m.artists := by
  simp [masterNodes, star]

theorem artist_mem_artistNodes {a : ArtistRow} {id : PyValue} :
    (∃ N ∈ artistNodes, .artist id ∈ N a) ↔ id ∈ a.id :: (a.members ++ a.groups ++ a.aliases) := by
  by_cases hid : id = a.id
  · simp [artistNodes, hid]
  · simp [artistNodes, star, hid]

theorem artist_notMem_labelNodes {l : LabelRow} {id : PyValue} :
    ¬∃ N ∈ labelNodes, .artist id ∈ N l := by
  simp [labelNodes, star]

/-- The artists that the rows of a transaction merge. -/
theorem artist_mem_mergedNodes {t : DataType} {rows : List (RowOf t)} {id : PyValue} :
    .artist id ∈ mergedNodes t rows ↔ ∃ r ∈ rows, id ∈ mergedArtists t r := by
  unfold mergedNodes
  refine exists_congr fun r => and_congr_right fun _ => ?_
  cases t with
  | artists => exact artist_mem_artistNodes
  | labels => exact iff_of_false artist_notMem_labelNodes List.not_mem_nil
  | masters => exact artist_mem_masterNodes
  | releases => exact artist_mem_releaseNodes

end Nodes

end Graphinator
