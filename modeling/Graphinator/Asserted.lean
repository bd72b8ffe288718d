import Graphinator.Lib.ArcEffect
import Graphinator.ProjectionStages

/-!
# What a master or a release asserts

The projection of a record deletes the edges that its node has and that the record does not assert,
and merges an edge for each of its assertions. So after a write the edges that a record replaces are
exactly the asserted ones.

## Main definitions

* `MasterRow.Asserts`, `ReleaseRow.Asserts` : the arcs a record merges.
* `MasterRow.Drops`, `ReleaseRow.Drops` : the arcs whose edges it deletes.

## Main results

* `arcEffect_masters`, `arcEffect_releases` : the effect of a batch on the arcs of the graph.
* `arcEffect_master`, `arcEffect_release` : the effect of a record.
-/

namespace Graphinator

open PropertyGraph

/-! ### Effects of the statements -/

section Statements

variable {α : Type} {n : Node} {kind : Rel} {t : α → Node} {xs : List α}

/-- The arcs from a node to each of some others. -/
def arcsTo (n : Node) (kind : Rel) (t : α → Node) (xs : List α) : Set (Arc Node Rel) :=
  {a | ∃ x ∈ xs, a = ⟨kind, n, t x⟩}

/-- An effect on one arc for each of a list. -/
theorem arcEffect_each {f : α → Graph → Graph} {arc : α → Arc Node Rel}
    (h : ∀ x, ArcEffect ∅ {arc x} (f x)) :
    ArcEffect ∅ {a | ∃ x ∈ xs, a = arc x} (runAll f xs) :=
  (ArcEffect.each fun x _ => h x).congr rfl rfl

theorem arcEffect_linkTo : ArcEffect ∅ (arcsTo n kind t xs)
    (runAll (fun x => linkTo n kind (t x)) xs) :=
  arcEffect_each fun _ => .mergeEdge_mergeNode _ _ _ _

theorem arcEffect_linkNamed {name : α → Option String} : ArcEffect ∅ (arcsTo n kind t xs)
    (runAll (fun x => linkNamed n kind (t x) (name x)) xs) :=
  arcEffect_each fun _ => .mergeEdge_mergeNode _ _ _ _

theorem arcEffect_mergeEdges : ArcEffect ∅ (arcsTo n kind t xs)
    (runAll (fun x => mergeEdge ⟨kind, n, t x⟩ id) xs : Graph → Graph) :=
  arcEffect_each fun _ => .mergeEdge _ _

/-- The arcs of PART_OF. -/
def partOfArcs (pairs : List (PyValue × PyValue)) : Set (Arc Node Rel) :=
  {a | ∃ pair ∈ pairs, a = ⟨.PART_OF, .style pair.2, .genre pair.1⟩}

theorem arcEffect_mergePartOf {pairs : List (PyValue × PyValue)} :
    ArcEffect ∅ (partOfArcs pairs) (runAll mergePartOf pairs) := by
  refine arcEffect_each fun pair => ?_
  exact ((ArcEffect.mergeEdge_mergeNode _ id _ id).comp_merge (.mergeNode _ id)).congr rfl
    (Set.empty_union _)

theorem arcEffect_mergeGenres {names : List PyValue} :
    ArcEffect ∅ ∅ (runAll mergeGenre names) :=
  .each_skip fun _ _ => .mergeNode _ _

theorem arcEffect_mergeStyles {names : List PyValue} :
    ArcEffect ∅ ∅ (runAll mergeStyle names) :=
  .each_skip fun _ _ => .mergeNode _ _

end Statements

/-- The arcs that a prune drops. -/
def droppedArcs (n : Node) (relType : Rel) (targetLabel : Label) (keep : List PyValue) :
    Set (Arc Node Rel) :=
  {a | a.src = n ∧ a.kind = relType ∧ a.dst.label = targetLabel ∧ a.dst.key ∉ keep}

theorem arcEffect_prune {n : Node} {relType : Rel} {targetLabel : Label} {keep : List PyValue} :
    ArcEffect (droppedArcs n relType targetLabel keep) ∅
      (pruneStaleEdges n relType targetLabel keep) :=
  .deleteEdges fun a : Arc Node Rel =>
    a.src = n ∧ a.kind = relType ∧ a.dst.label = targetLabel ∧ a.dst.key ∉ keep

/-! ### Masters -/

/-- The arcs that a master merges. -/
def MasterRow.Asserts (m : MasterRow) : Set (Arc Node Rel) :=
  {a | a ∈ arcsTo (.master m.id) .BY .artist m.artists ∨
    a ∈ arcsTo (.master m.id) .IS .genre m.genres ∨
    a ∈ arcsTo (.master m.id) .IS .style m.styles ∨ a ∈ partOfArcs m.pairs}

/-- The arcs whose edges a master deletes. -/
def MasterRow.Drops (m : MasterRow) : Set (Arc Node Rel) :=
  {a | a ∈ droppedArcs (.master m.id) .BY .artist m.artists ∨
    a ∈ droppedArcs (.master m.id) .IS .genre m.keepGenres ∨
    a ∈ droppedArcs (.master m.id) .IS .style m.keepStyles}

/-- The effects of the stages of a master. -/
def masterEffects : List (MasterRow → Set (Arc Node Rel) × Set (Arc Node Rel)) :=
  [fun _ => (∅, ∅), fun m => (droppedArcs (.master m.id) .BY .artist m.artists, ∅),
    fun m => (droppedArcs (.master m.id) .IS .genre m.keepGenres, ∅),
    fun m => (droppedArcs (.master m.id) .IS .style m.keepStyles, ∅),
    fun m => (∅, arcsTo (.master m.id) .BY .artist m.artists), fun _ => (∅, ∅),
    fun m => (∅, arcsTo (.master m.id) .IS .genre m.genres), fun _ => (∅, ∅),
    fun m => (∅, arcsTo (.master m.id) .IS .style m.styles), fun m => (∅, partOfArcs m.pairs)]

/-- **The effect of a batch of masters.** -/
theorem arcEffect_masters (rows : List MasterRow) :
    ArcEffect {a | ∃ m ∈ rows, a ∈ m.Drops} {a | ∃ m ∈ rows, a ∈ m.Asserts}
      (runStages masterStages.programs rows) := by
  have hstages : List.Forall₂ (fun f E => ∀ m, ArcEffect (E m).1 (E m).2 (f m))
      masterStages.programs masterEffects :=
    .cons (fun _ => .mergeNode _ _) (.cons (fun _ => arcEffect_prune)
      (.cons (fun _ => arcEffect_prune) (.cons (fun _ => arcEffect_prune)
        (.cons (fun _ => arcEffect_linkTo) (.cons (fun _ => arcEffect_mergeGenres)
          (.cons (fun _ => arcEffect_mergeEdges) (.cons (fun _ => arcEffect_mergeStyles)
            (.cons (fun _ => arcEffect_mergeEdges)
              (.cons (fun _ => arcEffect_mergePartOf) .nil)))))))))
  refine (ArcEffect.stages hstages ?_ ?_).congr ?_ ?_
  · simp [masterEffects]
  · simp [masterEffects]
  · ext a
    simp [masterEffects, MasterRow.Drops]
  · ext a
    simp [masterEffects, MasterRow.Asserts]

/-- The effect of a master. -/
theorem arcEffect_master (m : MasterRow) :
    ArcEffect m.Drops m.Asserts (masterStages.record m) :=
  (arcEffect_masters [m]).congr (by simp) (by simp)

/-! ### Releases -/

/-- The arcs of the media rows of a release. -/
def mediaArcs (r : ReleaseRow) : Set (Arc Node Rel) :=
  {a | ∃ row ∈ r.mediaRows, a = ⟨.IN_FAMILY, .medium row.medium, .mediaFamily row.family⟩ ∨
    a = ⟨.ISSUED_ON mediaSource, .release r.id, .medium row.medium⟩}

/-- The arcs of the company rows of a release. -/
def companyArcs (r : ReleaseRow) : Set (Arc Node Rel) :=
  {a | ∃ row ∈ r.companyRows.getD [],
    a = ⟨.CREDITED_TO (.str row.role) companySource, .release r.id, .company row.id⟩}

/-- The arcs of the credits of a release. -/
def creditArcs (r : ReleaseRow) : Set (Arc Node Rel) :=
  {a | ∃ row ∈ r.creditRows, a = ⟨.CREDITED_ON row.role, .person row.name, .release r.id⟩}

/-- The arcs to media that a release drops. -/
def droppedMedia (r : ReleaseRow) : Set (Arc Node Rel) :=
  droppedArcs (.release r.id) (.ISSUED_ON mediaSource) .medium
    (r.mediaRows.map fun row => .str row.medium)

/-- The arcs to companies that a release drops, if its record carries a block. -/
def droppedCompanies (r : ReleaseRow) : Set (Arc Node Rel) :=
  {a | ∃ rows, r.companyRows = some rows ∧ a.src = .release r.id ∧ a.dst.label = .company ∧
    staleCompanyEdge rows a = true}

/-- The arcs from persons that a release drops. -/
def droppedCredits (r : ReleaseRow) : Set (Arc Node Rel) :=
  {a | a.dst = .release r.id ∧ a.src.label = .person ∧ staleCreditEdge r.creditRows a = true}

/-- The arcs that a release merges. -/
def ReleaseRow.Asserts (r : ReleaseRow) : Set (Arc Node Rel) :=
  {a | a ∈ arcsTo (.release r.id) .BY (fun x => .artist x.id) r.artists ∨
    a ∈ arcsTo (.release r.id) .ON (fun x => .ofLabel x.id) r.labels ∨
    a ∈ arcsTo (.release r.id) .DERIVED_FROM (fun m => .master (.str m)) r.masterId.toList ∨
    a ∈ arcsTo (.release r.id) .IS .genre r.genres ∨
    a ∈ arcsTo (.release r.id) .IS .style r.styles ∨ a ∈ partOfArcs r.pairs ∨
    a ∈ mediaArcs r ∨ a ∈ companyArcs r ∨ a ∈ creditArcs r}

/-- The arcs whose edges a release deletes. -/
def ReleaseRow.Drops (r : ReleaseRow) : Set (Arc Node Rel) :=
  {a | (a.src = .release r.id ∧ StaleReleaseEdge r a) ∨ a ∈ droppedMedia r ∨
    a ∈ droppedCompanies r ∨ a ∈ droppedCredits r}

section Release

variable (r : ReleaseRow)

theorem arcEffect_mergeMedia : ArcEffect ∅ (mediaArcs r) (runAll (linkMedium r.id) r.mediaRows) := by
  refine (ArcEffect.each (M := fun row => {⟨.IN_FAMILY, .medium row.medium,
    .mediaFamily row.family⟩} ∪ {⟨.ISSUED_ON mediaSource, .release r.id, .medium row.medium⟩})
    fun row _ => ?_).congr rfl rfl
  have hnodes : ArcEffect (V := Node) (K := Rel) (ρ := Row) (σ := Row) ∅ ∅ fun g =>
      (g.mergeNode (.mediaFamily row.family) id).mergeNode (.medium row.medium)
        (setProps [("family", .str row.family), ("label", .str row.label)]) :=
    ((ArcEffect.mergeNode _ _).comp_merge (.mergeNode _ _)).congr rfl (Set.empty_union _)
  exact ((ArcEffect.mergeEdge _ _).comp_merge ((ArcEffect.mergeEdge _ _).comp_merge hnodes)).congr rfl
    (by rw [Set.empty_union])

theorem arcEffect_pruneCompanies : ArcEffect (droppedCompanies r) ∅ (pruneCompanies r) := by
  unfold pruneCompanies
  cases hrows : r.companyRows with
  | none =>
    refine ArcEffect.skip.congr ?_ rfl
    simp [droppedCompanies, hrows]
  | some rows =>
    refine (ArcEffect.deleteEdges fun a : Arc Node Rel => a.src = .release r.id ∧
      a.dst.label = .company ∧ staleCompanyEdge rows a = true).congr ?_ rfl
    ext a
    simp [droppedCompanies, hrows]

theorem arcEffect_pruneReleaseEdges :
    ArcEffect {a | a.src = .release r.id ∧ StaleReleaseEdge r a} ∅ (pruneReleaseEdges r) :=
  .deleteEdges fun a : Arc Node Rel => a.src = .release r.id ∧ StaleReleaseEdge r a

theorem arcEffect_pruneIssuedOn : ArcEffect (droppedMedia r) ∅ (pruneIssuedOn r) :=
  .deleteEdges fun a : Arc Node Rel => a.src = .release r.id ∧ a.kind = .ISSUED_ON mediaSource ∧
    a.dst.label = .medium ∧ a.dst.key ∉ r.mediaRows.map fun row : MediaRow => PyValue.str row.medium

theorem arcEffect_pruneCreditedOn : ArcEffect (droppedCredits r) ∅ (pruneCreditedOn r) :=
  .deleteEdges fun a : Arc Node Rel => a.dst = .release r.id ∧ a.src.label = .person ∧
    staleCreditEdge r.creditRows a = true

theorem arcEffect_mergeCompanies :
    ArcEffect ∅ (companyArcs r) (runAll (linkCompany r.id) (r.companyRows.getD [])) :=
  arcEffect_each fun _ => .mergeEdge_mergeNode _ _ _ _

theorem arcEffect_mergeCredits :
    ArcEffect ∅ (creditArcs r) (runAll (linkCredit r.id) r.creditRows) :=
  arcEffect_each fun _ => .mergeEdge_mergeNode _ _ _ _

theorem kind_droppedCompanies {a : Arc Node Rel} (h : a ∈ droppedCompanies r) :
    ∃ role source, a.kind = .CREDITED_TO role source := by
  obtain ⟨rows, -, -, -, hstale⟩ := h
  unfold staleCompanyEdge at hstale
  split at hstale
  · next role source hkind => exact ⟨role, source, hkind⟩
  · cases hstale

theorem kind_droppedCredits {a : Arc Node Rel} (h : a ∈ droppedCredits r) :
    ∃ role, a.kind = .CREDITED_ON role := by
  obtain ⟨-, -, hstale⟩ := h
  unfold staleCreditEdge at hstale
  split at hstale
  · next role hkind => exact ⟨role, hkind⟩
  · cases hstale

/-- The edges of credits are dropped where they are of none of the types merged before. -/
theorem disjoint_droppedCredits {M : ReleaseRow → Set (Arc Node Rel)}
    (hM : ∀ x, ∀ a ∈ M x, ∀ role, a.kind ≠ .CREDITED_ON role) (x y : ReleaseRow) :
    Disjoint (M x) (droppedCredits y) :=
  Set.disjoint_left.mpr fun a ha ha' => by
    obtain ⟨role, hkind⟩ := kind_droppedCredits y ha'
    exact hM x a ha role hkind

/-- So are those of companies. -/
theorem disjoint_droppedCompanies {M : ReleaseRow → Set (Arc Node Rel)}
    (hM : ∀ x, ∀ a ∈ M x, ∀ role source, a.kind ≠ .CREDITED_TO role source) (x y : ReleaseRow) :
    Disjoint (M x) (droppedCompanies y) :=
  Set.disjoint_left.mpr fun a ha ha' => by
    obtain ⟨role, source, hkind⟩ := kind_droppedCompanies y ha'
    exact hM x a ha role source hkind

/-- The arcs of one of the types of the first block are dropped by no later statement. -/
theorem disjoint_dropped {M : ReleaseRow → Set (Arc Node Rel)} {kind : Rel}
    (hM : ∀ x, ∀ a ∈ M x, a.kind = kind)
    (hkind : kind = .BY ∨ kind = .ON ∨ kind = .DERIVED_FROM ∨ kind = .IS ∨ kind = .PART_OF) :
    (∀ x y, Disjoint (M x) (droppedMedia y)) ∧ (∀ x y, Disjoint (M x) (droppedCompanies y)) ∧
      ∀ x y, Disjoint (M x) (droppedCredits y) := by
  refine ⟨fun x y => Set.disjoint_left.mpr fun a ha ha' => ?_,
    disjoint_droppedCompanies fun x a ha role source => ?_,
    disjoint_droppedCredits fun x a ha role => ?_⟩
  · have hmedia := ha'.2.1
    rw [hM x a ha] at hmedia
    rcases hkind with rfl | rfl | rfl | rfl | rfl <;> cases hmedia
  · rw [hM x a ha]
    rcases hkind with rfl | rfl | rfl | rfl | rfl <;> exact nofun
  · rw [hM x a ha]
    rcases hkind with rfl | rfl | rfl | rfl | rfl <;> exact nofun

theorem kind_arcsTo {α : Type} {n : Node} {kind : Rel} {t : α → Node} {xs : List α} :
    ∀ a ∈ arcsTo n kind t xs, a.kind = kind := by
  rintro _ ⟨x, -, rfl⟩
  rfl

theorem kind_partOfArcs {pairs : List (PyValue × PyValue)} :
    ∀ a ∈ partOfArcs pairs, a.kind = .PART_OF := by
  rintro _ ⟨pair, -, rfl⟩
  rfl

/-- The effects of the stages of a release. -/
def releaseEffects : List (ReleaseRow → Set (Arc Node Rel) × Set (Arc Node Rel)) :=
  [fun _ => (∅, ∅), fun r => ({a | a.src = .release r.id ∧ StaleReleaseEdge r a}, ∅),
    fun r => (∅, arcsTo (.release r.id) .BY (fun x => .artist x.id) r.artists),
    fun r => (∅, arcsTo (.release r.id) .ON (fun x => .ofLabel x.id) r.labels),
    fun r => (∅, arcsTo (.release r.id) .DERIVED_FROM (fun m => .master (.str m))
      r.masterId.toList),
    fun _ => (∅, ∅), fun r => (∅, arcsTo (.release r.id) .IS .genre r.genres), fun _ => (∅, ∅),
    fun r => (∅, arcsTo (.release r.id) .IS .style r.styles), fun r => (∅, partOfArcs r.pairs),
    fun r => (droppedMedia r, ∅), fun r => (∅, mediaArcs r), fun r => (droppedCompanies r, ∅),
    fun r => (∅, companyArcs r), fun r => (droppedCredits r, ∅), fun r => (∅, creditArcs r)]

/-- **The effect of a batch of releases**, up to its last statement. -/
theorem arcEffect_releases (rows : List ReleaseRow) :
    ArcEffect {a | ∃ r ∈ rows, a ∈ r.Drops} {a | ∃ r ∈ rows, a ∈ r.Asserts}
      (runStages releaseStages.programs rows) := by
  have hstages : List.Forall₂ (fun f E => ∀ r, ArcEffect (E r).1 (E r).2 (f r))
      releaseStages.programs releaseEffects := by
    simp only [Staged.programs, releaseStages, releaseEffects, List.map_cons, List.map_nil,
      List.forall₂_cons, List.Forall₂.nil, and_true]
    exact ⟨fun _ => .mergeNode _ _, arcEffect_pruneReleaseEdges, fun _ => arcEffect_linkNamed,
      fun _ => arcEffect_linkNamed, fun _ => arcEffect_linkTo, fun _ => arcEffect_mergeGenres,
      fun _ => arcEffect_mergeEdges, fun _ => arcEffect_mergeStyles, fun _ => arcEffect_mergeEdges,
      fun _ => arcEffect_mergePartOf, arcEffect_pruneIssuedOn, arcEffect_mergeMedia,
      arcEffect_pruneCompanies, arcEffect_mergeCompanies, arcEffect_pruneCreditedOn,
      arcEffect_mergeCredits⟩
  refine (ArcEffect.stages hstages ?_ ?_).congr ?_ ?_
  · simp [releaseEffects]
  · simp only [releaseEffects, List.pairwise_cons, List.forall_mem_cons, Set.disjoint_empty,
      Set.empty_disjoint, List.not_mem_nil, IsEmpty.forall_iff, implies_true, and_self, and_true,
      true_and, List.Pairwise.nil]
    refine ⟨disjoint_dropped (fun _ => kind_arcsTo) (by simp),
      disjoint_dropped (fun _ => kind_arcsTo) (by simp),
      disjoint_dropped (fun _ => kind_arcsTo) (by simp),
      disjoint_dropped (fun _ => kind_arcsTo) (by simp),
      disjoint_dropped (fun _ => kind_arcsTo) (by simp),
      disjoint_dropped (fun _ => kind_partOfArcs) (by simp),
      ⟨disjoint_droppedCompanies ?_, disjoint_droppedCredits ?_⟩, disjoint_droppedCredits ?_⟩
    · rintro x _ ⟨row, -, rfl | rfl⟩ _ _ ⟨⟩
    · rintro x _ ⟨row, -, rfl | rfl⟩ _ ⟨⟩
    · rintro x _ ⟨row, -, rfl⟩ _ ⟨⟩
  · ext a
    simp [releaseEffects, ReleaseRow.Drops]
  · ext a
    simp [releaseEffects, ReleaseRow.Asserts]

/-- The effect of a release. -/
theorem arcEffect_release : ArcEffect r.Drops r.Asserts (releaseStages.record r) :=
  (arcEffect_releases [r]).congr (by simp) (by simp)

end Release

/-! ### Nodes -/

/-- The nodes of masters and media that a release adds; of other labels, any. -/
def ReleaseRow.nodes (r : ReleaseRow) : Set Node :=
  {v | match v.label with
    | .master => v.key ∈ (r.masterId.map PyValue.str).toList
    | .medium => ∃ row ∈ r.mediaRows, v = .medium row.medium
    | _ => True}

/-- The nodes of masters that a master adds; of other labels, any. -/
def MasterRow.nodes (m : MasterRow) : Set Node := {v | v.label = .master → v = .master m.id}

section Nodes

variable {S : Set Node} {n v : Node} {kind : Rel}

theorem addsNodes_linkTo (hn : n ∈ S) (hv : v ∈ S) : AddsNodes S (linkTo n kind v) :=
  .mergeEdge_mergeNode hv hn hv

theorem addsNodes_linkFrom (hn : n ∈ S) (hv : v ∈ S) : AddsNodes S (linkFrom n kind v) :=
  .mergeEdge_mergeNode hv hv hn

theorem addsNodes_linkNamed {name : Option String} (hn : n ∈ S) (hv : v ∈ S) :
    AddsNodes S (linkNamed n kind v name) :=
  .mergeEdge_mergeNode hv hn hv

theorem addsNodes_mergePartOf {pair : PyValue × PyValue} (hg : .genre pair.1 ∈ S)
    (hs : .style pair.2 ∈ S) : AddsNodes S (mergePartOf pair) :=
  (addsNodes_linkFrom hg hs).comp (.mergeNode hg)

theorem addsNodes_linkMedium {release : PyValue} {row : MediaRow} (hr : .release release ∈ S)
    (hm : .medium row.medium ∈ S) (hf : .mediaFamily row.family ∈ S) :
    AddsNodes S (linkMedium release row) := by
  have hnodes : AddsNodes (K := Rel) (σ := Row) S fun g =>
      (g.mergeNode (.mediaFamily row.family) id).mergeNode (.medium row.medium)
        (setProps [("family", .str row.family), ("label", .str row.label)]) :=
    (AddsNodes.mergeNode hm).comp (.mergeNode hf)
  exact (AddsNodes.mergeEdge hr hm).comp ((AddsNodes.mergeEdge hm hf).comp hnodes)

theorem addsNodes_release {f : ReleaseRow → Graph → Graph} (hf : f ∈ releaseStages.programs)
    (r : ReleaseRow) : AddsNodes r.nodes (f r) := by
  have hrelease : Node.release r.id ∈ r.nodes := trivial
  have hmedium : ∀ row ∈ r.mediaRows, AddsNodes r.nodes (linkMedium r.id row) :=
    fun row hrow => addsNodes_linkMedium hrelease ⟨row, hrow, rfl⟩ trivial
  revert f
  simp only [Staged.programs, releaseStages, List.map_cons, List.map_nil, List.forall_mem_cons]
  refine ⟨.mergeNode hrelease, .deleteEdges _, .each fun a _ => addsNodes_linkNamed hrelease trivial,
    .each fun l _ => addsNodes_linkNamed hrelease trivial,
    .each fun m hm => addsNodes_linkTo hrelease ?_, .each fun _ _ => .mergeNode trivial,
    .each fun _ _ => .mergeEdge hrelease trivial, .each fun _ _ => .mergeNode trivial,
    .each fun _ _ => .mergeEdge hrelease trivial,
    .each fun _ _ => addsNodes_mergePartOf trivial trivial, .deleteEdges _, .each hmedium, ?_,
    .each fun _ _ => .mergeEdge_mergeNode trivial hrelease trivial, .deleteEdges _,
    .each fun _ _ => .mergeEdge_mergeNode trivial trivial hrelease, List.forall_mem_nil _⟩
  · change PyValue.str m ∈ (r.masterId.map PyValue.str).toList
    simpa using hm
  · unfold pruneCompanies
    split
    · exact .skip
    · exact .deleteEdges _

/-- A batch of releases adds the nodes of its releases. -/
theorem addsNodes_releases (rows : List ReleaseRow) :
    AddsNodes {v | ∃ r ∈ rows, v ∈ r.nodes} (runStages releaseStages.programs rows) :=
  .each fun _ hf => .each fun r hr => (addsNodes_release hf r).mono fun _ hv => ⟨r, hr, hv⟩

theorem addsNodes_master {f : MasterRow → Graph → Graph} (hf : f ∈ masterStages.programs)
    (m : MasterRow) : AddsNodes m.nodes (f m) := by
  have hmaster : Node.master m.id ∈ m.nodes := fun _ => rfl
  revert f
  simp only [Staged.programs, masterStages, List.map_cons, List.map_nil, List.forall_mem_cons]
  exact ⟨.mergeNode hmaster, .deleteEdges _, .deleteEdges _, .deleteEdges _,
    .each fun _ _ => addsNodes_linkTo hmaster (by rintro ⟨⟩), .each fun _ _ => .mergeNode (by rintro ⟨⟩),
    .each fun _ _ => .mergeEdge hmaster (by rintro ⟨⟩), .each fun _ _ => .mergeNode (by rintro ⟨⟩),
    .each fun _ _ => .mergeEdge hmaster (by rintro ⟨⟩),
    .each fun _ _ => addsNodes_mergePartOf (by rintro ⟨⟩) (by rintro ⟨⟩), List.forall_mem_nil _⟩

/-- A batch of masters adds the nodes of its masters. -/
theorem addsNodes_masters (rows : List MasterRow) :
    AddsNodes {v | ∃ m ∈ rows, v ∈ m.nodes} (runStages masterStages.programs rows) :=
  .each fun _ hf => .each fun m hm => (addsNodes_master hf m).mono fun _ hv => ⟨m, hm, hv⟩

end Nodes

/-! ### Transactions -/

section Transactions

variable {rows : List ReleaseRow} {masters : List MasterRow} {a : Arc Node Rel} {g : Graph} {v : Node}

/-- The last statement of a batch of releases touches SAME_AS edges only. -/
theorem hasArc_writeReleases (ha : a.kind ≠ .SAME_AS) :
    (writeReleases rows g).HasArc a ↔ (writeReleasesCore rows g).HasArc a := by
  refine runAll_mergeSameAs (I := fun t : Graph => t.HasArc a ↔ (writeReleasesCore rows g).HasArc a)
    (fun person artist t _ _ ht => ?_) rows Iff.rfl
  rw [hasArc_mergeEdge, or_iff_right, ht]
  rintro rfl
  exact ha rfl

/-- The arcs that a batch of releases leaves. -/
theorem arcs_writeReleases (ha : a.kind ≠ .SAME_AS) : (writeReleases rows g).HasArc a ↔
    (g.HasArc a ∧ ∀ r ∈ rows, a ∉ r.Drops) ∨ ∃ r ∈ rows, a ∈ r.Asserts := by
  rw [hasArc_writeReleases ha, writeReleasesCore_eq, arcEffect_releases]
  simp only [Set.mem_ofPred_eq, not_exists, not_and]

/-- The nodes that a batch of releases leaves. -/
theorem nodes_writeReleases (hv : v ∈ (writeReleases rows g).nodes) :
    v ∈ g.nodes ∨ ∃ r ∈ rows, v ∈ r.nodes := by
  refine addsNodes_releases rows g v ?_
  rw [← writeReleasesCore_eq]
  revert hv
  refine runAll_mergeSameAs (I := fun t : Graph => v ∈ t.nodes → v ∈ (writeReleasesCore rows g).nodes)
    (fun person artist t hperson hartist ht hv => ?_) rows id
  rcases mem_nodes_mergeEdge.mp hv with rfl | rfl | hv
  · exact ht hartist
  · exact ht hperson
  · exact ht hv

theorem nodes_writeMasters (hv : v ∈ (writeMasters masters g).nodes) :
    v ∈ g.nodes ∨ ∃ m ∈ masters, v ∈ m.nodes := by
  rw [writeMasters_eq] at hv
  exact addsNodes_masters masters g v hv

theorem Staged.simple_runStages {ρ : Type} {P : Staged ρ} (rows : List ρ) (hg : g.Simple) :
    (runStages P.programs rows g).Simple :=
  runAll_invariant (I := Simple) (fun _ hf _ ht =>
    runAll_invariant (I := Simple) (fun r _ _ ht => (P.within_programs hf r).simple ht) ht) hg

theorem simple_writeReleases (hg : g.Simple) : (writeReleases rows g).Simple := by
  refine runAll_mergeSameAs (I := Simple) (fun _ _ _ _ _ ht => ht.mergeEdge _ id) rows ?_
  rw [writeReleasesCore_eq]
  exact releaseStages.simple_runStages rows hg

end Transactions

end Graphinator
