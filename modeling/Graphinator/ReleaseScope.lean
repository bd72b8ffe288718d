import Graphinator.ProjectionStages

/-!
# What a release projection leaves alone

Company, Medium, Person, Genre and Artist nodes are shared between releases and between two
catalogs, so every statement that deletes or sets an edge is scoped: by the release, by the source
of the edge, and by the role of a credit. A record without a companies block says nothing about
companies, and nothing is deleted for it; an empty block says that there are none.

## Main definitions

* `SameEdge` : an edge with its properties.
* `ReleaseProjection` : a write of releases by either path, with the records it wrote.
* `Foreign` : the arcs that a write of some records does not assert.

## Main results

* `ReleaseProjection.foreign` : the edges over foreign arcs stay as they are.
* `release_projection_scoped` : so do the companies of a release whose record has no block, and an
  empty block deletes the edges to companies of this provider.
-/

namespace Graphinator

open PropertyGraph PyValue

/-- An edge is there or not, and with the same properties. -/
def SameEdge (e : Edge Node Rel) (g g' : Graph) : Prop :=
  (e ∈ g'.edges ↔ e ∈ g.edges) ∧ g'.edges.row e = g.edges.row e

section SameEdge

variable {e : Edge Node Rel} {g g' g'' : Graph}

theorem SameEdge.refl (e : Edge Node Rel) (g : Graph) : SameEdge e g g := ⟨Iff.rfl, rfl⟩

theorem SameEdge.trans (h : SameEdge e g g') (h' : SameEdge e g' g'') : SameEdge e g g'' :=
  ⟨h'.1.trans h.1, h'.2.trans h.2⟩

theorem sameEdge_runAll {α : Type*} {f : α → Graph → Graph} {xs : List α}
    (h : ∀ x ∈ xs, ∀ t, SameEdge e t (f x t)) (g : Graph) : SameEdge e g (runAll f xs g) :=
  runAll_invariant (I := SameEdge e g) (fun x hx t ht => ht.trans (h x hx t)) (.refl e g)

end SameEdge

/-! ### Transactions -/

section Transactions

variable {P : Staged ReleaseRow} {rows : List ReleaseRow} {e : Edge Node Rel}

/-- A transaction leaves the edges that none of its records manages as they are. -/
theorem sameEdge_programs (hmanaged : ∀ r ∈ rows, e.arc ∉ P.managed r) (hshared : e.arc.kind ∉ P.shared)
    (g : Graph) : SameEdge e g (runStages P.programs rows g) :=
  sameEdge_runAll (fun _ hf => sameEdge_runAll fun r hr t =>
    (P.within_programs hf r).edges_of_notMem (hmanaged r hr) hshared t) g

/-- The last statement merges SAME_AS edges only. -/
theorem sameEdge_mergeSameAs (hkind : e.arc.kind ≠ .SAME_AS) (rows : List ReleaseRow) (g : Graph) :
    SameEdge e g (runAll mergeSameAs rows g) := by
  refine runAll_mergeSameAs (I := SameEdge e g) (fun person artist t _ _ ht => ht.trans ?_) rows
    (.refl e g)
  have hne : e.arc ≠ ⟨.SAME_AS, .person person, .artist artist⟩ := fun h => hkind (by rw [h])
  refine ⟨?_, ?_⟩
  · rw [mem_edges_mergeEdge, or_iff_left]
    rintro ⟨rfl, -⟩
    exact hne rfl
  · rw [row_edges_mergeEdge, if_neg fun h => hne h.2]

/-- MERGE_COMPANY_CYPHER as a stage. -/
def linkCompanies (r : ReleaseRow) : Graph → Graph := runAll (linkCompany r.id) (r.companyRows.getD [])

/-- The record without its companies block. -/
def ReleaseRow.silent (r : ReleaseRow) : ReleaseRow := { r with companyRows := none }

theorem notMem_managed_silent (r : ReleaseRow) {a : Arc Node Rel} {role source : PyValue}
    (hkind : a.kind = .CREDITED_TO role source) : a ∉ releaseManaged r.silent := by
  rintro (⟨-, h⟩ | ⟨-, role', h⟩)
  · rw [hkind] at h
    exact h.2 rfl
  · rw [hkind] at h
    cases h

/-- An empty companies block deletes the edges to companies of this provider. -/
theorem mem_pruneCompanies {role source : PyValue} (hkind : e.arc.kind = .CREDITED_TO role source)
    (hempty : ∀ r ∈ rows, e.arc.src = .release r.id → r.companyRows = some []) (g : Graph) :
    (e ∈ (runAll pruneCompanies rows g).edges ↔ e ∈ g.edges ∧
      ¬((∃ r ∈ rows, e.arc.src = .release r.id) ∧ source = companySource ∧
        e.arc.dst.label = .company)) ∧
      (e ∈ (runAll pruneCompanies rows g).edges →
        (runAll pruneCompanies rows g).edges.row e = g.edges.row e) := by
  induction rows generalizing g with
  | nil => simp
  | cons r rows ih =>
    obtain ⟨hmem, hrow⟩ := ih (fun r hr => hempty r (List.mem_cons_of_mem _ hr)) (pruneCompanies r g)
    have hstep : (e ∈ (pruneCompanies r g).edges ↔ e ∈ g.edges ∧
        ¬(e.arc.src = .release r.id ∧ source = companySource ∧ e.arc.dst.label = .company)) ∧
        (e ∈ (pruneCompanies r g).edges → (pruneCompanies r g).edges.row e = g.edges.row e) := by
      cases hrows : r.companyRows with
      | none =>
        simp only [pruneCompanies, hrows, id_eq, implies_true, and_true, iff_self_and]
        rintro - ⟨hsrc, -⟩
        rw [hempty r (List.mem_cons_self ..) hsrc] at hrows
        cases hrows
      | some crows =>
        simp only [pruneCompanies, hrows, pruneCreditedTo]
        rw [mem_edges_deleteEdges, row_edges_deleteEdges]
        have hstale : e.arc.src = .release r.id →
            (staleCompanyEdge crows e.arc = true ↔ source = companySource) := by
          intro hsrc
          rw [hempty r (List.mem_cons_self ..) hsrc] at hrows
          cases hrows
          simp [staleCompanyEdge, hkind, notInPairs]
        refine ⟨and_congr_right fun _ => not_congr ?_, fun h => if_neg h.2⟩
        constructor
        · rintro ⟨hsrc, hdst, hs⟩
          exact ⟨hsrc, (hstale hsrc).mp hs, hdst⟩
        · rintro ⟨hsrc, hs, hdst⟩
          exact ⟨hsrc, hdst, (hstale hsrc).mpr hs⟩
    rw [runAll_cons]
    refine ⟨hmem.trans ?_, fun h => (hrow h).trans (hstep.2 (hmem.mp h).1)⟩
    rw [hstep.1, List.exists_mem_cons_iff, and_assoc, ← not_or, ← or_and_right]

/-- A transaction in which every record of a release has an empty companies block. -/
theorem creditedTo_programs {pre post : List (ReleaseRow → Graph → Graph)}
    (hprog : P.programs = pre ++ [pruneCompanies, linkCompanies] ++ post)
    (hmanaged : P.managed = releaseManaged) (hshared : P.shared = releaseStages.shared)
    (hsilent : ∀ f ∈ pre ++ post, ∀ r, f r = f r.silent)
    {role source : PyValue} (hkind : e.arc.kind = .CREDITED_TO role source)
    (hrow : ∃ r ∈ rows, e.arc.src = .release r.id)
    (hempty : ∀ r ∈ rows, e.arc.src = .release r.id → r.companyRows = some []) (g : Graph) :
    (e ∈ (runStages P.programs rows g).edges ↔
        e ∈ g.edges ∧ ¬(source = companySource ∧ e.arc.dst.label = .company)) ∧
      (e ∈ (runStages P.programs rows g).edges →
        (runStages P.programs rows g).edges.row e = g.edges.row e) := by
  have hnotShared : e.arc.kind ∉ P.shared := by simp [hshared, releaseStages, hkind]
  have hother : ∀ fs ⊆ pre ++ post, ∀ t, SameEdge e t (runStages fs rows t) := by
    refine fun fs hfs t => sameEdge_runAll (fun f hf => sameEdge_runAll fun r _ t => ?_) t
    have hmem : f ∈ P.programs := by
      rw [hprog, List.append_assoc, List.mem_append, List.mem_append]
      exact (List.mem_append.mp (hfs hf)).imp id Or.inr
    rw [hsilent f (hfs hf) r]
    refine (P.within_programs hmem r.silent).edges_of_notMem ?_ hnotShared t
    change e.arc ∉ P.managed r.silent
    rw [hmanaged]
    exact notMem_managed_silent r hkind
  have hlink : ∀ t, SameEdge e t (runAll linkCompanies rows t) := by
    refine sameEdge_runAll fun r hr t => ?_
    by_cases hsrc : e.arc.src = .release r.id
    · rw [linkCompanies, hempty r hr hsrc]
      exact .refl e t
    · have hmem : linkCompanies ∈ P.programs := by simp [hprog]
      refine (P.within_programs hmem r).edges_of_notMem ?_ hnotShared t
      change e.arc ∉ P.managed r
      rw [hmanaged]
      rintro (⟨h, -⟩ | ⟨-, role', h⟩)
      · exact hsrc h
      · rw [hkind] at h
        cases h
  have hrun : runStages P.programs rows g = runStages post rows (runAll linkCompanies rows
      (runAll pruneCompanies rows (runStages pre rows g))) := by
    simp only [hprog, runStages, runAll_append, runAll_cons, runAll_nil]
  rw [hrun]
  have hpre := hother pre (List.subset_append_left ..) g
  have hpost := hother post (List.subset_append_right ..)
    (runAll linkCompanies rows (runAll pruneCompanies rows (runStages pre rows g)))
  obtain ⟨hprune, hprow⟩ := mem_pruneCompanies hkind hempty (runStages pre rows g)
  have hafter := (hlink (runAll pruneCompanies rows (runStages pre rows g))).trans hpost
  refine ⟨hafter.1.trans (hprune.trans ?_), fun h => hafter.2.trans ((hprow (hafter.1.mp h)).trans
    hpre.2)⟩
  rw [hpre.1]
  simp only [hrow, true_and]

end Transactions

/-! ### Projections of releases -/

/-- A write of releases by either path: the records that it wrote, and the graph it left. -/
inductive ReleaseProjection (env : Env) (g : Graph) : List PyValue → Graph → Prop
  /-- A batch writes the records whose hash is not stored. -/
  | batch {messages usable written g' rejected} :
    processReleasesBatch env messages g = .ok (g', rejected) → messages.mapM hasId = .ok usable →
    changedRecords env g .release (usableMessages messages usable) = .ok written →
    ReleaseProjection env g written g'
  | single {record g'} :
    processRelease env record g = .ok (g', true) → ReleaseProjection env g [record] g'
  /-- A record whose hash is stored is not written. -/
  | skipped {record g'} :
    processRelease env record g = .ok (g', false) → ReleaseProjection env g [] g'

/-- The node of a record. -/
def IsReleaseOf (v : Node) (record : PyValue) : Prop :=
  ∃ id key, record.get "id" = .ok id ∧ nodeKey id = .ok key ∧ v = .release key

/-- The arcs that a write of some records does not assert: of the other catalog, of the other
projections, of the users and of other releases. -/
def Foreign (written : List PyValue) (a : Arc Node Rel) : Prop :=
  match a.kind with
  | .ISSUED_ON source | .CREDITED_TO _ source =>
    source ≠ mediaSource ∨ ∀ record ∈ written, ¬IsReleaseOf a.src record
  | .BY | .ON | .DERIVED_FROM | .IS => ∀ record ∈ written, ¬IsReleaseOf a.src record
  | .CREDITED_ON _ => ∀ record ∈ written, ¬IsReleaseOf a.dst record
  | .COLLECTED | .WANTS | .MEMBER_OF | .ALIAS_OF | .SUBLABEL_OF | .HAS_STYLE => True
  | .PART_OF | .IN_FAMILY | .SAME_AS => False

/-- A record that carries no companies block. -/
def NoCompanies (record : PyValue) : Prop :=
  ∃ companies, record.get "companies" = .ok companies ∧ companies.isDict = false

/-- A record whose companies block has no usable item. -/
def EmptyCompanies (env : Env) (record : PyValue) : Prop :=
  ∃ block items blockItems, record.get "companies" = .ok block ∧ block.isDict = true ∧
    block.get "items" = .ok items ∧ (items.orElse (.arr [])).iter = .ok blockItems ∧
    ∀ item ∈ blockItems, usableCompany env item = .ok none

/-- What the row of a record says about its release and its companies. -/
structure CompaniesOf (env : Env) (record : PyValue) (r : ReleaseRow) : Prop where
  isReleaseOf : IsReleaseOf (.release r.id) record
  companyRows : ∃ block, resolveCompaniesBlock record = .ok block ∧
    block.mapM (creditedToRows env) = .ok r.companyRows

section Rows

variable {env : Env} {record : PyValue} {r : ReleaseRow}

theorem companiesOf_releaseRow (h : releaseRow env record = .ok r) : CompaniesOf env record r := by
  simp only [releaseRow, bind_eq_ok, pure_eq_ok] at h
  refine ⟨?_, ?_⟩
  · unfold IsReleaseOf
    grind
  · grind

theorem companiesOf_releaseRecord (h : releaseRecord env record = .ok r) :
    CompaniesOf env record r := by
  simp only [releaseRecord, bind_eq_ok, pure_eq_ok] at h
  refine ⟨?_, ?_⟩
  · have hget := @get_of_item record
    unfold IsReleaseOf
    grind
  · grind

/-- The node of a record is one. -/
theorem IsReleaseOf.eq {v w : Node} (h : IsReleaseOf v record) (h' : IsReleaseOf w record) :
    v = w := by
  obtain ⟨id, key, hid, hkey, rfl⟩ := h
  obtain ⟨id', key', hid', hkey', rfl⟩ := h'
  rw [hid] at hid'
  cases hid'
  rw [hkey] at hkey'
  cases hkey'
  rfl

theorem resolveCompaniesBlock_eq {companies : PyValue} (h : record.get "companies" = .ok companies) :
    resolveCompaniesBlock record = .ok (if companies.isDict then some companies else none) := by
  unfold resolveCompaniesBlock
  rw [h]
  rfl

theorem CompaniesOf.companyRows_eq_none (h : CompaniesOf env record r) (hno : NoCompanies record) :
    r.companyRows = none := by
  obtain ⟨block, hblock, hrows⟩ := h.companyRows
  obtain ⟨companies, hget, hdict⟩ := hno
  rw [resolveCompaniesBlock_eq hget, hdict] at hblock
  cases hblock
  exact (pure_eq_ok.mp hrows).symm

theorem CompaniesOf.companyRows_eq_nil (h : CompaniesOf env record r)
    (hempty : EmptyCompanies env record) : r.companyRows = some [] := by
  obtain ⟨block, hblock, hrows⟩ := h.companyRows
  obtain ⟨companies, items, blockItems, hget, hdict, hitems, hiter, hnone⟩ := hempty
  rw [resolveCompaniesBlock_eq hget, hdict, if_pos rfl] at hblock
  cases hblock
  have hunusable : blockItems.mapM (usableCompany env) =
      .ok (List.replicate blockItems.length none) := by
    rw [mapM_eq_ok, List.forall₂_iff_get]
    refine ⟨List.length_replicate.symm, fun i hi _ => ?_⟩
    simpa using hnone _ (List.get_mem blockItems ⟨i, hi⟩)
  have hnil : creditedToRows env companies = .ok [] := by
    simp only [creditedToRows, bind_eq_ok, pure_eq_ok]
    refine ⟨items, hitems, blockItems, hiter, _, hunusable, ?_⟩
    have hnone : (List.replicate blockItems.length (none : Option CompanyRow)).filterMap id = [] :=
      List.filterMap_eq_nil_iff.mpr fun x hx => List.eq_of_mem_replicate hx
    rw [hnone]
    rfl
  have hsome : Option.mapM (creditedToRows env) (some companies) = .ok (some []) := by
    rw [Option.mapM_some, hnil]
    rfl
  rw [hsome] at hrows
  exact (Except.ok.inj hrows).symm

end Rows

section Projections

variable {env : Env} {g g' : Graph} {written : List PyValue}

/-- Only two of the stages read the companies. -/
def CompaniesApart (P : Staged ReleaseRow) : Prop :=
  ∃ pre post, P.programs = pre ++ [pruneCompanies, linkCompanies] ++ post ∧
    ∀ f ∈ pre ++ post, ∀ r, f r = f r.silent

theorem companiesApart_releaseStages : CompaniesApart releaseStages := by
  refine ⟨[_, _, _, _, _, _, _, _, _, _, _, _], [_, _], rfl, ?_⟩
  simp only [List.cons_append, List.nil_append, List.forall_mem_cons]
  exact ⟨fun _ => rfl, fun _ => rfl, fun _ => rfl, fun _ => rfl, fun _ => rfl, fun _ => rfl,
    fun _ => rfl, fun _ => rfl, fun _ => rfl, fun _ => rfl, fun _ => rfl, fun _ => rfl,
    fun _ => rfl, fun _ => rfl, List.forall_mem_nil _⟩

theorem companiesApart_releaseRecordStages : CompaniesApart releaseRecordStages := by
  refine ⟨[_, _, _, _, _, _, _, _], [_, _, _, _, _, _, _, _], rfl, ?_⟩
  simp only [List.cons_append, List.nil_append, List.forall_mem_cons]
  exact ⟨fun _ => rfl, fun _ => rfl, fun _ => rfl, fun _ => rfl, fun _ => rfl, fun _ => rfl,
    fun _ => rfl, fun _ => rfl, fun _ => rfl, fun _ => rfl, fun _ => rfl, fun _ => rfl,
    fun _ => rfl, fun _ => rfl, fun _ => rfl, fun _ => rfl, List.forall_mem_nil _⟩

/-- A projection runs stages over the rows of its records, and then the last statement. -/
structure StagedWrite (env : Env) (g : Graph) (written : List PyValue) (g' : Graph)
    (rows : List ReleaseRow) (P : Staged ReleaseRow) : Prop where
  rows_eq : List.Forall₂ (CompaniesOf env) written rows
  graph_eq : g' = runAll mergeSameAs rows (runStages P.programs rows g)
  managed : P.managed = releaseManaged
  shared : P.shared = releaseStages.shared
  apart : CompaniesApart P

theorem ReleaseProjection.exists_rows (h : ReleaseProjection env g written g') :
    ∃ rows P, StagedWrite env g written g' rows P := by
  cases h with
  | batch hprocess husable hchanged =>
    obtain ⟨usable, changed, rows, husable', hchanged', hrows, rfl, -⟩ :=
      Projector.process_eq_ok rfl hprocess
    obtain rfl : usable = _ := Except.ok.inj (husable'.symm.trans husable)
    obtain rfl : changed = written := Except.ok.inj (hchanged'.symm.trans hchanged)
    exact ⟨rows, releaseStages, (mapM_eq_ok.mp hrows).imp fun _ _ => companiesOf_releaseRow,
      congrArg (runAll mergeSameAs rows) (writeReleasesCore_eq rows g), rfl, rfl,
      companiesApart_releaseStages⟩
  | single hprocess =>
    obtain ⟨hfalse, -⟩ | ⟨-, r, hr, rfl⟩ := processRecord_eq_ok hprocess
    · cases hfalse
    exact ⟨[r], releaseRecordStages, .cons (companiesOf_releaseRecord hr) .nil,
      congrArg (mergeSameAs r) (writeReleaseCore_eq r g), rfl, rfl,
      companiesApart_releaseRecordStages⟩
  | skipped hprocess =>
    obtain ⟨-, rfl⟩ | ⟨htrue, -⟩ := processRecord_eq_ok hprocess
    · exact ⟨[], releaseRecordStages, .nil, rfl, rfl, rfl, companiesApart_releaseRecordStages⟩
    · cases htrue

/-- A foreign arc is managed by none of the records written. -/
theorem notMem_managed_of_foreign {rows : List ReleaseRow} {a : Arc Node Rel}
    (hrows : List.Forall₂ (CompaniesOf env) written rows) (h : Foreign written a) :
    ∀ r ∈ rows, a ∉ releaseManaged r := by
  intro r hr hmem
  obtain ⟨record, hrecord, hrow⟩ := exists_left_of_mem hrows hr
  have hof := hrow.isReleaseOf
  obtain ⟨kind, src, dst⟩ := a
  rcases hmem with ⟨hsrc, hout⟩ | ⟨hdst, role, hkind⟩
  · change src = _ at hsrc
    subst hsrc
    cases kind with
    | ISSUED_ON source => exact h.elim (fun hne => hne hout) fun hnone => hnone record hrecord hof
    | CREDITED_TO role source =>
      exact h.elim (fun hne => hne hout.1) fun hnone => hnone record hrecord hof
    | BY | ON | DERIVED_FROM | IS => exact h record hrecord hof
    | _ => exact hout
  · change dst = _ at hdst
    change kind = _ at hkind
    subst hdst hkind
    exact h record hrecord hof

theorem Foreign.kind_notMem_shared {a : Arc Node Rel} (h : Foreign written a) :
    a.kind ∉ releaseStages.shared ∧ a.kind ≠ .SAME_AS := by
  refine ⟨?_, fun hk => ?_⟩
  · rintro (hk | hk)
    · simp only [Foreign, hk] at h
    · simp only [Foreign, Set.mem_singleton_iff.mp hk] at h
  · simp only [Foreign, hk] at h

/-- **Scope.** A projection of releases leaves every foreign edge as it is. -/
theorem ReleaseProjection.foreign (h : ReleaseProjection env g written g') {e : Edge Node Rel}
    (he : Foreign written e.arc) : SameEdge e g g' := by
  obtain ⟨rows, P, hw⟩ := h.exists_rows
  obtain ⟨hshared, hsame⟩ := he.kind_notMem_shared
  rw [hw.graph_eq]
  refine (sameEdge_programs ?_ ?_ g).trans (sameEdge_mergeSameAs hsame rows _)
  · rw [hw.managed]
    exact notMem_managed_of_foreign hw.rows_eq he
  · rwa [hw.shared]

/-- **Writes are scoped, and silence deletes nothing.** A projection of releases leaves every foreign
edge as it is. It leaves the CREDITED_TO edges of a release as they are when its record carries no
companies block. When the block has no usable item, it deletes those of this provider that lead to
a company, and leaves the others as they are. -/
theorem release_projection_scoped (h : ReleaseProjection env g written g') :
    (∀ e : Edge Node Rel, Foreign written e.arc → SameEdge e g g') ∧
    ∀ (v : Node) (e : Edge Node Rel) (role source : PyValue),
      e.arc.src = v → e.arc.kind = .CREDITED_TO role source →
      ((∀ record ∈ written, IsReleaseOf v record → NoCompanies record) → SameEdge e g g') ∧
      ((∃ record ∈ written, IsReleaseOf v record) →
        (∀ record ∈ written, IsReleaseOf v record → EmptyCompanies env record) →
        (e ∈ g'.edges ↔ e ∈ g.edges ∧ ¬(source = companySource ∧ e.arc.dst.label = .company)) ∧
          (e ∈ g'.edges → g'.edges.row e = g.edges.row e)) := by
  refine ⟨fun e he => h.foreign he, ?_⟩
  rintro v e role source rfl hkind
  obtain ⟨rows, P, hw⟩ := h.exists_rows
  have hlast := sameEdge_mergeSameAs (e := e) (by rw [hkind]; exact nofun) rows
    (runStages P.programs rows g)
  rw [← hw.graph_eq] at hlast
  -- The row of a release comes from one of its records.
  have hrecord : ∀ r ∈ rows, e.arc.src = .release r.id →
      ∃ record ∈ written, IsReleaseOf e.arc.src record ∧ CompaniesOf env record r := by
    intro r hr hsrc
    obtain ⟨record, hrecord, hof⟩ := exists_left_of_mem hw.rows_eq hr
    exact ⟨record, hrecord, hsrc ▸ hof.isReleaseOf, hof⟩
  refine ⟨fun hno => ?_, fun ⟨record, hmem, hof⟩ hempty => ?_⟩
  · refine (sameEdge_programs (fun r hr => ?_) ?_ g).trans hlast
    · rw [hw.managed]
      rintro (⟨hsrc, hout⟩ | ⟨-, role', hk⟩)
      · obtain ⟨record, hmem, hof, hrow⟩ := hrecord r hr hsrc
        rw [hkind] at hout
        exact hout.2 (hrow.companyRows_eq_none (hno record hmem hof))
      · rw [hkind] at hk
        cases hk
    · rw [hw.shared, hkind]
      simp [releaseStages]
  · obtain ⟨pre, post, hprog, hsilent⟩ := hw.apart
    obtain ⟨r, hr, hrow⟩ := exists_right_of_mem hw.rows_eq hmem
    obtain ⟨hiff, hsame⟩ := creditedTo_programs hprog hw.managed hw.shared hsilent hkind
      ⟨r, hr, hof.eq hrow.isReleaseOf⟩ (fun r hr hsrc => by
        obtain ⟨record, hmem, hof, hrow⟩ := hrecord r hr hsrc
        exact hrow.companyRows_eq_nil (hempty record hmem hof)) g
    exact ⟨hlast.1.trans hiff, fun he => hlast.2.trans (hsame (hlast.1.mp he))⟩

end Projections

/-- A release with an empty companies block. -/
def emptyBlock : PyValue :=
  .obj [("id", .str "10"), ("sha256", .str "h"), ("media", .obj []), ("companies", .obj [])]

/-- Two releases that two catalogs credit to one company. -/
def credited : Graph :=
  (∅ : Graph)
    |> mergeEdge ⟨.CREDITED_TO (.str "Pressed By") companySource, .release (.str "10"),
      .company "5"⟩ id
    |> mergeEdge ⟨.CREDITED_TO (.str "Pressed By") (.str "musicbrainz"), .release (.str "10"),
      .company "5"⟩ id
    |> mergeEdge ⟨.CREDITED_TO (.str "Pressed By") companySource, .release (.str "11"),
      .company "5"⟩ id

theorem emptyCompanies_emptyBlock : EmptyCompanies plainEnv emptyBlock :=
  ⟨.obj [], .null, [], rfl, rfl, rfl, rfl, nofun⟩

theorem release_projection_scoped_empty_block :
    ∃ g', processRelease plainEnv emptyBlock credited = .ok (g', true) ∧
      ⟨⟨.CREDITED_TO (.str "Pressed By") companySource, .release (.str "10"), .company "5"⟩, 0⟩ ∉
        g'.edges ∧
      ⟨⟨.CREDITED_TO (.str "Pressed By") (.str "musicbrainz"), .release (.str "10"), .company "5"⟩,
        0⟩ ∈ g'.edges ∧
      ⟨⟨.CREDITED_TO (.str "Pressed By") companySource, .release (.str "11"), .company "5"⟩, 0⟩ ∈
        g'.edges := by
  have hrun : processRelease plainEnv emptyBlock credited = .ok (_, true) := rfl
  have hof : IsReleaseOf (.release (.str "10")) emptyBlock := ⟨.str "10", .str "10", rfl, rfl, rfl⟩
  obtain ⟨hforeign, hcompanies⟩ := release_projection_scoped (.single hrun)
  refine ⟨_, hrun, ?_, ?_, ?_⟩
  · obtain ⟨hiff, -⟩ := (hcompanies (.release (.str "10"))
      ⟨⟨.CREDITED_TO (.str "Pressed By") companySource, .release (.str "10"), .company "5"⟩, 0⟩
      _ _ rfl rfl).2 ⟨emptyBlock, by simp, hof⟩
      (by simpa using fun _ => emptyCompanies_emptyBlock)
    exact fun h => (hiff.mp h).2 ⟨rfl, rfl⟩
  · exact (hforeign ⟨⟨.CREDITED_TO (.str "Pressed By") (.str "musicbrainz"), .release (.str "10"),
      .company "5"⟩, 0⟩ (Or.inl (by decide))).1.mpr (by decide)
  · refine (hforeign ⟨⟨.CREDITED_TO (.str "Pressed By") companySource, .release (.str "11"),
      .company "5"⟩, 0⟩ (Or.inr ?_)).1.mpr (by decide)
    rintro record hrecord h
    obtain rfl := List.mem_singleton.mp hrecord
    exact absurd (h.eq hof) (by decide)

/-- A release that is credited to a person. -/
def creditedPerson : Graph :=
  (∅ : Graph).mergeEdge ⟨.CREDITED_TO (.str "Pressed By") companySource, .release (.str "10"),
    .person (.str "Ann")⟩ id

/-- The prune matches companies only: the edge to a person stays. -/
theorem release_projection_counterexample :
    ∃ g' e role, processRelease plainEnv emptyBlock creditedPerson = .ok (g', true) ∧
      EmptyCompanies plainEnv emptyBlock ∧ IsReleaseOf e.arc.src emptyBlock ∧
      e.arc.kind = .CREDITED_TO role companySource ∧ e ∈ creditedPerson.edges ∧ e ∈ g'.edges := by
  refine ⟨_, ⟨⟨.CREDITED_TO (.str "Pressed By") companySource, .release (.str "10"),
    .person (.str "Ann")⟩, 0⟩, .str "Pressed By", rfl, emptyCompanies_emptyBlock,
    ⟨.str "10", .str "10", rfl, rfl, rfl⟩, rfl, by decide, by decide⟩

end Graphinator
