import Graphinator.Asserted
import Graphinator.CompanyNames

/-!
# Media and their families

A release writes the family of each of its media twice: as a property of the medium, which the next
release overwrites, and as an IN_FAMILY edge, which nothing deletes. So after a run a medium has an
edge to each family that was ever written for it, and its property is the last one.

## Main definitions

* `recordFamilies`, `Names.writtenFamilies` : the families written for a medium.
* `FamilyAgrees` : the edges of a medium and its property agree.

## Main results

* `Names.hasArc_inFamily`, `Names.prop_family` : the edges and the property after a run.
* `Names.media_family_agrees` : when they agree.
-/

namespace Graphinator

open PropertyGraph PyValue

/-! ### Media rows -/

/-- The family that a record gives a medium: that of the first usable item which names it. -/
def recordFamilies (env : Env) (medium : String) (record : PyValue) : List String :=
  match resolveMediaBlock env record >>= usableMediaItems with
  | .ok items => ((items.find? (·.medium = medium)).map (·.family)).toList
  | .error _ => []

/-- The families in the rows of a medium. -/
def familiesOf (medium : String) (rows : List MediaRow) : List String :=
  (rows.filter (·.medium = medium)).map (·.family)

section Rows

variable {env : Env} {medium : String}

theorem familiesOf_map {f : MediaRow → MediaRow} (hmedium : ∀ row, (f row).medium = row.medium)
    (hfamily : ∀ row, (f row).family = row.family) (rows : List MediaRow) :
    familiesOf medium (rows.map f) = familiesOf medium rows := by
  simp only [familiesOf, List.filter_map, List.map_map, Function.comp_def, hmedium, hfamily]

theorem familiesOf_eq_nil {rows : List MediaRow} :
    familiesOf medium rows = [] ↔ ∀ row ∈ rows, row.medium ≠ medium := by
  simp [familiesOf, List.filter_eq_nil_iff]

/-- An item changes no family: it adds one if its medium has no row. -/
theorem familiesOf_addMediaItem (rows : List MediaRow) (item : MediaItem) :
    familiesOf medium (addMediaItem env rows item) =
      if item.medium = medium ∧ familiesOf medium rows = [] then [item.family]
      else familiesOf medium rows := by
  unfold addMediaItem
  by_cases hrow : rows.any (·.medium = item.medium)
  · rw [if_pos hrow, familiesOf_map, if_neg]
    · rintro ⟨rfl, hnil⟩
      obtain ⟨row, hrow, hmedium⟩ := List.any_eq_true.mp hrow
      exact familiesOf_eq_nil.mp hnil row hrow (of_decide_eq_true hmedium)
    · intro row
      split_ifs <;> rfl
    · intro row
      split_ifs <;> rfl
  · rw [if_neg hrow, familiesOf, List.filter_append, List.map_append]
    by_cases hitem : item.medium = medium
    · have hnil : familiesOf medium rows = [] := familiesOf_eq_nil.mpr fun row hmem heq =>
        hrow (List.any_eq_true.mpr ⟨row, hmem, decide_eq_true (heq.trans hitem.symm)⟩)
      rw [if_pos ⟨hitem, hnil⟩, List.filter_cons_of_pos (by simpa using hitem)]
      change familiesOf medium rows ++ _ = _
      rw [hnil]
      rfl
    · rw [if_neg fun h => hitem h.1, List.filter_cons_of_neg (by simpa using hitem)]
      exact List.append_nil _

/-- The first item of a medium gives its family. -/
theorem familiesOf_foldl (items : List MediaItem) (rows : List MediaRow) :
    familiesOf medium (items.foldl (addMediaItem env) rows) =
      if familiesOf medium rows = [] then
        ((items.find? (·.medium = medium)).map (·.family)).toList
      else familiesOf medium rows := by
  induction items generalizing rows with
  | nil => simp
  | cons item items ih =>
    rw [List.foldl_cons, ih]
    by_cases hrows : familiesOf medium rows = []
    · rw [if_pos hrows]
      by_cases hitem : item.medium = medium
      · have hadd : familiesOf medium (addMediaItem env rows item) = [item.family] := by
          rw [familiesOf_addMediaItem, if_pos ⟨hitem, hrows⟩]
        rw [hadd, if_neg (List.cons_ne_nil _ _), List.find?_cons_of_pos (by simpa using hitem)]
        rfl
      · have hadd : familiesOf medium (addMediaItem env rows item) = [] := by
          rw [familiesOf_addMediaItem, if_neg fun h => hitem h.1, hrows]
        rw [if_pos hadd, List.find?_cons_of_neg (by simpa using hitem)]
    · have hadd : familiesOf medium (addMediaItem env rows item) = familiesOf medium rows := by
        rw [familiesOf_addMediaItem, if_neg fun h => hrows h.2]
      rw [hadd, if_neg hrows, if_neg hrows]

/-- The media rows of a record, on either path. -/
theorem RowFor.mediaRows {record : PyValue} {r : ReleaseRow} (h : RowFor env .releases record r) :
    (resolveMediaBlock env record >>= issuedOnRows env) = .ok r.mediaRows := by
  simp only [bind_eq_ok]
  rcases h with h | h
  · change releaseRow env record = .ok r at h
    simp only [releaseRow, bind_eq_ok, pure_eq_ok] at h
    grind
  · change releaseRecord env record = .ok r at h
    simp only [releaseRecord, bind_eq_ok, pure_eq_ok] at h
    grind

theorem RowFor.familiesOf {record : PyValue} {r : ReleaseRow} (h : RowFor env .releases record r) :
    recordFamilies env medium record = Graphinator.familiesOf medium r.mediaRows := by
  obtain ⟨block, hblock, hrows⟩ := bind_eq_ok.mp h.mediaRows
  simp only [issuedOnRows, bind_eq_ok, pure_eq_ok] at hrows
  obtain ⟨items, hitems, hrows⟩ := hrows
  have hresolved : (resolveMediaBlock env record >>= usableMediaItems) = .ok items :=
    bind_eq_ok.mpr ⟨block, hblock, hitems⟩
  rw [recordFamilies, hresolved, ← hrows, familiesOf_foldl]
  rfl

end Rows

/-! ### What a batch makes of a medium -/

section Batch

variable {rows : List ReleaseRow} {g : Graph} {medium : String}

/-- The families of a medium in the rows of a batch. -/
def batchFamilies (medium : String) (rows : List ReleaseRow) : List String :=
  rows.flatMap fun r => familiesOf medium r.mediaRows

theorem mem_batchFamilies {family : String} : family ∈ batchFamilies medium rows ↔
    ∃ r ∈ rows, ∃ row ∈ r.mediaRows, row.medium = medium ∧ row.family = family := by
  simp [batchFamilies, familiesOf, and_assoc]

/-- An IN_FAMILY edge is merged for each family, and none is deleted. -/
theorem hasArc_inFamily (v : Node) :
    (writeReleases rows g).HasArc ⟨.IN_FAMILY, .medium medium, v⟩ ↔
      g.HasArc ⟨.IN_FAMILY, .medium medium, v⟩ ∨
        ∃ family ∈ batchFamilies medium rows, v = .mediaFamily family := by
  have hkept : ∀ r : ReleaseRow, (⟨.IN_FAMILY, .medium medium, v⟩ : Arc Node Rel) ∉ r.Drops := by
    intro r
    simp [ReleaseRow.Drops, StaleReleaseEdge, droppedMedia, droppedArcs, droppedCompanies,
      droppedCredits, staleCompanyEdge, staleCreditEdge]
  have hmerged : ∀ r : ReleaseRow, (⟨.IN_FAMILY, .medium medium, v⟩ : Arc Node Rel) ∈ r.Asserts ↔
      ∃ row ∈ r.mediaRows, row.medium = medium ∧ v = .mediaFamily row.family := by
    intro r
    simp [ReleaseRow.Asserts, arcsTo, partOfArcs, mediaArcs, companyArcs, creditArcs, Node.medium,
      eq_comm]
  rw [arcs_writeReleases (by simp)]
  simp only [hkept, hmerged, not_false_eq_true, implies_true, and_true, mem_batchFamilies]
  refine or_congr_right ⟨?_, ?_⟩
  · rintro ⟨r, hr, row, hrow, hmedium, rfl⟩
    exact ⟨row.family, ⟨r, hr, row, hrow, hmedium, rfl⟩, rfl⟩
  · rintro ⟨_, ⟨r, hr, row, hrow, hmedium, rfl⟩, rfl⟩
    exact ⟨r, hr, row, hrow, hmedium, rfl⟩

/-- The node of a medium. -/
def MediaRow.node (row : MediaRow) : Node := .medium row.medium

/-- What a row sets on its medium. -/
def MediaRow.props (row : MediaRow) : List (String × PyValue) :=
  [("family", .str row.family), ("label", .str row.label)]

theorem row_linkMedium (release : PyValue) (row : MediaRow) (g : Graph) :
    (linkMedium release row g).nodes.row (.medium medium) =
      if row.node = .medium medium then setProps row.props (g.nodes.row (.medium medium))
      else g.nodes.row (.medium medium) := by
  simp only [linkMedium, row_nodes_mergeEdge, row_nodes_mergeNode]
  have hfamily : (Node.medium medium : Node) ≠ .mediaFamily row.family := by simp
  rw [if_neg hfamily]
  exact if_congr eq_comm rfl rfl

/-- The last row of a medium gives its family. -/
theorem prop_family_writeReleases : prop (writeReleases rows g) (.medium medium) "family" =
    ((batchFamilies medium rows).getLast?.map PyValue.str).getD
      (prop g (.medium medium) "family") := by
  have hlast : (writeReleases rows g).nodes.row (.medium medium) =
      (writeReleasesCore rows g).nodes.row (.medium medium) :=
    congrFun (row_nodes_mergeSameAs rows (writeReleasesCore rows g)).1 _
  have hstage : (some (Node.medium medium).label, fun r : ReleaseRow =>
      runAll (linkMedium r.id) r.mediaRows) ∈ releaseStages.stages := by
    simp [releaseStages]
  obtain ⟨t, ht, hrun⟩ := releaseStages.row_zone hstage rows g
  have hrow := row_runAll_runAll (v := .medium medium)
    (f := fun r : ReleaseRow => linkMedium r.id) (fun r row g => row_linkMedium r.id row g)
    (fun r => r.mediaRows) rows t
  have hprops : ∀ (row : MediaRow) (old : Row), setProps row.props old "family" = .str row.family :=
    fun row old => setProps_of_mem (by simp)
      (List.mem_cons_self (a := ("family", _))) old
  have hfamilies : batchFamilies medium rows =
      ((rows.flatMap fun r => r.mediaRows).filter (MediaRow.node · = .medium medium)).map
        (·.family) := by
    rw [List.filter_flatMap, List.map_flatMap]
    simp [batchFamilies, familiesOf, MediaRow.node]
  unfold prop
  rw [hlast, writeReleasesCore_eq, hrun, ← ht, hrow, updateRow_last hprops, hfamilies,
    List.getLast?_map, Option.map_map]
  rfl

/-- A batch adds only media that it has rows of. -/
theorem medium_writeReleases {v : Node} (hv : v ∈ (writeReleases rows g).nodes)
    (hlabel : v.label = .medium) :
    v ∈ g.nodes ∨ ∃ medium, v = .medium medium ∧ batchFamilies medium rows ≠ [] := by
  refine (nodes_writeReleases hv).imp_right ?_
  rintro ⟨r, hr, hmem⟩
  obtain ⟨nodeLabel, key⟩ := v
  obtain rfl : nodeLabel = .medium := hlabel
  obtain ⟨row, hrow, hv⟩ : ∃ row ∈ r.mediaRows, _ = Node.medium row.medium := hmem
  exact ⟨row.medium, hv,
    List.ne_nil_of_mem (mem_batchFamilies.mpr ⟨r, hr, row, hrow, rfl, rfl⟩)⟩

end Batch

/-! ### Runs -/

/-- A medium has one IN_FAMILY edge, and it leads to the family that the medium names. -/
structure FamilyAgrees (g : Graph) (v : Node) : Prop where
  unique : ∃! e, e ∈ g.edges ∧ e.arc.kind = .IN_FAMILY ∧ e.arc.src = v
  leads : ∀ e ∈ g.edges, e.arc.kind = .IN_FAMILY → e.arc.src = v →
    e.arc.dst.label = .mediaFamily ∧ prop g v "family" = e.arc.dst.key

namespace Names

/-- The families that a run writes for a medium, in order. -/
def writtenFamilies (env : Env) (medium : String) : List Action → Graph → List String :=
  along env fun g a => (writtenRecords env g a).flatMap (recordFamilies env medium)

section Media

variable {env : Env} {actions : List Action} {g : Graph} {medium : String}

/-- The families of a transaction are those in its rows. -/
theorem exists_rows (env : Env) {a : Action} (ha : a.Projects [.releases]) (g : Graph) :
    ∃ rows, step env a g = writeReleases rows g ∧
      ∀ medium, (writtenRecords env g a).flatMap (recordFamilies env medium) =
        batchFamilies medium rows := by
  obtain ⟨rows, hrows, hstep⟩ := step_releases ha g
  exact ⟨rows, hstep, fun medium => flatMap_eq_of_forall₂ hrows fun _ _ h => h.familiesOf⟩

/-- **The edges of a medium after a run**: one to each family that was written for it. -/
theorem hasArc_run (h : ∀ a ∈ actions, a.Projects [.releases]) (g : Graph) (v : Node) :
    (runAll (step env) actions g).HasArc ⟨.IN_FAMILY, .medium medium, v⟩ ↔
      g.HasArc ⟨.IN_FAMILY, .medium medium, v⟩ ∨
        ∃ family ∈ writtenFamilies env medium actions g, v = .mediaFamily family := by
  induction actions generalizing g with
  | nil => simp [writtenFamilies, along]
  | cons a actions ih =>
    obtain ⟨rows, hstep, hfamilies⟩ := exists_rows env (h a (List.mem_cons_self ..)) g
    rw [runAll_cons, ih fun b hb => h b (List.mem_cons_of_mem _ hb), hstep, hasArc_inFamily,
      ← hfamilies, or_assoc, ← hstep]
    simp only [writtenFamilies, along, List.mem_append, or_and_right, exists_or]

/-- **The property of a medium after a run**: the last family that was written for it. -/
theorem prop_family_run (h : ∀ a ∈ actions, a.Projects [.releases]) (g : Graph) :
    prop (runAll (step env) actions g) (.medium medium) "family" =
      ((writtenFamilies env medium actions g).getLast?.map PyValue.str).getD
        (prop g (.medium medium) "family") := by
  induction actions generalizing g with
  | nil => rfl
  | cons a actions ih =>
    obtain ⟨rows, hstep, hfamilies⟩ := exists_rows env (h a (List.mem_cons_self ..)) g
    rw [runAll_cons, ih fun b hb => h b (List.mem_cons_of_mem _ hb), hstep,
      prop_family_writeReleases, ← hfamilies, ← hstep, writtenFamilies, along,
      List.getLast?_append]
    cases (along env _ actions (step env a g)).getLast? <;> rfl

/-- A run adds only media that it writes a family for. -/
theorem medium_run (h : ∀ a ∈ actions, a.Projects [.releases]) {g : Graph} {v : Node}
    (hv : v ∈ (runAll (step env) actions g).nodes) (hlabel : v.label = .medium) :
    v ∈ g.nodes ∨ ∃ medium, v = .medium medium ∧ writtenFamilies env medium actions g ≠ [] := by
  induction actions generalizing g with
  | nil => exact Or.inl hv
  | cons a actions ih =>
    obtain ⟨rows, hstep, hfamilies⟩ := exists_rows env (h a (List.mem_cons_self ..)) g
    rw [runAll_cons] at hv
    rcases ih (fun b hb => h b (List.mem_cons_of_mem _ hb)) hv with hv | ⟨medium, rfl, hne⟩
    · rw [hstep] at hv
      refine (medium_writeReleases hv hlabel).imp_right ?_
      rintro ⟨medium, rfl, hne⟩
      refine ⟨medium, rfl, List.append_ne_nil_of_left_ne_nil (fun hnil => hne ?_) _⟩
      exact (hfamilies medium).symm.trans hnil
    · exact Or.inr ⟨medium, rfl, List.append_ne_nil_of_right_ne_nil _ hne⟩

theorem simple_run (h : ∀ a ∈ actions, a.Projects [.releases]) {g : Graph} (hg : g.Simple) :
    (runAll (step env) actions g).Simple := by
  refine runAll_invariant (I := Simple) (fun a ha t ht => ?_) hg
  obtain ⟨rows, hstep, -⟩ := exists_rows env (h a ha) t
  rw [hstep]
  exact simple_writeReleases ht

/-- A medium whose releases agree on its family has the one edge. -/
theorem familyAgrees_of_eq (h : ∀ a ∈ actions, a.Projects [.releases]) {family : String}
    (hmem : family ∈ writtenFamilies env medium actions ∅)
    (hall : ∀ family' ∈ writtenFamilies env medium actions ∅, family' = family) :
    FamilyAgrees (runAll (step env) actions ∅) (.medium medium) := by
  have hsimple : (runAll (step env) actions ∅).Simple :=
    simple_run h fun e he => absurd he (Table.notMem_empty e)
  have harc : ∀ v, (runAll (step env) actions ∅).HasArc ⟨.IN_FAMILY, .medium medium, v⟩ ↔
      v = .mediaFamily family := by
    intro v
    rw [hasArc_run h, or_iff_right fun harc => Table.notMem_empty _ harc.src_mem]
    constructor
    · rintro ⟨family', hmem', rfl⟩
      rw [hall family' hmem']
    · rintro rfl
      exact ⟨family, hmem, rfl⟩
  have hdst : ∀ e ∈ (runAll (step env) actions ∅).edges, e.arc.kind = .IN_FAMILY →
      e.arc.src = .medium medium → e.arc.dst = .mediaFamily family := by
    rintro ⟨⟨kind, src, dst⟩, copy⟩ he rfl rfl
    exact (harc dst).mp (hasArc_of_mem he)
  refine ⟨⟨⟨⟨.IN_FAMILY, .medium medium, .mediaFamily family⟩, 0⟩, ⟨?_, rfl, rfl⟩, ?_⟩, ?_⟩
  · obtain ⟨n, hn⟩ := hasArc_iff.mp ((harc _).mpr rfl)
    obtain rfl : n = 0 := hsimple _ hn
    exact hn
  · rintro e ⟨he, hkind, hsrc⟩
    obtain ⟨⟨kind, src, dst⟩, copy⟩ := e
    obtain rfl : copy = 0 := hsimple _ he
    obtain rfl : dst = .mediaFamily family := hdst _ he hkind hsrc
    subst hkind hsrc
    rfl
  · intro e he hkind hsrc
    rw [hdst e he hkind hsrc]
    refine ⟨rfl, ?_⟩
    obtain ⟨last, hlast⟩ :=
      Option.isSome_iff_exists.mp (List.getLast?_isSome.mpr (List.ne_nil_of_mem hmem))
    rw [prop_family_run h, hlast, hall last (List.mem_of_getLast? hlast)]
    rfl

/-- **When a Medium and its family agree.** In every graph that release projections build from the
empty one, every Medium has one IN_FAMILY edge and it leads to the family that its property names,
exactly if the releases of the run gave no medium two families. -/
theorem media_family_agrees (env : Env) {actions : List Action}
    (h : ∀ a ∈ actions, a.Projects [.releases]) :
    (∀ v ∈ (runAll (step env) actions ∅).nodes, v.label = .medium →
        FamilyAgrees (runAll (step env) actions ∅) v) ↔
      ∀ medium, ∀ family ∈ writtenFamilies env medium actions ∅,
        ∀ family' ∈ writtenFamilies env medium actions ∅, family' = family := by
  constructor
  · intro hagrees medium family hfamily family' hfamily'
    have harc := (hasArc_run h ∅ (.mediaFamily family)).mpr (Or.inr ⟨family, hfamily, rfl⟩)
    have harc' := (hasArc_run h ∅ (.mediaFamily family')).mpr (Or.inr ⟨family', hfamily', rfl⟩)
    obtain ⟨n, he⟩ := hasArc_iff.mp harc
    obtain ⟨n', he'⟩ := hasArc_iff.mp harc'
    have hone := (hagrees (.medium medium) harc.src_mem rfl).unique.unique ⟨he', rfl, rfl⟩
      ⟨he, rfl, rfl⟩
    simpa using congrArg (fun e : Edge Node Rel => e.arc.dst.key) hone
  · intro hone v hv hlabel
    rcases medium_run h hv hlabel with hv | ⟨medium, rfl, hne⟩
    · exact absurd hv (Table.notMem_empty v)
    · obtain ⟨family, hfamily⟩ := List.exists_mem_of_ne_nil _ hne
      exact familyAgrees_of_eq h hfamily (hone medium family hfamily)

end Media

/-- A release on one medium, of some family. -/
def mediaRelease (id family : String) : PyValue :=
  .obj [("id", .str id), ("sha256", .str id), ("media", .obj [("items", .arr [.obj [
    ("medium", .str "vinyl_12in"), ("family", .str family), ("qty", .int 1)]])])]

/-- It gives no medium another family. -/
theorem recordFamilies_mediaRelease (medium id : String) :
    recordFamilies plainEnv medium (mediaRelease id "vinyl") ⊆ ["vinyl"] := by
  have hfind : recordFamilies plainEnv medium (mediaRelease id "vinyl") =
      ((([{ medium := "vinyl_12in", family := "vinyl", qty := 1 }] : List MediaItem).find?
        (·.medium = medium)).map (·.family)).toList := rfl
  rw [hfind, List.find?_singleton]
  split_ifs <;> simp

theorem media_family_agrees_vinyl :
    FamilyAgrees (runAll (step plainEnv) [.batch .releases [mediaRelease "1" "vinyl"],
      .record .releases (mediaRelease "2" "vinyl")] ∅) (.medium "vinyl_12in") := by
  have hreleases : ∀ a ∈ [Action.batch .releases [mediaRelease "1" "vinyl"],
      .record .releases (mediaRelease "2" "vinyl")], a.Projects [.releases] := by
    simp [Action.Projects]
  refine (media_family_agrees plainEnv hreleases).mpr (fun medium family hf family' hf' => ?_) _
    (by decide) rfl
  have hwritten : writtenFamilies plainEnv medium [.batch .releases [mediaRelease "1" "vinyl"],
      .record .releases (mediaRelease "2" "vinyl")] ∅ =
        recordFamilies plainEnv medium (mediaRelease "1" "vinyl") ++
          recordFamilies plainEnv medium (mediaRelease "2" "vinyl") := by
    have hfirst : writtenRecords plainEnv ∅ (.batch .releases [mediaRelease "1" "vinyl"]) =
        [mediaRelease "1" "vinyl"] := by decide
    have hsecond : writtenRecords plainEnv
        (step plainEnv (.batch .releases [mediaRelease "1" "vinyl"]) ∅)
        (.record .releases (mediaRelease "2" "vinyl")) = [mediaRelease "2" "vinyl"] := by decide
    simp only [writtenFamilies, along, hfirst, hsecond, List.flatMap_singleton, List.append_nil]
  rw [hwritten] at hf hf'
  have hone : ∀ family ∈ recordFamilies plainEnv medium (mediaRelease "1" "vinyl") ++
      recordFamilies plainEnv medium (mediaRelease "2" "vinyl"), family = "vinyl" := by
    intro family hmem
    rcases List.mem_append.mp hmem with hmem | hmem <;>
      exact List.mem_singleton.mp (recordFamilies_mediaRelease _ _ hmem)
  rw [hone family hf, hone family' hf']

/-- Two versions of the taxonomy leave a medium with two IN_FAMILY edges. -/
theorem media_family_counterexample :
    ¬∀ v ∈ (runAll (step plainEnv) [.record .releases (mediaRelease "1" "vinyl"),
      .record .releases (mediaRelease "2" "disc")] ∅).nodes, v.label = .medium →
        FamilyAgrees (runAll (step plainEnv) [.record .releases (mediaRelease "1" "vinyl"),
          .record .releases (mediaRelease "2" "disc")] ∅) v := by
  intro hagrees
  have hone : (⟨⟨.IN_FAMILY, .medium "vinyl_12in", .mediaFamily "vinyl"⟩, 0⟩ : Edge Node Rel) =
      ⟨⟨.IN_FAMILY, .medium "vinyl_12in", .mediaFamily "disc"⟩, 0⟩ :=
    (hagrees (.medium "vinyl_12in") (by decide) rfl).unique.unique ⟨by decide, rfl, rfl⟩
      ⟨by decide, rfl, rfl⟩
  exact absurd hone (by decide)

end Names

end Graphinator
