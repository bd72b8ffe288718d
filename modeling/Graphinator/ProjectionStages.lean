import Graphinator.EntityProjection

/-!
# The projections as stages

A transaction of a batch runs one statement after another, each over the rows of all its records.
Without the conditions that its `MATCH` clauses put on nodes the transaction has merged before, a
statement is a stage: a program for each record. Each stage writes rows of nodes of one label at
most and deletes only edges that the record owns, so the stages of different records commute, and
a batch acts like its records one after another.

The last statement of a releases batch, SAME_AS, matches nodes of another type and is no stage.

## Main definitions

* `Staged` : the stages of a type of record, with what they may write.
* `artistStages`, `labelStages`, `masterStages`, `releaseStages`.

## Main results

* `Staged.runStages_programs` : the stages over records of different nodes, or record by record.
* `writeArtists_eq`, `writeLabels_eq`, `writeMasters_eq`, `writeReleasesCore_eq` : the
  transactions are their stages.
* `writeMaster_eq`, `writeReleaseCore_eq` : so are those of the single-record projection.
-/

namespace Graphinator

open PropertyGraph

/-- The stages of the projection of a type of record. -/
structure Staged (ρ : Type) where
  /-- The node of the record. -/
  own : ρ → Node
  /-- The updates the record may apply to the rows of nodes. -/
  updates : ρ → Node → Set (Row → Row)
  /-- The arcs whose edges the record replaces. -/
  managed : ρ → Set (Arc Node Rel)
  /-- The types of the arcs it merges and leaves alone otherwise. -/
  shared : Set Rel
  /-- The programs, each with the label of the nodes whose rows it writes. -/
  stages : List (Option Label × (ρ → Graph → Graph))
  within : ∀ s ∈ stages, ∀ r, Within
    { updates := fun v => {u | some v.label = s.1 ∧ u ∈ updates r v}
      owned := managed r, merged := {a | a.kind ∈ shared} } (s.2 r)
  /-- The rows of one label are written by one stage. -/
  zones : stages.Pairwise fun s t => s.1 = none ∨ s.1 ≠ t.1
  managed_disjoint {r r' : ρ} : own r ≠ own r' → Disjoint (managed r) (managed r')
  managed_shared {r : ρ} {a : Arc Node Rel} : a ∈ managed r → a.kind ∉ shared

namespace Staged

variable {ρ : Type} (P : Staged ρ)

/-- What the projection of a record may write. -/
def footprint (r : ρ) : Footprint Node Rel Row where
  updates := P.updates r
  owned := P.managed r
  merged := {a | a.kind ∈ P.shared}

/-- The programs of the stages. -/
def programs : List (ρ → Graph → Graph) := P.stages.map (·.2)

/-- The projection of one record. -/
def record (r : ρ) : Graph → Graph := runRecord P.programs r

theorem within_programs {f : ρ → Graph → Graph} (hf : f ∈ P.programs) (r : ρ) :
    Within (P.footprint r) (f r) := by
  obtain ⟨s, hs, rfl⟩ := List.mem_map.mp hf
  refine Within.mono ?_ (P.within s hs r)
  exact ⟨fun _ _ hu => And.right hu, subset_rfl, subset_rfl⟩

theorem within_record (r : ρ) : Within (P.footprint r) (P.record r) :=
  Within.runAll fun _ hf => P.within_programs hf r

/-- Different stages of records of different nodes commute. -/
theorem commute_of_ne {s t : Option Label × (ρ → Graph → Graph)} (hs : s ∈ P.stages)
    (ht : t ∈ P.stages) (hz : s.1 = none ∨ s.1 ≠ t.1) {r r' : ρ} (hne : P.own r ≠ P.own r') :
    Function.Commute (t.2 r) (s.2 r') := by
  refine Within.commute ⟨fun v u u' hu hu' => ?_, P.managed_disjoint hne, ?_, ?_⟩
    (P.within t ht r) (P.within s hs r')
  · exfalso
    rcases hz with hz | hz
    · exact absurd (hu'.1.trans hz) nofun
    · exact hz (hu'.1.symm.trans hu.1)
  · exact Set.disjoint_left.mpr fun a ha => P.managed_shared ha
  · exact Set.disjoint_left.mpr fun a ha hm => P.managed_shared hm ha

/-- **Stages over a batch are its records one after another**, when no two records are of one
node. -/
theorem runStages_programs {rows : List ρ} (hne : rows.Pairwise fun r r' => P.own r ≠ P.own r')
    (g : Graph) : runStages P.programs rows g = runAll P.record rows g := by
  refine runStages_eq ?_ g
  unfold programs
  rw [List.pairwise_map]
  refine P.zones.imp_of_mem fun hs ht hz => hne.imp fun hrr => ?_
  exact P.commute_of_ne hs ht hz hrr

end Staged

/-! ### Statements without their conditions -/

section Bare

variable {F : Footprint Node Rel Row} {n v : Node} {kind : Rel} {name : Option String}

theorem within_linkTo (h : (⟨kind, n, v⟩ : Arc Node Rel) ∈ F.owned ∨ ⟨kind, n, v⟩ ∈ F.merged) :
    Within F (linkTo n kind v) :=
  .comp (h.elim (.mergeOwned _ id) (.mergeArc _)) (.mergeNode v id (Or.inl rfl))

theorem within_linkFrom (h : (⟨kind, v, n⟩ : Arc Node Rel) ∈ F.owned ∨ ⟨kind, v, n⟩ ∈ F.merged) :
    Within F (linkFrom n kind v) :=
  .comp (h.elim (.mergeOwned _ id) (.mergeArc _)) (.mergeNode v id (Or.inl rfl))

theorem within_linkNamed (hu : fillName (textValue name) ∈ F.updates v)
    (h : (⟨kind, n, v⟩ : Arc Node Rel) ∈ F.owned) : Within F (linkNamed n kind v name) :=
  .comp (.mergeOwned _ id h) (.mergeNode v _ (Or.inr hu))

theorem within_linkMedium {release : PyValue} {row : MediaRow}
    (hu : setProps [("family", .str row.family), ("label", .str row.label)] ∈
      F.updates (.medium row.medium))
    (hf : (⟨.IN_FAMILY, .medium row.medium, .mediaFamily row.family⟩ : Arc Node Rel) ∈ F.merged)
    (ho : (⟨.ISSUED_ON mediaSource, .release release, .medium row.medium⟩ : Arc Node Rel) ∈
      F.owned) : Within F (linkMedium release row) := by
  have hfamily : Within (σ := Row) F (mergeNode (.mediaFamily row.family) id) :=
    .mergeNode _ _ (Or.inl rfl)
  have hnode := (Within.mergeNode (.medium row.medium) _ (Or.inr hu)).comp hfamily
  have hin := (Within.mergeArc _ hf).comp hnode
  exact (Within.mergeOwned _ (setProps [("qty", .int row.qty)]) ho).comp hin

/-- The statement without its condition, over programs within a footprint. -/
theorem unwindAt_eq_of_within {α : Type} {f : α → Graph → Graph} {xs : List α} {g : Graph}
    (hn : n ∈ g.nodes) (hf : ∀ x ∈ xs, Within F (f x)) : unwindAt n f xs g = runAll f xs g :=
  unwindAt_eq hn fun x hx _ ht => (hf x hx).mem_nodes ht

end Bare

/-- Over programs that commute and that do nothing a second time, repeats do not count. -/
theorem runAll_distinctValues {α γ : Type} [DecidableEq α] {f : α → γ → γ}
    (hidem : ∀ x g, f x (f x g) = f x g) (hcomm : ∀ x y, Function.Commute (f x) (f y))
    (xs : List α) (g : γ) : runAll f (distinctValues xs) g = runAll f xs g := by
  have hdrop : ∀ (x : α) (ys : List α) (t : γ),
      runAll f (ys.filter (· != x)) (f x t) = runAll f ys (f x t) := by
    intro x ys
    induction ys with
    | nil => exact fun _ => rfl
    | cons y ys ih =>
      intro t
      by_cases hy : y = x
      · subst hy
        rw [List.filter_cons_of_neg (by simp), runAll_cons, hidem]
        exact ih t
      · rw [List.filter_cons_of_pos (by simpa using hy), runAll_cons, runAll_cons,
          hcomm y x t]
        exact ih (f y t)
  induction hlen : xs.length using Nat.strong_induction_on generalizing xs g with
  | _ n ih =>
    cases xs with
    | nil => rfl
    | cons x xs =>
      have hlt : (xs.filter (· != x)).length < n := by
        rw [← hlen, List.length_cons]
        exact Nat.lt_succ_of_le (List.length_filter_le ..)
      unfold distinctValues
      rw [List.eraseDups_cons, runAll_cons, runAll_cons, ← hdrop x xs g]
      exact ih _ hlt _ _ rfl

/-- Statements that agree with stages where `I` holds, one after another. -/
theorem pipeline_eq {I : Graph → Prop} {fs bs : List (Graph → Graph)}
    (h : List.Forall₂ (fun f b => ∀ g, I g → f g = b g ∧ I (b g)) fs bs) {g : Graph} (hg : I g) :
    runAll (fun f => f) fs g = runAll (fun b => b) bs g := by
  induction h generalizing g with
  | nil => rfl
  | cons hfb _ ih =>
    obtain ⟨heq, hI⟩ := hfb g hg
    rw [runAll_cons, runAll_cons, heq]
    exact ih hI

/-- A statement over the rows of all records, where it agrees with a stage on each. -/
theorem runAll_eq_of_agree {ρ : Type} {I : Graph → Prop} {f b : ρ → Graph → Graph}
    {rows : List ρ} (hI : ∀ r ∈ rows, ∀ g, I g → I (b r g))
    (heq : ∀ r ∈ rows, ∀ g, I g → f r g = b r g) {g : Graph} (hg : I g) :
    runAll f rows g = runAll b rows g ∧ I (runAll b rows g) := by
  induction rows generalizing g with
  | nil => exact ⟨rfl, hg⟩
  | cons r rows ih =>
    have hr := List.mem_cons_self (a := r) (l := rows)
    rw [runAll_cons, runAll_cons, heq r hr g hg]
    exact ih (fun r hr => hI r (List.mem_cons_of_mem _ hr))
      (fun r hr => heq r (List.mem_cons_of_mem _ hr)) (hI r hr g hg)

/-! ### The stages of each type of record -/

section Stages

/-- The stages of an artist record. -/
def artistStages : Staged ArtistRow where
  own a := .artist a.id
  updates a v := {u | v = .artist a.id ∧ u = setProps a.props}
  managed _ := ∅
  shared := {.MEMBER_OF, .ALIAS_OF}
  stages := [
    (some .artist, mergeArtist),
    (none, fun a => runAll (fun m => linkFrom (.artist a.id) .MEMBER_OF (.artist m)) a.members),
    (none, fun a => runAll (fun m => linkTo (.artist a.id) .MEMBER_OF (.artist m)) a.groups),
    (none, fun a => runAll (fun m => linkFrom (.artist a.id) .ALIAS_OF (.artist m)) a.aliases)]
  within := by
    simp only [List.forall_mem_cons]
    refine ⟨fun a => .mergeNode _ _ (Or.inr ⟨rfl, rfl, rfl⟩),
      fun a => .runAll fun m _ => within_linkFrom (Or.inr (Or.inl rfl)),
      fun a => .runAll fun m _ => within_linkTo (Or.inr (Or.inl rfl)),
      fun a => .runAll fun m _ => within_linkFrom (Or.inr (Or.inr rfl)), nofun⟩
  zones := by decide
  managed_disjoint _ := Set.disjoint_empty _
  managed_shared := nofun

/-- The stages of a label record. -/
def labelStages : Staged LabelRow where
  own l := .ofLabel l.id
  updates l v := {u | v = .ofLabel l.id ∧ u = setProps l.props}
  managed _ := ∅
  shared := {.SUBLABEL_OF}
  stages := [
    (some .label, mergeLabel),
    (none, fun l => runAll (fun p => linkTo (.ofLabel l.id) .SUBLABEL_OF (.ofLabel p))
      l.parentLabel.toList),
    (none, fun l => runAll (fun s => linkFrom (.ofLabel l.id) .SUBLABEL_OF (.ofLabel s))
      l.sublabels)]
  within := by
    simp only [List.forall_mem_cons]
    refine ⟨fun l => .mergeNode _ _ (Or.inr ⟨rfl, rfl, rfl⟩),
      fun l => .runAll fun p _ => within_linkTo (Or.inr rfl),
      fun l => .runAll fun s _ => within_linkFrom (Or.inr rfl), nofun⟩
  zones := by decide
  managed_disjoint _ := Set.disjoint_empty _
  managed_shared := nofun

/-- The arcs whose edges a master replaces. -/
def masterManaged (m : MasterRow) : Set (Arc Node Rel) :=
  {a | a.src = .master m.id ∧ (a.kind = .BY ∨ a.kind = .IS)}

/-- The stages of a master record. -/
def masterStages : Staged MasterRow where
  own m := .master m.id
  updates m v := {u | v = .master m.id ∧ u = setProps m.props}
  managed := masterManaged
  shared := {.PART_OF}
  stages := [
    (some .master, mergeMaster),
    (none, fun m => pruneStaleEdges (.master m.id) .BY .artist m.artists),
    (none, fun m => pruneStaleEdges (.master m.id) .IS .genre m.keepGenres),
    (none, fun m => pruneStaleEdges (.master m.id) .IS .style m.keepStyles),
    (none, fun m => runAll (fun a => linkTo (.master m.id) .BY (.artist a)) m.artists),
    (none, fun m => runAll mergeGenre m.genres),
    (none, fun m => runAll (fun name => mergeEdge ⟨.IS, .master m.id, .genre name⟩ id) m.genres),
    (none, fun m => runAll mergeStyle m.styles),
    (none, fun m => runAll (fun name => mergeEdge ⟨.IS, .master m.id, .style name⟩ id) m.styles),
    (none, fun m => runAll mergePartOf m.pairs)]
  within := by
    simp only [List.forall_mem_cons]
    refine ⟨fun m => .mergeNode _ _ (Or.inr ⟨rfl, rfl, rfl⟩),
      fun m => .deleteEdges _ fun e he => ⟨he.1, Or.inl he.2.1⟩,
      fun m => .deleteEdges _ fun e he => ⟨he.1, Or.inr he.2.1⟩,
      fun m => .deleteEdges _ fun e he => ⟨he.1, Or.inr he.2.1⟩,
      fun m => .runAll fun a _ => within_linkTo (Or.inl ⟨rfl, Or.inl rfl⟩),
      fun m => .runAll fun name _ => .mergeNode _ _ (Or.inl rfl),
      fun m => .runAll fun name _ => .mergeOwned _ _ ⟨rfl, Or.inr rfl⟩,
      fun m => .runAll fun name _ => .mergeNode _ _ (Or.inl rfl),
      fun m => .runAll fun name _ => .mergeOwned _ _ ⟨rfl, Or.inr rfl⟩,
      fun m => .runAll fun pair _ =>
        .comp (within_linkFrom (Or.inr rfl)) (.mergeNode _ _ (Or.inl rfl)), nofun⟩
  zones := by decide
  managed_disjoint {m m'} hne := Set.disjoint_left.mpr fun a ha ha' => hne (ha.1.symm.trans ha'.1)
  managed_shared {m a} ha := by
    rcases ha.2 with h | h <;> simp [h]

/-- The types of the edges that leave a release and that its projection replaces. A record without
a companies block replaces no CREDITED_TO edge. -/
def replacesOut (r : ReleaseRow) : Rel → Prop
  | .BY | .ON | .DERIVED_FROM | .IS => True
  | .ISSUED_ON source => source = mediaSource
  | .CREDITED_TO _ source => source = companySource ∧ r.companyRows ≠ none
  | _ => False

/-- The arcs whose edges a release replaces. -/
def releaseManaged (r : ReleaseRow) : Set (Arc Node Rel) :=
  {a | (a.src = .release r.id ∧ replacesOut r a.kind) ∨
    (a.dst = .release r.id ∧ ∃ role, a.kind = .CREDITED_ON role)}

/-- The updates a release applies to the rows of nodes. -/
def releaseUpdates (r : ReleaseRow) (v : Node) : Set (Row → Row) :=
  match v.label with
  | .release => {u | v = .release r.id ∧ u = setProps r.props}
  | .artist => {u | ∃ a ∈ r.artists, v = .artist a.id ∧ u = fillName (textValue a.name)}
  | .label => {u | ∃ l ∈ r.labels, v = .ofLabel l.id ∧ u = fillName (textValue l.name)}
  | .medium => {u | ∃ row ∈ r.mediaRows, v = .medium row.medium ∧
      u = setProps [("family", .str row.family), ("label", .str row.label)]}
  | .company => {u | ∃ rows, r.companyRows = some rows ∧ ∃ row ∈ rows, v = .company row.id ∧
      u = setProps [("name", .str row.name)]}
  | _ => ∅

/-- The stages of a release record. -/
def releaseStages : Staged ReleaseRow where
  own r := .release r.id
  updates := releaseUpdates
  managed := releaseManaged
  shared := {.PART_OF, .IN_FAMILY}
  stages := [
    (some .release, mergeRelease),
    (none, pruneReleaseEdges),
    (some .artist, fun r =>
      runAll (fun a => linkNamed (.release r.id) .BY (.artist a.id) a.name) r.artists),
    (some .label, fun r =>
      runAll (fun l => linkNamed (.release r.id) .ON (.ofLabel l.id) l.name) r.labels),
    (none, fun r =>
      runAll (fun m => linkTo (.release r.id) .DERIVED_FROM (.master (.str m))) r.masterId.toList),
    (none, fun r => runAll mergeGenre r.genres),
    (none, fun r => runAll (fun name => mergeEdge ⟨.IS, .release r.id, .genre name⟩ id) r.genres),
    (none, fun r => runAll mergeStyle r.styles),
    (none, fun r => runAll (fun name => mergeEdge ⟨.IS, .release r.id, .style name⟩ id) r.styles),
    (none, fun r => runAll mergePartOf r.pairs),
    (none, pruneIssuedOn),
    (some .medium, fun r => runAll (linkMedium r.id) r.mediaRows),
    (none, pruneCompanies),
    (some .company, fun r => runAll (linkCompany r.id) (r.companyRows.getD [])),
    (none, pruneCreditedOn),
    (none, fun r => runAll (linkCredit r.id) r.creditRows)]
  within := by
    simp only [List.forall_mem_cons]
    refine ⟨fun r => .mergeNode _ _ (Or.inr ⟨rfl, rfl, rfl⟩),
      fun r => .deleteEdges _ fun e he => Or.inl ⟨he.1, ?_⟩,
      fun r => .runAll fun a ha => within_linkNamed ?_ (Or.inl ⟨rfl, trivial⟩),
      fun r => .runAll fun l hl => within_linkNamed ?_ (Or.inl ⟨rfl, trivial⟩),
      fun r => .runAll fun m _ => within_linkTo (Or.inl (Or.inl ⟨rfl, trivial⟩)),
      fun r => .runAll fun name _ => .mergeNode _ _ (Or.inl rfl),
      fun r => .runAll fun name _ => .mergeOwned _ _ (Or.inl ⟨rfl, trivial⟩),
      fun r => .runAll fun name _ => .mergeNode _ _ (Or.inl rfl),
      fun r => .runAll fun name _ => .mergeOwned _ _ (Or.inl ⟨rfl, trivial⟩),
      fun r => .runAll fun pair _ =>
        .comp (within_linkFrom (Or.inr (Or.inl rfl))) (.mergeNode _ _ (Or.inl rfl)),
      fun r => .deleteEdges _ fun e he => Or.inl ⟨he.1, ?_⟩,
      fun r => .runAll fun row hrow =>
        within_linkMedium ?_ (Or.inr rfl) (Or.inl ⟨rfl, rfl⟩),
      fun r => ?_, fun r => ?_,
      fun r => .deleteEdges _ fun e he => Or.inr ⟨he.1, ?_⟩,
      fun r => .runAll fun row _ =>
        .comp (.mergeOwned _ _ (Or.inr ⟨rfl, row.role, rfl⟩)) (.mergeNode _ _ (Or.inl rfl)), nofun⟩
    · rcases he.2 with h | h | h | h | h <;> rw [h.1] <;> trivial
    · exact ⟨rfl, a, ha, rfl, rfl⟩
    · exact ⟨rfl, l, hl, rfl, rfl⟩
    · rw [he.2.1]
      rfl
    · exact ⟨rfl, row, hrow, rfl, rfl⟩
    · unfold pruneCompanies
      split
      · exact .skip
      · next rows hrows =>
        refine .deleteEdges _ fun e he => Or.inl ⟨he.1, ?_⟩
        have hstale := he.2.2
        unfold staleCompanyEdge at hstale
        split at hstale
        · next role source hkind =>
          rw [hkind]
          exact ⟨by simpa using (Bool.and_eq_true_iff.mp hstale).1, by rw [hrows]; exact nofun⟩
        · cases hstale
    · refine .runAll fun row hrow => ?_
      cases hrows : r.companyRows with
      | none =>
        rw [hrows] at hrow
        exact absurd hrow List.not_mem_nil
      | some rows =>
        rw [hrows] at hrow
        exact .comp (.mergeOwned _ _ (Or.inl ⟨rfl, rfl, by rw [hrows]; exact nofun⟩))
          (.mergeNode _ _ (Or.inr ⟨rfl, rows, hrows, row, hrow, rfl, rfl⟩))
    · have hstale := he.2.2
      unfold staleCreditEdge at hstale
      split at hstale
      · next role hkind => exact ⟨role, hkind⟩
      · cases hstale
  zones := by decide
  managed_disjoint {r r'} hne := by
    refine Set.disjoint_left.mpr fun a ha ha' => ?_
    rcases ha with ⟨hs, hk⟩ | ⟨hd, role, hk⟩
    · rcases ha' with ⟨hs', -⟩ | ⟨-, role, hk'⟩
      · exact hne (hs.symm.trans hs')
      · rw [hk'] at hk
        exact hk
    · rcases ha' with ⟨-, hk'⟩ | ⟨hd', -⟩
      · rw [hk] at hk'
        exact hk'
      · exact hne (hd.symm.trans hd')
  managed_shared {r a} ha := by
    rcases ha with ⟨-, hk⟩ | ⟨-, role, hk⟩
    · intro h
      rcases h with h | h
      · rw [h] at hk
        exact hk
      · rw [Set.mem_singleton_iff.mp h] at hk
        exact hk
    · simp [hk]

/-- The stages of the single-record projection of a master. -/
def masterRecordStages : Staged MasterRow :=
  { masterStages with
    stages := [
      (some .master, mergeMaster),
      (none, fun m => pruneStaleEdges (.master m.id) .BY .artist m.artists),
      (none, fun m => pruneStaleEdges (.master m.id) .IS .genre m.keepGenres),
      (none, fun m => pruneStaleEdges (.master m.id) .IS .style m.keepStyles),
      (none, fun m => runAll (fun a => linkTo (.master m.id) .BY (.artist a)) m.artists),
      (none, fun m => runAll (fun name => linkTo (.master m.id) .IS (.genre name)) m.genres),
      (none, fun m => runAll (fun name => linkTo (.master m.id) .IS (.style name)) m.styles),
      (none, fun m => runAll mergePartOf m.pairs)]
    within := by
      simp only [List.forall_mem_cons]
      refine ⟨fun m => .mergeNode _ _ (Or.inr ⟨rfl, rfl, rfl⟩),
        fun m => .deleteEdges _ fun e he => ⟨he.1, Or.inl he.2.1⟩,
        fun m => .deleteEdges _ fun e he => ⟨he.1, Or.inr he.2.1⟩,
        fun m => .deleteEdges _ fun e he => ⟨he.1, Or.inr he.2.1⟩,
        fun m => .runAll fun a _ => within_linkTo (Or.inl ⟨rfl, Or.inl rfl⟩),
        fun m => .runAll fun name _ => within_linkTo (Or.inl ⟨rfl, Or.inr rfl⟩),
        fun m => .runAll fun name _ => within_linkTo (Or.inl ⟨rfl, Or.inr rfl⟩),
        fun m => .runAll fun pair _ =>
          .comp (within_linkFrom (Or.inr rfl)) (.mergeNode _ _ (Or.inl rfl)), nofun⟩
    zones := by decide }

/-- The stages of the single-record projection of a release, up to its last statement. -/
def releaseRecordStages : Staged ReleaseRow :=
  { releaseStages with
    stages := [
      (some .release, mergeRelease),
      (none, fun r => pruneStaleEdges (.release r.id) .BY .artist (r.artists.map (·.id))),
      (none, fun r => pruneStaleEdges (.release r.id) .ON .label (r.labels.map (·.id))),
      (none, fun r => pruneStaleEdges (.release r.id) .DERIVED_FROM .master
        (r.masterId.map PyValue.str).toList),
      (none, fun r => pruneStaleEdges (.release r.id) .IS .genre r.keepGenres),
      (none, fun r => pruneStaleEdges (.release r.id) .IS .style r.keepStyles),
      (none, pruneIssuedOn),
      (some .medium, fun r => runAll (linkMedium r.id) r.mediaRows),
      (none, pruneCompanies),
      (some .company, fun r => runAll (linkCompany r.id) (r.companyRows.getD [])),
      (some .artist, fun r =>
        runAll (fun a => linkNamed (.release r.id) .BY (.artist a.id) a.name) r.artists),
      (some .label, fun r =>
        runAll (fun l => linkNamed (.release r.id) .ON (.ofLabel l.id) l.name) r.labels),
      (none, fun r =>
        runAll (fun m => linkTo (.release r.id) .DERIVED_FROM (.master (.str m)))
          r.masterId.toList),
      (none, fun r => runAll (fun name => linkTo (.release r.id) .IS (.genre name)) r.genres),
      (none, fun r => runAll (fun name => linkTo (.release r.id) .IS (.style name)) r.styles),
      (none, fun r => runAll mergePartOf r.pairs),
      (none, pruneCreditedOn),
      (none, fun r => runAll (linkCredit r.id) r.creditRows)]
    within := by
      have hbatch := releaseStages.within
      simp only [releaseStages, List.forall_mem_cons] at hbatch ⊢
      obtain ⟨hnode, -, hby, hon, hfrom, -, -, -, -, hpart, hissued, hmedia, hprune, hcompanies,
        hcredited, hcredits, -⟩ := hbatch
      exact ⟨hnode, fun r => .deleteEdges _ fun e he => Or.inl ⟨he.1, he.2.1 ▸ trivial⟩,
        fun r => .deleteEdges _ fun e he => Or.inl ⟨he.1, he.2.1 ▸ trivial⟩,
        fun r => .deleteEdges _ fun e he => Or.inl ⟨he.1, he.2.1 ▸ trivial⟩,
        fun r => .deleteEdges _ fun e he => Or.inl ⟨he.1, he.2.1 ▸ trivial⟩,
        fun r => .deleteEdges _ fun e he => Or.inl ⟨he.1, he.2.1 ▸ trivial⟩,
        hissued, hmedia, hprune, hcompanies, hby, hon, hfrom,
        fun r => .runAll fun name _ => within_linkTo (Or.inl (Or.inl ⟨rfl, trivial⟩)),
        fun r => .runAll fun name _ => within_linkTo (Or.inl (Or.inl ⟨rfl, trivial⟩)),
        hpart, hcredited, hcredits, nofun⟩
    zones := by decide }

end Stages

/-! ### The transactions of the batches -/

/-- The graph has the nodes of all the records. -/
def Present {ρ : Type} (own : ρ → Node) (rows : List ρ) (g : Graph) : Prop :=
  ∀ r ∈ rows, own r ∈ g.nodes

/-- A program that takes no node away. -/
def Keeps (f : Graph → Graph) : Prop := ∀ g : Graph, ∀ v ∈ g.nodes, v ∈ (f g).nodes

section Transactions

theorem Keeps.comp {f h : Graph → Graph} (hf : Keeps f) (hh : Keeps h) : Keeps fun g => f (h g) :=
  fun g v hv => hf (h g) v (hh g v hv)

theorem keeps_mergeNode (v : Node) (u : Row → Row) : Keeps (mergeNode v u) :=
  fun _ _ hv => mem_nodes_mergeNode.mpr (Or.inr hv)

theorem keeps_mergeEdge (a : Arc Node Rel) (s : Row → Row) : Keeps (mergeEdge a s) :=
  fun _ _ hv => mem_nodes_mergeEdge.mpr (Or.inr (Or.inr hv))

theorem keeps_linkTo {n v : Node} {kind : Rel} : Keeps (linkTo n kind v) :=
  (keeps_mergeEdge _ id).comp (keeps_mergeNode v id)

theorem keeps_linkFrom {n v : Node} {kind : Rel} : Keeps (linkFrom n kind v) :=
  (keeps_mergeEdge _ id).comp (keeps_mergeNode v id)

theorem keeps_linkNamed {n v : Node} {kind : Rel} {name : Option String} :
    Keeps (linkNamed n kind v name) :=
  (keeps_mergeEdge _ id).comp (keeps_mergeNode v _)

theorem keeps_linkMedium {release : PyValue} {row : MediaRow} : Keeps (linkMedium release row) :=
  (keeps_mergeEdge _ _).comp ((keeps_mergeEdge _ id).comp
    ((keeps_mergeNode _ _).comp (keeps_mergeNode _ id)))

theorem keeps_linkCompany {release : PyValue} {row : CompanyRow} :
    Keeps (linkCompany release row) :=
  (keeps_mergeEdge _ _).comp (keeps_mergeNode _ _)

theorem keeps_linkCredit {release : PyValue} {row : CreditRow} : Keeps (linkCredit release row) :=
  (keeps_mergeEdge _ _).comp (keeps_mergeNode _ id)

theorem Keeps.runAll {α : Type} {f : α → Graph → Graph} {xs : List α}
    (hf : ∀ x ∈ xs, Keeps (f x)) : Keeps (runAll f xs) := fun _ v hv =>
  runAll_invariant (I := fun g => v ∈ g.nodes) (fun x hx g hg => hf x hx g v hg) hv

theorem Keeps.present {ρ : Type} {own : ρ → Node} {rows : List ρ} {f : Graph → Graph}
    (hf : Keeps f) {g : Graph} (hg : Present own rows g) : Present own rows (f g) :=
  fun r hr => hf g _ (hg r hr)

/-- A program that merges the node of each record leaves them all. -/
theorem present_runAll {ρ : Type} {own : ρ → Node} {rows : List ρ} {f : ρ → Graph → Graph}
    (hown : ∀ r g, own r ∈ (f r g).nodes) (hf : ∀ r, Keeps (f r)) (g : Graph) :
    Present own rows (runAll f rows g) := by
  induction rows generalizing g with
  | nil => exact nofun
  | cons r rows ih =>
    intro r' hr'
    rcases List.mem_cons.mp hr' with rfl | hr'
    · have hrest : Keeps (runAll f rows) := Keeps.runAll fun r _ => hf r
      exact hrest _ _ (hown r' g)
    · exact ih (f r g) r' hr'

/-- The conditions on the nodes of the records hold, one record after another. -/
theorem runAll_unwindAt {ρ α : Type} {own : ρ → Node} {rows : List ρ}
    {f : ρ → α → Graph → Graph} {xs : ρ → List α} (hf : ∀ r, ∀ x ∈ xs r, Keeps (f r x)) {g : Graph}
    (hg : Present own rows g) :
    runAll (fun r => unwindAt (own r) (f r) (xs r)) rows g =
      runAll (fun r => runAll (f r) (xs r)) rows g := by
  refine (runAll_eq_of_agree (I := Present own rows) (fun r _ t ht => ?_) (fun r hr t ht => ?_) hg).1
  · exact (Keeps.runAll (hf r)).present ht
  · exact unwindAt_eq (ht r hr) fun x hx t hv => hf r x hx t _ hv

theorem matchIs_eq {n : Node} {t : PyValue → Node} {names : List PyValue} {g : Graph}
    (hn : n ∈ g.nodes) (ht : ∀ name ∈ names, t name ∈ g.nodes) :
    matchIs n t names g = runAll (fun name => mergeEdge ⟨.IS, n, t name⟩ id) names g := by
  refine (runAll_eq_of_agree (I := fun g => n ∈ g.nodes ∧ ∀ name ∈ names, t name ∈ g.nodes)
    (fun name _ g hg => ?_) (fun name hname g hg => ?_) ⟨hn, ht⟩).1
  · exact ⟨keeps_mergeEdge _ id g _ hg.1, fun name hname => keeps_mergeEdge _ id g _ (hg.2 name hname)⟩
  · exact (matchNode_of_mem hg.1).trans (matchNode_of_mem (hg.2 name hname))

/-- Merging the distinct genres or styles of a batch, and then the edges to them. -/
theorem runAll_matchIs {ρ : Type} {own : ρ → Node} {rows : List ρ} {t : PyValue → Node}
    {names : ρ → List PyValue} {g : Graph} (hg : Present own rows g) :
    runAll (fun r => matchIs (own r) t (names r)) rows
        (runAll (fun name => mergeNode (t name) id) (distinctValues (rows.flatMap names)) g) =
      runStages [fun r => runAll (fun name => mergeNode (t name) id) (names r),
        fun r => runAll (fun name => mergeEdge ⟨.IS, own r, t name⟩ id) (names r)] rows g := by
  have hkeeps : ∀ r, Keeps (runAll (fun name => mergeNode (K := Rel) (σ := Row) (t name) id)
      (names r)) := fun r => Keeps.runAll fun name _ => keeps_mergeNode _ id
  have hmerge : runAll (fun name => mergeNode (t name) id) (distinctValues (rows.flatMap names)) g =
      runAll (fun r => runAll (fun name => mergeNode (t name) id) (names r)) rows g := by
    rw [runAll_distinctValues (fun name g => ?_) (fun x y => mergeNode_commute fun _ _ => rfl),
      runAll_flatMap]
    refine ext_cells (fun v => ?_) (fun v => ?_) (fun _ => Iff.rfl) fun _ => rfl
    · simp
    · simp [row_nodes_mergeNode]
  have hnames : ∀ r ∈ rows, ∀ name ∈ names r, t name ∈
      (runAll (fun r => runAll (fun name => mergeNode (t name) id) (names r)) rows g).nodes := by
    intro r hr name hname
    rw [← runAll_flatMap]
    have hmem : name ∈ rows.flatMap names := List.mem_flatMap.mpr ⟨r, hr, hname⟩
    have hpresent : Present t (rows.flatMap names) _ :=
      present_runAll (fun name g => mem_nodes_mergeNode.mpr (Or.inl rfl))
        (fun name => keeps_mergeNode _ id) g
    exact hpresent name hmem
  rw [hmerge]
  refine (runAll_eq_of_agree (I := fun g => Present own rows g ∧
    ∀ r ∈ rows, ∀ name ∈ names r, t name ∈ g.nodes) (fun r _ g hI => ?_) (fun r hr g hI => ?_)
    ⟨(Keeps.runAll fun r _ => hkeeps r).present hg, hnames⟩).1
  · have hk : Keeps (runAll (fun name => mergeEdge ⟨.IS, own r, t name⟩ id) (names r)) :=
      Keeps.runAll fun name _ => keeps_mergeEdge ⟨.IS, own r, t name⟩ id
    exact ⟨hk.present hI.1, fun r hr name hname => hk g _ (hI.2 r hr name hname)⟩
  · exact matchIs_eq (hI.1 r hr) (hI.2 r hr)

/-- PART_OF is merged once for each pair of a batch. -/
theorem runAll_mergePartOf {ρ : Type} {rows : List ρ} {pairs : ρ → List (PyValue × PyValue)}
    (g : Graph) : runAll mergePartOf (distinctValues (rows.flatMap pairs)) g =
      runAll (fun r => runAll mergePartOf (pairs r)) rows g := by
  let F : Footprint Node Rel Row := ⟨fun _ => ∅, ∅, Set.univ⟩
  have hF : F.Independent F :=
    ⟨fun _ _ _ hu => absurd hu (Set.notMem_empty _), Set.disjoint_empty _, Set.empty_disjoint _,
      Set.disjoint_empty _⟩
  have hw : ∀ pair, Within (σ := Row) F (mergePartOf pair) := fun pair =>
    .comp (within_linkFrom (Or.inr trivial)) (.mergeNode _ _ (Or.inl rfl))
  rw [runAll_distinctValues (fun pair g => ?_) (fun x y => (hw x).commute hF (hw y)),
    runAll_flatMap]
  refine ext_cells (fun v => ?_) (fun v => ?_) (fun e => ?_) fun e => ?_
  · simp [mergePartOf, linkFrom]
    tauto
  · simp [mergePartOf, linkFrom, row_nodes_mergeNode]
  · simp [mergePartOf, linkFrom, mem_edges_mergeEdge]
  · simp [mergePartOf, linkFrom, row_edges_mergeEdge]

variable {ρ : Type} {P : Staged ρ} {rows : List ρ}

/-- A transaction whose statements agree with groups of stages, once the nodes of the records are
merged. -/
theorem Staged.transaction_eq {first : ρ → Graph → Graph} (statements : List (Graph → Graph))
    (groups : List (List (ρ → Graph → Graph)))
    (hprog : P.programs = first :: groups.flatten)
    (hown : ∀ r g, P.own r ∈ (first r g).nodes) (hfirst : ∀ r, Keeps (first r))
    (h : List.Forall₂ (fun f bs => ∀ g, Present P.own rows g → f g = runStages bs rows g)
      statements groups) (g : Graph) :
    runAll (fun f => f) statements (runAll first rows g) = runStages P.programs rows g := by
  have hkeeps : ∀ f ∈ groups.flatten, ∀ r, Keeps (f r) := by
    intro f hf r g v hv
    have hmem : f ∈ P.programs := by
      rw [hprog]
      exact List.mem_cons_of_mem _ hf
    exact (P.within_programs hmem r).mem_nodes hv
  have hpresent : Present P.own rows _ := present_runAll hown hfirst g
  rw [hprog]
  change _ = runStages groups.flatten rows (runAll first rows g)
  generalize runAll first rows g = t at hpresent
  clear hprog
  induction h generalizing t with
  | nil => rfl
  | cons hfb _ ih =>
    rename_i f bs fs groups _
    have hflat : runStages (bs :: groups).flatten rows t =
        runStages groups.flatten rows (runStages bs rows t) := runAll_append ..
    rw [runAll_cons, hfb t hpresent, hflat]
    refine ih (fun f hf => hkeeps f ?_) _ ?_
    · exact List.mem_append_right _ hf
    · refine Keeps.present (Keeps.runAll fun f hf => Keeps.runAll fun r _ => hkeeps f ?_ r) hpresent
      exact List.mem_append_left _ hf

theorem writeArtists_eq (rows : List ArtistRow) (g : Graph) :
    writeArtists rows g = runStages artistStages.programs rows g := by
  refine artistStages.transaction_eq [runAll artistMembers rows,
    runAll artistGroups rows, runAll artistAliases rows] [[_], [_], [_]] rfl
    (fun a g => mem_nodes_mergeNode.mpr (Or.inl rfl)) (fun a => keeps_mergeNode _ _) ?_ g
  refine .cons (fun g hg => ?_) (.cons (fun g hg => ?_) (.cons (fun g hg => ?_) .nil))
  · exact runAll_unwindAt (fun _ _ _ => keeps_linkFrom) hg
  · exact runAll_unwindAt (fun _ _ _ => keeps_linkTo) hg
  · exact runAll_unwindAt (fun _ _ _ => keeps_linkFrom) hg

theorem writeLabels_eq (rows : List LabelRow) (g : Graph) :
    writeLabels rows g = runStages labelStages.programs rows g := by
  refine labelStages.transaction_eq [runAll labelParent rows,
    runAll labelSublabels rows] [[_], [_]] rfl
    (fun l g => mem_nodes_mergeNode.mpr (Or.inl rfl)) (fun l => keeps_mergeNode _ _) ?_ g
  refine .cons (fun g hg => ?_) (.cons (fun g hg => ?_) .nil)
  · exact runAll_unwindAt (fun _ _ _ => keeps_linkTo) hg
  · exact runAll_unwindAt (fun _ _ _ => keeps_linkFrom) hg

theorem writeMasters_eq (rows : List MasterRow) (g : Graph) :
    writeMasters rows g = runStages masterStages.programs rows g := by
  refine masterStages.transaction_eq [
    runAll (fun m => pruneStaleEdges (.master m.id) .BY .artist m.artists) rows,
    runAll (fun m => pruneStaleEdges (.master m.id) .IS .genre m.keepGenres) rows,
    runAll (fun m => pruneStaleEdges (.master m.id) .IS .style m.keepStyles) rows,
    runAll masterBy rows,
    fun g => runAll (fun m => matchIs (.master m.id) .genre m.genres) rows
      (runAll mergeGenre (distinctValues (rows.flatMap (·.genres))) g),
    fun g => runAll (fun m => matchIs (.master m.id) .style m.styles) rows
      (runAll mergeStyle (distinctValues (rows.flatMap (·.styles))) g),
    runAll mergePartOf (distinctValues (rows.flatMap (·.pairs)))]
    [[_], [_], [_], [_], [_, _], [_, _], [_]] rfl
    (fun m g => mem_nodes_mergeNode.mpr (Or.inl rfl)) (fun m => keeps_mergeNode _ _) ?_ g
  refine .cons (fun g _ => rfl) (.cons (fun g _ => rfl) (.cons (fun g _ => rfl)
    (.cons (fun g hg => ?_) (.cons (fun g hg => ?_) (.cons (fun g hg => ?_)
      (.cons (fun g _ => ?_) .nil))))))
  · exact runAll_unwindAt (fun _ _ _ => keeps_linkTo) hg
  · exact runAll_matchIs hg
  · exact runAll_matchIs hg
  · exact runAll_mergePartOf g

theorem writeReleasesCore_eq (rows : List ReleaseRow) (g : Graph) :
    writeReleasesCore rows g = runStages releaseStages.programs rows g := by
  have hstart : writeReleasesCore rows g = runAll (fun f => f) [
    runAll pruneReleaseEdges rows, runAll releaseBy rows, runAll releaseOn rows,
    runAll releaseDerivedFrom rows,
    fun g => runAll (fun r => matchIs (.release r.id) .genre r.genres) rows
      (runAll mergeGenre (distinctValues (rows.flatMap (·.genres))) g),
    fun g => runAll (fun r => matchIs (.release r.id) .style r.styles) rows
      (runAll mergeStyle (distinctValues (rows.flatMap (·.styles))) g),
    runAll mergePartOf (distinctValues (rows.flatMap (·.pairs))),
    runAll pruneIssuedOn rows, runAll mergeMedia rows, runAll pruneCompanies rows,
    runAll mergeCompanies rows, runAll pruneCreditedOn rows, runAll mergeCredits rows]
    (runAll mergeRelease rows g) := rfl
  rw [hstart]
  refine releaseStages.transaction_eq _
    [[_], [_], [_], [_], [_, _], [_, _], [_], [_], [_], [_], [_], [_], [_]] rfl
    (fun r g => mem_nodes_mergeNode.mpr (Or.inl rfl)) (fun r => keeps_mergeNode _ _) ?_ g
  refine .cons (fun g _ => rfl) (.cons (fun g hg => ?_) (.cons (fun g hg => ?_)
    (.cons (fun g hg => ?_) (.cons (fun g hg => ?_) (.cons (fun g hg => ?_)
      (.cons (fun g _ => ?_) (.cons (fun g _ => rfl) (.cons (fun g hg => ?_)
        (.cons (fun g _ => rfl) (.cons (fun g hg => ?_) (.cons (fun g _ => rfl)
          (.cons (fun g hg => ?_) .nil))))))))))))
  · exact runAll_unwindAt (fun _ _ _ => keeps_linkNamed) hg
  · exact runAll_unwindAt (fun _ _ _ => keeps_linkNamed) hg
  · exact runAll_unwindAt (fun _ _ _ => keeps_linkTo) hg
  · exact runAll_matchIs hg
  · exact runAll_matchIs hg
  · exact runAll_mergePartOf g
  · exact runAll_unwindAt (fun _ _ _ => keeps_linkMedium) hg
  · exact runAll_unwindAt (fun _ _ _ => keeps_linkCompany) hg
  · exact runAll_unwindAt (fun _ _ _ => keeps_linkCredit) hg

/-! ### The transactions of the single-record projection -/

theorem writeArtist_eq (a : ArtistRow) (g : Graph) :
    writeArtist a g = runStages artistStages.programs [a] g :=
  writeArtists_eq [a] g

theorem writeLabel_eq (l : LabelRow) (g : Graph) :
    writeLabel l g = runStages labelStages.programs [l] g :=
  writeLabels_eq [l] g

theorem mergeIs_eq {n : Node} {t : PyValue → Node} {names : List PyValue} {g : Graph}
    (hn : n ∈ g.nodes) :
    mergeIs n t names g = runAll (fun name => linkTo n .IS (t name)) names g :=
  unwindAt_eq hn fun _ _ _ ht => keeps_linkTo _ _ ht

theorem writeMaster_eq (m : MasterRow) (g : Graph) :
    writeMaster m g = runStages masterRecordStages.programs [m] g := by
  have hstart : writeMaster m g = runAll (fun f => f) [
      pruneStaleEdges (.master m.id) .BY .artist m.artists,
      pruneStaleEdges (.master m.id) .IS .genre m.keepGenres,
      pruneStaleEdges (.master m.id) .IS .style m.keepStyles,
      masterBy m, mergeIs (.master m.id) .genre m.genres, mergeIs (.master m.id) .style m.styles,
      runAll mergePartOf m.pairs] (runAll mergeMaster [m] g) := rfl
  rw [hstart]
  refine masterRecordStages.transaction_eq _ [[_], [_], [_], [_], [_], [_], [_]] rfl
    (fun m g => mem_nodes_mergeNode.mpr (Or.inl rfl)) (fun m => keeps_mergeNode _ _) ?_ g
  have hown : ∀ t, Present masterRecordStages.own [m] t → (.master m.id : Node) ∈ t.nodes :=
    fun t ht => ht m (List.mem_singleton.mpr rfl)
  refine .cons (fun g _ => rfl) (.cons (fun g _ => rfl) (.cons (fun g _ => rfl)
    (.cons (fun g hg => ?_) (.cons (fun g hg => ?_) (.cons (fun g hg => ?_)
      (.cons (fun g _ => rfl) .nil))))))
  · exact unwindAt_eq (hown g hg) fun _ _ _ ht => keeps_linkTo _ _ ht
  · exact mergeIs_eq (hown g hg)
  · exact mergeIs_eq (hown g hg)

theorem writeReleaseCore_eq (r : ReleaseRow) (g : Graph) :
    writeReleaseCore r g = runStages releaseRecordStages.programs [r] g := by
  have hstart : writeReleaseCore r g = runAll (fun f => f) [
      pruneStaleEdges (.release r.id) .BY .artist (r.artists.map (·.id)),
      pruneStaleEdges (.release r.id) .ON .label (r.labels.map (·.id)),
      pruneStaleEdges (.release r.id) .DERIVED_FROM .master (r.masterId.map PyValue.str).toList,
      pruneStaleEdges (.release r.id) .IS .genre r.keepGenres,
      pruneStaleEdges (.release r.id) .IS .style r.keepStyles,
      pruneIssuedOn r, mergeMedia r, pruneCompanies r, mergeCompanies r, releaseBy r, releaseOn r,
      releaseDerivedFrom r, mergeIs (.release r.id) .genre r.genres,
      mergeIs (.release r.id) .style r.styles, runAll mergePartOf r.pairs, pruneCreditedOn r,
      mergeCredits r] (runAll mergeRelease [r] g) := rfl
  rw [hstart]
  refine releaseRecordStages.transaction_eq _
    [[_], [_], [_], [_], [_], [_], [_], [_], [_], [_], [_], [_], [_], [_], [_], [_], [_]] rfl
    (fun r g => mem_nodes_mergeNode.mpr (Or.inl rfl)) (fun r => keeps_mergeNode _ _) ?_ g
  have hown : ∀ t, Present releaseRecordStages.own [r] t → (.release r.id : Node) ∈ t.nodes :=
    fun t ht => ht r (List.mem_singleton.mpr rfl)
  refine .cons (fun g _ => rfl) (.cons (fun g _ => rfl) (.cons (fun g _ => rfl)
    (.cons (fun g _ => rfl) (.cons (fun g _ => rfl) (.cons (fun g _ => rfl)
      (.cons (fun g hg => ?_) (.cons (fun g _ => rfl) (.cons (fun g hg => ?_)
        (.cons (fun g hg => ?_) (.cons (fun g hg => ?_) (.cons (fun g hg => ?_)
          (.cons (fun g hg => ?_) (.cons (fun g hg => ?_) (.cons (fun g _ => rfl)
            (.cons (fun g _ => rfl) (.cons (fun g hg => ?_) .nil))))))))))))))))
  · exact unwindAt_eq (hown g hg) fun _ _ _ ht => keeps_linkMedium _ _ ht
  · exact unwindAt_eq (hown g hg) fun _ _ _ ht => keeps_linkCompany _ _ ht
  · exact unwindAt_eq (hown g hg) fun _ _ _ ht => keeps_linkNamed _ _ ht
  · exact unwindAt_eq (hown g hg) fun _ _ _ ht => keeps_linkNamed _ _ ht
  · exact unwindAt_eq (hown g hg) fun _ _ _ ht => keeps_linkTo _ _ ht
  · exact mergeIs_eq (hown g hg)
  · exact mergeIs_eq (hown g hg)
  · exact unwindAt_eq (hown g hg) fun _ _ _ ht => keeps_linkCredit _ _ ht

/-- What a merge of a SAME_AS edge between nodes of the graph keeps, the last statement keeps. -/
theorem runAll_mergeSameAs {I : Graph → Prop}
    (h : ∀ person artist g, .person person ∈ g.nodes → .artist artist ∈ g.nodes → I g →
      I (g.mergeEdge ⟨.SAME_AS, .person person, .artist artist⟩ id))
    (rows : List ReleaseRow) {g : Graph} (hg : I g) : I (runAll mergeSameAs rows g) := by
  refine runAll_invariant (fun r _ t ht => runAll_invariant (fun row _ t ht => ?_) ht) hg
  rcases hid : row.artistId.map nodeKey with _ | (error | artist)
  · simp only [linkSameAs, hid]
    exact ht
  · simp only [linkSameAs, hid]
    exact ht
  · simp only [linkSameAs, hid, matchNode]
    split_ifs with hperson hartist
    · exact h row.name artist t hperson hartist ht
    · exact ht
    · exact ht

end Transactions

end Graphinator
