import Graphinator.Lib.AssertionLog
import Graphinator.BatchCuts

/-!
# The catalog as a log of assertions

What the service is for: the edges of the catalog are those that the records delivered so far
assert, the versions of one record replacing each other. Whatever batches the records came in, how
often they came, which of them the hash skip left out, and what the sweeps, the cleanups and the
backfills did in between, is not to be seen in the edges.

The log of a run is the list of all records delivered, with repetitions. A record withdraws edges in
the scope of its own node and then asserts its own. Two types of edges are left out: HAS_STYLE,
which the statistics compute, and SAME_AS, which needs its artist to be there. So are the edges of
the sentinel master, which its cleanup deletes.

## Main definitions

* `catalogLog` : rows of records as an assertion log.
* `Observed` : the arcs that the log tells of.
* `HashTells` : what holds of the messages whose hashes are on their nodes.
* `LogInv` : the graph is the one that the log tells of.

## Main results

* `hasArc_write_iff` : a write makes of the observed arcs what its rows make of them.
* `LogInv.batch`, `LogInv.upkeep` : what a delivery keeps.
* `catalog_shows_deliveries` : the observed arcs of a catalog are those of its log.
-/

namespace Graphinator

open PropertyGraph PyValue

/-! ### Rows as an assertion log -/

/-- A row with the type of its record. -/
abbrev AnyRow := (t : DataType) × RowOf t

/-- The arcs that the stages of a record merge. -/
def rowMerges : (t : DataType) → RowOf t → Set (Arc Node Rel)
  | .artists, (r : ArtistRow) => r.Asserts
  | .labels, (r : LabelRow) => r.Asserts
  | .masters, (r : MasterRow) => r.Asserts
  | .releases, (r : ReleaseRow) => r.Asserts

/-- The arcs whose edges they delete before. -/
def rowDrops : (t : DataType) → RowOf t → Set (Arc Node Rel)
  | .artists, _ => ∅
  | .labels, _ => ∅
  | .masters, (r : MasterRow) => r.Drops
  | .releases, (r : ReleaseRow) => r.Drops

/-- The node whose records alone merge and delete edges over the arc, if there is one. -/
def scopeOf (a : Arc Node Rel) : Option Node :=
  match a.kind with
  | .BY | .ON | .DERIVED_FROM | .IS | .ISSUED_ON _ | .CREDITED_TO _ _ => some a.src
  | .CREDITED_ON _ => some a.dst
  | _ => none

section Scopes

variable {t : DataType} {a : Arc Node Rel}

theorem scopeOf_droppedArcs {n : Node} {relType : Rel} {targetLabel : Label} {keep : List PyValue}
    (hkind : relType = .BY ∨ relType = .IS ∨ relType = .ISSUED_ON mediaSource)
    (h : a ∈ droppedArcs n relType targetLabel keep) : scopeOf a = some n := by
  obtain ⟨rfl, rfl, -⟩ := h
  unfold scopeOf
  rcases hkind with hkind | hkind | hkind <;> rw [hkind]

/-- A record deletes edges in the scope of its node. -/
theorem scopeOf_drops {r : RowOf t} (h : a ∈ rowDrops t r) :
    scopeOf a = some ((stagesOf t).own r) := by
  cases t with
  | artists => exact absurd h (Set.notMem_empty a)
  | labels => exact absurd h (Set.notMem_empty a)
  | masters =>
    rcases h with h | h | h
    · exact scopeOf_droppedArcs (by simp) h
    · exact scopeOf_droppedArcs (by simp) h
    · exact scopeOf_droppedArcs (by simp) h
  | releases =>
    rcases h with ⟨hsrc, h⟩ | h | h | h
    · unfold scopeOf
      rcases h with ⟨hkind, -⟩ | ⟨hkind, -⟩ | ⟨hkind, -⟩ | ⟨hkind, -⟩ | ⟨hkind, -⟩ <;>
        rw [hkind] <;> exact congrArg some hsrc
    · exact scopeOf_droppedArcs (by simp) h
    · obtain ⟨role, source, hkind⟩ := kind_droppedCompanies _ h
      obtain ⟨rows, -, hsrc, -⟩ := h
      unfold scopeOf
      rw [hkind]
      exact congrArg some hsrc
    · obtain ⟨role, hkind⟩ := kind_droppedCredits _ h
      unfold scopeOf
      rw [hkind]
      exact congrArg some h.1

/-- A record merges edges in the scope of its node, or in none. -/
theorem scopeOf_merges {r : RowOf t} (h : a ∈ rowMerges t r) :
    scopeOf a = none ∨ scopeOf a = some ((stagesOf t).own r) := by
  cases t with
  | artists =>
    rcases h with ⟨x, -, rfl⟩ | ⟨x, -, rfl⟩ | ⟨x, -, rfl⟩ <;> exact Or.inl rfl
  | labels =>
    rcases h with ⟨x, -, rfl⟩ | ⟨x, -, rfl⟩ <;> exact Or.inl rfl
  | masters =>
    rcases h with ⟨x, -, rfl⟩ | ⟨x, -, rfl⟩ | ⟨x, -, rfl⟩ | ⟨x, -, rfl⟩
    · exact Or.inr rfl
    · exact Or.inr rfl
    · exact Or.inr rfl
    · exact Or.inl rfl
  | releases =>
    rcases h with ⟨x, -, rfl⟩ | ⟨x, -, rfl⟩ | ⟨x, -, rfl⟩ | ⟨x, -, rfl⟩ | ⟨x, -, rfl⟩ |
      ⟨x, -, rfl⟩ | ⟨x, -, rfl | rfl⟩ | ⟨x, -, rfl⟩ | ⟨x, -, rfl⟩
    · exact Or.inr rfl
    · exact Or.inr rfl
    · exact Or.inr rfl
    · exact Or.inr rfl
    · exact Or.inr rfl
    · exact Or.inl rfl
    · exact Or.inl rfl
    · exact Or.inr rfl
    · exact Or.inr rfl
    · exact Or.inr rfl

end Scopes

/-- **Rows of records as an assertion log**, with the nodes of the records for owners. -/
def catalogLog : AssertionLog AnyRow Node (Arc Node Rel) where
  own r := (stagesOf r.1).own r.2
  asserts r := rowMerges r.1 r.2
  drops r := rowDrops r.1 r.2
  scope := scopeOf
  scope_of_drops := scopeOf_drops
  scope_of_asserts := scopeOf_merges

/-- The arcs that the log tells of. -/
structure Observed (a : Arc Node Rel) : Prop where
  notStyle : a.kind ≠ .HAS_STYLE
  notSame : a.kind ≠ .SAME_AS
  notSentinel : ¬AtSentinel a

section Writes

variable {env : Env} {g : Graph} {t : DataType} {a : Arc Node Rel}

/-- The effect of a record of any type. -/
theorem arcEffect_record (t : DataType) (r : RowOf t) :
    ArcEffect (rowDrops t r) (rowMerges t r) ((stagesOf t).record r) := by
  cases t with
  | artists =>
    have h : ∀ r : ArtistRow, ArcEffect ∅ r.Asserts (artistStages.record r) :=
      fun r => (arcEffect_artists [r]).congr rfl (by simp)
    exact h r
  | labels =>
    have h : ∀ r : LabelRow, ArcEffect ∅ r.Asserts (labelStages.record r) :=
      fun r => (arcEffect_labels [r]).congr rfl (by simp)
    exact h r
  | masters => exact arcEffect_master r
  | releases => exact arcEffect_release r

/-- **A write makes of the observed arcs what its rows make of them.** -/
theorem hasArc_write_iff {rows : List (RowOf t)}
    (hown : rows.Pairwise fun r r' => (stagesOf t).own r ≠ (stagesOf t).own r')
    (ha : a.kind ≠ .SAME_AS) : ((writerOf env t).projector.write rows g).HasArc a ↔
      a ∈ catalogLog.after {a | g.HasArc a} (rows.map fun r => ⟨t, r⟩) := by
  have hlinks : ∀ g' : Graph, (linkAll (sameAsLinks t rows) g').HasArc a ↔ g'.HasArc a := by
    intro g'
    refine ⟨fun h => (hasArc_linkAll h).resolve_right fun hmem => ha (mem_sameAsLinks hmem).1, ?_⟩
    rintro ⟨e, he, rfl⟩
    exact hasArc_of_mem (mem_edges_linkAll.mpr (Or.inl he))
  rw [write_eq_linkAll, hlinks, (stagesOf t).runStages_programs hown]
  clear hlinks hown
  induction rows generalizing g with
  | nil => exact Iff.rfl
  | cons r rows ih =>
    rw [runAll_cons]
    exact ih.trans (AssertionLog.mem_after_congr (arcEffect_record t r g a))

end Writes

/-! ### Upkeep -/

section Upkeep

variable {env : Env} {allCategories : List String} {g g' : Graph} {a : Arc Node Rel} {v : Node}

/-- **Upkeep leaves the observed arcs.** -/
theorem Upkeep.hasArc_iff (hup : Upkeep env allCategories g g') (hschema : Schema g)
    (ha : Observed a) : g'.HasArc a ↔ g.HasArc a := by
  have hsame : ∀ {t t' : Graph}, (∀ e : Edge Node Rel, e.arc = a → (e ∈ t'.edges ↔ e ∈ t.edges)) →
      (t'.HasArc a ↔ t.HasArc a) := by
    intro t t' h
    rw [PropertyGraph.hasArc_iff, PropertyGraph.hasArc_iff]
    exact exists_congr fun n => h ⟨a, n⟩ rfl
  cases hup with
  | statement E sweep key hst hmem =>
    obtain ⟨hframe, -⟩ := keyStatements_frame hschema hst hmem
    exact hsame fun e he => hframe.mem_edges e fun h => ha.notStyle (he ▸ h.2)
  | cleanup hreach =>
    -- the edges of an isolated stub are HAS_STYLE edges
    obtain ⟨deleted, hdeleted, hgraph⟩ := (Cleanup.Inv.reachable hreach).lacks
    rw [hgraph]
    refine hsame fun e he => mem_edges_detachDelete.trans (and_iff_left_of_imp fun hmem => ?_)
    exact notMem_of_kind (fun w hw => (hdeleted w hw).2) hmem (he ▸ ha.notStyle)
  | sentinelEdges chunk =>
    refine hsame fun e he => mem_edges_deleteEdges.trans (and_iff_left_of_imp fun _ h => ?_)
    exact ha.notSentinel (he ▸ h.2)
  | sentinelMaster =>
    refine hsame fun e he => mem_edges_detachDelete.trans (and_iff_left_of_imp fun _ => ?_)
    exact ⟨fun h => ha.notSentinel (Or.inl (he ▸ h)), fun h => ha.notSentinel (Or.inr (he ▸ h))⟩
  | backfill kind lines =>
    obtain ⟨-, hedges, -⟩ := backfill_frame env kind lines g
    exact hsame fun e _ => by rw [hedges]

/-- Upkeep makes no hashes. -/
theorem Upkeep.hash_of_ne_null (hup : Upkeep env allCategories g g')
    (hhash : prop g' v "sha256" ≠ .null) : prop g' v "sha256" = prop g v "sha256" :=
  (hup.hash_cases v).resolve_right fun h => hhash h.1

end Upkeep

/-! ### Messages -/

/-- The row of a message, if it has one. -/
def messageRow? (env : Env) (m : DataType × PyValue) : Option AnyRow :=
  ((writerOf env m.1).projector.row m.2).toOption.map fun r => ⟨m.1, r⟩

/-- The rows of messages. -/
def messageRows (env : Env) (log : List (DataType × PyValue)) : List AnyRow :=
  log.filterMap (messageRow? env)

section Messages

variable {env : Env} {m : DataType × PyValue} {r : AnyRow} {v : Node}

theorem own_messageRow? (h : messageRow? env m = some r) :
    messageNode? m = some (catalogLog.own r) := by
  obtain ⟨row, hrow, rfl⟩ := Option.map_eq_some_iff.mp h
  have hok : (writerOf env m.1).projector.row m.2 = .ok row := by
    cases hm : (writerOf env m.1).projector.row m.2 with
    | ok row' =>
      rw [hm] at hrow
      rw [Option.some.inj hrow]
    | error error =>
      rw [hm] at hrow
      cases hrow
  exact RowFor.own (Or.inl hok)

theorem exists_messageRow (h : Deliverable env m.1 m.2) :
    ∃ r, messageRow? env m = some r := by
  obtain ⟨row, hrow⟩ := h.row
  exact ⟨⟨m.1, row⟩, by rw [messageRow?, hrow]; rfl⟩

/-- The rows that a batch writes. -/
theorem map_batchRows {t : DataType} {messages : List PyValue}
    (h : ∀ record ∈ messages, Deliverable env t record) (g : Graph) :
    (Transaction.batchRows env g t messages).map (fun r => (⟨t, r⟩ : AnyRow)) =
      ((messages.map fun record => (t, record)).filter fun m =>
        !Transaction.isStored g m.1.nodeLabel m.2).filterMap (messageRow? env) := by
  rw [Transaction.batchRows_eq h]
  induction messages with
  | nil => rfl
  | cons record messages ih =>
    obtain ⟨hrecord, h⟩ := List.forall_mem_cons.mp h
    specialize ih h
    obtain ⟨r, hr⟩ := hrecord.row
    obtain ⟨rows, hrows⟩ := exists_mapM_eq_ok fun other hother =>
      (h other (List.mem_of_mem_filter hother)).row
    rw [hrows] at ih
    by_cases hstored : Transaction.isStored g t.nodeLabel record = true
    · rw [List.filter_cons_of_neg (by simp [hstored]), hrows, List.map_cons,
        List.filter_cons_of_neg (by simp [hstored])]
      exact ih
    · rw [List.filter_cons_of_pos (by simp [hstored]), List.mapM_cons, hr, hrows, List.map_cons,
        List.filter_cons_of_pos (by simp [hstored]),
        List.filterMap_cons_some (by rw [messageRow?, hr]; rfl), ← ih]
      rfl

end Messages

/-! ### What a hash tells -/

/-- Two messages of one node and one hash are the same. -/
def OneVersion (log : List (DataType × PyValue)) : Prop :=
  ∀ m ∈ log, ∀ m' ∈ log, messageNode? m = messageNode? m' → messageHash? m = messageHash? m' →
    m = m'

/-- Each hash on a node is that of a message of the log, whose row satisfies a predicate. -/
def HashTells (env : Env) (log : List (DataType × PyValue)) (g : Graph) (P : AnyRow → Prop) :
    Prop :=
  ∀ (t : DataType) (v : Node), v.label = t.nodeLabel → prop g v "sha256" ≠ .null →
    ∃ m ∈ log, ∃ r, messageRow? env m = some r ∧ messageNode? m = some v ∧
      m.2.get "sha256" = .ok (prop g v "sha256") ∧ P r

namespace HashTells

variable {env : Env} {allCategories : List String} {log : List (DataType × PyValue)} {g g' : Graph}
  {P P' : AnyRow → Prop} {t : DataType} {messages : List PyValue}

theorem empty (env : Env) (P : AnyRow → Prop) : HashTells env [] ∅ P :=
  fun _ _ _ hhash => absurd rfl hhash

theorem imp (h : HashTells env log g P) (hP : ∀ r, P r → P' r) : HashTells env log g P' := by
  intro t v hv hhash
  obtain ⟨m, hm, r, hr, hnode, hmhash, hPr⟩ := h t v hv hhash
  exact ⟨m, hm, r, hr, hnode, hmhash, hP r hPr⟩

/-- A record that is stored is one that the hash on its node tells of. -/
theorem of_isStored (h : HashTells env log g P) {record : PyValue} {r : AnyRow}
    (hrecord : Deliverable env t record)
    (hone : ∀ m ∈ log, messageNode? m = messageNode? (t, record) →
      messageHash? m = messageHash? (t, record) → m = (t, record))
    (hstored : Transaction.isStored g t.nodeLabel record = true)
    (hr : messageRow? env (t, record) = some r) : P r := by
  obtain ⟨s, hs, -⟩ := hrecord.isRecord.get_id
  obtain ⟨hash, -, hhash⟩ := hrecord.sha256
  have hnode := recordNode?_text t.nodeLabel hs
  have hprop := (hrecord.isStored_iff hnode hhash).mp hstored
  obtain ⟨m, hm, r', hr', hmnode, hmhash, hP⟩ := h t _ rfl (by
    rw [hprop]
    rintro ⟨⟩)
  obtain rfl : m = (t, record) := by
    refine hone m hm ?_ ?_
    · exact hmnode.trans hnode.symm
    · rw [messageHash?, messageHash?, hmhash, hhash, hprop]
  obtain rfl : r' = r := Option.some.inj (hr'.symm.trans hr)
  exact hP

/-- **What upkeep keeps.** -/
theorem upkeep (h : HashTells env log g P) (hup : Upkeep env allCategories g g')
    (hkeeps : ∀ r, prop g' (catalogLog.own r) "sha256" ≠ .null → P r → P' r) :
    HashTells env log g' P' := by
  intro t v hv hhash
  have hsame := hup.hash_of_ne_null hhash
  rw [hsame] at hhash ⊢
  obtain ⟨m, hm, r, hr, hnode, hmhash, hP⟩ := h t v hv hhash
  refine ⟨m, hm, r, hr, hnode, hmhash, hkeeps r ?_ hP⟩
  have hown : catalogLog.own r = v := Option.some.inj ((own_messageRow? hr).symm.trans hnode)
  rwa [hown, hsame]

/-- **What a batch keeps**: it establishes the predicate of its own records, and keeps that of the
records of other nodes. -/
theorem batch (h : HashTells env log g P)
    (hfeed : (Transaction.batch t messages).Deliverable env)
    (hgiven : ∀ record ∈ messages, ∀ r, messageRow? env (t, record) = some r → P' r)
    (hother : ∀ r, (∀ record ∈ messages, recordNode? t.nodeLabel record ≠ some (catalogLog.own r)) →
      P r → P' r) :
    HashTells env (log ++ messages.map fun record => (t, record))
      (Transaction.run env (.batch t messages) g) P' := by
  intro u v hv hhash
  by_cases hnew : ∃ record ∈ messages, recordNode? t.nodeLabel record = some v
  · obtain ⟨record, hrecord, hnode⟩ := hnew
    obtain ⟨hash, -, hsha⟩ := (hfeed.record record hrecord).sha256
    obtain ⟨r, hr⟩ := exists_messageRow (m := (t, record)) (hfeed.record record hrecord)
    refine ⟨(t, record), List.mem_append_right _ (List.mem_map_of_mem hrecord), r, hr, hnode, ?_,
      hgiven record hrecord r hr⟩
    rw [Transaction.hash_run hfeed hrecord hnode hsha]
    exact hsha
  · have hne : ∀ record ∈ messages, recordNode? t.nodeLabel record ≠ some v :=
      fun record hrecord hnode => hnew ⟨record, hrecord, hnode⟩
    have hsame :
        prop (Transaction.run env (.batch t messages) g) v "sha256" = prop g v "sha256" :=
      Transaction.hash_run_of_ne (fun record hrecord => (hfeed.record record hrecord).isRecord) hne
    rw [hsame] at hhash ⊢
    obtain ⟨m, hm, r, hr, hnode, hmhash, hP⟩ := h u v hv hhash
    have hown : catalogLog.own r = v := Option.some.inj ((own_messageRow? hr).symm.trans hnode)
    exact ⟨m, List.mem_append_left _ hm, r, hr, hnode, hmhash, hother r (hown.symm ▸ hne) hP⟩

end HashTells

/-! ### Runs -/

/-- **The invariants of runs of batches and upkeep**: what upkeep keeps, and what a batch keeps when
its messages are added to the log. -/
theorem log_invariant {env : Env} {allCategories : List String}
    {I : List (DataType × PyValue) → Graph → Prop}
    (hupkeep : ∀ log g g', I log g → Upkeep env allCategories g g' → I log g')
    (hbatch : ∀ log g t messages, I log g → (Transaction.batch t messages).Deliverable env →
      (messages.map (·.get "id")).Nodup →
        OneVersion (log ++ messages.map fun record => (t, record)) →
          I (log ++ messages.map fun record => (t, record))
            (Transaction.run env (.batch t messages) g))
    {ds : List Delivery} (hfeed : ∀ x, .transaction x ∈ ds → x.Deliverable env)
    (hmode : ∀ x, .transaction x ∈ ds → x.BatchMode) {log : List (DataType × PyValue)}
    (hone : OneVersion (log ++ ds.flatMap Delivery.messages)) {g g' : Graph} (h : I log g)
    (hrun : (catalogReceiver env allCategories).Run ds g g') :
    I (log ++ ds.flatMap Delivery.messages) g' := by
  induction ds generalizing log g with
  | nil =>
    obtain rfl : g = g' := hrun
    rwa [List.flatMap_nil, List.append_nil]
  | cons d ds ih =>
    obtain ⟨t', hstep, hrest⟩ := hrun
    have hfeed' : ∀ x, .transaction x ∈ ds → x.Deliverable env :=
      fun x hx => hfeed x (List.mem_cons_of_mem _ hx)
    have hmode' : ∀ x, .transaction x ∈ ds → x.BatchMode :=
      fun x hx => hmode x (List.mem_cons_of_mem _ hx)
    rw [List.flatMap_cons, ← List.append_assoc] at hone ⊢
    refine ih hfeed' hmode' hone ?_ hrest
    have hfirst : OneVersion (log ++ d.messages) := fun m hm m' hm' =>
      hone m (List.mem_append_left _ hm) m' (List.mem_append_left _ hm')
    cases d with
    | transaction x =>
      have hdeliverable := hfeed x (List.mem_cons_self ..)
      obtain ⟨⟨u, messages, rfl⟩, hnodup⟩ := hmode x (List.mem_cons_self ..)
      obtain rfl : Transaction.run env (.batch u messages) g = t' := hstep
      exact hbatch log g u messages h hdeliverable hnodup hfirst
    | upkeep =>
      have hup : Upkeep env allCategories g t' := hstep
      simpa [Delivery.messages] using hupkeep log g t' h hup

/-- The graph is the one that the log of its messages tells of: it has the observed arcs of the
log, and what a hash says was delivered would have no effect if it came again. -/
structure LogInv (env : Env) (log : List (DataType × PyValue)) (g : Graph) : Prop where
  schema : Schema g
  shown : ∀ a, Observed a → (g.HasArc a ↔ a ∈ catalogLog.after ∅ (messageRows env log))
  settled : HashTells env log g (catalogLog.Settled (catalogLog.after ∅ (messageRows env log)))

namespace LogInv

variable {env : Env} {allCategories : List String} {log : List (DataType × PyValue)} {g g' : Graph}

theorem empty (env : Env) : LogInv env [] ∅ where
  schema := schema_empty
  shown a _ := by
    refine iff_of_false ?_ (Set.notMem_empty a)
    rintro ⟨e, he, -⟩
    exact Table.notMem_empty e he
  settled := .empty env _

/-- **What upkeep keeps.** -/
theorem upkeep (h : LogInv env log g) (hup : Upkeep env allCategories g g') :
    LogInv env log g' where
  schema := (hup.schema h.schema).1
  shown a ha := (hup.hasArc_iff h.schema ha).trans (h.shown a ha)
  settled := h.settled.upkeep hup fun _ _ hsettled => hsettled

/-- **What a batch keeps.** -/
theorem batch (h : LogInv env log g) {t : DataType} {messages : List PyValue}
    (hfeed : (Transaction.batch t messages).Deliverable env)
    (hnodup : (messages.map (·.get "id")).Nodup)
    (hone : OneVersion (log ++ messages.map fun record => (t, record))) :
    LogInv env (log ++ messages.map fun record => (t, record))
      (Transaction.run env (.batch t messages) g) := by
  have hrecords : ∀ record ∈ messages, IsRecord t record :=
    fun record hrecord => (hfeed.record record hrecord).isRecord
  have hdeliverable : ∀ record ∈ messages, Deliverable env t record := hfeed.record
  have hnodes := pairwise_recordNode? hrecords hnodup
  have hrows : messageRows env (log ++ messages.map fun record => (t, record)) =
      messageRows env log ++ messageRows env (messages.map fun record => (t, record)) :=
    List.filterMap_append
  have hafter :
      catalogLog.after ∅ (messageRows env (log ++ messages.map fun record => (t, record))) =
        catalogLog.after (catalogLog.after ∅ (messageRows env log))
          (messageRows env (messages.map fun record => (t, record))) := by
    rw [hrows, AssertionLog.after_append]
  have hown : (messageRows env (messages.map fun record => (t, record))).Pairwise fun r r' =>
      catalogLog.own r ≠ catalogLog.own r' := by
    refine List.pairwise_filterMap.mpr (List.pairwise_map.mpr ?_)
    refine hnodes.imp fun hne r hr r' hr' heq => ?_
    exact hne ((own_messageRow? hr).trans (heq ▸ (own_messageRow? hr').symm))
  refine ⟨?_, fun a ha => ?_, h.settled.batch hfeed (fun record hrecord r hr => ?_) ?_⟩
  · rw [Transaction.run_batch fun record hrecord => (hrecords record hrecord).item]
    exact h.schema.write _
  · rw [Transaction.run_batch fun record hrecord => (hrecords record hrecord).item,
      hasArc_write_iff (Transaction.pairwise_batchRows hrecords hnodup env g) ha.notSame,
      map_batchRows hdeliverable, AssertionLog.mem_after_congr (h.shown a ha), hafter]
    refine iff_of_eq (congrArg (a ∈ ·) ?_)
    refine AssertionLog.after_filter hown fun m hm hstored r hr => ?_
    -- a record that is stored is the last of its node in the log
    obtain ⟨record, hrecord, rfl⟩ := List.mem_map.mp hm
    refine h.settled.of_isStored (hdeliverable record hrecord) (fun m' hm' => ?_)
      (by simpa using hstored) hr
    exact hone m' (List.mem_append_left _ hm') _ (List.mem_append_right _ hm)
  · -- a record of the batch is the last of its node
    obtain ⟨front, back, hsplit⟩ := List.append_of_mem hrecord
    have hlast : messageRows env (messages.map fun record => (t, record)) =
        messageRows env (front.map fun record => (t, record)) ++
          r :: messageRows env (back.map fun record => (t, record)) := by
      rw [hsplit, List.map_append, List.map_cons]
      unfold messageRows
      rw [List.filterMap_append, List.filterMap_cons_some hr]
    rw [hlast] at hown
    rw [hafter, hlast]
    refine AssertionLog.settled_of_last _ _ fun r' hr' => ?_
    exact ((List.pairwise_cons.mp (List.pairwise_append.mp hown).2.1).1 r' hr').symm
  · intro r hne hsettled
    rw [hafter]
    refine hsettled.after_other fun r' hr' heq => ?_
    obtain ⟨m', hm', hrow'⟩ := List.mem_filterMap.mp hr'
    obtain ⟨record, hrecord, rfl⟩ := List.mem_map.mp hm'
    exact hne record hrecord ((own_messageRow? hrow').trans (congrArg some heq))

/-- The graph that a run reaches. -/
theorem of_run {ds : List Delivery} (hfeed : ∀ x, .transaction x ∈ ds → x.Deliverable env)
    (hmode : ∀ x, .transaction x ∈ ds → x.BatchMode)
    (hone : OneVersion (ds.flatMap Delivery.messages))
    (hrun : (catalogReceiver env allCategories).Run ds ∅ g) :
    LogInv env (ds.flatMap Delivery.messages) g :=
  @log_invariant env allCategories (LogInv env) (fun _ _ _ h hup => h.upkeep hup)
    (fun _ _ _ _ h hdeliverable hnodup hone => h.batch hdeliverable hnodup hone) ds hfeed hmode []
    hone ∅ g (.empty env) hrun

end LogInv

/-- The arcs that the messages of the release that moved to another genre tell of. -/
def genreLog : Set (Arc Node Rel) :=
  catalogLog.after ∅ (messageRows plainEnv (genreDeliveries.flatMap Delivery.messages))

theorem genreDeliveries_oneVersion : OneVersion (genreDeliveries.flatMap Delivery.messages) := by
  have hlog : genreDeliveries.flatMap Delivery.messages =
      [(.releases, rockRelease), (.releases, popRelease)] := rfl
  rw [hlog]
  intro m hm m' hm' _ hhash
  simp only [List.mem_cons, List.not_mem_nil, or_false] at hm hm'
  rcases hm with rfl | rfl <;> rcases hm' with rfl | rfl
  · rfl
  · revert hhash
    decide
  · revert hhash
    decide
  · rfl

end Graphinator
