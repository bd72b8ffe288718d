import Graphinator.CatalogSchema
import Graphinator.Lib.Receiver

/-!
# Messages that are delivered again

A message is acknowledged after the transaction of its batch. Where the service stops in between, or
loses its channel, the message is delivered again, with other messages around it. The hash that the
first delivery left on the node of the record then tells the transaction that nothing is to be done.

What upkeep does between two deliveries leaves the hashes: a stub has none, and the sentinel master
is no record. So a run with messages that are delivered again is a run without them.

## Main definitions

* `Deliverable` : the records of the feed.
* `Delivery`, `catalogReceiver` : transactions and upkeep as the steps of a receiver, with the node
  of a record for its key and its hash for its tag.

## Main results

* `Upkeep.hash` : upkeep leaves the hashes of records.
* `Transaction.hash_run` : a transaction leaves the hashes of its records on their nodes.
* `redelivery_changes_nothing` : what is delivered again changes nothing.
-/

namespace Graphinator

open PropertyGraph PyValue
open Maintenance (SweepName)

/-! ### Properties of records under upkeep -/

/-- The properties that the projections set on the nodes of records. -/
def recordKeys : List String :=
  ["name", "title", "year", "country", "formats", "media_families", "sha256", "resource_url",
    "releases_url", "catalog_number"]

/-- A statement that leaves the properties of records. -/
def Statement.KeepsRecords (f : Statement) : Prop :=
  ∀ g v, ∀ key ∈ recordKeys, prop (f g).1 v key = prop g v key

namespace Statement.KeepsRecords

theorem emit {updates : Graph → List GraphUpdate}
    (h : ∀ g, ∀ v key value, .setNode v key value ∈ updates g → key ∉ recordKeys) :
    KeepsRecords (emit updates) := by
  intro g v key hkey
  refine runAll_invariant (I := fun t : Graph => prop t v key = prop g v key)
    (fun u hu t ht => ?_) rfl
  rw [← ht]
  cases u with
  | setNode w key' value =>
    have hne : key ≠ key' := fun heq => h g w key' value hu (heq ▸ hkey)
    change (t.setNodes (· = w) _).nodes.row v key = _
    rw [row_nodes_setNodes]
    split_ifs
    · exact Function.update_of_ne hne _ _
    · rfl
  | setEdge e key' value => rfl
  | createEdge a => exact congrFun (congrFun row_nodes_mergeEdge v) key
  | deleteEdge e => rfl

theorem seqAll {α : Type} {f : α → Statement} {xs : List α} (h : ∀ x ∈ xs, KeepsRecords (f x)) :
    KeepsRecords (seqAll f xs) :=
  fun g v key hkey => seqAll_invariant (I := fun t => prop t v key = prop g v key)
    (fun x hx t ht => (h x hx t v key hkey).trans ht) rfl

theorem guardedSet {key : String} (hkey : key ∉ recordKeys) (v : Node) (value : PyValue) :
    KeepsRecords (guardedSet v key value) := by
  refine emit fun g w key' value' hu => ?_
  split_ifs at hu
  · cases List.mem_singleton.mp hu
    exact hkey
  · cases hu

theorem setAll {n : Node} {props : Graph → List (String × PyValue)}
    (h : ∀ g, ∀ kv ∈ props g, kv.1 ∉ recordKeys) : KeepsRecords (setAll n props) := by
  refine emit fun g w key value hu => ?_
  split_ifs at hu
  · obtain ⟨kv, hkv, heq⟩ := List.mem_map.mp hu
    exact (GraphUpdate.setNode.inj heq).2.1 ▸ h g kv hkv
  · cases hu

theorem nodeStatStatements (E : Enumeration) (n : Node) (other : Label) {otherProp : String}
    (hother : otherProp ∉ recordKeys) :
    ∀ f ∈ nodeStatStatements E n other otherProp, KeepsRecords f := by
  simp only [Graphinator.nodeStatStatements, List.forall_mem_cons]
  refine ⟨setAll fun g => ?_, setAll fun g => ?_, setAll fun g => ?_, List.forall_mem_nil _⟩
  · simp [releaseCountMetric, recordKeys]
  · simp only [linkMetric, List.forall_mem_cons]
    exact ⟨by decide, by decide, hother, List.forall_mem_nil _⟩
  · simp [firstYearMetric, recordKeys]

theorem setLabelStats (E : Enumeration) (l : Node) : KeepsRecords (setLabelStats E l) := by
  refine fun g => seqAll (f := fun clause => clause) ?_ g
  simp only [List.forall_mem_cons]
  refine ⟨seqAll fun kv hkv => guardedSet ?_ _ _, emit fun g v key value hu => ?_,
    seqAll fun row _ t => seqAll (f := fun clause => clause) ?_ t, List.forall_mem_nil _⟩
  · revert kv
    simp [labelCounts, recordKeys]
  · obtain ⟨e, -, heq⟩ := List.mem_map.mp hu
    cases heq
  · simp only [List.forall_mem_cons]
    refine ⟨emit fun g v key value hu => ?_, emit fun g v key value hu => ?_, List.forall_mem_nil _⟩
    · split_ifs at hu
      · cases hu
      · cases List.mem_singleton.mp hu
    · obtain ⟨e, -, heq⟩ := List.mem_map.mp hu
      cases heq

theorem setArtistStats (E : Enumeration) (a : Node) : KeepsRecords (setArtistStats E a) := by
  refine fun g => seqAll (f := fun clause => clause) ?_ g
  simp only [List.forall_mem_cons]
  refine ⟨guardedSet (by decide) _ _, guardedSet (by decide) _ _, emit fun g v key value hu => ?_,
    List.forall_mem_nil _⟩
  split_ifs at hu
  · simp only [List.mem_cons, GraphUpdate.setNode.injEq, List.not_mem_nil, or_false] at hu
    obtain ⟨-, rfl, -⟩ := hu
    decide
  · cases hu

/-- Each count of a person has the name of one. -/
theorem creditCountProperty_notMem (category : String) :
    creditCountProperty category ∉ recordKeys := by
  intro h
  have hfirst : ∀ key ∈ recordKeys, key.toList.take 2 ≠ ['c', 'r'] := by decide
  exact hfirst _ h (by simp [creditCountProperty])

theorem setCreditCounts (E : Enumeration) (allCategories : List String) (p : Node) :
    KeepsRecords (setCreditCounts E allCategories p) := by
  refine fun g => seqAll (fun kv hkv => guardedSet ?_ _ _) g
  rcases List.mem_cons.mp hkv with rfl | hkv
  · simp [recordKeys]
  · obtain ⟨category, -, rfl⟩ := List.mem_map.mp hkv
    exact creditCountProperty_notMem category

/-- The statements of the sweeps. -/
theorem keyStatements {E : Enumeration} {allCategories : List String} {sweep : SweepName}
    {key : String} {f : Statement} (h : f ∈ keyStatements E allCategories sweep key) :
    KeepsRecords f := by
  cases sweep with
  | genreStats => exact nodeStatStatements E _ _ (by decide) f h
  | styleStats => exact nodeStatStatements E _ _ (by decide) f h
  | labelStats => exact List.mem_singleton.mp h ▸ setLabelStats E _
  | artistStats => exact List.mem_singleton.mp h ▸ setArtistStats E _
  | personCreditCounts => exact List.mem_singleton.mp h ▸ setCreditCounts E allCategories _

end Statement.KeepsRecords

/-- What upkeep makes of a hash: it leaves it, or deletes a node that is a stub or the sentinel. -/
theorem Upkeep.hash_cases {env : Env} {allCategories : List String} {g g' : Graph}
    (hup : Upkeep env allCategories g g') (v : Node) :
    prop g' v "sha256" = prop g v "sha256" ∨ (prop g' v "sha256" = .null ∧
      (prop g v "sha256" = .null ∨ v = Graphinator.sentinelMaster)) := by
  cases hup with
  | statement E sweep key hst _ =>
    have hkeeps := Statement.KeepsRecords.keyStatements (List.mem_of_getElem? hst)
    exact Or.inl (hkeeps g v "sha256" (by decide))
  | cleanup hreach =>
    obtain ⟨deleted, hdeleted, hgraph⟩ := (Cleanup.Inv.reachable hreach).lacks
    rw [hgraph, prop, row_nodes_detachDelete]
    split_ifs with hv
    · exact Or.inr ⟨rfl, Or.inl (hdeleted v hv).2.1⟩
    · exact Or.inl rfl
  | sentinelEdges chunk => exact Or.inl rfl
  | sentinelMaster =>
    rw [deleteSentinelMaster, prop, row_nodes_detachDelete]
    split_ifs with hv
    · exact Or.inr ⟨rfl, Or.inr hv⟩
    · exact Or.inl rfl
  | backfill kind lines =>
    exact Or.inl ((backfill_frame env kind lines g).2.2 v "sha256" (by decide))

/-- **Upkeep leaves the hashes of records.** -/
theorem Upkeep.hash {env : Env} {allCategories : List String} {g g' : Graph}
    (hup : Upkeep env allCategories g g') {v : Node}
    (hsentinel : v ≠ Graphinator.sentinelMaster) (hhash : prop g v "sha256" ≠ .null) :
    prop g' v "sha256" = prop g v "sha256" :=
  (hup.hash_cases v).resolve_right fun h => h.2.elim hhash hsentinel

/-! ### Records of the feed -/

/-- A record of the feed: its id is a text that its type is written under, its hash is a text that
is not empty, and both paths make a row of it. -/
structure Deliverable (env : Env) (t : DataType) (record : PyValue) : Prop where
  isRecord : IsRecord t record
  sha256 : ∃ hash, hash ≠ "" ∧ record.get "sha256" = .ok (.str hash)
  usable : (writerOf env t).projector.usable record = .ok true
  row : ∃ r, (writerOf env t).projector.row record = .ok r
  one : ∃ r, oneRow env t record = .ok r

/-- The hash of a record is on its node. -/
def HashOn (g : Graph) (v : Node) (hash : String) : Prop :=
  hash ≠ "" ∧ v ≠ sentinelMaster ∧ prop g v "sha256" = .str hash

section Records

variable {env : Env} {g : Graph} {t : DataType} {record : PyValue} {records : List PyValue}

theorem eq_str_of_pyEq {value : PyValue} {s : String} (h : value.pyEq (.str s) = true) :
    value = .str s := by
  cases value with
  | str s' => rw [of_decide_eq_true ((pyEq_str s' s).symm.trans h)]
  | _ => simp [pyEq, number?] at h

/-- A master that may be written is not the sentinel. -/
theorem Deliverable.ne_sentinel (h : Deliverable env t record) {v : Node}
    (hv : recordNode? t.nodeLabel record = some v) : v ≠ sentinelMaster := by
  rintro rfl
  obtain ⟨s, hs, -⟩ := h.isRecord.get_id
  have hnode := (recordNode?_text t.nodeLabel hs).symm.trans hv
  obtain ⟨hlabel, hkey⟩ := Node.mk.inj (Option.some.inj hnode)
  cases t with
  | masters =>
    have husable := h.usable
    change hasMasterId record = .ok true at husable
    simp only [hasMasterId, hs, hkey, bind, Except.bind, pure, Except.pure] at husable
    revert husable
    decide
  | _ => cases hlabel

/-- A record is stored where its hash is on its node. -/
theorem Deliverable.isStored_iff (h : Deliverable env t record) {v : Node}
    (hv : recordNode? t.nodeLabel record = some v) {hash : String}
    (hhash : record.get "sha256" = .ok (.str hash)) :
    Transaction.isStored g t.nodeLabel record = true ↔ prop g v "sha256" = .str hash := by
  obtain ⟨s, hs, -⟩ := h.isRecord.get_id
  obtain rfl := Option.some.inj ((recordNode?_text t.nodeLabel hs).symm.trans hv)
  unfold Transaction.isStored
  simp only [hs, hhash]
  change (prop g ⟨t.nodeLabel, .str s⟩ "sha256").pyEq (.str hash) = true ↔ _
  constructor
  · exact eq_str_of_pyEq
  · intro heq
    rw [heq, pyEq_str, decide_eq_true rfl]

/-- A batch skips a record where the hash of the record is on its node. -/
theorem skips_eq_isStored (h : ∀ record ∈ records, Deliverable env t record)
    (hmem : record ∈ records) :
    skips env g t.nodeLabel records record = Transaction.isStored g t.nodeLabel record := by
  have hrecord := h record hmem
  obtain ⟨s, hs, -⟩ := hrecord.isRecord.get_id
  obtain ⟨hash, hne, hhash⟩ := hrecord.sha256
  have hstored := hrecord.isStored_iff (g := g) (recordNode?_text t.nodeLabel hs) hhash
  rw [Bool.eq_iff_iff, hstored]
  simp only [skips, hs, hhash, existingHash]
  cases hfind : (recordIds records).reverse.find? fun id => id.pyStr env.repr =
      (PyValue.str s).pyStr env.repr && (storedHash g t.nodeLabel id).truthy with
  | some id =>
    obtain ⟨other, hother, hget⟩ := List.mem_filterMap.mp
      (List.mem_reverse.mp (List.mem_of_find?_eq_some hfind))
    obtain ⟨s', hs', -⟩ := (h other hother).isRecord.get_id
    rw [hs'] at hget
    obtain rfl : PyValue.str s' = id := Option.some.inj hget
    have htext := List.find?_some hfind
    obtain rfl : s' = s := of_decide_eq_true (Bool.and_eq_true_iff.mp htext).1
    change (prop g ⟨t.nodeLabel, .str s'⟩ "sha256").pyEq (.str hash) = true ↔ _
    exact ⟨eq_str_of_pyEq, fun heq => by rw [heq, pyEq_str, decide_eq_true rfl]⟩
  | none =>
    refine ⟨fun hnull => (by cases pyEq_null hnull), fun heq => ?_⟩
    -- the hash on the node is not empty, so that the query returns it
    have hid : PyValue.str s ∈ (recordIds records).reverse := by
      rw [List.mem_reverse]
      exact List.mem_filterMap.mpr ⟨record, hmem, by rw [hs]; rfl⟩
    refine absurd ?_ (List.find?_eq_none.mp hfind _ hid)
    have hstr : storedHash g t.nodeLabel (.str s) = .str hash := heq
    simp [hstr, truthy, hne]

/-! The row of a record carries its hash. -/

theorem ArtistRow.sha256_eq {r : ArtistRow} (h : RowFor env .artists record r) {hash : String}
    (hhash : record.get "sha256" = .ok (.str hash)) : r.sha256 = .str hash := by
  rcases h with h | h
  · change artistRow env record = .ok r at h
    simp only [artistRow, bind_eq_ok, pure_eq_ok] at h
    grind [storable_str]
  · change artistRecord env record = .ok r at h
    have hitem := item_of_get hhash (by rintro ⟨⟩)
    simp only [artistRecord, bind_eq_ok, pure_eq_ok] at h
    grind [storable_str]

theorem LabelRow.sha256_eq {r : LabelRow} (h : RowFor env .labels record r) {hash : String}
    (hhash : record.get "sha256" = .ok (.str hash)) : r.sha256 = .str hash := by
  rcases h with h | h
  · change labelRow record = .ok r at h
    simp only [labelRow, bind_eq_ok, pure_eq_ok] at h
    grind [storable_str]
  · change labelRecord record = .ok r at h
    have hitem := item_of_get hhash (by rintro ⟨⟩)
    simp only [labelRecord, bind_eq_ok, pure_eq_ok] at h
    grind [storable_str]

theorem MasterRow.sha256_eq {r : MasterRow} (h : RowFor env .masters record r) {hash : String}
    (hhash : record.get "sha256" = .ok (.str hash)) : r.sha256 = .str hash := by
  rcases h with h | h
  · change masterRow record = .ok r at h
    simp only [masterRow, bind_eq_ok, pure_eq_ok] at h
    grind [storable_str]
  · change masterRecord record = .ok r at h
    have hitem := item_of_get hhash (by rintro ⟨⟩)
    simp only [masterRecord, bind_eq_ok, pure_eq_ok] at h
    grind [storable_str]

theorem ReleaseRow.sha256_eq {r : ReleaseRow} (h : RowFor env .releases record r) {hash : String}
    (hhash : record.get "sha256" = .ok (.str hash)) :
    r.sha256 = .str hash ∧ (r.props.map (·.1)).Nodup := by
  rcases h with h | h
  · change releaseRow env record = .ok r at h
    refine ⟨?_, ReleaseRow.props_nodup h⟩
    simp only [releaseRow, bind_eq_ok, pure_eq_ok] at h
    grind [storable_str]
  · change releaseRecord env record = .ok r at h
    have hitem := item_of_get hhash (by rintro ⟨⟩)
    simp only [releaseRecord, bind_eq_ok, pure_eq_ok] at h
    have hrow : r.sha256 = .str hash ∧ r.metadata = [] := by grind [storable_str]
    refine ⟨hrow.1, ?_⟩
    simp [ReleaseRow.props, hrow.2]

theorem RowFor.sha256 {r : RowOf t} (h : RowFor env t record r) {hash : String}
    (hhash : record.get "sha256" = .ok (.str hash)) :
    (((writerOf env t).props r).map (·.1)).Nodup ∧
      ("sha256", .str hash) ∈ (writerOf env t).props r := by
  cases t with
  | artists =>
    change (List.map _ (ArtistRow.props r)).Nodup ∧ _ ∈ ArtistRow.props r
    simp [ArtistRow.props, ArtistRow.sha256_eq h hhash]
  | labels =>
    change (List.map _ (LabelRow.props r)).Nodup ∧ _ ∈ LabelRow.props r
    simp [LabelRow.props, LabelRow.sha256_eq h hhash]
  | masters =>
    change (List.map _ (MasterRow.props r)).Nodup ∧ _ ∈ MasterRow.props r
    simp [MasterRow.props, MasterRow.sha256_eq h hhash]
  | releases =>
    obtain ⟨hsha, hnodup⟩ := ReleaseRow.sha256_eq h hhash
    refine ⟨hnodup, ?_⟩
    change _ ∈ ReleaseRow.props r
    simp [ReleaseRow.props, hsha]

end Records

/-! ### Transactions of the feed -/

/-- Records of one node that agree on a property leave it there. -/
theorem updateRow_of_forall {ρ : Type} {own : ρ → Node} {props : ρ → List (String × PyValue)}
    {rows : List ρ} {v : Node} {key : String} {value : PyValue}
    (h : ∀ r ∈ rows, own r = v → ((props r).map (·.1)).Nodup ∧ (key, value) ∈ props r) {row : Row}
    (hsome : row key = value ∨ ∃ r ∈ rows, own r = v) :
    updateRow own props rows v row key = value := by
  unfold updateRow
  induction rows generalizing row with
  | nil => exact hsome.resolve_right fun ⟨r, hr, _⟩ => absurd hr List.not_mem_nil
  | cons r rows ih =>
    obtain ⟨hr, h⟩ := List.forall_mem_cons.mp h
    rw [List.foldl_cons]
    by_cases hown : own r = v
    · obtain ⟨hnodup, hmem⟩ := hr hown
      rw [if_pos hown]
      exact ih h (Or.inl (setProps_of_mem hnodup hmem row))
    · rw [if_neg hown]
      refine ih h (hsome.imp_right fun ⟨r', hr', hown'⟩ => ⟨r', ?_, hown'⟩)
      exact (List.mem_cons.mp hr').resolve_left fun heq => hown (heq ▸ hown')

/-- The records of a transaction are records of the feed, and those of one node are of one hash. -/
structure Transaction.Deliverable (env : Env) (x : Transaction) : Prop where
  record : ∀ record ∈ x.records, Graphinator.Deliverable env x.queue record
  same : ∀ record ∈ x.records, ∀ other ∈ x.records, record.get "id" = other.get "id" →
    record.get "sha256" = other.get "sha256"

/-- A transaction of batch mode: a batch with at most one message for each id. -/
structure Transaction.BatchMode (x : Transaction) : Prop where
  batch : ∃ t messages, x = .batch t messages
  nodup : (x.records.map (·.get "id")).Nodup

namespace Transaction

/-- The transaction with only the records that satisfy a predicate. -/
def only (p : PyValue → Bool) : Transaction → Transaction
  | .batch t messages => .batch t (messages.filter p)
  | .single t record => if p record then .single t record else .batch t []

variable {env : Env} {g : Graph} {x : Transaction} {v : Node}

theorem queue_only (p : PyValue → Bool) (x : Transaction) : (x.only p).queue = x.queue := by
  cases x with
  | batch t messages => rfl
  | single t record =>
    rw [only]
    split_ifs <;> rfl

theorem records_only (p : PyValue → Bool) (x : Transaction) :
    (x.only p).records = x.records.filter p := by
  cases x with
  | batch t messages => rfl
  | single t record =>
    change (only p (.single t record)).records = [record].filter p
    rw [only]
    split_ifs with hp
    · rw [List.filter_cons_of_pos hp]
      rfl
    · rw [List.filter_cons_of_neg hp]
      rfl

/-- A batch of the feed writes the records whose hash is not on their node. -/
theorem batchRows_eq {t : DataType} {messages : List PyValue}
    (h : ∀ record ∈ messages, Graphinator.Deliverable env t record) :
    batchRows env g t messages = ((messages.filter fun record =>
      !isStored g t.nodeLabel record).mapM (writerOf env t).projector.row).toOption.getD [] := by
  have husable : messages.mapM (writerOf env t).projector.usable =
      .ok (messages.map fun _ => true) := by
    rw [mapM_eq_ok, List.forall₂_map_right_iff, List.forall₂_same]
    exact fun record hrecord => (h record hrecord).usable
  have hall : usableMessages messages (messages.map fun _ => true) = messages := by
    unfold usableMessages
    clear h husable
    induction messages with
    | nil => rfl
    | cons record messages ih =>
      rw [List.map_cons, List.zip_cons_cons, List.filterMap_cons_some (by rfl), ih]
  have hskips : messages.filter (fun record => !skips env g t.nodeLabel messages record) =
      messages.filter fun record => !isStored g t.nodeLabel record :=
    List.filter_congr fun record hrecord => by rw [skips_eq_isStored h hrecord]
  simp only [batchRows, husable, hall, hskips]

/-- A record that a batch does not find stored has its row among those that are written. -/
theorem exists_batchRow {t : DataType} {messages : List PyValue}
    (h : ∀ record ∈ messages, Graphinator.Deliverable env t record) {record : PyValue}
    (hrecord : record ∈ messages) (hstored : ¬isStored g t.nodeLabel record = true) :
    ∃ r ∈ batchRows env g t messages, RowFor env t record r := by
  have hmem : record ∈ messages.filter fun record => !isStored g t.nodeLabel record :=
    List.mem_filter.mpr ⟨hrecord, by simpa using hstored⟩
  obtain ⟨rows, hrows⟩ := exists_mapM_eq_ok fun other hother =>
    (h other (List.mem_filter.mp hother).1).row
  obtain ⟨r, hr, hrow⟩ := exists_right_of_mem (mapM_eq_ok.mp hrows) hmem
  refine ⟨r, ?_, Or.inl hrow⟩
  rw [batchRows_eq h, hrows]
  exact hr

theorem exists_singleRow {t : DataType} {record : PyValue}
    (h : Graphinator.Deliverable env t record) (hstored : ¬isStored g t.nodeLabel record = true) :
    ∃ r ∈ singleRows env g t record, RowFor env t record r := by
  obtain ⟨r, hr⟩ := h.one
  refine ⟨r, ?_, Or.inr hr⟩
  rw [singleRows, if_neg hstored, List.mapM_cons, List.mapM_nil, hr]
  exact List.mem_singleton.mpr rfl

/-- A record of a transaction is stored, or its row is among those that are written. -/
theorem exists_row (h : x.Deliverable env) {record : PyValue} (hrecord : record ∈ x.records) :
    isStored g x.queue.nodeLabel record = true ∨
      ∃ r ∈ x.rows env g, RowFor env x.queue record r := by
  by_cases hstored : isStored g x.queue.nodeLabel record = true
  · exact Or.inl hstored
  cases x with
  | batch t messages => exact Or.inr (exists_batchRow h.record hrecord hstored)
  | single t other =>
    obtain rfl := List.mem_singleton.mp hrecord
    exact Or.inr (exists_singleRow (h.record record hrecord) hstored)

/-- A transaction leaves the hashes of other nodes. -/
theorem hash_run_of_ne (h : ∀ record ∈ x.records, IsRecord x.queue record)
    (hv : ∀ record ∈ x.records, recordNode? x.queue.nodeLabel record ≠ some v) :
    prop (x.run env g) v "sha256" = prop g v "sha256" := by
  rw [run_eq h, write_eq_linkAll, prop, row_nodes_linkAll]
  refine (Staged.within_batch (stagesOf x.queue) (x.rows env g)).row_nodes
    (R := fun a b : Row => b "sha256" = a "sha256") (fun _ => rfl) (fun h h' => h'.trans h) ?_ g
  rintro u ⟨r, hr, hu⟩ row
  obtain ⟨record, hrecord, hrow⟩ := x.rowFor_of_mem hr
  refine hash_of_updates env hu (fun hown => hv record hrecord ?_) row
  rw [hrow.own, hown]

/-- **A transaction leaves the hash of each of its records on its node.** -/
theorem hash_run (h : x.Deliverable env) {record : PyValue} (hrecord : record ∈ x.records)
    (hv : recordNode? x.queue.nodeLabel record = some v) {hash : String}
    (hhash : record.get "sha256" = .ok (.str hash)) :
    prop (x.run env g) v "sha256" = .str hash := by
  have hof : ∀ r, (writerOf env x.queue).own r = (stagesOf x.queue).own r := by
    cases x.queue <;> exact fun _ => rfl
  have hall : ∀ r ∈ x.rows env g, (writerOf env x.queue).own r = v →
      (((writerOf env x.queue).props r).map (·.1)).Nodup ∧
        ("sha256", .str hash) ∈ (writerOf env x.queue).props r := by
    intro r hr hown
    obtain ⟨other, hother, hrow⟩ := x.rowFor_of_mem hr
    refine hrow.sha256 ?_
    -- the records of a node have the same id
    rw [hof] at hown
    obtain ⟨s, hs, -⟩ := (h.record record hrecord).isRecord.get_id
    obtain ⟨s', hs', -⟩ := (h.record other hother).isRecord.get_id
    have hnodes := hrow.own.symm.trans (recordNode?_text _ hs')
    rw [hown, ← hv, recordNode?_text _ hs] at hnodes
    obtain rfl : s = s' := by simpa using hnodes
    rw [← h.same record hrecord other hother (by rw [hs, hs']), hhash]
  have hlabel : v.label = (writerOf env x.queue).projector.label := by
    rw [projector_label]
    exact NodeWriter.label_of_recordNode? hv
  rw [run_eq fun record hrecord => (h.record record hrecord).isRecord, prop,
    (writerOf env x.queue).write_row _ g v hlabel]
  refine updateRow_of_forall hall ?_
  refine (exists_row (g := g) h hrecord).imp (fun hstored => ?_) ?_
  · exact ((h.record record hrecord).isStored_iff hv hhash).mp hstored
  · rintro ⟨r, hr, hrow⟩
    refine ⟨r, hr, ?_⟩
    rw [hof]
    exact Option.some.inj (hrow.own.symm.trans hv)

/-- **Records that are stored may be left out.** -/
theorem run_only (h : x.Deliverable env) {p : PyValue → Bool}
    (hp : ∀ record ∈ x.records, p record = false → isStored g x.queue.nodeLabel record = true) :
    (x.only p).run env g = x.run env g := by
  have hread : ∀ {t : DataType} {messages : List PyValue},
      (∀ record ∈ messages, Graphinator.Deliverable env t record) → ∀ record ∈ messages,
        ∃ id sha256, record.item "id" = .ok id ∧ record.get "sha256" = .ok sha256 :=
    fun h record hrecord => (h record hrecord).isRecord.item
  cases x with
  | batch t messages =>
    have hrecords : ∀ record ∈ messages, Graphinator.Deliverable env t record := h.record
    have hfiltered : ∀ record ∈ messages.filter p, Graphinator.Deliverable env t record :=
      fun record hrecord => hrecords record (List.mem_filter.mp hrecord).1
    change run env (.batch t (messages.filter p)) g = _
    rw [run_batch (hread hfiltered), run_batch (hread hrecords), batchRows_eq hfiltered,
      batchRows_eq hrecords, List.filter_filter]
    have hsame : messages.filter (fun record => (!isStored g t.nodeLabel record) && p record) =
        messages.filter fun record => !isStored g t.nodeLabel record := by
      refine List.filter_congr fun record hrecord => ?_
      cases hrecord' : p record with
      | true => exact Bool.and_true _
      | false =>
        have hstored : isStored g t.nodeLabel record = true := hp record hrecord hrecord'
        simp [hstored]
    rw [hsame]
  | single t record =>
    rw [only]
    split_ifs with hrecord
    · rfl
    · have hmem : record ∈ (Transaction.single t record).records := List.mem_singleton.mpr rfl
      have hstored : isStored g t.nodeLabel record = true :=
        hp record hmem (by simpa using hrecord)
      have hdeliverable : Graphinator.Deliverable env t record := h.record record hmem
      rw [run_single hdeliverable.isRecord, singleRows, if_pos hstored,
        run_batch fun _ h => absurd h List.not_mem_nil]
      rfl

end Transaction

/-! ### The catalog as a receiver -/

/-- A transaction that commits, or upkeep. -/
inductive Delivery
  | transaction (x : Transaction)
  | upkeep

namespace Delivery

/-- The records that are delivered, with their queues. -/
def messages : Delivery → List (DataType × PyValue)
  | .transaction x => x.records.map fun record => (x.queue, record)
  | .upkeep => []

/-- The transaction with only some of its records. -/
def only (p : DataType × PyValue → Bool) : Delivery → Delivery
  | .transaction x => .transaction (x.only fun record => p (x.queue, record))
  | .upkeep => .upkeep

/-- What a step may make of the graph. -/
def Step (env : Env) (allCategories : List String) : Delivery → Graph → Graph → Prop
  | .transaction x, g, g' => x.run env g = g'
  | .upkeep, g, g' => Upkeep env allCategories g g'

/-- The records are records of the feed. -/
def Valid (env : Env) : Delivery → Prop
  | .transaction x => x.Deliverable env
  | .upkeep => True

end Delivery

/-- The node of a message. -/
def messageNode? (m : DataType × PyValue) : Option Node := recordNode? m.1.nodeLabel m.2

/-- The hash of a message. -/
def messageHash? (m : DataType × PyValue) : Option PyValue := (m.2.get "sha256").toOption

/-- **The catalog as a receiver**: the key of a record is its node, and its tag is its hash. -/
def catalogReceiver (env : Env) (allCategories : List String) :
    Receiver Graph Delivery (DataType × PyValue) (Option Node) (Option PyValue) where
  Step := Delivery.Step env allCategories
  items := Delivery.messages
  key := messageNode?
  tag := messageHash?
  only := Delivery.only
  Keeps g v? hash? := ∃ v hash, v? = some v ∧ hash? = some (.str hash) ∧ HashOn g v hash
  Valid := Delivery.Valid env
  items_only p d := by
    cases d with
    | transaction x =>
      simp only [Delivery.only, Delivery.messages, Transaction.queue_only,
        Transaction.records_only, List.filter_map]
      rfl
    | upkeep => rfl
  step_only {p d g g'} hvalid hp := by
    cases d with
    | transaction x =>
      have hrun : (x.only fun record => p (x.queue, record)).run env g = x.run env g := by
        refine Transaction.run_only hvalid fun record hrecord hout => ?_
        obtain ⟨v, hash, hv, hhash, -, -, hprop⟩ :=
          hp (x.queue, record) (List.mem_map_of_mem hrecord) hout
        have hdeliverable := hvalid.record record hrecord
        obtain ⟨s, -, hs⟩ := hdeliverable.sha256
        obtain rfl : s = hash := by simpa [messageHash?, hs, Except.toOption] using hhash
        exact (hdeliverable.isStored_iff hv hs).mpr hprop
      exact Eq.congr_left hrun
    | upkeep => exact Iff.rfl
  keeps_items {d g g'} hvalid hstep m hm := by
    cases d with
    | transaction x =>
      obtain ⟨record, hrecord, rfl⟩ := List.mem_map.mp hm
      have hdeliverable := hvalid.record record hrecord
      obtain ⟨id, hid, -⟩ := hdeliverable.isRecord.get_id
      obtain ⟨hash, hne, hs⟩ := hdeliverable.sha256
      have hv := recordNode?_text x.queue.nodeLabel hid
      refine ⟨_, hash, hv, ?_, hne, hdeliverable.ne_sentinel hv, ?_⟩
      · simp only [messageHash?, hs, Except.toOption]
      · obtain rfl : x.run env g = g' := hstep
        exact Transaction.hash_run hvalid hrecord hv hs
    | upkeep => cases hm
  keeps_other {d g g' k t} hvalid hstep hother := by
    rintro ⟨v, hash, rfl, rfl, hne, hsentinel, hprop⟩
    refine ⟨v, hash, rfl, rfl, hne, hsentinel, ?_⟩
    cases d with
    | transaction x =>
      obtain rfl : x.run env g = g' := hstep
      rw [Transaction.hash_run_of_ne (fun record hrecord => (hvalid.record record hrecord).isRecord)
        fun record hrecord => hother (x.queue, record) (List.mem_map_of_mem hrecord), hprop]
    | upkeep =>
      have hup : Upkeep env allCategories g g' := hstep
      rw [hup.hash hsentinel (by rw [hprop]; rintro ⟨⟩), hprop]

/-- A ledger in which no message has entered. -/
def noMessages : Option Node → Option (Option PyValue) := fun _ => none

section Feed

variable {env : Env} {allCategories : List String} {ds front back : List Delivery} {d : Delivery}
  {g g' : Graph}

theorem valid_of_feed (hfeed : ∀ x, .transaction x ∈ ds → x.Deliverable env) :
    ∀ d ∈ ds, (catalogReceiver env allCategories).Valid d := by
  intro d hd
  cases d with
  | transaction x => exact hfeed x hd
  | upkeep => trivial

theorem holds_noMessages (g : Graph) : (catalogReceiver env allCategories).Holds noMessages g := by
  rintro k t ⟨⟩

/-- A message that was delivered last has its hash on its node. -/
theorem hash_of_last (hfeed : ∀ x, .transaction x ∈ front ++ d :: back → x.Deliverable env)
    (hrun : (catalogReceiver env allCategories).Run (front ++ d :: back) g g')
    {m : DataType × PyValue} (hm : m ∈ d.messages)
    (hlast : ∀ d' ∈ back, ∀ m' ∈ d'.messages, messageNode? m' ≠ messageNode? m) :
    ∃ v, messageNode? m = some v ∧ m.2.get "sha256" = .ok (prop g' v "sha256") := by
  cases d with
  | transaction x =>
    have hx : x.Deliverable env := hfeed x (List.mem_append_right _ (List.mem_cons_self ..))
    obtain ⟨record, hrecord, rfl⟩ := List.mem_map.mp hm
    obtain ⟨hash, -, hhash⟩ := (hx.record record hrecord).sha256
    have hsame : ∀ m' ∈ (Delivery.transaction x).messages,
        messageNode? m' = messageNode? (x.queue, record) →
          messageHash? m' = messageHash? (x.queue, record) := by
      intro m' hm' hnode
      obtain ⟨other, hother, rfl⟩ := List.mem_map.mp hm'
      obtain ⟨s, hs, -⟩ := (hx.record record hrecord).isRecord.get_id
      obtain ⟨s', hs', -⟩ := (hx.record other hother).isRecord.get_id
      have hnodes := (recordNode?_text x.queue.nodeLabel hs').symm.trans
        (hnode.trans (recordNode?_text x.queue.nodeLabel hs))
      obtain rfl : s' = s := by simpa using hnodes
      exact congrArg Except.toOption (hx.same other hother record hrecord (hs'.trans hs.symm))
    have hledger : (catalogReceiver env allCategories).ledger (front ++ .transaction x :: back)
        noMessages (messageNode? (x.queue, record)) = some (messageHash? (x.queue, record)) :=
      Receiver.ledger_of_last (R := catalogReceiver env allCategories) hm hsame hlast
    obtain ⟨v, stored, hv, hstored, -, -, hprop⟩ :=
      Receiver.holds_ledger (valid_of_feed hfeed) (holds_noMessages g) hrun _ _ hledger
    refine ⟨v, hv, ?_⟩
    obtain rfl : hash = stored := by simpa [messageHash?, hhash, Except.toOption] using hstored
    exact hhash.trans (congrArg Except.ok hprop.symm)
  | upkeep => cases hm

/-- The node of a record that was delivered is there. -/
theorem exists_node_of_delivered (hfeed : ∀ x, .transaction x ∈ ds → x.Deliverable env)
    (hrun : (catalogReceiver env allCategories).Run ds g g') {m : DataType × PyValue}
    (hm : m ∈ ds.flatMap Delivery.messages) : ∃ v ∈ g'.nodes, messageNode? m = some v := by
  obtain ⟨d, hd, hmem⟩ := List.mem_flatMap.mp hm
  obtain ⟨tag, hledger⟩ : ∃ tag, (catalogReceiver env allCategories).ledger ds noMessages
      (messageNode? m) = some tag := Option.isSome_iff_exists.mp <|
    Receiver.ledger_isSome_of_mem (R := catalogReceiver env allCategories) hd hmem
  obtain ⟨v, hash, hv, -, -, -, hprop⟩ :=
    Receiver.holds_ledger (valid_of_feed hfeed) (holds_noMessages g) hrun _ _ hledger
  refine ⟨v, ?_, hv⟩
  by_contra hnot
  have hnull : prop g' v "sha256" = .null := congrFun (g'.nodes.row_of_notMem _ hnot) "sha256"
  rw [hprop] at hnull
  cases hnull

end Feed

/-- A transaction of one record of the feed. -/
theorem Deliverable.transaction {env : Env} {t : DataType} {record : PyValue}
    (h : Deliverable env t record) {x : Transaction} (hqueue : x.queue = t)
    (hrecords : x.records = [record]) : x.Deliverable env := by
  subst hqueue
  refine ⟨fun other hother => ?_, fun other hother other' hother' _ => ?_⟩
  · rw [hrecords, List.mem_singleton] at hother
    exact hother ▸ h
  · rw [hrecords, List.mem_singleton] at hother hother'
    rw [hother, hother']

theorem rockRelease_deliverable : Deliverable plainEnv .releases rockRelease := by
  refine ⟨⟨⟨"1", by decide, rfl⟩, ⟨.str "r", (by rintro ⟨⟩), rfl⟩, ?_⟩, ⟨"r", by decide, rfl⟩, rfl,
    ⟨_, rfl⟩, ⟨_, rfl⟩⟩
  rintro (h | h) <;> cases h

end Graphinator
