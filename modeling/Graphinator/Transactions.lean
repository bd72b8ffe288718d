import Graphinator.NameOwnership

/-!
# Transactions of the queues

A batch of messages, or a record by itself. The records of a transaction that are not found stored
become rows, by the hashes that the graph has for these records and by nothing else of it, and the
transaction writes its rows.

## Main definitions

* `Transaction`, `Transaction.run` : a batch or a single record of a queue.
* `Transaction.rows` : what a transaction writes.
* `IsRecord` : a record with a text for its id, a hash and a name.

## Main results

* `Transaction.run_eq` : a transaction writes its rows.
* `Transaction.rows_congr` : its rows depend on the hashes of its records only.
-/

namespace Graphinator

open PropertyGraph PyValue

/-! ### Transactions -/

/-- A transaction of a queue: a batch of its messages, or a record by itself. -/
inductive Transaction
  | batch (t : DataType) (messages : List PyValue)
  | single (t : DataType) (record : PyValue)

namespace Transaction

def queue : Transaction → DataType
  | .batch t _ => t
  | .single t _ => t

def records : Transaction → List PyValue
  | .batch _ messages => messages
  | .single _ record => [record]

def action : Transaction → Names.Action
  | .batch t messages => .batch t messages
  | .single t record => .record t record

/-- The graph that a transaction leaves. -/
def run (env : Env) (x : Transaction) : Graph → Graph := Names.step env x.action

/-- The hash of a record is stored under its id. -/
def isStored (g : Graph) (nodeLabel : Label) (record : PyValue) : Bool :=
  match record.get "id", record.get "sha256" with
  | .ok id, .ok sha256 => (storedHash g nodeLabel id).pyEq sha256
  | _, _ => false

/-- The rows that a batch writes on a graph with the hashes of `g`: those of the records it does not
find stored. A batch that raises writes none. -/
def batchRows (env : Env) (g : Graph) (t : DataType) (messages : List PyValue) : List (RowOf t) :=
  match messages.mapM (writerOf env t).projector.usable with
  | .ok usable =>
    let records := usableMessages messages usable
    let changed := records.filter fun record => !skips env g t.nodeLabel records record
    (changed.mapM (writerOf env t).projector.row).toOption.getD []
  | .error _ => []

/-- The rows that the single-record path writes. -/
def singleRows (env : Env) (g : Graph) (t : DataType) (record : PyValue) : List (RowOf t) :=
  if isStored g t.nodeLabel record then [] else ([record].mapM (oneRow env t)).toOption.getD []

/-- The rows that a transaction writes on a graph with the hashes of `g`. -/
def rows (env : Env) (g : Graph) : (x : Transaction) → List (RowOf x.queue)
  | .batch t messages => batchRows env g t messages
  | .single t record => singleRows env g t record

end Transaction

/-- A record with a text for its id, a hash, and a name where its type carries one. -/
structure IsRecord (t : DataType) (record : PyValue) : Prop where
  id : ∃ s, s ≠ "" ∧ record.get "id" = .ok (.str s)
  sha256 : ∃ hash, hash ≠ .null ∧ record.get "sha256" = .ok hash
  named : t = .artists ∨ t = .labels → Named record

/-! ### A transaction writes its rows -/

section Rows

variable {env : Env} {g g' : Graph} {t : DataType} {record : PyValue} {records : List PyValue}

theorem IsRecord.get_id (h : IsRecord t record) : ∃ s, record.get "id" = .ok (.str s) ∧
    record.item "id" = .ok (.str s) := by
  obtain ⟨s, -, hs⟩ := h.id
  exact ⟨s, hs, item_of_get hs (by rintro ⟨⟩)⟩

/-- A text names a node of every label. -/
theorem recordNode?_text (nodeLabel : Label) {s : String} (hs : record.get "id" = .ok (.str s)) :
    recordNode? nodeLabel record = some ⟨nodeLabel, .str s⟩ := by
  rw [recordNode?_of_get hs]
  rfl

theorem pyEq_null {x : PyValue} (h : PyValue.null.pyEq x = true) : x = .null := by
  cases x <;> simp_all [pyEq, number?]

/-- The single-record path finds a record unchanged where its hash is stored: a node that is not
there has no hash. -/
theorem IsRecord.foundUnchanged_iff (h : IsRecord t record) :
    FoundUnchanged g t.nodeLabel record ↔ Transaction.isStored g t.nodeLabel record = true := by
  obtain ⟨s, hs, -⟩ := h.get_id
  obtain ⟨hash, hne, hhash⟩ := h.sha256
  have hnode := recordNode?_text t.nodeLabel hs
  have hitem := item_of_get hhash hne
  unfold Transaction.isStored
  simp only [hs, hhash, storedHash_of_recordNode? hs hnode]
  constructor
  · rintro ⟨v, hv, -, sha256, hsha, heq⟩
    obtain rfl := Option.some.inj (hnode.symm.trans hv)
    obtain rfl := Except.ok.inj (hitem.symm.trans hsha)
    exact heq
  · intro heq
    refine ⟨_, hnode, ?_, hash, hitem, heq⟩
    by_contra hmem
    have hnull : prop g ⟨t.nodeLabel, .str s⟩ "sha256" = .null := by
      rw [prop, g.nodes.row_of_notMem _ hmem]
      rfl
    rw [hnull] at heq
    exact hne (pyEq_null heq)

/-- The ids and the hashes of a batch are read. -/
theorem changedRecords_of_item (env : Env) (g : Graph) (nodeLabel : Label)
    (h : ∀ record ∈ records, ∃ id sha256, record.item "id" = .ok id ∧
      record.get "sha256" = .ok sha256) : changedRecords env g nodeLabel records =
      .ok (records.filter fun record => !skips env g nodeLabel records record) := by
  have hok : ∃ changed, changedRecords env g nodeLabel records = .ok changed := by
    obtain ⟨ids, hids⟩ : ∃ ids, records.mapM (fun record => record.get "id") = .ok ids := by
      refine exists_mapM_eq_ok fun record hrecord => ?_
      obtain ⟨id, -, hid, -⟩ := h record hrecord
      exact ⟨id, get_of_item hid⟩
    obtain ⟨kept, hkept⟩ : ∃ kept, records.mapM (fun record => do
        let id ← record.item "id"
        let sha256 ← record.get "sha256"
        return if (existingHash env g nodeLabel ids (id.pyStr env.repr)).pyEq sha256 then none
          else some record) = .ok kept := by
      refine exists_mapM_eq_ok fun record hrecord => ?_
      obtain ⟨id, sha256, hid, hsha⟩ := h record hrecord
      simp only [hid, hsha, bind, Except.bind, pure, Except.pure]
      exact ⟨_, rfl⟩
    refine ⟨kept.filterMap id, ?_⟩
    simp only [changedRecords, bind_eq_ok, pure_eq_ok]
    exact ⟨ids, hids, kept, hkept, rfl⟩
  obtain ⟨changed, hchanged⟩ := hok
  rw [hchanged, changedRecords_eq hchanged]

/-- A record whose id and hash are read. -/
theorem IsRecord.item (h : IsRecord t record) :
    ∃ id sha256, record.item "id" = .ok id ∧ record.get "sha256" = .ok sha256 := by
  obtain ⟨s, -, hs⟩ := h.get_id
  obtain ⟨hash, -, hhash⟩ := h.sha256
  exact ⟨_, hash, hs, hhash⟩

namespace Transaction

/-- A batch that does not raise writes its rows, and one that raises has none. -/
theorem run_batch {messages : List PyValue} (h : ∀ record ∈ messages, ∃ id sha256,
      record.item "id" = .ok id ∧ record.get "sha256" = .ok sha256) (env : Env) (g : Graph) :
    run env (.batch t messages) g =
      (writerOf env t).projector.write (batchRows env g t messages) g := by
  have hnil := (writerOf env t).write_nil g
  change Names.step env (.batch t messages) g = _
  simp only [Names.step, write, processBatch_eq]
  cases husable : messages.mapM (writerOf env t).projector.usable with
  | error error =>
    simp only [Projector.process, husable, batchRows, bind, Except.bind]
    exact hnil.symm
  | ok usable =>
    have hread : ∀ record ∈ usableMessages messages usable, ∃ id sha256,
        record.item "id" = .ok id ∧ record.get "sha256" = .ok sha256 :=
      fun record hrecord => h record (Names.mem_usableMessages hrecord)
    have hchanged := changedRecords_of_item env g t.nodeLabel hread
    obtain ⟨changed, hdef⟩ : ∃ changed, (usableMessages messages usable).filter (fun record =>
      !skips env g t.nodeLabel (usableMessages messages usable) record) = changed := ⟨_, rfl⟩
    have hrows : batchRows env g t messages =
        (changed.mapM (writerOf env t).projector.row).toOption.getD [] := by
      simp only [batchRows, husable, hdef]
    rw [hdef, ← projector_label env t] at hchanged
    unfold usableMessages at hchanged
    simp only [Projector.process, husable, hchanged, hrows, bind, Except.bind, pure, Except.pure]
    cases changed with
    | nil => exact hnil.symm
    | cons r rest =>
      cases hrow : (r :: rest).mapM (writerOf env t).projector.row with
      | error error => exact hnil.symm
      | ok rows => rfl

/-- What the single-record path leaves, by the outcome of the record. -/
theorem run_eq_outcome (env : Env) (t : DataType) (record : PyValue) (g : Graph) :
    run env (.single t record) g = match oneOutcome env t g record with
      | .written g' => g'
      | _ => g := by
  change Names.step env (.record t record) g = _
  rcases hprocess : processOne env t record g with error | ⟨g', changed⟩
  · simp only [Names.step, oneOutcome, hprocess]
  · simp only [Names.step, oneOutcome, hprocess]
    cases changed with
    | true => rfl
    | false =>
      rw [processOne_eq] at hprocess
      rcases processRecord_eq_ok hprocess with ⟨-, heq⟩ | ⟨h, -⟩
      · exact heq
      · cases h

/-- The single-record path writes its rows. -/
theorem run_single (hrecord : IsRecord t record) (env : Env) (g : Graph) :
    run env (.single t record) g =
      (writerOf env t).projector.write (singleRows env g t record) g := by
  obtain ⟨s, hs, hitem⟩ := hrecord.get_id
  have hnil := (writerOf env t).write_nil g
  rw [run_eq_outcome, singleRows]
  by_cases hstored : isStored g t.nodeLabel record = true
  · rw [if_pos hstored, oneOutcome_of_found hs hitem (hrecord.foundUnchanged_iff.mpr hstored)]
    exact hnil.symm
  · rw [if_neg hstored, oneOutcome_of_not_found hs hitem fun hfound =>
      hstored (hrecord.foundUnchanged_iff.mp hfound), List.mapM_cons, List.mapM_nil]
    cases hrow : oneRow env t record with
    | error error => exact hnil.symm
    | ok r => rfl

/-- **A transaction writes its rows.** -/
theorem run_eq {x : Transaction} (h : ∀ record ∈ x.records, IsRecord x.queue record) (env : Env)
    (g : Graph) : x.run env g = (writerOf env x.queue).projector.write (x.rows env g) g := by
  cases x with
  | batch t messages => exact run_batch (fun record hrecord => (h record hrecord).item) env g
  | single t record => exact run_single (h record (List.mem_singleton.mpr rfl)) env g

end Transaction

/-- Graphs that agree on the hashes of the records of a transaction. -/
def SameHashes (x : Transaction) (g g' : Graph) : Prop :=
  ∀ record ∈ x.records, ∀ v, recordNode? x.queue.nodeLabel record = some v →
    prop g v "sha256" = prop g' v "sha256"

theorem existingHash_congr {nodeLabel : Label} {ids : List PyValue} (text : String)
    (h : ∀ id ∈ ids, storedHash g nodeLabel id = storedHash g' nodeLabel id) :
    existingHash env g nodeLabel ids text = existingHash env g' nodeLabel ids text := by
  unfold existingHash
  have hfind : (ids.reverse.find? fun id => id.pyStr env.repr = text &&
      (storedHash g nodeLabel id).truthy) = ids.reverse.find? fun id => id.pyStr env.repr = text &&
      (storedHash g' nodeLabel id).truthy := by
    have h' : ∀ id ∈ ids.reverse, storedHash g nodeLabel id = storedHash g' nodeLabel id :=
      fun id hid => h id (List.mem_reverse.mp hid)
    generalize ids.reverse = rest at h' ⊢
    induction rest with
    | nil => rfl
    | cons id rest ih =>
      rw [List.find?_cons, List.find?_cons, h' id (List.mem_cons_self ..),
        ih fun id hid => h' id (List.mem_cons_of_mem _ hid)]
  rw [hfind]
  cases hid : ids.reverse.find? (fun id => id.pyStr env.repr = text &&
      (storedHash g' nodeLabel id).truthy) with
  | none => rfl
  | some id => exact h id (List.mem_reverse.mp (List.mem_of_find?_eq_some hid))

/-- What a batch leaves out depends on the hashes of its records only. -/
theorem skips_congr {nodeLabel : Label} (hrecords : ∀ record ∈ records, IsRecord t record)
    (h : ∀ record ∈ records, ∀ v, recordNode? nodeLabel record = some v →
      prop g v "sha256" = prop g' v "sha256") (record : PyValue) :
    skips env g nodeLabel records record = skips env g' nodeLabel records record := by
  have hids : ∀ id ∈ recordIds records, storedHash g nodeLabel id = storedHash g' nodeLabel id := by
    intro id hid
    obtain ⟨r, hr, hget⟩ := List.mem_filterMap.mp hid
    obtain ⟨s, hs, -⟩ := (hrecords r hr).get_id
    rw [hs] at hget
    obtain rfl := Option.some.inj hget
    exact h r hr _ (recordNode?_text nodeLabel hs)
  unfold skips
  cases record.get "id" with
  | error error => rfl
  | ok id =>
    cases record.get "sha256" with
    | error error => rfl
    | ok sha256 => exact congrArg (fun x : PyValue => x.pyEq sha256) (existingHash_congr _ hids)

theorem Transaction.batchRows_congr {messages : List PyValue}
    (hrecords : ∀ record ∈ messages, IsRecord t record)
    (h : SameHashes (.batch t messages) g g') :
    batchRows env g t messages = batchRows env g' t messages := by
  unfold batchRows
  cases messages.mapM (writerOf env t).projector.usable with
  | error error => rfl
  | ok usable =>
    have hskips : ∀ record, skips env g t.nodeLabel (usableMessages messages usable) record =
        skips env g' t.nodeLabel (usableMessages messages usable) record :=
      skips_congr (fun r hr => hrecords r (Names.mem_usableMessages hr))
        fun r hr => h r (Names.mem_usableMessages hr)
    simp only [hskips]

theorem Transaction.singleRows_congr (hrecord : IsRecord t record)
    (h : SameHashes (.single t record) g g') :
    singleRows env g t record = singleRows env g' t record := by
  obtain ⟨s, hs, -⟩ := hrecord.get_id
  have hhash := h record (List.mem_singleton.mpr rfl) _ (recordNode?_text t.nodeLabel hs)
  have hstored : isStored g t.nodeLabel record = isStored g' t.nodeLabel record := by
    unfold isStored
    simp only [hs]
    cases record.get "sha256" with
    | error error => rfl
    | ok sha256 => exact congrArg (fun x : PyValue => x.pyEq sha256) hhash
  rw [singleRows, singleRows, hstored]

/-- **What a transaction writes depends on the hashes of its records only.** -/
theorem Transaction.rows_congr {x : Transaction}
    (hrecords : ∀ record ∈ x.records, IsRecord x.queue record) (h : SameHashes x g g') :
    x.rows env g = x.rows env g' := by
  cases x with
  | batch t messages => exact batchRows_congr hrecords h
  | single t record => exact singleRows_congr (hrecords record (List.mem_singleton.mpr rfl)) h

end Rows

/-! ### The rows of a transaction -/

/-- The stages of a type of record. -/
def stagesOf : (t : DataType) → Staged (RowOf t)
  | .artists => artistStages
  | .labels => labelStages
  | .masters => masterStages
  | .releases => releaseStages

section OwnRows

variable {env : Env} {g : Graph} {t : DataType} {record : PyValue}

theorem own_of_oneRow {r : RowOf t} (h : oneRow env t record = .ok r) :
    recordNode? t.nodeLabel record = some ((stagesOf t).own r) := by
  have hnode : ∀ (nodeLabel : Label) {key : PyValue},
      (∃ id, record.item "id" = .ok id ∧ nodeKey id = .ok key) →
      recordNode? nodeLabel record = some ⟨nodeLabel, key⟩ := by
    rintro nodeLabel key ⟨id, hid, hkey⟩
    simp only [recordNode?, get_of_item hid, idNode?, hkey]
  cases t with
  | artists =>
    have hrow : ∀ r : ArtistRow, artistRecord env record = .ok r → recordNode? .artist record = some ⟨.artist, r.id⟩ := by
      intro r h
      simp only [artistRecord, bind_eq_ok, pure_eq_ok] at h
      exact hnode .artist (by grind)
    exact hrow r h
  | labels =>
    have hrow : ∀ r : LabelRow, labelRecord record = .ok r → recordNode? .label record = some ⟨.label, r.id⟩ := by
      intro r h
      simp only [labelRecord, bind_eq_ok, pure_eq_ok] at h
      exact hnode .label (by grind)
    exact hrow r h
  | masters =>
    have hrow : ∀ r : MasterRow, masterRecord record = .ok r → recordNode? .master record = some ⟨.master, r.id⟩ := by
      intro r h
      simp only [masterRecord, bind_eq_ok, pure_eq_ok] at h
      exact hnode .master (by grind)
    exact hrow r h
  | releases =>
    have hrow : ∀ r : ReleaseRow, releaseRecord env record = .ok r → recordNode? .release record = some ⟨.release, r.id⟩ := by
      intro r h
      simp only [releaseRecord, bind_eq_ok, pure_eq_ok] at h
      exact hnode .release (by grind)
    exact hrow r h

/-- The node of a row is that of its record. -/
theorem RowFor.own {r : RowOf t} (h : RowFor env t record r) :
    recordNode? t.nodeLabel record = some ((stagesOf t).own r) := by
  rcases h with h | h
  · have hnode := NodeWriter.recordNode?_eq h
    rw [projector_label] at hnode
    cases t <;> exact hnode
  · exact own_of_oneRow h

/-- Every row of a transaction is the row of one of its records. -/
theorem Transaction.rowFor_of_mem {x : Transaction} {r : RowOf x.queue} (h : r ∈ x.rows env g) :
    ∃ record ∈ x.records, RowFor env x.queue record r := by
  have hmapM : ∀ {t : DataType} {f : PyValue → Except PyError (RowOf t)} {records : List PyValue}
      {r : RowOf t}, r ∈ (records.mapM f).toOption.getD [] → ∃ record ∈ records, f record = .ok r := by
    intro t f records r hr
    cases hrows : records.mapM f with
    | error error =>
      rw [hrows] at hr
      exact absurd hr List.not_mem_nil
    | ok rows =>
      rw [hrows] at hr
      exact exists_left_of_mem (mapM_eq_ok.mp hrows) hr
  cases x with
  | batch t messages =>
    change r ∈ batchRows env g t messages at h
    unfold batchRows at h
    cases husable : messages.mapM (writerOf env t).projector.usable with
    | error error =>
      rw [husable] at h
      exact absurd h List.not_mem_nil
    | ok usable =>
      rw [husable] at h
      obtain ⟨record, hrecord, hrow⟩ := hmapM h
      exact ⟨record, Names.mem_usableMessages (List.mem_filter.mp hrecord).1, Or.inl hrow⟩
  | single t record =>
    change r ∈ singleRows env g t record at h
    unfold singleRows at h
    split_ifs at h
    · exact absurd h List.not_mem_nil
    · obtain ⟨record', hrecord, hrow⟩ := hmapM h
      exact ⟨record', hrecord, Or.inr hrow⟩

end OwnRows

end Graphinator
