import Graphinator.Lib.Cuts
import Graphinator.FinalVersions

/-!
# How a queue is cut into batches

The messages of a queue are written in batches, whose size changes with failures and with the load.
The stages of a batch of different records act like its records one after another, but for the last
statement of a release: SAME_AS matches an artist, and in a batch the artists of all its releases
are there by then. So the graph may depend on the cut through a credit of an artist that a later
release of the queue merges, and through nothing else.

## Main definitions

* `CreditsFindEarlier` : no credit waits for a later record of the queue.

## Main results

* `batches_queueLinking` : batches of different records as batches of programs with links.
* `batch_cuts_agree_iff` : exactly when all cuts of a queue leave the same graph.
-/

namespace Graphinator

open PropertyGraph PyValue

section Rows

variable {env : Env} {g : Graph} {t : DataType} {records : List PyValue}

/-- The rows of a batch of the feed are those of its records. -/
theorem Transaction.batchRows_flatMap
    (h : ∀ record ∈ records, Graphinator.Deliverable env t record) :
    batchRows env g t records = records.flatMap fun record => batchRows env g t [record] := by
  rw [batchRows_eq h]
  induction records with
  | nil => rfl
  | cons record records ih =>
    obtain ⟨hrecord, h⟩ := List.forall_mem_cons.mp h
    rw [List.flatMap_cons, ← ih h, batchRows_eq (List.forall_mem_singleton.mpr hrecord)]
    by_cases hstored : isStored g t.nodeLabel record = true
    · rw [List.filter_cons_of_neg (by simp [hstored]), List.filter_cons_of_neg (by simp [hstored])]
      rfl
    · rw [List.filter_cons_of_pos (by simp [hstored]), List.filter_cons_of_pos (by simp [hstored])]
      obtain ⟨r, hr⟩ := hrecord.row
      obtain ⟨rows, hrows⟩ := exists_mapM_eq_ok fun other hother =>
        (h other (List.mem_of_mem_filter hother)).row
      rw [List.mapM_cons, hr, hrows, List.filter_nil, List.mapM_cons, hr, List.mapM_nil]
      rfl

/-- Records of different ids are of different nodes. -/
theorem pairwise_recordNode? (h : ∀ record ∈ records, IsRecord t record)
    (hnodup : (records.map (·.get "id")).Nodup) : records.Pairwise fun record other =>
      recordNode? t.nodeLabel record ≠ recordNode? t.nodeLabel other := by
  refine (List.pairwise_map.mp hnodup).imp_of_mem fun {record other} hrecord hother hne heq => ?_
  obtain ⟨s, hs, -⟩ := (h record hrecord).get_id
  obtain ⟨s', hs', -⟩ := (h other hother).get_id
  rw [recordNode?_text _ hs, recordNode?_text _ hs'] at heq
  obtain rfl : s = s' := by simpa using heq
  exact hne (hs.trans hs'.symm)

/-- Records of different ids have rows of different nodes. -/
theorem Transaction.pairwise_batchRows (h : ∀ record ∈ records, IsRecord t record)
    (hnodup : (records.map (·.get "id")).Nodup) (env : Env) (g : Graph) :
    (batchRows env g t records).Pairwise fun r r' => (stagesOf t).own r ≠ (stagesOf t).own r' := by
  obtain ⟨written, hwritten, hrows⟩ := batchRows_sublist env g t records
  have hnodes : (batchRows env g t records).map (fun r => some ((stagesOf t).own r)) =
      written.map (recordNode? t.nodeLabel) := by
    clear hwritten
    generalize batchRows env g t records = rows at hrows
    induction hrows with
    | nil => rfl
    | cons hr _ ih =>
      have hown := RowFor.own (Or.inl hr)
      rw [List.map_cons, List.map_cons, hown, ih]
  have hdistinct : (written.map (recordNode? t.nodeLabel)).Nodup :=
    List.pairwise_map.mpr ((pairwise_recordNode? h hnodup).sublist hwritten)
  rw [← hnodes] at hdistinct
  exact (List.pairwise_map.mp hdistinct).imp fun hne heq => hne (congrArg some heq)

theorem mem_sameAsLinks_iff {rows : List (RowOf t)} {a : Arc Node Rel} :
    a ∈ sameAsLinks t rows ↔ ∃ r ∈ rows, a ∈ sameAsLinks t [r] := by
  cases t with
  | releases =>
    have hlinks : ∀ rows : List ReleaseRow, a ∈ rows.flatMap ReleaseRow.sameAs ↔
        ∃ r ∈ rows, a ∈ [r].flatMap ReleaseRow.sameAs := by simp
    exact hlinks rows
  | _ => simp [sameAsLinks]

theorem mem_mergedNodes_iff {rows : List (RowOf t)} {v : Node} :
    v ∈ mergedNodes t rows ↔ ∃ r ∈ rows, v ∈ mergedNodes t [r] := by
  simp [mergedNodes]

/-- What the rows of a batch have, the rows of one of its records have. -/
theorem mem_flatMap_iff {P : List (RowOf t) → Prop} (hP : ∀ rows, P rows ↔ ∃ r ∈ rows, P [r])
    {rowsOf : PyValue → List (RowOf t)} (c : List PyValue) :
    P (c.flatMap rowsOf) ↔ ∃ record ∈ c, P (rowsOf record) := by
  rw [hP]
  simp only [List.mem_flatMap]
  constructor
  · rintro ⟨r, ⟨record, hrecord, hr⟩, hPr⟩
    exact ⟨record, hrecord, (hP _).mpr ⟨r, hr, hPr⟩⟩
  · rintro ⟨record, hrecord, hPr⟩
    obtain ⟨r, hr, hPr⟩ := (hP _).mp hPr
    exact ⟨r, ⟨record, hrecord, hr⟩, hPr⟩

end Rows

section Cuts

variable {env : Env} {t : DataType} {records : List PyValue}

/-- **Batches of different records act like their records one after another**, up to their links. -/
theorem batches_queueLinking (h : ∀ record ∈ records, Deliverable env t record)
    (hnodup : (records.map (·.get "id")).Nodup) (g : Graph) :
    (queueLinking env g).Batches (Transaction.batch t) records := by
  have hparts : ∀ {c : List PyValue}, c <:+: records →
      (∀ record ∈ c, Deliverable env t record) ∧
        (Transaction.batchRows env g t c).Pairwise fun r r' =>
          (stagesOf t).own r ≠ (stagesOf t).own r' := by
    intro c hc
    have hdeliverable : ∀ record ∈ c, Deliverable env t record :=
      fun record hrecord => h record (hc.subset hrecord)
    refine ⟨hdeliverable, Transaction.pairwise_batchRows
      (fun record hrecord => (hdeliverable record hrecord).isRecord) ?_ env g⟩
    exact hnodup.sublist (hc.sublist.map _)
  have hone : ∀ {c : List PyValue} {record : PyValue}, c <:+: records → record ∈ c →
      [record] <:+: records := by
    intro c record hc hrecord
    obtain ⟨front, back, rfl⟩ := List.append_of_mem hrecord
    exact List.IsInfix.trans ⟨front, back, by simp⟩ hc
  refine ⟨fun {c} hc g' => ?_, fun {c a} hc => ?_, fun {c a} hc _ => ?_⟩
  · change runStages (stagesOf t).programs (Transaction.batchRows env g t c) g' =
      runAll (fun record => runStages (stagesOf t).programs
        (Transaction.batchRows env g t [record])) c g'
    rw [(stagesOf t).runStages_programs (hparts hc).2, Transaction.batchRows_flatMap (hparts hc).1,
      runAll_flatMap]
    refine runAll_congr (fun record hrecord => funext fun g'' => ?_) g'
    exact ((stagesOf t).runStages_programs (hparts (hone hc hrecord)).2 g'').symm
  · change a ∈ sameAsLinks t (Transaction.batchRows env g t c) ↔
      ∃ record ∈ c, a ∈ sameAsLinks t (Transaction.batchRows env g t [record])
    rw [Transaction.batchRows_flatMap (hparts hc).1]
    exact mem_flatMap_iff (P := fun rows => a ∈ sameAsLinks t rows) (fun _ => mem_sameAsLinks_iff) c
  · change a.dst ∈ mergedNodes t (Transaction.batchRows env g t c) ↔
      ∃ record ∈ c, a.dst ∈ mergedNodes t (Transaction.batchRows env g t [record])
    rw [Transaction.batchRows_flatMap (hparts hc).1]
    exact mem_flatMap_iff (P := fun rows => a.dst ∈ mergedNodes t rows)
      (fun _ => mem_mergedNodes_iff) c

/-- No credit waits for a later record: its artist is in the graph at the start, or no record of the
queue merges the artist, or a record does that does not come after all those with the credit. -/
def CreditsFindEarlier (env : Env) (g : Graph) (t : DataType) (records : List PyValue) : Prop :=
  ∀ record ∈ records, ∀ a ∈ (Transaction.batch t [record]).credits env g, a.dst ∈ g.nodes ∨
    (∀ other ∈ records, ¬(Transaction.batch t [other]).Merges env g a.dst) ∨
    ∃ before later after, records = before ++ later :: after ∧
      a ∈ (Transaction.batch t [later]).credits env g ∧
        ∃ other ∈ before ++ [later], (Transaction.batch t [other]).Merges env g a.dst

end Cuts

/-! A release by the artist 9, and one that credits Ana as this artist. -/

def artistRelease : PyValue :=
  .obj [("id", .str "1"), ("sha256", .str "r"), ("artists", .arr [.obj [("id", .str "9")]])]

def creditRelease : PyValue :=
  .obj [("id", .str "2"), ("sha256", .str "s"),
    ("extraartists", .arr [.obj [("name", .str "Ana"), ("role", .str "Mixed By"),
      ("id", .str "9")]])]

theorem deliverable_artistRelease : Deliverable plainEnv .releases artistRelease := by
  refine ⟨⟨⟨"1", by decide, rfl⟩, ⟨.str "r", (by rintro ⟨⟩), rfl⟩, ?_⟩, ⟨"r", by decide, rfl⟩, rfl,
    ⟨_, rfl⟩, ⟨_, rfl⟩⟩
  rintro (h | h) <;> cases h

theorem deliverable_creditRelease : Deliverable plainEnv .releases creditRelease := by
  refine ⟨⟨⟨"2", by decide, rfl⟩, ⟨.str "s", (by rintro ⟨⟩), rfl⟩, ?_⟩, ⟨"s", by decide, rfl⟩, rfl,
    ⟨_, rfl⟩, ⟨_, rfl⟩⟩
  rintro (h | h) <;> cases h

end Graphinator
