import Graphinator.Lib.PyInt
import Graphinator.NameOwnership

/-!
# The stub-name backfill

`stub_name_backfill` reads a file of one JSON object a line, collects the rows of a batch by kind,
and flushes the batch: one transaction for each kind, and then the number of lines done into a
checkpoint file. The next run skips that many lines.

What a run does to the database and to the checkpoint file does not depend on either of them, so it
is a list of effects, and a run that is stopped has done the first few of them. The count of nodes
filled, which is only reported, is left out.

## Main definitions

* `parseTextLine` : `parse_line`, of the text of a line.
* `Backfill.readCheckpoint`, `Backfill.checkpointText` : the checkpoint file.
* `Backfill.Progress`, `Backfill.readLine`, `Backfill.backfill` : a run of the backfill.
* `Backfill.World`, `Backfill.stopped`, `Backfill.completed` : runs, stopped and completed.

## Main results

* `Backfill.no_line_aborts` : which lines abort a run.
* `Backfill.backfill_crash_safe` : stopped runs and a completed one leave what one run leaves.
-/

namespace Graphinator

open PropertyGraph PyValue

/-- `parse_line`. `orjson.loads` of a text is given, `none` where it raises `JSONDecodeError`. -/
def parseTextLine (env : Env) (loads : String → Option PyValue) (line : String) :
    Except PyError (Option (Label × BackfillRow)) :=
  let line := strip line
  if line = "" then .ok none
  else match loads line with
    | none => .ok none
    | some data => parseLine env data

namespace Backfill

/-- `read_checkpoint`, of the text of the file, if there is one. -/
def readCheckpoint (env : Env) : Option String → ℕ
  | none => 0
  | some file =>
    if strip file = "" then 0
    else match pyInt env.decimal (strip file) with
      | some n => n.toNat
      | none => 0

/-- What a run does outside of itself. -/
inductive Effect
  | fill (kind : Label) (rows : List BackfillRow)
  | checkpoint (linesDone : ℕ)

/-- The variables of a run. -/
structure Progress where
  position : ℕ := 0
  /-- The totals. -/
  lines : ℕ := 0
  skipped : ℕ := 0
  /-- The batch, by kind. -/
  labels : List BackfillRow := []
  artists : List BackfillRow := []
  pendingLines : ℕ := 0
  /-- What the run has done. -/
  effects : List Effect := []

/-- The arguments of a run. -/
structure Options where
  batchSize : ℕ
  dryRun : Bool := false

/-- The transaction of a kind, where the batch has rows of it. -/
def fillEffect (kind : Label) (rows : List BackfillRow) : List Effect :=
  if rows = [] then [] else [.fill kind rows]

/-- `flush`. -/
def flush (options : Options) (s : Progress) : Progress :=
  { s with
    labels := []
    artists := []
    pendingLines := 0
    effects := s.effects ++ if options.dryRun then [] else
      fillEffect .label s.labels ++ fillEffect .artist s.artists ++ [.checkpoint s.position] }

/-- `batch[kind].append(row)`. -/
def append (kind : Label) (row : BackfillRow) (s : Progress) : Progress :=
  if kind = .label then { s with labels := s.labels ++ [row], pendingLines := s.pendingLines + 1 }
  else { s with artists := s.artists ++ [row], pendingLines := s.pendingLines + 1 }

section Run

variable (env : Env) (loads : String → Option PyValue) (options : Options) (start : ℕ)

/-- One line of the loop. -/
def readLine (s : Progress) (line : String) : Except PyError Progress := do
  let s := { s with position := s.position + 1 }
  if s.position ≤ start then
    return s
  let s := { s with lines := s.lines + 1 }
  match ← parseTextLine env loads line with
  | none => return { s with skipped := s.skipped + 1 }
  | some (kind, row) =>
    let s := append kind row s
    return if s.pendingLines ≥ options.batchSize then flush options s else s

/-- The loop: how far it gets, and what it raises. -/
def readLines : List String → Progress → Progress × Option PyError
  | [], s => (s, none)
  | line :: lines, s => match readLine env loads options start s line with
    | .ok s => readLines lines s
    | .error error => (s, some error)

/-- `backfill`, from the number of lines that the checkpoint says are done. -/
def backfill (lines : List String) : Progress × Option PyError :=
  match readLines env loads options start lines {} with
  | (s, some error) => (s, some error)
  | (s, none) =>
    (if s.pendingLines ≠ 0 ∨ s.position > start then flush options s else s, none)

end Run

/-! ### Lines -/

section Lines

variable (env : Env) (loads : String → Option PyValue)

/-- The line is a JSON object that names a node of a kind and its name. -/
def GivesRow (line : String) (kind : Label) (row : BackfillRow) : Prop :=
  ∃ fields kindName name id, strip line ≠ "" ∧ loads (strip line) = some (.obj fields) ∧
    field? fields "kind" = some (.str kindName) ∧
    (kindName = "Label" ∧ kind = .label ∨ kindName = "Artist" ∧ kind = .artist) ∧
    field? fields "name" = some (.str name) ∧ strip name ≠ "" ∧
    field? fields "id" = some id ∧ id ≠ .null ∧ (∀ b, id ≠ .bool b) ∧
    row = { id := id.pyStr env.repr, name := strip name }

/-- The line is a JSON object whose kind is an array or an object. -/
def KindUnhashable (line : String) : Prop :=
  ∃ fields kind, strip line ≠ "" ∧ loads (strip line) = some (.obj fields) ∧
    field? fields "kind" = some kind ∧ ((∃ xs, kind = .arr xs) ∨ ∃ kvs, kind = .obj kvs)

/-- The row of a line, if it gives one. -/
def lineRow (line : String) : Option (Label × BackfillRow) :=
  match parseTextLine env loads line with
  | .ok parsed => parsed
  | .error _ => none

/-- The rows of a file. -/
def fileRows (lines : List String) : List (Label × BackfillRow) :=
  lines.filterMap (lineRow env loads)

variable {env loads} {line : String} {kind : Label} {row : BackfillRow}

theorem get_obj (fields : List (String × PyValue)) (key : String) :
    (PyValue.obj fields).get key = .ok ((field? fields key).getD .null) := rfl

theorem parseTextLine_of_blank (h : strip line = "") : parseTextLine env loads line = .ok none :=
  if_pos h

theorem parseTextLine_of_loads {data : PyValue} (hline : strip line ≠ "")
    (h : loads (strip line) = some data) : parseTextLine env loads line = parseLine env data := by
  simp only [parseTextLine, if_neg hline, h]

/-- The kinds of the backfill. -/
theorem backfillKind_eq_some {value : PyValue} :
    backfillKind value = .ok (some kind) ↔ ∃ kindName, value = .str kindName ∧
      (kindName = "Label" ∧ kind = .label ∨ kindName = "Artist" ∧ kind = .artist) := by
  unfold backfillKind
  split
  · simp [eq_comm]
  · simp [eq_comm]
  · simp
  · simp
  · next hlabel hartist _ _ =>
    simp only [Except.ok.injEq, reduceCtorEq, false_iff, not_exists, not_and]
    rintro kindName rfl (⟨rfl, -⟩ | ⟨rfl, -⟩)
    · exact hlabel rfl
    · exact hartist rfl

theorem backfillKind_eq_error {value : PyValue} {error : PyError} :
    backfillKind value = .error error ↔
      error = .typeError ∧ ((∃ xs, value = .arr xs) ∨ ∃ kvs, value = .obj kvs) := by
  unfold backfillKind
  split
  · simp
  · simp
  · simp [eq_comm]
  · simp [eq_comm]
  · next harr hobj =>
    simp only [reduceCtorEq, false_iff, not_and, not_or, not_exists]
    exact fun _ => ⟨harr, hobj⟩

/-- What the fields of an object give, once its kind has been looked up. -/
def rowOfFields (env : Env) (fields : List (String × PyValue)) (kind : Label) :
    Option (Label × BackfillRow) :=
  match text ((field? fields "name").getD .null), (field? fields "id").getD .null with
  | none, _ | _, .null | _, .bool _ => none
  | some name, id => some (kind, { id := id.pyStr env.repr, name })

theorem parseLine_obj (fields : List (String × PyValue)) : parseLine env (.obj fields) =
    (backfillKind ((field? fields "kind").getD .null)).map fun kind =>
      kind.bind (rowOfFields env fields) := by
  simp only [parseLine, isDict, Bool.not_true, Bool.false_eq_true, if_false, get_obj, referenceName,
    bind, Except.bind, pure, Except.pure]
  rcases backfillKind ((field? fields "kind").getD .null) with error | kind?
  · rfl
  · cases kind? with
    | none => rfl
    | some kind =>
      simp only [Except.map, Option.bind, rowOfFields]
      generalize text ((field? fields "name").getD .null) = name
      generalize (field? fields "id").getD .null = id
      cases name <;> cases id <;> rfl

/-- A field that is not null is there. -/
theorem field?_eq_some {fields : List (String × PyValue)} {key : String} {x : PyValue}
    (hx : x ≠ .null) : (field? fields key).getD .null = x ↔ field? fields key = some x := by
  cases field? fields key with
  | none => simp [hx.symm]
  | some y => simp

theorem text_eq_some {value : PyValue} {s : String} :
    text value = some s ↔ ∃ raw, value = .str raw ∧ strip raw ≠ "" ∧ s = strip raw := by
  cases value with
  | str raw =>
    simp only [text, PyValue.str.injEq, exists_eq_left']
    split_ifs with hblank
    · simp only [false_iff]
      exact fun h => h.1 hblank
    · rw [Option.some.injEq]
      exact ⟨fun h => ⟨hblank, h.symm⟩, fun h => h.2.symm⟩
  | _ => simp [text]

theorem rowOfFields_eq_some {fields : List (String × PyValue)} {kind' : Label} :
    rowOfFields env fields kind' = some (kind, row) ↔ kind' = kind ∧ ∃ name id,
      field? fields "name" = some (.str name) ∧ strip name ≠ "" ∧
      field? fields "id" = some id ∧ id ≠ .null ∧ (∀ b, id ≠ .bool b) ∧
      row = { id := id.pyStr env.repr, name := strip name } := by
  constructor
  · intro h
    unfold rowOfFields at h
    split at h
    · cases h
    · cases h
    · cases h
    · next name hname hnull hbool =>
      obtain ⟨raw, hraw, hblank, rfl⟩ := text_eq_some.mp hname
      cases h
      have hraw' := (field?_eq_some (x := .str raw) (by rintro ⟨⟩)).mp hraw
      exact ⟨rfl, raw, _, hraw', hblank, (field?_eq_some hnull).mp rfl, hnull, hbool, rfl⟩
  · rintro ⟨rfl, raw, id, hname, hblank, hid, hnull, hbool, rfl⟩
    have htext : text (.str raw) = some (strip raw) := text_eq_some.mpr ⟨raw, rfl, hblank, rfl⟩
    simp only [rowOfFields, hname, hid, Option.getD_some, htext]

/-- **Which line gives which row.** -/
theorem parseTextLine_eq_row :
    parseTextLine env loads line = .ok (some (kind, row)) ↔ GivesRow env loads line kind row := by
  by_cases hline : strip line = ""
  · rw [parseTextLine_of_blank hline]
    simp [GivesRow, hline]
  · cases hloads : loads (strip line) with
    | none => simp [parseTextLine, GivesRow, hline, hloads]
    | some data =>
      rw [parseTextLine_of_loads hline hloads]
      cases data with
      | obj fields =>
        rw [parseLine_obj]
        constructor
        · intro h
          rcases hkind : backfillKind ((field? fields "kind").getD .null) with error | kind?
          · rw [hkind] at h
            cases h
          · rw [hkind] at h
            obtain ⟨kind', rfl, hrow⟩ := Option.bind_eq_some_iff.mp (Except.ok.inj h)
            obtain ⟨rfl, name, id, hname, hblank, hid, hnull, hbool, rfl⟩ :=
              rowOfFields_eq_some.mp hrow
            obtain ⟨kindName, hvalue, hnames⟩ := backfillKind_eq_some.mp hkind
            have hfield := (field?_eq_some (x := .str kindName) (by rintro ⟨⟩)).mp hvalue
            exact ⟨fields, kindName, name, id, hline, hloads, hfield, hnames, hname, hblank, hid,
              hnull, hbool, rfl⟩
        · rintro ⟨fields', kindName, name, id, -, hloads', hkind, hnames, hrow⟩
          obtain rfl : fields = fields' := by
            rw [hloads] at hloads'
            exact PyValue.obj.inj (Option.some.inj hloads')
          rw [hkind, Option.getD_some, backfillKind_eq_some.mpr ⟨kindName, rfl, hnames⟩]
          exact congrArg Except.ok (rowOfFields_eq_some.mpr ⟨rfl, name, id, hrow⟩)
      | _ => simp [parseLine, isDict, GivesRow, hloads, pure, Except.pure]

/-- **Which line raises.** -/
theorem parseTextLine_eq_error {error : PyError} :
    parseTextLine env loads line = .error error ↔
      error = .typeError ∧ KindUnhashable loads line := by
  by_cases hline : strip line = ""
  · rw [parseTextLine_of_blank hline]
    simp [KindUnhashable, hline]
  · cases hloads : loads (strip line) with
    | none => simp [parseTextLine, KindUnhashable, hline, hloads]
    | some data =>
      rw [parseTextLine_of_loads hline hloads]
      cases data with
      | obj fields =>
        have hmap : (backfillKind ((field? fields "kind").getD .null)).map (fun kind =>
            kind.bind (rowOfFields env fields)) = .error error ↔
            backfillKind ((field? fields "kind").getD .null) = .error error := by
          rcases backfillKind ((field? fields "kind").getD .null) with error' | kind? <;>
            simp [Except.map]
        rw [parseLine_obj, hmap, backfillKind_eq_error]
        refine and_congr_right fun _ => ⟨fun h => ?_, ?_⟩
        · have hne : (field? fields "kind").getD .null ≠ .null := by
            rcases h with ⟨xs, h⟩ | ⟨kvs, h⟩ <;> rw [h] <;> rintro ⟨⟩
          exact ⟨fields, _, hline, hloads, (field?_eq_some hne).mp rfl, h⟩
        · rintro ⟨fields', kind, -, hloads', hkind, h⟩
          obtain rfl : fields = fields' := by
            rw [hloads] at hloads'
            exact PyValue.obj.inj (Option.some.inj hloads')
          rw [hkind]
          exact h
      | _ => simp [parseLine, isDict, KindUnhashable, hloads, pure, Except.pure]

/-- A line that gives no row is skipped, if it does not raise. -/
theorem parseTextLine_eq_none (hkind : ¬KindUnhashable loads line)
    (hrow : ∀ kind row, ¬GivesRow env loads line kind row) :
    parseTextLine env loads line = .ok none := by
  rcases hparse : parseTextLine env loads line with error | parsed
  · exact absurd (parseTextLine_eq_error.mp hparse).2 hkind
  · rcases parsed with _ | ⟨kind, row⟩
    · rfl
    · exact absurd (parseTextLine_eq_row.mp hparse) (hrow kind row)

end Lines

/-! ### The loop -/

/-- The rows that a list of effects fills in. -/
def effectRows (effects : List Effect) : List (Label × BackfillRow) :=
  effects.flatMap fun
    | .fill kind rows => rows.map fun row => (kind, row)
    | .checkpoint _ => []

/-- The rows of the batch. -/
def Progress.batch (s : Progress) : List (Label × BackfillRow) :=
  (s.labels.map fun row => (.label, row)) ++ s.artists.map fun row => (.artist, row)

/-- The rows that a run has put into its batches. -/
def Progress.batched (s : Progress) : List (Label × BackfillRow) := effectRows s.effects ++ s.batch

section Loop

variable {env : Env} {loads : String → Option PyValue} {options : Options} {start : ℕ}
  {done lines : List String} {line : String} {s s' : Progress}

@[simp] theorem effectRows_append (effects effects' : List Effect) :
    effectRows (effects ++ effects') = effectRows effects ++ effectRows effects' :=
  List.flatMap_append

@[simp] theorem effectRows_fillEffect (kind : Label) (rows : List BackfillRow) :
    effectRows (fillEffect kind rows) = rows.map fun row => (kind, row) := by
  unfold fillEffect
  split_ifs with h
  · simp [h, effectRows]
  · simp [effectRows]

@[simp] theorem effectRows_checkpoint (n : ℕ) : effectRows [.checkpoint n] = [] := rfl

/-- A checkpoint covers the lines it counts: their rows are filled in before it. -/
def Covers (env : Env) (loads : String → Option PyValue) (start : ℕ) (lines : List String)
    (effects : List Effect) : Prop :=
  ∀ before n after, effects = before ++ .checkpoint n :: after → n ≤ lines.length ∧
    ∀ row ∈ fileRows env loads ((lines.take n).drop start), row ∈ effectRows before

/-- What the variables of a run say about the lines it has seen. -/
structure ReadTo (env : Env) (loads : String → Option PyValue) (start : ℕ) (done : List String)
    (s : Progress) : Prop where
  position : s.position = done.length
  lines : s.lines = (done.drop start).length
  counts : s.lines = (fileRows env loads (done.drop start)).length + s.skipped
  pending : s.pendingLines = s.batch.length

/-- What a run that writes has done about the lines it has seen. -/
structure Done (env : Env) (loads : String → Option PyValue) (start : ℕ) (done : List String)
    (s : Progress) : Prop where
  batched : s.batched.Perm (fileRows env loads (done.drop start))
  covers : Covers env loads start done s.effects

/-- A line past the start is one more line of the run. -/
theorem drop_append_singleton (h : start ≤ done.length) :
    (done ++ [line]).drop start = done.drop start ++ [line] := by
  rw [List.drop_append_of_le_length h]

theorem fileRows_append (lines lines' : List String) :
    fileRows env loads (lines ++ lines') = fileRows env loads lines ++ fileRows env loads lines' :=
  List.filterMap_append

theorem fileRows_singleton_of_none (h : parseTextLine env loads line = .ok none) :
    fileRows env loads [line] = [] := by
  simp [fileRows, lineRow, h]

theorem fileRows_singleton_of_some {row : Label × BackfillRow}
    (h : parseTextLine env loads line = .ok (some row)) : fileRows env loads [line] = [row] := by
  simp [fileRows, lineRow, h]

theorem batch_append (kind : Label) (row : BackfillRow) (hkind : kind = .label ∨ kind = .artist) :
    (append kind row s).batch.Perm (s.batch ++ [(kind, row)]) := by
  unfold append Progress.batch
  rcases hkind with rfl | rfl
  · simp only [if_true, List.map_append, List.map_cons, List.map_nil, List.append_assoc]
    exact List.perm_append_comm.append_left _
  · simp [List.append_assoc]

/-- The variables after a line with a row, before a flush. -/
def withRow (s : Progress) (kind : Label) (row : BackfillRow) : Progress :=
  append kind row { s with position := s.position + 1, lines := s.lines + 1 }

/-- What one line of the loop does. -/
theorem readLine_eq_ok (h : readLine env loads options start s line = .ok s') :
    (s.position + 1 ≤ start ∧ s' = { s with position := s.position + 1 }) ∨
    (start ≤ s.position ∧ parseTextLine env loads line = .ok none ∧
      s' = { s with
        position := s.position + 1, lines := s.lines + 1, skipped := s.skipped + 1 }) ∨
    (start ≤ s.position ∧ ∃ kind row, parseTextLine env loads line = .ok (some (kind, row)) ∧
      (s' = withRow s kind row ∨ s' = flush options (withRow s kind row))) := by
  simp only [readLine] at h
  split_ifs at h with hstart
  · cases h
    exact Or.inl ⟨hstart, rfl⟩
  · have hle : start ≤ s.position := by omega
    rcases hparse : parseTextLine env loads line with error | parsed
    · simp [hparse, bind, Except.bind] at h
    · rcases parsed with _ | ⟨kind, row⟩
      · simp only [hparse, bind, Except.bind] at h
        cases h
        exact Or.inr (Or.inl ⟨hle, rfl, rfl⟩)
      · simp only [hparse, bind, Except.bind, pure, Except.pure, Except.ok.injEq] at h
        refine Or.inr (Or.inr ⟨hle, kind, row, rfl, ?_⟩)
        split_ifs at h
        · exact Or.inr h.symm
        · exact Or.inl h.symm

/-- A line raises where its text does. -/
theorem readLine_eq_error {error : PyError} :
    readLine env loads options start s line = .error error ↔
      start ≤ s.position ∧ parseTextLine env loads line = .error error := by
  simp only [readLine]
  split_ifs with hstart
  · simp only [pure, Except.pure, reduceCtorEq, false_iff, not_and]
    omega
  · have hle : start ≤ s.position := by omega
    rcases parseTextLine env loads line with error' | parsed
    · simp [bind, Except.bind, hle]
    · rcases parsed with _ | ⟨kind, row⟩ <;> simp [bind, Except.bind, pure, Except.pure]

theorem kind_of_row {kind : Label} {row : BackfillRow}
    (h : parseTextLine env loads line = .ok (some (kind, row))) :
    kind = .label ∨ kind = .artist := by
  obtain ⟨_, _, _, _, _, _, _, hnames, _⟩ := parseTextLine_eq_row.mp h
  exact hnames.imp And.right And.right

section append

variable (kind : Label) (row : BackfillRow)

@[simp] theorem position_append : (append kind row s).position = s.position := by
  unfold append
  split_ifs <;> rfl

@[simp] theorem lines_append : (append kind row s).lines = s.lines := by
  unfold append
  split_ifs <;> rfl

@[simp] theorem skipped_append : (append kind row s).skipped = s.skipped := by
  unfold append
  split_ifs <;> rfl

@[simp] theorem pendingLines_append : (append kind row s).pendingLines = s.pendingLines + 1 := by
  unfold append
  split_ifs <;> rfl

@[simp] theorem effects_append : (append kind row s).effects = s.effects := by
  unfold append
  split_ifs <;> rfl

theorem length_batch_append : (append kind row s).batch.length = s.batch.length + 1 := by
  unfold append Progress.batch
  split_ifs <;> simp <;> omega

end append

@[simp] theorem batch_flush : (flush options s).batch = [] := rfl

/-- A flush moves the batch into the effects. -/
theorem batched_flush (hdry : options.dryRun = false) : (flush options s).batched = s.batched := by
  simp [Progress.batched, flush, hdry, Progress.batch]

/-- A flush keeps what the variables say. -/
theorem ReadTo.flush (h : ReadTo env loads start done s) :
    ReadTo env loads start done (flush options s) :=
  ⟨h.position, h.lines, h.counts, rfl⟩

/-- A row keeps what the variables say. -/
theorem ReadTo.withRow {kind : Label} {row : BackfillRow} (h : ReadTo env loads start done s)
    (hle : start ≤ s.position) (hparse : parseTextLine env loads line = .ok (some (kind, row))) :
    ReadTo env loads start (done ++ [line]) (withRow s kind row) := by
  have hposition := h.position
  have hlines := h.lines
  have hcounts := h.counts
  have hdrop : (done ++ [line]).drop start = done.drop start ++ [line] :=
    drop_append_singleton (by omega)
  refine ⟨?_, ?_, ?_, ?_⟩
  · simp [Backfill.withRow, hposition]
  · simp [Backfill.withRow, hdrop, hlines]
  · rw [hdrop, fileRows_append, fileRows_singleton_of_some hparse, List.length_append,
      List.length_singleton, Backfill.withRow, lines_append, skipped_append]
    dsimp only
    omega
  · rw [Backfill.withRow, pendingLines_append, length_batch_append]
    exact congrArg (· + 1) h.pending

/-- So does one line. -/
theorem ReadTo.step (h : ReadTo env loads start done s)
    (hs : readLine env loads options start s line = .ok s') :
    ReadTo env loads start (done ++ [line]) s' := by
  have hposition := h.position
  have hlines := h.lines
  have hcounts := h.counts
  rcases readLine_eq_ok hs with ⟨hle, rfl⟩ | ⟨hle, hparse, rfl⟩ | ⟨hle, kind, row, hparse, hs'⟩
  · have hnil : ∀ xs : List String, xs.length ≤ done.length + 1 → xs.drop start = [] := by
      intro xs hxs
      rw [List.drop_eq_nil_iff]
      omega
    rw [hnil done (by omega)] at hlines hcounts
    refine ⟨?_, ?_, ?_, h.pending⟩
    · simp [hposition]
    · rw [hnil _ (by simp)]
      exact hlines
    · rw [hnil _ (by simp)]
      exact hcounts
  · have hdrop : (done ++ [line]).drop start = done.drop start ++ [line] :=
      drop_append_singleton (by omega)
    refine ⟨?_, ?_, ?_, h.pending⟩
    · simp [hposition]
    · simp [hdrop, hlines]
    · rw [hdrop, fileRows_append, fileRows_singleton_of_none hparse, List.append_nil]
      dsimp only
      omega
  · rcases hs' with rfl | rfl
    · exact h.withRow hle hparse
    · exact (h.withRow hle hparse).flush

theorem Covers.append_line (h : Covers env loads start done s.effects) :
    Covers env loads start (done ++ [line]) s.effects := by
  intro before n after heq
  obtain ⟨hn, hrows⟩ := h before n after heq
  refine ⟨?_, ?_⟩
  · rw [List.length_append]
    omega
  · rwa [List.take_append_of_le_length hn]

theorem notMem_fillEffect {kind : Label} {rows : List BackfillRow} {n : ℕ} :
    Effect.checkpoint n ∉ fillEffect kind rows := by
  unfold fillEffect
  split_ifs <;> simp

/-- A checkpoint among the effects of a flush is an earlier one or the one of the flush. -/
theorem checkpoint_of_append {effects fills before after : List Effect} {m n : ℕ}
    (hfills : ∀ n, Effect.checkpoint n ∉ fills)
    (h : effects ++ (fills ++ [.checkpoint m]) = before ++ .checkpoint n :: after) :
    (n = m ∧ before = effects ++ fills) ∨
      ∃ after', effects = before ++ .checkpoint n :: after' := by
  rcases List.eq_nil_or_concat after with rfl | ⟨after, x, rfl⟩
  · rw [← List.append_assoc] at h
    obtain ⟨hbefore, hlast⟩ := List.append_inj' h rfl
    cases hlast
    exact Or.inl ⟨rfl, hbefore.symm⟩
  · rw [← List.append_assoc, List.concat_eq_append, ← List.cons_append, ← List.append_assoc] at h
    obtain ⟨h, -⟩ := List.append_inj' h rfl
    rcases List.append_eq_append_iff.mp h with ⟨rest, -, hrest⟩ | ⟨rest, heffects, hrest⟩
    · exact absurd (hrest ▸ List.mem_append_right _ (List.mem_cons_self ..)) (hfills n)
    · cases rest with
      | nil =>
        rw [List.nil_append] at hrest
        exact absurd (hrest ▸ List.mem_cons_self ..) (hfills n)
      | cons e rest =>
        cases hrest
        exact Or.inr ⟨rest, heffects⟩

/-- A flush writes a checkpoint that covers the lines seen. -/
theorem Done.flush (hdry : options.dryRun = false) (hread : ReadTo env loads start done s)
    (h : Done env loads start done s) : Done env loads start done (flush options s) := by
  refine ⟨?_, ?_⟩
  · rw [batched_flush hdry]
    exact h.batched
  · intro before n after heq
    simp only [Backfill.flush, hdry, Bool.false_eq_true, if_false] at heq
    have hfills : ∀ n, Effect.checkpoint n ∉
        fillEffect .label s.labels ++ fillEffect .artist s.artists := fun n hmem =>
      (List.mem_append.mp hmem).elim notMem_fillEffect notMem_fillEffect
    rcases checkpoint_of_append hfills heq with ⟨rfl, rfl⟩ | ⟨after', hafter⟩
    · refine ⟨hread.position.le, fun row hrow => ?_⟩
      rw [hread.position, List.take_length] at hrow
      have hmem := h.batched.mem_iff.mpr hrow
      simpa [Progress.batched, Progress.batch] using hmem
    · exact h.covers before n after' hafter

/-- One line keeps what a run that writes has done. -/
theorem Done.step (hdry : options.dryRun = false) (hread : ReadTo env loads start done s)
    (h : Done env loads start done s) (hs : readLine env loads options start s line = .ok s') :
    Done env loads start (done ++ [line]) s' := by
  have hposition := hread.position
  have hread' := hread.step hs
  rcases readLine_eq_ok hs with ⟨hle, rfl⟩ | ⟨hle, hparse, rfl⟩ | ⟨hle, kind, row, hparse, hs'⟩
  · have hnil : ∀ xs : List String, xs.length ≤ done.length + 1 → xs.drop start = [] := by
      intro xs hxs
      rw [List.drop_eq_nil_iff]
      omega
    have hbatched := h.batched
    rw [hnil done (by omega)] at hbatched
    refine ⟨?_, h.covers.append_line⟩
    rw [hnil _ (by simp)]
    exact hbatched
  · refine ⟨?_, h.covers.append_line⟩
    rw [drop_append_singleton (by omega), fileRows_append, fileRows_singleton_of_none hparse,
      List.append_nil]
    exact h.batched
  · have hrow : Done env loads start (done ++ [line]) (withRow s kind row) := by
      refine ⟨?_, ?_⟩
      · rw [drop_append_singleton (by omega), fileRows_append, fileRows_singleton_of_some hparse]
        unfold withRow Progress.batched
        rw [effects_append]
        refine ((batch_append kind row (kind_of_row hparse)).append_left _).trans ?_
        rw [← List.append_assoc]
        exact h.batched.append_right _
      · unfold withRow
        rw [effects_append]
        exact h.covers.append_line
    rcases hs' with rfl | rfl
    · exact hrow
    · exact hrow.flush hdry (hread.withRow hle hparse)

/-- The loop keeps what the variables say, for the lines it has seen. -/
theorem ReadTo.run (h : ReadTo env loads start done s)
    (hs : readLines env loads options start lines s = (s', none)) :
    ReadTo env loads start (done ++ lines) s' := by
  induction lines generalizing done s with
  | nil =>
    cases hs
    rwa [List.append_nil]
  | cons line lines ih =>
    rw [readLines] at hs
    split at hs
    · next t ht =>
      have hrest := ih (h.step ht) hs
      rwa [List.append_assoc] at hrest
    · cases hs

/-- So does a run that writes. -/
theorem Done.run (hdry : options.dryRun = false) (hread : ReadTo env loads start done s)
    (h : Done env loads start done s)
    (hs : readLines env loads options start lines s = (s', none)) :
    Done env loads start (done ++ lines) s' := by
  induction lines generalizing done s with
  | nil =>
    cases hs
    rwa [List.append_nil]
  | cons line lines ih =>
    rw [readLines] at hs
    split at hs
    · next t ht =>
      have hrest := ih (hread.step ht) (h.step hdry hread ht) hs
      rwa [List.append_assoc] at hrest
    · cases hs

theorem readTo_start : ReadTo env loads start [] {} :=
  ⟨rfl, by simp, by simp [fileRows], rfl⟩

theorem done_start : Done env loads start [] {} :=
  ⟨by simp [Progress.batched, Progress.batch, effectRows, fileRows],
    fun before n after h => absurd h (by simp)⟩

theorem position_readLine (h : readLine env loads options start s line = .ok s') :
    s'.position = s.position + 1 := by
  rcases readLine_eq_ok h with ⟨-, rfl⟩ | ⟨-, -, rfl⟩ | ⟨-, kind, row, -, rfl | rfl⟩
  · rfl
  · rfl
  · simp [withRow]
  · simp [flush, withRow]

/-- **The loop returns where no line past the start raises.** -/
theorem readLines_eq_none : (readLines env loads options start lines s).2 = none ↔
    ∀ line ∈ lines.drop (start - s.position),
      ∃ parsed, parseTextLine env loads line = .ok parsed := by
  induction lines generalizing s with
  | nil => simp [readLines]
  | cons line lines ih =>
    rw [readLines]
    rcases hline : readLine env loads options start s line with error | t
    · obtain ⟨hle, herror⟩ := readLine_eq_error.mp hline
      have hdrop : start - s.position = 0 := by omega
      simp [hdrop, herror]
    · have hposition := position_readLine hline
      simp only [ih]
      by_cases hle : start ≤ s.position
      · have hzero : start - s.position = 0 := by omega
        have hzero' : start - t.position = 0 := by omega
        have hparse : ∃ parsed, parseTextLine env loads line = .ok parsed := by
          rcases hparse : parseTextLine env loads line with error | parsed
          · rw [readLine_eq_error.mpr ⟨hle, hparse⟩] at hline
            cases hline
          · exact ⟨parsed, rfl⟩
        rw [hzero, hzero', List.drop_zero, List.drop_zero, List.forall_mem_cons]
        exact (and_iff_right hparse).symm
      · have hsucc : start - s.position = start - t.position + 1 := by omega
        rw [hsucc, List.drop_succ_cons]

end Loop

/-! ### Which lines abort a run -/

section Abort

variable (env : Env) (loads : String → Option PyValue) (options : Options) (start : ℕ)
  (lines : List String)

/-- Every line that a run reads is turned into its row or counted as skipped, and none makes it
raise. -/
structure NoLineAborts : Prop where
  row : ∀ line ∈ lines.drop start, ∀ kind row,
    parseTextLine env loads line = .ok (some (kind, row)) ↔ GivesRow env loads line kind row
  skip : ∀ line ∈ lines.drop start, (∀ kind row, ¬GivesRow env loads line kind row) →
    parseTextLine env loads line = .ok none
  returns : (backfill env loads options start lines).2 = none
  counts : (backfill env loads options start lines).1.lines = (lines.drop start).length ∧
    (lines.drop start).length = (fileRows env loads (lines.drop start)).length +
      (backfill env loads options start lines).1.skipped

variable {env loads options start lines}

/-- What a run that returns has read. -/
theorem readTo_backfill (h : (backfill env loads options start lines).2 = none) :
    ReadTo env loads start lines (backfill env loads options start lines).1 := by
  unfold backfill at h ⊢
  rcases hlines : readLines env loads options start lines {} with ⟨s, error | error⟩
  · have hread := readTo_start.run hlines
    rw [List.nil_append] at hread
    dsimp only
    split_ifs
    · exact hread.flush
    · exact hread
  · rw [hlines] at h
    cases h

theorem backfill_eq_none : (backfill env loads options start lines).2 = none ↔
    ∀ line ∈ lines.drop start, ∃ parsed, parseTextLine env loads line = .ok parsed := by
  have hloop : (readLines env loads options start lines {}).2 = none ↔ ∀ line ∈ lines.drop start,
      ∃ parsed, parseTextLine env loads line = .ok parsed := readLines_eq_none
  rw [← hloop]
  unfold backfill
  rcases readLines env loads options start lines {} with ⟨s, error | error⟩ <;> simp

variable (env loads options start lines)

/-- **A run is aborted exactly by a line with an object whose kind is an array or an object.** -/
theorem no_line_aborts : NoLineAborts env loads options start lines ↔
    ∀ line ∈ lines.drop start, ¬KindUnhashable loads line := by
  constructor
  · intro h line hline hkind
    obtain ⟨parsed, hparsed⟩ := backfill_eq_none.mp h.returns line hline
    have herror : parseTextLine env loads line = .error .typeError :=
      parseTextLine_eq_error.mpr ⟨rfl, hkind⟩
    rw [hparsed] at herror
    cases herror
  · intro h
    have hreturns : (backfill env loads options start lines).2 = none := by
      refine backfill_eq_none.mpr fun line hline => ?_
      rcases hparse : parseTextLine env loads line with error | parsed
      · exact absurd (parseTextLine_eq_error.mp hparse).2 (h line hline)
      · exact ⟨parsed, rfl⟩
    have hread := readTo_backfill hreturns
    exact ⟨fun line _ kind row => parseTextLine_eq_row,
      fun line hline => parseTextLine_eq_none (h line hline), hreturns, hread.lines,
      hread.lines.symm.trans hread.counts⟩

end Abort

/-- A line whose kind is an array. -/
def arrayKindLine : String := "\x7b\"kind\": []\x7d"

/-- A decoder that knows one line. -/
def arrayKindLoads (line : String) : Option PyValue :=
  if line = arrayKindLine then some (.obj [("kind", .arr [])]) else none

/-- One such line aborts the run. -/
theorem line_aborts_counterexample :
    (backfill plainEnv arrayKindLoads { batchSize := 5000 } 0 [arrayKindLine]).2 =
        some .typeError ∧
      ¬NoLineAborts plainEnv arrayKindLoads { batchSize := 5000 } 0 [arrayKindLine] := by
  have hraises : (backfill plainEnv arrayKindLoads { batchSize := 5000 } 0 [arrayKindLine]).2 =
      some .typeError := by decide
  refine ⟨hraises, fun h => ?_⟩
  have hreturns := h.returns
  rw [hraises] at hreturns
  cases hreturns

/-! ### Filling in names -/

/-- The node of a row of a file. -/
def rowNode (row : Label × BackfillRow) : Node := row.2.node row.1

/-- The graph has the node of the row, without a name. -/
def Nameless (g : Graph) (v : Node) : Prop := v ∈ g.nodes ∧ prop g v "name" = .null

/-- The nodes that rows name got their names where they had none, and nothing else changed. -/
structure FilledBy (rows : Set (Label × BackfillRow)) (g g' : Graph) : Prop where
  mem : ∀ v, v ∈ g'.nodes ↔ v ∈ g.nodes
  edges : g'.edges = g.edges
  named : ∀ row ∈ rows, Nameless g (rowNode row) →
    g'.nodes.row (rowNode row) = Function.update (g.nodes.row (rowNode row)) "name" (.str row.2.name)
  kept : ∀ v, (∀ row ∈ rows, rowNode row = v → ¬Nameless g v) → g'.nodes.row v = g.nodes.row v

section Fill

variable {kind : Label} {rows : List BackfillRow} {v : Node} {g g' t : Graph}
  {A : Set (Label × BackfillRow)}

theorem filledBy_refl (g : Graph) : FilledBy ∅ g g :=
  ⟨fun _ => Iff.rfl, rfl, fun _ h => absurd h (Set.notMem_empty _), fun _ _ => rfl⟩

/-- Rows that name each node once leave one graph. -/
theorem FilledBy.unique (h : FilledBy A g g') (h' : FilledBy A g t) : g' = t := by
  refine ext_cells (fun v => (h.mem v).trans (h'.mem v).symm) (fun v => ?_) (fun e => ?_)
    fun e => ?_
  · by_cases hrow : ∃ row ∈ A, rowNode row = v ∧ Nameless g v
    · obtain ⟨row, hmem, rfl, hnameless⟩ := hrow
      rw [h.named row hmem hnameless, h'.named row hmem hnameless]
    · have hnone : ∀ row ∈ A, rowNode row = v → ¬Nameless g v := fun row hmem heq hnameless =>
        hrow ⟨row, hmem, heq, hnameless⟩
      rw [h.kept v hnone, h'.kept v hnone]
  · rw [h.edges, h'.edges]
  · rw [h.edges, h'.edges]

theorem mem_fillMissingNames : v ∈ (fillMissingNames kind rows t).nodes ↔ v ∈ t.nodes := by
  unfold fillMissingNames
  refine runAll_invariant (I := fun g : Graph => v ∈ g.nodes ↔ v ∈ t.nodes) ?_ Iff.rfl
  exact fun _ _ _ hg => mem_nodes_setNodes.trans hg

theorem edges_fillMissingNames : (fillMissingNames kind rows t).edges = t.edges := by
  unfold fillMissingNames
  refine runAll_invariant (I := fun g : Graph => g.edges = t.edges) ?_ rfl
  exact fun _ _ _ hg => edges_setNodes.trans hg

/-- The rows of a transaction. -/
def kindRows (kind : Label) (rows : List BackfillRow) : Set (Label × BackfillRow) :=
  {row | row.1 = kind ∧ row.2 ∈ rows}

/-- No two rows name one node. -/
def OneRowEach (A : Set (Label × BackfillRow)) : Prop :=
  ∀ row ∈ A, ∀ row' ∈ A, rowNode row = rowNode row' → row = row'

/-- The last of the names of a node, where one row names it. -/
theorem getLast?_names (hone : OneRowEach (kindRows kind rows)) {row : BackfillRow}
    (hrow : row ∈ rows) : (rows.filterMap fun r =>
      if r.node kind = row.node kind then some r.name else none).getLast? = some row.name := by
  have hall : ∀ name ∈ rows.filterMap fun r =>
      if r.node kind = row.node kind then some r.name else none, name = row.name := by
    intro name hname
    obtain ⟨r, hr, hsome⟩ := List.mem_filterMap.mp hname
    split_ifs at hsome with hnode
    have heq := hone (kind, r) ⟨rfl, hr⟩ (kind, row) ⟨rfl, hrow⟩ hnode
    rw [← Option.some.inj hsome, (Prod.mk.inj heq).2]
  have hmem : row.name ∈ rows.filterMap fun r =>
      if r.node kind = row.node kind then some r.name else none :=
    List.mem_filterMap.mpr ⟨row, hrow, if_pos rfl⟩
  rcases hlast : (rows.filterMap fun r =>
      if r.node kind = row.node kind then some r.name else none).getLast? with _ | name
  · rw [List.getLast?_eq_none_iff.mp hlast] at hmem
    exact absurd hmem List.not_mem_nil
  · rw [hlast, hall name (List.mem_of_getLast? hlast)]

/-- A transaction adds its rows to those that are filled in. -/
theorem FilledBy.fill (h : FilledBy A g t) (hone : OneRowEach (A ∪ kindRows kind rows)) :
    FilledBy (A ∪ kindRows kind rows) g (fillMissingNames kind rows t) := by
  refine ⟨fun v => mem_fillMissingNames.trans (h.mem v), edges_fillMissingNames.trans h.edges,
    fun row hrow hnameless => ?_, fun v hnone => ?_⟩
  · by_cases hA : row ∈ A
    · have hrow' := h.named row hA hnameless
      have hname : prop t (rowNode row) "name" ≠ .null := by
        rw [prop, hrow', Function.update_self]
        exact nofun
      rw [row_fillMissingNames, if_neg fun h => hname h.2, hrow']
    · obtain ⟨rfl, hmem⟩ := hrow.resolve_left hA
      have hkept : t.nodes.row (rowNode row) = g.nodes.row (rowNode row) := by
        refine h.kept _ fun row' hrow' hnode => ?_
        exact absurd (hone row' (Or.inl hrow') row hrow hnode ▸ hrow') hA
      have hnameless' : rowNode row ∈ t.nodes ∧ prop t (rowNode row) "name" = .null :=
        ⟨(h.mem _).mpr hnameless.1, (congrFun hkept "name").trans hnameless.2⟩
      have hlast := getLast?_names (fun r hr r' hr' => hone r (Or.inr hr) r' (Or.inr hr')) hmem
      rw [row_fillMissingNames, if_pos hnameless', hkept]
      unfold rowNode
      rw [hlast]
  · have hkept := h.kept v fun row hrow => hnone row (Or.inl hrow)
    rw [row_fillMissingNames, hkept]
    split_ifs with hnameless
    · have hnameless' : Nameless g v :=
        ⟨(h.mem v).mp hnameless.1, (congrFun hkept "name").symm.trans hnameless.2⟩
      have hnil : (rows.filterMap fun r => if r.node kind = v then some r.name else none) = [] := by
        rw [List.filterMap_eq_nil_iff]
        intro r hr
        exact if_neg fun hnode => hnone (kind, r) (Or.inr ⟨rfl, hr⟩) hnode hnameless'
      rw [hnil]
      rfl
    · rfl

end Fill

/-! ### Runs that are stopped -/

/-- The database and the text of the checkpoint file, if there is one. -/
structure World where
  graph : Graph
  file : Option String

/-- What `write_checkpoint` leaves in the file. -/
def checkpointText (linesDone : ℕ) : String := toString linesDone ++ "\n"

/-- What is left of it where the write is cut short: some of the digits. -/
def tornText (linesDone length : ℕ) : String :=
  String.ofList ((toString linesDone).toList.take length)

/-- What an effect does to the database. -/
def Effect.graph : Effect → Graph → Graph
  | .fill kind rows => fillMissingNames kind rows
  | .checkpoint _ => id

/-- What an effect does. -/
def Effect.apply (effect : Effect) (w : World) : World where
  graph := effect.graph w.graph
  file := match effect with
    | .fill .. => w.file
    | .checkpoint n => some (checkpointText n)

/-- A run that is stopped: how many effects it has, and how much of a checkpoint that it was writing
then is in the file. -/
structure Stop where
  batchSize : ℕ
  effects : ℕ
  torn : Option ℕ

section Worlds

variable (env : Env) (loads : String → Option PyValue) (lines : List String)

/-- The effects of a run in a world. -/
def effectsIn (batchSize : ℕ) (w : World) : List Effect :=
  (backfill env loads { batchSize } (readCheckpoint env w.file) lines).1.effects

/-- A run that completes. -/
def completed (batchSize : ℕ) (w : World) : World :=
  runAll Effect.apply (effectsIn env loads lines batchSize w) w

/-- A run that is stopped. -/
def stopped (stop : Stop) (w : World) : World :=
  let effects := effectsIn env loads lines stop.batchSize w
  let w' := runAll Effect.apply (effects.take stop.effects) w
  match stop.torn, effects[stop.effects]? with
  | some length, some (.checkpoint n) => { w' with file := some (tornText n length) }
  | _, _ => w'

/-- A run without a checkpoint file, which starts at the first line. -/
def withoutCheckpoint (batchSize : ℕ) (g : Graph) : Graph :=
  runAll Effect.graph (backfill env loads { batchSize } 0 lines).1.effects g

/-- The rows of a file, as a set. -/
def rowsOf (rows : List (Label × BackfillRow)) : Set (Label × BackfillRow) := {row | row ∈ rows}

/-- Some of the rows of the file are filled in, among them those of the lines that the checkpoint
counts. -/
def Resumable (g : Graph) (done : List (Label × BackfillRow)) (w : World) : Prop :=
  done ⊆ fileRows env loads lines ∧ FilledBy (rowsOf done) g w.graph ∧
    readCheckpoint env w.file ≤ lines.length ∧
    fileRows env loads (lines.take (readCheckpoint env w.file)) ⊆ done

variable {env loads lines} {batchSize : ℕ} {g : Graph} {w : World}
  {done : List (Label × BackfillRow)}

theorem checkpointText_eq (n : ℕ) :
    checkpointText n = String.ofList (Nat.toDigits 10 n ++ ['\n']) := by
  have hnewline : "\n" = String.ofList ['\n'] := by decide
  rw [checkpointText, hnewline, String.ofList_append, Nat.toString_eq_ofList_toDigits]

theorem readCheckpoint_eq (hascii : AsciiDecimal env.decimal) {cs ws : List Char}
    (hne : cs ≠ []) (h : ∀ c ∈ cs, c.isDigit = true) (hws : ∀ c ∈ ws, isSpace c = true) :
    readCheckpoint env (some (String.ofList (cs ++ ws))) = Nat.ofDigitChars 10 cs 0 := by
  have hstrip := strip_append (fun c hc => isSpace_of_isDigit (h c hc)) hws
  have hint : pyInt env.decimal (String.ofList (cs ++ [])) = some (Nat.ofDigitChars 10 cs 0 : ℤ) :=
    pyInt_of_isDigit hascii hne h nofun
  rw [List.append_nil] at hint
  have hblank : String.ofList cs ≠ "" := by simpa using hne
  simp only [readCheckpoint, hstrip, if_neg hblank, hint, Int.toNat_natCast]

/-- A checkpoint is read back. -/
theorem readCheckpoint_checkpointText (hascii : AsciiDecimal env.decimal) (n : ℕ) :
    readCheckpoint env (some (checkpointText n)) = n := by
  have hdigits : ∀ c ∈ Nat.toDigits 10 n, c.isDigit = true := fun c hc =>
    Nat.isDigit_of_mem_toDigits (by omega) le_rfl hc
  have hnewline : ∀ c ∈ ['\n'], isSpace c = true := fun c hc => by
    rw [List.mem_singleton.mp hc]
    rfl
  rw [checkpointText_eq, readCheckpoint_eq hascii Nat.toDigits_ne_nil hdigits hnewline,
    Nat.ofDigitChars_ten_toDigits]

/-- What is read of a checkpoint that was cut short is not more. -/
theorem readCheckpoint_tornText (hascii : AsciiDecimal env.decimal) (n length : ℕ) :
    readCheckpoint env (some (tornText n length)) ≤ n := by
  have htorn : tornText n length = String.ofList ((Nat.toDigits 10 n).take length ++ []) := by
    rw [tornText, Nat.toString_eq_ofList_toDigits, String.toList_ofList, List.append_nil]
  by_cases hnil : (Nat.toDigits 10 n).take length = []
  · have hempty : strip "" = "" := by decide
    simp [readCheckpoint, htorn, hnil, hempty]
  · have hdigits : ∀ c ∈ (Nat.toDigits 10 n).take length, c.isDigit = true := fun c hc =>
      Nat.isDigit_of_mem_toDigits (by omega) le_rfl (List.mem_of_mem_take hc)
    rw [htorn, readCheckpoint_eq hascii hnil hdigits fun c hc => absurd hc List.not_mem_nil]
    exact ofDigitChars_take_le n length

theorem fileRows_take_subset {m n : ℕ} (h : m ≤ n) :
    fileRows env loads (lines.take m) ⊆ fileRows env loads (lines.take n) :=
  ((List.take_prefix_take_left h).sublist.filterMap _).subset

theorem fileRows_drop_subset (n : ℕ) :
    fileRows env loads (lines.drop n) ⊆ fileRows env loads lines :=
  ((List.drop_sublist n lines).filterMap _).subset

/-- The rows of the first lines are those before the start and those past it. -/
theorem fileRows_take_eq (start n : ℕ) : fileRows env loads (lines.take n) =
    fileRows env loads ((lines.take n).take start) ++
      fileRows env loads ((lines.take n).drop start) := by
  rw [← fileRows_append, List.take_append_drop]

/-- A checkpoint that counts no more lines than are covered leaves a world to resume from. -/
theorem Resumable.checkpoint {effects : List Effect} {n : ℕ} {file : String} {t : World}
    (hw : Resumable env loads lines g done w)
    (ht : Resumable env loads lines g (done ++ effectRows effects) t)
    (hn : n ≤ lines.length ∧ ∀ row ∈ fileRows env loads
      ((lines.take n).drop (readCheckpoint env w.file)), row ∈ effectRows effects)
    (hfile : readCheckpoint env (some file) ≤ n) :
    Resumable env loads lines g (done ++ effectRows effects) { t with file := some file } := by
  refine ⟨ht.1, ht.2.1, hfile.trans hn.1, ?_⟩
  refine List.Subset.trans (fileRows_take_subset hfile) ?_
  rw [fileRows_take_eq (readCheckpoint env w.file)]
  refine List.append_subset.mpr ⟨fun row hrow => ?_, fun row hrow => ?_⟩
  · rw [List.take_take] at hrow
    exact List.mem_append_left _ (hw.2.2.2 (fileRows_take_subset (min_le_left ..) hrow))
  · exact List.mem_append_right _ (hn.2 row hrow)

/-- **The first effects of a run leave a world to resume from.** -/
theorem Resumable.effects (hascii : AsciiDecimal env.decimal)
    (hone : OneRowEach (rowsOf (fileRows env loads lines)))
    (hw : Resumable env loads lines g done w) (before rest : List Effect)
    (hrows : effectRows before ⊆ fileRows env loads lines)
    (hcovers : Covers env loads (readCheckpoint env w.file) lines (before ++ rest)) :
    Resumable env loads lines g (done ++ effectRows before) (runAll Effect.apply before w) := by
  induction before using List.reverseRecOn generalizing rest with
  | nil =>
    have hnil : done ++ effectRows [] = done := List.append_nil done
    rw [hnil]
    exact hw
  | append_singleton before effect ih =>
    rw [effectRows_append] at hrows
    obtain ⟨hbefore, hlast⟩ := List.append_subset.mp hrows
    rw [List.append_assoc] at hcovers
    have ht := ih (effect :: rest) hbefore hcovers
    rw [runAll_append, runAll_cons, runAll_nil, effectRows_append, ← List.append_assoc]
    cases effect with
    | fill kind rows =>
      have heffect : effectRows [.fill kind rows] = rows.map fun row => (kind, row) := by
        simp [effectRows]
      rw [heffect] at hlast ⊢
      have hset : rowsOf (done ++ effectRows before ++ rows.map fun row => (kind, row)) =
          rowsOf (done ++ effectRows before) ∪ kindRows kind rows := by
        ext ⟨kind', row⟩
        simp only [rowsOf, kindRows, Set.mem_union, Set.mem_ofPred_eq, List.mem_append,
          List.mem_map, Prod.mk.injEq]
        grind
      have hsubset : done ++ effectRows before ++ (rows.map fun row => (kind, row)) ⊆
          fileRows env loads lines := List.append_subset.mpr ⟨ht.1, hlast⟩
      refine ⟨hsubset, ?_, ht.2.2.1, List.Subset.trans ht.2.2.2 (List.subset_append_left ..)⟩
      rw [hset]
      refine ht.2.1.fill ?_
      rw [← hset]
      exact fun row hrow row' hrow' => hone row (hsubset hrow) row' (hsubset hrow')
    | checkpoint n =>
      have heffect : effectRows [.checkpoint n] = [] := rfl
      rw [heffect, List.append_nil]
      exact hw.checkpoint ht (hcovers before n rest rfl) (readCheckpoint_checkpointText hascii n).le

/-- A run of lines that do not raise returns. -/
theorem backfill_of_clean {options : Options} {start : ℕ}
    (hclean : ∀ line ∈ lines, ∃ parsed, parseTextLine env loads line = .ok parsed) :
    (backfill env loads options start lines).2 = none :=
  backfill_eq_none.mpr fun line hline => hclean line (List.mem_of_mem_drop hline)

/-- What a run that returns has done, once the last batch is flushed. -/
theorem done_backfill {options : Options} {start : ℕ} (hdry : options.dryRun = false)
    (h : (backfill env loads options start lines).2 = none) :
    Done env loads start lines (backfill env loads options start lines).1 ∧
      (backfill env loads options start lines).1.batch = [] := by
  unfold backfill at h ⊢
  rcases hlines : readLines env loads options start lines {} with ⟨s, error | error⟩
  · have hread := readTo_start.run hlines
    have hdone := done_start.run hdry readTo_start hlines
    rw [List.nil_append] at hread hdone
    dsimp only
    split_ifs with hflush
    · exact ⟨hdone.flush hdry hread, rfl⟩
    · refine ⟨hdone, List.length_eq_zero_iff.mp ?_⟩
      rw [← hread.pending]
      by_contra hne
      exact hflush (Or.inl hne)
  · rw [hlines] at h
    cases h

/-- The rows that a completed run fills in are those of the lines past the start. -/
theorem effectRows_effectsIn
    (hclean : ∀ line ∈ lines, ∃ parsed, parseTextLine env loads line = .ok parsed)
    (batchSize : ℕ) (w : World) :
    (effectRows (effectsIn env loads lines batchSize w)).Perm
        (fileRows env loads (lines.drop (readCheckpoint env w.file))) ∧
      Covers env loads (readCheckpoint env w.file) lines
        (effectsIn env loads lines batchSize w) := by
  have hdone : Done env loads (readCheckpoint env w.file) lines
        (backfill env loads { batchSize } (readCheckpoint env w.file) lines).1 ∧
      (backfill env loads { batchSize } (readCheckpoint env w.file) lines).1.batch = [] :=
    done_backfill rfl (backfill_of_clean hclean)
  have hbatched := hdone.1.batched
  rw [Progress.batched, hdone.2, List.append_nil] at hbatched
  exact ⟨hbatched, hdone.1.covers⟩

/-- A run does nothing before it gets past the start. -/
theorem effects_of_position_le {options : Options} {start : ℕ} {s s' : Progress}
    (h : s.position ≤ start → s.effects = [])
    (hs : readLines env loads options start lines s = (s', none)) :
    s'.position ≤ start → s'.effects = [] := by
  induction lines generalizing s with
  | nil =>
    cases hs
    exact h
  | cons line lines ih =>
    rw [readLines] at hs
    split at hs
    · next t ht =>
      refine ih (fun hle => ?_) hs
      have hposition := position_readLine ht
      rcases readLine_eq_ok ht with ⟨-, rfl⟩ | ⟨hlt, -, -⟩ | ⟨hlt, -⟩
      · exact h (by omega)
      · omega
      · omega
    · cases hs

/-- **A completed run leaves the number of lines in the checkpoint.** -/
theorem readCheckpoint_completed (hascii : AsciiDecimal env.decimal)
    (hclean : ∀ line ∈ lines, ∃ parsed, parseTextLine env loads line = .ok parsed)
    (batchSize : ℕ) {w : World} (hw : readCheckpoint env w.file ≤ lines.length) :
    readCheckpoint env (completed env loads lines batchSize w).file = lines.length := by
  have hreturns : (backfill env loads { batchSize } (readCheckpoint env w.file) lines).2 = none :=
    backfill_of_clean hclean
  unfold completed effectsIn
  unfold backfill at hreturns ⊢
  rcases hlines : readLines env loads { batchSize } (readCheckpoint env w.file) lines {} with
    ⟨s, error | error⟩
  · have hread := readTo_start.run hlines
    rw [List.nil_append] at hread
    dsimp only
    split_ifs with hflush
    · simp only [flush, Bool.false_eq_true, if_false]
      rw [← List.append_assoc, runAll_append, runAll_cons, runAll_nil]
      exact (readCheckpoint_checkpointText hascii s.position).trans hread.position
    · have hle : s.position ≤ readCheckpoint env w.file := by
        by_contra hlt
        exact hflush (Or.inr (by omega))
      have hposition := hread.position
      rw [effects_of_position_le (fun _ => rfl) hlines hle, runAll_nil]
      omega
  · rw [hlines] at hreturns
    cases hreturns

/-- A stopped run leaves a world to resume from. -/
theorem Resumable.stopped (hascii : AsciiDecimal env.decimal)
    (hone : OneRowEach (rowsOf (fileRows env loads lines)))
    (hclean : ∀ line ∈ lines, ∃ parsed, parseTextLine env loads line = .ok parsed)
    (hw : Resumable env loads lines g done w) (stop : Stop) :
    ∃ done', Resumable env loads lines g done' (stopped env loads lines stop w) := by
  obtain ⟨hperm, hcovers⟩ := effectRows_effectsIn hclean stop.batchSize w
  unfold Backfill.stopped
  generalize effectsIn env loads lines stop.batchSize w = effects at hperm hcovers ⊢
  have hsplit := List.take_append_drop stop.effects effects
  have hrows : effectRows (effects.take stop.effects) ⊆ fileRows env loads lines := by
    intro row hrow
    have hmem : row ∈ effectRows effects := by
      rw [← hsplit, effectRows_append]
      exact List.mem_append_left _ hrow
    exact fileRows_drop_subset _ (hperm.subset hmem)
  have ht := hw.effects hascii hone _ (effects.drop stop.effects) hrows (hsplit.symm ▸ hcovers)
  refine ⟨done ++ effectRows (effects.take stop.effects), ?_⟩
  dsimp only
  split
  · next length n _ hnext =>
    obtain ⟨hlt, heffect⟩ := List.getElem?_eq_some_iff.mp hnext
    have hcut : effects = effects.take stop.effects ++
        Effect.checkpoint n :: effects.drop (stop.effects + 1) := by
      rw [← heffect, List.getElem_cons_drop, List.take_append_drop]
    exact hw.checkpoint ht (hcovers _ n _ hcut) (readCheckpoint_tornText hascii n length)
  · exact ht

/-- So do several. -/
theorem Resumable.runs (hascii : AsciiDecimal env.decimal)
    (hone : OneRowEach (rowsOf (fileRows env loads lines)))
    (hclean : ∀ line ∈ lines, ∃ parsed, parseTextLine env loads line = .ok parsed)
    (hw : Resumable env loads lines g done w) (stops : List Stop) :
    ∃ done', Resumable env loads lines g done'
      (runAll (Backfill.stopped env loads lines) stops w) := by
  induction stops generalizing done w with
  | nil => exact ⟨done, hw⟩
  | cons stop stops ih =>
    obtain ⟨done', hw'⟩ := hw.stopped hascii hone hclean stop
    exact ih hw'

/-- **A completed run fills in all the rows of the file.** -/
theorem Resumable.completed (hascii : AsciiDecimal env.decimal)
    (hone : OneRowEach (rowsOf (fileRows env loads lines)))
    (hclean : ∀ line ∈ lines, ∃ parsed, parseTextLine env loads line = .ok parsed)
    (hw : Resumable env loads lines g done w) (batchSize : ℕ) :
    FilledBy (rowsOf (fileRows env loads lines)) g
      (completed env loads lines batchSize w).graph := by
  obtain ⟨hperm, hcovers⟩ := effectRows_effectsIn hclean batchSize w
  have hrows : effectRows (effectsIn env loads lines batchSize w) ⊆ fileRows env loads lines :=
    List.Subset.trans hperm.subset (fileRows_drop_subset _)
  have ht := hw.effects hascii hone (effectsIn env loads lines batchSize w) [] hrows
    ((List.append_nil _).symm ▸ hcovers)
  have hset : rowsOf (done ++ effectRows (effectsIn env loads lines batchSize w)) =
      rowsOf (fileRows env loads lines) := by
    ext row
    refine ⟨fun hrow => ht.1 hrow, fun hrow => ?_⟩
    have hsplit : row ∈ fileRows env loads (lines.take (readCheckpoint env w.file)) ++
        fileRows env loads (lines.drop (readCheckpoint env w.file)) := by
      rwa [← fileRows_append, List.take_append_drop]
    rcases List.mem_append.mp hsplit with hrow | hrow
    · exact List.mem_append_left _ (hw.2.2.2 hrow)
    · exact List.mem_append_right _ (hperm.symm.subset hrow)
  rw [← hset]
  exact ht.2.1

theorem graph_apply (effects : List Effect) (w : World) :
    (runAll Effect.apply effects w).graph = runAll Effect.graph effects w.graph := by
  induction effects generalizing w with
  | nil => rfl
  | cons effect effects ih => exact ih (effect.apply w)

/-- A run without a checkpoint file does to the database what one with an empty one does. -/
theorem withoutCheckpoint_eq (batchSize : ℕ) (g : Graph) :
    withoutCheckpoint env loads lines batchSize g =
      (completed env loads lines batchSize ⟨g, none⟩).graph :=
  (graph_apply _ ⟨g, none⟩).symm

theorem resumable_start (g : Graph) : Resumable env loads lines g [] ⟨g, none⟩ := by
  refine ⟨List.nil_subset _, ?_, Nat.zero_le _, ?_⟩
  · have hempty : rowsOf [] = ∅ := by
      ext row
      simp [rowsOf]
    rw [hempty]
    exact filledBy_refl g
  · simp [readCheckpoint, fileRows]

/-- The totals of a run. -/
def Accounted (s : Progress) : Prop := s.lines = s.batched.length + s.skipped

/-- At every line of the loop, the lines read are the rows batched and the lines skipped. -/
theorem accounted_readLines
    (hclean : ∀ line ∈ lines, ∃ parsed, parseTextLine env loads line = .ok parsed)
    (batchSize start n : ℕ) :
    Accounted (readLines env loads { batchSize } start (lines.take n) {}).1 := by
  have hreturns : (readLines env loads { batchSize } start (lines.take n) {}).2 = none :=
    readLines_eq_none.mpr fun line hline =>
      hclean line (List.mem_of_mem_take (List.mem_of_mem_drop hline))
  rcases hlines : readLines env loads { batchSize } start (lines.take n) {} with ⟨s, error⟩
  rw [hlines] at hreturns
  obtain rfl : error = none := hreturns
  have hread := readTo_start.run hlines
  have hdone := done_start.run rfl readTo_start hlines
  exact hread.counts.trans (congrArg (· + s.skipped) hdone.batched.length_eq.symm)

/-- So they are at the end of a run. -/
theorem accounted_backfill
    (hclean : ∀ line ∈ lines, ∃ parsed, parseTextLine env loads line = .ok parsed)
    (batchSize start : ℕ) : Accounted (backfill env loads { batchSize } start lines).1 := by
  have hreturns : (backfill env loads { batchSize } start lines).2 = none :=
    backfill_of_clean hclean
  have hdone : Done env loads start lines (backfill env loads { batchSize } start lines).1 :=
    (done_backfill rfl hreturns).1
  exact (readTo_backfill hreturns).counts.trans
    (congrArg (· + _) hdone.batched.length_eq.symm)

end Worlds

/-- **The backfill is crash-safe.** Runs that are stopped anywhere, with batches of any size, and one
that completes leave the graph that one run without a checkpoint leaves: the nodes that were there
without a name and that a row names got the name of the row, and nothing else changed. The completed
run leaves the number of lines in the checkpoint, and every run accounts for every line it read. -/
theorem backfill_crash_safe (env : Env) (loads : String → Option PyValue)
    (hascii : AsciiDecimal env.decimal) {lines : List String}
    (hclean : ∀ line ∈ lines, ∃ parsed, parseTextLine env loads line = .ok parsed)
    (honce : ((fileRows env loads lines).map rowNode).Nodup) (g : Graph) (stops : List Stop)
    (batchSize : ℕ) :
    let last := completed env loads lines batchSize
      (runAll (stopped env loads lines) stops ⟨g, none⟩)
    (∀ size, last.graph = withoutCheckpoint env loads lines size g) ∧
    FilledBy (rowsOf (fileRows env loads lines)) g last.graph ∧
    readCheckpoint env last.file = lines.length ∧
    (∀ size start n, Accounted (readLines env loads ⟨size, false⟩ start (lines.take n) {}).1) ∧
    ∀ size start, Accounted (backfill env loads ⟨size, false⟩ start lines).1 := by
  have hone : OneRowEach (rowsOf (fileRows env loads lines)) := fun row hrow row' hrow' hnode =>
    List.inj_on_of_nodup_map honce hrow hrow' hnode
  obtain ⟨done, hw⟩ := (resumable_start g).runs hascii hone hclean stops
  have hfilled := hw.completed hascii hone hclean batchSize
  refine ⟨fun size => ?_, hfilled, readCheckpoint_completed hascii hclean batchSize hw.2.2.1,
    fun size start n => accounted_readLines hclean size start n,
    fun size start => accounted_backfill hclean size start⟩
  rw [withoutCheckpoint_eq]
  exact hfilled.unique ((resumable_start g).completed hascii hone hclean size)

/-- A decoder that knows one line. -/
def warpLoads (line : String) : Option PyValue :=
  if line = "warp" then some (Names.warpLine "Warp") else none

/-- A graph with a nameless label. -/
def stubLabel : Graph := (∅ : Graph).mergeNode (.ofLabel (.str "5")) id

/-- A run that is stopped while it writes the checkpoint, of which nothing is in the file. -/
def tornRun : Stop := { batchSize := 1, effects := 1, torn := some 0 }

theorem backfill_crash_safe_torn :
    let last := completed plainEnv warpLoads ["warp\n", "\n"] 5000
      (runAll (stopped plainEnv warpLoads ["warp\n", "\n"]) [tornRun] ⟨stubLabel, none⟩)
    prop last.graph (.ofLabel (.str "5")) "name" = .str "Warp" ∧
      readCheckpoint plainEnv last.file = 2 := by
  have hascii : AsciiDecimal plainEnv.decimal := fun c hc => if_pos hc
  have hclean : ∀ line ∈ ["warp\n", "\n"],
      ∃ parsed, parseTextLine plainEnv warpLoads line = .ok parsed := by
    simp only [List.forall_mem_cons]
    exact ⟨⟨_, rfl⟩, ⟨_, rfl⟩, fun _ h => absurd h List.not_mem_nil⟩
  have hsafe := backfill_crash_safe plainEnv warpLoads hascii hclean (by decide) stubLabel [tornRun]
    5000
  have hrow : ((.label, ⟨"5", "Warp"⟩) : Label × BackfillRow) ∈
      fileRows plainEnv warpLoads ["warp\n", "\n"] := by decide
  have hnameless : Nameless stubLabel (rowNode (.label, ⟨"5", "Warp"⟩)) := ⟨by decide, by decide⟩
  have hname := congrFun (hsafe.2.1.named _ hrow hnameless) "name"
  exact ⟨hname.trans (Function.update_self ..), hsafe.2.2.1⟩

end Backfill

end Graphinator
