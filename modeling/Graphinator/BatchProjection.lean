import Graphinator.Projection

/-!
# The batch projection

`Neo4jBatchProjector`: one call writes a batch of messages of one type. It reads the stored hashes
of all of them, drops the messages whose hash is stored, and writes the rest in one transaction,
each statement over the rows of all records before the next statement runs.

Everything a batch computes before and between its statements may raise, and then the transaction
is rolled back. So the rows are computed first here: a batch raises, or it writes them.

## Main definitions

* `artistRow`, `labelRow`, `masterRow`, `releaseRow` : the rows of a record in batch mode.
* `writeArtists`, `writeLabels`, `writeMasters`, `writeReleases` : the transactions.
* `processArtistsBatch` and the rest, `Settlement`, `write`.
-/

namespace Graphinator

open PropertyGraph PyValue

/-! ### Rows -/

/-- `url + '/releases'`. -/
def appendReleases : PyValue → PyValue
  | .str s => .str (s ++ "/releases")
  | .arr xs => .arr (xs ++ [.str "/releases"])
  | value => value

/-- The rows of an artist record. -/
def artistRow (env : Env) (record : PyValue) : Except PyError ArtistRow := do
  let url ← cypherConcat env.floatText "https://api.discogs.com/artists/" (← record.get "id")
  return {
    id := ← nodeKey (← record.get "id")
    name := ← storable (← record.get "name")
    sha256 := ← storable (← record.get "sha256")
    resourceUrl := ← storable url
    releasesUrl := ← storable (appendReleases url)
    members := ← referenceIds (← record.get "members")
    groups := ← referenceIds (← record.get "groups")
    aliases := ← referenceIds (← record.get "aliases") }

/-- The id of the parent of a label, if it names one. -/
def parentLabelId (record : PyValue) : Except PyError (Option PyValue) := do
  let parent ← record.get "parentLabel"
  if parent.truthy then
    if (← parent.get "id").truthy then
      return some (← nodeKey (← parent.get "id"))
  return none

/-- The rows of a label record. -/
def labelRow (record : PyValue) : Except PyError LabelRow := do
  return {
    id := ← nodeKey (← record.get "id")
    name := ← storable (← record.get "name")
    sha256 := ← storable (← record.get "sha256")
    parentLabel := ← parentLabelId record
    sublabels := ← referenceIds (← record.get "sublabels") }

/-- The rows of a master record. -/
def masterRow (record : PyValue) : Except PyError MasterRow := do
  let genres ← truthyNames (← record.get "genres")
  let styles ← truthyNames (← record.get "styles")
  return {
    id := ← nodeKey (← record.get "id")
    title := ← storable (← record.get "title")
    year := ← storable (← record.get "year")
    sha256 := ← storable (← record.get "sha256")
    artists := ← referenceIds (← record.get "artists")
    keepGenres := genres
    keepStyles := styles
    genres
    styles
    pairs := ← genreStylePairs record }

/-- `[f["name"] for f in formats if isinstance(f, dict) and "name" in f]`. -/
def formatNames (record : PyValue) : Except PyError PyValue := do
  let formats ← (← record.getD "formats" (.arr [])).iter
  storable <| .arr <| formats.filterMap fun
    | .obj fields => field? fields "name"
    | _ => none

/-- The metadata bag: the catalogue number of the first label. -/
def releaseMetadata (record : PyValue) : Except PyError (List (String × PyValue)) := do
  match (← record.get "labels").orElse (.arr []) with
  | .arr (.obj fields :: _) =>
    let catno := (field? fields "catno").getD .null
    if catno.truthy then
      return [("catalog_number", ← storable catno)]
    return []
  | _ => return []

/-- The rows of a release record. -/
def releaseRow (env : Env) (record : PyValue) : Except PyError ReleaseRow := do
  let mediaBlock ← resolveMediaBlock env record
  let genres ← truthyNames (← record.get "genres")
  let styles ← truthyNames (← record.get "styles")
  return {
    id := ← nodeKey (← record.get "id")
    title := ← storable (← record.get "title")
    year := ← storable (← record.get "year")
    country := ← releaseCountry record
    formats := ← formatNames record
    mediaFamilies := ← mediaFamilies mediaBlock
    sha256 := ← storable (← record.get "sha256")
    metadata := ← releaseMetadata record
    artists := ← references (← record.get "artists")
    labels := ← references (← record.get "labels")
    masterId := usableMasterId (← record.get "master_id")
    keepGenres := genres
    keepStyles := styles
    genres
    styles
    pairs := ← genreStylePairs record
    mediaRows := ← issuedOnRows env mediaBlock
    companyRows := ← (← resolveCompaniesBlock record).mapM (creditedToRows env)
    creditRows := ← personCreditRows env (← record.get "extraartists") }

/-! ### Transactions -/

/-- `_distinct_values`, `_distinct_pairs`: repeats removed, in first-seen order. The names are
texts; a Python dict would also take `1` and `True` for one key. -/
def distinctValues {α : Type} [DecidableEq α] (values : List α) : List α := values.eraseDups

/-- The transaction of an artists batch. -/
def writeArtists (rows : List ArtistRow) (g : Graph) : Graph :=
  g |> runAll mergeArtist rows |> runAll artistMembers rows |> runAll artistGroups rows
    |> runAll artistAliases rows

/-- The transaction of a labels batch. -/
def writeLabels (rows : List LabelRow) (g : Graph) : Graph :=
  g |> runAll mergeLabel rows |> runAll labelParent rows |> runAll labelSublabels rows

/-- The transaction of a masters batch. -/
def writeMasters (rows : List MasterRow) (g : Graph) : Graph :=
  g |> runAll mergeMaster rows
    |> runAll (fun m => pruneStaleEdges (.master m.id) .BY .artist m.artists) rows
    |> runAll (fun m => pruneStaleEdges (.master m.id) .IS .genre m.keepGenres) rows
    |> runAll (fun m => pruneStaleEdges (.master m.id) .IS .style m.keepStyles) rows
    |> runAll masterBy rows
    |> runAll mergeGenre (distinctValues (rows.flatMap (·.genres)))
    |> runAll (fun m => matchIs (.master m.id) .genre m.genres) rows
    |> runAll mergeStyle (distinctValues (rows.flatMap (·.styles)))
    |> runAll (fun m => matchIs (.master m.id) .style m.styles) rows
    |> runAll mergePartOf (distinctValues (rows.flatMap (·.pairs)))

/-- The transaction of a releases batch, up to its last statement. -/
def writeReleasesCore (rows : List ReleaseRow) (g : Graph) : Graph :=
  g |> runAll mergeRelease rows
    |> runAll pruneReleaseEdges rows
    |> runAll releaseBy rows
    |> runAll releaseOn rows
    |> runAll releaseDerivedFrom rows
    |> runAll mergeGenre (distinctValues (rows.flatMap (·.genres)))
    |> runAll (fun r => matchIs (.release r.id) .genre r.genres) rows
    |> runAll mergeStyle (distinctValues (rows.flatMap (·.styles)))
    |> runAll (fun r => matchIs (.release r.id) .style r.styles) rows
    |> runAll mergePartOf (distinctValues (rows.flatMap (·.pairs)))
    |> runAll pruneIssuedOn rows
    |> runAll mergeMedia rows
    |> runAll pruneCompanies rows
    |> runAll mergeCompanies rows
    |> runAll pruneCreditedOn rows
    |> runAll mergeCredits rows

/-- The transaction of a releases batch. -/
def writeReleases (rows : List ReleaseRow) (g : Graph) : Graph :=
  runAll mergeSameAs rows (writeReleasesCore rows g)

/-! ### Batches -/

/-- The hash the graph stores for an id; null where it has none. -/
def storedHash (g : Graph) (nodeLabel : Label) (id : PyValue) : PyValue :=
  match nodeKey id with
  | .ok key => prop g ⟨nodeLabel, key⟩ "sha256"
  | .error _ => .null

/-- `existing_hashes.get(text)`: the dict is filled in the order of the ids, with the hashes that
are truthy. -/
def existingHash (env : Env) (g : Graph) (nodeLabel : Label) (ids : List PyValue) (text : String) :
    PyValue :=
  match ids.reverse.find? fun id => id.pyStr env.repr = text && (storedHash g nodeLabel id).truthy with
  | some id => storedHash g nodeLabel id
  | none => .null

/-- The messages whose hash is not stored. -/
def changedRecords (env : Env) (g : Graph) (nodeLabel : Label) (records : List PyValue) :
    Except PyError (List PyValue) := do
  let ids ← records.mapM (·.get "id")
  let changed ← records.mapM fun record => do
    let id ← record.item "id"
    let sha256 ← record.get "sha256"
    return if (existingHash env g nodeLabel ids (id.pyStr env.repr)).pyEq sha256 then none
      else some record
  return changed.filterMap id

/-- What a batch does with one type of record. -/
structure Projector (ρ : Type) where
  label : Label
  /-- Whether a record has an id that its type can be written under. -/
  usable : PyValue → Except PyError Bool
  row : PyValue → Except PyError ρ
  write : List ρ → Graph → Graph

/-- `_process_<type>_batch`: the graph it leaves and the indices of the messages to reject. -/
def Projector.process {ρ : Type} (p : Projector ρ) (env : Env) (messages : List PyValue)
    (g : Graph) : Except PyError (Graph × List ℕ) := do
  let usable ← messages.mapM p.usable
  let rejected := (usable.zipIdx.filter fun m => !m.1).map (·.2)
  let records := (messages.zip usable).filterMap fun m => if m.2 then some m.1 else none
  let changed ← changedRecords env g p.label records
  if changed.isEmpty then
    return (g, rejected)
  let rows ← changed.mapM p.row
  return (p.write rows g, rejected)

/-- The messages of a batch that have a usable id. -/
def usableMessages (messages : List PyValue) (usable : List Bool) : List PyValue :=
  (messages.zip usable).filterMap fun m => if m.2 then some m.1 else none

/-- A batch that does not raise writes the rows of the records that it found changed. -/
theorem Projector.process_eq_ok {ρ : Type} {p : Projector ρ} {env : Env} {messages : List PyValue}
    {g g' : Graph} {rejected : List ℕ} (hnil : p.write [] g = g)
    (h : p.process env messages g = .ok (g', rejected)) :
    ∃ usable changed rows, messages.mapM p.usable = .ok usable ∧
      changedRecords env g p.label (usableMessages messages usable) = .ok changed ∧
      changed.mapM p.row = .ok rows ∧ g' = p.write rows g ∧
      rejected = (usable.zipIdx.filter fun m => !m.1).map (·.2) := by
  simp only [Projector.process, bind_eq_ok] at h
  obtain ⟨usable, husable, changed, hchanged, h⟩ := h
  refine ⟨usable, changed, ?_⟩
  split_ifs at h with hempty
  · rw [pure_eq_ok] at h
    cases h
    obtain rfl := List.isEmpty_iff.mp hempty
    exact ⟨[], husable, hchanged, rfl, hnil.symm, rfl⟩
  · simp only [bind_eq_ok, pure_eq_ok] at h
    obtain ⟨rows, hrows, h⟩ := h
    cases h
    exact ⟨rows, husable, hchanged, hrows, rfl, rfl⟩

/-- `if not msg.data.get("id")`. -/
def hasId (record : PyValue) : Except PyError Bool := do
  return (← record.get "id").truthy

/-- `if usable_master_id(msg.data.get("id")) is None`. -/
def hasMasterId (record : PyValue) : Except PyError Bool := do
  return (usableMasterId (← record.get "id")).isSome

def artistsProjector (env : Env) : Projector ArtistRow :=
  { label := .artist, usable := hasId, row := artistRow env, write := writeArtists }

def labelsProjector : Projector LabelRow :=
  { label := .label, usable := hasId, row := labelRow, write := writeLabels }

def mastersProjector : Projector MasterRow :=
  { label := .master, usable := hasMasterId, row := masterRow, write := writeMasters }

def releasesProjector (env : Env) : Projector ReleaseRow :=
  { label := .release, usable := hasId, row := releaseRow env, write := writeReleases }

def processArtistsBatch (env : Env) := (artistsProjector env).process env

def processLabelsBatch (env : Env) := labelsProjector.process env

def processMastersBatch (env : Env) := mastersProjector.process env

def processReleasesBatch (env : Env) := (releasesProjector env).process env

/-- The settlement of a message. -/
inductive Settlement
  | ack | reject
deriving DecidableEq, Repr

/-- `Neo4jBatchProjector.write`: the graph it leaves, and one result for each message. -/
def write (process : List PyValue → Graph → Except PyError (Graph × List ℕ))
    (messages : List PyValue) (g : Graph) : Except PyError (Graph × List Settlement) := do
  let (g', rejected) ← process messages g
  return (g', (List.range messages.length).map fun i => if i ∈ rejected then .reject else .ack)

end Graphinator
