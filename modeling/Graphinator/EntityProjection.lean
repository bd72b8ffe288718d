import Graphinator.BatchProjection

/-!
# The single-record projection

`process_artist`, `process_label`, `process_master` and `process_release`: one record in one
transaction, which reads the stored hash and then runs the statements. A raise rolls the
transaction back.

## Main definitions

* `artistRecord`, `labelRecord`, `masterRecord`, `releaseRecord` : the rows of a record.
* `writeMaster`, `writeRelease` : the statements in the order of this path.
* `processArtist`, `processLabel`, `processMaster`, `processRelease`.
-/

namespace Graphinator

open PropertyGraph PyValue

/-! ### Rows -/

/-- The rows of an artist record. -/
def artistRecord (env : Env) (record : PyValue) : Except PyError ArtistRow := do
  let resources := "https://api.discogs.com/artists/" ++ (← record.item "id").pyStr env.repr
  return {
    id := ← nodeKey (← record.item "id")
    name := ← storable (← record.getD "name" (.str "Unknown Artist"))
    sha256 := ← storable (← record.item "sha256")
    resourceUrl := .str resources
    releasesUrl := .str (resources ++ "/releases")
    members := ← referenceIds (← record.get "members")
    groups := ← referenceIds (← record.get "groups")
    aliases := ← referenceIds (← record.get "aliases") }

/-- The rows of a label record. -/
def labelRecord (record : PyValue) : Except PyError LabelRow := do
  return {
    id := ← nodeKey (← record.item "id")
    name := ← storable (← record.getD "name" (.str "Unknown Label"))
    sha256 := ← storable (← record.item "sha256")
    parentLabel := ← parentLabelId record
    sublabels := ← referenceIds (← record.get "sublabels") }

/-- `genres=[{"name": genre} for genre in genres]`, when `genres` is truthy. -/
def allNames (values : PyValue) : Except PyError (List PyValue) := do
  (← (values.orElse (.arr [])).iter).mapM nodeKey

/-- The `(genre, style)` pairs of a record that names a single genre: here no name is left out. -/
def allGenreStylePairs (record : PyValue) : Except PyError (List (PyValue × PyValue)) := do
  let genres ← record.getD "genres" (.arr [])
  let styles ← record.getD "styles" (.arr [])
  if (← genres.len) = 1 ∧ styles.truthy then
    let genre ← genres.item0
    let styles ← styles.iter
    return ← styles.mapM fun style => do
      return (← nodeKey genre, ← nodeKey style)
  return []

/-- The rows of a master record. -/
def masterRecord (record : PyValue) : Except PyError MasterRow := do
  return {
    id := ← nodeKey (← record.item "id")
    title := ← storable (← record.getD "title" (.str "Unknown Master"))
    year := ← storable (← record.get "year")
    sha256 := ← storable (← record.item "sha256")
    artists := ← referenceIds (← record.get "artists")
    keepGenres := ← truthyNames (← record.get "genres")
    keepStyles := ← truthyNames (← record.get "styles")
    genres := ← allNames (← record.getD "genres" (.arr []))
    styles := ← allNames (← record.getD "styles" (.arr []))
    pairs := ← allGenreStylePairs record }

/-- The rows of a release record. -/
def releaseRecord (env : Env) (record : PyValue) : Except PyError ReleaseRow := do
  let mediaBlock ← resolveMediaBlock env record
  return {
    id := ← nodeKey (← record.item "id")
    title := ← storable (← record.getD "title" (.str "Unknown Release"))
    year := ← storable (← record.get "year")
    country := ← releaseCountry record
    formats := ← formatNames record
    mediaFamilies := ← mediaFamilies mediaBlock
    sha256 := ← storable (← record.item "sha256")
    metadata := []
    artists := ← references (← record.get "artists")
    labels := ← references (← record.get "labels")
    masterId := usableMasterId (← record.get "master_id")
    keepGenres := ← truthyNames (← record.get "genres")
    keepStyles := ← truthyNames (← record.get "styles")
    genres := ← allNames (← record.getD "genres" (.arr []))
    styles := ← allNames (← record.getD "styles" (.arr []))
    pairs := ← allGenreStylePairs record
    mediaRows := ← issuedOnRows env mediaBlock
    companyRows := ← (← resolveCompaniesBlock record).mapM (creditedToRows env)
    creditRows := ← personCreditRows env (← record.get "extraartists") }

/-! ### Statements -/

/-- The statements of `process_artist`. -/
def writeArtist (a : ArtistRow) (g : Graph) : Graph :=
  g |> mergeArtist a |> artistMembers a |> artistGroups a |> artistAliases a

/-- The statements of `process_label`. -/
def writeLabel (l : LabelRow) (g : Graph) : Graph :=
  g |> mergeLabel l |> labelParent l |> labelSublabels l

/-- The statements of `process_master`. -/
def writeMaster (m : MasterRow) (g : Graph) : Graph :=
  g |> mergeMaster m
    |> pruneStaleEdges (.master m.id) .BY .artist m.artists
    |> pruneStaleEdges (.master m.id) .IS .genre m.keepGenres
    |> pruneStaleEdges (.master m.id) .IS .style m.keepStyles
    |> masterBy m
    |> mergeIs (.master m.id) .genre m.genres
    |> mergeIs (.master m.id) .style m.styles
    |> runAll mergePartOf m.pairs

/-- The statements of `process_release`, up to its last one. -/
def writeReleaseCore (r : ReleaseRow) (g : Graph) : Graph :=
  g |> mergeRelease r
    |> pruneStaleEdges (.release r.id) .BY .artist (r.artists.map (·.id))
    |> pruneStaleEdges (.release r.id) .ON .label (r.labels.map (·.id))
    |> pruneStaleEdges (.release r.id) .DERIVED_FROM .master (r.masterId.map PyValue.str).toList
    |> pruneStaleEdges (.release r.id) .IS .genre r.keepGenres
    |> pruneStaleEdges (.release r.id) .IS .style r.keepStyles
    |> pruneIssuedOn r
    |> mergeMedia r
    |> pruneCompanies r
    |> mergeCompanies r
    |> releaseBy r
    |> releaseOn r
    |> releaseDerivedFrom r
    |> mergeIs (.release r.id) .genre r.genres
    |> mergeIs (.release r.id) .style r.styles
    |> runAll mergePartOf r.pairs
    |> pruneCreditedOn r
    |> mergeCredits r

/-- The statements of `process_release`. -/
def writeRelease (r : ReleaseRow) (g : Graph) : Graph := mergeSameAs r (writeReleaseCore r g)

/-! ### Transactions -/

/-- `process_<type>`: the graph it leaves, and whether the record changed. -/
def processRecord {ρ : Type} (nodeLabel : Label) (row : PyValue → Except PyError ρ)
    (write : ρ → Graph → Graph) (record : PyValue) (g : Graph) : Except PyError (Graph × Bool) := do
  let id ← record.item "id"
  let present := match nodeKey id with
    | .ok key => decide ((⟨nodeLabel, key⟩ : Node) ∈ g.nodes)
    | .error _ => false
  let unchanged ←
    if present then do
      pure ((storedHash g nodeLabel id).pyEq (← record.item "sha256"))
    else pure false
  if unchanged then
    return (g, false)
  return (write (← row record) g, true)

/-- A projection writes the row of its record, or it finds the record unchanged. -/
theorem processRecord_eq_ok {ρ : Type} {nodeLabel : Label} {row : PyValue → Except PyError ρ}
    {write : ρ → Graph → Graph} {record : PyValue} {g g' : Graph} {changed : Bool}
    (h : processRecord nodeLabel row write record g = .ok (g', changed)) :
    (changed = false ∧ g' = g) ∨ (changed = true ∧ ∃ r, row record = .ok r ∧ g' = write r g) := by
  have hwrite : ∀ unchanged : Bool, (if unchanged = true then pure (g, false) else do
      return (write (← row record) g, true)) = .ok (g', changed) →
      (changed = false ∧ g' = g) ∨
        (changed = true ∧ ∃ r, row record = .ok r ∧ g' = write r g) := by
    intro unchanged h
    split_ifs at h
    · cases h
      exact Or.inl ⟨rfl, rfl⟩
    · simp only [bind_eq_ok, pure_eq_ok] at h
      obtain ⟨r, hr, h⟩ := h
      cases h
      exact Or.inr ⟨rfl, r, hr, rfl⟩
  simp only [processRecord, bind_eq_ok] at h
  obtain ⟨id, -, h⟩ := h
  generalize (match nodeKey id with
    | .ok key => decide ((⟨nodeLabel, key⟩ : Node) ∈ g.nodes)
    | .error _ => false) = present at h
  cases present with
  | true =>
    simp only [if_true, bind_eq_ok] at h
    obtain ⟨-, -, unchanged, -, h⟩ := h
    exact hwrite unchanged h
  | false => exact hwrite false h

def processArtist (env : Env) := processRecord .artist (artistRecord env) writeArtist

def processLabel := processRecord .label labelRecord writeLabel

def processMaster := processRecord .master masterRecord writeMaster

def processRelease (env : Env) := processRecord .release (releaseRecord env) writeRelease

end Graphinator
