import Graphinator.Asserted
import Graphinator.WritePaths

/-!
# Lists that are null

A record may lack a list, or carry null in its place. The projections read most lists in a way that
takes the two for one. Where they read a list with a default, null is no list: they raise.

## Main definitions

* `optionalLists`, `withLists` : the lists of a type of record, and a record with some of them
  replaced.
* `NullSafe` : null stands for no list, on a path.
* `NullMeansMissing` : null, missing and empty lists have the same outcome.

## Main results

* `row_withLists`, `row_missing` : a missing list is an empty one, and so is null where it is safe.
* `nullSafe_of_row` : elsewhere null gives no row.
* `not_hasArc_of_row` : the rows of emptied lists leave no stale edge.
* `null_lists` : when null means missing.
-/

namespace Graphinator

open PropertyGraph PyValue

/-! ### Records -/

/-- The lists that a record may lack. -/
def optionalLists : DataType → List String
  | .artists => ["members", "groups", "aliases"]
  | .labels => ["sublabels"]
  | .masters => ["artists", "genres", "styles"]
  | .releases => ["artists", "labels", "genres", "styles", "formats", "extraartists"]

/-- The fields of a record, with `value` under some keys, or without these. -/
def listFields (value : Option PyValue) (keys : List String) (fields : List (String × PyValue)) :
    List (String × PyValue) :=
  (value.toList.flatMap fun value => keys.map fun key => (key, value)) ++
    fields.filter fun field => field.1 ∉ keys

/-- A record with `value` under some keys, or without these. -/
def withLists (value : Option PyValue) (keys : List String) (fields : List (String × PyValue)) :
    PyValue :=
  .obj (listFields value keys fields)

/-- The value under a key, in such a record. -/
def listEntry (value : Option PyValue) (keys : List String) (fields : List (String × PyValue))
    (key : String) : Option PyValue :=
  if key ∈ keys then value else field? fields key

/-- What stands for no list: nothing, null or the empty list. -/
def NoList (value : Option PyValue) : Prop :=
  value = none ∨ value = some .null ∨ value = some (.arr [])

section Fields

variable {value : Option PyValue} {keys : List String} {fields : List (String × PyValue)}
  {key : String}

theorem field?_filter (hkey : key ∉ keys) :
    field? (fields.filter fun field => field.1 ∉ keys) key = field? fields key := by
  unfold field?
  rw [List.find?_filter]
  congr 2
  funext field
  by_cases hfield : field.1 = key
  · simp [hfield, hkey]
  · simp [hfield]

theorem field?_filter_of_mem (hkey : key ∈ keys) :
    field? (fields.filter fun field => field.1 ∉ keys) key = none := by
  unfold field?
  rw [Option.map_eq_none_iff, List.find?_eq_none]
  intro field hfield heq
  obtain ⟨-, hnot⟩ := List.mem_filter.mp hfield
  rw [of_decide_eq_true heq] at hnot
  exact of_decide_eq_true hnot hkey

theorem field?_map (value : PyValue) (keys : List String) :
    field? (keys.map fun key => (key, value)) key = if key ∈ keys then some value else none := by
  induction keys with
  | nil => rfl
  | cons k keys ih =>
    unfold field? at ih ⊢
    by_cases hk : k = key
    · rw [List.map_cons, List.find?_cons_of_pos (by simpa using hk),
        if_pos (List.mem_cons.mpr (Or.inl hk.symm))]
      rfl
    · rw [List.map_cons, List.find?_cons_of_neg (by simpa using hk), ih]
      simp [Ne.symm hk]

theorem field?_append (xs ys : List (String × PyValue)) :
    field? (xs ++ ys) key = (field? xs key).or (field? ys key) := by
  unfold field?
  rw [List.find?_append, Option.map_or]

theorem field?_listFields :
    field? (listFields value keys fields) key = listEntry value keys fields key := by
  rw [listFields, field?_append, listEntry]
  cases value with
  | none =>
    split_ifs with hkey
    · exact field?_filter_of_mem hkey
    · exact field?_filter hkey
  | some value =>
    have hflat : (Option.some value).toList.flatMap (fun value => keys.map fun key => (key, value)) =
        keys.map fun key => (key, value) := List.flatMap_singleton ..
    rw [hflat, field?_map]
    split_ifs with hkey
    · rfl
    · exact field?_filter hkey

theorem getD_withLists (default : PyValue) : (withLists value keys fields).getD key default =
    .ok ((listEntry value keys fields key).getD default) :=
  congrArg (fun x : Option PyValue => Except.ok (x.getD default)) field?_listFields

theorem get_withLists : (withLists value keys fields).get key =
    .ok ((listEntry value keys fields key).getD .null) := getD_withLists _

/-- The other fields are as they were. -/
theorem listEntry_of_notMem (hkey : key ∉ keys) : listEntry value keys fields key = field? fields key :=
  if_neg hkey

theorem item_withLists (hkey : key ∉ keys) :
    (withLists value keys fields).item key = (PyValue.obj fields).item key := by
  simp only [withLists, PyValue.item, field?_listFields, listEntry_of_notMem hkey]

/-- Read as a list, no list is the empty one. -/
theorem orElse_listEntry (h : NoList value) :
    ((listEntry value keys fields key).getD .null).orElse (.arr []) =
      ((listEntry none keys fields key).getD .null).orElse (.arr []) := by
  unfold listEntry
  split_ifs
  · rcases h with rfl | rfl | rfl <;> rfl
  · rfl

/-- Read with a default, so is a missing or an empty one. -/
theorem getD_listEntry (h : NoList value) (hnull : value = some .null → key ∉ keys) :
    (listEntry value keys fields key).getD (.arr []) =
      (listEntry none keys fields key).getD (.arr []) := by
  unfold listEntry
  split_ifs with hkey
  · rcases h with rfl | rfl | rfl
    · rfl
    · exact absurd hkey (hnull rfl)
    · rfl
  · rfl

theorem orElse_getD_listEntry (h : NoList value) :
    ((listEntry value keys fields key).getD (.arr [])).orElse (.arr []) =
      ((listEntry none keys fields key).getD (.arr [])).orElse (.arr []) := by
  unfold listEntry
  split_ifs
  · rcases h with rfl | rfl | rfl <;> rfl
  · rfl

end Fields

/-! ### Paths -/

/-- The two write paths. -/
inductive Path
  | one | batch
deriving DecidableEq

namespace Path

/-- The rows of a record. -/
def row (env : Env) (t : DataType) : Path → PyValue → Except PyError (RowOf t)
  | .one => oneRow env t
  | .batch => (writerOf env t).projector.row

/-- What a record comes to. -/
def outcome (env : Env) (t : DataType) (g : Graph) : Path → PyValue → Outcome
  | .one => oneOutcome env t g
  | .batch => batchOutcome env t g

/-- The path finds the hash of the record stored. -/
def Unchanged (env : Env) (t : DataType) (g : Graph) (record : PyValue) : Path → Prop
  | .one => FoundUnchanged g t.nodeLabel record
  | .batch => skips env g t.nodeLabel [record] record = true

end Path

/-- The record names one genre, and it is not blank. -/
def SingleGenre (fields : List (String × PyValue)) : Prop :=
  ((field? fields "genres").getD (.arr [])).len = .ok 1 ∧
    ∃ genre, ((field? fields "genres").getD (.arr [])).item0 = .ok genre ∧ genre.truthy = true

/-- Null stands for no genres and no styles: there is no null for genres, and on the batch path none
for the styles of a record that names one genre. -/
def GenresSafe (path : Path) (keys : List String) (fields : List (String × PyValue)) : Prop :=
  "genres" ∉ keys ∧ (path = .batch → "styles" ∈ keys → ¬SingleGenre fields)

/-- Null stands for no list. -/
def NullSafe (path : Path) (t : DataType) (keys : List String)
    (fields : List (String × PyValue)) : Prop :=
  match t with
  | .artists | .labels => True
  | .masters => GenresSafe path keys fields
  | .releases => GenresSafe path keys fields ∧ "formats" ∉ keys

/-! ### Rows -/

section Rows

variable {env : Env} {value : Option PyValue} {keys : List String}
  {fields : List (String × PyValue)}

theorem notMem_keys {t : DataType} (hkeys : keys ⊆ optionalLists t) {key : String}
    (hkey : key ∉ optionalLists t) : key ∉ keys := fun h => hkey (hkeys h)

theorem ok_bind {ε α β : Type} (x : α) (f : α → Except ε β) : (Except.ok x >>= f) = f x := rfl

/-- Most lists are read as lists. -/
theorem references_listEntry (env : Env) (keys : List String) (fields : List (String × PyValue))
    (h : NoList value) (key : String) :
    referenceIds ((listEntry value keys fields key).getD .null) =
        referenceIds ((listEntry none keys fields key).getD .null) ∧
      references ((listEntry value keys fields key).getD .null) =
        references ((listEntry none keys fields key).getD .null) ∧
      truthyNames ((listEntry value keys fields key).getD .null) =
        truthyNames ((listEntry none keys fields key).getD .null) ∧
      personCreditRows env ((listEntry value keys fields key).getD .null) =
        personCreditRows env ((listEntry none keys fields key).getD .null) := by
  simp only [referenceIds, references, truthyNames, personCreditRows, orElse_listEntry h, and_self]

theorem allNames_listEntry (h : NoList value) (key : String) :
    allNames ((listEntry value keys fields key).getD (.arr [])) =
      allNames ((listEntry none keys fields key).getD (.arr [])) := by
  simp only [allNames, orElse_getD_listEntry h]

theorem artist_withLists (h : NoList value) (hkeys : keys ⊆ optionalLists .artists) :
    artistRow env (withLists value keys fields) = artistRow env (withLists none keys fields) ∧
      artistRecord env (withLists value keys fields) =
        artistRecord env (withLists none keys fields) := by
  have hother : ∀ key ∈ ["id", "name", "sha256"], key ∉ keys := fun key hkey =>
    notMem_keys hkeys (by revert key; decide)
  simp only [List.forall_mem_cons] at hother
  obtain ⟨hid, hname, hsha, -⟩ := hother
  have hlist := fun key => (references_listEntry env keys fields h key).1
  refine ⟨?_, ?_⟩
  · simp only [artistRow, get_withLists, ok_bind, listEntry_of_notMem hid,
      listEntry_of_notMem hname, listEntry_of_notMem hsha, hlist]
  · simp only [artistRecord, get_withLists, getD_withLists, item_withLists hid, ok_bind,
      item_withLists hsha, listEntry_of_notMem hname, hlist]

theorem label_withLists (h : NoList value) (hkeys : keys ⊆ optionalLists .labels) :
    labelRow (withLists value keys fields) = labelRow (withLists none keys fields) ∧
      labelRecord (withLists value keys fields) = labelRecord (withLists none keys fields) := by
  have hother : ∀ key ∈ ["id", "name", "sha256", "parentLabel"], key ∉ keys := fun key hkey =>
    notMem_keys hkeys (by revert key; decide)
  simp only [List.forall_mem_cons] at hother
  obtain ⟨hid, hname, hsha, hparent, -⟩ := hother
  have hlist := fun key => (references_listEntry plainEnv keys fields h key).1
  refine ⟨?_, ?_⟩
  · simp only [labelRow, parentLabelId, get_withLists, ok_bind, listEntry_of_notMem hid,
      listEntry_of_notMem hname, listEntry_of_notMem hsha, listEntry_of_notMem hparent, hlist]
  · simp only [labelRecord, parentLabelId, get_withLists, getD_withLists, item_withLists hid, ok_bind,
      item_withLists hsha, listEntry_of_notMem hname, listEntry_of_notMem hparent, hlist]

/-- The pairs of a batch, where null is safe. -/
theorem genreStylePairs_withLists (h : NoList value)
    (hsafe : value = some .null → GenresSafe .batch keys fields) :
    genreStylePairs (withLists value keys fields) =
      genreStylePairs (withLists none keys fields) := by
  have hgenres : (listEntry value keys fields "genres").getD (.arr []) =
      (listEntry none keys fields "genres").getD (.arr []) :=
    getD_listEntry h fun hnull => (hsafe hnull).1
  by_cases hstyles : value = some .null ∧ "styles" ∈ keys
  · obtain ⟨rfl, hmem⟩ := hstyles
    obtain ⟨hnot, hsingle⟩ := hsafe rfl
    have hgenre : listEntry none keys fields "genres" = field? fields "genres" :=
      listEntry_of_notMem hnot
    simp only [genreStylePairs, getD_withLists, ok_bind, hgenres, hgenre]
    have hsingle' := hsingle rfl hmem
    unfold SingleGenre at hsingle'
    generalize (field? fields "genres").getD (.arr []) = genres at hsingle' ⊢
    cases hlen : genres.len with
    | error error => rfl
    | ok n =>
      by_cases hn : n = 1
      · cases hitem : genres.item0 with
        | error error => simp [hn, bind, Except.bind]
        | ok genre =>
          have hfalse : genre.truthy = false := by
            rw [Bool.eq_false_iff]
            exact fun htrue => hsingle' ⟨hn ▸ hlen, genre, hitem, htrue⟩
          simp [hn, hfalse, bind, Except.bind]
      · simp [hn, bind, Except.bind]
  · have hstyles' : (listEntry value keys fields "styles").getD (.arr []) =
        (listEntry none keys fields "styles").getD (.arr []) :=
      getD_listEntry h fun hnull hmem => hstyles ⟨hnull, hmem⟩
    simp only [genreStylePairs, getD_withLists, ok_bind, hgenres, hstyles']

/-- The pairs of the single-record path. -/
theorem allGenreStylePairs_withLists (h : NoList value)
    (hsafe : value = some .null → "genres" ∉ keys) :
    allGenreStylePairs (withLists value keys fields) =
      allGenreStylePairs (withLists none keys fields) := by
  have hgenres : (listEntry value keys fields "genres").getD (.arr []) =
      (listEntry none keys fields "genres").getD (.arr []) := getD_listEntry h hsafe
  by_cases hstyles : value = some .null ∧ "styles" ∈ keys
  · obtain ⟨rfl, hmem⟩ := hstyles
    have hnull : listEntry (some .null) keys fields "styles" = some .null := if_pos hmem
    have hmissing : listEntry none keys fields "styles" = none := if_pos hmem
    simp only [allGenreStylePairs, getD_withLists, ok_bind, hgenres, hnull, hmissing,
      Option.getD_some, Option.getD_none, truthy, List.isEmpty_nil, Bool.not_true,
      Bool.false_eq_true, and_false, if_false]
  · have hstyles' : (listEntry value keys fields "styles").getD (.arr []) =
        (listEntry none keys fields "styles").getD (.arr []) :=
      getD_listEntry h fun hnull hmem => hstyles ⟨hnull, hmem⟩
    simp only [allGenreStylePairs, getD_withLists, ok_bind, hgenres, hstyles']

theorem master_withLists (h : NoList value) (hkeys : keys ⊆ optionalLists .masters) :
    ((value = some .null → GenresSafe .batch keys fields) →
      masterRow (withLists value keys fields) = masterRow (withLists none keys fields)) ∧
    ((value = some .null → "genres" ∉ keys) →
      masterRecord (withLists value keys fields) = masterRecord (withLists none keys fields)) := by
  have hother : ∀ key ∈ ["id", "title", "year", "sha256"], key ∉ keys := fun key hkey =>
    notMem_keys hkeys (by revert key; decide)
  simp only [List.forall_mem_cons] at hother
  obtain ⟨hid, htitle, hyear, hsha, -⟩ := hother
  have hlist := references_listEntry plainEnv keys fields h
  refine ⟨fun hsafe => ?_, fun hsafe => ?_⟩
  · simp only [masterRow, get_withLists, ok_bind, listEntry_of_notMem hid,
      listEntry_of_notMem htitle, listEntry_of_notMem hyear, listEntry_of_notMem hsha, hlist,
      genreStylePairs_withLists h hsafe]
  · simp only [masterRecord, get_withLists, getD_withLists, item_withLists hid, ok_bind,
      item_withLists hsha, listEntry_of_notMem htitle, listEntry_of_notMem hyear, hlist,
      allNames_listEntry h, allGenreStylePairs_withLists h hsafe]

end Rows

/-! ### Rows of releases -/

/-- The mappers give one block for no formats, and it has no media. -/
def Env.NoFormatsNoMedia (env : Env) : Prop :=
  ∃ block, env.mapDiscogsFormats [] = .ok block ∧ env.legacyFormatNamesToMedia [] = .ok block ∧
    issuedOnRows env block = .ok []

section Releases

variable {env : Env} {value : Option PyValue} {keys : List String}
  {fields : List (String × PyValue)}

theorem formatNames_withLists (h : NoList value) (hsafe : value = some .null → "formats" ∉ keys) :
    formatNames (withLists value keys fields) = formatNames (withLists none keys fields) := by
  simp only [formatNames, getD_withLists, ok_bind, getD_listEntry h hsafe]

theorem releaseMetadata_withLists (h : NoList value) :
    releaseMetadata (withLists value keys fields) = releaseMetadata (withLists none keys fields) := by
  simp only [releaseMetadata, get_withLists, ok_bind, orElse_listEntry h]

/-- The block of a release without formats and media. -/
theorem resolveMediaBlock_of_formats (h : NoList value) (hmedia : "media" ∉ keys)
    (hformats : "formats" ∈ keys) (hdict : ((field? fields "media").getD .null).isDict = false) :
    resolveMediaBlock env (withLists value keys fields) =
      if value = some (.arr []) then env.mapDiscogsFormats [] else env.legacyFormatNamesToMedia [] := by
  have hentry : listEntry value keys fields "formats" = value := if_pos hformats
  simp only [resolveMediaBlock, get_withLists, ok_bind, listEntry_of_notMem hmedia, hdict, hentry,
    Bool.false_eq_true, if_false]
  rcases h with rfl | rfl | rfl <;> rfl

/-- No formats give the same media, missing, null or empty. -/
theorem resolveMediaBlock_withLists (henv : env.NoFormatsNoMedia) (h : NoList value)
    (hmedia : "media" ∉ keys) : resolveMediaBlock env (withLists value keys fields) =
      resolveMediaBlock env (withLists none keys fields) := by
  obtain ⟨block, hblock, hlegacy, -⟩ := henv
  cases hdict : ((field? fields "media").getD .null).isDict with
  | true =>
    simp only [resolveMediaBlock, get_withLists, ok_bind, listEntry_of_notMem hmedia, hdict, if_true]
  | false =>
    by_cases hformats : "formats" ∈ keys
    · rw [resolveMediaBlock_of_formats h hmedia hformats hdict,
        resolveMediaBlock_of_formats (Or.inl rfl) hmedia hformats hdict, hblock, hlegacy]
      split_ifs <;> rfl
    · simp only [resolveMediaBlock, get_withLists, ok_bind, listEntry_of_notMem hmedia,
        listEntry_of_notMem hformats]

theorem release_withLists (henv : env.NoFormatsNoMedia) (h : NoList value)
    (hkeys : keys ⊆ optionalLists .releases) (hformats : value = some .null → "formats" ∉ keys) :
    ((value = some .null → GenresSafe .batch keys fields) →
      releaseRow env (withLists value keys fields) = releaseRow env (withLists none keys fields)) ∧
    ((value = some .null → "genres" ∉ keys) →
      releaseRecord env (withLists value keys fields) =
        releaseRecord env (withLists none keys fields)) := by
  have hother : ∀ key ∈ ["id", "title", "year", "country", "sha256", "master_id", "companies",
      "media"], key ∉ keys := fun key hkey => notMem_keys hkeys (by revert key; decide)
  simp only [List.forall_mem_cons] at hother
  obtain ⟨hid, htitle, hyear, hcountry, hsha, hmaster, hcompanies, hmedia, -⟩ := hother
  have hlist := references_listEntry env keys fields h
  have hblock : resolveMediaBlock env (withLists value keys fields) = _ :=
    resolveMediaBlock_withLists henv h hmedia
  refine ⟨fun hsafe => ?_, fun hsafe => ?_⟩
  · simp only [releaseRow, releaseCountry, resolveCompaniesBlock, hblock, get_withLists, ok_bind,
      listEntry_of_notMem hid, listEntry_of_notMem htitle, listEntry_of_notMem hyear,
      listEntry_of_notMem hsha, listEntry_of_notMem hcountry, listEntry_of_notMem hmaster,
      listEntry_of_notMem hcompanies, hlist, genreStylePairs_withLists h hsafe,
      formatNames_withLists h hformats, releaseMetadata_withLists h]
  · simp only [releaseRecord, releaseCountry, resolveCompaniesBlock, hblock, get_withLists,
      getD_withLists, item_withLists hid, item_withLists hsha, ok_bind, listEntry_of_notMem htitle,
      listEntry_of_notMem hyear, listEntry_of_notMem hcountry, listEntry_of_notMem hmaster,
      listEntry_of_notMem hcompanies, hlist, allNames_listEntry h,
      allGenreStylePairs_withLists h hsafe, formatNames_withLists h hformats]

end Releases

/-! ### The rows of the two paths -/

section Lists

variable {env : Env} {path : Path} {t : DataType} {value : Option PyValue} {keys : List String}
  {fields : List (String × PyValue)}

/-- A list that is missing, empty or null where that is safe gives the same rows. -/
theorem row_withLists (henv : env.NoFormatsNoMedia) (hkeys : keys ⊆ optionalLists t)
    (h : NoList value) (hsafe : value = some .null → NullSafe path t keys fields) :
    path.row env t (withLists value keys fields) = path.row env t (withLists none keys fields) := by
  cases t with
  | artists =>
    cases path with
    | one => exact (artist_withLists h hkeys).2
    | batch => exact (artist_withLists h hkeys).1
  | labels =>
    cases path with
    | one => exact (label_withLists h hkeys).2
    | batch => exact (label_withLists h hkeys).1
  | masters =>
    cases path with
    | one => exact (master_withLists h hkeys).2 fun hnull => (hsafe hnull).1
    | batch => exact (master_withLists h hkeys).1 hsafe
  | releases =>
    have hrelease := @release_withLists env value keys fields henv h hkeys fun hnull =>
      (hsafe hnull).2
    cases path with
    | one => exact hrelease.2 fun hnull => (hsafe hnull).1.1
    | batch => exact hrelease.1 fun hnull => (hsafe hnull).1

/-- **A missing list is an empty one.** -/
theorem row_missing (henv : env.NoFormatsNoMedia) (hkeys : keys ⊆ optionalLists t) :
    path.row env t (withLists none keys fields) =
      path.row env t (withLists (some (.arr [])) keys fields) :=
  (row_withLists henv hkeys (Or.inr (Or.inr rfl)) nofun).symm

theorem getD_null {key : String} (hkey : key ∈ keys) (default : PyValue) :
    (listEntry (some .null) keys fields key).getD default = .null := by
  rw [listEntry, if_pos hkey, Option.getD_some]

/-- The pairs of a batch exist only where null is safe. -/
theorem genresSafe_of_pairs {pairs : List (PyValue × PyValue)}
    (h : genreStylePairs (withLists (some .null) keys fields) = .ok pairs) :
    GenresSafe .batch keys fields := by
  simp only [genreStylePairs, getD_withLists, ok_bind, bind_eq_ok] at h
  obtain ⟨n, hlen, h⟩ := h
  have hgenres : "genres" ∉ keys := by
    intro hmem
    rw [getD_null hmem] at hlen
    cases hlen
  refine ⟨hgenres, fun _ hstyles hsingle => ?_⟩
  obtain ⟨hone, genre, hitem, htruthy⟩ := hsingle
  rw [listEntry_of_notMem hgenres] at hlen h
  obtain rfl : 1 = n := Except.ok.inj (hone.symm.trans hlen)
  simp only [if_true, hitem, ok_bind, htruthy, bind_eq_ok, getD_null hstyles] at h
  obtain ⟨_, -, _, ⟨_, ⟨⟩, -⟩, -⟩ := h

theorem genresSafe_of_allPairs {pairs : List (PyValue × PyValue)}
    (h : allGenreStylePairs (withLists (some .null) keys fields) = .ok pairs) :
    GenresSafe .one keys fields := by
  simp only [allGenreStylePairs, getD_withLists, ok_bind, bind_eq_ok] at h
  obtain ⟨n, hlen, -⟩ := h
  refine ⟨fun hmem => ?_, (by rintro ⟨⟩)⟩
  rw [getD_null hmem] at hlen
  cases hlen

theorem formats_of_formatNames {names : PyValue}
    (h : formatNames (withLists (some .null) keys fields) = .ok names) : "formats" ∉ keys := by
  simp only [formatNames, getD_withLists, ok_bind, bind_eq_ok] at h
  obtain ⟨_, hiter, -⟩ := h
  intro hmem
  rw [getD_null hmem] at hiter
  cases hiter

theorem pairs_masterRow {record : PyValue} {r : MasterRow} (h : masterRow record = .ok r) :
    genreStylePairs record = .ok r.pairs := by
  simp only [masterRow, bind_eq_ok, pure_eq_ok] at h
  grind

theorem pairs_masterRecord {record : PyValue} {r : MasterRow} (h : masterRecord record = .ok r) :
    allGenreStylePairs record = .ok r.pairs := by
  simp only [masterRecord, bind_eq_ok, pure_eq_ok] at h
  grind

theorem pairs_releaseRow {record : PyValue} {r : ReleaseRow} (h : releaseRow env record = .ok r) :
    genreStylePairs record = .ok r.pairs ∧ formatNames record = .ok r.formats := by
  simp only [releaseRow, bind_eq_ok, pure_eq_ok] at h
  grind

theorem pairs_releaseRecord {record : PyValue} {r : ReleaseRow}
    (h : releaseRecord env record = .ok r) :
    allGenreStylePairs record = .ok r.pairs ∧ formatNames record = .ok r.formats := by
  simp only [releaseRecord, bind_eq_ok, pure_eq_ok] at h
  grind

/-- **Elsewhere null gives no row.** -/
theorem nullSafe_of_row {r : RowOf t}
    (h : path.row env t (withLists (some .null) keys fields) = .ok r) :
    NullSafe path t keys fields := by
  cases t with
  | artists => trivial
  | labels => trivial
  | masters =>
    cases path with
    | one => exact genresSafe_of_allPairs (pairs_masterRecord h)
    | batch => exact genresSafe_of_pairs (pairs_masterRow h)
  | releases =>
    cases path with
    | one =>
      obtain ⟨hpairs, hformats⟩ := pairs_releaseRecord h
      exact ⟨genresSafe_of_allPairs hpairs, formats_of_formatNames hformats⟩
    | batch =>
      obtain ⟨hpairs, hformats⟩ := pairs_releaseRow h
      exact ⟨genresSafe_of_pairs hpairs, formats_of_formatNames hformats⟩

end Lists

/-! ### Outcomes -/

section Outcomes

variable {env : Env} {path : Path} {t : DataType} {g : Graph} {value : Option PyValue}
  {keys : List String} {fields : List (String × PyValue)} {record : PyValue}

theorem id_of_usable (h : (writerOf env t).projector.usable record = .ok true) :
    ∃ id, record.get "id" = .ok id ∧ record.item "id" = .ok id := by
  have hget : ∃ id, record.get "id" = .ok id ∧ id ≠ .null := by
    cases t with
    | masters =>
      have husable : hasMasterId record = .ok true := h
      simp only [hasMasterId, bind_eq_ok, pure_eq_ok] at husable
      obtain ⟨id, hid, hsome⟩ := husable
      refine ⟨id, hid, ?_⟩
      rintro rfl
      cases hsome
    | artists | labels | releases =>
      have husable : hasId record = .ok true := h
      simp only [hasId, bind_eq_ok, pure_eq_ok] at husable
      obtain ⟨id, hid, htruthy⟩ := husable
      refine ⟨id, hid, ?_⟩
      rintro rfl
      cases htruthy
  obtain ⟨id, hid, hne⟩ := hget
  exact ⟨id, hid, item_of_get hid hne⟩

theorem outcome_unchanged (husable : (writerOf env t).projector.usable record = .ok true)
    (h : path.Unchanged env t g record) : path.outcome env t g record = .unchanged := by
  obtain ⟨id, hid, hitem⟩ := id_of_usable husable
  cases path with
  | one => exact oneOutcome_of_found hid hitem h
  | batch => exact (batchOutcome_eq hid hitem).trans ((if_pos husable).trans (if_pos h))

theorem outcome_changed (husable : (writerOf env t).projector.usable record = .ok true)
    (h : ¬path.Unchanged env t g record) : path.outcome env t g record =
      match path.row env t record with
      | .ok r => .written ((writerOf env t).projector.write [r] g)
      | .error _ => .refused := by
  obtain ⟨id, hid, hitem⟩ := id_of_usable husable
  cases path with
  | one => exact oneOutcome_of_not_found hid hitem h
  | batch => exact (batchOutcome_eq hid hitem).trans ((if_pos husable).trans (if_neg h))

theorem notMem_id_sha256 (hkeys : keys ⊆ optionalLists t) : "id" ∉ keys ∧ "sha256" ∉ keys := by
  refine ⟨fun h => ?_, fun h => ?_⟩
  · have := hkeys h
    cases t <;> revert this <;> decide
  · have := hkeys h
    cases t <;> revert this <;> decide

/-- The lists of a record play no part in whether it is usable. -/
theorem usable_withLists (hkeys : keys ⊆ optionalLists t) :
    (writerOf env t).projector.usable (withLists value keys fields) =
      (writerOf env t).projector.usable (.obj fields) := by
  have hid : (withLists value keys fields).get "id" = (PyValue.obj fields).get "id" := by
    rw [get_withLists, listEntry_of_notMem (notMem_id_sha256 hkeys).1]
    rfl
  cases t with
  | masters =>
    change hasMasterId _ = hasMasterId _
    simp only [hasMasterId, hid]
  | artists | labels | releases =>
    change hasId _ = hasId _
    simp only [hasId, hid]

/-- Nor in whether its hash is found. -/
theorem unchanged_withLists (hkeys : keys ⊆ optionalLists t) :
    path.Unchanged env t g (withLists value keys fields) ↔ path.Unchanged env t g (.obj fields) := by
  obtain ⟨hnotId, hnotSha⟩ := notMem_id_sha256 hkeys
  have hget : ∀ key, key ∉ keys →
      (withLists value keys fields).get key = (PyValue.obj fields).get key := by
    intro key hkey
    rw [get_withLists, listEntry_of_notMem hkey]
    rfl
  cases path with
  | one =>
    simp only [Path.Unchanged, FoundUnchanged, recordNode?, hget "id" hnotId, item_withLists hnotSha]
  | batch =>
    simp only [Path.Unchanged, skips, recordIds, List.filterMap_cons, List.filterMap_nil,
      hget "id" hnotId, hget "sha256" hnotSha]

end Outcomes

/-! ### Stale edges -/

/-- The edges at the node of a master or a release that its lists assert; those of the formats only
where the record carries no media block. -/
def ListArc (fields : List (String × PyValue)) (v : Node) (key : String) (a : Arc Node Rel) : Prop :=
  (key = "artists" ∧ a.src = v ∧ a.kind = .BY ∧ a.dst.label = .artist) ∨
  (key = "labels" ∧ a.src = v ∧ a.kind = .ON ∧ a.dst.label = .label) ∨
  (key = "genres" ∧ a.src = v ∧ a.kind = .IS ∧ a.dst.label = .genre) ∨
  (key = "styles" ∧ a.src = v ∧ a.kind = .IS ∧ a.dst.label = .style) ∨
  (key = "formats" ∧ ((field? fields "media").getD .null).isDict = false ∧ a.src = v ∧
    a.kind = .ISSUED_ON mediaSource ∧ a.dst.label = .medium) ∨
  (key = "extraartists" ∧ a.dst = v ∧ (∃ role, a.kind = .CREDITED_ON role) ∧ a.src.label = .person)

section Stale

variable {env : Env} {path : Path} {g : Graph} {keys : List String}
  {fields : List (String × PyValue)} {v : Node} {key : String} {a : Arc Node Rel}

/-- A computation that reads an emptied list. -/
theorem eq_of_emptied {α : Type} {f : PyValue → Except PyError (List α)} {xs : List α}
    {default : PyValue} (hf : f (.arr []) = .ok [])
    (h : f ((listEntry (some (.arr [])) keys fields key).getD default) = .ok xs) :
    key ∈ keys → xs = [] := by
  intro hkey
  rw [listEntry, if_pos hkey, Option.getD_some, hf] at h
  exact (Except.ok.inj h).symm

/-- The emptied lists of a master. -/
def MasterRow.Emptied (keys : List String) (m : MasterRow) : Prop :=
  ("artists" ∈ keys → m.artists = []) ∧
    ("genres" ∈ keys → m.keepGenres = [] ∧ m.genres = []) ∧
    ("styles" ∈ keys → m.keepStyles = [] ∧ m.styles = [])

theorem emptied_masterRow {m : MasterRow}
    (h : masterRow (withLists (some (.arr [])) keys fields) = .ok m) : m.Emptied keys := by
  simp only [masterRow, get_withLists, ok_bind, bind_eq_ok, pure_eq_ok] at h
  obtain ⟨genres, hgenres, styles, hstyles, _, -, _, -, _, -, _, -, artists, hartists, _, -, rfl⟩ := h
  have hg := eq_of_emptied (f := truthyNames) rfl hgenres
  have hs := eq_of_emptied (f := truthyNames) rfl hstyles
  exact ⟨eq_of_emptied rfl hartists, fun hkey => ⟨hg hkey, hg hkey⟩, fun hkey => ⟨hs hkey, hs hkey⟩⟩

theorem emptied_masterRecord {m : MasterRow}
    (h : masterRecord (withLists (some (.arr [])) keys fields) = .ok m) : m.Emptied keys := by
  simp only [masterRecord, get_withLists, getD_withLists, ok_bind, bind_eq_ok, pure_eq_ok] at h
  obtain ⟨_, -, _, -, _, -, _, -, _, -, _, -, artists, hartists, keepGenres, hkeepGenres, keepStyles,
    hkeepStyles, genres, hgenres, styles, hstyles, _, -, rfl⟩ := h
  exact ⟨eq_of_emptied rfl hartists,
    fun hkey => ⟨eq_of_emptied rfl hkeepGenres hkey, eq_of_emptied rfl hgenres hkey⟩,
    fun hkey => ⟨eq_of_emptied rfl hkeepStyles hkey, eq_of_emptied rfl hstyles hkey⟩⟩

/-- A master leaves no edge of its emptied lists. -/
theorem not_hasArc_master {m : MasterRow} (hkeys : keys ⊆ optionalLists .masters)
    (hm : m.Emptied keys) (hkey : key ∈ keys) (ha : ListArc fields (.master m.id) key a) :
    ¬(writeMasters [m] g).HasArc a := by
  have hmem : key ∈ optionalLists .masters := hkeys hkey
  obtain ⟨hartists, hgenres, hstyles⟩ := hm
  have harc : a ∈ m.Drops ∧ a ∉ m.Asserts := by
    rcases ha with ⟨rfl, hsrc, hkind, hdst⟩ | ⟨rfl, -⟩ | ⟨rfl, hsrc, hkind, hdst⟩ |
      ⟨rfl, hsrc, hkind, hdst⟩ | ⟨rfl, -⟩ | ⟨rfl, -⟩
    · refine ⟨Or.inl ⟨hsrc, hkind, hdst, by simp [hartists hkey]⟩, ?_⟩
      rintro (⟨x, hx, rfl⟩ | ⟨x, hx, rfl⟩ | ⟨x, hx, rfl⟩ | ⟨x, hx, rfl⟩)
      · simp [hartists hkey] at hx
      all_goals cases hkind
    · cases (show "labels" ∉ optionalLists .masters by decide) hmem
    · refine ⟨Or.inr (Or.inl ⟨hsrc, hkind, hdst, by simp [hgenres hkey]⟩), ?_⟩
      rintro (⟨x, hx, rfl⟩ | ⟨x, hx, rfl⟩ | ⟨x, hx, rfl⟩ | ⟨x, hx, rfl⟩)
      · cases hkind
      · simp [hgenres hkey] at hx
      · cases hdst
      · cases hkind
    · refine ⟨Or.inr (Or.inr ⟨hsrc, hkind, hdst, by simp [hstyles hkey]⟩), ?_⟩
      rintro (⟨x, hx, rfl⟩ | ⟨x, hx, rfl⟩ | ⟨x, hx, rfl⟩ | ⟨x, hx, rfl⟩)
      · cases hkind
      · cases hdst
      · simp [hstyles hkey] at hx
      · cases hkind
    · cases (show "formats" ∉ optionalLists .masters by decide) hmem
    · cases (show "extraartists" ∉ optionalLists .masters by decide) hmem
  rw [writeMasters_eq, arcEffect_masters]
  simp [harc.1, harc.2]

/-- The emptied lists of a release. -/
def ReleaseRow.Emptied (keys : List String) (fields : List (String × PyValue)) (r : ReleaseRow) :
    Prop :=
  ("artists" ∈ keys → r.artists = []) ∧ ("labels" ∈ keys → r.labels = []) ∧
    ("genres" ∈ keys → r.keepGenres = [] ∧ r.genres = []) ∧
    ("styles" ∈ keys → r.keepStyles = [] ∧ r.styles = []) ∧
    ("formats" ∈ keys → ((field? fields "media").getD .null).isDict = false → r.mediaRows = []) ∧
    ("extraartists" ∈ keys → r.creditRows = [])

/-- Without formats and media, no media rows. -/
theorem mediaRows_of_emptied (henv : env.NoFormatsNoMedia) (hmedia : "media" ∉ keys)
    {block : PyValue} {rows : List MediaRow}
    (hblock : resolveMediaBlock env (withLists (some (.arr [])) keys fields) = .ok block)
    (hrows : issuedOnRows env block = .ok rows) (hformats : "formats" ∈ keys)
    (hdict : ((field? fields "media").getD .null).isDict = false) : rows = [] := by
  obtain ⟨block', hmapped, -, hnone⟩ := henv
  rw [resolveMediaBlock_of_formats (Or.inr (Or.inr rfl)) hmedia hformats hdict, if_pos rfl,
    hmapped] at hblock
  obtain rfl : block' = block := Except.ok.inj hblock
  exact Except.ok.inj (hrows.symm.trans hnone)

theorem emptied_releaseRow (henv : env.NoFormatsNoMedia) (hmedia : "media" ∉ keys) {r : ReleaseRow}
    (h : releaseRow env (withLists (some (.arr [])) keys fields) = .ok r) :
    r.Emptied keys fields := by
  simp only [releaseRow, get_withLists, ok_bind, bind_eq_ok, pure_eq_ok] at h
  obtain ⟨block, hblock, genres, hgenres, styles, hstyles, _, -, _, -, _, -, _, -, _, -, _, -, _, -,
    _, -, artists, hartists, labels, hlabels, _, -, rows, hrows, _, -, _, -, credits, hcredits, rfl⟩ := h
  have hg := eq_of_emptied (f := truthyNames) rfl hgenres
  have hs := eq_of_emptied (f := truthyNames) rfl hstyles
  exact ⟨eq_of_emptied rfl hartists, eq_of_emptied rfl hlabels, fun hkey => ⟨hg hkey, hg hkey⟩,
    fun hkey => ⟨hs hkey, hs hkey⟩, mediaRows_of_emptied henv hmedia hblock hrows,
    eq_of_emptied (f := personCreditRows env) rfl hcredits⟩

theorem emptied_releaseRecord (henv : env.NoFormatsNoMedia) (hmedia : "media" ∉ keys)
    {r : ReleaseRow} (h : releaseRecord env (withLists (some (.arr [])) keys fields) = .ok r) :
    r.Emptied keys fields := by
  simp only [releaseRecord, get_withLists, getD_withLists, ok_bind, bind_eq_ok, pure_eq_ok] at h
  obtain ⟨block, hblock, _, -, _, -, _, -, _, -, _, -, _, -, _, -, _, -, _, -, artists, hartists,
    labels, hlabels, keepGenres, hkeepGenres, keepStyles, hkeepStyles, genres, hgenres, styles,
    hstyles, _, -, rows, hrows, _, -, _, -, credits, hcredits, rfl⟩ := h
  exact ⟨eq_of_emptied rfl hartists, eq_of_emptied rfl hlabels,
    fun hkey => ⟨eq_of_emptied rfl hkeepGenres hkey, eq_of_emptied rfl hgenres hkey⟩,
    fun hkey => ⟨eq_of_emptied rfl hkeepStyles hkey, eq_of_emptied rfl hstyles hkey⟩,
    mediaRows_of_emptied henv hmedia hblock hrows,
    eq_of_emptied (f := personCreditRows env) rfl hcredits⟩

/-- An arc that a release asserts is of one of its lists. -/
theorem ne_nil_of_asserts {r : ReleaseRow} (h : a ∈ r.Asserts) :
    (a.kind = .BY → r.artists ≠ []) ∧ (a.kind = .ON → r.labels ≠ []) ∧
      (a.kind = .IS → a.dst.label = .genre → r.genres ≠ []) ∧
      (a.kind = .IS → a.dst.label = .style → r.styles ≠ []) ∧
      (a.kind = .ISSUED_ON mediaSource → r.mediaRows ≠ []) ∧
      ∀ role, a.kind = .CREDITED_ON role → r.creditRows ≠ [] := by
  rcases h with ⟨x, hx, rfl⟩ | ⟨x, hx, rfl⟩ | ⟨x, hx, rfl⟩ | ⟨x, hx, rfl⟩ | ⟨x, hx, rfl⟩ |
    ⟨x, hx, rfl⟩ | ⟨x, hx, rfl | rfl⟩ | ⟨x, hx, rfl⟩ | ⟨x, hx, rfl⟩
  all_goals
    have hne := List.ne_nil_of_mem hx
    simp [hne]

/-- A release leaves no edge of its emptied lists. -/
theorem not_hasArc_release {r : ReleaseRow} (hr : r.Emptied keys fields) (hkey : key ∈ keys)
    (ha : ListArc fields (.release r.id) key a) : ¬(writeReleases [r] g).HasArc a := by
  obtain ⟨hartists, hlabels, hgenres, hstyles, hformats, hcredits⟩ := hr
  have harc : a.kind ≠ .SAME_AS ∧ a ∈ r.Drops ∧ a ∉ r.Asserts := by
    rcases ha with ⟨rfl, hsrc, hkind, hdst⟩ | ⟨rfl, hsrc, hkind, hdst⟩ |
      ⟨rfl, hsrc, hkind, hdst⟩ | ⟨rfl, hsrc, hkind, hdst⟩ | ⟨rfl, hdict, hsrc, hkind, hdst⟩ |
      ⟨rfl, hdst, ⟨role, hkind⟩, hsrc⟩
    · refine ⟨by simp [hkind], Or.inl ⟨hsrc, Or.inl ⟨hkind, hdst, by simp [hartists hkey]⟩⟩,
        fun h => (ne_nil_of_asserts h).1 hkind (hartists hkey)⟩
    · refine ⟨by simp [hkind], Or.inl ⟨hsrc, Or.inr (Or.inl ⟨hkind, hdst, by simp [hlabels hkey]⟩)⟩,
        fun h => (ne_nil_of_asserts h).2.1 hkind (hlabels hkey)⟩
    · refine ⟨by simp [hkind], Or.inl ⟨hsrc, Or.inr (Or.inr (Or.inr (Or.inl
        ⟨hkind, hdst, by simp [hgenres hkey]⟩)))⟩,
        fun h => (ne_nil_of_asserts h).2.2.1 hkind hdst (hgenres hkey).2⟩
    · refine ⟨by simp [hkind], Or.inl ⟨hsrc, Or.inr (Or.inr (Or.inr (Or.inr
        ⟨hkind, hdst, by simp [hstyles hkey]⟩)))⟩,
        fun h => (ne_nil_of_asserts h).2.2.2.1 hkind hdst (hstyles hkey).2⟩
    · refine ⟨by simp [hkind], Or.inr (Or.inl
        ⟨hsrc, hkind, hdst, by simp [hformats hkey hdict]⟩),
        fun h => (ne_nil_of_asserts h).2.2.2.2.1 hkind (hformats hkey hdict)⟩
    · refine ⟨by simp [hkind], Or.inr (Or.inr (Or.inr ⟨hdst, hsrc, ?_⟩)),
        fun h => (ne_nil_of_asserts h).2.2.2.2.2 role hkind (hcredits hkey)⟩
      simp [staleCreditEdge, hkind, hcredits hkey, notInPairs]
  rw [arcs_writeReleases harc.1]
  simp [harc.2.1, harc.2.2]

theorem recordNode?_of_key {nodeLabel : Label} {record id k : PyValue}
    (hid : record.get "id" = .ok id) (hk : nodeKey id = .ok k) :
    recordNode? nodeLabel record = some ⟨nodeLabel, k⟩ := by
  simp only [recordNode?, hid, idNode?, hk]

theorem recordNode?_master {record : PyValue} {m : MasterRow}
    (h : path.row env .masters record = .ok m) : recordNode? .master record = some (.master m.id) := by
  cases path with
  | one =>
    have hrow : masterRecord record = .ok m := h
    simp only [masterRecord, bind_eq_ok, pure_eq_ok] at hrow
    have hkey : ∃ id, record.item "id" = .ok id ∧ nodeKey id = .ok m.id := by grind
    obtain ⟨id, hid, hk⟩ := hkey
    exact recordNode?_of_key (get_of_item hid) hk
  | batch => exact NodeWriter.recordNode?_eq (T := mastersWriter env) h

theorem recordNode?_release {record : PyValue} {r : ReleaseRow}
    (h : path.row env .releases record = .ok r) :
    recordNode? .release record = some (.release r.id) := by
  cases path with
  | one =>
    have hrow : releaseRecord env record = .ok r := h
    simp only [releaseRecord, bind_eq_ok, pure_eq_ok] at hrow
    have hkey : ∃ id, record.item "id" = .ok id ∧ nodeKey id = .ok r.id := by grind
    obtain ⟨id, hid, hk⟩ := hkey
    exact recordNode?_of_key (get_of_item hid) hk
  | batch => exact NodeWriter.recordNode?_eq (T := releasesWriter env) h

/-- **The rows of emptied lists leave no stale edge.** -/
theorem not_hasArc_of_row {t : DataType} {r : RowOf t} (henv : env.NoFormatsNoMedia)
    (hkeys : keys ⊆ optionalLists t)
    (h : path.row env t (withLists (some (.arr [])) keys fields) = .ok r)
    (hv : recordNode? t.nodeLabel (withLists (some (.arr [])) keys fields) = some v)
    (hkey : key ∈ keys) (ha : ListArc fields v key a) :
    ¬((writerOf env t).projector.write [r] g).HasArc a := by
  have hmem := hkeys hkey
  cases t with
  | artists | labels =>
    rcases ha with ⟨rfl, -⟩ | ⟨rfl, -⟩ | ⟨rfl, -⟩ | ⟨rfl, -⟩ | ⟨rfl, -⟩ | ⟨rfl, -⟩ <;>
      simp [optionalLists] at hmem
  | masters =>
    obtain rfl : Node.master r.id = v := Option.some.inj ((recordNode?_master h).symm.trans hv)
    have hm : r.Emptied keys := by
      cases path with
      | one => exact emptied_masterRecord h
      | batch => exact emptied_masterRow h
    exact not_hasArc_master hkeys hm hkey ha
  | releases =>
    obtain rfl : Node.release r.id = v := Option.some.inj ((recordNode?_release h).symm.trans hv)
    have hmedia : "media" ∉ keys := notMem_keys hkeys (by decide)
    have hr : r.Emptied keys fields := by
      cases path with
      | one => exact emptied_releaseRecord henv hmedia h
      | batch => exact emptied_releaseRow henv hmedia h
    exact not_hasArc_release hr hkey ha

end Stale

/-! ### Null and missing lists -/

/-- Null lists mean the same as missing ones: the path accepts the record, with the outcome of empty
lists, and a graph it writes has none of the edges of these lists. -/
def NullMeansMissing (env : Env) (path : Path) (t : DataType) (g : Graph) (keys : List String)
    (fields : List (String × PyValue)) : Prop :=
  let outcome value := path.outcome env t g (withLists value keys fields)
  outcome (some .null) = outcome none ∧ outcome none = outcome (some (.arr [])) ∧
    outcome none ≠ .refused ∧
    ∀ g', outcome none = .written g' →
      ∀ v, recordNode? t.nodeLabel (.obj fields) = some v →
        ∀ key ∈ keys, ∀ a, ListArc fields v key a → ¬g'.HasArc a

/-- The rest of the record has rows. -/
def WellFormed (env : Env) (path : Path) (t : DataType) (keys : List String)
    (fields : List (String × PyValue)) : Prop :=
  ∃ r, path.row env t (withLists (some (.arr [])) keys fields) = .ok r

/-- Mappers that find no media. -/
def noMediaEnv : Env :=
  { plainEnv with
    mapDiscogsFormats := fun _ => .ok (.obj [("items", .arr []), ("families", .arr [])])
    legacyFormatNamesToMedia := fun _ => .ok (.obj [("items", .arr []), ("families", .arr [])]) }

/-- A release with an artist, a genre and two more lists. -/
def listedRelease : List (String × PyValue) :=
  [("id", .str "1"), ("title", .str "Release"), ("sha256", .str "r"),
    ("artists", .arr [.obj [("id", .str "2"), ("name", .str "Autechre")]]),
    ("genres", .arr [.str "Electronic"]), ("labels", .arr []), ("extraartists", .arr [])]

end Graphinator
