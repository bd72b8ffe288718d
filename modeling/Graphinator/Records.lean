import Graphinator.Catalog
import Graphinator.Lib.Utf8

/-!
# What the projections read in a record

The parameter rows of the Cypher statements, computed from a record the way the Python computes
them. A function raises where the Python raises, and also where Neo4j would refuse the value it
returns: either way the transaction is rolled back.

The `common` package and the parts of the runtime that depend on the Unicode database are
parameters.

## Main definitions

* `Env` : what is not in the repository.
* `usableMasterId`, `referenceName`.
* `resolveMediaBlock`, `mediaFamilies`, `issuedOnRows`.
* `resolveCompaniesBlock`, `creditedToRows`, `companyIdentity`, `releaseCountry`.
* `personCreditRows`, `boundPersonName`.

## Main results

* `issuedOnRows_qty` : the quantity of a medium is the sum over its usable items.
-/

namespace Graphinator

open PyValue

/-- The `common` package, and what the runtime knows about texts. -/
structure Env where
  /-- `common.person_names.strip_person_name`. -/
  stripPersonName : String → String
  /-- `common.credit_roles.categorize_role`. -/
  categorizeRole : PyValue → Except PyError PyValue
  /-- `common.media.medium_label`; `none` where it raises `KeyError`. -/
  mediumLabel : String → Option String
  /-- `common.media.map_discogs_formats`. -/
  mapDiscogsFormats : List PyValue → Except PyError PyValue
  /-- `common.media.legacy_format_names_to_media`. -/
  legacyFormatNamesToMedia : List String → Except PyError PyValue
  /-- `common.media.flatten_descriptions`. -/
  flattenDescriptions : PyValue → Except PyError (List String)
  /-- `hashlib.sha256(text.encode("utf-8")).hexdigest()`. -/
  sha256Hex : String → String
  /-- `str.casefold`. -/
  casefold : String → String
  /-- `str.isdigit` of one character. -/
  isDigit : Char → Bool
  /-- The value of a decimal digit. `isdigit` also holds of digits that are not decimal. -/
  decimal : Char → Option ℕ
  /-- `str(value)` of floats and containers. -/
  repr : PyValue → String
  /-- The text Cypher gives a float. -/
  floatText : ℚ → String

/-- An environment for records that need nothing of it but the texts of numbers. -/
def plainEnv : Env where
  stripPersonName := strip
  categorizeRole _ := .ok (.str "other")
  mediumLabel _ := none
  mapDiscogsFormats _ := .ok (.obj [])
  legacyFormatNamesToMedia _ := .ok (.obj [])
  flattenDescriptions _ := .ok []
  sha256Hex s := s
  casefold s := s
  isDigit := Char.isDigit
  decimal c := if c.isDigit then some (c.toNat - '0'.toNat) else none
  repr _ := ""
  floatText _ := ""

/-! ### References -/

/-- `NO_MASTER_ID`. -/
def noMasterId : String := "0"

/-- `usable_master_id`. -/
def usableMasterId (value : PyValue) : Option String :=
  let text? := match value with
    | .int n => some (toString n)
    | .str s => some (strip s)
    | _ => none
  text?.bind fun text => if text = "" ∨ text = noMasterId then none else some text

theorem usableMasterId_ne {value : PyValue} {text : String} (h : usableMasterId value = some text) :
    text ≠ noMasterId := by
  simp only [usableMasterId, Option.bind_eq_some_iff] at h
  obtain ⟨text', -, h⟩ := h
  split_ifs at h with hne
  cases h
  exact fun heq => hne (Or.inr heq)

/-- `_text` of the companies projection: a trimmed text, or `none` for anything else. -/
def text : PyValue → Option String
  | .str s => if strip s = "" then none else some (strip s)
  | _ => none

/-- `reference_name`. -/
def referenceName (reference : PyValue) : Except PyError (Option String) := do
  let name ← reference.get "name"
  return text name

/-- A text property, or null. -/
def textValue : Option String → PyValue
  | some s => .str s
  | none => .null

/-- A reference to an Artist or a Label, with the name that fills in a stub. -/
structure Reference where
  id : PyValue
  name : Option String
deriving DecidableEq

/-- The references of a list that carry an id, each with its trimmed name. -/
def references (values : PyValue) : Except PyError (List Reference) := do
  let items ← (values.orElse (.arr [])).iter
  let rows ← items.mapM fun item => do
    if (← item.get "id").truthy then
      return some { id := ← nodeKey (← item.get "id"), name := ← referenceName item }
    else
      return (none : Option Reference)
  return rows.filterMap id

/-- The ids of a list of references, `[a["id"] for a in values if a.get("id")]`. -/
def referenceIds (values : PyValue) : Except PyError (List PyValue) := do
  let items ← (values.orElse (.arr [])).iter
  let ids ← items.mapM fun item => do
    if (← item.get "id").truthy then
      return some (← nodeKey (← item.get "id"))
    else
      return (none : Option PyValue)
  return ids.filterMap id

/-- `[name for name in values if name]`, for `values` that may be missing. -/
def truthyNames (values : PyValue) : Except PyError (List PyValue) := do
  let items ← (values.orElse (.arr [])).iter
  (items.filter truthy).mapM nodeKey

/-- The `(genre, style)` pairs of a record that names a single genre. -/
def genreStylePairs (record : PyValue) : Except PyError (List (PyValue × PyValue)) := do
  let genres ← record.getD "genres" (.arr [])
  let styles ← record.getD "styles" (.arr [])
  if (← genres.len) = 1 then
    let genre ← genres.item0
    if genre.truthy then
      let genre ← nodeKey genre
      let styles ← ((← styles.iter).filter truthy).mapM nodeKey
      return styles.map fun style => (genre, style)
  return []

/-! ### Media -/

/-- `MEDIA_SOURCE`. -/
def mediaSource : PyValue := .str "discogs"

/-- `resolve_media_block`. -/
def resolveMediaBlock (env : Env) (record : PyValue) : Except PyError PyValue := do
  let media ← record.get "media"
  if media.isDict then
    return media
  let formats ← record.get "formats"
  match formats with
  | .arr entries =>
    if entries.all isDict then
      env.mapDiscogsFormats entries
    else
      legacy entries
  | _ => legacy (← (formats.orElse (.arr [])).iter)
where
  /-- The names of the entries that are objects, for a list that lost its structure. -/
  legacy (entries : List PyValue) : Except PyError PyValue := do
    let names ← (entries.filter isDict).mapM fun entry => do
      let name ← entry.get "name"
      let own := match name with
        | .str s => if s = "" then [] else [s]
        | _ => []
      return own ++ (← env.flattenDescriptions (← entry.get "descriptions"))
    env.legacyFormatNamesToMedia names.flatten

/-- `media_families`. -/
def mediaFamilies (block : PyValue) : Except PyError (List String) := do
  match ← block.get "families" with
  | .arr families => return families.filterMap fun family => match family with
    | .str s => some s
    | _ => none
  | _ => return []

/-- `_label`: the label of the taxonomy, or the id of a medium it does not know. -/
def mediumLabelOrId (env : Env) (medium : String) : String := (env.mediumLabel medium).getD medium

/-- `_quantity`: the unit count of an item, one when it is absent or unusable. -/
def quantity (item : PyValue) : Except PyError ℤ := do
  match ← item.get "qty" with
  | .int n => return if n < 1 then 1 else n
  | _ => return 1

/-- A row of MERGE_MEDIA_CYPHER, without its release. -/
structure MediaRow where
  medium : String
  family : String
  label : String
  qty : ℤ
deriving DecidableEq, Repr

/-- A usable item of a media block. -/
structure MediaItem where
  medium : String
  family : String
  qty : ℤ
deriving DecidableEq, Repr

/-- An item of a media block, if it names a medium and a family. -/
def usableMediaItem (item : PyValue) : Except PyError (Option MediaItem) := do
  if !item.isDict then
    return none
  match ← item.get "medium", ← item.get "family" with
  | .str medium, .str family =>
    if medium = "" ∨ family = "" then
      return none
    return some { medium, family, qty := ← quantity item }
  | _, _ => return none

/-- One item of the loop of `issued_on_rows`: add to the row of its medium, or append one. -/
def addMediaItem (env : Env) (rows : List MediaRow) (item : MediaItem) : List MediaRow :=
  if rows.any (·.medium = item.medium) then
    rows.map fun row =>
      if row.medium = item.medium then { row with qty := row.qty + item.qty } else row
  else
    rows ++ [{ medium := item.medium, family := item.family,
               label := mediumLabelOrId env item.medium, qty := item.qty }]

/-- The usable items of a media block. -/
def usableMediaItems (block : PyValue) : Except PyError (List MediaItem) := do
  let items ← ((← block.get "items").orElse (.arr [])).iter
  let usable ← items.mapM usableMediaItem
  return usable.filterMap id

/-- `issued_on_rows`. -/
def issuedOnRows (env : Env) (block : PyValue) : Except PyError (List MediaRow) := do
  return (← usableMediaItems block).foldl (addMediaItem env) []

/-! ### Companies -/

/-- `COMPANY_SOURCE`. -/
def companySource : PyValue := .str "discogs"

/-- `UNMAPPED_ROLE_CATEGORY`. -/
def unmappedRoleCategory : String := "other"

/-- `DERIVED_ID_PREFIX`. -/
def derivedIdPrefix : String := "name:"

/-- `resolve_companies_block`. -/
def resolveCompaniesBlock (record : PyValue) : Except PyError (Option PyValue) := do
  let companies ← record.get "companies"
  return if companies.isDict then some companies else none

/-- The longest text of digits that `int` converts. -/
def intMaxStrDigits : ℕ := 4300

/-- `int(text)` of a text of digits. -/
def intOfDigits (env : Env) (text : String) : Except PyError ℕ :=
  if text.length > intMaxStrDigits then .error .valueError
  else text.toList.foldlM (fun n c => match env.decimal c with
    | some d => .ok (10 * n + d)
    | none => .error .valueError) 0

/-- `_discogs_id`. -/
def discogsId (env : Env) : PyValue → Except PyError (Option String)
  | .int n => .ok (if n ≥ 1 then some (toString n) else none)
  | .str s =>
    let text := strip s
    if text ≠ "" ∧ text.toList.all env.isDigit then
      (intOfDigits env text).map fun n => if n ≥ 1 then some text else none
    else .ok none
  | _ => .ok none

/-- `company_identity`. -/
def companyIdentity (env : Env) (item : PyValue) : Except PyError (Option String) := do
  match ← discogsId env (← item.get "discogs_id") with
  | some id => return some id
  | none =>
    let name ← item.get "name"
    return (text name).map fun name =>
      derivedIdPrefix ++ env.casefold (" ".intercalate (PyValue.split name))

/-- A row of MERGE_COMPANY_CYPHER, without its release. -/
structure CompanyRow where
  id : String
  name : String
  role : String
  roleCategory : String
deriving DecidableEq, Repr

/-- An entry of a companies block, if it has an identity and a role. -/
def usableCompany (env : Env) (item : PyValue) : Except PyError (Option CompanyRow) := do
  if !item.isDict then
    return none
  let role := text (← item.get "role")
  match role, ← companyIdentity env item with
  | some role, some id =>
    let name := text (← item.get "name")
    let category := text (← item.get "role_category")
    return some { id, name := name.getD id, role, roleCategory := category.getD unmappedRoleCategory }
  | _, _ => return none

/-- One entry of the loop of `credited_to_rows`: the first of a company and a role counts. -/
def addCompany (rows : List CompanyRow) (row : CompanyRow) : List CompanyRow :=
  if rows.any fun r => r.id = row.id ∧ r.role = row.role then rows else rows ++ [row]

/-- `credited_to_rows`. -/
def creditedToRows (env : Env) (block : PyValue) : Except PyError (List CompanyRow) := do
  let items ← ((← block.get "items").orElse (.arr [])).iter
  let rows ← items.mapM (usableCompany env)
  return (rows.filterMap id).foldl addCompany []

/-- `release_country`. -/
def releaseCountry (record : PyValue) : Except PyError (Option String) := do
  return text (← record.get "country")

/-! ### Person credits -/

/-- `PERSON_NAME_MAX_BYTES`. -/
def personNameMaxBytes : ℕ := 8000

/-- `bound_person_name`. The cut is made in bytes. -/
def boundPersonName (env : Env) (name : String) : String :=
  let encoded := Utf8.encode name.toList
  if encoded.length ≤ personNameMaxBytes then name
  else
    let digest := String.ofList ((env.sha256Hex name).toList.take 16)
    let suffix := "... [" ++ digest ++ "]"
    let keep := personNameMaxBytes - (Utf8.encode suffix.toList).length
    String.ofList (Utf8.decodeIgnoring (encoded.take keep)) ++ suffix

/-- A row of the CREDITED_ON statement, without its release. -/
structure CreditRow where
  name : PyValue
  role : PyValue
  category : PyValue
  /-- The linked artist, where Discogs links one. -/
  artistId : Option PyValue
deriving DecidableEq

/-- One credit of `extraartists`, if it is usable. -/
def usableCredit (env : Env) (credit : PyValue) : Except PyError (Option CreditRow) := do
  let name ← credit.get "name"
  let role ← credit.getD "role" (.str "")
  if !name.truthy || !role.truthy then
    return none
  let name? := match name with
    | .str s =>
      let stripped := env.stripPersonName s
      if stripped = "" then none else some (PyValue.str (boundPersonName env stripped))
    | _ => some name
  match name? with
  | none => return none
  | some name =>
    let category ← storable (← env.categorizeRole role)
    let artistId ← credit.get "id"
    return some
      { name := ← nodeKey name
        role := ← nodeKey role
        category
        artistId := if artistId.truthy then some artistId else none }

/-- `person_credit_rows`. -/
def personCreditRows (env : Env) (extraartists : PyValue) : Except PyError (List CreditRow) := do
  let credits ← (extraartists.orElse (.arr [])).iter
  let rows ← credits.mapM (usableCredit env)
  return rows.filterMap id

/-! ### The quantities of the media rows -/

/-- The quantity that a list of items asserts for a medium. -/
def assertedQty (items : List MediaItem) (medium : String) : ℤ :=
  ((items.filter (·.medium = medium)).map (·.qty)).sum

/-- The rows built from `items`: one for each medium, with the sum of its quantities. -/
structure MediaRowsOf (items : List MediaItem) (rows : List MediaRow) : Prop where
  nodup : (rows.map (·.medium)).Nodup
  mem_iff (medium : String) : medium ∈ rows.map (·.medium) ↔ medium ∈ items.map (·.medium)
  qty : ∀ row ∈ rows, row.qty = assertedQty items row.medium

theorem assertedQty_append (items : List MediaItem) (item : MediaItem) (medium : String) :
    assertedQty (items ++ [item]) medium =
      assertedQty items medium + if item.medium = medium then item.qty else 0 := by
  unfold assertedQty
  by_cases h : item.medium = medium <;> simp [List.filter_append, h]

theorem assertedQty_of_notMem {items : List MediaItem} {medium : String}
    (h : medium ∉ items.map (·.medium)) : assertedQty items medium = 0 := by
  have hnil : items.filter (·.medium = medium) = [] := by
    rw [List.filter_eq_nil_iff]
    intro item hitem
    simpa using fun heq => h (List.mem_map.mpr ⟨item, hitem, heq⟩)
  rw [assertedQty, hnil]
  rfl

/-- One item of the loop keeps what the rows say about the items read so far. -/
theorem MediaRowsOf.add {env : Env} {items : List MediaItem} {rows : List MediaRow}
    (h : MediaRowsOf items rows) (item : MediaItem) :
    MediaRowsOf (items ++ [item]) (addMediaItem env rows item) := by
  unfold addMediaItem
  split_ifs with hany
  · have hmem : item.medium ∈ rows.map (·.medium) := by simpa using hany
    have hmap : (rows.map fun row =>
        if row.medium = item.medium then { row with qty := row.qty + item.qty } else row).map
          (·.medium) = rows.map (·.medium) := by
      rw [List.map_map]
      refine List.map_congr_left fun row _ => ?_
      simp only [Function.comp_apply]
      split_ifs <;> rfl
    refine ⟨by rw [hmap]; exact h.nodup, fun medium => ?_, fun row hrow => ?_⟩
    · rw [hmap, h.mem_iff, List.map_append, List.mem_append]
      refine ⟨Or.inl, ?_⟩
      rintro (hm | hm)
      · exact hm
      · obtain rfl : medium = item.medium := by simpa using hm
        exact (h.mem_iff _).mp hmem
    · obtain ⟨row, hold, rfl⟩ := List.mem_map.mp hrow
      have hqty := h.qty row hold
      split_ifs with heq
      · rw [assertedQty_append, if_pos heq.symm, hqty]
      · rw [assertedQty_append, if_neg fun h => heq h.symm, hqty, add_zero]
  · have hnot : item.medium ∉ rows.map (·.medium) := by simpa using hany
    refine ⟨?_, fun medium => ?_, fun row hrow => ?_⟩
    · rw [List.map_append, List.nodup_append']
      refine ⟨h.nodup, List.nodup_singleton _, ?_⟩
      simpa using hnot
    · simp only [List.map_append, List.mem_append, h.mem_iff, List.map_cons, List.map_nil]
    · rcases List.mem_append.mp hrow with hrow | hrow
      · have hne : item.medium ≠ row.medium := fun heq =>
          hnot (heq ▸ List.mem_map_of_mem hrow)
        rw [assertedQty_append, if_neg hne, add_zero, h.qty row hrow]
      · obtain rfl := List.mem_singleton.mp hrow
        have hzero := assertedQty_of_notMem fun hm => hnot ((h.mem_iff item.medium).mpr hm)
        rw [assertedQty_append, if_pos rfl, hzero, zero_add]

/-- **One row for each medium, with the sum of its quantities.** -/
theorem issuedOnRows_qty (env : Env) (items : List MediaItem) :
    MediaRowsOf items (items.foldl (addMediaItem env) []) := by
  suffices h : ∀ done rows, MediaRowsOf done rows →
      MediaRowsOf (done ++ items) (items.foldl (addMediaItem env) rows) from
    h [] [] ⟨List.nodup_nil, fun _ => Iff.rfl, fun _ hr => absurd hr List.not_mem_nil⟩
  intro done rows h
  induction items generalizing done rows with
  | nil => simpa using h
  | cons item items ih =>
    have hstep := ih (done ++ [item]) (addMediaItem env rows item) (h.add item)
    rwa [List.append_assoc] at hstep

end Graphinator
