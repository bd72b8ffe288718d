import Graphinator.Asserted
import Graphinator.WritePaths

/-!
# The names of the persons credited on a release

A person is the node of a name, and the index behind that key refuses a name that is too long. A
longer name is cut in bytes, decoded again, and told apart from others by a digest. The edge of a
credit is merged under the name and the role of its row, and the prune before it keeps the edges
under the same pairs.

## Main definitions

* `personDigest`, `personSuffix` : what the name of a long name ends in.
* `PersonName` : the name of a person, from the stripped name of a credit.
* `creditedOnPruneRecord` : the row of the prune.

## Main results

* `boundPersonName_idem`, `boundPersonName_ne`.
* `mem_personCreditRows` : the credit that a row comes from.
* `hasArc_creditedOn` : the edges after the prune and the merge are those of the keep-list.
* `person_names_fit` : what is guaranteed about the names of the rows.
-/

namespace Graphinator

open PropertyGraph PyValue

/-! ### Bounded names -/

section Names

variable {env : Env} {name x y : String}

/-- The digits of the digest that a long name ends in. -/
def personDigest (env : Env) (name : String) : String :=
  String.ofList ((env.sha256Hex name).toList.take 16)

/-- What a long name ends in. -/
def personSuffix (env : Env) (name : String) : String := "... [" ++ personDigest env name ++ "]"

/-- The name does not fit as it is. -/
def OverLong (name : String) : Prop := personNameMaxBytes < name.utf8ByteSize

/-- What `hexdigest` gives is 64 digits long. -/
def Env.Digests (env : Env) : Prop := ∀ text, (env.sha256Hex text).toList.length = 64

theorem boundPersonName_of_le (h : name.utf8ByteSize ≤ personNameMaxBytes) :
    boundPersonName env name = name := by
  rw [← Utf8.length_encode] at h
  exact if_pos h

/-- The name of a long name: its whole characters within the cut, and the suffix. -/
theorem boundPersonName_of_overLong (h : OverLong name) :
    boundPersonName env name =
      String.ofList (Utf8.takeBytes (personNameMaxBytes - (personSuffix env name).utf8ByteSize)
        name.toList) ++ personSuffix env name := by
  rw [OverLong, ← Utf8.length_encode] at h
  rw [← Utf8.decodeIgnoring_take, ← Utf8.length_encode]
  exact if_neg (not_le.mpr h)

/-- A character takes up at most four bytes. -/
theorem utf8ByteSize_le (s : String) : s.utf8ByteSize ≤ 4 * s.toList.length := by
  rw [← Utf8.length_encode]
  induction s.toList with
  | nil => exact Nat.zero_le _
  | cons c cs ih =>
    have hc := c.utf8Size_le_four
    rw [Utf8.encode_cons, List.length_append, String.length_utf8EncodeChar, List.length_cons]
    omega

/-- A character takes up at least one byte. -/
theorem length_le_utf8ByteSize (s : String) : s.toList.length ≤ s.utf8ByteSize := by
  rw [← Utf8.length_encode]
  induction s.toList with
  | nil => exact Nat.zero_le _
  | cons c cs ih =>
    have hc := c.utf8Size_pos
    rw [Utf8.encode_cons, List.length_append, String.length_utf8EncodeChar, List.length_cons]
    omega

theorem length_personDigest (henv : env.Digests) (name : String) :
    (personDigest env name).toList.length = 16 := by
  rw [personDigest, String.toList_ofList, List.length_take, henv name]
  rfl

theorem length_personSuffix (henv : env.Digests) (name : String) :
    (personSuffix env name).toList.length = 22 := by
  have hdigest := length_personDigest henv name
  simp only [personSuffix, String.toList_append, List.length_append, hdigest]
  rfl

/-- The suffix leaves room for the name. -/
theorem utf8ByteSize_personSuffix_le (henv : env.Digests) (name : String) :
    (personSuffix env name).utf8ByteSize ≤ personNameMaxBytes := by
  have hsize := utf8ByteSize_le (personSuffix env name)
  rw [length_personSuffix henv] at hsize
  unfold personNameMaxBytes
  omega

theorem utf8ByteSize_boundPersonName_le (henv : env.Digests) (name : String) :
    (boundPersonName env name).utf8ByteSize ≤ personNameMaxBytes := by
  by_cases h : OverLong name
  · have hsuffix := utf8ByteSize_personSuffix_le henv name
    have hfront := (Utf8.isLongest_takeBytes
      (personNameMaxBytes - (personSuffix env name).utf8ByteSize) name.toList).fits
    rw [boundPersonName_of_overLong h, String.utf8ByteSize_append, ← Utf8.length_encode
      (String.ofList _), String.toList_ofList]
    omega
  · rw [boundPersonName_of_le (not_lt.mp h)]
    exact not_lt.mp h

theorem boundPersonName_ne_empty (hname : name ≠ "") : boundPersonName env name ≠ "" := by
  by_cases h : OverLong name
  · rw [boundPersonName_of_overLong h]
    intro hempty
    have htoList := congrArg String.toList hempty
    simp [personSuffix] at htoList
  · rwa [boundPersonName_of_le (not_lt.mp h)]

/-- A bounded name is not bounded again. -/
theorem boundPersonName_idem (henv : env.Digests) (name : String) :
    boundPersonName env (boundPersonName env name) = boundPersonName env name :=
  boundPersonName_of_le (utf8ByteSize_boundPersonName_le henv name)

/-- Long names with different digests are bounded to different names, whatever they begin with. -/
theorem boundPersonName_ne (henv : env.Digests) (hx : OverLong x) (hy : OverLong y)
    (hdigest : personDigest env x ≠ personDigest env y) :
    boundPersonName env x ≠ boundPersonName env y := by
  intro heq
  rw [boundPersonName_of_overLong hx, boundPersonName_of_overLong hy] at heq
  have htoList := congrArg String.toList heq
  rw [String.toList_append, String.toList_append] at htoList
  -- The suffixes have one length, so they are equal as the ends of one text.
  have hlength : (personSuffix env x).toList.length = (personSuffix env y).toList.length := by
    rw [length_personSuffix henv, length_personSuffix henv]
  have hsuffix := (List.append_inj' htoList hlength).2
  simp only [personSuffix, String.toList_append, List.append_cancel_right_eq,
    List.append_cancel_left_eq] at hsuffix
  exact hdigest (String.toList_inj.mp hsuffix)

/-- The name of a person, from the stripped name of a credit. -/
structure PersonName (env : Env) (stripped name : String) : Prop where
  ne_empty : name ≠ ""
  fits : name.utf8ByteSize ≤ personNameMaxBytes
  valid : name.toByteArray.IsValidUTF8
  unchanged : stripped.utf8ByteSize ≤ personNameMaxBytes → name = stripped
  cut : OverLong stripped → ∃ front,
    Utf8.IsLongest (personNameMaxBytes - (personSuffix env stripped).utf8ByteSize) front
      stripped.toList ∧ name = String.ofList front ++ personSuffix env stripped

theorem personName_boundPersonName (henv : env.Digests) (hname : name ≠ "") :
    PersonName env name (boundPersonName env name) where
  ne_empty := boundPersonName_ne_empty hname
  fits := utf8ByteSize_boundPersonName_le henv name
  valid := (boundPersonName env name).isValidUTF8
  unchanged := boundPersonName_of_le
  cut h := ⟨_, Utf8.isLongest_takeBytes _ _, boundPersonName_of_overLong h⟩

end Names

/-! ### The rows of the credits -/

section Rows

variable {env : Env} {credit : PyValue} {s : String} {row : CreditRow}

/-- A credit that is named by a string gives a row only where the name is more than padding. -/
theorem usableCredit_eq_some (hname : credit.get "name" = .ok (.str s))
    (h : usableCredit env credit = .ok (some row)) : env.stripPersonName s ≠ "" ∧
      row.name = .str (boundPersonName env (env.stripPersonName s)) := by
  obtain ⟨name, hget, h⟩ := bind_eq_ok.mp h
  obtain rfl : PyValue.str s = name := Except.ok.inj (hname.symm.trans hget)
  obtain ⟨role, -, h⟩ := bind_eq_ok.mp h
  split_ifs at h with husable
  · cases pure_eq_ok.mp h
  by_cases hpadding : env.stripPersonName s = ""
  · simp only [hpadding, if_true] at h
    cases pure_eq_ok.mp h
  · simp only [hpadding, if_false, nodeKey_str] at h
    obtain ⟨category, -, h⟩ := bind_eq_ok.mp h
    obtain ⟨stored, -, h⟩ := bind_eq_ok.mp h
    obtain ⟨artistId, -, h⟩ := bind_eq_ok.mp h
    obtain ⟨key, hkey, h⟩ := bind_eq_ok.mp h
    obtain ⟨roleKey, -, h⟩ := bind_eq_ok.mp h
    obtain rfl := Option.some.inj (pure_eq_ok.mp h)
    exact ⟨hpadding, (Except.ok.inj hkey).symm⟩

/-- Every row comes from a credit. -/
theorem exists_usableCredit {credits : List PyValue} {rows : List CreditRow}
    (h : personCreditRows env (.arr credits) = .ok rows) (hrow : row ∈ rows) :
    ∃ credit ∈ credits, usableCredit env credit = .ok (some row) := by
  obtain ⟨items, hitems, h⟩ := bind_eq_ok.mp h
  obtain ⟨found, hfound, h⟩ := bind_eq_ok.mp h
  obtain rfl := pure_eq_ok.mp h
  obtain ⟨row?, hmem, rfl⟩ := List.mem_filterMap.mp hrow
  obtain ⟨credit, hcredit, husable⟩ := exists_left_of_mem (mapM_eq_ok.mp hfound) hmem
  refine ⟨credit, ?_, husable⟩
  by_cases hempty : (PyValue.arr credits).truthy = true
  · rw [orElse, if_pos hempty] at hitems
    obtain rfl : credits = items := Except.ok.inj hitems
    exact hcredit
  · rw [orElse, if_neg hempty] at hitems
    obtain rfl : [] = items := Except.ok.inj hitems
    exact absurd hcredit List.not_mem_nil

end Rows

/-! ### The keep-list -/

/-- The row of the prune for one release. -/
structure CreditPruneRecord where
  key : PyValue
  keep : List (PyValue × PyValue)

/-- `credited_on_prune_record`. -/
def creditedOnPruneRecord (releaseId : PyValue) (rows : List CreditRow) : CreditPruneRecord :=
  { key := releaseId, keep := rows.map fun row => (row.name, row.role) }

section Keep

variable {r : ReleaseRow} {rows : List ReleaseRow} {name role : PyValue} {g : Graph}

/-- The pairs of the prune record. -/
def ReleaseRow.keep (r : ReleaseRow) : List (PyValue × PyValue) :=
  (creditedOnPruneRecord r.id r.creditRows).keep

/-- The arc that the CREDITED_ON statement merges for a name and a role. -/
def creditArc (r : ReleaseRow) (name role : PyValue) : Arc Node Rel :=
  ⟨.CREDITED_ON role, .person name, .release r.id⟩

theorem pruneCreditedOn_eq (r : ReleaseRow) : pruneCreditedOn r = deleteEdges fun e =>
    e.arc.dst = .release (creditedOnPruneRecord r.id r.creditRows).key ∧
      e.arc.src.label = .person ∧ (match e.arc.kind with
        | .CREDITED_ON role => notInPairs e.arc.src.key role r.keep
        | _ => false) = true := rfl

/-- The pairs that the prune keeps are the ones that the rows are merged under. -/
theorem creditArc_mem {r' : ReleaseRow} :
    creditArc r name role ∈ creditArcs r' ↔ r'.id = r.id ∧ (name, role) ∈ r'.keep := by
  simp only [ReleaseRow.keep, creditedOnPruneRecord, creditArc, creditArcs, List.mem_map,
    Set.mem_ofPred_eq, Arc.mk.injEq, Rel.CREDITED_ON.injEq, Node.mk.injEq, true_and, Prod.mk.injEq]
  constructor
  · rintro ⟨row, hrow, rfl, rfl, hid⟩
    exact ⟨hid.symm, row, hrow, rfl, rfl⟩
  · rintro ⟨hid, row, hrow, rfl, rfl⟩
    exact ⟨row, hrow, rfl, rfl, hid.symm⟩

/-- A pair with a role is stale where it is not on the list. -/
theorem notInPairs_iff (hrole : role ≠ .null) {keep : List (PyValue × PyValue)} :
    notInPairs name role keep = true ↔ (name, role) ∉ keep := by
  simp only [notInPairs, List.all_eq_true, Bool.or_eq_true, Bool.and_eq_true, decide_eq_true_eq]
  constructor
  · intro h hmem
    rcases h _ hmem with hname | ⟨-, hrole'⟩
    · exact hname rfl
    · exact hrole' rfl
  · rintro h ⟨name', role'⟩ hmem
    by_cases hname : name' = name
    · subst hname
      exact Or.inr ⟨hrole, fun heq => h (heq ▸ hmem)⟩
    · exact Or.inl hname

theorem creditArc_mem_drops (hrole : role ≠ .null) :
    creditArc r name role ∈ r.Drops ↔ (name, role) ∉ r.keep := by
  rw [← notInPairs_iff hrole]
  simp [ReleaseRow.Drops, creditArc, StaleReleaseEdge, droppedMedia, droppedArcs, droppedCompanies,
    staleCompanyEdge, droppedCredits, staleCreditEdge, ReleaseRow.keep, creditedOnPruneRecord]

theorem creditArc_mem_asserts {r' : ReleaseRow} :
    creditArc r name role ∈ r'.Asserts ↔ r'.id = r.id ∧ (name, role) ∈ r'.keep := by
  rw [← creditArc_mem]
  simp [ReleaseRow.Asserts, creditArc, arcsTo, partOfArcs, mediaArcs, companyArcs]

/-- **The edges of the credits after a transaction** are those of the keep-lists of its rows. -/
theorem hasArc_creditedOn (hr : r ∈ rows) (hrole : role ≠ .null) :
    (writeReleases rows g).HasArc (creditArc r name role) ↔
      ∃ r' ∈ rows, r'.id = r.id ∧ (name, role) ∈ r'.keep := by
  rw [arcs_writeReleases (by rintro ⟨⟩)]
  simp only [creditArc_mem_asserts]
  refine ⟨?_, Or.inr⟩
  rintro (⟨-, hdrops⟩ | hasserts)
  · refine ⟨r, hr, rfl, ?_⟩
    by_contra hkeep
    exact hdrops r hr ((creditArc_mem_drops hrole).mpr hkeep)
  · exact hasserts

end Keep

/-! ### The guarantees -/

/-- **The names of persons.** A row carries the name of its credit, stripped and bounded: it is not
empty, it fits the index, and where it is cut it is cut between characters. A bounded name is not
bounded again, and long names that are told apart by their digests are told apart. The keep-list of
a release holds the pairs that its rows are merged under, and after a transaction of either path
these pairs have an edge and no others. -/
theorem person_names_fit (env : Env) (henv : env.Digests) :
    (∀ (credits : List PyValue) (rows : List CreditRow),
      (∀ credit ∈ credits, ∃ s, credit.get "name" = .ok (.str s)) →
      personCreditRows env (.arr credits) = .ok rows →
      ∀ row ∈ rows, ∃ credit ∈ credits, ∃ s name, credit.get "name" = .ok (.str s) ∧
        row.name = .str name ∧ name = boundPersonName env (env.stripPersonName s) ∧
        PersonName env (env.stripPersonName s) name) ∧
    (∀ name, boundPersonName env (boundPersonName env name) = boundPersonName env name) ∧
    (∀ names : Set String, names.InjOn (personDigest env) → ∀ x ∈ names, ∀ y ∈ names,
      OverLong x → OverLong y → x ≠ y → boundPersonName env x ≠ boundPersonName env y) ∧
    (∀ (r : ReleaseRow) (name role : PyValue),
      (name, role) ∈ r.keep ↔ creditArc r name role ∈ creditArcs r) ∧
    (∀ (rows : List ReleaseRow) (g : Graph), ∀ r ∈ rows, ∀ name role, role ≠ .null →
      ((writeReleases rows g).HasArc (creditArc r name role) ↔
        ∃ r' ∈ rows, r'.id = r.id ∧ (name, role) ∈ r'.keep)) ∧
    ∀ (r : ReleaseRow) (g : Graph) (name role : PyValue), role ≠ .null →
      ((writeRelease r g).HasArc (creditArc r name role) ↔ (name, role) ∈ r.keep) := by
  refine ⟨?_, boundPersonName_idem henv, ?_, ?_, ?_, ?_⟩
  · intro credits rows hnames hrows row hrow
    obtain ⟨credit, hcredit, husable⟩ := exists_usableCredit hrows hrow
    obtain ⟨s, hs⟩ := hnames credit hcredit
    obtain ⟨hstripped, hname⟩ := usableCredit_eq_some hs husable
    exact ⟨credit, hcredit, s, _, hs, hname, rfl, personName_boundPersonName henv hstripped⟩
  · intro names hinj x hx y hy hxlong hylong hne
    exact boundPersonName_ne henv hxlong hylong fun hdigest => hne (hinj hx hy hdigest)
  · intro r name role
    rw [creditArc_mem]
    exact (and_iff_right rfl).symm
  · intro rows g r hr name role hrole
    exact hasArc_creditedOn hr hrole
  · intro r g name role hrole
    rw [writeRelease_eq_batch, hasArc_creditedOn (List.mem_singleton.mpr rfl) hrole]
    simp

/-- A name that begins with `n` times the same character. -/
def sharedName (n : ℕ) (last : String) : String :=
  String.ofList (List.replicate n 'x' ++ last.toList)

theorem sharedName_ne (n : ℕ) : sharedName n "two" ≠ sharedName n "one" := by
  intro heq
  have hlast : "two".toList = "one".toList := List.append_cancel_left (String.ofList_inj.mp heq)
  exact absurd hlast (by decide)

theorem overLong_sharedName {n : ℕ} (hn : personNameMaxBytes < n) (last : String) :
    OverLong (sharedName n last) := by
  have hsize := length_le_utf8ByteSize (sharedName n last)
  rw [sharedName, String.toList_ofList, List.length_append, List.length_replicate] at hsize
  rw [OverLong, sharedName]
  omega

/-- An environment with the digests of two long names. -/
def digestEnv : Env :=
  { plainEnv with
    sha256Hex text :=
      if text = sharedName 8010 "one" then
        "9b283203e2781d0ad45aba6e6eab89faa80a19bd23b6ef676056f5686045cb99"
      else "56a13c34f5a1759ec86b0eb690735141a240541563b2fb2f6b781dbd0cd124e9" }

theorem digests_digestEnv : digestEnv.Digests := by
  intro text
  simp only [digestEnv]
  split_ifs <;> simp

theorem personDigest_sharedName_ne :
    personDigest digestEnv (sharedName 8010 "two") ≠
      personDigest digestEnv (sharedName 8010 "one") := by
  simp [personDigest, digestEnv, sharedName_ne 8010]

theorem person_names_fit_shared : boundPersonName digestEnv (sharedName 8010 "two") ≠
    boundPersonName digestEnv (sharedName 8010 "one") :=
  (person_names_fit digestEnv digests_digestEnv).2.2.1 _
    (Set.injOn_pair.mpr fun heq => absurd heq personDigest_sharedName_ne)
    _ (Set.mem_insert ..) _ (Set.mem_insert_of_mem _ (Set.mem_singleton _))
    (overLong_sharedName (by decide) "two") (overLong_sharedName (by decide) "one")
    (sharedName_ne 8010)

end Graphinator
