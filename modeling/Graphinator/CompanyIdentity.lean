import Graphinator.Lib.PyInt
import Graphinator.Records

/-!
# The identity of a company

A companies entry is known by its Discogs id where it has one, and by its normalized name where it
has none. Discogs states an id as a number or as text, and `company_identity` keeps the text as it
is: padded or written in other digits, one number has several texts. A text of digits that are not
decimal, or of too many, makes it raise.

## Main definitions

* `Env.UnicodeDigits` : what is known about the digits.
* `discogsNumber`, `SameCompany` : the number an entry states, and when two entries are one company.
* `Identified` : `company_identity` tells two entries apart as it should.

## Main results

* `companyIdentity_identifies` : for which entries it does.
-/

namespace Graphinator

open PyValue

/-- What is known about the digits of the Unicode database. -/
structure Env.UnicodeDigits (env : Env) : Prop where
  ascii : AsciiDecimal env.decimal
  isDigit_of_decimal : ∀ c d, env.decimal c = some d → env.isDigit c = true
  letter : env.isDigit 'n' = false

section Numbers

variable (env : Env)

/-- The number that decimal digits denote. -/
def digitsNumber (cs : List Char) : Option ℕ :=
  cs.foldlM (fun n c => (env.decimal c).map fun d => 10 * n + d) 0

/-- The Discogs id that a value states: a whole number of at least 1, or a text of its digits. -/
def discogsNumber : PyValue → Option ℕ
  | .int n => if n ≥ 1 then some n.toNat else none
  | .str s =>
    if strip s = "" then none
    else (digitsNumber env (strip s).toList).filter fun n => 1 ≤ n
  | _ => none

/-- How a value writes its number. -/
def spelling : PyValue → String
  | .int n => toString n
  | .str s => strip s
  | _ => ""

/-- A trimmed text of digits is one that `int` converts. -/
def Convertible (value : PyValue) : Prop :=
  ∀ s, value = .str s → strip s ≠ "" → (strip s).toList.all env.isDigit = true →
    (strip s).length ≤ intMaxStrDigits ∧ ∀ c ∈ (strip s).toList, (env.decimal c).isSome

variable {env} {cs : List Char} {value : PyValue} {n : ℕ}

theorem foldlM_intOfDigits (h : ∀ c ∈ cs, (env.decimal c).isSome) (n : ℕ) :
    ∃ m, cs.foldlM (fun n c => (env.decimal c).map fun d => 10 * n + d) n = some m ∧
      cs.foldlM (fun n c => match env.decimal c with
        | some d => Except.ok (10 * n + d)
        | none => Except.error PyError.valueError) n = .ok m := by
  induction cs generalizing n with
  | nil => exact ⟨n, rfl, rfl⟩
  | cons c cs ih =>
    obtain ⟨d, hd⟩ := Option.isSome_iff_exists.mp (h c (List.mem_cons_self ..))
    obtain ⟨m, hm, hm'⟩ := ih (fun c hc => h c (List.mem_cons_of_mem _ hc)) (10 * n + d)
    refine ⟨m, ?_, ?_⟩
    · rw [List.foldlM_cons, hd]
      exact hm
    · rw [List.foldlM_cons, hd]
      exact hm'

/-- Decimal digits denote a number. -/
theorem digitsNumber_eq_some : (∃ n, digitsNumber env cs = some n) ↔
    ∀ c ∈ cs, (env.decimal c).isSome := by
  refine ⟨?_, fun h => ?_⟩
  · unfold digitsNumber
    generalize 0 = start
    rintro ⟨n, h⟩
    induction cs generalizing start with
    | nil => exact fun c hc => absurd hc List.not_mem_nil
    | cons c cs ih =>
      rw [List.foldlM_cons] at h
      obtain ⟨m, hm, hrest⟩ := Option.bind_eq_some_iff.mp h
      obtain ⟨d, hd, -⟩ := Option.map_eq_some_iff.mp hm
      refine List.forall_mem_cons.mpr ⟨?_, ih m hrest⟩
      rw [hd]
      rfl
  · obtain ⟨m, hm, -⟩ := foldlM_intOfDigits h 0
    exact ⟨m, hm⟩

/-- `int` of decimal digits, where there are not too many. -/
theorem intOfDigits_eq {text : String} (hlen : text.length ≤ intMaxStrDigits)
    (h : digitsNumber env text.toList = some n) : intOfDigits env text = .ok n := by
  obtain ⟨m, hm, hm'⟩ := foldlM_intOfDigits (digitsNumber_eq_some.mp ⟨n, h⟩) 0
  obtain rfl : m = n := Option.some.inj (hm.symm.trans h)
  rw [intOfDigits, if_neg (by omega)]
  exact hm'

/-- It raises for digits that are not decimal. -/
theorem intOfDigits_of_not {text : String} (h : ¬∀ c ∈ text.toList, (env.decimal c).isSome) :
    intOfDigits env text = .error .valueError := by
  unfold intOfDigits
  split_ifs
  · rfl
  · generalize text.toList = cs at h
    generalize 0 = start
    induction cs generalizing start with
    | nil => exact absurd (fun c hc => absurd hc List.not_mem_nil) h
    | cons c cs ih =>
      rw [List.foldlM_cons]
      cases hc : env.decimal c with
      | none => rfl
      | some d =>
        refine ih (fun hrest => h (List.forall_mem_cons.mpr ⟨?_, hrest⟩)) _
        rw [hc]
        rfl

/-- A text with a character that is no digit denotes no number. -/
theorem digitsNumber_eq_none (henv : env.UnicodeDigits) (h : ¬cs.all env.isDigit = true) :
    digitsNumber env cs = none := by
  rcases hn : digitsNumber env cs with _ | n
  · rfl
  · refine absurd (List.all_eq_true.mpr fun c hc => ?_) h
    obtain ⟨d, hd⟩ := Option.isSome_iff_exists.mp (digitsNumber_eq_some.mp ⟨n, hn⟩ c hc)
    exact henv.isDigit_of_decimal c d hd

/-- **`_discogs_id` of a value that it can convert**: the number is known by its spelling. -/
theorem discogsId_eq (henv : env.UnicodeDigits) (h : Convertible env value) :
    discogsId env value = .ok ((discogsNumber env value).map fun _ => spelling value) := by
  cases value with
  | int n =>
    simp only [discogsId, discogsNumber, spelling]
    split_ifs <;> rfl
  | str s =>
    by_cases hblank : strip s = ""
    · simp [discogsId, discogsNumber, hblank]
    · by_cases hdigits : (strip s).toList.all env.isDigit = true
      · obtain ⟨hlen, hdecimal⟩ := h s rfl hblank hdigits
        obtain ⟨n, hn⟩ := digitsNumber_eq_some.mpr hdecimal
        simp only [discogsId, if_pos (And.intro hblank hdigits), intOfDigits_eq hlen hn, Except.map,
          discogsNumber, if_neg hblank, hn, spelling, Option.filter_some, decide_eq_true_eq]
        split_ifs <;> rfl
      · simp only [discogsId, if_neg fun h : _ ∧ _ => hdigits h.2, discogsNumber, if_neg hblank,
          digitsNumber_eq_none henv hdigits]
        rfl
  | _ => rfl

/-- It raises for the others. -/
theorem discogsId_of_not (h : ¬Convertible env value) :
    discogsId env value = .error .valueError := by
  unfold Convertible at h
  push Not at h
  obtain ⟨s, rfl, hblank, hdigits, hnot⟩ := h
  have hint : intOfDigits env (strip s) = .error .valueError := by
    by_cases hlen : (strip s).length ≤ intMaxStrDigits
    · refine intOfDigits_of_not fun hall => ?_
      obtain ⟨c, hc, hnone⟩ := hnot hlen
      exact hnone (hall c hc)
    · exact if_pos (by omega)
  simp only [discogsId, if_pos (And.intro hblank hdigits), hint, Except.map]

/-- A spelling states its number. -/
theorem digitsNumber_spelling (henv : env.UnicodeDigits) (h : discogsNumber env value = some n) :
    digitsNumber env (spelling value).toList = some n := by
  cases value with
  | int m =>
    simp only [discogsNumber] at h
    split_ifs at h with hm
    cases h
    have hnat : spelling (.int m) = m.toNat.repr := by
      obtain ⟨k, rfl⟩ := Int.eq_ofNat_of_zero_le (by omega : 0 ≤ m)
      rfl
    have hread : ∀ (cs : List Char), (∀ c ∈ cs, c.isDigit = true) → ∀ k,
        cs.foldlM (fun n c => (env.decimal c).map fun d => 10 * n + d) k =
          some (Nat.ofDigitChars 10 cs k) := by
      intro cs hcs
      induction cs with
      | nil => simp
      | cons c cs ih =>
        intro k
        rw [List.foldlM_cons, henv.ascii c (hcs c (List.mem_cons_self ..)), Nat.ofDigitChars_cons]
        exact ih (fun x hx => hcs x (List.mem_cons_of_mem _ hx)) _
    rw [hnat, Nat.toList_repr, digitsNumber,
      hread _ fun c hc => Nat.isDigit_of_mem_toDigits (by omega) le_rfl hc,
      Nat.ofDigitChars_ten_toDigits]
  | str s =>
    simp only [discogsNumber] at h
    split_ifs at h
    exact (Option.filter_eq_some_iff.mp h).1
  | _ => cases h

/-- A spelling has no letter in it. -/
theorem notMem_spelling (henv : env.UnicodeDigits) (h : discogsNumber env value = some n) :
    'n' ∉ (spelling value).toList := by
  intro hmem
  have hdecimal := digitsNumber_eq_some.mp ⟨n, digitsNumber_spelling henv h⟩ _ hmem
  obtain ⟨d, hd⟩ := Option.isSome_iff_exists.mp hdecimal
  have hletter := henv.isDigit_of_decimal _ d hd
  rw [henv.letter] at hletter
  cases hletter

end Numbers

/-! ### Entries -/

section Entries

variable (env : Env)

/-- A companies entry: the fields of an object. -/
abbrev Entry := List (String × PyValue)

/-- What an entry states as its Discogs id. -/
def Entry.discogs (entry : Entry) : PyValue := (field? entry "discogs_id").getD .null

/-- The trimmed name of an entry, if it is not blank. -/
def Entry.name (entry : Entry) : Option String := text ((field? entry "name").getD .null)

/-- A name with its white space collapsed and its case folded. -/
def normalName (name : String) : String := env.casefold (" ".intercalate (PyValue.split name))

/-- Two entries are of one company: they state one number, or none and the same name. -/
def SameCompany (x y : Entry) : Prop :=
  (∃ n, discogsNumber env x.discogs = some n ∧ discogsNumber env y.discogs = some n) ∨
  (discogsNumber env x.discogs = none ∧ discogsNumber env y.discogs = none ∧
    x.name.map (normalName env) = y.name.map (normalName env))

/-- `company_identity` gives each of two entries an id where it has a number or a name, and the same
id to both exactly where they are of one company. -/
structure Identified (x y : Entry) : Prop where
  left : ∃ id, companyIdentity env (.obj x) = .ok id ∧
    (id = none ↔ discogsNumber env x.discogs = none ∧ x.name = none)
  right : ∃ id, companyIdentity env (.obj y) = .ok id ∧
    (id = none ↔ discogsNumber env y.discogs = none ∧ y.name = none)
  same : ∀ a b, companyIdentity env (.obj x) = .ok (some a) →
    companyIdentity env (.obj y) = .ok (some b) → (a = b ↔ SameCompany env x y)

variable {env} {x y : Entry}

/-- The id of an entry whose number can be converted. -/
theorem companyIdentity_eq (henv : env.UnicodeDigits) (h : Convertible env x.discogs) :
    companyIdentity env (.obj x) = .ok (match discogsNumber env x.discogs with
      | some _ => some (spelling x.discogs)
      | none => x.name.map fun name => derivedIdPrefix ++ normalName env name) := by
  have hget : ∀ key, (PyValue.obj x).get key = .ok ((field? x key).getD .null) := fun _ => rfl
  have hid : discogsId env ((field? x "discogs_id").getD .null) = _ := discogsId_eq henv h
  simp only [companyIdentity, hget, bind, Except.bind, hid]
  rw [← Entry.discogs]
  cases discogsNumber env x.discogs <;> rfl

/-- There is none where it cannot. -/
theorem companyIdentity_of_not (h : ¬Convertible env x.discogs) :
    companyIdentity env (.obj x) = .error .valueError := by
  have hget : ∀ key, (PyValue.obj x).get key = .ok ((field? x key).getD .null) := fun _ => rfl
  have hid : discogsId env ((field? x "discogs_id").getD .null) = _ := discogsId_of_not h
  simp only [companyIdentity, hget, bind, Except.bind, hid]

theorem mem_derivedId (name : String) : 'n' ∈ (derivedIdPrefix ++ name).toList := by
  rw [String.toList_append]
  exact List.mem_append_left _ (by decide)

/-- An entry has no id where it states no number and no name. -/
theorem id_eq_none {number : Option ℕ} {spelled : String} {name : Option String}
    {derived : String → String} : (match number with
      | some _ => some spelled
      | none => name.map derived) = none ↔ number = none ∧ name = none := by
  cases number <;> simp

/-- **`company_identity` tells two entries apart as it should** exactly if it can convert the digits
that they state, and they spell a number that both state alike. -/
theorem companyIdentity_identifies (henv : env.UnicodeDigits) : Identified env x y ↔
    Convertible env x.discogs ∧ Convertible env y.discogs ∧
      ∀ n, discogsNumber env x.discogs = some n → discogsNumber env y.discogs = some n →
        spelling x.discogs = spelling y.discogs := by
  constructor
  · intro h
    have hx : Convertible env x.discogs := by
      by_contra hnot
      obtain ⟨id, hid, -⟩ := h.left
      rw [companyIdentity_of_not hnot] at hid
      cases hid
    have hy : Convertible env y.discogs := by
      by_contra hnot
      obtain ⟨id, hid, -⟩ := h.right
      rw [companyIdentity_of_not hnot] at hid
      cases hid
    refine ⟨hx, hy, fun n hnx hny => ?_⟩
    refine (h.same _ _ ?_ ?_).mpr (Or.inl ⟨n, hnx, hny⟩)
    · rw [companyIdentity_eq henv hx, hnx]
    · rw [companyIdentity_eq henv hy, hny]
  · rintro ⟨hx, hy, hspelling⟩
    refine ⟨⟨_, companyIdentity_eq henv hx, id_eq_none⟩, ⟨_, companyIdentity_eq henv hy, id_eq_none⟩,
      fun a b ha hb => ?_⟩
    rw [companyIdentity_eq henv hx] at ha
    rw [companyIdentity_eq henv hy] at hb
    replace ha := Except.ok.inj ha
    replace hb := Except.ok.inj hb
    unfold SameCompany
    cases hnx : discogsNumber env x.discogs with
    | some n =>
      rw [hnx] at ha
      obtain rfl : spelling x.discogs = a := Option.some.inj ha
      cases hny : discogsNumber env y.discogs with
      | some m =>
        rw [hny] at hb
        obtain rfl : spelling y.discogs = b := Option.some.inj hb
        have hread := digitsNumber_spelling henv hnx
        have hread' := digitsNumber_spelling henv hny
        constructor
        · intro heq
          rw [heq, hread'] at hread
          exact Or.inl ⟨n, rfl, hread⟩
        · rintro (⟨k, hk, hk'⟩ | ⟨hk, -⟩)
          · exact hspelling n hnx (hny.trans (hk'.trans hk.symm))
          · cases hk
      | none =>
        rw [hny] at hb
        obtain ⟨name, -, rfl⟩ := Option.map_eq_some_iff.mp hb
        constructor
        · intro heq
          exact absurd (heq ▸ mem_derivedId _) (notMem_spelling henv hnx)
        · rintro (⟨k, -, hk⟩ | ⟨hk, -⟩) <;> cases hk
    | none =>
      rw [hnx] at ha
      obtain ⟨name, hname, rfl⟩ := Option.map_eq_some_iff.mp ha
      cases hny : discogsNumber env y.discogs with
      | some m =>
        rw [hny] at hb
        obtain rfl : spelling y.discogs = b := Option.some.inj hb
        constructor
        · intro heq
          exact absurd (heq ▸ mem_derivedId _) (notMem_spelling henv hny)
        · rintro (⟨k, hk, -⟩ | ⟨-, hk, -⟩) <;> cases hk
      | none =>
        rw [hny] at hb
        obtain ⟨name', hname', rfl⟩ := Option.map_eq_some_iff.mp hb
        rw [hname, hname']
        simp [String.append_right_inj]

end Entries

/-- An entry that states its id. -/
def entryOf (id : PyValue) : Entry := [("discogs_id", id), ("name", .str "plant")]

theorem plainEnv_unicodeDigits : plainEnv.UnicodeDigits where
  ascii c hc := if_pos hc
  isDigit_of_decimal c d h := by
    simp only [plainEnv, Option.ite_none_right_eq_some] at h
    exact h.1
  letter := rfl

theorem companyIdentity_identifies_five :
    Identified plainEnv (entryOf (.str " 5 ")) (entryOf (.int 5)) := by
  have hnumber : Convertible plainEnv (entryOf (.int 5)).discogs := fun _ h => by cases h
  refine (companyIdentity_identifies plainEnv_unicodeDigits).mpr ⟨?_, hnumber, fun _ _ _ => rfl⟩
  intro s hs _ _
  obtain rfl : " 5 " = s := PyValue.str.inj hs
  have hstrip : strip " 5 " = "5" := by decide
  rw [hstrip]
  refine ⟨by decide, fun c hc => ?_⟩
  rw [List.mem_singleton.mp hc]
  rfl

/-- An environment that knows a digit that is not decimal. -/
def superscriptEnv : Env := { plainEnv with isDigit := fun c => c.isDigit || c = '²' }

/-- A padded id is another id, and a superscript makes `company_identity` raise. -/
theorem companyIdentity_counterexample :
    (companyIdentity plainEnv (.obj (entryOf (.str "007"))) = .ok (some "007") ∧
      companyIdentity plainEnv (.obj (entryOf (.int 7))) = .ok (some "7") ∧
      ¬Identified plainEnv (entryOf (.str "007")) (entryOf (.int 7))) ∧
    companyIdentity superscriptEnv (.obj (entryOf (.str "²"))) = .error .valueError := by
  have hpadded : companyIdentity plainEnv (.obj (entryOf (.str "007"))) = .ok (some "007") := rfl
  have hplain : companyIdentity plainEnv (.obj (entryOf (.int 7))) = .ok (some "7") := rfl
  refine ⟨⟨hpadded, hplain, fun h => ?_⟩, rfl⟩
  have hsame : SameCompany plainEnv (entryOf (.str "007")) (entryOf (.int 7)) :=
    Or.inl ⟨7, rfl, rfl⟩
  exact absurd ((h.same _ _ hpadded hplain).mpr hsame) (by decide)

end Graphinator
