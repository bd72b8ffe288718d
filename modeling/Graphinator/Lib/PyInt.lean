import Graphinator.Lib.PyValue

/-!
# Whole numbers as text

`int(text)` of a text: white space around, a sign, and decimal digits, of which two neighbours may
have an underscore between them. Which characters are decimal digits, and their values, are given;
the limit of Python on the number of digits is left out here.

## Main definitions

* `PyValue.pyInt` : `int(text)`, `none` where it raises `ValueError`.

## Main results

* `PyValue.pyInt_toDigits` : a written number is read back.
* `PyValue.ofDigitChars_take_le` : the first digits of a number are a number that is not larger.
-/

namespace PyValue

variable (decimal : Char → Option ℕ)

/-- The rest of a number, after its first digits. -/
def intDigits : ℕ → List Char → Option ℕ
  | n, [] => some n
  | _, ['_'] => none
  | n, '_' :: c :: cs => (decimal c).bind fun d => intDigits (10 * n + d) cs
  | n, c :: cs => (decimal c).bind fun d => intDigits (10 * n + d) cs

/-- A number without a sign. -/
def unsignedInt : List Char → Option ℕ
  | [] => none
  | c :: cs => (decimal c).bind fun d => intDigits decimal d cs

/-- `int(text)`. -/
def pyInt (text : String) : Option ℤ :=
  match (strip text).toList with
  | '-' :: cs => (unsignedInt decimal cs).map fun n => -(n : ℤ)
  | '+' :: cs => (unsignedInt decimal cs).map Int.ofNat
  | cs => (unsignedInt decimal cs).map Int.ofNat

/-- The ASCII digits are decimal digits with the values they have. -/
def AsciiDecimal : Prop := ∀ c : Char, c.isDigit = true → decimal c = some (c.toNat - '0'.toNat)

section Digits

variable {decimal} {c : Char} {cs ws : List Char}

theorem isSpace_of_isDigit (h : c.isDigit = true) : isSpace c = false := by
  simp only [Char.isDigit, Bool.and_eq_true, decide_eq_true_eq] at h
  obtain ⟨hlo, hhi⟩ := h
  have hlo' : 48 ≤ c.toNat := hlo
  have hhi' : c.toNat ≤ 57 := hhi
  unfold isSpace
  simp only [decide_eq_false_iff_not, List.mem_cons, List.not_mem_nil, or_false, not_or]
  omega

/-- White space after a text without any is trimmed away. -/
theorem strip_append (hcs : ∀ c ∈ cs, isSpace c = false) (hws : ∀ c ∈ ws, isSpace c = true) :
    strip (String.ofList (cs ++ ws)) = String.ofList cs := by
  have htail : ((cs ++ ws).reverse.dropWhile isSpace).reverse = cs := by
    have hrev : cs.reverse.dropWhile isSpace = cs.reverse := by
      rw [List.dropWhile_eq_self_iff]
      intro hl
      have hmem : cs.reverse[0] ∈ cs := List.mem_reverse.mp (List.getElem_mem hl)
      exact Bool.eq_false_iff.mp (hcs _ hmem)
    rw [List.reverse_append, List.dropWhile_append_of_pos fun c hc => hws c (List.mem_reverse.mp hc),
      hrev, List.reverse_reverse]
  cases cs with
  | nil =>
    have hlead : ws.dropWhile isSpace = [] := List.dropWhile_eq_nil_iff.mpr hws
    simp [strip, hlead]
  | cons c cs =>
    have hlead : (c :: cs ++ ws).dropWhile isSpace = c :: cs ++ ws := by
      rw [List.cons_append, List.dropWhile_cons_of_neg]
      simp [hcs c (List.mem_cons_self ..)]
    rw [strip, String.toList_ofList, hlead, htail]

/-- The text of a number has no white space. -/
theorem strip_toString (n : ℤ) : strip (toString n) = toString n := by
  have hdigits : ∀ (m : ℕ), ∀ c ∈ Nat.toDigits 10 m, isSpace c = false := fun m c hc =>
    isSpace_of_isDigit (Nat.isDigit_of_mem_toDigits (by omega) le_rfl hc)
  have hnil : ∀ c ∈ ([] : List Char), isSpace c = true := by simp
  cases n with
  | ofNat m =>
    have htext : toString (Int.ofNat m) = String.ofList (Nat.toDigits 10 m ++ []) := by
      rw [List.append_nil]
      rfl
    rw [htext, strip_append (hdigits m) hnil, List.append_nil]
  | negSucc m =>
    have htext : toString (Int.negSucc m) =
        String.ofList (('-' :: Nat.toDigits 10 (m + 1)) ++ []) := by
      rw [List.append_nil, String.ofList_cons]
      rfl
    rw [htext, strip_append (List.forall_mem_cons.mpr ⟨by decide, hdigits (m + 1)⟩) hnil,
      List.append_nil]

variable (hascii : AsciiDecimal decimal)
include hascii

theorem intDigits_of_isDigit (n : ℕ) (h : ∀ c ∈ cs, c.isDigit = true) :
    intDigits decimal n cs = some (Nat.ofDigitChars 10 cs n) := by
  induction cs generalizing n with
  | nil => simp [intDigits]
  | cons c cs ih =>
    have hc := h c (List.mem_cons_self ..)
    have hne : c ≠ '_' := by
      rintro rfl
      exact absurd hc (by decide)
    have hstep : intDigits decimal n (c :: cs) =
        (decimal c).bind fun d => intDigits decimal (10 * n + d) cs := by
      rw [intDigits]
      · rintro rfl
        exact absurd rfl hne
      · rintro _ _ rfl
        exact absurd rfl hne
    rw [hstep, hascii c hc, Option.bind_some, ih _ fun x hx => h x (List.mem_cons_of_mem _ hx),
      Nat.ofDigitChars_cons]

/-- A text of digits is read as the number that it writes. -/
theorem pyInt_of_isDigit (hne : cs ≠ []) (h : ∀ c ∈ cs, c.isDigit = true)
    (hws : ∀ c ∈ ws, isSpace c = true) :
    pyInt decimal (String.ofList (cs ++ ws)) = some (Nat.ofDigitChars 10 cs 0 : ℤ) := by
  rw [pyInt, strip_append (fun c hc => isSpace_of_isDigit (h c hc)) hws, String.toList_ofList]
  cases cs with
  | nil => exact absurd rfl hne
  | cons c cs =>
    have hc := h c (List.mem_cons_self ..)
    have hread : unsignedInt decimal (c :: cs) = some (Nat.ofDigitChars 10 (c :: cs) 0) := by
      rw [unsignedInt, hascii c hc, Option.bind_some,
        intDigits_of_isDigit hascii _ fun x hx => h x (List.mem_cons_of_mem _ hx),
        Nat.ofDigitChars_cons, Nat.mul_zero, Nat.zero_add]
    split
    · next hcons =>
      cases hcons
      exact absurd hc (by decide)
    · next hcons =>
      cases hcons
      exact absurd hc (by decide)
    · rw [hread]
      rfl

/-- **A written number is read back**, with white space after it or without. -/
theorem pyInt_toDigits (n : ℕ) (hws : ∀ c ∈ ws, isSpace c = true) :
    pyInt decimal (String.ofList (Nat.toDigits 10 n ++ ws)) = some (n : ℤ) := by
  have hdigits : ∀ c ∈ Nat.toDigits 10 n, c.isDigit = true := fun c hc =>
    Nat.isDigit_of_mem_toDigits (by omega) le_rfl hc
  rw [pyInt_of_isDigit hascii Nat.toDigits_ne_nil hdigits hws, Nat.ofDigitChars_ten_toDigits]

omit hascii in
/-- The first digits of a number are a number that is not larger. -/
theorem ofDigitChars_take_le (n k : ℕ) :
    Nat.ofDigitChars 10 ((Nat.toDigits 10 n).take k) 0 ≤ n := by
  have hsplit : Nat.ofDigitChars 10 ((Nat.toDigits 10 n).take k ++ (Nat.toDigits 10 n).drop k) 0 =
      n := by
    rw [List.take_append_drop, Nat.ofDigitChars_ten_toDigits]
  rw [Nat.ofDigitChars_append, Nat.ofDigitChars_eq_ofDigitChars_zero] at hsplit
  have hpos : 1 ≤ 10 ^ ((Nat.toDigits 10 n).drop k).length := Nat.one_le_pow _ _ (by omega)
  calc Nat.ofDigitChars 10 ((Nat.toDigits 10 n).take k) 0
      ≤ 10 ^ ((Nat.toDigits 10 n).drop k).length *
          Nat.ofDigitChars 10 ((Nat.toDigits 10 n).take k) 0 := Nat.le_mul_of_pos_left _ hpos
    _ ≤ n := by omega

end Digits

end PyValue
