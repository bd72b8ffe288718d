import Mathlib.Data.List.Infix

/-!
# Texts cut in bytes

A text is encoded, cut after some bytes, and decoded again. A cut inside a character leaves bytes
that are not the encoding of any, and a decoder that ignores what it cannot decode drops them: what
is left is the longest prefix of whole characters within the cut.

## Main definitions

* `Utf8.encode`, `Utf8.decodeIgnoring`.
* `Utf8.takeBytes` : the whole characters within a number of bytes.
* `Utf8.IsLongest` : the longest prefix within a number of bytes.

## Main results

* `Utf8.decodeIgnoring_encode` : a text that is not cut is read back.
* `Utf8.decodeIgnoring_take` : a text that is cut keeps its whole characters.
* `Utf8.isLongest_takeBytes`.
-/

namespace Utf8

/-- The bytes of a text. -/
def encode (cs : List Char) : List UInt8 := cs.flatMap String.utf8EncodeChar

/-- The character at the start of some bytes. -/
def decodeChar? (bytes : List UInt8) : Option Char := bytes.toByteArray.utf8DecodeChar? 0

/-- The characters of some bytes, where a byte that starts no character is passed over. The bytes
that may follow the first one of a character start none, so that a broken character is passed over
as a whole. -/
def decodeIgnoring : List UInt8 → List Char
  | [] => []
  | b :: bytes =>
    match decodeChar? (b :: bytes) with
    | some c => c :: decodeIgnoring (bytes.drop (c.utf8Size - 1))
    | none => decodeIgnoring bytes
termination_by bytes => bytes.length
decreasing_by
  all_goals simp only [List.length_cons, List.length_drop]
  all_goals omega

/-- The characters at the start of a text that take up at most `n` bytes. -/
def takeBytes : ℕ → List Char → List Char
  | _, [] => []
  | n, c :: cs => if c.utf8Size ≤ n then c :: takeBytes (n - c.utf8Size) cs else []

variable {c d : Char} {cs ds : List Char} {bytes part : List UInt8} {n : ℕ}

/-! ### Encoding -/

@[simp] theorem encode_nil : encode [] = [] := rfl

@[simp] theorem encode_cons : encode (c :: cs) = String.utf8EncodeChar c ++ encode cs := rfl

@[simp] theorem encode_append : encode (cs ++ ds) = encode cs ++ encode ds := List.flatMap_append

/-- The bytes of a text are those of its string. -/
theorem toByteArray_encode : (encode cs).toByteArray = (String.ofList cs).toByteArray := by
  rw [String.toByteArray_ofList]
  rfl

theorem length_encode (s : String) : (encode s.toList).length = s.utf8ByteSize := by
  have hsize : (encode s.toList).toByteArray.size = (String.ofList s.toList).toByteArray.size :=
    congrArg ByteArray.size toByteArray_encode
  rwa [List.size_toByteArray, String.ofList_toList] at hsize

/-! ### Decoding -/

theorem decodeChar?_append : decodeChar? (String.utf8EncodeChar c ++ bytes) = some c := by
  rw [decodeChar?, List.toByteArray_append]
  exact ByteArray.utf8DecodeChar?_utf8EncodeChar_append

/-- Bytes that start with a character are its bytes and some more. -/
theorem exists_of_decodeChar? (h : decodeChar? bytes = some c) :
    ∃ rest, bytes = String.utf8EncodeChar c ++ rest := by
  obtain ⟨l, hl⟩ := ByteArray.exists_of_utf8DecodeChar?_eq_some h
  refine ⟨l.data.toList, ?_⟩
  have hdata := congrArg (fun b : ByteArray => b.data.toList) hl
  simpa using hdata

/-- No proper part of the bytes of a character, from its start on, is a character. -/
theorem decodeChar?_take (h : n < c.utf8Size) :
    decodeChar? ((String.utf8EncodeChar c).take n) = none := by
  by_contra hne
  obtain ⟨d, hd⟩ := Option.ne_none_iff_exists'.mp hne
  obtain ⟨rest, hrest⟩ := exists_of_decodeChar? hd
  have hc : String.utf8EncodeChar c =
      String.utf8EncodeChar d ++ (rest ++ (String.utf8EncodeChar c).drop n) := by
    rw [← List.append_assoc, ← hrest, List.take_append_drop]
  -- What the part starts with is what the whole starts with.
  have hcd : c = d := by
    have hdecode : decodeChar? (String.utf8EncodeChar c ++ []) = some d := by
      rw [List.append_nil, hc, decodeChar?_append]
    rw [decodeChar?_append] at hdecode
    exact Option.some.inj hdecode
  have hlength := congrArg List.length hrest
  rw [List.length_take, List.length_append, ← hcd, String.length_utf8EncodeChar] at hlength
  omega

/-- No byte of a character but its first starts a character. -/
theorem decodeChar?_of_drop {i : ℕ} (hpos : 0 < i) (hpart : part <+: (String.utf8EncodeChar c).drop i) :
    decodeChar? part = none := by
  by_contra hne
  obtain ⟨d, hd⟩ := Option.ne_none_iff_exists'.mp hne
  obtain ⟨rest, rfl⟩ := exists_of_decodeChar? hd
  obtain ⟨more, hmore⟩ := hpart
  have hd0 : 0 < (String.utf8EncodeChar d).length := by
    rw [String.length_utf8EncodeChar]
    exact d.utf8Size_pos
  have hi : i < (String.utf8EncodeChar c).length := by
    have hlength := congrArg List.length hmore
    simp only [List.length_append, List.length_drop] at hlength
    omega
  have hfirst : (String.utf8EncodeChar c)[i] = (String.utf8EncodeChar d)[0] := by
    have hget : ((String.utf8EncodeChar c).drop i)[0]? = (String.utf8EncodeChar d)[0]? := by
      rw [← hmore, List.append_assoc, List.getElem?_append_left hd0]
    rw [List.getElem?_drop, Nat.add_zero, List.getElem?_eq_getElem hi,
      List.getElem?_eq_getElem hd0] at hget
    exact Option.some.inj hget
  have hstart : (String.utf8EncodeChar c)[i].IsUTF8FirstByte := by
    rw [hfirst]
    exact UInt8.isUTF8FirstByte_getElem_utf8EncodeChar.mpr rfl
  exact hpos.ne' (UInt8.isUTF8FirstByte_getElem_utf8EncodeChar.mp hstart)

theorem decodeIgnoring_append :
    decodeIgnoring (String.utf8EncodeChar c ++ bytes) = c :: decodeIgnoring bytes := by
  obtain ⟨b, tail, hbytes⟩ := List.exists_cons_of_ne_nil (String.utf8EncodeChar_ne_nil (c := c))
  have hlength : tail.length = c.utf8Size - 1 := by
    have hsize := String.length_utf8EncodeChar c
    rw [hbytes, List.length_cons] at hsize
    omega
  have hdecode : decodeChar? (String.utf8EncodeChar c ++ bytes) = some c := decodeChar?_append
  rw [hbytes, List.cons_append] at hdecode ⊢
  rw [decodeIgnoring, hdecode]
  show c :: decodeIgnoring ((tail ++ bytes).drop (c.utf8Size - 1)) = c :: decodeIgnoring bytes
  rw [← hlength, List.drop_left]

/-- Bytes none of which starts a character are passed over. -/
theorem decodeIgnoring_eq_nil (h : ∀ tail, tail <:+ bytes → decodeChar? tail = none) :
    decodeIgnoring bytes = [] := by
  induction bytes with
  | nil => rw [decodeIgnoring]
  | cons b bytes ih =>
    rw [decodeIgnoring, h _ (List.suffix_refl _)]
    exact ih fun tail htail => h tail (htail.trans (List.suffix_cons ..))

/-- A broken character is passed over. -/
theorem decodeIgnoring_take_char (h : n < c.utf8Size) :
    decodeIgnoring ((String.utf8EncodeChar c).take n) = [] := by
  refine decodeIgnoring_eq_nil fun tail htail => ?_
  obtain ⟨i, hi⟩ : ∃ i, tail = ((String.utf8EncodeChar c).take n).drop i :=
    ⟨_, (List.suffix_iff_eq_drop.mp htail)⟩
  rcases Nat.eq_zero_or_pos i with rfl | hpos
  · rw [hi, List.drop_zero]
    exact decodeChar?_take h
  · rw [List.drop_take] at hi
    exact decodeChar?_of_drop hpos (hi ▸ List.take_prefix ..)

/-- A text that is not cut is read back. -/
@[simp] theorem decodeIgnoring_encode : decodeIgnoring (encode cs) = cs := by
  induction cs with
  | nil => rw [encode_nil, decodeIgnoring]
  | cons c cs ih => rw [encode_cons, decodeIgnoring_append, ih]

/-- A text that is cut keeps its whole characters. -/
theorem decodeIgnoring_take : decodeIgnoring ((encode cs).take n) = takeBytes n cs := by
  induction cs generalizing n with
  | nil => rw [encode_nil, List.take_nil, decodeIgnoring, takeBytes]
  | cons c cs ih =>
    rw [encode_cons, takeBytes]
    split_ifs with hfits
    · have hlength : (String.utf8EncodeChar c).length ≤ n := by
        rwa [String.length_utf8EncodeChar]
      rw [List.take_append, List.take_of_length_le hlength, decodeIgnoring_append,
        String.length_utf8EncodeChar, ih]
    · have hlength : n ≤ (String.utf8EncodeChar c).length := by
        rw [String.length_utf8EncodeChar]
        omega
      rw [List.take_append_of_le_length hlength, decodeIgnoring_take_char (by omega)]

/-! ### The longest prefix -/

/-- The longest prefix of a text, in whole characters, whose bytes are at most `n`. -/
structure IsLongest (n : ℕ) (front cs : List Char) : Prop where
  isPrefix : front <+: cs
  fits : (encode front).length ≤ n
  longest : ∀ other, other <+: cs → (encode other).length ≤ n → other <+: front

theorem isLongest_takeBytes (n : ℕ) (cs : List Char) : IsLongest n (takeBytes n cs) cs := by
  induction cs generalizing n with
  | nil => exact ⟨List.prefix_refl _, Nat.zero_le _, fun other hother _ => hother⟩
  | cons c cs ih =>
    rw [takeBytes]
    split_ifs with hfits
    · refine ⟨(List.prefix_cons_inj c).mpr (ih _).isPrefix, ?_, ?_⟩
      · have hrest := (ih (n - c.utf8Size)).fits
        rw [encode_cons, List.length_append, String.length_utf8EncodeChar]
        omega
      · rintro (_ | ⟨d, other⟩) hother hlength
        · exact List.nil_prefix
        · obtain ⟨rfl, htail⟩ := List.cons_prefix_cons.mp hother
          rw [encode_cons, List.length_append, String.length_utf8EncodeChar] at hlength
          exact (List.prefix_cons_inj d).mpr ((ih _).longest other htail (by omega))
    · refine ⟨List.nil_prefix, Nat.zero_le _, ?_⟩
      rintro (_ | ⟨d, other⟩) hother hlength
      · exact List.nil_prefix
      · obtain ⟨rfl, -⟩ := List.cons_prefix_cons.mp hother
        rw [encode_cons, List.length_append, String.length_utf8EncodeChar] at hlength
        omega

end Utf8
