import Mathlib.Algebra.Order.Ring.Rat
import Mathlib.Data.List.Basic
import Mathlib.Data.List.DropRight
import Mathlib.Data.List.Forall2

/-!
# JSON values as Python reads them

The values `orjson.loads` builds, and the built-in operations a program applies to them: truth,
`dict.get`, subscripts, iteration, `len`, `==`, `str.strip`. An operation raises where Python's
does. Objects keep their keys distinct, as `loads` leaves them; the first of equal keys counts.

The Unicode database is a parameter where a method depends on it, except for white space.

## Main definitions

* `PyValue`, `PyError`.
* `PyValue.truthy`, `PyValue.get`, `PyValue.getD`, `PyValue.iter`, `PyValue.len`, `PyValue.pyEq`.
* `PyValue.strip` : `str.strip()`.
-/

/-- A value that `orjson.loads` builds. -/
inductive PyValue
  | null
  | bool (b : Bool)
  | int (n : ℤ)
  | float (q : ℚ)
  | str (s : String)
  | arr (xs : List PyValue)
  | obj (fields : List (String × PyValue))
deriving Inhabited

/-- What an operation raises. -/
inductive PyError
  | attributeError | typeError | keyError | indexError | valueError
  /-- An error that the database answers a statement with. -/
  | databaseError
deriving DecidableEq, Repr

namespace PyValue

mutual

/-- Equality of values is decided structurally. -/
def decEq : (a b : PyValue) → Decidable (a = b)
  | .null, .null => isTrue rfl
  | .bool a, .bool b => decidable_of_iff (a = b) (by simp)
  | .int a, .int b => decidable_of_iff (a = b) (by simp)
  | .float a, .float b => decidable_of_iff (a = b) (by simp)
  | .str a, .str b => decidable_of_iff (a = b) (by simp)
  | .arr a, .arr b => @decidable_of_iff _ (a = b) (by simp) (decEqList a b)
  | .obj a, .obj b => @decidable_of_iff _ (a = b) (by simp) (decEqFields a b)
  | .null, .bool _ | .null, .int _ | .null, .float _ | .null, .str _ | .null, .arr _
  | .null, .obj _ | .bool _, .null | .bool _, .int _ | .bool _, .float _ | .bool _, .str _
  | .bool _, .arr _ | .bool _, .obj _ | .int _, .null | .int _, .bool _ | .int _, .float _
  | .int _, .str _ | .int _, .arr _ | .int _, .obj _ | .float _, .null | .float _, .bool _
  | .float _, .int _ | .float _, .str _ | .float _, .arr _ | .float _, .obj _ | .str _, .null
  | .str _, .bool _ | .str _, .int _ | .str _, .float _ | .str _, .arr _ | .str _, .obj _
  | .arr _, .null | .arr _, .bool _ | .arr _, .int _ | .arr _, .float _ | .arr _, .str _
  | .arr _, .obj _ | .obj _, .null | .obj _, .bool _ | .obj _, .int _ | .obj _, .float _
  | .obj _, .str _ | .obj _, .arr _ => isFalse nofun

def decEqList : (a b : List PyValue) → Decidable (a = b)
  | [], [] => isTrue rfl
  | [], _ :: _ | _ :: _, [] => isFalse nofun
  | x :: xs, y :: ys =>
    @decidable_of_iff _ (x = y ∧ xs = ys) (by simp)
      (@instDecidableAnd _ _ (decEq x y) (decEqList xs ys))

def decEqFields : (a b : List (String × PyValue)) → Decidable (a = b)
  | [], [] => isTrue rfl
  | [], _ :: _ | _ :: _, [] => isFalse nofun
  | (k, x) :: xs, (l, y) :: ys =>
    @decidable_of_iff _ (k = l ∧ x = y ∧ xs = ys) (by simp [and_assoc])
      (@instDecidableAnd _ _ (instDecidableEqString k l)
        (@instDecidableAnd _ _ (decEq x y) (decEqFields xs ys)))

end

instance : DecidableEq PyValue := decEq

/-- `bool(value)`. -/
def truthy : PyValue → Bool
  | .null => false
  | .bool b => b
  | .int n => n ≠ 0
  | .float q => q ≠ 0
  | .str s => s ≠ ""
  | .arr xs => !xs.isEmpty
  | .obj fields => !fields.isEmpty

/-- The number a value compares as: `True` is `1`, and `1` is `1.0`. -/
def number? : PyValue → Option ℚ
  | .bool b => some (if b then 1 else 0)
  | .int n => some n
  | .float q => some q
  | _ => none

/-- `a == b`, for values that are not containers of numbers of different types. -/
def pyEq (a b : PyValue) : Bool :=
  match a.number?, b.number? with
  | some x, some y => x = y
  | none, none => a = b
  | _, _ => false

/-- The field of an object, if it has it. -/
def field? (fields : List (String × PyValue)) (key : String) : Option PyValue :=
  (fields.find? (·.1 = key)).map (·.2)

/-- `value.get(key, default)`. -/
def getD (value : PyValue) (key : String) (default : PyValue) : Except PyError PyValue :=
  match value with
  | .obj fields => .ok ((field? fields key).getD default)
  | _ => .error .attributeError

/-- `value.get(key)`. -/
def get (value : PyValue) (key : String) : Except PyError PyValue := value.getD key .null

/-- `value[key]`. -/
def item (value : PyValue) (key : String) : Except PyError PyValue :=
  match value with
  | .obj fields => match field? fields key with
    | some x => .ok x
    | none => .error .keyError
  | _ => .error .typeError

/-- `value[0]`. -/
def item0 : PyValue → Except PyError PyValue
  | .arr (x :: _) => .ok x
  | .arr [] => .error .indexError
  | .str s => match s.toList with
    | c :: _ => .ok (.str (String.singleton c))
    | [] => .error .indexError
  | .obj _ => .error .keyError
  | _ => .error .typeError

/-- What `for x in value` goes through: the items of a list, the characters of a text, the keys of
an object. -/
def iter : PyValue → Except PyError (List PyValue)
  | .arr xs => .ok xs
  | .str s => .ok (s.toList.map fun c => .str (String.singleton c))
  | .obj fields => .ok (fields.map fun kv => .str kv.1)
  | _ => .error .typeError

/-- `len(value)`. -/
def len : PyValue → Except PyError ℕ
  | .arr xs => .ok xs.length
  | .str s => .ok s.length
  | .obj fields => .ok fields.length
  | _ => .error .typeError

/-- `value or default`. -/
def orElse (value default : PyValue) : PyValue := if value.truthy then value else default

/-- `isinstance(value, dict)`. -/
def isDict : PyValue → Bool
  | .obj _ => true
  | _ => false

/-- `str(value)`, with the text of floats and containers given. -/
def pyStr (repr : PyValue → String) : PyValue → String
  | .null => "None"
  | .bool b => if b then "True" else "False"
  | .int n => toString n
  | .str s => s
  | value => repr value

/-- `str.isspace` of one character. -/
def isSpace (c : Char) : Bool :=
  c.toNat ∈ [0x09, 0x0a, 0x0b, 0x0c, 0x0d, 0x1c, 0x1d, 0x1e, 0x1f, 0x20, 0x85, 0xa0, 0x1680,
    0x2000, 0x2001, 0x2002, 0x2003, 0x2004, 0x2005, 0x2006, 0x2007, 0x2008, 0x2009, 0x200a, 0x2028,
    0x2029, 0x202f, 0x205f, 0x3000]

/-- `text.strip()`. -/
def strip (s : String) : String :=
  String.ofList (((s.toList.dropWhile isSpace).reverse.dropWhile isSpace).reverse)

/-- `text.split()`. -/
def split (s : String) : List String :=
  ((s.toList.splitOnP isSpace).filter (· ≠ [])).map String.ofList

/-- Trimming a trimmed text changes nothing. -/
theorem strip_strip (s : String) : strip (strip s) = strip s := by
  have hlead : (List.rdropWhile isSpace (s.toList.dropWhile isSpace)).dropWhile isSpace =
      List.rdropWhile isSpace (s.toList.dropWhile isSpace) := by
    rw [List.dropWhile_eq_self_iff]
    intro hl
    have hle := List.rdropWhile_prefix isSpace (s.toList.dropWhile isSpace)
    rw [hle.getElem hl]
    exact List.dropWhile_get_zero_not isSpace s.toList _
  have hstrip : ∀ t,
      strip t = String.ofList (List.rdropWhile isSpace (t.toList.dropWhile isSpace)) := fun _ => rfl
  rw [hstrip (strip s), hstrip s, String.toList_ofList, hlead, List.rdropWhile_idempotent]

/-! ### What a block of operations returns -/

/-- A block returns where each of its operations does. -/
theorem bind_eq_ok {ε α β : Type} {x : Except ε α} {f : α → Except ε β} {b : β} :
    x >>= f = .ok b ↔ ∃ a, x = .ok a ∧ f a = .ok b := by
  cases x with
  | error e => simp [bind, Except.bind]
  | ok a => simp [bind, Except.bind]

theorem pure_eq_ok {ε α : Type} {a b : α} : (pure a : Except ε α) = .ok b ↔ a = b := by
  simp [pure, Except.pure]

/-- A comprehension returns where its body does for every item. -/
theorem mapM_eq_ok {ε α β : Type} {f : α → Except ε β} {xs : List α} {ys : List β} :
    xs.mapM f = .ok ys ↔ List.Forall₂ (fun x y => f x = .ok y) xs ys := by
  induction xs generalizing ys with
  | nil =>
    rw [List.mapM_nil, pure_eq_ok, List.forall₂_nil_left_iff]
    exact eq_comm
  | cons x xs ih =>
    simp only [List.mapM_cons, bind_eq_ok, pure_eq_ok, ih]
    constructor
    · rintro ⟨y, hy, ys, hys, rfl⟩
      exact .cons hy hys
    · rintro (_ | ⟨hy, hys⟩)
      exact ⟨_, hy, _, hys, rfl⟩

/-- A comprehension whose body always returns does. -/
theorem exists_mapM_eq_ok {ε α β : Type} {f : α → Except ε β} {xs : List α}
    (h : ∀ x ∈ xs, ∃ y, f x = .ok y) : ∃ ys, xs.mapM f = .ok ys := by
  induction xs with
  | nil => exact ⟨[], rfl⟩
  | cons x xs ih =>
    obtain ⟨y, hy⟩ := h x (List.mem_cons_self ..)
    obtain ⟨ys, hys⟩ := ih fun z hz => h z (List.mem_cons_of_mem _ hz)
    exact ⟨y :: ys, mapM_eq_ok.mpr (.cons hy (mapM_eq_ok.mp hys))⟩

theorem exists_right_of_mem {α β : Type} {R : α → β → Prop} {xs : List α} {ys : List β}
    (h : List.Forall₂ R xs ys) {x : α} (hx : x ∈ xs) : ∃ y ∈ ys, R x y := by
  induction h with
  | nil => exact absurd hx List.not_mem_nil
  | cons hxy _ ih =>
    rcases List.mem_cons.mp hx with rfl | hx
    · exact ⟨_, List.mem_cons_self .., hxy⟩
    · obtain ⟨y, hy, hR⟩ := ih hx
      exact ⟨y, List.mem_cons_of_mem _ hy, hR⟩

theorem exists_left_of_mem {α β : Type} {R : α → β → Prop} {xs : List α} {ys : List β}
    (h : List.Forall₂ R xs ys) {y : β} (hy : y ∈ ys) : ∃ x ∈ xs, R x y :=
  exists_right_of_mem h.flip hy

theorem get_of_item {value x : PyValue} {key : String} (h : value.item key = .ok x) :
    value.get key = .ok x := by
  cases value with
  | obj fields =>
    simp only [item] at h
    split at h
    · next hfield =>
      cases h
      simp [get, getD, hfield]
    · cases h
  | _ => cases h

@[simp] theorem truthy_str {s : String} : (PyValue.str s).truthy = true ↔ s ≠ "" := by
  simp [truthy]

@[simp] theorem truthy_null : PyValue.null.truthy = false := rfl

@[simp] theorem pyEq_str (s t : String) : (PyValue.str s).pyEq (.str t) = decide (s = t) := by
  simp [pyEq, number?]

end PyValue
