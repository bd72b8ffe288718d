import Graphinator.Lib.Footprint
import Graphinator.Lib.PyValue

/-!
# The catalog graph

The nodes and edges the service writes to Neo4j. A uniqueness constraint makes every node known by
its label and its key property (`id`, or `name` of a Genre, Style, Person or MediaFamily). An edge
is known by its type, its endpoints and the properties its merge is keyed on: the role of a
CREDITED_ON, the source of an ISSUED_ON, both of a CREDITED_TO.

## Main definitions

* `Node`, `Rel`, `Row`, `Graph`.
* `nodeKey`, `storable` : the values that can be a key or a property.
* `setProps`, `fillName` : the `SET` clauses.
-/

namespace Graphinator

/-- The labels of the graph. -/
inductive Label
  | artist | label | master | release | genre | style | person | medium | mediaFamily | company
  | user
deriving DecidableEq, Repr

/-- A node, by its label and its key property. -/
structure Node where
  label : Label
  key : PyValue
deriving DecidableEq

/-- The relationship types, each with the properties its merges are keyed on. -/
inductive Rel
  | BY | ON | DERIVED_FROM | IS | PART_OF | MEMBER_OF | ALIAS_OF | SUBLABEL_OF | IN_FAMILY
  | SAME_AS | HAS_STYLE | COLLECTED | WANTS
  | CREDITED_ON (role : PyValue)
  | ISSUED_ON (source : PyValue)
  | CREDITED_TO (role source : PyValue)
deriving DecidableEq

/-- The properties of a node or an edge; an absent property is null. -/
abbrev Row := String → PyValue

/-- The catalog graph. -/
abbrev Graph := PropertyGraph Node Rel Row Row

namespace Node

abbrev artist (id : PyValue) : Node := ⟨.artist, id⟩
abbrev ofLabel (id : PyValue) : Node := ⟨.label, id⟩
abbrev master (id : PyValue) : Node := ⟨.master, id⟩
abbrev release (id : PyValue) : Node := ⟨.release, id⟩
abbrev genre (name : PyValue) : Node := ⟨.genre, name⟩
abbrev style (name : PyValue) : Node := ⟨.style, name⟩
abbrev person (name : PyValue) : Node := ⟨.person, name⟩
abbrev medium (id : String) : Node := ⟨.medium, .str id⟩
abbrev mediaFamily (name : String) : Node := ⟨.mediaFamily, .str name⟩
abbrev company (id : String) : Node := ⟨.company, .str id⟩

end Node

/-! ### Values as properties -/

/-- A list that Neo4j can store: texts, booleans or numbers, and only one of these. -/
def homogeneous (xs : List PyValue) : Bool :=
  xs.all (fun x => match x with | .str _ => true | _ => false) ||
  xs.all (fun x => match x with | .bool _ => true | _ => false) ||
  xs.all (fun x => match x with | .int _ => true | .float _ => true | _ => false)

/-- The value of a `SET`. Neo4j refuses an object and a list that is not homogeneous. -/
def storable (value : PyValue) : Except PyError PyValue :=
  match value with
  | .obj _ => .error .databaseError
  | .arr xs => if homogeneous xs then .ok value else .error .databaseError
  | _ => .ok value

/-- A whole number is one value to Cypher, as an integer and as a float. -/
def cypherNumber : PyValue → PyValue
  | .float q => if q.den = 1 then .int q.num else .float q
  | value => value

/-- The key of a `MERGE`. Neo4j refuses null besides what it cannot store. -/
def nodeKey (value : PyValue) : Except PyError PyValue :=
  match value with
  | .null | .obj _ => .error .databaseError
  | .arr xs =>
    if homogeneous xs then .ok (.arr (xs.map cypherNumber)) else .error .databaseError
  | value => .ok (cypherNumber value)

/-- `'text' + value` in Cypher, with the text of floats given. -/
def cypherConcat (floatText : ℚ → String) (text : String) : PyValue → Except PyError PyValue
  | .null => .ok .null
  | .str s => .ok (.str (text ++ s))
  | .int n => .ok (.str (text ++ toString n))
  | .bool b => .ok (.str (text ++ toString b))
  | .float q => .ok (.str (text ++ floatText q))
  | .arr xs => .ok (.arr (.str text :: xs))
  | .obj _ => .error .databaseError

@[simp] theorem nodeKey_str (s : String) : nodeKey (.str s) = .ok (.str s) := rfl

@[simp] theorem storable_str (s : String) : storable (.str s) = .ok (.str s) := rfl

/-- A key is never null. -/
theorem ne_null_of_nodeKey {value key : PyValue} (h : nodeKey value = .ok key) : key ≠ .null := by
  cases value with
  | null => simp [nodeKey] at h
  | obj fields => simp [nodeKey] at h
  | arr xs =>
    simp only [nodeKey] at h
    split_ifs at h
    cases h
    rintro ⟨⟩
  | float q =>
    simp only [nodeKey, cypherNumber] at h
    split_ifs at h <;> cases h <;> rintro ⟨⟩
  | _ =>
    cases h
    rintro ⟨⟩

/-! ### The `SET` clauses -/

/-- `SET n.k₁ = x₁, n.k₂ = x₂, ..`, from left to right. -/
def setProps (props : List (String × PyValue)) (row : Row) : Row :=
  props.foldl (fun row kv => Function.update row kv.1 kv.2) row

/-- `SET n.name = coalesce(n.name, name)`. -/
def fillName (name : PyValue) (row : Row) : Row :=
  if row "name" = .null then Function.update row "name" name else row

@[simp] theorem setProps_nil (row : Row) : setProps [] row = row := rfl

theorem setProps_cons (kv : String × PyValue) (props : List (String × PyValue)) (row : Row) :
    setProps (kv :: props) row = setProps props (Function.update row kv.1 kv.2) := rfl

/-- A property that a `SET` does not name keeps its value. -/
theorem setProps_of_notMem {props : List (String × PyValue)} {key : String}
    (h : ∀ kv ∈ props, kv.1 ≠ key) (row : Row) : setProps props row key = row key := by
  induction props generalizing row with
  | nil => rfl
  | cons kv props ih =>
    rw [setProps_cons, ih fun kv' hkv' => h kv' (List.mem_cons_of_mem _ hkv'),
      Function.update_of_ne (h kv (List.mem_cons_self ..)).symm]

theorem fillName_of_ne {key : String} (h : key ≠ "name") (name : PyValue) (row : Row) :
    fillName name row key = row key := by
  unfold fillName
  split_ifs
  · exact Function.update_of_ne h ..
  · rfl

/-- What the graph stores under a property of a node; null where there is no such node. -/
def prop (g : Graph) (v : Node) (key : String) : PyValue := g.nodes.row v key

end Graphinator
