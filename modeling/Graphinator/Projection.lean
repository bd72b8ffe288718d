import Graphinator.Records

/-!
# The statements of the projections

One definition for each Cypher statement that `batch_projection` and `entity_projection` run,
over the rows one record contributes to its parameters. `UNWIND` runs the rest of its statement
over the rows in order. A node that a statement binds with `MATCH` is a condition on the rest.

The part of a statement after its `MATCH` has its own name (`link..`), and `unwindAt` runs it over
rows. `MERGE` with `ON CREATE SET a.name = name` and `ON MATCH SET a.name = coalesce(a.name, name)` is
one clause here, `fillName`: the name of a node that was just created is null.

## Main definitions

* `ArtistRow`, `LabelRow`, `MasterRow`, `ReleaseRow` : what one record contributes.
* `pruneStaleEdges`, `pruneReleaseEdges`, `pruneIssuedOn`, `pruneCreditedTo`, `pruneCreditedOn`.
* `mergeRelease`, `releaseBy` and the rest : the merging statements.

## Main results

* `unwindAt_eq` : a `MATCH` of a node that the graph has is no condition.
-/

namespace Graphinator

open PropertyGraph

/-- What an artist record contributes. -/
structure ArtistRow where
  id : PyValue
  name : PyValue
  sha256 : PyValue
  resourceUrl : PyValue
  releasesUrl : PyValue
  members : List PyValue
  groups : List PyValue
  aliases : List PyValue
deriving DecidableEq

/-- What a label record contributes. -/
structure LabelRow where
  id : PyValue
  name : PyValue
  sha256 : PyValue
  parentLabel : Option PyValue
  sublabels : List PyValue
deriving DecidableEq

/-- What a master record contributes. -/
structure MasterRow where
  id : PyValue
  title : PyValue
  year : PyValue
  sha256 : PyValue
  artists : List PyValue
  /-- The keep-lists of the prunes. -/
  keepGenres : List PyValue
  keepStyles : List PyValue
  genres : List PyValue
  styles : List PyValue
  pairs : List (PyValue × PyValue)
deriving DecidableEq

/-- What a release record contributes. -/
structure ReleaseRow where
  id : PyValue
  title : PyValue
  year : PyValue
  country : Option String
  formats : PyValue
  mediaFamilies : List String
  sha256 : PyValue
  /-- The metadata bag: only its non-null properties are set. -/
  metadata : List (String × PyValue)
  artists : List Reference
  labels : List Reference
  masterId : Option String
  /-- The keep-lists of the prunes. -/
  keepGenres : List PyValue
  keepStyles : List PyValue
  genres : List PyValue
  styles : List PyValue
  pairs : List (PyValue × PyValue)
  mediaRows : List MediaRow
  /-- `none` for a record that carries no companies block. -/
  companyRows : Option (List CompanyRow)
  creditRows : List CreditRow
deriving DecidableEq

/-! ### Prunes -/

/-- `_prune_stale_edges`, of both modules. -/
def pruneStaleEdges (n : Node) (relType : Rel) (targetLabel : Label) (keep : List PyValue) :
    Graph → Graph :=
  deleteEdges fun e => e.arc.src = n ∧ e.arc.kind = relType ∧ e.arc.dst.label = targetLabel ∧
    e.arc.dst.key ∉ keep

/-- The condition of PRUNE_RELEASE_EDGES_CYPHER on an edge that leaves the release. -/
def StaleReleaseEdge (r : ReleaseRow) (a : Arc Node Rel) : Prop :=
  (a.kind = .BY ∧ a.dst.label = .artist ∧ a.dst.key ∉ r.artists.map (·.id)) ∨
  (a.kind = .ON ∧ a.dst.label = .label ∧ a.dst.key ∉ r.labels.map (·.id)) ∨
  (a.kind = .DERIVED_FROM ∧ a.dst.label = .master ∧
    a.dst.key ∉ (r.masterId.map PyValue.str).toList) ∨
  (a.kind = .IS ∧ a.dst.label = .genre ∧ a.dst.key ∉ r.keepGenres) ∨
  (a.kind = .IS ∧ a.dst.label = .style ∧ a.dst.key ∉ r.keepStyles)

instance (r : ReleaseRow) : DecidablePred (StaleReleaseEdge r) := fun a => by
  unfold StaleReleaseEdge
  infer_instance

/-- PRUNE_RELEASE_EDGES_CYPHER for one release. -/
def pruneReleaseEdges (r : ReleaseRow) : Graph → Graph :=
  deleteEdges fun e => e.arc.src = .release r.id ∧ StaleReleaseEdge r e.arc

/-- PRUNE_ISSUED_ON_CYPHER for one release. -/
def pruneIssuedOn (r : ReleaseRow) : Graph → Graph :=
  deleteEdges fun e => e.arc.src = .release r.id ∧ e.arc.kind = .ISSUED_ON mediaSource ∧
    e.arc.dst.label = .medium ∧ e.arc.dst.key ∉ r.mediaRows.map fun row => .str row.medium

/-- `NOT [key, role] IN keep` is true. A pair with the same key compares as null with an edge whose
role is null, and the edge is then kept. -/
def notInPairs (key role : PyValue) (keep : List (PyValue × PyValue)) : Bool :=
  keep.all fun pair => pair.1 ≠ key || (role ≠ .null && pair.2 ≠ role)

/-- The condition of PRUNE_CREDITED_TO_CYPHER on an edge from the release to a company. -/
def staleCompanyEdge (rows : List CompanyRow) (a : Arc Node Rel) : Bool :=
  match a.kind with
  | .CREDITED_TO role source => source = companySource &&
    notInPairs a.dst.key role (rows.map fun row => (.str row.id, .str row.role))
  | _ => false

/-- PRUNE_CREDITED_TO_CYPHER for the company rows of one release. -/
def pruneCreditedTo (release : PyValue) (rows : List CompanyRow) : Graph → Graph :=
  deleteEdges fun e => e.arc.src = .release release ∧ e.arc.dst.label = .company ∧
    staleCompanyEdge rows e.arc = true

/-- The condition of PRUNE_CREDITED_ON_CYPHER on an edge from a person to the release. -/
def staleCreditEdge (rows : List CreditRow) (a : Arc Node Rel) : Bool :=
  match a.kind with
  | .CREDITED_ON role => notInPairs a.src.key role (rows.map fun row => (row.name, row.role))
  | _ => false

/-- PRUNE_CREDITED_ON_CYPHER for one release. -/
def pruneCreditedOn (r : ReleaseRow) : Graph → Graph :=
  deleteEdges fun e => e.arc.dst = .release r.id ∧ e.arc.src.label = .person ∧
    staleCreditEdge r.creditRows e.arc = true

/-! ### Statements over rows -/

/-- `UNWIND xs AS x MATCH (n) f(x)`. -/
def unwindAt {α : Type} (n : Node) (f : α → Graph → Graph) (xs : List α) : Graph → Graph :=
  runAll (fun x => matchNode n (f x)) xs

/-- `MERGE (v)` and `MERGE (n)-[:kind]->(v)`. -/
def linkTo (n : Node) (kind : Rel) (v : Node) (g : Graph) : Graph :=
  (g.mergeNode v id).mergeEdge ⟨kind, n, v⟩ id

/-- `MERGE (v)` and `MERGE (v)-[:kind]->(n)`. -/
def linkFrom (n : Node) (kind : Rel) (v : Node) (g : Graph) : Graph :=
  (g.mergeNode v id).mergeEdge ⟨kind, v, n⟩ id

/-- `MERGE (v)` with the name of a reference, and `MERGE (n)-[:kind]->(v)`. -/
def linkNamed (n : Node) (kind : Rel) (v : Node) (name : Option String) (g : Graph) : Graph :=
  (g.mergeNode v (fillName (textValue name))).mergeEdge ⟨kind, n, v⟩ id

/-- A `MATCH` of a node that the graph has, over programs that take no node away, is no
condition. -/
theorem unwindAt_eq {α : Type} {n : Node} {f : α → Graph → Graph} {xs : List α} {g : Graph}
    (hn : n ∈ g.nodes) (hf : ∀ x ∈ xs, ∀ t : Graph, n ∈ t.nodes → n ∈ (f x t).nodes) :
    unwindAt n f xs g = runAll f xs g := by
  unfold unwindAt
  induction xs generalizing g with
  | nil => rfl
  | cons x xs ih =>
    rw [runAll_cons, runAll_cons, matchNode_of_mem hn]
    exact ih (hf x (List.mem_cons_self ..) g hn) fun y hy => hf y (List.mem_cons_of_mem _ hy)

/-! ### Artists and labels -/

/-- The properties of an artist record. -/
def ArtistRow.props (a : ArtistRow) : List (String × PyValue) :=
  [("name", a.name), ("sha256", a.sha256), ("resource_url", a.resourceUrl),
    ("releases_url", a.releasesUrl)]

/-- The node of an artist record. -/
def mergeArtist (a : ArtistRow) : Graph → Graph := mergeNode (.artist a.id) (setProps a.props)

/-- `MATCH (a:Artist), MERGE (m:Artist), MERGE (m)-[:MEMBER_OF]->(a)`. -/
def artistMembers (a : ArtistRow) : Graph → Graph :=
  unwindAt (.artist a.id) (fun m => linkFrom (.artist a.id) .MEMBER_OF (.artist m)) a.members

/-- `MATCH (a:Artist), MERGE (g:Artist), MERGE (a)-[:MEMBER_OF]->(g)`. -/
def artistGroups (a : ArtistRow) : Graph → Graph :=
  unwindAt (.artist a.id) (fun m => linkTo (.artist a.id) .MEMBER_OF (.artist m)) a.groups

/-- `MATCH (a:Artist), MERGE (al:Artist), MERGE (al)-[:ALIAS_OF]->(a)`. -/
def artistAliases (a : ArtistRow) : Graph → Graph :=
  unwindAt (.artist a.id) (fun m => linkFrom (.artist a.id) .ALIAS_OF (.artist m)) a.aliases

/-- The properties of a label record. -/
def LabelRow.props (l : LabelRow) : List (String × PyValue) :=
  [("name", l.name), ("sha256", l.sha256)]

/-- The node of a label record. -/
def mergeLabel (l : LabelRow) : Graph → Graph := mergeNode (.ofLabel l.id) (setProps l.props)

/-- `MATCH (l:Label), MERGE (p:Label), MERGE (l)-[:SUBLABEL_OF]->(p)`. -/
def labelParent (l : LabelRow) : Graph → Graph :=
  unwindAt (.ofLabel l.id) (fun p => linkTo (.ofLabel l.id) .SUBLABEL_OF (.ofLabel p))
    l.parentLabel.toList

/-- `MATCH (l:Label), MERGE (s:Label), MERGE (s)-[:SUBLABEL_OF]->(l)`. -/
def labelSublabels (l : LabelRow) : Graph → Graph :=
  unwindAt (.ofLabel l.id) (fun s => linkFrom (.ofLabel l.id) .SUBLABEL_OF (.ofLabel s)) l.sublabels

/-! ### Genres and styles -/

/-- `MERGE (:Genre {name: name})`, `MERGE (:Style {name: name})`. -/
def mergeGenre (name : PyValue) : Graph → Graph := mergeNode (.genre name) id

def mergeStyle (name : PyValue) : Graph → Graph := mergeNode (.style name) id

/-- `MERGE (g:Genre), MERGE (s:Style), MERGE (s)-[:PART_OF]->(g)`. -/
def mergePartOf (pair : PyValue × PyValue) (g : Graph) : Graph :=
  linkFrom (.genre pair.1) .PART_OF (.style pair.2) (g.mergeNode (.genre pair.1) id)

/-- `MATCH (n), MATCH (t), MERGE (n)-[:IS]->(t)`, after the genres or styles have been merged. -/
def matchIs (n : Node) (t : PyValue → Node) (names : List PyValue) : Graph → Graph :=
  unwindAt n (fun name => matchNode (t name) (mergeEdge ⟨.IS, n, t name⟩ id)) names

/-- `MATCH (n), MERGE (t), MERGE (n)-[:IS]->(t)`. -/
def mergeIs (n : Node) (t : PyValue → Node) (names : List PyValue) : Graph → Graph :=
  unwindAt n (fun name => linkTo n .IS (t name)) names

/-! ### Masters -/

/-- The properties of a master record. -/
def MasterRow.props (m : MasterRow) : List (String × PyValue) :=
  [("title", m.title), ("year", m.year), ("sha256", m.sha256)]

/-- The node of a master record. -/
def mergeMaster (m : MasterRow) : Graph → Graph := mergeNode (.master m.id) (setProps m.props)

/-- `MATCH (m:Master), MERGE (a:Artist), MERGE (m)-[:BY]->(a)`. -/
def masterBy (m : MasterRow) : Graph → Graph :=
  unwindAt (.master m.id) (fun a => linkTo (.master m.id) .BY (.artist a)) m.artists

/-! ### Releases -/

/-- The properties of a release record, and its metadata bag. -/
def ReleaseRow.props (r : ReleaseRow) : List (String × PyValue) :=
  [("title", r.title), ("year", r.year), ("country", textValue r.country), ("formats", r.formats),
    ("media_families", .arr (r.mediaFamilies.map .str)), ("sha256", r.sha256)] ++ r.metadata

/-- The node of a release record. -/
def mergeRelease (r : ReleaseRow) : Graph → Graph :=
  mergeNode (.release r.id) (setProps r.props)

/-- `MATCH (r:Release), MERGE (a:Artist)` with its name, `MERGE (r)-[:BY]->(a)`. -/
def releaseBy (r : ReleaseRow) : Graph → Graph :=
  unwindAt (.release r.id) (fun a => linkNamed (.release r.id) .BY (.artist a.id) a.name) r.artists

/-- `MATCH (r:Release), MERGE (l:Label)` with its name, `MERGE (r)-[:ON]->(l)`. -/
def releaseOn (r : ReleaseRow) : Graph → Graph :=
  unwindAt (.release r.id) (fun l => linkNamed (.release r.id) .ON (.ofLabel l.id) l.name) r.labels

/-- `MATCH (r:Release), MERGE (m:Master), MERGE (r)-[:DERIVED_FROM]->(m)`. -/
def releaseDerivedFrom (r : ReleaseRow) : Graph → Graph :=
  unwindAt (.release r.id) (fun m => linkTo (.release r.id) .DERIVED_FROM (.master (.str m)))
    r.masterId.toList

/-- MERGE_MEDIA_CYPHER after its `MATCH`, for one row. -/
def linkMedium (release : PyValue) (row : MediaRow) (g : Graph) : Graph :=
  (((g.mergeNode (.mediaFamily row.family) id).mergeNode (.medium row.medium)
      (setProps [("family", .str row.family), ("label", .str row.label)])).mergeEdge
        ⟨.IN_FAMILY, .medium row.medium, .mediaFamily row.family⟩ id).mergeEdge
          ⟨.ISSUED_ON mediaSource, .release release, .medium row.medium⟩
          (setProps [("qty", .int row.qty)])

/-- MERGE_MEDIA_CYPHER for the rows of one release. -/
def mergeMedia (r : ReleaseRow) : Graph → Graph :=
  unwindAt (.release r.id) (linkMedium r.id) r.mediaRows

/-- MERGE_COMPANY_CYPHER after its `MATCH`, for one row. -/
def linkCompany (release : PyValue) (row : CompanyRow) (g : Graph) : Graph :=
  (g.mergeNode (.company row.id) (setProps [("name", .str row.name)])).mergeEdge
    ⟨.CREDITED_TO (.str row.role) companySource, .release release, .company row.id⟩
    (setProps [("role_category", .str row.roleCategory)])

/-- The companies statements skip a release that carries no companies block. -/
def pruneCompanies (r : ReleaseRow) : Graph → Graph :=
  match r.companyRows with
  | none => id
  | some rows => pruneCreditedTo r.id rows

def mergeCompanies (r : ReleaseRow) : Graph → Graph :=
  unwindAt (.release r.id) (linkCompany r.id) (r.companyRows.getD [])

/-- The CREDITED_ON statement after its `MATCH`, for one credit. -/
def linkCredit (release : PyValue) (row : CreditRow) (g : Graph) : Graph :=
  (g.mergeNode (.person row.name) id).mergeEdge
    ⟨.CREDITED_ON row.role, .person row.name, .release release⟩
    (setProps [("category", row.category)])

def mergeCredits (r : ReleaseRow) : Graph → Graph :=
  unwindAt (.release r.id) (linkCredit r.id) r.creditRows

/-- The SAME_AS statement for one credit: `MATCH (p:Person), MATCH (a:Artist),
MERGE (p)-[:SAME_AS]->(a)`. An id that no key can equal matches no artist. -/
def linkSameAs (row : CreditRow) : Graph → Graph :=
  match row.artistId.map nodeKey with
  | some (.ok artist) => matchNode (.person row.name) fun g =>
    g.matchNode (.artist artist) (mergeEdge ⟨.SAME_AS, .person row.name, .artist artist⟩ id)
  | _ => id

def mergeSameAs (r : ReleaseRow) : Graph → Graph := runAll linkSameAs r.creditRows

end Graphinator
