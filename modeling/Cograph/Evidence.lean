import Cograph.Citations
import Cograph.Traversal

/-!
# The evidence a page's agent gathers

`wiki/agent_tools.py` and `extract_evidence` of `wiki/evidence_ledger.py`: the
tools that look into the code graph, the entries each shows the model, and the
records a result leaves in the ledger. An entry carries the id of the node it
was made from, whatever name it shows for it.
-/

namespace Cograph.AgentTools

open Traversal (NodeRow Snapshot TraversalDirection TraversalNode TraversalEdge)
open Wiki (EvidenceRecord Ledger)

/-- A row of `code_nodes` with the columns the tools read. -/
structure CodeRow extends NodeRow where
  qualifiedName : Str
  parentId : Option Nat

/-- The code graph of a repository, whose qualified names are unique. -/
structure Repo where
  rows : List CodeRow
  edges : List CodeEdge
  graphStorageVersion : Option Nat
  ids : (rows.map (·.id)).Nodup
  names : (rows.map (·.qualifiedName)).Nodup
  joined : ∀ e ∈ edges, e.sourceNodeId ∈ rows.map (·.id) ∧ ∀ t, e.targetNodeId = some t → t ∈ rows.map (·.id)

theorem row_ids (rows : List CodeRow) : (rows.map (·.toNodeRow)).map (·.id) = rows.map (·.id) := by
  simp [Function.comp_def]

def Repo.snapshot (g : Repo) : Snapshot where
  nodes := g.rows.map (·.toNodeRow)
  edges := g.edges
  graphStorageVersion := g.graphStorageVersion
  ids := row_ids g.rows ▸ g.ids
  joined := row_ids g.rows ▸ g.joined

def Repo.find (g : Repo) (qualifiedName : Str) : Option CodeRow := g.rows.find? (·.qualifiedName = qualifiedName)

/-- What a search returns, each hit a node that exists. -/
abbrev Hits (g : Repo) := List { row : CodeRow // row ∈ g.rows }

/-! ## Entries -/

/-- How a result shows a node: looked up, suggested for a name that no node
has, or next to the one asked for. -/
inductive Showing where
  | looked
  | suggestion
  | neighbour
  deriving DecidableEq

structure Entry where
  showing : Showing
  id : Nat
  qualifiedName : Str
  filePath : Option Str
  deriving DecidableEq

/-- `_node_to_dict`. -/
def nodeToDict (row : CodeRow) : Entry := ⟨.looked, row.id, row.qualifiedName, some row.filePath⟩

/-- The dictionary made of the metadata of a hit. -/
def candidate {g : Repo} (showing : Showing) (hit : { row : CodeRow // row ∈ g.rows }) : Entry :=
  ⟨showing, hit.1.id, hit.1.qualifiedName, some hit.1.filePath⟩

/-- `_traversal_node_dict`, whose qualified name is the bare name. -/
def traversalNodeDict (node : TraversalNode) : Entry := ⟨.neighbour, node.id, node.name, some node.filePath⟩

/-- The node asked for, which the result confirms under the name it was asked by. -/
def confirmed (qualifiedName : Str) (row : CodeRow) : Entry := ⟨.looked, row.id, qualifiedName, none⟩

/-! ## Tools -/

inductive Call (g : Repo) where
  | readNodeByQn (qualifiedName : Str) (hits : Hits g)
  | findByName (name : Str) (topK : Nat) (hits : Hits g)
  | listChildren (qualifiedName : Str)
  | listByFile (filePath : Str)
  | getNeighbors (qualifiedName : Str) (depth : Nat) (direction : Str)
  | searchCode (query : Str) (topK : Nat) (hits : Hits g)

inductive Result where
  | node (requested : Str) (body : Entry)
  | notFound (requested : Str) (candidates : List Entry)
  | candidates (name : Str) (candidates : List Entry)
  | children (requested : Str) (parent : Option Entry) (children : List Entry)
  | nodes (filePath : Str) (nodes : List Entry)
  | neighbors (requested : Str) (seed : Option Entry) (callers callees : List Entry)
  | results (query : Str) (results : List Entry)

/-- The order of the keys `(start_line, qualified_name)`. -/
def childBefore (a b : CodeRow) : Prop :=
  a.startLine < b.startLine ∨ a.startLine = b.startLine ∧ ¬b.qualifiedName < a.qualifiedName

instance (a b : CodeRow) : Decidable (childBefore a b) := inferInstanceAs (Decidable (_ ∨ _))

/-- The direction of a payload, `both` for a text that is none. -/
def directionOf (direction : Str) : TraversalDirection :=
  let direction := Str.lower (if direction = [] then "both".toList else direction)
  if direction = "callers".toList then .callers
  else if direction = "callees".toList then .callees
  else .both

def calleeOf (nodes : List TraversalNode) (seed : Nat) (e : TraversalEdge) : Option Entry :=
  if e.type = .calls ∧ e.source = seed then (nodes.find? (·.id = e.target)).map traversalNodeDict else none

/-- The other side of an edge that is not one to a callee. -/
def callerOf (nodes : List TraversalNode) (seed : Nat) (e : TraversalEdge) : Option Entry :=
  if e.type = .calls ∧ calleeOf nodes seed e = none ∧ e.target = seed then
    (nodes.find? (·.id = e.source)).map traversalNodeDict
  else none

section
variable {g : Repo} (parseUuid : Str → Option Nat)

def readNodeByQn (g : Repo) (qualifiedName : Str) (hits : Hits g) : Result :=
  match g.find qualifiedName with
  | some row => .node qualifiedName (nodeToDict row)
  | none => .notFound qualifiedName (hits.map (candidate .suggestion))

def listChildren (g : Repo) (qualifiedName : Str) : Result :=
  match g.find qualifiedName with
  | none => .children qualifiedName none []
  | some parent =>
    let children := (g.rows.filter (·.parentId = some parent.id)).insertionSort childBefore
    .children qualifiedName (some (confirmed qualifiedName parent)) (children.map nodeToDict)

def listByFile (g : Repo) (filePath : Str) : Result :=
  .nodes filePath (((g.rows.filter (·.filePath = filePath)).insertionSort (·.startLine ≤ ·.startLine)).map nodeToDict)

/-- `get_neighbors`. A traversal has call edges only, so that the bucket
`contains` stays empty. -/
def getNeighbors (g : Repo) (qualifiedName : Str) (depth : Nat) (direction : Str) : Result :=
  match g.find qualifiedName with
  | none => .neighbors qualifiedName none [] []
  | some seed =>
    match Traversal.traverse g.snapshot (directionOf direction) depth seed.id parseUuid none with
    | none => .neighbors qualifiedName (some (confirmed qualifiedName seed)) [] []
    | some response =>
      .neighbors qualifiedName (some (confirmed qualifiedName seed))
        (response.edges.filterMap (callerOf response.nodes seed.id))
        (response.edges.filterMap (calleeOf response.nodes seed.id))

/-- A tool call, refused where its payload is out of bounds. -/
def handle : Call g → Option Result
  | .readNodeByQn qualifiedName hits => some (readNodeByQn g qualifiedName hits)
  | .findByName name topK hits =>
    if 1 ≤ topK ∧ topK ≤ 25 then some (.candidates name (hits.map (candidate .looked))) else none
  | .listChildren qualifiedName => some (listChildren g qualifiedName)
  | .listByFile filePath => some (listByFile g filePath)
  | .getNeighbors qualifiedName depth direction =>
    if 1 ≤ depth ∧ depth ≤ 3 then some (getNeighbors parseUuid g qualifiedName depth direction) else none
  | .searchCode query topK hits =>
    if 1 ≤ topK ∧ topK ≤ 20 then some (.results query (hits.map (candidate .looked))) else none

end

/-- The entries of a result, each a code node the model is shown. -/
def Result.shown : Result → List Entry
  | .node _ body => [body]
  | .notFound _ items | .candidates _ items | .nodes _ items | .results _ items => items
  | .children _ parent items => parent.toList ++ items
  | .neighbors _ seed callers callees => seed.toList ++ callers ++ callees

/-! ## Records -/

/-- `_opt_str`. -/
def optStr (value : Option Str) : Option Str := (value.map Str.strip).filter (· ≠ [])

/-- `_node_record_id`. -/
def nodeRecordId (qn : Str) : Str := "node:".toList ++ qn

def nodeRecord (qn : Str) (filePath : Option Str) : EvidenceRecord := ⟨nodeRecordId qn, .codeNode, some qn, filePath⟩

/-- `_records_from_candidate_list`, and what the other extractors do with each
of their entries. -/
def recordsFromCandidateList (items : List Entry) : List EvidenceRecord :=
  items.filterMap fun item => (optStr (some item.qualifiedName)).map fun qn => nodeRecord qn (optStr item.filePath)

/-- The entries the extractor of a tool goes through. -/
def recorded : Result → List Entry
  | .node requested body =>
    [{ body with qualifiedName := if body.qualifiedName = [] then requested else body.qualifiedName }]
  | .notFound .. => []
  | .candidates _ items | .nodes _ items | .results _ items => items
  | .children _ parent items => if parent.isSome then parent.toList ++ items else []
  | .neighbors _ seed callers callees => if seed.isSome then seed.toList ++ callers ++ callees else []

def extractEvidence (r : Result) : List EvidenceRecord := recordsFromCandidateList (recorded r)

/-! ## A page's run -/

/-- The ledger of a page and the entries its agent was shown so far. -/
structure Session where
  ledger : Ledger
  shown : List Entry

def Session.start : Session := ⟨.empty, []⟩

/-- A successful tool call of the dispatcher. -/
def next {g : Repo} (parseUuid : Str → Option Nat) (s : Session) (call : Call g) : Option Session :=
  (handle parseUuid call).map fun r => ⟨s.ledger.recordAll (extractEvidence r), s.shown ++ r.shown⟩

end Cograph.AgentTools
