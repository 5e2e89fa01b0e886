import Cograph.Graph
import Cograph.Strs

/-!
# Traversing the call graph

`graph/traversal.py`: the nodes around a node of a repository, level by level
over its callers and callees. A repository of graph storage version 2 is read
from the rows of `code_edges`, an older one from the id lists of its nodes.
-/

namespace Cograph.Traversal

inductive TraversalDirection where
  | callers
  | callees
  | both
  deriving DecidableEq

/-- A row of `code_nodes`, its id lists as the text they are stored as. -/
structure NodeRow where
  id : Nat
  name : Str
  nodeType : NodeType
  filePath : Str
  startLine : Nat
  endLine : Nat
  signature : Option Str
  callers : List Str
  callees : List Str
  deriving DecidableEq

/-- The graph of a repository: ids are a primary key, and an edge joins nodes
that are there. -/
structure Snapshot where
  nodes : List NodeRow
  edges : List CodeEdge
  graphStorageVersion : Option Nat
  ids : (nodes.map (·.id)).Nodup
  joined : ∀ e ∈ edges, e.sourceNodeId ∈ nodes.map (·.id) ∧ ∀ t, e.targetNodeId = some t → t ∈ nodes.map (·.id)

structure TraversalNode where
  id : Nat
  name : Str
  nodeType : NodeType
  filePath : Str
  startLine : Nat
  endLine : Nat
  signature : Option Str
  distance : Nat
  deriving DecidableEq

structure TraversalEdge where
  source : Nat
  target : Nat
  type : EdgeType
  distance : Nat
  deriving DecidableEq

structure TraversalResponse where
  root : TraversalNode
  direction : TraversalDirection
  depth : Nat
  nodes : List TraversalNode
  edges : List TraversalEdge
  truncated : Bool
  deriving DecidableEq

/-- A neighbour with the source and the target of the edge to it. -/
abbrev Neighbour := Nat × Nat × Nat

/-! ## Neighbours -/

section
variable (s : Snapshot) (direction : TraversalDirection)

/-- `_load_neighbours_v2`, the list of one node. -/
def neighboursV2 (u : Nat) : List Neighbour :=
  let targets := (s.edges.filterMap fun e =>
    if e.edgeType = .calls ∧ e.sourceNodeId = u then e.targetNodeId else none).insertionSort (· ≤ ·)
  let sources := (s.edges.filterMap fun e =>
    if e.edgeType = .calls ∧ e.targetNodeId = some u then some e.sourceNodeId else none).insertionSort (· ≤ ·)
  (if direction = .callees ∨ direction = .both then targets.map fun t => (t, u, t) else []) ++
    if direction = .callers ∨ direction = .both then sources.map fun x => (x, x, u) else []

/-- `_load_neighbours_legacy`, the list of one node. -/
def neighboursLegacy (parseUuid : Str → Option Nat) (u : Nat) : List Neighbour :=
  match s.nodes.find? (·.id = u) with
  | none => []
  | some node =>
    (if direction = .callees ∨ direction = .both then
        (node.callees.filterMap parseUuid).map fun t => (t, u, t) else []) ++
      if direction = .callers ∨ direction = .both then
        (node.callers.filterMap parseUuid).map fun x => (x, x, u) else []

/-- `_load_neighbours`. -/
def neighbours (parseUuid : Str → Option Nat) (useV2 : Bool) (u : Nat) : List Neighbour :=
  if useV2 then neighboursV2 s direction u else neighboursLegacy s direction parseUuid u

def useV2 : Bool := s.graphStorageVersion.any (· ≥ 2)

end

/-! ## The search -/

structure Search where
  visitedDistance : Dict.Items Nat Nat
  edgeDistance : Dict.Items (Nat × Nat) Nat
  nextFrontier : List Nat
  truncated : Bool

/-- `dict.setdefault`. -/
def setdefault {κ α : Type} [DecidableEq κ] (d : Dict.Items κ α) (k : κ) (v : α) : Dict.Items κ α :=
  if k ∈ d.map (·.1) then d else Dict.put d k v

/-- One neighbour at a hop. -/
def visit (maxNodes : Option Nat) (hop : Nat) (st : Search) (n : Neighbour) : Search :=
  let st := { st with edgeDistance := setdefault st.edgeDistance n.2 hop }
  if n.1 ∈ st.visitedDistance.map (·.1) then st
  else if maxNodes.any (· ≤ st.visitedDistance.length - 1) then { st with truncated := true }
  else { st with
    visitedDistance := Dict.put st.visitedDistance n.1 hop
    nextFrontier := st.nextFrontier ++ [n.1] }

/-- The hops from `hop` on, so many are left. -/
def hops (neighbours : Nat → List Neighbour) (maxNodes : Option Nat) : Nat → Nat → List Nat → Search → Search
  | 0, _, _, st => st
  | left + 1, hop, frontier, st =>
    if frontier = [] then st
    else
      let st := (frontier.flatMap neighbours).foldl (visit maxNodes hop) { st with nextFrontier := [] }
      hops neighbours maxNodes left (hop + 1) st.nextFrontier st

def search (neighbours : Nat → List Neighbour) (maxNodes : Option Nat) (depth nodeId : Nat) : Search :=
  hops neighbours maxNodes depth 1 [nodeId] ⟨[(nodeId, 0)], [], [], false⟩

/-! ## The response -/

def traversalNode (row : NodeRow) (distance : Nat) : TraversalNode :=
  ⟨row.id, row.name, row.nodeType, row.filePath, row.startLine, row.endLine, row.signature, distance⟩

/-- The order of the keys `(distance, file_path, start_line, name)`. -/
def nodeBefore (a b : TraversalNode) : Prop :=
  a.distance < b.distance ∨ a.distance = b.distance ∧
    (a.filePath < b.filePath ∨ a.filePath = b.filePath ∧
      (a.startLine < b.startLine ∨ a.startLine = b.startLine ∧ ¬b.name < a.name))

instance (a b : TraversalNode) : Decidable (nodeBefore a b) := inferInstanceAs (Decidable (_ ∨ _))

/-- The order of the keys `(hop, source, target)`. -/
def edgeBefore (a b : TraversalEdge) : Prop :=
  a.distance < b.distance ∨ a.distance = b.distance ∧
    (a.source < b.source ∨ a.source = b.source ∧ a.target ≤ b.target)

instance (a b : TraversalEdge) : Decidable (edgeBefore a b) := inferInstanceAs (Decidable (_ ∨ _))

section
variable (s : Snapshot) (direction : TraversalDirection) (depth nodeId : Nat)

/-- The rows of the visited nodes. -/
def visibleRows (st : Search) : List NodeRow := s.nodes.filter fun row => row.id ∈ st.visitedDistance.map (·.1)

def relatedNodes (st : Search) : List TraversalNode :=
  (((visibleRows s st).filter (·.id ≠ nodeId)).map fun row =>
    traversalNode row ((Dict.get st.visitedDistance row.id).getD 0)).insertionSort nodeBefore

def visibleEdges (st : Search) : List TraversalEdge :=
  let visible := (visibleRows s st).map (·.id)
  ((st.edgeDistance.filter fun e => e.1.1 ∈ visible ∧ e.1.2 ∈ visible).map fun e =>
    ⟨e.1.1, e.1.2, .calls, e.2⟩).insertionSort edgeBefore

/-- `traverse` over the neighbours of one back-end. -/
def traverseOver (neighbours : Nat → List Neighbour) (maxNodes : Option Nat) : Option TraversalResponse :=
  match s.nodes.find? (·.id = nodeId) with
  | none => none
  | some root =>
    let st := search neighbours maxNodes depth nodeId
    some ⟨traversalNode root 0, direction, depth, relatedNodes s nodeId st, visibleEdges s st, st.truncated⟩

/-- `traverse`. -/
def traverse (parseUuid : Str → Option Nat) (maxNodes : Option Nat) : Option TraversalResponse :=
  traverseOver s direction depth nodeId (neighbours s direction parseUuid (useV2 s)) maxNodes

end

end Cograph.Traversal
