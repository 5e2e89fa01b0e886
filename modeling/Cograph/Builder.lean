import Cograph.Graph
import Cograph.Mirror

/-!
# GraphBuilder.persist_graph

One call replaces the rows of the files it is given. First the nodes: an
extracted node keeps the row with its symbol key, a module also the module row
of its file, and the other rows of the file are deleted before new ones are
inserted. Then the edges: those of the kept rows are rewritten, unresolved
edges that name something the call changed are tried again, and the
`callers`/`callees` arrays of the rows in scope are refreshed.

`none` is an `IntegrityError` of the unique index on the qualified name, after
which the caller's savepoint takes everything back. The source-file row, the
temporal columns and the counts of the result are left out.
-/

namespace Cograph

section
variable (h : Host)

/-! ## Matching extracted nodes with rows -/

/-- The signatures of the nodes a later node of the same name shadows. -/
def shadowedSignatures (nodes : List ExtractedNode) (q : String) : List String :=
  (nodes.filter (·.qualifiedName = q)).dropLast.filterMap (·.signature.filter (· ≠ ""))

def dedupeNodesByQualifiedName (nodes : List ExtractedNode) : List ExtractedNode :=
  (Dict.ofItems (nodes.map fun x => (x.qualifiedName, x))).map fun (q, x) =>
    { x with metadata.overloads := x.metadata.overloads ++ shadowedSignatures nodes q }

namespace ExtractedGraph

def deduped (g : ExtractedGraph) : List ExtractedNode := dedupeNodesByQualifiedName g.nodes

def changedFilePaths (g : ExtractedGraph) : List Path := (g.deduped.map (·.filePath)).eraseDups

def keys (g : ExtractedGraph) : List (Path × Option String) := g.deduped.map fun x => (x.filePath, some x.symbolKey)

end ExtractedGraph

def existingNodes (db : Db) (g : ExtractedGraph) : List CodeNode :=
  db.nodes.filter (·.filePath ∈ g.changedFilePaths)

def existingByKey (db : Db) (g : ExtractedGraph) : Dict.Items (Path × String) Nat :=
  Dict.ofItems <| (existingNodes db g).filterMap fun n =>
    (n.symbolKey.filter (· ≠ "")).map fun k => ((n.filePath, k), n.id)

def orphanModuleByFile (db : Db) (g : ExtractedGraph) : Dict.Items Path Nat :=
  Dict.ofItems <| ((existingNodes db g).filter fun n =>
    n.nodeType = .module ∧ (n.filePath, n.symbolKey) ∉ g.keys).map fun n => (n.filePath, n.id)

/-- The loop over the extracted nodes: the orphan modules left, the nodes that
keep a row, the nodes to insert. -/
structure Matched where
  orphans : Dict.Items Path Nat
  kept : List (ExtractedNode × Nat)
  pending : List ExtractedNode

def matchNode (byKey : Dict.Items (Path × String) Nat) (m : Matched) (x : ExtractedNode) : Matched :=
  match Dict.get byKey (x.filePath, x.symbolKey) with
  | some i => { m with kept := m.kept ++ [(x, i)] }
  | none =>
    match if x.nodeType = .module then Dict.get m.orphans x.filePath else none with
    | some i => { m with orphans := Dict.drop m.orphans x.filePath, kept := m.kept ++ [(x, i)] }
    | none => { m with pending := m.pending ++ [x] }

def matchNodes (db : Db) (g : ExtractedGraph) : Matched :=
  g.deduped.foldl (matchNode (existingByKey db g)) ⟨orphanModuleByFile db g, [], []⟩

/-- `preserved_node_ids`. -/
def preservedIds (db : Db) (g : ExtractedGraph) : List Nat := (matchNodes db g).kept.map (·.2)

def doomedNodes (db : Db) (g : ExtractedGraph) : List CodeNode :=
  (existingNodes db g).filter (·.id ∉ preservedIds db g)

def doomedIds (db : Db) (g : ExtractedGraph) : List Nat := (doomedNodes db g).map (·.id)

/-! ## Writing the nodes -/

def CodeNode.assign (n : CodeNode) (x : ExtractedNode) : CodeNode :=
  { n with
    qualifiedName := x.qualifiedName
    symbolKey := some x.symbolKey
    nodeType := x.nodeType
    name := x.name
    language := x.language
    metadata := x.metadata
    contentHash := h.sha256 x.content }

def keepNode (rows : List CodeNode) (k : ExtractedNode × Nat) : List CodeNode :=
  rows.map fun n => if n.id = k.2 then n.assign h k.1 else n

/-- The flush of the kept rows, in id order, each row beside what it becomes.
A new name must be free at that moment. -/
def flushUpdates : List CodeNode → List (CodeNode × CodeNode) → Option (List CodeNode)
  | done, [] => some done
  | done, (old, new) :: todo =>
    if new.qualifiedName = old.qualifiedName ∨
        new.qualifiedName ∉ done.map (·.qualifiedName) ++ todo.map (·.1.qualifiedName) then
      flushUpdates (done ++ [new]) todo
    else none

/-- `detach_surviving_children`. -/
def detachSurvivingChildren (doomed : List Nat) (rows : List CodeNode) : List CodeNode :=
  rows.map fun n => if n.parentId.any (· ∈ doomed) then { n with parentId := none } else n

/-- What the deletion of nodes does to an edge that starts elsewhere. -/
def CodeEdge.nulled (doomed : List Nat) (e : CodeEdge) : CodeEdge :=
  { e with targetNodeId := e.targetNodeId.filter (· ∉ doomed) }

def deleteNodes (doomed : List Nat) (db : Db) : Db :=
  { db with
    nodes := (detachSurvivingChildren doomed db.nodes).filter (·.id ∉ doomed)
    edges := (db.edges.filter (·.sourceNodeId ∉ doomed)).map (CodeEdge.nulled doomed) }

def newNode (i : Nat) (x : ExtractedNode) : CodeNode where
  id := i
  filePath := x.filePath
  qualifiedName := x.qualifiedName
  symbolKey := some x.symbolKey
  nodeType := x.nodeType
  name := x.name
  language := x.language
  parentId := none
  callers := []
  callees := []
  metadata := x.metadata
  contentHash := h.sha256 x.content

def insertNode (db : Db) (x : ExtractedNode) : Option Db :=
  if x.qualifiedName ∈ db.nodes.map (·.qualifiedName) then none
  else some { db with nodes := db.nodes ++ [newNode h db.nextId x], nextId := db.nextId + 1 }

def insertNodes : Db → List ExtractedNode → Option Db
  | db, [] => some db
  | db, x :: xs => (insertNode h db x).bind (insertNodes · xs)

/-- The node half of a call: updates, deletes, inserts. -/
def persistNodes (db : Db) (g : ExtractedGraph) : Option Db :=
  let m := matchNodes db g
  (flushUpdates [] (db.nodes.zip (m.kept.foldl (keepNode h) db.nodes))).bind fun rows =>
    insertNodes h (deleteNodes (doomedIds db g) { db with nodes := rows }) m.pending

/-- `nodes_by_qualified_name`: the rows of the extracted nodes. -/
def namedIds (db : Db) (g : ExtractedGraph) : Dict.Items String Nat :=
  let m := matchNodes db g
  m.kept.map (fun k => (k.1.qualifiedName, k.2)) ++
    m.pending.zipIdx.map fun x => (x.1.qualifiedName, db.nextId + x.2)

/-- Each kept row with the name it had when the loop came to it. -/
def renames : List CodeNode → List (ExtractedNode × Nat) → List (CodeNode × ExtractedNode)
  | _, [] => []
  | rows, k :: kept => ((findNode rows k.2).map (·, k.1)).toList ++ renames (keepNode h rows k) kept

/-- The renames, removals and additions a call makes in the cache. -/
def updateCache (db : Db) (g : ExtractedGraph) (c : Cache) : Cache :=
  let m := matchNodes db g
  let renamed := (renames h db.nodes m.kept).foldl (fun c r => c.rename r.1.id r.1.qualifiedName r.2.qualifiedName) c
  let removed := (doomedNodes db g).foldl Cache.remove renamed
  m.pending.zipIdx.foldl (fun c x => c.add (newNode h (db.nextId + x.2) x.1)) removed

/-! ## Writing parents and metadata -/

def setRow (i : Nat) (f : CodeNode → CodeNode) (rows : List CodeNode) : List CodeNode :=
  rows.map fun n => if n.id = i then f n else n

def setParent (named : Dict.Items String Nat) (rows : List CodeNode) (x : ExtractedNode) : List CodeNode :=
  match Dict.get named x.qualifiedName with
  | none => rows
  | some i =>
    match x.parentQualifiedName with
    | none => setRow i (fun n => { n with parentId := none }) rows
    | some q =>
      match Dict.get named q with
      | none => rows
      | some p => setRow i (fun n => { n with parentId := some p }) rows

def Metadata.setList (m : Metadata) (t : EdgeType) (targets : List String) : Metadata :=
  match t with
  | .imports => { m with imports := targets.eraseDups }
  | .inherits => { m with inherits := targets.eraseDups }
  | .calls => { m with calls := targets.eraseDups }
  | .declares => m

/-- The targets of one type of edge, onto the metadata of each source. -/
def setTargets (named : Dict.Items String Nat) (edges : List ExtractedEdge) (rows : List CodeNode) (t : EdgeType) :
    List CodeNode :=
  let ofType := edges.filter (·.edgeType = t)
  (ofType.map (·.source)).eraseDups.foldl (fun rows source =>
    match Dict.get named source with
    | none => rows
    | some i =>
      let targets := (ofType.filter (·.source = source)).map (·.target)
      setRow i (fun n => { n with metadata := n.metadata.setList t targets }) rows) rows

/-- A call that adds, drops or renames a non-module node may move the methods
of other files. -/
def parentsMayMove (db : Db) (g : ExtractedGraph) : Bool :=
  let m := matchNodes db g
  let renamedNonModule := (renames h db.nodes m.kept).any fun r =>
    r.1.qualifiedName ≠ r.2.qualifiedName ∧ r.2.nodeType ≠ .module
  renamedNonModule || m.pending.any (·.nodeType ≠ .module) || (doomedNodes db g).any (·.nodeType ≠ .module)

def refreshMethodParents (view : Cache) (scope : List Nat) (rows : List CodeNode) : List CodeNode :=
  rows.map fun n =>
    if n.id ∈ scope ∧ n.nodeType = .method then
      { n with parentId := Dict.get view.nodesByQn (Text.rpartitionDot n.qualifiedName).1 }
    else n

/-- The rows as the edge loop sees them. -/
def linkedRows (db : Db) (g : ExtractedGraph) (view : Cache) (rows : List CodeNode) : List CodeNode :=
  let named := namedIds db g
  let parented := g.deduped.foldl (setParent named) rows
  let tagged := [EdgeType.imports, .inherits, .calls].foldl (setTargets named g.edges) parented
  refreshMethodParents view (if parentsMayMove h db g then view.nodeById else named.map (·.2)) tagged

/-! ## Writing the edges -/

/-- An extracted edge with the row it becomes, where its source is a node of
the call. -/
def edgeRow (rows : List CodeNode) (view : Cache) (named : Dict.Items String Nat) (e : ExtractedEdge) :
    Option (ExtractedEdge × CodeEdge) :=
  ((Dict.get named e.source).bind (findNode rows)).map fun source =>
    let name := canonicalTargetName h rows view e.edgeType e.target source
    (e, ⟨source.id, resolveEdgeTarget rows view e.edgeType name, name, e.edgeType⟩)

def CodeEdge.key (e : CodeEdge) : Nat × EdgeType × String := (e.sourceNodeId, e.edgeType, e.targetQualifiedName)

def addEdge (new : List (ExtractedEdge × CodeEdge)) (x : ExtractedEdge × CodeEdge) : List (ExtractedEdge × CodeEdge) :=
  if x.2.key ∈ new.map (·.2.key) then new else new ++ [x]

/-- The new edges, the first of each key. -/
def newEdges (rows : List CodeNode) (view : Cache) (named : Dict.Items String Nat) (edges : List ExtractedEdge) :
    List (ExtractedEdge × CodeEdge) :=
  (edges.filterMap (edgeRow h rows view named)).foldl addEdge []

def affectedQualifiedNames (db : Db) (g : ExtractedGraph) : List String :=
  (namedIds db g).map (·.1) ++ (doomedNodes db g).map (·.qualifiedName)

/-- An unresolved edge that the call tries again. -/
def isCandidate (view : Cache) (affected : List String) (e : CodeEdge) : Bool :=
  e.targetNodeId = none ∧ e.targetQualifiedName ∈ affected ∧ e.sourceNodeId ∈ view.nodeById

def reresolve (rows : List CodeNode) (view : Cache) (affected : List String) (e : CodeEdge) : CodeEdge :=
  if isCandidate view affected e then
    { e with targetNodeId := resolveEdgeTarget rows view e.edgeType e.targetQualifiedName }
  else e

/-- The targets a CALLS edge was bound to by a second try. -/
def reresolvedTargetIds (rows : List CodeNode) (view : Cache) (affected : List String) (edges : List CodeEdge) :
    List Nat :=
  (edges.filter fun e => isCandidate view affected e ∧ e.edgeType = .calls).filterMap fun e =>
    resolveEdgeTarget rows view .calls e.targetQualifiedName

/-- The sources whose list of unresolved calls a second try made shorter. -/
def refreshUnresolved (rows : List CodeNode) (view : Cache) (affected : List String) (edges after : List CodeEdge) :
    List CodeNode :=
  let sources := (edges.filter fun e => isCandidate view affected e ∧ e.edgeType = .calls ∧
    (resolveEdgeTarget rows view .calls e.targetQualifiedName).isSome).map (·.sourceNodeId)
  rows.map fun n =>
    if n.id ∈ sources then
      let left := (after.filter fun e => e.sourceNodeId = n.id ∧ e.edgeType = .calls ∧ e.targetNodeId = none).map
        (·.targetQualifiedName)
      { n with metadata := { n.metadata with unresolvedCalls := left.eraseDups } }
    else n

/-! ## The back-compat arrays -/

/-- The resolved CALLS edges, as pairs of ids. -/
def callPairs (edges : List CodeEdge) : List (Nat × Nat) :=
  edges.filterMap fun e => if e.edgeType = .calls then e.targetNodeId.map (e.sourceNodeId, ·) else none

/-- `_rebuild_back_compat_arrays` with a scope. -/
def rebuildBackCompatArrays (ids : List Nat) (edges : List CodeEdge) (touched peers dropped : List Nat)
    (rows : List CodeNode) : List CodeNode :=
  let pairs := (callPairs edges).filter fun p =>
    (p.1 ∈ touched ∨ p.2 ∈ touched) ∧ p.1 ∈ ids ∧ p.2 ∈ ids
  let calleesOf := fun i => ((pairs.filter (·.1 = i)).map (·.2)).eraseDups
  let callersOf := fun i => ((pairs.filter (·.2 = i)).map (·.1)).eraseDups
  let stale := touched ++ dropped
  if touched = [] then rows
  else rows.map fun n =>
    if n.id ∉ ids then n
    else if n.id ∈ touched then { n with callees := calleesOf n.id, callers := callersOf n.id }
    else if n.id ∈ peers then
      { n with
        callees := Mirror.swapped n.callees stale (calleesOf n.id)
        callers := Mirror.swapped n.callers stale (callersOf n.id) }
    else n

/-- `rebuild_relationships`: every array from every edge. -/
def rebuildRelationships (db : Db) : Db :=
  let ids := db.nodes.map (·.id)
  let pairs := (callPairs db.edges).filter fun p => p.1 ∈ ids ∧ p.2 ∈ ids
  { db with nodes := db.nodes.map fun n => { n with
      callees := ((pairs.filter (·.1 = n.id)).map (·.2)).eraseDups
      callers := ((pairs.filter (·.2 = n.id)).map (·.1)).eraseDups } }

/-- The unresolved calls of the nodes of the call, as extracted. -/
def setUnresolved (named : Dict.Items String Nat) (new : List (ExtractedEdge × CodeEdge)) (rows : List CodeNode) :
    List CodeNode :=
  let unresolved := (new.filter fun x => x.1.edgeType = .calls ∧ x.2.targetNodeId = none).map (·.1)
  (unresolved.map (·.source)).eraseDups.foldl (fun rows source =>
    match Dict.get named source with
    | none => rows
    | some i =>
      let targets := (unresolved.filter (·.source = source)).map (·.target)
      setRow i (fun n => { n with metadata := { n.metadata with unresolvedCalls := targets.eraseDups } }) rows) rows

/-! ## The call -/

section
variable (db : Db) (g : ExtractedGraph) (view : Cache) (mid : Db)

/-- The new edges of a call, on the rows and edges the node half left. -/
def callEdges : List (ExtractedEdge × CodeEdge) :=
  newEdges h (linkedRows h db g view mid.nodes) view (namedIds db g) g.edges

/-- The edges of kept rows give way to the new ones. -/
def writtenEdges : List CodeEdge :=
  mid.edges.filter (·.sourceNodeId ∉ preservedIds db g) ++ (callEdges h db g view mid).map (·.2)

def finalEdges : List CodeEdge :=
  (writtenEdges h db g view mid).map
    (reresolve (linkedRows h db g view mid.nodes) view (affectedQualifiedNames db g))

def rebuiltIds : List Nat :=
  (namedIds db g).map (·.2) ++ reresolvedTargetIds (linkedRows h db g view mid.nodes) view
    (affectedQualifiedNames db g) (writtenEdges h db g view mid)

def touchedIds : List Nat :=
  let peersFromDeletedOutbound := (mid.edges.filter (·.sourceNodeId ∈ preservedIds db g)).filterMap (·.targetNodeId)
  let peersFromReresolved := ((writtenEdges h db g view mid).filter
    (isCandidate view (affectedQualifiedNames db g))).map (·.sourceNodeId)
  (namedIds db g).map (·.2) ++ preservedIds db g ++ peersFromDeletedOutbound ++ peersFromReresolved ++
    (callEdges h db g view mid).filterMap (·.2.targetNodeId)

/-- The edge half of a call. -/
def persistEdges : Db :=
  let rows := linkedRows h db g view mid.nodes
  let after := finalEdges h db g view mid
  let rebuilt := rebuiltIds h db g view mid
  let peers := (touchedIds h db g view mid).filter (· ∉ rebuilt)
  let refreshed := refreshUnresolved rows view (affectedQualifiedNames db g) (writtenEdges h db g view mid) after
  let arrays := rebuildBackCompatArrays view.nodeById after rebuilt peers (doomedIds db g) refreshed
  { mid with nodes := setUnresolved (namedIds db g) (callEdges h db g view mid) arrays, edges := after }

end

/-- The nodes a call finds by id and by name: the cache's, or a fresh
`SELECT`'s. -/
def viewOf (cache : Option Cache) (mid : Db) : Cache := cache.getD (Cache.fromNodes mid.nodes)

/-- `GraphBuilder.persist_graph`, with or without the ingest cache. -/
def persistGraph (db : Db) (cache : Option Cache) (g : ExtractedGraph) : Option (Db × Option Cache) :=
  if g.nodes = [] then some (db, cache)
  else
    (persistNodes h db g).map fun mid =>
      let cache := cache.map (updateCache h db g)
      (persistEdges h db g (viewOf cache mid) mid, cache)

end

end Cograph
