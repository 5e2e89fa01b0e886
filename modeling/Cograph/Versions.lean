import Cograph.Ingest
import Cograph.Machine

/-!
# GraphQueryService.get_node_detail

A node's text, callers and callees are stored twice. Version 1 of the storage
reads the node's own columns, version 2 slices the file's bytes and follows the
CALLS edges. `persist_graph` writes both; so here a repository is its graph
with the columns of each row that only the file decides, and the source files.

The signature and the doc comment, which both versions read from one column,
are left out.
-/

namespace Cograph.Versions

/-! ## What the extractor hands over -/

/-- `raw[start:end].decode("utf-8")`, `none` where it raises. -/
def decodeSlice (raw : ByteArray) (start stop : Nat) : Option String := String.fromUTF8? (raw.extract start stop)

/-- The columns of a node that say where it stands in its file, and the text
there. -/
structure Span where
  startLine : Nat
  endLine : Nat
  startByte : Option Nat
  endByte : Option Nat
  content : String

/-- A node cut out of the file: `_node_text` of its tree node is its content. -/
structure Declared (text : String) where
  node : ExtractedNode
  startLine : Nat
  endLine : Nat
  startByte : Nat
  endByte : Nat
  notModule : node.nodeType ≠ .module
  nodeText : decodeSlice text.toUTF8 startByte endByte = some node.content

/-- What an extractor finds in the text of the file at `p`: the module, which
stands for the whole text, and the nodes cut out of it. -/
structure Outline (p : Path) (text : String) where
  module : ExtractedNode
  lastLine : Nat
  declared : List (Declared text)
  edges : List ExtractedEdge
  isModule : module.nodeType = .module
  wholeText : module.content = text
  inFile : module.filePath = p ∧ ∀ d ∈ declared, d.node.filePath = p
  ownName : ∀ d ∈ declared, d.node.qualifiedName ≠ module.qualifiedName

namespace Outline

variable {p : Path} {text : String} (o : Outline p text)

def graph : ExtractedGraph := ⟨o.module :: o.declared.map (·.node), o.edges⟩

/-- The module of an empty file has no byte range. -/
def moduleSpan : Span :=
  let size := text.toUTF8.size
  if 0 < size then ⟨1, o.lastLine, some 0, some size, o.module.content⟩
  else ⟨1, o.lastLine, none, none, o.module.content⟩

end Outline

def Declared.span {text : String} (d : Declared text) : Span :=
  ⟨d.startLine, d.endLine, some d.startByte, some d.endByte, d.node.content⟩

/-- The spans by name: of nodes with one name the last. -/
def Outline.spans {p : Path} {text : String} (o : Outline p text) : Dict.Items String Span :=
  Dict.ofItems ((o.module.qualifiedName, o.moduleSpan) :: o.declared.map fun d => (d.node.qualifiedName, d.span))

/-- The tools of an ingest whose extractor is known by its outlines. -/
structure Sources where
  tools : Tools
  outline : Checkout → (p : Path) → (text : String) → Outline p text
  extracts : ∀ C p text, tools.extract C p text = (outline C p text).graph

/-! ## Rows -/

structure SourceFile where
  id : Nat
  filePath : Path
  rawBytes : ByteArray

/-- The columns of a row of `code_nodes` that `CodeNode` leaves out. -/
structure Body extends Span where
  sourceFileId : Option Nat

structure Repository where
  db : Db
  cache : Option Cache
  bodies : Nat → Body
  files : List SourceFile
  nextFileId : Nat

def noBody : Body := ⟨⟨0, 0, none, none, ""⟩, none⟩

def Repository.empty : Repository := ⟨⟨[], [], 0⟩, none, fun _ => noBody, [], 0⟩

/-! ## Writing a file -/

/-- `module_by_file`, with the content of each module. -/
def moduleByFile (g : ExtractedGraph) : Dict.Items Path String :=
  Dict.ofItems ((g.deduped.filter (·.nodeType = .module)).map fun x => (x.filePath, x.content))

def upsertSourceFile (r : Repository) (m : Path × String) : Repository :=
  if m.1 ∈ r.files.map (·.filePath) then
    { r with files := r.files.map fun f => if f.filePath = m.1 then { f with rawBytes := m.2.toUTF8 } else f }
  else { r with files := r.files ++ [⟨r.nextFileId, m.1, m.2.toUTF8⟩], nextFileId := r.nextFileId + 1 }

/-- `_upsert_source_files`. -/
def upsertSourceFiles (g : ExtractedGraph) (r : Repository) : Repository := (moduleByFile g).foldl upsertSourceFile r

/-- `source_file_id_by_path`. -/
def sourceFileId (files : List SourceFile) (p : Path) : Option Nat := (files.find? (·.filePath = p)).map (·.id)

def setBody (fileId : Option Nat) (spans : Dict.Items String Span) (bodies : Nat → Body) (x : String × Nat) :
    Nat → Body :=
  match Dict.get spans x.1 with
  | none => bodies
  | some span => fun j => if j = x.2 then ⟨span, fileId⟩ else bodies j

section
variable (S : Sources) (C : Checkout)

/-- `persist_graph` in its savepoint: the source-file row, the nodes with all
their columns, the edges. A refused call leaves the rows as they were. -/
def persist (r : Repository) (f : Path × String) : Repository :=
  let g := parseSourceGraph S.tools C f.1 f.2
  let written := upsertSourceFiles g r
  match persistGraph S.tools.host r.db r.cache g with
  | none => { r with cache := r.cache.map fun _ => Cache.fromNodes r.db.nodes }
  | some (db, cache) =>
    let fileId := sourceFileId written.files f.1
    { written with
      db := db
      cache := cache
      bodies := (namedIds r.db g).foldl (setBody fileId (S.outline C f.1 f.2).spans) r.bodies }

/-! ## Ingests -/

/-- What an ingest writes, in its order. The cache is loaded after the deletes,
which here drop one that would be stale. -/
inductive Write where
  | delete (doomed : Path → Bool)
  | rebuild
  | loadCache
  | persist (f : Path × String)
  | rebuildScoped (touched : List Nat)

def write (r : Repository) : Write → Repository
  | .delete doomed =>
    { r with
      db := deleteFiles doomed r.db
      cache := none
      files := r.files.filter fun f => !doomed f.filePath }
  | .rebuild => { r with db := rebuildRelationships r.db }
  | .loadCache => { r with cache := some (Cache.fromNodes r.db.nodes) }
  | .persist f => persist S C r f
  | .rebuildScoped touched => { r with db := rebuildRelationshipsScoped touched r.db }

end

section
variable (T : Tools) (C : Checkout) (db : Db)

def fullWrites : List Write :=
  match selectGoPackages T C (sortKeys ((goFiles T C).map (·.1.packageKey))) with
  | none => []
  | some packages =>
    let present := (presentFiles T C packages).map (·.1)
    let known := (loadModuleState db).map (·.1)
    let rebuilds := if present.any (· ∉ known) || known.any (· ∉ present) then [Write.rebuild] else []
    (.delete (· ∉ present) :: rebuilds) ++
      .loadCache :: (fullJobs T C (loadModuleState db) packages).1.map .persist

def incrementalWrites (changes : List GitFileChange) : List Write :=
  match selectGoPackages T C (goPackageKeys changes) with
  | none => []
  | some packages =>
    let paths := deletedPaths T C db changes packages
    let touched := (paths.foldl deleteSourceFile (db, [])).2
    let jobs := incrementalJobs T C db changes packages
    paths.map (fun p => .delete (· = p)) ++ jobs.1.map .persist ++
      if touched = [] ∨ jobs.2 then [] else [.rebuildScoped touched]

/-- `ingest_checkout`, as the list of its writes. -/
def ingestWrites : Option (List GitFileChange) → List Write
  | none => fullWrites T C db
  | some changes =>
    if changes.any touchesRootGoMod || hasStaleStamp T C db then fullWrites T C db
    else incrementalWrites T C db changes

end

/-- An ingest of a checkout, committed up to its `written`-th write. -/
structure Ingest where
  checkout : Checkout
  changes : Option (List GitFileChange)
  written : Nat

section
variable (S : Sources)

/-- The writes of an ingest that take effect. -/
def committed (r : Repository) (a : Ingest) : List Write :=
  (ingestWrites S.tools a.checkout r.db a.changes).take a.written

def ingested (r : Repository) (a : Ingest) : Repository :=
  (committed S r a).foldl (write S a.checkout) { r with cache := none }

def next (r : Repository) (a : Ingest) : Option Repository := some (ingested S r a)

end

/-! ## Reading a node -/

structure RelatedNode where
  id : Nat
  name : String
  nodeType : NodeType
  filePath : Path
  startLine : Nat
  endLine : Nat
  deriving DecidableEq

inductive Direction where
  | inbound
  | outbound

namespace Repository

variable (r : Repository)

def toRelatedNode (n : CodeNode) : RelatedNode :=
  ⟨n.id, n.name, n.nodeType, n.filePath, (r.bodies n.id).startLine, (r.bodies n.id).endLine⟩

/-- `ORDER BY start_line, name`. -/
def linesBefore (n m : CodeNode) : Bool :=
  let line := fun x : CodeNode => (r.bodies x.id).startLine
  if line n ≠ line m then decide (line n ≤ line m) else decide (n.name ≤ m.name)

/-- `ORDER BY file_path, start_line, name`. -/
def standsBefore (n m : CodeNode) : Bool :=
  if n.filePath ≠ m.filePath then decide (n.filePath.posix ≤ m.filePath.posix) else r.linesBefore n m

def inOrder (rows : List CodeNode) : List CodeNode := rows.insertionSort fun n m => r.standsBefore n m

/-- `_related_nodes_from_ids`: the ids that are still rows. -/
def relatedNodesFromIds (ids : List Nat) : List RelatedNode :=
  ids.filterMap fun i => (findNode r.db.nodes i).map r.toRelatedNode

def peerIds (i : Nat) : Direction → List Nat
  | .outbound => (r.db.edges.filter fun e => e.edgeType = .calls ∧ e.sourceNodeId = i).filterMap (·.targetNodeId)
  | .inbound => (r.db.edges.filter fun e => e.edgeType = .calls ∧ e.targetNodeId = some i).map (·.sourceNodeId)

/-- `_v2_related`. -/
def v2Related (i : Nat) (direction : Direction) : List RelatedNode :=
  (r.inOrder (r.db.nodes.filter (·.id ∈ r.peerIds i direction))).map r.toRelatedNode

/-- `_v2_node_content`. -/
def v2NodeContent (i : Nat) : String :=
  let body := r.bodies i
  match body.sourceFileId, body.startByte, body.endByte with
  | some fileId, some startByte, some endByte =>
    match r.files.find? (·.id = fileId) with
    | none => body.content
    | some file =>
      let stop := min file.rawBytes.size endByte
      if stop ≤ startByte then "" else (decodeSlice file.rawBytes startByte stop).getD body.content
  | _, _, _ => body.content

end Repository

structure NodeDetail where
  node : RelatedNode
  language : GraphLanguage
  metadata : Metadata
  content : String
  callers : List RelatedNode
  callees : List RelatedNode
  members : List RelatedNode
  parent : Option RelatedNode

/-- `(graph_storage_version or 1) >= 2`. -/
def useV2 (version : Option Nat) : Bool :=
  match version with
  | none => false
  | some v => 2 ≤ v

def getNodeDetail (version : Option Nat) (r : Repository) (i : Nat) : Option NodeDetail :=
  (findNode r.db.nodes i).map fun n =>
    let read :=
      if useV2 version then (r.v2NodeContent i, r.v2Related i .inbound, r.v2Related i .outbound)
      else ((r.bodies i).content, r.relatedNodesFromIds n.callers, r.relatedNodesFromIds n.callees)
    { node := r.toRelatedNode n
      language := n.language
      metadata := n.metadata
      content := read.1
      callers := read.2.1
      callees := read.2.2
      members := ((r.db.nodes.filter (·.parentId = some i)).insertionSort fun n m => r.linesBefore n m).map
        r.toRelatedNode
      parent := (n.parentId.bind (findNode r.db.nodes)).map r.toRelatedNode }

end Cograph.Versions
