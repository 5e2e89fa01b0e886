import Cograph.DocLinker

/-!
# RepoDocumentIndexer.index_checkout

The rows of a repository's documents, with their chunks and the two stores of
each chunk's mentions: the `mentions` array, which outlives a node, and the
rows of the join table, which go with it. Embeddings and time stamps are left
out, but for `created_at` of a mention row.
-/

namespace Cograph.RepoDocs

/-! ## Rows -/

/-- A row of `repo_document_chunk_mentions` of one chunk. -/
structure ChunkMention where
  codeNodeId : Nat
  createdAt : Nat
  deriving DecidableEq

structure Chunk where
  id : Nat
  chunkIndex : Nat
  headingPath : List Str
  content : Str
  mentions : List Nat
  mentionRows : List ChunkMention
  deriving DecidableEq

/-- A row of `repo_documents`, with its chunks. -/
structure Document (Digest : Type) where
  id : Nat
  filePath : Path
  title : Option Str
  content : Str
  contentHash : Digest
  bytes : Nat
  chunks : List Chunk

/-- The documents of one repository, and the nodes of its graph. -/
structure Db (Digest : Type) where
  documents : List (Document Digest)
  symbols : List Symbol
  nextDocumentId : Nat
  nextChunkId : Nat

structure RepoDocumentIndexResult where
  discoveredFiles : Nat
  indexedDocuments : Nat
  indexedChunks : Nat
  unchangedDocuments : Nat
  deletedDocuments : Nat
  replacedFiles : List Path
  deriving DecidableEq

variable {Digest : Type} [DecidableEq Digest] (P : Py Digest) (now : Nat)

/-! ## Mentions -/

def mentionedNodes (symbols : List Symbol) (document : Path) (content : Str) : List Nat :=
  (linkChunkMentions P symbols document content).map (·.nodeId)

/-- Both stores of a chunk's mentions: the array, and a row for each node. -/
def Chunk.link (symbols : List Symbol) (document : Path) (c : Chunk) : Chunk :=
  let nodes := mentionedNodes P symbols document c.content
  { c with mentions := nodes, mentionRows := nodes.eraseDups.map fun i => ⟨i, now⟩ }

/-- `_relink_document_mentions`. -/
def Document.relink (symbols : List Symbol) (d : Document Digest) : Document Digest :=
  { d with chunks := d.chunks.map (Chunk.link P now symbols d.filePath) }

/-! ## Chunks -/

/-- The heading path of a chunk's row: the kind of the document before the
first heading. -/
def rowHeading (kind : RepoDocumentKind) (draft : RepoDocumentChunkDraft) : List Str :=
  if draft.headingPath = [] then [kind.value] else draft.headingPath

/-- `_build_chunks`, the ids from `nextId` on. -/
def buildChunks (symbols : List Symbol) (document : Path) (kind : RepoDocumentKind) (nextId : Nat)
    (drafts : List RepoDocumentChunkDraft) : List Chunk :=
  drafts.zipIdx.map fun x =>
    Chunk.link P now symbols document ⟨nextId + x.2, x.1.chunkIndex, rowHeading kind x.1, x.1.content, [], []⟩

/-! ## Documents -/

/-- The columns written for a new or a changed text. -/
def Document.written (symbols : List Symbol) (kind : RepoDocumentKind) (nextId : Nat) (content : Str)
    (d : Document Digest) : Document Digest :=
  { d with
    title := some (deriveTitle d.filePath content kind)
    content := content
    contentHash := P.sha256 content
    bytes := (String.ofList content).utf8ByteSize
    chunks := buildChunks P now symbols d.filePath kind nextId (chunk content) }

/-- A row before its first text is written. -/
def newDocument (i : Nat) (p : Path) : Document Digest := ⟨i, p, none, [], P.sha256 [], 0, []⟩

def setDocument (p : Path) (f : Document Digest → Document Digest) (documents : List (Document Digest)) :
    List (Document Digest) :=
  documents.map fun d => if d.filePath = p then f d else d

/-- The loop so far: the rows, and the counts. -/
structure Walk (Digest : Type) where
  db : Db Digest
  indexedDocuments : Nat
  indexedChunks : Nat
  unchangedDocuments : Nat
  replacedFiles : List Path

/-- A text that is stored, over the row it has or in a new one. -/
def Walk.store (kind : RepoDocumentKind) (f : Path × Str) (w : Walk Digest) (documents : List (Document Digest))
    (nextDocumentId : Nat) : Walk Digest where
  db :=
    { w.db with
      documents := setDocument f.1 (Document.written P now w.db.symbols kind w.db.nextChunkId f.2) documents
      nextDocumentId := nextDocumentId
      nextChunkId := w.db.nextChunkId + (chunk f.2).length }
  indexedDocuments := w.indexedDocuments + 1
  indexedChunks := w.indexedChunks + (chunk f.2).length
  unchangedDocuments := w.unchangedDocuments
  replacedFiles := w.replacedFiles ++ [f.1]

/-- One file, given the rows that were there before the loop. -/
def indexFile (existing : List (Document Digest)) (w : Walk Digest) (f : Path × Str) : Walk Digest :=
  match classifyRepoDocument P f.1 with
  | none => w
  | some kind =>
    match existing.find? (·.filePath = f.1) with
    | some d =>
      if d.contentHash = P.sha256 f.2 then
        { w with
          db := { w.db with documents := setDocument f.1 (Document.relink P now w.db.symbols) w.db.documents }
          unchangedDocuments := w.unchangedDocuments + 1 }
      else w.store P now kind f w.db.documents w.db.nextDocumentId
    | none =>
      w.store P now kind f (w.db.documents ++ [newDocument P w.db.nextDocumentId f.1]) (w.db.nextDocumentId + 1)

/-- The loop over the files, after the documents of missing files are
deleted. -/
def indexFiles (db : Db Digest) (files : List (Path × Str)) : Walk Digest :=
  let left := db.documents.filter fun d => d.filePath ∈ files.map (·.1)
  files.foldl (indexFile P now db.documents) ⟨{ db with documents := left }, 0, 0, 0, []⟩

/-- `index_checkout` as the pipeline calls it, unchanged documents relinked. -/
def indexCheckout (db : Db Digest) (C : Checkout) (excludedPrefixes : List Str) :
    Db Digest × RepoDocumentIndexResult :=
  let files := discover P C excludedPrefixes
  let walk := indexFiles P now db files
  (walk.db,
    { discoveredFiles := files.length
      indexedDocuments := walk.indexedDocuments
      indexedChunks := walk.indexedChunks
      unchangedDocuments := walk.unchangedDocuments
      deletedDocuments := (db.documents.filter fun d => d.filePath ∉ files.map (·.1)).length
      replacedFiles := walk.replacedFiles })

/-! ## The graph -/

/-- Any change of the graph: the rows of nodes that are gone go with them. -/
def Db.setSymbols (symbols : List Symbol) (db : Db Digest) : Db Digest :=
  let keep := fun c : Chunk =>
    { c with mentionRows := c.mentionRows.filter fun m => m.codeNodeId ∈ symbols.map (·.id) }
  { db with
    symbols := symbols
    documents := db.documents.map fun d => { d with chunks := d.chunks.map keep } }

end Cograph.RepoDocs
