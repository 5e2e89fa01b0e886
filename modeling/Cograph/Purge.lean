import Cograph.References

/-!
# The purge of deleted repositories

`repos/purge_worker.py` beside everything else that writes: a deletion only
stamps the repository, and workers drain what belongs to it, the tables with
vector indexes in batches of 500 parents, then the repository itself with all
that cascades. Each batch is a transaction of its own; a worker may die between
any two, and several may drain one repository at once. The tables are those
that refer to a repository, directly or through one another, and those that
these refer to.
-/

namespace Cograph.Purge

open References

/-! ## Tables -/

inductive Table where
  | repositories
  | sourceFiles
  | codeNodes
  | codeEdges
  | codeEmbeddings
  | codeNodeSummaries
  | codeSubgraphSummaries
  | moduleEmbeddings
  | repoDocuments
  | repoDocumentChunks
  | repoDocumentChunkMentions
  | documents
  | wikiArtifacts
  | repoSyncRuns
  | syncBatches
  | syncJobs
  | groups
  | repositoryGrants
  | mdCollections
  | queryLogs
  deriving DecidableEq, Repr

namespace Table

/-- The columns with `ondelete="CASCADE"` that must be set, and those that may be. -/
def cascades : Table → List Table × List Table
  | sourceFiles | repoDocuments | documents | wikiArtifacts | repoSyncRuns => ([repositories], [])
  | codeNodes => ([repositories], [sourceFiles, codeNodes])
  | codeEdges | codeNodeSummaries | codeSubgraphSummaries | moduleEmbeddings => ([repositories, codeNodes], [])
  | codeEmbeddings => ([codeNodes], [])
  | repoDocumentChunks => ([repoDocuments], [])
  | repoDocumentChunkMentions => ([repoDocumentChunks, codeNodes], [])
  | syncBatches => ([], [repositories])
  | syncJobs => ([syncBatches], [repositories])
  | repositoryGrants => ([groups, repositories], [])
  | repositories | groups | mdCollections | queryLogs => ([], [])

/-- The columns with `ondelete="SET NULL"`. -/
def nulls : Table → List Table
  | codeEdges => [codeNodes]
  | documents | wikiArtifacts | syncBatches => [repoSyncRuns]
  | mdCollections => [repositories]
  | queryLogs => [repositories, mdCollections]
  | _ => []

end Table

structure Key where
  table : Table
  id : ℕ
  deriving DecidableEq, Repr

abbrev repository (r : ℕ) : Key := ⟨.repositories, r⟩

/-- Each column is set at most once, and those that must be are. -/
def fits (table : Table) (parents links : List Key) : Bool :=
  let set := parents.map Key.table
  set.Nodup ∧ table.cascades.1.all (· ∈ set) ∧ set.all (fun t => t ∈ table.cascades.1 ++ table.cascades.2) ∧
    (links.map Key.table).Nodup ∧ (links.map Key.table).all (· ∈ table.nulls)

/-! ## Workers -/

def inChunkSize : ℕ := 500

/-- `chunked`, with the batch it is filling. -/
def chunkedFrom {α : Type} (size : ℕ) : List α → List α → List (List α)
  | batch, [] => if batch.isEmpty then [] else [batch]
  | batch, item :: values =>
    if (batch ++ [item]).length ≥ size then (batch ++ [item]) :: chunkedFrom size [] values
    else chunkedFrom size (batch ++ [item]) values

def chunked {α : Type} (values : List α) : List (List α) := chunkedFrom inChunkSize [] values

/-- What a worker returns. -/
structure Counts where
  codeEmbeddingsDeleted : ℕ
  moduleEmbeddingsDeleted : ℕ
  repoDocumentChunksDeleted : ℕ
  repositoriesDeleted : ℕ
  deriving DecidableEq, Repr

/-- A worker between two transactions. -/
inductive Worker where
  | idle
  | codeEmbeddings (r : ℕ) (batches : List (List Key)) (counts : Counts)
  /-- The module embeddings are gone; the documents are to be read. -/
  | documents (r : ℕ) (counts : Counts)
  | repoDocumentChunks (r : ℕ) (batches : List (List Key)) (counts : Counts)
  | returned (r : ℕ) (counts : Counts)
  deriving DecidableEq, Repr

structure St where
  nextId : ℕ
  db : List (Row Key)
  /-- The repositories with status `DELETING`. -/
  deleting : List ℕ
  workers : ℕ → Worker

/-- `SELECT id FROM table WHERE column IN keys`, for a table with one column
that refers to the table of these keys. -/
def idsWhere (db : List (Row Key)) (table : Table) (keys : List Key) : List Key :=
  (db.filter fun row => row.key.table = table ∧ row.parents.any (· ∈ keys)).map Row.key

/-- The repositories that a row goes with. -/
def homes (db : List (Row Key)) (key : Key) : List Key :=
  (db.map Row.key).filter fun k => k.table = .repositories ∧ key ∉ (delete db [k]).map Row.key

inductive Act where
  | insert (table : Table) (parents links : List Key)
  /-- A row refers to other rows, but never to those of another repository. -/
  | update (key : Key) (parents links : List Key)
  /-- A sync or an administrator deletes rows, but no repository. -/
  | deleteRows (keys : List Key)
  | deleteRepository (r : ℕ)
  | start (i r : ℕ)
  | step (i : ℕ)
  | die (i : ℕ)
  deriving DecidableEq, Repr

namespace St

variable (s : St)

def has (k : Key) : Bool := k ∈ s.db.map Row.key

def insert (table : Table) (parents links : List Key) : Option St :=
  if fits table parents links ∧ (parents ++ links).all s.has then
    some { s with nextId := s.nextId + 1, db := ⟨⟨table, s.nextId⟩, parents, links⟩ :: s.db }
  else none

def update (key : Key) (parents links : List Key) : Option St :=
  let db := setRefs s.db key parents links
  if s.has key ∧ fits key.table parents links ∧ (parents ++ links).all s.has ∧ homes s.db key = homes db key then
    some { s with db := db }
  else none

def deleteRows (keys : List Key) : Option St :=
  if keys.all (·.table ≠ .repositories) then some { s with db := delete s.db keys } else none

/-- A repository that is being deleted is not found a second time. -/
def deleteRepository (r : ℕ) : Option St :=
  if s.has (repository r) ∧ r ∉ s.deleting then some { s with deleting := r :: s.deleting } else none

def goto (i : ℕ) (w : Worker) : St := { s with workers := Function.update s.workers i w }

/-- The job is enqueued by a deletion; it may be enqueued again. -/
def start (i r : ℕ) : Option St :=
  if s.workers i = .idle ∧ r ∈ s.deleting then
    some (s.goto i (.codeEmbeddings r (chunked (idsWhere s.db .codeNodes [repository r])) ⟨0, 0, 0, 0⟩))
  else none

/-- A transaction that deletes the rows of a table with a parent among the keys. -/
def drain (table : Table) (keys : List Key) : St := { s with db := delete s.db (idsWhere s.db table keys) }

def step (i : ℕ) : Option St :=
  match s.workers i with
  | .codeEmbeddings r (batch :: batches) c =>
    let n := (idsWhere s.db .codeEmbeddings batch).length
    some ((s.drain .codeEmbeddings batch).goto i
      (.codeEmbeddings r batches { c with codeEmbeddingsDeleted := c.codeEmbeddingsDeleted + n }))
  | .codeEmbeddings r [] c =>
    let n := (idsWhere s.db .moduleEmbeddings [repository r]).length
    some ((s.drain .moduleEmbeddings [repository r]).goto i (.documents r { c with moduleEmbeddingsDeleted := n }))
  | .documents r c =>
    some (s.goto i (.repoDocumentChunks r (chunked (idsWhere s.db .repoDocuments [repository r])) c))
  | .repoDocumentChunks r (batch :: batches) c =>
    let n := (idsWhere s.db .repoDocumentChunks batch).length
    some ((s.drain .repoDocumentChunks batch).goto i
      (.repoDocumentChunks r batches { c with repoDocumentChunksDeleted := c.repoDocumentChunksDeleted + n }))
  | .repoDocumentChunks r [] c =>
    let n := if s.has (repository r) then 1 else 0
    some ({ s with db := delete s.db [repository r] }.goto i (.returned r { c with repositoriesDeleted := n }))
  | _ => none

def die (i : ℕ) : Option St :=
  match s.workers i with
  | .idle | .returned .. => none
  | _ => some (s.goto i .idle)

end St

def next (s : St) : Act → Option St
  | .insert table parents links => s.insert table parents links
  | .update key parents links => s.update key parents links
  | .deleteRows keys => s.deleteRows keys
  | .deleteRepository r => s.deleteRepository r
  | .start i r => s.start i r
  | .step i => s.step i
  | .die i => s.die i

structure Init (s : St) : Prop where
  integrity : Integrity s.db
  keys : (s.db.map Row.key).Nodup
  fits : ∀ row ∈ s.db, fits row.key.table row.parents row.links
  fresh : ∀ row ∈ s.db, row.key.id < s.nextId
  deleting : s.deleting = []
  workers : ∀ i, s.workers i = .idle

/-! ## Deletion in one step -/

/-- The tables as a reader should find them: a repository is gone, with all
that belongs to it, from the moment of its deletion. -/
structure Shown where
  nextId : ℕ
  db : List (Row Key)

namespace Shown

variable (s : Shown)

def has (k : Key) : Bool := k ∈ s.db.map Row.key

def next : Act → Shown
  | .insert table parents links =>
    ⟨s.nextId + 1,
      if parents.all s.has then ⟨⟨table, s.nextId⟩, parents, links.filter s.has⟩ :: s.db else s.db⟩
  | .update key parents links =>
    ⟨s.nextId, if s.has key then setRefs s.db key parents (links.filter s.has) else s.db⟩
  | .deleteRows keys => ⟨s.nextId, delete s.db keys⟩
  | .deleteRepository r => ⟨s.nextId, delete s.db [repository r]⟩
  | .start .. | .step _ | .die _ => s

end Shown

def St.shown (s : St) : Shown := ⟨s.nextId, delete s.db (s.deleting.map repository)⟩

end Cograph.Purge
