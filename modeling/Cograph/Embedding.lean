import Cograph.Strs

/-!
# Embedding the chunks of documents

`llm/md_chunk_embedder.py`, `llm/repo_document_embedder.py`, the `embed` of
`llm/embedder.py`, and the job around it in `md_rag/worker.py` and
`md_rag/job_tracker.py`. A run reads the chunks it has to embed and lets go of
the database; then, batch by batch, it asks the provider and writes the vectors
back in a transaction of its own. Meanwhile documents are replaced and deleted,
other runs work under other models, and a run may fail or die anywhere.
-/

namespace Cograph.Embedding

/-- The tables are those of a markdown collection or of the documents of a
repository. -/
inductive Service where
  | mdRag
  | repoDocs
  deriving DecidableEq, Repr

/-! ## Tables -/

structure Document where
  id : ℕ
  /-- The repository, where the service is `repoDocs`. -/
  collectionId : ℕ
  sourceKey : Str
  deriving DecidableEq

structure Chunk (Digest Vector : Type) where
  id : ℕ
  documentId : ℕ
  headingPath : List Str
  content : Str
  /-- `none` for the empty text that is its default. -/
  contentHash : Option Digest
  embedding : Option Vector
  model : Str
  deriving DecidableEq

structure EmbedResult where
  embeddedNodes : ℕ
  skippedNodes : ℕ
  model : Str
  deriving DecidableEq

inductive MdJobStatus where
  | queued
  | running
  | success
  | error
  deriving DecidableEq, Repr

/-- `result_summary`: `processed` and `total` are set together. -/
structure Summary where
  progress : Option (ℕ × ℕ)
  currentItem : Option Str
  result : Option EmbedResult
  deriving DecidableEq

structure MdJob where
  id : ℕ
  collectionId : ℕ
  status : MdJobStatus
  resultSummary : Summary
  errorMessage : Option Str
  startedAt : Option ℕ
  finishedAt : Option ℕ
  deriving DecidableEq

/-! ## Runs -/

/-- An entry of `to_embed`. -/
structure Item (Digest : Type) where
  chunkId : ℕ
  text : Str
  hash : Digest
  deriving DecidableEq

inductive Scope where
  | collection (id : ℕ)
  | orphaned
  deriving DecidableEq

/-- The local variables of `_embed_chunks` at the head of its loop. -/
structure Work (Digest : Type) where
  chunks : List ℕ
  chunkSources : List (ℕ × Str)
  todo : List (Item Digest)
  total : ℕ
  skipped : ℕ
  embedded : ℕ
  deriving DecidableEq

inductive Stage (Digest : Type) where
  | started
  | ready (w : Work Digest)
  | asking (w : Work Digest) (batch : List (Item Digest))
  | written (w : Work Digest) (currentItem : Option Str)
  | finished (chunks : List ℕ) (result : EmbedResult)
  deriving DecidableEq

structure Run (Digest : Type) where
  id : ℕ
  job : Option ℕ
  model : Str
  batchSize : ℕ
  scope : Scope
  stage : Stage Digest
  deriving DecidableEq

structure St (Digest Vector : Type) where
  nextId : ℕ
  documents : List Document
  chunks : List (Chunk Digest Vector)
  jobs : List MdJob
  runs : List (Run Digest)
  /-- The chunks that a run has read, and what it has returned. -/
  returned : List (List ℕ × EmbedResult)
  deriving DecidableEq

/-! ## The provider -/

/-- One request of `embeddings.create`: an error that is tried again, another
error, or the data of a response. -/
inductive Attempt (Vector : Type) where
  | retryable
  | fatal (message : Str)
  | response (data : List (ℕ × Vector))

def providerFailed : Str := "Embedding provider failed after 5 attempts".toList

/-- `OpenAIEmbedProvider.embed`, with the requests it has left. -/
def embed {Vector : Type} : ℕ → List (Attempt Vector) → Option (Except Str (List Vector))
  | 0, _ => some (.error providerFailed)
  | _ + 1, [] => none
  | n + 1, .retryable :: attempts => embed n attempts
  | _ + 1, .fatal message :: _ => some (.error message)
  | _ + 1, .response data :: _ => some (.ok ((data.insertionSort (·.1 ≤ ·.1)).map (·.2)))

def maxAttempts : ℕ := 5

/-! ## One run -/

/-- `_chunk_text`. -/
def chunkText {Digest Vector : Type} (c : Chunk Digest Vector) : Str :=
  let heading := if c.headingPath = [] then [] else [" > ".toList.intercalate c.headingPath]
  ("\n".toList.intercalate (heading ++ [c.content.take 4096])).take 4096

structure Draft where
  headingPath : List Str
  content : Str

inductive Act (Vector : Type) where
  | putDocument (collectionId : ℕ) (sourceKey : Str) (drafts : List Draft)
  | deleteDocument (documentId : ℕ)
  | deleteCollection (collectionId : ℕ)
  | createJob (collectionId : ℕ)
  | retry (jobId : ℕ)
  | sweep (now : ℕ)
  | start (job : Option ℕ) (now : ℕ) (model : Str) (batchSize : ℕ) (scope : Scope)
  | read (runId : ℕ)
  | check (runId : ℕ)
  | answer (runId now : ℕ) (attempts : List (Attempt Vector))
  | report (runId : ℕ)
  | finish (runId now : ℕ)
  | fail (runId now : ℕ) (message : Str)
  | die (runId : ℕ)

section
variable {Digest Vector : Type} [DecidableEq Digest] (sha256 : Str → Digest) (service : Service)

/-- The chunk has to be embedded. -/
def stale (model : Str) (c : Chunk Digest Vector) : Bool :=
  c.embedding.isNone ∨ c.model ≠ model ∨ c.contentHash ≠ some (sha256 c.content)

/-- `MdJobTracker.update_status`. -/
def MdJob.updateStatus (job : MdJob) (now : ℕ) (status : MdJobStatus) (summary : Option Summary)
    (message : Option Str) : MdJob :=
  { job with
    status := status
    resultSummary := summary.getD job.resultSummary
    errorMessage := message.or job.errorMessage
    startedAt := if status = .running then job.startedAt.or (some now) else job.startedAt
    finishedAt := if status = .success ∨ status = .error then some now else job.finishedAt }

/-- `MdJobTracker.update_progress`. -/
def MdJob.updateProgress (job : MdJob) (processed total : ℕ) (currentItem : Option Str) : MdJob :=
  let summary := job.resultSummary
  let summary := { summary with progress := some (processed, total), currentItem := currentItem.or summary.currentItem }
  { job with resultSummary := summary }

namespace St

variable (s : St Digest Vector)

def updateJob (jobId : Option ℕ) (f : MdJob → MdJob) : St Digest Vector :=
  { s with jobs := s.jobs.map fun j => if jobId = some j.id then f j else j }

def run? (runId : ℕ) : Option (Run Digest) := s.runs.find? (·.id = runId)

def setStage (runId : ℕ) (stage : Stage Digest) : St Digest Vector :=
  { s with runs := s.runs.map fun r => if r.id = runId then { r with stage := stage } else r }

def dropRun (runId : ℕ) : St Digest Vector := { s with runs := s.runs.filter (·.id ≠ runId) }

/-! ## Documents -/

/-- The indexer of a repository leaves the hash to the embedder. -/
def draftChunk (documentId id : ℕ) (draft : Draft) : Chunk Digest Vector :=
  let hash := match service with
    | .mdRag => some (sha256 draft.content)
    | .repoDocs => none
  ⟨id, documentId, draft.headingPath, draft.content, hash, none, []⟩

/-- The chunks that are inserted for the drafts, with ids from `id` on. -/
def draftChunks (documentId : ℕ) : ℕ → List Draft → List (Chunk Digest Vector)
  | _, [] => []
  | id, draft :: drafts => draftChunk sha256 service documentId id draft :: draftChunks documentId (id + 1) drafts

/-- A document whose content changes is created, or has its chunks replaced. -/
def putDocument (collectionId : ℕ) (sourceKey : Str) (drafts : List Draft) : St Digest Vector :=
  match s.documents.find? fun d => d.collectionId = collectionId ∧ d.sourceKey = sourceKey with
  | some d =>
    { s with
      nextId := s.nextId + drafts.length
      chunks := s.chunks.filter (·.documentId ≠ d.id) ++ draftChunks sha256 service d.id s.nextId drafts }
  | none =>
    { s with
      nextId := s.nextId + 1 + drafts.length
      documents := s.documents ++ [⟨s.nextId, collectionId, sourceKey⟩]
      chunks := s.chunks ++ draftChunks sha256 service s.nextId (s.nextId + 1) drafts }

def deleteDocuments (gone : Document → Bool) : St Digest Vector :=
  let ids := (s.documents.filter gone).map (·.id)
  { s with
    documents := s.documents.filter (!gone ·)
    chunks := s.chunks.filter (·.documentId ∉ ids) }

def deleteCollection (collectionId : ℕ) : St Digest Vector :=
  { s.deleteDocuments (·.collectionId = collectionId) with jobs := s.jobs.filter (·.collectionId ≠ collectionId) }

/-! ## Jobs -/

/-- `MdJobTracker.create`. -/
def createJob (collectionId : ℕ) : St Digest Vector :=
  { s with
    nextId := s.nextId + 1
    jobs := s.jobs ++ [⟨s.nextId, collectionId, .queued, ⟨none, none, none⟩, none, none, none⟩] }

/-- `MdJobTracker.retry`. -/
def retry (jobId : ℕ) : Option (St Digest Vector) :=
  (s.jobs.find? (·.id = jobId)).map fun original => s.createJob original.collectionId

def staleAfter : ℕ := 4 * 60 * 60

def sweepCap : ℕ := 100

/-- `_sweep_stale_md_jobs`, of the embedding jobs. -/
def sweepStaleMdJobs (now : ℕ) : St Digest Vector :=
  let running := s.jobs.filter fun j => j.status = .running ∧ j.startedAt.any (· + staleAfter < now)
  let ids := ((running.insertionSort fun a b => a.startedAt.getD 0 ≤ b.startedAt.getD 0).take sweepCap).map (·.id)
  { s with jobs := s.jobs.map fun j => if j.id ∈ ids then { j with status := .queued, startedAt := none } else j }

/-! ## Steps of a run -/

def start (job : Option ℕ) (now : ℕ) (model : Str) (batchSize : ℕ) (scope : Scope) : St Digest Vector :=
  let s := s.updateJob job fun j => j.updateStatus now .running none none
  { s with nextId := s.nextId + 1, runs := ⟨s.nextId, job, model, batchSize, scope, .started⟩ :: s.runs }

def scopeChunks : Scope → List (Chunk Digest Vector)
  | .collection id =>
    s.chunks.filter fun c => s.documents.any fun d => d.id = c.documentId ∧ d.collectionId = id
  | .orphaned => s.chunks.filter (·.embedding.isNone)

/-- `chunk_sources`, which the backfill of orphans goes without. -/
def chunkSources (scope : Scope) (chunks : List (Chunk Digest Vector)) : List (ℕ × Str) :=
  match scope with
  | .orphaned => []
  | .collection _ =>
    chunks.filterMap fun c => (s.documents.find? (·.id = c.documentId)).map fun d => (c.id, d.sourceKey)

/-- The first phase. -/
def readChunks (r : Run Digest) : Stage Digest :=
  let chunks := s.scopeChunks r.scope
  let items := (chunks.filter (stale sha256 r.model)).map fun c => Item.mk c.id (chunkText c) (sha256 c.content)
  let skipped := chunks.countP (!stale sha256 r.model ·)
  if items = [] then .finished (chunks.map (·.id)) ⟨0, skipped, r.model⟩
  else .ready ⟨chunks.map (·.id), s.chunkSources r.scope chunks, items, items.length, skipped, 0⟩

/-- The head of the loop. Chunks of a collection that are gone are left out. -/
def checkBatch (r : Run Digest) (w : Work Digest) : Stage Digest :=
  if w.todo = [] then .finished w.chunks ⟨w.embedded, w.skipped, r.model⟩
  else
    let batch := w.todo.take r.batchSize
    let batch := match service with
      | .mdRag => batch.filter fun i => s.chunks.any (·.id = i.chunkId)
      | .repoDocs => batch
    let w := { w with todo := w.todo.drop r.batchSize }
    if batch = [] then .ready w else .asking w batch

def setVector (model : Str) (chunks : List (Chunk Digest Vector)) (x : Item Digest × Vector) :
    List (Chunk Digest Vector) :=
  chunks.map fun c =>
    if c.id = x.1.chunkId then { c with embedding := some x.2, model := model, contentHash := some x.1.hash } else c

def zipFailed : Str := "zip() arguments differ in length".toList

def failRun (r : Run Digest) (now : ℕ) (message : Str) : St Digest Vector :=
  (s.dropRun r.id).updateJob r.job fun j => j.updateStatus now .error none (some message)

/-- A batch of vectors that does not match is an error before the commit. -/
def writeBatch (r : Run Digest) (w : Work Digest) (batch : List (Item Digest)) (now : ℕ) (vectors : List Vector) :
    St Digest Vector :=
  if vectors.length ≠ batch.length then s.failRun r now zipFailed
  else
    let w := { w with embedded := w.embedded + batch.length }
    let current := batch.getLast?.bind fun i => (w.chunkSources.find? (·.1 = i.chunkId)).map (·.2)
    let stage := if r.job.isSome then .written w current else .ready w
    { s with chunks := (batch.zip vectors).foldl (setVector r.model) s.chunks }.setStage r.id stage

def finishRun (r : Run Digest) (chunks : List ℕ) (result : EmbedResult) (now : ℕ) : St Digest Vector :=
  let total := result.embeddedNodes + result.skippedNodes
  let summary : Summary := ⟨some (total, total), none, some result⟩
  { (s.dropRun r.id).updateJob r.job (fun j => j.updateStatus now .success (some summary) none) with
    returned := (chunks, result) :: s.returned }

end St

/-- A range of step 0 is an error: no batch is taken. -/
def next (s : St Digest Vector) : Act Vector → Option (St Digest Vector)
  | .putDocument collectionId sourceKey drafts => some (s.putDocument sha256 service collectionId sourceKey drafts)
  | .deleteDocument documentId => some (s.deleteDocuments (·.id = documentId))
  | .deleteCollection collectionId => some (s.deleteCollection collectionId)
  | .createJob collectionId => some (s.createJob collectionId)
  | .retry jobId => s.retry jobId
  | .sweep now => some (s.sweepStaleMdJobs now)
  | .start job now model batchSize scope => some (s.start job now model batchSize scope)
  | .read runId =>
    match s.run? runId with
    | some r => if r.stage = .started then some (s.setStage runId (s.readChunks sha256 r)) else none
    | none => none
  | .check runId =>
    match s.run? runId with
    | some r =>
      match r.stage with
      | .ready w => if r.batchSize = 0 then none else some (s.setStage runId (s.checkBatch service r w))
      | _ => none
    | none => none
  | .answer runId now attempts =>
    match s.run? runId with
    | some r =>
      match r.stage with
      | .asking w batch =>
        (embed maxAttempts attempts).map fun
          | .error message => s.failRun r now message
          | .ok vectors => s.writeBatch r w batch now vectors
      | _ => none
    | none => none
  | .report runId =>
    match s.run? runId with
    | some r =>
      match r.stage with
      | .written w current =>
        some ((s.setStage runId (.ready w)).updateJob r.job (·.updateProgress w.embedded w.total current))
      | _ => none
    | none => none
  | .finish runId now =>
    match s.run? runId with
    | some r =>
      match r.stage with
      | .finished chunks result => some (s.finishRun r chunks result now)
      | _ => none
    | none => none
  | .fail runId now message => (s.run? runId).map (s.failRun · now message)
  | .die runId => some (s.dropRun runId)

/-- No chunk, no job and no run. -/
structure Init (s : St Digest Vector) : Prop where
  chunks : s.chunks = []
  jobs : s.jobs = []
  runs : s.runs = []
  returned : s.returned = []

end

end Cograph.Embedding
