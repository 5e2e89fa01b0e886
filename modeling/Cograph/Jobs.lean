import Cograph.PipelineMoves

/-!
# Batches and step jobs

The rows of the jobs timeline, beside the pipeline's own. A run is inserted
with one batch and one job for each step; the enqueue, the worker, the cascade
of a cancel or a sweep and the admin job API move them. Each of their commits
is one action, over the actions of the pipeline.

A batch is named by the run it was inserted with. A tick is a microsecond.
-/

namespace Cograph.Jobs

/-! ## Rows -/

inductive SyncJobStatus where
  | queued
  | running
  | paused
  | skipped
  | success
  | error
  | cancelled
  deriving DecidableEq, Repr

/-- `_ACTIVE_JOB_STATES`. -/
def SyncJobStatus.active : SyncJobStatus → Bool
  | .queued | .running => true
  | _ => false

inductive SyncStep where
  | clone
  | parse
  | extractGraph
  | embed
  | indexRepoDocs
  | embedRepoDocs
  | generateSummaries
  | generateWiki
  deriving DecidableEq, Repr

def repoSyncSteps : List SyncStep :=
  [.clone, .parse, .extractGraph, .embed, .indexRepoDocs, .embedRepoDocs, .generateSummaries, .generateWiki]

/-- The steps of a service that may be disabled. -/
def SyncStep.optional : SyncStep → Bool
  | .embed | .embedRepoDocs | .generateSummaries | .generateWiki => true
  | _ => false

structure SyncJob where
  step : SyncStep
  status : SyncJobStatus
  deriving DecidableEq, Repr

structure SyncBatch where
  run : Nat
  runId : Option Nat
  createdAt : Nat
  status : SyncJobStatus
  jobs : List SyncJob
  deriving DecidableEq, Repr

/-- Where `process_checkout` is after its `RUNNING` commit: before
`_resolve_batch_and_jobs`, before or in the first step of `todo`, or in the
handler of an exception, with the step of `running_job_id`. -/
inductive Progress where
  | resolving
  | working (todo : List SyncStep) (started : Bool)
  | failing (running : Option SyncStep)
  | stepFailed
  | batchFailed
  deriving DecidableEq, Repr

/-- `createdAt` holds the `created_at` of the runs, and `scheduled` the
cancellers that are schedule changes. -/
structure St where
  pipe : Pipeline.St
  batches : List SyncBatch
  createdAt : Nat → Nat
  scheduled : Nat → Bool
  progress : Nat → Progress

structure Init (s : St) : Prop where
  pipe : Pipeline.Init s.pipe
  batches : s.batches = []

/-! ## Writes -/

def SyncBatch.setJob (b : SyncBatch) (x : SyncStep) (st : SyncJobStatus) : SyncBatch :=
  { b with jobs := b.jobs.map fun j => if j.step = x then { j with status := st } else j }

/-- An `UPDATE` of the jobs of a batch that `p` selects. -/
def SyncBatch.setJobs (b : SyncBatch) (p : SyncJob → Bool) (st : SyncJobStatus) : SyncBatch :=
  { b with jobs := b.jobs.map fun j => if p j then { j with status := st } else j }

def St.setBatch (s : St) (r : Nat) (f : SyncBatch → SyncBatch) : St :=
  { s with batches := s.batches.map fun b => if b.run = r then f b else b }

def St.goto (s : St) (r : Nat) (p : Progress) : St := { s with progress := Function.update s.progress r p }

def St.hasJob (s : St) (b : Nat) (x : SyncStep) (p : SyncJobStatus → Bool) : Bool :=
  s.batches.any fun q => q.run = b ∧ q.jobs.any fun j => j.step = x ∧ p j.status

/-! ## The cascade -/

def legacyBatchWindow : Nat := 5000000

/-- The rows `_resolve_batch` may return: the batches linked to the run, else
the oldest of those created about when the run was. -/
def St.resolveBatch (s : St) (run : Nat) : List SyncBatch :=
  let linked := s.batches.filter (·.runId = some run)
  let near := s.batches.filter fun b =>
    s.createdAt run ≤ b.createdAt + legacyBatchWindow ∧ b.createdAt ≤ s.createdAt run + legacyBatchWindow
  if linked.isEmpty then near.filter fun b => near.all fun c => b.createdAt ≤ c.createdAt else linked

/-- What `_resolve_batch` may return for a run, as the batch's name. -/
def St.resolves (s : St) (run : Nat) : Option Nat → Bool
  | none => (s.resolveBatch run).isEmpty
  | some b => (s.resolveBatch run).any (·.run = b)

def batchStatus : Pipeline.Ending → SyncJobStatus
  | .error => .error
  | .cancelled => .cancelled

/-- What `fail_run_cascade` does to the batch and its jobs. -/
def SyncBatch.cascade (b : SyncBatch) (x : Pipeline.Ending) : SyncBatch :=
  { b.setJobs (·.status.active) .cancelled with status := if b.status.active then batchStatus x else b.status }

/-! ## Actions -/

inductive Act where
  | pipe (a : Pipeline.Act)
  /-- The insert of a run, with the start of the transaction it is part of. -/
  | insert (h began : Nat)
  /-- The commit of a cancel or a sweep, with the batch it resolved. -/
  | cascade (e : Nat) (batch : Option Nat)
  /-- The worker. -/
  | resolveBatchAndJobs (r : Nat)
  | startStep (r : Nat)
  | completeStep (r : Nat)
  | skipStep (r : Nat)
  | raise (r : Nat) (running : Bool)
  | failStep (r : Nat)
  | failBatch (r : Nat)
  /-- The admin job API. -/
  | retryJob (b : Nat) (x : SyncStep)
  | cancelJob (b : Nat) (x : SyncStep)
  deriving DecidableEq, Repr

namespace St

variable (s : St)

/-- The pipeline's actions that are not split or extended here, and where the
worker has to be for its last ones. -/
def allows : Pipeline.Act → Bool
  | .insert _ => false
  | .endRun e => s.scheduled e
  | .succeed r => s.progress r = .working [] false
  | .markFailedSync r => s.progress r = .batchFailed
  | _ => true

/-- What a pipeline action writes to the batches and jobs. -/
def follow : Pipeline.Act → St
  | .dispatch h _ =>
    if (s.pipe.calls h).skips then
      s.setBatch h fun b => { b.setJobs (fun _ => true) .skipped with status := .success }
    else s
  | .markEnqueueFailed h => s.setBatch h fun b => { b with status := .error }
  | .succeed r => s.setBatch r fun b => { b with status := .success }
  | .beginRun r => s.goto r .resolving
  | .cancelRun e _ | .findStale e _ => { s with scheduled := Function.update s.scheduled e false }
  | .cancelPending e _ => { s with scheduled := Function.update s.scheduled e true }
  | _ => s

def pipeline (a : Pipeline.Act) : Option St :=
  if s.allows a then (Pipeline.next s.pipe a).map fun p => { s.follow a with pipe := p } else none

/-- The batch is built from `sync_run.id` before the flush that gives the run
its id. -/
def newBatch (h began : Nat) : SyncBatch :=
  ⟨h, none, began, .queued, repoSyncSteps.map fun x => ⟨x, .queued⟩⟩

def insert (h began : Nat) : Option St :=
  if began ≤ s.pipe.now then
    (Pipeline.next s.pipe (.insert h)).map fun p =>
      match Pipeline.activeRun s.pipe.rows with
      | some _ => { s with pipe := p }
      | none => { s with
          pipe := p
          batches := newBatch h began :: s.batches
          createdAt := Function.update s.createdAt h began }
  else none

def cascade (e : Nat) (batch : Option Nat) : Option St :=
  let x := s.pipe.enders e
  if s.scheduled e = false ∧ s.resolves x.run batch then
    (Pipeline.next s.pipe (.endRun e)).map fun p =>
      match batch with
      | none => { s with pipe := p }
      | some b => { s.setBatch b (·.cascade x.ending) with pipe := p }
  else none

def isRunning (r : Nat) : Bool := (s.pipe.works r).phase = .running

def resolveBatchAndJobs (r : Nat) : Option St :=
  if s.isRunning r ∧ s.progress r = .resolving then
    some ((s.setBatch r fun b => { b with status := .running }).goto r (.working repoSyncSteps false))
  else none

/-- `_start_step`. The clone step is completed without it. -/
def startStep (r : Nat) : Option St :=
  match s.progress r with
  | .working (x :: todo) false =>
    if s.isRunning r ∧ x ≠ .clone then
      some ((s.setBatch r (·.setJob x .running)).goto r (.working (x :: todo) true))
    else none
  | _ => none

def completeStep (r : Nat) : Option St :=
  match s.progress r with
  | .working (x :: todo) started =>
    if s.isRunning r ∧ (started ∨ x = .clone) then
      some ((s.setBatch r (·.setJob x .success)).goto r (.working todo false))
    else none
  | _ => none

def skipStep (r : Nat) : Option St :=
  match s.progress r with
  | .working (x :: todo) true =>
    if s.isRunning r ∧ x.optional then
      some ((s.setBatch r (·.setJob x .skipped)).goto r (.working todo false))
    else none
  | _ => none

/-- An exception in a step, or between two: `running_job_id` is set before
`_start_step`. -/
def raise (r : Nat) (running : Bool) : Option St :=
  match s.progress r with
  | .working todo started =>
    if s.isRunning r ∧ (started → running) ∧ (running → todo.head? ≠ some .clone) then
      some (s.goto r (.failing (if running then todo.head? else none)))
    else none
  | _ => none

def failStep (r : Nat) : Option St :=
  match s.progress r with
  | .failing running =>
    if s.isRunning r then
      match running with
      | none => some (s.goto r .stepFailed)
      | some x => some ((s.setBatch r (·.setJob x .error)).goto r .stepFailed)
    else none
  | _ => none

def failBatch (r : Nat) : Option St :=
  if s.isRunning r ∧ s.progress r = .stepFailed then
    some ((s.setBatch r fun b => { b.setJobs (·.status.active) .cancelled with status := .error }).goto r .batchFailed)
  else none

def retryJob (b : Nat) (x : SyncStep) : Option St :=
  if s.hasJob b x (· = .error) then some (s.setBatch b (·.setJob x .queued)) else none

def cancelJob (b : Nat) (x : SyncStep) : Option St :=
  if s.hasJob b x (·.active) then some (s.setBatch b (·.setJob x .cancelled)) else none

end St

def next (s : St) : Act → Option St
  | .pipe a => s.pipeline a
  | .insert h began => s.insert h began
  | .cascade e batch => s.cascade e batch
  | .resolveBatchAndJobs r => s.resolveBatchAndJobs r
  | .startStep r => s.startStep r
  | .completeStep r => s.completeStep r
  | .skipStep r => s.skipStep r
  | .raise r running => s.raise r running
  | .failStep r => s.failStep r
  | .failBatch r => s.failBatch r
  | .retryJob b x => s.retryJob b x
  | .cancelJob b x => s.cancelJob b x

end Cograph.Jobs
