import Cograph.Machine
import Mathlib

/-!
# The sync pipeline of one repository

`RepoSyncOrchestrator.enqueue_repository_sync`, the worker's
`RepoSyncProcessor.process_checkout`, `cancel_run`, the stale sweep and the
schedule change, over one repository's rows. Every await point that another
process can see through the database, the queue or the checkout directory is
one action. Each call and each job keeps the rows it has loaded: the sessions
run with `expire_on_commit=False` and never read a loaded row again, and a
commit writes the changed columns of a row whatever the row has become.

A run is named by the call that inserted it. The remote branch and the
uploaded archives are one list, `origin`, the newest commit or digest first.
-/

namespace Cograph.Pipeline

abbrev Ref := String

/-! ## Rows -/

inductive RepoSource where
  | git
  | zip
  deriving DecidableEq, Repr

inductive RepoSyncTriggerKind where
  | initial
  | manual
  | schedule
  | webhook
  deriving DecidableEq, Repr

inductive RepoSyncRunStatus where
  | queued
  | running
  | success
  | skipped
  | error
  | cancelled
  deriving DecidableEq, Repr

def RepoSyncRunStatus.active : RepoSyncRunStatus → Bool
  | .queued | .running => true
  | _ => false

structure RepoSyncRun where
  id : Nat
  triggerKind : RepoSyncTriggerKind
  status : RepoSyncRunStatus
  requestedRef : Option Ref
  arqJobId : Option Nat
  createdAt : Nat
  startedAt : Option Nat
  deriving DecidableEq, Repr

def RepoSyncRun.active (q : RepoSyncRun) : Bool := q.status.active

/-- `coalesce(started_at, created_at)`. -/
def RepoSyncRun.age (q : RepoSyncRun) : Nat := q.startedAt.getD q.createdAt

/-- A row of `repo_webhook_deliveries`, written by `call`. -/
structure RepoWebhookDelivery where
  deliveryId : Nat
  call : Nat
  committed : Bool
  deriving DecidableEq, Repr

/-! ## Processes -/

/-- Who calls `enqueue_repository_sync`: the webhook receiver, the archive
upload, or any other caller. -/
inductive Kind where
  | webhook (deliveryId : Nat)
  | upload
  | other (triggerKind : RepoSyncTriggerKind) (requestedRef : Option Ref)
  deriving DecidableEq, Repr

def Kind.triggerKind : Kind → RepoSyncTriggerKind
  | .webhook _ => .webhook
  | .upload => .manual
  | .other t _ => t

def Kind.requestedRef : Kind → Option Ref
  | .other _ r => r
  | _ => none

inductive CallPhase where
  | idle
  | received
  | loaded
  | persisted
  | checked
  | inserted
  | rewriting
  | fetched
  | prepared
  | stored
  | raising
  | done
  | skipped
  | absorbed (run : Nat)
  | duplicate
  | failed
  deriving DecidableEq, Repr

/-- The call has returned or raised. -/
def CallPhase.ended : CallPhase → Bool
  | .done | .skipped | .absorbed _ | .duplicate | .failed => true
  | _ => false

/-- The call is rewriting the checkout directory. -/
def CallPhase.rewrites : CallPhase → Bool
  | .rewriting | .fetched => true
  | _ => false

/-- A caller: its copy of `repository.last_commit` and the commit its checkout
was prepared at. -/
structure Call where
  kind : Kind
  phase : CallPhase
  lastCommit : Option Ref
  commit : Option Ref
  deriving DecidableEq, Repr

/-- The skip test: nothing to pick up at the prepared commit. -/
def Call.skips (c : Call) : Bool := c.kind.triggerKind ≠ .manual ∧ c.lastCommit = c.commit

inductive WorkPhase where
  | idle
  | queued
  | started
  | opened
  | loaded
  | running
  | ended
  deriving DecidableEq, Repr

/-- The queue's job of a run and `process_checkout`, with its copies of the
repository's and the run's row. -/
structure Work where
  phase : WorkPhase
  lastCommit : Option Ref
  requestedRef : Option Ref
  startedAt : Option Nat
  deriving DecidableEq, Repr

/-- The queue's `JobStatus.in_progress`. -/
def WorkPhase.inProgress : WorkPhase → Bool
  | .started | .opened | .loaded | .running => true
  | _ => false

inductive EnderPhase where
  | idle
  | selected
  | probed
  | refreshed
  | ended
  deriving DecidableEq, Repr

/-- The statuses a run is ended with from outside. -/
inductive Ending where
  | error
  | cancelled
  deriving DecidableEq, Repr

def Ending.status : Ending → RepoSyncRunStatus
  | .error => .error
  | .cancelled => .cancelled

/-- A cancel, a sweep's candidate, or a schedule change. -/
structure Ender where
  phase : EnderPhase
  run : Nat
  ending : Ending
  arqJobId : Option Nat
  deriving DecidableEq, Repr

structure St where
  source : RepoSource
  staleThreshold : Nat
  now : Nat
  origin : List Ref
  sent : List Nat
  lastCommit : Option Ref
  rows : List RepoSyncRun
  deliveries : List RepoWebhookDelivery
  calls : Nat → Call
  works : Nat → Work
  enders : Nat → Ender

/-- No run yet, and no process. -/
structure Init (s : St) : Prop where
  rows : s.rows = []
  deliveries : s.deliveries = []
  calls : ∀ h, (s.calls h).phase = .idle ∧ (s.calls h).commit = none
  works : ∀ r, (s.works r).phase = .idle
  enders : ∀ e, (s.enders e).phase = .idle

/-! ## Reads and writes -/

def row? (rows : List RepoSyncRun) (r : Nat) : Option RepoSyncRun := rows.find? (·.id = r)

def setRow (rows : List RepoSyncRun) (r : Nat) (f : RepoSyncRun → RepoSyncRun) : List RepoSyncRun :=
  rows.map fun q => if q.id = r then f q else q

/-- `_get_active_sync_run`: the rows are kept newest first. -/
def activeRun (rows : List RepoSyncRun) : Option RepoSyncRun := rows.find? (·.active)

def isActive (rows : List RepoSyncRun) (r : Nat) : Bool := rows.any fun q => q.id = r ∧ q.active

def St.setCall (s : St) (h : Nat) (c : Call) : St := { s with calls := Function.update s.calls h c }

def St.setWork (s : St) (r : Nat) (w : Work) : St := { s with works := Function.update s.works r w }

def St.setEnder (s : St) (e : Nat) (x : Ender) : St := { s with enders := Function.update s.enders e x }

def St.setRow (s : St) (r : Nat) (f : RepoSyncRun → RepoSyncRun) : St := { s with rows := Pipeline.setRow s.rows r f }

def St.goto (s : St) (h : Nat) (p : CallPhase) : St := s.setCall h { s.calls h with phase := p }

def St.work (s : St) (r : Nat) (p : WorkPhase) : St := s.setWork r { s.works r with phase := p }

def St.ender (s : St) (e : Nat) (p : EnderPhase) : St := s.setEnder e { s.enders e with phase := p }

/-- The transaction of call `h` commits, or rolls back, its delivery row. -/
def commitDelivery (ds : List RepoWebhookDelivery) (h : Nat) : List RepoWebhookDelivery :=
  ds.map fun d => if d.call = h then { d with committed := true } else d

def rollbackDelivery (ds : List RepoWebhookDelivery) (h : Nat) : List RepoWebhookDelivery :=
  ds.filter fun d => d.call ≠ h ∨ d.committed

/-! ## Actions -/

inductive Act where
  /-- The outside world. -/
  | tick
  | push (c : Ref) (d : Nat)
  /-- `receive_github_webhook`, `replace_repository_archive` and the other
  callers, up to `enqueue_repository_sync`. -/
  | receive (h d : Nat)
  | request (h : Nat) (k : Kind)
  | load (h : Nat)
  | persistUpload (h : Nat) (c : Ref)
  /-- `enqueue_repository_sync`. -/
  | check (h : Nat)
  | insert (h : Nat)
  | prepareCheckout (h : Nat)
  | fetch (h : Nat) (c : Ref)
  | checkedOut (h : Nat)
  | dispatch (h : Nat) (lost : Bool)
  | setRequestedRef (h : Nat)
  | raise (h : Nat)
  | markEnqueueFailed (h : Nat)
  | crash (h : Nat)
  /-- `process_checkout`. -/
  | start (r : Nat)
  | loadRepository (r : Nat)
  | loadRun (r : Nat)
  | beginRun (r : Nat)
  | succeed (r : Nat)
  | markFailedSync (r : Nat)
  | die (r : Nat)
  /-- `cancel_run`, the sweep, the schedule change, `fail_run_cascade`. -/
  | cancelRun (e r : Nat)
  | findStale (e r : Nat)
  | probe (e : Nat) (answered : Bool)
  | cancelPending (e r : Nat)
  | refresh (e : Nat)
  | endRun (e : Nat)
  deriving DecidableEq, Repr

namespace St

variable (s : St)

/-- The phase in which a call reaches `enqueue_repository_sync`. -/
def ready : Kind → CallPhase
  | .upload => .persisted
  | _ => .loaded

/-- The webhook's delivery row: a retry ends here, and waits while the first
delivery's transaction is open. -/
def receive (h d : Nat) : Option St :=
  if (s.calls h).phase = .idle ∧ d ∈ s.sent then
    match s.deliveries.find? (·.deliveryId = d) with
    | none =>
      some { s.setCall h ⟨.webhook d, .received, none, none⟩ with deliveries := ⟨d, h, false⟩ :: s.deliveries }
    | some row => if row.committed then some (s.setCall h ⟨.webhook d, .duplicate, none, none⟩) else none
  else none

def request (h : Nat) (k : Kind) : Option St :=
  match k with
  | .webhook _ => none
  | k => if (s.calls h).phase = .idle then some (s.setCall h ⟨k, .received, none, none⟩) else none

def load (h : Nat) : Option St :=
  if (s.calls h).phase = .received then
    some (s.setCall h { s.calls h with phase := .loaded, lastCommit := s.lastCommit })
  else none

def persistUpload (h : Nat) (c : Ref) : Option St :=
  if (s.calls h).phase = .loaded ∧ (s.calls h).kind = .upload ∧ s.source = .zip then
    some { s.goto h .persisted with origin := c :: s.origin }
  else none

/-- The active-run check. -/
def check (h : Nat) : Option St :=
  if (s.calls h).phase = ready (s.calls h).kind then
    match activeRun s.rows with
    | some q => some { s.goto h (.absorbed q.id) with deliveries := commitDelivery s.deliveries h }
    | none => some (s.goto h .checked)
  else none

def newRun (h : Nat) : RepoSyncRun :=
  ⟨h, (s.calls h).kind.triggerKind, .queued, (s.calls h).kind.requestedRef, none, s.now, none⟩

/-- The flush and the commit of the new run, under the partial unique index
over the active runs. -/
def insert (h : Nat) : Option St :=
  if (s.calls h).phase = .checked then
    match activeRun s.rows with
    | some _ => some { s.goto h .failed with deliveries := rollbackDelivery s.deliveries h }
    | none => some { s.goto h .inserted with
        rows := s.newRun h :: s.rows
        deliveries := commitDelivery s.deliveries h }
  else none

def prepareCheckout (h : Nat) : Option St :=
  if (s.calls h).phase = .inserted then some (s.goto h .rewriting) else none

/-- What the checkout is taken at: the head of the branch, the digest of the
archive, or whatever the requested ref names. -/
def fetch (h : Nat) (c : Ref) : Option St :=
  if (s.calls h).phase = .rewriting ∧ ((s.calls h).kind.requestedRef = none → s.origin.head? = some c) then
    some (s.setCall h { s.calls h with phase := .fetched, commit := some c })
  else none

def checkedOut (h : Nat) : Option St :=
  if (s.calls h).phase = .fetched then some (s.goto h .prepared) else none

/-- The skip, or the job. `lost` is a job that was stored though the call to
the queue raised. -/
def dispatch (h : Nat) (lost : Bool) : Option St :=
  if (s.calls h).phase = .prepared then
    if (s.calls h).skips then
      some ((s.goto h .skipped).setRow h fun q =>
        { q with status := .skipped, requestedRef := (s.calls h).commit, arqJobId := none })
    else some ((s.goto h (if lost then .raising else .stored)).work h .queued)
  else none

/-- The last commit of a successful enqueue. -/
def setRequestedRef (h : Nat) : Option St :=
  if (s.calls h).phase = .stored then
    some ((s.goto h .done).setRow h fun q => { q with requestedRef := (s.calls h).commit, arqJobId := some h })
  else none

def raise (h : Nat) : Option St :=
  if (s.calls h).phase = .inserted ∨ (s.calls h).phase = .rewriting ∨ (s.calls h).phase = .fetched ∨
      (s.calls h).phase = .prepared then some (s.goto h .raising)
  else none

def markEnqueueFailed (h : Nat) : Option St :=
  if (s.calls h).phase = .raising then some ((s.goto h .failed).setRow h fun q => { q with status := .error }) else none

/-- The calling process dies: its transaction is rolled back. -/
def crash (h : Nat) : Option St :=
  if (s.calls h).phase ≠ .idle ∧ (s.calls h).phase.ended = false then
    some { s.goto h .failed with deliveries := rollbackDelivery s.deliveries h }
  else none

/-- A job is started once (`max_tries = 1`). -/
def start (r : Nat) : Option St := if (s.works r).phase = .queued then some (s.work r .started) else none

def loadRepository (r : Nat) : Option St :=
  if (s.works r).phase = .started then
    some (s.setWork r { s.works r with phase := .opened, lastCommit := s.lastCommit })
  else none

/-- The start guard. -/
def loadRun (r : Nat) : Option St :=
  if (s.works r).phase = .opened then
    match row? s.rows r with
    | none => some (s.work r .ended)
    | some q =>
      if q.status = .cancelled ∨ q.status = .skipped ∨ q.status = .success then some (s.work r .ended)
      else some (s.setWork r { s.works r with phase := .loaded, requestedRef := q.requestedRef, startedAt := q.startedAt })
  else none

/-- The `RUNNING` commit, under the partial unique index. -/
def beginRun (r : Nat) : Option St :=
  if (s.works r).phase = .loaded then
    if s.rows.any (fun q => q.id ≠ r ∧ q.active) then some (s.work r .ended)
    else some ((s.work r .running).setRow r fun q =>
      { q with status := .running, startedAt := some ((s.works r).startedAt.getD s.now) })
  else none

/-- The last commit of a successful run. `last_commit` is written where it
differs from the loaded copy. -/
def succeed (r : Nat) : Option St :=
  if (s.works r).phase = .running then
    let w := s.works r
    let s' := (s.work r .ended).setRow r fun q => { q with status := .success }
    match w.requestedRef with
    | none => some s'
    | some c => if some c = w.lastCommit then some s' else some { s' with lastCommit := some c }
  else none

def markFailedSync (r : Nat) : Option St :=
  if (s.works r).phase = .running then some ((s.work r .ended).setRow r fun q => { q with status := .error }) else none

/-- The job is aborted or its worker dies, and nothing is written. -/
def die (r : Nat) : Option St :=
  if (s.works r).phase = .queued ∨ (s.works r).phase.inProgress then some (s.work r .ended) else none

/-- `cancel_run` up to the abort, which may have no effect. -/
def cancelRun (e r : Nat) : Option St :=
  if (s.enders e).phase = .idle ∧ isActive s.rows r then
    some (s.setEnder e ⟨.probed, r, .cancelled, none⟩)
  else none

/-- A candidate of `_find_stale_runs`. -/
def findStale (e r : Nat) : Option St :=
  match row? s.rows r with
  | none => none
  | some q =>
    if (s.enders e).phase = .idle ∧ q.active ∧ q.age + s.staleThreshold < s.now then
      some (s.setEnder e ⟨.selected, r, .error, q.arqJobId⟩)
    else none

/-- `_arq_still_processing`. -/
def probe (e : Nat) (answered : Bool) : Option St :=
  let x := s.enders e
  if x.phase = .selected then
    if answered ∧ x.arqJobId.isSome ∧ (s.works x.run).phase.inProgress then some (s.ender e .ended)
    else some (s.ender e .probed)
  else none

/-- `_cancel_pending_scheduled_runs`. -/
def cancelPending (e r : Nat) : Option St :=
  match row? s.rows r with
  | none => none
  | some q =>
    if (s.enders e).phase = .idle ∧ q.triggerKind = .schedule ∧ q.status = .queued then
      some (s.setEnder e ⟨.refreshed, r, .cancelled, none⟩)
    else none

/-- `fail_run_cascade` reads the row again, -/
def refresh (e : Nat) : Option St :=
  if (s.enders e).phase = .probed then
    some (s.ender e (if isActive s.rows (s.enders e).run then .refreshed else .ended))
  else none

/-- and its caller commits. -/
def endRun (e : Nat) : Option St :=
  let x := s.enders e
  if x.phase = .refreshed then
    some ((s.ender e .ended).setRow x.run fun q => { q with status := x.ending.status })
  else none

end St

def next (s : St) : Act → Option St
  | .tick => some { s with now := s.now + 1 }
  | .push c d => if s.source = .git then some { s with origin := c :: s.origin, sent := d :: s.sent } else none
  | .receive h d => s.receive h d
  | .request h k => s.request h k
  | .load h => s.load h
  | .persistUpload h c => s.persistUpload h c
  | .check h => s.check h
  | .insert h => s.insert h
  | .prepareCheckout h => s.prepareCheckout h
  | .fetch h c => s.fetch h c
  | .checkedOut h => s.checkedOut h
  | .dispatch h lost => s.dispatch h lost
  | .setRequestedRef h => s.setRequestedRef h
  | .raise h => s.raise h
  | .markEnqueueFailed h => s.markEnqueueFailed h
  | .crash h => s.crash h
  | .start r => s.start r
  | .loadRepository r => s.loadRepository r
  | .loadRun r => s.loadRun r
  | .beginRun r => s.beginRun r
  | .succeed r => s.succeed r
  | .markFailedSync r => s.markFailedSync r
  | .die r => s.die r
  | .cancelRun e r => s.cancelRun e r
  | .findStale e r => s.findStale e r
  | .probe e answered => s.probe e answered
  | .cancelPending e r => s.cancelPending e r
  | .refresh e => s.refresh e
  | .endRun e => s.endRun e

end Cograph.Pipeline
