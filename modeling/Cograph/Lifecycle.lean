import Cograph.PipelineSound

/-!
# The status of one repository

`repositories.status`, `last_commit` and `deleted_at` under the processes of the
sync pipeline, `replace_repository_archive` and `_mark_repository_error` of
`api/repos.py`, the soft delete and the purge. Every process has a session of
its own. A session reads the row when it first loads it, and again only after a
rollback; an assignment of the value its copy has writes nothing, any other
overwrites the row whatever the row has become.
-/

namespace Cograph.Lifecycle

open Pipeline (Ref Kind)

inductive RepositoryStatus where
  | pending
  | cloning
  | indexing
  | embedding
  | generating
  | ready
  | error
  | deleting
  deriving DecidableEq, Repr

/-- `_ACTIVE_REPO_STATES`. -/
def RepositoryStatus.active : RepositoryStatus → Bool
  | .indexing | .embedding | .generating | .cloning => true
  | _ => false

/-! ## Sessions -/

/-- A session's copy of the row. -/
structure Copy where
  status : RepositoryStatus
  lastCommit : Option Ref
  deriving DecidableEq, Repr

/-- What a failure is recorded as. -/
def Copy.failed (c : Copy) : RepositoryStatus := if c.lastCommit.isNone then .error else .ready

def Copy.assign (c : Copy) (v : RepositoryStatus) : Copy := { c with status := v }

/-- The row after a commit of `status = v`. -/
def Copy.commit (c : Copy) (v row : RepositoryStatus) : RepositoryStatus := if c.status = v then row else v

/-- `_advance_phase`, which is also the test of `enqueue_repository_sync`. -/
def Copy.advance (c : Copy) (v : RepositoryStatus) : RepositoryStatus := if c.status ≠ .ready then v else c.status

/-- A session without a copy; with its first copy; after a rollback, with the
copy read again, and with the failure committed. -/
inductive Session where
  | closed
  | loaded (c : Copy)
  | rolledBack
  | reread (c : Copy)
  | recorded (c : Copy)
  deriving DecidableEq, Repr

/-- The phases of a run after the first. -/
inductive Stage where
  | embedding
  | generating
  deriving DecidableEq, Repr

def Stage.status : Stage → RepositoryStatus
  | .embedding => .embedding
  | .generating => .generating

/-- `deletes` are the sessions of `delete_repository`. The run ends with the
purge. -/
structure St where
  sync : Pipeline.St
  status : RepositoryStatus
  deletedAt : Option Nat
  purged : Bool
  calls : Nat → Session
  works : Nat → Session
  enders : Nat → Session
  deletes : Nat → Session

inductive Act where
  | sync (a : Pipeline.Act)
  /-- The commit of `replace_repository_archive`. -/
  | markPending (h : Nat)
  /-- `_mark_enqueue_failed` loads the row. -/
  | reloadCall (h : Nat)
  | markRepositoryError (h : Nat)
  | advancePhase (r : Nat) (p : Stage)
  /-- A step of `process_checkout` raises; `_mark_failed_sync` loads the row. -/
  | rollback (r : Nat)
  | reloadWork (r : Nat)
  /-- `fail_run_cascade` loads the row. -/
  | readRepository (e : Nat)
  /-- `delete_repository` and `purge_repository`. -/
  | loadDelete (d : Nat)
  | commitDelete (d : Nat)
  | purge
  deriving DecidableEq, Repr

/-- The tick's select comes before the call. -/
def scheduled : Kind → Bool
  | .other .schedule _ => true
  | _ => false

/-- The routes that end a failed enqueue with `_mark_repository_error`. -/
def marks : Kind → Bool
  | .upload | .other .initial _ => true
  | _ => false

namespace St

variable (s : St)

def copy : Copy := ⟨s.status, s.sync.lastCommit⟩

def setCall (h : Nat) (x : Session) : St := { s with calls := Function.update s.calls h x }

def setWork (r : Nat) (x : Session) : St := { s with works := Function.update s.works r x }

def setEnder (e : Nat) (x : Session) : St := { s with enders := Function.update s.enders e x }

def setDelete (d : Nat) (x : Session) : St := { s with deletes := Function.update s.deletes d x }

/-- The commit of an assignment to the status. -/
def put (c : Copy) (v : RepositoryStatus) : St := { s with status := c.commit v s.status }

/-- What an action of the pipeline does besides, with `t` the state after the
pipeline's own step. The tick selects no deleted row and the lookups of the
routes find none; what a tick has selected is loaded by id. -/
def follow (t : St) : Pipeline.Act → Option St
  | .request _ k => if scheduled k ∧ s.deletedAt.isSome then none else some t
  | .load h =>
    if ¬scheduled (s.sync.calls h).kind ∧ s.deletedAt.isSome then none else some (t.setCall h (.loaded s.copy))
  | .check h =>
    match s.calls h with
    | .loaded c => if (s.sync.calls h).kind = .upload ∧ c.status ≠ .pending then none else some t
    | _ => none
  | .insert h =>
    match s.calls h, Pipeline.activeRun s.sync.rows with
    | .loaded c, none => some ((t.put c (c.advance .cloning)).setCall h (.loaded (c.assign (c.advance .cloning))))
    | .loaded _, some _ => some (t.setCall h .closed)
    | _, _ => none
  | .dispatch h lost =>
    match s.calls h with
    | .loaded c =>
      if (s.sync.calls h).skips then some ((t.put c .ready).setCall h .closed)
      else some (if lost then t.setCall h .rolledBack else t)
    | _ => none
  | .raise h => some (t.setCall h .rolledBack)
  | .markEnqueueFailed h =>
    match s.calls h with
    | .reread c => some ((t.put c c.failed).setCall h (.recorded (c.assign c.failed)))
    | _ => none
  | .crash h => some (t.setCall h .closed)
  | .loadRepository r => some (t.setWork r (.loaded s.copy))
  | .beginRun r =>
    match s.works r with
    | .loaded c =>
      if s.sync.rows.any fun q => q.id ≠ r ∧ q.active then some (t.setWork r .closed)
      else some ((t.put c (c.advance .indexing)).setWork r (.loaded (c.assign (c.advance .indexing))))
    | _ => none
  | .succeed r =>
    match s.works r with
    | .loaded c => some ((t.put c .ready).setWork r .closed)
    | _ => none
  | .markFailedSync r =>
    match s.works r with
    | .reread c => some ((t.put c c.failed).setWork r .closed)
    | _ => none
  | .endRun e =>
    match (s.sync.enders e).ending, s.enders e with
    | .cancelled, _ => some t
    | .error, .loaded c => some (if c.status.active then t.put c c.failed else t)
    | .error, _ => none
  | _ => some t

def markPending (h : Nat) : Option St :=
  match s.calls h with
  | .loaded c =>
    if (s.sync.calls h).phase = .persisted then
      some ((s.put c .pending).setCall h (.loaded (c.assign .pending)))
    else none
  | _ => none

def reloadCall (h : Nat) : Option St := if s.calls h = .rolledBack then some (s.setCall h (.reread s.copy)) else none

def markRepositoryError (h : Nat) : Option St :=
  match s.calls h with
  | .recorded c => if marks (s.sync.calls h).kind then some (s.put c c.failed) else none
  | _ => none

def advancePhase (r : Nat) (p : Stage) : Option St :=
  match s.works r with
  | .loaded c =>
    if (s.sync.works r).phase = .running then
      some ((s.put c (c.advance p.status)).setWork r (.loaded (c.assign (c.advance p.status))))
    else none
  | _ => none

def rollback (r : Nat) : Option St :=
  match s.works r with
  | .loaded _ => if (s.sync.works r).phase = .running then some (s.setWork r .rolledBack) else none
  | _ => none

def reloadWork (r : Nat) : Option St := if s.works r = .rolledBack then some (s.setWork r (.reread s.copy)) else none

def readRepository (e : Nat) : Option St :=
  let x := s.sync.enders e
  if x.phase = .refreshed ∧ x.ending = .error ∧ s.enders e = .closed then some (s.setEnder e (.loaded s.copy))
  else none

def loadDelete (d : Nat) : Option St :=
  if s.deletedAt.isNone ∧ s.deletes d = .closed then some (s.setDelete d (.loaded s.copy)) else none

def commitDelete (d : Nat) : Option St :=
  match s.deletes d with
  | .loaded c => some ({ s.put c .deleting with deletedAt := some s.sync.now }.setDelete d .closed)
  | _ => none

end St

def next (s : St) (a : Act) : Option St :=
  if s.purged then none
  else
    match a with
    | .sync b => (Pipeline.next s.sync b).bind fun p => s.follow { s with sync := p } b
    | .markPending h => s.markPending h
    | .reloadCall h => s.reloadCall h
    | .markRepositoryError h => s.markRepositoryError h
    | .advancePhase r p => s.advancePhase r p
    | .rollback r => s.rollback r
    | .reloadWork r => s.reloadWork r
    | .readRepository e => s.readRepository e
    | .loadDelete d => s.loadDelete d
    | .commitDelete d => s.commitDelete d
    | .purge => if s.deletedAt.isSome then some { s with purged := true } else none

/-- No process yet, and a row that is DELETING just when it is deleted, ERROR
only without a commit. -/
structure Init (s : St) : Prop where
  sync : Pipeline.Init s.sync
  calls : ∀ h, s.calls h = .closed
  works : ∀ r, s.works r = .closed
  enders : ∀ e, s.enders e = .closed
  deletes : ∀ d, s.deletes d = .closed
  error : s.status = .error → s.sync.lastCommit = none
  deleting : s.status = .deleting ↔ s.deletedAt.isSome

end Cograph.Lifecycle
