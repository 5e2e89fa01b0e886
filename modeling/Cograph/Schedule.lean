import Cograph.Pipeline
import Cograph.Slots

/-!
# The sync scheduler

`pipeline/schedule.py`: the instant at which a repository is due next, the
service that changes its schedule, and the tick that enqueues every repository
that is due. A tick selects the due rows once, then enqueues and advances them
one by one in transactions of their own, so users change and delete
repositories in between. The cron job has one id, so ticks do not overlap.
Instants are whole seconds since 1970-01-01, a Thursday; what an enqueue comes
to is left to the environment.
-/

namespace Cograph.Schedule

open Pipeline (RepoSyncTriggerKind RepoSyncRunStatus)

inductive SyncSchedule where
  | manual
  | hourly
  | daily
  | weekly
  | webhook
  deriving DecidableEq, Repr

/-! ## The next instant -/

def hour : ℕ := 3600

def day : ℕ := 86400

/-- `weekday()`, Monday first. -/
def weekday (t : ℕ) : ℕ := (t / day + 3) % 7

/-- `now.replace(minute=0, second=0)`. -/
def replaceMinute (now : ℕ) : ℕ := now - now % hour

/-- `now.replace(hour=sync_hour_utc, minute=0, second=0)`. -/
def replaceHour (now : ℕ) (syncHourUtc : Fin 24) : ℕ := now - now % day + syncHourUtc * hour

def computeNextSyncAt (schedule : SyncSchedule) (syncHourUtc : Fin 24) (now : ℕ) : Option ℕ :=
  match schedule with
  | .manual | .webhook => none
  | .hourly => some (replaceMinute now + hour)
  | .daily =>
    let candidate := replaceHour now syncHourUtc
    some (if candidate ≤ now then candidate + day else candidate)
  | .weekly =>
    -- `(0 - weekday) % 7` of a weekday below 7
    let daysUntilMonday := (7 - weekday now) % 7
    let candidate := replaceHour now syncHourUtc + daysUntilMonday * day
    some (if candidate ≤ now then candidate + 7 * day else candidate)

/-! ## Rows -/

structure Repository where
  id : ℕ
  createdAt : ℕ
  deletedAt : Option ℕ
  syncSchedule : SyncSchedule
  /-- `replace` takes no other hour. -/
  syncHourUtc : Fin 24
  nextSyncAt : Option ℕ
  webhookSecret : Option String
  deriving DecidableEq, Repr

structure RepoSyncRun where
  repositoryId : ℕ
  triggerKind : RepoSyncTriggerKind
  status : RepoSyncRunStatus
  finishedAt : Option ℕ
  errorCode : Option String
  errorMsg : Option String
  deriving DecidableEq, Repr

/-- `_cancel_pending_scheduled_runs`. -/
def cancelPendingScheduledRuns (repositoryId now : ℕ) (runs : List RepoSyncRun) : List RepoSyncRun :=
  runs.map fun run =>
    if run.repositoryId = repositoryId ∧ run.triggerKind = .schedule ∧ run.status = .queued then
      { run with
        status := .cancelled
        finishedAt := some now
        errorCode := none
        errorMsg := some "Cancelled because sync schedule was set to manual" }
    else run

/-- What `update_repository_schedule` makes of the row. -/
def Repository.reschedule (r : Repository) (schedule : SyncSchedule) (secret : String) (now : ℕ) : Repository :=
  { r with
    syncSchedule := schedule
    nextSyncAt := computeNextSyncAt schedule r.syncHourUtc now
    -- an empty secret is as good as none
    webhookSecret := if schedule = .webhook then (r.webhookSecret.filter (· ≠ "")).or (some secret) else none }

/-- The row of `create_repository`. -/
def newRepository (id createdAt : ℕ) (syncSchedule : Option SyncSchedule) : Repository :=
  ⟨id, createdAt, none, syncSchedule.getD .manual, 2, none, none⟩

/-! ## The tick -/

def SyncSchedule.timed : SyncSchedule → Bool
  | .hourly | .daily | .weekly => true
  | .manual | .webhook => false

def Repository.isDue (now : ℕ) (r : Repository) : Bool :=
  r.deletedAt = none ∧ r.syncSchedule.timed ∧ r.nextSyncAt.any (· ≤ now)

/-- `order_by(next_sync_at, created_at)`. -/
def Repository.sooner (a b : Repository) : Prop :=
  a.nextSyncAt.getD 0 < b.nextSyncAt.getD 0 ∨
    a.nextSyncAt.getD 0 = b.nextSyncAt.getD 0 ∧ a.createdAt ≤ b.createdAt

instance : DecidableRel Repository.sooner := fun _ _ => inferInstanceAs (Decidable (_ ∨ _))

def dueRepositoryIds (repositories : List Repository) (now : ℕ) : List ℕ :=
  ((repositories.filter (·.isDue now)).insertionSort Repository.sooner).map (·.id)

structure RepoSyncSchedulerResult where
  dueRepositories : ℕ
  queuedRuns : ℕ
  deduplicatedRuns : ℕ
  skippedRuns : ℕ
  failedRepositories : ℕ
  deriving DecidableEq, Repr

/-- What `enqueue_repository_sync` returns. -/
structure RepoSyncEnqueueResult where
  status : RepoSyncRunStatus
  deduplicated : Bool
  deriving DecidableEq, Repr

def RepoSyncSchedulerResult.count (r : RepoSyncSchedulerResult) (e : RepoSyncEnqueueResult) :
    RepoSyncSchedulerResult :=
  if e.status = .skipped then { r with skippedRuns := r.skippedRuns + 1 }
  else if e.deduplicated then { r with deduplicatedRuns := r.deduplicatedRuns + 1 }
  else { r with queuedRuns := r.queuedRuns + 1 }

/-- A tick under way: the rows it has still to process, and the result of the
enqueue of the first one, once it has returned. -/
structure Tick where
  now : ℕ
  due : List ℕ
  enqueued : Option RepoSyncEnqueueResult
  result : RepoSyncSchedulerResult
  deriving DecidableEq, Repr

structure St where
  clock : ℕ
  nextId : ℕ
  repositories : List Repository
  runs : List RepoSyncRun
  tick : Option Tick
  /-- What the last tick returned. -/
  returned : Option RepoSyncSchedulerResult

inductive Act where
  | wait (d : ℕ)
  | create (syncSchedule : Option SyncSchedule)
  | softDelete (r : ℕ)
  | purge (r : ℕ)
  | updateRepositorySchedule (r : ℕ) (schedule : SyncSchedule) (secret : String)
  /-- The sync pipeline changes the runs. -/
  | sync (runs : List RepoSyncRun)
  | beginTick
  /-- `none` where the enqueue raises. -/
  | enqueue (result : Option RepoSyncEnqueueResult)
  | advance
  | endTick
  /-- The worker is killed. -/
  | die
  deriving DecidableEq, Repr

namespace St

variable (s : St)

def row? (r : ℕ) : Option Repository := s.repositories.find? (·.id = r)

def setRow (r : ℕ) (f : Repository → Repository) : St :=
  { s with repositories := s.repositories.map fun q => if q.id = r then f q else q }

def create (schedule : Option SyncSchedule) : St :=
  { s with repositories := s.repositories ++ [newRepository s.nextId s.clock schedule], nextId := s.nextId + 1 }

def softDelete (r : ℕ) : St := s.setRow r fun q => { q with deletedAt := some s.clock }

def purge (r : ℕ) : St := { s with repositories := s.repositories.filter (·.id ≠ r) }

/-- `update_repository_schedule`, which raises where there is no such row. -/
def updateRepositorySchedule (r : ℕ) (schedule : SyncSchedule) (secret : String) : Option St :=
  (s.row? r).map fun _ =>
    { s.setRow r (·.reschedule schedule secret s.clock) with
      runs := if schedule = .manual then cancelPendingScheduledRuns r s.clock s.runs else s.runs }

def beginTick : Option St :=
  if s.tick = none then
    let due := dueRepositoryIds s.repositories s.clock
    some { s with tick := some ⟨s.clock, due, none, ⟨due.length, 0, 0, 0, 0⟩⟩ }
  else none

/-- The enqueue of a repository that is gone raises. -/
def enqueue (result : Option RepoSyncEnqueueResult) : Option St :=
  match s.tick with
  | some ⟨now, r :: due, none, counts⟩ =>
    match result with
    | none =>
      some { s with tick := some ⟨now, due, none, { counts with failedRepositories := counts.failedRepositories + 1 }⟩ }
    | some e => if (s.row? r).isSome then some { s with tick := some ⟨now, r :: due, some e, counts⟩ } else none
  | _ => none

/-- The row is read again and its next instant is computed from the tick's. The
assertion that there is a row ends the tick. -/
def advance : Option St :=
  match s.tick with
  | some ⟨now, r :: due, some e, counts⟩ =>
    match s.row? r with
    | none => some { s with tick := none }
    | some _ =>
      some { s.setRow r fun q => { q with nextSyncAt := computeNextSyncAt q.syncSchedule q.syncHourUtc now } with
        tick := some ⟨now, due, none, counts.count e⟩ }
  | _ => none

def endTick : Option St :=
  match s.tick with
  | some ⟨_, [], _, counts⟩ => some { s with tick := none, returned := some counts }
  | _ => none

end St

def next (s : St) : Act → Option St
  | .wait d => some { s with clock := s.clock + d }
  | .create schedule => some (s.create schedule)
  | .softDelete r => some (s.softDelete r)
  | .purge r => some (s.purge r)
  | .updateRepositorySchedule r schedule secret => s.updateRepositorySchedule r schedule secret
  | .sync runs => some { s with runs := runs }
  | .beginTick => s.beginTick
  | .enqueue result => s.enqueue result
  | .advance => s.advance
  | .endTick => s.endTick
  | .die => some { s with tick := none }

/-- No repository has an instant yet, and no tick is under way. -/
structure Init (s : St) : Prop where
  tick : s.tick = none
  keys : (s.repositories.map (·.id)).Nodup
  fresh : ∀ r ∈ s.repositories, r.id < s.nextId
  unset : ∀ r ∈ s.repositories, r.nextSyncAt = none

end Cograph.Schedule
