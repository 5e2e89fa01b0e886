import Cograph.Pipeline
import Cograph.Strs

/-!
# Idempotency keys of repository requests

`core/idempotency.py` and its two callers, `create_repository` and
`upload_repository_archive` of `api/repos.py`, for the requests one user sends
with one key. A request is one action: it reads the committed rows, and what it
has not committed when it ends is rolled back. Where it is cut short is part of
the action, as is what the remote, the archive and the queue answer.
-/

namespace Cograph.Idempotency

open Pipeline (RepoSource RepoSyncTriggerKind RepoSyncRunStatus)

/-! ## Tables -/

inductive RepositoryStatus where
  | pending
  | cloning
  | ready
  | error
  deriving DecidableEq, Repr

inductive RepositoryVisibility where
  | isPublic
  | adminOnly
  deriving DecidableEq, Repr

inductive SyncSchedule where
  | manual
  | hourly
  | daily
  | weekly
  | webhook
  deriving DecidableEq, Repr

structure Slug where
  host : Str
  owner : Str
  name : Str
  deriving DecidableEq, Repr

structure Repository where
  id : Nat
  gitUrl : Str
  source : RepoSource
  slug : Slug
  hostId : Option Nat
  branch : Str
  status : RepositoryStatus
  lastCommit : Option Str
  errorMsg : Option Str
  visibility : RepositoryVisibility
  syncSchedule : SyncSchedule
  deriving DecidableEq, Repr

structure RepoSyncRun where
  repositoryId : Nat
  triggerKind : RepoSyncTriggerKind
  status : RepoSyncRunStatus
  requestedRef : Option Str
  deriving DecidableEq, Repr

structure GitHost where
  id : Nat
  gitHost : Str
  enabled : Bool
  deriving DecidableEq, Repr

/-- The body of a 202 answer, the columns of the row it was built from. The
counts are those of a repository without rows of its own. -/
structure RepositoryResponse where
  id : Nat
  gitUrl : Str
  source : RepoSource
  slug : Slug
  branch : Str
  status : RepositoryStatus
  lastCommit : Option Str
  errorMsg : Option Str
  visibility : RepositoryVisibility
  syncSchedule : SyncSchedule
  deriving DecidableEq, Repr

def buildRepositoryResponse (r : Repository) : RepositoryResponse where
  id := r.id
  gitUrl := r.gitUrl
  source := r.source
  slug := r.slug
  branch := r.branch
  status := r.status
  lastCommit := r.lastCommit
  errorMsg := r.errorMsg
  visibility := r.visibility
  syncSchedule := r.syncSchedule

structure IdempotencyKey where
  id : Nat
  keyHash : String
  userId : Nat
  responsePayload : Option RepositoryResponse
  createdAt : Nat
  deriving DecidableEq, Repr

structure Db where
  repositories : List Repository
  syncRuns : List RepoSyncRun
  idempotencyKeys : List IdempotencyKey
  gitHosts : List GitHost
  deriving DecidableEq, Repr

def Db.repository (db : Db) (id : Nat) : Option Repository := db.repositories.find? (·.id = id)

def Db.mapRepository (db : Db) (id : Nat) (f : Repository → Repository) : Db :=
  { db with repositories := db.repositories.map fun r => if r.id = id then f r else r }

/-! ## Requests -/

structure CreateRepositoryRequest where
  gitUrl : Str
  branch : Option Str
  name : Option Str
  syncSchedule : Option SyncSchedule
  visibility : Option RepositoryVisibility
  hostId : Option Nat
  deriving DecidableEq, Repr

/-- The form of an upload. `archive` is the message of the `ZipCheckoutError`
that `persist_upload` raises, if it does. -/
structure UploadForm where
  contentType : Option Str
  filename : Option Str
  slug : Slug
  visibility : Option RepositoryVisibility
  archive : Option Str
  deriving DecidableEq, Repr

inductive Payload where
  | create (payload : CreateRepositoryRequest) (remoteHead : Str)
  | upload (form : UploadForm)
  deriving DecidableEq, Repr

/-- What is raised inside `enqueue_repository_sync`. -/
inductive EnqueueError where
  | gitCheckout
  | zipCheckout
  | jobEnqueue
  | other
  deriving DecidableEq, Repr

/-- How the enqueue goes: it raises before its rows are committed; the checkout
or the queue fails with a message and `_mark_enqueue_failed` commits or not;
the job is queued and the final commit succeeds or not. -/
inductive Enqueue where
  | refused
  | failed (e : EnqueueError) (message : Str) (recorded : Bool)
  | queued (resolvedBranch requestedRef : Str) (stored : Bool)
  deriving DecidableEq, Repr

/-- The statement at which the database or the process fails the request,
besides those of the enqueue. -/
inductive Fault where
  | lookup
  | commit
  | response
  | mark
  | complete
  deriving DecidableEq, Repr

/-- `rejected` is the status and code with which the session, the CSRF token or
the body model turn the request away; `uuid` and `recordId` are the ids it
draws. -/
structure Request where
  rejected : Option (Nat × String)
  payload : Payload
  now : Nat
  uuid : Nat
  recordId : Nat
  enqueue : Enqueue
  fault : Option Fault
  deriving DecidableEq, Repr

inductive Answer where
  | accepted (body : RepositoryResponse)
  | error (status : Nat) (code : String)
  deriving DecidableEq, Repr

/-- An exception no handler of the route names. -/
def internalError : Answer := .error 500 "INTERNAL_ERROR"

/-! ## The key -/

def ttlHours : Nat := 24

section
variable (sha256 : String → String)

def deriveKey (rawKey : String) (userId : Nat) : String := sha256 (toString userId ++ ":" ++ rawKey)

end

/-- A row that the next lookup purges. -/
def IdempotencyKey.stale (now : Nat) (k : IdempotencyKey) : Bool := k.createdAt < now - ttlHours * 3600

structure IdempotencyRecord where
  recordId : Nat
  isReplay : Bool
  payload : Option RepositoryResponse
  deriving DecidableEq, Repr

/-- The session's rows after the lookup and what it returns. -/
def checkOrClaim (db : Db) (keyHash : String) (userId recordId now : Nat) : Db × IdempotencyRecord :=
  let purged := { db with idempotencyKeys := db.idempotencyKeys.filter (! ·.stale now) }
  match purged.idempotencyKeys.find? (·.keyHash = keyHash) with
  | some existing => (purged, ⟨existing.id, true, existing.responsePayload⟩)
  | none =>
    ({ purged with idempotencyKeys := ⟨recordId, keyHash, userId, none, now⟩ :: purged.idempotencyKeys },
      ⟨recordId, false, none⟩)

def markComplete (db : Db) (recordId : Nat) (payload : RepositoryResponse) : Db :=
  { db with idempotencyKeys := db.idempotencyKeys.map fun k =>
      if k.id = recordId then { k with responsePayload := some payload } else k }

/-! ## The enqueue -/

/-- `_mark_enqueue_failed`, and `_mark_repository_error` with it, on the row. -/
def Repository.failed (message : Str) (r : Repository) : Repository :=
  { r with status := if r.lastCommit.isNone then .error else .ready, errorMsg := some message }

/-- `enqueue_repository_sync`, with the exception it ends in. -/
def enqueueRepositorySync (db : Db) (id : Nat) (trigger : RepoSyncTriggerKind) (o : Enqueue) :
    Db × Option (EnqueueError × Str) :=
  match db.repository id with
  | none => (db, some (.other, []))
  | some repository =>
    if db.syncRuns.any fun q => q.repositoryId = id ∧ q.status.active then (db, none)
    else
      let seeded (status : RepoSyncRunStatus) (ref : Option Str) (f : Repository → Repository) : Db :=
        { db.mapRepository id f with syncRuns := ⟨id, trigger, status, ref⟩ :: db.syncRuns }
      let cloning (r : Repository) : Repository :=
        { r with status := if r.status = .ready then .ready else .cloning, errorMsg := none }
      match o with
      | .refused => (db, some (.other, []))
      | .failed e message true => (seeded .error none (Repository.failed message ∘ cloning), some (e, message))
      | .failed _ _ false => (seeded .queued none cloning, some (.other, []))
      | .queued resolvedBranch requestedRef true =>
        if trigger ≠ .manual ∧ repository.lastCommit = some requestedRef then
          (seeded .skipped (some requestedRef) fun r =>
            { cloning r with branch := resolvedBranch, status := .ready }, none)
        else
          (seeded .queued (some requestedRef) fun r => { cloning r with branch := resolvedBranch }, none)
      | .queued _ _ false => (seeded .queued none cloning, some (.other, []))

def markRepositoryError (db : Db) (id : Nat) (message : Str) : Db := db.mapRepository id (Repository.failed message)

/-! ## Checks before the lookup -/

def startsWith (s : Str) (p : String) : Bool := p.toList.isPrefixOf s

def endsWith (s : Str) (p : String) : Bool := p.toList.isSuffixOf s

def zipContentTypes : List String :=
  ["application/zip", "application/x-zip-compressed", "application/octet-stream", "multipart/x-zip"]

def segmentChar (c : Char) : Bool := c.isAlphanum || c = '.' || c = '_' || c = '-'

/-- `_HOST_SEGMENT_RE`, on a stripped text. -/
def hostSegment (s : Str) : Bool :=
  0 < s.length ∧ s.length ≤ 255 ∧ s.all segmentChar ∧ s.head?.any Char.isAlphanum ∧ s.getLast?.any Char.isAlphanum

/-- `_REPO_SEGMENT_RE`, on a stripped text. -/
def repoSegment (s : Str) : Bool := 0 < s.length ∧ s.length ≤ 100 ∧ s.all segmentChar

def Slug.strip (g : Slug) : Slug := ⟨Str.strip g.host, Str.strip g.owner, Str.strip g.name⟩

/-- The checks of `upload_repository_archive` before it looks the key up. -/
def UploadForm.refused (form : UploadForm) : Option Answer :=
  if form.contentType.any fun t => t ≠ [] ∧ Str.lower t ∉ zipContentTypes.map String.toList then
    some (.error 415 "UNSUPPORTED_MEDIA_TYPE")
  else if ¬form.filename.any fun f => f ≠ [] ∧ endsWith (Str.lower f) ".zip" then
    some (.error 422 "VALIDATION_FAILED")
  else
    let g := form.slug.strip
    if hostSegment g.host ∧ repoSegment g.owner ∧ repoSegment g.name then none
    else some (.error 422 "VALIDATION_FAILED")

/-- What is answered before the key is looked up. -/
def Request.refused (q : Request) : Option Answer :=
  match q.rejected, q.payload with
  | some (status, code), _ => some (.error status code)
  | none, .create .. => none
  | none, .upload form => form.refused

/-! ## Building the row -/

def looksLikeSshUrl (gitUrl : Str) : Bool :=
  startsWith (Str.strip gitUrl) "ssh://" || startsWith (Str.strip gitUrl) "git@"

section
variable (urlparse : Str → Option Str × Str)

/-- The segments of a path that are not empty. -/
def pathSegments (path : Str) : List Str := (path.splitOn '/').filter (· ≠ [])

def parseHostOwnerAndName (gitUrl : Str) : Option Slug :=
  let hostAndPath : Option Str × Str :=
    if startsWith gitUrl "git@" then
      let afterAt := gitUrl.drop 4
      (some (afterAt.takeWhile (· ≠ ':')), (afterAt.dropWhile (· ≠ ':')).drop 1)
    else urlparse gitUrl
  let stem := (hostAndPath.2.reverse.dropWhile (· = '/')).reverse
  let path := if endsWith stem ".git" then stem.take (stem.length - 4) else stem
  match (pathSegments path).reverse, hostAndPath.1.getD [] with
  | _, [] => none
  | name :: owner :: _, host => some ⟨host, owner, name⟩
  | _, _ => none

/-- `_hostname_of`, on a URL that is not an SSH one. -/
def hostnameOf (url : Str) : Option Str := ((urlparse url).1.filter (· ≠ [])).map Str.lower

/-- The id of the host the row refers to, or the answer. -/
def resolveHost (db : Db) (payload : CreateRepositoryRequest) (host : Str) : Except Answer (Option Nat) :=
  match payload.hostId with
  | some id =>
    match db.gitHosts.find? (·.id = id) with
    | none => .error (.error 404 "GIT_HOST_NOT_FOUND")
    | some registered =>
      if ¬registered.enabled then .error (.error 404 "GIT_HOST_NOT_FOUND")
      else if Str.lower registered.gitHost ≠ Str.lower host then .error (.error 422 "GIT_HOST_URL_MISMATCH")
      else .ok (some id)
  | none =>
    match hostnameOf urlparse payload.gitUrl with
    | none => .ok none
    | some h => .ok ((db.gitHosts.find? fun g => g.gitHost = h ∧ g.enabled).map (·.id))

/-- The row `create_repository` adds. -/
def createRow (db : Db) (payload : CreateRepositoryRequest) (remoteHead : Str) (uuid : Nat) :
    Except Answer Repository :=
  if looksLikeSshUrl payload.gitUrl then .error (.error 422 "GIT_URL_SSH_UNSUPPORTED")
  else
    match parseHostOwnerAndName urlparse payload.gitUrl with
    | none => .error (.error 422 "VALIDATION_FAILED")
    | some slug => do
      let hostId ← resolveHost urlparse db payload slug.host
      return {
        id := uuid
        gitUrl := payload.gitUrl
        source := .git
        slug := { slug with name := (payload.name.filter (· ≠ [])).getD slug.name }
        hostId
        branch := (payload.branch.filter (· ≠ [])).getD remoteHead
        status := .pending
        lastCommit := none
        errorMsg := none
        visibility := payload.visibility.getD .adminOnly
        syncSchedule := payload.syncSchedule.getD .manual }

/-- The row `upload_repository_archive` adds. -/
def uploadRow (form : UploadForm) (uuid : Nat) : Except Answer Repository :=
  match form.archive with
  | some _ => .error (.error 422 "ARCHIVE_INVALID")
  | none =>
    let slug := form.slug.strip
    .ok {
      id := uuid
      gitUrl := "zip://".toList ++ slug.host ++ '/' :: slug.owner ++ '/' :: slug.name
      source := .zip
      slug
      hostId := none
      branch := "upload".toList
      status := .pending
      lastCommit := none
      errorMsg := none
      visibility := form.visibility.getD .adminOnly
      syncSchedule := .manual }

def Request.row (db : Db) (q : Request) : Except Answer Repository :=
  match q.payload with
  | .create payload remoteHead => createRow urlparse db payload remoteHead q.uuid
  | .upload form => uploadRow form q.uuid

/-! ## The two routes -/

/-- The exceptions of the enqueue that `create_repository` and
`upload_repository_archive` answer, both after `_mark_repository_error`. -/
def Payload.caught : Payload → EnqueueError → Option Answer
  | .create .., .gitCheckout => some (.error 502 "GIT_CLONE_FAILED")
  | .upload _, .zipCheckout => some (.error 422 "ARCHIVE_INVALID")
  | _, .jobEnqueue => some (.error 503 "SERVICE_UNAVAILABLE")
  | _, _ => none

/-- What a request leaves: the rows committed, the body of the repository it
created, its answer. -/
structure Outcome where
  db : Db
  created : Option RepositoryResponse
  answer : Answer
  deriving DecidableEq, Repr

/-- From the committed row to the answer: the enqueue, then the stored body. -/
def afterCommit (q : Request) (record : IdempotencyRecord) (db : Db) (repository : Repository) : Outcome :=
  let body := buildRepositoryResponse repository
  let trigger : RepoSyncTriggerKind :=
    match q.payload with
    | .create .. => if db.syncRuns.any (·.repositoryId = repository.id) then .manual else .initial
    | .upload _ => .initial
  if q.fault = some .response then ⟨db, some body, internalError⟩
  else
    match enqueueRepositorySync db repository.id trigger q.enqueue with
    | (db, some (e, message)) =>
      match q.payload.caught e with
      | none => ⟨db, some body, internalError⟩
      | some answer =>
        if q.fault = some .mark then ⟨db, some body, internalError⟩
        else ⟨markRepositoryError db repository.id message, some body, answer⟩
    | (db, none) =>
      if record.isReplay then ⟨db, some body, .accepted body⟩
      else if q.fault = some .complete then ⟨db, some body, internalError⟩
      else ⟨markComplete db record.recordId body, some body, .accepted body⟩

/-- `create_repository` and `upload_repository_archive`. The claim is committed
with the row; an answer before that rolls it back. -/
def handle (keyHash : String) (userId : Nat) (db : Db) (q : Request) : Outcome :=
  match q.refused with
  | some answer => ⟨db, none, answer⟩
  | none =>
    if q.fault = some .lookup then ⟨db, none, internalError⟩
    else
      let (claimed, record) := checkOrClaim db keyHash userId q.recordId q.now
      match record.payload with
      | some payload => ⟨db, none, .accepted payload⟩
      | none =>
        match q.row urlparse db with
        | .error answer => ⟨db, none, answer⟩
        | .ok repository =>
          if db.repositories.any (·.slug = repository.slug) then ⟨db, none, .error 409 "REPOSITORY_EXISTS"⟩
          else if q.fault = some .commit then ⟨db, none, internalError⟩
          else afterCommit q record { claimed with repositories := repository :: claimed.repositories } repository

end

/-! ## Runs -/

/-- `created` holds the bodies of the repositories created under the key and
`answers` what was answered, both the last first. -/
structure St where
  db : Db
  created : List RepositoryResponse
  answers : List Answer
  deriving DecidableEq, Repr

def St.init (db : Db) : St := ⟨db, [], []⟩

section
variable (sha256 : String → String) (urlparse : Str → Option Str × Str) (rawKey : String) (userId : Nat)

/-- A request, as long as the key's row is within its lifetime. -/
def next (s : St) (q : Request) : Option St :=
  if s.db.idempotencyKeys.any fun k => k.keyHash = deriveKey sha256 rawKey userId ∧ k.stale q.now then none
  else
    let o := handle urlparse (deriveKey sha256 rawKey userId) userId s.db q
    some ⟨o.db, o.created.toList ++ s.created, o.answer :: s.answers⟩

end

end Cograph.Idempotency
