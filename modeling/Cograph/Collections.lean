import Cograph.Access
import Cograph.Uploads

/-!
# Who sees a markdown collection

`core/md_collection_access.py`, `core/group_permissions.py`, the gates of
`api/md_collections.py` and the job list of `md_rag/job_tracker.py`: the same
rule as a scope of a query, as a check on one row, as a ladder before a change
and as a filter of the jobs. A job is kept by its collection, kind, status and
creation time.
-/

namespace Cograph.Collections

open Kleene Scim
open Access (GrantLevel GroupMember)
open Uploads (ApiError MdJobKind MdJobStatus)

/-! ## Tables -/

inductive MdCollectionVisibility where
  | «private»
  | «public»
  | adminOnly
  deriving DecidableEq

structure MdCollection where
  id : Nat
  name : Str
  description : Option Str
  ownerId : Option Nat
  visibility : MdCollectionVisibility
  sourceRepositoryId : Option Nat
  sourcePath : Option Str
  deriving DecidableEq

structure CollectionGrant where
  groupId : Nat
  collectionId : Nat
  level : GrantLevel
  deriving DecidableEq

structure MdJob where
  id : Nat
  collectionId : Nat
  kind : MdJobKind
  status : MdJobStatus
  createdAt : Nat
  deriving DecidableEq

/-- The tables, with the key of `md_collections`. -/
structure Tables where
  collections : List MdCollection
  grants : List CollectionGrant
  members : List GroupMember
  jobs : List MdJob
  ids : (collections.map (·.id)).Nodup

/-! ## Queries -/

/-- A condition on a row; a comparison with a null is unknown. -/
abbrev Clause := MdCollection → Tri

def visibilityIs (v : MdCollectionVisibility) : Clause := fun c => some (c.visibility = v)

def ownerIs (userId : Nat) : Clause := fun c => c.ownerId.map fun owner => decide (owner = userId)

def idIn (ids : List Nat) : Clause := fun c => some (decide (c.id ∈ ids))

/-- `select(MdCollection)` with its `WHERE` clauses. -/
def select (db : Tables) (clauses : List Clause) : List MdCollection :=
  db.collections.filter fun c => (clauses.map (· c)).foldr tand (some true) = some true

/-- `CollectionGrant` joined with the memberships of a user. -/
def grantsOf (db : Tables) (userId : Nat) : List CollectionGrant :=
  db.grants.flatMap fun g => (db.members.filter fun m => m.groupId = g.groupId ∧ m.userId = userId).map fun _ => g

def isAdmin (user : User) : Bool := user.role = .owner ∨ user.role = .admin

def applyMdCollectionReadScope (db : Tables) (currentUser : Option User) (statement : List Clause) : List Clause :=
  match currentUser with
  | none => statement ++ [visibilityIs .public]
  | some user =>
    if isAdmin user then statement
    else statement ++ [fun c => tor (visibilityIs .public c)
      (tor (ownerIs user.id c) (idIn ((grantsOf db user.id).map (·.collectionId)) c))]

/-! ## Checks on one row -/

def canReadMdCollectionSync (currentUser : Option User) (c : MdCollection) : Bool :=
  if c.visibility = .public then true
  else
    match currentUser with
    | none => false
    | some user => if isAdmin user then true else c.ownerId = some user.id

def userCanReadMdCollection (db : Tables) (currentUser : Option User) (c : MdCollection) : Bool :=
  if canReadMdCollectionSync currentUser c then true
  else
    match currentUser with
    | none => false
    | some user => ((grantsOf db user.id).filter (·.collectionId = c.id)).head?.isSome

def notFound : ApiError := ⟨404, "NOT_FOUND".toList, "Collection not found".toList⟩

def forbidden : ApiError := ⟨403, "FORBIDDEN".toList, "Collection access denied".toList⟩

/-- `session.get`. -/
def Tables.get (db : Tables) (collectionId : Nat) : Option MdCollection :=
  db.collections.find? (·.id = collectionId)

def getReadableMdCollection (db : Tables) (currentUser : Option User) (collectionId : Nat) :
    Except ApiError MdCollection :=
  match db.get collectionId with
  | none => .error notFound
  | some c => if userCanReadMdCollection db currentUser c then .ok c else .error forbidden

/-! ## The ladder of changes -/

/-- `_LEVEL_TO_RANK`. -/
def rank : GrantLevel → Nat
  | .read => 1
  | .write => 2

def hasCollectionPermission (db : Tables) (user : User) (c : MdCollection) (required : GrantLevel) : Bool :=
  if isAdmin user then true
  else if c.ownerId = some user.id then true
  else
    let best := (((grantsOf db user.id).filter (·.collectionId = c.id)).map fun g => rank g.level).max?
    match best with
    | none => false
    | some n => rank required ≤ n

def requireCollectionForMutation (db : Tables) (user : User) (collectionId : Nat) (required : GrantLevel) :
    Except ApiError MdCollection :=
  match db.get collectionId with
  | none => .error notFound
  | some c =>
    if isAdmin user then .ok c
    else if c.ownerId = some user.id then .ok c
    else if hasCollectionPermission db user c required then .ok c
    else .error forbidden

/-! ## The job list -/

/-- Newest first. -/
def newer (a b : MdJob × Str) : Bool :=
  b.1.createdAt < a.1.createdAt ∨ a.1.createdAt = b.1.createdAt ∧ b.1.id ≤ a.1.id

/-- `MdJobTracker.list_all_visible`, with or without a limit. -/
def listAllVisible (db : Tables) (user : User) (limit : Option Nat) (status : Option MdJobStatus) :
    List (MdJob × Str) :=
  let joined := db.jobs.flatMap fun j => (db.collections.filter (·.id = j.collectionId)).map (j, ·)
  let visible := joined.filter fun (_, c) =>
    user.role = .admin ∨ tor (ownerIs user.id c) (visibilityIs .public c) = some true
  let selected := visible.filter fun (j, _) => status.all (j.status = ·)
  let rows := (selected.map fun (j, c) => (j, c.name)).mergeSort newer
  match limit with
  | none => rows
  | some n => rows.take n

end Cograph.Collections
