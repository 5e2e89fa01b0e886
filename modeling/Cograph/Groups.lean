import Cograph.Admins
import Cograph.Strs

/-!
# Groups, members and grants

`api/admin_groups.py` and `auth/oidc_group_sync.py`: administrators keep groups,
their members and the grants of a group on repositories and collections, and
each of their requests writes an audit event in its own transaction. A sign-in
adds a user to the groups that are mapped to his claims, without an event. The
requests run one after the other; the two kinds of grants go through the same
code but for the names.
-/

namespace Cograph.Groups

open Admins (ApiError)

/-! ## Tables -/

/-- A grant is on a row of `repositories` or of `md_collections`. -/
inductive Resource where
  | repository
  | collection
  deriving DecidableEq, Repr

inductive GrantLevel where
  | read
  | write
  deriving DecidableEq, Repr

/-- The provider and the name of an OIDC mapping, which a constraint keeps set
together. -/
abbrev Mapping := ℕ × Str

structure Group where
  id : ℕ
  name : Str
  description : Option Str
  createdBy : Option ℕ
  mapping : Option Mapping
  deriving DecidableEq, Repr

inductive Source where
  | manual
  | oidc
  deriving DecidableEq, Repr

structure GroupMember where
  groupId : ℕ
  userId : ℕ
  addedBy : Option ℕ
  source : Source
  deriving DecidableEq, Repr

def GroupMember.of (groupId userId : ℕ) (m : GroupMember) : Bool := m.groupId = groupId ∧ m.userId = userId

structure Grant where
  kind : Resource
  groupId : ℕ
  resourceId : ℕ
  level : GrantLevel
  grantedBy : Option ℕ
  deriving DecidableEq, Repr

/-- The row of the group and the resource. -/
def Grant.on (kind : Resource) (groupId resourceId : ℕ) (g : Grant) : Bool :=
  g.kind = kind ∧ g.groupId = groupId ∧ g.resourceId = resourceId

/-- The event type and the metadata of an audit event. -/
inductive Change where
  | groupCreated (groupId : ℕ) (name : Str) (mapping : Option Mapping)
  | groupRenamed (groupId : ℕ) (old new : Str)
  | groupOidcMappingChanged (groupId : ℕ) (mapping : Option Mapping)
  | groupDeleted (groupId : ℕ) (name : Str)
  | groupMemberAdded (groupId : ℕ) (userIds : List ℕ)
  | groupMemberRemoved (groupId : ℕ)
  | grantAdded (kind : Resource) (groupId resourceId : ℕ) (level : GrantLevel)
  | grantUpdated (kind : Resource) (groupId resourceId : ℕ) (level previous : GrantLevel)
  | grantRemoved (kind : Resource) (groupId resourceId : ℕ) (level : GrantLevel)
  | oidcProviderDeleted
  | userDeleted
  deriving DecidableEq, Repr

def Change.eventType : Change → String
  | groupCreated .. => "group_created"
  | groupRenamed .. => "group_renamed"
  | groupOidcMappingChanged .. => "group_oidc_mapping_changed"
  | groupDeleted .. => "group_deleted"
  | groupMemberAdded .. => "group_member_added"
  | groupMemberRemoved .. => "group_member_removed"
  | grantAdded .repository .. => "repo_grant_added"
  | grantAdded .collection .. => "collection_grant_added"
  | grantUpdated .repository .. => "repo_grant_updated"
  | grantUpdated .collection .. => "collection_grant_updated"
  | grantRemoved .repository .. => "repo_grant_removed"
  | grantRemoved .collection .. => "collection_grant_removed"
  | oidcProviderDeleted => "oidc_provider_deleted"
  | userDeleted => "user_deleted"

structure AuditEvent where
  actorUserId : Option ℕ
  targetUserId : Option ℕ
  change : Change
  deriving DecidableEq, Repr

structure St where
  nextId : ℕ
  users : List ℕ
  providers : List ℕ
  /-- The repositories, each with `deleted_at`. -/
  repositories : List (ℕ × Option ℕ)
  collections : List ℕ
  groups : List Group
  members : List GroupMember
  grants : List Grant
  /-- The last event first. -/
  audits : List AuditEvent
  deriving DecidableEq, Repr

/-! ## Requests -/

structure CreateGroupRequest where
  name : Str
  description : Option Str
  oidcProviderId : Option ℕ
  oidcGroupName : Option Str

/-- A field that is absent is `none`; the mapping is absent or present as a whole. -/
structure UpdateGroupRequest where
  name : Option Str
  description : Option Str
  mapping : Option (Option ℕ × Option Str)

def fieldsFit (name description oidcGroupName : Option Str) : Bool :=
  name.all (fun n => 1 ≤ n.length ∧ n.length ≤ 128) ∧ description.all (·.length ≤ 2048) ∧
    oidcGroupName.all (·.length ≤ 256)

/-- `_oidc_paired`. -/
def pairedMapping (provider : Option ℕ) (name : Option Str) : Option (Option Mapping) :=
  match provider, name with
  | none, none => some none
  | some p, some n => some (some (p, n))
  | _, _ => none

inductive Act where
  | createGroup (actor : ℕ) (payload : CreateGroupRequest)
  | updateGroup (actor groupId : ℕ) (payload : UpdateGroupRequest)
  | deleteGroup (actor groupId : ℕ)
  | addMembers (actor groupId : ℕ) (userIds : List ℕ)
  | removeMember (actor groupId userId : ℕ)
  | putGrant (actor : ℕ) (kind : Resource) (groupId resourceId : ℕ) (level : GrantLevel)
  | deleteGrant (actor : ℕ) (kind : Resource) (groupId resourceId : ℕ)
  | signIn (userId providerId : ℕ) (claimGroups : List Str)
  | createUser
  | deleteUser (actor userId : ℕ)
  | createProvider
  | deleteProvider (actor providerId : ℕ)
  | createRepository
  | deleteRepository (repositoryId now : ℕ)
  | purgeRepository (repositoryId : ℕ)
  | createCollection
  | deleteCollection (collectionId : ℕ)

namespace St

variable (s : St)

def writeAudit (actor : ℕ) (target : Option ℕ) (change : Change) : St :=
  { s with audits := ⟨some actor, target, change⟩ :: s.audits }

def group? (groupId : ℕ) : Option Group := s.groups.find? (·.id = groupId)

/-- `_load_group_or_404`. -/
def loadGroupOr404 (groupId : ℕ) : Except ApiError Group :=
  match s.group? groupId with
  | none => .error ⟨404, "NOT_FOUND", "Group not found"⟩
  | some group => .ok group

/-- `_validate_oidc_provider`. -/
def validateOidcProvider : Option Mapping → Except ApiError Unit
  | none => .ok ()
  | some (p, _) =>
    if p ∈ s.providers then .ok ()
    else .error ⟨422, "OIDC_PROVIDER_NOT_FOUND", "Identity provider not found: " ++ toString p⟩

/-- The unique constraint that a row of `groups` would break. -/
inductive Violation where
  | mapping
  | name

/-- The constraints on the name and on the mapping where one is set. -/
def violation? (group : Group) : Option Violation :=
  let others := s.groups.filter (·.id ≠ group.id)
  if group.mapping.isSome ∧ others.any (·.mapping = group.mapping) then some .mapping
  else if others.any (·.name = group.name) then some .name
  else none

/-- `_map_group_integrity_error`. -/
def mapGroupIntegrityError : Violation → ApiError
  | .mapping => ⟨409, "OIDC_MAPPING_TAKEN", "Another cograph group already maps to this IdP group."⟩
  | .name => ⟨409, "NAME_TAKEN", "A group with this name already exists."⟩

def invalid : ApiError := ⟨422, "VALIDATION_FAILED", "Request validation failed"⟩

def internal : ApiError := ⟨500, "INTERNAL", "Unexpected server error"⟩

def createGroup (actor : ℕ) (payload : CreateGroupRequest) : Except ApiError St :=
  if fieldsFit (some payload.name) payload.description payload.oidcGroupName then
    match pairedMapping payload.oidcProviderId payload.oidcGroupName with
    | none => .error invalid
    | some mapping => do
      s.validateOidcProvider mapping
      let group : Group := ⟨s.nextId, Str.strip payload.name, payload.description, some actor, mapping⟩
      match s.violation? group with
      | some v => .error (mapGroupIntegrityError v)
      | none =>
        return { s with nextId := s.nextId + 1, groups := group :: s.groups }.writeAudit actor none
          (.groupCreated group.id group.name mapping)
  else .error invalid

def setGroup (group : Group) : St := { s with groups := s.groups.map fun g => if g.id = group.id then group else g }

/-- The events of an update, each only where its column changes. -/
def auditUpdate (actor : ℕ) (old new : Group) : St :=
  let s₁ := if new.name ≠ old.name then s.writeAudit actor none (.groupRenamed old.id old.name new.name) else s
  if new.mapping ≠ old.mapping then s₁.writeAudit actor none (.groupOidcMappingChanged old.id new.mapping) else s₁

def updateGroup (actor groupId : ℕ) (payload : UpdateGroupRequest) : Except ApiError St :=
  if fieldsFit payload.name payload.description (payload.mapping.bind (·.2)) then
    match payload.mapping.mapM fun m => pairedMapping m.1 m.2 with
    | none => .error invalid
    | some mapping => do
      let group ← s.loadGroupOr404 groupId
      s.validateOidcProvider (mapping.join)
      let new := { group with
        name := (payload.name.map Str.strip).getD group.name
        description := payload.description.or group.description
        mapping := mapping.getD group.mapping }
      -- the event is flushed with the row, before the commit that maps the error
      match s.violation? new with
      | some _ => .error internal
      | none => return (s.setGroup new).auditUpdate actor group new
  else .error invalid

/-- Members and grants go with their group. -/
def deleteGroup (actor groupId : ℕ) : Except ApiError St := do
  let group ← s.loadGroupOr404 groupId
  return { s with
    groups := s.groups.filter (·.id ≠ groupId)
    members := s.members.filter (·.groupId ≠ groupId)
    grants := s.grants.filter (·.groupId ≠ groupId) }.writeAudit actor none (.groupDeleted groupId group.name)

def isMember (groupId userId : ℕ) : Bool := s.members.any (·.of groupId userId)

/-- `list(dict.fromkeys(ids))`. -/
def dedupe : List ℕ → List ℕ
  | [] => []
  | id :: ids => id :: (dedupe ids).filter (· ≠ id)

/-- The state, and the ids that are added and that were members already. -/
def addMembers (actor groupId : ℕ) (userIds : List ℕ) : Except ApiError (St × List ℕ × List ℕ) :=
  if 1 ≤ userIds.length ∧ userIds.length ≤ 256 then do
    let _ ← s.loadGroupOr404 groupId
    let requested := dedupe userIds
    let missing := requested.filter (· ∉ s.users)
    if missing ≠ [] then
      .error ⟨404, "USER_NOT_FOUND",
        "User(s) not found: " ++ String.intercalate ", " ((missing.take 5).map toString)⟩
    else
      let already := requested.filter (s.isMember groupId ·)
      let added := requested.filter (!s.isMember groupId ·)
      let s₁ := { s with members := added.map (⟨groupId, ·, some actor, .manual⟩) ++ s.members }
      return (if added = [] then s₁ else s₁.writeAudit actor none (.groupMemberAdded groupId added), added, already)
  else .error invalid

def removeMember (actor groupId userId : ℕ) : Except ApiError St := do
  let _ ← s.loadGroupOr404 groupId
  if s.isMember groupId userId then
    return { s with members := s.members.filter (!·.of groupId userId) }.writeAudit
      actor (some userId) (.groupMemberRemoved groupId)
  else .error ⟨404, "NOT_FOUND", "Member not found in group"⟩

/-- A repository that is being deleted is not found. -/
def resource? (kind : Resource) (resourceId : ℕ) : Bool :=
  match kind with
  | .repository => s.repositories.any fun r => r.1 = resourceId ∧ r.2 = none
  | .collection => resourceId ∈ s.collections

def grant? (kind : Resource) (groupId resourceId : ℕ) : Option Grant :=
  s.grants.find? (·.on kind groupId resourceId)

def notFound (what : String) : ApiError := ⟨404, "NOT_FOUND", what ++ " not found"⟩

def putGrant (actor : ℕ) (kind : Resource) (name : String) (groupId resourceId : ℕ) (level : GrantLevel) :
    Except ApiError St := do
  let _ ← s.loadGroupOr404 groupId
  if s.resource? kind resourceId then
    let grant : Grant := ⟨kind, groupId, resourceId, level, some actor⟩
    match s.grant? kind groupId resourceId with
    | none =>
      return { s with grants := grant :: s.grants }.writeAudit actor none (.grantAdded kind groupId resourceId level)
    | some old =>
      let grants := s.grants.map fun g => if g.on kind groupId resourceId then grant else g
      return { s with grants := grants }.writeAudit actor none (.grantUpdated kind groupId resourceId level old.level)
  else .error (notFound name)

def putRepositoryGrant (actor groupId repositoryId : ℕ) (level : GrantLevel) : Except ApiError St :=
  s.putGrant actor .repository "Repository" groupId repositoryId level

def putCollectionGrant (actor groupId collectionId : ℕ) (level : GrantLevel) : Except ApiError St :=
  s.putGrant actor .collection "Collection" groupId collectionId level

def deleteGrant (actor : ℕ) (kind : Resource) (name : String) (groupId resourceId : ℕ) : Except ApiError St := do
  let _ ← s.loadGroupOr404 groupId
  match s.grant? kind groupId resourceId with
  | none => .error (notFound name)
  | some old =>
    return { s with grants := s.grants.filter (!·.on kind groupId resourceId) }.writeAudit
      actor none (.grantRemoved kind groupId resourceId old.level)

def deleteRepositoryGrant (actor groupId repositoryId : ℕ) : Except ApiError St :=
  s.deleteGrant actor .repository "Repository grant" groupId repositoryId

def deleteCollectionGrant (actor groupId collectionId : ℕ) : Except ApiError St :=
  s.deleteGrant actor .collection "Collection grant" groupId collectionId

/-! ## Permission checks -/

def rank : GrantLevel → ℕ
  | .read => 1
  | .write => 2

/-- The best rank of the user's grants on the row is high enough. -/
def granted (userId : ℕ) (kind : Resource) (resourceId : ℕ) (required : GrantLevel) : Bool :=
  let ranks := s.grants.flatMap fun g =>
    (s.members.filter fun m =>
      m.groupId = g.groupId ∧ m.userId = userId ∧ g.kind = kind ∧ g.resourceId = resourceId).map fun _ => rank g.level
  match ranks.max? with
  | none => false
  | some best => rank required ≤ best

def hasRepositoryPermission (user : Option Scim.User) (repositoryId : ℕ) (required : GrantLevel) : Bool :=
  match user with
  | none => false
  | some user => if Scim.isAdminRole user.role then true else s.granted user.id .repository repositoryId required

/-! ## Sign-in -/

/-- `sync_oidc_group_memberships`: the state and the groups the user is added to. -/
def syncOidcGroupMemberships (userId providerId : ℕ) (claimGroups : List Str) : St × List ℕ :=
  let matched := (s.groups.filter fun g =>
    g.mapping.any fun m => m.1 = providerId ∧ m.2 ≠ [] ∧ m.2 ∈ claimGroups).map (·.id)
  let inserted := matched.filter (!s.isMember · userId)
  ({ s with members := inserted.map (⟨·, userId, none, .oidc⟩) ++ s.members }, inserted)

/-! ## What happens to the rows that are referred to -/

/-- `ON DELETE SET NULL`. -/
def forget (userId : ℕ) (column : Option ℕ) : Option ℕ := if column = some userId then none else column

def deleteUser (actor userId : ℕ) : St :=
  let s := s.writeAudit actor (some userId) .userDeleted
  { s with
    users := s.users.filter (· ≠ userId)
    groups := s.groups.map fun g => { g with createdBy := forget userId g.createdBy }
    members := (s.members.filter (·.userId ≠ userId)).map fun m => { m with addedBy := forget userId m.addedBy }
    grants := s.grants.map fun g => { g with grantedBy := forget userId g.grantedBy }
    audits := s.audits.map fun e =>
      { e with actorUserId := forget userId e.actorUserId, targetUserId := forget userId e.targetUserId } }

/-- Setting half of a mapping null breaks its constraint: a provider stays as
long as a group is mapped to it. -/
def deleteProvider (actor providerId : ℕ) : Option St :=
  if s.groups.any fun g => g.mapping.any (·.1 = providerId) then none
  else some ({ s with providers := s.providers.filter (· ≠ providerId) }.writeAudit actor none .oidcProviderDeleted)

def dropGrants (kind : Resource) (resourceId : ℕ) : List Grant :=
  s.grants.filter fun g => ¬(g.kind = kind ∧ g.resourceId = resourceId)

end St

/-- The requests of signed-in administrators, and those that touch the rows they
refer to. A request that is refused changes nothing. -/
def next (s : St) (a : Act) : Option St :=
  let byActor (actor : ℕ) (r : Except ApiError St) : Option St := if actor ∈ s.users then r.toOption else none
  match a with
  | .createGroup actor payload => byActor actor (s.createGroup actor payload)
  | .updateGroup actor groupId payload => byActor actor (s.updateGroup actor groupId payload)
  | .deleteGroup actor groupId => byActor actor (s.deleteGroup actor groupId)
  | .addMembers actor groupId userIds => byActor actor ((s.addMembers actor groupId userIds).map (·.1))
  | .removeMember actor groupId userId => byActor actor (s.removeMember actor groupId userId)
  | .putGrant actor .repository groupId id level => byActor actor (s.putRepositoryGrant actor groupId id level)
  | .putGrant actor .collection groupId id level => byActor actor (s.putCollectionGrant actor groupId id level)
  | .deleteGrant actor .repository groupId id => byActor actor (s.deleteRepositoryGrant actor groupId id)
  | .deleteGrant actor .collection groupId id => byActor actor (s.deleteCollectionGrant actor groupId id)
  | .signIn userId providerId claimGroups =>
    if userId ∈ s.users ∧ providerId ∈ s.providers then
      some (s.syncOidcGroupMemberships userId providerId claimGroups).1
    else none
  | .createUser => some { s with nextId := s.nextId + 1, users := s.nextId :: s.users }
  | .deleteUser actor userId =>
    if actor ∈ s.users ∧ userId ∈ s.users ∧ userId ≠ actor then some (s.deleteUser actor userId) else none
  | .createProvider => some { s with nextId := s.nextId + 1, providers := s.nextId :: s.providers }
  | .deleteProvider actor providerId =>
    if actor ∈ s.users ∧ providerId ∈ s.providers then s.deleteProvider actor providerId else none
  | .createRepository => some { s with nextId := s.nextId + 1, repositories := (s.nextId, none) :: s.repositories }
  | .deleteRepository id now =>
    some { s with repositories := s.repositories.map fun r => if r.1 = id then (id, some now) else r }
  | .purgeRepository id =>
    some { s with repositories := s.repositories.filter (·.1 ≠ id), grants := s.dropGrants .repository id }
  | .createCollection => some { s with nextId := s.nextId + 1, collections := s.nextId :: s.collections }
  | .deleteCollection id =>
    some { s with collections := s.collections.filter (· ≠ id), grants := s.dropGrants .collection id }

/-- An instance without groups. -/
structure Init (s : St) : Prop where
  users : ∀ u ∈ s.users, u < s.nextId
  repositories : ∀ r ∈ s.repositories, r.1 < s.nextId
  collections : ∀ c ∈ s.collections, c < s.nextId
  groups : s.groups = []
  members : s.members = []
  grants : s.grants = []
  audits : s.audits = []

end Cograph.Groups
