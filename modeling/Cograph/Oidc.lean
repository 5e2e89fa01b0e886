import Cograph.Admins
import Cograph.Strs

/-!
# Sign-in through an identity provider

`auth/oidc_provisioning.py`: the account that the claims of an ID token stand
for, found, linked or created, and the link a signed-in user asks for. The
session commits at the end of a request, and a request that raised leaves the
rows as they were. Accounts are otherwise created and edited by administrators,
SCIM and the bootstrap, in any way that keeps addresses unique.
-/

namespace Cograph.Oidc

open Scim (UserRole)
open Admins (ApiError)

/-! ## Tables -/

inductive AuthSource where
  | password
  | oidc
  deriving DecidableEq, Repr

structure User where
  id : Nat
  email : Str
  passwordHash : Option Str
  name : Option Str
  role : UserRole
  isActive : Bool
  authSource : AuthSource
  deriving DecidableEq, Repr

/-- `email` is a `String(320)`, `name` a `String(255)`. -/
def User.columnsFit (u : User) : Bool := u.email.length ≤ 320 ∧ u.name.all (·.length ≤ 255)

structure UserIdentity where
  userId : Nat
  providerId : Nat
  subject : Str
  emailAtLink : Option Str
  lastLoginAt : Option Nat
  deriving DecidableEq, Repr

structure Group where
  id : Nat
  oidcProviderId : Option Nat
  oidcGroupName : Option Str
  deriving DecidableEq, Repr

structure GroupMember where
  groupId : Nat
  userId : Nat
  deriving DecidableEq, Repr

structure AuditEvent where
  actorUserId : Option Nat
  targetUserId : Nat
  eventType : String
  deriving DecidableEq, Repr

inductive AdminGroupMode where
  | ignore
  | ownerApproval
  | ownerDelegated
  deriving DecidableEq, Repr

structure IdentityProvider where
  id : Nat
  domainAllowlist : Option (List Str)
  autoProvision : Bool
  autoLinkOnVerifiedEmail : Bool
  adminGroupMode : AdminGroupMode
  adminGroups : Option (List Str)
  deriving DecidableEq, Repr

structure IdTokenClaims where
  sub : Str
  email : Option Str
  emailVerified : Bool
  name : Option Str
  groups : List Str
  deriving DecidableEq, Repr

structure Db where
  users : List User
  identities : List UserIdentity
  groups : List Group
  members : List GroupMember
  audits : List AuditEvent
  nextId : Nat
  deriving DecidableEq, Repr

namespace Db

def init (groups : List Group) : Db := ⟨[], [], groups, [], [], 0⟩

def user? (s : Db) (id : Nat) : Option User := s.users.find? (·.id = id)

/-- `select(User).where(User.email == email)`, for an address that is not
empty. -/
def userByEmail (s : Db) (email : Option Str) : Option User :=
  match email with
  | none | some [] => none
  | some e => s.users.find? (·.email = e)

def identity? (s : Db) (providerId : Nat) (subject : Str) : Option UserIdentity :=
  s.identities.find? fun i => i.providerId = providerId ∧ i.subject = subject

def setUser (s : Db) (user : User) : Db :=
  { s with users := s.users.map fun v => if v.id = user.id then user else v }

/-- `identity.last_login_at = now`. -/
def touch (s : Db) (identity : UserIdentity) (now : Nat) : Db :=
  { s with identities := s.identities.map fun i => if i = identity then { i with lastLoginAt := some now } else i }

def addIdentity (s : Db) (identity : UserIdentity) : Db := { s with identities := identity :: s.identities }

def addUser (s : Db) (user : User) : Db := { s with users := user :: s.users, nextId := s.nextId + 1 }

def writeAudit (s : Db) (event : AuditEvent) : Db := { s with audits := event :: s.audits }

end Db

/-- `sync_oidc_group_memberships`. -/
def syncGroupMemberships (s : Db) (userId : Nat) (provider : IdentityProvider) (claimGroups : List Str) : Db :=
  let matched := s.groups.filter fun g =>
    g.oidcProviderId = some provider.id ∧ g.oidcGroupName.any fun name => name ≠ [] ∧ name ∈ claimGroups
  let inserted := matched.filter fun g => !s.members.any fun m => m.groupId = g.id ∧ m.userId = userId
  { s with members := inserted.map (fun g => ⟨g.id, userId⟩) ++ s.members }

/-! ## Trust in an address -/

section
variable (lower : Str → Str)

def emailDomain (email : Option Str) : Option Str :=
  match email with
  | none => none
  | some e => if '@' ∈ e then some (lower (e.reverse.takeWhile (· ≠ '@')).reverse) else none

def allowlist (provider : IdentityProvider) : List Str := (provider.domainAllowlist.getD []).map lower

def emailIsTrusted (provider : IdentityProvider) (claims : IdTokenClaims) : Bool :=
  match claims.email with
  | none | some [] => false
  | some e =>
    if claims.emailVerified then true
    else if allowlist lower provider = [] then false
    else (emailDomain lower (some e)).any (· ∈ allowlist lower provider)

def canAutoLink (provider : IdentityProvider) (claims : IdTokenClaims) : Bool :=
  if provider.autoLinkOnVerifiedEmail = false then false
  else if emailIsTrusted lower provider claims = false then false
  else if allowlist lower provider = [] then true
  else (emailDomain lower claims.email).any (· ∈ allowlist lower provider)

end

def resolveInitialRole (provider : IdentityProvider) (claims : IdTokenClaims) : UserRole :=
  if provider.adminGroupMode ≠ .ownerDelegated then .user
  else
    match provider.adminGroups with
    | none => .user
    | some adminGroups => if claims.groups.any (· ∈ adminGroups) then .admin else .user

/-! ## Sign-in -/

/-- What a sign-in raises. A linked account whose row is missing is read as
`None`, and the database refuses an address or a name longer than its column. -/
inductive Failure where
  | api (error : ApiError)
  | attributeError
  | dataError
  deriving DecidableEq, Repr

/-- The sign-in of a linked subject. -/
def signIn (s : Db) (identity : UserIdentity) (provider : IdentityProvider) (claims : IdTokenClaims) (now : Nat) :
    Except Failure (User × Db) :=
  match s.user? identity.userId with
  | none => .error .attributeError
  | some user =>
    if user.isActive = false then
      .error (.api ⟨403, "ACCOUNT_DISABLED", "Account is disabled. Contact an administrator."⟩)
    else .ok (user, syncGroupMemberships (s.touch identity now) user.id provider claims.groups)

/-- `_auto_link_existing_user`, with the group sync after it. -/
def autoLinkExistingUser (s : Db) (user : User) (provider : IdentityProvider) (claims : IdTokenClaims) (now : Nat) :
    Except Failure (User × Db) :=
  if user.isActive = false then
    .error (.api ⟨403, "ACCOUNT_DISABLED", "Account is disabled. Contact an administrator."⟩)
  else
    let linked := { user with passwordHash := none, authSource := .oidc }
    let s := ((s.setUser linked).addIdentity ⟨user.id, provider.id, claims.sub, claims.email, some now⟩).writeAudit
      ⟨none, user.id, "user_identity_auto_linked"⟩
    .ok (linked, syncGroupMemberships s user.id provider claims.groups)

/-- The new account of a subject, once the gates let it through. -/
def createUser (s : Db) (email : Str) (provider : IdentityProvider) (claims : IdTokenClaims) (now : Nat) :
    Except Failure (User × Db) :=
  let user : User :=
    ⟨s.nextId, email, none, claims.name, resolveInitialRole provider claims, true, .oidc⟩
  if user.columnsFit = false then .error .dataError
  else
    let s := ((s.addUser user).addIdentity ⟨user.id, provider.id, claims.sub, claims.email, some now⟩).writeAudit
      ⟨none, user.id, "user_provisioned_oidc"⟩
    .ok (user, syncGroupMemberships s user.id provider claims.groups)

section
variable (lower : Str → Str)

/-- The gates of auto-provisioning, in their order. -/
def provision (s : Db) (provider : IdentityProvider) (claims : IdTokenClaims) (now : Nat) :
    Except Failure (User × Db) :=
  if provider.autoProvision = false then
    .error (.api ⟨403, "OIDC_AUTO_PROVISION_DISABLED",
      "This identity provider does not auto-create accounts. Ask an administrator to add you first."⟩)
  else
    match claims.email with
    | none | some [] =>
      .error (.api ⟨400, "OIDC_EMAIL_MISSING", "Identity provider did not return an email claim"⟩)
    | some email =>
      if emailIsTrusted lower provider claims = false then
        .error (.api ⟨403, "OIDC_EMAIL_UNVERIFIED", "Identity provider has not verified this email"⟩)
      else if allowlist lower provider ≠ [] ∧
          (emailDomain lower claims.email).all (· ∉ allowlist lower provider) then
        .error (.api ⟨403, "OIDC_DOMAIN_NOT_ALLOWED", "Email domain is not permitted for this identity provider"⟩)
      else createUser s email provider claims now

def findOrCreateUser (s : Db) (provider : IdentityProvider) (claims : IdTokenClaims) (now : Nat) :
    Except Failure (User × Db) :=
  match s.identity? provider.id claims.sub with
  | some identity => signIn s identity provider claims now
  | none =>
    match s.userByEmail claims.email with
    | some user =>
      if canAutoLink lower provider claims then autoLinkExistingUser s user provider claims now
      else
        .error (.api ⟨409, "OIDC_LINK_REQUIRED",
          "An account with this email already exists. Sign in with your password and link this provider from your account settings."⟩)
    | none => provision lower s provider claims now

end

/-! ## The explicit link -/

/-- The last part of `link_existing_user`, for a subject that no other account
holds. -/
def linkOwn (s : Db) (user : User) (provider : IdentityProvider) (claims : IdTokenClaims) (now : Nat) :
    UserIdentity × Db :=
  match s.identities.find? fun i => i.providerId = provider.id ∧ i.subject = claims.sub ∧ i.userId = user.id with
  | some identity => ({ identity with lastLoginAt := some now }, s.touch identity now)
  | none =>
    let identity : UserIdentity := ⟨user.id, provider.id, claims.sub, claims.email, some now⟩
    (identity, (s.addIdentity identity).writeAudit ⟨some user.id, user.id, "user_identity_linked"⟩)

def linkExistingUser (s : Db) (userId : Nat) (provider : IdentityProvider) (claims : IdTokenClaims) (now : Nat) :
    Except ApiError (UserIdentity × Db) :=
  match s.user? userId with
  | none => .error ⟨404, "NOT_FOUND", "User not found"⟩
  | some user =>
    if user.isActive = false then .error ⟨403, "ACCOUNT_DISABLED", "Account is disabled"⟩
    else if (s.userByEmail claims.email).any (·.id ≠ user.id) then
      .error ⟨409, "OIDC_LINK_EMAIL_BELONGS_TO_OTHER",
        "Identity provider returned an email that belongs to a different Cograph account."⟩
    else if s.identities.any fun i => i.providerId = provider.id ∧ i.subject = claims.sub ∧ i.userId ≠ user.id then
      .error ⟨409, "OIDC_LINK_TAKEN", "This identity is already linked to a different account."⟩
    else .ok (linkOwn s user provider claims now)

/-! ## Runs -/

inductive Action where
  | login (provider : IdentityProvider) (claims : IdTokenClaims) (now : Nat)
  | link (userId : Nat) (provider : IdentityProvider) (claims : IdTokenClaims) (now : Nat)
  | create (email : Str) (passwordHash name : Option Str) (role : UserRole) (isActive : Bool) (authSource : AuthSource)
  /-- What administration and SCIM set on an account. -/
  | edit (userId : Nat) (email : Str) (name : Option Str) (role : UserRole) (isActive : Bool)
  deriving DecidableEq, Repr

section
variable (lower : Str → Str)

/-- One request. An account whose address is taken or whose columns do not fit
is not written. -/
def next (s : Db) : Action → Option Db
  | .login provider claims now =>
    match findOrCreateUser lower s provider claims now with
    | .ok (_, s') => some s'
    | .error _ => some s
  | .link userId provider claims now =>
    match linkExistingUser s userId provider claims now with
    | .ok (_, s') => some s'
    | .error _ => some s
  | .create email passwordHash name role isActive authSource =>
    let user : User := ⟨s.nextId, email, passwordHash, name, role, isActive, authSource⟩
    if s.users.any (·.email = email) ∨ user.columnsFit = false then none else some (s.addUser user)
  | .edit userId email name role isActive =>
    match s.user? userId with
    | none => none
    | some user =>
      let edited : User := { user with email := email, name := name, role := role, isActive := isActive }
      if (s.users.any fun v => v.email = email ∧ v.id ≠ userId) ∨ edited.columnsFit = false then none
      else some (s.setUser edited)

end

end Cograph.Oidc
