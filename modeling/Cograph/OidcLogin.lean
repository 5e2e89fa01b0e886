import Cograph.Oidc

/-!
# Signing in through an identity provider

`api/auth_oidc.py` and the checks of `verify_id_token`: a login or a link stores
a row with the hash of a fresh state, a code verifier and a nonce; the callback
looks the row up, exchanges the code over the network, verifies the ID token and
signs the user in. A callback reads the row at once but writes `consumed_at`
only in its last commit, so callbacks run interleaved. What the provider answers
and which random values are drawn is left to the environment. A request that
meets any other exception is rolled back.
-/

namespace Cograph.OidcLogin

open Admins (ApiError)
open Oidc (IdTokenClaims Failure)

/-! ## Rows -/

structure IdentityProvider where
  slug : Str
  enabled : Bool
  groupsClaim : Option Str
  policy : Oidc.IdentityProvider
  deriving DecidableEq, Repr

/-- A row of `oidc_login_states`. -/
structure OIDCLoginState (H : Type) where
  stateHash : H
  providerId : ℕ
  codeVerifier : Str
  nonce : Str
  returnTo : Str
  initiatedUserId : Option ℕ
  expiresAt : ℕ
  consumedAt : Option ℕ
  deriving DecidableEq

/-- The two ways an actor proves who he is. -/
inductive Method where
  | session
  | pat
  deriving DecidableEq, Repr

/-! ## The ID token -/

/-- A claim that lists groups. -/
inductive GroupsValue where
  | list (groups : List Str)
  | str (group : Str)
  | other
  deriving DecidableEq, Repr

/-- The payload of an ID token with a valid signature, audience, issuer and
date. -/
structure Payload where
  nonce : Option Str
  sub : Option Str
  email : Option Str
  emailVerified : Bool
  name : Option Str
  claims : List (Str × GroupsValue)
  deriving DecidableEq, Repr

def Payload.groups (payload : Payload) (groupsClaim : Option Str) : List Str :=
  match groupsClaim with
  | none | some [] => []
  | some claim =>
    match payload.claims.lookup claim with
    | some (.list groups) => groups
    | some (.str group) => [group]
    | some .other | none => []

/-- `verify_id_token`, once the token is decoded. -/
def verifyIdToken (payload : Payload) (nonce : Str) (groupsClaim : Option Str) : Except ApiError IdTokenClaims :=
  if payload.nonce ≠ some nonce then
    .error ⟨401, "OIDC_NONCE_MISMATCH", "ID token nonce does not match the one we issued"⟩
  else
    match payload.sub with
    | none | some [] => .error ⟨401, "OIDC_ID_TOKEN_INVALID", "ID token is missing the `sub` claim"⟩
    | some sub => .ok ⟨sub, payload.email, payload.emailVerified, payload.name, payload.groups groupsClaim⟩

/-! ## Requests -/

/-- A callback at each of its await points. -/
inductive Callback (H : Type) where
  | idle
  /-- The state is read, with `consumed_at` set in the session. -/
  | consumed (provider : IdentityProvider) (row : OIDCLoginState H) (code : Str)
  | verified (provider : IdentityProvider) (row : OIDCLoginState H) (claims : IdTokenClaims)
  | signedIn (userId : ℕ)
  /-- The browser is sent back to the login page. -/
  | redirected (error : ApiError)
  | refused (error : ApiError)
  | raised
  deriving DecidableEq

structure St (H : Type) where
  clock : ℕ
  providers : List IdentityProvider
  rows : List (OIDCLoginState H)
  db : Oidc.Db
  /-- The user of each refresh token family. -/
  families : List ℕ
  callbacks : ℕ → Callback H

inductive Act where
  | wait (d : ℕ)
  /-- Administration adds, changes or removes a provider. -/
  | setProviders (providers : List IdentityProvider)
  | login (slug state codeVerifier nonce returnTo : Str)
  | linkStart (userId : ℕ) (method : Method) (slug state codeVerifier nonce : Str)
  | callback (i : ℕ) (slug code state : Str)
  /-- What the token endpoint and the decoding of the token come to. -/
  | exchange (i : ℕ) (answer : Except ApiError Payload)
  | finish (i : ℕ)
  | raise (i : ℕ)
  | pruneExpiredStates
  /-- Another request changes accounts. -/
  | account (a : Oidc.Action)
  | deleteUser (userId : ℕ)

section
variable {H : Type} [DecidableEq H] (hash : Str → H) (lower : Str → Str) (ttl : ℕ)

namespace St

variable (s : St H)

def goto (i : ℕ) (c : Callback H) : St H := { s with callbacks := Function.update s.callbacks i c }

def loadProvider (slug : Str) : Except ApiError IdentityProvider :=
  match s.providers.find? (·.slug = slug) with
  | none => .error ⟨404, "IDP_NOT_FOUND", "Identity provider not found"⟩
  | some provider =>
    if provider.enabled then .ok provider else .error ⟨410, "IDP_DISABLED", "Identity provider is disabled"⟩

/-- The row is written unless its key is taken. -/
def addRow (row : OIDCLoginState H) : Option (St H) :=
  if s.rows.any (·.stateHash = row.stateHash) then none else some { s with rows := row :: s.rows }

def login (slug state codeVerifier nonce returnTo : Str) : Option (St H) :=
  match s.loadProvider slug with
  | .error _ => none
  | .ok provider =>
    s.addRow ⟨hash state, provider.policy.id, codeVerifier, nonce, returnTo, none, s.clock + ttl, none⟩

def linkStart (userId : ℕ) (method : Method) (slug state codeVerifier nonce : Str) : Option (St H) :=
  if method = .pat then none
  else
    match s.loadProvider slug with
    | .error _ => none
    | .ok provider =>
      s.addRow ⟨hash state, provider.policy.id, codeVerifier, nonce, "/account/identities".toList, some userId,
        s.clock + ttl, none⟩

/-- `_consume_state`. -/
def consumeState (state : Str) (expectedProviderId : ℕ) : Except ApiError (OIDCLoginState H) :=
  match s.rows.find? (·.stateHash = hash state) with
  | none => .error ⟨400, "OIDC_STATE_UNKNOWN", "Login state not recognised"⟩
  | some row =>
    if row.providerId ≠ expectedProviderId then
      .error ⟨400, "OIDC_STATE_PROVIDER_MISMATCH", "State / provider mismatch"⟩
    else if row.consumedAt ≠ none then .error ⟨400, "OIDC_STATE_CONSUMED", "Login state already used"⟩
    else if row.expiresAt < s.clock then .error ⟨400, "OIDC_STATE_EXPIRED", "Login state expired"⟩
    else .ok { row with consumedAt := some s.clock }

def callback (i : ℕ) (slug code state : Str) : Option (St H) :=
  if s.callbacks i = .idle then
    match s.loadProvider slug with
    | .error e => some (s.goto i (.refused e))
    | .ok provider =>
      match s.consumeState hash state provider.policy.id with
      | .error e => some (s.goto i (.refused e))
      | .ok row => some (s.goto i (.consumed provider row code))
  else none

/-- The commit of `consumed_at`, which fails where the row is gone. -/
def commitRow (row : OIDCLoginState H) : Option (St H) :=
  if s.rows.any (·.stateHash = row.stateHash) then
    some { s with
      rows := s.rows.map fun q => if q.stateHash = row.stateHash then { q with consumedAt := row.consumedAt } else q }
  else none

/-- A callback that ends in an error still keeps its state consumed. -/
def fail (i : ℕ) (row : OIDCLoginState H) (e : ApiError) : St H :=
  match s.commitRow row with
  | some s' => s'.goto i (.redirected e)
  | none => s.goto i .raised

/-- `_exchange_and_verify`. -/
def exchange (i : ℕ) (answer : Except ApiError Payload) : Option (St H) :=
  match s.callbacks i with
  | .consumed provider row _ =>
    match answer with
    | .error e => some (s.fail i row e)
    | .ok payload =>
      match verifyIdToken payload row.nonce provider.groupsClaim with
      | .error e => some (s.fail i row e)
      | .ok claims => some (s.goto i (.verified provider row claims))
  | _ => none

/-- The account of the callback, and the tables with it. -/
def account (provider : IdentityProvider) (row : OIDCLoginState H) (claims : IdTokenClaims) :
    Except Failure (ℕ × Oidc.Db) :=
  match row.initiatedUserId with
  | some userId =>
    match Oidc.linkExistingUser s.db userId provider.policy claims s.clock with
    | .error e => .error (.api e)
    | .ok (_, db) => .ok (userId, db)
  | none =>
    match Oidc.findOrCreateUser lower s.db provider.policy claims s.clock with
    | .error e => .error e
    | .ok (user, db) => .ok (user.id, db)

/-- The rest of `_handle_callback`, in one transaction. -/
def finish (i : ℕ) : Option (St H) :=
  match s.callbacks i with
  | .verified provider row claims =>
    match s.account lower provider row claims with
    | .error (.api e) => some (s.fail i row e)
    | .error _ => some (s.goto i .raised)
    | .ok (userId, db) =>
      match s.commitRow row with
      | none => some (s.goto i .raised)
      | some s' =>
        some ({ s' with
          db := db.writeAudit ⟨some userId, userId, "oidc_login"⟩
          families := userId :: s.families }.goto i (.signedIn userId))
  | _ => none

def raise (i : ℕ) : Option (St H) :=
  match s.callbacks i with
  | .consumed .. | .verified .. => some (s.goto i .raised)
  | _ => none

def pruneExpiredStates : St H := { s with rows := s.rows.filter fun row => ¬row.expiresAt < s.clock }

/-- The rows of a provider go with it. -/
def setProviders (providers : List IdentityProvider) : St H :=
  { s with
    providers := providers
    rows := s.rows.filter fun row => providers.any (·.policy.id = row.providerId) }

/-- A link that a deleted user started is left without a user. -/
def deleteUser (userId : ℕ) : St H :=
  { s with
    db := { s.db with
      users := s.db.users.filter (·.id ≠ userId)
      identities := s.db.identities.filter (·.userId ≠ userId)
      members := s.db.members.filter (·.userId ≠ userId) }
    families := s.families.filter (· ≠ userId)
    rows := s.rows.map fun row =>
      if row.initiatedUserId = some userId then { row with initiatedUserId := none } else row }

end St

def next (s : St H) : Act → Option (St H)
  | .wait d => some { s with clock := s.clock + d }
  | .setProviders providers => some (s.setProviders providers)
  | .login slug state codeVerifier nonce returnTo => s.login hash ttl slug state codeVerifier nonce returnTo
  | .linkStart userId method slug state codeVerifier nonce =>
    s.linkStart hash ttl userId method slug state codeVerifier nonce
  | .callback i slug code state => s.callback hash i slug code state
  | .exchange i answer => s.exchange i answer
  | .finish i => s.finish lower i
  | .raise i => s.raise i
  | .pruneExpiredStates => some s.pruneExpiredStates
  | .account a => (Oidc.next lower s.db a).map fun db => { s with db := db }
  | .deleteUser userId => some (s.deleteUser userId)

end

structure Init {H : Type} (s : St H) : Prop where
  rows : s.rows = []
  callbacks : ∀ i, s.callbacks i = .idle

end Cograph.OidcLogin
