import Cograph.Strs

/-!
# Who gets through the gates

The dependencies of `core/deps.py`, the wrapper of `mcp/auth.py`, and
`create_token`, `decode_token` and `extract_access_token` of `core/auth.py`, with
the routes that give out and take back what they ask for: sign-in, refresh and
logout, and the personal access tokens of `api/personal_access_tokens.py`. A
request is one step. The signature of a token is checked by `verify`, which gives
its payload.
-/

namespace Cograph.Gateway

/-! ## Tables -/

inductive UserRole where
  | owner
  | admin
  | user
  deriving DecidableEq, Repr

def UserRole.isAdmin : UserRole → Bool
  | .owner | .admin => true
  | .user => false

structure User where
  id : ℕ
  role : UserRole
  isActive : Bool
  deriving DecidableEq

structure PersonalAccessToken (Digest : Type) where
  id : ℕ
  userId : ℕ
  name : Str
  tokenHash : Digest
  tokenPrefix : Str
  scopes : List Str
  expiresAt : Option ℕ
  revokedAt : Option ℕ
  revokedReason : Option Str
  lastUsedAt : Option ℕ
  lastUsedIp : Option Str
  deriving DecidableEq

structure RefreshTokenFamily where
  family : ℕ
  userId : ℕ
  currentJti : ℕ
  revokedAt : Option ℕ
  deriving DecidableEq

/-! ## Signed tokens -/

inductive TokenType where
  | access
  | refresh
  deriving DecidableEq, Repr

/-- An entry of a payload, whose text may be none of its type. -/
inductive Claim (α : Type) where
  | missing
  | malformed
  | value (a : α)
  deriving DecidableEq

structure Payload where
  sub : Claim ℕ
  role : Claim UserRole
  typ : Claim TokenType
  csrf : Option Str
  jti : Claim ℕ
  family : Claim ℕ
  iat : Option ℕ
  exp : Option ℕ
  deriving DecidableEq

structure TokenClaims where
  userId : ℕ
  role : UserRole
  tokenType : TokenType
  csrf : Option Str
  jti : ℕ
  family : Option ℕ
  deriving DecidableEq

/-- `validation` has the fields with what is wrong with each. -/
inductive Failure where
  | api (status : ℕ) (code message : Str)
  | validation (fieldErrors : List (Str × Str))
  deriving DecidableEq

def Failure.status : Failure → ℕ
  | .api status _ _ => status
  | .validation _ => 422

def unauthenticated : Failure := .api 401 "UNAUTHENTICATED".toList "Authentication required".toList

def tokenExpired : Failure := .api 401 "TOKEN_EXPIRED".toList "Access token expired".toList

def accountDisabled : Failure := .api 401 "UNAUTHENTICATED".toList "Account is disabled".toList

def forbidden : Failure := .api 403 "FORBIDDEN".toList "Administrator access required".toList

def insufficientScope (scope : Str) : Failure :=
  .api 403 "INSUFFICIENT_SCOPE".toList ("Token is missing required scope: ".toList ++ scope)

def csrfMissing : Failure := .api 403 "CSRF_INVALID".toList "X-CSRF-Token header is required".toList

def csrfMismatch : Failure := .api 403 "CSRF_INVALID".toList "CSRF token mismatch".toList

def mcpTokenMissing : Failure :=
  .api 401 "MCP_TOKEN_MISSING".toList "Authorization: Bearer <token> is required for /mcp".toList

def mcpTokenFormat : Failure := .api 401 "MCP_TOKEN_INVALID".toList "MCP token format is invalid".toList

def mcpTokenUnknown : Failure := .api 401 "MCP_TOKEN_INVALID".toList "MCP token is not recognized".toList

def validationFailed (message : Str) : Failure := .api 422 "VALIDATION_FAILED".toList message

def selfMint : Failure :=
  .api 403 "FORBIDDEN_PAT_SELF_MINT".toList
    ("Personal access tokens cannot mint other tokens. ".toList ++
      "Sign in with your account to manage tokens.".toList)

def tokenNotFound : Failure := .api 404 "NOT_FOUND".toList "Token not found".toList

def userNotFound : Failure := .api 404 "NOT_FOUND".toList "User not found".toList

def alreadyRevoked : Failure :=
  .api 409 "TOKEN_ALREADY_REVOKED".toList "This token has been revoked; mint a new one instead.".toList

def refreshInvalid : Failure := .api 401 "REFRESH_INVALID".toList "Refresh token missing or invalid".toList

/-- What an exception that nothing catches is answered with. -/
def internalError : Failure := .api 500 "INTERNAL".toList "Unexpected server error".toList

/-! ## Requests -/

/-- The names of the headers are in lower case, as ASGI has them. -/
structure Request where
  method : Str
  headers : List (Str × Str)
  /-- The access cookie. -/
  cookie : Option Str
  client : Option Str
  deriving DecidableEq

def patPlaintextPrefix : Str := "cgr_pat_".toList

def Request.header (req : Request) (name : Str) : Option Str := (req.headers.find? (·.1 = name)).map (·.2)

def bearer : Str := "bearer ".toList

/-- What follows the scheme of a stripped header. -/
def afterBearer (value : Str) : Option Str :=
  let token := Str.strip (value.drop 7)
  if token = [] then none else some token

/-- `_extract_bearer` of `core/deps.py`. -/
def extractBearer (req : Request) : Option Str :=
  match req.header "authorization".toList with
  | none => none
  | some header =>
    let value := Str.strip header
    if bearer.isPrefixOf (Str.lower value) then afterBearer value else none

/-- `_extract_bearer` of `mcp/auth.py`, which goes on to further headers. -/
def extractBearerMcp (req : Request) : Option Str :=
  let values := (req.headers.filter (·.1 = "authorization".toList)).map (Str.strip ·.2)
  (values.find? fun value => bearer.isPrefixOf (Str.lower value)).bind afterBearer

/-- The bearer of a request that authenticates by a personal access token. -/
def patBearer (req : Request) : Option Str := (extractBearer req).filter patPlaintextPrefix.isPrefixOf

/-- The cookie comes before the header. -/
def extractAccessToken (req : Request) : Option Str :=
  match req.cookie.filter (· ≠ []) with
  | some cookie => some cookie
  | none =>
    (req.header "authorization".toList).bind fun header =>
      let scheme := header.takeWhile (· ≠ ' ')
      let token := (header.dropWhile (· ≠ ' ')).drop 1
      if Str.lower scheme ≠ "bearer".toList ∨ token = [] then none else some token

def requestClientIp (req : Request) : Option Str := req.client.filter (· ≠ [])

def upper (s : Str) : Str := s.map Char.toUpper

def safeMethods : List Str := ["GET".toList, "HEAD".toList, "OPTIONS".toList]

def mutatingMethods : List Str := ["POST".toList, "PUT".toList, "PATCH".toList, "DELETE".toList]

def apiRead : Str := "api:read".toList

def apiWrite : Str := "api:write".toList

def mcpScope : Str := "mcp".toList

def allScopes : List Str := [apiRead, apiWrite, mcpScope]

def requiredPatScopeForMethod (method : Str) : Str := if upper method ∈ safeMethods then apiRead else apiWrite

/-- `secrets.compare_digest`, which raises a `TypeError` on text that is not ASCII. -/
def compareDigest (a b : Str) : Except Failure Bool :=
  if (a ++ b).all (·.toNat < 128) then .ok (a = b) else .error internalError

inductive ActorMethod where
  | cookieJwt
  | bearerJwt
  | pat
  deriving DecidableEq, Repr

structure AuthenticatedActor where
  user : User
  method : ActorMethod
  scopes : List Str
  tokenId : Option ℕ
  deriving DecidableEq

/-! ## State -/

structure St (Digest : Type) where
  now : ℕ
  nextId : ℕ
  users : List User
  tokens : List (PersonalAccessToken Digest)
  families : List RefreshTokenFamily
  /-- What the application has signed. -/
  issued : List Payload
  deriving DecidableEq

/-- The seconds that tokens live. -/
structure Settings where
  accessTokenTtlSeconds : ℕ
  refreshTokenTtlSeconds : ℕ

def Settings.ttl (settings : Settings) : TokenType → ℕ
  | .access => settings.accessTokenTtlSeconds
  | .refresh => settings.refreshTokenTtlSeconds

def createToken (settings : Settings) (now userId : ℕ) (role : UserRole) (typ : TokenType) (csrf : Option Str)
    (family : Option ℕ) (jti : ℕ) : Payload :=
  ⟨.value userId, .value role, .value typ, csrf, .value jti, family.elim .missing .value, some now,
    some (now + settings.ttl typ)⟩

def patLastUsedRefreshSeconds : ℕ := 60

section
variable {Digest : Type} [DecidableEq Digest]
variable (sha256 : Str → Digest) (verify : Str → Option Payload) (settings : Settings)

/-- PyJWT looks at `iat` and then at `exp`. -/
def decodeToken (now : ℕ) (token : Str) (expectedType : TokenType) : Except Failure TokenClaims :=
  match verify token with
  | none => .error unauthenticated
  | some payload =>
    if payload.iat.any (now < ·) then .error unauthenticated
    else if payload.exp.any (· ≤ now) then .error tokenExpired
    else
      match payload.typ, payload.family, payload.sub, payload.role, payload.jti with
      | .value typ, family, .value userId, .value role, .value jti =>
        if typ ≠ expectedType then .error unauthenticated
        else
          match family with
          | .malformed => .error unauthenticated
          | .missing => .ok ⟨userId, role, typ, payload.csrf, jti, none⟩
          | .value family => .ok ⟨userId, role, typ, payload.csrf, jti, some family⟩
      | _, _, _, _, _ => .error unauthenticated

namespace St

variable (s : St Digest)

def user? (userId : ℕ) : Option User := s.users.find? (·.id = userId)

def token? (tokenId : ℕ) : Option (PersonalAccessToken Digest) := s.tokens.find? (·.id = tokenId)

def updateToken (tokenId : ℕ) (f : PersonalAccessToken Digest → PersonalAccessToken Digest) : St Digest :=
  { s with tokens := s.tokens.map fun row => if row.id = tokenId then f row else row }

/-! ## Gates -/

/-- The ledger of the last use, which need not commit. -/
def touch (row : PersonalAccessToken Digest) (clientIp : Option Str) (commits : Bool) : St Digest :=
  let needsRefresh := row.lastUsedAt.all fun lastUsed => patLastUsedRefreshSeconds ≤ s.now - lastUsed
  if needsRefresh ∧ commits then
    let ip := (clientIp.filter (· ≠ [])).map (·.take 64)
    s.updateToken row.id fun row => { row with lastUsedAt := some s.now, lastUsedIp := ip.or row.lastUsedIp }
  else s

/-- `_resolve_pat`. -/
def resolvePat (token : Str) (clientIp : Option Str) (commits : Bool) : Option AuthenticatedActor × St Digest :=
  if ¬ patPlaintextPrefix.isPrefixOf token then (none, s)
  else
    match s.tokens.find? (·.tokenHash = sha256 token) with
    | none => (none, s)
    | some row =>
      if row.revokedAt.isSome ∨ row.expiresAt.any (· < s.now) then (none, s)
      else
        match (s.user? row.userId).filter (·.isActive) with
        | none => (none, s)
        | some user => (some ⟨user, .pat, row.scopes, some row.id⟩, s.touch row clientIp commits)

/-- `_resolve_pat_or_raise`. -/
def resolvePatOrRaise (token : Str) (clientIp : Option Str) (commits : Bool) (requiredScope : Str) :
    Except Failure AuthenticatedActor × St Digest :=
  match s.resolvePat sha256 token clientIp commits with
  | (none, s) => (.error unauthenticated, s)
  | (some actor, s) =>
    if requiredScope ∈ actor.scopes then (.ok actor, s) else (.error (insufficientScope requiredScope), s)

/-- The second half of `require_current_user`. -/
def sessionActor (req : Request) : Except Failure AuthenticatedActor :=
  match extractAccessToken req with
  | none => .error unauthenticated
  | some token =>
    match decodeToken verify s.now token .access with
    | .error e => .error e
    | .ok claims =>
      match s.user? claims.userId with
      | none => .error unauthenticated
      | some user => if user.isActive then .ok ⟨user, .cookieJwt, allScopes, none⟩ else .error accountDisabled

/-- The user it returns, with the method it notes. -/
def requireCurrentUser (req : Request) (commits : Bool) : Except Failure AuthenticatedActor × St Digest :=
  match patBearer req with
  | some token =>
    s.resolvePatOrRaise sha256 token (requestClientIp req) commits (requiredPatScopeForMethod req.method)
  | none => (s.sessionActor verify req, s)

def requireAuthenticated (req : Request) (commits : Bool) : Except Failure AuthenticatedActor × St Digest :=
  match patBearer req with
  | some token =>
    match s.resolvePat sha256 token (requestClientIp req) commits with
    | (none, s) => (.error unauthenticated, s)
    | (some actor, s) => (.ok actor, s)
  | none => s.requireCurrentUser sha256 verify req commits

/-- A gate that looks again at the actor another one let through. -/
def andThen (outcome : Except Failure AuthenticatedActor × St Digest)
    (check : AuthenticatedActor → Except Failure Unit) : Except Failure AuthenticatedActor × St Digest :=
  match outcome with
  | (.error e, s) => (.error e, s)
  | (.ok actor, s) =>
    match check actor with
    | .error e => (.error e, s)
    | .ok _ => (.ok actor, s)

def requireAdminOrOwner (req : Request) (commits : Bool) : Except Failure AuthenticatedActor × St Digest :=
  andThen (s.requireCurrentUser sha256 verify req commits) fun actor =>
    if actor.user.role.isAdmin then .ok () else .error forbidden

def requireScope (scope : Str) (req : Request) (commits : Bool) : Except Failure AuthenticatedActor × St Digest :=
  andThen (s.requireAuthenticated sha256 verify req commits) fun actor =>
    if actor.method ≠ .pat ∨ scope ∈ actor.scopes then .ok () else .error (insufficientScope scope)

/-- The double submit of `require_csrf` and `require_actor_csrf`. -/
def checkCsrf (req : Request) : Except Failure Unit :=
  match (req.header "x-csrf-token".toList).filter (· ≠ []) with
  | none => .error csrfMissing
  | some csrf =>
    match extractAccessToken req with
    | none => .error unauthenticated
    | some token =>
      match decodeToken verify s.now token .access with
      | .error e => .error e
      | .ok claims =>
        match compareDigest csrf (claims.csrf.getD []) with
        | .error e => .error e
        | .ok same => if same then .ok () else .error csrfMismatch

def requireActorCsrf (req : Request) (commits : Bool) : Except Failure AuthenticatedActor × St Digest :=
  andThen (s.requireAuthenticated sha256 verify req commits) fun actor =>
    if upper req.method ∉ mutatingMethods then .ok ()
    else if actor.method = .pat then
      if apiWrite ∈ actor.scopes then .ok () else .error (insufficientScope apiWrite)
    else s.checkCsrf verify req

/-- What `require_csrf` does after `require_current_user`: the token is looked up
once more. -/
def csrfGate (req : Request) (commits : Bool) (outcome : Except Failure AuthenticatedActor × St Digest) :
    Except Failure AuthenticatedActor × St Digest :=
  match outcome with
  | (.error e, s) => (.error e, s)
  | (.ok actor, s) =>
    if upper req.method ∉ mutatingMethods then (.ok actor, s)
    else
      match patBearer req with
      | some token => s.resolvePatOrRaise sha256 token (requestClientIp req) commits apiWrite
      | none => andThen (.ok actor, s) fun _ => s.checkCsrf verify req

def requireCsrf (req : Request) (commits : Bool) : Except Failure AuthenticatedActor × St Digest :=
  csrfGate sha256 verify req commits (s.requireCurrentUser sha256 verify req commits)

/-- A route that depends on both. -/
def requireAdminCsrf (req : Request) (commits : Bool) : Except Failure AuthenticatedActor × St Digest :=
  csrfGate sha256 verify req commits (s.requireAdminOrOwner sha256 verify req commits)

/-- `wrap_with_mcp_auth`, whose lookup may fail. -/
def mcpAuth (req : Request) (commits found : Bool) : Except Failure AuthenticatedActor × St Digest :=
  match extractBearerMcp req with
  | none => (.error mcpTokenMissing, s)
  | some token =>
    if ¬ patPlaintextPrefix.isPrefixOf token then (.error mcpTokenFormat, s)
    else if ¬ found then (.error mcpTokenUnknown, s)
    else
      match s.resolvePat sha256 token req.client commits with
      | (none, s) => (.error mcpTokenUnknown, s)
      | (some actor, s) =>
        if mcpScope ∉ actor.scopes then (.error (insufficientScope mcpScope), s)
        else if apiRead ∉ actor.scopes then (.error (insufficientScope apiRead), s)
        else (.ok actor, s)

end St

inductive Gate where
  | currentUser
  | authenticated
  | adminOrOwner
  | scope (scope : Str)
  | actorCsrf
  | csrf
  | adminCsrf
  | mcp (found : Bool)
  deriving DecidableEq

def St.enter (s : St Digest) (gate : Gate) (req : Request) (commits : Bool) :
    Except Failure AuthenticatedActor × St Digest :=
  match gate with
  | .currentUser => s.requireCurrentUser sha256 verify req commits
  | .authenticated => s.requireAuthenticated sha256 verify req commits
  | .adminOrOwner => s.requireAdminOrOwner sha256 verify req commits
  | .scope scope => s.requireScope sha256 verify scope req commits
  | .actorCsrf => s.requireActorCsrf sha256 verify req commits
  | .csrf => s.requireCsrf sha256 verify req commits
  | .adminCsrf => s.requireAdminCsrf sha256 verify req commits
  | .mcp found => s.mcpAuth sha256 req commits found

/-! ## Personal access tokens -/

structure CreateTokenRequest where
  name : Str
  scopes : List Str
  expiresAt : Option ℕ
  deriving DecidableEq

def unknownScope (scope : Str) : Str :=
  "Value error, Unknown scope '".toList ++ scope ++
    "'. Allowed: ['api:read', 'api:write', 'mcp']".toList

def noScopes : Str := "Value error, scopes must contain at least one entry".toList

def noItems : Str := "List should have at least 1 item after validation, not 0".toList

def nameTooShort : Str := "String should have at least 1 character".toList

def nameTooLong : Str := "String should have at most 120 characters".toList

/-- `_check_scopes`, with those cleaned so far. -/
def checkScopes : List Str → List Str → Except Str (List Str)
  | cleaned, [] => if cleaned = [] then .error noScopes else .ok cleaned
  | cleaned, raw :: raws =>
    let scope := Str.strip raw
    if scope = [] then checkScopes cleaned raws
    else if scope ∉ allScopes then .error (unknownScope scope)
    else if scope ∈ cleaned then checkScopes cleaned raws
    else checkScopes (cleaned ++ [scope]) raws

/-- The fields that are wrong, or the scopes as they are cleaned. -/
def CreateTokenRequest.validate (payload : CreateTokenRequest) : Except (List (Str × Str)) (List Str) :=
  let nameErrors :=
    if payload.name = [] then [("name".toList, nameTooShort)]
    else if 120 < payload.name.length then [("name".toList, nameTooLong)] else []
  match if payload.scopes = [] then .error noItems else checkScopes [] payload.scopes with
  | .error message => .error (nameErrors ++ [("scopes".toList, message)])
  | .ok scopes => if nameErrors = [] then .ok scopes else .error nameErrors

def validRevokeReasons : List Str :=
  ["user".toList, "rotation".toList, "admin".toList, "idp_block".toList, "role_change".toList]

def unknownReason (reason : Str) : Str :=
  "Value error, Unknown reason '".toList ++ reason ++
    "'. Allowed: ['admin', 'idp_block', 'role_change', 'rotation', 'user']".toList

def reasonTooLong : Str := "String should have at most 32 characters".toList

/-- `RevokeAllRequest`, which need not say why. -/
def checkReason (reason : Option Str) : Except (List (Str × Str)) Str :=
  let reason := reason.getD "admin".toList
  if 32 < reason.length then .error [("reason".toList, reasonTooLong)]
  else if reason ∉ validRevokeReasons then .error [("reason".toList, unknownReason reason)]
  else .ok reason

def patPrefixDisplayChars : ℕ := 16

/-- The routes of this module go through a gate and then do their work. -/
def guarded {α : Type} (outcome : Except Failure AuthenticatedActor × St Digest)
    (work : St Digest → AuthenticatedActor → Except Failure α × St Digest) : Except Failure α × St Digest :=
  match outcome with
  | (.error e, s) => (.error e, s)
  | (.ok actor, s) => work s actor

namespace St

variable (s : St Digest)

/-- A new row, if its hash is new. -/
def insertToken (userId : ℕ) (name secret : Str) (scopes : List Str) (expiresAt : Option ℕ) :
    Except Failure ℕ × St Digest :=
  let plaintext := patPlaintextPrefix ++ secret
  if s.tokens.any (·.tokenHash = sha256 plaintext) then (.error internalError, s)
  else
    let row := ⟨s.nextId, userId, name, sha256 plaintext, plaintext.take patPrefixDisplayChars, scopes, expiresAt,
      none, none, none, none⟩
    (.ok s.nextId, { s with nextId := s.nextId + 1, tokens := s.tokens ++ [row] })

def blankName : Str := "Name cannot be blank".toList

def pastExpiry : Str := "expires_at must be in the future".toList

def createMyToken (req : Request) (commits : Bool) (payload : CreateTokenRequest) (secret : Str) :
    Except Failure ℕ × St Digest :=
  guarded (s.requireActorCsrf sha256 verify req commits) fun s actor =>
    match payload.validate with
    | .error fields => (.error (.validation fields), s)
    | .ok scopes =>
      if actor.method = .pat then (.error selfMint, s)
      else if Str.strip payload.name = [] then (.error (validationFailed blankName), s)
      else if payload.expiresAt.any (· ≤ s.now) then (.error (validationFailed pastExpiry), s)
      else s.insertToken sha256 actor.user.id (Str.strip payload.name) secret scopes payload.expiresAt

def revoke (now : ℕ) (reason : Str) (row : PersonalAccessToken Digest) : PersonalAccessToken Digest :=
  { row with revokedAt := some now, revokedReason := some reason }

/-- The token of the path, if it is the actor's own. -/
def ownToken (actor : AuthenticatedActor) (tokenId : ℕ) : Option (PersonalAccessToken Digest) :=
  (s.token? tokenId).filter (·.userId = actor.user.id)

def revokeMyToken (req : Request) (commits : Bool) (tokenId : ℕ) : Except Failure Unit × St Digest :=
  guarded (s.requireActorCsrf sha256 verify req commits) fun s actor =>
    match s.ownToken actor tokenId with
    | none => (.error tokenNotFound, s)
    | some row =>
      if row.revokedAt.isSome then (.ok (), s)
      else (.ok (), s.updateToken row.id (revoke s.now "user".toList))

def rotateMyToken (req : Request) (commits : Bool) (tokenId : ℕ) (secret : Str) : Except Failure ℕ × St Digest :=
  guarded (s.requireActorCsrf sha256 verify req commits) fun s actor =>
    if actor.method = .pat then (.error selfMint, s)
    else
      match s.ownToken actor tokenId with
      | none => (.error tokenNotFound, s)
      | some old =>
        if old.revokedAt.isSome then (.error alreadyRevoked, s)
        else
          match s.insertToken sha256 actor.user.id old.name secret old.scopes old.expiresAt with
          | (.error e, _) => (.error e, s)
          | (.ok tokenId, s) => (.ok tokenId, s.updateToken old.id (revoke s.now "rotation".toList))

/-- Every row of the user that is not revoked yet. -/
def revokeAll (userId : ℕ) (reason : Str) : St Digest :=
  { s with
    tokens := s.tokens.map fun row =>
      if row.userId = userId ∧ row.revokedAt.isNone then revoke s.now reason row else row }

def adminRevokeAllTokens (req : Request) (commits : Bool) (userId : ℕ) (reason : Option Str) :
    Except Failure ℕ × St Digest :=
  guarded (s.requireAdminCsrf sha256 verify req commits) fun s _ =>
    match checkReason reason with
    | .error fields => (.error (.validation fields), s)
    | .ok reason =>
      match s.user? userId with
      | none => (.error userNotFound, s)
      | some _ =>
        let rows := s.tokens.filter fun row => row.userId = userId ∧ row.revokedAt.isNone
        (.ok rows.length, s.revokeAll userId reason)

/-! ## Sessions -/

/-- `mint_session_cookies`, and the end of `login` and `bootstrap_admin`. -/
def signIn (userId : ℕ) (csrf : Str) : Option (St Digest) :=
  ((s.user? userId).filter (·.isActive)).map fun user =>
    { s with
      nextId := s.nextId + 3
      families := s.families ++ [⟨s.nextId, user.id, s.nextId + 1, none⟩]
      issued := createToken settings s.now user.id user.role .access (some csrf) none (s.nextId + 2) ::
        createToken settings s.now user.id user.role .refresh none (some s.nextId) (s.nextId + 1) :: s.issued }

def updateFamily (family : ℕ) (f : RefreshTokenFamily → RefreshTokenFamily) : St Digest :=
  { s with families := s.families.map fun row => if row.family = family then f row else row }

/-- `refresh_tokens`. Whether the user is active is left to the gates. -/
def refreshTokens (cookie : Option Str) (csrf : Str) : Except Failure Unit × St Digest :=
  match (cookie.filter (· ≠ [])).map (decodeToken verify s.now · .refresh) with
  | none | some (.error _) => (.error refreshInvalid, s)
  | some (.ok claims) =>
    match claims.family.bind fun family => s.families.find? (·.family = family) with
    | none => (.error refreshInvalid, s)
    | some row =>
      if row.revokedAt.isSome then (.error refreshInvalid, s)
      else if claims.jti ≠ row.currentJti then
        (.error refreshInvalid, s.updateFamily row.family fun row => { row with revokedAt := some s.now })
      else
        match s.user? claims.userId with
        | none => (.error refreshInvalid, s)
        | some user =>
          let s' := s.updateFamily row.family fun row => { row with currentJti := s.nextId }
          (.ok (), { s' with
            nextId := s.nextId + 2
            issued := createToken settings s.now user.id user.role .access (some csrf) none (s.nextId + 1) ::
              createToken settings s.now user.id user.role .refresh none (some row.family) s.nextId :: s.issued })

def logout (cookie : Option Str) : St Digest :=
  match (cookie.filter (· ≠ [])).map (decodeToken verify s.now · .refresh) with
  | some (.ok claims) =>
    match claims.family with
    | some family =>
      s.updateFamily family fun row => if row.revokedAt.isNone then { row with revokedAt := some s.now } else row
    | none => s
  | _ => s

/-! ## Users

The routes that change users have guards of their own, which are left out but for
the cascade: here any of them may run. -/

def createUser (role : UserRole) (isActive : Bool) : St Digest :=
  { s with nextId := s.nextId + 1, users := s.users ++ [⟨s.nextId, role, isActive⟩] }

def updateUser (userId : ℕ) (f : User → User) : St Digest :=
  { s with users := s.users.map fun user => if user.id = userId then f user else user }

/-- Whether no other administrator would be active. -/
def lastAdmin (target : User) : Bool :=
  target.role.isAdmin && s.users.all fun user => user.id = target.id || !user.role.isAdmin || !user.isActive

def disableUserCascade (userId : ℕ) : St Digest :=
  match s.user? userId with
  | none => s
  | some target =>
    if s.lastAdmin target then s
    else if ¬ target.isActive then s
    else
      let s := (s.updateUser userId fun user => { user with isActive := false }).revokeAll userId "idp_block".toList
      { s with families := s.families.filter (·.userId ≠ userId) }

/-- The tokens and the families of the user go with it. -/
def deleteUser (userId : ℕ) : St Digest :=
  { s with
    users := s.users.filter (·.id ≠ userId)
    tokens := s.tokens.filter (·.userId ≠ userId)
    families := s.families.filter (·.userId ≠ userId) }

end St

/-! ## Steps -/

/-- `request` is one of any other route behind its gate. -/
inductive Act where
  | tick (seconds : ℕ)
  | createUser (role : UserRole) (isActive : Bool)
  | setRole (userId : ℕ) (role : UserRole)
  | setActive (userId : ℕ) (isActive : Bool)
  | disableUserCascade (userId : ℕ)
  | deleteUser (userId : ℕ)
  | signIn (userId : ℕ) (csrf : Str)
  | refreshTokens (cookie : Option Str) (csrf : Str)
  | logout (cookie : Option Str)
  | request (gate : Gate) (req : Request) (commits : Bool)
  | createMyToken (req : Request) (commits : Bool) (payload : CreateTokenRequest) (secret : Str)
  | revokeMyToken (req : Request) (commits : Bool) (tokenId : ℕ)
  | rotateMyToken (req : Request) (commits : Bool) (tokenId : ℕ) (secret : Str)
  | adminRevokeAllTokens (req : Request) (commits : Bool) (userId : ℕ) (reason : Option Str)
  deriving DecidableEq

/-- A route is found by its method. -/
def routed (method : Str) (req : Request) (s : St Digest) : Option (St Digest) :=
  if req.method = method then some s else none

def next (s : St Digest) : Act → Option (St Digest)
  | .tick seconds => some { s with now := s.now + seconds }
  | .createUser role isActive => some (s.createUser role isActive)
  | .setRole userId role => some (s.updateUser userId fun user => { user with role := role })
  | .setActive userId isActive => some (s.updateUser userId fun user => { user with isActive := isActive })
  | .disableUserCascade userId => some (s.disableUserCascade userId)
  | .deleteUser userId => some (s.deleteUser userId)
  | .signIn userId csrf => s.signIn settings userId csrf
  | .refreshTokens cookie csrf => some (s.refreshTokens verify settings cookie csrf).2
  | .logout cookie => some (s.logout verify cookie)
  | .request gate req commits => some (s.enter sha256 verify gate req commits).2
  | .createMyToken req commits payload secret =>
    routed "POST".toList req (s.createMyToken sha256 verify req commits payload secret).2
  | .revokeMyToken req commits tokenId =>
    routed "DELETE".toList req (s.revokeMyToken sha256 verify req commits tokenId).2
  | .rotateMyToken req commits tokenId secret =>
    routed "POST".toList req (s.rotateMyToken sha256 verify req commits tokenId secret).2
  | .adminRevokeAllTokens req commits userId reason =>
    routed "POST".toList req (s.adminRevokeAllTokens sha256 verify req commits userId reason).2

/-- No user has a token or a session yet. -/
structure Init (s : St Digest) : Prop where
  users : (s.users.map (·.id)).Nodup
  below : ∀ user ∈ s.users, user.id < s.nextId
  tokens : s.tokens = []
  families : s.families = []
  issued : s.issued = []

end

end Cograph.Gateway
