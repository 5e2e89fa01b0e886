import Cograph.Machine
import Mathlib.Logic.Function.Basic

/-!
# The credentials of one user

The requests that touch a user's refresh-token families and personal access
tokens: SCIM deprovisioning (`scim/cascade.py` under `api/scim.py`), `disable`
and `enable` of `api/admin_users.py`, `login` and `refresh` of `api/auth.py`,
and the minting, rotation and revocation of `api/personal_access_tokens.py`.
Under read committed each read sees the rows committed by then, a session keeps
the rows it has loaded, and a commit writes the changed columns of the row
whatever the row has become. The cascade's statements are actions of their own,
for a token that commits between them is not hit by them.
-/

namespace Cograph.Credentials

/-! ## Tables -/

structure User where
  isActive : Bool
  deactivatedReason : Option String
  deriving DecidableEq, Repr

/-- `request` is the login that stored the row. -/
structure RefreshTokenFamily where
  currentJti : Nat
  revokedAt : Option Nat
  request : Nat
  deriving DecidableEq, Repr

/-- `request` is the request that stored the row, `lineage` the tokens it was
rotated from, the last first (the `pat_rotated` audit rows name them). -/
structure PersonalAccessToken where
  expiresAt : Option Nat
  revokedAt : Option Nat
  revokedReason : Option String
  request : Nat
  lineage : List Nat
  deriving DecidableEq, Repr

/-- The family's current token can be exchanged. -/
def RefreshTokenFamily.usable (row : RefreshTokenFamily) : Bool := row.revokedAt.isNone

def lapsed (now : Nat) (expiresAt : Option Nat) : Bool := expiresAt.any (· < now)

/-- `_resolve_pat` finds an actor, for a user that is active or not. -/
def resolvePat (active : Bool) (now : Nat) (row : PersonalAccessToken) : Bool :=
  row.revokedAt.isNone && !lapsed now row.expiresAt && active

/-! ## Requests -/

/-- A SCIM disable carries its idempotency key; `lastAdmin` and `allowed` are
what the guards of the two disabling requests find, `valid` is the password. -/
inductive Request where
  | scimDisable (key : Nat) (lastAdmin : Bool)
  | disable (allowed : Bool) (reason : Option String)
  | enable
  | login (valid : Bool)
  | refresh (family jti : Nat)
  | createToken (expiresAt : Option Nat)
  | rotateToken (token : Nat)
  | revokeToken (token : Nat)
  | revokeAll (reason : String)
  deriving DecidableEq, Repr

/-- The refresh token that a request presents, as its family and `jti`. -/
def Request.presents : Request → Option (Nat × Nat)
  | .refresh family jti => some (family, jti)
  | _ => none

/-- Where a request stands. -/
inductive Phase where
  | idle
  | arrived (q : Request)
  /-- With the session's copy of the user's `is_active`. -/
  | loaded (q : Request) (active : Bool)
  /-- The cascade is about to run its first statement, its second, the commit. -/
  | cascading (key : Nat)
  | revoked (key : Nat)
  | dropped (key : Nat)
  /-- A SCIM disable that found the user inactive, or the last administrator,
  is about to record its event. -/
  | unchanged (key : Nat)
  | rejected (key : Nat)
  /-- The user was found active, or the family's current token presented. -/
  | admitted (q : Request)
  | reused (family : Nat)
  /-- With the session's copy of the token. -/
  | found (q : Request) (row : PersonalAccessToken)
  | listed (reason : String) (tokens : List Nat)
  | answered (success : Bool)
  deriving DecidableEq, Repr

/-- The cascade that holds the lock on the user's row, with the rows its
statements hit. -/
structure Cascade where
  request : Nat
  tokens : List Nat
  families : List Nat
  deriving DecidableEq, Repr

/-- A success that was answered for a token's revocation, with the requests
that had begun. -/
structure Answer where
  token : Nat
  begun : List Nat
  deriving DecidableEq, Repr

/-- `issued` holds the refresh tokens given out as pairs of family and `jti`;
`begun` the requests that have arrived, `barred` those that had when the last
SCIM disable was answered with success, `answers` the revocations answered. -/
structure St where
  user : User
  now : Nat
  families : Nat → Option RefreshTokenFamily
  tokens : Nat → Option PersonalAccessToken
  events : List Nat
  cascade : Option Cascade
  requests : Nat → Phase
  issued : List (Nat × Nat)
  begun : List Nat
  barred : List Nat
  answers : List Answer
  nextId : Nat

def St.init (user : User) : St := ⟨user, 0, fun _ => none, fun _ => none, [], none, fun _ => .idle, [], [], [], [], 0⟩

namespace St

variable (s : St)

def goto (r : Nat) (p : Phase) : St := { s with requests := Function.update s.requests r p }

def setFamily (f : Nat) (row : RefreshTokenFamily) : St := { s with families := Function.update s.families f (some row) }

def setToken (t : Nat) (row : PersonalAccessToken) : St := { s with tokens := Function.update s.tokens t (some row) }

/-- The write of `revoked_at` and `revoked_reason` to the rows of `ts`. -/
def revoke (ts : List Nat) (reason : String) : St :=
  { s with tokens := fun t => (s.tokens t).map fun row =>
      if t ∈ ts then { row with revokedAt := some s.now, revokedReason := some reason } else row }

def revokeFamily (f : Nat) : St :=
  { s with families := fun g => (s.families g).map fun row => if g = f then { row with revokedAt := some s.now } else row }

def tokenLocked (t : Nat) : Bool := s.cascade.any (t ∈ ·.tokens)

def familyLocked (f : Nat) : Bool := s.cascade.any (f ∈ ·.families)

/-- The unrevoked tokens. -/
def unrevoked : List Nat := (List.range s.nextId).filter fun t => (s.tokens t).any (·.revokedAt.isNone)

/-- The answer to a SCIM disable that succeeds. -/
def answerScim (r : Nat) : St := { s.goto r (.answered true) with barred := s.begun }

/-- The answer to a request that revokes `ts`. -/
def answerRevoke (r : Nat) (ts : List Nat) : St :=
  { s.goto r (.answered true) with answers := ts.map (⟨·, s.begun⟩) ++ s.answers }

end St

/-! ## The handlers -/

/-- `_apply_mutation` up to the first statement of `disable_user_cascade`. -/
def disableUserCascade (s : St) (r key : Nat) (lastAdmin active : Bool) : St :=
  if key ∈ s.events then s.answerScim r
  else if lastAdmin then s.goto r (.rejected key)
  else if active = false then s.goto r (.unchanged key)
  else s.goto r (.cascading key)

/-- The commit of the cascade. Where the event is recorded already the work is
rolled back. -/
def commitCascade (s : St) (r key : Nat) (c : Cascade) : St :=
  if key ∈ s.events then { s with cascade := none }.answerScim r
  else
    { s.revoke c.tokens "idp_block" with
      user := ⟨false, some "scim"⟩
      families := fun f => if f ∈ c.families then none else s.families f
      events := key :: s.events
      cascade := none }.answerScim r

def disableUser (s : St) (r : Nat) (allowed : Bool) (reason : Option String) (active : Bool) : Option St :=
  if allowed = false then some (s.goto r (.answered false))
  else if active = false then some (s.goto r (.answered true))
  else if s.cascade.isSome then none
  else some { s.goto r (.answered true) with
    user := ⟨false, some (if reason.getD "" = "" then "admin" else reason.getD "")⟩ }

def enableUser (s : St) (r : Nat) (active : Bool) : Option St :=
  if active then some (s.goto r (.answered true))
  else if s.cascade.isSome then none
  else some { s.goto r (.answered true) with user := ⟨true, none⟩ }

/-- The commit of `login`, which also writes the user's row. -/
def login (s : St) (r : Nat) : Option St :=
  if s.cascade.isSome then none
  else some { (s.setFamily s.nextId ⟨s.nextId + 1, none, r⟩).goto r (.answered true) with
    issued := (s.nextId, s.nextId + 1) :: s.issued
    nextId := s.nextId + 2 }

/-- The read of the family row in `refresh_tokens`, which reads the user's row
for its id alone. -/
def readFamily (s : St) (r f jti : Nat) : St :=
  match s.families f with
  | none => s.goto r (.answered false)
  | some row =>
    if row.revokedAt ≠ none then s.goto r (.answered false)
    else if jti ≠ row.currentJti then s.goto r (.reused f)
    else s.goto r (.admitted (.refresh f jti))

/-- The conditional update of `refresh_tokens` finds its row. -/
def matched (s : St) (f jti : Nat) : Bool := (s.families f).any fun row => row.currentJti = jti ∧ row.revokedAt = none

def refreshTokens (s : St) (r f jti : Nat) : Option St :=
  if s.familyLocked f then none
  else
    match s.families f with
    | none => some (s.goto r (.answered false))
    | some row =>
      if row.currentJti = jti ∧ row.revokedAt = none then
        some { (s.setFamily f { row with currentJti := s.nextId }).goto r (.answered true) with
          issued := (f, s.nextId) :: s.issued
          nextId := s.nextId + 1 }
      else some (s.goto r (.answered false))

def revokeReused (s : St) (r f : Nat) : Option St :=
  if s.familyLocked f then none
  else some ((s.revokeFamily f).goto r (.answered false))

def createMyToken (s : St) (r : Nat) (expiresAt : Option Nat) : St :=
  { (s.setToken s.nextId ⟨expiresAt, none, none, r, []⟩).goto r (.answered true) with nextId := s.nextId + 1 }

/-- The read of the token that a request names. -/
def readToken (s : St) (r : Nat) (q : Request) (t : Nat) : St :=
  match s.tokens t, q with
  | none, _ => s.goto r (.answered false)
  | some row, .revokeToken _ => if row.revokedAt = none then s.goto r (.found q row) else s.answerRevoke r [t]
  | some row, _ => if row.revokedAt = none then s.goto r (.found q row) else s.goto r (.answered false)

/-- The commit of `rotate_my_token`, with the copy of the old row. -/
def rotateMyToken (s : St) (r t : Nat) (old : PersonalAccessToken) : Option St :=
  if s.tokenLocked t then none
  else
    let rotated := s.revoke [t] "rotation"
    some { (rotated.setToken s.nextId ⟨old.expiresAt, none, none, r, t :: old.lineage⟩).goto r (.answered true) with
      nextId := s.nextId + 1 }

/-- The commit of `revoke_my_token` and of `admin_revoke_all_tokens`. -/
def revokeTokens (s : St) (r : Nat) (ts : List Nat) (reason : String) : Option St :=
  if ts.any (s.tokenLocked ·) then none else some ((s.revoke ts reason).answerRevoke r ts)

/-- A request's first read: the user's row, or the rows that the others start
with. -/
def load (s : St) (r : Nat) (q : Request) : St :=
  match q with
  | .scimDisable _ _ | .disable _ _ | .enable => s.goto r (.loaded q s.user.isActive)
  | .login valid => s.goto r (if valid && s.user.isActive then .admitted q else .answered false)
  | .createToken expiresAt =>
    s.goto r (if s.user.isActive && !(expiresAt.any (· ≤ s.now)) then .admitted q else .answered false)
  | .rotateToken _ | .revokeToken _ => s.goto r (if s.user.isActive then .admitted q else .answered false)
  | .refresh f jti => readFamily s r f jti
  | .revokeAll reason => s.goto r (.listed reason s.unrevoked)

/-! ## Steps -/

/-- The actions name the request they belong to. -/
inductive Action where
  | tick (now : Nat)
  | arrive (request : Nat) (q : Request)
  | load (request : Nat)
  | readEvent (request : Nat)
  | revokeTokens (request : Nat)
  | dropFamilies (request : Nat)
  | readToken (request : Nat)
  | commit (request : Nat)
  /-- The request fails, and what it has not committed is rolled back. -/
  | fail (request : Nat)
  deriving DecidableEq, Repr

/-- The commit of a request, where it has reached one. -/
def commit (s : St) (r : Nat) : Option St :=
  match s.requests r with
  | .dropped key => s.cascade.map (commitCascade s r key)
  | .unchanged key => some ({ s with events := key :: s.events }.answerScim r)
  | .rejected key => some { s.goto r (.answered false) with events := key :: s.events }
  | .loaded (.disable allowed reason) active => disableUser s r allowed reason active
  | .loaded .enable active => enableUser s r active
  | .admitted (.login _) => login s r
  | .admitted (.refresh f jti) => refreshTokens s r f jti
  | .admitted (.createToken expiresAt) => some (createMyToken s r expiresAt)
  | .reused f => revokeReused s r f
  | .found (.rotateToken t) old => rotateMyToken s r t old
  | .found (.revokeToken t) _ => revokeTokens s r [t] "user"
  | .listed reason ts => revokeTokens s r ts reason
  | _ => none

def next (s : St) : Action → Option St
  | .tick now => if s.now ≤ now then some { s with now := now } else none
  | .arrive r q =>
    -- a refresh token that is presented was given out
    if s.requests r = .idle ∧ ∀ token ∈ q.presents, token ∈ s.issued then
      some { s.goto r (.arrived q) with begun := r :: s.begun }
    else none
  | .load r =>
    match s.requests r with
    | .arrived q => some (load s r q)
    | _ => none
  | .readEvent r =>
    match s.requests r with
    | .loaded (.scimDisable key lastAdmin) active => some (disableUserCascade s r key lastAdmin active)
    | _ => none
  | .revokeTokens r =>
    match s.requests r, s.cascade with
    | .cascading key, none => some { s.goto r (.revoked key) with cascade := some ⟨r, s.unrevoked, []⟩ }
    | _, _ => none
  | .dropFamilies r =>
    match s.requests r, s.cascade with
    | .revoked key, some c =>
      some { s.goto r (.dropped key) with
        cascade := some { c with families := (List.range s.nextId).filter fun f => (s.families f).isSome } }
    | _, _ => none
  | .readToken r =>
    match s.requests r with
    | .admitted (.rotateToken t) => some (readToken s r (.rotateToken t) t)
    | .admitted (.revokeToken t) => some (readToken s r (.revokeToken t) t)
    | _ => none
  | .commit r => commit s r
  | .fail r =>
    match s.requests r with
    | .idle | .answered _ => none
    | _ => some { s.goto r (.answered false) with cascade := if s.cascade.any (·.request = r) then none else s.cascade }

end Cograph.Credentials
