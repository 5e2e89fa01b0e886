import Cograph.Machine

/-!
# SCIM user mutations

`PATCH`, `PUT` and `DELETE` on `/scim/v2/Users`, as `api/scim.py` answers them:
the payload readers, the idempotency key, the deprovisioning cascade, and the
session's flushes, where the unique columns of `users.email` and
`scim_events.idempotency_key` are checked. Python's text functions and the
payload digest are parameters (`Py`).
-/

namespace Cograph.Scim

/-! ## Decoded JSON -/

/-- A decoded JSON value. A number keeps how Python prints it and whether it
is truthy, the two things the payload readers can see of it. -/
inductive Json where
  | null
  | bool (b : Bool)
  | num (text : String) (nonzero : Bool)
  | str (s : String)
  | arr (xs : List Json)
  | obj (kvs : List (String × Json))

def Json.truthy : Json → Bool
  | .null => false
  | .bool b => b
  | .num _ nonzero => nonzero
  | .str s => s ≠ ""
  | .arr xs => !xs.isEmpty
  | .obj kvs => !kvs.isEmpty

/-- `d.get(key)`, with `None` for a missing key. -/
def get (kvs : List (String × Json)) (key : String) : Json := (kvs.lookup key).getD .null

/-- The Python functions the handlers call on text: `str.lower`, `str.strip`,
`str()` of a decoded value, and the hex digest of the canonical payload. -/
structure Py where
  lower : String → String
  strip : String → String
  str : Json → String
  payloadHash : Json → String

/-! ## Tables -/

inductive UserRole where
  | owner
  | admin
  | user
  deriving DecidableEq, Repr

structure User where
  id : Nat
  email : String
  name : Option String
  role : UserRole
  isActive : Bool
  deactivatedReason : Option String
  deriving DecidableEq, Repr

structure UserIdentity where
  userId : Nat
  providerId : Nat
  subject : String
  deriving DecidableEq, Repr

structure PersonalAccessToken where
  id : Nat
  userId : Nat
  revokedReason : Option String
  deriving DecidableEq, Repr

structure RefreshTokenFamily where
  id : Nat
  userId : Nat
  deriving DecidableEq, Repr

structure AuditEvent where
  eventType : String
  severity : String
  targetUserId : Nat
  externalId : Option String
  deriving DecidableEq, Repr

structure ScimEvent where
  operation : String
  externalId : Option String
  targetUserId : Nat
  payloadHash : String
  idempotencyKey : String
  status : String
  errorCode : Option String
  deriving DecidableEq, Repr

/-- The requesting client. Its provider prints as a UUID, or as `None`. -/
structure ScimClient where
  providerId : Option Nat
  providerText : String
  deriving DecidableEq, Repr

structure Db where
  users : List User
  identities : List UserIdentity
  tokens : List PersonalAccessToken
  families : List RefreshTokenFamily
  audit : List AuditEvent
  events : List ScimEvent
  deriving DecidableEq, Repr

/-- What the schema keeps of `users`: the primary key and the unique email. -/
structure Db.Wf (s : Db) : Prop where
  ids : (s.users.map (·.id)).Nodup
  emails : (s.users.map (·.email)).Nodup

instance (s : Db) : Decidable s.Wf := decidable_of_iff (_ ∧ _) ⟨fun h => ⟨h.1, h.2⟩, fun h => ⟨h.1, h.2⟩⟩

def Db.user? (s : Db) (id : Nat) : Option User := s.users.find? (·.id = id)

def Db.existingEvent (s : Db) (key : String) : Bool := s.events.any (·.idempotencyKey = key)

/-! ## Requests and answers -/

/-- What a request asks for: the fields it names. -/
structure Mutation where
  active : Option Bool
  name : Option String
  email : Option String
  deriving DecidableEq, Repr

inductive Request where
  | patch (userId : Nat) (payload : Json)
  | put (userId : Nat) (payload : Json)
  | delete (userId : Nat)

def Request.userId : Request → Nat
  | .patch u _ => u
  | .put u _ => u
  | .delete u => u

structure Response where
  status : Nat
  scimType : Option String
  detail : String
  user : Option (User × Option String)
  deriving DecidableEq, Repr

/-- Answered with a 2xx status. -/
def Response.ok (r : Response) : Bool := 200 ≤ r.status ∧ r.status < 300

inductive ScimError where
  | http (status : Nat) (scimType : Option String) (detail : String)
  | uncaught
  deriving DecidableEq, Repr

def ScimError.response : ScimError → Response
  | .http status scimType detail => ⟨status, scimType, detail, none⟩
  | .uncaught => ⟨500, none, "", none⟩

def scimResponse (u : User) (externalId : Option String) : Response := ⟨200, none, "", some (u, externalId)⟩

/-! ## Payload readers -/

section
variable (py : Py)

/-- An interpolated value. -/
def fmt : Json → String
  | .str s => s
  | j => py.str j

/-- `value or ""`. -/
def orEmpty (j : Json) : Json := if j.truthy then j else .str ""

/-- `(value or "").lower()`, an attribute error where the value is no string. -/
def lowered (j : Json) : Except ScimError String :=
  match orEmpty j with
  | .str s => .ok (py.lower s)
  | _ => .error .uncaught

def mergedName (kvs : List (String × Json)) : String :=
  py.strip (fmt py (orEmpty (get kvs "givenName")) ++ " " ++ fmt py (orEmpty (get kvs "familyName")))

/-- One entry of `Operations`. -/
def patchOp (m : Mutation) : Json → Except ScimError Mutation
  | .obj op => do
    let path ← lowered py (get op "path")
    let value := get op "value"
    let verb ← lowered py (get op "op")
    if verb ≠ "add" ∧ verb ≠ "replace" ∧ verb ≠ "remove" then
      .error (.http 400 (some "invalidSyntax") ("Unsupported op '" ++ verb ++ "'"))
    else if path = "active" then
      if verb = "remove" then .ok { m with active := some false }
      else
        match value with
        | .bool b => .ok { m with active := some b }
        | .str s => .ok { m with active := some (py.lower s = "true") }
        | _ => .error (.http 400 (some "invalidValue") "active must be boolean")
    else if path = "username" ∨ path = "emails[primary].value" then
      match value with
      | .str s => .ok { m with email := some s }
      | .arr (.obj first :: _) =>
        match get first "value" with
        | .str s => .ok { m with email := some s }
        | _ => .ok m
      | _ => .ok m
    else if path = "name.givenname" ∨ path = "name.familyname" ∨ path = "name" then
      match value with
      | .obj kvs => if mergedName py kvs = "" then .ok m else .ok { m with name := some (mergedName py kvs) }
      | .str s => .ok { m with name := some s }
      | _ => .ok m
    -- Unknown paths are silently ignored.
    else .ok m
  | _ => .ok m

/-- The entries a `for` loop over `Operations` sees. A string or an object
yields only strings, which the loop skips. -/
def operations : Json → Except ScimError (List Json)
  | .arr xs => .ok xs
  | .obj _ => .ok []
  | .str _ => .ok []
  | _ => .error .uncaught

def patchMutation (payload : List (String × Json)) : Except ScimError Mutation := do
  (← operations (get payload "Operations")).foldlM (patchOp py) ⟨none, none, none⟩

def firstEmail (emails : List Json) (ok : List (String × Json) → Bool) : Option String :=
  emails.findSome? fun
    | .obj entry =>
      match get entry "value" with
      | .str s => if ok entry then some (py.lower (py.strip s)) else none
      | _ => none
    | _ => none

def userEmail (payload : List (String × Json)) : Option String :=
  let fromEmails :=
    match get payload "emails" with
    | .arr emails =>
      (firstEmail py emails fun entry => (get entry "primary").truthy).or (firstEmail py emails fun _ => true)
    | _ => none
  match get payload "userName" with
  | .str raw => if raw = "" then fromEmails else some (py.lower (py.strip raw))
  | _ => fromEmails

def fullName (payload : List (String × Json)) : Option String :=
  let stripped : Json → Option String
    | .str s => if py.strip s = "" then none else some (py.strip s)
    | _ => none
  let fromName :=
    match get payload "name" with
    | .obj name =>
      (stripped (get name "formatted")).or (if mergedName py name = "" then none else some (mergedName py name))
    | _ => none
  fromName.or (stripped (get payload "displayName"))

def replaceMutation (payload : List (String × Json)) : Except ScimError Mutation := do
  let active ← match get payload "active" with
    | .null => .ok none
    | .bool b => .ok (some b)
    | .str s => .ok (some (decide (py.lower s = "true")))
    | _ => .error (.http 400 (some "invalidValue") "active must be boolean")
  .ok ⟨active, fullName py payload, userEmail py payload⟩

/-- What a request names, where its payload can be read. -/
def requested : Request → Option Mutation
  | .patch _ (.obj payload) => (patchMutation py payload).toOption
  | .put _ (.obj payload) => (replaceMutation py payload).toOption
  | .delete _ => some ⟨some false, none, none⟩
  | _ => none

end

/-! ## Session -/

/-- How a flush fails: on a unique index, or on a value a column rejects. -/
inductive FlushError where
  | integrity
  | data
  deriving DecidableEq, Repr

def User.columnsFit (u : User) : Bool :=
  u.email.length ≤ 320 ∧ (u.name.getD "").length ≤ 255 ∧ !u.email.toList.contains '\x00' ∧
    !(u.name.getD "").toList.contains '\x00'

def Db.setUser (s : Db) (u : User) : Db := { s with users := s.users.map fun v => if v.id = u.id then u else v }

/-- Writes the session's copy of a user. -/
def flushUser (s : Db) (u : User) : Except FlushError Db :=
  if u.columnsFit = false then .error .data
  else if s.users.any (fun v => v.id ≠ u.id ∧ v.email = u.email) then .error .integrity
  else .ok (s.setUser u)

/-- The audit row is flushed, and the session's other changes with it. -/
def writeAudit (s : Db) (u : User) (eventType severity : String) (externalId : Option String) :
    Except FlushError Db := do
  let s ← flushUser s u
  .ok { s with audit := s.audit ++ [⟨eventType, severity, u.id, externalId⟩] }

def isAdminRole (r : UserRole) : Bool := r = .owner ∨ r = .admin

def remainingAdmins (s : Db) (target : User) : Nat :=
  s.users.countP fun v => v.id ≠ target.id ∧ isAdminRole v.role ∧ v.isActive

/-- How the deprovisioning cascade leaves the session. -/
inductive Cascade where
  | raised
  | lastAdmin (s : Db)
  | done (s : Db) (u : User)

def User.deactivated (u : User) : User := { u with isActive := false, deactivatedReason := some "scim" }

def User.reactivated (u : User) : User := { u with isActive := true, deactivatedReason := none }

/-- Live tokens are revoked and refresh-token families dropped. -/
def revokeCredentials (s : Db) (userId : Nat) : Db :=
  { s with
    tokens := s.tokens.map fun t =>
      if t.userId = userId ∧ t.revokedReason = none then { t with revokedReason := some "idp_block" } else t
    families := s.families.filter (·.userId ≠ userId) }

/-- The cascade past the last-admin check. The update of the tokens autoflushes
the session's copy of the user. -/
def deactivate (s : Db) (target : User) (externalId : Option String) : Cascade :=
  if target.isActive = false then .done s target
  else
    match flushUser s target.deactivated with
    | .error _ => .raised
    | .ok s =>
      match writeAudit (revokeCredentials s target.id) target.deactivated "scim_user_disabled" "info" externalId with
      | .error _ => .raised
      | .ok s => .done s target.deactivated

/-- The count of the remaining admins autoflushes, too. -/
def disableUserCascade (s : Db) (target : User) (externalId : Option String) : Cascade :=
  if isAdminRole target.role then
    match flushUser s target with
    | .error _ => .raised
    | .ok s =>
      if remainingAdmins s target = 0 then
        match writeAudit s target "scim_last_admin_disable_blocked" "critical" externalId with
        | .error _ => .raised
        | .ok s => .lastAdmin s
      else deactivate s target externalId
  else deactivate s target externalId

def enableUser (s : Db) (target : User) : Except FlushError (Db × User) :=
  if target.isActive then .ok (s, target)
  else
    match writeAudit s target.reactivated "scim_user_enabled" "info" none with
    | .error e => .error e
    | .ok s => .ok (s, target.reactivated)

def buildIdempotencyKey (client : ScimClient) (externalId : Option String) (operation payloadHash : String) : String :=
  client.providerText ++ ":" ++ (if externalId.getD "" = "" then "-" else externalId.getD "") ++ ":" ++ operation ++
    ":" ++ payloadHash

/-- `_record_event`: `none` where the flush fails on a unique index and the
session is rolled back. -/
def recordEvent (s : Db) (u : User) (e : ScimEvent) : Except FlushError (Option Db) :=
  match flushUser s u with
  | .error .data => .error .data
  | .error .integrity => .ok none
  | .ok s => .ok (if s.existingEvent e.idempotencyKey then none else some { s with events := s.events ++ [e] })

/-! ## Mutations -/

section
variable (client : ScimClient)

/-- The requested email and name on the session's copy, and whether that
changed anything. -/
def assignFields (u : User) (m : Mutation) : User × Bool :=
  let byEmail : User × Bool := match m.email with
    | some e => if e ≠ u.email then ({ u with email := e }, true) else (u, false)
    | none => (u, false)
  match m.name with
  | some n => if n ≠ u.name.getD "" then ({ byEmail.1 with name := some n }, true) else byEmail
  | none => byEmail

/-- What a handler leaves: the committed tables and the answer. -/
abbrev Outcome := Db × Response

def raised (s : Db) : Outcome := (s, ScimError.uncaught.response)

/-- The event row and the commit. `s` is the database, `tx` the session's
transaction. A rollback returns to `s`. -/
def finish (s tx : Db) (u : User) (externalId : Option String) (e : ScimEvent) : Outcome :=
  match recordEvent tx u e with
  | .error _ => raised s
  | .ok none =>
    -- Concurrent retry won the race — return the cached state.
    (s, scimResponse ((s.user? u.id).getD u) externalId)
  | .ok (some tx) => (tx, scimResponse u externalId)

def applyMutation (s : Db) (u : User) (operation payloadHash : String) (externalId : Option String) (m : Mutation) :
    Outcome :=
  let key := buildIdempotencyKey client externalId operation payloadHash
  let event (status : String) (errorCode : Option String) : ScimEvent :=
    ⟨operation, externalId, u.id, payloadHash, key, status, errorCode⟩
  if s.existingEvent key then (s, scimResponse u externalId)
  else
    let (u₁, changed) := assignFields u m
    match m.active with
    | some false =>
      match disableUserCascade s u₁ externalId with
      | .raised => raised s
      | .lastAdmin tx =>
        match recordEvent tx u₁ (event "rejected" (some "LAST_ADMIN_PROTECTED")) with
        | .error _ => raised s
        | .ok none => (s, ⟨403, some "mutability", "Cannot disable the last administrator via SCIM", none⟩)
        | .ok (some tx) => (tx, ⟨403, some "mutability", "Cannot disable the last administrator via SCIM", none⟩)
      | .done tx u₂ => finish s tx u₂ externalId (event "applied" none)
    | some true =>
      if u₁.isActive then finish s s u₁ externalId (event (if changed then "applied" else "no_op") none)
      else
        match enableUser s u₁ with
        | .error _ => raised s
        | .ok (tx, u₂) => finish s tx u₂ externalId (event "applied" none)
    | none =>
      if changed then
        match writeAudit s u₁ "scim_user_updated" "info" externalId with
        | .error _ => raised s
        | .ok tx => finish s tx u₁ externalId (event "applied" none)
      else finish s s u₁ externalId (event "no_op" none)

/-- `_external_id_for`: an error where the client's provider has two
identities for the user. -/
def externalIdFor (s : Db) (u : User) : Except ScimError (Option String) :=
  match s.identities.filter fun i => i.userId = u.id ∧ some i.providerId = client.providerId with
  | [] => .ok none
  | [i] => .ok (some i.subject)
  | _ => .error .uncaught

variable (py : Py)

def patchUser (s : Db) (u : User) (payload : Json) : Outcome :=
  match payload with
  | .obj kvs =>
    if (kvs.lookup "Operations").isNone then
      (s, (ScimError.http 400 (some "invalidSyntax") "PATCH body must include Operations").response)
    else
      let payloadHash := py.payloadHash payload
      match externalIdFor client s u with
      | .error e => (s, e.response)
      | .ok externalId =>
        if s.existingEvent (buildIdempotencyKey client externalId "patch" payloadHash) then
          (s, scimResponse u externalId)
        else
          match patchMutation py kvs with
          | .error e => (s, e.response)
          | .ok m => applyMutation client s u "patch" payloadHash externalId m
  | _ => (s, (ScimError.http 400 (some "invalidSyntax") "PATCH body must include Operations").response)

/-- The external id a `PUT` carries in its payload. -/
def putExternalId (kvs : List (String × Json)) : Option String :=
  match get kvs "externalId" with
  | .str e => some e
  | _ => none

def replaceUser (s : Db) (u : User) (payload : Json) : Outcome :=
  match payload with
  | .obj kvs =>
    match replaceMutation py kvs with
    | .error e => (s, e.response)
    | .ok m => applyMutation client s u "replace" (py.payloadHash payload) (putExternalId kvs) m
  | _ => (s, (ScimError.http 400 (some "invalidSyntax") "Request body must be a SCIM User").response)

def deletePayload : Json := .obj [("active", .bool false)]

def deleteUser (s : Db) (u : User) : Outcome :=
  match externalIdFor client s u with
  | .error e => (s, e.response)
  | .ok externalId =>
    let (s', r) := applyMutation client s u "delete" (py.payloadHash deletePayload) externalId ⟨some false, none, none⟩
    if r.status = 200 ∨ r.status = 204 then (s', ⟨204, none, "", none⟩) else (s', r)

def handle (s : Db) (r : Request) : Outcome :=
  match s.user? r.userId with
  | none => (s, (ScimError.http 404 none ("User " ++ toString r.userId ++ " not found")).response)
  | some u =>
    match r with
    | .patch _ payload => patchUser client py s u payload
    | .put _ payload => replaceUser client py s u payload
    | .delete _ => deleteUser client py s u

/-! ## Runs -/

/-- A request of the client, or any other writer of users and identities. -/
inductive Act where
  | request (r : Request)
  | other (users : List User) (identities : List UserIdentity)

def next (s : Db) : Act → Option Db
  | .request r => some (handle client py s r).1
  | .other users identities =>
    let s' := { s with users := users, identities := identities }
    if s'.Wf then some s' else none

end

end Cograph.Scim
