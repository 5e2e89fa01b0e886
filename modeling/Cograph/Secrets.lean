import Cograph.Admins
import Cograph.Sealing
import Cograph.Strs

/-!
# Stored secrets and the walk that re-encrypts them

`admin/secret_service.py`, `admin/secret_reencryption.py`, `auth/oidc_cipher.py`
and the command that runs the walk. The keys of LLM providers and the client
secrets of identity providers are stored under a key that the settings of the
running process give, and processes with different settings run side by side
while an operator moves to an independent key. The walk reads the secrets, then
flushes their updates, which locks those rows, and reads the identity
providers; it commits at its end. It may die in between.
-/

namespace Cograph.Secrets

open Sealing
open Admins (ApiError)

/-! ## Ciphers -/

structure Settings where
  jwtSecret : Str
  llmEncryptionSecret : Option Str
  oidcEncryptionSecret : Option Str
  deriving DecidableEq

/-- Fernet and the digest that its keys are derived with. -/
structure Crypto (Key : Type) where
  key : Str → Key
  fernet : Scheme Key Str Str

inductive Table where
  | llmSecrets
  | identityProviders
  deriving DecidableEq, Repr

def Table.name : Table → String
  | llmSecrets => "llm_secrets"
  | identityProviders => "identity_providers"

def llmSecretsDomain : Str := "cograph-provider-secrets:".toList

def oidcSecretsDomain : Str := "cograph-oidc-secrets:".toList

section
variable {Key : Type} (crypto : Crypto Key)

def fernetKey (independent : Option Str) (domain : Str) (settings : Settings) (forceLegacy : Bool) : Key :=
  match independent, forceLegacy with
  | some master, false => crypto.key master
  | _, _ => crypto.key (domain ++ settings.jwtSecret)

def llmFernetKey (settings : Settings) (forceLegacy : Bool) : Key :=
  fernetKey crypto settings.llmEncryptionSecret llmSecretsDomain settings forceLegacy

def oidcFernetKey (settings : Settings) (forceLegacy : Bool) : Key :=
  fernetKey crypto settings.oidcEncryptionSecret oidcSecretsDomain settings forceLegacy

/-- The key of `SecretCipher` or of `OIDCSecretCipher`. -/
def cipher (table : Table) (settings : Settings) (forceLegacy : Bool) : Key :=
  match table with
  | .llmSecrets => llmFernetKey crypto settings forceLegacy
  | .identityProviders => oidcFernetKey crypto settings forceLegacy

def decryptFailed : Table → ApiError
  | .llmSecrets => ⟨500, "SECRET_DECRYPT_FAILED", "Stored API secret could not be decrypted"⟩
  | .identityProviders => ⟨500, "OIDC_SECRET_DECRYPT_FAILED", "Stored OIDC client secret could not be decrypted"⟩

def decrypt (table : Table) (settings : Settings) (token : Str) : Except ApiError Str :=
  match crypto.fernet.open? (cipher crypto table settings false) token with
  | some plaintext => .ok plaintext
  | none => .error (decryptFailed table)

/-! ## The walk over one table -/

structure ReencryptionStats where
  table : Table
  total : ℕ
  alreadyMigrated : ℕ
  migrated : ℕ
  failed : ℕ
  failedIds : List ℕ
  deriving DecidableEq, Repr

/-- One row: the counts, and the values that are set on the rows so far. -/
def reencryptRow (legacy current : Key) (ivs : ℕ → ℕ) (acc : ReencryptionStats × List (ℕ × Str))
    (row : ℕ × Option Str) : ReencryptionStats × List (ℕ × Str) :=
  let (stats, sets) := acc
  let (id, ciphertext) := row
  match ciphertext with
  | none | some [] => ({ stats with alreadyMigrated := stats.alreadyMigrated + 1 }, sets)
  | some token =>
    match rekey crypto.fernet legacy current (ivs id) token with
    | .already => ({ stats with alreadyMigrated := stats.alreadyMigrated + 1 }, sets)
    | .failed => ({ stats with failed := stats.failed + 1, failedIds := stats.failedIds ++ [id] }, sets)
    | .migrated token' => ({ stats with migrated := stats.migrated + 1 }, sets ++ [(id, token')])

/-- `_reencrypt_llm_secrets` and `_reencrypt_oidc_secrets`. -/
def reencryptTable (table : Table) (settings : Settings) (ivs : ℕ → ℕ) (rows : List (ℕ × Option Str)) :
    ReencryptionStats × List (ℕ × Str) :=
  let legacy := cipher crypto table settings true
  let current := cipher crypto table settings false
  rows.foldl (reencryptRow crypto legacy current ivs) (⟨table, rows.length, 0, 0, 0, []⟩, [])

end

structure ReencryptionReport where
  llm : ReencryptionStats
  oidc : ReencryptionStats
  dryRun : Bool
  deriving DecidableEq, Repr

def ReencryptionReport.hasFailures (r : ReencryptionReport) : Bool := 0 < r.llm.failed ∨ 0 < r.oidc.failed

/-- What the command returns. -/
def ReencryptionReport.exitCode (r : ReencryptionReport) : ℕ := if r.hasFailures then 1 else 0

/-! ## Tables -/

structure LLMSecret where
  id : ℕ
  name : Str
  apiUrl : Str
  apiKeyEncrypted : Str
  updatedBy : ℕ
  deriving DecidableEq, Repr

structure IdentityProvider where
  id : ℕ
  slug : Str
  clientSecretEncrypted : Option Str
  deriving DecidableEq, Repr

/-- `LLM_ROLES`. -/
inductive Role where
  | embedding
  | completionFast
  | completionWriter
  | completionReasoning
  deriving DecidableEq, Repr

/-- `LLM_REASONING_EFFORTS`. -/
inductive Effort where
  | minimal
  | none
  | low
  | medium
  | high
  | xhigh
  deriving DecidableEq, Repr

/-- The key of the table is the role. -/
structure LLMModelAssignment where
  role : Role
  secretId : ℕ
  modelName : Str
  reasoningEffort : Option Effort
  embeddingDim : Option ℕ
  deriving DecidableEq, Repr

/-- A walk that has read `llm_secrets`, and `identity_providers` when `oidc` is
set. -/
structure Walk where
  id : ℕ
  settings : Settings
  dryRun : Bool
  llm : ReencryptionStats × List (ℕ × Str)
  oidc : Option (ReencryptionStats × List (ℕ × Str))
  deriving DecidableEq

structure St where
  nextId : ℕ
  secrets : List LLMSecret
  providers : List IdentityProvider
  assignments : List LLMModelAssignment
  nextWalk : ℕ
  walks : List Walk
  /-- What the walks that came to their end have printed. -/
  reports : List (ℕ × ReencryptionReport)
  deriving DecidableEq

/-! ## Requests -/

structure SecretUpsertInput where
  name : Str
  apiUrl : Str
  apiKey : Option Str

/-- Each action of a process carries the settings it was started with and the
random numbers it draws. `checked` tells whether the driver reports how many
rows a flush has updated. -/
inductive Act where
  | createSecret (settings : Settings) (iv actorId : ℕ) (payload : SecretUpsertInput)
  | updateSecret (settings : Settings) (iv actorId secretId : ℕ) (payload : SecretUpsertInput)
  | deleteSecret (secretId : ℕ)
  | upsertAssignment (payload : LLMModelAssignment)
  | clearAssignment (role : Role)
  | createProvider (settings : Settings) (iv : ℕ) (slug : Str) (clientSecret : Option Str)
  | updateProvider (settings : Settings) (iv providerId : ℕ) (clientSecret : Option Str)
  | deleteProvider (providerId : ℕ) (inUse : Bool)
  | walkStart (settings : Settings) (ivs : ℕ → ℕ) (dryRun : Bool)
  | walkTurn (walkId : ℕ) (ivs : ℕ → ℕ) (checked : Bool)
  | walkEnd (walkId : ℕ) (checked : Bool)
  | walkDie (walkId : ℕ)

def normalize (payload : SecretUpsertInput) : SecretUpsertInput :=
  ⟨Str.strip payload.name, Str.strip payload.apiUrl, (payload.apiKey.map Str.strip).filter (· ≠ [])⟩

/-- The fields that fail, with their messages. -/
def fieldErrors (payload : SecretUpsertInput) (requireSecret : Bool) : List (String × String) :=
  (if payload.name = [] then [("name", "Secret name is required")] else []) ++
    (if payload.apiUrl = [] then [("api_url", "API URL is required")] else []) ++
      if requireSecret ∧ payload.apiKey.getD [] = [] then [("api_key", "API key is required")] else []

def validate (payload : SecretUpsertInput) (requireSecret : Bool) : Except ApiError Unit :=
  if fieldErrors payload requireSecret = [] then .ok ()
  else .error ⟨422, "VALIDATION_FAILED", "Secret validation failed"⟩

def embeddingDimDefault : ℕ := 1536

/-- `_validate_payload`: the fields that fail, with their codes. -/
def payloadErrors (payload : LLMModelAssignment) : List (String × String) :=
  if payload.role = .embedding then
    (if payload.embeddingDim ≠ some embeddingDimDefault then [("embedding_dim", "EMBEDDING_DIM_MISMATCH")] else []) ++
      if payload.reasoningEffort.isSome then [("reasoning_effort", "UNSUPPORTED_MODEL_CONFIG")] else []
  else
    (if payload.embeddingDim.isSome then [("embedding_dim", "UNSUPPORTED_MODEL_CONFIG")] else []) ++
      if payload.reasoningEffort.isSome ∧ payload.role ≠ .completionReasoning then
        [("reasoning_effort", "UNSUPPORTED_MODEL_CONFIG")]
      else []

/-- The constraints of `llm_model_assignments`. -/
def LLMModelAssignment.fits (row : LLMModelAssignment) : Bool :=
  (row.role = .embedding ∧ row.embeddingDim = some 1536 ∨ row.role ≠ .embedding ∧ row.embeddingDim = none) ∧
    (row.reasoningEffort = none ∨ row.role = .completionReasoning)

namespace St

variable {Key : Type} (crypto : Crypto Key) (s : St)

def assertNameAvailable (name : Str) (excludeId : Option ℕ) : Except ApiError Unit :=
  match s.secrets.find? (·.name = name) with
  | none => .ok ()
  | some row =>
    if excludeId = some row.id then .ok () else .error ⟨409, "SECRET_NAME_CONFLICT", "Secret name already exists"⟩

def secretNotFound : ApiError := ⟨404, "NOT_FOUND", "Secret not found"⟩

def createSecret (settings : Settings) (iv actorId : ℕ) (payload : SecretUpsertInput) : Except ApiError St := do
  let normalized := normalize payload
  validate normalized true
  s.assertNameAvailable normalized.name none
  let token := crypto.fernet.sealWith (cipher crypto .llmSecrets settings false) iv (normalized.apiKey.getD [])
  return { s with
    nextId := s.nextId + 1
    secrets := s.secrets ++ [⟨s.nextId, normalized.name, normalized.apiUrl, token, actorId⟩] }

/-- The columns that an update of a secret sets. -/
def setSecret (settings : Settings) (iv actorId : ℕ) (input : SecretUpsertInput) (row : LLMSecret) : LLMSecret :=
  { row with
    name := input.name
    apiUrl := input.apiUrl
    apiKeyEncrypted := match input.apiKey with
      | some apiKey => crypto.fernet.sealWith (cipher crypto .llmSecrets settings false) iv apiKey
      | none => row.apiKeyEncrypted
    updatedBy := actorId }

def updateSecret (settings : Settings) (iv actorId secretId : ℕ) (payload : SecretUpsertInput) : Except ApiError St :=
  if s.secrets.any (·.id = secretId) then do
    let normalized := normalize payload
    validate normalized false
    s.assertNameAvailable normalized.name (some secretId)
    let set := setSecret crypto settings iv actorId normalized
    return { s with secrets := s.secrets.map fun row => if row.id = secretId then set row else row }
  else .error secretNotFound

def rolesUsingSecret (secretId : ℕ) : List Role := (s.assignments.filter (·.secretId = secretId)).map (·.role)

def deleteSecret (secretId : ℕ) : Except ApiError St :=
  if s.secrets.any (·.id = secretId) then
    if s.rolesUsingSecret secretId ≠ [] then
      .error ⟨409, "SECRET_IN_USE", "Cannot delete a secret while it is assigned to one or more LLM roles"⟩
    else .ok { s with secrets := s.secrets.filter (·.id ≠ secretId) }
  else .error secretNotFound

/-- `_validate_secret`. -/
def validateSecret (secretId : ℕ) : Except ApiError Unit :=
  match s.secrets.find? (·.id = secretId) with
  | none => .error ⟨422, "VALIDATION_FAILED", "Selected secret does not exist"⟩
  | some secret =>
    if secret.apiKeyEncrypted = [] then .error ⟨422, "VALIDATION_FAILED", "Selected secret has no stored API key"⟩
    else .ok ()

def upsertAssignment (payload : LLMModelAssignment) : Except ApiError St :=
  if 1 ≤ payload.modelName.length ∧ payload.modelName.length ≤ 255 ∧ payloadErrors payload = [] then do
    s.validateSecret payload.secretId
    return { s with assignments := payload :: s.assignments.filter (·.role ≠ payload.role) }
  else .error ⟨422, "VALIDATION_FAILED", "LLM runtime assignment validation failed"⟩

def clearAssignment (role : Role) : St := { s with assignments := s.assignments.filter (·.role ≠ role) }

def createIdentityProvider (settings : Settings) (iv : ℕ) (slug : Str) (clientSecret : Option Str) :
    Except ApiError St :=
  let encrypted := (clientSecret.filter (· ≠ [])).map fun secret =>
    crypto.fernet.sealWith (cipher crypto .identityProviders settings false) iv secret
  if s.providers.any (·.slug = slug) then
    .error ⟨409, "IDP_SLUG_TAKEN", "An identity provider with this slug already exists."⟩
  else .ok { s with nextId := s.nextId + 1, providers := s.providers ++ [⟨s.nextId, slug, encrypted⟩] }

def setClientSecret (settings : Settings) (iv : ℕ) (clientSecret : Option Str) (row : IdentityProvider) :
    IdentityProvider :=
  match clientSecret with
  | none => row
  | some secret =>
    let token := crypto.fernet.sealWith (cipher crypto .identityProviders settings false) iv secret
    { row with clientSecretEncrypted := some token }

def updateIdentityProvider (settings : Settings) (iv providerId : ℕ) (clientSecret : Option Str) : Except ApiError St :=
  if s.providers.any (·.id = providerId) then
    let set := setClientSecret crypto settings iv clientSecret
    .ok { s with providers := s.providers.map fun row => if row.id = providerId then set row else row }
  else .error ⟨404, "IDP_NOT_FOUND", "Identity provider not found"⟩

def deleteIdentityProvider (providerId : ℕ) (inUse : Bool) : Except ApiError St :=
  if s.providers.any (·.id = providerId) then
    if inUse then .error ⟨409, "IDP_IN_USE",
      "This identity provider is linked to existing users. Disable it instead, or unlink users first."⟩
    else .ok { s with providers := s.providers.filter (·.id ≠ providerId) }
  else .error ⟨404, "IDP_NOT_FOUND", "Identity provider not found"⟩

/-! ## Readers -/

inductive ResolveError where
  | unconfigured (role : Role)
  | api (error : ApiError)
  deriving DecidableEq

structure ResolvedRoleClient where
  role : Role
  secretName : Str
  modelName : Str
  apiUrl : Str
  apiKey : Str
  reasoningEffort : Option Effort
  deriving DecidableEq

/-- `LLMRoleResolver.resolve`. -/
def resolve (settings : Settings) (role : Role) : Except ResolveError ResolvedRoleClient :=
  match s.assignments.find? (·.role = role) with
  | none => .error (.unconfigured role)
  | some row =>
    match s.secrets.find? (·.id = row.secretId) with
    | none => .error (.unconfigured role)
    | some secret =>
      if secret.apiKeyEncrypted = [] then .error (.unconfigured role)
      else
        match decrypt crypto .llmSecrets settings secret.apiKeyEncrypted with
        | .error e => .error (.api e)
        | .ok apiKey =>
          let effort := if role = .completionReasoning then row.reasoningEffort else none
          .ok ⟨role, secret.name, row.modelName, secret.apiUrl, apiKey, effort⟩

/-- The secret that `_build_oidc_client` gives its client. -/
def clientSecret (settings : Settings) (provider : IdentityProvider) : Except ApiError (Option Str) :=
  match provider.clientSecretEncrypted with
  | none | some [] => .ok none
  | some token => (decrypt crypto .identityProviders settings token).map some

/-! ## The walk -/

def secretRows : List (ℕ × Option Str) := s.secrets.map fun row => (row.id, some row.apiKeyEncrypted)

def providerRows : List (ℕ × Option Str) := s.providers.map fun row => (row.id, row.clientSecretEncrypted)

/-- The secrets whose updates a walk has flushed. -/
def locked (secretId : ℕ) : Bool :=
  s.walks.any fun w => w.oidc.isSome ∧ w.llm.2.any (·.1 = secretId)

def walk? (walkId : ℕ) : Option Walk := s.walks.find? (·.id = walkId)

def dropWalk (walkId : ℕ) : St := { s with walks := s.walks.filter (·.id ≠ walkId) }

def walkStart (settings : Settings) (ivs : ℕ → ℕ) (dryRun : Bool) : St :=
  let llm := reencryptTable crypto .llmSecrets settings ivs s.secretRows
  { s with nextWalk := s.nextWalk + 1, walks := ⟨s.nextWalk, settings, dryRun, llm, none⟩ :: s.walks }

/-- The flush, then the second read. A flush that is known to have missed a row
ends the walk with an error. -/
def walkTurn (w : Walk) (ivs : ℕ → ℕ) (checked : Bool) : St :=
  if checked → ∀ set ∈ w.llm.2, s.secrets.any (·.id = set.1) then
    let oidc := reencryptTable crypto .identityProviders w.settings ivs s.providerRows
    { s with walks := s.walks.map fun x => if x.id = w.id then { w with oidc := some oidc } else x }
  else s.dropWalk w.id

def setOf (sets : List (ℕ × Str)) (id : ℕ) : Option Str := (sets.find? (·.1 = id)).map (·.2)

def commitSets (llm oidc : List (ℕ × Str)) : St :=
  { s with
    secrets := s.secrets.map fun row => { row with apiKeyEncrypted := (setOf llm row.id).getD row.apiKeyEncrypted }
    providers := s.providers.map fun row =>
      { row with clientSecretEncrypted := (setOf oidc row.id).or row.clientSecretEncrypted } }

/-- A dry run is rolled back; else the rest is flushed and committed. -/
def walkEnd (w : Walk) (oidc : ReencryptionStats × List (ℕ × Str)) (checked : Bool) : St :=
  let printed := { s.dropWalk w.id with reports := (w.id, ⟨w.llm.1, oidc.1, w.dryRun⟩) :: s.reports }
  if w.dryRun then printed
  else if checked → ∀ set ∈ oidc.2, s.providers.any (·.id = set.1) then printed.commitSets w.llm.2 oidc.2
  else s.dropWalk w.id

end St

/-- An update of a locked row waits for the walk, and is a step when its turn
comes. -/
def next {Key : Type} (crypto : Crypto Key) (s : St) : Act → Option St
  | .createSecret settings iv actorId payload => (s.createSecret crypto settings iv actorId payload).toOption
  | .updateSecret settings iv actorId secretId payload =>
    if s.locked secretId then none else (s.updateSecret crypto settings iv actorId secretId payload).toOption
  | .deleteSecret secretId => if s.locked secretId then none else (s.deleteSecret secretId).toOption
  | .upsertAssignment payload => (s.upsertAssignment payload).toOption
  | .clearAssignment role => some (s.clearAssignment role)
  | .createProvider settings iv slug clientSecret =>
    (s.createIdentityProvider crypto settings iv slug clientSecret).toOption
  | .updateProvider settings iv providerId clientSecret =>
    (s.updateIdentityProvider crypto settings iv providerId clientSecret).toOption
  | .deleteProvider providerId inUse => (s.deleteIdentityProvider providerId inUse).toOption
  | .walkStart settings ivs dryRun => some (s.walkStart crypto settings ivs dryRun)
  | .walkTurn walkId ivs checked =>
    match s.walk? walkId with
    | some w =>
      if w.oidc.isSome ∨ w.llm.2.any (s.locked ·.1) then none else some (s.walkTurn crypto w ivs checked)
    | none => none
  | .walkEnd walkId checked =>
    match s.walk? walkId with
    | some w => w.oidc.map (s.walkEnd w · checked)
    | none => none
  | .walkDie walkId => some (s.dropWalk walkId)

structure Init (s : St) : Prop where
  secrets : s.secrets = []
  providers : s.providers = []
  assignments : s.assignments = []
  walks : s.walks = []
  reports : s.reports = []

end Cograph.Secrets
