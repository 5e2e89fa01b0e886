import Cograph.Collections

/-!
# Requests to the collections API

`api/md_collections.py`: every endpoint of the router as a function of the
tables, the caller and the request. Documents are kept by their key, collection,
source key and content. Parsing of bodies and what the read endpoints answer is
left out; the payload of an update is one that passed its validators, which take
the two source fields together or not at all.
-/

namespace Cograph.Collections

open Kleene Scim
open Access (GrantLevel GroupMember)
open Uploads (ApiError MdJobKind MdJobStatus)

structure MdDocument where
  id : Nat
  collectionId : Nat
  sourceKey : Str
  content : Str
  deriving DecidableEq

structure MdDocumentInput where
  sourceKey : Str
  content : Str
  deriving DecidableEq

structure State where
  db : Tables
  documents : List MdDocument
  repositories : List Nat

structure CreatePayload where
  name : Str
  description : Option Str
  visibility : MdCollectionVisibility

/-- `UpdateMdCollectionRequest`; `source` is `none` where the two fields are not
set, and `some none` where both are set to null. -/
structure UpdatePayload where
  name : Option Str
  description : Option Str
  visibility : Option MdCollectionVisibility
  source : Option (Option (Nat × Str))

/-! ## Rows -/

namespace Tables

/-- The row of a collection after a commit. -/
def put (db : Tables) (c : MdCollection) : Tables :=
  { db with
    collections := db.collections.map fun x => if x.id = c.id then c else x
    ids := by
      have hids : (db.collections.map fun x => if x.id = c.id then c else x).map (·.id) = db.collections.map (·.id) := by
        rw [List.map_map]
        apply List.map_congr_left
        intro x _
        by_cases hx : x.id = c.id <;> simp [hx]
      rw [hids]
      exact db.ids }

def add (db : Tables) (c : MdCollection) : Tables :=
  if h : c.id ∈ db.collections.map (·.id) then db
  else
    { db with
      collections := db.collections ++ [c]
      ids := by
        rw [List.map_append, List.nodup_append]
        exact ⟨db.ids, by simp, by simpa [ne_comm] using h⟩ }

/-- Deletes a collection with the rows that hang on it. -/
def remove (db : Tables) (collectionId : Nat) : Tables where
  collections := db.collections.filter (·.id ≠ collectionId)
  grants := db.grants.filter (·.collectionId ≠ collectionId)
  members := db.members
  jobs := db.jobs.filter (·.collectionId ≠ collectionId)
  ids := db.ids.sublist (List.filter_sublist.map _)

def addJob (db : Tables) (job : MdJob) : Tables := { db with jobs := db.jobs ++ [job] }

end Tables

/-! ## Gates and validators -/

def requireCurrentUser : Option User → Except ApiError User
  | none => .error ⟨401, "UNAUTHENTICATED".toList, "Authentication required".toList⟩
  | some user => .ok user

/-- The back-compat shim: the ladder at WRITE. -/
def requireCollectionOwnerOrAdmin (db : Tables) (user : User) (collectionId : Nat) : Except ApiError MdCollection :=
  requireCollectionForMutation db user collectionId .write

def requireCollectionName (name : Str) : Except ApiError Str :=
  let normalized := Str.strip name
  if normalized = [] then .error ⟨422, "VALIDATION_FAILED".toList, "name is required".toList⟩
  else if 255 < normalized.length then
    .error ⟨422, "VALIDATION_FAILED".toList, "name must be at most 255 characters".toList⟩
  else .ok normalized

def duplicateName (name : Str) : ApiError :=
  ⟨409, "DUPLICATE_NAME".toList, "A collection named '".toList ++ name ++ "' already exists.".toList⟩

def refuseIf (p : Prop) [Decidable p] (e : ApiError) : Except ApiError Unit := if p then .error e else .ok ()

/-! ## Endpoints -/

def createMdCollection (s : State) (currentUser : Option User) (newId : Nat) (payload : CreatePayload) :
    Except ApiError State := do
  let user ← requireCurrentUser currentUser
  let name ← requireCollectionName payload.name
  refuseIf (∃ c ∈ s.db.collections, c.name = name) (duplicateName name)
  return { s with db := s.db.add ⟨newId, name, payload.description, some user.id, payload.visibility, none, none⟩ }

/-- The binding of a collection to a folder of a repository. -/
def bindSource (s : State) (user : User) (c : MdCollection) : Option (Option (Nat × Str)) → Except ApiError MdCollection
  | none => .ok c
  | some source =>
    if ¬isAdmin user then
      .error ⟨403, "FORBIDDEN".toList, "Only admins can bind a collection to a repository".toList⟩
    else
      match source with
      | none => .ok { c with sourceRepositoryId := none, sourcePath := none }
      | some (repository, path) =>
        if repository ∉ s.repositories then .error ⟨404, "NOT_FOUND".toList, "Repository not found".toList⟩
        else .ok { c with sourceRepositoryId := some repository, sourcePath := some path }

def rename (db : Tables) (c : MdCollection) : Option Str → Except ApiError MdCollection
  | none => .ok c
  | some name => do
    let newName ← requireCollectionName name
    refuseIf (newName ≠ c.name ∧ ∃ x ∈ db.collections, x.name = newName ∧ x.id ≠ c.id) (duplicateName newName)
    return { c with name := newName }

def updateMdCollection (s : State) (currentUser : Option User) (collectionId : Nat) (payload : UpdatePayload) :
    Except ApiError State := do
  let user ← requireCurrentUser currentUser
  let collection ← requireCollectionOwnerOrAdmin s.db user collectionId
  let bound ← bindSource s user collection payload.source
  let named ← rename s.db bound payload.name
  return { s with db := s.db.put { named with
    description := payload.description.or named.description
    visibility := payload.visibility.getD named.visibility } }

def deleteMdCollection (s : State) (currentUser : Option User) (collectionId : Nat) : Except ApiError State := do
  let user ← requireCurrentUser currentUser
  let collection ← getReadableMdCollection s.db (some user) collectionId
  refuseIf (¬(collection.ownerId = some user.id ∨ isAdmin user)) forbidden
  return { s with
    db := s.db.remove collectionId
    documents := s.documents.filter (·.collectionId ≠ collectionId) }

/-- One document of an upload, keyed by its source key. -/
def upsertDocument (collectionId newId : Nat) (documents : List MdDocument) (document : MdDocumentInput) :
    List MdDocument :=
  if ∃ d ∈ documents, d.collectionId = collectionId ∧ d.sourceKey = document.sourceKey then
    documents.map fun d =>
      if d.collectionId = collectionId ∧ d.sourceKey = document.sourceKey then { d with content := document.content }
      else d
  else documents ++ [⟨newId, collectionId, document.sourceKey, document.content⟩]

/-- `_enqueue_md_rag_jobs`: a job to embed and one to resolve links. -/
def enqueueMdRagJobs (db : Tables) (collectionId newJobId : Nat) : Tables :=
  (db.addJob ⟨newJobId, collectionId, .embed, .queued, 0⟩).addJob ⟨newJobId + 1, collectionId, .resolveLinks, .queued, 0⟩

/-- The single upload is a batch of one. -/
def uploadMdDocumentBatch (s : State) (currentUser : Option User) (collectionId newId newJobId : Nat)
    (inputs : List MdDocumentInput) : Except ApiError State := do
  let user ← requireCurrentUser currentUser
  let _ ← requireCollectionOwnerOrAdmin s.db user collectionId
  let documents := inputs.foldl (upsertDocument collectionId newId) s.documents
  return { s with
    db := if documents = s.documents then s.db else enqueueMdRagJobs s.db collectionId newJobId
    documents := documents }

def deleteMdDocument (s : State) (currentUser : Option User) (collectionId documentId : Nat) : Except ApiError State := do
  let user ← requireCurrentUser currentUser
  let _ ← requireCollectionOwnerOrAdmin s.db user collectionId
  refuseIf (¬∃ d ∈ s.documents, d.collectionId = collectionId ∧ d.id = documentId)
    ⟨404, "NOT_FOUND".toList, "Document not found".toList⟩
  return { s with documents := s.documents.filter fun d => ¬(d.collectionId = collectionId ∧ d.id = documentId) }

def retryMdJob (s : State) (currentUser : Option User) (jobId newJobId : Nat) : Except ApiError State := do
  let user ← requireCurrentUser currentUser
  match s.db.jobs.find? (·.id = jobId) with
  | none => .error ⟨404, "NOT_FOUND".toList, "Job not found".toList⟩
  | some original => do
    let _ ← requireCollectionOwnerOrAdmin s.db user original.collectionId
    return { s with db := s.db.addJob ⟨newJobId, original.collectionId, original.kind, .queued, 0⟩ }

def reembedMdCollection (s : State) (currentUser : Option User) (collectionId newJobId : Nat) :
    Except ApiError State := do
  let user ← requireCurrentUser currentUser
  let _ ← requireCollectionOwnerOrAdmin s.db user collectionId
  return { s with db := s.db.addJob ⟨newJobId, collectionId, .embed, .queued, 0⟩ }

/-- The endpoints that answer from the rows of one collection: the collection,
a document, its chunks, the embed status, the search and the jobs. -/
def readMdCollection (s : State) (currentUser : Option User) (collectionId : Nat) : Except ApiError State := do
  let _ ← getReadableMdCollection s.db currentUser collectionId
  return s

inductive Request where
  | list
  | create (newId : Nat) (payload : CreatePayload)
  | get (collectionId : Nat)
  | update (collectionId : Nat) (payload : UpdatePayload)
  | delete (collectionId : Nat)
  | uploadDocument (collectionId newId newJobId : Nat) (input : MdDocumentInput)
  | uploadDocumentBatch (collectionId newId newJobId : Nat) (inputs : List MdDocumentInput)
  | getDocument (collectionId : Nat)
  | deleteDocument (collectionId documentId : Nat)
  | listDocumentChunks (collectionId : Nat)
  | embedStatus (collectionId : Nat)
  | search (collectionId : Nat)
  | listAllJobs
  | listJobs (collectionId : Nat)
  | retryJob (jobId newJobId : Nat)
  | reembed (collectionId newJobId : Nat)

def handle (s : State) (currentUser : Option User) : Request → Except ApiError State
  | .list => .ok s
  | .create newId payload => createMdCollection s currentUser newId payload
  | .update collectionId payload => updateMdCollection s currentUser collectionId payload
  | .delete collectionId => deleteMdCollection s currentUser collectionId
  | .uploadDocument collectionId newId newJobId input =>
    uploadMdDocumentBatch s currentUser collectionId newId newJobId [input]
  | .uploadDocumentBatch collectionId newId newJobId inputs =>
    uploadMdDocumentBatch s currentUser collectionId newId newJobId inputs
  | .deleteDocument collectionId documentId => deleteMdDocument s currentUser collectionId documentId
  | .listAllJobs => (requireCurrentUser currentUser).map fun _ => s
  | .retryJob jobId newJobId => retryMdJob s currentUser jobId newJobId
  | .reembed collectionId newJobId => reembedMdCollection s currentUser collectionId newJobId
  | .get collectionId | .getDocument collectionId | .listDocumentChunks collectionId | .embedStatus collectionId
  | .search collectionId | .listJobs collectionId => readMdCollection s currentUser collectionId

/-- The rows after a request; one that is refused is rolled back. -/
def handled (s : State) (currentUser : Option User) (request : Request) : State :=
  match handle s currentUser request with
  | .error _ => s
  | .ok s' => s'

end Cograph.Collections
