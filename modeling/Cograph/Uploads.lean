import Cograph.Machine
import Cograph.Strs

/-!
# Progress of a bulk upload

`api/md_collections.py`: the job row that counts the documents of a bulk upload
and the batch requests attached to it. A request loads the row when it attaches,
stores its documents, and advances the row from the copy it loaded; each of the
three ends in a commit of its own. Of the row's `result_summary` the two counters
are kept, `none` where the key is missing. Timestamps and error texts of the job
are left out.
-/

namespace Cograph.Uploads

inductive MdJobKind where
  | embed
  | resolveLinks
  | upload
  deriving DecidableEq

inductive MdJobStatus where
  | queued
  | running
  | success
  | error
  deriving DecidableEq

/-- `result_summary`. -/
structure Summary where
  total : Option Nat
  processed : Option Nat
  deriving DecidableEq

structure MdJob where
  collectionId : Nat
  kind : MdJobKind
  status : MdJobStatus
  resultSummary : Summary
  deriving DecidableEq

structure ApiError where
  status : Nat
  code : Str
  message : Str
  deriving DecidableEq

/-- The documents of a batch by their number. -/
structure Batch where
  collectionId : Nat
  documents : Nat
  uploadFinal : Bool
  deriving DecidableEq

/-! ## The row -/

/-- `_attach_or_create_upload_job` with a job id, given the row of that id. -/
def attachUploadJob (collectionId : Nat) : Option MdJob → Except ApiError MdJob
  | none => .error ⟨404, "NOT_FOUND".toList, "Upload job not found".toList⟩
  | some job =>
    if job.collectionId ≠ collectionId then
      .error ⟨403, "FORBIDDEN".toList, "Upload job belongs to another collection".toList⟩
    else if job.kind ≠ .upload then .error ⟨409, "INVALID_JOB_KIND".toList, "Job is not an upload tracker".toList⟩
    else if job.status ≠ .queued ∧ job.status ≠ .running then
      .error ⟨409, "JOB_TERMINAL".toList, "Upload job has already finished".toList⟩
    else .ok job

/-- The same without a job id. -/
def createUploadJob (collectionId uploadTotal : Nat) : MdJob where
  collectionId := collectionId
  kind := .upload
  status := .queued
  resultSummary := ⟨some uploadTotal, some 0⟩

/-- `int(summary.get("processed", 0))`. -/
def MdJob.processed (job : MdJob) : Nat := job.resultSummary.processed.getD 0

def MdJob.total (job : MdJob) : Nat := job.resultSummary.total.getD 0

/-- The batch is the last one, or the copy's counter reaches its total. -/
def completes (job : MdJob) (batch : Batch) : Bool :=
  batch.uploadFinal ∨ 0 < job.total ∧ job.total ≤ job.processed + batch.documents

/-- `_advance_upload_job`: what the commit makes of the row. A column is written
where the copy has changed it. -/
def advanceUploadJob (job : MdJob) (batch : Batch) (row : MdJob) : MdJob :=
  let summary := { job.resultSummary with processed := some (job.processed + batch.documents) }
  { row with
    resultSummary := if summary = job.resultSummary then row.resultSummary else summary
    status := if completes job batch then .success else if job.status = .queued then .running else row.status }

/-! ## The requests -/

inductive Stage where
  | attached
  | stored
  | done
  | failed
  deriving DecidableEq

/-- A request with the row its session loaded. -/
structure Request where
  batch : Batch
  job : MdJob
  stage : Stage
  deriving DecidableEq

def Request.Live (r : Request) : Prop := r.stage = .attached ∨ r.stage = .stored

instance (r : Request) : Decidable r.Live := inferInstanceAs (Decidable (_ ∨ _))

/-- The row of one upload job and its requests. -/
structure System where
  job : Option MdJob
  requests : List Request

inductive Action where
  | create (batch : Batch) (uploadTotal : Nat)
  | attach (batch : Batch)
  | upsert (i : Nat)
  | advance (i : Nat)
  | fail (i : Nat)
  deriving DecidableEq

namespace System

def moved (s : System) (i : Nat) (r : Request) (stage : Stage) : List Request := s.requests.set i { r with stage := stage }

/-- One committed step of a request. A request that is refused leaves nothing
behind, and a live one can fail at any time. -/
def next (s : System) : Action → Option System
  | .create batch uploadTotal =>
    match s.job with
    | some _ => none
    | none =>
      let job := createUploadJob batch.collectionId uploadTotal
      some ⟨some job, s.requests ++ [⟨batch, job, .attached⟩]⟩
  | .attach batch =>
    match attachUploadJob batch.collectionId s.job with
    | .error _ => some s
    | .ok job => some { s with requests := s.requests ++ [⟨batch, job, .attached⟩] }
  | .upsert i =>
    match s.requests[i]? with
    | none => none
    | some r => if r.stage = .attached then some { s with requests := s.moved i r .stored } else none
  | .advance i =>
    match s.requests[i]?, s.job with
    | some r, some row =>
      if r.stage = .stored then some ⟨some (advanceUploadJob r.job r.batch row), s.moved i r .done⟩ else none
    | _, _ => none
  | .fail i =>
    match s.requests[i]? with
    | none => none
    | some r => if r.Live then some { s with requests := s.moved i r .failed } else none

def processed (s : System) : Nat := (s.job.map (·.processed)).getD 0

def status (s : System) : Option MdJobStatus := s.job.map (·.status)

/-- The documents of the requests that succeeded. -/
def uploaded (s : System) : Nat := (s.requests.map fun r => if r.stage = .done then r.batch.documents else 0).sum

def Finished (s : System) : Prop := ∀ r ∈ s.requests, ¬r.Live

/-- A system before its first request: there is no job yet, or one that has
counted nothing. -/
def Initial (s : System) : Prop := s.requests = [] ∧ s.processed = 0

end System

end Cograph.Uploads
