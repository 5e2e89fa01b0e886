import Cograph.Coverage

/-!
# The repair loops of a wiki page

`_run_citation_gate_loop` and `_run_coverage_gate_loop` of `wiki/pipeline.py`,
one after the other as `_write_one` runs them. A repair call is the evidence
its tool calls record and what the model replies. Of the telemetry the quality
status is kept.
-/

namespace Cograph.Wiki

inductive QualityStatus where
  | ok
  | partly
  | degraded
  deriving DecidableEq

/-- `captured_markdown` and `final_text` after a call. -/
structure Reply where
  captured : Option Str
  finalText : Str

/-- One `complete_with_tools`, without a reply where it raises
`StructuredCompletionError`. -/
structure RepairCall where
  evidence : List EvidenceRecord
  reply : Option Reply

def Reply.repaired (r : Reply) : Str := Str.strip ((r.captured.filter (· ≠ [])).getD r.finalText)

/-- The body and the dispatcher's ledger. -/
structure Draft where
  body : Str
  ledger : Ledger

def citationGateMaxRepairs : Nat := 3

def coverageGateMaxRepairs : Nat := 1

/-! ## Citations -/

/-- The repair loop, with the citations the last validation rejected. -/
def repairCitations (calls : Nat → RepairCall) : Nat → Nat → Draft → List InvalidCitation → Draft × List InvalidCitation
  | 0, _, d, invalid => (d, invalid)
  | left + 1, attempt, d, invalid =>
    if invalid = [] then (d, invalid)
    else
      let ledger := d.ledger.recordAll (calls attempt).evidence
      match (calls attempt).reply with
      | none => (⟨d.body, ledger⟩, invalid)
      | some r =>
        let body := if r.repaired = [] then d.body else r.repaired
        repairCitations calls left (attempt + 1) ⟨body, ledger⟩ (validateCitations body ledger .pre)

/-- The text the loop ends with and what is still rejected in it. -/
def citationRepairs (calls : Nat → RepairCall) (d : Draft) : Draft × List InvalidCitation :=
  repairCitations calls citationGateMaxRepairs 0 d (validateCitations d.body d.ledger .pre)

def runCitationGateLoop (calls : Nat → RepairCall) (d : Draft) : Draft × QualityStatus :=
  let (d, invalid) := citationRepairs calls d
  if invalid = [] then (d, .ok) else (⟨stripInvalidCitations d.body invalid, d.ledger⟩, .degraded)

/-! ## Coverage -/

def QualityStatus.rank : QualityStatus → Nat
  | .ok => 0
  | .partly => 1
  | .degraded => 2

def downgradeStatus (current new : QualityStatus) : QualityStatus := if new.rank ≤ current.rank then current else new

def repairCoverage (covers : List ReaderQuestion) (calls : Nat → RepairCall) :
    Nat → Nat → Draft → CoverageResult → Draft × CoverageResult
  | 0, _, d, result => (d, result)
  | left + 1, attempt, d, result =>
    if result.isClean then (d, result)
    else
      let ledger := d.ledger.recordAll (calls attempt).evidence
      match (calls attempt).reply with
      | none => (⟨d.body, ledger⟩, result)
      | some r =>
        let body := if r.repaired = [] then d.body else ensureInferredAnswerMarkers r.repaired covers ledger
        repairCoverage covers calls left (attempt + 1) ⟨body, ledger⟩ (validateCoverage body covers ledger)

/-- The final fallback. -/
def stripToShip (body : Str) (result : CoverageResult) : Str :=
  let body := if result.hasForbiddenSection then stripForbiddenSections body else body
  if result.markersWithoutGrounding = [] then body else stripUnansweredMarkers body result.markersWithoutGrounding

def fallbackStatus (current : QualityStatus) (result final : CoverageResult) : QualityStatus :=
  let outcome : QualityStatus :=
    match coverageOutcome final with
    | .openQuestionsForbidden | .testStrategyForbidden | .comparisonForbidden => .degraded
    | .ok | .partialCoverage => .partly
  downgradeStatus current (if result.hasForbiddenSection then downgradeStatus outcome .degraded else outcome)

def runCoverageGateLoop (covers : List ReaderQuestion) (calls : Nat → RepairCall) (d : Draft)
    (status : QualityStatus) : Draft × QualityStatus :=
  if covers = [] then (d, status)
  else
    let body := ensureInferredAnswerMarkers d.body covers d.ledger
    let (d, result) := repairCoverage covers calls coverageGateMaxRepairs 0 ⟨body, d.ledger⟩
      (validateCoverage body covers d.ledger)
    if result.isClean then (d, status)
    else
      let shipped := stripToShip d.body result
      (⟨shipped, d.ledger⟩, fallbackStatus status result (validateCoverage shipped covers d.ledger))

/-- The gates of `_write_one`. -/
def runGates (covers : List ReaderQuestion) (citationCalls coverageCalls : Nat → RepairCall) (d : Draft) :
    Draft × QualityStatus :=
  let (d, status) := runCitationGateLoop citationCalls d
  runCoverageGateLoop covers coverageCalls d status

end Cograph.Wiki
