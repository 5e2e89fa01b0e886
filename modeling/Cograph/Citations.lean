import Cograph.Regex
import Cograph.Strs

/-!
# The citation gate of a wiki page

`wiki/evidence_ledger.py` and `wiki/citation_gate.py`: the ledger of the
evidence the page's tool calls verified, the citations of a body it does not
hold, and the plain text put in their place. An evidence record is kept with
its id, source, qualified name and file path, which is what the gates read.
-/

namespace Cograph.Wiki

inductive EvidenceSource where
  | codeNode
  | file
  | doc
  deriving DecidableEq

structure EvidenceRecord where
  recordId : Str
  source : EvidenceSource
  qn : Option Str
  filePath : Option Str
  deriving DecidableEq

/-! ## The ledger -/

/-- `VerifiedEvidenceLedger`, one record an id. -/
structure Ledger where
  records : List EvidenceRecord
  nodup : (records.map (·.recordId)).Nodup

namespace Ledger

def empty : Ledger := ⟨[], List.nodup_nil⟩

/-- `record`. -/
def record (l : Ledger) (e : EvidenceRecord) : Ledger :=
  if h : e.recordId ∈ l.records.map (·.recordId) then l
  else ⟨l.records ++ [e], by
    rw [List.map_append, List.nodup_append]
    exact ⟨l.nodup, by simp, by simpa [ne_comm] using h⟩⟩

def recordAll (l : Ledger) (es : List EvidenceRecord) : Ledger := es.foldl record l

def texts (l : Ledger) (s : EvidenceSource) (f : EvidenceRecord → Option Str) : List Str :=
  l.records.filterMap fun r => if r.source = s then (f r).filter (· ≠ []) else none

def verifiedNodeQns (l : Ledger) : List Str := l.texts .codeNode (·.qn)

def verifiedFilePaths (l : Ledger) : List Str := l.texts .file (·.filePath)

def verifiedDocPaths (l : Ledger) : List Str := l.texts .doc (·.filePath)

end Ledger

/-! ## Placeholders -/

inductive CitationKind where
  | node
  | doc
  deriving DecidableEq

def CitationKind.text : CitationKind → Str
  | .node => "node".toList
  | .doc => "doc".toList

/-- `PLACEHOLDER_RE`, `\[\[(node|doc):([^\]]+)\]\]`. -/
def placeholderRe : Regex :=
  .seq (.lit "[[".toList) <|
  .seq (.group 1 (.alt (.lit "node".toList) (.lit "doc".toList))) <|
  .seq (.lit ":".toList) <|
  .seq (.group 2 (.plus (.sat (· ≠ ']')))) <|
  .lit "]]".toList

/-- The kind of a match, `match.group(1)`. -/
def kindOf (m : Regex.Match) : CitationKind := if m.group 1 = CitationKind.node.text then .node else .doc

/-- `match.group(2).strip()`. -/
def valueOf (m : Regex.Match) : Str := Str.strip (m.group 2)

structure InvalidCitation where
  kind : CitationKind
  value : Str
  position : Nat
  deriving DecidableEq

def stripDocAnchor (value : Str) : Str := Str.lstripDotSlash (Str.strip (value.takeWhile (· ≠ '#')))

inductive DocPathMatch where
  | exact
  | pre
  deriving DecidableEq

def docPathVerified (path : Str) (verifiedDocs : List Str) (mode : DocPathMatch) : Bool :=
  if path = [] then false
  else
    match mode with
    | .exact => path ∈ verifiedDocs
    | .pre => path ∈ verifiedDocs

/-- What the ledger must hold for a citation to stand. -/
def verified (ledger : Ledger) (mode : DocPathMatch) : CitationKind → Str → Bool
  | .node, value => value ∈ ledger.verifiedNodeQns
  | .doc, value => docPathVerified (stripDocAnchor value) ledger.verifiedDocPaths mode

def validateCitations (markdown : Str) (ledger : Ledger) (mode : DocPathMatch) : List InvalidCitation :=
  (Regex.finditer placeholderRe markdown).filterMap fun (i, m) =>
    if valueOf m = [] then none
    else if verified ledger mode (kindOf m) (valueOf m) then none
    else some ⟨kindOf m, valueOf m, i⟩

/-- The text an invalid citation gives way to. -/
def plainText (kind : CitationKind) (value : Str) : Str :=
  match kind with
  | .node => if value = [] then [] else '`' :: value ++ ['`']
  | .doc => value

def stripInvalidCitations (markdown : Str) (invalid : List InvalidCitation) : Str :=
  if invalid = [] then markdown
  else
    Regex.sub placeholderRe (fun m =>
      if (kindOf m, valueOf m) ∈ invalid.map (fun c => (c.kind, c.value)) then plainText (kindOf m) (valueOf m)
      else m.text) markdown

end Cograph.Wiki
