import Cograph.Dict
import Cograph.Strs

/-!
# Blame

`graph/temporal.py`: the incremental output of `git blame`, the parser that
reads it line by line, and the commits of a node's lines. A time is its seconds
since the epoch. The output is the decoded text; a carriage return ends a line
whether or not the decoder has made a line feed of it.
-/

namespace Cograph.Blame

/-! ## What git prints -/

/-- The details of a commit as they are printed. Times are unsigned. -/
structure Commit where
  author : Str
  authorMail : Str
  authorTime : UInt64
  authorTz : Str
  committer : Str
  committerMail : Str
  committerTime : UInt64
  committerTz : Str
  summary : Str
  boundary : Bool

structure Entry where
  sha : Str
  originalLine : UInt32
  finalLine : UInt32
  numLines : UInt32
  previous : Option (Str × Str)
  filename : Str

def number (n : Nat) : Str := Nat.toDigits 10 n

namespace Commit

/-- The lines before the committer's time. -/
def early (c : Commit) : List Str :=
  ["author ".toList ++ c.author, "author-mail ".toList ++ c.authorMail,
    "author-time ".toList ++ number c.authorTime.toNat, "author-tz ".toList ++ c.authorTz,
    "committer ".toList ++ c.committer, "committer-mail ".toList ++ c.committerMail]

/-- The lines behind it. -/
def late (c : Commit) : List Str :=
  ["committer-tz ".toList ++ c.committerTz, "summary ".toList ++ c.summary] ++
    if c.boundary then ["boundary".toList] else []

def timeLine (c : Commit) : Str := "committer-time ".toList ++ number c.committerTime.toNat

def lines (c : Commit) : List Str := c.early ++ c.timeLine :: c.late

end Commit

namespace Entry

def header (e : Entry) : Str :=
  [' '].intercalate [e.sha, number e.originalLine.toNat, number e.finalLine.toNat, number e.numLines.toNat]

/-- The lines that name the paths. -/
def paths (e : Entry) : List Str :=
  (e.previous.toList.map fun p => "previous ".toList ++ p.1 ++ [' '] ++ p.2) ++ ["filename ".toList ++ e.filename]

def lines (log : Str → Commit) (shown : Bool) (e : Entry) : List Str :=
  e.header :: ((if shown then [] else (log e.sha).lines) ++ e.paths)

end Entry

/-- The details of a commit come with the first of its entries. -/
def printedLines (log : Str → Commit) : List Str → List Entry → List Str
  | _, [] => []
  | seen, e :: es => e.lines log (e.sha ∈ seen) ++ printedLines log (e.sha :: seen) es

def printBlame (log : Str → Commit) (entries : List Entry) : Str :=
  (printedLines log [] entries).flatMap (· ++ ['\n'])

/-! ## Numbers as Python reads them -/

/-- The decimal digits of Unicode, which `\d` and `int` take. -/
structure Decimals where
  value : Char → Option Nat
  ascii : ∀ c, c.isDigit → value c = some (c.toNat - '0'.toNat)

section
variable (D : Decimals)

/-- `int` of digits, of which it takes no more than 4300. -/
def digitsValue (s : Str) : Option Nat :=
  if s.length ≤ 4300 then s.foldlM (fun n c => (D.value c).map (10 * n + ·)) 0 else none

/-- `int`: a sign, and digits in groups that `_` joins. -/
def parseInt (text : Str) : Option Int :=
  let s := Str.strip text
  let digits := if s.head? = some '-' ∨ s.head? = some '+' then s.tail else s
  let groups := digits.splitOn '_'
  if [] ∈ groups then none
  else (digitsValue D groups.flatten).map fun n : Nat => if s.head? = some '-' then -(n : Int) else (n : Int)

/-! ## The parser -/

def isHexDigit (c : Char) : Bool := c.isDigit || ('a' ≤ c && c ≤ 'f') || ('A' ≤ c && c ≤ 'F')

structure Header where
  sha : Str
  finalLine : Str
  numLines : Str

/-- `_BLAME_HEADER_PATTERN`. -/
def header (raw : Str) : Option Header :=
  match raw.splitOn ' ' with
  | [sha, original, final, num] =>
    if sha.length = 40 ∧ sha.all isHexDigit ∧
        [original, final, num].all (fun group => group ≠ [] ∧ group.all fun c => (D.value c).isSome) then
      some ⟨sha, final, num⟩
    else none
  | _ => none

structure Span where
  commitSha : Str
  committedAt : Option Int
  deriving DecidableEq

structure State where
  currentSha : Option Str := none
  finalLine : Nat := 0
  numLines : Nat := 0
  time : Option Int := none
  tz : Option Str := none
  committedAtBySha : Dict.Items Str Int := []
  blameByLine : Dict.Items Nat Span := []

/-- The years that a `datetime` holds. -/
def timestampToDatetime (epochSeconds : Int) : Option Int :=
  if -62135596800 ≤ epochSeconds ∧ epochSeconds ≤ 253402300799 then some epochSeconds else none

/-- The text of a line that has the keyword, `strip` applied. -/
def field (keyword raw : Str) : Option Str :=
  if keyword.isPrefixOf raw then some (Str.strip (raw.drop keyword.length)) else none

def setLines (blame : Dict.Items Nat Span) (span : Span) (first count : Nat) : Dict.Items Nat Span :=
  (List.range' first count).foldl (fun b line => Dict.put b line span) blame

/-- The lines of the entry are those of the commit. -/
def register (st : State) (sha : Str) : Option State :=
  let times :=
    match st.time, st.tz with
    | some time, some _ => (timestampToDatetime time).map (Dict.put st.committedAtBySha sha)
    | _, _ => some st.committedAtBySha
  times.map fun times =>
    { st with
      committedAtBySha := times
      blameByLine := setLines st.blameByLine ⟨sha, Dict.get times sha⟩ st.finalLine st.numLines }

/-- A line that is not a header. -/
def readField (st : State) (sha raw : Str) : Option State :=
  match field "committer-time ".toList raw with
  | some text => (parseInt D text).map fun time => { st with time := some time }
  | none =>
    match field "committer-tz ".toList raw with
    | some text => some { st with tz := some text }
    | none =>
      match field "author-time ".toList raw, st.time with
      | some text, none => (parseInt D text).map fun time => { st with time := some time }
      | _, _ =>
        match field "author-tz ".toList raw, st.tz with
        | some text, none => some { st with tz := some text }
        | _, _ => if "filename ".toList.isPrefixOf raw then register st sha else some st

/-- One turn of the loop; `none` is an exception. -/
def readLine (st : State) (raw : Str) : Option State :=
  match header D raw with
  | some h => do
    let finalLine ← digitsValue D h.finalLine
    let numLines ← digitsValue D h.numLines
    some
      { st with
        currentSha := some h.sha
        finalLine := finalLine
        numLines := numLines
        time := none
        tz := none }
  | none =>
    match st.currentSha with
    | none => some st
    | some sha => readField D st sha raw

def collectBlameByLine (stdout : Str) : Option (Dict.Items Nat Span) :=
  ((Str.splitlines stdout).foldlM (readLine D) {}).map (·.blameByLine)

end

/-! ## The commits of a node -/

structure Node where
  filePath : Str
  symbolKey : Str
  qualifiedName : Str
  startLine : Nat
  endLine : Nat

structure NodeTemporalMetadata where
  firstSeenCommit : Option Str
  lastChangedCommit : Option Str
  lastChangedAt : Option Int

def Node.key (node : Node) : Str × Str :=
  (node.filePath, if node.symbolKey = [] then node.qualifiedName else node.symbolKey)

/-- `range(node.start_line, node.end_line + 1)`. -/
def Node.lines (node : Node) : List Nat := List.range' node.startLine (node.endLine + 1 - node.startLine)

def Node.spans (blame : Dict.Items Nat Span) (node : Node) : List Span := node.lines.filterMap (Dict.get blame)

/-- `max` or `min` by a key: the first of the best. -/
def firstBest {α : Type} (better : α → α → Bool) : List α → Option α
  | [] => none
  | x :: xs => some (xs.foldl (fun best y => if better y best then y else best) x)

def dated (spans : List Span) : List Span := spans.filter (·.committedAt.isSome)

/-- The order of the dated spans: by time, then by the text of the commit. -/
def Span.order (s : Span) : Int ×ₗ Str := toLex (s.committedAt.getD 0, s.commitSha)

def pickNewestSpan (spans : List Span) : Option Span :=
  (firstBest (fun s best => best.order < s.order) (dated spans)).or spans.getLast?

def pickOldestSpan (spans : List Span) : Option Span :=
  (firstBest (fun s best => s.order < best.order) (dated spans)).or spans.head?

def addNode (blame : Dict.Items Nat Span) (metadata : Dict.Items (Str × Str) NodeTemporalMetadata) (node : Node) :
    Dict.Items (Str × Str) NodeTemporalMetadata :=
  let spans := node.spans blame
  if spans = [] then metadata
  else
    let oldest := pickOldestSpan spans
    let newest := pickNewestSpan spans
    Dict.put metadata node.key
      ⟨oldest.map (·.commitSha), newest.map (·.commitSha), newest.bind (·.committedAt)⟩

def collectNodeTemporalMetadata (D : Decimals) (stdout : Str) (nodes : List Node) :
    Option (Dict.Items (Str × Str) NodeTemporalMetadata) :=
  if nodes = [] then some []
  else (collectBlameByLine D stdout).map fun blame => if blame = [] then [] else nodes.foldl (addNode blame) []

end Cograph.Blame
