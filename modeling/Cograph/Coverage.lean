import Cograph.Citations

/-!
# The coverage gate of a wiki page

`wiki/coverage_gate.py`: a question is answered by a marker whose section cites
verified evidence, three H2 sections are forbidden, and a page that fails is
mended by cutting sections and markers out.
-/

namespace Cograph.Wiki

inductive ReaderQuestion where
  | howToRun
  | configuration
  | useCases
  | dependencies
  | publicApi
  deriving DecidableEq

def ReaderQuestion.value : ReaderQuestion → Str
  | .howToRun => "how-to-run".toList
  | .configuration => "configuration".toList
  | .useCases => "use-cases".toList
  | .dependencies => "dependencies".toList
  | .publicApi => "public-api".toList

/-! ## The patterns -/

def space : Regex := .sat Str.isSpace

/-- A literal under `IGNORECASE`, written in lower case. -/
def ignoreCase : List Char → Regex
  | [] => .empty
  | c :: w => .seq (.sat fun x => Str.fold x = c) (ignoreCase w)

def isLetter (c : Char) : Bool := 'a' ≤ Str.fold c ∧ Str.fold c ≤ 'z'

/-- `<!--\s*answers\s*:\s*([a-z][a-z0-9-]*)\s*-->`, any case. -/
def answerMarkerRe : Regex :=
  .seq (.lit "<!--".toList) <| .seq (.star space) <| .seq (ignoreCase "answers".toList) <| .seq (.star space) <|
  .seq (.lit ":".toList) <| .seq (.star space) <|
  .seq (.group 1 (.seq (.sat isLetter) (.star (.sat fun c => isLetter c ∨ ('0' ≤ c ∧ c ≤ '9') ∨ c = '-')))) <|
  .seq (.star space) <| .lit "-->".toList

/-- `^##\s+`. -/
def h2Re : Regex := .seq .lineStart <| .seq (.lit "##".toList) <| .plus space

/-- `^\s*Source\s*:\s*` and a path, in backticks or not, with or without lines. -/
def sourceLineRe : Regex :=
  let part := Regex.plus (.sat fun c => ¬ Str.isSpace c ∧ c ≠ '`' ∧ c ≠ ':')
  let digits := Regex.plus (.sat Char.isDigit)
  .seq .lineStart <| .seq (.star space) <| .seq (.lit "Source".toList) <| .seq (.star space) <|
  .seq (.lit ":".toList) <| .seq (.star space) <| .seq (.opt (.chr '`')) <|
  .seq (.group 1 (.seq part (.star (.seq (.chr '/') part)))) <|
  .seq (.opt (.seq (.lit ":L".toList) (.seq digits (.opt (.seq (.chr '-') (.seq (.opt (.chr 'L')) digits)))))) <|
  .opt (.chr '`')

/-- `^##\s+one\s+two\s*$`, any case. -/
def headingRe (words : List Str) : Regex :=
  .seq .lineStart <| .seq (.lit "##".toList) <|
  .seq (words.foldr (fun w r => .seq (.plus space) (.seq (ignoreCase w) r)) .empty) <|
  .seq (.star space) .lineEnd

def openQuestionsHeadingRe : Regex := headingRe ["open".toList, "questions".toList]

def testStrategyHeadingRe : Regex := headingRe ["test".toList, "strategy".toList]

def comparisonHeadingRe : Regex := headingRe ["comparison".toList, "with".toList, "alternatives".toList]

/-! ## Reading a body -/

def slice (s : Str) (i j : Nat) : Str := (s.take j).drop i

/-- The elements of a set, sorted. -/
def sortedSet (xs : List Str) : List Str := xs.eraseDups.insertionSort (· ≤ ·)

def normalizeQuestionSet (questions : List ReaderQuestion) : List Str := sortedSet (questions.map (·.value))

/-- `match.group(1).strip().lower()`. -/
def slugOf (m : Regex.Match) : Str := Str.lower (Str.strip (m.group 1))

def findMarkers (body : Str) : List (Nat × Str) := (Regex.finditer answerMarkerRe body).map fun (i, m) => (i, slugOf m)

def sectionBounds (body : Str) : List Nat := (Regex.finditer h2Re body).map (·.1)

def sectionEndFor (markerPos : Nat) (starts : List Nat) (docEnd : Nat) : Nat :=
  (starts.find? (markerPos < ·)).getD docEnd

def citesEvidence (ledger : Ledger) (m : Regex.Match) : Bool :=
  match kindOf m with
  | .node => valueOf m ≠ [] ∧ valueOf m ∈ ledger.verifiedNodeQns
  | .doc =>
    let path := Str.lstripDotSlash (Str.strip ((valueOf m).takeWhile (· ≠ '#')))
    valueOf m ≠ [] ∧ path ≠ [] ∧ path ∈ ledger.verifiedDocPaths

def namesEvidence (ledger : Ledger) (m : Regex.Match) : Bool :=
  let path := Str.lstripDotSlash (Str.strip (m.group 1))
  path ≠ [] ∧ (path ∈ ledger.verifiedFilePaths ∨ path ∈ ledger.verifiedDocPaths)

def sectionHasVerifiedEvidence (text : Str) (ledger : Ledger) : Bool :=
  (Regex.hits placeholderRe text).any (citesEvidence ledger) ||
    (Regex.hits sourceLineRe text).any (namesEvidence ledger)

def headingKeywords (slug : Str) : List Str :=
  if slug = ReaderQuestion.configuration.value then
    ["configuration".toList, "config".toList, "settings".toList, "environment".toList, "runtime configuration".toList]
  else if slug = ReaderQuestion.howToRun.value then
    ["getting started".toList, "quick start".toList, "usage".toList, "run".toList, "local development".toList,
      "build".toList]
  else if slug = ReaderQuestion.dependencies.value then
    ["dependencies".toList, "dependency".toList, "runtime".toList, "infrastructure".toList, "integration".toList,
      "wiring".toList]
  else if slug = ReaderQuestion.publicApi.value then
    ["api".toList, "entrypoint".toList, "entrypoints".toList, "route".toList, "routes".toList, "public surface".toList]
  else if slug = ReaderQuestion.useCases.value then
    ["overview".toList, "use case".toList, "use cases".toList, "usage".toList, "domain".toList, "business".toList,
      "problem".toList]
  else []

def headingAnswers (title slug : Str) : Bool := (headingKeywords slug).any (Str.contains title ·)

/-! ## The verdict -/

structure CoverageResult where
  answeredQuestions : List Str
  missingQuestions : List Str
  markersWithoutGrounding : List Str
  extraMarkers : List Str
  hasOpenQuestionsSection : Bool
  hasTestStrategySection : Bool
  hasComparisonSection : Bool
  deriving DecidableEq

namespace CoverageResult

def hasForbiddenSection (r : CoverageResult) : Bool :=
  r.hasOpenQuestionsSection || r.hasTestStrategySection || r.hasComparisonSection

def isClean (r : CoverageResult) : Bool := r.missingQuestions = [] ∧ ¬ r.hasForbiddenSection

end CoverageResult

def found (re : Regex) (body : Str) : Bool := (Regex.search re body 0).isSome

def validateCoverage (body : Str) (coversQuestions : List ReaderQuestion) (ledger : Ledger) : CoverageResult :=
  let required := normalizeQuestionSet coversQuestions
  if body = [] then ⟨[], required, [], [], false, false, false⟩
  else
    let bounds := sectionBounds body
    let markers := findMarkers body
    let isGrounded := fun (x : Nat × Str) =>
      sectionHasVerifiedEvidence (slice body x.1 (sectionEndFor x.1 bounds body.length)) ledger
    let grounded := (markers.filter isGrounded).map (·.2)
    let ungrounded := (markers.filter (!isGrounded ·)).map (·.2)
    { answeredQuestions := required.filter (· ∈ grounded)
      missingQuestions := required.filter (· ∉ grounded)
      markersWithoutGrounding := sortedSet ungrounded
      extraMarkers := sortedSet ((markers.map (·.2)).filter (· ∉ required))
      hasOpenQuestionsSection := found openQuestionsHeadingRe body
      hasTestStrategySection := found testStrategyHeadingRe body
      hasComparisonSection := found comparisonHeadingRe body }

inductive CoverageOutcome where
  | ok
  | partialCoverage
  | openQuestionsForbidden
  | testStrategyForbidden
  | comparisonForbidden
  deriving DecidableEq

def coverageOutcome (r : CoverageResult) : CoverageOutcome :=
  if r.hasOpenQuestionsSection then .openQuestionsForbidden
  else if r.hasTestStrategySection then .testStrategyForbidden
  else if r.hasComparisonSection then .comparisonForbidden
  else if r.missingQuestions ≠ [] then .partialCoverage
  else .ok

/-! ## Mending a body -/

def markerText (slugs : List Str) : Str :=
  slugs.flatMap fun slug => "<!-- answers: ".toList ++ slug ++ " -->\n".toList

/-- The loop over the H2 headings of `body`: where a marker goes and its text. -/
def insertions (body : Str) (ledger : Ledger) : List (Nat × Regex.Match) → List Str → List (Nat × Str)
  | [], _ => []
  | (i, m) :: headings, missing =>
    let titleStart := i + m.text.length
    let headingLineEnd := Str.lineEnd body titleStart
    let text := slice body i (sectionEndFor i (sectionBounds body) body.length)
    let title := Str.lower (Str.strip (slice body titleStart headingLineEnd))
    let matched := missing.filter (headingAnswers title ·)
    if ¬ sectionHasVerifiedEvidence text ledger ∨ matched = [] then insertions body ledger headings missing
    else
      let left := missing.filter (· ∉ matched)
      (headingLineEnd + 1, markerText matched) :: (if left = [] then [] else insertions body ledger headings left)

def insertAt (out : Str) (x : Nat × Str) : Str := out.take x.1 ++ x.2 ++ out.drop x.1

/-- The order of pairs, the later first. -/
def later (x y : Nat × Str) : Bool := y.1 < x.1 ∨ (y.1 = x.1 ∧ y.2 ≤ x.2)

def ensureInferredAnswerMarkers (body : Str) (coversQuestions : List ReaderQuestion) (ledger : Ledger) : Str :=
  let existing := (findMarkers body).map (·.2)
  let missing := (normalizeQuestionSet coversQuestions).filter (· ∉ existing)
  if body = [] ∨ missing = [] then body
  else ((insertions body ledger (Regex.finditer h2Re body) missing).insertionSort (later · ·)).foldl insertAt body

def stripSection (markdown : Str) (re : Regex) : Str :=
  match Regex.search re markdown 0 with
  | none => markdown
  | some (start, m) =>
    let stop := ((Regex.search h2Re markdown (start + m.text.length)).map (·.1)).getD markdown.length
    Str.rstrip (markdown.take start ++ markdown.drop stop) ++ ['\n']

def stripOpenQuestionsSection (markdown : Str) : Str := stripSection markdown openQuestionsHeadingRe

def stripTestStrategySection (markdown : Str) : Str := stripSection markdown testStrategyHeadingRe

def stripComparisonSection (markdown : Str) : Str := stripSection markdown comparisonHeadingRe

def stripForbiddenSections (markdown : Str) : Str :=
  stripComparisonSection (stripTestStrategySection (stripOpenQuestionsSection markdown))

def stripUnansweredMarkers (markdown : Str) (unanswered : List Str) : Str :=
  let targets := unanswered.filter (· ≠ [])
  if targets = [] then markdown
  else Regex.sub answerMarkerRe (fun m => if slugOf m ∈ targets then [] else m.text) markdown

end Cograph.Wiki
