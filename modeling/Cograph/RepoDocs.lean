import Cograph.Chunker
import Cograph.Paths

/-!
# The documents of a repository

`repo_docs/discover.py` and `repo_docs/chunker.py`: which files of a checkout
are documents, and the chunks and the title of a document's text.
-/

namespace Cograph.RepoDocs

/-- The Unicode tables, and the hash of a text. -/
structure Py (Digest : Type) extends MdChunks.Py where
  sha256 : Str → Digest

variable {Digest : Type} (P : Py Digest)

/-! ## Kinds -/

inductive RepoDocumentKind where
  | repoDoc
  | example
  | test
  | config
  | workflow
  deriving DecidableEq

def RepoDocumentKind.value : RepoDocumentKind → Str
  | .repoDoc => "Repo Doc".toList
  | .example => "Example".toList
  | .test => "Test".toList
  | .config => "Config".toList
  | .workflow => "Workflow".toList

def texts (names : List String) : List Str := names.map String.toList

def supportedRepoDocSuffixes : List Str := texts [".md", ".mdx", ".rst"]

def workflowSuffixes : List Str := texts [".yml", ".yaml"]

def exampleSuffixes : List Str :=
  texts [".go", ".js", ".json", ".md", ".mdx", ".py", ".rst", ".toml", ".ts", ".tsx", ".yaml", ".yml"]

def testSuffixes : List Str := texts [".go", ".js", ".md", ".mdx", ".py", ".rst", ".ts"]

def configSuffixes : List Str := texts [".cfg", ".conf", ".env", ".ini", ".json", ".toml", ".yaml", ".yml"]

def exampleDirs : List Str := texts ["example", "examples", "sample", "samples"]

def testDirs : List Str := texts ["test", "tests"]

def deployDirs : List Str := texts [".devcontainer", "deploy", "deployment", "helm", "k8s", "ops"]

def allowedHiddenDirs : List String := [".devcontainer", ".github"]

def ignoredParentDirs : List String :=
  [".cache", ".cograph", ".codexpotter", ".entire", ".idea", ".mypy_cache", ".pytest_cache", ".ruff_cache", ".tox",
    ".venv", ".vscode", "__pycache__", "build", "dist", "node_modules", "venv"]

def rootConfigFiles : List Str :=
  texts ["compose.yaml", "compose.yml", "docker-compose.yaml", "docker-compose.yml", "dockerfile", "go.mod", "go.work",
    "makefile", "package-lock.json", "package.json", "pyproject.toml"]

def lowerParts (p : Path) : List Str := p.parts.map fun part => P.lower part.toList

def classifyRepoDocument (p : Path) : Option RepoDocumentKind :=
  let parts := lowerParts P p
  let lowerName := P.lower p.name.toList
  let suffix := P.lower p.suffix.toList
  let isTest := suffix ∈ supportedRepoDocSuffixes ∨ suffix ∈ testSuffixes ∧
    ("test_".toList.isPrefixOf lowerName ∨ "_test.go".toList.isSuffixOf lowerName)
  if suffix ∈ supportedRepoDocSuffixes then some .repoDoc
  else if parts.take 2 = texts [".github", "workflows"] ∧ suffix ∈ workflowSuffixes then some .workflow
  else if (∃ part ∈ parts, part ∈ exampleDirs) ∧ suffix ∈ exampleSuffixes then some .example
  else if (∃ part ∈ parts, part ∈ testDirs) ∧ isTest then some .test
  else if lowerName ∈ rootConfigFiles ∨ p.name = "Dockerfile" ∨ p.name = "Makefile" then some .config
  else if ".env".toList.isPrefixOf lowerName ∨ suffix = ".env".toList then some .config
  else if (∃ part ∈ parts.head?, part ∈ deployDirs) ∧ suffix ∈ configSuffixes then some .config
  else none

/-! ## Discovery -/

def hasIgnoredParent (p : Path) : Bool :=
  p.dir.any fun part => part ∉ allowedHiddenDirs ∧ (part ∈ ignoredParentDirs ∨ part.toList.head? = some '.')

/-- `Path(prefix)`: the parts, and whether it is absolute. -/
def prefixParts (text : Str) : Bool × List Str :=
  (text.head? = some '/', (text.splitOn '/').filter fun part => part ≠ [] ∧ part ≠ ['.'])

/-- `path.is_relative_to(prefix)` of a path below the root. -/
def isRelativeTo (p : Path) (text : Str) : Bool :=
  !(prefixParts text).1 && (prefixParts text).2.isPrefixOf (p.parts.map String.toList)

/-- The regular files of a checkout, with the text `read_text` gives. -/
structure Checkout where
  files : List (Path × Str)
  nodup : (files.map (·.1)).Nodup

/-- `RepoDocumentDiscoverer.discover`, each path with its text. -/
def discover (C : Checkout) (excludedPrefixes : List Str) : List (Path × Str) :=
  (C.files.filter fun f => !hasIgnoredParent f.1 ∧ !excludedPrefixes.any (isRelativeTo f.1 ·) ∧
    (classifyRepoDocument P f.1).isSome).insertionSort fun a b => Path.le a.1 b.1

/-! ## Chunks -/

structure RepoDocumentChunkDraft where
  chunkIndex : Nat
  headingPath : List Str
  content : Str
  deriving DecidableEq

/-- `^(#{1,6})\s+(.*\S)\s*$` on a line: the level and the heading. -/
def headingMatch (line : Str) : Option (Nat × Str) :=
  let level := (line.takeWhile (· = '#')).length
  match line.dropWhile (· = '#') with
  | [] => none
  | c :: rest =>
    if 1 ≤ level ∧ level ≤ 6 ∧ Str.isSpace c ∧ Str.strip rest ≠ [] then some (level, Str.strip rest) else none

/-- The loop of `_split_sections`: the heading path and the lines so far. -/
def splitFrom (path : List Str) (current : List Str) : List Str → List (List Str × List Str)
  | [] => if current = [] then [] else [(path, current)]
  | line :: rest =>
    match headingMatch line with
    | some (level, heading) =>
      let emitted := if current = [] then [] else [(path, current)]
      emitted ++ splitFrom (path.take (level - 1) ++ [heading]) [line] rest
    | none => splitFrom path (current ++ [line]) rest

def splitSections (content : Str) : List (List Str × Str) :=
  ((splitFrom [] [] (Str.splitlines content)).map fun s => (s.1, Str.strip (MdChunks.joinLines s.2))).filter
    (·.2 ≠ [])

/-- `str.split()`. -/
def words (s : Str) : List Str := (s.splitOnP Str.isSpace).filter (· ≠ [])

def maxWords : Nat := 512

def overlapWords : Nat := 64

/-- The windows over the words that are left, at most `fuel` of them. -/
def windows : Nat → List Str → List Str
  | 0, _ => []
  | fuel + 1, left =>
    if left = [] then []
    else
      [' '].intercalate (left.take maxWords) ::
        if left.length ≤ maxWords then [] else windows fuel (left.drop (max 1 (maxWords - overlapWords)))

def windowSectionText (section_ : Str) : List Str :=
  let all := words section_
  if all.length ≤ maxWords then [section_] else windows all.length all

/-- `RepoDocumentChunker.chunk`. -/
def chunk (content : Str) : List RepoDocumentChunkDraft :=
  if Str.strip content = [] then []
  else
    let pieces := (splitSections (Str.strip content)).flatMap fun s => (windowSectionText s.2).map fun text => (s.1, text)
    pieces.zipIdx.map fun x => ⟨x.2, x.1.1, x.1.2⟩

/-! ## Titles -/

/-- The rest of a line that is a heading of the first level. -/
def titleLine (line : Str) : Option Str :=
  if ['#', ' '].isPrefixOf (Str.strip line) then some (Str.strip ((Str.strip line).drop 2)) else none

def extractTitle (p : Path) (content : Str) : Str :=
  ((Str.splitlines content).findSome? titleLine).getD p.name.toList

/-- `_derive_title`. -/
def deriveTitle (p : Path) (content : Str) (kind : RepoDocumentKind) : Str :=
  let title := extractTitle p content
  if kind = .repoDoc ∨ title ≠ p.name.toList then title else kind.value ++ ": ".toList ++ p.name.toList

end Cograph.RepoDocs
