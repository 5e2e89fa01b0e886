import Cograph.Ranked
import Cograph.Strs

/-!
# Repository context

`wiki/context.py`: the snapshot of a repository's rows that a wiki run starts
from, and the structural hash of the snapshot, which decides whether the last
page plan is used again. Summaries, commit-bound hashes and the slugs of the
last run are not part of the structural hash and are left out. The rows of
`wiki/manifests.py` come with the state.
-/

namespace Cograph.Context

open Ranked (sorted top)

/-! ## Manifests -/

structure Runtime where
  name : Str
  version : Option Str

structure RunCommand where
  label : Str
  kind : Str

structure ConfigKey where
  key : Str
  kind : Str

structure Dependency where
  name : Str
  version : Option Str
  ecosystem : Str

structure PublicApiEntry where
  qualifiedName : Str
  kind : Str
  filePath : Str

structure TypeField where
  name : Str
  typeSignature : Option Str

structure ExportedType where
  qualifiedName : Str
  kind : Str
  filePath : Str
  fields : List TypeField
  methods : List Str

structure ErrorType where
  qualifiedName : Str
  filePath : Str
  language : Str

structure RepoManifests where
  runtimes : List Runtime := []
  runCommands : List RunCommand := []
  configKeys : List ConfigKey := []
  dependencies : List Dependency := []
  publicApi : List PublicApiEntry := []
  exportedTypes : List ExportedType := []
  errorTypes : List ErrorType := []
  useCases : List Str := []

/-- `manifests_projection`. -/
structure ManifestsProjection where
  runtimes : List (Str ×ₗ Str)
  runCommands : List (Str ×ₗ Str)
  configKeys : List (Str ×ₗ Str)
  dependencies : List (Str ×ₗ Str ×ₗ Str)
  publicApi : List (Str ×ₗ Str ×ₗ Str)
  exportedTypes : List (Str ×ₗ Str ×ₗ Str ×ₗ List (Str ×ₗ Str) ×ₗ List Str)
  errorTypes : List (Str ×ₗ Str ×ₗ Str)
  useCases : List Str

def pair {α β : Type} (a : α) (b : β) : α ×ₗ β := toLex (a, b)

def project (m : RepoManifests) : ManifestsProjection where
  runtimes := sorted (m.runtimes.map fun r => pair r.name (r.version.getD []))
  runCommands := sorted (m.runCommands.map fun c => pair c.label c.kind)
  configKeys := sorted (m.configKeys.map fun k => pair k.key k.kind)
  dependencies := sorted (m.dependencies.map fun d => pair d.name (pair (d.version.getD []) d.ecosystem))
  publicApi := sorted (m.publicApi.map fun e => pair e.qualifiedName (pair e.kind e.filePath))
  exportedTypes := sorted (m.exportedTypes.map fun t =>
    pair t.qualifiedName (pair t.kind (pair t.filePath
      (pair (sorted (t.fields.map fun f => pair f.name (f.typeSignature.getD []))) (sorted t.methods)))))
  errorTypes := sorted (m.errorTypes.map fun e => pair e.qualifiedName (pair e.filePath e.language))
  useCases := sorted m.useCases

/-! ## Rows -/

inductive Kind where
  | code
  | markdown
  | other
  deriving DecidableEq, Repr

/-- `text` is what the raw bytes decode to. -/
structure SourceFile where
  filePath : Str
  language : Str
  kind : Kind
  bytes : Nat
  text : Str
  deriving DecidableEq, Repr

structure RepoDocument where
  id : Nat
  filePath : Str
  title : Option Str
  content : Str
  bytes : Nat
  deriving DecidableEq, Repr

structure RepoDocumentChunk where
  documentId : Nat
  chunkIndex : Nat
  headingPath : List Str
  deriving DecidableEq, Repr

/-- The rows of a repository. Paths are unique among its files and among its
documents; of a code node only its file is read. -/
structure RepoState where
  sourceFiles : List SourceFile
  codeNodes : List Str
  documents : List RepoDocument
  chunks : List RepoDocumentChunk
  manifests : RepoManifests
  files_unique : (sourceFiles.map (·.filePath)).Nodup
  documents_unique : (documents.map (·.filePath)).Nodup

/-! ## The snapshot -/

structure FileTreeEntry where
  filePath : Str
  language : Str
  bytes : Nat
  importance : Nat
  deriving DecidableEq, Repr

structure RepoDocIndexEntry where
  filePath : Str
  title : Option Str
  firstHeading : Option Str
  deriving DecidableEq, Repr

structure RepoContext where
  readmeText : Option Str
  fileTree : List FileTreeEntry
  repoDocIndex : List RepoDocIndexEntry
  manifests : RepoManifests

/-- The caps of `build_repo_context`. -/
structure Caps where
  fileTree : Nat := 300
  repoDoc : Nat := 30
  readmeChars : Nat := 8000

def readmeCandidates : List Str :=
  ["README.md".toList, "readme.md".toList, "Readme.md".toList, "README.MD".toList, "README".toList,
    "README.rst".toList, "README.txt".toList]

/-- `x or None`. -/
def orNone (s : Str) : Option Str := if s = [] then none else some s

/-- `_first_heading`. -/
def firstHeadingOf (content : Str) : Option Str :=
  match (Str.splitlines content).find? fun line => (Str.strip line).head? = some '#' with
  | none => none
  | some line => orNone (Str.strip ((Str.strip line).dropWhile (· = '#')))

namespace RepoState

variable (s : RepoState)

/-- The README the repository has, the first candidate first. -/
def readme : Option Str :=
  readmeCandidates.findSome? fun path => (s.sourceFiles.find? (·.filePath = path)).map (·.text)

def loadReadme (charCap : Nat) : Option Str := s.readme.map (·.take charCap)

def fileCodeNodeCount (path : Str) : Nat := s.codeNodes.count path

/-- The entries of all code files. -/
def fileEntries : List FileTreeEntry :=
  (s.sourceFiles.filter (·.kind = .code)).map fun row =>
    ⟨row.filePath, row.language, row.bytes, s.fileCodeNodeCount row.filePath⟩

/-- The heading that the first chunk carries, else one read in the text. -/
def firstHeading (d : RepoDocument) : Option Str :=
  match s.chunks.find? fun c => c.documentId = d.id ∧ c.chunkIndex = 0 with
  | some ⟨_, _, heading :: _⟩ => some heading
  | _ => firstHeadingOf d.content

def docEntry (d : RepoDocument) : RepoDocIndexEntry := ⟨d.filePath, d.title, s.firstHeading d⟩

end RepoState

/-- The key `(-importance, -bytes, file_path)`. -/
def fileKey (e : FileTreeEntry) : ℤ ×ₗ ℤ ×ₗ Str := pair (-e.importance) (pair (-e.bytes) e.filePath)

def buildFileTree (s : RepoState) (cap : Nat) : List FileTreeEntry := top fileKey cap s.fileEntries

section
variable {κ : Type} [LinearOrder κ] (collate : Str ↪ κ)

/-- `ORDER BY bytes DESC, file_path ASC`, with the collation of the database. -/
def docKey (d : RepoDocument) : ℤ ×ₗ κ := pair (-d.bytes) (collate d.filePath)

def loadRepoDocIndex (s : RepoState) (cap : Nat) : List RepoDocIndexEntry :=
  (top (docKey collate) cap s.documents).map s.docEntry

def buildRepoContext (caps : Caps) (s : RepoState) : RepoContext where
  readmeText := s.loadReadme caps.readmeChars
  fileTree := buildFileTree s caps.fileTree
  repoDocIndex := loadRepoDocIndex collate s caps.repoDoc
  manifests := s.manifests

end

/-! ## The structural hash -/

structure Payload (δ : Type) where
  files : List (Str ×ₗ Str)
  docs : List (Str ×ₗ Str ×ₗ Str)
  manifests : ManifestsProjection
  readmeSha : δ

/-- What a document shows in the payload. -/
def RepoDocIndexEntry.view (d : RepoDocIndexEntry) : Str ×ₗ Str ×ₗ Str :=
  pair d.filePath (pair (d.title.getD []) (d.firstHeading.getD []))

section
variable {δ : Type} (sha256 : Str → δ) (dumps : Payload δ → Str)

def payload (context : RepoContext) : Payload δ where
  files := sorted (context.fileTree.map fun e => pair e.filePath e.language)
  docs := sorted (context.repoDocIndex.map (·.view))
  manifests := project context.manifests
  readmeSha := sha256 (context.readmeText.getD [])

def computeStructuralHash (context : RepoContext) : δ := sha256 (dumps (payload sha256 context))

end

end Cograph.Context
