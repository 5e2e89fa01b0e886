import Cograph.Coverage
import Cograph.Dict

/-!
# Resolving the citations of a page

`CitationResolver.resolve_page` and the slugs of `repo_docs/slug.py`: each
placeholder becomes a link to the code node or the document it names, the path
in prose where the document is no text of documentation, or a marker. `lower`
is `str.lower`. Documents stand in the order of their paths.
-/

namespace Cograph.CitationResolver

open Wiki

/-! ## Rows -/

structure NodeRow where
  id : Nat
  qualifiedName : Str
  name : Str
  filePath : Str
  startLine : Nat
  endLine : Nat
  deriving DecidableEq

structure RepoDocument where
  id : Nat
  filePath : Str
  title : Option Str
  deriving DecidableEq

structure RepoDocumentChunk where
  id : Nat
  documentId : Nat
  chunkIndex : Nat
  headingPath : List Str
  deriving DecidableEq

/-- What a repository has indexed, with the unique keys. -/
structure RepoIndex where
  nodes : List NodeRow
  documents : List RepoDocument
  chunks : List RepoDocumentChunk
  names : (nodes.map (·.qualifiedName)).Nodup
  ids : (documents.map (·.id)).Nodup
  paths : (documents.map (·.filePath)).Nodup

structure DocRow where
  chunkId : Nat
  filePath : Str
  title : Option Str
  headingPath : List Str
  deriving DecidableEq

inductive ResolvedCitation where
  | node (id : Nat) (label filePath : Str) (startLine endLine : Nat)
  | repoDocChunk (id : Nat) (label filePath : Str) (headingPath : List Str)
  deriving DecidableEq

/-- `(citation.kind, citation.id)`. -/
def ResolvedCitation.key : ResolvedCitation → Bool × Nat
  | node id .. => (true, id)
  | repoDocChunk id .. => (false, id)

/-- `RepositorySlug`. -/
structure RepositorySlug where
  host : Str
  owner : Str
  name : Str

def RepositorySlug.path (r : RepositorySlug) : Str :=
  "/repos/".toList ++ r.host ++ ['/'] ++ r.owner ++ ['/'] ++ r.name

/-! ## Slugs -/

section
variable (lower : Str → Str)

def isAlnum (c : Char) : Bool := ('a' ≤ c ∧ c ≤ 'z') ∨ ('0' ≤ c ∧ c ≤ '9')

/-- `re.sub("[^a-z0-9]+", "-", s).strip("-")`. -/
def hyphenate (s : Str) : Str := ['-'].intercalate ((s.splitOnP (!isAlnum ·)).filter (· ≠ []))

/-- `PurePosixPath.parts`. -/
def posixParts (p : Str) : List Str :=
  (if p.head? = some '/' then [['/']] else []) ++ (p.splitOn '/').filter fun s => s ≠ [] ∧ s ≠ ['.']

/-- A name's stem and suffix. -/
def splitSuffix (name : Str) : Str × Str :=
  let after := (name.reverse.takeWhile (· ≠ '.')).reverse
  let i := name.length - after.length - 1
  if '.' ∈ name ∧ 0 < i ∧ after ≠ [] then (name.take i, name.drop i) else (name, [])

def stripExtensions : List Str := [".md".toList, ".rst".toList, ".txt".toList, ".mdx".toList, ".markdown".toList]

def stripPrefixes : List Str := ["docs".toList, "doc".toList, "documentation".toList, "pages".toList]

def filePathToSlug (path : Str) : Str :=
  let parts := posixParts path
  let name := if parts.getLast? = some ['/'] then [] else parts.getLast?.getD []
  let stem := if lower (splitSuffix name).2 ∈ stripExtensions then (splitSuffix name).1 else name
  let kept := (parts.dropLast ++ [stem]).dropWhile (lower · ∈ stripPrefixes)
  (hyphenate (lower (['/'].intercalate kept))).take 80

/-- `doc_id.hex[-4:]`. -/
def hexSuffix (i : Nat) : Str :=
  [i / 4096, i / 256, i / 16, i].map fun d => Nat.digitChar (d % 16)

def buildSlugMap (items : List RepoDocument) : Dict.Items Str Nat :=
  items.foldl (fun slugToId d =>
    let base := filePathToSlug lower d.filePath
    let candidate := if (Dict.get slugToId base).isSome then base.take 75 ++ ['-'] ++ hexSuffix d.id else base
    Dict.put slugToId candidate d.id) []

/-- The slug of each document, by path. `none` is a `KeyError`: a document that
a later one's slug has pushed out. -/
def loadDocSlugMap (db : RepoIndex) : Option (Dict.Items Str Str) :=
  let slugToId := buildSlugMap lower db.documents
  let idToSlug := Dict.ofItems (slugToId.map fun x => (x.2, x.1))
  (db.documents.mapM fun d => (Dict.get idToSlug d.id).map fun slug => (d.filePath, slug)).map Dict.ofItems

/-! ## Lookups -/

def normaliseFilePath (value : Str) : Str := Str.lstripDotSlash (Str.strip value)

/-- `citations._strip_doc_anchor`: the path and the heading. -/
def splitDocAnchor (value : Str) : Str × Option Str :=
  if '#' ∉ value then (value, none)
  else
    let tail := Str.strip ((value.dropWhile (· ≠ '#')).drop 1)
    (Str.strip (value.takeWhile (· ≠ '#')), if tail = [] then none else some tail)

def headingAnchor (headingPath : List Str) : Str :=
  match headingPath.getLast? with
  | none => []
  | some last => hyphenate (lower (Str.strip last))

def pickDocChunk (chunks : List DocRow) (heading : Option Str) : Option DocRow :=
  match heading with
  | none => chunks.head?
  | some h =>
    let target := lower (Str.strip h)
    let isHit := fun (c : DocRow) =>
      headingAnchor lower c.headingPath = target ∨ c.headingPath.any fun seg => lower (Str.strip seg) = target
    (chunks.find? (isHit ·)) <|> chunks.head?

def docCitationExtensions : List Str :=
  [".md".toList, ".mdx".toList, ".markdown".toList, ".rst".toList, ".txt".toList]

def hasMarkdownExtension (filePath : Str) : Bool := docCitationExtensions.any (·.isSuffixOf (lower filePath))

/-- The chunks of the document of a path, in order. -/
def loadDocChunks (db : RepoIndex) (path : Str) : List DocRow :=
  if hasMarkdownExtension lower path then
    match db.documents.find? (·.filePath = path) with
    | none => []
    | some d =>
      ((db.chunks.filter (·.documentId = d.id)).insertionSort (·.chunkIndex ≤ ·.chunkIndex)).map fun c =>
        ⟨c.id, d.filePath, d.title, c.headingPath⟩
  else []

/-! ## Rendering -/

def unresolvedMarker : Str := "⚠️ unresolved: ".toList

/-- What a placeholder becomes: the text, the citation it adds, the key it
reports. -/
structure Rendered where
  text : Str
  citation : Option ResolvedCitation := none
  unresolved : Option Str := none
  deriving DecidableEq

def unresolvedAs (key : Str) : Rendered := { text := unresolvedMarker ++ key, unresolved := some key }

/-- `str(uuid)`. -/
def uuidText (i : Nat) : Str :=
  let hex := (List.range 32).map fun k => Nat.digitChar (i / 16 ^ (31 - k) % 16)
  ['-'].intercalate [hex.take 8, (hex.drop 8).take 4, (hex.drop 12).take 4, (hex.drop 16).take 4, hex.drop 20]

def nodeAnchor (repo : RepositorySlug) (nodeId : Nat) : Str := repo.path ++ "/graph?node=".toList ++ uuidText nodeId

def docAnchor (repo : RepositorySlug) (slug : Str) (heading : Option Str) : Str :=
  repo.path ++ "/docs/".toList ++ slug ++
    match heading with
    | none => []
    | some h => if h = [] then [] else '#' :: lower (Str.strip h)

def link (label anchor : Str) : Str := ['['] ++ label ++ "](".toList ++ anchor ++ [')']

def renderDoc (db : RepoIndex) (slugByPath : Dict.Items Str Str) (repo : RepositorySlug) (value : Str) : Rendered :=
  let (pathPart, heading) := splitDocAnchor value
  let path := normaliseFilePath pathPart
  if ¬ hasMarkdownExtension lower path then { text := if pathPart ≠ [] then pathPart else value }
  else
    match pickDocChunk lower (loadDocChunks lower db path) heading with
    | none => unresolvedAs ("doc:".toList ++ value)
    | some chosen =>
      let label := (chosen.title.filter (· ≠ [])).getD path
      let citation := some (.repoDocChunk chosen.chunkId label chosen.filePath chosen.headingPath)
      match Dict.get slugByPath chosen.filePath with
      | none => { unresolvedAs ("doc:".toList ++ value) with citation := citation }
      | some slug => { text := link label (docAnchor lower repo slug heading), citation := citation }

def renderNode (db : RepoIndex) (repo : RepositorySlug) (value : Str) : Rendered :=
  match db.nodes.find? (·.qualifiedName = value) with
  | none => unresolvedAs ("node:".toList ++ value)
  | some row =>
    { text := link ('`' :: row.qualifiedName ++ ['`']) (nodeAnchor repo row.id)
      citation := some (.node row.id row.name row.filePath row.startLine row.endLine) }

/-- `_replace`. -/
def render (db : RepoIndex) (slugByPath : Dict.Items Str Str) (repo : RepositorySlug) (m : Regex.Match) : Rendered :=
  if valueOf m = [] then { text := [] }
  else
    match kindOf m with
    | .node => renderNode db repo (valueOf m)
    | .doc => renderDoc lower db slugByPath repo (valueOf m)

/-- `_BACKTICKED_PLACEHOLDER_RE`, a placeholder in backticks. -/
def backtickedPlaceholderRe : Regex :=
  .seq (.chr '`') <| .seq (.group 1 (.seq (.lit "[[".toList) <| .seq (.alt (.lit "node".toList) (.lit "doc".toList)) <|
    .seq (.lit ":".toList) <| .seq (.plus (.sat (· ≠ ']'))) <| .lit "]]".toList)) <| .chr '`'

def withoutBackticks (markdown : Str) : Str := Regex.sub backtickedPlaceholderRe (·.group 1) markdown

/-- The paths the page cites. -/
def docTargets (markdown : Str) : List Str :=
  (Regex.hits placeholderRe markdown).filterMap fun m =>
    if valueOf m ≠ [] ∧ kindOf m = .doc then some (normaliseFilePath (splitDocAnchor (valueOf m)).1) else none

structure ResolvedPage where
  markdown : Str
  citations : List ResolvedCitation
  unresolved : List Str
  deriving DecidableEq

def addCitation (citations : List ResolvedCitation) (c : ResolvedCitation) : List ResolvedCitation :=
  if c.key ∈ citations.map (·.key) then citations else citations ++ [c]

/-- `resolve_page`. The slugs are loaded where a cited document has chunks. -/
def resolvePage (db : RepoIndex) (repo : RepositorySlug) (markdown : Str) : Option ResolvedPage :=
  let markdown := withoutBackticks markdown
  let hits := Regex.hits placeholderRe markdown
  let slugs :=
    if (docTargets markdown).any fun p => loadDocChunks lower db p ≠ [] then loadDocSlugMap lower db else some []
  slugs.map fun slugByPath =>
    let rendered := hits.map (render lower db slugByPath repo)
    { markdown := Regex.sub placeholderRe (fun m => (render lower db slugByPath repo m).text) markdown
      citations := (rendered.filterMap (·.citation)).foldl addCitation []
      unresolved := rendered.filterMap (·.unresolved) }

/-! ## The check before rendering -/

/-- `f"{kind}:{value}"`. -/
def placeholderKey (m : Regex.Match) : Option Str :=
  if valueOf m = [] then none else some ((kindOf m).text ++ ':' :: valueOf m)

/-- Whether a key of `keys_in_order` cannot be resolved. -/
def keyUnresolved (db : RepoIndex) (key : Str) : Bool :=
  let kind := key.takeWhile (· ≠ ':')
  let value := (key.dropWhile (· ≠ ':')).drop 1
  if kind = CitationKind.node.text then (db.nodes.find? (·.qualifiedName = value)).isNone
  else if kind = CitationKind.doc.text then
    let (pathPart, heading) := splitDocAnchor value
    let path := normaliseFilePath pathPart
    hasMarkdownExtension lower path ∧ (pickDocChunk lower (loadDocChunks lower db path) heading).isNone
  else false

def prevalidatePage (db : RepoIndex) (markdown : Str) : List Str :=
  let keysInOrder := ((Regex.hits placeholderRe (withoutBackticks markdown)).filterMap placeholderKey).eraseDups
  keysInOrder.filter (keyUnresolved lower db)

end

end Cograph.CitationResolver
