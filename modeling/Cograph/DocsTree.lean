import Cograph.Resolve

/-!
# The tree of a repository's documents

`repo_docs/queries.py`: `WikiQueryService.list_docs_tree`, which mirrors the
directories of a repository, and `get_doc_by_slug`. Documents stand in the order
of their paths, and a chunk's mentions are the ids of code nodes.
-/

namespace Cograph.DocsTree

open CitationResolver (RepoDocument splitSuffix buildSlugMap)

/-- `str.lower`, `str.title` and `uuid.uuid5` in the name space of the groups. -/
structure Py where
  lower : Str → Str
  title : Str → Str
  uuid5 : Str → Nat

/-- A document with its text and the mentions of its chunks, in their order. -/
structure Document extends RepoDocument where
  content : Str
  mentions : List (List Nat)
  createdAt : Nat
  updatedAt : Nat

structure CodeNode where
  id : Nat
  name : Str
  nodeType : Str
  filePath : Str
  startLine : Nat
  endLine : Nat

structure TreeEntry where
  id : Nat
  title : Str
  slug : Str
  docType : Str
  sortOrder : Nat
  parentId : Option Nat
  filePath : Option Str

inductive WikiTreeNode where
  | mk (entry : TreeEntry) (children : List WikiTreeNode)

namespace WikiTreeNode

def entry : WikiTreeNode → TreeEntry
  | mk entry _ => entry

def children : WikiTreeNode → List WikiTreeNode
  | mk _ children => children

end WikiTreeNode

structure WikiPage where
  id : Nat
  title : Str
  slug : Str
  content : Str
  docType : Str
  sortOrder : Nat
  parentId : Option Nat
  relatedNodes : List CodeNode
  createdAt : Nat
  updatedAt : Nat

/-- An exception, or a directory that is entered too deep. -/
inductive TreeError where
  | keyError
  | indexError
  | fuel
  deriving DecidableEq

/-! ## Paths -/

/-- The root of a POSIX path; two slashes are one of their own. -/
def pathRoot (path : Str) : List Str :=
  if path.head? ≠ some '/' then []
  else if ['/', '/'].isPrefixOf path ∧ ¬['/', '/', '/'].isPrefixOf path then [['/', '/']]
  else [['/']]

/-- `PurePosixPath.parts`. -/
def pathParts (path : Str) : List Str :=
  pathRoot path ++ (path.splitOn '/').filter fun s => s ≠ [] ∧ s ≠ ['.']

/-- `PurePosixPath.name`. -/
def pathName (path : Str) : Str := (((pathParts path).drop (pathRoot path).length).getLast?).getD []

/-- `PurePosixPath.stem`. -/
def pathStem (path : Str) : Str := (splitSuffix (pathName path)).1

def joinParts (parts : List Str) : Str := List.intercalate ['/'] parts

/-- The directory of a path, empty at the root of the repository. -/
def parentDir (path : Str) : Str :=
  if 1 < (pathParts path).length then joinParts (pathParts path).dropLast else []

/-! ## Directories -/

/-- An entry of `dir_map`. -/
structure Dir where
  subdirs : List Str
  docs : List Document

def Dir.empty : Dir := ⟨[], []⟩

abbrev DirMap := Dict.Items Str Dir

/-- An entry after `setdefault`. -/
def entryOf (m : DirMap) (dir : Str) : Dir := (Dict.get m dir).getD Dir.empty

def addSubdir (m : DirMap) (dir child : Str) : DirMap :=
  let e := entryOf m dir
  Dict.put m dir { e with subdirs := if child ∈ e.subdirs then e.subdirs else e.subdirs ++ [child] }

/-- Every directory on the way, from the one that is reached. -/
def addDirs : DirMap → Str → List Str → DirMap
  | m, _, [] => m
  | m, running, part :: parts =>
    let child := if running ≠ [] then running ++ '/' :: part else part
    addDirs (addSubdir m running child) child parts

def addDoc (m : DirMap) (doc : Document) : DirMap :=
  let m := addDirs m [] (pathParts doc.filePath).dropLast
  let e := entryOf m (parentDir doc.filePath)
  Dict.put m (parentDir doc.filePath) { e with docs := e.docs ++ [doc] }

def dirMap (documents : List Document) : DirMap := documents.foldl addDoc [([], Dir.empty)]

/-! ## The tree -/

def rootFilenames : List Str := ["readme", "index", "overview", "introduction", "intro", "main"].map String.toList

def dirToDocType : Dict.Items Str Str :=
  [("api", "api"), ("apis", "api"), ("reference", "api"), ("ref", "api"), ("modules", "module"), ("module", "module"),
    ("guides", "guide"), ("guide", "guide"), ("tutorials", "guide"), ("tutorial", "guide"), ("howto", "guide"),
    ("how-to", "guide"), ("overview", "overview")].map fun x => (x.1.toList, x.2.toList)

section
variable (P : Py)

/-- `_infer_doc_type`. A path without parts has no first one. -/
def inferDocType (filePath : Str) : Except TreeError Str :=
  match pathParts filePath with
  | [] => .error .indexError
  | [_] => .ok (if P.lower (pathStem filePath) ∈ rootFilenames then "overview".toList else "guide".toList)
  | top :: _ => .ok ((Dict.get dirToDocType (P.lower top)).getD "guide".toList)

def spaced (s : Str) : Str := s.map fun c => if c = '-' ∨ c = '_' then ' ' else c

/-- `_slug_to_title`. -/
def slugToTitle (slug : Str) : Str :=
  P.title ((slug.dropWhile (· = '_')).map fun c => if c = '-' then ' ' else c)

/-- Whether a document is pinned to the top of its directory. -/
def pinned (doc : Document) : Bool := P.lower (pathStem doc.filePath) ∈ rootFilenames

/-- The documents of a directory by their names. -/
def byName (docs : List Document) : List Document :=
  docs.insertionSort fun a b => ¬P.lower (pathName b.filePath) < P.lower (pathName a.filePath)

def docTitle (doc : Document) (slug : Str) : Str := if doc.title.getD [] = [] then slugToTitle P slug else doc.title.getD []

/-- `_leaf_node`. -/
def leafNode (idToSlug : Dict.Items Nat Str) (doc : Document) (parentId : Option Nat) (sortOrder : Nat) :
    Except TreeError WikiTreeNode :=
  match Dict.get idToSlug doc.id with
  | none => .error .keyError
  | some slug => do
    let docType ← inferDocType P doc.filePath
    return .mk
      { id := doc.id, title := docTitle P doc slug, slug, docType, sortOrder, parentId,
        filePath := some doc.filePath } []

/-- The id of a group node. -/
def groupId (repositoryId subdir : Str) : Nat := P.uuid5 (repositoryId ++ '/' :: subdir)

def groupEntry (repositoryId subdir : Str) (parentId : Option Nat) (sortOrder : Nat) : TreeEntry :=
  let basename := pathName subdir
  { id := groupId P repositoryId subdir
    title := P.title (spaced basename)
    slug := "_dir-".toList ++ subdir
    docType := (Dict.get dirToDocType (P.lower basename)).getD "guide".toList
    sortOrder
    parentId
    filePath := none }

/-- `_build_dir_children`. -/
def buildDirChildren (dirs : DirMap) (idToSlug : Dict.Items Nat Str) (repositoryId : Str) :
    Nat → Str → Option Nat → Except TreeError (List WikiTreeNode)
  | 0, _, _ => .error .fuel
  | fuel + 1, dirPath, parentId =>
    match Dict.get dirs dirPath with
    | none => .ok []
    | some e => do
      let subdirs := e.subdirs.insertionSort fun a b => ¬b < a
      let docs := byName P e.docs
      let first := docs.filter (pinned P)
      let rest := docs.filter fun d => ¬pinned P d
      let top ← (first.zipIdx 0).mapM fun x => leafNode P idToSlug x.1 parentId x.2
      let groups ← (subdirs.zipIdx first.length).mapM fun x => do
        let children ← buildDirChildren dirs idToSlug repositoryId fuel x.1 (some (groupId P repositoryId x.1))
        return .mk (groupEntry P repositoryId x.1 parentId x.2) children
      let bottom ← (rest.zipIdx (first.length + subdirs.length)).mapM fun x => leafNode P idToSlug x.1 parentId x.2
      return top ++ groups ++ bottom

/-- `list_docs_tree`. -/
def listDocsTree (fuel : Nat) (repositoryId : Str) (documents : List Document) : Except TreeError (List WikiTreeNode) :=
  if documents = [] then .ok []
  else
    let slugMap := buildSlugMap P.lower (documents.map (·.toRepoDocument))
    let idToSlug := Dict.ofItems (slugMap.map fun x => (x.2, x.1))
    buildDirChildren P (dirMap documents) idToSlug repositoryId fuel [] none

/-! ## The page -/

/-- The code nodes that a document's chunks mention, each once. -/
def relatedNodes (nodes : List CodeNode) (doc : Document) : List CodeNode :=
  doc.mentions.flatten.eraseDups.filterMap fun i => nodes.find? (·.id = i)

/-- `get_doc_by_slug`. -/
def getDocBySlug (nodes : List CodeNode) (repositoryId : Str) (documents : List Document) (slug : Str) :
    Except TreeError (Option WikiPage) :=
  let slugMap := buildSlugMap P.lower (documents.map (·.toRepoDocument))
  match (Dict.get slugMap slug).bind fun id => documents.find? (·.id = id) with
  | none => .ok none
  | some doc => do
    let dir := parentDir doc.filePath
    let sameDir := byName P (documents.filter fun d => joinParts (pathParts d.filePath).dropLast = dir)
    let leafOrder := sameDir.filter (pinned P) ++ sameDir.filter fun d => ¬pinned P d
    let docType ← inferDocType P doc.filePath
    return some {
      id := doc.id
      title := docTitle P doc slug
      slug
      content := doc.content
      docType
      sortOrder := (leafOrder.findIdx? (·.id = doc.id)).getD 0
      parentId := if dir = [] then none else some (groupId P repositoryId dir)
      relatedNodes := relatedNodes nodes doc
      createdAt := doc.createdAt
      updatedAt := doc.updatedAt }

end

end Cograph.DocsTree
