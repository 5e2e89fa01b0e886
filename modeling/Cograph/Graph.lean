import Cograph.Dict
import Cograph.Paths

/-!
# The code graph

Rows of `code_nodes` and `code_edges` with the columns the graph code reads,
what the extractor hands over, the ingest cache, and the two name functions of
`graph/builder.py`: the canonical name of an edge's target, and the node that
name resolves to.
-/

namespace Cograph

/-! ## Rows -/

inductive NodeType where
  | module
  | klass
  | struct
  | interface
  | function
  | method
  | var
  | const
  | typeAlias
  | attr
  deriving DecidableEq, Repr

inductive EdgeType where
  | declares
  | imports
  | inherits
  | calls
  deriving DecidableEq, Repr

/-- The keys of a node's metadata that the graph code reads or writes. -/
structure Metadata where
  imports : List String := []
  inherits : List String := []
  calls : List String := []
  unresolvedCalls : List String := []
  overloads : List String := []
  packageQualifiedName : Option String := none
  receiverName : Option String := none
  receiverFields : List (String × String) := []
  extractorStamp : Option String := none
  deriving DecidableEq, Repr

structure CodeNode where
  id : Nat
  filePath : Path
  qualifiedName : String
  symbolKey : Option String
  nodeType : NodeType
  name : String
  language : GraphLanguage
  parentId : Option Nat
  callers : List Nat
  callees : List Nat
  metadata : Metadata
  contentHash : String
  deriving DecidableEq, Repr

structure CodeEdge where
  sourceNodeId : Nat
  targetNodeId : Option Nat
  targetQualifiedName : String
  edgeType : EdgeType
  deriving DecidableEq, Repr

/-- The graph of one repository. Rows stand in the order of their ids, which
grow with time (`uuid7`). -/
structure Db where
  nodes : List CodeNode
  edges : List CodeEdge
  nextId : Nat
  deriving DecidableEq, Repr

structure ExtractedNode where
  nodeType : NodeType
  name : String
  qualifiedName : String
  filePath : Path
  language : GraphLanguage
  content : String
  signature : Option String
  parentQualifiedName : Option String
  metadata : Metadata
  symbolKey : String
  deriving DecidableEq, Repr

structure ExtractedEdge where
  edgeType : EdgeType
  source : String
  target : String
  deriving DecidableEq, Repr

structure ExtractedGraph where
  nodes : List ExtractedNode
  edges : List ExtractedEdge
  deriving DecidableEq, Repr

/-- The library functions the graph code calls on text: the hex digest of its
UTF-8 bytes, `str.strip` and `str.isupper`. -/
structure Host where
  sha256 : String → String
  strip : String → String
  isUpper : String → Bool

/-! ## The ingest cache -/

/-- `GraphIngestCache`, its nodes by id. The nodes themselves are the session's
rows. -/
structure Cache where
  nodeById : List Nat
  nodesByQn : Dict.Items String Nat
  moduleNodesByFilePath : Dict.Items Path Nat
  deriving DecidableEq, Repr

namespace Cache

def empty : Cache := ⟨[], [], []⟩

def add (c : Cache) (n : CodeNode) : Cache where
  nodeById := if n.id ∈ c.nodeById then c.nodeById else c.nodeById ++ [n.id]
  nodesByQn := Dict.put c.nodesByQn n.qualifiedName n.id
  moduleNodesByFilePath :=
    if n.nodeType = .module then Dict.put c.moduleNodesByFilePath n.filePath n.id else c.moduleNodesByFilePath

def remove (c : Cache) (n : CodeNode) : Cache where
  nodeById := c.nodeById.filter (· ≠ n.id)
  nodesByQn :=
    if Dict.get c.nodesByQn n.qualifiedName = some n.id then Dict.drop c.nodesByQn n.qualifiedName else c.nodesByQn
  moduleNodesByFilePath :=
    if Dict.get c.moduleNodesByFilePath n.filePath = some n.id then Dict.drop c.moduleNodesByFilePath n.filePath
    else c.moduleNodesByFilePath

def rename (c : Cache) (i : Nat) (oldQualifiedName qualifiedName : String) : Cache :=
  if oldQualifiedName = qualifiedName then c
  else
    let byQn :=
      if Dict.get c.nodesByQn oldQualifiedName = some i then Dict.drop c.nodesByQn oldQualifiedName else c.nodesByQn
    { c with nodesByQn := Dict.put byQn qualifiedName i }

def fromNodes (rows : List CodeNode) : Cache := rows.foldl add empty

end Cache

def findNode (rows : List CodeNode) (i : Nat) : Option CodeNode := rows.find? (·.id = i)

/-! ## Text -/

namespace Text

def startsWith (s pre : String) : Bool := pre.toList.isPrefixOf s.toList

def endsWith (s suf : String) : Bool := suf.toList.isSuffixOf s.toList

/-- `s[n:]`. -/
def skip (s : String) (n : Nat) : String := String.ofList (s.toList.drop n)

def hasDot (s : String) : Bool := s.toList.contains '.'

def splitDots (s : String) : List String := (s.toList.splitOn '.').map String.ofList

def joinDots (xs : List String) : String := ".".intercalate xs

/-- The text before and after the first `sep`. -/
def cut (sep : List Char) : List Char → Option (List Char × List Char)
  | [] => none
  | c :: s =>
    if sep.isPrefixOf (c :: s) then some ([], (c :: s).drop sep.length)
    else (cut sep s).map fun x => (c :: x.1, x.2)

/-- `s.partition(sep)` without the separator, `none` where it does not occur. -/
def partition (s sep : String) : Option (String × String) :=
  (cut sep.toList s.toList).map fun x => (String.ofList x.1, String.ofList x.2)

/-- `s.rpartition(".")`, the text before and after the last dot. -/
def rpartitionDot (s : String) : String × String :=
  let last := (s.toList.reverse.takeWhile (· ≠ '.')).reverse
  (String.ofList (s.toList.take (s.toList.length - last.length - 1)), String.ofList last)

end Text

/-! ## Canonical names -/

section
variable (h : Host)

def isPackageModule (p : Path) : Bool := p.name = "__init__.py"

def packageParts (m : CodeNode) : List String :=
  let parts := Text.splitDots m.qualifiedName
  if isPackageModule m.filePath then parts else parts.dropLast

/-- An import target made absolute, its ` as alias` kept. -/
def normalizeImportTarget (target : String) (m : CodeNode) : String :=
  let (working, aliasSuffix) :=
    match Text.partition target " as " with
    | none => (target, "")
    | some (canonical, name) =>
      (h.strip canonical, if h.strip name = "" then "" else " as " ++ h.strip name)
  let level := (working.toList.takeWhile (· = '.')).length
  if level = 0 then working ++ aliasSuffix
  else
    let remainder := Text.skip working level
    let parts := packageParts m
    let upLevels := level - 1
    if parts.length < upLevels then remainder ++ aliasSuffix
    else
      let base := parts.take (parts.length - upLevels)
      if remainder = "" then Text.joinDots base ++ aliasSuffix
      else Text.joinDots (base ++ [remainder]) ++ aliasSuffix

def candidateFromImport (raw target : String) : Option String :=
  if target = "" ∨ Text.endsWith target ".*" then none
  else
    match Text.partition target " as " with
    | some (canonical, name) =>
      let canonical := h.strip canonical
      let name := h.strip name
      if canonical = "" ∨ name = "" ∨ name = "_" then none
      else if name = "." then if Text.hasDot raw then none else some (canonical ++ "." ++ raw)
      else if raw = name then some canonical
      else if Text.startsWith raw (name ++ ".") then some (canonical ++ Text.skip raw name.toList.length)
      else none
    | none =>
      let localName := (Text.rpartitionDot target).2
      if raw = localName then some target
      else if Text.startsWith raw (localName ++ ".") then some (target ++ Text.skip raw localName.toList.length)
      else none

def goBuiltins : List String :=
  ["append", "cap", "clear", "close", "complex", "copy", "delete", "imag", "len", "make", "max", "min", "new",
    "panic", "print", "println", "real", "recover"]

/-- A string of the metadata, `none` where it is missing or empty. -/
def metadataStr (v : Option String) : Option String := v.filter (· ≠ "")

/-- `self.x` in a node with a parent, and `this.x` in a TS/JS class member. -/
def ownMember (rows : List CodeNode) (raw : String) (source : CodeNode) : Option String :=
  let parent := source.parentId.bind (findNode rows)
  match parent with
  | none => none
  | some p =>
    if Text.startsWith raw "self." then some (p.qualifiedName ++ "." ++ Text.skip raw 5)
    else if Text.startsWith raw "this." ∧ Path.isJsTs source.language ∧ p.nodeType = .klass then
      some (p.qualifiedName ++ "." ++ Text.skip raw 5)
    else none

/-- A Go call through the receiver: a method of its type, or of a field's. -/
def receiverMember (raw : String) (source : CodeNode) : Option String :=
  if source.language ≠ .go then none
  else
    match metadataStr source.metadata.receiverName with
    | none => none
    | some receiver =>
      let parent := (Text.rpartitionDot source.qualifiedName).1
      if ¬ Text.startsWith raw (receiver ++ ".") ∨ parent = "" then none
      else
        let member := Text.skip raw (receiver.toList.length + 1)
        let (field, called) := (Text.partition member ".").getD (member, "")
        match source.metadata.receiverFields.lookup field with
        | some fieldType =>
          if called ≠ "" ∧ ¬ Text.hasDot called then some (fieldType ++ "." ++ called)
          else some (parent ++ "." ++ member)
        | none => some (parent ++ "." ++ member)

/-- The one name the file's imports give the target. -/
def importedName (raw : String) (m : CodeNode) : Option String :=
  let candidates :=
    (m.metadata.imports.filterMap fun target => candidateFromImport h raw (normalizeImportTarget h target m)).eraseDups
  match candidates with
  | [candidate] => some candidate
  | _ => none

def packageMember (view : Cache) (raw : String) (source m : CodeNode) : Option String :=
  if source.language ≠ .go then none
  else
    match metadataStr m.metadata.packageQualifiedName with
    | none => none
    | some pkg =>
      let candidate := pkg ++ "." ++ raw
      if ¬ Text.hasDot raw then if raw ∈ goBuiltins then none else some candidate
      else
        let first := (raw.toList.takeWhile (· ≠ '.')).take 1
        if h.isUpper (String.ofList first) ∨ (Dict.get view.nodesByQn candidate).isSome then some candidate else none

/-- `_canonical_target_name`. -/
def canonicalTargetName (rows : List CodeNode) (view : Cache) (t : EdgeType) (raw : String) (source : CodeNode) :
    String :=
  if t ≠ .calls then raw
  else
    let m := (Dict.get view.moduleNodesByFilePath source.filePath).bind (findNode rows)
    let named := ownMember rows raw source <|> receiverMember raw source <|> m.bind (importedName h raw) <|>
      m.bind (packageMember h view raw source)
    match named, m with
    | some name, _ => name
    | none, some m => if Text.hasDot raw then raw else m.qualifiedName ++ "." ++ raw
    | none, none => raw

end

/-- `_resolve_edge_target`. -/
def resolveEdgeTarget (rows : List CodeNode) (view : Cache) (t : EdgeType) (name : String) : Option Nat :=
  match Dict.get view.nodesByQn name with
  | some i => some i
  | none =>
    if t ≠ .inherits then none
    else
      let isMatch := fun x : String × Nat =>
        Text.endsWith x.1 ("." ++ name) ∨ ((findNode rows x.2).map (·.name)) = some name
      match view.nodesByQn.filter fun x => isMatch x with
      | [x] => some x.2
      | _ => none

end Cograph
