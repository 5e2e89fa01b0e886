import Cograph.RepoDocs

/-!
# RepoDocumentSymbolLinker.link_chunk_mentions

The names a chunk mentions, and the node of the graph each stands for: of the
nodes with that name the one with the best score.
-/

namespace Cograph.RepoDocs

variable {Digest : Type} (P : Py Digest)

/-! ## Names in a text -/

def isIdentStart (c : Char) : Bool := ('A' ≤ c ∧ c ≤ 'Z') ∨ ('a' ≤ c ∧ c ≤ 'z') ∨ c = '_'

def isIdentChar (c : Char) : Bool := isIdentStart c ∨ ('0' ≤ c ∧ c ≤ '9')

/-- `[A-Za-z_][A-Za-z0-9_]*` at the start of a text, with the text after it. -/
def ident : Str → Option (Str × Str)
  | [] => none
  | c :: s => if isIdentStart c then some (c :: s.takeWhile isIdentChar, s.dropWhile isIdentChar) else none

/-- `\b` between two characters, or at an end of the text. -/
def wordBoundary (before after : Option Char) : Bool := before.any P.isWord != after.any P.isWord

/-- A pattern: the name and the text after the match, given the character
before it. -/
abbrev Pattern := Option Char → Str → Option (Str × Str)

/-- `_BACKTICK_SYMBOL_PATTERN`. -/
def backtickSymbol : Pattern := fun _ s =>
  match s with
  | '`' :: c :: s =>
    let rest := s.dropWhile fun d => isIdentChar d ∨ d = '.'
    if isIdentStart c ∧ rest.head? = some '`' then
      some (c :: s.takeWhile fun d => isIdentChar d ∨ d = '.', rest.tail)
    else none
  | _ => none

/-- The parts `.ident` that follow, at most `fuel` of them. -/
def dottedParts : Nat → Str → List Str
  | 0, _ => []
  | fuel + 1, s =>
    match s with
    | '.' :: s =>
      match ident s with
      | some (name, rest) => ('.' :: name) :: dottedParts fuel rest
      | none => []
    | _ => []

/-- `_PLAIN_QUALIFIED_PATTERN`. A last part that a word character follows is
given back, then a dot follows. -/
def plainQualified : Pattern := fun before s =>
  match ident s with
  | none => none
  | some (first, rest) =>
    let parts := dottedParts rest.length rest
    let ends := wordBoundary P (parts.flatten.getLast?) (rest.drop parts.flatten.length).head?
    let parts := if ends then parts else parts.dropLast
    if wordBoundary P before s.head? ∧ parts ≠ [] then
      some (first ++ parts.flatten, rest.drop parts.flatten.length)
    else none

/-- `_FUNCTION_CALL_PATTERN`. -/
def functionCall : Pattern := fun before s =>
  match ident s with
  | none => none
  | some (name, rest) =>
    if wordBoundary P before s.head? ∧ rest.take 2 = ['(', ')'] then some (name, rest.drop 2) else none

/-- `pattern.findall`, on a text of at most `fuel` characters. -/
def findall (pattern : Pattern) : Nat → Option Char → Str → List Str
  | 0, _, _ => []
  | fuel + 1, before, s =>
    match pattern before s with
    | some (name, rest) => name :: findall pattern fuel (s.take (s.length - rest.length)).getLast? rest
    | none =>
      match s with
      | [] => []
      | c :: s => findall pattern fuel (some c) s

/-- `_extract_raw_names`, each name once. -/
def extractRawNames (content : Str) : List Str :=
  let all := fun pattern => findall pattern (content.length + 1) none content
  (all backtickSymbol ++ all (plainQualified P) ++ all (functionCall P)).foldl
    (fun names name => if name ∈ names then names else names ++ [name]) []

/-! ## Nodes -/

/-- The columns of a node that a mention is resolved by. -/
structure Symbol where
  id : Nat
  name : Str
  qualifiedName : Str
  filePath : Path
  startLine : Nat
  packageQualifiedName : Option Str
  deriving DecidableEq

def removeCallSuffix (s : Str) : Str := if ['(', ')'].isSuffixOf s then s.take (s.length - 2) else s

/-- `raw_name.rsplit(".", 1)[-1].removesuffix("()")`. -/
def exactName (raw : Str) : Str := removeCallSuffix ((raw.reverse.takeWhile (· ≠ '.')).reverse)

def commonPrefix : List String → List String → Nat
  | a :: left, b :: right => if a = b then commonPrefix left right + 1 else 0
  | _, _ => 0

/-- `_common_path_prefix_length`. -/
def commonPathPrefixLength (left right : Path) : Nat := commonPrefix left.dir right.dir

def candidateScore (raw : Str) (candidate : Symbol) (document : Path) : Nat :=
  let cleanRaw := removeCallSuffix raw
  let rawParts := cleanRaw.splitOn '.'
  let qualifier := ['.'].intercalate rawParts.dropLast
  let candidateParts := lowerParts P candidate.filePath
  let documentParts := (lowerParts P document).filter (· ∉ texts ["docs", "doc"])
  let byName :=
    (if candidate.qualifiedName = cleanRaw then 120 else if cleanRaw.isSuffixOf candidate.qualifiedName then 90 else 0) +
      if some candidate.name = rawParts.getLast? then 50 else 0
  let byQualifier :=
    if 1 < rawParts.length then
      (if candidate.packageQualifiedName = some qualifier then 40 else 0) +
        (if Str.contains candidate.qualifiedName qualifier then 30 else 0) +
        if ∃ part ∈ rawParts.dropLast.getLast?, P.lower part ∈ candidateParts then 20 else 0
    else 0
  let byPath :=
    (if ∃ part ∈ documentParts, part ∈ candidateParts then 15 else 0) +
      commonPathPrefixLength document candidate.filePath * 5
  byName + byQualifier + byPath

/-- A candidate's key for `max`, the earlier line first. -/
def beats (raw : Str) (document : Path) (a b : Symbol) : Bool :=
  let score := fun x => candidateScore P raw x document
  let common := fun x : Symbol => commonPathPrefixLength document x.filePath
  if score a ≠ score b then decide (score b < score a)
  else if common a ≠ common b then decide (common b < common a)
  else decide (a.startLine < b.startLine)

/-- `max(scored_candidates, key=...)`: the first of the best. -/
def best (raw : Str) (document : Path) : List Symbol → Option Symbol
  | [] => none
  | x :: xs => some (xs.foldl (fun b y => if beats P raw document y b then y else b) x)

structure LinkedMention where
  nodeId : Nat
  name : Str
  filePath : Path
  deriving DecidableEq

/-- The nodes of the query, in its order. -/
def candidates (symbols : List Symbol) (rawNames : List Str) : List Symbol :=
  let exactNames := rawNames.map exactName
  let qualifiedNames := (rawNames.filter ('.' ∈ ·)).map removeCallSuffix
  (symbols.filter fun x => x.name ∈ exactNames ∨ x.qualifiedName ∈ qualifiedNames).insertionSort fun x y =>
    if x.filePath ≠ y.filePath then decide (x.filePath.posix ≤ y.filePath.posix) else decide (x.startLine ≤ y.startLine)

def linkName (all : List Symbol) (document : Path) (raw : Str) : Option LinkedMention :=
  let named := all.filter (·.name = exactName raw)
  let found :=
    match all.find? (·.qualifiedName = removeCallSuffix raw) with
    | none => named
    | some x => if x ∈ named then named else x :: named
  match best P raw document found with
  | none => none
  | some x => if 0 < candidateScore P raw x document then some ⟨x.id, x.name, x.filePath⟩ else none

/-- `link_chunk_mentions`. -/
def linkChunkMentions (symbols : List Symbol) (document : Path) (content : Str) : List LinkedMention :=
  let rawNames := extractRawNames P content
  rawNames.filterMap (linkName P (candidates symbols rawNames) document)

end Cograph.RepoDocs
