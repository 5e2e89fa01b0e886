import Cograph.Coverage
import Cograph.Dict
import Cograph.Patterns

/-!
# Linking the names of a page

`wiki/citations.py`, `auto_link_qualified_names`: the qualified names a page
mentions become `[[node:…]]` placeholders. The page is cut at its fences,
placeholders and links, which stay as they are; between them the backticked
spans are linked first and the bare dotted names after, up to a number of
links. A row of `code_nodes` is kept with the columns the two queries read.
-/

namespace Cograph.Wiki

open Regex

structure CodeNodeRow where
  id : Nat
  repositoryId : Nat
  name : Str
  qualifiedName : Str
  deriving DecidableEq

/-! ## Patterns -/

/-- `\w`, with `letter` for what Unicode adds to ASCII. -/
def wordChar (letter : Char → Bool) (c : Char) : Bool :=
  if c.toNat < 128 then c.isAlphanum || c = '_' else letter c

/-- `[A-Za-z_]`. -/
def identStart (c : Char) : Bool := c.isAlpha || c = '_'

/-- `[A-Za-z0-9_]`. -/
def identPart (c : Char) : Bool := c.isAlphanum || c = '_'

/-- `[a-zA-Z0-9_+-]`. -/
def infoChar (c : Char) : Bool := c.isAlphanum || c = '_' || c = '+' || c = '-'

def fenceRe : Pattern :=
  .seq (.lit "```".toList) <| .seq (.star infoChar) <| .seq (.lit "\n".toList) <|
  .seq (.lazyStar fun _ => true) <| .lit "\n```".toList

def citationRe : Pattern :=
  .seq (.lit "[[".toList) <| .seq (.alt (.lit "node".toList) (.lit "doc".toList)) <|
  .seq (.lit ":".toList) <| .seq (.plus (· ≠ ']')) <| .lit "]]".toList

def markdownLinkRe : Pattern :=
  .seq (.lit "[".toList) <| .seq (.lazyStar (· ≠ ']')) <| .seq (.lit "](".toList) <|
  .seq (.plus fun c => c ≠ ')' ∧ c ≠ '\n') <| .lit ")".toList

/-- `_AUTO_LINK_SKIP_RE`. -/
def autoLinkSkipRe : Pattern := .alt fenceRe (.alt citationRe markdownLinkRe)

/-- `_BACKTICK_RE`. -/
def backtickRe : Pattern :=
  .seq (.lit "`".toList) <| .seq (.group 1 (.lazyPlus fun c => c ≠ '`' ∧ c ≠ '\n')) <| .lit "`".toList

def identRe : Regex := .seq (.sat identStart) (.star (.sat identPart))

def dottedRe : Regex := .seq identRe (.plus (.seq (.lit ".".toList) identRe))

/-- `_BARE_DOTTED_RE`. -/
def bareDottedRe (letter : Char → Bool) : Pattern :=
  .seq (.notBehind fun c => wordChar letter c || c = '.') <| .seq (.ofRegex dottedRe) <|
  .notAhead (.ofRegex (.alt (.sat (wordChar letter)) (.seq (.lit ".".toList) (.sat (wordChar letter)))))

/-- `_IDENT_TOKEN_RE.match`. -/
def identToken (s : Str) : Bool := ((Pattern.seq (.ofRegex identRe) .atEnd).matchAt [] s).isSome

/-- `_DOTTED_TOKEN_RE.match`. -/
def dottedToken (s : Str) : Bool := ((Pattern.seq (.ofRegex dottedRe) .atEnd).matchAt [] s).isSome

/-- `_AUTO_LINK_STOPLIST`. -/
def autoLinkStoplist : List Str :=
  ["any", "Array", "bool", "Boolean", "byte", "Dict", "Error", "Exception", "False", "float32", "float64", "int",
    "int32", "int64", "List", "Map", "nil", "None", "Number", "Object", "rune", "Set", "String", "string", "true",
    "True", "uint", "uint32", "uint64"].map String.toList

/-! ## Candidates -/

/-- The parts of a text from `cursor` on, given the matches in it. -/
def splitFrom (markdown : Str) : Nat → List (Nat × Match) → List (Str × Bool)
  | cursor, [] => if cursor < markdown.length then [(markdown.drop cursor, true)] else []
  | cursor, (start, m) :: ms =>
    (if cursor < start then [(slice markdown cursor start, true)] else []) ++
      (m.text, false) :: splitFrom markdown (start + m.text.length) ms

/-- `_split_safe_unsafe`. -/
def splitSafeUnsafe (markdown : Str) : List (Str × Bool) := splitFrom markdown 0 (autoLinkSkipRe.finditer markdown)

/-- `_strip_decorator`. -/
def stripDecorator (token : Str) : Str := Str.strip (token.dropWhile fun c => c = '*' ∨ c = '&')

/-- The name a backticked span holds. -/
def innerOf (m : Match) : Str := stripDecorator (Str.strip (m.group 1))

def runs (markdown : Str) : List Str := (splitSafeUnsafe markdown).filterMap fun (text, safe) => if safe then some text else none

/-- The two sets of `_collect_auto_link_candidates`. -/
def dottedQns (letter : Char → Bool) (markdown : Str) : List Str :=
  (runs markdown).flatMap fun text =>
    ((backtickRe.finditer text).map fun x => innerOf x.2).filter (fun inner => inner ≠ [] ∧ dottedToken inner) ++
      (((bareDottedRe letter).finditer text).map (·.2.text)).filter (· ∉ autoLinkStoplist)

def backtickSingles (markdown : Str) : List Str :=
  (runs markdown).flatMap fun text =>
    ((backtickRe.finditer text).map fun x => innerOf x.2).filter fun inner =>
      inner ≠ [] ∧ ¬dottedToken inner ∧ identToken inner ∧ inner ∉ autoLinkStoplist

/-! ## What they resolve to -/

structure Resolved where
  qns : Dict.Items Str Str
  names : Dict.Items Str Str

def qnToResolved (nodes : List CodeNodeRow) (repositoryId : Nat) (qns : List Str) : Dict.Items Str Str :=
  (nodes.filter fun row => row.repositoryId = repositoryId ∧ row.qualifiedName ∈ qns).foldl
    (fun d row => Dict.put d row.qualifiedName row.qualifiedName) []

/-- One row of the lookup by name, with the names seen and the ambiguous ones. -/
def seeName (seen : Dict.Items Str Str × List Str) (row : CodeNodeRow) : Dict.Items Str Str × List Str :=
  if (Dict.get seen.1 row.name).any (· ≠ row.qualifiedName) then (seen.1, row.name :: seen.2)
  else (Dict.put seen.1 row.name row.qualifiedName, seen.2)

def nameToResolved (nodes : List CodeNodeRow) (repositoryId : Nat) (pageNodeIds : List Nat) (singles : List Str) :
    Dict.Items Str Str :=
  let rows := nodes.filter fun row => row.repositoryId = repositoryId ∧ row.id ∈ pageNodeIds ∧ row.name ∈ singles
  let seen := rows.foldl seeName ([], [])
  seen.1.filter (·.1 ∉ seen.2)

/-- The two lookups, each left out where it would find nothing. -/
def resolve (nodes : List CodeNodeRow) (repositoryId : Nat) (pageNodeIds : List Nat) (dotted singles : List Str) :
    Resolved where
  qns := if dotted = [] then [] else qnToResolved nodes repositoryId dotted
  names := if singles = [] ∨ pageNodeIds = [] then [] else nameToResolved nodes repositoryId pageNodeIds singles

/-! ## Linking -/

def nodePlaceholder (target : Str) : Str := "[[node:".toList ++ target ++ "]]".toList

/-- The qualified name a backticked name is linked to. -/
def spanTarget (R : Resolved) (inner : Str) : Option Str :=
  if dottedToken inner then Dict.get R.qns inner
  else if identToken inner ∧ inner ∉ autoLinkStoplist then Dict.get R.names inner
  else none

/-- `_on_backtick` and `_on_bare`, with the links so far. -/
def linkTo (maxLinks : Int) (target : Match → Option Str) (n : Nat) (m : Match) : Str × Nat :=
  if maxLinks ≤ n then (m.text, n)
  else
    match target m with
    | none => (m.text, n)
    | some t => (nodePlaceholder t, n + 1)

def onBacktick (R : Resolved) (maxLinks : Int) : Nat → Match → Str × Nat :=
  linkTo maxLinks fun m => if innerOf m = [] then none else spanTarget R (innerOf m)

def onBare (R : Resolved) (maxLinks : Int) : Nat → Match → Str × Nat := linkTo maxLinks fun m => Dict.get R.qns m.text

/-- A pass over the parts of a text that are safe. -/
def overSafe (f : Nat → Str → Str × Nat) : Nat → List (Str × Bool) → Str × Nat
  | n, [] => ([], n)
  | n, (text, safe) :: parts =>
    let r := if safe then f n text else (text, n)
    let rest := overSafe f r.2 parts
    (r.1 ++ rest.1, rest.2)

/-- The bare names of one part. -/
def linkBare (letter : Char → Bool) (R : Resolved) (maxLinks : Int) (n : Nat) (text : Str) : Str × Nat :=
  subWith (onBare R maxLinks) n ((bareDottedRe letter).scan 0 [] text)

/-- `_replace_in_safe`. -/
def replaceInSafe (letter : Char → Bool) (R : Resolved) (maxLinks : Int) (n : Nat) (safeText : Str) : Str × Nat :=
  if maxLinks ≤ n then (safeText, n)
  else
    let spans := subWith (onBacktick R maxLinks) n (backtickRe.scan 0 [] safeText)
    if maxLinks ≤ spans.2 then spans
    else overSafe (linkBare letter R maxLinks) spans.2 (splitSafeUnsafe spans.1)

/-- `auto_link_qualified_names`. -/
def autoLinkQualifiedNames (letter : Char → Bool) (nodes : List CodeNodeRow) (repositoryId : Nat) (markdown : Str)
    (pageNodeIds : List Nat) (maxLinks : Int) : Str × Nat :=
  if markdown = [] then (markdown, 0)
  else
    let dotted := dottedQns letter markdown
    let singles := backtickSingles markdown
    if dotted = [] ∧ singles = [] then (markdown, 0)
    else
      let R := resolve nodes repositoryId pageNodeIds dotted singles
      if R.qns = [] ∧ R.names = [] then (markdown, 0)
      else overSafe (replaceInSafe letter R maxLinks) 0 (splitSafeUnsafe markdown)

end Cograph.Wiki
