import Cograph.Compact
import Cograph.Occurrences

/-!
# The excerpt a search shows

`rag/snippet.py`: the terms of a query and the excerpt of a content about the
first of them.
-/

namespace Cograph.Snippet

open Occurs (find stretch)

/-! ## Lower case -/

/-- What has no case and is no part of what has. -/
def caseless (c : Char) : Bool := Str.isSpace c ∨ c = '…'

/-- `str.lower`, by its characters. The dotted capital I becomes two. Capital
sigma has one lower case here, also at the end of a word. -/
structure CaseMap where
  low : Char → Str
  nonempty : ∀ c, low c ≠ []
  fixed : ∀ c, caseless c = true → low c = [c]
  of_mem : ∀ c, ∀ d ∈ low c, caseless d = true → d = c

section
variable (C : CaseMap)

def CaseMap.lower (s : Str) : Str := s.flatMap C.low

/-! ## The terms of a query -/

/-- The characters of `_TOKEN_RE`. -/
def tokenChar (c : Char) : Bool :=
  ('A' ≤ c ∧ c ≤ 'Z') ∨ ('a' ≤ c ∧ c ≤ 'z') ∨ ('0' ≤ c ∧ c ≤ '9') ∨ c ∈ "_./:-".toList

/-- `_TOKEN_RE.findall`. -/
def tokens (query : Str) : List Str := (query.splitOnP fun c => !tokenChar c).filter (· ≠ [])

/-- `_STOPWORDS`. -/
def stopwords : List Str :=
  ["a", "an", "and", "are", "does", "for", "how", "in", "is", "of", "or", "the", "to", "what", "where", "which", "who",
    "why"].map (·.toList)

/-- `s.strip("._-:/")`. -/
def stripMarks (s : Str) : Str :=
  let mark (c : Char) : Bool := c ∈ "._-:/".toList
  ((s.dropWhile mark).reverse.dropWhile mark).reverse

/-- The loop of `extract_query_terms`. The terms so far are the seen ones. -/
def termsFrom (maxTerms : Int) : List Str → List Str → List Str
  | terms, [] => terms
  | terms, raw :: raws =>
    let term := stripMarks (C.lower raw)
    if term.length < 2 ∨ term ∈ stopwords ∨ term ∈ terms then termsFrom maxTerms terms raws
    else if ((terms ++ [term]).length : Int) ≥ maxTerms then terms ++ [term]
    else termsFrom maxTerms (terms ++ [term]) raws

def extractQueryTerms (query : Str) (maxTerms : Int) : List Str := termsFrom C maxTerms [] (tokens query)

/-! ## The cuts -/

def minSnippetChars : Int := 80

def maxSnippetChars : Int := 4000

def wordBoundaryLookback : Nat := 80

def collapseWhitespace (text : Str) : Str := Str.strip (Compact.collapse text)

/-- The marks a window may end with. -/
def closing (c : Char) : Bool := c ∈ ".!?;:,)]\"'".toList

/-- `text.rfind(" ")`. -/
def lastSpace (text : Str) : Option Nat := (find text.reverse [' ']).map (text.length - 1 - ·)

/-- `_trim_to_word_boundary`. -/
def trimToWordBoundary (text : Str) : Str :=
  match text.getLast? with
  | none => text
  | some last =>
    if Str.isSpace last ∨ closing last then Str.rstrip text
    else
      match lastSpace text with
      | some i => if 0 < i ∧ text.length ≤ i + wordBoundaryLookback then Str.rstrip (text.take i) else Str.rstrip text
      | none => Str.rstrip text

/-- `_trim_leading_partial_word`. -/
def trimLeadingPartialWord (text : Str) : Str :=
  match text with
  | [] => text
  | first :: _ =>
    if Str.isSpace first then Str.lstrip text
    else
      match find text [' '] with
      | some i => if 0 < i ∧ i ≤ wordBoundaryLookback then text.drop (i + 1) else text
      | none => text

/-! ## The excerpt -/

/-- The first place so far and another. -/
def nearer : Option Nat → Option Nat → Option Nat
  | first, none => first
  | none, some idx => some idx
  | some first, some idx => if idx < first then some idx else some first

/-- The loop over the terms: the first place of one of them. -/
def firstMatch (lowered : Str) : Option Nat → List Str → Option Nat
  | first, [] => first
  | first, term :: terms =>
    if term = [] then firstMatch lowered first terms
    else firstMatch lowered (nearer first (find lowered (C.lower term))) terms

/-- Where the window starts and ends in a text of length `n`. -/
def window (n chars : Nat) : Option Nat → Nat × Nat
  | none => (0, chars)
  | some m =>
    let start := m - chars / 3
    let stop := min n (start + chars)
    if stop - start < chars ∧ 0 < start then (stop - chars, stop) else (start, stop)

/-- The budget between its bounds. -/
def clamp (chars : Int) : Nat := (max minSnippetChars (min maxSnippetChars chars)).toNat

/-- The window with its cuts and its ellipses. -/
def excerpt (collapsed : Str) (start stop : Nat) : Str :=
  let snippet := stretch collapsed start stop
  let snippet := if stop < collapsed.length then trimToWordBoundary snippet else snippet
  let snippet := if 0 < start then '…' :: Str.lstrip (trimLeadingPartialWord snippet) else snippet
  if stop < collapsed.length then Str.rstrip snippet ++ ['…'] else snippet

def makeSnippet (content : Option Str) (queryTerms : Option (List Str)) (chars : Int) : Str × Bool :=
  let chars := clamp chars
  let raw := content.getD []
  if raw = [] then ([], false)
  else
    let collapsed := collapseWhitespace raw
    if collapsed.length ≤ chars then (collapsed, false)
    else
      let bounds := window collapsed.length chars (firstMatch C (C.lower collapsed) none (queryTerms.getD []))
      (excerpt collapsed bounds.1 bounds.2, true)

end

end Cograph.Snippet
