import Cograph.Dict
import Cograph.Patterns
import Cograph.Strs

/-!
# Links between documents

`md_rag/link_resolver.py`: the table of a collection's documents and the names
under which a link is looked up in it, with the functions of `posixpath` and
`urllib.parse` that it uses. `digit` is `\d`, a decimal digit of any script.
-/

namespace Cograph.LinkResolver

open Regex

/-! ## `urllib.parse.unquote` -/

def replacement : Char := '\ufffd'

/-- What a byte that no sequence waits for begins: a character, a sequence with
the bits so far, how many bytes are to come and the bounds of the next, or
nothing. -/
def leadByte (b : Nat) : Option (Nat × Nat × Nat × Nat) :=
  if b < 0x80 then some (b, 0, 0, 0)
  else if 0xc2 ≤ b ∧ b ≤ 0xdf then some (b - 0xc0, 1, 0x80, 0xbf)
  else if b = 0xe0 then some (0, 2, 0xa0, 0xbf)
  else if b = 0xed then some (0xd, 2, 0x80, 0x9f)
  else if 0xe1 ≤ b ∧ b ≤ 0xef then some (b - 0xe0, 2, 0x80, 0xbf)
  else if b = 0xf0 then some (0, 3, 0x90, 0xbf)
  else if 0xf1 ≤ b ∧ b ≤ 0xf3 then some (b - 0xf0, 3, 0x80, 0xbf)
  else if b = 0xf4 then some (4, 3, 0x80, 0x8f)
  else none

/-- `bytes.decode("utf-8", "replace")`: a sequence that breaks off is one
replacement character. -/
def decodeReplace : Option (Nat × Nat × Nat × Nat) → List Nat → Str
  | none, [] => []
  | some _, [] => [replacement]
  | none, b :: bs =>
    match leadByte b with
    | none => replacement :: decodeReplace none bs
    | some (bits, 0, _, _) => Char.ofNat bits :: decodeReplace none bs
    | some lead => decodeReplace (some lead) bs
  | some (bits, n, lo, hi), b :: bs =>
    if lo ≤ b ∧ b ≤ hi then
      let bits := bits * 64 + b % 64
      if n ≤ 1 then Char.ofNat bits :: decodeReplace none bs
      else decodeReplace (some (bits, n - 1, 0x80, 0xbf)) bs
    else
      match leadByte b with
      | none => replacement :: replacement :: decodeReplace none bs
      | some (bits, 0, _, _) => replacement :: Char.ofNat bits :: decodeReplace none bs
      | some lead => replacement :: decodeReplace (some lead) bs

def hexDigit (c : Char) : Option Nat :=
  if c.isDigit then some (c.toNat - 48)
  else if 'a' ≤ c ∧ c ≤ 'f' then some (c.toNat - 87)
  else if 'A' ≤ c ∧ c ≤ 'F' then some (c.toNat - 55)
  else none

/-- `unquote_to_bytes` of a text in ASCII; `%` stays where no two digits
follow. -/
def unquoteToBytes : Str → List Nat
  | [] => []
  | [c] => [c.toNat]
  | [c, d] => [c.toNat, d.toNat]
  | c :: d :: e :: s =>
    match if c = '%' then hexDigit d else none, hexDigit e with
    | some h, some l => (16 * h + l) :: unquoteToBytes s
    | _, _ => c.toNat :: unquoteToBytes (d :: e :: s)

/-- The runs of ASCII characters are decoded, others stay. -/
def unquoteRuns : Str → Str → Str
  | run, [] => decodeReplace none (unquoteToBytes run.reverse)
  | run, c :: s =>
    if c.toNat < 128 then unquoteRuns (c :: run) s
    else decodeReplace none (unquoteToBytes run.reverse) ++ c :: unquoteRuns [] s

def unquote (s : Str) : Str := if '%' ∈ s then unquoteRuns [] s else s

/-! ## `posixpath` -/

def rstripSlash (s : Str) : Str := (s.reverse.dropWhile (· = '/')).reverse

def dirname (p : Str) : Str :=
  let head := (p.reverse.dropWhile (· ≠ '/')).reverse
  if head.all (· = '/') then head else rstripSlash head

def join (a b : Str) : Str :=
  if b.head? = some '/' then b
  else if a = [] ∨ a.getLast? = some '/' then a ++ b
  else a ++ '/' :: b

/-- The components that `normpath` keeps, last first. -/
def pushComponent (rooted : Bool) (kept : List Str) (comp : Str) : List Str :=
  if comp = [] ∨ comp = ['.'] then kept
  else if comp ≠ ['.', '.'] ∨ ¬rooted ∧ kept = [] ∨ kept.head? = some ['.', '.'] then comp :: kept
  else kept.tail

def normpath (path : Str) : Str :=
  if path = [] then ['.']
  else
    let slashes := if ['/', '/'] <+: path ∧ ¬['/', '/', '/'] <+: path then 2 else if ['/'] <+: path then 1 else 0
    let kept := (path.splitOn '/').foldl (pushComponent (slashes ≠ 0)) []
    let path := List.replicate slashes '/' ++ ['/'].intercalate kept.reverse
    if path = [] then ['.'] else path

/-! ## Page ids -/

section
variable (digit : Char → Bool)

/-- `_SOURCE_KEY_PAGE_RE`. -/
def sourceKeyPageRe : Pattern :=
  .seq (.plus fun c => c.isLower ∨ c.isDigit ∨ c = '_' ∨ c = '-') <| .seq (.lit [':']) <| .seq (.plus (· ≠ ':')) <|
    .seq (.lit [':']) <| .seq (.group 1 (.plus digit)) (.alt (.lit ['#']) .atEnd)

/-- `_URL_PAGE_RE`. -/
def urlPageRe : Pattern := .seq (.lit "/pages/".toList) (.group 1 (.plus digit))

def pageIdFromSourceKey (sourceKey : Str) : Option Str := ((sourceKeyPageRe digit).matchAt [] sourceKey).map (·.group 1)

def pageIdFromUrl (href : Str) : Option Str := ((urlPageRe digit).finditer href).head?.map (·.2.group 1)

end

/-! ## The table -/

structure MdDocument where
  id : Nat
  collectionId : Nat
  sourceKey : Str
  deriving DecidableEq

structure MdLink where
  id : Nat
  sourceDocumentId : Nat
  href : Str
  targetDocumentId : Option Nat
  deriving DecidableEq

abbrev Lookup := Dict.Items Str Nat

def isMd (s : Str) : Bool := ".md".toList.isSuffixOf s

/-- `s[:-3]`. -/
def stem (s : Str) : Str := s.take (s.length - 3)

/-- `s.split("/")[-1]`. -/
def basename (s : Str) : Str := (s.splitOn '/').getLast?.getD []

def pageKey (pageId : Str) : Str := "page:".toList ++ pageId

section
variable (digit : Char → Bool)

def indexDocument (lookup : Lookup) (doc : MdDocument) : Lookup :=
  let lookup := Dict.put lookup doc.sourceKey doc.id
  let base := basename doc.sourceKey
  let lookup := Dict.put lookup base doc.id
  let lookup := if isMd base then Dict.put lookup (stem base) doc.id else lookup
  match pageIdFromSourceKey digit doc.sourceKey with
  | none => lookup
  | some pageId =>
    if (Dict.get lookup (pageKey pageId)).isSome then lookup else Dict.put lookup (pageKey pageId) doc.id

def buildLookup (documents : List MdDocument) : Lookup := documents.foldl (indexDocument digit) []

/-- The path a link leads to from the document it stands in, where it is one. -/
def relativePath (href : Str) (sourceKey : Option Str) : Option Str :=
  let path := unquote (href.takeWhile (· ≠ '#'))
  match sourceKey with
  | none => none
  | some sourceKey =>
    if path ≠ [] ∧ ¬Str.contains path "://".toList then some (normpath (join (dirname sourceKey) path)) else none

/-- `_resolve_href`. -/
def resolveHref (href : Str) (lookup : Lookup) (sourceKey : Option Str) : Option Nat :=
  match Dict.get lookup href with
  | some target => some target
  | none =>
  match (relativePath href sourceKey).bind (Dict.get lookup) with
  | some target => some target
  | none =>
  let normalized := Str.lstripDotSlash href
  match Dict.get lookup normalized with
  | some target => some target
  | none =>
  match if isMd normalized then Dict.get lookup (stem normalized) else none with
  | some target => some target
  | none =>
  let base := basename normalized
  match Dict.get lookup base with
  | some target => some target
  | none =>
  match if isMd base then Dict.get lookup (stem base) else none with
  | some target => some target
  | none => (pageIdFromUrl digit href).bind fun pageId => Dict.get lookup (pageKey pageId)

/-- `resolve_collection`: the links after it and how many were resolved. A link
is joined to the document it stands in. -/
def resolveCollection (collectionId : Nat) (documents : List MdDocument) (links : List MdLink) : List MdLink × Nat :=
  let lookup := buildLookup digit (documents.filter (·.collectionId = collectionId))
  let target (link : MdLink) : Option Nat :=
    if link.targetDocumentId.isSome then none
    else (documents.find? fun doc => doc.id = link.sourceDocumentId ∧ doc.collectionId = collectionId).bind fun doc =>
      resolveHref digit link.href lookup (some doc.sourceKey)
  (links.map fun link => { link with targetDocumentId := (target link).or link.targetDocumentId },
    links.countP fun link => (target link).isSome)

end

end Cograph.LinkResolver
