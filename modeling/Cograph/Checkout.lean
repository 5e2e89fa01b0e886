import Cograph.Dict
import Cograph.Strs

/-!
# The agent's view of a checkout

`wiki/checkout_fs.py`: `read_file`, `list_files` and the fallback of `grep`
over the files of a machine, of which the checkout is one directory. A place is
a path from the file system's root without links; a path may have `..` in it
and go through symbolic links to anywhere.
-/

namespace Cograph.Checkout

abbrev Loc := List Str

/-- A component of a path. -/
inductive Comp where
  | up
  | name (n : Str)
  deriving DecidableEq

/-- What stands at a place. Of a file: whether a NUL is among its first bytes,
and its text as it is opened for reading. -/
inductive Node where
  | dir
  | file (binary : Bool) (text : Str)
  | link (absolute : Bool) (target : List Comp)
  deriving DecidableEq

/-- The file system; whatever there is stands in a directory. -/
structure Tree where
  nodes : Dict.Items Loc Node
  distinct : (nodes.map (·.1)).Nodup
  rooted : ∀ e ∈ nodes, e.1 ≠ [] ∧ (e.1.dropLast = [] ∨ (e.1.dropLast, Node.dir) ∈ nodes)

namespace Tree
variable (t : Tree)

def find (l : Loc) : Option Node := if l = [] then some .dir else Dict.get t.nodes l

/-- The names in the directory at a place. -/
def children (l : Loc) : List Str := t.nodes.filterMap fun e => if e.1.dropLast = l then e.1.getLast? else none

/-- The directories at and below a place, each by the names that lead to it. -/
def dirsBelow (l : Loc) : List (List Str) :=
  (if t.find l = some .dir then [[]] else []) ++
    t.nodes.filterMap fun e => if e.2 = .dir ∧ l <+: e.1 ∧ e.1 ≠ l then some (e.1.drop l.length) else none

/-- Where a path leads from a place, in at most so many steps. -/
def walk : Nat → Loc → List Comp → Option Loc
  | _, l, [] => some l
  | 0, _, _ :: _ => none
  | steps + 1, l, .up :: rest => walk steps l.dropLast rest
  | steps + 1, l, .name n :: rest =>
    match t.find (l ++ [n]) with
    | some (.link absolute target) => walk steps (if absolute then [] else l) (target ++ rest)
    | _ => walk steps (l ++ [n]) rest

end Tree

/-! ## Paths -/

def isAbsolute (raw : Str) : Bool := raw.head? = some '/'

/-- The components of a path, without the empty ones and the `.`. -/
def parts (raw : Str) : List Str := (raw.splitOn '/').filter fun c => c ≠ [] ∧ c ≠ ['.']

def comps (raw : Str) : List Comp := (parts raw).map fun c => if c = "..".toList then .up else .name c

def Comp.text : Comp → Str
  | .up => "..".toList
  | .name n => n

/-- `str` of a relative path. -/
def pathText (path : List Comp) : Str := if path = [] then ['.'] else List.intercalate ['/'] (path.map Comp.text)

/-! ## Patterns -/

/-- What a character of a name is matched with. -/
inductive Token where
  | star
  | one
  | char (c : Char)
  | cls (stuff : Str)

/-- The text of a class up to the `]` that closes it. -/
def classAt (p : Str) : Option Str :=
  let bang := if p.head? = some '!' then 1 else 0
  let first := if (p.drop bang).head? = some ']' then bang + 1 else bang
  let n := first + ((p.drop first).takeWhile (· ≠ ']')).length
  if n < p.length then some (p.take n) else none

/-- The tokens of a pattern after so many characters of it. -/
def tokens : Nat → Str → List Token
  | _, [] => []
  | skip + 1, _ :: p => tokens skip p
  | 0, c :: p =>
    if c = '*' then .star :: tokens 0 p
    else if c = '?' then .one :: tokens 0 p
    else if c = '[' then
      match classAt p with
      | some stuff => .cls stuff :: tokens (stuff.length + 1) p
      | none => .char c :: tokens 0 p
    else .char c :: tokens 0 p

def inRanges (c : Char) : Str → Bool
  | a :: '-' :: b :: rest => (a ≤ c && c ≤ b) || inRanges c rest
  | a :: rest => a = c || inRanges c rest
  | [] => false

def inClass (stuff : Str) (c : Char) : Bool :=
  match stuff with
  | '!' :: rest => !inRanges c rest
  | _ => inRanges c stuff

def matchTokens : List Token → Str → Bool
  | [], s => s.isEmpty
  | .star :: ts, s => s.tails.any (matchTokens ts)
  | .one :: ts, _ :: s => matchTokens ts s
  | .char a :: ts, c :: s => a = c && matchTokens ts s
  | .cls stuff :: ts, c :: s => inClass stuff c && matchTokens ts s
  | _ :: _, [] => false

/-- `fnmatch.fnmatchcase`. -/
def fnmatch (pattern name : Str) : Bool := matchTokens (tokens 0 pattern) name

inductive PatComp where
  | up
  | deep
  | pattern (p : Str)
  deriving DecidableEq

def patComps (glob : Str) : List PatComp :=
  (parts glob).map fun c => if c = "..".toList then .up else if c = "**".toList then .deep else .pattern c

/-- The searches of a pattern: a `**` that ends it stands for the entries of
the directories, too. -/
def searches (glob : Str) : List (List PatComp) :=
  if (patComps glob).getLast? = some .deep then [patComps glob, patComps glob ++ [.pattern ['*']]]
  else [patComps glob]

/-- A path that a pattern matches and where it leads, `none` for a loop of links. -/
structure Entry where
  path : List Comp
  place : Option Loc
  deriving DecidableEq

section
variable (t : Tree) (steps : Nat)

/-- What a search finds from a place on. `**` goes through no links. -/
def select : List PatComp → Loc → List Comp → List Entry
  | [], l, path => [⟨path, some l⟩]
  | .up :: rest, l, path => if t.find l = some .dir then select rest l.dropLast (path ++ [.up]) else []
  | .deep :: rest, l, path =>
    (t.dirsBelow l).flatMap fun names => select rest (l ++ names) (path ++ names.map .name)
  | .pattern p :: rest, l, path =>
    (t.children l).flatMap fun n =>
      if fnmatch p n then
        match t.walk steps l [.name n] with
        | some next => select rest next (path ++ [.name n])
        | none => if rest = [] then [⟨path ++ [.name n], none⟩] else []
      else []

def isDir (e : Entry) : Bool := e.place.bind t.find = some .dir

/-- `Path.glob`, which finds directories alone for a pattern that ends with a
slash, and refuses a pattern without components. -/
def glob (root : Loc) (pattern : Str) : Option (List Entry) :=
  if patComps pattern = [] then none
  else
    let found := ((searches pattern).flatMap (select t steps · root [])).dedup
    some (if pattern.getLast? = some '/' then found.filter (isDir t) else found)

end

/-! ## Operations -/

/-- A failed operation, by the kind of its message and what it names. -/
inductive CheckoutFsError where
  | emptyPath
  | unresolved
  | escapes (path : Str)
  | notAFile (path : Str)
  | binaryFile (path : Str)
  | rootedGlob (glob : Str)
  | globFailed (glob : Str)
  | emptyPattern
  | invalidRegex (pattern : Str)
  deriving DecidableEq

def maxBytesRead : Nat := 20000

def maxLinesRead : Nat := 400

/-- The first `n` bytes of a text in UTF-8, without a character cut in two. -/
def takeBytes (n : Nat) : Str → Str
  | [] => []
  | c :: s => if c.utf8Size ≤ n then c :: takeBytes (n - c.utf8Size) s else []

def byteLength (s : Str) : Nat := (s.map Char.utf8Size).sum

structure ReadResult where
  path : List Comp
  startLine : Nat
  endLine : Nat
  totalLines : Nat
  body : Str
  truncated : Bool

/-- The lines of a text from an offset on. -/
def readLines (path : List Comp) (text : Str) (offset limit : Int) : ReadResult :=
  let clampedOffset := (max 1 offset).toNat
  let clampedLimit := (max 1 (min (if limit = 0 then (maxLinesRead : Int) else limit) maxLinesRead)).toNat
  let allLines := Str.splitlines text
  let endIdx := min (clampedOffset - 1 + clampedLimit) allLines.length
  let body := List.intercalate ['\n'] ((allLines.take endIdx).drop (clampedOffset - 1))
  { path
    startLine := clampedOffset
    endLine := endIdx
    totalLines := allLines.length
    body := if maxBytesRead < byteLength body then takeBytes maxBytesRead body else body
    truncated := maxBytesRead < byteLength body }

/-- The directories at the top that are never listed. -/
def hidden : List Str := [".git".toList, ".cograph".toList]

/-- Whether the first component of a path is that of a hidden directory. -/
def hiddenFirst : List Comp → Bool
  | .name n :: _ => n ∈ hidden
  | _ => false

structure ListResult where
  glob : Str
  matched : List (List Comp)
  truncated : Bool
  deriving DecidableEq

structure GrepMatch where
  path : List Comp
  line : Nat
  text : Str

structure GrepResult where
  pattern : Str
  matched : List GrepMatch
  truncated : Bool

/-- The lines of a text, each with the line feed that ends it. -/
def fileLines : Str → List Str
  | [] => []
  | c :: s =>
    if c = '\n' then [c] :: fileLines s
    else
      match fileLines s with
      | [] => [[c]]
      | line :: lines => (c :: line) :: lines

def allFiles : Str := "**/*".toList

section
variable (t : Tree) (steps : Nat) (root : List Comp)

/-- `_resolve`: the places of the root and of a path that stays in it. -/
def resolve (raw : Str) : Except CheckoutFsError (Loc × Loc) :=
  if raw = [] then .error .emptyPath
  else
    match t.walk steps [] (if isAbsolute raw then comps raw else root ++ comps raw), t.walk steps [] root with
    | some candidate, some top => if top <+: candidate then .ok (top, candidate) else .error (.escapes raw)
    | _, _ => .error .unresolved

/-- `read_file`. What is resolved is no link any more, so that the check of a
link that was missed is never made. -/
def readFile (path : Str) (offset limit : Int) : Except CheckoutFsError ReadResult :=
  match resolve t steps root path with
  | .error e => .error e
  | .ok (top, target) =>
    match t.find target with
    | some (.file binary text) =>
      if binary then .error (.binaryFile path)
      else .ok (readLines ((target.drop top.length).map .name) text offset limit)
    | _ => .error (.notAFile path)

/-- The entries of a pattern below the root, and its place. -/
def entries (pattern : Str) : Except CheckoutFsError (Loc × List Entry) :=
  if pattern.head? = some '/' then .error (.rootedGlob pattern)
  else
    match t.walk steps [] root with
    | none => .error .unresolved
    | some top =>
      match glob t steps top pattern with
      | none => .error (.globFailed pattern)
      | some found => .ok (top, found)

/-- `list_files`. -/
def listFiles (pattern : Str) (cap : Nat) : Except CheckoutFsError ListResult :=
  let pattern := if Str.strip pattern = [] then allFiles else pattern
  match entries t steps root pattern with
  | .error e => .error e
  | .ok (_, found) =>
    let kept := found.filter fun e => !isDir t e && !hiddenFirst e.path
    let matched := (kept.take (max 1 cap)).map (·.path)
    .ok ⟨pattern, matched.insertionSort fun a b => ¬pathText b < pathText a, cap ≤ matched.length⟩

/-- The text of a file that is searched, of no other entry. -/
def searchable (e : Entry) : Option Str :=
  match e.place.bind t.find with
  | some (.file false text) => if hiddenFirst e.path then none else some text
  | _ => none

/-- The lines of a text that a regex finds something in, with their numbers. -/
def linesFound (search : Str → Bool) (path : List Comp) (text : Str) : List GrepMatch :=
  ((fileLines text).zipIdx 1).filterMap fun (line, number) =>
    if search line then some ⟨path, number, line.takeWhile (· ≠ '\n')⟩ else none

/-- `grep` without ripgrep, `_grep_python`; `compile` is `re.compile`. -/
def grep (compile : Str → Option (Str → Bool)) (pattern : Str) (pathGlob : Option Str) (cap : Nat) :
    Except CheckoutFsError GrepResult :=
  if pattern = [] then .error .emptyPattern
  else
    match compile pattern with
    | none => .error (.invalidRegex pattern)
    | some search =>
      let globPat := if (pathGlob.getD []) = [] then allFiles else pathGlob.getD []
      match entries t steps root globPat with
      | .error e => .error e
      | .ok (_, found) =>
        let all := found.flatMap fun e => (searchable t e).elim [] (linesFound search e.path)
        .ok ⟨pattern, all.take (max 1 cap), max 1 cap ≤ all.length⟩

end

end Cograph.Checkout
