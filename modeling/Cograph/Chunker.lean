import Cograph.Strs

/-!
# Markdown chunks

`md_rag/chunker.py`. A text is split at its headings, sections are packed into
chunks of at most `max_chars`, and a section that is longer is split into the
atomic blocks it is made of. The lines that a chunk was made of are kept beside
its content, which the program does not do.
-/

namespace Cograph.MdChunks

/-- The Unicode tables that anchors are made with. -/
structure Py where
  lower : Str → Str
  isWord : Char → Bool

structure Limits where
  maxChars : Nat := 4000
  maxChunks : Nat := 512
  minChars : Nat := 400

structure MdChunkDraft where
  chunkIndex : Nat
  headingPath : List Str
  headingLevel : Option Nat
  sectionAnchor : Option Str
  content : Str
  lines : List Str
  deriving DecidableEq, Repr

/-- A section's lines with its heading's path, level and anchor. -/
structure Section where
  lines : List Str
  path : List Str
  level : Option Nat
  anchor : Option Str
  deriving DecidableEq, Repr

/-- `"\n".join`. -/
def joinLines (lines : List Str) : Str := List.intercalate ['\n'] lines

/-- The length of the lines, joined. -/
def size (lines : List Str) : Nat := (joinLines lines).length

/-! ## Headings -/

/-- `_HEADING_RE.match`: the level and the text of a heading. -/
def headingMatch (line : Str) : Option (Nat × Str) :=
  let level := (line.takeWhile (· = '#')).length
  match line.dropWhile (· = '#') with
  | c :: d :: rest => if 1 ≤ level ∧ level ≤ 6 ∧ Str.isSpace c then some (level, Str.strip (c :: d :: rest)) else none
  | _ => none

/-- Every run of white space becomes a dash. -/
def dashSpaces : Str → Str
  | [] => []
  | c :: s =>
    if Str.isSpace c then (if s.head?.any Str.isSpace then dashSpaces s else '-' :: dashSpaces s)
    else c :: dashSpaces s

def stripDashes (s : Str) : Str :=
  ((s.dropWhile (· = '-')).reverse.dropWhile (· = '-')).reverse

def makeAnchor (P : Py) (text : Str) : Str :=
  stripDashes (dashSpaces ((P.lower text).filter fun c => P.isWord c ∨ Str.isSpace c ∨ c = '-'))

def updatePath (path : List Str) (level : Nat) (text : Str) : List Str := path.take (level - 1) ++ [text]

/-- `sections.append`, where there are lines. -/
def Section.emit (s : Section) : List Section := if s.lines = [] then [] else [s]

/-- The loop of `_split_by_headings` over the lines that are left. -/
def splitFrom (P : Py) (current : Section) : List Str → List Section
  | [] => current.emit
  | line :: rest =>
    match headingMatch line with
    | some (level, text) =>
      current.emit ++
        splitFrom P ⟨[line], updatePath current.path level text, some level, some (makeAnchor P text)⟩ rest
    | none => splitFrom P { current with lines := current.lines ++ [line] } rest

def splitByHeadings (P : Py) (lines : List Str) : List Section := splitFrom P ⟨[], [], none, none⟩ lines

/-! ## Atomic blocks -/

def startsFence (line : Str) : Bool := ['`', '`', '`'].isPrefixOf (Str.lstrip line)

def startsTable (line : Str) : Bool := (Str.lstrip line).head? = some '|'

/-- Which of its loops `_group_atomic_blocks` is in. -/
inductive Mode where
  | text
  | fence
  | table
  deriving DecidableEq, Repr

def emitBlock (current : List Str) : List (List Str) := if current = [] then [] else [current]

/-- A line that no fence or table goes on with: the blocks that are done, and
where the scan goes on. -/
def openBlock (current : List Str) (line : Str) : List (List Str) × Mode × List Str :=
  if startsFence line then (emitBlock current, .fence, [line])
  else if startsTable line then (emitBlock current, .table, [line])
  else if Str.strip line = [] then (emitBlock current ++ [[line]], .text, [])
  else ([], .text, current ++ [line])

def blockStep (mode : Mode) (current : List Str) (line : Str) : List (List Str) × Mode × List Str :=
  match mode with
  | .text => openBlock current line
  | .fence => if startsFence line then ([current ++ [line]], .text, []) else ([], .fence, current ++ [line])
  | .table =>
    if startsTable line then ([], .table, current ++ [line])
    else
      let (done, mode, current') := openBlock [] line
      (emitBlock current ++ done, mode, current')

def groupFrom (mode : Mode) (current : List Str) : List Str → List (List Str)
  | [] => emitBlock current
  | line :: rest =>
    (blockStep mode current line).1 ++ groupFrom (blockStep mode current line).2.1 (blockStep mode current line).2.2 rest

def groupAtomicBlocks (lines : List Str) : List (List Str) := groupFrom .text [] lines

/-! ## Packing -/

/-- The tail of a packing: nothing, more of the last chunk, or a chunk. -/
def closeTail (L : Limits) (chunks : List MdChunkDraft) (lines : List Str) (chars : Nat) (draft : MdChunkDraft) :
    List MdChunkDraft :=
  if lines = [] then chunks
  else
    match chunks.getLast? with
    | none => chunks ++ [draft]
    | some prev =>
      if chars < L.minChars ∧ prev.content.length + chars ≤ L.maxChars * 2 then
        let tail := Str.strip (joinLines lines)
        let content := if tail = [] then prev.content else Str.strip (prev.content ++ '\n' :: tail)
        chunks.dropLast ++ [{ prev with content := content, lines := prev.lines ++ lines }]
      else chunks ++ [draft]

/-- The state of the loop of `_split_section`. -/
structure Split where
  chunks : List MdChunkDraft
  buffer : List Str
  bufChars : Nat

section
variable (L : Limits) (s : Section)

/-- The chunk that lines of the section make. -/
def sectionDraft (lines : List Str) : MdChunkDraft :=
  ⟨0, s.path, s.level, s.anchor, Str.strip (joinLines lines), lines⟩

def Split.flush (st : Split) : Split :=
  if st.buffer = [] then st else ⟨st.chunks ++ [sectionDraft s st.buffer], [], 0⟩

def Split.add (st : Split) (block : List Str) : Split :=
  if L.maxChars < size block then
    let st := st.flush s
    { st with chunks := st.chunks ++ [sectionDraft s block] }
  else
    let st := if L.maxChars < st.bufChars + size block + 1 then st.flush s else st
    { st with buffer := st.buffer ++ block, bufChars := st.bufChars + size block + 1 }

def splitSection : List MdChunkDraft :=
  let st := (groupAtomicBlocks s.lines).foldl (Split.add L s) ⟨[], [], 0⟩
  closeTail L st.chunks st.buffer st.bufChars (sectionDraft s st.buffer)

end

/-- The common prefix of the first path and the others. -/
def commonPath : List (List Str) → List Str
  | [] => []
  | path :: paths => paths.foldl (fun common p => ((common.zip p).takeWhile fun x => x.1 = x.2).map (·.1)) path

/-- `_merge_metadata`. -/
def mergeMetadata (sections : List Section) : List Str × Option Nat × Option Str :=
  match sections with
  | [] => ([], none, none)
  | [s] => (s.path, s.level, s.anchor)
  | first :: _ =>
    let common := commonPath (sections.map (·.path))
    if common = [] then
      match sections.find? (·.path ≠ []) with
      | some s => (s.path, s.level, s.anchor)
      | none => ([], none, none)
    else (common, some common.length, if first.path = common then first.anchor else none)

/-- The state of the loop of `chunk`: the buffer is the lines of `pending`. -/
structure Acc where
  chunks : List MdChunkDraft
  pending : List Section
  chars : Nat

namespace Acc

def buffer (acc : Acc) : List Str := acc.pending.flatMap (·.lines)

def draft (acc : Acc) : MdChunkDraft :=
  let (path, level, anchor) := mergeMetadata acc.pending
  ⟨acc.chunks.length, path, level, anchor, Str.strip (joinLines acc.buffer), acc.buffer⟩

/-- `flush_buffer`. -/
def flush (acc : Acc) : Acc := if acc.buffer = [] then acc else ⟨acc.chunks ++ [acc.draft], [], 0⟩

/-- `sub.chunk_index = len(chunks)` and `chunks.append(sub)`. -/
def push (chunks : List MdChunkDraft) (sub : MdChunkDraft) : List MdChunkDraft :=
  chunks ++ [{ sub with chunkIndex := chunks.length }]

def add (L : Limits) (acc : Acc) (s : Section) : Acc :=
  if L.maxChars < size s.lines then
    let acc := acc.flush
    { acc with chunks := (splitSection L s).foldl push acc.chunks }
  else
    let acc := if L.maxChars < acc.chars + size s.lines then acc.flush else acc
    { acc with pending := acc.pending ++ [s], chars := acc.chars + size s.lines + 1 }

end Acc

/-- The chunks before the cut to `max_chunks`. -/
def allChunks (P : Py) (L : Limits) (text : Str) : List MdChunkDraft :=
  let acc := (splitByHeadings P (Str.splitlines text)).foldl (Acc.add L) ⟨[], [], 0⟩
  closeTail L acc.chunks acc.buffer acc.chars acc.draft

def chunk (P : Py) (L : Limits) (text : Str) : List MdChunkDraft := (allChunks P L text).take L.maxChunks

end Cograph.MdChunks
