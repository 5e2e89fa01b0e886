import Cograph.Coverage

/-!
# Checking out an uploaded archive

`pipeline/zip_checkout.py`: the path an archive's member is written to and the
extraction into the checkout directory. Of the directory the files written are
kept; a directory is what a file lies under. What `zipfile` and the operating
system may raise is part of the archive and of the environment.
-/

namespace Cograph.ZipCheckout

/-- `ZipCheckoutError`, with what its text names. -/
inductive ZipCheckoutError where
  | archiveMissing
  | tooManyEntries (count cap : Nat)
  | absolutePath (name : Str)
  | driveLetter (name : Str)
  | traversal (name : Str)
  | perFileCap (name : Str) (size cap : Nat)
  | totalCap (cap : Nat)
  | outsideRoot (name : Str)
  | symlink (name : Str)
  | streamCap (name : Str)
  | inflationRatio
  | notAZip
  deriving DecidableEq

/-- What `zipfile` and the file operations raise beside it. -/
inductive Exc where
  | badZipFile
  | keyError
  | runtimeError
  | notImplementedError
  | zlibError
  | eofError
  | osError
  deriving DecidableEq

inductive Failure where
  | own (e : ZipCheckoutError)
  | raised (e : Exc)
  deriving DecidableEq

/-! ## Paths -/

/-- The name without the wrapper directory. -/
def stripWrapper (name : Str) (stripPrefix : Option Str) : Str :=
  match stripPrefix with
  | some p => if p ≠ [] ∧ p <+: name then name.drop p.length else name
  | none => name

/-- `rel.replace("\\", "/").split("/")`. -/
def segments (rel : Str) : List Str := (rel.map fun c => if c = '\\' then '/' else c).splitOn '/'

/-- `_safe_relpath`. -/
def safeRelpath (name : Str) (stripPrefix : Option Str) : Except ZipCheckoutError (Option Str) :=
  if name = [] then .ok none
  else
    let rel := stripWrapper name stripPrefix
    if rel = [] ∨ rel.getLast? = some '/' then .ok none
    else if rel.head? = some '/' ∨ rel.head? = some '\\' then .error (.absolutePath name)
    else if ':' ∈ rel.takeWhile (· ≠ '/') then .error (.driveLetter name)
    else
      let parts := segments rel
      if ['.', '.'] ∈ parts then .error (.traversal name)
      else .ok (some (['/'].intercalate (parts.filter fun part => part ≠ [] ∧ part ≠ ['.'])))

/-- The parts of `root / rel`. -/
def joinParts (root : List Str) (rel : Str) : List Str := root ++ (rel.splitOn '/').filter fun s => s ≠ [] ∧ s ≠ ['.']

/-- `Path.resolve`, where no part is a link. -/
def resolveParts (parts : List Str) : List Str :=
  parts.foldl (fun out s => if s = ['.', '.'] then out.dropLast else out ++ [s]) []

/-! ## The archive -/

/-- A member: its header, whether it is encrypted, what opening it raises
otherwise, the lengths of the chunks it reads as and what ends them. -/
structure Member where
  filename : Str
  fileSize : Nat
  compressSize : Nat
  externalAttr : Nat
  encrypted : Bool
  damage : Option Exc
  chunks : List Nat
  ending : Option Exc
  text : Str
  deriving DecidableEq

/-- `info.is_dir()`. -/
def Member.isDir (m : Member) : Bool := m.filename.getLast? = some '/'

/-- What `zf.open` raises for the member. -/
def Member.opening (m : Member) : Option Exc := if m.encrypted then some .runtimeError else m.damage

/-- `_is_symlink`. -/
def Member.isSymlink (m : Member) : Bool := m.externalAttr / 2 ^ 16 % 2 ^ 16 / 2 ^ 12 = 10

structure Limits where
  maxDecompressed : Nat
  maxPerFile : Nat
  maxRatio : ℚ
  maxEntries : Nat

/-- `compile` is `PathSpec.from_lines` with `match_file`, `none` where it
raises; `refuses` is where the operating system makes no file. -/
structure Env where
  root : List Str
  limits : Limits
  compile : Str → Option (Str → Bool)
  refuses : List Str → Bool

/-- `_detect_strip_prefix`. -/
def detectStripPrefix (infos : List Member) : Option Str :=
  let names := (infos.map (·.filename)).filter (· ≠ [])
  if names.all fun name => '/' ∈ name ∧ name.takeWhile (· ≠ '/') ∉ [[], ['.', '.'], ['.']] then
    match (names.map fun name => name.takeWhile (· ≠ '/')).eraseDups with
    | [p] => some (p ++ ['/'])
    | _ => none
  else none

/-! ## What is left out -/

def skippedTopLevelDirs : List Str := [".git", ".idea"].map String.toList

/-- `_BINARY_EXTENSIONS`. -/
def binaryExtensions : List Str :=
  [".png", ".jpg", ".jpeg", ".gif", ".webp", ".ico", ".bmp", ".tiff", ".tif", ".heic", ".avif", ".mp3", ".mp4", ".mov",
    ".avi", ".mkv", ".flac", ".wav", ".ogg", ".m4a", ".m4v", ".webm", ".zip", ".tar", ".gz", ".tgz", ".bz2", ".7z",
    ".rar", ".xz", ".zst", ".exe", ".dll", ".so", ".dylib", ".a", ".o", ".class", ".jar", ".war", ".ear", ".pyc",
    ".pyo", ".pyd", ".wasm", ".whl", ".gem", ".node", ".pdb", ".npy", ".npz", ".h5", ".hdf5", ".parquet", ".arrow",
    ".feather", ".pkl", ".db", ".sqlite", ".sqlite3", ".mdb", ".accdb", ".ttf", ".otf", ".woff", ".woff2", ".eot",
    ".psd", ".ai", ".sketch", ".fig", ".blend", ".xcf", ".doc", ".docx", ".xls", ".xlsx", ".ppt", ".pptx", ".pdf",
    ".iso", ".dmg", ".deb", ".rpm", ".apk", ".ipa", ".msi", ".cab"].map String.toList

/-- `_should_skip_entry`. -/
def shouldSkipEntry (rel : Str) : Bool :=
  let parts := rel.splitOn '/'
  let name := Str.lower (parts.getLast?.getD [])
  parts.head?.getD [] ∈ skippedTopLevelDirs || name ∈ [[], ".ds_store".toList, "thumbs.db".toList] ||
    '.' ∈ name && '.' :: (name.reverse.takeWhile (· ≠ '.')).reverse ∈ binaryExtensions

/-- The text a member reads as, `none` for an exception `_build_gitignore_matchers`
passes over. -/
def readText (m : Member) : Except Exc (Option Str) :=
  match m.opening.or m.ending with
  | none => .ok (some m.text)
  | some .keyError | some .badZipFile => .ok none
  | some e => .error e

/-- The directory of a `.gitignore` in the checkout. -/
def gitignoreDir (stripPrefix : Option Str) (m : Member) : Option Str :=
  if m.isDir then none
  else
    match safeRelpath m.filename stripPrefix with
    | .error _ | .ok none => none
    | .ok (some rel) =>
      if rel ≠ ".gitignore".toList ∧ ¬"/.gitignore".toList <:+ rel then none
      else some ((rel.take (rel.length - 10)).reverse.dropWhile (· = '/')).reverse

/-- `_build_gitignore_matchers`, before the sort. -/
def gitignoreMatchers (env : Env) (stripPrefix : Option Str) : List Member → Except Exc (List (Str × (Str → Bool)))
  | [] => .ok []
  | m :: infos =>
    match gitignoreDir stripPrefix m with
    | none => gitignoreMatchers env stripPrefix infos
    | some dir =>
      match readText m with
      | .error e => .error e
      | .ok text =>
        match gitignoreMatchers env stripPrefix infos with
        | .error e => .error e
        | .ok matchers =>
          match text.bind env.compile with
          | none => .ok matchers
          | some spec => .ok ((dir, spec) :: matchers)

def buildGitignoreMatchers (env : Env) (infos : List Member) (stripPrefix : Option Str) :
    Except Exc (List (Str × (Str → Bool))) :=
  (gitignoreMatchers env stripPrefix infos).map fun matchers =>
    matchers.insertionSort fun x y => x.1.length ≤ y.1.length

/-- `_is_gitignored`. -/
def isGitignored (rel : Str) (matchers : List (Str × (Str → Bool))) : Bool :=
  matchers.any fun (dir, spec) =>
    if dir = [] then rel ≠ [] && spec rel
    else (dir ++ ['/'] <+: rel) && rel.drop (dir.length + 1) ≠ [] && spec (rel.drop (dir.length + 1))

/-! ## The extraction -/

/-- The files written and the loop's counters. -/
structure Progress where
  files : List (List Str) := []
  fileCount : Nat := 0
  decompressedTotal : Nat := 0
  compressedTotal : Nat := 0
  skippedCount : Nat := 0
  skippedBytes : Nat := 0
  deriving DecidableEq

/-- `mkdir(parents=True, exist_ok=True)`: a file stands in the way. -/
def mkdirFails (files : List (List Str)) (dir : List Str) : Bool := files.any (· <+: dir)

/-- `open(target, "wb")`: the target is a directory. -/
def openFails (files : List (List Str)) (target : List Str) : Bool := target = [] || files.any fun f => target <+: f ∧ target ≠ f

/-- The reads of a member, up to the per-file cap. -/
def streamMember (name : Str) : Nat → List Nat → Option Exc → Option Failure
  | _, [], ending => ending.map .raised
  | remaining, n :: chunks, ending =>
    if remaining < n then some (.own (.streamCap name)) else streamMember name (remaining - n) chunks ending

/-- Making the parent directory, opening the member, then the file. -/
def writeMember (env : Env) (files : List (List Str)) (m : Member) (target : List Str) : Option Failure :=
  if mkdirFails files target.dropLast || env.refuses target.dropLast then some (.raised .osError)
  else
    match m.opening with
    | some e => some (.raised e)
    | none =>
      if openFails files target || env.refuses target then some (.raised .osError)
      else streamMember m.filename env.limits.maxPerFile m.chunks m.ending

/-- The checks on a member before it is written: `some target` to write it. -/
def admitted (env : Env) (p : Progress) (m : Member) (rel : Str) : Except ZipCheckoutError (List Str) :=
  if env.limits.maxPerFile < m.fileSize then .error (.perFileCap m.filename m.fileSize env.limits.maxPerFile)
  else if env.limits.maxDecompressed < p.decompressedTotal + m.fileSize then .error (.totalCap env.limits.maxDecompressed)
  else
    let target := resolveParts (joinParts env.root rel)
    if ¬env.root <+: target then .error (.outsideRoot m.filename)
    else if m.isSymlink then .error (.symlink m.filename)
    else .ok (target.drop env.root.length)

/-- One turn of the loop over the members. -/
def extractMember (env : Env) (stripPrefix : Option Str) (matchers : List (Str × (Str → Bool))) (p : Progress)
    (m : Member) : Except Failure Progress :=
  match safeRelpath m.filename stripPrefix with
  | .error e => .error (.own e)
  | .ok none => .ok p
  | .ok (some rel) =>
    if ¬m.isDir ∧ (shouldSkipEntry rel ∨ isGitignored rel matchers) then
      .ok { p with skippedCount := p.skippedCount + 1, skippedBytes := p.skippedBytes + m.fileSize }
    else
      match admitted env p m rel with
      | .error e => .error (.own e)
      | .ok target =>
        let counted := { p with
          decompressedTotal := p.decompressedTotal + m.fileSize
          compressedTotal := p.compressedTotal + m.compressSize }
        if m.isDir then
          if mkdirFails p.files target || env.refuses target then .error (.raised .osError) else .ok counted
        else
          match writeMember env p.files m target with
          | some e => .error e
          | none => .ok { counted with files := target :: p.files, fileCount := p.fileCount + 1 }

/-- The loop, with the files left behind where it fails. -/
def extractMembers (env : Env) (stripPrefix : Option Str) (matchers : List (Str × (Str → Bool))) :
    Progress → List Member → Except (Failure × List (List Str)) Progress
  | p, [] => .ok p
  | p, m :: infos =>
    match extractMember env stripPrefix matchers p m with
    | .error e => .error (e, p.files)
    | .ok p => extractMembers env stripPrefix matchers p infos

/-- The members of an archive that opens. -/
def extract (env : Env) (infos : List Member) : Except (Failure × List (List Str)) Progress :=
  if env.limits.maxEntries < infos.length then .error (.own (.tooManyEntries infos.length env.limits.maxEntries), [])
  else
    let stripPrefix := detectStripPrefix infos
    match buildGitignoreMatchers env infos stripPrefix with
    | .error e => .error (.raised e, [])
    | .ok matchers =>
      match extractMembers env stripPrefix matchers {} infos with
      | .error e => .error e
      | .ok p =>
        if 0 < p.compressedTotal ∧ env.limits.maxRatio < (p.decompressedTotal : ℚ) / (max p.compressedTotal 1 : ℕ) then
          .error (.own .inflationRatio, p.files)
        else .ok p

/-- What is raised, and the directory, after the handlers of `prepare_checkout`. -/
def handle : Failure × List (List Str) → Failure × Option (List (List Str))
  | (.own e, _) => (.own e, none)
  | (.raised .badZipFile, _) => (.own .notAZip, none)
  | (.raised e, files) => (.raised e, some files)

/-- `prepare_checkout`: what it returns or raises, and the files of the checkout
directory, `none` where there is none. An archive is what `ZipFile` reads it as;
`old` is the checkout before. -/
def prepareCheckout (env : Env) (archive : Option (Except Exc (List Member))) (old : Option (List (List Str))) :
    Except Failure Progress × Option (List (List Str)) :=
  match archive with
  | none => (.error (.own .archiveMissing), old)
  | some (.error e) => ((handle (.raised e, [])).map .error id)
  | some (.ok infos) =>
    match extract env infos with
    | .ok p => (.ok p, some p.files)
    | .error e => (handle e).map .error id

end Cograph.ZipCheckout
