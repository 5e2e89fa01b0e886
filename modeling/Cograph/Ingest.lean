import Cograph.Builder

/-!
# GraphIngestService.ingest_checkout

The full walk over a checkout and the incremental run over a `git diff`: which
files are indexed, which rows are deleted first, which files are persisted and
in which order. Each file is persisted in a savepoint of its own; a call that
the unique index refuses leaves a warning and the graph as it was.

A file's extraction, the Go build constraints and the path-mapping rules of a
TS/JS file are parameters (`Tools`). Git blame and the counts of the result are
left out.
-/

namespace Cograph

/-! ## Checkouts -/

/-- The regular files of a checkout, with their texts. -/
structure Checkout where
  files : List (Path × String)
  nodup : (files.map (·.1)).Nodup

def Checkout.text? (C : Checkout) (p : Path) : Option String := Dict.get C.files p

/-- What the walk calls besides the database: text functions, the size of a
file, the Go build constraints under the profile of the checkout's `go.mod`
(`none` where they raise), the fingerprint of a TS/JS file's scope, the module
name a path stands for, and the extractor, which also sees the rest of the
checkout (`go.mod`, the path mapping, the other files of a Go package). -/
structure Tools where
  host : Host
  size : String → Nat
  selects : Checkout → Path → String → Option Bool
  fingerprint : Checkout → Path → Option String
  moduleName : Path → String
  extract : Checkout → Path → String → ExtractedGraph

section
variable (T : Tools) (C : Checkout)

/-- `EXTRACTOR_VERSIONS`. -/
def extractorVersion : GraphLanguage → String
  | .python => "1"
  | .go => "2"
  | .typescript => "4"
  | .javascript => "4"

def moduleStamp (p : Path) : Option String :=
  p.detectGraphLanguage.map fun l =>
    match if Path.isJsTs l then T.fingerprint C p else none with
    | none => extractorVersion l
    | some f => extractorVersion l ++ ":" ++ f

def parseSourceGraph (p : Path) (text : String) : ExtractedGraph :=
  let g := T.extract C p text
  { g with
    nodes := g.nodes.map fun x =>
      if x.nodeType = .module then { x with metadata.extractorStamp := moduleStamp T C p } else x }

/-! ## Which files are indexed -/

def jsTsMaxFileBytes : Nat := 1048576

/-- A file the walk discovers: of a graph language, and no JS/TS noise. -/
def isSource (f : Path × String) : Bool :=
  match f.1.detectGraphLanguage with
  | none => false
  | some l => !(Path.isJsTs l && (f.1.isJsTsNoise || decide (jsTsMaxFileBytes < T.size f.2)))

def discoverSourceFiles : List (Path × String) :=
  (C.files.filter (isSource T)).insertionSort fun a b => Path.le a.1 b.1

def isGo (p : Path) : Bool := p.detectGraphLanguage = some .go

def nonGoFiles : List (Path × String) := (discoverSourceFiles T C).filter fun f => !isGo f.1

def goFiles : List (Path × String) := (discoverSourceFiles T C).filter fun f => isGo f.1

structure GoPackage where
  key : Path.PackageKey
  selected : List (Path × String)

def sortKeys (ks : List Path.PackageKey) : List Path.PackageKey :=
  ks.eraseDups.insertionSort fun a b => decide (a.text ≤ b.text)

/-- `select_go_package_files`; `none` where the constraints of a file raise. -/
def selectGoPackage (k : Path.PackageKey) : Option GoPackage :=
  let files := (goFiles T C).filter (·.1.packageKey = k)
  if files.any fun f => T.selects C f.1 f.2 = none then none
  else some ⟨k, files.filter fun f => T.selects C f.1 f.2 = some true⟩

def selectGoPackages (ks : List Path.PackageKey) : Option (List GoPackage) := ks.mapM (selectGoPackage T C)

/-! ## What is persisted -/

/-- The names the build-variant guard compares: not `init` and `_`, of which a
package may have one in each file. -/
def guardedNames (g : ExtractedGraph) : List String :=
  (g.nodes.filter fun x => ¬ (x.nodeType = .function ∧ x.name ∈ ["init", "_"])).map (·.qualifiedName)

/-- `_parse_go_package_graphs` raises: two files of the package define one
name. -/
def variantConflict (files : List (Path × String)) : Bool :=
  files.any fun a => files.any fun b =>
    a.1 ≠ b.1 && (guardedNames (parseSourceGraph T C a.1 a.2)).any
      (· ∈ guardedNames (parseSourceGraph T C b.1 b.2))

/-- The changed files of the packages, up to one that raises. -/
def goJobs (changed : Path × String → Bool) : List GoPackage → List (Path × String) × Bool
  | [] => ([], false)
  | package :: rest =>
    let files := package.selected.filter changed
    if files = [] then goJobs changed rest
    else if variantConflict T C package.selected then ([], true)
    else (files ++ (goJobs changed rest).1, (goJobs changed rest).2)

/-- `_load_module_state`: hash and stamp of each file's module row. -/
def loadModuleState (db : Db) : Dict.Items Path (String × Option String) :=
  Dict.ofItems <| (db.nodes.filter (·.nodeType = .module)).map fun n =>
    (n.filePath, n.contentHash, n.metadata.extractorStamp)

/-- The ingest so far: the graph, the cache, the files done, what was committed
last, and the files a savepoint skipped. -/
structure Walk where
  db : Db
  cache : Option Cache
  processed : Nat
  committed : Db
  warnings : List Path

/-- `_persist_preparsed_graph`, in its savepoint. -/
def persistFile (s : Walk) (f : Path × String) : Walk :=
  match persistGraph T.host s.db s.cache (parseSourceGraph T C f.1 f.2) with
  | some (db, cache) => { s with db := db, cache := cache }
  | none =>
    { s with cache := s.cache.map fun _ => Cache.fromNodes s.db.nodes, warnings := s.warnings ++ [f.1] }

def parseCommitEvery : Nat := 200

def walkFile (s : Walk) (f : Path × String) : Walk :=
  let s := persistFile T C s f
  { s with
    processed := s.processed + 1
    committed := if (s.processed + 1) % parseCommitEvery = 0 then s.db else s.committed }

/-- The outcome: the ingest so far, and whether it raised. -/
structure Ingested where
  walk : Walk
  raised : Bool

/-! ## The full walk -/

def deleteFiles (doomed : Path → Bool) (db : Db) : Db :=
  deleteNodes ((db.nodes.filter (doomed ·.filePath)).map (·.id)) db

/-- A file of the walk that is not skipped: its hash or its stamp differs from
the stored one. -/
def isStale (state : Dict.Items Path (String × Option String)) (f : Path × String) : Bool :=
  Dict.get state f.1 ≠ some (T.host.sha256 f.2, moduleStamp T C f.1)

/-- The files of the walk: non-Go files, then the packages. -/
def presentFiles (packages : List GoPackage) : List (Path × String) :=
  nonGoFiles T C ++ packages.flatMap (·.selected)

/-- `_prune_missing_files`, and the rebuild when the set of files changed. -/
def pruneMissing (db : Db) (present : List Path) : Db :=
  let known := (loadModuleState db).map (·.1)
  let pruned := deleteFiles (· ∉ present) db
  if present.any (· ∉ known) || known.any (· ∉ present) then rebuildRelationships pruned else pruned

def fullJobs (state : Dict.Items Path (String × Option String)) (packages : List GoPackage) :
    List (Path × String) × Bool :=
  let jobs := goJobs T C (isStale T C state) packages
  ((nonGoFiles T C).filter (isStale T C state) ++ jobs.1, jobs.2)

def Walk.start (db : Db) (cache : Option Cache) : Walk := ⟨db, cache, 0, db, []⟩

def ingestFullWalk (db : Db) : Ingested :=
  match selectGoPackages T C (sortKeys ((goFiles T C).map (·.1.packageKey))) with
  | none => ⟨Walk.start db none, true⟩
  | some packages =>
    let pruned := pruneMissing db ((presentFiles T C packages).map (·.1))
    let jobs := fullJobs T C (loadModuleState db) packages
    ⟨jobs.1.foldl (walkFile T C) (Walk.start pruned (some (Cache.fromNodes pruned.nodes))), jobs.2⟩

/-! ## The incremental run -/

inductive ChangeKind where
  | added
  | modified
  | deleted
  | renamed
  deriving DecidableEq, Repr

structure GitFileChange where
  kind : ChangeKind
  filePath : Path
  oldFilePath : Option Path := none
  deriving DecidableEq, Repr

def touchesRootGoMod (c : GitFileChange) : Bool :=
  c.filePath = ⟨[], "go.mod"⟩ ∨ c.oldFilePath = some ⟨[], "go.mod"⟩

def changeTouchesGoPackage (c : GitFileChange) : Bool := isGo c.filePath || c.oldFilePath.any isGo

def changeGoPackageKeys (c : GitFileChange) : List Path.PackageKey :=
  ((c.filePath :: c.oldFilePath.toList).filter isGo).map Path.packageKey

def jsTsChangePruned (c : GitFileChange) : Bool :=
  c.filePath.isJsTsNoise ||
    c.kind ≠ .deleted && (C.text? c.filePath).any fun text => jsTsMaxFileBytes < T.size text

/-- The non-Go work a change stands for. -/
def nonGoChanges (c : GitFileChange) : List GitFileChange :=
  let old := if c.kind = .renamed then c.oldFilePath else none
  if changeTouchesGoPackage c then
    -- the package reconciles its .go files; the other side of a rename is left
    let stale := match old with
      | some p => if p.detectGraphLanguage ≠ none ∧ ¬ isGo p then [⟨.deleted, p, none⟩] else []
      | none => []
    let added := match c.filePath.detectGraphLanguage with
      | none => []
      | some l =>
        if l = .go ∨ Path.isJsTs l ∧ jsTsChangePruned T C ⟨.added, c.filePath, none⟩ then []
        else [⟨.added, c.filePath, none⟩]
    stale ++ added
  else
    match c.filePath.detectGraphLanguage with
    | none =>
      -- renamed out of every graph language
      match old with
      | some p => if p.detectGraphLanguage ≠ none then [⟨.deleted, p, none⟩] else []
      | none => []
    | some l =>
      if Path.isJsTs l ∧ jsTsChangePruned T C c then
        match if c.kind = .renamed then c.oldFilePath else some c.filePath with
        | some p =>
          if c.kind ≠ .added ∧ p.detectGraphLanguage ≠ none ∧ ¬ p.isJsTsNoise then [⟨.deleted, p, none⟩] else []
        | none => []
      else [c]

def doomedPath (c : GitFileChange) : Option Path :=
  match c.kind with
  | .deleted => some c.filePath
  | .renamed => c.oldFilePath
  | _ => none

/-- The indexed `.go` paths of a touched package that are not selected now. -/
def staleGoPaths (state : Dict.Items Path (String × Option String)) (package : GoPackage) : List Path :=
  ((state.map (·.1)).filter fun p =>
    p.suffix = ".go" ∧ p.packageKey = package.key ∧ p ∉ package.selected.map (·.1)).insertionSort
      fun a b => decide (a.posix ≤ b.posix)

/-- `_collect_delete_peer_ids`. -/
def collectDeletePeerIds (db : Db) (p : Path) : List Nat :=
  let doomed := (db.nodes.filter (·.filePath = p)).map (·.id)
  let targets := (db.edges.filter (·.sourceNodeId ∈ doomed)).filterMap (·.targetNodeId)
  let sources := (db.edges.filter fun e => e.targetNodeId.any (· ∈ doomed)).map (·.sourceNodeId)
  (targets ++ sources).filter (· ∉ doomed)

def deleteSourceFile (s : Db × List Nat) (p : Path) : Db × List Nat :=
  (deleteFiles (· = p) s.1, s.2 ++ collectDeletePeerIds s.1 p)

/-- `rebuild_relationships_scoped`, which loads the given rows alone. -/
def rebuildRelationshipsScoped (touched : List Nat) (db : Db) : Db :=
  let ids := (db.nodes.map (·.id)).filter (· ∈ touched)
  { db with nodes := rebuildBackCompatArrays ids db.edges touched [] [] db.nodes }

section
variable (db : Db) (changes : List GitFileChange)

def goPackageKeys : List Path.PackageKey := sortKeys (changes.flatMap changeGoPackageKeys)

def allNonGoChanges : List GitFileChange := changes.flatMap (nonGoChanges T C)

/-- Every path the run deletes, before any insert. -/
def deletedPaths (packages : List GoPackage) : List Path :=
  (allNonGoChanges T C changes).filterMap doomedPath ++ packages.flatMap (staleGoPaths (loadModuleState db))

/-- A selected Go file with another hash than the stored one. -/
def isChanged (state : Dict.Items Path (String × Option String)) (f : Path × String) : Bool :=
  (Dict.get state f.1).map (·.1) ≠ some (T.host.sha256 f.2)

/-- The non-Go files to persist, those of them that exist. -/
def nonGoJobs : List (Path × String) :=
  ((allNonGoChanges T C changes).filter (·.kind ≠ .deleted)).filterMap fun c =>
    (C.text? c.filePath).map (c.filePath, ·)

def incrementalJobs (packages : List GoPackage) : List (Path × String) × Bool :=
  let jobs := goJobs T C (isChanged T (loadModuleState db)) packages
  if jobs.2 then jobs else (jobs.1 ++ nonGoJobs T C changes, false)

def ingestIncremental : Ingested :=
  match selectGoPackages T C (goPackageKeys changes) with
  | none => ⟨Walk.start db none, true⟩
  | some packages =>
    let deleted := (deletedPaths T C db changes packages).foldl deleteSourceFile (db, [])
    let jobs := incrementalJobs T C db changes packages
    let walk := jobs.1.foldl (persistFile T C) { Walk.start db none with db := deleted.1 }
    let done := if deleted.2 = [] ∨ jobs.2 then walk.db else rebuildRelationshipsScoped deleted.2 walk.db
    ⟨{ walk with db := done }, jobs.2⟩

/-- An indexed file whose stamp is not the current one. -/
def hasStaleStamp : Bool := (loadModuleState db).any fun x => x.2.2 ≠ moduleStamp T C x.1

/-- A change to `go.mod`, or a stale stamp, takes the full walk. -/
def ingestIncrementalFromGit : Ingested :=
  if changes.any touchesRootGoMod || hasStaleStamp T C db then ingestFullWalk T C db
  else ingestIncremental T C db changes

end

/-- `ingest_checkout`, with the changes since the last recorded commit where git
gives them. -/
def ingestCheckout (db : Db) (gitChanges : Option (List GitFileChange)) : Ingested :=
  match gitChanges with
  | none => ingestFullWalk T C db
  | some changes => ingestIncrementalFromGit T C db changes

/-- What is committed of an ingest that is broken off after `k` files: the
incremental run commits nothing before its end. -/
def ingestInterrupted (db : Db) (gitChanges : Option (List GitFileChange)) (k : Nat) : Db :=
  let full := match gitChanges with
    | none => true
    | some changes => changes.any touchesRootGoMod || hasStaleStamp T C db
  match selectGoPackages T C (sortKeys ((goFiles T C).map (·.1.packageKey))) with
  | none => db
  | some packages =>
    if full then
      let pruned := pruneMissing db ((presentFiles T C packages).map (·.1))
      let jobs := fullJobs T C (loadModuleState db) packages
      ((jobs.1.take k).foldl (walkFile T C) (Walk.start pruned (some (Cache.fromNodes pruned.nodes)))).committed
    else db

end

end Cograph
