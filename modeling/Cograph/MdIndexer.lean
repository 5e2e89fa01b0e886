import Cograph.Dict
import Cograph.Paths
import Cograph.Strs

/-!
# Markdown collections

`md_rag/indexer.py`: documents put into a collection, and a collection made to
match a folder of a checkout. The parser, the chunker and the hash are taken as
given; what the parser finds in a document is kept as one value.
-/

namespace Cograph.MdRag

structure Tools (Digest Parsed Chunk Link : Type) where
  sha256 : Str → Digest
  parse : Str → Parsed
  title : Parsed → Option Str
  links : Parsed → List Link
  href : Link → Str
  chunk : Str → List Chunk

structure MdDocumentInput where
  sourceKey : Str
  content : Str
  title : Option Str

/-- A row of `md_documents` with the chunks and links it owns. -/
structure MdDocument (Digest Parsed Chunk Link : Type) where
  id : Nat
  collectionId : Nat
  sourceKey : Str
  title : Str
  content : Str
  contentHash : Digest
  bytes : Nat
  parsed : Parsed
  contentUpdatedAt : Nat
  chunks : List Chunk
  links : List Link

structure MdDocumentResult where
  id : Nat
  sourceKey : Str
  title : Str
  bytes : Nat
  chunkCount : Nat
  created : Bool
  replaced : Bool
  unchanged : Bool

section
variable {Digest Parsed Chunk Link : Type} [DecidableEq Digest] (T : Tools Digest Parsed Chunk Link)

/-- The documents of all collections: a key stands once in a collection, and
each document keeps the hash of its content. -/
structure Db where
  documents : List (MdDocument Digest Parsed Chunk Link)
  nextId : Nat
  unique : (documents.map fun d => (d.collectionId, d.sourceKey)).Nodup
  hashed : ∀ d ∈ documents, d.contentHash = T.sha256 d.content

namespace Db

variable {T}

def find (db : Db T) (collectionId : Nat) (key : Str) : Option (MdDocument Digest Parsed Chunk Link) :=
  db.documents.find? fun d => d.collectionId = collectionId ∧ d.sourceKey = key

/-- An update of the rows that keeps their keys. -/
def update (db : Db T) (f : MdDocument Digest Parsed Chunk Link → MdDocument Digest Parsed Chunk Link)
    (hkey : ∀ d, (f d).collectionId = d.collectionId ∧ (f d).sourceKey = d.sourceKey)
    (hhash : ∀ d ∈ db.documents, (f d).contentHash = T.sha256 (f d).content) : Db T where
  documents := db.documents.map f
  nextId := db.nextId
  unique := by
    have : (fun d => (d.collectionId, d.sourceKey)) ∘ f = fun d => (d.collectionId, d.sourceKey) := by
      funext d
      simp [hkey d]
    rw [List.map_map, this]
    exact db.unique
  hashed := by
    intro d hd
    obtain ⟨e, he, rfl⟩ := List.mem_map.1 hd
    exact hhash e he

def insert (db : Db T) (d : MdDocument Digest Parsed Chunk Link) (hkey : db.find d.collectionId d.sourceKey = none)
    (hhash : d.contentHash = T.sha256 d.content) : Db T where
  documents := db.documents ++ [d]
  nextId := db.nextId + 1
  unique := by
    rw [List.map_append, List.nodup_append]
    refine ⟨db.unique, List.nodup_singleton _, ?_⟩
    intro x hx y hy
    obtain ⟨e, he, rfl⟩ := List.mem_map.1 hx
    obtain rfl : y = (d.collectionId, d.sourceKey) := by simpa using hy
    intro heq
    obtain ⟨h₁, h₂⟩ := Prod.mk.inj heq
    have := List.find?_eq_none.1 hkey e he
    simp [h₁, h₂] at this
  hashed := by
    intro e he
    rcases List.mem_append.1 he with he | he
    · exact db.hashed e he
    · rw [List.mem_singleton.1 he]
      exact hhash

/-- `delete(MdDocument)` of the keys of a collection. -/
def delete (db : Db T) (collectionId : Nat) (keys : List Str) : Db T where
  documents := db.documents.filter fun d => ¬(d.collectionId = collectionId ∧ d.sourceKey ∈ keys)
  nextId := db.nextId
  unique := db.unique.sublist (List.filter_sublist.map _)
  hashed d hd := db.hashed d (List.mem_filter.1 hd).1

end Db

/-! ## Documents -/

/-- `_replace_links`, one link an address, past those seen. -/
def replaceLinks : List Str → List Link → List Link
  | _, [] => []
  | seen, l :: ls =>
    if T.href l ∈ seen then replaceLinks seen ls else l :: replaceLinks (T.href l :: seen) ls

/-- What `upsert_documents` writes into a document it found or created. -/
def written (now : Nat) (input : MdDocumentInput) (unchanged : Bool) (d : MdDocument Digest Parsed Chunk Link) :
    MdDocument Digest Parsed Chunk Link :=
  let parsed := T.parse input.content
  { d with
    title := ((input.title.filter (· ≠ [])).or ((T.title parsed).filter (· ≠ []))).getD d.sourceKey
    content := input.content
    contentHash := T.sha256 input.content
    bytes := (String.ofList input.content).utf8ByteSize
    parsed := parsed
    contentUpdatedAt := if unchanged then d.contentUpdatedAt else now
    chunks := if unchanged then d.chunks else T.chunk input.content
    links := if unchanged then d.links else replaceLinks T [] (T.links parsed) }

/-- The row a new document starts from. -/
def created (db : Db T) (collectionId : Nat) (key : Str) (input : MdDocumentInput) :
    MdDocument Digest Parsed Chunk Link :=
  ⟨db.nextId, collectionId, key, key, [], T.sha256 [], 0, T.parse input.content, 0, [], []⟩

def result (d : MdDocument Digest Parsed Chunk Link) (existing unchanged : Bool) : MdDocumentResult :=
  ⟨d.id, d.sourceKey, d.title, d.bytes, d.chunks.length, !existing, existing, unchanged⟩

/-- One document of `upsert_documents`. -/
def upsertDocument (now collectionId : Nat) (db : Db T) (input : MdDocumentInput) : Db T × MdDocumentResult :=
  let key := Str.strip input.sourceKey
  match h : db.find collectionId key with
  | some existing =>
    let unchanged : Bool := existing.contentHash = T.sha256 input.content
    (db.update (fun d => if d.collectionId = collectionId ∧ d.sourceKey = key then written T now input unchanged d else d)
      (by
        intro d
        split <;> exact ⟨rfl, rfl⟩)
      (by
        intro d hd
        split
        · rfl
        · exact db.hashed d hd),
      result (written T now input unchanged existing) true unchanged)
  | none =>
    let d := written T now input false (created T db collectionId key input)
    (db.insert d h rfl, result d false false)

def upsertDocuments (now collectionId : Nat) : Db T → List MdDocumentInput → Db T × List MdDocumentResult
  | db, [] => (db, [])
  | db, input :: inputs =>
    let (db', item) := upsertDocument T now collectionId db input
    let (db'', items) := upsertDocuments now collectionId db' inputs
    (db'', item :: items)

/-! ## Folders -/

/-- A path below the folder, with what the file system says of it. -/
structure Entry where
  path : Path
  isFile : Bool
  /-- Its target lies in the checkout. -/
  inside : Bool
  size : Nat
  text : Str

def maxMdDocumentBytes : Nat := 10 * 1024 * 1024

def mirroredSuffixes : List String := [".md", ".mdx"]

def allowedHiddenDirs : List String := [".devcontainer", ".github"]

def ignoredParentDirs : List String :=
  [".cache", ".cograph", ".codexpotter", ".entire", ".idea", ".mypy_cache", ".pytest_cache", ".ruff_cache", ".tox",
    ".venv", ".vscode", "__pycache__", "build", "dist", "node_modules", "venv"]

/-- `_has_ignored_parent`. -/
def hasIgnoredParent (p : Path) : Bool :=
  p.dir.any fun part => part ∉ allowedHiddenDirs ∧ (part ∈ ignoredParentDirs ∨ part.toList.head? = some '.')

/-- The files `_read_folder_markdown` reads. -/
def mirrored (e : Entry) : Bool :=
  Path.lower e.path.suffix ∈ mirroredSuffixes ∧ e.isFile ∧ e.inside ∧ ¬hasIgnoredParent e.path ∧
    e.size ≤ maxMdDocumentBytes

/-- `_read_folder_markdown` on what lies below the folder, `none` where the
folder is missing or outside the checkout. -/
def readFolderMarkdown (folder : Option (List Entry)) : Option (Dict.Items Str Str) :=
  folder.map fun entries => Dict.ofItems ((entries.filter mirrored).map fun e => (e.path.posix.toList, e.text))

/-- The keys and hashes of a collection. -/
def existingHashes (db : Db T) (collectionId : Nat) : Dict.Items Str Digest :=
  Dict.ofItems ((db.documents.filter (·.collectionId = collectionId)).map fun d => (d.sourceKey, d.contentHash))

/-- `mirror_folder`: the collection afterwards and the number of documents
written or deleted. -/
def mirrorFolder (now collectionId : Nat) (db : Db T) (folder : Option (List Entry)) : Db T × Nat :=
  match readFolderMarkdown folder with
  | none => (db, 0)
  | some files =>
    let existing := existingHashes T db collectionId
    let changed := files.filter fun f => Dict.get existing f.1 ≠ some (T.sha256 f.2)
    let db' := (upsertDocuments T now collectionId db (changed.map fun f => ⟨f.1, f.2, none⟩)).1
    let gone := (existing.map (·.1)).filter (· ∉ files.map (·.1))
    (db'.delete collectionId gone, changed.length + gone.length)

end

end Cograph.MdRag
