import Cograph.Gates
import Cograph.Pages

/-!
# Persisting wiki pages

`wiki/store.py`: the wiki rows of one repository, the branches of
`upsert_pages`, the touch of clean pages and the sweep of orphans. Of a row's
quality the status is kept, `none` where the column holds none that parses. The
citations payload, the source hash, the model and the page counters are left
out.
-/

namespace Cograph.Wiki

inductive DraftMode where
  | write
  | edit
  deriving DecidableEq

/-- `ResolvedPage`. -/
structure ResolvedPage (Hash : Type) where
  slug : Str
  title : Str
  parentSlug : Option Str
  sortOrder : Nat
  content : Str
  citations : Citations
  quality : QualityStatus
  contentSrc : Option Str
  citedContentHashes : Dict.Items Id Hash
  mode : DraftMode
  deriving DecidableEq

structure Document (Hash : Type) where
  slug : Str
  title : Str
  sortOrder : Nat
  parentSlug : Option Str
  syncRunId : Option Id
  sourceCommit : Str
  content : Str
  contentHash : Hash
  citations : Citations
  quality : Option QualityStatus
  specHash : Option Hash
  citedFingerprint : Option Hash
  wikiSchemaVersion : Option Nat
  contentSrc : Option Str
  citedContentHashes : Dict.Items Id Hash
  editStreak : Nat
  deriving DecidableEq

/-- The wiki rows of a repository, one a slug. -/
structure Documents (Hash : Type) where
  rows : List (Document Hash)
  nodup : (rows.map (·.slug)).Nodup

/-- `_QUALITY_RANK`, higher is better. -/
def QualityStatus.quality : QualityStatus → Nat
  | .ok => 2
  | .partly => 1
  | .degraded => 0

/-- What a call of `upsert_pages` is given besides the pages. -/
structure UpsertContext (Hash : Type) where
  syncRunId : Option Id
  sourceCommit : Str
  wikiSchemaVersion : Option Nat
  specHashes : Dict.Items Str Hash
  citedFingerprints : Dict.Items Str Hash

inductive Branch where
  | insert
  | keepForQuality
  | sameContent
  | update
  deriving DecidableEq

section
variable {Hash : Type} [DecidableEq Hash] (H : Hasher Hash)

namespace Documents

def find (d : Documents Hash) (slug : Str) : Option (Document Hash) := d.rows.find? (·.slug = slug)

/-- A change of the rows that leaves the slugs alone. -/
def modify (d : Documents Hash) (f : Document Hash → Document Hash) (hf : ∀ r, (f r).slug = r.slug) : Documents Hash :=
  ⟨d.rows.map f, by rw [List.map_map, show (fun r => r.slug) ∘ f = (·.slug) from funext hf]; exact d.nodup⟩

def insert (d : Documents Hash) (r : Document Hash) : Option (Documents Hash) :=
  if h : r.slug ∈ d.rows.map (·.slug) then none
  else some ⟨d.rows ++ [r], by
    rw [List.map_append, List.nodup_append]
    exact ⟨d.nodup, by simp, by simpa [ne_comm] using h⟩⟩

def keep (d : Documents Hash) (p : Document Hash → Bool) : Documents Hash :=
  ⟨d.rows.filter p, d.nodup.sublist (List.filter_sublist.map _)⟩

end Documents

def nextEditStreak (mode : DraftMode) (existing : Option (Document Hash)) : Nat :=
  match mode with
  | .edit => ((existing.map (·.editStreak)).getD 0) + 1
  | .write => 0

def branch (existing : Option (Document Hash)) (page : ResolvedPage Hash) : Branch :=
  match existing with
  | none => .insert
  | some row =>
    if row.quality.any fun q => page.quality.quality < q.quality then .keepForQuality
    else if row.contentHash = H.sha256 page.content then .sameContent
    else .update

section
variable (ctx : UpsertContext Hash) (page : ResolvedPage Hash)

def insertedRow : Document Hash where
  slug := page.slug
  title := page.title
  sortOrder := page.sortOrder
  parentSlug := page.parentSlug
  syncRunId := ctx.syncRunId
  sourceCommit := ctx.sourceCommit
  content := page.content
  contentHash := H.sha256 page.content
  citations := page.citations
  quality := some page.quality
  specHash := Dict.get ctx.specHashes page.slug
  citedFingerprint := Dict.get ctx.citedFingerprints page.slug
  wikiSchemaVersion := ctx.wikiSchemaVersion
  contentSrc := page.contentSrc
  citedContentHashes := page.citedContentHashes
  editStreak := nextEditStreak page.mode (none : Option (Document Hash))

def keptRow (row : Document Hash) : Document Hash :=
  { row with
    syncRunId := ctx.syncRunId
    sourceCommit := ctx.sourceCommit }

/-- Title, content, source ids stay; quality is only raised. -/
def sameContentRow (row : Document Hash) : Document Hash :=
  { row with
    syncRunId := ctx.syncRunId
    sourceCommit := ctx.sourceCommit
    sortOrder := page.sortOrder
    parentSlug := page.parentSlug
    specHash := Dict.get ctx.specHashes page.slug
    citedFingerprint := Dict.get ctx.citedFingerprints page.slug
    wikiSchemaVersion := ctx.wikiSchemaVersion
    contentSrc := page.contentSrc
    citedContentHashes := page.citedContentHashes
    editStreak := nextEditStreak page.mode (some row)
    quality := if row.quality.all fun q => q.quality < page.quality.quality then some page.quality else row.quality }

def updatedRow (row : Document Hash) : Document Hash :=
  { row with
    title := page.title
    syncRunId := ctx.syncRunId
    sortOrder := page.sortOrder
    parentSlug := page.parentSlug
    sourceCommit := ctx.sourceCommit
    content := page.content
    contentHash := H.sha256 page.content
    citations := page.citations
    quality := some page.quality
    specHash := Dict.get ctx.specHashes page.slug
    citedFingerprint := Dict.get ctx.citedFingerprints page.slug
    wikiSchemaVersion := ctx.wikiSchemaVersion
    contentSrc := page.contentSrc
    citedContentHashes := page.citedContentHashes
    editStreak := nextEditStreak page.mode (some row) }

/-- What a page makes of its row. -/
def writtenRow (row : Document Hash) : Document Hash :=
  match branch H (some row) page with
  | .keepForQuality => keptRow ctx row
  | .sameContent => sameContentRow ctx page row
  | .insert | .update => updatedRow H ctx page row

def writePage (row : Document Hash) : Document Hash := if row.slug = page.slug then writtenRow H ctx page row else row

theorem writePage_slug (row : Document Hash) : (writePage H ctx page row).slug = row.slug := by
  unfold writePage
  split
  · unfold writtenRow
    split <;> rfl
  · rfl

/-- One page: `known` are the slugs that had a row when the call began. `none`
is the unique index of the slugs. -/
def upsertPage (known : List Str) (d : Documents Hash) : Option (Documents Hash) :=
  if page.slug ∈ known then some (d.modify (writePage H ctx page) (writePage_slug H ctx page))
  else d.insert (insertedRow H ctx page)

end

def upsertPages (ctx : UpsertContext Hash) (d : Documents Hash) (pages : List (ResolvedPage Hash)) :
    Option (Documents Hash) :=
  pages.foldlM (fun d' page => upsertPage H ctx page (d.rows.map (·.slug)) d') d

def touchRow (syncRunId : Option Id) (sourceCommit : Str) (slugs : List Str) (fingerprints : Dict.Items Str Hash)
    (row : Document Hash) : Document Hash :=
  let touched := if row.slug ∈ slugs then { row with syncRunId := syncRunId, sourceCommit := sourceCommit } else row
  { touched with citedFingerprint := (Dict.get fingerprints row.slug).or touched.citedFingerprint }

omit [DecidableEq Hash] in
theorem touchRow_slug (syncRunId : Option Id) (sourceCommit : Str) (slugs : List Str)
    (fingerprints : Dict.Items Str Hash) (row : Document Hash) :
    (touchRow syncRunId sourceCommit slugs fingerprints row).slug = row.slug := by
  simp only [touchRow]
  split <;> rfl

def touchPages (d : Documents Hash) (syncRunId : Option Id) (sourceCommit : Str) (slugs : List Str)
    (fingerprints : Dict.Items Str Hash) : Documents Hash :=
  if slugs = [] then d
  else d.modify (touchRow syncRunId sourceCommit slugs fingerprints) (touchRow_slug _ _ _ _)

def deleteOrphanPages (d : Documents Hash) (keepSlugs : List Str) : Documents Hash := d.keep (·.slug ∈ keepSlugs)

end

end Cograph.Wiki
