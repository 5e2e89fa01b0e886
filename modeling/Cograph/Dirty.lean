import Cograph.PageStore

/-!
# The dirty set of a wiki

`page_dirty_cheap_reason`, `page_cited_reason` and `compute_dirty_slugs` of
`wiki/incremental.py`: which pages of a plan a sync writes again, and why.
-/

namespace Cograph.Wiki

/-- `PageRecord`, the part of a row the predicate reads. -/
structure PageRecord (Hash : Type) where
  slug : Str
  specHash : Option Hash
  wikiSchemaVersion : Option Nat
  citations : Citations
  qualityStatus : Option QualityStatus
  citedFingerprint : Option Hash
  citedContentHashes : Option (Dict.Items Id Hash)
  contentSrc : Option Str
  editStreak : Nat
  deriving DecidableEq

inductive DirtyReason where
  | missingRow
  | schemaVersion
  | specChanged
  | qualityUnknown
  | qualityDegraded
  | citedNodeMissing
  | citedChunkMissing
  | citedNodeContentChanged
  | citedEvidenceChanged
  | siblingDirty
  deriving DecidableEq

structure DirtyReport (Hash : Type) where
  dirty : Dict.Items Str DirtyReason
  clean : List Str
  total : Nat
  adopt : Dict.Items Str Hash
  collapsed : List Str
  reconciledSpecs : Dict.Items Str PageSpec

section
variable {Hash : Type} [DecidableEq Hash] (H : Hasher Hash) (E : Evidence Hash)

def recordOf (row : Document Hash) : PageRecord Hash where
  slug := row.slug
  specHash := row.specHash
  wikiSchemaVersion := row.wikiSchemaVersion
  citations := row.citations
  qualityStatus := row.quality
  citedFingerprint := row.citedFingerprint
  citedContentHashes := if row.citedContentHashes = [] then none else some row.citedContentHashes
  contentSrc := row.contentSrc
  editStreak := row.editStreak

def loadPageRecords (d : Documents Hash) : List (PageRecord Hash) := d.rows.map recordOf

def findRecord (records : List (PageRecord Hash)) (slug : Str) : Option (PageRecord Hash) :=
  records.find? (·.slug = slug)

/-- The live rows a decision is made on. -/
structure Live (Hash : Type) where
  nodeHashes : Dict.Items Id Hash
  nodeSummaries : Dict.Items Id Str
  chunkContents : Dict.Items Id Str

namespace Live

def hasNode (live : Live Hash) (i : Id) : Bool := i ∈ live.nodeHashes.map (·.1)

def hasChunk (live : Live Hash) (i : Id) : Bool := i ∈ live.chunkContents.map (·.1)

end Live

/-- A cited node whose body is not the one of the stamp. -/
def contentChanged (live : Live Hash) (r : PageRecord Hash) : Bool :=
  live.nodeHashes ≠ [] ∧
    (r.citedContentHashes.getD []).any fun x => (Dict.get live.nodeHashes x.1).any (· ≠ x.2)

def pageDirtyCheapReason (record : Option (PageRecord Hash)) (currentSpecHash : Hash) (live : Live Hash)
    (wikiSchemaVersion : Nat) : Option DirtyReason :=
  match record with
  | none => some .missingRow
  | some r =>
    if r.wikiSchemaVersion ≠ some wikiSchemaVersion then some .schemaVersion
    else if r.specHash ≠ some currentSpecHash then some .specChanged
    else if r.qualityStatus = none then some .qualityUnknown
    else if r.qualityStatus = some .degraded then some .qualityDegraded
    else if r.citations.nodeIds.any (!live.hasNode ·) then some .citedNodeMissing
    else if r.citations.chunkIds.any (!live.hasChunk ·) then some .citedChunkMissing
    else if contentChanged live r then some .citedNodeContentChanged
    else none

def pageCitedReason (r : PageRecord Hash) (currentCitedFingerprint : Hash) : Option DirtyReason :=
  if r.citedFingerprint.any (· ≠ currentCitedFingerprint) then some .citedEvidenceChanged else none

/-! ## The decision for a plan -/

/-- The prior contract a page is held to. -/
def priorSpec (priorSpecs : Option (Dict.Items Str PageSpec)) (record : Option (PageRecord Hash)) (spec : PageSpec) :
    Option PageSpec :=
  if record.any (·.specHash.isSome) then priorSpecs.bind (Dict.get · spec.slug) else none

def currentFingerprint (live : Live Hash) (r : PageRecord Hash) : Hash :=
  citedFingerprint H r.citations.nodeIds r.citations.chunkIds live.nodeHashes live.nodeSummaries live.chunkContents

/-- Why a page is dirty, before its siblings are looked at. -/
def ownReason (live : Live Hash) (wikiSchemaVersion : Nat) (priorSpecs : Option (Dict.Items Str PageSpec))
    (record : Option (PageRecord Hash)) (spec : PageSpec) : Option DirtyReason :=
  (pageDirtyCheapReason record (specHash H ((priorSpec priorSpecs record spec).getD spec)) live wikiSchemaVersion).or
    (record.bind fun r => pageCitedReason r (currentFingerprint H live r))

/-- The page's whole cited subject is gone. -/
def hasCollapsed (live : Live Hash) (r : PageRecord Hash) : Bool :=
  (r.citations.nodeIds ≠ [] ∨ r.citations.chunkIds ≠ []) ∧
    ¬ (r.citations.nodeIds.any live.hasNode ∨ r.citations.chunkIds.any live.hasChunk)

/-- The live rows of everything the records of the plan cite. -/
def liveOf (plan : PagePlan) (records : List (PageRecord Hash)) : Live Hash :=
  let planned := records.filter (·.slug ∈ plan.pages.map (·.slug))
  let nodes := planned.flatMap (·.citations.nodeIds)
  let chunks := planned.flatMap (·.citations.chunkIds)
  ⟨liveNodeHashes E nodes, liveNodeSummaries E nodes, liveChunkContents E chunks⟩

def computeDirtySlugs (plan : PagePlan) (records : List (PageRecord Hash)) (wikiSchemaVersion : Nat)
    (priorSpecs : Option (Dict.Items Str PageSpec)) : DirtyReport Hash :=
  let live := liveOf E plan records
  let record := fun (s : PageSpec) => findRecord records s.slug
  let reason := fun s => ownReason H live wikiSchemaVersion priorSpecs (record s) s
  let dirty := plan.pages.filterMap fun s => (reason s).map (s.slug, ·)
  let clean := plan.pages.filter fun s => (reason s).isNone
  let adopt := clean.filterMap fun s => (record s).bind fun r =>
    if r.citedFingerprint = none then some (s.slug, currentFingerprint H live r) else none
  let reconciled := clean.filterMap fun s => (priorSpec priorSpecs (record s) s).map (s.slug, ·)
  let collapsed := (plan.pages.filter fun s => (record s).any (hasCollapsed live)).map (·.slug)
  let cleanSlugs := clean.map (·.slug)
  if dirty ≠ [] ∧ indexSlug ∈ plan.pages.map (·.slug) ∧ indexSlug ∉ dirty.map (·.1) then
    { dirty := dirty ++ [(indexSlug, .siblingDirty)]
      clean := cleanSlugs.filter (· ≠ indexSlug)
      total := plan.pages.length
      adopt := Dict.drop adopt indexSlug
      collapsed := collapsed
      reconciledSpecs := Dict.drop reconciled indexSlug }
  else
    { dirty := dirty, clean := cleanSlugs, total := plan.pages.length, adopt := adopt, collapsed := collapsed
      reconciledSpecs := reconciled }

end

end Cograph.Wiki
