import Cograph.Coverage
import Cograph.Dict

/-!
# Wiki pages and their reuse keys

Page specs and plans of `wiki/schemas.py`, and the stamps of
`wiki/incremental.py`: the hash of a page's contract and the hash of the
evidence it cites. Ids are the canonical UUID texts, so an id that does not
parse is one no row has. A sorted list is kept as the multiset of its elements.
-/

namespace Cograph.Wiki

abbrev Id := Nat

inductive PageKind where
  | index | overview | domainModel | apiReference | configuration | keyFlow | serviceTopology | quickStart
  | cliReference | installation | publicApiReference | embeddingGuide | compatibility | migrationGuide
  | supportedInputFeatures | generatedOutputShape | customization | coreAbstractions | extensionPoints | pluginGuide
  | troubleshooting | security | examples | concept
  deriving DecidableEq

structure PageSpec where
  slug : Str
  title : Str
  parentSlug : Option Str
  coversQuestions : List ReaderQuestion
  diagram : Bool
  pageKind : PageKind
  deriving DecidableEq

/-- A normalized `PagePlan`: the slugs are distinct, and no parent is the empty
text. -/
structure PagePlan where
  pages : List PageSpec
  slugs : (pages.map (·.slug)).Nodup
  parents : ∀ s ∈ pages, s.parentSlug ≠ some []

def indexSlug : Str := "index".toList

/-! ## Hashing -/

/-- One component of a cited fingerprint. -/
inductive Cited (Hash : Type) where
  | node (id : Id) (content : Option Hash) (summary : Hash)
  | doc (id : Id) (content : Hash)
  deriving DecidableEq

/-- What `_canonical_hash` is given. -/
inductive Payload (Hash : Type) where
  | spec (slug title parent : Str) (questions : Multiset Str) (diagram : Bool) (kind : PageKind)
  | evidence (cited : Multiset (Cited Hash))
  deriving DecidableEq

structure Hasher (Hash : Type) where
  sha256 : Str → Hash
  canonicalHash : Payload Hash → Hash

section
variable {Hash : Type} (H : Hasher Hash)

def specHash (s : PageSpec) : Hash :=
  H.canonicalHash (.spec s.slug s.title (s.parentSlug.getD []) (s.coversQuestions.map (·.value)) s.diagram s.pageKind)

/-! ## Evidence -/

/-- The rows a page can cite, each by its id: content hash and summary of a
code node, content of a document chunk. -/
structure Evidence (Hash : Type) where
  nodes : Dict.Items Id Hash
  summaries : Dict.Items Id Str
  chunks : Dict.Items Id Str
  nodeIds : (nodes.map (·.1)).Nodup
  summaryIds : (summaries.map (·.1)).Nodup
  chunkIds : (chunks.map (·.1)).Nodup

variable (E : Evidence Hash)

def liveNodeHashes (cited : List Id) : Dict.Items Id Hash := E.nodes.filter (·.1 ∈ cited)

def liveNodeSummaries (cited : List Id) : Dict.Items Id Str := E.summaries.filter (·.1 ∈ cited)

def liveChunkContents (cited : List Id) : Dict.Items Id Str := E.chunks.filter (·.1 ∈ cited)

def citedFingerprint (nodeIds chunkIds : List Id) (nodeHashes : Dict.Items Id Hash)
    (nodeSummaries chunkContents : Dict.Items Id Str) : Hash :=
  let nodes := nodeIds.map fun i =>
    Cited.node i (Dict.get nodeHashes i) (H.sha256 ((Dict.get nodeSummaries i).getD []))
  let docs := chunkIds.map fun i => Cited.doc i (H.sha256 ((Dict.get chunkContents i).getD []))
  H.canonicalHash (.evidence (nodes ++ docs : List (Cited Hash)))

/-- The recorded citations of a page. -/
structure Citations where
  nodeIds : List Id
  chunkIds : List Id
  deriving DecidableEq

def computeCitedFingerprints (citationsBySlug : Dict.Items Str Citations) : Dict.Items Str Hash :=
  let nodes := citationsBySlug.flatMap (·.2.nodeIds)
  let chunks := citationsBySlug.flatMap (·.2.chunkIds)
  citationsBySlug.map fun (slug, c) =>
    (slug, citedFingerprint H c.nodeIds c.chunkIds (liveNodeHashes E nodes) (liveNodeSummaries E nodes)
      (liveChunkContents E chunks))

end

end Cograph.Wiki
