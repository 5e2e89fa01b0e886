import Cograph.Dirty

/-!
# The cheap edit of a dirty page

`_edit_eligible`, `_parse_cited_refs`, `_seed_edit_ledger` and `_edit_one` of
`wiki/pipeline.py`, and the bundle `for_page` of `wiki/retrieval.py` packs. The
rows are read off the database at the moment of the edit; the retriever's hits
and the editor's answer are the inputs. Graph neighbours, summaries and scores,
which only the prompt shows, are left out.
-/

namespace Cograph.Wiki

/-! ## Rows and retrieval -/

structure CodeRow where
  id : Id
  qualifiedName : Str
  filePath : Str
  content : Str
  deriving DecidableEq

/-- A repository document with its chunks, each with its id. -/
structure DocRow where
  filePath : Str
  chunks : Dict.Items Id Str
  deriving DecidableEq

/-- The rows of a repository at one moment. -/
structure Snapshot where
  nodes : List CodeRow
  docs : List DocRow
  nodeIds : (nodes.map (·.id)).Nodup
  names : (nodes.map (·.qualifiedName)).Nodup
  paths : (docs.map (·.filePath)).Nodup
  chunkIds : ((docs.flatMap (·.chunks)).map (·.1)).Nodup

structure CodeChunk where
  qualifiedName : Str
  filePath : Str
  snippet : Str
  codeNodeId : Id
  deriving DecidableEq

structure DocChunk where
  filePath : Str
  snippet : Str
  chunkId : Id
  deriving DecidableEq

structure PageBundle where
  codeChunks : List CodeChunk
  docChunks : List DocChunk
  deriving DecidableEq

def snippetCharCap : Nat := 1200

def truncate (text : Str) (cap : Nat) : Str := if text.length ≤ cap then text else text.take cap ++ ['…']

def codeChunk (hit : CodeRow) : CodeChunk := ⟨hit.qualifiedName, hit.filePath, truncate hit.content snippetCharCap, hit.id⟩

def docChunk (hit : DocRow × Id × Str) : DocChunk := ⟨hit.1.filePath, truncate hit.2.2 snippetCharCap, hit.2.1⟩

/-- The bundle of the retriever's hits. -/
def forPage (codeHits : List CodeRow) (docHits : List (DocRow × Id × Str)) : PageBundle :=
  ⟨codeHits.map codeChunk, docHits.map docChunk⟩

namespace Snapshot

/-- `_fetch_nodes_by_qn`, for one name. -/
def node? (s : Snapshot) (qn : Str) : Option CodeRow := s.nodes.find? (·.qualifiedName = qn)

/-- `_fetch_live_doc_paths`, for one path. -/
def hasDoc (s : Snapshot) (path : Str) : Bool := path ∈ s.docs.map (·.filePath)

end Snapshot

/-! ## What an old body cites -/

/-- The names and paths of the placeholders, as sorted sets. -/
def parseCitedRefs (contentSrc : Str) : List Str × List Str :=
  let hits := (Regex.hits placeholderRe contentSrc).filter (valueOf · ≠ [])
  (sortedSet ((hits.filter (kindOf · = .node)).map valueOf),
    sortedSet ((hits.filter (kindOf · = .doc)).map fun m => stripDocAnchor (valueOf m)))

/-- A last mermaid fence, with the line ends before it. `isWord` is the `\w` of
a pattern. -/
def mermaidAt (isWord : Char → Bool) (s : Str) : Bool :=
  let t := s.dropWhile (· = '\n')
  let rest := t.drop 10
  "```mermaid".toList.isPrefixOf t && !rest.head?.any isWord &&
    rest.tails.any fun u => "```".toList.isPrefixOf u ∧ (u.drop 3).all Str.isSpace

def cutMermaid (isWord : Char → Bool) : Str → Str
  | [] => []
  | c :: s => if mermaidAt isWord (c :: s) then [] else c :: cutMermaid isWord s

def stripTrailingMermaid (isWord : Char → Bool) (body : Str) : Str := Str.rstrip (cutMermaid isWord body)

/-! ## Eligibility -/

structure EditConfig where
  enableEditMode : Bool
  editMaxChurn : ℚ
  editStreakCap : Nat

def editableReasons : List DirtyReason :=
  [.citedNodeContentChanged, .citedNodeMissing, .citedChunkMissing, .citedEvidenceChanged]

section
variable {Hash : Type} [DecidableEq Hash] (H : Hasher Hash)

omit [DecidableEq Hash] in
def editEligible (reason : Option DirtyReason) (record : Option (PageRecord Hash)) (cfg : EditConfig) (isIndex : Bool)
    (wikiSchemaVersion : Nat) : Bool :=
  cfg.enableEditMode && reason.any (· ∈ editableReasons) && record.any fun r =>
    r.contentSrc.getD [] ≠ [] ∧ r.wikiSchemaVersion = some wikiSchemaVersion ∧ ¬ isIndex ∧
      r.editStreak < cfg.editStreakCap

/-! ## The edit -/

def nonempty (s : Str) : Option Str := if s = [] then none else some s

def seedEditLedger (bundle : PageBundle) (survivingNodeQns survivingDocPaths : List Str) : Ledger :=
  let nodeId := fun (qn : Str) => "node:".toList ++ qn
  let docId := fun (path : Str) => "doc:".toList ++ path
  Ledger.empty.recordAll <|
    ((bundle.codeChunks.filter (·.qualifiedName ≠ [])).map fun c =>
      ⟨nodeId c.qualifiedName, .codeNode, some c.qualifiedName, nonempty c.filePath⟩) ++
    ((bundle.docChunks.filter (·.filePath ≠ [])).map fun c => ⟨docId c.filePath, .doc, none, some c.filePath⟩) ++
    (survivingNodeQns.map fun qn => ⟨nodeId qn, .codeNode, some qn, none⟩) ++
    survivingDocPaths.map fun path => ⟨docId path, .doc, none, some path⟩

/-- What `build_page_editor_user` is given. -/
structure EditorPrompt where
  spec : PageSpec
  bundle : PageBundle
  currentBody : Str
  changedSymbols : List Str
  removedSymbols : List Str
  newSymbols : List Str

def editNewSymbolCap : Nat := 6

def deadNames (now : Snapshot) (oldQns : List Str) : List Str := oldQns.filter fun qn => (now.node? qn).isNone

/-- Names whose row is not in the snapshot of hashes, or has another content. -/
def changedNames (now : Snapshot) (stored : Dict.Items Id Hash) (oldQns : List Str) : List Str :=
  oldQns.filter fun qn => (now.node? qn).any fun n => Dict.get stored n.id ≠ some (H.sha256 n.content)

def bundleNames (bundle : PageBundle) : List Str := (bundle.codeChunks.map (·.qualifiedName)).filter (· ≠ [])

/-- The gates of an edited body. -/
def acceptBody (isWord : Char → Bool) (spec : PageSpec) (ledger : Ledger) (raw : Str) : Option Str :=
  let body := stripTrailingMermaid isWord (Str.strip raw)
  if body = [] then none
  else if validateCitations body ledger .pre ≠ [] then none
  else
    let marked := ensureInferredAnswerMarkers body spec.coversQuestions ledger
    if (validateCoverage marked spec.coversQuestions ledger).isClean then some marked else none

/-- `_edit_one`: the body of the draft. `complete` is the editor, `none` where
the provider fails. -/
def editOne (isWord : Char → Bool) (cfg : EditConfig) (spec : PageSpec) (record : PageRecord Hash) (bundle : PageBundle)
    (now : Snapshot) (complete : EditorPrompt → Option Str) : Option Str :=
  let src := record.contentSrc.getD []
  let (oldQns, oldDocPaths) := parseCitedRefs src
  let stored := record.citedContentHashes.getD []
  let dead := deadNames now oldQns
  let changed := changedNames H now stored oldQns
  let churn : ℚ := (dead.length + changed.length : Nat) / (max 1 oldQns.length : Nat)
  if oldQns ≠ [] ∧ stored = [] then none
  else if cfg.editMaxChurn < churn then none
  else if changed.any (· ∉ bundleNames bundle) then none
  else
    let newQns := (sortedSet ((bundleNames bundle).filter (· ∉ oldQns))).take editNewSymbolCap
    let ledger := seedEditLedger bundle (oldQns.filter fun qn => (now.node? qn).isSome) (oldDocPaths.filter now.hasDoc)
    (complete ⟨spec, bundle, stripTrailingMermaid isWord src, changed, dead, newQns⟩).bind
      (acceptBody isWord spec ledger)

/-- The edit half of `_dispatch_one`. -/
def dispatchEdit (isWord : Char → Bool) (cfg : EditConfig) (wikiSchemaVersion : Nat) (reason : Option DirtyReason)
    (spec : PageSpec) (record : Option (PageRecord Hash)) (bundle : PageBundle) (now : Snapshot)
    (complete : EditorPrompt → Option Str) : Option Str :=
  if editEligible reason record cfg (spec.slug = indexSlug) wikiSchemaVersion then
    record.bind fun r => editOne H isWord cfg spec r bundle now complete
  else none

end

end Cograph.Wiki
