import Cograph.Graph
import Cograph.SkipCache
import Cograph.Strs

/-!
# Embeddings and summaries of a graph

`llm/code_embedder.py` and `llm/summary_generator.py`: the texts a node and a
subgraph are embedded or summarised by, the keys their rows are stored under,
and the passes that skip a row whose key is still the one now.
-/

namespace Cograph.Summaries

/-- A node's id, by the text of its UUID. -/
structure Uid where
  text : Str
  plain : '|' ∉ text ∧ '\x1e' ∉ text
  deriving DecidableEq

/-- A row of `code_nodes`. -/
structure CodeNode where
  id : Uid
  nodeType : NodeType
  qualifiedName : Str
  signature : Option Str
  docComment : Option Str
  content : Str
  callers : List Uid
  callees : List Uid
  deriving DecidableEq

/-- `hashlib.sha256(...).hexdigest()`, taken to have no collisions. -/
structure Sha256 where
  hexdigest : Str → Str
  injective : Function.Injective hexdigest
  plain : ∀ s, '\x1e' ∉ hexdigest s

/-- The values of `CodeNodeType`. -/
def typeValue : NodeType → Str
  | .module => "module".toList
  | .klass => "class".toList
  | .struct => "struct".toList
  | .interface => "interface".toList
  | .function => "function".toList
  | .method => "method".toList
  | .var => "variable".toList
  | .const => "constant".toList
  | .typeAlias => "type_alias".toList
  | .attr => "attribute".toList

def join (sep : Str) (texts : List Str) : Str := List.intercalate sep texts

/-! ## Neighbours -/

abbrev Names := Dict.Items Uid Str

/-- `id_to_qname`. -/
def idToQname (nodes : List CodeNode) : Names := Dict.ofItems (nodes.map fun n => (n.id, n.qualifiedName))

/-- The names of some ids in order, empty where an id is no node's. -/
def sortedNames (names : Names) (ids : List Uid) : List Str :=
  (ids.map fun u => (Dict.get names u).getD []).insertionSort fun a b => ¬b < a

/-- The names of the ids that are nodes', in the order of the ids. -/
def presentNames (names : Names) (ids : List Uid) : List Str := ids.filterMap (Dict.get names)

section
variable (sha : Sha256)

/-- `_content_hash` of the builder, which the row of a node keeps. -/
def contentHash (n : CodeNode) : Str := sha.hexdigest n.content

/-- `_neighbor_hash`, the same in both services. -/
def neighborHash (n : CodeNode) (names : Names) : Str :=
  (sha.hexdigest (join ['|'] (sortedNames names n.callers) ++ "||".toList ++
    join ['|'] (sortedNames names n.callees))).take 16

end

/-! ## Embedding texts -/

/-- A part of a text, left out where there is nothing for it. -/
def part (label : Str) (value : Str) : List Str := if value = [] then [] else [label ++ value]

/-- A list of names, left out where it is empty. -/
def listed (label : Str) (names : List Str) : List Str := if names = [] then [] else [label ++ join ", ".toList names]

/-- `_node_text`. -/
def nodeText (n : CodeNode) (names : Names) : Str :=
  (join ['\n'] ((typeValue n.nodeType ++ [' '] ++ n.qualifiedName) ::
    part [] (n.signature.getD []) ++ part [] (n.docComment.getD []) ++ part [] (n.content.take 2048) ++
    listed "callers: ".toList (presentNames names n.callers) ++
    listed "callees: ".toList (presentNames names n.callees))).take 4096

structure EmbedView where
  model : Str
  node : CodeNode
  names : Names

structure EmbedKey where
  contentHash : Str
  model : Str
  neighborHash : Str
  deriving DecidableEq

def embedKey (sha : Sha256) (v : EmbedView) : EmbedKey :=
  ⟨contentHash sha v.node, v.model, neighborHash sha v.node v.names⟩

def embedText (v : EmbedView) : Str := nodeText v.node v.names

/-! ## Summary prompts -/

/-- The parts that `_node_content_hash` joins. -/
def hashParts (n : CodeNode) (names : Names) : List Str :=
  [typeValue n.nodeType, n.qualifiedName, n.signature.getD [], n.docComment.getD [], n.content.take 2048,
    join ['|'] (sortedNames names n.callers), join ['|'] (sortedNames names n.callees)]

def nodeContentHash (sha : Sha256) (n : CodeNode) (names : Names) : Str :=
  sha.hexdigest (join ['\x1e'] (hashParts n names))

/-- `_node_prompt`. -/
def nodePrompt (n : CodeNode) (names : Names) : Str :=
  join ['\n'] ([("Describe what this ".toList ++ typeValue n.nodeType ++ " does in 2-4 sentences.".toList),
      "Include its role in the repo based on who calls it and what it calls.".toList, [],
      "Qualified name: ".toList ++ n.qualifiedName] ++
    part "Signature: ".toList (n.signature.getD []) ++ part "Docstring: ".toList (n.docComment.getD []) ++
    part "Source:\n".toList (n.content.take 2048) ++
    listed "Called by: ".toList ((sortedNames names n.callers).take 10) ++
    listed "Calls: ".toList ((sortedNames names n.callees).take 10))

structure SummaryKey where
  contentHash : Str
  neighborHash : Str
  model : Str
  deriving DecidableEq

def summaryKey (sha : Sha256) (v : EmbedView) : SummaryKey :=
  ⟨nodeContentHash sha v.node v.names, neighborHash sha v.node v.names, v.model⟩

def summaryText (v : EmbedView) : Str := nodePrompt v.node v.names

/-! ## Subgraph prompts -/

abbrev Nodes := Dict.Items Uid CodeNode

/-- `id_to_node`. -/
def idToNode (nodes : List CodeNode) : Nodes := Dict.ofItems (nodes.map fun n => (n.id, n))

/-- The first line of a signature. -/
def sigFirst (n : CodeNode) : Str := (n.signature.getD []).takeWhile (· ≠ '\n')

structure SubgraphView where
  model : Str
  root : CodeNode
  members : List Uid
  nodes : Nodes

/-- What `_subgraph_content_hash` takes of a member. -/
structure Member where
  uid : Uid
  qualifiedName : Str
  signature : Str
  contentHash : Str
  deriving DecidableEq

def Member.text (m : Member) : Str := join ['\x1e'] [m.uid.text, m.qualifiedName, m.signature, m.contentHash]

def memberOf (sha : Sha256) (nodes : Nodes) (u : Uid) : Member :=
  match Dict.get nodes u with
  | some n => ⟨u, n.qualifiedName, sigFirst n, contentHash sha n⟩
  | none => ⟨u, [], [], []⟩

/-- The order of the tuples, whose ids differ. -/
def memberBefore (a b : Member) : Prop := ¬b.uid.text < a.uid.text

instance (a b : Member) : Decidable (memberBefore a b) := inferInstanceAs (Decidable (¬_))

def subgraphContentHash (sha : Sha256) (members : List Uid) (nodes : Nodes) : Str :=
  let rootName := (members.head?.bind (Dict.get nodes)).elim [] (·.qualifiedName)
  sha.hexdigest (join ['|']
    (rootName :: ((members.map (memberOf sha nodes)).insertionSort memberBefore).map Member.text))

/-- The line of a member of a subgraph. -/
def memberLine (nodes : Nodes) (u : Uid) : Option Str :=
  (Dict.get nodes u).map fun n => "- ".toList ++ n.qualifiedName ++ ": ".toList ++ sigFirst n

/-- `_subgraph_prompt`. -/
def subgraphPrompt (root : CodeNode) (members : List Uid) (nodes : Nodes) : Str :=
  join ['\n'] ([("Summarise this subgraph as a cohesive unit — what subsystem does it form and what's its " ++
      "responsibility?").toList, [], "Root: ".toList ++ root.qualifiedName, [], "Members:".toList] ++
    members.filterMap (memberLine nodes))

structure SubgraphKey where
  contentHash : Str
  model : Str
  deriving DecidableEq

def subgraphKey (sha : Sha256) (v : SubgraphView) : SubgraphKey :=
  ⟨subgraphContentHash sha v.members v.nodes, v.model⟩

def subgraphText (v : SubgraphView) : Str := subgraphPrompt v.root v.members v.nodes

/-! ## Passes -/

/-- The nodes of a repository at a commit, and the rows made of nodes. -/
structure Store where
  nodes : List CodeNode
  embeddings : SkipCache.Cache Uid EmbedView EmbedKey Str
  summaries : SkipCache.Cache Uid EmbedView SummaryKey Str
  subgraphs : SkipCache.Cache Uid SubgraphView SubgraphKey Str

/-- The sizes a deployment sets, and the share of the nodes to summarise. -/
structure Config where
  batchSize : Nat
  share : Nat → Nat
  topSubgraphCount : Nat

def maxSubgraphMembers : Nat := 20

/-- Importance scores; only their order is used. -/
abbrev Scores := Dict.Items Uid Int

/-- The ids with the highest scores. -/
def topScored (scores : Scores) (count : Nat) : List Uid :=
  ((scores.insertionSort fun a b => b.2 ≤ a.2).take count).map (·.1)

section
variable (sha : Sha256) (cfg : Config) (s : Store)

def embedView (model : Str) (n : CodeNode) : EmbedView := ⟨model, n, idToQname s.nodes⟩

/-- The nodes a pass over `code_embeddings` leaves alone. -/
def skipsEmbedding (model : Str) (n : CodeNode) : Bool :=
  SkipCache.skips (embedKey sha) s.embeddings n.id (embedView s model n)

/-- `embed_repository`, of which so many batches succeed, or all of them. -/
def embedRepository (model : Str) (batches : Option Nat) : Store :=
  let jobs := (s.nodes.filter fun n => !skipsEmbedding sha s model n).map fun n => (n.id, embedView s model n)
  let done := batches.elim jobs fun k => jobs.take (cfg.batchSize * k)
  { s with embeddings := SkipCache.store (embedKey sha) embedText s.embeddings done }

def topIds (scores : Scores) : List Uid := topScored scores (max 10 (min 500 (cfg.share s.nodes.length)))

def candidates (scores : Scores) : List CodeNode := s.nodes.filter (·.id ∈ topIds cfg s scores)

def skipsSummary (model : Str) (n : CodeNode) : Bool :=
  SkipCache.skips (summaryKey sha) s.summaries n.id (embedView s model n)

/-- `_generate_node_summaries`. Where all calls fail it raises before rows are pruned. -/
def generateNodeSummaries (model : Str) (scores : Scores) (succeeds : Uid → Bool) : Store :=
  if scores = [] ∨ s.nodes = [] then s
  else
    let jobs := ((candidates cfg s scores).filter fun n => !skipsSummary sha s model n).map fun n =>
      (n.id, embedView s model n)
    let done := jobs.filter fun job => succeeds job.1
    let written := SkipCache.store (summaryKey sha) summaryText s.summaries done
    if jobs ≠ [] ∧ done = [] then s
    else { s with summaries := SkipCache.prune written (· ∈ topIds cfg s scores) }

/-- The members of a subgraph, the root first and the others by importance. -/
def members (scores : Scores) (root : CodeNode) : List Uid :=
  let others := ((root.callers ++ root.callees).filter fun u => u ≠ root.id ∧ u ∈ s.nodes.map (·.id)).dedup
  let score (u : Uid) : Int := (Dict.get scores u).getD 0
  root.id :: (others.insertionSort fun u v =>
    score v < score u ∨ score u = score v ∧ ¬v.text < u.text).take (maxSubgraphMembers - 1)

def topRoots (scores : Scores) : List CodeNode :=
  (topScored scores cfg.topSubgraphCount).filterMap (Dict.get (idToNode s.nodes))

def subgraphView (model : Str) (scores : Scores) (root : CodeNode) : SubgraphView :=
  ⟨model, root, members s scores root, idToNode s.nodes⟩

def skipsSubgraph (model : Str) (scores : Scores) (root : CodeNode) : Bool :=
  SkipCache.skips (subgraphKey sha) s.subgraphs root.id (subgraphView s model scores root)

/-- `_generate_subgraph_summaries`. -/
def generateSubgraphSummaries (model : Str) (scores : Scores) (succeeds : Uid → Bool) : Store :=
  let roots := topRoots cfg s scores
  if scores = [] ∨ s.nodes = [] ∨ roots = [] then s
  else
    let jobs := (roots.filter fun root => !skipsSubgraph sha s model scores root).map fun root =>
      (root.id, subgraphView s model scores root)
    let done := jobs.filter fun job => succeeds job.1
    let written := SkipCache.store (subgraphKey sha) subgraphText s.subgraphs done
    if jobs ≠ [] ∧ done = [] then s
    else { s with subgraphs := SkipCache.prune written (· ∈ roots.map (·.id)) }

/-- A new graph of the repository; the rows of the nodes that are gone go with them. -/
def reindex (nodes : List CodeNode) : Store where
  nodes := nodes
  embeddings := SkipCache.prune s.embeddings (· ∈ nodes.map (·.id))
  summaries := SkipCache.prune s.summaries (· ∈ nodes.map (·.id))
  subgraphs := SkipCache.prune s.subgraphs (· ∈ nodes.map (·.id))

end

inductive Action where
  | reindex (nodes : List CodeNode)
  | embed (model : Str) (batches : Option Nat)
  | summariseNodes (model : Str) (scores : Scores) (succeeds : Uid → Bool)
  | summariseSubgraphs (model : Str) (scores : Scores) (succeeds : Uid → Bool)

def next (sha : Sha256) (cfg : Config) (s : Store) : Action → Option Store
  | .reindex nodes => some (reindex s nodes)
  | .embed model batches => some (embedRepository sha cfg s model batches)
  | .summariseNodes model scores succeeds => some (generateNodeSummaries sha cfg s model scores succeeds)
  | .summariseSubgraphs model scores succeeds => some (generateSubgraphSummaries sha cfg s model scores succeeds)

end Cograph.Summaries
