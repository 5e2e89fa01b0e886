import Cograph.Dict
import Cograph.Ranked
import Cograph.Strs

/-!
# Reciprocal rank fusion

`rag/fusion.py`, with exact scores, and the merge of the stores in
`rag/hybrid.py`. The order of the chunk ids is that of their texts.
-/

namespace Cograph.Fusion

/-- A value of a chunk's metadata: a rank, or what the search put there. -/
inductive Value where
  | rank (n : Nat)
  | other (json : Str)
  deriving DecidableEq

inductive Store where
  | code
  | repoDocs
  | mdCollections
  deriving DecidableEq

structure RetrievedChunk (ι : Type) where
  store : Store
  chunkId : ι
  content : Str
  score : ℚ
  metadata : Dict.Items Str Value
  deriving DecidableEq

/-- `ValueError`, with what its text names. -/
inductive ValueError where
  | kNotPositive (k : Int)
  | streamNames (names streams : Nat)
  deriving DecidableEq

/-- The slice `stream[:candidate_cap]`; a negative cap counts from the end. -/
def capped {α : Type} (cap : Option Int) (stream : List α) : List α :=
  match cap with
  | none => stream
  | some n => stream.take (if n < 0 then (stream.length + n).toNat else n.toNat)

/-- The dictionaries that the loops fill. -/
structure Fused (ι : Type) where
  scores : Dict.Items ι ℚ := []
  chunksById : Dict.Items ι (RetrievedChunk ι) := []
  perStreamRanks : Dict.Items ι (Dict.Items Str Value) := []

section
variable {ι : Type} [LinearOrder ι]

/-- One turn of the inner loop. -/
def addHit (k : Int) (label : Option Str) (f : Fused ι) (hit : RetrievedChunk ι) (rank : Nat) : Fused ι where
  scores := Dict.put f.scores hit.chunkId ((Dict.get f.scores hit.chunkId).getD 0 + 1 / (k + rank))
  chunksById := if (Dict.get f.chunksById hit.chunkId).isSome then f.chunksById else Dict.put f.chunksById hit.chunkId hit
  perStreamRanks :=
    match label with
    | none => f.perStreamRanks
    | some label =>
      Dict.put f.perStreamRanks hit.chunkId
        (Dict.put ((Dict.get f.perStreamRanks hit.chunkId).getD []) (label ++ "_rank".toList) (.rank rank))

def addStream (k : Int) (f : Fused ι) (stream : List (RetrievedChunk ι) × Option Str) : Fused ι :=
  (stream.1.zipIdx 1).foldl (fun f hit => addHit k stream.2 f hit.1 hit.2) f

/-- The labels of the streams, where names are given. -/
def labels (streams : Nat) (streamNames : Option (List Str)) : List (Option Str) :=
  match streamNames with
  | none => List.replicate streams none
  | some names => names.map some

def fuse (k : Int) (streams : List (List (RetrievedChunk ι))) (cap : Option Int) (streamNames : Option (List Str)) : Fused ι :=
  ((streams.map (capped cap)).zip (labels streams.length streamNames)).foldl (addStream k) {}

/-- `meta.update(ranks)`. -/
def update (metadata ranks : Dict.Items Str Value) : Dict.Items Str Value :=
  ranks.foldl (fun m item => Dict.put m item.1 item.2) metadata

/-- The chunk of an id in the result. -/
def mergedChunk (f : Fused ι) (item : ι × ℚ) : Option (RetrievedChunk ι) :=
  (Dict.get f.chunksById item.1).map fun chunk =>
    { chunk with
      score := item.2
      metadata := update chunk.metadata ((Dict.get f.perStreamRanks item.1).getD []) }

def rrfMergeStreams (streams : List (List (RetrievedChunk ι))) (k : Int) (cap : Option Int)
    (streamNames : Option (List Str)) : Except ValueError (List (RetrievedChunk ι)) :=
  if k ≤ 0 then .error (.kNotPositive k)
  else if streams = [] then .ok []
  else
    match streamNames with
    | some names =>
      if names.length ≠ streams.length then .error (.streamNames names.length streams.length)
      else .ok (merged (fuse k streams cap streamNames))
    | none => .ok (merged (fuse k streams cap streamNames))
where
  merged (f : Fused ι) : List (RetrievedChunk ι) :=
    (Ranked.ranked (fun item : ι × ℚ => toLex (-item.2, item.1)) f.scores).filterMap (mergedChunk f)

end

/-- The merged chunks of the stores, in the order that `retrieve` cuts or hands
to the reranker. -/
def crossStore {ι : Type} (merged : List (List (RetrievedChunk ι))) : List (RetrievedChunk ι) :=
  merged.flatten.mergeSort fun c d => d.score ≤ c.score

end Cograph.Fusion
