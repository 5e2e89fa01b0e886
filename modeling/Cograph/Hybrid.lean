import Cograph.Fusion
import Cograph.Strs

/-!
# The hybrid retriever

`rag/hybrid.py`: the streams of each store, run one after another in the
session's transaction under a catch-all, fused and handed to the router. A
statement the database reports an error for leaves the transaction aborted.
Cancellation, which the catch-all passes on, is not an outcome here.
-/

namespace Cograph.Hybrid

open Fusion (Store RetrievedChunk ValueError rrfMergeStreams crossStore capped)

/-! ## Statements -/

inductive Stream where
  | vector
  | lexical
  | symbol
  deriving DecidableEq

def Stream.name : Stream → Str
  | .vector => "vector".toList
  | .lexical => "lexical".toList
  | .symbol => "symbol".toList

inductive Transaction where
  | ready
  | aborted
  deriving DecidableEq

/-- How a search fails on its own: the database reports an error for its
statement, or it raises without one, as on rows that cannot be read. -/
inductive Fault where
  | statement
  | unreadable
  deriving DecidableEq

abbrev Faults := Store → Stream → Option Fault

/-- What the statement of each stream does in a transaction that takes it. -/
structure Database (ι : Type) where
  fault : Faults
  rows : Store → Stream → List (RetrievedChunk ι)

structure Query where
  text : Str
  embedding : List ℚ
  repositoryId : Option Nat
  collectionId : Option Nat
  stores : Option (List Store)

namespace Query

/-- `bool(query_text and query_text.strip())`. -/
def useText (q : Query) : Bool := Str.strip q.text ≠ []

def hasScope (q : Query) : Store → Bool
  | .code | .repoDocs => q.repositoryId.isSome
  | .mdCollections => q.collectionId.isSome

/-- The active stores that have an id to be scoped by. -/
def storeSpecs (q : Query) : List Store :=
  [.code, .repoDocs, .mdCollections].filter fun store => q.stores.all (store ∈ ·) && q.hasScope store

def streams (q : Query) (store : Store) : List Stream :=
  .vector :: if q.useText then .lexical :: if store = .code then [.symbol] else [] else []

end Query

section
variable {ι : Type}

def execute (db : Database ι) (tx : Transaction) (store : Store) (stream : Stream) :
    Transaction × Option (List (RetrievedChunk ι)) :=
  match tx with
  | .aborted => (.aborted, none)
  | .ready =>
    match db.fault store stream with
    | none => (.ready, some (db.rows store stream))
    | some .unreadable => (.ready, none)
    | some .statement => (.aborted, none)

def embeddingDim : Nat := 1536

/-- The stream's search; `none` is an exception. The vector search checks its
argument before it has a statement. -/
def search (db : Database ι) (q : Query) (tx : Transaction) (store : Store) (stream : Stream) :
    Transaction × Option (List (RetrievedChunk ι)) :=
  if stream = .vector ∧ q.embedding.length ≠ embeddingDim then (tx, none) else execute db tx store stream

/-- `_safe`. -/
def safe (r : Transaction × Option (List (RetrievedChunk ι))) : Transaction × List (RetrievedChunk ι) :=
  (r.1, r.2.getD [])

/-! ## The stores -/

def runStreams (db : Database ι) (q : Query) (store : Store) (tx : Transaction) :
    List Stream → Transaction × List (List (RetrievedChunk ι))
  | [] => (tx, [])
  | stream :: rest =>
    let hits := safe (search db q tx store stream)
    let others := runStreams db q store hits.1 rest
    (others.1, hits.2 :: others.2)

structure Retriever (ι : Type) where
  rrfK : Int
  candidateCap : Int
  shouldRerank : Str → List (RetrievedChunk ι) → Bool
  rerank : Str → List (RetrievedChunk ι) → Int → Except Str (List (RetrievedChunk ι))

inductive RetrieveError where
  | fusion (e : ValueError)
  | reranker (e : Str)
  deriving DecidableEq

variable [LinearOrder ι]

/-- The fused list of each store. -/
def retrieveStores (r : Retriever ι) (db : Database ι) (q : Query) (tx : Transaction) :
    List Store → Except ValueError (List (List (RetrievedChunk ι)))
  | [] => .ok []
  | store :: rest => do
    let ran := runStreams db q store tx (q.streams store)
    let merged ← rrfMergeStreams ran.2 r.rrfK (some r.candidateCap) (some ((q.streams store).map Stream.name))
    let others ← retrieveStores r db q ran.1 rest
    .ok (merged :: others)

def retrieve (r : Retriever ι) (db : Database ι) (tx : Transaction) (q : Query) (topK : Int) :
    Except RetrieveError (List (RetrievedChunk ι)) :=
  if q.storeSpecs = [] then .ok []
  else do
    let merged ← (retrieveStores r db q tx q.storeSpecs).mapError .fusion
    let allMerged := crossStore merged
    if r.shouldRerank q.text allMerged then (r.rerank q.text allMerged topK).mapError .reranker
    else .ok (capped (some topK) allMerged)

end

end Cograph.Hybrid
