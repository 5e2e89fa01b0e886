import Cograph.Access
import Cograph.Collections
import Cograph.Dict
import Cograph.Ranked

/-!
# Routing a query to sources

`rag/source_router.py`: the tokens of a query, what each readable repository and
collection matches of them, and the score of a source in its pool. Scores are
numbers of an ordered field with a logarithm. The texts of a source come from
its rows; a collection's body is searched by the database.
-/

namespace Cograph.Routing

/-! ## Tokens -/

def stopwords : List Str :=
  ["the", "and", "for", "with", "this", "that", "from", "what", "where", "which", "how", "when", "is", "in", "on",
    "to", "of", "a", "an", "are", "do", "does", "can", "could", "would"].map String.toList

def tokenise (query : Str) : List Str :=
  ((Str.lower query).splitOnP fun c => !c.isAlphanum).filter fun t => 2 ≤ t.length ∧ t.length ≤ 64 ∧ t ∉ stopwords

/-- The tokens of the set that occur in a text. -/
def matchesIn (tokens : List Str) (text : Str) : List Str :=
  if text = [] then [] else tokens.filter (Str.contains (Str.lower text) ·)

/-- What a source matches: its fields, with the names that `why` lists, and the
tokens of the label's field first. -/
structure Matched where
  label : List Str
  fields : List (Str × List Str)
  deriving DecidableEq

/-- The tokens of any field, in the order of the set. -/
def Matched.all (tokens : List Str) (m : Matched) : List Str := tokens.filter fun t => m.fields.any (t ∈ ·.2)

/-! ## Scores -/

section
variable {K : Type} [Field K] [LinearOrder K] (log : K → K)

/-- `df_map`: how many sources match a token. -/
def df (tokens : List Str) (pool : List Matched) (t : Str) : Nat := pool.countP fun m => t ∈ m.all tokens

def computeIdf (nSources : Nat) (df : Str → Nat) (tokens : List Str) : Dict.Items Str K :=
  tokens.map fun t => (t, if df t = 0 then 0 else log ((nSources + 1) / (df t + 1)))

def combineScore (tokens allMatched labelMatched : List Str) (idf : Dict.Items Str K) : K :=
  if tokens = [] then 0
  else
    let total : K := tokens.length
    let totalWeight := (idf.map (·.2)).sum
    let coverage :=
      if totalWeight ≤ 0 then allMatched.length / total
      else (allMatched.map fun t => (Dict.get idf t).getD 0).sum / totalWeight
    let labelBoost := 1 + 1 / 2 * (labelMatched.length / total)
    min 1 (coverage * labelBoost)

def poolIdf (tokens : List Str) (pool : List Matched) : Dict.Items Str K :=
  computeIdf log pool.length (df tokens pool) tokens

def poolScore (tokens : List Str) (pool : List Matched) (m : Matched) : K :=
  combineScore tokens (m.all tokens) m.label (poolIdf log tokens pool)

/-! ## Reasons -/

def rareThreshold (idf : Dict.Items Str K) : Option K := (idf.map (·.2)).max?.map (· * (95 / 100))

def formatToken (idf : Dict.Items Str K) (t : Str) : Str :=
  let repr := ['\''] ++ t ++ ['\'']
  if (rareThreshold idf).any (· ≤ (Dict.get idf t).getD 0) then repr ++ " (rare)".toList else repr

def whyLine (matched : List Str) (fieldNames : Str) (idf : Dict.Items Str K) : Str :=
  if matched = [] then "matched on ".toList ++ fieldNames
  else
    "matched on ".toList ++ ", ".toList.intercalate (((Ranked.sorted matched).take 4).map (formatToken idf)) ++
      " in ".toList ++ fieldNames

def fieldNames (m : Matched) : Str :=
  let parts := (m.fields.filter (·.2 ≠ [])).map (·.1)
  if parts = [] then "unknown".toList else ['+'].intercalate parts

def weakWhy : Str :=
  ("(weak/fallback) no strong lexical match — recommended to " ++
    "verify by reading the outline before assuming the topic is code-only").toList

end

/-! ## Texts of a source -/

/-- The columns of a repository's rows: branch, root README, and the qualified
name and path of each module in order of name. -/
structure RepositoryTexts where
  branch : Option Str
  readme : Option Str
  modules : List (Str × Str)

/-- The texts the router reads. `headingTrees` are the rows of the documents,
each a list of headings or something else; `bodyHas` is the full-text lookup of
a token. -/
structure Corpus where
  repository : Nat → RepositoryTexts
  headingTrees : List (Nat × Option (List (Option Str)))
  bodyHas : Str → Nat → Bool

def readmePrefixChars : Nat := 2000

def symbolCorpusPerRepoCap : Nat := 1500

/-- `_load_symbol_corpus` for one repository. -/
def symbolCorpus (modules : List (Str × Str)) : Str :=
  [' '].intercalate ((modules.take symbolCorpusPerRepoCap).flatMap fun row => [row.1, row.2].filter (· ≠ []))

def collectionHeadingsCharBudget : Nat := 65536

def headingsSize (bucket : List Str) : Nat := (bucket.map fun t => t.length + 1).sum

def addHeadings (bucket : List Str) : List (Option Str) → List Str
  | [] => bucket
  | none :: nodes => addHeadings bucket nodes
  | some text :: nodes =>
    if collectionHeadingsCharBudget ≤ headingsSize (bucket ++ [text]) then bucket ++ [text]
    else addHeadings (bucket ++ [text]) nodes

def addTree (bucket : List Str) (tree : Option (List (Option Str))) : List Str :=
  if collectionHeadingsCharBudget ≤ headingsSize bucket then bucket else addHeadings bucket (tree.getD [])

def headings (C : Corpus) (collectionId : Nat) : Str :=
  [' '].intercalate (((C.headingTrees.filter (·.1 = collectionId)).map (·.2)).foldl addTree [])

/-! ## The two pools -/

inductive Kind where
  | repository
  | collection
  deriving DecidableEq

structure RouteHit (K : Type) where
  kind : Kind
  id : Nat
  label : Str
  score : K
  why : Str

def slug (r : Access.Repository) : Str := r.host.toList ++ ['/'] ++ r.owner.toList ++ ['/'] ++ r.name.toList

def matchRepository (C : Corpus) (tokens : List Str) (r : Access.Repository) : Matched :=
  let texts := C.repository r.id
  let slugMatched := matchesIn tokens (slug r ++ [' '] ++ texts.branch.getD [])
  { label := slugMatched
    fields := [("slug".toList, slugMatched),
      ("README".toList, matchesIn tokens ((texts.readme.getD []).take readmePrefixChars)),
      ("symbols".toList, matchesIn tokens (symbolCorpus texts.modules))] }

def matchCollection (C : Corpus) (tokens : List Str) (c : Collections.MdCollection) : Matched :=
  let titleMatched := matchesIn tokens (c.name ++ [' '] ++ c.description.getD [])
  { label := titleMatched
    fields := [("title".toList, titleMatched), ("headings".toList, matchesIn tokens (headings C c.id)),
      ("body".toList, tokens.filter (C.bodyHas · c.id))] }

section
variable {K : Type} [Field K] [LinearOrder K] (log : K → K) (C : Corpus) (tokens : List Str)

/-- `scored.sort(key=score, reverse=True)` and the cut. -/
def best (topK : Nat) (scored : List (RouteHit K)) : List (RouteHit K) :=
  (scored.mergeSort fun a b => b.score ≤ a.score).take topK

def repositoryHit (pool : List Matched) (r : Access.Repository) : Option (RouteHit K) :=
  let m := matchRepository C tokens r
  if m.all tokens = [] then none
  else some
    { kind := .repository
      id := r.id
      label := slug r
      score := poolScore log tokens pool m
      why := whyLine (m.all tokens) (fieldNames m) (poolIdf log tokens pool) }

def routeRepositories (repos : List Access.Repository) (topK : Nat) : List (RouteHit K) :=
  best topK (repos.filterMap (repositoryHit log C tokens (repos.map (matchRepository C tokens))))

def collectionHit (pool : List Matched) (c : Collections.MdCollection) : RouteHit K :=
  let m := matchCollection C tokens c
  let score := poolScore log tokens pool m
  { kind := .collection
    id := c.id
    label := c.name
    score := score
    why := if score < 3 / 10 then weakWhy else whyLine (m.all tokens) (fieldNames m) (poolIdf log tokens pool) }

def routeCollections (collections : List Collections.MdCollection) (topK : Nat) : List (RouteHit K) :=
  best topK (collections.map (collectionHit log C tokens (collections.map (matchCollection C tokens))))

end

/-! ## The route -/

/-- Who asks, and the tables the scopes are read from. -/
structure Caller where
  repositories : Access.Tables
  collections : Collections.Tables
  publicRead : Bool
  currentUser : Option Scim.User

namespace Caller

def repos (caller : Caller) : List Access.Repository :=
  (Access.applyRepositoryReadScope caller.repositories caller.publicRead caller.currentUser .all).rows caller.repositories

def colls (caller : Caller) : List Collections.MdCollection :=
  Collections.select caller.collections
    (Collections.applyMdCollectionReadScope caller.collections caller.currentUser [])

end Caller

def tokenSet (query : Str) : List Str := (tokenise query).eraseDups

def routeSources {K : Type} [Field K] [LinearOrder K] (log : K → K) (C : Corpus) (caller : Caller) (query : Str)
    (topK : Nat) : List (RouteHit K) :=
  let tokens := tokenSet query
  if tokens = [] then []
  else routeRepositories log C tokens caller.repos topK ++ routeCollections log C tokens caller.colls topK

end Cograph.Routing
