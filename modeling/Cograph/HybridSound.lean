import Cograph.FusionSound
import Cograph.Hybrid

/-!
# What a failed stream costs

A stream that fails on its own gives nothing, and so does every stream that
runs in an aborted transaction. The first costs only itself exactly when no
stream that would have given its rows comes after a failed statement.
-/

namespace Cograph.Hybrid

open Fusion (Store RetrievedChunk rrfMergeStreams crossStore capped)

section
variable (q : Query) (fault : Faults)

/-- The streams of the retrieval, in the order they run. -/
def plan (stores : List Store) : List (Store × Stream) :=
  stores.flatMap fun store => (q.streams store).map (store, ·)

/-- The vector search raises before it has a statement. -/
def raisesFirst (x : Store × Stream) : Prop := x.2 = .vector ∧ q.embedding.length ≠ embeddingDim

def failsOwn (x : Store × Stream) : Prop := raisesFirst q x ∨ (fault x.1 x.2).isSome

/-- The stream's statement fails in the database. -/
def aborts (x : Store × Stream) : Prop := ¬raisesFirst q x ∧ fault x.1 x.2 = some .statement

instance (x : Store × Stream) : Decidable (raisesFirst q x) := inferInstanceAs (Decidable (_ ∧ _))
instance (x : Store × Stream) : Decidable (failsOwn q fault x) := inferInstanceAs (Decidable (_ ∨ _))
instance (x : Store × Stream) : Decidable (aborts q fault x) := inferInstanceAs (Decidable (_ ∧ _))

/-- No stream that succeeds on its own runs after a statement that failed. -/
def Contained (tx : Transaction) (xs : List (Store × Stream)) : Prop :=
  (tx = .aborted → ∀ x ∈ xs, failsOwn q fault x) ∧ xs.Pairwise fun x y => aborts q fault x → failsOwn q fault y

/-- The transaction after a stream. -/
def after (tx : Transaction) (x : Store × Stream) : Transaction := if aborts q fault x then .aborted else tx

theorem contained_cons {tx : Transaction} {x : Store × Stream} {xs : List (Store × Stream)} :
    Contained q fault tx (x :: xs) ↔ (tx = .aborted → failsOwn q fault x) ∧ Contained q fault (after q fault tx x) xs := by
  unfold Contained after
  rw [List.pairwise_cons, List.forall_mem_cons]
  by_cases ha : aborts q fault x
  · have hown : failsOwn q fault x := Or.inr (by rw [ha.2]; rfl)
    simp only [if_pos ha]
    grind
  · simp only [if_neg ha]
    grind

end

/-! ## One stream -/

section
variable {ι : Type} {q : Query}

/-- What a stream gives in a transaction that takes statements. -/
def ownHits (db : Database ι) (q : Query) (x : Store × Stream) : List (RetrievedChunk ι) :=
  if failsOwn q db.fault x then [] else db.rows x.1 x.2

theorem fault_cases (f : Option Fault) : f = none ∨ f = some .statement ∨ f = some .unreadable := by
  rcases f with _ | _ | _ <;> simp

theorem search_hits (db : Database ι) (tx : Transaction) (x : Store × Stream) : safe (search db q tx x.1 x.2) =
    (after q db.fault tx x, if tx = .aborted then [] else ownHits db q x) := by
  unfold search after ownHits failsOwn aborts raisesFirst
  by_cases hdim : x.2 = .vector ∧ q.embedding.length ≠ embeddingDim
  · simp [hdim, safe]
  · rw [if_neg hdim]
    cases tx with
    | aborted => simp [execute, safe]
    | ready =>
      obtain hfault | hfault | hfault := fault_cases (db.fault x.1 x.2) <;> simp [execute, safe, hfault, hdim]

/-- The database with the failing streams empty. -/
def emptied (fault : Faults) (rows : Store → Stream → List (RetrievedChunk ι)) : Database ι where
  fault := fun _ _ => none
  rows := fun store stream => if (fault store stream).isSome then [] else rows store stream

theorem ownHits_emptied (fault : Faults) (rows : Store → Stream → List (RetrievedChunk ι)) (x : Store × Stream) :
    ownHits (emptied fault rows) q x = ownHits ⟨fault, rows⟩ q x := by
  unfold ownHits failsOwn emptied
  by_cases hraise : raisesFirst q x
  · simp [hraise]
  · simp [hraise]

theorem after_emptied (fault : Faults) (rows : Store → Stream → List (RetrievedChunk ι)) (tx : Transaction)
    (x : Store × Stream) : after q (emptied fault rows).fault tx x = tx := by
  simp [after, aborts, emptied]

/-! ## A run -/

def afterAll (q : Query) (fault : Faults) (tx : Transaction) (xs : List (Store × Stream)) : Transaction :=
  xs.foldl (after q fault) tx

/-- What the streams give, one after another. -/
def hitsOf (db : Database ι) (q : Query) : Transaction → List (Store × Stream) → List (List (RetrievedChunk ι))
  | _, [] => []
  | tx, x :: xs => (if tx = .aborted then [] else ownHits db q x) :: hitsOf db q (after q db.fault tx x) xs

variable (db : Database ι)

theorem length_hitsOf (tx : Transaction) (xs : List (Store × Stream)) : (hitsOf db q tx xs).length = xs.length := by
  induction xs generalizing tx with
  | nil => rfl
  | cons x xs ih => rw [hitsOf, List.length_cons, List.length_cons, ih]

theorem hitsOf_append (tx : Transaction) (xs ys : List (Store × Stream)) :
    hitsOf db q tx (xs ++ ys) = hitsOf db q tx xs ++ hitsOf db q (afterAll q db.fault tx xs) ys := by
  induction xs generalizing tx with
  | nil => rfl
  | cons x xs ih =>
    rw [List.cons_append, hitsOf, hitsOf, ih, List.cons_append]
    rfl

theorem runStreams_eq (store : Store) (tx : Transaction) (streams : List Stream) :
    runStreams db q store tx streams =
      (afterAll q db.fault tx (streams.map (store, ·)), hitsOf db q tx (streams.map (store, ·))) := by
  induction streams generalizing tx with
  | nil => rfl
  | cons stream rest ih =>
    have hone := search_hits db (q := q) tx (store, stream)
    simp only at hone
    rw [runStreams, hone]
    simp only [ih, List.map_cons, hitsOf, afterAll, List.foldl_cons]

theorem hitsOf_contained {tx : Transaction} {xs : List (Store × Stream)} (h : Contained q db.fault tx xs) :
    hitsOf db q tx xs = xs.map (ownHits db q) := by
  induction xs generalizing tx with
  | nil => rfl
  | cons x xs ih =>
    obtain ⟨hfirst, hrest⟩ := (contained_cons q db.fault).1 h
    rw [hitsOf, ih hrest, List.map_cons]
    split
    · next haborted => rw [ownHits, if_pos (hfirst haborted)]
    · rfl

theorem hitsOf_emptied (fault : Faults) (rows : Store → Stream → List (RetrievedChunk ι)) (xs : List (Store × Stream)) :
    hitsOf (emptied fault rows) q .ready xs = xs.map (ownHits ⟨fault, rows⟩ q) := by
  induction xs with
  | nil => rfl
  | cons x xs ih => simp [hitsOf, after_emptied, ih, ownHits_emptied]

end

/-! ## The stores -/

section
variable {ι : Type} [LinearOrder ι] {q : Query} {db db' : Database ι} {r : Retriever ι}

/-- The fused lists depend on what the streams give only. -/
theorem retrieveStores_congr {tx tx' : Transaction} (stores : List Store)
    (h : hitsOf db q tx (plan q stores) = hitsOf db' q tx' (plan q stores)) :
    retrieveStores r db q tx stores = retrieveStores r db' q tx' stores := by
  induction stores generalizing tx tx' with
  | nil => rfl
  | cons store rest ih =>
    have hplan : plan q (store :: rest) = (q.streams store).map (store, ·) ++ plan q rest := rfl
    rw [hplan, hitsOf_append, hitsOf_append] at h
    obtain ⟨hfirst, hrest⟩ := List.append_inj h (by rw [length_hitsOf, length_hitsOf])
    rw [retrieveStores, retrieveStores, runStreams_eq, runStreams_eq]
    simp only [hfirst, ih hrest]

theorem retrieve_congr {tx tx' : Transaction} (topK : Int)
    (h : hitsOf db q tx (plan q q.storeSpecs) = hitsOf db' q tx' (plan q q.storeSpecs)) :
    retrieve r db tx q topK = retrieve r db' tx' q topK := by
  rw [retrieve, retrieve, retrieveStores_congr q.storeSpecs h]

theorem fused_empty_iff {streams : List (List (RetrievedChunk ι))} {k : Int} {cap : Option Int} {names : Option (List Str)}
    {out : List (RetrievedChunk ι)} (h : rrfMergeStreams streams k cap names = .ok out) :
    out = [] ↔ ∀ s ∈ streams, capped cap s = [] := by
  obtain ⟨-, hrank⟩ := Fusion.rrf_ok h
  have hids : ∀ id, id ∈ out.map (·.chunkId) ↔ id ∈ (Fusion.idStreams cap streams).flatten := by
    intro id
    rw [← hrank.ids, List.map_map]
    rfl
  constructor
  · intro hout s hs
    rw [List.eq_nil_iff_forall_not_mem]
    intro c hc
    have hmem : c.chunkId ∈ (Fusion.idStreams cap streams).flatten :=
      List.mem_flatten.2 ⟨_, List.mem_map_of_mem hs, List.mem_map_of_mem hc⟩
    rw [← hids, hout] at hmem
    cases hmem
  · intro hall
    rw [List.eq_nil_iff_forall_not_mem]
    intro c hc
    obtain ⟨ids, hin, hid⟩ := List.mem_flatten.1 ((hids c.chunkId).1 (List.mem_map_of_mem hc))
    obtain ⟨s, hs, rfl⟩ := List.mem_map.1 hin
    rw [hall s hs] at hid
    cases hid

/-- The fused lists are all empty when no stream gives anything. -/
theorem retrieveStores_empty (hk : 0 < r.rrfK) (tx : Transaction) (stores : List Store) :
    ∃ merged, retrieveStores r db q tx stores = .ok merged ∧ ((∀ m ∈ merged, m = []) ↔
      ∀ hits ∈ hitsOf db q tx (plan q stores), capped (some r.candidateCap) hits = []) := by
  induction stores generalizing tx with
  | nil => exact ⟨[], rfl, by simp [plan, hitsOf]⟩
  | cons store rest ih =>
    have hplan : plan q (store :: rest) = (q.streams store).map (store, ·) ++ plan q rest := rfl
    have hlen : ∀ ns ∈ some ((q.streams store).map Stream.name),
        ns.length = (hitsOf db q tx ((q.streams store).map (store, ·))).length := by
      simp [length_hitsOf]
    have hdefined : ∃ out, rrfMergeStreams (hitsOf db q tx ((q.streams store).map (store, ·))) r.rrfK
        (some r.candidateCap) (some ((q.streams store).map Stream.name)) = .ok out :=
      Fusion.rrf_defined.2 ⟨hk, Or.inr hlen⟩
    obtain ⟨out, hout⟩ := hdefined
    obtain ⟨merged, hmerged, hempty⟩ := ih (afterAll q db.fault tx ((q.streams store).map (store, ·)))
    refine ⟨out :: merged, ?_, ?_⟩
    · rw [retrieveStores, runStreams_eq]
      simp only [hout, hmerged]
      rfl
    · rw [List.forall_mem_cons, fused_empty_iff hout, hempty, hplan, hitsOf_append, List.forall_mem_append]

end

/-! ## A stream that is lost -/

section
variable {ι : Type} {q : Query}

/-- The stream runs in a transaction that takes its statement. -/
def Reaches (q : Query) (fault : Faults) (y : Store × Stream) : Transaction → List (Store × Stream) → Prop
  | _, [] => False
  | tx, x :: xs => (x = y ∧ tx = .ready) ∨ Reaches q fault y (after q fault tx x) xs

theorem Reaches.mem {fault : Faults} {y : Store × Stream} {tx : Transaction} {xs : List (Store × Stream)}
    (h : Reaches q fault y tx xs) : y ∈ xs := by
  induction xs generalizing tx with
  | nil => cases h
  | cons x xs ih =>
    obtain ⟨rfl, -⟩ | h := h
    · exact List.mem_cons_self
    · exact List.mem_cons_of_mem x (ih h)

theorem contained_iff_reaches {fault : Faults} {tx : Transaction} {xs : List (Store × Stream)} (hnodup : xs.Nodup) :
    Contained q fault tx xs ↔ ∀ y ∈ xs, ¬failsOwn q fault y → Reaches q fault y tx xs := by
  induction xs generalizing tx with
  | nil => simp [Contained]
  | cons x xs ih =>
    obtain ⟨hx, hxs⟩ := List.nodup_cons.1 hnodup
    rw [contained_cons, ih hxs, List.forall_mem_cons]
    refine and_congr ?_ (forall₂_congr fun y hy => ?_)
    · constructor
      · intro hfails hown
        exact Or.inl ⟨rfl, by cases tx <;> tauto⟩
      · intro hreach haborted
        by_contra hown
        obtain ⟨-, hready⟩ | hlater := hreach hown
        · exact absurd (haborted.symm.trans hready) (by decide)
        · exact hx hlater.mem
    · have hne : x ≠ y := fun h => hx (h ▸ hy)
      simp [Reaches, hne]

/-- Rows for one stream only. -/
def onlyRows (y : Store × Stream) (c : RetrievedChunk ι) (store : Store) (stream : Stream) : List (RetrievedChunk ι) :=
  if (store, stream) = y then [c] else []

theorem hitsOf_lost {fault : Faults} {y : Store × Stream} {c : RetrievedChunk ι} {tx : Transaction}
    {xs : List (Store × Stream)} (h : ¬Reaches q fault y tx xs) :
    ∀ hits ∈ hitsOf ⟨fault, onlyRows y c⟩ q tx xs, hits = [] := by
  induction xs generalizing tx with
  | nil => simp [hitsOf]
  | cons x xs ih =>
    rw [Reaches, not_or] at h
    rw [hitsOf, List.forall_mem_cons]
    refine ⟨?_, ih h.2⟩
    cases tx with
    | aborted => rfl
    | ready =>
      have hne : x ≠ y := fun hxy => h.1 ⟨hxy, rfl⟩
      simp [ownHits, onlyRows, hne]

theorem streams_nodup (store : Store) : (q.streams store).Nodup := by
  unfold Query.streams
  cases q.useText <;> cases store <;> decide

theorem plan_nodup : (plan q q.storeSpecs).Nodup := by
  have hstores : q.storeSpecs.Nodup := List.Nodup.filter _ (by decide)
  rw [plan, List.nodup_flatMap]
  refine ⟨fun store _ => (streams_nodup store).map fun a b h => (Prod.mk.inj h).2, hstores.imp fun hne => ?_⟩
  rintro z hz hz'
  obtain ⟨s, -, rfl⟩ := List.mem_map.1 hz
  obtain ⟨s', -, h⟩ := List.mem_map.1 hz'
  exact hne (Prod.mk.inj h).1.symm

end

/-! ## Which failures cost only themselves -/

section
variable {ι : Type} [LinearOrder ι]

/-- Whatever the streams give and however the retriever is set up, the result is
the one with exactly the failing streams empty, on a session in order. -/
def CostsOnlyItself (ι : Type) [LinearOrder ι] (tx : Transaction) (q : Query) (fault : Faults) : Prop :=
  ∀ (rows : Store → Stream → List (RetrievedChunk ι)) (r : Retriever ι) (topK : Int),
    retrieve r ⟨fault, rows⟩ tx q topK = retrieve r (emptied fault rows) .ready q topK

/-- The defaults of the constructor, and no reranking. -/
def plain (ι : Type) : Retriever ι where
  rrfK := 60
  candidateCap := 300
  shouldRerank := fun _ _ => false
  rerank := fun _ candidates topK => .ok (capped (some topK) candidates)

omit [LinearOrder ι] in
theorem crossStore_eq_nil (merged : List (List (RetrievedChunk ι))) :
    crossStore merged = [] ↔ ∀ m ∈ merged, m = [] := by
  have hperm := List.mergeSort_perm merged.flatten fun c d => d.score ≤ c.score
  rw [crossStore, ← List.flatten_eq_nil_iff]
  constructor
  · intro h
    rw [h] at hperm
    exact hperm.nil_eq.symm
  · intro h
    rw [h] at hperm ⊢
    exact hperm.eq_nil

/-- Ten results are none exactly when no stream gives a row. -/
theorem retrieve_plain {db : Database ι} {tx : Transaction} {q : Query} : retrieve (plain ι) db tx q 10 = .ok [] ↔
    ∀ hits ∈ hitsOf db q tx (plan q q.storeSpecs), hits = [] := by
  have hcap : ∀ n : Int, 0 < n → ∀ hits : List (RetrievedChunk ι), capped (some n) hits = [] ↔ hits = [] := by
    intro n hn hits
    have hpos : n.toNat ≠ 0 := by omega
    simp [capped, not_lt.2 hn.le, hpos]
  have hk : 0 < (plain ι).rrfK := by simp [plain]
  have hstores : ∃ merged, retrieveStores (plain ι) db q tx q.storeSpecs = .ok merged ∧ ((∀ m ∈ merged, m = []) ↔
      ∀ hits ∈ hitsOf db q tx (plan q q.storeSpecs), capped (some (plain ι).candidateCap) hits = []) :=
    retrieveStores_empty hk tx q.storeSpecs
  obtain ⟨merged, hmerged, hempty⟩ := hstores
  have hresult : retrieve (plain ι) db tx q 10 = .ok (capped (some 10) (crossStore merged)) := by
    unfold retrieve
    split
    · next hspecs =>
      rw [hspecs] at hmerged
      obtain rfl := Except.ok.inj hmerged
      rw [(crossStore_eq_nil []).2 (by simp)]
      rfl
    · rw [hmerged]
      rfl
  rw [hresult, Except.ok.injEq, hcap 10 (by decide), crossStore_eq_nil, hempty]
  exact forall₂_congr fun hits _ => hcap 300 (by decide) hits

theorem contained_of_costs [Inhabited ι] {tx : Transaction} {q : Query} {fault : Faults}
    (h : CostsOnlyItself ι tx q fault) : Contained q fault tx (plan q q.storeSpecs) := by
  rw [contained_iff_reaches plan_nodup]
  intro y hy hown
  by_contra hreach
  let c : RetrievedChunk ι := ⟨.code, default, [], 0, []⟩
  have hlost := retrieve_plain.2 (hitsOf_lost (c := c) hreach)
  rw [h, retrieve_plain, hitsOf_emptied] at hlost
  have hnone := hlost _ (List.mem_map_of_mem hy)
  simp [ownHits, hown, onlyRows] at hnone

/-- **Failed streams.** A retrieval returns what it returns with the failing
streams empty exactly when no stream that succeeds on its own runs after a
failed statement of the transaction. -/
theorem failure_contained_iff [Inhabited ι] (tx : Transaction) (q : Query) (fault : Faults) :
    CostsOnlyItself ι tx q fault ↔ Contained q fault tx (plan q q.storeSpecs) := by
  refine ⟨contained_of_costs, fun hcontained rows r topK => retrieve_congr topK ?_⟩
  rw [hitsOf_emptied]
  exact hitsOf_contained ⟨fault, rows⟩ hcontained

end

/-- A query on the code store. -/
def codeQuery : Query where
  text := "parse".toList
  embedding := List.replicate embeddingDim 0
  repositoryId := some 1
  collectionId := none
  stores := some [.code]

/-- The statement of the vector search fails. -/
def vectorDown : Faults := fun _ stream => if stream = .vector then some .statement else none

/-- The lexical search finds a chunk. -/
def lexicalRow : Store → Stream → List (RetrievedChunk Nat) :=
  onlyRows (.code, .lexical) ⟨.code, 7, "def parse".toList, 1, []⟩

/-- The failed statement costs the retrieval what the lexical search finds. -/
theorem failed_statement_costs_lexical :
    retrieve (plain Nat) ⟨vectorDown, lexicalRow⟩ .ready codeQuery 10 = .ok [] ∧
    retrieve (plain Nat) (emptied vectorDown lexicalRow) .ready codeQuery 10 ≠ .ok [] ∧
    ¬CostsOnlyItself Nat .ready codeQuery vectorDown := by
  have hlost : retrieve (plain Nat) ⟨vectorDown, lexicalRow⟩ .ready codeQuery 10 = .ok [] := by
    rw [retrieve_plain]
    decide +kernel
  have hkept : retrieve (plain Nat) (emptied vectorDown lexicalRow) .ready codeQuery 10 ≠ .ok [] := by
    rw [ne_eq, retrieve_plain]
    decide +kernel
  exact ⟨hlost, hkept, fun h => hkept ((h lexicalRow (plain Nat) 10).symm.trans hlost)⟩

end Cograph.Hybrid
