import Cograph.Embedding
import Cograph.Machine

/-!
# What is embedded, and what a run leaves behind

However runs, their deaths and the writers of documents interleave, the vector
of a chunk is the one its model makes of its own text. A run that returns has
left no chunk without a vector that it had read and that is still there, and
its counts account for every chunk it had read.
-/

namespace Cograph.Embedding

open Machine

/-! ## The provider -/

section
variable {Vector : Type}

/-- The response lists the vector of each text once, with its index. -/
def Lists (vectors : List Vector) (data : List (ℕ × Vector)) : Prop :=
  data.Perm (vectors.zipIdx.map fun x => (x.2, x.1))

theorem zipIdx_pairwise (vectors : List Vector) (n : ℕ) :
    ((vectors.zipIdx n).map fun x => (x.2, x.1)).Pairwise fun a b => a.1 < b.1 := by
  induction vectors generalizing n with
  | nil => simp
  | cons v vectors ih =>
    rw [List.zipIdx_cons, List.map_cons, List.pairwise_cons]
    refine ⟨fun x hx => ?_, ih (n + 1)⟩
    obtain ⟨⟨v', i⟩, hi, rfl⟩ := List.mem_map.1 hx
    obtain ⟨hle, -, -⟩ := List.mem_zipIdx hi
    exact hle

/-- Sorting by the index puts the vectors in the order of the texts. -/
theorem sort_lists {vectors : List Vector} {data : List (ℕ × Vector)} (h : Lists vectors data) :
    (data.insertionSort (·.1 ≤ ·.1)).map (·.2) = vectors := by
  have hperm : (data.insertionSort (·.1 ≤ ·.1)).Perm (vectors.zipIdx.map fun x => (x.2, x.1)) :=
    (List.perm_insertionSort _ data).trans h
  have hsorted := List.pairwise_insertionSort (fun a b : ℕ × Vector => a.1 ≤ b.1) data
  have hlt := zipIdx_pairwise vectors 0
  have heq : data.insertionSort (·.1 ≤ ·.1) = vectors.zipIdx.map fun x => (x.2, x.1) := by
    refine hperm.eq_of_pairwise (fun a b ha hb hab hba => ?_) hsorted (hlt.imp Nat.le_of_lt)
    obtain ⟨⟨v, i⟩, hv, rfl⟩ := List.mem_map.1 (hperm.subset ha)
    obtain ⟨⟨v', j⟩, hv', rfl⟩ := List.mem_map.1 hb
    obtain rfl : i = j := Nat.le_antisymm hab hba
    have hmem := List.mem_zipIdx_iff_getElem?.1 hv
    rw [List.mem_zipIdx_iff_getElem?.1 hv'] at hmem
    exact congrArg (Prod.mk i) (Option.some.inj hmem).symm
  rw [heq, List.map_map]
  exact List.zipIdx_map_fst 0 vectors

/-- Vectors come from a response that one of the attempts has brought. -/
theorem embed_ok {n : ℕ} {attempts : List (Attempt Vector)} {vectors : List Vector}
    (h : embed n attempts = some (.ok vectors)) :
    ∃ data, .response data ∈ attempts ∧ vectors = (data.insertionSort (·.1 ≤ ·.1)).map (·.2) := by
  induction n generalizing attempts with
  | zero => cases h
  | succ n ih =>
    cases attempts with
    | nil => cases h
    | cons attempt attempts =>
      cases attempt with
      | retryable =>
        obtain ⟨data, hdata, heq⟩ := ih h
        exact ⟨data, List.mem_cons_of_mem _ hdata, heq⟩
      | fatal message => cases h
      | response data =>
        cases h
        exact ⟨data, List.mem_cons_self .., rfl⟩

end

/-! ## What one step does to the chunks -/

section
variable {Digest Vector : Type} {sha256 : Str → Digest} {service : Service}
variable {s s' : St Digest Vector} {a : Act Vector}

/-- A chunk that is inserted has no vector and a new id. -/
theorem mem_draftChunks {documentId : ℕ} {c : Chunk Digest Vector} {id : ℕ} {drafts : List Draft}
    (h : c ∈ St.draftChunks sha256 service documentId id drafts) :
    c.embedding = none ∧ id ≤ c.id ∧ c.id < id + drafts.length := by
  induction drafts generalizing id with
  | nil => cases h
  | cons draft drafts ih =>
    obtain rfl | h := List.mem_cons.1 h
    · exact ⟨rfl, Nat.le_refl _, by simp [St.draftChunk]⟩
    · obtain ⟨hnone, hle, hlt⟩ := ih h
      rw [List.length_cons]
      exact ⟨hnone, by omega, by omega⟩

theorem draftChunks_nodup {documentId id : ℕ} {drafts : List Draft} :
    (List.map (fun c : Chunk Digest Vector => c.id) (St.draftChunks sha256 service documentId id drafts)).Nodup := by
  induction drafts generalizing id with
  | nil => exact List.nodup_nil
  | cons draft drafts ih =>
    rw [St.draftChunks, List.map_cons, List.nodup_cons]
    refine ⟨fun hmem => ?_, ih⟩
    obtain ⟨c, hc, hid⟩ := List.mem_map.1 hmem
    have hlt := (mem_draftChunks hc).2.1
    have hid : c.id = id := hid
    omega

/-- The chunk stays, with a vector that a run has written into it or as it was. -/
def Wrote (model : Str) (pairs : List (Item Digest × Vector)) (c₀ c : Chunk Digest Vector) : Prop :=
  c = c₀ ∧ (∀ x ∈ pairs, x.1.chunkId ≠ c₀.id) ∨
    ∃ x ∈ pairs, x.1.chunkId = c₀.id ∧
      c = { c₀ with embedding := some x.2, model := model, contentHash := some x.1.hash }

theorem mem_foldl_setVector {model : Str} {pairs : List (Item Digest × Vector)} {chunks : List (Chunk Digest Vector)}
    {c : Chunk Digest Vector} (h : c ∈ pairs.foldl (St.setVector model) chunks) :
    ∃ c₀ ∈ chunks, Wrote model pairs c₀ c := by
  induction pairs generalizing chunks with
  | nil => exact ⟨c, h, .inl ⟨rfl, nofun⟩⟩
  | cons x pairs ih =>
    obtain ⟨c₁, hc₁, hwrote⟩ := ih h
    obtain ⟨c₀, hc₀, rfl⟩ := List.mem_map.1 hc₁
    refine ⟨c₀, hc₀, ?_⟩
    by_cases hid : c₀.id = x.1.chunkId
    · rw [if_pos hid] at hwrote
      obtain ⟨rfl, -⟩ | ⟨y, hy, hchunk, rfl⟩ := hwrote
      · exact .inr ⟨x, List.mem_cons_self .., hid.symm, rfl⟩
      · exact .inr ⟨y, List.mem_cons_of_mem _ hy, hchunk, rfl⟩
    · rw [if_neg hid] at hwrote
      obtain ⟨rfl, hother⟩ | ⟨y, hy, hchunk, rfl⟩ := hwrote
      · refine .inl ⟨rfl, fun y hy => ?_⟩
        obtain rfl | hy := List.mem_cons.1 hy
        · exact Ne.symm hid
        · exact hother y hy
      · exact .inr ⟨y, List.mem_cons_of_mem _ hy, hchunk, rfl⟩

theorem foldl_setVector_ids {model : Str} {pairs : List (Item Digest × Vector)} {chunks : List (Chunk Digest Vector)} :
    (pairs.foldl (St.setVector model) chunks).map (·.id) = chunks.map (·.id) := by
  induction pairs generalizing chunks with
  | nil => rfl
  | cons x pairs ih =>
    rw [List.foldl_cons, ih, St.setVector, List.map_map]
    refine List.map_congr_left fun c _ => ?_
    show (if c.id = x.1.chunkId then _ else c : Chunk Digest Vector).id = c.id
    split <;> rfl

theorem Wrote.id_eq {model : Str} {pairs : List (Item Digest × Vector)} {c₀ c : Chunk Digest Vector}
    (h : Wrote model pairs c₀ c) : c.id = c₀.id := by
  obtain ⟨rfl, -⟩ | ⟨x, -, -, rfl⟩ := h
  · rfl
  · rfl

/-- The rows of documents, chunks and the like are as they were. -/
structure SameRows (s s' : St Digest Vector) : Prop where
  nextId : s.nextId ≤ s'.nextId
  documents : s'.documents = s.documents
  chunks : s'.chunks = s.chunks

/-- What a writer of documents does to the chunks. -/
structure Rewritten (s s' : St Digest Vector) : Prop where
  nextId : s.nextId ≤ s'.nextId
  runs : s'.runs = s.runs
  returned : s'.returned = s.returned
  jobs : ∀ j ∈ s'.jobs, j ∈ s.jobs
  chunks : ∀ c ∈ s'.chunks, c ∈ s.chunks ∨ c.embedding = none ∧ s.nextId ≤ c.id ∧ c.id < s'.nextId
  nodup : (s.chunks.map (·.id)).Nodup → (∀ c ∈ s.chunks, c.id < s.nextId) → (s'.chunks.map (·.id)).Nodup

theorem nodup_append_drafts {chunks : List (Chunk Digest Vector)} {documentId id n : ℕ} {drafts : List Draft}
    (hnodup : (chunks.map (·.id)).Nodup) (hlt : ∀ c ∈ chunks, c.id < n) (hn : n ≤ id) :
    (List.map (fun c : Chunk Digest Vector => c.id)
      (chunks ++ St.draftChunks sha256 service documentId id drafts)).Nodup := by
  rw [List.map_append, List.nodup_append]
  refine ⟨hnodup, draftChunks_nodup, fun x hx y hy => ?_⟩
  obtain ⟨c, hc, rfl⟩ := List.mem_map.1 hx
  obtain ⟨d, hd, rfl⟩ := List.mem_map.1 hy
  have hlt := hlt c hc
  have hle := (mem_draftChunks hd).2.1
  omega

theorem putDocument_rewritten {collectionId : ℕ} {sourceKey : Str} {drafts : List Draft} :
    Rewritten s (s.putDocument sha256 service collectionId sourceKey drafts) := by
  unfold St.putDocument
  split
  · rename_i d hfind
    refine ⟨Nat.le_add_right _ _, rfl, rfl, fun _ => id, fun c hc => ?_, fun hnodup hlt => ?_⟩
    · obtain hold | hnew := List.mem_append.1 hc
      · exact .inl (List.mem_of_mem_filter hold)
      · exact .inr (mem_draftChunks hnew)
    · refine nodup_append_drafts ?_ (fun c hc => hlt c (List.mem_of_mem_filter hc)) (Nat.le_refl _)
      exact hnodup.sublist (List.filter_sublist.map _)
  · refine ⟨by dsimp only; omega, rfl, rfl, fun _ => id, fun c hc => ?_, fun hnodup hlt => ?_⟩
    · obtain hold | hnew := List.mem_append.1 hc
      · exact .inl hold
      · obtain ⟨hnone, hle, hlt⟩ := mem_draftChunks hnew
        exact .inr ⟨hnone, by omega, hlt⟩
    · exact nodup_append_drafts hnodup hlt (Nat.le_succ _)

theorem deleteDocuments_rewritten {gone : Document → Bool} : Rewritten s (s.deleteDocuments gone) := by
  refine ⟨Nat.le_refl _, rfl, rfl, fun _ => id, fun c hc => .inl (List.mem_of_mem_filter hc), fun hnodup _ => ?_⟩
  exact hnodup.sublist (List.filter_sublist.map _)

theorem deleteCollection_rewritten {collectionId : ℕ} : Rewritten s (s.deleteCollection collectionId) := by
  refine ⟨Nat.le_refl _, rfl, rfl, fun _ => List.mem_of_mem_filter, fun c hc => .inl (List.mem_of_mem_filter hc), ?_⟩
  intro hnodup _
  exact hnodup.sublist (List.filter_sublist.map _)

/-! ## What a step can do -/

theorem run?_some {runId : ℕ} {r : Run Digest} (h : s.run? runId = some r) : r ∈ s.runs ∧ r.id = runId :=
  ⟨List.mem_of_find?_eq_some h, by simpa using List.find?_some h⟩

variable [DecidableEq Digest]

/-- The next stage of a run that writes no vectors. -/
inductive Moves (sha256 : Str → Digest) (service : Service) (s : St Digest Vector) (r : Run Digest) :
    Stage Digest → Prop
  | read : r.stage = .started → Moves sha256 service s r (s.readChunks sha256 r)
  | check (w : Work Digest) : r.stage = .ready w → Moves sha256 service s r (s.checkBatch service r w)
  | report (w : Work Digest) (current : Option Str) : r.stage = .written w current →
      Moves sha256 service s r (.ready w)

/-- What a run that has written a batch goes on with. -/
def AfterWrite (w : Work Digest) (n : ℕ) (stage : Stage Digest) : Prop :=
  let w := { w with embedded := w.embedded + n }
  (∃ current, stage = .written w current) ∨ stage = .ready w

inductive Happens (sha256 : Str → Digest) (service : Service) (s : St Digest Vector) (a : Act Vector)
    (s' : St Digest Vector) : Prop
  | documents : Rewritten s s' → Happens sha256 service s a s'
  | others : SameRows s s' → s'.runs = s.runs → s'.returned = s.returned → Happens sha256 service s a s'
  | start (job : Option ℕ) (now : ℕ) (model : Str) (batchSize : ℕ) (scope : Scope) :
      a = .start job now model batchSize scope → s' = s.start job now model batchSize scope →
      Happens sha256 service s a s'
  | moves (r : Run Digest) (stage : Stage Digest) : s.run? r.id = some r → Moves sha256 service s r stage →
      SameRows s s' → s'.runs = (s.setStage r.id stage).runs → s'.returned = s.returned →
      Happens sha256 service s a s'
  | writes (r : Run Digest) (w : Work Digest) (batch : List (Item Digest)) (now : ℕ) (attempts : List (Attempt Vector))
      (vectors : List Vector) (stage : Stage Digest) :
      a = .answer r.id now attempts → s.run? r.id = some r → r.stage = .asking w batch →
      embed maxAttempts attempts = some (.ok vectors) → vectors.length = batch.length →
      AfterWrite w batch.length stage →
      s' = { s with chunks := (batch.zip vectors).foldl (St.setVector r.model) s.chunks }.setStage r.id stage →
      Happens sha256 service s a s'
  | finishes (r : Run Digest) (chunks : List ℕ) (result : EmbedResult) : s.run? r.id = some r →
      r.stage = .finished chunks result → SameRows s s' → s'.runs = (s.dropRun r.id).runs →
      s'.returned = (chunks, result) :: s.returned → Happens sha256 service s a s'
  | drops (runId : ℕ) : SameRows s s' → s'.runs = (s.dropRun runId).runs → s'.returned = s.returned →
      Happens sha256 service s a s'

/-- **Step inversion.** -/
theorem next_happens (hn : next sha256 service s a = some s') : Happens sha256 service s a s' := by
  cases a with
  | putDocument collectionId sourceKey drafts =>
    cases hn
    exact .documents putDocument_rewritten
  | deleteDocument documentId =>
    cases hn
    exact .documents deleteDocuments_rewritten
  | deleteCollection collectionId =>
    cases hn
    exact .documents deleteCollection_rewritten
  | createJob collectionId =>
    cases hn
    exact .others ⟨Nat.le_succ _, rfl, rfl⟩ rfl rfl
  | retry jobId =>
    obtain ⟨original, -, rfl⟩ := Option.map_eq_some_iff.1 hn
    exact .others ⟨Nat.le_succ _, rfl, rfl⟩ rfl rfl
  | sweep now =>
    cases hn
    exact .others ⟨Nat.le_refl _, rfl, rfl⟩ rfl rfl
  | start job now model batchSize scope =>
    cases hn
    exact .start job now model batchSize scope rfl rfl
  | read runId =>
    simp only [next] at hn
    split at hn
    · rename_i r hfind
      obtain ⟨-, rfl⟩ := run?_some hfind
      split at hn
      · rename_i hstage
        cases hn
        exact .moves r _ hfind (.read hstage) ⟨Nat.le_refl _, rfl, rfl⟩ rfl rfl
      · cases hn
    · cases hn
  | check runId =>
    simp only [next] at hn
    split at hn
    · rename_i r hfind
      obtain ⟨-, rfl⟩ := run?_some hfind
      split at hn
      · rename_i w hstage
        split at hn
        · cases hn
        · cases hn
          exact .moves r _ hfind (.check w hstage) ⟨Nat.le_refl _, rfl, rfl⟩ rfl rfl
      · cases hn
    · cases hn
  | answer runId now attempts =>
    simp only [next] at hn
    split at hn
    · rename_i r hfind
      obtain ⟨-, rfl⟩ := run?_some hfind
      split at hn
      · rename_i w batch hstage
        obtain ⟨outcome, hembed, rfl⟩ := Option.map_eq_some_iff.1 hn
        cases outcome with
        | error message => exact .drops r.id ⟨Nat.le_refl _, rfl, rfl⟩ rfl rfl
        | ok vectors =>
          dsimp only
          unfold St.writeBatch
          split
          · exact .drops r.id ⟨Nat.le_refl _, rfl, rfl⟩ rfl rfl
          · rename_i hlength
            refine .writes r w batch now attempts vectors _ rfl hfind hstage hembed (not_not.1 hlength) ?_ rfl
            split
            · exact .inl ⟨_, rfl⟩
            · exact .inr rfl
      · cases hn
    · cases hn
  | report runId =>
    simp only [next] at hn
    split at hn
    · rename_i r hfind
      obtain ⟨-, rfl⟩ := run?_some hfind
      split at hn
      · rename_i w current hstage
        cases hn
        exact .moves r _ hfind (.report w current hstage) ⟨Nat.le_refl _, rfl, rfl⟩ rfl rfl
      · cases hn
    · cases hn
  | finish runId now =>
    simp only [next] at hn
    split at hn
    · rename_i r hfind
      obtain ⟨-, rfl⟩ := run?_some hfind
      split at hn
      · rename_i chunks result hstage
        cases hn
        exact .finishes r chunks result hfind hstage ⟨Nat.le_refl _, rfl, rfl⟩ rfl rfl
      · cases hn
    · cases hn
  | fail runId now message =>
    obtain ⟨r, -, rfl⟩ := Option.map_eq_some_iff.1 hn
    exact .drops r.id ⟨Nat.le_refl _, rfl, rfl⟩ rfl rfl
  | die runId =>
    cases hn
    exact .drops runId ⟨Nat.le_refl _, rfl, rfl⟩ rfl rfl

/-! ## Items -/

/-- What a run still has to embed. -/
def Stage.items : Stage Digest → List (Item Digest)
  | .ready w | .written w _ => w.todo
  | .asking w batch => batch ++ w.todo
  | .started | .finished _ _ => []

/-- The item was made from the chunk. -/
def Item.Of (sha256 : Str → Digest) (i : Item Digest) (c : Chunk Digest Vector) : Prop :=
  i.text = chunkText c ∧ i.hash = sha256 c.content

omit [DecidableEq Digest] in
theorem Wrote.of_iff {model : Str} {pairs : List (Item Digest × Vector)} {c₀ c : Chunk Digest Vector} {i : Item Digest}
    (h : Wrote model pairs c₀ c) : i.Of sha256 c ↔ i.Of sha256 c₀ := by
  obtain ⟨rfl, -⟩ | ⟨x, -, -, rfl⟩ := h
  · rfl
  · rfl

/-- Ids are unique, and items were made from the chunks they name. -/
structure Well (sha256 : Str → Digest) (s : St Digest Vector) : Prop where
  chunkIds : ∀ c ∈ s.chunks, c.id < s.nextId
  chunks : (s.chunks.map (·.id)).Nodup
  runIds : ∀ r ∈ s.runs, r.id < s.nextId
  runs : (s.runs.map (·.id)).Nodup
  below : ∀ r ∈ s.runs, ∀ i ∈ r.stage.items, i.chunkId < s.nextId
  items : ∀ r ∈ s.runs, ∀ i ∈ r.stage.items, ∀ c ∈ s.chunks, c.id = i.chunkId → i.Of sha256 c

omit [DecidableEq Digest] in
theorem Init.well (h : Init s) : Well sha256 s where
  chunkIds c hc := by
    rw [h.chunks] at hc
    cases hc
  chunks := by
    rw [h.chunks]
    exact List.nodup_nil
  runIds r hr := by
    rw [h.runs] at hr
    cases hr
  runs := by
    rw [h.runs]
    exact List.nodup_nil
  below r hr := by
    rw [h.runs] at hr
    cases hr
  items r hr := by
    rw [h.runs] at hr
    cases hr

theorem eq_of_id {β : Type} {f : β → ℕ} {xs : List β} (h : (xs.map f).Nodup) {x y : β} (hx : x ∈ xs) (hy : y ∈ xs)
    (hid : f x = f y) : x = y :=
  List.inj_on_of_nodup_map h hx hy hid

omit [DecidableEq Digest] in
/-- A run after a stage is set is the one that moves, or another as it was. -/
theorem Well.mem_setStage (h : Well sha256 s) {r r' : Run Digest} {stage : Stage Digest} (hfind : s.run? r.id = some r)
    (hr' : r' ∈ (s.setStage r.id stage).runs) : r' = { r with stage := stage } ∨ r' ∈ s.runs := by
  obtain ⟨r₀, hr₀, rfl⟩ := List.mem_map.1 hr'
  by_cases hid : r₀.id = r.id
  · rw [if_pos hid]
    obtain rfl := eq_of_id h.runs hr₀ (run?_some hfind).1 hid
    exact .inl rfl
  · rw [if_neg hid]
    exact .inr hr₀

omit [DecidableEq Digest] in
theorem setStage_ids {runId : ℕ} {stage : Stage Digest} :
    ((s.setStage runId stage).runs.map (·.id)) = s.runs.map (·.id) := by
  unfold St.setStage
  rw [List.map_map]
  refine List.map_congr_left fun r _ => ?_
  show (if r.id = runId then { r with stage := stage } else r).id = r.id
  split <;> rfl

/-- Where the chunks of the next state come from: `keep` is what a write keeps of
a chunk. -/
theorem Happens.chunks (h : Happens sha256 service s a s') {c : Chunk Digest Vector} (hc : c ∈ s'.chunks) :
    c ∈ s.chunks ∨ (c.embedding = none ∧ s.nextId ≤ c.id ∧ c.id < s'.nextId) ∨
      ∃ (r : Run Digest) (w : Work Digest) (batch : List (Item Digest)) (now : ℕ) (attempts : List (Attempt Vector))
        (vectors : List Vector), a = .answer r.id now attempts ∧ s.run? r.id = some r ∧ r.stage = .asking w batch ∧
        embed maxAttempts attempts = some (.ok vectors) ∧ vectors.length = batch.length ∧
        ∃ c₀ ∈ s.chunks, Wrote r.model (batch.zip vectors) c₀ c := by
  cases h with
  | documents hrewritten => exact (hrewritten.chunks c hc).imp_right .inl
  | others hsame => exact .inl (hsame.chunks ▸ hc)
  | start job now model batchSize scope _ hs' =>
    subst hs'
    exact .inl hc
  | moves r stage _ _ hsame => exact .inl (hsame.chunks ▸ hc)
  | writes r w batch now attempts vectors stage ha hfind hstage hembed hlength _ hs' =>
    subst hs'
    exact .inr (.inr ⟨r, w, batch, now, attempts, vectors, ha, hfind, hstage, hembed, hlength, mem_foldl_setVector hc⟩)
  | finishes r chunks result _ _ hsame => exact .inl (hsame.chunks ▸ hc)
  | drops runId hsame => exact .inl (hsame.chunks ▸ hc)

/-- A chunk is as old as what it was made from, or new. -/
theorem Happens.origin (h : Happens sha256 service s a s') {c : Chunk Digest Vector} (hc : c ∈ s'.chunks) :
    (∃ c₀ ∈ s.chunks, c₀.id = c.id ∧ ∀ i : Item Digest, i.Of sha256 c ↔ i.Of sha256 c₀) ∨ s.nextId ≤ c.id := by
  obtain hold | ⟨-, hle, -⟩ | ⟨r, w, batch, now, attempts, vectors, -, -, -, -, -, c₀, hc₀, hwrote⟩ := h.chunks hc
  · exact .inl ⟨c, hold, rfl, fun _ => Iff.rfl⟩
  · exact .inr hle
  · exact .inl ⟨c₀, hc₀, hwrote.id_eq.symm, fun _ => hwrote.of_iff⟩

theorem Happens.nextId (h : Happens sha256 service s a s') : s.nextId ≤ s'.nextId := by
  cases h with
  | documents hrewritten => exact hrewritten.nextId
  | others hsame => exact hsame.nextId
  | start job now model batchSize scope _ hs' =>
    subst hs'
    exact Nat.le_succ _
  | moves r stage _ _ hsame => exact hsame.nextId
  | writes r w batch now attempts vectors stage _ _ _ _ _ _ hs' =>
    subst hs'
    exact Nat.le_refl _
  | finishes r chunks result _ _ hsame => exact hsame.nextId
  | drops runId hsame => exact hsame.nextId

theorem Happens.nodup (h : Happens sha256 service s a s') (hwell : Well sha256 s) : (s'.chunks.map (·.id)).Nodup := by
  cases h with
  | documents hrewritten => exact hrewritten.nodup hwell.chunks hwell.chunkIds
  | others hsame => exact hsame.chunks ▸ hwell.chunks
  | start job now model batchSize scope _ hs' =>
    subst hs'
    exact hwell.chunks
  | moves r stage _ _ hsame => exact hsame.chunks ▸ hwell.chunks
  | writes r w batch now attempts vectors stage _ _ _ _ _ _ hs' =>
    subst hs'
    show (List.map (fun c : Chunk Digest Vector => c.id) (List.foldl _ _ _)).Nodup
    rw [foldl_setVector_ids]
    exact hwell.chunks
  | finishes r chunks result _ _ hsame => exact hsame.chunks ▸ hwell.chunks
  | drops runId hsame => exact hsame.chunks ▸ hwell.chunks

/-- Where the runs of the next state come from. -/
theorem Happens.runs (h : Happens sha256 service s a s') (hwell : Well sha256 s) {r' : Run Digest} (hr' : r' ∈ s'.runs) :
    r' ∈ s.runs ∨
      (∃ job now model batchSize scope, a = .start job now model batchSize scope ∧ s.nextId < s'.nextId ∧
        r' = ⟨s.nextId, job, model, batchSize, scope, .started⟩) ∨
      (∃ r ∈ s.runs, ∃ stage, Moves sha256 service s r stage ∧ s'.chunks = s.chunks ∧ r' = { r with stage := stage }) ∨
      ∃ r ∈ s.runs, ∃ (w : Work Digest) (batch : List (Item Digest)) (vectors : List Vector) (stage : Stage Digest),
        r.stage = .asking w batch ∧ vectors.length = batch.length ∧ AfterWrite w batch.length stage ∧
        s'.chunks = (batch.zip vectors).foldl (St.setVector r.model) s.chunks ∧ r' = { r with stage := stage } := by
  cases h with
  | documents hrewritten => exact .inl (hrewritten.runs ▸ hr')
  | others _ hruns => exact .inl (hruns ▸ hr')
  | start job now model batchSize scope ha hs' =>
    subst hs'
    obtain rfl | hold := List.mem_cons.1 hr'
    · exact .inr (.inl ⟨job, now, model, batchSize, scope, ha, Nat.lt_succ_self _, rfl⟩)
    · exact .inl hold
  | moves r stage hfind hmoves hsame hruns =>
    rw [hruns] at hr'
    obtain rfl | hold := hwell.mem_setStage hfind hr'
    · exact .inr (.inr (.inl ⟨r, (run?_some hfind).1, stage, hmoves, hsame.chunks, rfl⟩))
    · exact .inl hold
  | writes r w batch now attempts vectors stage _ hfind hstage _ hlength hafter hs' =>
    subst hs'
    obtain rfl | hold := hwell.mem_setStage hfind hr'
    · exact .inr (.inr (.inr ⟨r, (run?_some hfind).1, w, batch, vectors, stage, hstage, hlength, hafter, rfl, rfl⟩))
    · exact .inl hold
  | finishes r chunks result _ _ _ hruns =>
    rw [hruns] at hr'
    exact .inl (List.mem_of_mem_filter hr')
  | drops runId _ hruns =>
    rw [hruns] at hr'
    exact .inl (List.mem_of_mem_filter hr')

theorem Happens.runNodup (h : Happens sha256 service s a s') (hwell : Well sha256 s) : (s'.runs.map (·.id)).Nodup := by
  cases h with
  | documents hrewritten => exact hrewritten.runs ▸ hwell.runs
  | others _ hruns => exact hruns ▸ hwell.runs
  | start job now model batchSize scope _ hs' =>
    subst hs'
    refine List.nodup_cons.2 ⟨fun hmem => ?_, hwell.runs⟩
    obtain ⟨r, hr, hid⟩ := List.mem_map.1 hmem
    exact Nat.ne_of_lt (hwell.runIds r hr) hid
  | moves r stage _ _ _ hruns =>
    rw [hruns, setStage_ids]
    exact hwell.runs
  | writes r w batch now attempts vectors stage _ _ _ _ _ _ hs' =>
    subst hs'
    rw [setStage_ids]
    exact hwell.runs
  | finishes r chunks result _ _ _ hruns =>
    rw [hruns]
    exact hwell.runs.sublist (List.filter_sublist.map _)
  | drops runId _ hruns =>
    rw [hruns]
    exact hwell.runs.sublist (List.filter_sublist.map _)

omit [DecidableEq Digest] in
theorem scopeChunks_sublist {scope : Scope} : (s.scopeChunks scope).Sublist s.chunks := by
  cases scope with
  | collection id => exact List.filter_sublist
  | orphaned => exact List.filter_sublist

/-- The batch that is asked for, of the items that a round takes. -/
def St.batchOf (s : St Digest Vector) (service : Service) (items : List (Item Digest)) : List (Item Digest) :=
  match service with
  | .mdRag => items.filter fun i => s.chunks.any (·.id = i.chunkId)
  | .repoDocs => items

omit [DecidableEq Digest] in
theorem batchOf_sublist {items : List (Item Digest)} : (s.batchOf service items).Sublist items := by
  cases service with
  | mdRag => exact List.filter_sublist
  | repoDocs => exact List.Sublist.refl _

omit [DecidableEq Digest] in
/-- A round asks for its batch and leaves the rest. -/
theorem checkBatch_cases (s : St Digest Vector) (service : Service) (r : Run Digest) (w : Work Digest) :
    (w.todo = [] ∧ s.checkBatch service r w = .finished w.chunks ⟨w.embedded, w.skipped, r.model⟩) ∨
      (s.checkBatch service r w).items = s.batchOf service (w.todo.take r.batchSize) ++ w.todo.drop r.batchSize ∧
      ∃ w', w' = { w with todo := w.todo.drop r.batchSize } ∧
        (s.checkBatch service r w = .ready w' ∨
          s.checkBatch service r w = .asking w' (s.batchOf service (w.todo.take r.batchSize))) := by
  have hdef : s.checkBatch service r w = if w.todo = [] then .finished w.chunks ⟨w.embedded, w.skipped, r.model⟩
      else if s.batchOf service (w.todo.take r.batchSize) = [] then .ready { w with todo := w.todo.drop r.batchSize }
      else .asking { w with todo := w.todo.drop r.batchSize } (s.batchOf service (w.todo.take r.batchSize)) := rfl
  by_cases htodo : w.todo = []
  · exact .inl ⟨htodo, by rw [hdef, if_pos htodo]⟩
  · rw [hdef, if_neg htodo]
    by_cases hbatch : s.batchOf service (w.todo.take r.batchSize) = []
    · rw [if_pos hbatch, hbatch]
      exact .inr ⟨rfl, _, rfl, .inl rfl⟩
    · rw [if_neg hbatch]
      exact .inr ⟨rfl, _, rfl, .inr rfl⟩

/-- A stage has the items of the one before, or was just read. -/
theorem Moves.items {r : Run Digest} {stage : Stage Digest} (h : Moves sha256 service s r stage) {i : Item Digest}
    (hi : i ∈ stage.items) : i ∈ r.stage.items ∨ ∃ c ∈ s.chunks, c.id = i.chunkId ∧ i.Of sha256 c := by
  cases h with
  | read hstage =>
    unfold St.readChunks at hi
    dsimp only at hi
    split at hi
    · cases hi
    · obtain ⟨c, hc, rfl⟩ := List.mem_map.1 hi
      exact .inr ⟨c, scopeChunks_sublist.subset (List.mem_of_mem_filter hc), rfl, rfl, rfl⟩
  | check w hstage =>
    rw [hstage]
    obtain ⟨-, hfinished⟩ | ⟨hitems, -⟩ := checkBatch_cases s service r w
    · rw [hfinished] at hi
      cases hi
    · rw [hitems] at hi
      obtain hbatch | hrest := List.mem_append.1 hi
      · exact .inl (List.mem_of_mem_take (batchOf_sublist.subset hbatch))
      · exact .inl (List.mem_of_mem_drop hrest)
  | report w current hstage =>
    rw [hstage]
    exact .inl hi

omit [DecidableEq Digest] in
theorem AfterWrite.items {w : Work Digest} {n : ℕ} {stage : Stage Digest} (h : AfterWrite w n stage) :
    stage.items = w.todo := by
  obtain ⟨current, rfl⟩ | rfl := h
  · rfl
  · rfl

/-- The items of the next state were made from the chunks they name. -/
theorem Happens.items (h : Happens sha256 service s a s') (hwell : Well sha256 s) {r : Run Digest} (hr : r ∈ s'.runs)
    {i : Item Digest} (hi : i ∈ r.stage.items) :
    i.chunkId < s.nextId ∧ ∀ c ∈ s.chunks, c.id = i.chunkId → i.Of sha256 c := by
  have hold : ∀ r₀ ∈ s.runs, i ∈ r₀.stage.items →
      i.chunkId < s.nextId ∧ ∀ c ∈ s.chunks, c.id = i.chunkId → i.Of sha256 c :=
    fun r₀ hr₀ hi₀ => ⟨hwell.below r₀ hr₀ i hi₀, hwell.items r₀ hr₀ i hi₀⟩
  obtain hr | ⟨job, now, model, batchSize, scope, -, -, rfl⟩ | ⟨r₀, hr₀, stage, hmoves, -, rfl⟩ |
    ⟨r₀, hr₀, w, batch, vectors, stage, hstage, -, hafter, -, rfl⟩ := h.runs hwell hr
  · exact hold r hr hi
  · cases hi
  · obtain hi₀ | ⟨c, hc, hid, hof⟩ := hmoves.items hi
    · exact hold r₀ hr₀ hi₀
    · refine ⟨hid ▸ hwell.chunkIds c hc, fun c' hc' hid' => ?_⟩
      rw [eq_of_id hwell.chunks hc' hc (hid'.trans hid.symm)]
      exact hof
  · refine hold r₀ hr₀ ?_
    rw [hstage]
    exact List.mem_append_right batch (hafter.items ▸ hi)

/-- **Step lemma.** -/
theorem Well.next (hwell : Well sha256 s) (hn : next sha256 service s a = some s') : Well sha256 s' := by
  have h := next_happens hn
  refine ⟨fun c hc => ?_, h.nodup hwell, fun r hr => ?_, h.runNodup hwell, fun r hr i hi => ?_, ?_⟩
  · obtain hold | ⟨-, -, hlt⟩ | ⟨r, w, batch, now, attempts, vectors, -, -, -, -, -, c₀, hc₀, hwrote⟩ := h.chunks hc
    · exact Nat.lt_of_lt_of_le (hwell.chunkIds c hold) h.nextId
    · exact hlt
    · rw [hwrote.id_eq]
      exact Nat.lt_of_lt_of_le (hwell.chunkIds c₀ hc₀) h.nextId
  · obtain hr | ⟨job, now, model, batchSize, scope, -, hlt, rfl⟩ | ⟨r₀, hr₀, stage, -, -, rfl⟩ |
      ⟨r₀, hr₀, w, batch, vectors, stage, -, -, -, -, rfl⟩ := h.runs hwell hr
    · exact Nat.lt_of_lt_of_le (hwell.runIds r hr) h.nextId
    · exact hlt
    · exact Nat.lt_of_lt_of_le (hwell.runIds r₀ hr₀) h.nextId
    · exact Nat.lt_of_lt_of_le (hwell.runIds r₀ hr₀) h.nextId
  · exact Nat.lt_of_lt_of_le (h.items hwell hr hi).1 h.nextId
  · intro r hr i hi c hc hid
    obtain ⟨hlt, hof⟩ := h.items hwell hr hi
    obtain ⟨c₀, hc₀, hid₀, hiff⟩ | hnew := h.origin hc
    · exact (hiff i).2 (hof c₀ hc₀ (hid₀.trans hid))
    · omega

/-! ## The vectors that are stored -/

/-- The provider answers a batch with the vectors that the model of the run makes
of its texts. -/
def Answers (vec : Str → Str → Vector) (s : St Digest Vector) : Act Vector → Prop
  | .answer runId _ attempts =>
    ∀ r w batch, s.run? runId = some r → r.stage = .asking w batch →
      ∀ data, .response data ∈ attempts → Lists (batch.map fun i => vec r.model i.text) data
  | _ => True

/-- A vector is the one the model of its chunk makes of the text of the chunk. -/
def Faithful (sha256 : Str → Digest) (vec : Str → Str → Vector) (c : Chunk Digest Vector) : Prop :=
  ∀ v, c.embedding = some v → v = vec c.model (chunkText c) ∧ c.contentHash = some (sha256 c.content)

omit [DecidableEq Digest] in
/-- The vectors of a batch come with its items. -/
theorem zip_mem {vec : Str → Str → Vector} {model : Str} {batch : List (Item Digest)} {vectors : List Vector}
    {x : Item Digest × Vector} (hvectors : vectors = batch.map fun i => vec model i.text) (hx : x ∈ batch.zip vectors) :
    x.1 ∈ batch ∧ x.2 = vec model x.1.text := by
  subst hvectors
  induction batch with
  | nil => cases hx
  | cons i batch ih =>
    obtain rfl | hx := List.mem_cons.1 hx
    · exact ⟨List.mem_cons_self .., rfl⟩
    · exact ⟨List.mem_cons_of_mem _ (ih hx).1, (ih hx).2⟩

theorem faithful_next {vec : Str → Str → Vector} (hwell : Well sha256 s)
    (h : ∀ c ∈ s.chunks, Faithful sha256 vec c) (hok : Answers vec s a) (hn : next sha256 service s a = some s') :
    ∀ c ∈ s'.chunks, Faithful sha256 vec c := by
  intro c hc
  obtain hold | ⟨hnone, -, -⟩ | ⟨r, w, batch, now, attempts, vectors, rfl, hfind, hstage, hembed, -, c₀, hc₀, hwrote⟩ :=
    (next_happens hn).chunks hc
  · exact h c hold
  · intro v hv
    rw [hnone] at hv
    cases hv
  · obtain ⟨rfl, -⟩ | ⟨x, hx, hid, rfl⟩ := hwrote
    · exact h c hc₀
    · intro v hv
      obtain rfl : x.2 = v := Option.some.inj hv
      obtain ⟨data, hdata, hsorted⟩ := embed_ok hembed
      have hvectors := hsorted.trans (sort_lists (hok r w batch hfind hstage data hdata))
      obtain ⟨hmem, htrue⟩ := zip_mem hvectors hx
      have hitem : x.1 ∈ r.stage.items := by
        rw [hstage]
        exact List.mem_append_left _ hmem
      obtain ⟨htext, hhash⟩ := hwell.items r (run?_some hfind).1 x.1 hitem c₀ hc₀ hid.symm
      refine ⟨?_, congrArg some hhash⟩
      rw [htrue, htext]
      rfl

/-- **What is searched is what the model made of the text.** Whatever runs, their
deaths, sweeps and writers of documents do to each other, a chunk that has a
vector has the one that the model it names makes of its own text. -/
theorem vectors_true {vec : Str → Str → Vector} {as : List (Act Vector)} (hinit : Init s)
    (hok : ∀ t ∈ trace (next sha256 service) s as, Answers vec t.pre t.act)
    (hr : run (next sha256 service) s as = some s') :
    ∀ c ∈ s'.chunks, ∀ v, c.embedding = some v →
      v = vec c.model (chunkText c) ∧ c.contentHash = some (sha256 c.content) := by
  have hstart : Well sha256 s ∧ ∀ c ∈ s.chunks, Faithful sha256 vec c := by
    refine ⟨hinit.well, fun c hc => ?_⟩
    rw [hinit.chunks] at hc
    cases hc
  have hstep : ∀ s a s', (Well sha256 s ∧ ∀ c ∈ s.chunks, Faithful sha256 vec c) → Answers vec s a →
      next sha256 service s a = some s' → Well sha256 s' ∧ ∀ c ∈ s'.chunks, Faithful sha256 vec c :=
    fun s a s' h hok hn => ⟨h.1.next hn, faithful_next h.1 h.2 hok hn⟩
  exact (run_guarded (next sha256 service) hstep hstart hok hr).2

/-! ## What a run accounts for -/

/-- The chunks that the run has read. -/
def Stage.chunks : Stage Digest → List ℕ
  | .ready w | .written w _ | .asking w _ => w.chunks
  | .finished chunks _ => chunks
  | .started => []

/-- The chunks that it has embedded or skipped. -/
def Stage.counted : Stage Digest → ℕ
  | .ready w | .written w _ | .asking w _ => w.embedded + w.skipped
  | .finished _ result => result.embeddedNodes + result.skippedNodes
  | .started => 0

/-- The chunk has a vector of its present text, of one of the models. -/
def Fresh (sha256 : Str → Digest) (models : Str → Prop) (c : Chunk Digest Vector) : Prop :=
  ∃ model, models model ∧ stale sha256 model c = false

theorem fresh_written {models : Str → Prop} {model : Str} {c : Chunk Digest Vector} {i : Item Digest} {v : Vector}
    (hmodel : models model) (hof : i.Of sha256 c) :
    Fresh sha256 models { c with embedding := some v, model := model, contentHash := some i.hash } := by
  refine ⟨model, hmodel, ?_⟩
  have hhash := hof.2
  simp [stale, hhash]

/-- Of the chunks that a run has read, those that are left have a vector or are
among its items, and the others are counted. -/
structure Accounted (sha256 : Str → Digest) (service : Service) (models : Str → Prop) (s : St Digest Vector)
    (chunks items : List ℕ) (counted : ℕ) : Prop where
  below : ∀ id ∈ chunks, id < s.nextId
  among : items ⊆ chunks
  cover : ∀ c ∈ s.chunks, c.id ∈ chunks → Fresh sha256 models c ∨ c.id ∈ items
  balance : ∃ dropped, (dropped ++ items).Nodup ∧ dropped ⊆ chunks ∧ (∀ c ∈ s.chunks, c.id ∉ dropped) ∧
    (service = .repoDocs → dropped = []) ∧ counted + items.length + dropped.length = chunks.length

/-- The runs that are under way and those that have returned. -/
structure Covered (sha256 : Str → Digest) (service : Service) (models : Str → Prop) (s : St Digest Vector) :
    Prop where
  allowed : ∀ r ∈ s.runs, models r.model
  runs : ∀ r ∈ s.runs,
    Accounted sha256 service models s r.stage.chunks (r.stage.items.map (·.chunkId)) r.stage.counted
  returned : ∀ x ∈ s.returned, Accounted sha256 service models s x.1 [] (x.2.embeddedNodes + x.2.skippedNodes)

/-- What becomes of a chunk that is older than the step. -/
theorem Happens.fresh {models : Str → Prop} (h : Happens sha256 service s a s') (hwell : Well sha256 s)
    (hmodels : ∀ r ∈ s.runs, models r.model) {c : Chunk Digest Vector} (hc : c ∈ s'.chunks) (hlt : c.id < s.nextId) :
    ∃ c₀ ∈ s.chunks, c₀.id = c.id ∧ (Fresh sha256 models c₀ → Fresh sha256 models c) := by
  obtain hold | ⟨-, hle, -⟩ | ⟨r, w, batch, now, attempts, vectors, -, hfind, hstage, -, -, c₀, hc₀, hwrote⟩ := h.chunks hc
  · exact ⟨c, hold, rfl, id⟩
  · omega
  · refine ⟨c₀, hc₀, hwrote.id_eq.symm, fun hfresh => ?_⟩
    obtain ⟨rfl, -⟩ | ⟨x, hx, hid, rfl⟩ := hwrote
    · exact hfresh
    · have hitem : x.1 ∈ r.stage.items := by
        rw [hstage]
        exact List.mem_append_left _ (List.of_mem_zip hx).1
      have hr := (run?_some hfind).1
      exact fresh_written (hmodels r hr) (hwell.items r hr x.1 hitem c₀ hc₀ hid.symm)

/-- An account still holds one step later. -/
theorem Accounted.later {models : Str → Prop} {chunks items : List ℕ} {counted : ℕ}
    (hacc : Accounted sha256 service models s chunks items counted) (h : Happens sha256 service s a s')
    (hwell : Well sha256 s) (hmodels : ∀ r ∈ s.runs, models r.model) :
    Accounted sha256 service models s' chunks items counted := by
  obtain ⟨dropped, hnodup, hsub, hgone, hrepo, hsum⟩ := hacc.balance
  refine ⟨fun id hid => Nat.lt_of_lt_of_le (hacc.below id hid) h.nextId, hacc.among, fun c hc hid => ?_,
    dropped, hnodup, hsub, fun c hc hid => ?_, hrepo, hsum⟩
  · obtain ⟨c₀, hc₀, hid₀, himp⟩ := h.fresh hwell hmodels hc (hacc.below c.id hid)
    rw [← hid₀] at hid ⊢
    exact (hacc.cover c₀ hc₀ hid).imp_left himp
  · obtain ⟨c₀, hc₀, hid₀, -⟩ := h.fresh hwell hmodels hc (hacc.below c.id (hsub hid))
    exact hgone c₀ hc₀ (hid₀ ▸ hid)

/-- What a run reads is either fresh or an item. -/
theorem read_accounted {models : Str → Prop} {r : Run Digest} (hwell : Well sha256 s) (hmodel : models r.model) :
    Accounted sha256 service models s (s.readChunks sha256 r).chunks
      ((s.readChunks sha256 r).items.map (·.chunkId)) (s.readChunks sha256 r).counted := by
  let chunks := s.scopeChunks r.scope
  have hsub : chunks.Sublist s.chunks := scopeChunks_sublist
  have hread : (s.readChunks sha256 r).chunks = chunks.map (·.id) ∧
      (s.readChunks sha256 r).items.map (·.chunkId) = (chunks.filter (stale sha256 r.model)).map (·.id) ∧
      (s.readChunks sha256 r).counted = chunks.countP (!stale sha256 r.model ·) := by
    unfold St.readChunks
    dsimp only
    split
    · rename_i hempty
      rw [List.map_eq_nil_iff.1 hempty]
      exact ⟨rfl, rfl, Nat.zero_add _⟩
    · refine ⟨rfl, ?_, Nat.zero_add _⟩
      show List.map (fun i : Item Digest => i.chunkId) (List.map _ _) = _
      rw [List.map_map]
      rfl
  obtain ⟨hchunks, hitems, hcounted⟩ := hread
  rw [hchunks, hitems, hcounted]
  refine ⟨fun id hid => ?_, ?_, fun c hc hid => ?_, [], ?_, by simp, by simp, fun _ => rfl, ?_⟩
  · obtain ⟨c, hc, rfl⟩ := List.mem_map.1 hid
    exact hwell.chunkIds c (hsub.subset hc)
  · exact (List.filter_sublist.map _).subset
  · obtain ⟨c', hc', hid'⟩ := List.mem_map.1 hid
    obtain rfl := eq_of_id hwell.chunks (hsub.subset hc') hc hid'
    by_cases hstale : stale sha256 r.model c' = true
    · exact .inr (List.mem_map_of_mem (List.mem_filter.2 ⟨hc', hstale⟩))
    · exact .inl ⟨r.model, hmodel, Bool.eq_false_iff.2 hstale⟩
  · exact hwell.chunks.sublist ((List.filter_sublist.trans hsub).map _)
  · have hlength := List.length_eq_countP_add_countP (stale sha256 r.model) (l := chunks)
    simp only [List.length_map, ← List.countP_eq_length_filter, List.length_nil]
    have hnot : chunks.countP (!stale sha256 r.model ·) = chunks.countP (¬ stale sha256 r.model · = true) := by
      refine List.countP_congr fun c _ => ?_
      simp
    omega

omit [DecidableEq Digest] in
theorem any_id {c : Chunk Digest Vector} {i : Item Digest} (hc : c ∈ s.chunks) (hid : i.chunkId = c.id) :
    s.chunks.any (·.id = i.chunkId) = true :=
  List.any_eq_true.2 ⟨c, hc, by simp [hid]⟩

/-- Items that a round leaves out are gone, and counted as such. -/
theorem Accounted.batch {models : Str → Prop} {chunks : List ℕ} {items rest : List (Item Digest)} {counted : ℕ}
    (h : Accounted sha256 service models s chunks ((items ++ rest).map (·.chunkId)) counted) :
    Accounted sha256 service models s chunks ((s.batchOf service items ++ rest).map (·.chunkId)) counted := by
  cases service with
  | repoDocs => exact h
  | mdRag =>
    obtain ⟨dropped, hnodup, hsub, hgone, -, hsum⟩ := h.balance
    let there : Item Digest → Bool := fun i => s.chunks.any (·.id = i.chunkId)
    let kept := (items.filter there).map (·.chunkId)
    let left := (items.filter (!there ·)).map (·.chunkId)
    have hperm : (kept ++ left).Perm (items.map (·.chunkId)) := by
      have hfilter := (List.filter_append_perm there items).map (·.chunkId)
      rwa [List.map_append] at hfilter
    have hsame : (s.batchOf .mdRag items ++ rest).map (·.chunkId) = kept ++ rest.map (·.chunkId) := by
      rw [List.map_append]
      rfl
    have hall : ((dropped ++ left) ++ (kept ++ rest.map (·.chunkId))).Perm
        (dropped ++ (items ++ rest).map (·.chunkId)) := by
      rw [List.append_assoc, List.map_append, ← List.append_assoc left]
      exact ((List.perm_append_comm.trans hperm).append_right _).append_left dropped
    have hmem : ∀ i ∈ items, i.chunkId ∈ chunks :=
      fun i hi => h.among (List.mem_map_of_mem (List.mem_append_left _ hi))
    rw [hsame]
    refine ⟨h.below, fun id hid => ?_, fun c hc hid => ?_, dropped ++ left, hall.nodup_iff.2 hnodup, fun id hid => ?_,
      fun c hc hid => ?_, nofun, ?_⟩
    · obtain hkept | hrest := List.mem_append.1 hid
      · obtain ⟨i, hi, rfl⟩ := List.mem_map.1 hkept
        exact hmem i (List.mem_of_mem_filter hi)
      · exact h.among (by rw [List.map_append]; exact List.mem_append_right _ hrest)
    · refine (h.cover c hc hid).imp_right fun hitem => ?_
      rw [List.map_append] at hitem
      obtain hitem | hrest := List.mem_append.1 hitem
      · obtain ⟨i, hi, hic⟩ := List.mem_map.1 hitem
        refine List.mem_append_left _ (List.mem_map.2 ⟨i, List.mem_filter.2 ⟨hi, any_id hc hic⟩, hic⟩)
      · exact List.mem_append_right _ hrest
    · obtain hdropped | hleft := List.mem_append.1 hid
      · exact hsub hdropped
      · obtain ⟨i, hi, rfl⟩ := List.mem_map.1 hleft
        exact hmem i (List.mem_of_mem_filter hi)
    · obtain hdropped | hleft := List.mem_append.1 hid
      · exact hgone c hc hdropped
      · obtain ⟨i, hi, hic⟩ := List.mem_map.1 hleft
        have hnot := (List.mem_filter.1 hi).2
        rw [show there i = true from any_id hc hic] at hnot
        cases hnot
    · have hlength := hperm.length_eq
      simp only [List.length_append, List.length_map] at hlength hsum ⊢
      omega

/-- A batch that is written is counted. -/
theorem Accounted.embedded {models : Str → Prop} {chunks : List ℕ} {batch rest : List (Item Digest)} {counted : ℕ}
    (h : Accounted sha256 service models s chunks ((batch ++ rest).map (·.chunkId)) counted)
    (hfresh : ∀ c ∈ s.chunks, c.id ∈ batch.map (·.chunkId) → Fresh sha256 models c) :
    Accounted sha256 service models s chunks (rest.map (·.chunkId)) (counted + batch.length) := by
  rw [List.map_append] at h
  obtain ⟨dropped, hnodup, hsub, hgone, hrepo, hsum⟩ := h.balance
  refine ⟨h.below, fun id hid => h.among (List.mem_append_right _ hid), fun c hc hid => ?_, dropped, ?_, hsub, hgone,
    hrepo, ?_⟩
  · obtain hdone | hitem := h.cover c hc hid
    · exact .inl hdone
    · obtain hbatch | hrest := List.mem_append.1 hitem
      · exact .inl (hfresh c hc hbatch)
      · exact .inr hrest
  · exact hnodup.sublist ((List.sublist_append_right _ _).append_left dropped)
  · simp only [List.length_append, List.length_map] at hsum ⊢
    omega

/-- After a write every chunk of the batch has its vector. -/
theorem fresh_batch {models : Str → Prop} {r : Run Digest} {batch : List (Item Digest)} {vectors : List Vector}
    (hmodel : models r.model) (hof : ∀ i ∈ batch, ∀ c ∈ s.chunks, c.id = i.chunkId → i.Of sha256 c)
    (hlength : vectors.length = batch.length) {c : Chunk Digest Vector}
    (hc : c ∈ (batch.zip vectors).foldl (St.setVector r.model) s.chunks) (hid : c.id ∈ batch.map (·.chunkId)) :
    Fresh sha256 models c := by
  obtain ⟨c₀, hc₀, hwrote⟩ := mem_foldl_setVector hc
  rw [hwrote.id_eq] at hid
  obtain ⟨rfl, hother⟩ | ⟨x, hx, hchunk, rfl⟩ := hwrote
  · obtain ⟨i, hi, hic⟩ := List.mem_map.1 hid
    have hfst : (batch.zip vectors).map Prod.fst = batch := List.map_fst_zip (Nat.le_of_eq hlength.symm)
    rw [← hfst] at hi
    obtain ⟨x, hx, rfl⟩ := List.mem_map.1 hi
    exact absurd hic (hother x hx)
  · exact fresh_written hmodel (hof x.1 (List.of_mem_zip hx).1 c₀ hc₀ hchunk.symm)

/-- Where what the next state has returned comes from. -/
theorem Happens.returned (h : Happens sha256 service s a s') {x : List ℕ × EmbedResult} (hx : x ∈ s'.returned) :
    x ∈ s.returned ∨ ∃ r ∈ s.runs, r.stage = .finished x.1 x.2 := by
  cases h with
  | documents hrewritten => exact .inl (hrewritten.returned ▸ hx)
  | others _ _ hreturned => exact .inl (hreturned ▸ hx)
  | start job now model batchSize scope _ hs' =>
    subst hs'
    exact .inl hx
  | moves r stage _ _ _ _ hreturned => exact .inl (hreturned ▸ hx)
  | writes r w batch now attempts vectors stage _ _ _ _ _ _ hs' =>
    subst hs'
    exact .inl hx
  | finishes r chunks result hfind hstage _ _ hreturned =>
    rw [hreturned] at hx
    obtain rfl | hold := List.mem_cons.1 hx
    · exact .inr ⟨r, (run?_some hfind).1, hstage⟩
    · exact .inl hold
  | drops runId _ _ hreturned => exact .inl (hreturned ▸ hx)

/-- A stage that follows keeps the account of the run. -/
theorem Moves.accounted {models : Str → Prop} {r : Run Digest} {stage : Stage Digest} (hwell : Well sha256 s)
    (hmodel : models r.model) (h : Moves sha256 service s r stage)
    (hacc : Accounted sha256 service models s r.stage.chunks (r.stage.items.map (·.chunkId)) r.stage.counted) :
    Accounted sha256 service models s stage.chunks (stage.items.map (·.chunkId)) stage.counted := by
  cases h with
  | read hstage => exact read_accounted hwell hmodel
  | check w hstage =>
    rw [hstage] at hacc
    obtain ⟨htodo, hfinished⟩ | ⟨hitems, w', rfl, hnext⟩ := checkBatch_cases s service r w
    · rw [hfinished]
      have hitems : (Stage.ready w).items = [] := htodo
      rw [hitems] at hacc
      exact hacc
    · have hsplit : (Stage.ready w).items = w.todo.take r.batchSize ++ w.todo.drop r.batchSize :=
        (List.take_append_drop r.batchSize w.todo).symm
      rw [hsplit] at hacc
      have hbatch := hacc.batch
      rw [hitems]
      obtain heq | heq := hnext
      · rw [heq]
        exact hbatch
      · rw [heq]
        exact hbatch
  | report w current hstage =>
    rw [hstage] at hacc
    exact hacc

/-- Every run is started under one of the models. -/
def StartsIn (models : Str → Prop) : Act Vector → Prop
  | .start _ _ model _ _ => models model
  | _ => True

theorem Init.covered {models : Str → Prop} (h : Init s) : Covered sha256 service models s where
  allowed r hr := by
    rw [h.runs] at hr
    cases hr
  runs r hr := by
    rw [h.runs] at hr
    cases hr
  returned x hx := by
    rw [h.returned] at hx
    cases hx

/-- **Step lemma.** -/
theorem Covered.next {models : Str → Prop} (hcov : Covered sha256 service models s) (hwell : Well sha256 s)
    (hok : StartsIn models a) (hn : next sha256 service s a = some s') : Covered sha256 service models s' := by
  have h := next_happens hn
  refine ⟨fun r hr => ?_, fun r hr => ?_, fun x hx => ?_⟩
  · obtain hr | ⟨job, now, model, batchSize, scope, rfl, -, rfl⟩ | ⟨r₀, hr₀, stage, -, -, rfl⟩ |
      ⟨r₀, hr₀, w, batch, vectors, stage, -, -, -, -, rfl⟩ := h.runs hwell hr
    · exact hcov.allowed r hr
    · exact hok
    · exact hcov.allowed r₀ hr₀
    · exact hcov.allowed r₀ hr₀
  · obtain hr | ⟨job, now, model, batchSize, scope, rfl, -, rfl⟩ | ⟨r₀, hr₀, stage, hmoves, -, rfl⟩ |
      ⟨r₀, hr₀, w, batch, vectors, stage, hstage, hlength, hafter, hchunks, rfl⟩ := h.runs hwell hr
    · exact (hcov.runs r hr).later h hwell hcov.allowed
    · exact ⟨nofun, fun _ => id, nofun, [], List.nodup_nil, nofun, fun _ _ => nofun, fun _ => rfl, rfl⟩
    · exact (hmoves.accounted hwell (hcov.allowed r₀ hr₀) (hcov.runs r₀ hr₀)).later h hwell hcov.allowed
    · have hacc := hcov.runs r₀ hr₀
      have hitems := hwell.items r₀ hr₀
      rw [hstage] at hacc hitems
      have hdone := (hacc.later h hwell hcov.allowed).embedded fun c hc hid => ?_
      · have hcounted : stage.counted = w.embedded + w.skipped + batch.length := by
          obtain ⟨current, rfl⟩ | rfl := hafter
          · show w.embedded + batch.length + w.skipped = _
            omega
          · show w.embedded + batch.length + w.skipped = _
            omega
        have hread : stage.chunks = w.chunks := by
          obtain ⟨current, rfl⟩ | rfl := hafter
          · rfl
          · rfl
        show Accounted sha256 service models s' stage.chunks (stage.items.map (·.chunkId)) stage.counted
        rw [hcounted, hread, hafter.items]
        exact hdone
      · rw [hchunks] at hc
        exact fresh_batch (hcov.allowed r₀ hr₀) (fun i hi => hitems i (List.mem_append_left _ hi)) hlength hc hid
  · obtain hold | ⟨r, hr, hstage⟩ := h.returned hx
    · exact (hcov.returned x hold).later h hwell hcov.allowed
    · have hacc := hcov.runs r hr
      rw [hstage] at hacc
      exact hacc.later h hwell hcov.allowed

/-- **A run that returns has covered what it read.** Of the chunks it had read,
each that is still there has a vector of its present text, made by a model that
some run was started under; and the counts it returns, with the chunks that were
gone before their turn, make up all it had read. -/
theorem runs_cover {models : Str → Prop} {as : List (Act Vector)} (hinit : Init s) (hok : ∀ a ∈ as, StartsIn models a)
    (hr : run (next sha256 service) s as = some s') {chunks : List ℕ} {result : EmbedResult}
    (hreturned : (chunks, result) ∈ s'.returned) :
    (∀ c ∈ s'.chunks, c.id ∈ chunks → ∃ model, models model ∧ stale sha256 model c = false) ∧
      ∃ dropped : List ℕ, dropped.Nodup ∧ dropped ⊆ chunks ∧ (∀ c ∈ s'.chunks, c.id ∉ dropped) ∧
        (service = .repoDocs → dropped = []) ∧
        result.embeddedNodes + result.skippedNodes + dropped.length = chunks.length := by
  have hstep : ∀ (s : St Digest Vector) a s', (Well sha256 s ∧ Covered sha256 service models s) → StartsIn models a →
      next sha256 service s a = some s' → Well sha256 s' ∧ Covered sha256 service models s' :=
    fun s a s' h hok hn => ⟨h.1.next hn, h.2.next h.1 hok hn⟩
  have hall : ∀ t ∈ trace (next sha256 service) s as, StartsIn models t.act := fun t ht => hok t.act (trace_act _ ht)
  have hcov := (run_guarded (next sha256 service) hstep ⟨hinit.well, hinit.covered⟩ hall hr).2
  have hacc := hcov.returned _ hreturned
  refine ⟨fun c hc hid => (hacc.cover c hc hid).resolve_right nofun, ?_⟩
  obtain ⟨dropped, hnodup, hsub, hgone, hrepo, hsum⟩ := hacc.balance
  rw [List.append_nil] at hnodup
  exact ⟨dropped, hnodup, hsub, hgone, hrepo, hsum⟩

end

namespace Sample

/-- A stand-in for a model: a text has its length and that of the name. -/
def vec (model text : Str) : ℕ := 100 * model.length + text.length

def digest (content : Str) : Str := content

def first : St Str ℕ := ⟨0, [], [], [], [], []⟩

/-- Two documents of a collection are embedded one after the other; the second is
deleted while the first is. -/
def acts : List (Act ℕ) := [
  .putDocument 7 "a".toList [⟨["A".toList], "x".toList⟩],
  .putDocument 7 "b".toList [⟨[], "yy".toList⟩],
  .createJob 7,
  .start (some 4) 10 "m".toList 1 (.collection 7),
  .read 5,
  .check 5,
  .answer 5 11 [.retryable, .response [(0, 103)]],
  .report 5,
  .deleteDocument 2,
  .check 5,
  .check 5,
  .finish 5 12]

def embedded : Chunk Str ℕ := ⟨1, 0, ["A".toList], "x".toList, some "x".toList, some 103, "m".toList⟩

def last : St Str ℕ :=
  let result : EmbedResult := ⟨1, 0, "m".toList⟩
  ⟨6, [⟨0, 7, "a".toList⟩], [embedded],
    [⟨4, 7, .success, ⟨some (1, 1), none, some result⟩, none, some 10, some 12⟩], [], [([1, 3], result)]⟩

theorem first_init : Init first := ⟨rfl, rfl, rfl, rfl⟩

theorem acts_run : run (next digest .mdRag) first acts = some last := by decide

/-- The state in which the run asks for its only batch. -/
def asked : St Str ℕ :=
  let todo : List (Item Str) := [⟨3, "yy".toList, "yy".toList⟩]
  let work : Work Str := ⟨[1, 3], [(1, "a".toList), (3, "b".toList)], todo, 2, 0, 0⟩
  ⟨6, [⟨0, 7, "a".toList⟩, ⟨2, 7, "b".toList⟩],
    [⟨1, 0, ["A".toList], "x".toList, some "x".toList, none, []⟩, ⟨3, 2, [], "yy".toList, some "yy".toList, none, []⟩],
    [⟨4, 7, .running, ⟨none, none, none⟩, none, some 10, none⟩],
    [⟨5, some 4, "m".toList, 1, .collection 7, .asking work [⟨1, "A\nx".toList, "x".toList⟩]⟩], []⟩

theorem acts_asked : run (next digest .mdRag) first (acts.take 6) = some asked := by decide

theorem asked_answers : Answers vec asked (.answer 5 11 [.retryable, .response [(0, 103)]]) := by
  intro r w batch hfind hstage data hdata
  cases hfind
  cases hstage
  obtain ⟨⟩ | ⟨-, ⟨⟩ | ⟨-, ⟨⟩⟩⟩ := hdata
  exact .refl _

/-- An action that brings no vectors. -/
def quiet : Act ℕ → Bool
  | .answer .. => false
  | _ => true

def model? : Act ℕ → Option Str
  | .start _ _ model _ _ => some model
  | _ => none

theorem quiet_answers {s : St Str ℕ} {a : Act ℕ} (h : quiet a = true) : Answers vec s a := by
  cases a with
  | answer => cases h
  | _ => trivial

theorem acts_answers : ∀ t ∈ trace (next digest .mdRag) first acts, Answers vec t.pre t.act := by
  intro t ht
  have hsplit : acts = acts.take 6 ++ acts.drop 6 := (List.take_append_drop 6 acts).symm
  rw [hsplit, trace_append _ acts_asked] at ht
  have hquiet : ∀ a ∈ acts.take 6 ++ acts.drop 7, quiet a = true := by decide
  obtain hbefore | hafter := List.mem_append.1 ht
  · exact quiet_answers (hquiet t.act (List.mem_append_left _ (trace_act _ hbefore)))
  · obtain ⟨s', -, rfl | hrest⟩ := mem_trace_cons _ hafter
    · exact asked_answers
    · exact quiet_answers (hquiet t.act (List.mem_append_right _ (trace_act _ hrest)))

end Sample

theorem vectors_true_sample :
    103 = Sample.vec "m".toList (chunkText Sample.embedded) ∧
      Sample.embedded.contentHash = some (Sample.digest "x".toList) := by
  have hmem : Sample.embedded ∈ Sample.last.chunks := List.mem_cons_self ..
  exact vectors_true Sample.first_init Sample.acts_answers Sample.acts_run Sample.embedded hmem 103 rfl

theorem runs_cover_sample :
    (∀ c ∈ Sample.last.chunks, c.id ∈ [1, 3] → ∃ model, model = "m".toList ∧ stale Sample.digest model c = false) ∧
      ∃ dropped : List ℕ, dropped.Nodup ∧ dropped ⊆ [1, 3] ∧ (∀ c ∈ Sample.last.chunks, c.id ∉ dropped) ∧
        (Service.mdRag = .repoDocs → dropped = []) ∧ 1 + 0 + dropped.length = 2 := by
  have hok : ∀ a ∈ Sample.acts, StartsIn (· = "m".toList) a := by
    intro a ha
    cases a with
    | start job now model batchSize scope =>
      have hmodels : ∀ m ∈ Sample.acts.filterMap Sample.model?, m = "m".toList := by decide
      exact hmodels model (List.mem_filterMap.2 ⟨_, ha, rfl⟩)
    | _ => trivial
  exact runs_cover Sample.first_init hok Sample.acts_run (List.mem_cons_self ..)

end Cograph.Embedding
