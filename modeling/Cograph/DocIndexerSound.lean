import Cograph.ByKey
import Cograph.Dict
import Cograph.DocIndexer
import Cograph.Machine

/-!
# The documents mirror the checkout

After a run every discovered file has its row, with its text, the chunks of
that text and the mentions its graph gives, in both stores. A second run relinks
every document and leaves all but the time of the mention rows.
-/

namespace Cograph.RepoDocs

variable {Digest : Type} (P : Py Digest)

/-! ## What a document holds -/

/-- The columns a draft fills. -/
def Chunk.draft (c : Chunk) : Nat × List Str × Str := (c.chunkIndex, c.headingPath, c.content)

def rowOf (kind : RepoDocumentKind) (x : RepoDocumentChunkDraft) : Nat × List Str × Str :=
  (x.chunkIndex, rowHeading kind x, x.content)

/-- A document keeps the hash and the chunks of its text. -/
structure Stored (d : Document Digest) : Prop where
  hashed : d.contentHash = P.sha256 d.content
  chunked : ∃ kind, classifyRepoDocument P d.filePath = some kind ∧
    d.chunks.map Chunk.draft = (chunk d.content).map (rowOf kind)

/-- The rows a run may start from. -/
structure Consistent (db : Db Digest) : Prop where
  paths : (db.documents.map (·.filePath)).Nodup
  stored : ∀ d ∈ db.documents, Stored P d

/-- Both stores of a chunk hold the nodes its text mentions now. -/
structure Linked (symbols : List Symbol) (document : Path) (c : Chunk) : Prop where
  resolved : c.mentions = mentionedNodes P symbols document c.content
  rows : ∀ i, i ∈ c.mentions ↔ i ∈ c.mentionRows.map (·.codeNodeId)
  once : (c.mentionRows.map (·.codeNodeId)).Nodup

/-- The rows are the files, with their texts, chunks and mentions. -/
structure Mirrors (prior : Db Digest) (files : List (Path × Str)) (db : Db Digest) : Prop where
  exact : ∀ p, p ∈ db.documents.map (·.filePath) ↔ p ∈ files.map (·.1)
  texts : ∀ d ∈ db.documents, ∀ text, (d.filePath, text) ∈ files → d.content = text ∨
    ∃ old ∈ prior.documents, old.filePath = d.filePath ∧ d.content = old.content ∧ P.sha256 old.content = P.sha256 text
  chunks : ∀ d ∈ db.documents, ∃ kind, classifyRepoDocument P d.filePath = some kind ∧
    d.chunks.map Chunk.draft = (chunk d.content).map (rowOf kind)
  mentions : ∀ d ∈ db.documents, ∀ c ∈ d.chunks, Linked P db.symbols d.filePath c

/-! ## Mentions -/

section
variable {now : Nat} {symbols : List Symbol} {document : Path}

theorem linked_link (c : Chunk) : Linked P symbols document (Chunk.link P now symbols document c) where
  resolved := rfl
  rows i := by simp [Chunk.link, Function.comp_def]
  once := by
    have hids : (Chunk.link P now symbols document c).mentionRows.map (·.codeNodeId) =
        (mentionedNodes P symbols document c.content).eraseDups := by
      simp [Chunk.link, Function.comp_def]
    rw [hids]
    exact Dict.eraseDups_nodup _

/-- A document whose chunks were all linked at `now`. -/
def Fresh (now : Nat) (symbols : List Symbol) (d : Document Digest) : Prop :=
  ∀ c ∈ d.chunks, Chunk.link P now symbols d.filePath c = c

theorem fresh_relink (d : Document Digest) : Fresh P now symbols (d.relink P now symbols) := by
  intro c hc
  obtain ⟨c, -, rfl⟩ := List.mem_map.mp hc
  rfl

end

/-! ## One file -/

/-- A document as a run leaves it, for a file with this text. -/
structure Settled (now : Nat) (prior : Db Digest) (text : Str) (d : Document Digest) : Prop where
  stored : Stored P d
  hash : d.contentHash = P.sha256 text
  content : d.content = text ∨
    ∃ old ∈ prior.documents, old.filePath = d.filePath ∧ d.content = old.content ∧ P.sha256 old.content = P.sha256 text
  fresh : Fresh P now prior.symbols d

section
variable {now : Nat} {prior : Db Digest} {text : Str} {d : Document Digest} {kind : RepoDocumentKind}

theorem relink_draft : (d.relink P now prior.symbols).chunks.map Chunk.draft = d.chunks.map Chunk.draft := by
  simp only [Document.relink, List.map_map]
  rfl

theorem settled_relink (hd : d ∈ prior.documents) (hs : Stored P d) (hhash : d.contentHash = P.sha256 text) :
    Settled P now prior text (d.relink P now prior.symbols) where
  stored := ⟨hs.hashed, by rw [relink_draft]; exact hs.chunked⟩
  hash := hhash
  content := Or.inr ⟨d, hd, rfl, rfl, hs.hashed ▸ hhash⟩
  fresh := fresh_relink P d

theorem build_draft {symbols : List Symbol} {p : Path} {nextId : Nat} (drafts : List RepoDocumentChunkDraft) :
    (buildChunks P now symbols p kind nextId drafts).map Chunk.draft = drafts.map (rowOf kind) := by
  rw [buildChunks, List.map_map]
  calc drafts.zipIdx.map (Chunk.draft ∘ fun x => Chunk.link P now symbols p
        ⟨nextId + x.2, x.1.chunkIndex, rowHeading kind x.1, x.1.content, [], []⟩)
      = drafts.zipIdx.map (rowOf kind ∘ Prod.fst) := rfl
    _ = drafts.map (rowOf kind) := by rw [← List.map_map, List.zipIdx_map_fst]

theorem settled_written (hkind : classifyRepoDocument P d.filePath = some kind) (nextId : Nat) :
    Settled P now prior text (d.written P now prior.symbols kind nextId text) where
  stored := ⟨rfl, kind, hkind, build_draft P (chunk text)⟩
  hash := rfl
  content := Or.inl rfl
  fresh := by
    intro c hc
    obtain ⟨x, -, rfl⟩ := List.mem_map.mp hc
    rfl

end

/-! ## The loop -/

theorem mem_setDocument {p : Path} {f : Document Digest → Document Digest} {ds : List (Document Digest)}
    {d : Document Digest} : d ∈ setDocument p f ds ↔
      (d ∈ ds ∧ d.filePath ≠ p) ∨ ∃ e ∈ ds, e.filePath = p ∧ d = f e := by
  simp only [setDocument, List.mem_map]
  constructor
  · rintro ⟨e, he, rfl⟩
    by_cases hp : e.filePath = p
    · rw [if_pos hp]
      exact Or.inr ⟨e, he, hp, rfl⟩
    · rw [if_neg hp]
      exact Or.inl ⟨he, hp⟩
  · rintro (⟨hd, hp⟩ | ⟨e, he, hp, rfl⟩)
    · exact ⟨d, hd, if_neg hp⟩
    · exact ⟨e, he, if_pos hp⟩

theorem setDocument_paths {p : Path} {f : Document Digest → Document Digest} (hf : ∀ d, (f d).filePath = d.filePath)
    (ds : List (Document Digest)) : (setDocument p f ds).map (·.filePath) = ds.map (·.filePath) := by
  rw [setDocument, List.map_map]
  apply List.map_congr_left
  intro d _
  by_cases hp : d.filePath = p <;> simp [hp, hf]

/-- The rows after the files `done` of a run that started from `prior`: those
files are settled, the others are as they were. -/
structure Walked (now : Nat) (prior : Db Digest) (files done : List (Path × Str)) (db : Db Digest) : Prop where
  symbols : db.symbols = prior.symbols
  paths : (db.documents.map (·.filePath)).Nodup
  among : ∀ d ∈ db.documents, d.filePath ∈ files.map (·.1)
  old : ∀ d ∈ db.documents, d.filePath ∉ done.map (·.1) → d ∈ prior.documents
  kept : ∀ d ∈ prior.documents, d.filePath ∈ files.map (·.1) → d.filePath ∉ done.map (·.1) → d ∈ db.documents
  there : ∀ p ∈ done.map (·.1), p ∈ db.documents.map (·.filePath)
  settled : ∀ f ∈ done, ∀ d ∈ db.documents, d.filePath = f.1 → Settled P now prior f.2 d

section
variable {now : Nat} {prior db : Db Digest} {files done : List (Path × Str)} {f : Path × Str}

theorem Walked.settle (hw : Walked P now prior files done db) (hf : f.1 ∈ files.map (·.1)) (hnew : f.1 ∉ done.map (·.1))
    {ds : List (Document Digest)} (hds : (ds.map (·.filePath)).Nodup) (hhas : f.1 ∈ ds.map (·.filePath))
    (hsame : ∀ d, d.filePath ≠ f.1 → (d ∈ ds ↔ d ∈ db.documents)) (g : Document Digest → Document Digest)
    (hg : ∀ d, (g d).filePath = d.filePath) (hsettled : ∀ d ∈ ds, d.filePath = f.1 → Settled P now prior f.2 (g d))
    {nextDocumentId nextChunkId : Nat} :
    Walked P now prior files (done ++ [f]) ⟨setDocument f.1 g ds, db.symbols, nextDocumentId, nextChunkId⟩ := by
  have hdone : ∀ {p : Path}, p ∈ (done ++ [f]).map (·.1) ↔ p ∈ done.map (·.1) ∨ p = f.1 := by simp
  refine ⟨hw.symbols, ?_, ?_, ?_, ?_, ?_, ?_⟩
  · rw [setDocument_paths hg]
    exact hds
  · intro d hd
    rcases mem_setDocument.mp hd with ⟨hd, hp⟩ | ⟨e, -, hp, rfl⟩
    · exact hw.among d ((hsame d hp).mp hd)
    · rw [hg, hp]
      exact hf
  · intro d hd hout
    rw [hdone, not_or] at hout
    rcases mem_setDocument.mp hd with ⟨hd, hp⟩ | ⟨e, -, hp, rfl⟩
    · exact hw.old d ((hsame d hp).mp hd) hout.1
    · rw [hg, hp] at hout
      exact absurd rfl hout.2
  · intro d hd hin hout
    rw [hdone, not_or] at hout
    exact mem_setDocument.mpr (Or.inl ⟨(hsame d hout.2).mpr (hw.kept d hd hin hout.1), hout.2⟩)
  · intro p hp
    rw [setDocument_paths hg]
    rcases hdone.mp hp with hp | rfl
    · have hne : p ≠ f.1 := fun he => hnew (he ▸ hp)
      obtain ⟨d, hd, rfl⟩ := List.mem_map.mp (hw.there p hp)
      exact List.mem_map_of_mem ((hsame d hne).mpr hd)
    · exact hhas
  · intro f' hf' d hd hp'
    rcases mem_setDocument.mp hd with ⟨hd, hp⟩ | ⟨e, he, hp, rfl⟩
    · rcases List.mem_append.mp hf' with hf' | hf'
      · exact hw.settled f' hf' d ((hsame d hp).mp hd) hp'
      · rw [List.mem_singleton.mp hf'] at hp'
        exact absurd hp' hp
    · rw [hg, hp] at hp'
      rcases List.mem_append.mp hf' with hf' | hf'
      · exact absurd (hp' ▸ List.mem_map_of_mem hf') hnew
      · rw [List.mem_singleton.mp hf']
        exact hsettled e he hp

variable [DecidableEq Digest]

theorem walked_file (hprior : Consistent P prior) {w : Walk Digest} (hw : Walked P now prior files done w.db)
    (hf : f.1 ∈ files.map (·.1)) (hnew : f.1 ∉ done.map (·.1)) {kind : RepoDocumentKind}
    (hkind : classifyRepoDocument P f.1 = some kind) :
    Walked P now prior files (done ++ [f]) (indexFile P now prior.documents w f).db := by
  have hwritten : ∀ {i : Nat} {d : Document Digest}, d.filePath = f.1 →
      Settled P now prior f.2 (d.written P now w.db.symbols kind i f.2) := by
    intro i d hp
    rw [hw.symbols]
    exact settled_written P (hp ▸ hkind) i
  unfold indexFile
  simp only [hkind]
  cases hfind : prior.documents.find? (·.filePath = f.1) with
  | some d =>
    obtain ⟨hd, hp⟩ := ByKey.find_mem hfind
    have hhas : f.1 ∈ w.db.documents.map (·.filePath) :=
      hp ▸ List.mem_map_of_mem (hw.kept d hd (hp ▸ hf) (hp ▸ hnew))
    dsimp only
    split
    · rename_i hhash
      apply hw.settle P hf hnew hw.paths hhas (fun _ _ => Iff.rfl) (Document.relink P now w.db.symbols) fun _ => rfl
      intro e he hpe
      have hold := hw.old e he (hpe ▸ hnew)
      have hsame : e = d := List.inj_on_of_nodup_map hprior.paths hold hd (hpe.trans hp.symm)
      rw [hw.symbols]
      exact settled_relink P hold (hprior.stored e hold) (hsame ▸ hhash)
    · exact hw.settle P hf hnew hw.paths hhas (fun _ _ => Iff.rfl) (Document.written P now w.db.symbols kind _ f.2)
        (fun _ => rfl) fun e _ hpe => hwritten hpe
  | none =>
    have hnone : f.1 ∉ w.db.documents.map (·.filePath) := by
      intro hmem
      obtain ⟨d, hd, hp⟩ := List.mem_map.mp hmem
      have := List.find?_eq_none.mp hfind d (hw.old d hd (hp ▸ hnew))
      simp [hp] at this
    dsimp only
    apply hw.settle P hf hnew _ _ _ (Document.written P now w.db.symbols kind _ f.2) (fun _ => rfl)
      fun e _ hpe => hwritten hpe
    · rw [List.map_append, List.map_singleton, ← List.concat_eq_append]
      exact hw.paths.concat hnone
    · simp [newDocument]
    · intro d hp
      rw [List.mem_append, List.mem_singleton]
      constructor
      · rintro (hd | rfl)
        · exact hd
        · exact absurd rfl hp
      · exact Or.inl

theorem walked_files (hprior : Consistent P prior) (hkinds : ∀ f ∈ files, (classifyRepoDocument P f.1).isSome)
    (hfiles : (files.map (·.1)).Nodup) : ∀ {todo done : List (Path × Str)} {w : Walk Digest}, done ++ todo = files →
      Walked P now prior files done w.db → Walked P now prior files files (todo.foldl (indexFile P now prior.documents) w).db
  | [], done, w, he, hw => by
    rw [List.append_nil] at he
    exact he ▸ hw
  | f :: todo, done, w, he, hw => by
    have hf : f ∈ files := he ▸ List.mem_append_right _ (List.mem_cons_self ..)
    have hnew : f.1 ∉ done.map (·.1) := by
      rw [← he, List.map_append, List.map_cons, List.nodup_append] at hfiles
      exact fun hmem => hfiles.2.2 _ hmem _ (List.mem_cons_self ..) rfl
    obtain ⟨kind, hkind⟩ := Option.isSome_iff_exists.mp (hkinds f hf)
    have hstep := walked_file P hprior hw (List.mem_map_of_mem hf) hnew hkind
    have hrest : (done ++ [f]) ++ todo = files := by simpa using he
    rw [List.foldl_cons]
    exact walked_files hprior hkinds hfiles hrest hstep

omit [DecidableEq Digest] in
theorem walked_start (hprior : Consistent P prior) : Walked P now prior files []
    { prior with documents := prior.documents.filter fun d => d.filePath ∈ files.map (·.1) } where
  symbols := rfl
  paths := hprior.paths.sublist (List.filter_sublist.map _)
  among d hd := by simpa using (List.mem_filter.mp hd).2
  old d hd _ := (List.mem_filter.mp hd).1
  kept d hd hin _ := List.mem_filter.mpr ⟨hd, by simpa using hin⟩
  there p hp := by simp at hp
  settled f hf := by simp at hf

/-! ## A second run -/

/-- The rows with every mention row written at `now`. -/
def Db.restamped (now : Nat) (db : Db Digest) : Db Digest :=
  let stamp := fun c : Chunk => { c with mentionRows := c.mentionRows.map fun m => ⟨m.codeNodeId, now⟩ }
  { db with documents := db.documents.map fun d => { d with chunks := d.chunks.map stamp } }

omit [DecidableEq Digest] in
theorem relink_fresh {symbols : List Symbol} {later : Nat} {d : Document Digest} (hd : Fresh P now symbols d) :
    d.relink P later symbols = { d with chunks := d.chunks.map fun c =>
      { c with mentionRows := c.mentionRows.map fun m => ⟨m.codeNodeId, later⟩ } } := by
  unfold Document.relink
  congr 1
  apply List.map_congr_left
  intro c hc
  have hlink := hd c hc
  have hmentions : c.mentions = mentionedNodes P symbols d.filePath c.content := by rw [← hlink]; rfl
  have hrows : c.mentionRows = (mentionedNodes P symbols d.filePath c.content).eraseDups.map fun i => ⟨i, now⟩ := by
    conv_lhs => rw [← hlink]
    rfl
  simp [Chunk.link, hmentions, hrows, Function.comp_def]

theorem unchanged_files {existing : List (Document Digest)} {todo : List (Path × Str)}
    (hunchanged : ∀ f ∈ todo, (classifyRepoDocument P f.1).isSome ∧
      ∃ d, existing.find? (·.filePath = f.1) = some d ∧ d.contentHash = P.sha256 f.2)
    (hnodup : (todo.map (·.1)).Nodup) (w : Walk Digest) :
    todo.foldl (indexFile P now existing) w =
      { w with
        db := { w.db with documents := w.db.documents.map fun d =>
          if d.filePath ∈ todo.map (·.1) then d.relink P now w.db.symbols else d }
        unchangedDocuments := w.unchangedDocuments + todo.length } := by
  induction todo generalizing w with
  | nil => simp
  | cons f todo ih =>
    rw [List.map_cons, List.nodup_cons] at hnodup
    obtain ⟨hkind, d, hfind, hhash⟩ := hunchanged f (List.mem_cons_self ..)
    obtain ⟨kind, hkind⟩ := Option.isSome_iff_exists.mp hkind
    have hstep : indexFile P now existing w f =
        { w with
          db := { w.db with documents := setDocument f.1 (Document.relink P now w.db.symbols) w.db.documents }
          unchangedDocuments := w.unchangedDocuments + 1 } := by
      simp only [indexFile, hkind, hfind, hhash, if_true]
    rw [List.foldl_cons, hstep, ih (fun g hg => hunchanged g (List.mem_cons_of_mem _ hg)) hnodup.2]
    simp only [setDocument, List.map_map, List.length_cons, Walk.mk.injEq, Db.mk.injEq, and_true, true_and]
    refine ⟨?_, by omega⟩
    apply List.map_congr_left
    intro e _
    by_cases he : e.filePath = f.1
    · have hnot : f.1 ∉ todo.map (·.1) := hnodup.1
      simp [he, Document.relink, hnot]
    · simp only [Function.comp, he, if_false, List.map_cons, List.mem_cons, false_or]

omit [DecidableEq Digest] in
theorem discover_spec {C : Checkout} {excluded : List Str} : ((discover P C excluded).map (·.1)).Nodup ∧
    ∀ f ∈ discover P C excluded, (classifyRepoDocument P f.1).isSome := by
  constructor
  · have hperm : (discover P C excluded).Perm _ := List.perm_insertionSort _ _
    rw [(hperm.map _).nodup_iff]
    exact C.nodup.sublist (List.filter_sublist.map _)
  · intro f hf
    rw [discover, List.mem_insertionSort, List.mem_filter] at hf
    simp only [decide_eq_true_eq] at hf
    exact hf.2.2.2

theorem index_walked (hprior : Consistent P prior) (C : Checkout) (excluded : List Str) :
    Walked P now prior (discover P C excluded) (discover P C excluded) (indexCheckout P now prior C excluded).1 := by
  obtain ⟨hnodup, hkinds⟩ := @discover_spec _ P C excluded
  exact walked_files P hprior hkinds hnodup (List.nil_append _) (walked_start P hprior)

omit [DecidableEq Digest] in
theorem Walked.row (hw : Walked P now prior files files db) {d : Document Digest} (hd : d ∈ db.documents) :
    ∃ text, (d.filePath, text) ∈ files ∧ Settled P now prior text d := by
  obtain ⟨f, hf, hp⟩ := List.mem_map.mp (hw.among d hd)
  exact ⟨f.2, hp ▸ hf, hw.settled f hf d hd hp.symm⟩

theorem index_consistent (hprior : Consistent P prior) (C : Checkout) (excluded : List Str) :
    Consistent P (indexCheckout P now prior C excluded).1 := by
  have hw := @index_walked _ P now _ _ hprior C excluded
  refine ⟨hw.paths, ?_⟩
  intro d hd
  obtain ⟨text, -, hs⟩ := hw.row P hd
  exact hs.stored

/-- **The documents mirror the checkout.** After a run from any consistent rows
they are the discovered files, with their texts, chunks and mentions, and
consistent again; a second run reports that nothing was indexed or deleted and
rewrites the mention rows alone. -/
theorem index_mirrors (now : Nat) {db : Db Digest} (hdb : Consistent P db) (C : Checkout) (excluded : List Str) :
    Consistent P (indexCheckout P now db C excluded).1 ∧
      Mirrors P db (discover P C excluded) (indexCheckout P now db C excluded).1 ∧
      ∀ later, indexCheckout P later (indexCheckout P now db C excluded).1 C excluded =
        ((indexCheckout P now db C excluded).1.restamped later,
          ⟨(discover P C excluded).length, 0, 0, (discover P C excluded).length, 0, []⟩) := by
  obtain ⟨hnodup, hkinds⟩ := @discover_spec _ P C excluded
  have hw := @index_walked _ P now _ _ hdb C excluded
  refine ⟨index_consistent P hdb C excluded, ⟨?_, ?_, ?_, ?_⟩, ?_⟩
  · intro p
    constructor
    · intro hp
      obtain ⟨d, hd, rfl⟩ := List.mem_map.mp hp
      exact hw.among d hd
    · exact hw.there p
  · intro d hd text hf
    exact (hw.settled _ hf d hd rfl).content
  · intro d hd
    obtain ⟨text, -, hs⟩ := hw.row P hd
    exact hs.stored.chunked
  · intro d hd c hc
    obtain ⟨text, -, hs⟩ := hw.row P hd
    rw [hw.symbols, ← hs.fresh c hc]
    exact linked_link P c
  · generalize indexCheckout P now db C excluded = out at hw ⊢
    intro later
    have hleft : out.1.documents.filter (fun d => d.filePath ∈ (discover P C excluded).map (·.1)) = out.1.documents := by
      rw [List.filter_eq_self]
      intro d hd
      simpa using hw.among d hd
    have hgone : out.1.documents.filter (fun d => d.filePath ∉ (discover P C excluded).map (·.1)) = [] := by
      rw [List.filter_eq_nil_iff]
      intro d hd
      simpa using hw.among d hd
    have hunchanged : ∀ f ∈ discover P C excluded, (classifyRepoDocument P f.1).isSome ∧
        ∃ d, out.1.documents.find? (·.filePath = f.1) = some d ∧ d.contentHash = P.sha256 f.2 := by
      intro f hf
      obtain ⟨d, hd, hp⟩ := List.mem_map.mp (hw.there f.1 (List.mem_map_of_mem hf))
      exact ⟨hkinds f hf, d, (ByKey.find_iff hw.paths).2 ⟨hd, hp⟩, (hw.settled f hf d hd hp).hash⟩
    have hrelinked : (out.1.documents.map fun d =>
        if d.filePath ∈ (discover P C excluded).map (·.1) then d.relink P later out.1.symbols else d) =
          (out.1.restamped later).documents := by
      apply List.map_congr_left
      intro d hd
      obtain ⟨text, -, hs⟩ := hw.row P hd
      rw [if_pos (hw.among d hd), hw.symbols]
      exact relink_fresh P hs.fresh
    simp only [indexCheckout, indexFiles, hleft, hgone, unchanged_files P hunchanged hnodup, hrelinked]
    simp [Db.restamped]

end

/-! ## Histories -/

theorem consistent_setSymbols {db : Db Digest} (hdb : Consistent P db) (symbols : List Symbol) :
    Consistent P (db.setSymbols symbols) where
  paths := by
    simp only [Db.setSymbols, List.map_map]
    exact hdb.paths
  stored := by
    intro d hd
    obtain ⟨e, he, rfl⟩ := List.mem_map.mp hd
    obtain ⟨kind, hkind, hchunks⟩ := (hdb.stored e he).chunked
    refine ⟨(hdb.stored e he).hashed, kind, hkind, ?_⟩
    rw [← hchunks, List.map_map]
    rfl

/-- The graph changes, or a checkout is indexed. -/
inductive Event where
  | graph (symbols : List Symbol)
  | index (now : Nat) (C : Checkout) (excluded : List Str)

variable [DecidableEq Digest]

def next (db : Db Digest) : Event → Option (Db Digest)
  | .graph symbols => some (db.setSymbols symbols)
  | .index now C excluded => some (indexCheckout P now db C excluded).1

theorem history_consistent {es : List Event} {db db' : Db Digest} (hdb : Consistent P db)
    (hr : Machine.run (next P) db es = some db') : Consistent P db' := by
  have hstep : ∀ db e db', Consistent P db → True → next P db e = some db' → Consistent P db' := by
    intro db e db' hdb _ hn
    cases e with
    | graph symbols =>
      cases hn
      exact consistent_setSymbols P hdb symbols
    | index now C excluded =>
      cases hn
      exact index_consistent P hdb C excluded
  exact Machine.run_inv _ hstep hdb (fun _ _ => trivial) hr

/-! ## A small checkout -/

def asciiPy : Py Str := ⟨⟨List.map Char.toLower, Char.isAlphanum⟩, id⟩

def emptyDb (symbols : List Symbol) : Db Str := ⟨[], symbols, 0, 0⟩

theorem emptyDb_consistent (symbols : List Symbol) : Consistent asciiPy (emptyDb symbols) :=
  ⟨List.nodup_nil, fun _ hd => by cases hd⟩

/-- One document without a heading, which mentions `f`. -/
def readme : Checkout := ⟨[(⟨[], "README.md"⟩, "see f()".toList)], by decide⟩

def graphOfF : List Symbol := [⟨0, "f".toList, "m.f".toList, ⟨[], "m.py"⟩, 3, none⟩]

theorem readme_mirrored : Consistent asciiPy (emptyDb graphOfF) ∧
    Mirrors asciiPy (emptyDb graphOfF) (discover asciiPy readme []) (indexCheckout asciiPy 1 (emptyDb graphOfF) readme []).1 :=
  ⟨emptyDb_consistent graphOfF, (index_mirrors asciiPy 1 (emptyDb_consistent graphOfF) readme []).2.1⟩

/-- A chunk before the first heading is stored under the kind of its document,
not under the chunker's empty path; and a second run writes the mention row
again, at a later time. -/
theorem heading_filled_and_row_rewritten :
    (¬∀ (db : Db Str) (now : Nat) (C : Checkout) (excluded : List Str), Consistent asciiPy db →
      ∀ d ∈ (indexCheckout asciiPy now db C excluded).1.documents,
        d.chunks.map Chunk.draft = (chunk d.content).map fun x => (x.chunkIndex, x.headingPath, x.content)) ∧
    ¬∀ (db : Db Str) (now later : Nat) (C : Checkout) (excluded : List Str), Consistent asciiPy db →
      ∀ d ∈ (indexCheckout asciiPy later (indexCheckout asciiPy now db C excluded).1 C excluded).1.documents,
        ∃ e ∈ (indexCheckout asciiPy now db C excluded).1.documents, d.chunks = e.chunks := by
  constructor
  · intro h
    have := h (emptyDb graphOfF) 1 readme [] (emptyDb_consistent graphOfF)
    revert this
    decide +kernel
  · intro h
    have := h (emptyDb graphOfF) 1 2 readme [] (emptyDb_consistent graphOfF)
    revert this
    decide +kernel

end Cograph.RepoDocs
