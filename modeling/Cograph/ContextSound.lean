import Cograph.Context

/-!
# What the structural hash depends on

The structural hash leaves sizes and importance out of its payload, but the
file and document lists it hashes are cut by them first. Two states of one
shape hash alike exactly when their cuts keep the same files and the same
documents.
-/

namespace Cograph.Context

open Ranked

namespace RepoState

variable (s : RepoState)

/-- The paths of the code files with their languages. -/
def codeFiles : List (Str × Str) := (s.sourceFiles.filter (·.kind = .code)).map fun f => (f.filePath, f.language)

theorem entries_files : s.fileEntries.map (fun e => (e.filePath, e.language)) = s.codeFiles := by
  unfold fileEntries codeFiles
  rw [List.map_map]
  rfl

theorem entries_unique : (s.fileEntries.map (·.filePath)).Nodup := by
  unfold fileEntries
  rw [List.map_map]
  exact s.files_unique.sublist (List.filter_sublist.map _)

theorem fileKey_nodup : (s.fileEntries.map fileKey).Nodup := by
  have h := s.entries_unique
  have hpath : (s.fileEntries.map fileKey).map (fun k => (ofLex (ofLex k).2).2) = s.fileEntries.map (·.filePath) := by
    rw [List.map_map]
    rfl
  rw [← hpath] at h
  exact h.of_map

theorem docKey_nodup {κ : Type} [LinearOrder κ] (collate : Str ↪ κ) : (s.documents.map (docKey collate)).Nodup := by
  have h := s.documents_unique.map collate.injective
  have hpath : (s.documents.map (docKey collate)).map (fun k => (ofLex k).2) =
      (s.documents.map (·.filePath)).map collate := by
    rw [List.map_map, List.map_map]
    rfl
  rw [← hpath] at h
  exact h.of_map

end RepoState

/-- The states show the same code files, documents, manifests and README. -/
structure SameShape (s t : RepoState) : Prop where
  files : ∀ x, x ∈ s.codeFiles ↔ x ∈ t.codeFiles
  documents : ∀ x, x ∈ s.documents.map s.docEntry ↔ x ∈ t.documents.map t.docEntry
  manifests : project s.manifests = project t.manifests
  readme : s.readme = t.readme

/-- The cuts of the two states keep the same files and the same documents. -/
structure SameCut {κ : Type} [LinearOrder κ] (collate : Str ↪ κ) (caps : Caps) (s t : RepoState) : Prop where
  files : ∀ p, Kept fileKey (·.filePath) caps.fileTree s.fileEntries p ↔
    Kept fileKey (·.filePath) caps.fileTree t.fileEntries p
  documents : ∀ p, Kept (docKey collate) (·.filePath) caps.repoDoc s.documents p ↔
    Kept (docKey collate) (·.filePath) caps.repoDoc t.documents p

section
variable {κ δ : Type} [LinearOrder κ] (collate : Str ↪ κ) (sha256 : Str → δ) (caps : Caps) {s t : RepoState}

theorem files_same_iff (h : SameShape s t) (n : Nat) :
    sorted ((buildFileTree s n).map fun e => pair e.filePath e.language) =
        sorted ((buildFileTree t n).map fun e => pair e.filePath e.language) ↔
      ∀ p, Kept fileKey (·.filePath) n s.fileEntries p ↔ Kept fileKey (·.filePath) n t.fileEntries p := by
  have hname : ∀ u : RepoState, ((u.fileEntries.map fun e => pair e.filePath e.language).map
      fun v => (ofLex v).1).Nodup := by
    intro u
    rw [List.map_map]
    exact u.entries_unique
  have hview : ∀ u : RepoState, (u.fileEntries.map fun e => pair e.filePath e.language) = u.codeFiles.map toLex := by
    intro u
    rw [← u.entries_files, List.map_map]
    rfl
  have hsame : ∀ v, v ∈ (s.fileEntries.map fun e => pair e.filePath e.language) ↔
      v ∈ t.fileEntries.map fun e => pair e.filePath e.language := by
    intro v
    rw [hview, hview, List.mem_map, List.mem_map]
    exact exists_congr fun x => and_congr_left fun _ => h.files x
  exact cut_same_iff s.fileKey_nodup t.fileKey_nodup (hname s) (hname t) hsame n

theorem docs_same_iff (h : SameShape s t) (n : Nat) :
    sorted ((loadRepoDocIndex collate s n).map (·.view)) = sorted ((loadRepoDocIndex collate t n).map (·.view)) ↔
      ∀ p, Kept (docKey collate) (·.filePath) n s.documents p ↔
        Kept (docKey collate) (·.filePath) n t.documents p := by
  have hname : ∀ u : RepoState, ((u.documents.map fun d => (u.docEntry d).view).map fun v => (ofLex v).1).Nodup := by
    intro u
    rw [List.map_map]
    exact u.documents_unique
  have hsame : ∀ v, v ∈ (s.documents.map fun d => (s.docEntry d).view) ↔
      v ∈ t.documents.map fun d => (t.docEntry d).view := by
    intro v
    have hview : ∀ u : RepoState, (u.documents.map fun d => (u.docEntry d).view) =
        (u.documents.map u.docEntry).map (·.view) := by
      intro u
      rw [List.map_map]
      rfl
    rw [hview, hview, List.mem_map, List.mem_map (l := t.documents.map t.docEntry)]
    exact exists_congr fun x => and_congr_left fun _ => h.documents x
  unfold loadRepoDocIndex
  rw [List.map_map, List.map_map]
  exact cut_same_iff (s.docKey_nodup collate) (t.docKey_nodup collate) (hname s) (hname t) hsame n

theorem payload_same_iff (h : SameShape s t) :
    payload sha256 (buildRepoContext collate caps s) = payload sha256 (buildRepoContext collate caps t) ↔
      SameCut collate caps s t := by
  have hreadme : s.loadReadme caps.readmeChars = t.loadReadme caps.readmeChars := by
    unfold RepoState.loadReadme
    rw [h.readme]
  constructor
  · intro he
    exact ⟨(files_same_iff h _).mp (congrArg Payload.files he), (docs_same_iff collate h _).mp (congrArg Payload.docs he)⟩
  · intro hcut
    have hfiles := (files_same_iff h caps.fileTree).mpr hcut.files
    have hdocs := (docs_same_iff collate h caps.repoDoc).mpr hcut.documents
    unfold payload buildRepoContext
    simp only [Payload.mk.injEq]
    exact ⟨hfiles, hdocs, h.manifests, by rw [hreadme]⟩

/-- **The structural hash ignores bodies** exactly where the cuts do, for a
digest that tells the two payloads apart. -/
theorem structural_hash_iff (dumps : Payload δ → Str) (h : SameShape s t)
    (hsha : sha256 (dumps (payload sha256 (buildRepoContext collate caps s))) =
        sha256 (dumps (payload sha256 (buildRepoContext collate caps t))) →
      payload sha256 (buildRepoContext collate caps s) = payload sha256 (buildRepoContext collate caps t)) :
    computeStructuralHash sha256 dumps (buildRepoContext collate caps s) =
        computeStructuralHash sha256 dumps (buildRepoContext collate caps t) ↔
      SameCut collate caps s t := by
  rw [← payload_same_iff collate sha256 caps h]
  unfold computeStructuralHash
  exact ⟨hsha, fun he => by rw [he]⟩

theorem sameCut_small (h : SameShape s t) (hs : s.fileEntries.length ≤ caps.fileTree)
    (ht : t.fileEntries.length ≤ caps.fileTree) (hsd : s.documents.length ≤ caps.repoDoc)
    (htd : t.documents.length ≤ caps.repoDoc) : SameCut collate caps s t := by
  refine ⟨fun p => ?_, fun p => ?_⟩
  · rw [kept_all hs, kept_all ht]
    have hpaths : ∀ u : RepoState, u.fileEntries.map (·.filePath) = u.codeFiles.map Prod.fst := by
      intro u
      rw [← u.entries_files, List.map_map]
      rfl
    rw [hpaths, hpaths, List.mem_map, List.mem_map (l := t.codeFiles)]
    exact exists_congr fun x => and_congr_left fun _ => h.files x
  · rw [kept_all hsd, kept_all htd]
    have hpaths : ∀ u : RepoState, u.documents.map (·.filePath) = (u.documents.map u.docEntry).map (·.filePath) := by
      intro u
      rw [List.map_map]
      rfl
    rw [hpaths, hpaths, List.mem_map, List.mem_map (l := t.documents.map t.docEntry)]
    exact exists_congr fun x => and_congr_left fun _ => h.documents x

end

/-! ## A module that grows -/

/-- One code file of `n` bytes. -/
def library (n : Nat) : RepoState where
  sourceFiles := [⟨['m'], ['p'], .code, n, []⟩]
  codeNodes := [['m']]
  documents := []
  chunks := []
  manifests := {}
  files_unique := by simp
  documents_unique := by simp

def dumpsFiles (p : Payload Str) : Str := p.files.flatMap fun f => (ofLex f).1 ++ (ofLex f).2

theorem library_hash : computeStructuralHash id dumpsFiles (buildRepoContext (Function.Embedding.refl Str) {} (library 2)) =
    computeStructuralHash id dumpsFiles (buildRepoContext (Function.Embedding.refl Str) {} (library 9)) := by
  have hshape : SameShape (library 2) (library 9) := ⟨fun _ => Iff.rfl, fun _ => Iff.rfl, rfl, rfl⟩
  have hcut : SameCut (Function.Embedding.refl Str) {} (library 2) (library 9) :=
    sameCut_small _ _ hshape (by decide) (by decide) (by decide) (by decide)
  exact (structural_hash_iff _ _ _ dumpsFiles hshape fun _ => (payload_same_iff _ _ _ hshape).mpr hcut).mpr hcut

/-! ## A document at the cut -/

/-- Thirty documents, and one of `n` bytes. -/
def handbook (n : Nat) : RepoState where
  sourceFiles := []
  codeNodes := []
  documents := ⟨0, [], none, [], n⟩ :: (List.range 30).map fun i => ⟨i + 1, List.replicate (i + 1) 'a', none, [], 7⟩
  chunks := []
  manifests := {}
  files_unique := by simp
  documents_unique := by
    rw [List.map_cons, List.map_map, List.nodup_cons]
    refine ⟨by simp, List.nodup_range.map ?_⟩
    intro i j h
    simpa using congrArg List.length h

theorem handbook_shape (m n : Nat) : SameShape (handbook m) (handbook n) := by
  refine ⟨fun x => Iff.rfl, fun x => ?_, rfl, rfl⟩
  unfold handbook
  rw [List.map_cons, List.map_cons]
  exact Iff.rfl

section
variable {κ : Type} [LinearOrder κ] (collate : Str ↪ κ)

theorem docKey_lt {c d : RepoDocument} (h : c.bytes ≠ d.bytes) :
    docKey collate c < docKey collate d ↔ d.bytes < c.bytes := by
  unfold docKey pair
  rw [Prod.Lex.toLex_lt_toLex]
  simp only
  omega

theorem handbook_kept {n : Nat} (hn : 7 < n) :
    Kept (docKey collate) (·.filePath) 30 (handbook n).documents [] := by
  refine ⟨_, List.mem_cons_self .., rfl, ?_⟩
  have hnone : ahead (docKey collate) (handbook n).documents ⟨0, [], none, [], n⟩ = 0 := by
    unfold ahead handbook
    rw [List.length_eq_zero_iff, List.filter_eq_nil_iff]
    intro d hd
    rcases List.mem_cons.mp hd with rfl | hd
    · simp
    · obtain ⟨i, -, rfl⟩ := List.mem_map.mp hd
      have hne : (7 : Nat) ≠ n := by omega
      rw [decide_eq_true_eq, docKey_lt collate hne]
      dsimp only
      omega
  omega

theorem handbook_cut {n : Nat} (hn : n < 7) :
    ¬Kept (docKey collate) (·.filePath) 30 (handbook n).documents [] := by
  rintro ⟨d, hd, hpath, hahead⟩
  rcases List.mem_cons.mp hd with rfl | hd
  · have hall : 30 ≤ ahead (docKey collate) (handbook n).documents ⟨0, [], none, [], n⟩ := by
      unfold ahead handbook
      rw [List.filter_cons, if_neg (by simp), List.filter_eq_self.mpr]
      · simp
      · intro d hd
        obtain ⟨i, -, rfl⟩ := List.mem_map.mp hd
        have hne : (7 : Nat) ≠ n := by omega
        rw [decide_eq_true_eq, docKey_lt collate hne]
        exact hn
    omega
  · obtain ⟨i, -, rfl⟩ := List.mem_map.mp hd
    simp at hpath

end

/-- An edit that lengthens the shortest of 31 documents changes the hash. -/
theorem edit_changes_hash : ∃ s t : RepoState, SameShape s t ∧
    ∀ (κ δ : Type) [LinearOrder κ] (collate : Str ↪ κ) (sha256 : Str → δ) (dumps : Payload δ → Str),
      (∀ p q, sha256 (dumps p) = sha256 (dumps q) → p = q) →
        computeStructuralHash sha256 dumps (buildRepoContext collate {} s) ≠
          computeStructuralHash sha256 dumps (buildRepoContext collate {} t) := by
  refine ⟨handbook 1, handbook 8, handbook_shape 1 8, ?_⟩
  intro κ δ _ collate sha256 dumps hsha he
  have hcut := (payload_same_iff collate sha256 {} (handbook_shape 1 8)).mp (hsha _ _ he)
  exact handbook_cut collate (by omega) ((hcut.documents []).mpr (handbook_kept collate (by omega)))

end Cograph.Context
