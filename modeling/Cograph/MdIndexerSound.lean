import Cograph.MdIndexer

/-!
# A mirrored folder

After a folder is mirrored the collection holds its files, exactly when each
file's key reads the same trimmed, or stood in the collection with the file's
text before, and no stored text shares its hash with another text of its file.
-/

namespace Cograph.MdRag

section
variable {Digest Parsed Chunk Link : Type} {T : Tools Digest Parsed Chunk Link}

/-! ## The map of a collection -/

def contents (db : Db T) (c : Nat) (k : Str) : Option Str := (db.find c k).map (·.content)

theorem find_iff {db : Db T} {c : Nat} {k : Str} {d : MdDocument Digest Parsed Chunk Link} :
    db.find c k = some d ↔ d ∈ db.documents ∧ d.collectionId = c ∧ d.sourceKey = k := by
  constructor
  · intro h
    have hd := List.find?_some h
    simp only [decide_eq_true_eq] at hd
    exact ⟨List.mem_of_find?_eq_some h, hd⟩
  · intro ⟨hd, hc, hk⟩
    cases h : db.find c k with
    | none =>
      have := List.find?_eq_none.1 h d hd
      simp [hc, hk] at this
    | some e =>
      have he := List.find?_some h
      simp only [decide_eq_true_eq] at he
      have hmem := List.mem_of_find?_eq_some h
      exact congrArg some (List.inj_on_of_nodup_map db.unique hmem hd (by rw [he.1, he.2, hc, hk]))

theorem contents_iff {db : Db T} {c : Nat} {k x : Str} :
    contents db c k = some x ↔ ∃ d ∈ db.documents, d.collectionId = c ∧ d.sourceKey = k ∧ d.content = x := by
  simp only [contents, Option.map_eq_some_iff, find_iff]
  constructor
  · intro ⟨d, ⟨hd, hc, hk⟩, hx⟩
    exact ⟨d, hd, hc, hk, hx⟩
  · intro ⟨d, hd, hc, hk, hx⟩
    exact ⟨d, ⟨hd, hc, hk⟩, hx⟩

theorem contents_delete (db : Db T) (c : Nat) (keys : List Str) (k : Str) :
    contents (db.delete c keys) c k = if k ∈ keys then none else contents db c k := by
  apply Option.ext
  intro x
  rw [contents_iff]
  simp only [Db.delete, List.mem_filter, decide_eq_true_eq]
  split
  · rename_i hk
    simp only [reduceCtorEq, iff_false]
    rintro ⟨d, ⟨-, hd⟩, hc, rfl, -⟩
    exact hd ⟨hc, hk⟩
  · rename_i hk
    rw [contents_iff]
    constructor
    · rintro ⟨d, ⟨hd, -⟩, h⟩
      exact ⟨d, hd, h⟩
    · rintro ⟨d, hd, hc, rfl, hx⟩
      exact ⟨d, ⟨hd, fun h => hk h.2⟩, hc, rfl, hx⟩

theorem delete_nil (db : Db T) (c : Nat) : db.delete c [] = db := by
  cases db
  simp [Db.delete]

theorem find_update (db : Db T) (c : Nat) (k : Str)
    (f : MdDocument Digest Parsed Chunk Link → MdDocument Digest Parsed Chunk Link) (hkey) (hhash) :
    (db.update f hkey hhash).find c k = (db.find c k).map f := by
  unfold Db.find Db.update
  rw [List.find?_map]
  congr 2
  funext d
  simp [hkey d]

theorem existing_items (db : Db T) (c : Nat) : existingHashes T db c =
    (db.documents.filter (·.collectionId = c)).map fun d => (d.sourceKey, d.contentHash) := by
  apply Dict.ofItems_nodup
  rw [List.map_map]
  have hsub := db.unique.sublist ((List.filter_sublist (p := (·.collectionId = c)) (l := db.documents)).map _)
  refine List.Nodup.of_map (fun k => (c, k)) ?_
  rw [List.map_map]
  convert hsub using 1
  apply List.map_congr_left
  intro d hd
  have : d.collectionId = c := by simpa using (List.mem_filter.1 hd).2
  simp [this]

theorem existing_get (db : Db T) (c : Nat) (k : Str) :
    Dict.get (existingHashes T db c) k = (contents db c k).map T.sha256 := by
  apply Option.ext
  intro h
  have hkeys : ((existingHashes T db c).map (·.1)).Nodup := Dict.ofItems_keys _
  rw [Dict.get_iff hkeys, existing_items]
  simp only [List.mem_map, List.mem_filter, decide_eq_true_eq, Prod.mk.injEq, Option.map_eq_some_iff, contents_iff]
  constructor
  · rintro ⟨d, ⟨hd, hc⟩, hk, rfl⟩
    exact ⟨d.content, ⟨d, hd, hc, hk, rfl⟩, (db.hashed d hd).symm⟩
  · rintro ⟨x, ⟨d, hd, hc, hk, rfl⟩, rfl⟩
    exact ⟨d, ⟨hd, hc⟩, hk, db.hashed d hd⟩

theorem existing_mem (db : Db T) (c : Nat) (k : Str) :
    k ∈ (existingHashes T db c).map (·.1) ↔ (contents db c k).isSome := by
  rw [existing_items, List.map_map, Option.isSome_iff_exists]
  simp only [List.mem_map, List.mem_filter, decide_eq_true_eq, Function.comp_apply, contents_iff]
  constructor
  · rintro ⟨d, ⟨hd, hc⟩, hk⟩
    exact ⟨d.content, d, hd, hc, hk, rfl⟩
  · rintro ⟨x, d, hd, hc, hk, -⟩
    exact ⟨d, ⟨hd, hc⟩, hk⟩

variable [DecidableEq Digest]

theorem contents_upsert (now c : Nat) (db : Db T) (input : MdDocumentInput) (k : Str) :
    contents (upsertDocument T now c db input).1 c k =
      if k = Str.strip input.sourceKey then some input.content else contents db c k := by
  unfold upsertDocument
  dsimp only
  split
  · rename_i existing h
    unfold contents
    rw [find_update]
    by_cases hk : k = Str.strip input.sourceKey
    · have hd := find_iff.1 h
      rw [if_pos hk, hk, h]
      simp [hd.2.1, hd.2.2, written]
    · rw [if_neg hk]
      cases hd : db.find c k with
      | none => rfl
      | some d =>
        have hne : d.sourceKey ≠ Str.strip input.sourceKey := (find_iff.1 hd).2.2 ▸ hk
        simp [hne]
  · rename_i h
    unfold contents Db.find Db.insert at *
    rw [List.find?_append]
    by_cases hk : k = Str.strip input.sourceKey
    · rw [if_pos hk, hk, h]
      simp [written, created]
    · rw [if_neg hk]
      have : ¬(written T now input false (created T db c (Str.strip input.sourceKey) input)).sourceKey = k := Ne.symm hk
      simp [this]

theorem contents_upserts_other (now c : Nat) (inputs : List MdDocumentInput) (k : Str) :
    ∀ db : Db T, (∀ i ∈ inputs, Str.strip i.sourceKey ≠ k) →
      contents (upsertDocuments T now c db inputs).1 c k = contents db c k := by
  induction inputs with
  | nil => exact fun db _ => rfl
  | cons i inputs ih =>
    intro db h
    change contents (upsertDocuments T now c (upsertDocument T now c db i).1 inputs).1 c k = _
    rw [ih _ fun j hj => h j (by simp [hj]), contents_upsert, if_neg (h i (by simp)).symm]

theorem contents_upserts (now c : Nat) (inputs : List MdDocumentInput) :
    ∀ db : Db T, (inputs.map fun i => Str.strip i.sourceKey).Nodup → ∀ i ∈ inputs,
      contents (upsertDocuments T now c db inputs).1 c (Str.strip i.sourceKey) = some i.content := by
  induction inputs with
  | nil => exact fun db _ i hi => absurd hi List.not_mem_nil
  | cons j inputs ih =>
    intro db hnd i hi
    rw [List.map_cons, List.nodup_cons] at hnd
    change contents (upsertDocuments T now c (upsertDocument T now c db j).1 inputs).1 c _ = _
    rcases List.mem_cons.1 hi with rfl | hi
    · rw [contents_upserts_other, contents_upsert, if_pos rfl]
      intro l hl heq
      exact hnd.1 (List.mem_map.2 ⟨l, hl, heq⟩)
    · exact ih _ hnd.2 i hi

/-! ## The mirror -/

/-- The folder's files as a map from key to text. -/
def folderFiles (entries : List Entry) : Dict.Items Str Str :=
  Dict.ofItems ((entries.filter mirrored).map fun e => (e.path.posix.toList, e.text))

/-- The collection holds the files, and a second run, at whatever time, changes
nothing. -/
def Mirrors (now c : Nat) (db : Db T) (entries : List Entry) : Prop :=
  (∀ k, contents (mirrorFolder T now c db (some entries)).1 c k = Dict.get (folderFiles entries) k) ∧
    ∀ later, mirrorFolder T later c (mirrorFolder T now c db (some entries)).1 (some entries) =
      ((mirrorFolder T now c db (some entries)).1, 0)

/-- Each file's key reads the same trimmed, or stands in the collection with
the file's text, and no other text stored under it has the hash of the file. -/
def Fits (c : Nat) (db : Db T) (entries : List Entry) : Prop :=
  ∀ k text, Dict.get (folderFiles entries) k = some text →
    (Str.strip k = k ∨ contents db c k = some text) ∧
      ∀ x, contents db c k = some x → T.sha256 x = T.sha256 text → x = text

variable {now c : Nat} {db : Db T} {entries : List Entry}

theorem folder_keys (entries : List Entry) : ((folderFiles entries).map (·.1)).Nodup := Dict.ofItems_keys _

variable (c db entries) in
def changedFiles : Dict.Items Str Str :=
  (folderFiles entries).filter fun f => Dict.get (existingHashes T db c) f.1 ≠ some (T.sha256 f.2)

variable (now c db entries) in
def upserted : Db T :=
  (upsertDocuments T now c db ((changedFiles c db entries).map fun f => ⟨f.1, f.2, none⟩)).1

/-- The keys left out of the folder go, the others are as the upserts leave
them. -/
theorem contents_mirror (k : Str) : contents (mirrorFolder T now c db (some entries)).1 c k =
    if (contents db c k).isSome ∧ k ∉ (folderFiles entries).map (·.1) then none
    else contents (upserted now c db entries) c k := by
  change contents ((upserted now c db entries).delete c _) c k = _
  rw [contents_delete]
  congr 1
  rw [List.mem_filter, existing_mem]
  simp [folderFiles]

theorem folder_mem {k text : Str} (h : Dict.get (folderFiles entries) k = some text) :
    k ∈ (folderFiles entries).map (·.1) :=
  List.mem_map.2 ⟨_, Dict.mem_of_get h, rfl⟩

theorem changed_iff {k text : Str} : (k, text) ∈ changedFiles c db entries ↔
    Dict.get (folderFiles entries) k = some text ∧ ∀ x, contents db c k = some x → T.sha256 x ≠ T.sha256 text := by
  rw [changedFiles, List.mem_filter, Dict.get_iff (folder_keys entries)]
  refine and_congr_right fun _ => ?_
  rw [existing_get]
  cases contents db c k <;> simp

theorem upserted_other {k : Str} (h : ∀ f ∈ changedFiles c db entries, Str.strip f.1 ≠ k) :
    contents (upserted now c db entries) c k = contents db c k := by
  apply contents_upserts_other
  intro i hi
  obtain ⟨f, hf, rfl⟩ := List.mem_map.1 hi
  exact h f hf

theorem upserted_own (htrim : ∀ f ∈ changedFiles c db entries, Str.strip f.1 = f.1) {f : Str × Str}
    (hf : f ∈ changedFiles c db entries) : contents (upserted now c db entries) c f.1 = some f.2 := by
  have hnd : (((changedFiles c db entries).map fun f => (⟨f.1, f.2, none⟩ : MdDocumentInput)).map
      fun i => Str.strip i.sourceKey).Nodup := by
    rw [List.map_map]
    have hsub := (folder_keys entries).sublist ((List.filter_sublist
      (p := fun f => Dict.get (existingHashes T db c) f.1 ≠ some (T.sha256 f.2))).map _)
    convert hsub using 1
    exact List.map_congr_left htrim
  have := contents_upserts now c _ db hnd ⟨f.1, f.2, none⟩ (List.mem_map.2 ⟨f, hf, rfl⟩)
  rwa [htrim f hf] at this

theorem fits_of_exact (h : ∀ k, contents (mirrorFolder T now c db (some entries)).1 c k =
    Dict.get (folderFiles entries) k) : Fits c db entries := by
  have hkept {k text : Str} (hk : Dict.get (folderFiles entries) k = some text) :
      contents (upserted now c db entries) c k = some text := by
    have := h k
    rw [contents_mirror, if_neg fun hg => hg.2 (folder_mem hk), hk] at this
    exact this
  have hraw {k text : Str} (hk : Dict.get (folderFiles entries) k = some text) (hne : Str.strip k ≠ k) :
      contents db c k = some text := by
    rw [← hkept hk, upserted_other]
    intro f _ hf
    -- a trimmed key trims to itself
    apply hne
    rw [← hf, Str.strip_strip]
  intro k text hk
  refine ⟨?_, ?_⟩
  · by_cases htrim : Str.strip k = k
    · exact .inl htrim
    · exact .inr (hraw hk htrim)
  · intro x hx heq
    by_cases htrim : Str.strip k = k
    · have hother : contents (upserted now c db entries) c k = contents db c k := by
        apply upserted_other
        intro f hf hfk
        obtain ⟨hget, hne⟩ := changed_iff.1 hf
        by_cases hself : Str.strip f.1 = f.1
        · obtain rfl : f.1 = k := hself.symm.trans hfk
          rw [hk] at hget
          exact hne x hx (Option.some.inj hget ▸ heq)
        · exact hne _ (hraw hget hself) rfl
      rw [hkept hk, hx] at hother
      exact (Option.some.inj hother).symm
    · rw [hraw hk htrim] at hx
      exact (Option.some.inj hx).symm

theorem exact_of_fits (h : Fits c db entries) (k : Str) :
    contents (mirrorFolder T now c db (some entries)).1 c k = Dict.get (folderFiles entries) k := by
  have htrim : ∀ f ∈ changedFiles c db entries, Str.strip f.1 = f.1 := by
    intro f hf
    obtain ⟨hget, hne⟩ := changed_iff.1 hf
    rcases (h f.1 f.2 hget).1 with ht | ht
    · exact ht
    · exact absurd rfl (hne _ ht)
  rw [contents_mirror]
  cases hk : Dict.get (folderFiles entries) k with
  | none =>
    have hnot : k ∉ (folderFiles entries).map (·.1) := by
      intro hmem
      obtain ⟨f, hf, rfl⟩ := List.mem_map.1 hmem
      exact Dict.get_eq_none.1 hk f.2 hf
    split
    · rfl
    · rename_i hgone
      rw [upserted_other]
      · simpa [hnot] using hgone
      · intro f hf hfk
        rw [htrim f hf] at hfk
        have := (changed_iff.1 hf).1
        rw [hfk, hk] at this
        cases this
  | some text =>
    rw [if_neg fun hg => hg.2 (folder_mem hk)]
    by_cases hch : (k, text) ∈ changedFiles c db entries
    · exact upserted_own htrim hch
    · -- the file stands in the collection already
      obtain ⟨x, hx, heq⟩ : ∃ x, contents db c k = some x ∧ T.sha256 x = T.sha256 text := by
        by_contra hno
        exact hch (changed_iff.2 ⟨hk, fun x hx heq => hno ⟨x, hx, heq⟩⟩)
      rw [upserted_other, hx, (h k text hk).2 x hx heq]
      intro f hf hfk
      rw [htrim f hf] at hfk
      subst hfk
      have hget := (changed_iff.1 hf).1
      rw [hk] at hget
      exact hch (by rwa [Option.some.inj hget])

theorem mirror_again (h : ∀ k, contents db c k = Dict.get (folderFiles entries) k) :
    mirrorFolder T now c db (some entries) = (db, 0) := by
  have hchanged : changedFiles c db entries = [] := by
    apply List.eq_nil_iff_forall_not_mem.2
    intro f hf
    obtain ⟨hget, hne⟩ := changed_iff.1 hf
    exact hne f.2 (by rw [h, hget]) rfl
  have hgone : ((existingHashes T db c).map (·.1)).filter (· ∉ (folderFiles entries).map (·.1)) = [] := by
    rw [List.filter_eq_nil_iff]
    intro k hk
    rw [existing_mem, h, Option.isSome_iff_exists] at hk
    obtain ⟨text, hk⟩ := hk
    simpa using folder_mem hk
  change ((upserted now c db entries).delete c (((existingHashes T db c).map (·.1)).filter
    (· ∉ (folderFiles entries).map (·.1))), (changedFiles c db entries).length + List.length (((existingHashes T db c).map
      (·.1)).filter (· ∉ (folderFiles entries).map (·.1)))) = _
  rw [upserted, hgone, hchanged, List.map_nil, upsertDocuments, delete_nil]
  rfl

/-- **When a folder is mirrored.** -/
theorem folder_mirrored_iff (now c : Nat) (db : Db T) (entries : List Entry) :
    Mirrors now c db entries ↔ Fits c db entries := by
  constructor
  · intro h
    exact fits_of_exact h.1
  · intro h
    have hexact := @exact_of_fits _ _ _ _ _ _ now c db entries h
    exact ⟨hexact, fun later => mirror_again hexact⟩

end

namespace Sample

def tools : Tools Str Unit Unit Unit := ⟨id, fun _ => (), fun _ => none, fun _ => [], fun _ => [], fun _ => []⟩

def empty : Db tools := ⟨[], 0, List.nodup_nil, fun _ h => absurd h List.not_mem_nil⟩

def blankName : List Entry := [⟨⟨[], " a.md"⟩, true, true, 1, "x".toList⟩]

end Sample

theorem blank_name_not_mirrored : ¬ ∀ (now c : Nat) (db : Db Sample.tools) (entries : List Entry),
    Mirrors now c db entries := by
  intro h
  have hkey := (h 0 0 Sample.empty Sample.blankName).1 " a.md".toList
  exact absurd hkey (by decide)

/-- The first run writes the trimmed key and the next deletes it. -/
example : (mirrorFolder Sample.tools 0 0 (mirrorFolder Sample.tools 0 0 Sample.empty (some Sample.blankName)).1
    (some Sample.blankName)).2 = 2 := by decide

end Cograph.MdRag
