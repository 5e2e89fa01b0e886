import Cograph.ArraysSound
import Cograph.ByKey
import Cograph.Versions

/-!
# Both storage versions answer alike

Text and byte ranges agree for every node, since a file's rows are all written
with the file. Callers and callees agree while the arrays follow the CALLS
edges, which the scoped rebuild of an incremental ingest breaks wherever a
CALLS edge leaves the rows it is given.
-/

namespace Cograph.Versions

open Machine

/-! ## Slices -/

/-- The byte range of a span is missing, or decodes to its content. -/
def Fits (text : String) (s : Span) : Prop :=
  s.startByte = none ∧ s.endByte = none ∨
    ∃ a e, s.startByte = some a ∧ s.endByte = some e ∧ decodeSlice text.toUTF8 a e = some s.content

theorem extract_min (raw : ByteArray) (a e : Nat) : raw.extract a (min raw.size e) = raw.extract a e := by
  apply ByteArray.ext
  rw [ByteArray.data_extract, ByteArray.data_extract]
  apply Array.ext
  · simp only [Array.size_extract, ByteArray.size_data]
    omega
  · intro i _ _
    simp

theorem decode_empty : String.fromUTF8? ByteArray.empty = some "" := by decide

theorem decode_text (text : String) : decodeSlice text.toUTF8 0 text.toUTF8.size = some text := by
  rw [decodeSlice, ByteArray.extract_zero_size]
  simp only [String.fromUTF8?, String.toUTF8_eq_toByteArray, Option.dite_none_right_eq_some, Option.some.injEq]
  exact ⟨text.isValidUTF8, rfl⟩

variable {p : Path} {text : String} (o : Outline p text)

theorem module_fits : Fits text o.moduleSpan := by
  unfold Outline.moduleSpan
  by_cases hs : 0 < text.toUTF8.size
  · simp only [hs, if_true]
    exact Or.inr ⟨0, _, rfl, rfl, by rw [o.wholeText]; exact decode_text text⟩
  · simp only [hs, if_false]
    exact Or.inl ⟨rfl, rfl⟩

theorem spans_fit {q : String} {s : Span} (hs : Dict.get o.spans q = some s) : Fits text s := by
  rcases List.mem_cons.mp (Dict.mem_ofItems (Dict.mem_of_get hs)) with he | hmem
  · cases he
    exact module_fits o
  · obtain ⟨d, -, hd⟩ := List.mem_map.mp hmem
    cases hd
    exact Or.inr ⟨_, _, rfl, rfl, d.nodeText⟩

/-! ## The source files -/

/-- Ids and paths of the source files are unique, ids not given yet are
free. -/
structure FilesOk (files : List SourceFile) (nextId : Nat) : Prop where
  ids : (files.map (·.id)).Nodup
  paths : (files.map (·.filePath)).Nodup
  fresh : ∀ f ∈ files, f.id < nextId

/-- The row of a path holds its text. -/
def Holds (files : List SourceFile) (p : Path) (text : String) (i : Nat) : Prop :=
  ⟨i, p, text.toUTF8⟩ ∈ files

theorem upsert_ok {r : Repository} (hr : FilesOk r.files r.nextFileId) (p : Path) (text : String) :
    FilesOk (upsertSourceFile r (p, text)).files (upsertSourceFile r (p, text)).nextFileId := by
  unfold upsertSourceFile
  by_cases hp : p ∈ r.files.map (·.filePath)
  · simp only [hp, if_true]
    have hmap : ∀ {β : Type} (π : SourceFile → β), (∀ f raw, π { f with rawBytes := raw } = π f) →
        (r.files.map fun f => if f.filePath = p then { f with rawBytes := text.toUTF8 } else f).map π = r.files.map π := by
      intro β π hπ
      rw [List.map_map]
      apply List.map_congr_left
      intro f _
      rw [Function.comp]
      split
      · exact hπ f _
      · rfl
    refine ⟨?_, ?_, ?_⟩
    · rw [hmap SourceFile.id fun _ _ => rfl]
      exact hr.ids
    · rw [hmap SourceFile.filePath fun _ _ => rfl]
      exact hr.paths
    · intro f hf
      have hid : f.id ∈ r.files.map (·.id) := hmap SourceFile.id (fun _ _ => rfl) ▸ List.mem_map_of_mem hf
      obtain ⟨f', hf', he⟩ := List.mem_map.mp hid
      exact he ▸ hr.fresh f' hf'
  · simp only [hp, if_false]
    have hnew : r.nextFileId ∉ r.files.map (·.id) := by
      intro hmem
      obtain ⟨f, hf, he⟩ := List.mem_map.mp hmem
      exact absurd (hr.fresh f hf) (by omega)
    refine ⟨?_, ?_, ?_⟩
    · rw [List.map_append, List.map_singleton, ← List.concat_eq_append]
      exact hr.ids.concat hnew
    · rw [List.map_append, List.map_singleton, ← List.concat_eq_append]
      exact hr.paths.concat hp
    · intro f hf
      rcases List.mem_append.mp hf with hf | hf
      · exact Nat.lt_succ_of_lt (hr.fresh f hf)
      · cases List.mem_singleton.mp hf
        exact Nat.lt_succ_self _

theorem upsert_own (r : Repository) (p : Path) (text : String) :
    ∃ i, sourceFileId (upsertSourceFile r (p, text)).files p = some i ∧
      Holds (upsertSourceFile r (p, text)).files p text i := by
  have hrow : ∃ f ∈ (upsertSourceFile r (p, text)).files, f.filePath = p := by
    unfold upsertSourceFile
    by_cases hp : p ∈ r.files.map (·.filePath)
    · obtain ⟨f, hf, he⟩ := List.mem_map.mp hp
      simp only [hp, if_true]
      exact ⟨_, List.mem_map_of_mem hf, by simp [he]⟩
    · simp only [hp, if_false]
      exact ⟨_, List.mem_append_right _ (List.mem_singleton_self _), rfl⟩
  have hraw : ∀ f ∈ (upsertSourceFile r (p, text)).files, f.filePath = p → f.rawBytes = text.toUTF8 := by
    unfold upsertSourceFile
    intro f hf he
    by_cases hp : p ∈ r.files.map (·.filePath)
    · simp only [hp, if_true] at hf
      obtain ⟨f', -, rfl⟩ := List.mem_map.mp hf
      by_cases hf' : f'.filePath = p
      · simp [hf']
      · simp [hf'] at he
    · simp only [hp, if_false] at hf
      rcases List.mem_append.mp hf with hf | hf
      · exact absurd (he ▸ List.mem_map_of_mem hf) hp
      · cases List.mem_singleton.mp hf
        rfl
  have hfound : ((upsertSourceFile r (p, text)).files.find? (·.filePath = p)).isSome := by
    rw [List.find?_isSome]
    obtain ⟨f, hf, he⟩ := hrow
    exact ⟨f, hf, by simpa using he⟩
  obtain ⟨f, hf⟩ := Option.isSome_iff_exists.mp hfound
  obtain ⟨hmem, he⟩ := ByKey.find_mem hf
  refine ⟨f.id, by rw [sourceFileId, hf, Option.map_some], ?_⟩
  have hrow : (⟨f.id, p, text.toUTF8⟩ : SourceFile) = f := by rw [← hraw f hmem he, ← he]
  rw [Holds, hrow]
  exact hmem

theorem upsert_other {r : Repository} {p p' : Path} {text : String} (hne : p' ≠ p) {text' : String} {i : Nat}
    (hh : Holds r.files p' text' i) : Holds (upsertSourceFile r (p, text)).files p' text' i := by
  unfold upsertSourceFile Holds
  by_cases hp : p ∈ r.files.map (·.filePath)
  · simp only [hp, if_true]
    exact List.mem_map.mpr ⟨_, hh, by simp [hne]⟩
  · simp only [hp, if_false]
    exact List.mem_append_left _ hh

/-! ## The nodes of a file -/

section
variable {S : Sources} {C : Checkout} (p : Path) (text : String)

/-- The stamped outline has the outline's names, paths, types and contents. -/
theorem parsed_node {x : ExtractedNode} (hx : x ∈ (parseSourceGraph S.tools C p text).deduped) :
    x.filePath = p ∧ (x.nodeType = .module → x.content = text) ∧
      (x.qualifiedName = (S.outline C p text).module.qualifiedName ∧ x.nodeType = .module ∨
        ∃ d ∈ (S.outline C p text).declared, x.qualifiedName = d.node.qualifiedName) := by
  obtain ⟨y, hy, metadata, rfl⟩ := mem_deduped hx
  have hstamp : ∃ z ∈ (S.outline C p text).graph.nodes, y.filePath = z.filePath ∧
      y.qualifiedName = z.qualifiedName ∧ y.nodeType = z.nodeType ∧ y.content = z.content := by
    simp only [parseSourceGraph, S.extracts, List.mem_map] at hy
    obtain ⟨z, hz, rfl⟩ := hy
    refine ⟨z, hz, ?_⟩
    split <;> simp
  obtain ⟨z, hz, hpath', hname', htype', hcontent'⟩ := hstamp
  dsimp only
  rw [hpath', hname', htype', hcontent']
  rcases List.mem_cons.mp hz with rfl | hz
  · exact ⟨(S.outline C p text).inFile.1, fun _ => (S.outline C p text).wholeText,
      Or.inl ⟨rfl, (S.outline C p text).isModule⟩⟩
  · obtain ⟨d, hd, rfl⟩ := List.mem_map.mp hz
    exact ⟨(S.outline C p text).inFile.2 d hd, fun hm => absurd hm d.notModule, Or.inr ⟨d, hd, rfl⟩⟩

theorem parsed_module : ∃ x ∈ (parseSourceGraph S.tools C p text).deduped, x.nodeType = .module := by
  have hname : (S.outline C p text).module.qualifiedName ∈
      (parseSourceGraph S.tools C p text).deduped.map (·.qualifiedName) := by
    rw [names_deduped, Dict.mem_keys_ofItems, List.map_map]
    simp only [parseSourceGraph, S.extracts, Outline.graph, List.map_cons, List.mem_cons, Function.comp]
    left
    split <;> rfl
  obtain ⟨x, hx, hq⟩ := List.mem_map.mp hname
  rcases (parsed_node p text hx).2.2 with ⟨-, ht⟩ | ⟨d, hd, hd'⟩
  · exact ⟨x, hx, ht⟩
  · exact absurd (hd'.symm.trans hq) ((S.outline C p text).ownName d hd)

theorem moduleByFile_eq : moduleByFile (parseSourceGraph S.tools C p text) = [(p, text)] := by
  have hall : ∀ x ∈ moduleByFile (parseSourceGraph S.tools C p text), x = (p, text) := by
    intro x hx
    obtain ⟨y, hy, rfl⟩ := List.mem_map.mp (Dict.mem_ofItems hx)
    obtain ⟨hy, ht⟩ := List.mem_filter.mp hy
    obtain ⟨hpath, hcontent, -⟩ := parsed_node p text hy
    rw [hpath, hcontent (by simpa using ht)]
  have hkeys : ((moduleByFile (parseSourceGraph S.tools C p text)).map (·.1)).Nodup := Dict.ofItems_keys _
  have hne : p ∈ (moduleByFile (parseSourceGraph S.tools C p text)).map (·.1) := by
    obtain ⟨x, hx, ht⟩ := parsed_module (S := S) (C := C) p text
    rw [moduleByFile, Dict.mem_keys_ofItems, List.map_map]
    exact List.mem_map.mpr ⟨x, List.mem_filter.mpr ⟨hx, by simpa using ht⟩, (parsed_node p text hx).1⟩
  generalize moduleByFile (parseSourceGraph S.tools C p text) = l at hall hkeys hne
  cases l with
  | nil => simp at hne
  | cons a l =>
    obtain rfl := hall a (List.mem_cons_self ..)
    cases l with
    | nil => rfl
    | cons b l =>
      obtain rfl := hall b (by simp)
      simp at hkeys

theorem parsed_paths {q : Path} : q ∈ (parseSourceGraph S.tools C p text).changedFilePaths ↔ q = p := by
  rw [mem_paths]
  constructor
  · rintro ⟨x, hx, rfl⟩
    exact (parsed_node p text hx).1
  · rintro rfl
    obtain ⟨x, hx, -⟩ := parsed_module (S := S) (C := C) q text
    exact ⟨x, hx, (parsed_node q text hx).1⟩

theorem named_span {db : Db} {x : String × Nat} (hx : x ∈ namedIds db (parseSourceGraph S.tools C p text)) :
    (Dict.get (S.outline C p text).spans x.1).isSome := by
  have hname : ∃ y ∈ (parseSourceGraph S.tools C p text).deduped, y.qualifiedName = x.1 := by
    rcases List.mem_append.mp hx with hx | hx
    · obtain ⟨k, hk, rfl⟩ := List.mem_map.mp hx
      exact ⟨k.1, (matchNodes_ok.kept k hk).1, rfl⟩
    · obtain ⟨y, hy, rfl⟩ := List.mem_map.mp hx
      have hpending := List.fst_mem_of_mem_zipIdx hy
      exact ⟨y.1, (matchNodes_ok.all y.1).mpr (Or.inr hpending), rfl⟩
  obtain ⟨y, hy, hq⟩ := hname
  have hkey : x.1 ∈ (S.outline C p text).spans.map (·.1) := by
    rw [Outline.spans, Dict.mem_keys_ofItems, ← hq]
    rcases (parsed_node p text hy).2.2 with ⟨he, -⟩ | ⟨d, hd, he⟩
    · exact he ▸ List.mem_cons_self ..
    · rw [he, List.map_cons, List.map_map]
      exact List.mem_cons_of_mem _ (List.mem_map_of_mem hd)
  obtain ⟨⟨q, s⟩, hs, rfl⟩ := List.mem_map.mp hkey
  exact Dict.get_isSome hs

end

/-! ## The bodies -/

section
variable {fileId : Option Nat} {spans : Dict.Items String Span}

theorem setBodies_other {named : Dict.Items String Nat} {bodies : Nat → Body} {i : Nat} (hi : i ∉ named.map (·.2)) :
    named.foldl (setBody fileId spans) bodies i = bodies i := by
  induction named generalizing bodies with
  | nil => rfl
  | cons x named ih =>
    rw [List.map_cons, List.mem_cons, not_or] at hi
    rw [List.foldl_cons, ih hi.2]
    cases hs : Dict.get spans x.1 <;> simp [setBody, hs, hi.1]

theorem setBodies_own {named : Dict.Items String Nat} (bodies : Nat → Body) {i : Nat}
    (hspan : ∀ x ∈ named, (Dict.get spans x.1).isSome) (hi : i ∈ named.map (·.2)) :
    ∃ q s, Dict.get spans q = some s ∧ named.foldl (setBody fileId spans) bodies i = ⟨s, fileId⟩ := by
  induction named generalizing bodies with
  | nil => simp at hi
  | cons x named ih =>
    rw [List.foldl_cons]
    by_cases hlater : i ∈ named.map (·.2)
    · exact ih _ (fun y hy => hspan y (List.mem_cons_of_mem _ hy)) hlater
    · rw [setBodies_other hlater]
      obtain ⟨s, hs⟩ := Option.isSome_iff_exists.mp (hspan x (List.mem_cons_self ..))
      have hx : i = x.2 := by
        rw [List.map_cons, List.mem_cons] at hi
        exact hi.resolve_right hlater
      exact ⟨x.1, s, hs, by simp [setBody, hs, hx]⟩

end

def place (n : CodeNode) : Nat × Path := (n.id, n.filePath)

theorem place_blind : Blind place := ⟨fun _ _ => rfl, fun _ _ _ => rfl⟩

/-- The text, the range and the source file of a row fit together. -/
def Stored (r : Repository) (t : Nat × Path) : Prop :=
  ∃ text i, Holds r.files t.2 text i ∧ (r.bodies t.1).sourceFileId = some i ∧ Fits text (r.bodies t.1).toSpan

section
variable {h : Host} {db mid : Db} {g : ExtractedGraph}

/-- A row a call leaves is one of its own, in one of its files, or stood in
another file before. -/
theorem persistNodes_place (hok : db.Ok) (hp : persistNodes h db g = some mid) {t : Nat × Path}
    (ht : t ∈ mid.nodes.map place) : t.2 ∈ g.changedFilePaths ∧ Named db g t.1 ∨
      t.2 ∉ g.changedFilePaths ∧ ¬Named db g t.1 ∧ t ∈ db.nodes.map place := by
  rw [persistNodes_eq hp, List.map_append, List.mem_append] at ht
  rcases ht with ht | ht
  · obtain ⟨n, hn, rfl⟩ := List.mem_map.mp ht
    obtain ⟨hn, hd⟩ := List.mem_filter.mp hn
    have hmem : place n ∈ db.nodes.map place := by
      rw [← keptRows_map (h := h) place (fun _ _ => rfl) db g, ← detach_map place_blind (doomedIds db g)]
      exact List.mem_map_of_mem hn
    obtain ⟨m, hm, he⟩ := List.mem_map.mp hmem
    simp only [place, Prod.mk.injEq] at he
    by_cases hpath : n.filePath ∈ g.changedFilePaths
    · refine Or.inl ⟨hpath, named_preserved ?_⟩
      by_contra hk
      have hdoomed : n.id ∈ doomedIds db g :=
        mem_doomedIds.mpr ⟨⟨m, mem_existing.mpr ⟨hm, he.2 ▸ hpath⟩, he.1⟩, hk⟩
      simp [hdoomed] at hd
    · refine Or.inr ⟨hpath, ?_, hmem⟩
      intro hnamed
      rcases mem_namedIds.mp hnamed with hk | ⟨hge, -⟩
      · obtain ⟨m', hm', hid⟩ := preserved_own hk
        obtain ⟨hm', hpath'⟩ := mem_existing.mp hm'
        have hsame : m' = m := hok.unique hm' hm (hid.trans he.1.symm)
        exact hpath (he.2 ▸ hsame ▸ hpath')
      · have hlt := hok.fresh m hm
        rw [he.1] at hlt
        exact absurd hlt (Nat.not_lt.mpr hge)
  · left
    obtain ⟨n, hn, rfl⟩ := List.mem_map.mp ht
    simp only [insertedRows, List.mem_map] at hn
    obtain ⟨x, hx, rfl⟩ := hn
    have hlt := List.snd_lt_of_mem_zipIdx hx
    refine ⟨mem_paths.mpr ⟨x.1, ?_, rfl⟩, mem_namedIds.mpr (Or.inr ?_)⟩
    · exact (matchNodes_ok.all x.1).mpr (Or.inr (List.fst_mem_of_mem_zipIdx hx))
    · simp only [place, newNode]
      omega

end

/-! ## What every write keeps -/

/-- The graph is well-formed, its cache and its bodies fit it. -/
structure Inv (r : Repository) : Prop where
  ok : r.db.Ok
  cache : ∀ c, r.cache = some c → c.Ok r.db.nodes
  dated : r.db.Dated
  files : FilesOk r.files r.nextFileId
  stored : ∀ t ∈ r.db.nodes.map place, Stored r t

theorem inv_empty : Inv .empty where
  ok := by constructor <;> simp [Repository.empty]
  cache c hc := by cases hc
  dated t ht := by simp [Repository.empty] at ht
  files := ⟨List.nodup_nil, List.nodup_nil, by simp [Repository.empty]⟩
  stored t ht := by simp [Repository.empty] at ht

theorem Inv.uncached {r : Repository} (hr : Inv r) : Inv { r with cache := none } where
  ok := hr.ok
  cache c hc := by cases hc
  dated := hr.dated
  files := hr.files
  stored := hr.stored

theorem Inv.rewritten {r : Repository} (hr : Inv r) {db : Db} (hok : db.Ok) (hdated : db.Dated)
    (hplace : db.nodes.map place = r.db.nodes.map place)
    (hnodes : ∀ c : Cache, c.Ok r.db.nodes → c.Ok db.nodes) : Inv { r with db := db } where
  ok := hok
  cache c hc := hnodes c (hr.cache c hc)
  dated := hdated
  files := hr.files
  stored t ht := hr.stored t (hplace ▸ ht)

section
variable {S : Sources} {C : Checkout} {r : Repository}

theorem persist_none {f : Path × String}
    (hp : persistGraph S.tools.host r.db r.cache (parseSourceGraph S.tools C f.1 f.2) = none) :
    persist S C r f = { r with cache := r.cache.map fun _ => Cache.fromNodes r.db.nodes } := by
  simp only [persist, hp]

theorem persist_some {f : Path × String} {db : Db} {cache : Option Cache}
    (hp : persistGraph S.tools.host r.db r.cache (parseSourceGraph S.tools C f.1 f.2) = some (db, cache)) :
    persist S C r f =
      { upsertSourceFile r f with
        db := db
        cache := cache
        bodies := (namedIds r.db (parseSourceGraph S.tools C f.1 f.2)).foldl
          (setBody (sourceFileId (upsertSourceFile r f).files f.1) (S.outline C f.1 f.2).spans) r.bodies } := by
  have hwritten : upsertSourceFiles (parseSourceGraph S.tools C f.1 f.2) r = upsertSourceFile r f := by
    rw [upsertSourceFiles, moduleByFile_eq]
    rfl
  simp only [persist, hp, hwritten]

theorem persist_stored (hr : Inv r) {f : Path × String} {db : Db} {cache : Option Cache}
    (hp : persistGraph S.tools.host r.db r.cache (parseSourceGraph S.tools C f.1 f.2) = some (db, cache)) :
    ∀ t ∈ db.nodes.map place, Stored (persist S C r f) t := by
  intro t ht
  have hfiles : (persist S C r f).files = (upsertSourceFile r f).files := by rw [persist_some hp]
  have hbodies : (persist S C r f).bodies = (namedIds r.db (parseSourceGraph S.tools C f.1 f.2)).foldl
      (setBody (sourceFileId (upsertSourceFile r f).files f.1) (S.outline C f.1 f.2).spans) r.bodies := by
    rw [persist_some hp]
  rw [Stored, hfiles, hbodies]
  have hplace : t.2 = f.1 ∧ Named r.db (parseSourceGraph S.tools C f.1 f.2) t.1 ∨
      t.2 ≠ f.1 ∧ ¬Named r.db (parseSourceGraph S.tools C f.1 f.2) t.1 ∧ t ∈ r.db.nodes.map place := by
    have hne : (parseSourceGraph S.tools C f.1 f.2).nodes ≠ [] := by
      simp [parseSourceGraph, S.extracts, Outline.graph]
    simp only [persistGraph, hne, if_false, Option.map_eq_some_iff, Prod.mk.injEq] at hp
    obtain ⟨mid, hmid, rfl, -⟩ := hp
    rw [persistEdges_map place_blind fun _ _ _ => rfl] at ht
    simpa only [parsed_paths] using persistNodes_place hr.ok hmid ht
  rcases hplace with ⟨hpath, hnamed⟩ | ⟨hpath, hnamed, hold⟩
  · obtain ⟨i, hi, hholds⟩ := upsert_own r f.1 f.2
    obtain ⟨q, s, hs, hbody⟩ := @setBodies_own (sourceFileId (upsertSourceFile r f).files f.1) _ _ r.bodies _
      (fun x hx => named_span f.1 f.2 hx) hnamed
    refine ⟨f.2, i, hpath ▸ hholds, ?_, ?_⟩
    · rw [hbody]
      exact hi
    · rw [hbody]
      exact spans_fit _ hs
  · obtain ⟨text, i, hholds, hid, hfits⟩ := hr.stored t hold
    refine ⟨text, i, upsert_other hpath hholds, ?_, ?_⟩
    · rw [setBodies_other hnamed]
      exact hid
    · rw [setBodies_other hnamed]
      exact hfits

theorem inv_persist (hr : Inv r) (f : Path × String) : Inv (persist S C r f) := by
  cases hp : persistGraph S.tools.host r.db r.cache (parseSourceGraph S.tools C f.1 f.2) with
  | none =>
    rw [persist_none hp]
    refine ⟨hr.ok, ?_, hr.dated, hr.files, hr.stored⟩
    intro c hc
    obtain ⟨-, -, rfl⟩ := Option.map_eq_some_iff.mp hc
    exact Cache.fromNodes_ok
  | some out =>
    obtain ⟨hok, hcache⟩ := persistGraph_ok hr.ok hr.cache hp
    have hdated := persistGraph_dated hr.ok hr.cache hr.dated hp
    have hstored := persist_stored hr hp
    rw [persist_some hp] at hstored ⊢
    exact ⟨hok, hcache, hdated, upsert_ok hr.files f.1 f.2, hstored⟩

theorem follows_persist (hr : Inv r) (hf : r.db.Follows) (f : Path × String) : (persist S C r f).db.Follows := by
  cases hp : persistGraph S.tools.host r.db r.cache (parseSourceGraph S.tools C f.1 f.2) with
  | none =>
    rw [persist_none hp]
    exact hf
  | some out =>
    rw [persist_some hp]
    exact persistGraph_follows hr.ok hr.cache hr.dated hp hf

theorem inv_delete (hr : Inv r) (doomed : Path → Bool) : Inv (write S C r (.delete doomed)) where
  ok := deleteNodes_ok hr.ok _
  cache c hc := by cases hc
  dated := delete_dated hr.dated _
  files := by
    refine ⟨hr.files.ids.sublist (List.filter_sublist.map _), hr.files.paths.sublist (List.filter_sublist.map _), ?_⟩
    intro f hf
    exact hr.files.fresh f (List.mem_filter.mp hf).1
  stored t ht := by
    have hplace : t ∈ r.db.nodes.map place ∧ doomed t.2 = false := by
      obtain ⟨n, hn, rfl⟩ := List.mem_map.mp ht
      obtain ⟨hn, hd⟩ := List.mem_filter.mp hn
      have hmem : place n ∈ r.db.nodes.map place := by
        rw [← detach_map place_blind ((r.db.nodes.filter (doomed ·.filePath)).map (·.id)) r.db.nodes]
        exact List.mem_map_of_mem hn
      refine ⟨hmem, ?_⟩
      by_contra hx
      obtain ⟨m, hm, he⟩ := List.mem_map.mp hmem
      simp only [place, Prod.mk.injEq] at he
      have hdoomed : n.id ∈ (r.db.nodes.filter (doomed ·.filePath)).map (·.id) :=
        List.mem_map.mpr ⟨m, List.mem_filter.mpr ⟨hm, by rw [he.2]; simpa [place] using hx⟩, he.1⟩
      exact absurd hdoomed (of_decide_eq_true hd)
    obtain ⟨text, i, hholds, hid, hfits⟩ := hr.stored t hplace.1
    exact ⟨text, i, List.mem_filter.mpr ⟨hholds, by simp [hplace.2]⟩, hid, hfits⟩

theorem inv_write (hr : Inv r) (w : Write) : Inv (write S C r w) := by
  cases w with
  | delete doomed => exact inv_delete hr doomed
  | rebuild =>
    have hblind : ∀ {β : Type} {π : CodeNode → β},
        (∀ n callees callers, π { n with callees := callees, callers := callers } = π n) →
        (rebuildRelationships r.db).nodes.map π = r.db.nodes.map π := by
      intro β π hπ
      simp only [rebuildRelationships, List.map_map]
      exact List.map_congr_left fun n _ => hπ n _ _
    refine hr.rewritten ?_ (rebuildRelationships_dated hr.ok) (hblind fun _ _ _ => rfl) ?_
    · exact ok_congr hr.ok (hblind fun _ _ _ => rfl) (hblind fun _ _ _ => rfl) rfl rfl
    · exact fun c hc => hc.congr (hblind fun _ _ _ => rfl)
  | loadCache =>
    refine ⟨hr.ok, ?_, hr.dated, hr.files, hr.stored⟩
    intro c hc
    cases hc
    exact Cache.fromNodes_ok
  | persist f => exact inv_persist hr f
  | rebuildScoped touched =>
    have hblind : ∀ {β : Type} {π : CodeNode → β}, Blind π →
        (∀ n callees callers, π { n with callees := callees, callers := callers } = π n) →
        (rebuildRelationshipsScoped touched r.db).nodes.map π = r.db.nodes.map π :=
      fun _ harrays => rebuild_map harrays ..
    refine hr.rewritten ?_ (scoped_dated hr.ok hr.dated) (hblind place_blind fun _ _ _ => rfl) ?_
    · exact ok_congr hr.ok (hblind blind_id fun _ _ _ => rfl) (hblind blind_name fun _ _ _ => rfl) rfl rfl
    · exact fun c hc => hc.congr (hblind ⟨fun _ _ => rfl, fun _ _ _ => rfl⟩ fun _ _ _ => rfl)

theorem inv_writes (ws : List Write) (hr : Inv r) : Inv (ws.foldl (write S C) r) := by
  induction ws generalizing r with
  | nil => exact hr
  | cons w ws ih => exact ih (inv_write hr w)

def Plain (w : Write) : Prop := ∀ touched, w ≠ .rebuildScoped touched

theorem follows_write (hr : Inv r) (hf : r.db.Follows) {w : Write} (hw : Plain w) : (write S C r w).db.Follows := by
  cases w with
  | delete doomed => exact delete_follows hf _
  | rebuild => exact follows_of_mirrors (rebuildRelationships_mirrors hr.ok)
  | loadCache => exact hf
  | persist f => exact follows_persist hr hf f
  | rebuildScoped touched => exact absurd rfl (hw touched)

theorem follows_writes (ws : List Write) (hr : Inv r) (hf : r.db.Follows) (hws : ∀ w ∈ ws, Plain w) :
    (ws.foldl (write S C) r).db.Follows := by
  induction ws generalizing r with
  | nil => exact hf
  | cons w ws ih =>
    have hw := hws w (List.mem_cons_self ..)
    exact ih (inv_write hr w) (follows_write hr hf hw) fun v hv => hws v (List.mem_cons_of_mem _ hv)

end

/-! ## An ingest -/

theorem ingestWrites_shape (T : Tools) (C : Checkout) (db : Db) (changes : Option (List GitFileChange)) :
    ∃ ws last, ingestWrites T C db changes = ws ++ last ∧ (∀ w ∈ ws, Plain w) ∧
      (last = [] ∨ ∃ touched, last = [.rebuildScoped touched]) := by
  have hfull : ∀ w ∈ fullWrites T C db, Plain w := by
    unfold fullWrites
    intro w hw touched
    rintro rfl
    split at hw
    · simp at hw
    · simp only [List.cons_append, List.mem_cons, List.mem_append, List.mem_map, reduceCtorEq, false_or, and_false,
        exists_false, or_false] at hw
      split at hw <;> simp at hw
  unfold ingestWrites
  split
  · exact ⟨_, [], by simp, hfull, Or.inl rfl⟩
  · rename_i changes
    split
    · exact ⟨_, [], by simp, hfull, Or.inl rfl⟩
    · unfold incrementalWrites
      split
      · exact ⟨[], [], rfl, by simp, Or.inl rfl⟩
      · refine ⟨_, _, rfl, ?_, ?_⟩
        · intro w hw touched
          rintro rfl
          simp at hw
        · split
          · exact Or.inl rfl
          · exact Or.inr ⟨_, rfl⟩

theorem committed_shape (S : Sources) (r : Repository) (a : Ingest) :
    (∀ w ∈ committed S r a, Plain w) ∨
      ∃ ws touched, committed S r a = ws ++ [.rebuildScoped touched] ∧ ∀ w ∈ ws, Plain w := by
  obtain ⟨ws, last, he, hws, hlast⟩ := ingestWrites_shape S.tools a.checkout r.db a.changes
  unfold committed
  rw [he, List.take_append]
  have htake : ∀ w ∈ ws.take a.written, Plain w := fun w hw => hws w (List.mem_of_mem_take hw)
  rcases hlast with rfl | ⟨touched, rfl⟩
  · left
    simpa using htake
  · cases hk : a.written - ws.length with
    | zero =>
      left
      simpa using htake
    | succ k =>
      right
      refine ⟨ws.take a.written, touched, ?_, htake⟩
      rw [List.take_succ_cons, List.take_nil]

section
variable {S : Sources} {C : Checkout}

theorem persist_file {r : Repository} {w : Walk} (hdb : r.db = w.db) (hcache : r.cache = w.cache) (f : Path × String) :
    (persist S C r f).db = (persistFile S.tools C w f).db ∧
      (persist S C r f).cache = (persistFile S.tools C w f).cache := by
  unfold persistFile
  rw [← hdb, ← hcache]
  cases hp : persistGraph S.tools.host r.db r.cache (parseSourceGraph S.tools C f.1 f.2) with
  | none =>
    rw [persist_none hp]
    exact ⟨rfl, rfl⟩
  | some out =>
    rw [persist_some hp]
    exact ⟨rfl, rfl⟩

theorem persist_files (step : Walk → Path × String → Walk)
    (hstep : ∀ w f, (step w f).db = (persistFile S.tools C w f).db ∧ (step w f).cache = (persistFile S.tools C w f).cache)
    (jobs : List (Path × String)) {r : Repository} {w : Walk} (hdb : r.db = w.db) (hcache : r.cache = w.cache) :
    ((jobs.map .persist).foldl (write S C) r).db = (jobs.foldl step w).db := by
  induction jobs generalizing r w with
  | nil => exact hdb
  | cons f jobs ih =>
    obtain ⟨hdb', hcache'⟩ := persist_file (S := S) (C := C) hdb hcache f
    exact ih (hdb'.trans (hstep w f).1.symm) (hcache'.trans (hstep w f).2.symm)

theorem delete_files (paths : List Path) {r : Repository} (peers : List Nat) :
    ((paths.map fun p => Write.delete (· = p)).foldl (write S C) r).db = (paths.foldl deleteSourceFile (r.db, peers)).1 ∧
      (r.cache = none → ((paths.map fun p => Write.delete (· = p)).foldl (write S C) r).cache = none) := by
  induction paths generalizing r peers with
  | nil => exact ⟨rfl, id⟩
  | cons p paths ih =>
    obtain ⟨hdb, hcache⟩ := ih (r := write S C r (.delete (· = p))) (peers ++ collectDeletePeerIds r.db p)
    exact ⟨hdb, fun _ => hcache rfl⟩

theorem fullWrites_db (r : Repository) : ((fullWrites S.tools C r.db).foldl (write S C) { r with cache := none }).db =
    (ingestFullWalk S.tools C r.db).walk.db := by
  unfold fullWrites ingestFullWalk
  cases selectGoPackages S.tools C (sortKeys ((goFiles S.tools C).map (·.1.packageKey))) with
  | none => rfl
  | some packages =>
    simp only [List.cons_append, List.foldl_cons, List.foldl_append]
    have hpruned : ∀ b : Bool, ((if b = true then [Write.rebuild] else []).foldl (write S C)
        (write S C { r with cache := none } (.delete (· ∉ (presentFiles S.tools C packages).map (·.1))))).db =
          if b = true then rebuildRelationships (deleteFiles (· ∉ (presentFiles S.tools C packages).map (·.1)) r.db)
          else deleteFiles (· ∉ (presentFiles S.tools C packages).map (·.1)) r.db := by
      intro b
      cases b <;> rfl
    apply persist_files (walkFile S.tools C) fun w f => ⟨rfl, rfl⟩
    · exact hpruned _
    · exact congrArg (fun db : Db => some (Cache.fromNodes db.nodes)) (hpruned _)

theorem incrementalWrites_db (r : Repository) (changes : List GitFileChange) :
    ((incrementalWrites S.tools C r.db changes).foldl (write S C) { r with cache := none }).db =
      (ingestIncremental S.tools C r.db changes).walk.db := by
  unfold incrementalWrites ingestIncremental
  cases selectGoPackages S.tools C (goPackageKeys changes) with
  | none => rfl
  | some packages =>
    obtain ⟨hdb, hcache⟩ := delete_files (S := S) (C := C) (deletedPaths S.tools C r.db changes packages)
      (r := { r with cache := none }) []
    have hjobs := persist_files (S := S) (C := C) (persistFile S.tools C) (fun w f => ⟨rfl, rfl⟩)
      (incrementalJobs S.tools C r.db changes packages).1
      (w := { Walk.start r.db none with
        db := ((deletedPaths S.tools C r.db changes packages).foldl deleteSourceFile (r.db, [])).1 }) hdb (hcache rfl)
    simp only [List.foldl_append]
    split
    · exact hjobs
    · exact congrArg (rebuildRelationshipsScoped _) hjobs

/-- **The writes are those of `ingest_checkout`.** -/
theorem ingestWrites_db (r : Repository) (changes : Option (List GitFileChange)) :
    ((ingestWrites S.tools C r.db changes).foldl (write S C) { r with cache := none }).db =
      (ingestCheckout S.tools C r.db changes).walk.db := by
  cases changes with
  | none => exact fullWrites_db r
  | some changes =>
    simp only [ingestWrites, ingestCheckout, ingestIncrementalFromGit]
    split
    · exact fullWrites_db r
    · exact incrementalWrites_db r changes

end

/-- Where an ingest ends with a scoped rebuild, no CALLS edge leaves the rows
the rebuild is given. -/
def Gathers (S : Sources) (r : Repository) (a : Ingest) : Prop :=
  ∀ ws touched, committed S r a = ws ++ [.rebuildScoped touched] →
    Closed (ws.foldl (write S a.checkout) { r with cache := none }).db.edges touched

theorem follows_next {S : Sources} {r : Repository} (hr : Inv r) (hf : r.db.Follows) (a : Ingest) :
    (ingested S r a).db.Follows ↔ Gathers S r a := by
  have hstart := hr.uncached
  unfold ingested
  rcases committed_shape S r a with hplain | ⟨ws, touched, he, hws⟩
  · refine iff_of_true (follows_writes _ hstart hf hplain) ?_
    intro ws touched he
    exact absurd rfl (hplain (.rebuildScoped touched) (he ▸ by simp) touched)
  · have hbefore := follows_writes (S := S) (C := a.checkout) ws hstart hf hws
    have hinv := inv_writes (S := S) (C := a.checkout) ws hstart
    unfold Gathers
    rw [he, List.foldl_append]
    refine (scoped_follows_iff hinv.ok hbefore).trans ⟨?_, fun h => h ws touched rfl⟩
    intro hclosed ws' touched' he'
    obtain ⟨rfl, hlast⟩ := List.append_inj' he' rfl
    cases hlast
    exact hclosed

/-! ## Reading a node -/

section
variable {r : Repository} (hr : Inv r)
include hr

theorem findNode_iff {i : Nat} {n : CodeNode} : findNode r.db.nodes i = some n ↔ n ∈ r.db.nodes ∧ n.id = i :=
  ByKey.find_iff hr.ok.nodup

theorem mem_relatedNodesFromIds {ids : List Nat} {x : RelatedNode} :
    x ∈ r.relatedNodesFromIds ids ↔ ∃ n ∈ r.db.nodes, n.id ∈ ids ∧ r.toRelatedNode n = x := by
  simp only [Repository.relatedNodesFromIds, List.mem_filterMap, Option.map_eq_some_iff, findNode_iff hr]
  constructor
  · rintro ⟨i, hi, n, ⟨hn, rfl⟩, rfl⟩
    exact ⟨n, hn, hi, rfl⟩
  · rintro ⟨n, hn, hi, rfl⟩
    exact ⟨n.id, hi, n, ⟨hn, rfl⟩, rfl⟩

omit hr in
theorem mem_v2Related {i : Nat} {direction : Direction} {x : RelatedNode} :
    x ∈ r.v2Related i direction ↔ ∃ n ∈ r.db.nodes, n.id ∈ r.peerIds i direction ∧ r.toRelatedNode n = x := by
  simp only [Repository.v2Related, Repository.inOrder, List.mem_map, List.mem_insertionSort, List.mem_filter,
    decide_eq_true_eq, and_assoc]

omit hr in
theorem mem_peerIds {i m : Nat} :
    (m ∈ r.peerIds i .outbound ↔ Calls r.db.edges i m) ∧ (m ∈ r.peerIds i .inbound ↔ Calls r.db.edges m i) := by
  rw [calls_iff, calls_iff]
  simp only [Repository.peerIds, List.mem_filterMap, List.mem_map, List.mem_filter, decide_eq_true_eq]
  constructor
  · constructor
    · rintro ⟨e, ⟨he, ht, hs⟩, hm⟩
      exact ⟨e, he, ht, hs, hm⟩
    · rintro ⟨e, he, ht, hs, hm⟩
      exact ⟨e, ⟨he, ht, hs⟩, hm⟩
  · constructor
    · rintro ⟨e, ⟨he, ht, hs⟩, hm⟩
      exact ⟨e, he, ht, hm, hs⟩
    · rintro ⟨e, he, ht, hm, hs⟩
      exact ⟨e, ⟨he, ht, hs⟩, hm⟩

theorem related_same_iff {ids : List Nat} {i : Nat} {direction : Direction} :
    (∀ x, x ∈ r.relatedNodesFromIds ids ↔ x ∈ r.v2Related i direction) ↔
      ∀ m ∈ r.db.nodes.map (·.id), m ∈ ids ↔ m ∈ r.peerIds i direction := by
  have hown : ∀ {n n' : CodeNode}, r.toRelatedNode n = r.toRelatedNode n' → n.id = n'.id :=
    fun he => congrArg RelatedNode.id he
  constructor
  · intro h m hm
    obtain ⟨n, hn, rfl⟩ := List.mem_map.mp hm
    have hx := h (r.toRelatedNode n)
    rw [mem_relatedNodesFromIds hr, mem_v2Related] at hx
    constructor
    · intro hi
      obtain ⟨n', -, hi', he⟩ := hx.mp ⟨n, hn, hi, rfl⟩
      exact hown he ▸ hi'
    · intro hi
      obtain ⟨n', -, hi', he⟩ := hx.mpr ⟨n, hn, hi, rfl⟩
      exact hown he ▸ hi'
  · intro h x
    rw [mem_relatedNodesFromIds hr, mem_v2Related]
    constructor
    · rintro ⟨n, hn, hi, rfl⟩
      exact ⟨n, hn, (h n.id (List.mem_map_of_mem hn)).mp hi, rfl⟩
    · rintro ⟨n, hn, hi, rfl⟩
      exact ⟨n, hn, (h n.id (List.mem_map_of_mem hn)).mpr hi, rfl⟩

/-- **The text agrees** for every row. -/
theorem content_same {n : CodeNode} (hn : n ∈ r.db.nodes) : r.v2NodeContent n.id = (r.bodies n.id).content := by
  obtain ⟨text, i, hholds, hid, hfits⟩ := hr.stored (place n) (List.mem_map_of_mem hn)
  have hid : (r.bodies n.id).sourceFileId = some i := hid
  unfold Repository.v2NodeContent
  rcases hfits with ⟨hs, -⟩ | ⟨a, e, hs, he, hdecode⟩
  · have hs : (r.bodies n.id).startByte = none := hs
    simp only [hid, hs]
  · have hs : (r.bodies n.id).startByte = some a := hs
    have he : (r.bodies n.id).endByte = some e := he
    have hdecode : decodeSlice text.toUTF8 a e = some (r.bodies n.id).content := hdecode
    have hfile : r.files.find? (·.id = i) = some ⟨i, n.filePath, text.toUTF8⟩ :=
      ByKey.find_self hr.files.ids hholds
    simp only [hid, hs, he, hfile]
    by_cases hstop : min text.toUTF8.size e ≤ a
    · have hempty : text.toUTF8.extract a e = ByteArray.empty :=
        ByteArray.extract_eq_empty_iff.mpr (Nat.min_comm .. ▸ hstop)
      rw [decodeSlice, hempty, decode_empty] at hdecode
      simp only [hstop, if_true]
      exact Option.some.inj hdecode
    · simp only [hstop, if_false]
      rw [decodeSlice, extract_min, ← decodeSlice, hdecode, Option.getD_some]

end

/-! ## The two versions -/

/-- Two answers have the same content, and the same callers and callees as
sets. -/
def NodeDetail.Same (d e : NodeDetail) : Prop :=
  d.content = e.content ∧ (∀ x, x ∈ d.callers ↔ x ∈ e.callers) ∧ ∀ x, x ∈ d.callees ↔ x ∈ e.callees

/-- Every node reads alike in version 1 and in version 2. -/
def Agree (r : Repository) : Prop :=
  ∀ i d e, getNodeDetail (some 1) r i = some d → getNodeDetail (some 2) r i = some e → d.Same e

theorem agree_iff {r : Repository} (hr : Inv r) : Agree r ↔ r.db.Follows := by
  have hnode : ∀ n ∈ r.db.nodes, (∀ d e, getNodeDetail (some 1) r n.id = some d →
      getNodeDetail (some 2) r n.id = some e → d.Same e) ↔ SeesLive (r.db.nodes.map (·.id)) r.db.edges n.arrays := by
    intro n hn
    have hfind := (findNode_iff hr).mpr ⟨hn, rfl⟩
    have hread : (∀ d e, getNodeDetail (some 1) r n.id = some d → getNodeDetail (some 2) r n.id = some e → d.Same e) ↔
        (r.bodies n.id).content = r.v2NodeContent n.id ∧
          (∀ x, x ∈ r.relatedNodesFromIds n.callers ↔ x ∈ r.v2Related n.id .inbound) ∧
          ∀ x, x ∈ r.relatedNodesFromIds n.callees ↔ x ∈ r.v2Related n.id .outbound := by
      simp only [getNodeDetail, hfind, Option.map_some, Option.some.injEq]
      constructor
      · intro h
        exact h _ _ rfl rfl
      · rintro h _ _ rfl rfl
        exact h
    rw [hread, related_same_iff hr, related_same_iff hr]
    constructor
    · rintro ⟨-, hin, hout⟩ m hm
      exact ⟨(hout m hm).trans mem_peerIds.1, (hin m hm).trans mem_peerIds.2⟩
    · intro h
      exact ⟨(content_same hr hn).symm, fun m hm => (h m hm).2.trans mem_peerIds.2.symm,
        fun m hm => (h m hm).1.trans mem_peerIds.1.symm⟩
  constructor
  · intro h t ht
    obtain ⟨n, hn, rfl⟩ := List.mem_map.mp ht
    exact (hnode n hn).mp (h n.id)
  · intro h i d e hd he
    obtain ⟨n, hf, -⟩ := Option.map_eq_some_iff.mp hd
    obtain ⟨hn, rfl⟩ := (findNode_iff hr).mp hf
    exact (hnode n hn).mpr (h _ (List.mem_map_of_mem hn)) d e hd he

/-- **Both versions answer alike** after every ingest of a run just when every
scoped rebuild gathers the callers and callees of the rows it is given. -/
theorem versions_agree_iff (S : Sources) (as : List Ingest) :
    (∀ t ∈ trace (next S) .empty as, Agree t.post) ↔ ∀ t ∈ trace (next S) .empty as, Gathers S t.pre t.act := by
  have hinv : ∀ {r a r'}, Inv r → next S r a = some r' → Inv r' := by
    intro r a r' hr hn
    cases hn
    exact inv_writes _ hr.uncached
  have hiff : ∀ r a r', Inv r ∧ r.db.Follows → next S r a = some r' → (Agree r' ↔ Gathers S r a) := by
    intro r a r' hr hn
    rw [agree_iff (hinv hr.1 hn)]
    cases hn
    exact follows_next hr.1 hr.2 a
  have hstep : ∀ r a r', Inv r ∧ r.db.Follows → next S r a = some r' → Agree r' → Inv r' ∧ r'.db.Follows :=
    fun r a r' hr hn hagree => ⟨hinv hr.1 hn, (agree_iff (hinv hr.1 hn)).mp hagree⟩
  exact trace_iff (next S) hiff hstep ⟨inv_empty, fun t ht => by simp [Repository.empty] at ht⟩

/-! ## A deleted caller -/

/-- The file `b.py` declares `b` and, over its whole text, `b.t`, which calls
what the text names. -/
def smallOutline (p : Path) (text : String) : Outline p text :=
  let stem := (Text.rpartitionDot p.name).1
  let node : NodeType → String → ExtractedNode := fun t q =>
    ⟨t, q, q, p, .python, text, none, none, {}, "python:" ++ q⟩
  { module := node .module stem
    lastLine := 1
    declared := [⟨node .function (stem ++ ".t"), 1, 1, 0, text.toUTF8.size, by simp [node], decode_text text⟩]
    edges := [⟨.calls, stem ++ ".t", text⟩]
    isModule := rfl
    wholeText := rfl
    inFile := ⟨rfl, by simp [node]⟩
    ownName := by
      intro d hd
      rw [List.mem_singleton.mp hd]
      intro he
      have := congrArg String.length he
      simp [node] at this }

def smallSources : Sources where
  tools :=
    { host := plainHost
      size := String.length
      selects := fun _ _ _ => some true
      fingerprint := fun _ _ => none
      moduleName := fun p => (Text.rpartitionDot p.name).1
      extract := fun _ p text => (smallOutline p text).graph }
  outline _ := smallOutline
  extracts _ _ _ := rfl

/-- `a.t` and `c.t` call `b.t`. -/
def twoCallers : Ingest :=
  ⟨⟨[(⟨[], "a.py"⟩, "b.t"), (⟨[], "b.py"⟩, "x"), (⟨[], "c.py"⟩, "b.t")], by decide⟩, none, 9⟩

/-- `a.py` is deleted. -/
def oneCaller : Ingest :=
  ⟨⟨[(⟨[], "b.py"⟩, "x"), (⟨[], "c.py"⟩, "b.t")], by decide⟩, some [⟨.deleted, ⟨[], "a.py"⟩, none⟩], 9⟩

def callerIds (version : Nat) (r : Repository) (i : Nat) : Option (List Nat) :=
  (getNodeDetail (some version) r i).map fun d => d.callers.map (·.id)

/-- The scoped rebuild is given `b.t` alone, and drops its caller `c.t`. -/
theorem caller_dropped : ¬∀ (S : Sources) (as : List Ingest), ∀ t ∈ trace (next S) .empty as, Agree t.post := by
  intro h
  have hmem := @trace_last _ _ (next smallSources) .empty _ _ [twoCallers] oneCaller rfl rfl
  have hold : callerIds 1 (ingested smallSources (ingested smallSources .empty twoCallers) oneCaller) 3 = some [] := by
    decide +kernel
  have hnew : callerIds 2 (ingested smallSources (ingested smallSources .empty twoCallers) oneCaller) 3 = some [5] := by
    decide +kernel
  obtain ⟨d, hd, hnone⟩ := Option.map_eq_some_iff.mp hold
  obtain ⟨e, he, hsome⟩ := Option.map_eq_some_iff.mp hnew
  have hsame := (h _ _ _ hmem 3 d e hd he).2.1
  rw [List.map_eq_nil_iff] at hnone
  obtain ⟨x, hx, -⟩ := List.mem_map.mp (hsome ▸ List.mem_singleton_self 5)
  simpa [hnone] using (hsame x).mpr hx

end Cograph.Versions
