import Cograph.LinkResolver
import Mathlib.Data.List.Perm.Basic

/-!
# What a link resolves to

A document answers to its source key, to the last segment of it and to that
without `.md`; to its page id only where nothing else has the name. Of several
documents that answer to a name the last is found. A link is looked up under
its forms in turn, so it is resolved as its path says, and in any order of the
documents alike, just where the first form that is known is known for one
document, and that is the one the path leads to.
-/

namespace Cograph.LinkResolver

/-! ## The table -/

/-- The names a document has in the table, whoever had them before. -/
def names (doc : MdDocument) : List Str :=
  let base := basename doc.sourceKey
  doc.sourceKey :: base :: if isMd base then [stem base] else []

section
variable (digit : Char → Bool)

/-- The name it has where there is no such yet. -/
def pageName (doc : MdDocument) : Option Str := (pageIdFromSourceKey digit doc.sourceKey).map pageKey

/-- The documents that may be found under a name. -/
def claimants (documents : List MdDocument) (name : Str) : List MdDocument :=
  let named := documents.filter (name ∈ names ·)
  if named = [] then documents.filter (pageName digit · = some name) else named

/-- The forms of a link, in the order they are looked up. -/
def forms (href : Str) (sourceKey : Option Str) : List Str :=
  let normalized := Str.lstripDotSlash href
  let base := basename normalized
  href :: (relativePath href sourceKey).toList ++ normalized :: (if isMd normalized then [stem normalized] else []) ++
    base :: (if isMd base then [stem base] else []) ++ ((pageIdFromUrl digit href).map pageKey).toList

/-- The first form that is known is known for one document; where the path of
the link is a source key, for that document. -/
def Unambiguous (documents : List MdDocument) (href : Str) (sourceKey : Option Str) : Prop :=
  ∀ name, (forms digit href sourceKey).find? (claimants digit documents · ≠ []) = some name →
    (claimants digit documents name).length ≤ 1 ∧
      ∀ doc ∈ documents, relativePath href sourceKey = some doc.sourceKey → doc ∈ claimants digit documents name

variable {digit}
variable {lookup : Lookup} {documents documents' : List MdDocument} {doc : MdDocument} {href name : Str}
  {sourceKey : Option Str}

theorem get_indexDocument : Dict.get (indexDocument digit lookup doc) name =
    if name ∈ names doc then some doc.id
    else if pageName digit doc = some name then (Dict.get lookup name).or (some doc.id) else Dict.get lookup name := by
  have hput : ∀ (l : Lookup) (k : Str), Dict.get (Dict.put l k doc.id) name =
      if k = name then some doc.id else Dict.get l name := by
    intro l k
    split
    · next h => rw [h, Dict.get_put_self]
    · next h => rw [Dict.get_put_ne l doc.id h]
  have hnamed : Dict.get (let l := Dict.put (Dict.put lookup doc.sourceKey doc.id) (basename doc.sourceKey) doc.id
      if isMd (basename doc.sourceKey) then Dict.put l (stem (basename doc.sourceKey)) doc.id else l) name =
      if name ∈ names doc then some doc.id else Dict.get lookup name := by
    unfold names
    dsimp only
    split
    · simp only [hput, List.mem_cons, List.not_mem_nil, or_false]
      grind
    · simp only [hput, List.mem_cons, List.not_mem_nil, or_false]
      grind
  unfold indexDocument pageName
  generalize htable : (let l := Dict.put (Dict.put lookup doc.sourceKey doc.id) (basename doc.sourceKey) doc.id
    if isMd (basename doc.sourceKey) then Dict.put l (stem (basename doc.sourceKey)) doc.id else l) = table at hnamed
  dsimp only at htable ⊢
  rw [htable]
  cases pageIdFromSourceKey digit doc.sourceKey with
  | none => simpa using hnamed
  | some pageId =>
    simp only [Option.map_some, Option.some.injEq]
    by_cases hname : pageKey pageId = name
    · subst hname
      by_cases hin : pageKey pageId ∈ names doc
      · rw [if_pos hin] at hnamed ⊢
        rw [hnamed, Option.isSome_some, if_pos rfl, hnamed]
      · rw [if_neg hin] at hnamed ⊢
        rw [if_pos rfl]
        cases hold : Dict.get lookup (pageKey pageId) with
        | none => simp [hnamed, hold]
        | some v => simp [hnamed, hold]
    · rw [if_neg hname]
      split
      · exact hnamed
      · rw [Dict.get_put_ne _ _ hname, hnamed]

/-- The last document that has the name is found, and where none has it the
first that has it as its page id. -/
theorem get_buildLookup (documents : List MdDocument) (name : Str) :
    Dict.get (buildLookup digit documents) name =
      ((documents.reverse.find? (name ∈ names ·)).or (documents.find? (pageName digit · = some name))).map (·.id) := by
  induction documents using List.reverseRecOn with
  | nil => rfl
  | append_singleton documents doc ih =>
    have hsnoc : buildLookup digit (documents ++ [doc]) = indexDocument digit (buildLookup digit documents) doc := by
      unfold buildLookup
      rw [List.foldl_append]
      rfl
    rw [hsnoc, get_indexDocument, ih, List.reverse_append, List.find?_append, List.find?_append]
    by_cases hin : name ∈ names doc
    · simp [hin]
    · by_cases hpage : pageName digit doc = some name <;> simp [hin, hpage]

/-- Of the documents that may be found it is the last or, by page id, the
first. -/
theorem get_claimants (documents : List MdDocument) (name : Str) :
    Dict.get (buildLookup digit documents) name =
      (if documents.filter (name ∈ names ·) = [] then (claimants digit documents name).head?
        else (claimants digit documents name).getLast?).map (·.id) := by
  rw [get_buildLookup, ← List.head?_filter, ← List.head?_filter, List.filter_reverse, List.head?_reverse]
  unfold claimants
  dsimp only
  split
  · next h => rw [h, List.getLast?_nil, Option.none_or]
  · next h =>
    obtain ⟨last, hlast⟩ := Option.isSome_iff_exists.1 (List.getLast?_isSome.2 h)
    rw [hlast, Option.some_or]

theorem claimants_perm (h : documents'.Perm documents) (name : Str) :
    (claimants digit documents' name).Perm (claimants digit documents name) := by
  have hnamed := h.filter (name ∈ names ·)
  unfold claimants
  dsimp only
  by_cases hnil : documents.filter (name ∈ names ·) = []
  · rw [if_pos hnil, if_pos (by simpa [hnil] using hnamed)]
    exact h.filter _
  · rw [if_neg hnil, if_neg fun h' => hnil (by simpa [h'] using hnamed.symm)]
    exact hnamed

theorem claimants_reverse (documents : List MdDocument) (name : Str) :
    claimants digit documents.reverse name = (claimants digit documents name).reverse := by
  unfold claimants
  dsimp only
  simp only [List.filter_reverse, List.reverse_eq_nil_iff]
  split <;> rfl

theorem mem_claimants {doc : MdDocument} (h : doc ∈ claimants digit documents name) : doc ∈ documents := by
  unfold claimants at h
  dsimp only at h
  split at h
  · exact List.mem_of_mem_filter h
  · exact List.mem_of_mem_filter h

theorem get_none_iff : Dict.get (buildLookup digit documents) name = none ↔ claimants digit documents name = [] := by
  rw [get_claimants, Option.map_eq_none_iff]
  split
  · exact List.head?_eq_none_iff
  · exact List.getLast?_eq_none_iff

theorem get_mem {target : Nat} (h : Dict.get (buildLookup digit documents) name = some target) :
    ∃ doc ∈ claimants digit documents name, doc.id = target := by
  rw [get_claimants, Option.map_eq_some_iff] at h
  obtain ⟨doc, hdoc, rfl⟩ := h
  refine ⟨doc, ?_, rfl⟩
  split at hdoc
  · exact List.mem_of_head? hdoc
  · exact List.mem_of_getLast? hdoc

/-- Where the table says the same from the last document to the first, a name
has one claimant. -/
theorem single_of_reverse (hid : (documents.map (·.id)).Nodup)
    (h : Dict.get (buildLookup digit documents.reverse) name = Dict.get (buildLookup digit documents) name) :
    (claimants digit documents name).length ≤ 1 := by
  have hends : (claimants digit documents name).head?.map (·.id) = (claimants digit documents name).getLast?.map (·.id) := by
    rw [get_claimants, get_claimants] at h
    simp only [claimants_reverse, List.head?_reverse, List.getLast?_reverse, List.filter_reverse,
      List.reverse_eq_nil_iff] at h
    split at h
    · exact h.symm
    · exact h
  have hnodup : ((claimants digit documents name).map (·.id)).Nodup := by
    unfold claimants
    dsimp only
    split
    · exact hid.sublist ((List.filter_sublist).map _)
    · exact hid.sublist ((List.filter_sublist).map _)
  rw [← List.head?_map, ← List.getLast?_map] at hends
  rw [← List.length_map (·.id)]
  generalize (claimants digit documents name).map (·.id) = ids at hends hnodup
  cases ids with
  | nil => exact Nat.zero_le 1
  | cons a ids =>
    cases ids with
    | nil => exact le_rfl
    | cons b ids =>
      rw [List.head?_cons, List.getLast?_cons_cons] at hends
      exact absurd (List.mem_of_getLast? hends.symm) (List.nodup_cons.1 hnodup).1

/-! ## A link -/

theorem resolveHref_forms : resolveHref digit href lookup sourceKey = (forms digit href sourceKey).findSome? (Dict.get lookup) := by
  have hmaybe : ∀ o : Option Str, o.toList.findSome? (Dict.get lookup) = o.bind (Dict.get lookup) := by
    intro o
    cases o with
    | none => rfl
    | some k => simp
  have hmd : ∀ s : Str, (if isMd s then [stem s] else []).findSome? (Dict.get lookup) =
      if isMd s then Dict.get lookup (stem s) else none := by
    intro s
    split <;> simp
  unfold resolveHref forms
  simp only [List.cons_append, List.findSome?_cons, List.findSome?_append, hmaybe, hmd]
  cases Dict.get lookup href with
  | some t => rfl
  | none =>
    dsimp only
    cases (relativePath href sourceKey).bind (Dict.get lookup) with
    | some t => rfl
    | none =>
      dsimp only
      cases Dict.get lookup (Str.lstripDotSlash href) with
      | some t => rfl
      | none =>
        dsimp only
        rw [Option.none_or]
        cases if isMd (Str.lstripDotSlash href) then Dict.get lookup (stem (Str.lstripDotSlash href)) else none with
        | some t => rfl
        | none =>
          dsimp only
          rw [Option.none_or]
          cases Dict.get lookup (basename (Str.lstripDotSlash href)) with
          | some t => rfl
          | none =>
            dsimp only
            generalize (if isMd (basename (Str.lstripDotSlash href)) then
              Dict.get lookup (stem (basename (Str.lstripDotSlash href))) else none) = found
            cases found with
            | some t => rfl
            | none => cases pageIdFromUrl digit href <;> rfl

/-- The first known form decides. -/
theorem resolve_first (documents : List MdDocument) (href : Str) (sourceKey : Option Str) :
    resolveHref digit href (buildLookup digit documents) sourceKey =
      ((forms digit href sourceKey).find? (claimants digit documents · ≠ [])).bind (Dict.get (buildLookup digit documents)) := by
  rw [resolveHref_forms]
  induction forms digit href sourceKey with
  | nil => rfl
  | cons name rest ih =>
    rw [List.findSome?_cons, List.find?_cons]
    by_cases hnil : claimants digit documents name = []
    · simp only [get_none_iff.2 hnil, hnil, ne_eq, not_true, decide_false]
      exact ih
    · obtain ⟨t, ht⟩ := Option.ne_none_iff_exists'.1 fun h => hnil (get_none_iff.1 h)
      simp [hnil, ht]

/-- A path that is a source key is a form, and its document has the name. -/
theorem path_known (hdoc : doc ∈ documents) (hpath : relativePath href sourceKey = some doc.sourceKey) :
    ∃ name, (forms digit href sourceKey).find? (claimants digit documents · ≠ []) = some name := by
  rw [← Option.isSome_iff_exists, List.find?_isSome]
  refine ⟨doc.sourceKey, ?_, ?_⟩
  · unfold forms
    simp [hpath]
  · have hin : doc ∈ documents.filter (doc.sourceKey ∈ names ·) := by
      rw [List.mem_filter]
      exact ⟨hdoc, by simp [names]⟩
    unfold claimants
    dsimp only
    rw [if_neg (List.ne_nil_of_mem hin)]
    simpa using List.ne_nil_of_mem hin

end

/-- Whatever the order of the documents a link is resolved alike and, where its
path is a source key, to that document, if and only if it is unambiguous. -/
theorem links_resolved (digit : Char → Bool) (documents : List MdDocument) (href : Str) (sourceKey : Option Str)
    (hid : (documents.map (·.id)).Nodup) :
    (∀ documents' : List MdDocument, documents'.Perm documents →
      resolveHref digit href (buildLookup digit documents') sourceKey =
          resolveHref digit href (buildLookup digit documents) sourceKey ∧
        ∀ doc ∈ documents, relativePath href sourceKey = some doc.sourceKey →
          resolveHref digit href (buildLookup digit documents') sourceKey = some doc.id) ↔
      Unambiguous digit documents href sourceKey := by
  have hknown : ∀ documents' : List MdDocument, documents'.Perm documents →
      (forms digit href sourceKey).find? (claimants digit documents' · ≠ []) =
        (forms digit href sourceKey).find? (claimants digit documents · ≠ []) := by
    intro documents' hperm
    congr 1
    funext name
    have hlen := (@claimants_perm digit _ _ hperm name).length_eq
    have hnil : claimants digit documents' name = [] ↔ claimants digit documents name = [] := by
      rw [← List.length_eq_zero_iff, hlen, List.length_eq_zero_iff]
    simp only [ne_eq, hnil]
  constructor
  · intro h name hname
    have hfind : ∀ documents' : List MdDocument, documents'.Perm documents →
        resolveHref digit href (buildLookup digit documents') sourceKey = Dict.get (buildLookup digit documents') name := by
      intro documents' hperm
      rw [resolve_first, hknown documents' hperm, hname, Option.bind_some]
    refine ⟨single_of_reverse hid ?_, fun doc hdoc hpath => ?_⟩
    · rw [← hfind _ (List.reverse_perm documents), ← hfind _ (List.Perm.refl _)]
      exact (h _ (List.reverse_perm documents)).1
    · have hres := (h documents (List.Perm.refl _)).2 doc hdoc hpath
      rw [hfind _ (List.Perm.refl _)] at hres
      obtain ⟨other, hother, he⟩ := get_mem hres
      rwa [List.inj_on_of_nodup_map hid (mem_claimants hother) hdoc he] at hother
  · intro h documents' hperm
    cases hfind : (forms digit href sourceKey).find? (claimants digit documents · ≠ []) with
    | none =>
      refine ⟨?_, fun doc hdoc hpath => ?_⟩
      · rw [resolve_first, resolve_first, hknown documents' hperm, hfind]
        rfl
      · obtain ⟨name, hname⟩ := path_known hdoc hpath
        rw [hfind] at hname
        cases hname
    | some name =>
      obtain ⟨hlen, hpath⟩ := h name hfind
      have hne : claimants digit documents name ≠ [] := by simpa using List.find?_some hfind
      obtain ⟨doc, hdoc⟩ := List.length_eq_one_iff.1 (Nat.le_antisymm hlen (List.length_pos_iff.2 hne))
      have hone : ∀ documents'' : List MdDocument, documents''.Perm documents →
          resolveHref digit href (buildLookup digit documents'') sourceKey = some doc.id := by
        intro documents'' hperm
        have hsame : claimants digit documents'' name = [doc] :=
          List.perm_singleton.1 (hdoc ▸ claimants_perm hperm name)
        rw [resolve_first, hknown documents'' hperm, hfind, Option.bind_some, get_claimants, hsame]
        split <;> rfl
      refine ⟨(hone _ hperm).trans (hone _ (List.Perm.refl _)).symm, fun other hother hrel => ?_⟩
      have hin := hpath other hother hrel
      rw [hdoc, List.mem_singleton] at hin
      rw [hone _ hperm, hin]

def specs : List MdDocument := [⟨1, 0, "spec.md".toList⟩, ⟨2, 0, "a/spec.md".toList⟩, ⟨3, 0, "x.md".toList⟩]

/-- The name of a document in a directory takes the place of a source key; in
the other order it does not. -/
theorem exact_target_lost :
    relativePath "spec.md".toList (some "x.md".toList) = some "spec.md".toList ∧
      resolveHref Char.isDigit "spec.md".toList (buildLookup Char.isDigit specs) (some "x.md".toList) = some 2 ∧
      resolveHref Char.isDigit "spec.md".toList (buildLookup Char.isDigit specs.reverse) (some "x.md".toList) = some 1 := by
  decide +kernel

theorem links_resolved_specs :
    (∀ documents' : List MdDocument, documents'.Perm specs →
      resolveHref Char.isDigit "a/spec.md".toList (buildLookup Char.isDigit documents') (some "x.md".toList) =
          resolveHref Char.isDigit "a/spec.md".toList (buildLookup Char.isDigit specs) (some "x.md".toList) ∧
        ∀ doc ∈ specs, relativePath "a/spec.md".toList (some "x.md".toList) = some doc.sourceKey →
          resolveHref Char.isDigit "a/spec.md".toList (buildLookup Char.isDigit documents') (some "x.md".toList) =
            some doc.id) ↔
      Unambiguous Char.isDigit specs "a/spec.md".toList (some "x.md".toList) :=
  links_resolved Char.isDigit specs "a/spec.md".toList (some "x.md".toList) (by decide)

/-- A collection's links are resolved in the table of its documents. -/
theorem resolveCollection_target {digit : Char → Bool} {collectionId : Nat} {documents : List MdDocument}
    {links : List MdLink} {doc : MdDocument} {link : MdLink} (hid : (documents.map (·.id)).Nodup)
    (hdoc : doc ∈ documents) (hcoll : doc.collectionId = collectionId) (hlink : link ∈ links)
    (hsource : link.sourceDocumentId = doc.id) (hnone : link.targetDocumentId = none) :
    { link with
        targetDocumentId :=
          resolveHref digit link.href (buildLookup digit (documents.filter (·.collectionId = collectionId)))
            (some doc.sourceKey) } ∈
      (resolveCollection digit collectionId documents links).1 := by
  have hfind : documents.find? (fun d => d.id = link.sourceDocumentId ∧ d.collectionId = collectionId) = some doc := by
    cases hf : documents.find? (fun d => d.id = link.sourceDocumentId ∧ d.collectionId = collectionId) with
    | none => exact absurd (List.find?_eq_none.1 hf doc hdoc) (by simp [hsource, hcoll])
    | some d =>
      have hd := List.find?_some hf
      simp only [hsource, decide_eq_true_eq] at hd
      rw [List.inj_on_of_nodup_map hid (List.mem_of_find?_eq_some hf) hdoc hd.1]
  refine List.mem_map.2 ⟨link, hlink, ?_⟩
  dsimp only
  rw [hfind, hnone]
  simp

end Cograph.LinkResolver
