import Cograph.ResolveSound

/-!
# The check before rendering and the resolver

`prevalidate_page` looks every placeholder up the way `resolve_page` does, so
the two agree wherever the resolver returns. The resolver needs the slugs of
all documents once a cited one has chunks, and there are none where a document's
suffixed slug has pushed another document's out.
-/

namespace Cograph.CitationResolver

open Wiki

section
variable (lower : Str → Str)

/-! ## Slugs that stay apart -/

/-- The slug a document is given, next to those of the documents before it. -/
def candidate (slugToId : Dict.Items Str Nat) (d : RepoDocument) : Str :=
  let base := filePathToSlug lower d.filePath
  if (Dict.get slugToId base).isSome then base.take 75 ++ ['-'] ++ hexSuffix d.id else base

/-- The slug of the document and the slug with its suffix are both given to
documents before it. -/
def Displaces (before : List RepoDocument) (d : RepoDocument) : Prop :=
  filePathToSlug lower d.filePath ∈ (buildSlugMap lower before).map (·.1) ∧
    (filePathToSlug lower d.filePath).take 75 ++ ['-'] ++ hexSuffix d.id ∈ (buildSlugMap lower before).map (·.1)

def SlugsApart (documents : List RepoDocument) : Prop :=
  ∀ before d after, documents = before ++ d :: after → ¬ Displaces lower before d

theorem buildSlugMap_snoc (before : List RepoDocument) (d : RepoDocument) :
    buildSlugMap lower (before ++ [d]) =
      Dict.put (buildSlugMap lower before) (candidate lower (buildSlugMap lower before) d) d.id := by
  unfold buildSlugMap
  rw [List.foldl_append]
  rfl

theorem get_isSome_iff {κ α : Type} [DecidableEq κ] {d : Dict.Items κ α} {k : κ} : (Dict.get d k).isSome ↔ k ∈ d.map (·.1) := by
  constructor
  · intro h
    obtain ⟨v, hv⟩ := Option.isSome_iff_exists.1 h
    exact List.mem_map_of_mem (Dict.mem_of_get hv)
  · intro h
    obtain ⟨x, hx, rfl⟩ := List.mem_map.1 h
    exact Dict.get_isSome hx

/-- A document displaces another's slug where its own is taken already. -/
theorem displaces_iff {before : List RepoDocument} {d : RepoDocument} :
    Displaces lower before d ↔
      candidate lower (buildSlugMap lower before) d ∈ (buildSlugMap lower before).map (·.1) := by
  unfold Displaces candidate
  by_cases hb : filePathToSlug lower d.filePath ∈ (buildSlugMap lower before).map (·.1)
  · simp only [get_isSome_iff, hb, true_and, if_true]
  · simp only [get_isSome_iff, hb, false_and, if_false]

theorem buildSlugMap_length (documents : List RepoDocument) :
    (buildSlugMap lower documents).length ≤ documents.length := by
  induction documents using List.reverseRecOn with
  | nil => exact Nat.le_refl 0
  | append_singleton before d ih =>
    have hkeys := Dict.put_keys (buildSlugMap lower before) (candidate lower (buildSlugMap lower before) d) d.id
    rw [← buildSlugMap_snoc] at hkeys
    rw [List.length_append, List.length_singleton, ← List.length_map (·.1)]
    rcases hkeys with hk | ⟨-, hk⟩
    · rw [hk, List.length_map]
      omega
    · rw [hk, List.length_append, List.length_map, List.length_singleton]
      omega

theorem SlugsApart.init {before : List RepoDocument} {d : RepoDocument} (h : SlugsApart lower (before ++ [d])) :
    SlugsApart lower before := by
  intro b e a he
  refine h b e (a ++ [d]) ?_
  rw [he, List.append_assoc, List.cons_append]

theorem buildSlugMap_values {documents : List RepoDocument} (h : SlugsApart lower documents) :
    (buildSlugMap lower documents).map (·.2) = documents.map (·.id) := by
  induction documents using List.reverseRecOn with
  | nil => rfl
  | append_singleton before d ih =>
    have hnew : candidate lower (buildSlugMap lower before) d ∉ (buildSlugMap lower before).map (·.1) := fun hm =>
      h before d [] rfl ((displaces_iff lower).2 hm)
    rw [buildSlugMap_snoc, Dict.put_new hnew, List.map_append, List.map_append, ih (h.init)]
    rfl

/-- A displaced slug leaves fewer slugs than documents. -/
theorem buildSlugMap_displaced {before after : List RepoDocument} {d : RepoDocument} (h : Displaces lower before d) :
    (buildSlugMap lower (before ++ d :: after)).length < (before ++ d :: after).length := by
  induction after using List.reverseRecOn with
  | nil =>
    have hkeys := Dict.put_keys (buildSlugMap lower before) (candidate lower (buildSlugMap lower before) d) d.id
    rw [← buildSlugMap_snoc] at hkeys
    rcases hkeys with hk | ⟨hno, -⟩
    · rw [← List.length_map (·.1), hk, List.length_map, List.length_append, List.length_singleton]
      have := buildSlugMap_length lower before
      omega
    · exact absurd ((displaces_iff lower).1 h) hno
  | append_singleton after e ih =>
    have hassoc : before ++ d :: (after ++ [e]) = (before ++ d :: after) ++ [e] := by simp
    have hkeys := Dict.put_keys (buildSlugMap lower (before ++ d :: after))
      (candidate lower (buildSlugMap lower (before ++ d :: after)) e) e.id
    rw [← buildSlugMap_snoc] at hkeys
    rw [hassoc, ← List.length_map (·.1)]
    rcases hkeys with hk | ⟨-, hk⟩
    · rw [hk, List.length_map, List.length_append, List.length_singleton]
      exact Nat.lt_succ_of_lt ih
    · rw [hk, List.length_append, List.length_map, List.length_append, List.length_singleton]
      exact Nat.succ_lt_succ ih

theorem mapM_isSome {α β : Type} (f : α → Option β) (xs : List α) : (xs.mapM f).isSome ↔ ∀ x ∈ xs, (f x).isSome := by
  induction xs with
  | nil => simp
  | cons x xs ih =>
    rw [List.mapM_cons]
    cases hx : f x with
    | none => simp [hx]
    | some y =>
      simp only [Option.bind_eq_bind, Option.bind_some, List.forall_mem_cons, hx, Option.isSome_some, true_and, ← ih]
      cases xs.mapM f <;> simp

/-- Where every document stands in the map, none has displaced another's slug. -/
theorem slugsApart_of_ids {documents : List RepoDocument} (hids : (documents.map (·.id)).Nodup)
    (h : ∀ d ∈ documents, d.id ∈ (buildSlugMap lower documents).map (·.2)) : SlugsApart lower documents := by
  intro before d after hdocs hdisp
  have hlen := @buildSlugMap_displaced lower before after d hdisp
  have hsub : documents.map (·.id) ⊆ (buildSlugMap lower documents).map (·.2) := by
    intro i hi
    obtain ⟨d, hd, rfl⟩ := List.mem_map.1 hi
    exact h d hd
  have hle := (hids.subperm hsub).length_le
  rw [List.length_map, List.length_map, hdocs] at hle
  omega

/-- The slugs can be loaded if and only if no document has displaced another's. -/
theorem loadDocSlugMap_isSome (db : RepoIndex) : (loadDocSlugMap lower db).isSome ↔ SlugsApart lower db.documents := by
  have hids : (loadDocSlugMap lower db).isSome ↔
      ∀ d ∈ db.documents, d.id ∈ (buildSlugMap lower db.documents).map (·.2) := by
    unfold loadDocSlugMap
    simp only [Option.isSome_map, mapM_isSome, get_isSome_iff, Dict.mem_keys_ofItems, List.map_map]
    rfl
  rw [hids]
  constructor
  · exact slugsApart_of_ids lower db.ids
  · intro h d hd
    rw [buildSlugMap_values lower h]
    exact List.mem_map_of_mem hd

/-! ## The slugs as a map of the documents -/

def suffixedSlug (d : RepoDocument) : Str := (filePathToSlug lower d.filePath).take 75 ++ ['-'] ++ hexSuffix d.id

/-- The slugs that documents stand under: that of each, and with its suffix
that of one whose slug an earlier one stands under. -/
inductive Given : List RepoDocument → Str → Prop
  | own (before d) : Given (before ++ [d]) (filePathToSlug lower d.filePath)
  | suffixed {before d} : Given before (filePathToSlug lower d.filePath) → Given (before ++ [d]) (suffixedSlug lower d)
  | earlier {before s} (d) : Given before s → Given (before ++ [d]) s

theorem given_iff {documents : List RepoDocument} {s : Str} :
    Given lower documents s ↔ s ∈ (buildSlugMap lower documents).map (·.1) := by
  constructor
  · intro h
    induction h with
    | own before d =>
      rw [buildSlugMap_snoc, Dict.mem_keys_put, candidate]
      split
      · next hsome => exact .inr (get_isSome_iff.1 hsome)
      · exact .inl rfl
    | @suffixed before d _ ih =>
      rw [buildSlugMap_snoc, Dict.mem_keys_put, candidate]
      rw [if_pos (get_isSome_iff.2 ih)]
      exact .inl rfl
    | earlier d _ ih =>
      rw [buildSlugMap_snoc, Dict.mem_keys_put]
      exact .inr ih
  · intro h
    induction documents using List.reverseRecOn generalizing s with
    | nil => cases h
    | append_singleton before d ih =>
      rw [buildSlugMap_snoc, Dict.mem_keys_put, candidate] at h
      rcases h with rfl | h
      · split
        · next hsome => exact .suffixed (ih (get_isSome_iff.1 hsome))
        · exact .own before d
      · exact .earlier d (ih h)

theorem slugsApart_iff (documents : List RepoDocument) : SlugsApart lower documents ↔
    ∀ before d after, documents = before ++ d :: after →
      ¬(Given lower before (filePathToSlug lower d.filePath) ∧ Given lower before (suffixedSlug lower d)) := by
  simp only [given_iff]
  rfl

theorem buildSlugMap_nodup (documents : List RepoDocument) : ((buildSlugMap lower documents).map (·.1)).Nodup := by
  induction documents using List.reverseRecOn with
  | nil => exact List.nodup_nil
  | append_singleton before d ih =>
    rw [buildSlugMap_snoc]
    exact Dict.put_nodup ih _ _

/-- Where the slugs stay apart, the map leads from each document's id to its
slug and back. -/
theorem slug_of_document {documents : List RepoDocument} (hids : (documents.map (·.id)).Nodup)
    (h : SlugsApart lower documents) {d : RepoDocument} (hd : d ∈ documents) :
    ∃ slug, Dict.get (Dict.ofItems ((buildSlugMap lower documents).map fun x => (x.2, x.1))) d.id = some slug ∧
      Dict.get (buildSlugMap lower documents) slug = some d.id := by
  have hvalues := buildSlugMap_values lower h
  have hmem : d.id ∈ (buildSlugMap lower documents).map (·.2) := by
    rw [hvalues]
    exact List.mem_map_of_mem hd
  obtain ⟨x, hx, hxid⟩ := List.mem_map.1 hmem
  have hswap : ((buildSlugMap lower documents).map fun x => (x.2, x.1)).map (·.1) =
      (buildSlugMap lower documents).map (·.2) := by
    rw [List.map_map]
    rfl
  refine ⟨x.1, ?_, ?_⟩
  · rw [Dict.ofItems_nodup (by rw [hswap, hvalues]; exact hids), ← hxid]
    exact Dict.get_of_nodup (by rw [hswap, hvalues]; exact hids) (List.mem_map_of_mem hx)
  · rw [← hxid]
    exact Dict.get_of_nodup (buildSlugMap_nodup lower documents) hx

/-- The map holds every document once, and leads from its id to its slug and
back, if and only if no document finds its slug and its suffixed slug given. -/
theorem slug_map_bijective (documents : List RepoDocument) (hids : (documents.map (·.id)).Nodup) :
    (∀ d ∈ documents, ((buildSlugMap lower documents).map (·.2)).count d.id = 1 ∧
      ∃ slug, Dict.get (Dict.ofItems ((buildSlugMap lower documents).map fun x => (x.2, x.1))) d.id = some slug ∧
        Dict.get (buildSlugMap lower documents) slug = some d.id) ↔
      ∀ before d after, documents = before ++ d :: after →
        ¬(Given lower before (filePathToSlug lower d.filePath) ∧ Given lower before (suffixedSlug lower d)) := by
  rw [← slugsApart_iff]
  constructor
  · intro h
    refine slugsApart_of_ids lower hids fun d hd => List.count_pos_iff.1 ?_
    rw [(h d hd).1]
    exact Nat.one_pos
  · intro h d hd
    refine ⟨?_, slug_of_document lower hids h hd⟩
    rw [buildSlugMap_values lower h]
    exact List.count_eq_one_of_mem hids (List.mem_map_of_mem hd)

/-- A document and its draft. -/
def twoDrafts : List RepoDocument := [⟨1, "a.md".toList, none⟩, ⟨2, "a.rst".toList, none⟩]

theorem slug_map_bijective_two :
    ((buildSlugMap Str.lower twoDrafts).map (·.2)).count 2 = 1 ∧
      ∃ slug, Dict.get (Dict.ofItems ((buildSlugMap Str.lower twoDrafts).map fun x => (x.2, x.1))) 2 = some slug ∧
        Dict.get (buildSlugMap Str.lower twoDrafts) slug = some 2 := by
  refine (slug_map_bijective Str.lower twoDrafts (by decide)).2 ?_ ⟨2, "a.rst".toList, none⟩ (by decide)
  intro before d after hdocs h
  rcases before with - | ⟨x, - | ⟨y, before⟩⟩
  · cases (given_iff Str.lower).1 h.1
  · obtain ⟨rfl, rfl, -⟩ : _ = x ∧ _ = d ∧ _ := by simpa [twoDrafts] using hdocs
    exact absurd ((given_iff Str.lower).1 h.2) (by decide)
  · simp [twoDrafts] at hdocs

/-- A suffixed slug that another document has takes its place. -/
theorem slug_taken :
    buildSlugMap Str.lower [⟨1, "a-0003.md".toList, none⟩, ⟨2, "a.md".toList, none⟩, ⟨3, "a.rst".toList, none⟩] =
      [("a-0003".toList, 3), ("a".toList, 2)] := by
  decide

/-! ## One placeholder -/

variable (db : RepoIndex) (repo : RepositorySlug)

theorem text_partition (kind : CitationKind) (value : Str) :
    (kind.text ++ ':' :: value).takeWhile (· ≠ ':') = kind.text ∧
      ((kind.text ++ ':' :: value).dropWhile (· ≠ ':')).drop 1 = value := by
  cases kind <;> exact ⟨rfl, rfl⟩

/-- The slugs `resolve_page` has loaded when it comes to a match. -/
def SlugsFor (markdown : Str) (slugs : Dict.Items Str Str) : Prop :=
  ((docTargets markdown).any fun p => loadDocChunks lower db p ≠ []) = true → loadDocSlugMap lower db = some slugs

theorem mem_loadDocChunks {path : Str} {c : DocRow} (hc : c ∈ loadDocChunks lower db path) :
    ∃ d ∈ db.documents, d.filePath = path ∧ c.filePath = path := by
  unfold loadDocChunks at hc
  split at hc
  · split at hc
    · cases hc
    · rename_i d hd
      obtain ⟨hmem, hpath⟩ := ByKey.find_mem hd
      obtain ⟨r, -, rfl⟩ := List.mem_map.1 hc
      exact ⟨d, hmem, hpath, hpath⟩
  · cases hc

theorem node_unresolved (value : Str) : keyUnresolved lower db (CitationKind.node.text ++ ':' :: value) =
    (db.nodes.find? (·.qualifiedName = value)).isNone := by
  unfold keyUnresolved
  simp only [(text_partition .node value).1, (text_partition .node value).2, if_true]

theorem doc_unresolved (value : Str) : keyUnresolved lower db (CitationKind.doc.text ++ ':' :: value) =
    decide (hasMarkdownExtension lower (normaliseFilePath (splitDocAnchor value).1) = true ∧
      (pickDocChunk lower (loadDocChunks lower db (normaliseFilePath (splitDocAnchor value).1))
        (splitDocAnchor value).2).isNone = true) := by
  have hne : CitationKind.doc.text ≠ CitationKind.node.text := by decide
  unfold keyUnresolved
  simp only [(text_partition .doc value).1, (text_partition .doc value).2, if_neg hne, if_true]

theorem pick_mem {chunks : List DocRow} {heading : Option Str} {c : DocRow}
    (h : pickDocChunk lower chunks heading = some c) : c ∈ chunks := by
  have hne : chunks ≠ [] := by
    rintro rfl
    cases heading <;> simp [pickDocChunk] at h
  obtain ⟨c', hc', hpick⟩ := pick_isSome lower hne heading
  rw [h] at hpick
  exact Option.some.inj hpick ▸ hc'

/-- The resolver reports a placeholder's key if and only if the check does. -/
theorem render_unresolved {markdown : Str} {slugs : Dict.Items Str Str} (hs : SlugsFor lower db markdown slugs)
    {m : Regex.Match} (hm : m ∈ Regex.hits placeholderRe markdown) :
    (render lower db slugs repo m).unresolved = (placeholderKey m).filter (keyUnresolved lower db) := by
  unfold render placeholderKey
  by_cases hv : valueOf m = []
  · rw [if_pos hv, if_pos hv]
    rfl
  rw [if_neg hv, if_neg hv]
  cases hk : kindOf m with
  | node =>
    simp only [renderNode]
    rw [Option.filter_some, node_unresolved]
    cases db.nodes.find? (·.qualifiedName = valueOf m) with
    | none => rfl
    | some row => rfl
  | doc =>
    rw [Option.filter_some, doc_unresolved]
    simp only [renderDoc]
    by_cases hmd : hasMarkdownExtension lower (normaliseFilePath (splitDocAnchor (valueOf m)).1) = true
    · simp only [hmd, not_true_eq_false, if_false, true_and]
      cases hpick : pickDocChunk lower (loadDocChunks lower db (normaliseFilePath (splitDocAnchor (valueOf m)).1))
          (splitDocAnchor (valueOf m)).2 with
      | none => rfl
      | some c =>
        -- The cited document has a chunk, so the slugs of all documents are loaded.
        have hc := pick_mem lower hpick
        obtain ⟨d, hd, hdp, hcp⟩ := mem_loadDocChunks lower db hc
        have htarget : normaliseFilePath (splitDocAnchor (valueOf m)).1 ∈ docTargets markdown :=
          List.mem_filterMap.2 ⟨m, hm, by simp [hv, hk]⟩
        have hload := hs (List.any_eq_true.2 ⟨_, htarget, by simpa using List.ne_nil_of_mem hc⟩)
        obtain ⟨slug, hslug, -⟩ := slug_leads_back lower db hload hd
        simp only [hcp, ← hdp, hslug]
        rfl
    · simp [hmd]

theorem resolvePage_unresolved {markdown : Str} {slugs : Dict.Items Str Str}
    (hs : SlugsFor lower db (withoutBackticks markdown) slugs) :
    (((Regex.hits placeholderRe (withoutBackticks markdown)).map (render lower db slugs repo)).filterMap
      (·.unresolved)).eraseDups = prevalidatePage lower db markdown := by
  rw [prevalidatePage, ← Dict.eraseDups_filter, List.filter_filterMap, List.filterMap_map]
  congr 1
  exact List.filterMap_congr fun m hm => render_unresolved lower db repo hs hm

/-- The page cites a document that has chunks. -/
def CitesChunks (markdown : Str) : Prop :=
  ∃ p ∈ docTargets (withoutBackticks markdown), loadDocChunks lower db p ≠ []

/-- **The check agrees with the resolver.** What the check reports is what the
resolver leaves unresolved, each once, if and only if the page cites no document
with chunks or no document's slug has displaced another's. -/
theorem prevalidate_agrees (markdown : Str) :
    (resolvePage lower db repo markdown).map (·.unresolved.eraseDups) = some (prevalidatePage lower db markdown) ↔
      (CitesChunks lower db markdown → SlugsApart lower db.documents) := by
  have hany : ((docTargets (withoutBackticks markdown)).any fun p => loadDocChunks lower db p ≠ []) = true ↔
      CitesChunks lower db markdown := by
    simp [CitesChunks]
  unfold resolvePage
  simp only
  by_cases hc : CitesChunks lower db markdown
  · rw [if_pos (hany.2 hc), ← loadDocSlugMap_isSome]
    cases hload : loadDocSlugMap lower db with
    | none => simp [hc]
    | some slugs =>
      refine iff_of_true ?_ fun _ => rfl
      rw [Option.map_some, Option.map_some]
      exact congrArg some (resolvePage_unresolved lower db repo fun _ => hload)
  · rw [if_neg (mt hany.1 hc)]
    refine iff_of_true ?_ fun h => absurd h hc
    rw [Option.map_some, Option.map_some]
    exact congrArg some (resolvePage_unresolved lower db repo fun h => absurd (hany.1 h) hc)

end

/-- `a-0003.md`, `a.md` and `a.rst`, whose suffixed slug is the first one's. -/
def threeDocuments : RepoIndex where
  nodes := []
  documents := [⟨1, "a-0003.md".toList, none⟩, ⟨2, "a.md".toList, none⟩, ⟨3, "a.rst".toList, none⟩]
  chunks := [⟨4, 2, 0, []⟩]
  names := List.nodup_nil
  ids := by decide
  paths := by decide

/-- The check passes a page the resolver fails on. -/
theorem prevalidate_disagrees :
    ¬ ∀ (db : RepoIndex) (markdown : Str),
      (resolvePage Str.lower db oneRepo markdown).map (·.unresolved.eraseDups) =
        some (prevalidatePage Str.lower db markdown) :=
  fun h => absurd (h threeDocuments "[[doc:a.md]]".toList) (by decide)

end Cograph.CitationResolver
