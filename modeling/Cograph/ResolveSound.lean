import Cograph.Resolve
import Cograph.ByKey
import Cograph.CitationsSound

/-!
# One document path, one verdict

The citation gate, the coverage gate and the resolver read the same path off a
document placeholder. A path that begins with a letter of its own is read off
as it stands, so a document that is verified and indexed is accepted by the
gates and, where it is a text of documentation, linked by the resolver.
-/

namespace Cograph.CitationResolver

open Wiki

theorem same_path (v : Str) : normaliseFilePath (splitDocAnchor (Str.strip v)).1 = stripDocAnchor (Str.strip v) := by
  unfold normaliseFilePath splitDocAnchor stripDocAnchor
  split
  · rename_i h
    rw [List.takeWhile_eq_self_iff.2]
    intro c hc
    simp only [ne_eq, decide_eq_true_eq]
    exact fun he => h (he ▸ hc)
  · simp

/-! ## Paths that read as they stand -/

/-- A path that a placeholder can carry: it is trimmed, begins with neither a
dot nor a slash, and holds neither a `#` nor a bracket. -/
structure Citable (p : Str) : Prop where
  ne_nil : p ≠ []
  trimmed : Str.strip p = p
  start : ∀ c, p.head? = some c → c ≠ '.' ∧ c ≠ '/'
  plain : '#' ∉ p ∧ ']' ∉ p

/-- The value of the placeholder for a path and an anchor. -/
def target (p : Str) : Option Str → Str
  | none => p
  | some a => p ++ '#' :: a

section
variable {p : Str} (hp : Citable p)
include hp

theorem target_strip (anchor : Option Str) :
    Str.strip (target p anchor) = p ∨ ∃ a, Str.strip (target p anchor) = p ++ '#' :: a := by
  cases anchor with
  | none => exact .inl hp.trimmed
  | some a =>
    right
    have hl : Str.lstrip (p ++ '#' :: a) = p ++ '#' :: a := by
      apply Str.lstrip_of_head
      intro c hc
      rw [List.head?_append_of_ne_nil _ hp.ne_nil, ← hp.trimmed] at hc
      exact Str.lstrip_head p (Str.rstrip_head hc)
    have hr : ∀ w : Str, ∃ w', (w ++ '#' :: p.reverse).dropWhile Str.isSpace = w' ++ '#' :: p.reverse := by
      intro w
      induction w with
      | nil => exact ⟨[], by simp [Str.isSpace]⟩
      | cons c w ih =>
        by_cases hc : Str.isSpace c = true
        · simpa [hc] using ih
        · exact ⟨c :: w, by simp [hc]⟩
    obtain ⟨w, hw⟩ := hr a.reverse
    refine ⟨w.reverse, ?_⟩
    rw [target, Str.strip, hl, Str.rstrip]
    simp [hw]

theorem target_path (anchor : Option Str) : stripDocAnchor (Str.strip (target p anchor)) = p := by
  have hdrop : Str.lstripDotSlash p = p := by
    cases hc : p with
    | nil => rfl
    | cons c w =>
      have := hp.start c (by simp [hc])
      simp [Str.lstripDotSlash, this.1, this.2]
  have htake : ∀ a, (p ++ '#' :: a).takeWhile (· ≠ '#') = p := by
    intro a
    rw [List.takeWhile_append_of_pos]
    · simp
    · intro c hc
      simp only [ne_eq, decide_eq_true_eq]
      exact fun he => hp.plain.1 (he ▸ hc)
  rcases target_strip hp anchor with h | ⟨a, h⟩
  · rw [h, stripDocAnchor, List.takeWhile_eq_self_iff.2, hp.trimmed, hdrop]
    intro c hc
    simp only [ne_eq, decide_eq_true_eq]
    exact fun he => hp.plain.1 (he ▸ hc)
  · rw [h, stripDocAnchor, htake, hp.trimmed, hdrop]

theorem target_ne_nil (anchor : Option Str) : Str.strip (target p anchor) ≠ [] := by
  rcases target_strip hp anchor with h | ⟨a, h⟩
  · rw [h]
    exact hp.ne_nil
  · simp [h]

end

/-! ## The three verdicts -/

section
variable (ledger : Ledger) (mode : DocPathMatch)

theorem gate_verdict (v : Str) : verified ledger mode .doc v = true ↔
    stripDocAnchor v ≠ [] ∧ stripDocAnchor v ∈ ledger.verifiedDocPaths := by
  unfold verified docPathVerified
  by_cases h : stripDocAnchor v = []
  · simp [h]
  · cases mode <;> simp [h]

theorem coverage_verdict {m : Regex.Match} (hk : kindOf m = .doc) (hv : valueOf m ≠ []) :
    citesEvidence ledger m = verified ledger mode .doc (valueOf m) := by
  rw [Bool.eq_iff_iff, gate_verdict]
  unfold citesEvidence
  simp [hk, hv, stripDocAnchor]

end

section
variable (lower : Str → Str) (db : RepoIndex)

theorem pick_isSome {chunks : List DocRow} (h : chunks ≠ []) (heading : Option Str) :
    ∃ c ∈ chunks, pickDocChunk lower chunks heading = some c := by
  obtain ⟨c, rest, rfl⟩ := List.exists_cons_of_ne_nil h
  cases heading with
  | none => exact ⟨c, by simp, rfl⟩
  | some a =>
    simp only [pickDocChunk]
    generalize hf : List.find? _ (c :: rest) = found
    cases found with
    | none => exact ⟨c, by simp, rfl⟩
    | some x => exact ⟨x, List.mem_of_find?_eq_some hf, rfl⟩

theorem mem_chunks {d : RepoDocument} (hd : d ∈ db.documents) (hmd : hasMarkdownExtension lower d.filePath = true)
    {r : DocRow} : r ∈ loadDocChunks lower db d.filePath ↔
      ∃ c ∈ db.chunks, c.documentId = d.id ∧ r = ⟨c.id, d.filePath, d.title, c.headingPath⟩ := by
  have hfind : db.documents.find? (·.filePath = d.filePath) = some d := ByKey.find_self db.paths hd
  unfold loadDocChunks
  rw [if_pos hmd, hfind]
  simp only [List.mem_map, (List.perm_insertionSort _ _).mem_iff, List.mem_filter, decide_eq_true_eq]
  grind

theorem buildSlugMap_keys : ((buildSlugMap lower db.documents).map (·.1)).Nodup := by
  have hfold : ∀ (ds : List RepoDocument) (d : Dict.Items Str Nat), (d.map (·.1)).Nodup →
      ((ds.foldl (fun slugToId d =>
        let base := filePathToSlug lower d.filePath
        let candidate := if (Dict.get slugToId base).isSome then base.take 75 ++ ['-'] ++ hexSuffix d.id else base
        Dict.put slugToId candidate d.id) d).map (·.1)).Nodup := by
    intro ds
    induction ds with
    | nil => intro d hd; exact hd
    | cons x ds ih => intro d hd; exact ih _ (Dict.put_nodup hd _ _)
  exact hfold db.documents [] List.nodup_nil

theorem slug_leads_back {slugs : Dict.Items Str Str} (hs : loadDocSlugMap lower db = some slugs) {d : RepoDocument}
    (hd : d ∈ db.documents) : ∃ slug, Dict.get slugs d.filePath = some slug ∧
      Dict.get (buildSlugMap lower db.documents) slug = some d.id := by
  unfold loadDocSlugMap at hs
  dsimp only at hs
  generalize hid : Dict.ofItems ((buildSlugMap lower db.documents).map fun x => (x.2, x.1)) = idToSlug at hs
  rw [Option.map_eq_some_iff] at hs
  obtain ⟨items, hitems, rfl⟩ := hs
  have hall : ∀ (ds : List RepoDocument) (items : Dict.Items Str Str),
      (ds.mapM fun d => (Dict.get idToSlug d.id).map fun slug => (d.filePath, slug)) = some items →
      (∀ d ∈ ds, d.filePath ∈ items.map (·.1)) ∧
        ∀ x ∈ items, ∃ d ∈ ds, d.filePath = x.1 ∧ Dict.get idToSlug d.id = some x.2 := by
    intro ds
    induction ds with
    | nil =>
      intro items h
      obtain rfl : items = [] := by simpa using h
      simp
    | cons e ds ih =>
      intro items h
      rw [List.mapM_cons] at h
      cases he : Dict.get idToSlug e.id with
      | none => simp [he] at h
      | some slug =>
        simp only [he, Option.map_some, Option.bind_eq_bind, Option.bind_some, Option.bind_eq_some_iff] at h
        obtain ⟨rest, hrest, hcons⟩ := h
        obtain ⟨h₁, h₂⟩ := ih rest hrest
        obtain rfl : (e.filePath, slug) :: rest = items := by simpa using hcons
        constructor
        · intro d hd
          rcases List.mem_cons.1 hd with rfl | hd
          · simp
          · exact List.mem_cons_of_mem _ (h₁ d hd)
        · intro x hx
          rcases List.mem_cons.1 hx with rfl | hx
          · exact ⟨e, by simp, rfl, he⟩
          · obtain ⟨d, hd, h⟩ := h₂ x hx
            exact ⟨d, List.mem_cons_of_mem _ hd, h⟩
  obtain ⟨hkeys, hrows⟩ := hall _ _ hitems
  have hmem := Dict.mem_keys_ofItems.2 (hkeys d hd)
  obtain ⟨x, hx, hxd⟩ := List.mem_map.1 hmem
  have hsome : (Dict.get (Dict.ofItems items) d.filePath).isSome := Dict.get_isSome (v := x.2) (hxd ▸ hx)
  obtain ⟨slug, hslug⟩ := Option.isSome_iff_exists.1 hsome
  obtain ⟨d', hd', hpath, hget⟩ := hrows _ (Dict.mem_ofItems (Dict.mem_of_get hslug))
  obtain rfl : d' = d := List.inj_on_of_nodup_map db.paths hd' hd hpath
  refine ⟨slug, hslug, Dict.get_of_nodup (buildSlugMap_keys lower db) ?_⟩
  rw [← hid] at hget
  obtain ⟨y, hy, hyd⟩ := List.mem_map.1 (Dict.mem_ofItems (Dict.mem_of_get hget))
  simp only [Prod.mk.injEq] at hyd
  rw [← hyd.1, ← hyd.2]
  exact hy

/-! ## What the resolver makes of a placeholder -/

variable (repo : RepositorySlug)

/-- A placeholder of a document that is no text of documentation is put in
prose, the others of an indexed document are linked. -/
def Resolved (d : RepoDocument) (slugs : Dict.Items Str Str) (m : Regex.Match) : Prop :=
  (render lower db slugs repo m).unresolved = none ∧
  if hasMarkdownExtension lower d.filePath then
    ∃ c ∈ db.chunks, c.documentId = d.id ∧ ∃ slug label,
      Dict.get (buildSlugMap lower db.documents) slug = some d.id ∧
      (render lower db slugs repo m).text = link label (docAnchor lower repo slug (splitDocAnchor (valueOf m)).2) ∧
      ((render lower db slugs repo m).citation.map (·.key)) = some (false, c.id)
  else (render lower db slugs repo m).citation = none

theorem render_prose {d : RepoDocument} (hmd : hasMarkdownExtension lower d.filePath = false)
    (slugs : Dict.Items Str Str) {m : Regex.Match} {v : Str} (hk : kindOf m = .doc) (hm : valueOf m = Str.strip v)
    (hne : valueOf m ≠ []) (hpath : stripDocAnchor (valueOf m) = d.filePath) : Resolved lower db repo d slugs m := by
  have hsame : normaliseFilePath (splitDocAnchor (valueOf m)).1 = d.filePath := by
    rw [← hpath, hm, same_path]
  unfold Resolved render
  rw [if_neg hne, hk]
  simp [renderDoc, hsame, hmd]

theorem render_indexed {d : RepoDocument} (hd : d ∈ db.documents) {c : RepoDocumentChunk} (hc : c ∈ db.chunks)
    (hcd : c.documentId = d.id) {slugs : Dict.Items Str Str} (hs : loadDocSlugMap lower db = some slugs)
    {m : Regex.Match} {v : Str} (hk : kindOf m = .doc) (hm : valueOf m = Str.strip v) (hne : valueOf m ≠ [])
    (hpath : stripDocAnchor (valueOf m) = d.filePath) : Resolved lower db repo d slugs m := by
  by_cases hmd : hasMarkdownExtension lower d.filePath = true
  · have hsame : normaliseFilePath (splitDocAnchor (valueOf m)).1 = d.filePath := by
      rw [← hpath, hm, same_path]
    have hchunks : loadDocChunks lower db d.filePath ≠ [] :=
      List.ne_nil_of_mem ((mem_chunks lower db hd hmd).2 ⟨c, hc, hcd, rfl⟩)
    obtain ⟨r, hr, hpick⟩ := pick_isSome lower hchunks (splitDocAnchor (valueOf m)).2
    obtain ⟨c', hc', hcd', rfl⟩ := (mem_chunks lower db hd hmd).1 hr
    obtain ⟨slug, hslug, hback⟩ := slug_leads_back lower db hs hd
    unfold Resolved render
    rw [if_neg hne, hk]
    simp only [renderDoc, hsame, hmd, hpick, hslug, not_true_eq_false, if_false, if_true, true_and]
    exact ⟨c', hc', hcd', slug, _, hback, rfl, rfl⟩
  · exact render_prose lower db repo (by simpa using hmd) slugs hk hm hne hpath

theorem mem_citations {k : Bool × Nat} (cs citations : List ResolvedCitation) :
    k ∈ (cs.foldl addCitation citations).map (·.key) ↔ k ∈ citations.map (·.key) ∨ k ∈ cs.map (·.key) := by
  induction cs generalizing citations with
  | nil => simp
  | cons c cs ih =>
    rw [List.foldl_cons, ih]
    unfold addCitation
    split
    · simp only [List.map_cons, List.mem_cons]
      grind
    · simp only [List.map_append, List.map_cons, List.map_nil, List.mem_append, List.mem_cons]
      grind

/-- A page with a placeholder of an indexed document is resolved, and the
placeholder is not among the unresolved. -/
theorem resolvePage_indexed {d : RepoDocument} (hd : d ∈ db.documents) {c : RepoDocumentChunk} (hc : c ∈ db.chunks)
    (hcd : c.documentId = d.id) {slugs : Dict.Items Str Str} (hs : loadDocSlugMap lower db = some slugs)
    {v : Str} (hne : Str.strip v ≠ []) (hpath : stripDocAnchor (Str.strip v) = d.filePath)
    {markdown : Str} (hm : citationMatch .doc v ∈ cites (withoutBackticks markdown)) :
    ∃ page slugs', resolvePage lower db repo markdown = some page ∧
      page.markdown = Regex.sub placeholderRe (fun m => (render lower db slugs' repo m).text)
        (withoutBackticks markdown) ∧
      Resolved lower db repo d slugs' (citationMatch .doc v) ∧
      (hasMarkdownExtension lower d.filePath = true → ∃ c' ∈ db.chunks, c'.documentId = d.id ∧
        (false, c'.id) ∈ page.citations.map (·.key)) := by
  have hvalue : valueOf (citationMatch .doc v) = Str.strip v := valueOf_citation .doc v
  have hsame : normaliseFilePath (splitDocAnchor (Str.strip v)).1 = d.filePath := by
    rw [same_path, hpath]
  have htarget : d.filePath ∈ docTargets (withoutBackticks markdown) :=
    List.mem_filterMap.2 ⟨_, hm, by simp [hvalue, hne, hsame]⟩
  unfold resolvePage
  dsimp only
  by_cases hmd : hasMarkdownExtension lower d.filePath = true
  · have hany : ((docTargets (withoutBackticks markdown)).any fun p => loadDocChunks lower db p ≠ []) = true := by
      rw [List.any_eq_true]
      exact ⟨_, htarget, by simpa using List.ne_nil_of_mem ((mem_chunks lower db hd hmd).2 ⟨c, hc, hcd, rfl⟩)⟩
    have hres := render_indexed lower db repo hd hc hcd hs (kindOf_citation .doc v) hvalue (by rwa [hvalue])
      (by rwa [hvalue])
    rw [if_pos hany, hs]
    refine ⟨_, slugs, rfl, rfl, hres, fun _ => ?_⟩
    unfold Resolved at hres
    rw [if_pos hmd] at hres
    obtain ⟨-, c', hc', hcd', _, _, -, -, hkey⟩ := hres
    refine ⟨c', hc', hcd', (mem_citations _ _).2 (.inr ?_)⟩
    rw [Option.map_eq_some_iff] at hkey
    obtain ⟨r, hr, hrk⟩ := hkey
    exact List.mem_map.2 ⟨r, List.mem_filterMap.2 ⟨_, List.mem_map_of_mem hm, hr⟩, hrk⟩
  · have hprose := fun slugs => render_prose lower db repo (by simpa using hmd) slugs (kindOf_citation .doc v) hvalue
      (by rwa [hvalue]) (by rwa [hvalue])
    split
    · rw [hs]
      exact ⟨_, slugs, rfl, rfl, hprose slugs, fun h => absurd h hmd⟩
    · exact ⟨_, [], rfl, rfl, hprose [], fun h => absurd h hmd⟩

end

theorem cites_citation {kind : CitationKind} {v : Str} (hv : Valued v) :
    cites (citation kind v) = [citationMatch kind v] := by
  have hm : Regex.matchAt placeholderRe [] (citation kind v) = some (citationMatch kind v) :=
    matchAt_placeholder.2 ⟨kind, v, [], hv, by simp, rfl⟩
  rw [cites, Regex.hits, Regex.scan_hit hm (List.append_nil _).symm]
  rfl

/-- A placeholder value from which the path `p` is read off. -/
def ReadAs (v p : Str) : Prop := Valued v ∧ Str.strip v ≠ [] ∧ stripDocAnchor (Str.strip v) = p

theorem target_read {p : Str} (hp : Citable p) {anchor : Option Str} (ha : ∀ a, anchor = some a → ']' ∉ a) :
    ReadAs (target p anchor) p := by
  refine ⟨⟨?_, ?_⟩, target_ne_nil hp anchor, target_path hp anchor⟩
  · cases anchor <;> simp [target, hp.ne_nil]
  · cases anchor with
    | none => exact hp.plain.2
    | some a => simp [target, hp.plain.2, ha a rfl]

/-- **One path, one verdict.** The gates agree on every document placeholder. A
citable path is read off its placeholders as it stands, with or without an
anchor. And a placeholder read as the path of a document that is verified and
indexed is accepted, is grounding, and is resolved to the document. -/
theorem doc_path_one_verdict (lower : Str → Str) (db : RepoIndex) (ledger : Ledger) (mode : DocPathMatch) :
    (∀ m, kindOf m = .doc → valueOf m ≠ [] → citesEvidence ledger m = verified ledger mode .doc (valueOf m)) ∧
    (∀ p anchor, Citable p → (∀ a, anchor = some a → ']' ∉ a) → ReadAs (target p anchor) p) ∧
    ∀ d ∈ db.documents, ∀ c ∈ db.chunks, c.documentId = d.id → d.filePath ∈ ledger.verifiedDocPaths →
      (loadDocSlugMap lower db).isSome → ∀ v, ReadAs v d.filePath →
      (∀ markdown, ∀ x ∈ validateCitations markdown ledger mode, (x.kind, x.value) ≠ (.doc, Str.strip v)) ∧
      (∀ body, citationMatch .doc v ∈ cites body → sectionHasVerifiedEvidence body ledger = true) ∧
      ∀ repo markdown, citationMatch .doc v ∈ cites (withoutBackticks markdown) →
        ∃ page slugs, resolvePage lower db repo markdown = some page ∧
          page.markdown = Regex.sub placeholderRe (fun m => (render lower db slugs repo m).text)
            (withoutBackticks markdown) ∧
          Resolved lower db repo d slugs (citationMatch .doc v) ∧
          (hasMarkdownExtension lower d.filePath = true → ∃ c' ∈ db.chunks, c'.documentId = d.id ∧
            (false, c'.id) ∈ page.citations.map (·.key)) := by
  refine ⟨fun m => coverage_verdict ledger mode, fun p anchor hp ha => target_read hp ha, ?_⟩
  intro d hd c hc hcd hver hs v ⟨_, hne, hpath⟩
  obtain ⟨slugs, hs⟩ := Option.isSome_iff_exists.1 hs
  have hvalue : valueOf (citationMatch .doc v) = Str.strip v := valueOf_citation .doc v
  by_cases hnil : d.filePath = []
  · -- an empty path is never verified evidence
    exfalso
    rw [hnil] at hver
    obtain ⟨r, -, hr⟩ := List.mem_filterMap.1 hver
    split at hr
    · simp [Option.filter_eq_some_iff] at hr
    · cases hr
  have hok : verified ledger mode .doc (Str.strip v) = true :=
    (gate_verdict ledger mode _).2 (by rw [hpath]; exact ⟨hnil, hver⟩)
  refine ⟨?_, ?_, ?_⟩
  · intro markdown x hx he
    obtain ⟨j, -, hbad, rfl⟩ := mem_validateCitations.1 hx
    simp only [Prod.mk.injEq] at he
    simp [Stands, he.1, he.2, hok] at hbad
  · intro body hm
    unfold sectionHasVerifiedEvidence
    rw [Bool.or_eq_true, List.any_eq_true]
    refine .inl ⟨_, hm, ?_⟩
    rw [coverage_verdict ledger mode (kindOf_citation .doc v) (by rwa [hvalue]), hvalue]
    exact hok
  · intro repo markdown hm
    exact resolvePage_indexed lower db repo hd hc hcd hs hne hpath hm

/-! ## Two documents -/

/-- `a.md` and `go.mod`, each with a chunk. -/
def twoDocuments : RepoIndex where
  nodes := []
  documents := [⟨1, "a.md".toList, none⟩, ⟨2, "go.mod".toList, none⟩]
  chunks := [⟨3, 1, 0, []⟩, ⟨4, 2, 0, []⟩]
  names := List.nodup_nil
  ids := by decide
  paths := by decide

def bothRead : Ledger where
  records := [⟨['1'], .doc, none, some "a.md".toList⟩, ⟨['2'], .doc, none, some "go.mod".toList⟩]
  nodup := by decide

def oneRepo : RepositorySlug := ⟨['h'], ['o'], ['r']⟩

/-- Both gates accept `[[doc:go.mod]]`, and the resolver puts the path in prose. -/
theorem go_mod_in_prose :
    validateCitations "[[doc:go.mod]]".toList bothRead .pre = [] ∧
    sectionHasVerifiedEvidence "[[doc:go.mod]]".toList bothRead = true ∧
    resolvePage Str.lower twoDocuments oneRepo "[[doc:go.mod]]".toList = some ⟨"go.mod".toList, [], []⟩ := by
  decide

theorem docs_page_linked : ∃ page slugs,
    resolvePage Str.lower twoDocuments oneRepo "[[doc:a.md#b]]".toList = some page ∧
    Resolved Str.lower twoDocuments oneRepo ⟨1, "a.md".toList, none⟩ slugs
      (citationMatch .doc "a.md#b".toList) := by
  have hread : Citable "a.md".toList := ⟨by decide, by decide, by simp, by decide⟩
  have h := doc_path_one_verdict Str.lower twoDocuments bothRead .pre
  have hplain : withoutBackticks (citation .doc "a.md#b".toList) = citation .doc "a.md#b".toList := by decide
  have hv : ReadAs "a.md#b".toList "a.md".toList := h.2.1 "a.md".toList (some ['b']) hread (by simp)
  obtain ⟨page, slugs, hpage, -, hres, -⟩ := (h.2.2 ⟨1, "a.md".toList, none⟩ (by decide) ⟨3, 1, 0, []⟩ (by decide)
    rfl (by decide) (by decide) "a.md#b".toList
    hv).2.2 oneRepo (citation .doc "a.md#b".toList) (by rw [hplain, cites_citation hv.1]; simp)
  exact ⟨page, slugs, hpage, hres⟩

end Cograph.CitationResolver
