import Cograph.StoreSound
import Cograph.WikiRun

/-!
# A written page is clean at the next sync

The stamps of a page are the ones the dirty predicate computes again, as long
as the row holds the citations they were computed from.
-/

namespace Cograph.Wiki

section
variable {Hash : Type} (H : Hasher Hash) (E : Evidence Hash)

/-! ## Fingerprints -/

theorem get_filter {α : Type} {xs : Dict.Items Id α} {cited : List Id} {i : Id} (h : i ∈ cited) :
    Dict.get (xs.filter (·.1 ∈ cited)) i = Dict.get xs i := by
  induction xs with
  | nil => rfl
  | cons x xs ih =>
    by_cases hx : x.1 ∈ cited
    · rw [List.filter_cons_of_pos (by simpa using hx), Dict.get_cons, Dict.get_cons, ih]
    · have : ¬ x.1 = i := fun he => hx (he ▸ h)
      rw [List.filter_cons_of_neg (by simpa using hx), ih, Dict.get_cons, if_neg this]

/-- The fingerprint of citations over all the rows. -/
def fingerprintOf (c : Citations) : Hash := citedFingerprint H c.nodeIds c.chunkIds E.nodes E.summaries E.chunks

theorem citedFingerprint_live {c : Citations} {nodes chunks : List Id} (hn : c.nodeIds ⊆ nodes)
    (hc : c.chunkIds ⊆ chunks) :
    citedFingerprint H c.nodeIds c.chunkIds (liveNodeHashes E nodes) (liveNodeSummaries E nodes)
      (liveChunkContents E chunks) = fingerprintOf H E c := by
  simp only [fingerprintOf, citedFingerprint, liveNodeHashes, liveNodeSummaries, liveChunkContents]
  congr 3
  congr 1
  · apply List.map_congr_left
    intro i hi
    rw [get_filter (hn hi), get_filter (hn hi)]
  · apply List.map_congr_left
    intro i hi
    rw [get_filter (hc hi)]

/-- The same citations in another order. -/
def Citations.Same (c c' : Citations) : Prop := c.nodeIds.Perm c'.nodeIds ∧ c.chunkIds.Perm c'.chunkIds

theorem fingerprintOf_same {c c' : Citations} (h : c.Same c') : fingerprintOf H E c = fingerprintOf H E c' := by
  simp only [fingerprintOf, citedFingerprint]
  congr 2
  apply Multiset.coe_eq_coe.2
  exact (h.1.map _).append (h.2.map _)

theorem get_computeCitedFingerprints {cs : Dict.Items Str Citations} {slug : Str} {c : Citations}
    (h : Dict.get cs slug = some c) :
    Dict.get (computeCitedFingerprints H E cs) slug = some (fingerprintOf H E c) := by
  have key : ∀ (f : Citations → Hash) (xs : Dict.Items Str Citations), Dict.get xs slug = some c →
      Dict.get (xs.map fun x => (x.1, f x.2)) slug = some (f c) := by
    intro f xs
    induction xs with
    | nil => simp
    | cons x xs ih =>
      intro hx
      rw [Dict.get_cons] at hx
      rw [List.map_cons, Dict.get_cons]
      by_cases hs : x.1 = slug
      · rw [if_pos hs] at hx ⊢
        rw [Option.some.inj hx]
      · rw [if_neg hs] at hx ⊢
        exact ih hx
  have hm := Dict.mem_of_get h
  have hn : c.nodeIds ⊆ cs.flatMap (·.2.nodeIds) := fun i hi => List.mem_flatMap.2 ⟨_, hm, hi⟩
  have hc : c.chunkIds ⊆ cs.flatMap (·.2.chunkIds) := fun i hi => List.mem_flatMap.2 ⟨_, hm, hi⟩
  rw [← citedFingerprint_live H E hn hc]
  exact key (fun c => citedFingerprint H c.nodeIds c.chunkIds _ _ _) cs h

end

/-! ## The decision for one page -/

theorem findRecord_load {Hash : Type} (d : Documents Hash) (slug : Str) :
    findRecord (loadPageRecords d) slug = (d.find slug).map recordOf := by
  simp only [findRecord, loadPageRecords, Documents.find, List.find?_map]
  rfl

theorem mem_keys_filter {α : Type} {xs : Dict.Items Id α} {cited : List Id} {i : Id} (h : i ∈ xs.map (·.1))
    (hc : i ∈ cited) : i ∈ (xs.filter (·.1 ∈ cited)).map (·.1) := by
  obtain ⟨x, hx, rfl⟩ := List.mem_map.1 h
  exact List.mem_map.2 ⟨x, List.mem_filter.2 ⟨hx, by simpa using hc⟩, rfl⟩

section
variable {Hash : Type} [DecidableEq Hash] (H : Hasher Hash) (E : Evidence Hash)

/-- The stamps of a row fit the contract, the pipeline and the evidence. -/
structure Stamped (spec : PageSpec) (version : Nat) (row : Document Hash) : Prop where
  spec : row.specHash = some (specHash H spec)
  version : row.wikiSchemaVersion = some version
  fingerprint : row.citedFingerprint = some (fingerprintOf H E row.citations)
  nodes : ∀ i ∈ row.citations.nodeIds, i ∈ E.nodes.map (·.1)
  chunks : ∀ i ∈ row.citations.chunkIds, i ∈ E.chunks.map (·.1)
  hashes : ∀ x ∈ row.citedContentHashes, Dict.get E.nodes x.1 = some x.2

/-- A quality that is neither degraded nor unknown. -/
def Sound (q : Option QualityStatus) : Prop := q = some .ok ∨ q = some .partly

/-- The contract of a page is the plan's, also where the prior plan is asked. -/
def Unmoved (priorSpecs : Option (Dict.Items Str PageSpec)) (spec : PageSpec) : Prop :=
  ∀ s, priorSpecs.bind (Dict.get · spec.slug) = some s → s = spec

omit [DecidableEq Hash] in
theorem priorSpec_unmoved {priorSpecs : Option (Dict.Items Str PageSpec)} {spec : PageSpec}
    (h : Unmoved priorSpecs spec) (record : Option (PageRecord Hash)) :
    (priorSpec priorSpecs record spec).getD spec = spec := by
  unfold priorSpec
  split
  · cases hs : priorSpecs.bind (Dict.get · spec.slug) with
    | none => rfl
    | some s => exact h s hs
  · rfl

theorem contentChanged_stamped {spec : PageSpec} {version : Nat} {row : Document Hash}
    (h : Stamped H E spec version row) (live : Live Hash)
    (hl : ∃ cited, live.nodeHashes = liveNodeHashes E cited) : contentChanged live (recordOf row) = false := by
  obtain ⟨cited, hl⟩ := hl
  simp only [contentChanged, decide_eq_false_iff_not, not_and, Bool.not_eq_true]
  intro _
  rw [List.any_eq_false]
  intro x hx
  have hx : x ∈ row.citedContentHashes := by
    simp only [recordOf] at hx
    split at hx
    · simp at hx
    · exact hx
  rw [hl]
  by_cases hc : x.1 ∈ cited
  · rw [liveNodeHashes, get_filter hc, h.hashes x hx]
    simp
  · have : Dict.get (liveNodeHashes E cited) x.1 = none := by
      rw [Dict.get_eq_none]
      intro v hv
      have := (List.mem_filter.1 hv).2
      simp [hc] at this
    simp [this]

theorem ownReason_stamped {plan : PagePlan} {spec : PageSpec} (hspec : spec ∈ plan.pages) {version : Nat}
    {d : Documents Hash} {row : Document Hash} (hrow : d.find spec.slug = some row)
    (h : Stamped H E spec version row) {priorSpecs : Option (Dict.Items Str PageSpec)} (hp : Unmoved priorSpecs spec) :
    ownReason H (liveOf E plan (loadPageRecords d)) version priorSpecs
      (findRecord (loadPageRecords d) spec.slug) spec = none ↔ Sound row.quality := by
  have hmem : recordOf row ∈ (loadPageRecords d).filter (·.slug ∈ plan.pages.map (·.slug)) := by
    rw [List.mem_filter]
    obtain ⟨hr, hs⟩ := Documents.find_some.1 hrow
    refine ⟨List.mem_map_of_mem hr, ?_⟩
    simp only [recordOf, hs, decide_eq_true_eq]
    exact List.mem_map_of_mem hspec
  have hn : row.citations.nodeIds ⊆ ((loadPageRecords d).filter (·.slug ∈ plan.pages.map (·.slug))).flatMap
      (·.citations.nodeIds) := fun i hi => List.mem_flatMap.2 ⟨_, hmem, hi⟩
  have hc : row.citations.chunkIds ⊆ ((loadPageRecords d).filter (·.slug ∈ plan.pages.map (·.slug))).flatMap
      (·.citations.chunkIds) := fun i hi => List.mem_flatMap.2 ⟨_, hmem, hi⟩
  have hnodes : row.citations.nodeIds.any (!(liveOf E plan (loadPageRecords d)).hasNode ·) = false := by
    rw [List.any_eq_false]
    intro i hi
    have hm : i ∈ (liveOf E plan (loadPageRecords d)).nodeHashes.map (·.1) := mem_keys_filter (h.nodes i hi) (hn hi)
    simp only [Live.hasNode, hm, decide_true, Bool.not_true, Bool.false_eq_true, not_false_eq_true]
  have hchunks : row.citations.chunkIds.any (!(liveOf E plan (loadPageRecords d)).hasChunk ·) = false := by
    rw [List.any_eq_false]
    intro i hi
    have hm : i ∈ (liveOf E plan (loadPageRecords d)).chunkContents.map (·.1) :=
      mem_keys_filter (h.chunks i hi) (hc hi)
    simp only [Live.hasChunk, hm, decide_true, Bool.not_true, Bool.false_eq_true, not_false_eq_true]
  have hchanged := contentChanged_stamped H E h (liveOf E plan (loadPageRecords d)) ⟨_, rfl⟩
  have hfp : currentFingerprint H (liveOf E plan (loadPageRecords d)) (recordOf row) =
      fingerprintOf H E row.citations := citedFingerprint_live H E hn hc
  have hcited : pageCitedReason (recordOf row) (fingerprintOf H E row.citations) = none := by
    have : (recordOf row).citedFingerprint = some (fingerprintOf H E row.citations) := h.fingerprint
    simp [pageCitedReason, this]
  rw [findRecord_load, hrow, ownReason, priorSpec_unmoved hp]
  simp only [Option.map_some, Option.bind_some, hfp, hcited, Option.or_none]
  simp only [pageDirtyCheapReason]
  rw [if_neg (by simpa [recordOf] using h.version), if_neg (by simpa [recordOf] using h.spec)]
  have hq : (recordOf row).qualityStatus = row.quality := rfl
  have hcs : (recordOf row).citations = row.citations := rfl
  simp only [hq, hcs, hnodes, hchunks, hchanged, Bool.false_eq_true, if_false]
  cases row.quality with
  | none => simp [Sound]
  | some q => cases q <;> simp [Sound]

/-! ## The report -/

section
variable {plan : PagePlan} {records : List (PageRecord Hash)} {version : Nat}
  {priorSpecs : Option (Dict.Items Str PageSpec)}

/-- Why a page of the plan is dirty by itself. -/
abbrev reasonFor (plan : PagePlan) (records : List (PageRecord Hash)) (version : Nat)
    (priorSpecs : Option (Dict.Items Str PageSpec)) (s : PageSpec) : Option DirtyReason :=
  ownReason H (liveOf E plan records) version priorSpecs (findRecord records s.slug) s

theorem spec_unique {s t : PageSpec} (hs : s ∈ plan.pages) (ht : t ∈ plan.pages) (h : s.slug = t.slug) : s = t :=
  List.inj_on_of_nodup_map plan.slugs hs ht h

theorem mem_dirty_own {s : PageSpec} (hs : s ∈ plan.pages) :
    s.slug ∈ (plan.pages.filterMap fun s => (reasonFor H E plan records version priorSpecs s).map (s.slug, ·)).map (·.1)
      ↔ reasonFor H E plan records version priorSpecs s ≠ none := by
  simp only [List.mem_map, List.mem_filterMap, Option.map_eq_some_iff]
  constructor
  · intro ⟨x, ⟨t, ht, r, hr, hx⟩, hslug⟩
    obtain rfl := spec_unique hs ht (by rw [← hslug, ← hx])
    simp [hr]
  · intro h
    obtain ⟨r, hr⟩ := Option.ne_none_iff_exists'.1 h
    exact ⟨(s.slug, r), ⟨s, hs, r, hr, rfl⟩, rfl⟩

/-- A page is reported clean if nothing of its own makes it dirty, and, for the
index page, nothing makes another page dirty. -/
theorem mem_clean {s : PageSpec} (hs : s ∈ plan.pages) :
    s.slug ∈ (computeDirtySlugs H E plan records version priorSpecs).clean ↔
      reasonFor H E plan records version priorSpecs s = none ∧
        ¬ (s.slug = indexSlug ∧ ∃ t ∈ (computeDirtySlugs H E plan records version priorSpecs).dirty,
          t.1 ≠ indexSlug) := by
  have hown : s.slug ∈ (plan.pages.filter fun s =>
      (reasonFor H E plan records version priorSpecs s).isNone).map (·.slug) ↔
        reasonFor H E plan records version priorSpecs s = none := by
    simp only [List.mem_map, List.mem_filter, Option.isNone_iff_eq_none]
    constructor
    · intro h
      obtain ⟨t, ⟨ht, hr⟩, hslug⟩ := h
      rw [spec_unique hs ht hslug.symm]
      exact hr
    · intro h
      exact ⟨s, ⟨hs, h⟩, rfl⟩
  have hdirty : s.slug ∈ (plan.pages.filterMap fun s =>
      (reasonFor H E plan records version priorSpecs s).map (s.slug, ·)).map (·.1) ↔
        reasonFor H E plan records version priorSpecs s ≠ none := mem_dirty_own H E hs
  unfold computeDirtySlugs
  simp only
  split
  · rename_i hcond
    obtain ⟨hne, hidx, hnot⟩ := hcond
    simp only [List.mem_filter, hown, ne_eq, decide_not, Bool.not_eq_true', decide_eq_false_iff_not]
    apply and_congr_right
    intro _
    rw [not_and]
    constructor
    · intro h h'
      exact absurd h' h
    · intro h h'
      obtain ⟨x, hx⟩ := List.exists_mem_of_ne_nil _ hne
      refine h h' ⟨x, List.mem_append_left _ hx, fun hi => hnot ?_⟩
      exact List.mem_map.2 ⟨x, hx, hi⟩
  · rename_i hcond
    simp only [hown]
    constructor
    · intro h
      refine ⟨h, fun hex => ?_⟩
      obtain ⟨hi, x, hx, hxi⟩ := hex
      refine hcond ⟨List.ne_nil_of_mem hx, ?_, ?_⟩
      · exact hi ▸ List.mem_map_of_mem hs
      · rw [← hi, hdirty, not_not]
        exact h
    · exact fun h => h.1

end

/-! ## The fixpoint -/

/-- What `resolve_pages` gives a page: citations read off the database, with
the content hashes of the nodes among them. -/
structure Grounded (page : ResolvedPage Hash) : Prop where
  nodes : ∀ i ∈ page.citations.nodeIds, i ∈ E.nodes.map (·.1)
  chunks : ∀ i ∈ page.citations.chunkIds, i ∈ E.chunks.map (·.1)
  hashes : page.citedContentHashes = liveNodeHashes E page.citations.nodeIds

/-- A row that takes a page's stamps holds the page's citations. -/
def KeepsCitations (existing : Option (Document Hash)) (page : ResolvedPage Hash) : Prop :=
  ∀ row, existing = some row → branch H (some row) page = .sameContent → row.citations.Same page.citations

section
variable {plan : PagePlan} {pages : List (ResolvedPage Hash)} {version : Nat} {spec : PageSpec}
  {page : ResolvedPage Hash}

omit [DecidableEq Hash] in
theorem get_specHashes (hs : spec ∈ plan.pages) :
    Dict.get (plan.pages.map fun s => (s.slug, specHash H s)) spec.slug = some (specHash H spec) := by
  apply Dict.get_of_nodup
  · rw [List.map_map]
    exact plan.slugs
  · exact List.mem_map_of_mem hs

theorem pageRow_stamped (hs : spec ∈ plan.pages) (hslug : page.slug = spec.slug) (hp : page ∈ pages)
    (hn : (pages.map (·.slug)).Nodup) (hg : Grounded E page) (run : Option Id) (commit : Str)
    {existing : Option (Document Hash)} (hb : branch H existing page ≠ .keepForQuality)
    (hk : KeepsCitations H existing page) :
    Stamped H E spec version (pageRow H (persistContext H E plan pages run commit version) existing page) := by
  have hspec : Dict.get (persistContext H E plan pages run commit version).specHashes page.slug =
      some (specHash H spec) := by
    rw [hslug]
    exact get_specHashes H hs
  have hfp : Dict.get (persistContext H E plan pages run commit version).citedFingerprints page.slug =
      some (fingerprintOf H E page.citations) := by
    apply get_computeCitedFingerprints
    apply Dict.get_of_nodup
    · rw [List.map_map]
      exact hn
    · exact List.mem_map.2 ⟨page, hp, rfl⟩
  have hhashes : ∀ x ∈ page.citedContentHashes, Dict.get E.nodes x.1 = some x.2 := by
    intro x hx
    rw [hg.hashes] at hx
    exact Dict.get_of_nodup E.nodeIds (List.mem_of_mem_filter hx)
  cases existing with
  | none => exact ⟨hspec, rfl, hfp, hg.nodes, hg.chunks, hhashes⟩
  | some row =>
    simp only [pageRow, writtenRow]
    cases hbr : branch H (some row) page with
    | keepForQuality => exact absurd hbr hb
    | insert | update => exact ⟨hspec, rfl, hfp, hg.nodes, hg.chunks, hhashes⟩
    | sameContent =>
      have hsame := hk row rfl hbr
      refine ⟨hspec, rfl, ?_, ?_, ?_, hhashes⟩
      · rw [← fingerprintOf_same H E hsame] at hfp
        exact hfp
      · exact fun i hi => hg.nodes i (hsame.1.mem_iff.1 hi)
      · exact fun i hi => hg.chunks i (hsame.2.mem_iff.1 hi)

end

/-- A page that was written is clean at the next sync exactly if its stored
quality is sound and it is not the index page of a plan with a dirty page. -/
theorem written_page_clean {plan : PagePlan} {pages : List (ResolvedPage Hash)} {version : Nat} {spec : PageSpec}
    {page : ResolvedPage Hash} {d d' : Documents Hash} {run : Option Id} {commit : Str}
    {priorSpecs : Option (Dict.Items Str PageSpec)}
    (hup : upsertPages H (persistContext H E plan pages run commit version) d pages = some d')
    (hn : (pages.map (·.slug)).Nodup) (hp : page ∈ pages) (hg : Grounded E page)
    (hs : spec ∈ plan.pages) (hslug : page.slug = spec.slug) (hprior : Unmoved priorSpecs spec)
    (hb : branch H (d.find page.slug) page ≠ .keepForQuality) (hk : KeepsCitations H (d.find page.slug) page) :
    let report := computeDirtySlugs H E plan (loadPageRecords d') version priorSpecs
    page.slug ∈ report.clean ↔ Sound ((d'.find page.slug).bind (·.quality)) ∧
      ¬ (page.slug = indexSlug ∧ ∃ t ∈ report.dirty, t.1 ≠ indexSlug) := by
  have hfind : d'.find page.slug =
      some (pageRow H (persistContext H E plan pages run commit version) (d.find page.slug) page) := by
    rw [upsertPages_find H _ hn hup]
    have : pages.find? (·.slug = page.slug) = some page := ByKey.find_self hn hp
    rw [this]
  have hst : Stamped H E spec version _ := pageRow_stamped H E hs hslug hp hn hg run commit hb hk
  simp only [hslug] at hfind hst ⊢
  rw [mem_clean H E hs, reasonFor, ownReason_stamped H E hs hfind hst hprior, hfind]
  rfl

end

/-! ## Two pages and one re-indexed document -/

namespace Sample

def hasher : Hasher Str where
  sha256 := id
  canonicalHash
    | .spec slug title parent _ _ _ => slug ++ title ++ parent
    | .evidence _ => []

def spec (slug : String) (parent : Option Str) : PageSpec := ⟨slug.toList, slug.toList, parent, [], false, .concept⟩

/-- One chunk, which has the id 2. -/
def evidence : Evidence Str := ⟨[], [], [(2, "text".toList)], List.nodup_nil, List.nodup_nil, List.nodup_singleton 2⟩

def body (slug : String) (sortOrder : Nat) (chunk : Id) : ResolvedPage Str :=
  ⟨slug.toList, slug.toList, none, sortOrder, "body".toList, ⟨[], [chunk]⟩, .ok, none, [], .write⟩

def onePage : PagePlan := ⟨[spec "p" none], by decide, by decide⟩

def twoPages : PagePlan := ⟨[spec "index" none, spec "p" (some indexSlug)], by decide, by decide⟩

/-- The row of a page that cited the chunk when its id was 1. -/
def stored : Documents Str :=
  ⟨[insertedRow hasher (persistContext hasher evidence onePage [body "p" 0 1] none [] 1) (body "p" 0 1)], by decide⟩

def empty : Documents Str := ⟨[], by decide⟩

/-- The page of a slug after a call that wrote it. -/
def nextDirty (plan : PagePlan) (d : Documents Str) (page : ResolvedPage Str) : Option (Dict.Items Str DirtyReason) :=
  (upsertPages hasher (persistContext hasher evidence plan [page] none [] 1) d [page]).map fun d' =>
    (computeDirtySlugs hasher evidence plan (loadPageRecords d') 1 none).dirty

end Sample

theorem written_page_clean_one :
    let ctx := persistContext Sample.hasher Sample.evidence Sample.onePage [Sample.body "p" 0 2] none [] 1
    ∃ d', upsertPages Sample.hasher ctx Sample.empty [Sample.body "p" 0 2] = some d' ∧
      ("p".toList ∈ (computeDirtySlugs Sample.hasher Sample.evidence Sample.onePage (loadPageRecords d') 1 none).clean ↔
        Sound ((d'.find "p".toList).bind (·.quality)) ∧
          ¬ ("p".toList = indexSlug ∧ ∃ t ∈ (computeDirtySlugs Sample.hasher Sample.evidence Sample.onePage
            (loadPageRecords d') 1 none).dirty, t.1 ≠ indexSlug)) := by
  intro ctx
  have hp : Sample.body "p" 0 2 ∈ [Sample.body "p" 0 2] := by decide
  have hs : Sample.spec "p" none ∈ Sample.onePage.pages := by decide
  have hg : Grounded Sample.evidence (Sample.body "p" 0 2) := ⟨by decide, by decide, rfl⟩
  have hprior : Unmoved none (Sample.spec "p" none) := fun s h => by simp at h
  have hk : KeepsCitations Sample.hasher (Sample.empty.find "p".toList) (Sample.body "p" 0 2) := fun row h => by
    simp [Documents.find, Sample.empty] at h
  obtain ⟨d', hd⟩ : ∃ d', upsertPages Sample.hasher ctx Sample.empty [Sample.body "p" 0 2] = some d' := ⟨_, rfl⟩
  exact ⟨d', hd, written_page_clean Sample.hasher Sample.evidence hd (by decide) hp hg hs rfl hprior (by decide) hk⟩

/-- A page written again with the same text over a re-indexed chunk keeps the
chunk's old id and is dirty at once; the index page is dirty with its sibling. -/
theorem written_pages_dirty :
    Sample.nextDirty Sample.onePage Sample.stored (Sample.body "p" 0 2) = some [("p".toList, .citedChunkMissing)] ∧
      Sample.nextDirty Sample.twoPages Sample.empty (Sample.body "index" 0 2) =
        some [("p".toList, .missingRow), ("index".toList, .siblingDirty)] := by
  decide

end Cograph.Wiki
