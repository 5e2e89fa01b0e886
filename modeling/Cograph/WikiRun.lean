import Cograph.Dirty

/-!
# A wiki run, from plan to persisted rows

`run_wiki_generation` of `wiki/pipeline.py`: the plan is the saved one, the
steering file's or a fresh one, the dirty pages of it are written, and the rows,
the touch of the clean pages, the sweep and the artifact are persisted. What the
model and the writers return is the input of a run: the fresh plan, and for each
slug a body or a failure.
-/

namespace Cograph.Wiki

/-- What the writer and the resolver give a page of the plan. -/
structure PageBody (Hash : Type) where
  content : Str
  citations : Citations
  quality : QualityStatus
  contentSrc : Option Str
  citedContentHashes : Dict.Items Id Hash
  mode : DraftMode

/-- The rows and the plan of the saved artifact. -/
structure WikiState (Hash : Type) where
  documents : Documents Hash
  artifact : Option PagePlan

/-- One run. `reusable` is `artifact_reusable`, `rehydrates` that the saved
artifact parses; the evidence is the database's at the decision and at the
write. -/
structure WikiRun (Hash : Type) where
  incremental : Bool
  reusable : Bool
  rehydrates : Bool
  steering : Option PagePlan
  fresh : PagePlan
  fullRebuildCollapseRatio : ℚ
  decided : Evidence Hash
  persisted : Evidence Hash
  bodies : Str → Option (PageBody Hash)
  syncRunId : Option Id
  sourceCommit : Str
  wikiSchemaVersion : Nat

section
variable {Hash : Type} [DecidableEq Hash] (H : Hasher Hash)

/-! ## The plan of a run -/

def coverageCollapseRatio (report : DirtyReport Hash) : ℚ :=
  if report.total = 0 then 1 else report.collapsed.length / report.total

def saved (run : WikiRun Hash) (st : WikiState Hash) : Option PagePlan :=
  if run.rehydrates then st.artifact else none

/-- The reused plan with its report, unless too much of it has collapsed. -/
def reusedPlan (run : WikiRun Hash) (st : WikiState Hash) : Option (PagePlan × DirtyReport Hash) :=
  if run.incremental ∧ run.reusable then
    (saved run st).bind fun saved =>
      let plan := run.steering.getD saved
      let report := computeDirtySlugs H run.decided plan (loadPageRecords st.documents) run.wikiSchemaVersion none
      if run.fullRebuildCollapseRatio < coverageCollapseRatio report then none else some (plan, report)
  else none

def priorSpecs (run : WikiRun Hash) (st : WikiState Hash) : Dict.Items Str PageSpec :=
  ((saved run st).map fun p => p.pages.map fun s => (s.slug, s)).getD []

omit [DecidableEq Hash] in
theorem priorSpecs_mem {run : WikiRun Hash} {st : WikiState Hash} {x : Str × PageSpec} (h : x ∈ priorSpecs run st) :
    x.2.slug = x.1 ∧ x.2.parentSlug ≠ some [] := by
  unfold priorSpecs at h
  cases hs : saved run st with
  | none => simp [hs] at h
  | some p =>
    simp only [hs, Option.map_some, Option.getD_some, List.mem_map] at h
    obtain ⟨s, hs, rfl⟩ := h
    exact ⟨rfl, p.parents s hs⟩

theorem reconciled_mem {E : Evidence Hash} {plan : PagePlan} {records : List (PageRecord Hash)} {version : Nat}
    {priors : Dict.Items Str PageSpec} {x : Str × PageSpec}
    (h : x ∈ (computeDirtySlugs H E plan records version (some priors)).reconciledSpecs) : x ∈ priors := by
  have key : ∀ {s : PageSpec} {record : Option (PageRecord Hash)},
      (priorSpec (some priors) record s).map (s.slug, ·) = some x → x ∈ priors := by
    intro s record hx
    obtain ⟨s', hs', rfl⟩ := Option.map_eq_some_iff.1 hx
    unfold priorSpec at hs'
    split at hs'
    · exact Dict.mem_of_get hs'
    · simp at hs'
  simp only [computeDirtySlugs] at h
  split at h
  · obtain ⟨s, _, hx⟩ := List.mem_filterMap.1 (Dict.mem_drop.1 h).1
    exact key hx
  · obtain ⟨s, _, hx⟩ := List.mem_filterMap.1 h
    exact key hx

def carriedOver (specs : Dict.Items Str PageSpec) (s : PageSpec) : PageSpec := (Dict.get specs s.slug).getD s

/-- A plan with the specs of the pages it reuses. -/
def reconcile (plan : PagePlan) (specs : Dict.Items Str PageSpec)
    (h : ∀ x ∈ specs, x.2.slug = x.1 ∧ x.2.parentSlug ≠ some []) : PagePlan where
  pages := plan.pages.map (carriedOver specs)
  slugs := by
    have hs : (fun s => s.slug) ∘ carriedOver specs = (·.slug) := by
      funext s
      simp only [Function.comp_apply, carriedOver]
      cases hg : Dict.get specs s.slug with
      | none => rfl
      | some s' => exact (h _ (Dict.mem_of_get hg)).1
    rw [List.map_map, hs]
    exact plan.slugs
  parents := by
    intro t ht
    obtain ⟨s, hs, rfl⟩ := List.mem_map.1 ht
    unfold carriedOver
    cases hg : Dict.get specs s.slug with
    | none => exact plan.parents s hs
    | some s' => exact (h _ (Dict.mem_of_get hg)).2

/-- The report of a fresh plan. -/
def salvage (run : WikiRun Hash) (st : WikiState Hash) : DirtyReport Hash :=
  computeDirtySlugs H run.decided run.fresh (loadPageRecords st.documents) run.wikiSchemaVersion
    (some (priorSpecs run st))

def planned (run : WikiRun Hash) (st : WikiState Hash) : PagePlan × Option (DirtyReport Hash) :=
  match reusedPlan H run st with
  | some (plan, report) => (plan, some report)
  | none =>
    if run.incremental then
      (reconcile run.fresh (salvage H run st).reconciledSpecs fun _ hx => priorSpecs_mem (reconciled_mem H hx),
        some (salvage H run st))
    else (run.fresh, none)

/-! ## Writing and persisting -/

def specsToWrite (plan : PagePlan) (report : Option (DirtyReport Hash)) : List PageSpec :=
  match report with
  | some r => plan.pages.filter (·.slug ∈ r.dirty.map (·.1))
  | none => plan.pages

def cleanSlugs (report : Option (DirtyReport Hash)) : List Str := (report.map (·.clean)).getD []

def resolvedPage (s : PageSpec) (sortOrder : Nat) (b : PageBody Hash) : ResolvedPage Hash where
  slug := s.slug
  title := s.title
  parentSlug := s.parentSlug
  sortOrder := sortOrder
  content := b.content
  citations := b.citations
  quality := b.quality
  contentSrc := b.contentSrc
  citedContentHashes := b.citedContentHashes
  mode := b.mode

def resolvedPages (plan : PagePlan) (toWrite : List PageSpec) (bodies : Str → Option (PageBody Hash)) :
    List (ResolvedPage Hash) :=
  plan.pages.zipIdx.filterMap fun x => if x.1 ∈ toWrite then (bodies x.1.slug).map (resolvedPage x.1 x.2) else none

def pageFailures (toWrite : List PageSpec) (bodies : Str → Option (PageBody Hash)) : List Str :=
  (toWrite.filter fun s => (bodies s.slug).isNone).map (·.slug)

def persistContext (E : Evidence Hash) (plan : PagePlan) (pages : List (ResolvedPage Hash)) (syncRunId : Option Id)
    (sourceCommit : Str) (wikiSchemaVersion : Nat) : UpsertContext Hash where
  syncRunId := syncRunId
  sourceCommit := sourceCommit
  wikiSchemaVersion := some wikiSchemaVersion
  specHashes := plan.pages.map fun s => (s.slug, specHash H s)
  citedFingerprints := computeCitedFingerprints H E (pages.map fun p => (p.slug, p.citations))

/-- The pages a run resolves. -/
def written (run : WikiRun Hash) (st : WikiState Hash) : List (ResolvedPage Hash) :=
  let (plan, report) := planned H run st
  resolvedPages plan (specsToWrite plan report) run.bodies

/-- The pages a run leaves as they are. -/
def untouched (run : WikiRun Hash) (st : WikiState Hash) : List Str := cleanSlugs (planned H run st).2

def persists (run : WikiRun Hash) (st : WikiState Hash) : Bool := written H run st ≠ [] ∨ untouched H run st ≠ []

/-- `run_wiki_generation` with `persist` on. `none` is an `IntegrityError`. -/
def runWikiGeneration (st : WikiState Hash) (run : WikiRun Hash) : Option (WikiState Hash) :=
  let (plan, report) := planned H run st
  if persists H run st then
    let ctx := persistContext H run.persisted plan (written H run st) run.syncRunId run.sourceCommit
      run.wikiSchemaVersion
    (upsertPages H ctx st.documents (written H run st)).map fun d =>
      let touched := touchPages d run.syncRunId run.sourceCommit (untouched H run st)
        ((report.map (·.adopt)).getD [])
      let keep := plan.pages.map (·.slug) ++ pageFailures (specsToWrite plan report) run.bodies
      ⟨deleteOrphanPages touched keep, some plan⟩
  else some st

end

end Cograph.Wiki
