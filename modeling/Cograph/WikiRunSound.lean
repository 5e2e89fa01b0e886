import Cograph.FixpointSound
import Cograph.Machine

/-!
# Rows and plan over many runs

A row takes its place in the tree and its heading when it is written. A clean
page is only touched, and a page with the same content keeps its title, so the
rows follow the plan as long as neither has to change.
-/

namespace Cograph.Wiki

section
variable {Hash : Type} [DecidableEq Hash] (H : Hasher Hash)

/-! ## Clean pages -/

section
variable {E : Evidence Hash} {plan : PagePlan} {records : List (PageRecord Hash)} {version : Nat}
  {priors : Option (Dict.Items Str PageSpec)} {s : PageSpec}

theorem clean_planned {slug : Str} (h : slug ∈ (computeDirtySlugs H E plan records version priors).clean) :
    ∃ s ∈ plan.pages, s.slug = slug := by
  unfold computeDirtySlugs at h
  simp only at h
  split at h
  · obtain ⟨s, hs, rfl⟩ := List.mem_map.1 (List.mem_of_mem_filter h)
    exact ⟨s, List.mem_of_mem_filter hs, rfl⟩
  · obtain ⟨s, hs, rfl⟩ := List.mem_map.1 h
    exact ⟨s, List.mem_of_mem_filter hs, rfl⟩

theorem clean_spec (hs : s ∈ plan.pages)
    (h : s.slug ∈ (computeDirtySlugs H E plan records version priors).clean) :
    ∃ r, findRecord records s.slug = some r ∧
      r.specHash = some (specHash H ((priorSpec priors (findRecord records s.slug) s).getD s)) := by
  have hr := ((mem_clean H E hs).1 h).1
  simp only [reasonFor, ownReason, Option.or_eq_none_iff] at hr
  cases hf : findRecord records s.slug with
  | none => simp [hf, pageDirtyCheapReason] at hr
  | some r =>
    rw [hf] at hr
    refine ⟨r, rfl, ?_⟩
    have hr := hr.1
    simp only [pageDirtyCheapReason] at hr
    by_contra hne
    split at hr
    · simp at hr
    · simp at hr

theorem get_drop {α : Type} {xs : Dict.Items Str α} {k k' : Str} (h : k ≠ k') :
    Dict.get (Dict.drop xs k') k = Dict.get xs k := by
  induction xs with
  | nil => rfl
  | cons x xs ih =>
    by_cases hx : x.1 = k'
    · have : ¬ x.1 = k := fun he => h (he.symm.trans hx)
      rw [Dict.drop, List.filter_cons_of_neg (by simpa using hx), Dict.get_cons, if_neg this]
      exact ih
    · rw [Dict.drop, List.filter_cons_of_pos (by simpa using hx), Dict.get_cons, Dict.get_cons]
      rw [show xs.filter (·.1 ≠ k') = Dict.drop xs k' from rfl, ih]

omit [DecidableEq Hash] H in
theorem keys_filterMap {α : Type} (f : PageSpec → Option α) (xs : List PageSpec) :
    ((xs.filterMap fun s => (f s).map (s.slug, ·)).map (·.1)).Sublist (xs.map (·.slug)) := by
  induction xs with
  | nil => simp
  | cons x xs ih =>
    rw [List.filterMap_cons, List.map_cons]
    cases f x with
    | none => exact ih.cons _
    | some y => exact ih.cons_cons _

/-- A dictionary over the clean pages of a plan, read at one of them. -/
theorem get_carried {α : Type} (f : PageSpec → Option α) (hs : s ∈ plan.pages)
    (h : s.slug ∈ (computeDirtySlugs H E plan records version priors).clean) :
    Dict.get ((plan.pages.filter fun s => (reasonFor H E plan records version priors s).isNone).filterMap
      fun s => (f s).map (s.slug, ·)) s.slug = f s := by
  have hclean : s ∈ plan.pages.filter fun s => (reasonFor H E plan records version priors s).isNone := by
    rw [List.mem_filter, ((mem_clean H E hs).1 h).1]
    exact ⟨hs, rfl⟩
  cases hp : f s with
  | none =>
    rw [Dict.get_eq_none]
    intro v hv
    obtain ⟨t, ht, hx⟩ := List.mem_filterMap.1 hv
    obtain ⟨w, hw, he⟩ := Option.map_eq_some_iff.1 hx
    obtain rfl := spec_unique hs (List.mem_of_mem_filter ht) (Prod.ext_iff.1 he).1.symm
    rw [hp] at hw
    simp at hw
  | some v =>
    apply Dict.get_of_nodup
    · exact plan.slugs.sublist ((keys_filterMap _ _).trans (List.filter_sublist.map _))
    · exact List.mem_filterMap.2 ⟨s, hclean, by rw [hp]; rfl⟩

theorem get_reconciled (hs : s ∈ plan.pages)
    (h : s.slug ∈ (computeDirtySlugs H E plan records version priors).clean) :
    Dict.get (computeDirtySlugs H E plan records version priors).reconciledSpecs s.slug =
      priorSpec priors (findRecord records s.slug) s := by
  have hown := get_carried H (fun s => priorSpec priors (findRecord records s.slug) s) hs h
  unfold computeDirtySlugs at h ⊢
  simp only at h ⊢
  split at h
  · rename_i hc
    rw [if_pos hc]
    simp only
    rw [get_drop (by simpa using (List.mem_filter.1 h).2)]
    exact hown
  · rename_i hc
    rw [if_neg hc]
    exact hown

theorem clean_not_dirty {slug : Str}
    (hd : slug ∈ (computeDirtySlugs H E plan records version priors).dirty.map (·.1)) :
    slug ∉ (computeDirtySlugs H E plan records version priors).clean := by
  have hown : slug ∈ (plan.pages.filterMap fun s =>
      (reasonFor H E plan records version priors s).map (s.slug, ·)).map (·.1) →
        slug ∉ (plan.pages.filter fun s => (reasonFor H E plan records version priors s).isNone).map (·.slug) := by
    intro hd hc
    obtain ⟨s, hs, rfl⟩ := List.mem_map.1 hc
    obtain ⟨hs, hn⟩ := List.mem_filter.1 hs
    exact (mem_dirty_own H E hs).1 hd (Option.isNone_iff_eq_none.1 hn)
  unfold computeDirtySlugs at hd ⊢
  simp only at hd ⊢
  split at hd
  · rename_i hc
    rw [if_pos hc]
    simp only [List.map_append, List.map_cons, List.map_nil, List.mem_append, List.mem_singleton] at hd
    simp only [List.mem_filter, not_and, decide_not, Bool.not_eq_true', decide_eq_false_iff_not, not_not]
    intro hm
    rcases hd with hd | hd
    · exact absurd hm (hown hd)
    · exact hd
  · rename_i hc
    rw [if_neg hc]
    exact hown hd

end

/-! ## What a run leaves alone and what it writes -/

section
variable {run : WikiRun Hash} {st : WikiState Hash}

/-- A page left alone has a row with the hash of the contract it has in the
plan that is saved. -/
theorem untouched_spec {slug : Str} (h : slug ∈ untouched H run st) :
    ∃ s ∈ (planned H run st).1.pages, s.slug = slug ∧
      ∃ row, st.documents.find slug = some row ∧ row.specHash = some (specHash H s) := by
  have row_of : ∀ {r : PageRecord Hash} {slug : Str} {h : Hash},
      findRecord (loadPageRecords st.documents) slug = some r → r.specHash = some h →
        ∃ row, st.documents.find slug = some row ∧ row.specHash = some h := by
    intro r slug h hr hh
    rw [findRecord_load] at hr
    obtain ⟨row, hrow, rfl⟩ := Option.map_eq_some_iff.1 hr
    exact ⟨row, hrow, hh⟩
  unfold untouched planned at h
  unfold planned
  split at h
  · rename_i plan report hr
    have hr' := hr
    unfold reusedPlan at hr'
    split at hr'
    · obtain ⟨old, _, hr'⟩ := Option.bind_eq_some_iff.1 hr'
      simp only at hr'
      split at hr'
      · simp at hr'
      · obtain ⟨hplan, hreport⟩ := Prod.mk.inj (Option.some.inj hr')
        simp only [cleanSlugs, Option.map_some, Option.getD_some, ← hreport] at h
        obtain ⟨s, hs, rfl⟩ := clean_planned H h
        obtain ⟨r, hf, hh⟩ := clean_spec H hs h
        have hp : priorSpec none (findRecord (loadPageRecords st.documents) s.slug) s = none := by
          simp [priorSpec]
        rw [hp] at hh
        exact ⟨s, hplan ▸ hs, rfl, row_of hf hh⟩
    · simp at hr'
  · split at h
    · rename_i hi
      rw [if_pos hi]
      simp only [cleanSlugs, Option.map_some, Option.getD_some] at h
      obtain ⟨s, hs, rfl⟩ := clean_planned H h
      obtain ⟨r, hf, hh⟩ := clean_spec H hs h
      have hcarried : carriedOver (salvage H run st).reconciledSpecs s =
          (priorSpec (some (priorSpecs run st)) (findRecord (loadPageRecords st.documents) s.slug) s).getD s := by
        rw [carriedOver, salvage, get_reconciled H hs h]
      have hslug : (carriedOver (salvage H run st).reconciledSpecs s).slug = s.slug := by
        rw [carriedOver]
        cases hg : Dict.get (salvage H run st).reconciledSpecs s.slug with
        | none => rfl
        | some s' => exact (priorSpecs_mem (reconciled_mem H (Dict.mem_of_get hg))).1
      refine ⟨_, List.mem_map_of_mem hs, hslug, row_of hf ?_⟩
      rw [hcarried]
      exact hh
    · simp [cleanSlugs] at h

theorem written_page {page : ResolvedPage Hash} (h : page ∈ written H run st) :
    ∃ x ∈ (planned H run st).1.pages.zipIdx, ∃ b, page = resolvedPage x.1 x.2 b ∧
      x.1 ∈ specsToWrite (planned H run st).1 (planned H run st).2 := by
  simp only [written, resolvedPages] at h
  obtain ⟨x, hx, hp⟩ := List.mem_filterMap.1 h
  split at hp
  · rename_i hw
    obtain ⟨b, _, rfl⟩ := Option.map_eq_some_iff.1 hp
    exact ⟨x, hx, b, rfl, hw⟩
  · simp at hp

theorem written_nodup : ((written H run st).map (·.slug)).Nodup := by
  have key : ∀ (plan : PagePlan) (toWrite : List PageSpec) (n : Nat),
      ((plan.pages.zipIdx n).filterMap fun x =>
        if x.1 ∈ toWrite then (run.bodies x.1.slug).map (resolvedPage x.1 x.2) else none).map (·.slug) |>.Sublist
          (plan.pages.map (·.slug)) := by
    intro plan toWrite
    induction plan.pages with
    | nil => simp
    | cons s pages ih =>
      intro n
      rw [List.zipIdx_cons, List.filterMap_cons, List.map_cons]
      split
      · exact (ih (n + 1)).cons _
      · rename_i p hp
        split at hp
        · obtain ⟨b, _, rfl⟩ := Option.map_eq_some_iff.1 hp
          exact (ih (n + 1)).cons_cons _
        · simp at hp
  exact (planned H run st).1.slugs.sublist (key _ _ 0)

theorem untouched_not_written {page : ResolvedPage Hash} (h : page ∈ written H run st) :
    page.slug ∉ untouched H run st := by
  obtain ⟨x, hx, b, rfl, hw⟩ := written_page H h
  show x.1.slug ∉ _
  unfold untouched planned at *
  split at hw
  · rename_i plan report hr
    unfold reusedPlan at hr
    split at hr
    · obtain ⟨old, _, hr⟩ := Option.bind_eq_some_iff.1 hr
      simp only at hr
      split at hr
      · simp at hr
      · obtain ⟨_, rfl⟩ := Prod.mk.inj (Option.some.inj hr)
        exact clean_not_dirty H (of_decide_eq_true (List.mem_filter.1 hw).2)
    · simp at hr
  · split
    · rename_i hi
      rw [if_pos hi] at hw
      exact clean_not_dirty H (of_decide_eq_true (List.mem_filter.1 hw).2)
    · simp [cleanSlugs]

end

/-! ## Rows and plan -/

/-- Contracts of one hash agree in title and parent. -/
def Collisionless : Prop :=
  ∀ s t : PageSpec, specHash H s = specHash H t → s.title = t.title ∧ s.parentSlug.getD [] = t.parentSlug.getD []

/-- The hash of a row is one of a contract with the row's title and parent. -/
def Titled (row : Document Hash) : Prop :=
  ∀ h, row.specHash = some h →
    ∃ t : PageSpec, h = specHash H t ∧ t.title = row.title ∧ t.parentSlug = row.parentSlug ∧ t.parentSlug ≠ some []

/-- A run that moves no page it leaves alone, and renames none that keeps its
text. -/
def Steady (st : WikiState Hash) (run : WikiRun Hash) : Prop :=
  (∀ x ∈ (planned H run st).1.pages.zipIdx, x.1.slug ∈ untouched H run st →
    (st.documents.find x.1.slug).all fun row => row.sortOrder = x.2) ∧
  ∀ page ∈ written H run st, (st.documents.find page.slug).all fun row =>
    branch H (some row) page = .sameContent → row.title = page.title

/-- The page of a row was clean or written in the run. -/
def Settled (run : WikiRun Hash) (st : WikiState Hash) (slug : Str) : Prop :=
  slug ∈ untouched H run st ∨
    ∃ page ∈ written H run st, page.slug = slug ∧ branch H (st.documents.find slug) page ≠ .keepForQuality

instance (st : WikiState Hash) (run : WikiRun Hash) : Decidable (Steady H st run) :=
  inferInstanceAs (Decidable (_ ∧ _))

instance (run : WikiRun Hash) (st : WikiState Hash) (slug : Str) : Decidable (Settled H run st slug) :=
  inferInstanceAs (Decidable (_ ∨ _))

/-- A row stands where its page does in the plan. -/
def Placed (plan : PagePlan) (row : Document Hash) : Prop :=
  ∃ x ∈ plan.pages.zipIdx, x.1.slug = row.slug ∧ x.1.title = row.title ∧ x.1.parentSlug = row.parentSlug ∧
    x.2 = row.sortOrder

instance (plan : PagePlan) (row : Document Hash) : Decidable (Placed plan row) :=
  inferInstanceAs (Decidable (∃ x ∈ _, _))

/-- What the rows owe the saved plan after a run. -/
structure Mirrors (run : WikiRun Hash) (pre post : WikiState Hash) (plan : PagePlan) : Prop where
  artifact : post.artifact = some plan
  planned : ∀ row ∈ post.documents.rows, row.slug ∈ plan.pages.map (·.slug)
  nodup : (post.documents.rows.map (·.slug)).Nodup
  placed : ∀ row ∈ post.documents.rows, Settled H run pre row.slug → Placed plan row

omit [DecidableEq Hash] H in
theorem getD_inj {a b : Option Str} (ha : a ≠ some []) (hb : b ≠ some []) (h : a.getD [] = b.getD []) : a = b := by
  cases a <;> cases b <;> simp_all

structure SamePlace (r r' : Document Hash) : Prop where
  slug : r.slug = r'.slug
  title : r.title = r'.title
  parentSlug : r.parentSlug = r'.parentSlug
  sortOrder : r.sortOrder = r'.sortOrder
  specHash : r.specHash = r'.specHash

omit [DecidableEq Hash] in
theorem touchRow_place (ids : Option Id) (commit : Str) (slugs : List Str) (fps : Dict.Items Str Hash)
    (r : Document Hash) : SamePlace (touchRow ids commit slugs fps r) r := by
  unfold touchRow
  split <;> exact ⟨rfl, rfl, rfl, rfl, rfl⟩

omit [DecidableEq Hash] in
theorem touchPages_row {d : Documents Hash} {ids : Option Id} {commit : Str} {slugs : List Str}
    {fps : Dict.Items Str Hash} {row : Document Hash} (h : row ∈ (touchPages d ids commit slugs fps).rows) :
    ∃ row₀ ∈ d.rows, SamePlace row row₀ := by
  unfold touchPages at h
  split at h
  · exact ⟨row, h, rfl, rfl, rfl, rfl, rfl⟩
  · obtain ⟨row₀, hrow, rfl⟩ := List.mem_map.1 h
    exact ⟨row₀, hrow, touchRow_place ids commit slugs fps row₀⟩

section
variable {run : WikiRun Hash} {st st' : WikiState Hash}

/-- What `upsert_pages` is given in a run. -/
def runContext (run : WikiRun Hash) (st : WikiState Hash) : UpsertContext Hash :=
  persistContext H run.persisted (planned H run st).1 (written H run st) run.syncRunId run.sourceCommit
    run.wikiSchemaVersion

/-- Where a row of the next state comes from: a page that was written, or the
row the slug had before. -/
theorem run_row (hr : runWikiGeneration H st run = some st') (hp : persists H run st) {row : Document Hash}
    (hrow : row ∈ st'.documents.rows) :
    row.slug ∈ (planned H run st).1.pages.map (·.slug) ∧ ∃ row₀, SamePlace row row₀ ∧
      ((∃ page ∈ written H run st, page.slug = row.slug ∧
          row₀ = pageRow H (runContext H run st) (st.documents.find row.slug) page) ∨
        (∀ page ∈ written H run st, page.slug ≠ row.slug) ∧ st.documents.find row.slug = some row₀) := by
  simp only [runWikiGeneration, if_pos hp] at hr
  obtain ⟨d, hd, rfl⟩ := Option.map_eq_some_iff.1 hr
  obtain ⟨hm, hk⟩ := List.mem_filter.1 hrow
  obtain ⟨row₀, hrow₀, hplace⟩ := touchPages_row hm
  refine ⟨?_, row₀, hplace, ?_⟩
  · rcases List.mem_append.1 (of_decide_eq_true hk) with hk | hk
    · exact hk
    · obtain ⟨s, hs, hslug⟩ := List.mem_map.1 hk
      have hs := List.mem_of_mem_filter hs
      refine List.mem_map.2 ⟨s, ?_, hslug⟩
      unfold specsToWrite at hs
      split at hs
      · exact List.mem_of_mem_filter hs
      · exact hs
  · have hfind : d.find row.slug = some row₀ := Documents.find_some.2 ⟨hrow₀, hplace.slug.symm⟩
    rw [upsertPages_find H _ (written_nodup H) hd] at hfind
    cases hf : (written H run st).find? (·.slug = row.slug) with
    | none =>
      rw [hf] at hfind
      exact .inr ⟨fun page hpage => by simpa using List.find?_eq_none.1 hf page hpage, hfind⟩
    | some page =>
      rw [hf] at hfind
      obtain ⟨hpage, hslug⟩ := ByKey.find_mem hf
      exact .inl ⟨page, hpage, hslug, (Option.some.inj hfind).symm⟩

theorem pageRow_place (ctx : UpsertContext Hash) {existing : Option (Document Hash)} {page : ResolvedPage Hash}
    (hb : branch H existing page ≠ .keepForQuality)
    (ht : ∀ row, existing = some row → branch H (some row) page = .sameContent → row.title = page.title) :
    (pageRow H ctx existing page).title = page.title ∧ (pageRow H ctx existing page).parentSlug = page.parentSlug ∧
      (pageRow H ctx existing page).sortOrder = page.sortOrder ∧
        (pageRow H ctx existing page).specHash = Dict.get ctx.specHashes page.slug := by
  cases existing with
  | none => exact ⟨rfl, rfl, rfl, rfl⟩
  | some row =>
    simp only [pageRow, writtenRow]
    cases hbr : branch H (some row) page with
    | keepForQuality => exact absurd hbr hb
    | insert | update => exact ⟨rfl, rfl, rfl, rfl⟩
    | sameContent => exact ⟨ht row rfl hbr, rfl, rfl, rfl⟩

theorem written_spec {page : ResolvedPage Hash} (h : page ∈ written H run st) :
    ∃ x ∈ (planned H run st).1.pages.zipIdx, page.slug = x.1.slug ∧ page.title = x.1.title ∧
      page.parentSlug = x.1.parentSlug ∧ page.sortOrder = x.2 ∧
        Dict.get (runContext H run st).specHashes page.slug = some (specHash H x.1) := by
  obtain ⟨x, hx, b, rfl, _⟩ := written_page H h
  exact ⟨x, hx, rfl, rfl, rfl, rfl, get_specHashes H (List.fst_mem_of_mem_zipIdx hx)⟩

theorem Steady.title (h : Steady H st run) {page : ResolvedPage Hash} (hp : page ∈ written H run st) :
    ∀ row, st.documents.find page.slug = some row → branch H (some row) page = .sameContent →
      row.title = page.title := by
  intro row hrow
  have := h.2 page hp
  rw [hrow, Option.all_some] at this
  exact of_decide_eq_true this

theorem titled_run (hi : ∀ row ∈ st.documents.rows, Titled H row) (hs : Steady H st run)
    (hr : runWikiGeneration H st run = some st') : ∀ row ∈ st'.documents.rows, Titled H row := by
  by_cases hp : persists H run st
  · intro row hrow
    obtain ⟨_, row₀, hplace, ⟨page, hpage, hslug, rfl⟩ | ⟨_, hfind⟩⟩ := run_row H hr hp hrow
    · intro h hh
      rw [hplace.specHash] at hh
      rw [hplace.title, hplace.parentSlug]
      rw [← hslug] at hh ⊢
      by_cases hb : branch H (st.documents.find page.slug) page = .keepForQuality
      · cases hf : st.documents.find page.slug with
        | none =>
          rw [hf] at hb
          simp [branch] at hb
        | some old =>
          rw [hf] at hb hh
          simp only [pageRow, writtenRow, hb, keptRow] at hh ⊢
          exact hi old (Documents.find_some.1 hf).1 h hh
      · obtain ⟨x, hx, _, htitle, hparent, _, hspec⟩ := written_spec H hpage
        obtain ⟨h₁, h₂, _, h₄⟩ := pageRow_place H (runContext H run st) hb (hs.title H hpage)
        rw [h₄, hspec] at hh
        rw [h₁, h₂]
        exact ⟨x.1, (Option.some.inj hh).symm, htitle.symm, hparent.symm,
          (planned H run st).1.parents x.1 (List.fst_mem_of_mem_zipIdx hx)⟩
    · intro h hh
      rw [hplace.specHash] at hh
      rw [hplace.title, hplace.parentSlug]
      exact hi row₀ (Documents.find_some.1 hfind).1 h hh
  · simp only [runWikiGeneration, if_neg hp] at hr
    rw [← Option.some.inj hr]
    exact hi

/-- A steady run that persists leaves rows in the place the plan gives them. -/
theorem mirrors_run (hH : Collisionless H) (hi : ∀ row ∈ st.documents.rows, Titled H row) (hs : Steady H st run)
    (hr : runWikiGeneration H st run = some st') (hp : persists H run st) :
    Mirrors H run st st' (planned H run st).1 := by
  refine ⟨?_, fun row hrow => (run_row H hr hp hrow).1, st'.documents.nodup, ?_⟩
  · simp only [runWikiGeneration, if_pos hp] at hr
    obtain ⟨d, _, rfl⟩ := Option.map_eq_some_iff.1 hr
    rfl
  · intro row hrow hsettled
    obtain ⟨_, row₀, hplace, ⟨page, hpage, hslug, rfl⟩ | ⟨hnone, hfind⟩⟩ := run_row H hr hp hrow
    · have hb : branch H (st.documents.find page.slug) page ≠ .keepForQuality := by
        rcases hsettled with hun | ⟨page', hpage', hslug', hb⟩
        · exact absurd (hslug ▸ hun) (untouched_not_written H hpage)
        · rw [← List.inj_on_of_nodup_map (written_nodup H) hpage' hpage (hslug'.trans hslug.symm), hslug']
          exact hb
      obtain ⟨x, hx, hx₁, hx₂, hx₃, hx₄, _⟩ := written_spec H hpage
      obtain ⟨h₁, h₂, h₃, _⟩ := pageRow_place H (runContext H run st) hb (hs.title H hpage)
      rw [← hslug] at hplace
      exact ⟨x, hx, by rw [← hslug, hx₁], by rw [hplace.title, h₁, hx₂], by rw [hplace.parentSlug, h₂, hx₃],
        by rw [hplace.sortOrder, h₃, hx₄]⟩
    · have hun : row.slug ∈ untouched H run st := by
        rcases hsettled with hun | ⟨page, hpage, hslug, _⟩
        · exact hun
        · exact absurd hslug (hnone page hpage)
      obtain ⟨s, hs₁, hslug, row₁, hrow₁, hspec⟩ := untouched_spec H hun
      obtain rfl : row₁ = row₀ := Option.some.inj (hrow₁.symm.trans hfind)
      obtain ⟨t, ht, htitle, hparent, hne⟩ := hi row₁ (Documents.find_some.1 hfind).1 _ hspec
      obtain ⟨h₁, h₂⟩ := hH s t ht
      have hparents : s.parentSlug = t.parentSlug := getD_inj ((planned H run st).1.parents s hs₁) hne h₂
      obtain ⟨i, hi'⟩ := List.mem_iff_getElem?.1 hs₁
      rw [← List.mk_mem_zipIdx_iff_getElem?] at hi'
      have hsort := hs.1 (s, i) hi' (by simpa [hslug] using hun)
      simp only [hslug, hfind, Option.all_some, decide_eq_true_eq] at hsort
      exact ⟨(s, i), hi', hslug, by rw [hplace.title, h₁, htitle], by rw [hplace.parentSlug, hparents, hparent],
        by rw [hplace.sortOrder, hsort]⟩

end

def noPages : WikiState Hash := ⟨⟨[], by simp⟩, none⟩

/-- In runs that move no clean page and rename none with unchanged text, the
rows mirror the saved plan after each run that persists. -/
theorem rows_mirror_plan (hH : Collisionless H) {runs : List (WikiRun Hash)}
    (hs : ∀ t ∈ Machine.trace (runWikiGeneration H) noPages runs, Steady H t.pre t.act) :
    ∀ t ∈ Machine.trace (runWikiGeneration H) noPages runs, persists H t.act t.pre →
      ∃ plan, Mirrors H t.act t.pre t.post plan := by
  have hstep : ∀ st run st', (∀ row ∈ st.documents.rows, Titled H row) → Steady H st run →
      runWikiGeneration H st run = some st' → ∀ row ∈ st'.documents.rows, Titled H row :=
    fun _ _ _ hi hs hr => titled_run H hi hs hr
  have hstart : ∀ row ∈ (noPages : WikiState Hash).documents.rows, Titled H row := by simp [noPages]
  intro t ht hp
  obtain ⟨hpre, _⟩ := Machine.inv_of_guarded _ hstep hstart hs t ht
  exact ⟨_, mirrors_run H hH hpre (hs t ht) (Machine.trace_next _ ht) hp⟩

end

/-! ## Two pages over two runs -/

namespace Sample

def lists : Hasher (List Str) where
  sha256 s := [s]
  canonicalHash
    | .spec slug title parent _ _ _ => [slug, title, parent]
    | .evidence _ => []

theorem lists_collisionless : Collisionless lists := by
  intro s t h
  simp only [specHash, lists, List.cons.injEq] at h
  exact ⟨h.2.1, h.2.2.1⟩

def nothing : Evidence (List Str) := ⟨[], [], [], List.nodup_nil, List.nodup_nil, List.nodup_nil⟩

def titled (slug title : String) : PageSpec := ⟨slug.toList, title.toList, none, [], false, .concept⟩

def ab : PagePlan := ⟨[titled "a" "A", titled "b" "B"], by decide, by decide⟩

def ba : PagePlan := ⟨[titled "b" "B", titled "a" "A"], by decide, by decide⟩

def renamed : PagePlan := ⟨[titled "a" "A", titled "b" "C"], by decide, by decide⟩

/-- A run that plans afresh and whose writer gives every page its slug. -/
def replan (fresh : PagePlan) : WikiRun (List Str) where
  incremental := true
  reusable := false
  rehydrates := true
  steering := none
  fresh := fresh
  fullRebuildCollapseRatio := 1
  decided := nothing
  persisted := nothing
  bodies := fun slug => some ⟨slug, ⟨[], []⟩, .ok, none, [], .write⟩
  syncRunId := none
  sourceCommit := []
  wikiSchemaVersion := 1

/-- A run over the saved plan, with what the steering file makes of it. -/
def steered (plan : PagePlan) : WikiRun (List Str) := { replan plan with reusable := true, steering := some plan }

/-- Whether the row of a slug is where the saved plan has its page, after two
runs whose second has settled it. -/
def inPlace (first second : WikiRun (List Str)) (slug : Str) : Option Bool := do
  let st ← runWikiGeneration lists noPages first
  let st' ← runWikiGeneration lists st second
  let row ← st'.documents.find slug
  let plan ← st'.artifact
  if persists lists second st ∧ Settled lists second st slug then some (Placed plan row) else none

theorem not_mirrors {first second : WikiRun (List Str)} {slug : Str} (h : inPlace first second slug = some false) :
    ¬ ∀ t ∈ Machine.trace (runWikiGeneration lists) noPages [first, second], persists lists t.act t.pre →
      ∃ plan, Mirrors lists t.act t.pre t.post plan := by
  unfold inPlace at h
  obtain ⟨st, h₁, h⟩ := Option.bind_eq_some_iff.1 h
  obtain ⟨st', h₂, h⟩ := Option.bind_eq_some_iff.1 h
  obtain ⟨row, hrow, h⟩ := Option.bind_eq_some_iff.1 h
  obtain ⟨plan, hplan, h⟩ := Option.bind_eq_some_iff.1 h
  split at h
  · rename_i hs
    intro hall
    have ht : ⟨st, second, st'⟩ ∈ Machine.trace (runWikiGeneration lists) noPages [first, second] := by
      rw [Machine.trace_cons _ h₁, Machine.trace_cons _ h₂]
      simp
    obtain ⟨plan', hm⟩ := hall _ ht hs.1
    obtain rfl := Option.some.inj (hplan.symm.trans hm.artifact)
    obtain ⟨hr, hslug⟩ := Documents.find_some.1 hrow
    exact of_decide_eq_false (Option.some.inj h) (hm.placed row hr (hslug ▸ hs.2))
  · simp at h

end Sample

/-- A clean page keeps the position of an older plan, and a page whose text
stays the same keeps the title of an older contract. -/
theorem rows_drift :
    (¬ ∀ t ∈ Machine.trace (runWikiGeneration Sample.lists) noPages [Sample.replan Sample.ab, Sample.replan Sample.ba],
      persists Sample.lists t.act t.pre → ∃ plan, Mirrors Sample.lists t.act t.pre t.post plan) ∧
    ¬ ∀ t ∈ Machine.trace (runWikiGeneration Sample.lists) noPages
        [Sample.replan Sample.ab, Sample.steered Sample.renamed],
      persists Sample.lists t.act t.pre → ∃ plan, Mirrors Sample.lists t.act t.pre t.post plan := by
  have ha : Sample.inPlace (Sample.replan Sample.ab) (Sample.replan Sample.ba) "a".toList = some false := by
    decide +kernel
  have hb : Sample.inPlace (Sample.replan Sample.ab) (Sample.steered Sample.renamed) "b".toList = some false := by
    decide +kernel
  exact ⟨Sample.not_mirrors ha, Sample.not_mirrors hb⟩

theorem rows_mirror_plan_two :
    let steps := Machine.trace (runWikiGeneration Sample.lists) noPages
      [Sample.replan Sample.ab, Sample.replan Sample.ab]
    steps.length = 2 ∧ ∀ t ∈ steps, persists Sample.lists t.act t.pre →
      ∃ plan, Mirrors Sample.lists t.act t.pre t.post plan := by
  have hs : ∀ t ∈ Machine.trace (runWikiGeneration Sample.lists) noPages
      [Sample.replan Sample.ab, Sample.replan Sample.ab], Steady Sample.lists t.pre t.act := by
    decide +kernel
  exact ⟨by decide +kernel, rows_mirror_plan Sample.lists Sample.lists_collisionless hs⟩

end Cograph.Wiki
