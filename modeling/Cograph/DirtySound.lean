import Cograph.WikiRunSound

/-!
# Two calls of `compute_dirty_slugs`

What one report says of a plan is consistent: its dirty and clean pages are the
plan's, and what is adopted or carried over is clean. A second call on the plan
with the carried-over contracts, after the adopted fingerprints are stored,
reports the same pages dirty, except for a page that was dirty only because its
prior contract is not the one its row was written to.
-/

namespace Cograph.Wiki

section
variable {Hash : Type} [DecidableEq Hash] (H : Hasher Hash) (E : Evidence Hash)

/-- The prior contracts of a normalized plan, each under its slug. -/
def Keyed (priors : Option (Dict.Items Str PageSpec)) : Prop :=
  ∀ ps, priors = some ps → ∀ x ∈ ps, x.2.slug = x.1 ∧ x.2.parentSlug ≠ some []

/-- A record after its adopted fingerprint is stored. -/
def adopted (adopt : Dict.Items Str Hash) (r : PageRecord Hash) : PageRecord Hash :=
  { r with citedFingerprint := (Dict.get adopt r.slug).or r.citedFingerprint }

section
variable (plan : PagePlan) (records : List (PageRecord Hash)) (version : Nat)
  (priors : Option (Dict.Items Str PageSpec))

theorem reconciled_keyed (hp : Keyed priors) :
    ∀ x ∈ (computeDirtySlugs H E plan records version priors).reconciledSpecs,
      x.2.slug = x.1 ∧ x.2.parentSlug ≠ some [] := by
  intro x hx
  cases priors with
  | some ps => exact hp ps rfl x (reconciled_mem H hx)
  | none =>
    have hno : ∀ (r : Option (PageRecord Hash)) (s : PageSpec), priorSpec none r s = none := fun r s => by
      simp [priorSpec]
    simp only [computeDirtySlugs, hno, Option.map_none] at hx
    split at hx
    · simp [Dict.drop] at hx
    · simp at hx

/-- The plan with the contracts a report carries over. -/
def nextPlan (hp : Keyed priors) : PagePlan :=
  reconcile plan (computeDirtySlugs H E plan records version priors).reconciledSpecs
    (reconciled_keyed H E plan records version priors hp)

/-- The report of the next sync, on unchanged evidence. -/
def nextReport (hp : Keyed priors) : DirtyReport Hash :=
  computeDirtySlugs H E (nextPlan H E plan records version priors hp)
    (records.map (adopted (computeDirtySlugs H E plan records version priors).adopt)) version none

/-- What a report says of its plan is consistent. -/
structure Consistent (plan : PagePlan) (report : DirtyReport Hash) : Prop where
  parts : (report.dirty.map (·.1) ++ report.clean).Perm (plan.pages.map (·.slug))
  adopt : ∀ x ∈ report.adopt, x.1 ∈ report.clean
  reconciled : ∀ x ∈ report.reconciledSpecs, x.1 ∈ report.clean
  collapsed : ∀ slug ∈ report.collapsed, slug ∈ report.dirty.map (·.1)
  index : report.dirty ≠ [] → indexSlug ∈ plan.pages.map (·.slug) → indexSlug ∈ report.dirty.map (·.1)

/-- A page whose row was written to the contract it has in the plan and is
otherwise up to date, but whose prior contract is another. -/
def HeldToPrior (s : PageSpec) : Prop :=
  reasonFor H E plan records version none s = none ∧
    ∃ p, priorSpec priors (findRecord records s.slug) s = some p ∧ specHash H p ≠ specHash H s

end

/-! ## One report -/

section
variable {plan : PagePlan} {records : List (PageRecord Hash)} {version : Nat}
  {priors : Option (Dict.Items Str PageSpec)} {s : PageSpec}

theorem dirty_planned {slug : Str} (h : slug ∈ (computeDirtySlugs H E plan records version priors).dirty.map (·.1)) :
    ∃ s ∈ plan.pages, s.slug = slug := by
  have hown : slug ∈ (plan.pages.filterMap fun s =>
      (reasonFor H E plan records version priors s).map (s.slug, ·)).map (·.1) → ∃ s ∈ plan.pages, s.slug = slug := by
    intro h
    exact List.mem_map.1 ((keys_filterMap _ _).subset h)
  unfold computeDirtySlugs at h
  simp only at h
  split at h
  · rename_i hc
    rw [List.map_append, List.mem_append] at h
    rcases h with h | h
    · exact hown h
    · obtain rfl : slug = indexSlug := by simpa using h
      exact List.mem_map.1 hc.2.1
  · exact hown h

/-- A page of the plan is dirty or clean. -/
theorem dirty_or_clean (hs : s ∈ plan.pages) :
    s.slug ∈ (computeDirtySlugs H E plan records version priors).dirty.map (·.1) ∨
      s.slug ∈ (computeDirtySlugs H E plan records version priors).clean := by
  have hown : s.slug ∈ (plan.pages.filterMap fun s =>
      (reasonFor H E plan records version priors s).map (s.slug, ·)).map (·.1) ∨
        s.slug ∈ (plan.pages.filter fun s => (reasonFor H E plan records version priors s).isNone).map (·.slug) := by
    rw [mem_dirty_own H E hs]
    cases hr : reasonFor H E plan records version priors s with
    | some r => exact Or.inl (by simp)
    | none => exact Or.inr (List.mem_map.2 ⟨s, List.mem_filter.2 ⟨hs, by rw [hr]; rfl⟩, rfl⟩)
  unfold computeDirtySlugs
  simp only
  split
  · simp only [List.map_append, List.map_cons, List.map_nil, List.mem_append, List.mem_singleton, List.mem_filter]
    rcases hown with h | h
    · exact Or.inl (Or.inl h)
    · by_cases hi : s.slug = indexSlug
      · exact Or.inl (Or.inr hi)
      · exact Or.inr ⟨h, by simpa using hi⟩
  · exact hown

theorem mem_dirty (hs : s ∈ plan.pages) :
    s.slug ∈ (computeDirtySlugs H E plan records version priors).dirty.map (·.1) ↔
      reasonFor H E plan records version priors s ≠ none ∨
        s.slug = indexSlug ∧ ∃ t ∈ (computeDirtySlugs H E plan records version priors).dirty, t.1 ≠ indexSlug := by
  have hiff : s.slug ∉ (computeDirtySlugs H E plan records version priors).clean ↔ _ := (mem_clean H E hs).not
  rw [not_and_or, not_not] at hiff
  rw [← hiff]
  exact ⟨fun h => clean_not_dirty H h, fun h => (dirty_or_clean H E hs).resolve_right h⟩

theorem dirty_nodup : ((computeDirtySlugs H E plan records version priors).dirty.map (·.1)).Nodup := by
  have hown := plan.slugs.sublist (keys_filterMap (reasonFor H E plan records version priors) plan.pages)
  unfold computeDirtySlugs
  simp only
  split
  · rename_i hc
    rw [List.map_append, List.nodup_append]
    refine ⟨hown, List.nodup_singleton _, ?_⟩
    intro a ha b hb
    obtain rfl : b = indexSlug := by simpa using hb
    exact fun hab => hc.2.2 (hab ▸ ha)
  · exact hown

theorem clean_nodup : (computeDirtySlugs H E plan records version priors).clean.Nodup := by
  have hown := plan.slugs.sublist
    ((List.filter_sublist (p := fun s => (reasonFor H E plan records version priors s).isNone)).map (·.slug))
  unfold computeDirtySlugs
  simp only
  split
  · exact hown.filter _
  · exact hown

theorem report_parts : ((computeDirtySlugs H E plan records version priors).dirty.map (·.1) ++
    (computeDirtySlugs H E plan records version priors).clean).Perm (plan.pages.map (·.slug)) := by
  have hnodup : ((computeDirtySlugs H E plan records version priors).dirty.map (·.1) ++
      (computeDirtySlugs H E plan records version priors).clean).Nodup := by
    rw [List.nodup_append]
    refine ⟨dirty_nodup H E, clean_nodup H E, ?_⟩
    intro a ha b hb hab
    exact clean_not_dirty H ha (hab ▸ hb)
  rw [List.perm_ext_iff_of_nodup hnodup plan.slugs]
  intro slug
  rw [List.mem_append]
  constructor
  · intro h
    rcases h with h | h
    · exact List.mem_map.2 (dirty_planned H E h)
    · exact List.mem_map.2 (clean_planned H h)
  · intro h
    obtain ⟨s, hs, rfl⟩ := List.mem_map.1 h
    exact dirty_or_clean H E hs

/-- The fingerprint a page adopts. -/
def adopts (live : Live Hash) (r : PageRecord Hash) : Option Hash :=
  if r.citedFingerprint = none then some (currentFingerprint H live r) else none

omit [DecidableEq Hash] in
theorem adopts_map (live : Live Hash) (records : List (PageRecord Hash)) :
    (fun s : PageSpec => (findRecord records s.slug).bind fun r =>
      if r.citedFingerprint = none then some (s.slug, currentFingerprint H live r) else none) =
    fun s => ((findRecord records s.slug).bind (adopts H live)).map (s.slug, ·) := by
  funext s
  cases findRecord records s.slug with
  | none => rfl
  | some r => by_cases hr : r.citedFingerprint = none <;> simp [adopts, hr]

omit [DecidableEq Hash] in
/-- The index page leaves the items and the slugs together. -/
theorem mem_drop_filter {α : Type} {items : Dict.Items Str α} {slugs : List Str} {k : Str} {x : Str × α}
    (hkeys : ∀ y ∈ items, y.1 ∈ slugs) (hx : x ∈ Dict.drop items k) : x.1 ∈ slugs.filter (· ≠ k) := by
  obtain ⟨hx, hne⟩ := Dict.mem_drop.1 hx
  exact List.mem_filter.2 ⟨hkeys x hx, by simpa using hne⟩

theorem adopt_clean {x : Str × Hash} (hx : x ∈ (computeDirtySlugs H E plan records version priors).adopt) :
    x.1 ∈ (computeDirtySlugs H E plan records version priors).clean := by
  unfold computeDirtySlugs at hx ⊢
  simp only [adopts_map] at hx ⊢
  split at hx
  · rename_i hc
    rw [if_pos hc]
    exact mem_drop_filter (fun x hx => (keys_filterMap _ _).subset (List.mem_map_of_mem hx)) hx
  · rename_i hc
    rw [if_neg hc]
    exact (keys_filterMap _ _).subset (List.mem_map_of_mem hx)

theorem reconciled_clean {x : Str × PageSpec}
    (hx : x ∈ (computeDirtySlugs H E plan records version priors).reconciledSpecs) :
    x.1 ∈ (computeDirtySlugs H E plan records version priors).clean := by
  unfold computeDirtySlugs at hx ⊢
  simp only at hx ⊢
  split at hx
  · rename_i hc
    rw [if_pos hc]
    exact mem_drop_filter (fun x hx => (keys_filterMap _ _).subset (List.mem_map_of_mem hx)) hx
  · rename_i hc
    rw [if_neg hc]
    exact (keys_filterMap _ _).subset (List.mem_map_of_mem hx)

/-- What a record that passes the checks without its evidence has. -/
structure Passes (r : PageRecord Hash) (currentSpecHash : Hash) (live : Live Hash) (version : Nat) : Prop where
  version : r.wikiSchemaVersion = some version
  spec : r.specHash = some currentSpecHash
  graded : r.qualityStatus ≠ none
  sound : r.qualityStatus ≠ some .degraded
  nodes : r.citations.nodeIds.any (!live.hasNode ·) = false
  chunks : r.citations.chunkIds.any (!live.hasChunk ·) = false
  bodies : contentChanged live r = false

theorem cheap_none {r : PageRecord Hash} (currentSpecHash : Hash) (live : Live Hash) :
    pageDirtyCheapReason (some r) currentSpecHash live version = none ↔ Passes r currentSpecHash live version := by
  simp only [pageDirtyCheapReason]
  constructor
  · intro h
    split_ifs at h with h₁ h₂ h₃ h₄ h₅ h₆ h₇
    simp only [not_not, Bool.not_eq_true] at h₁ h₂ h₅ h₆ h₇
    exact ⟨h₁, h₂, h₃, h₄, h₅, h₆, h₇⟩
  · intro h
    rw [if_neg (not_not.mpr h.version), if_neg (not_not.mpr h.spec), if_neg h.graded, if_neg h.sound]
    simp [h.nodes, h.chunks, h.bodies]

/-- A page that has lost all it cites is dirty. -/
theorem hasCollapsed_dirty {live : Live Hash} {r : PageRecord Hash} (h : hasCollapsed live r = true) :
    ownReason H live version priors (some r) s ≠ none := by
  simp only [hasCollapsed, decide_eq_true_eq, not_or, List.any_eq_true, not_exists, not_and] at h
  obtain ⟨hne, hnodes, hchunks⟩ := h
  have hdead : r.citations.nodeIds.any (!live.hasNode ·) = true ∨ r.citations.chunkIds.any (!live.hasChunk ·) = true := by
    simp only [List.any_eq_true, Bool.not_eq_true']
    rcases hne with hne | hne
    · obtain ⟨i, hi⟩ := List.exists_mem_of_ne_nil _ hne
      exact Or.inl ⟨i, hi, by simpa using hnodes i hi⟩
    · obtain ⟨i, hi⟩ := List.exists_mem_of_ne_nil _ hne
      exact Or.inr ⟨i, hi, by simpa using hchunks i hi⟩
  intro hown
  rw [ownReason, Option.or_eq_none_iff] at hown
  have hcheap := (cheap_none _ _).1 hown.1
  rcases hdead with hd | hd
  · rw [hcheap.nodes] at hd; cases hd
  · rw [hcheap.chunks] at hd; cases hd

theorem collapsed_dirty {slug : Str} (h : slug ∈ (computeDirtySlugs H E plan records version priors).collapsed) :
    slug ∈ (computeDirtySlugs H E plan records version priors).dirty.map (·.1) := by
  have hown : slug ∈ (plan.pages.filter fun s => (findRecord records s.slug).any
      (hasCollapsed (liveOf E plan records))).map (·.slug) →
      slug ∈ (computeDirtySlugs H E plan records version priors).dirty.map (·.1) := by
    intro h
    obtain ⟨s, hs, rfl⟩ := List.mem_map.1 h
    obtain ⟨hs, hc⟩ := List.mem_filter.1 hs
    rw [mem_dirty H E hs]
    left
    cases hr : findRecord records s.slug with
    | none => rw [hr] at hc; cases hc
    | some r =>
      rw [hr] at hc
      rw [reasonFor, hr]
      exact hasCollapsed_dirty H (by simpa using hc)
  apply hown
  unfold computeDirtySlugs at h
  simp only at h
  split at h
  · exact h
  · exact h

theorem index_dirty (hne : (computeDirtySlugs H E plan records version priors).dirty ≠ [])
    (hi : indexSlug ∈ plan.pages.map (·.slug)) :
    indexSlug ∈ (computeDirtySlugs H E plan records version priors).dirty.map (·.1) := by
  unfold computeDirtySlugs at hne ⊢
  simp only at hne ⊢
  split
  · simp
  · rename_i hc
    rw [if_neg hc] at hne
    by_contra hno
    exact hc ⟨hne, hi, hno⟩

theorem report_consistent : Consistent plan (computeDirtySlugs H E plan records version priors) where
  parts := report_parts H E
  adopt _ hx := adopt_clean H E hx
  reconciled _ hx := reconciled_clean H E hx
  collapsed _ h := collapsed_dirty H E h
  index hne hi := index_dirty H E hne hi

/-! ## The second report -/

theorem get_adopt (hs : s ∈ plan.pages) (h : s.slug ∈ (computeDirtySlugs H E plan records version priors).clean) :
    Dict.get (computeDirtySlugs H E plan records version priors).adopt s.slug =
      (findRecord records s.slug).bind (adopts H (liveOf E plan records)) := by
  have hown := get_carried H (fun s => (findRecord records s.slug).bind (adopts H (liveOf E plan records))) hs h
  unfold computeDirtySlugs at h ⊢
  simp only [adopts_map] at h ⊢
  split at h
  · rename_i hc
    rw [if_pos hc]
    simp only
    rw [get_drop (by simpa using (List.mem_filter.1 h).2)]
    exact hown
  · rename_i hc
    rw [if_neg hc]
    exact hown

omit [DecidableEq Hash] in
theorem findRecord_adopted (adopt : Dict.Items Str Hash) (slug : Str) :
    findRecord (records.map (adopted adopt)) slug = (findRecord records slug).map (adopted adopt) := by
  rw [findRecord, List.find?_map]
  rfl

omit [DecidableEq Hash] in
theorem adopted_none {adopt : Dict.Items Str Hash} {r : PageRecord Hash} (h : Dict.get adopt r.slug = none) :
    adopted adopt r = r := by
  rw [adopted, h, Option.none_or]

omit [DecidableEq Hash] in
theorem findRecord_slug {r : PageRecord Hash} {slug : Str} (h : findRecord records slug = some r) : r.slug = slug := by
  simpa using List.find?_some h

section
variable (hp : Keyed priors)
include hp

theorem carriedOver_slug (s : PageSpec) :
    (carriedOver (computeDirtySlugs H E plan records version priors).reconciledSpecs s).slug = s.slug := by
  unfold carriedOver
  cases hg : Dict.get (computeDirtySlugs H E plan records version priors).reconciledSpecs s.slug with
  | none => rfl
  | some p => exact (reconciled_keyed H E plan records version priors hp _ (Dict.mem_of_get hg)).1

theorem nextPlan_slugs : (nextPlan H E plan records version priors hp).pages.map (·.slug) = plan.pages.map (·.slug) := by
  show (plan.pages.map _).map _ = _
  rw [List.map_map]
  exact List.map_congr_left fun s _ => carriedOver_slug H E hp s

/-- Storing fingerprints and contracts touches nothing a page is read against. -/
theorem liveOf_next (adopt : Dict.Items Str Hash) :
    liveOf E (nextPlan H E plan records version priors hp) (records.map (adopted adopt)) = liveOf E plan records := by
  have hflat : ∀ (f : Citations → List Id), ((records.map (adopted adopt)).filter
      (·.slug ∈ plan.pages.map (·.slug))).flatMap (fun r => f r.citations) =
        (records.filter (·.slug ∈ plan.pages.map (·.slug))).flatMap (fun r => f r.citations) := by
    intro f
    rw [List.filter_map, List.flatMap_map]
    rfl
  unfold liveOf
  rw [nextPlan_slugs H E hp]
  simp only [hflat]

omit hp in
theorem ownReason_none {live : Live Hash} {r : PageRecord Hash} :
    ownReason H live version priors (some r) s = none ↔
      Passes r (specHash H ((priorSpec priors (some r) s).getD s)) live version ∧
        pageCitedReason r (currentFingerprint H live r) = none := by
  rw [ownReason, Option.or_eq_none_iff, cheap_none, Option.bind_some]

omit hp in
theorem passes_adopted {adopt : Dict.Items Str Hash} {r : PageRecord Hash} {h : Hash} {live : Live Hash}
    (hr : Passes r h live version) : Passes (adopted adopt r) h live version :=
  ⟨hr.version, hr.spec, hr.graded, hr.sound, hr.nodes, hr.chunks, hr.bodies⟩

/-- The reason the next sync has for a page. -/
theorem next_reason (s : PageSpec) :
    reasonFor H E (nextPlan H E plan records version priors hp)
      (records.map (adopted (computeDirtySlugs H E plan records version priors).adopt)) version none
      (carriedOver (computeDirtySlugs H E plan records version priors).reconciledSpecs s) =
    ownReason H (liveOf E plan records) version none
      ((findRecord records s.slug).map (adopted (computeDirtySlugs H E plan records version priors).adopt))
      (carriedOver (computeDirtySlugs H E plan records version priors).reconciledSpecs s) := by
  rw [reasonFor, liveOf_next, carriedOver_slug H E hp, findRecord_adopted]

theorem next_reason_clean (hs : s ∈ plan.pages)
    (hc : s.slug ∈ (computeDirtySlugs H E plan records version priors).clean) :
    reasonFor H E (nextPlan H E plan records version priors hp)
      (records.map (adopted (computeDirtySlugs H E plan records version priors).adopt)) version none
      (carriedOver (computeDirtySlugs H E plan records version priors).reconciledSpecs s) = none := by
  have hown := ((mem_clean H E hs).1 hc).1
  obtain ⟨r, hr, -⟩ := clean_spec H hs hc
  have hget := get_adopt H E hs hc
  rw [reasonFor, hr, ownReason_none] at hown
  rw [hr, Option.bind_some] at hget
  obtain ⟨hpass, hcited⟩ := hown
  rw [next_reason, hr, Option.map_some, ownReason_none]
  have hslug : r.slug = s.slug := findRecord_slug hr
  constructor
  · apply passes_adopted
    rw [carriedOver, get_reconciled H hs hc, hr]
    simpa [priorSpec] using hpass
  · -- The stamp is the one just adopted, or the one that was compared before.
    by_cases hnone : r.citedFingerprint = none
    · rw [adopts, if_pos hnone] at hget
      simp only [pageCitedReason, adopted, hslug, hget]
      simp [currentFingerprint]
    · rw [adopts, if_neg hnone] at hget
      simp only [pageCitedReason, adopted, hslug, hget, Option.none_or]
      exact hcited

theorem next_reason_dirty
    (hd : s.slug ∈ (computeDirtySlugs H E plan records version priors).dirty.map (·.1)) :
    reasonFor H E (nextPlan H E plan records version priors hp)
      (records.map (adopted (computeDirtySlugs H E plan records version priors).adopt)) version none
      (carriedOver (computeDirtySlugs H E plan records version priors).reconciledSpecs s) =
    reasonFor H E plan records version none s := by
  have hno := clean_not_dirty H hd
  have hspec : carriedOver (computeDirtySlugs H E plan records version priors).reconciledSpecs s = s := by
    rw [carriedOver, Dict.get_eq_none.2 fun v hv => hno (reconciled_clean H E hv)]
    rfl
  have hadopt : Dict.get (computeDirtySlugs H E plan records version priors).adopt s.slug = none :=
    Dict.get_eq_none.2 fun v hv => hno (adopt_clean H E hv)
  rw [next_reason, hspec, reasonFor]
  cases hr : findRecord records s.slug with
  | none => rfl
  | some r =>
    rw [Option.map_some, adopted_none (by rw [findRecord_slug hr]; exact hadopt)]

omit hp in
/-- A page dirty by itself stays so unless it was held to a prior contract. -/
theorem heldToPrior_iff :
    HeldToPrior H E plan records version priors s ↔
      reasonFor H E plan records version none s = none ∧ reasonFor H E plan records version priors s ≠ none := by
  apply and_congr_right
  intro hnone
  cases hr : findRecord records s.slug with
  | none => rw [reasonFor, hr] at hnone; simp [ownReason, pageDirtyCheapReason] at hnone
  | some r =>
    rw [reasonFor, hr, ownReason_none] at hnone
    rw [reasonFor, hr, ne_eq, ownReason_none]
    obtain ⟨hpass, hcited⟩ := hnone
    have hspec : r.specHash = some (specHash H s) := by simpa [priorSpec] using hpass.spec
    constructor
    · intro h hown
      obtain ⟨p, hprior, hne⟩ := h
      rw [hprior] at hown
      exact hne (Option.some.inj (hown.1.spec.symm.trans hspec))
    · intro hown
      cases hprior : priorSpec priors (some r) s with
      | none =>
        rw [hprior] at hown
        exact absurd ⟨by simpa [priorSpec] using hpass, hcited⟩ hown
      | some p =>
        refine ⟨p, rfl, fun he => hown ⟨?_, hcited⟩⟩
        rw [hprior, Option.getD_some, he]
        simpa [priorSpec] using hpass

theorem mem_nextPlan {t : PageSpec} (h : t ∈ (nextPlan H E plan records version priors hp).pages) :
    ∃ s ∈ plan.pages, carriedOver (computeDirtySlugs H E plan records version priors).reconciledSpecs s = t :=
  List.mem_map.1 h

/-- Whether the next sync finds a page dirty by itself. -/
theorem next_own (hs : s ∈ plan.pages) :
    reasonFor H E (nextPlan H E plan records version priors hp)
      (records.map (adopted (computeDirtySlugs H E plan records version priors).adopt)) version none
      (carriedOver (computeDirtySlugs H E plan records version priors).reconciledSpecs s) ≠ none ↔
    s.slug ∈ (computeDirtySlugs H E plan records version priors).dirty.map (·.1) ∧
      reasonFor H E plan records version none s ≠ none := by
  rcases @dirty_or_clean _ _ H E plan records version priors s hs with hd | hc
  · rw [next_reason_dirty H E hp hd]
    exact (and_iff_right hd).symm
  · have hno : s.slug ∉ (computeDirtySlugs H E plan records version priors).dirty.map (·.1) := fun hd =>
      clean_not_dirty H hd hc
    rw [next_reason_clean H E hp hs hc]
    exact iff_of_false (fun h => h rfl) (fun h => hno h.1)

theorem mem_next (hs : s ∈ plan.pages) :
    s.slug ∈ (nextReport H E plan records version priors hp).dirty.map (·.1) ↔
      s.slug ∈ (computeDirtySlugs H E plan records version priors).dirty.map (·.1) ∧
          reasonFor H E plan records version none s ≠ none ∨
        s.slug = indexSlug ∧ ∃ t ∈ (nextReport H E plan records version priors hp).dirty, t.1 ≠ indexSlug := by
  have hmem : carriedOver (computeDirtySlugs H E plan records version priors).reconciledSpecs s ∈
      (nextPlan H E plan records version priors hp).pages := List.mem_map_of_mem hs
  have := @mem_dirty _ _ H E _ (records.map (adopted (computeDirtySlugs H E plan records version priors).adopt)) version
    none _ hmem
  rw [next_own H E hp hs, carriedOver_slug H E hp] at this
  exact this

theorem next_planned {slug : Str} (h : slug ∈ (nextReport H E plan records version priors hp).dirty.map (·.1)) :
    ∃ s ∈ plan.pages, s.slug = slug := by
  obtain ⟨t, ht, rfl⟩ := dirty_planned H E h
  obtain ⟨s, hs, rfl⟩ := mem_nextPlan H E hp ht
  exact ⟨s, hs, (carriedOver_slug H E hp s).symm⟩

/-- Where no page but the index page was held to a prior contract, the other
pages stay as dirty or clean as they were. -/
theorem mem_next_other (hc : ∀ s ∈ plan.pages, HeldToPrior H E plan records version priors s → s.slug = indexSlug)
    (hs : s ∈ plan.pages) (hi : s.slug ≠ indexSlug) :
    s.slug ∈ (nextReport H E plan records version priors hp).dirty.map (·.1) ↔
      s.slug ∈ (computeDirtySlugs H E plan records version priors).dirty.map (·.1) := by
  rw [mem_next H E hp hs]
  constructor
  · intro h
    rcases h with h | h
    · exact h.1
    · exact absurd h.1 hi
  · intro hd
    refine Or.inl ⟨hd, fun hnone => ?_⟩
    rcases (mem_dirty H E hs).1 hd with hr | hr
    · exact hi (hc s hs ((heldToPrior_iff H E).2 ⟨hnone, hr⟩))
    · exact hi hr.1

/-- The next sync finds the same pages dirty unless a page was held to a prior
contract, the index page beside another dirty one excepted. -/
theorem next_dirty_iff :
    (∀ slug, slug ∈ (nextReport H E plan records version priors hp).dirty.map (·.1) ↔
      slug ∈ (computeDirtySlugs H E plan records version priors).dirty.map (·.1)) ↔
    ∀ s ∈ plan.pages, HeldToPrior H E plan records version priors s →
      s.slug = indexSlug ∧ ∃ t ∈ (computeDirtySlugs H E plan records version priors).dirty, t.1 ≠ indexSlug := by
  constructor
  · intro h s hs hheld
    obtain ⟨hnone, hr⟩ := (heldToPrior_iff H E).1 hheld
    have hnext := (h s.slug).2 ((mem_dirty H E hs).2 (Or.inl hr))
    rcases (mem_next H E hp hs).1 hnext with hd | ⟨hi, t, ht, hti⟩
    · exact absurd hnone hd.2
    · obtain ⟨t', ht', he⟩ := List.mem_map.1 ((h t.1).1 (List.mem_map_of_mem ht))
      exact ⟨hi, t', ht', he ▸ hti⟩
  · intro hc slug
    have hother : ∀ s ∈ plan.pages, s.slug ≠ indexSlug → _ := fun s hs hi =>
      mem_next_other H E hp (fun s hs h => (hc s hs h).1) hs hi
    have hsome : (∃ t ∈ (nextReport H E plan records version priors hp).dirty, t.1 ≠ indexSlug) ↔
        ∃ t ∈ (computeDirtySlugs H E plan records version priors).dirty, t.1 ≠ indexSlug := by
      constructor
      · intro ⟨t, ht, hti⟩
        obtain ⟨u, hu, he⟩ := next_planned H E hp (List.mem_map_of_mem ht)
        obtain ⟨t', ht', he'⟩ := List.mem_map.1
          ((hother u hu (he ▸ hti)).1 (he ▸ List.mem_map_of_mem ht))
        exact ⟨t', ht', by rw [he', he]; exact hti⟩
      · intro ⟨t, ht, hti⟩
        obtain ⟨u, hu, he⟩ := dirty_planned H E (List.mem_map_of_mem ht)
        obtain ⟨t', ht', he'⟩ := List.mem_map.1
          ((hother u hu (he ▸ hti)).2 (he ▸ List.mem_map_of_mem ht))
        exact ⟨t', ht', by rw [he', he]; exact hti⟩
    have hpage : ∀ s ∈ plan.pages, (s.slug ∈ (nextReport H E plan records version priors hp).dirty.map (·.1) ↔
        s.slug ∈ (computeDirtySlugs H E plan records version priors).dirty.map (·.1)) := by
      intro s hs
      by_cases hi : s.slug = indexSlug
      · rw [mem_next H E hp hs, hsome]
        constructor
        · intro h
          rcases h with h | h
          · exact h.1
          · exact (mem_dirty H E hs).2 (Or.inr h)
        · intro hd
          by_cases hnone : reasonFor H E plan records version none s = none
          · right
            rcases (mem_dirty H E hs).1 hd with hr | hr
            · exact hc s hs ((heldToPrior_iff H E).2 ⟨hnone, hr⟩)
            · exact hr
          · exact Or.inl ⟨hd, hnone⟩
      · exact hother s hs hi
    constructor
    · intro h
      obtain ⟨s, hs, rfl⟩ := next_planned H E hp h
      exact (hpage s hs).1 h
    · intro h
      obtain ⟨s, hs, rfl⟩ := dirty_planned H E h
      exact (hpage s hs).2 h

end

end

/-- **Two syncs.** A report is consistent, and the next sync on unchanged data
finds the same pages dirty if and only if no page was dirty only for a prior
contract, the index page beside another dirty page excepted. -/
theorem dirty_slugs_settle (plan : PagePlan) (records : List (PageRecord Hash)) (version : Nat)
    (priors : Option (Dict.Items Str PageSpec)) (hp : Keyed priors) :
    Consistent plan (computeDirtySlugs H E plan records version priors) ∧
      ((∀ slug, slug ∈ (nextReport H E plan records version priors hp).dirty.map (·.1) ↔
          slug ∈ (computeDirtySlugs H E plan records version priors).dirty.map (·.1)) ↔
        ∀ s ∈ plan.pages, HeldToPrior H E plan records version priors s →
          s.slug = indexSlug ∧ ∃ t ∈ (computeDirtySlugs H E plan records version priors).dirty, t.1 ≠ indexSlug) :=
  ⟨report_consistent H E, next_dirty_iff H E hp⟩

end

namespace Sample

/-- A row written to the contract the new plan has again. -/
def rewritten : PageRecord (List Str) where
  slug := "b".toList
  specHash := some (specHash lists (titled "b" "B"))
  wikiSchemaVersion := some 1
  citations := ⟨[], []⟩
  qualityStatus := some .ok
  citedFingerprint := none
  citedContentHashes := none
  contentSrc := none
  editStreak := 0

/-- The contracts of the plan between. -/
def between : Dict.Items Str PageSpec := [("b".toList, titled "b" "C")]

theorem between_keyed : Keyed (some between) := by
  intro ps h x hx
  cases h
  simp only [between, List.mem_singleton] at hx
  rw [hx]
  exact ⟨rfl, by decide⟩

theorem dirty_slugs_settle_ab :
    Consistent ab (computeDirtySlugs lists nothing ab [rewritten] 1 (some between)) ∧
      ((∀ slug, slug ∈ (nextReport lists nothing ab [rewritten] 1 (some between) between_keyed).dirty.map (·.1) ↔
          slug ∈ (computeDirtySlugs lists nothing ab [rewritten] 1 (some between)).dirty.map (·.1)) ↔
        ∀ s ∈ ab.pages, HeldToPrior lists nothing ab [rewritten] 1 (some between) s →
          s.slug = indexSlug ∧
            ∃ t ∈ (computeDirtySlugs lists nothing ab [rewritten] 1 (some between)).dirty, t.1 ≠ indexSlug) :=
  dirty_slugs_settle lists nothing ab [rewritten] 1 (some between) between_keyed

/-- A plan may have no index page, and a page dirty for the contract of the plan
between is clean for the next sync. -/
theorem unindexed_or_unsettled :
    (¬ ∀ plan : PagePlan, (computeDirtySlugs lists nothing plan [rewritten] 1 (some between)).dirty ≠ [] →
      indexSlug ∈ (computeDirtySlugs lists nothing plan [rewritten] 1 (some between)).dirty.map (·.1)) ∧
    ¬ ∀ slug, slug ∈ (nextReport lists nothing ab [rewritten] 1 (some between) between_keyed).dirty.map (·.1) ↔
      slug ∈ (computeDirtySlugs lists nothing ab [rewritten] 1 (some between)).dirty.map (·.1) := by
  constructor
  · intro h
    exact absurd (h ab (by decide)) (by decide)
  · intro h
    exact absurd ((h "b".toList).2 (by decide)) (by decide)

end Sample

end Cograph.Wiki
