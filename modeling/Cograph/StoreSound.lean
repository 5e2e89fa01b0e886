import Cograph.ByKey
import Cograph.Dirty

/-!
# What the store makes of a row

One lemma for each operation: the row of a slug after it, and that the other
slugs keep theirs.
-/

namespace Cograph.Wiki

section
variable {Hash : Type} {d d' : Documents Hash} {slug : Str}

/-! ## Finding rows -/

theorem Documents.find_some {r : Document Hash} : d.find slug = some r ↔ r ∈ d.rows ∧ r.slug = slug :=
  ByKey.find_iff d.nodup

theorem Documents.find_none : d.find slug = none ↔ slug ∉ d.rows.map (·.slug) := by
  simp only [Documents.find, List.find?_eq_none, decide_eq_true_eq, List.mem_map, not_exists, not_and]

theorem Documents.find_modify (f : Document Hash → Document Hash) (hf : ∀ r, (f r).slug = r.slug) :
    (d.modify f hf).find slug = (d.find slug).map f := by
  simp only [Documents.find, Documents.modify, List.find?_map]
  congr 2
  funext r
  simp [hf]

theorem Documents.find_keep (p : Document Hash → Bool) : (d.keep p).find slug = (d.find slug).filter p := by
  cases h : d.find slug with
  | none =>
    rw [Option.filter_none]
    rw [Documents.find_none] at h ⊢
    intro hm
    obtain ⟨r, hr, hs⟩ := List.mem_map.1 hm
    exact h (List.mem_map.2 ⟨r, List.mem_of_mem_filter hr, hs⟩)
  | some r =>
    obtain ⟨hr, hs⟩ := Documents.find_some.1 h
    cases hp : p r with
    | true =>
      rw [Option.filter_some, if_pos hp]
      exact Documents.find_some.2 ⟨List.mem_filter.2 ⟨hr, hp⟩, hs⟩
    | false =>
      rw [Option.filter_some, hp, if_neg (by simp), Documents.find_none]
      intro hm
      obtain ⟨r', hr', hs'⟩ := List.mem_map.1 hm
      obtain ⟨hr', hp'⟩ := List.mem_filter.1 hr'
      rw [List.inj_on_of_nodup_map d.nodup hr' hr (hs'.trans hs.symm), hp] at hp'
      simp at hp'

theorem Documents.find_insert {r : Document Hash} (h : d.insert r = some d') :
    d.find r.slug = none ∧ d'.find slug = if slug = r.slug then some r else d.find slug := by
  unfold Documents.insert at h
  split at h
  · simp at h
  · rename_i hn
    obtain rfl := Option.some.inj h
    refine ⟨Documents.find_none.2 hn, ?_⟩
    by_cases hs : slug = r.slug
    · rw [if_pos hs, Documents.find_some]
      exact ⟨by simp, hs.symm⟩
    · rw [if_neg hs]
      have : ¬ r.slug = slug := fun h => hs h.symm
      simp [Documents.find, this]

end

/-! ## Upserts -/

section
variable {Hash : Type} [DecidableEq Hash] (H : Hasher Hash) (ctx : UpsertContext Hash)

def pageRow (existing : Option (Document Hash)) (page : ResolvedPage Hash) : Document Hash :=
  match existing with
  | none => insertedRow H ctx page
  | some row => writtenRow H ctx page row

theorem upsertPage_find {page : ResolvedPage Hash} {known : List Str} {d d' : Documents Hash}
    (h : upsertPage H ctx page known d = some d') (hk : page.slug ∈ known ↔ (d.find page.slug).isSome) (slug : Str) :
    d'.find slug = if slug = page.slug then some (pageRow H ctx (d.find slug) page) else d.find slug := by
  unfold upsertPage at h
  split at h
  · rename_i hmem
    obtain rfl := Option.some.inj h
    rw [Documents.find_modify]
    by_cases hs : slug = page.slug
    · subst hs
      obtain ⟨row, hrow⟩ := Option.isSome_iff_exists.1 (hk.1 hmem)
      have := (Documents.find_some.1 hrow).2
      simp [hrow, pageRow, writePage, this]
    · rw [if_neg hs]
      cases hf : d.find slug with
      | none => rfl
      | some row =>
        have : row.slug ≠ page.slug := by rw [(Documents.find_some.1 hf).2]; exact hs
        simp [writePage, this]
  · obtain ⟨hnone, hfind⟩ : _ ∧ d'.find slug = _ := Documents.find_insert h
    rw [hfind]
    by_cases hs : slug = page.slug
    · subst hs
      have hs' : page.slug = (insertedRow H ctx page).slug := rfl
      rw [if_pos hs', if_pos rfl, hs', hnone]
      rfl
    · rw [if_neg hs]
      exact if_neg hs

/-- Pages of distinct slugs: each finds the row that was there before the call. -/
theorem upsertPages_find {d d' : Documents Hash} {pages : List (ResolvedPage Hash)}
    (hn : (pages.map (·.slug)).Nodup) (h : upsertPages H ctx d pages = some d') (slug : Str) :
    d'.find slug =
      match pages.find? (·.slug = slug) with
      | some page => some (pageRow H ctx (d.find slug) page)
      | none => d.find slug := by
  have run : ∀ (pages : List (ResolvedPage Hash)) (d₁ : Documents Hash), (pages.map (·.slug)).Nodup →
      (∀ p ∈ pages, d₁.find p.slug = d.find p.slug) →
      pages.foldlM (fun d' page => upsertPage H ctx page (d.rows.map (·.slug)) d') d₁ = some d' →
      d'.find slug = match pages.find? (·.slug = slug) with
        | some page => some (pageRow H ctx (d₁.find slug) page)
        | none => d₁.find slug := by
    intro pages
    induction pages with
    | nil =>
      intro d₁ _ _ h
      obtain rfl := Option.some.inj h
      rfl
    | cons p pages ih =>
      intro d₁ hn hd h
      rw [List.map_cons, List.nodup_cons] at hn
      rw [List.foldlM_cons] at h
      obtain ⟨d₂, h₁, h₂⟩ := Option.bind_eq_some_iff.1 h
      have hk : p.slug ∈ d.rows.map (·.slug) ↔ (d₁.find p.slug).isSome := by
        rw [hd p (by simp), Option.isSome_iff_ne_none, Ne, Documents.find_none, not_not]
      have hf := upsertPage_find H ctx h₁ hk
      have hne : ∀ q ∈ pages, q.slug ≠ p.slug := fun q hq he => hn.1 (List.mem_map.2 ⟨q, hq, he⟩)
      rw [ih d₂ hn.2 (by
        intro q hq
        rw [hf, if_neg (hne q hq)]
        exact hd q (by simp [hq])) h₂, hf]
      by_cases hs : p.slug = slug
      · have : pages.find? (·.slug = slug) = none := by
          rw [List.find?_eq_none]
          intro q hq
          simpa [← hs] using hne q hq
        simp [this, hs]
      · have hs' : slug ≠ p.slug := fun h => hs h.symm
        simp [hs, hs']
  exact run pages d hn (fun _ _ => rfl) h

end

end Cograph.Wiki
