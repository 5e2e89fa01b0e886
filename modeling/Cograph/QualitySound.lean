import Cograph.FixpointSound

/-!
# The quality of a page over its writes

Every branch of `upsert_pages` leaves a row with a known quality one that is at
least as good, so the order of the rows is kept by a page, by a call and by a
sequence of calls. A page that is refused changes two audit fields of its row.
-/

namespace Cograph.Wiki

section
variable {Hash : Type}

/-- A known quality stays known and its rank does not fall. -/
def Document.NoWorse (row row' : Document Hash) : Prop :=
  ∀ q, row.quality = some q → ∃ q', row'.quality = some q' ∧ q.quality ≤ q'.quality

theorem Document.NoWorse.refl (row : Document Hash) : row.NoWorse row := fun q h => ⟨q, h, Nat.le_refl _⟩

theorem Document.NoWorse.trans {a b c : Document Hash} (h : a.NoWorse b) (h' : b.NoWorse c) : a.NoWorse c := by
  intro q hq
  obtain ⟨q₁, hq₁, hle⟩ := h q hq
  obtain ⟨q₂, hq₂, hle'⟩ := h' q₁ hq₁
  exact ⟨q₂, hq₂, Nat.le_trans hle hle'⟩

def Documents.NoWorse (d d' : Documents Hash) : Prop :=
  ∀ slug row, d.find slug = some row → ∃ row', d'.find slug = some row' ∧ row.NoWorse row'

theorem Documents.NoWorse.refl (d : Documents Hash) : d.NoWorse d := fun _ row h => ⟨row, h, .refl row⟩

theorem Documents.NoWorse.trans {a b c : Documents Hash} (h : a.NoWorse b) (h' : b.NoWorse c) : a.NoWorse c := by
  intro slug row hrow
  obtain ⟨row₁, hrow₁, hle⟩ := h slug row hrow
  obtain ⟨row₂, hrow₂, hle'⟩ := h' slug row₁ hrow₁
  exact ⟨row₂, hrow₂, hle.trans hle'⟩

theorem Documents.NoWorse.modify {d : Documents Hash} {f : Document Hash → Document Hash}
    (hf : ∀ r, (f r).slug = r.slug) (h : ∀ row, Document.NoWorse row (f row)) : d.NoWorse (d.modify f hf) := by
  intro slug row hrow
  refine ⟨f row, ?_, h row⟩
  simp [Documents.find_modify, hrow]

theorem Documents.NoWorse.insert {d d' : Documents Hash} {r : Document Hash} (h : d.insert r = some d') :
    d.NoWorse d' := by
  intro slug row hrow
  obtain ⟨hnone, hfind⟩ : _ ∧ d'.find slug = _ := Documents.find_insert h
  have hs : slug ≠ r.slug := by
    rintro rfl
    simp [hnone] at hrow
  refine ⟨row, ?_, .refl row⟩
  simpa [hfind, hs] using hrow

/-! ## One page -/

variable [DecidableEq Hash] (H : Hasher Hash)

theorem writtenRow_noWorse (ctx : UpsertContext Hash) (page : ResolvedPage Hash) (row : Document Hash) :
    row.NoWorse (writtenRow H ctx page row) := by
  intro q hq
  by_cases hlow : page.quality.quality < q.quality
  · refine ⟨q, ?_, Nat.le_refl _⟩
    simp [writtenRow, branch, hq, hlow, keptRow]
  by_cases hsame : row.contentHash = H.sha256 page.content
  · have hrow : writtenRow H ctx page row = sameContentRow ctx page row := by
      simp [writtenRow, branch, hq, hlow, hsame]
    by_cases hbetter : q.quality < page.quality.quality
    · refine ⟨page.quality, ?_, Nat.le_of_lt hbetter⟩
      simp [hrow, sameContentRow, hq, hbetter]
    · refine ⟨q, ?_, Nat.le_refl _⟩
      simp [hrow, sameContentRow, hq, hbetter]
  · refine ⟨page.quality, ?_, Nat.le_of_not_lt hlow⟩
    simp [writtenRow, branch, hq, hlow, hsame, updatedRow]

theorem writePage_noWorse (ctx : UpsertContext Hash) (page : ResolvedPage Hash) (row : Document Hash) :
    row.NoWorse (writePage H ctx page row) := by
  unfold writePage
  split
  · exact writtenRow_noWorse H ctx page row
  · exact .refl row

theorem upsertPage_noWorse {ctx : UpsertContext Hash} {page : ResolvedPage Hash} {known : List Str}
    {d d' : Documents Hash} (h : upsertPage H ctx page known d = some d') : d.NoWorse d' := by
  unfold upsertPage at h
  split at h
  · obtain rfl := Option.some.inj h
    exact .modify _ (writePage_noWorse H ctx page)
  · exact .insert h

/-- A page whose quality is below its row's leaves the row as it is, but for
the run and the commit that last touched it. -/
theorem upsertPage_refused {ctx : UpsertContext Hash} {page : ResolvedPage Hash} {known : List Str}
    {d d' : Documents Hash} {row : Document Hash} {q : QualityStatus} (h : upsertPage H ctx page known d = some d')
    (hrow : d.find page.slug = some row) (hq : row.quality = some q) (hlow : page.quality.quality < q.quality) :
    d'.find page.slug = some { row with syncRunId := ctx.syncRunId, sourceCommit := ctx.sourceCommit } := by
  have hslug : row.slug = page.slug := (Documents.find_some.1 hrow).2
  unfold upsertPage at h
  split at h
  · obtain rfl := Option.some.inj h
    simp [Documents.find_modify, hrow, writePage, hslug, writtenRow, branch, hq, hlow, keptRow]
  · obtain ⟨hnone, -⟩ : d.find (insertedRow H ctx page).slug = none ∧ d'.find page.slug = _ := Documents.find_insert h
    rw [show (insertedRow H ctx page).slug = page.slug from rfl, hrow] at hnone
    simp at hnone

/-! ## Calls -/

def upsertAll (ctx : UpsertContext Hash) (known : List Str) (d : Documents Hash) (pages : List (ResolvedPage Hash)) :
    Option (Documents Hash) :=
  pages.foldlM (fun d' page => upsertPage H ctx page known d') d

theorem upsertAll_noWorse {ctx : UpsertContext Hash} {known : List Str} {pages : List (ResolvedPage Hash)} :
    ∀ {d d' : Documents Hash}, upsertAll H ctx known d pages = some d' → d.NoWorse d' := by
  induction pages with
  | nil =>
    intro d d' h
    obtain rfl := Option.some.inj h
    exact .refl d
  | cons page pages ih =>
    intro d d' h
    rw [upsertAll, List.foldlM_cons] at h
    obtain ⟨d₁, hpage, hrest⟩ := Option.bind_eq_some_iff.1 h
    exact (upsertPage_noWorse H hpage).trans (ih hrest)

structure Upsert (Hash : Type) where
  ctx : UpsertContext Hash
  pages : List (ResolvedPage Hash)

/-- The rows after a call, which is rolled back where the index of the slugs
stops it. -/
def upserted (d : Documents Hash) (u : Upsert Hash) : Documents Hash := (upsertPages H u.ctx d u.pages).getD d

theorem upserted_noWorse (d : Documents Hash) (u : Upsert Hash) : d.NoWorse (upserted H d u) := by
  cases h : upsertPages H u.ctx d u.pages with
  | none =>
    simp only [upserted, h, Option.getD_none]
    exact .refl d
  | some d' =>
    simp only [upserted, h, Option.getD_some]
    exact upsertAll_noWorse H h

theorem calls_noWorse (d : Documents Hash) (us : List (Upsert Hash)) : d.NoWorse (us.foldl (upserted H) d) := by
  induction us generalizing d with
  | nil => exact .refl d
  | cons u us ih =>
    rw [List.foldl_cons]
    exact (upserted_noWorse H d u).trans (ih _)

/-- **Page quality never regresses.** Between two points of a sequence of calls
no row gets worse, and a page that is refused for its quality, at any point of
any call, leaves the row it would have written as it was. -/
theorem page_quality_kept (d : Documents Hash) (us vs : List (Upsert Hash)) :
    (us.foldl (upserted H) d).NoWorse ((us ++ vs).foldl (upserted H) d) ∧
    ∀ (ctx : UpsertContext Hash) (known : List Str) (page : ResolvedPage Hash) (d₁ d₂ : Documents Hash) row q,
      upsertPage H ctx page known d₁ = some d₂ → d₁.find page.slug = some row → row.quality = some q →
      page.quality.quality < q.quality →
      d₂.find page.slug = some { row with syncRunId := ctx.syncRunId, sourceCommit := ctx.sourceCommit } := by
  constructor
  · rw [List.foldl_append]
    exact calls_noWorse H _ vs
  · intro ctx known page d₁ d₂ row q hpage hrow hq hlow
    exact upsertPage_refused H hpage hrow hq hlow

end

/-- A good page, and a worse one for the same slug in the next call. -/
theorem page_quality_kept_sample :
    let good : Upsert Str := ⟨⟨none, [], none, [], []⟩, [Sample.body "p" 0 2]⟩
    let poor : ResolvedPage Str := { Sample.body "p" 0 2 with content := "other".toList, quality := .degraded }
    ∃ row, ([good].foldl (upserted Sample.hasher) Sample.empty).find "p".toList = some row ∧
      ∃ d₂, upsertPage Sample.hasher ⟨some 7, "c".toList, none, [], []⟩ poor ["p".toList]
          ([good].foldl (upserted Sample.hasher) Sample.empty) = some d₂ ∧
        d₂.find "p".toList = some { row with syncRunId := some 7, sourceCommit := "c".toList } := by
  intro good poor
  let row : Document Str := insertedRow Sample.hasher good.ctx (Sample.body "p" 0 2)
  have hrow : ([good].foldl (upserted Sample.hasher) Sample.empty).find "p".toList = some row := by decide
  have hwritten : (upsertPage Sample.hasher ⟨some 7, "c".toList, none, [], []⟩ poor ["p".toList]
      ([good].foldl (upserted Sample.hasher) Sample.empty)).isSome := by decide
  obtain ⟨d₂, hpage⟩ := Option.isSome_iff_exists.1 hwritten
  refine ⟨row, hrow, d₂, hpage, ?_⟩
  exact (page_quality_kept Sample.hasher Sample.empty [good] []).2 _ _ poor _ _ row .ok hpage hrow rfl (by decide)

end Cograph.Wiki
