import Cograph.Pages
import Cograph.Resolve
import Cograph.Joins
import Cograph.Occurrences

/-!
# The plan of a wiki

`_normalize_plan` of `wiki/pipeline.py`: slugs are made kebab-case and distinct,
parents are mended, the index page is brought to the front, the tree is made
flat and the plan is cut to its length. The lower case of a text is read here
for its letters and digits of ASCII only.
-/

namespace Cograph.Wiki

open CitationResolver (isAlnum hyphenate)

/-! ## Slugs -/

/-- `_SLUG_RE.match`, on a text that does not end with a line feed. -/
def isKebab (s : Str) : Bool := (s.splitOn '-').all fun word => word ≠ [] ∧ word.all isAlnum

/-- `text.strip().lower()`. -/
def candidateOf (raw : Str) : Str := Str.lower (Str.strip raw)

def cleanSlug (raw : Str) : Str :=
  let slug := candidateOf raw
  if isKebab slug then slug
  else if hyphenate slug = [] then "page".toList
  else hyphenate slug

def suffixed (base : Str) (i : Nat) : Str := base ++ '-' :: (toString i).toList

/-- The search for a suffix, from `i` on, where no more than `fuel` are taken. -/
def freeSuffix (seen : List Str) (base : Str) : Nat → Nat → Str
  | 0, i => suffixed base i
  | fuel + 1, i => if suffixed base i ∈ seen then freeSuffix seen base fuel (i + 1) else suffixed base i

def freeSlug (seen : List Str) (slug : Str) : Str :=
  if slug ∈ seen then freeSuffix seen slug seen.length 2 else slug

/-- The first pass. -/
def nameSlugs : List Str → List PageSpec → List PageSpec
  | _, [] => []
  | seen, page :: pages =>
    let slug := freeSlug seen (cleanSlug page.slug)
    { page with slug := slug } :: nameSlugs (slug :: seen) pages

/-! ## Parents -/

/-- `_normalized_parent`. -/
def normalizedParent (rename : Dict.Items Str Str) (slugs : List Str) (raw : Option Str) : Option Str :=
  match raw with
  | none | some [] => none
  | some raw =>
    let candidate := candidateOf raw
    let mapped :=
      if candidate = [] then none
      else if candidate ∈ rename.map (·.2) then some candidate
      else
        match Dict.get rename raw with
        | some slug => some slug
        | none => if hyphenate candidate ∈ slugs then some (hyphenate candidate) else none
    mapped.filter (· ∈ slugs)

/-- The parent of a page, itself without parent or two levels above it. -/
def mendedParent (rename : Dict.Items Str Str) (pages : List PageSpec) (page : PageSpec) : Option Str :=
  let parentOf := normalizedParent rename (pages.map (·.slug))
  match parentOf page.parentSlug with
  | none => none
  | some parent =>
    if parent = page.slug then none
    else
      match parentOf ((pages.find? (·.slug = parent)).bind (·.parentSlug)) with
      | none => some parent
      | some grandparent => some grandparent

/-- The second pass. -/
def mendParents (rename : Dict.Items Str Str) (pages : List PageSpec) : List PageSpec :=
  pages.map fun page => { page with parentSlug := mendedParent rename pages page }

/-! ## The index page -/

/-- The third pass. -/
def promoteIndex (pages : List PageSpec) : List PageSpec :=
  let promoted :=
    match pages.findIdx? (·.slug = indexSlug), pages with
    | none, [] => []
    | none, first :: rest =>
      { first with slug := indexSlug, parentSlug := none } ::
        rest.map fun (p : PageSpec) => if p.parentSlug = some first.slug then { p with parentSlug := none } else p
    | some i, pages => pages[i]?.toList ++ pages.eraseIdx i
  match promoted with
  | [] => []
  | first :: rest => (if first.slug = indexSlug then { first with parentSlug := none } else first) :: rest

/-- The fourth pass. -/
def flattenTree (pages : List PageSpec) : List PageSpec :=
  if pages.any (·.slug = indexSlug) then
    pages.map fun p => if p.slug = indexSlug then p else { p with parentSlug := some indexSlug }
  else pages

def cutPlan (pageCountMax : Nat) (pages : List PageSpec) : List PageSpec :=
  if pages.length ≤ pageCountMax then pages
  else
    let kept := pages.take pageCountMax
    kept.map fun p => if p.parentSlug.all (· ∈ kept.map (·.slug)) then p else { p with parentSlug := none }

/-! ## The plan -/

def normalizePlan (plan : List PageSpec) (pageCountMax : Nat) : List PageSpec :=
  let named := nameSlugs [] plan
  let rename := Dict.ofItems ((plan.map (·.slug)).zip (named.map (·.slug)))
  cutPlan pageCountMax (flattenTree (promoteIndex (mendParents rename named)))

end Cograph.Wiki

/-!
## Normalized plans

What the passes make of a plan: an index page, the other pages below it in
their order, under distinct kebab-case slugs. A normalized plan stays as it is.
-/

namespace Cograph.Wiki

open CitationResolver (isAlnum hyphenate)

/-! ## Kebab-case -/

theorem kebab_words {s : Str} : isKebab s = true ↔ ∀ w ∈ s.splitOn '-', w ≠ [] ∧ ∀ c ∈ w, isAlnum c = true := by
  simp [isKebab]

theorem kebab_append {s w : Str} (hs : isKebab s = true) (hne : w ≠ []) (hw : ∀ c ∈ w, isAlnum c = true) :
    isKebab (s ++ '-' :: w) = true := by
  rw [kebab_words] at hs ⊢
  have hdash : '-' ∉ w := fun hmem => absurd (hw '-' hmem) (by decide)
  rw [List.splitOn_append_cons_self, List.splitOn_eq_singleton hdash]
  intro v hv
  rcases List.mem_append.1 hv with hv | hv
  · exact hs v hv
  · rw [List.mem_singleton.1 hv]
    exact ⟨hne, hw⟩

theorem kebab_chars {s : Str} (hs : isKebab s = true) : ∀ c ∈ s, isAlnum c = true ∨ c = '-' := by
  intro c hc
  have hjoin : ['-'].intercalate (s.splitOn '-') = s := List.intercalate_splitOn '-'
  rw [← hjoin] at hc
  rcases Joins.mem_intercalate hc with hc | ⟨w, hw, hcw⟩
  · exact Or.inr hc
  · exact Or.inl (((kebab_words.1 hs) w hw).2 c hcw)

theorem hyphenate_kebab {s : Str} (h : hyphenate s ≠ []) : isKebab (hyphenate s) = true := by
  have hwords : ∀ w ∈ (s.splitOnP (!isAlnum ·)).filter (· ≠ []), w ≠ [] ∧ ∀ c ∈ w, isAlnum c = true := by
    intro w hw
    obtain ⟨hmem, hne⟩ := List.mem_filter.1 hw
    refine ⟨by simpa using hne, fun c hc => ?_⟩
    simpa using Occurs.splitOnP_mem w hmem c hc
  have hne : (s.splitOnP (!isAlnum ·)).filter (· ≠ []) ≠ [] := by
    intro hnil
    rw [hyphenate, hnil] at h
    exact h rfl
  rw [kebab_words, hyphenate, List.splitOn_intercalate]
  · exact hwords
  · intro w hw hdash
    exact absurd ((hwords w hw).2 '-' hdash) (by decide)
  · exact hne

theorem cleanSlug_kebab (raw : Str) : isKebab (cleanSlug raw) = true := by
  unfold cleanSlug
  dsimp only
  split
  · next h => exact h
  · split
    · decide
    · next h => exact hyphenate_kebab h

theorem isAlnum_graphic {c : Char} (h : isAlnum c = true ∨ c = '-') :
    Str.isSpace c = false ∧ c.toLower = c ∧ c ≠ '\u0130' ∧ c ≠ '\u212a' := by
  have hrange : (97 ≤ c.toNat ∧ c.toNat ≤ 122) ∨ (48 ≤ c.toNat ∧ c.toNat ≤ 57) ∨ c.toNat = 45 := by
    rcases h with h | rfl
    · have hc : ('a' ≤ c ∧ c ≤ 'z') ∨ ('0' ≤ c ∧ c ≤ '9') := by simpa [isAlnum] using h
      rcases hc with ⟨hlow, hhigh⟩ | ⟨hlow, hhigh⟩
      · have h97 : 97 ≤ c.toNat := hlow
        have h122 : c.toNat ≤ 122 := hhigh
        omega
      · have h48 : 48 ≤ c.toNat := hlow
        have h57 : c.toNat ≤ 57 := hhigh
        omega
    · decide
  refine ⟨?_, ?_, ?_, ?_⟩
  · cases hsp : Str.isSpace c with
    | false => rfl
    | true =>
      simp only [Str.isSpace, decide_eq_true_eq] at hsp
      omega
  · apply Char.toLower_eq_of_not_isUpper
    intro hup
    have hupper : 65 ≤ c.toNat ∧ c.toNat ≤ 90 := by
      simpa [Char.isUpper, UInt32.le_iff_toNat_le] using hup
    omega
  · rintro rfl
    exact absurd hrange (by decide)
  · rintro rfl
    exact absurd hrange (by decide)

/-- A kebab-case slug stays as it is. -/
theorem cleanSlug_self {s : Str} (hs : isKebab s = true) : cleanSlug s = s := by
  have hchars := fun c hc => isAlnum_graphic (kebab_chars hs c hc)
  have hstrip : Str.strip s = s := by
    have hleft : Str.lstrip s = s := Str.lstrip_of_head fun c hc => (hchars c (List.mem_of_mem_head? hc)).1
    have hright : Str.lstrip s.reverse = s.reverse :=
      Str.lstrip_of_head fun c hc => (hchars c (List.mem_reverse.1 (List.mem_of_mem_head? hc))).1
    rw [Str.strip, hleft, Str.rstrip, ← Str.lstrip, hright, List.reverse_reverse]
  have hlower : Str.lower s = s := by
    have hlow : s.flatMap (fun c => if c = '\u0130' then ['i', '\u0307'] else if c = '\u212a' then ['k']
        else [c.toLower]) = s.flatMap fun c => [c] := by
      apply List.flatMap_congr
      intro c hc
      obtain ⟨-, hlow, hi, hk⟩ := hchars c hc
      rw [if_neg hi, if_neg hk, hlow]
    rw [Str.lower, hlow, List.flatMap_singleton']
  rw [cleanSlug, candidateOf, hstrip, hlower]
  exact if_pos hs

/-! ## Suffixes -/

theorem toString_digits (i : Nat) : (toString i).toList = Nat.toDigits 10 i := Nat.toList_repr

theorem suffixed_inj {base : Str} : Function.Injective (suffixed base) := by
  intro i j hij
  have hdigits : Nat.toDigits 10 i = Nat.toDigits 10 j := by
    rw [← toString_digits, ← toString_digits]
    exact (List.cons.inj (List.append_cancel_left hij)).2
  rw [← Nat.ofDigitChars_ten_toDigits (n := i), hdigits, Nat.ofDigitChars_ten_toDigits]

theorem suffixed_kebab {base : Str} (h : isKebab base = true) (i : Nat) : isKebab (suffixed base i) = true := by
  rw [suffixed, toString_digits]
  refine kebab_append h Nat.toDigits_ne_nil fun c hc => ?_
  have hdigit : c.isDigit = true := Nat.isDigit_of_mem_toDigits (by decide) (by decide) hc
  have hval : 48 ≤ c.val ∧ c.val ≤ 57 := by simpa [Char.isDigit] using hdigit
  have hrange : '0' ≤ c ∧ c ≤ '9' := hval
  simp [isAlnum, hrange]

/-- The search ends on a free slug, and tries no other of the free ones. -/
theorem freeSuffix_free {seen : List Str} {base : Str} : ∀ (fuel i : Nat),
    (∃ j, i ≤ j ∧ j ≤ i + fuel ∧ suffixed base j ∉ seen) → freeSuffix seen base fuel i ∉ seen
  | 0, i, h => by
    obtain ⟨j, hij, hji, hj⟩ := h
    obtain rfl : i = j := by omega
    exact hj
  | fuel + 1, i, h => by
    rw [freeSuffix]
    split
    · next hi =>
      obtain ⟨j, hij, hji, hj⟩ := h
      refine freeSuffix_free fuel (i + 1) ⟨j, ?_, by omega, hj⟩
      have hne : j ≠ i := by
        rintro rfl
        exact hj hi
      omega
    · next hi => exact hi

theorem freeSuffix_suffixed (seen : List Str) (base : Str) : ∀ fuel i, ∃ j, freeSuffix seen base fuel i = suffixed base j
  | 0, i => ⟨i, rfl⟩
  | fuel + 1, i => by
    rw [freeSuffix]
    split
    · exact freeSuffix_suffixed seen base fuel (i + 1)
    · exact ⟨i, rfl⟩

/-- Of more suffixes than slugs are taken one is free. -/
theorem exists_free (seen : List Str) (base : Str) (i : Nat) :
    ∃ j, i ≤ j ∧ j ≤ i + seen.length ∧ suffixed base j ∉ seen := by
  by_contra hno
  have hall : ∀ j, i ≤ j → j ≤ i + seen.length → suffixed base j ∈ seen := by
    intro j hij hji
    by_contra hj
    exact hno ⟨j, hij, hji, hj⟩
  have hsub : ((List.range (seen.length + 1)).map fun k => suffixed base (i + k)) ⊆ seen := by
    intro s hs
    obtain ⟨k, hk, rfl⟩ := List.mem_map.1 hs
    have := List.mem_range.1 hk
    exact hall (i + k) (by omega) (by omega)
  have hnodup : ((List.range (seen.length + 1)).map fun k => suffixed base (i + k)).Nodup :=
    List.nodup_range.map fun a b hab => Nat.add_left_cancel (suffixed_inj hab)
  have hle := (hnodup.subperm hsub).length_le
  rw [List.length_map, List.length_range] at hle
  omega

theorem freeSlug_free (seen : List Str) (slug : Str) : freeSlug seen slug ∉ seen := by
  unfold freeSlug
  split
  · exact freeSuffix_free seen.length 2 (exists_free seen slug 2)
  · next h => exact h

theorem freeSlug_kebab {slug : Str} (h : isKebab slug = true) (seen : List Str) : isKebab (freeSlug seen slug) = true := by
  unfold freeSlug
  split
  · obtain ⟨j, hj⟩ := freeSuffix_suffixed seen slug seen.length 2
    rw [hj]
    exact suffixed_kebab h j
  · exact h

/-! ## The first pass -/

/-- A page without its place in the tree. -/
def bare (p : PageSpec) : PageSpec := { p with slug := [], parentSlug := none }

theorem nameSlugs_bare (seen : List Str) (pages : List PageSpec) : (nameSlugs seen pages).map bare = pages.map bare := by
  induction pages generalizing seen with
  | nil => rfl
  | cons p pages ih =>
    rw [nameSlugs, List.map_cons, List.map_cons, ih]
    rfl

theorem nameSlugs_kebab (seen : List Str) (pages : List PageSpec) : ∀ p ∈ nameSlugs seen pages, isKebab p.slug = true := by
  induction pages generalizing seen with
  | nil =>
    intro p hp
    cases hp
  | cons q pages ih =>
    intro p hp
    rcases List.mem_cons.1 hp with rfl | hp
    · exact freeSlug_kebab (cleanSlug_kebab q.slug) seen
    · exact ih _ p hp

theorem nameSlugs_free (seen : List Str) (pages : List PageSpec) :
    ((nameSlugs seen pages).map (·.slug)).Nodup ∧ ∀ p ∈ nameSlugs seen pages, p.slug ∉ seen := by
  induction pages generalizing seen with
  | nil =>
    refine ⟨List.nodup_nil, fun p hp => ?_⟩
    cases hp
  | cons q pages ih =>
    obtain ⟨hnodup, hfree⟩ := ih (freeSlug seen (cleanSlug q.slug) :: seen)
    refine ⟨List.nodup_cons.2 ⟨?_, hnodup⟩, ?_⟩
    · intro hmem
      obtain ⟨p, hp, hslug⟩ := List.mem_map.1 hmem
      exact hfree p hp (hslug ▸ List.mem_cons_self)
    · intro p hp
      rcases List.mem_cons.1 hp with rfl | hp
      · exact freeSlug_free seen _
      · exact fun hseen => hfree p hp (List.mem_cons_of_mem _ hseen)

/-- Distinct kebab-case slugs stay as they are. -/
theorem nameSlugs_self {seen : List Str} {pages : List PageSpec} (hkebab : ∀ p ∈ pages, isKebab p.slug = true)
    (hnodup : (pages.map (·.slug)).Nodup) (hfree : ∀ p ∈ pages, p.slug ∉ seen) : nameSlugs seen pages = pages := by
  induction pages generalizing seen with
  | nil => rfl
  | cons q pages ih =>
    have hslug : freeSlug seen (cleanSlug q.slug) = q.slug := by
      rw [cleanSlug_self (hkebab q List.mem_cons_self), freeSlug, if_neg (hfree q List.mem_cons_self)]
    obtain ⟨hq, hrest⟩ := List.nodup_cons.1 hnodup
    rw [nameSlugs, hslug]
    rw [ih (fun p hp => hkebab p (List.mem_cons_of_mem q hp)) hrest]
    intro p hp hmem
    rcases List.mem_cons.1 hmem with heq | hmem
    · exact hq (List.mem_map.2 ⟨p, hp, heq⟩)
    · exact hfree p (List.mem_cons_of_mem q hp) hmem

/-! ## The index page and the pages below it -/

def indexPage (p : PageSpec) : PageSpec := { p with slug := indexSlug, parentSlug := none }

def underIndex (p : PageSpec) : PageSpec := { p with parentSlug := some indexSlug }

/-- Pages around the one that is or becomes the index page. -/
structure Split (pages before : List PageSpec) (x : PageSpec) (after : List PageSpec) : Prop where
  eq : pages = before ++ x :: after
  index : x.slug = indexSlug ∨ before = []
  others : ∀ p ∈ before ++ after, p.slug ≠ indexSlug

theorem exists_split {pages : List PageSpec} (hne : pages ≠ []) (hnodup : (pages.map (·.slug)).Nodup) :
    ∃ before x after, Split pages before x after := by
  by_cases hindex : indexSlug ∈ pages.map (·.slug)
  · obtain ⟨x, hx, hslug⟩ := List.mem_map.1 hindex
    obtain ⟨before, after, rfl⟩ := List.append_of_mem hx
    refine ⟨before, x, after, rfl, Or.inl hslug, ?_⟩
    intro p hp hp'
    rw [List.map_append, List.map_cons, List.nodup_middle, List.nodup_cons, ← List.map_append] at hnodup
    exact hnodup.1 (hslug ▸ hp' ▸ List.mem_map_of_mem hp)
  · obtain ⟨x, after, rfl⟩ := List.exists_cons_of_ne_nil hne
    refine ⟨[], x, after, rfl, Or.inr rfl, ?_⟩
    intro p hp hp'
    exact hindex (hp' ▸ List.mem_map_of_mem (List.mem_cons_of_mem x hp))

theorem promoteIndex_split {pages before after : List PageSpec} {x : PageSpec} (h : Split pages before x after) :
    ∃ others, promoteIndex pages = indexPage x :: others ∧ others.map underIndex = (before ++ after).map underIndex ∧
      ∀ p ∈ others, p.slug ≠ indexSlug := by
  obtain ⟨rfl, hindex, hothers⟩ := h
  unfold promoteIndex
  by_cases hx : x.slug = indexSlug
  · have hpos : (before ++ x :: after).findIdx? (·.slug = indexSlug) = some before.length := by
      rw [List.findIdx?_append, List.findIdx?_eq_none_iff.2, List.findIdx?_cons]
      · simp [hx]
      · intro p hp
        simpa using hothers p (List.mem_append_left after hp)
    refine ⟨before ++ after, ?_, rfl, hothers⟩
    rw [hpos]
    simp [List.eraseIdx_append_of_length_le, hx, indexPage]
  · obtain rfl := hindex.resolve_left hx
    have hpos : ([] ++ x :: after).findIdx? (fun p : PageSpec => p.slug = indexSlug) = none := by
      rw [List.findIdx?_eq_none_iff]
      intro p hp
      rcases List.mem_cons.1 hp with rfl | hp
      · simpa using hx
      · simpa using hothers p hp
    rw [hpos]
    refine ⟨_, rfl, ?_, ?_⟩
    · rw [List.map_map]
      apply List.map_congr_left
      intro p _
      simp only [Function.comp]
      split <;> rfl
    · intro p hp
      obtain ⟨q, hq, rfl⟩ := List.mem_map.1 hp
      split
      · exact hothers q hq
      · exact hothers q hq

theorem flattenTree_index {x : PageSpec} {others : List PageSpec} (h : ∀ p ∈ others, p.slug ≠ indexSlug) :
    flattenTree (indexPage x :: others) = indexPage x :: others.map underIndex := by
  rw [flattenTree, if_pos (by simp [indexPage]), List.map_cons]
  congr 1
  apply List.map_congr_left
  intro p hp
  rw [if_neg (h p hp)]
  rfl

theorem cutPlan_index {x : PageSpec} {others : List PageSpec} {pageCountMax : Nat} (hmax : 1 ≤ pageCountMax) :
    cutPlan pageCountMax (indexPage x :: others.map underIndex) =
      (indexPage x :: others.map underIndex).take pageCountMax := by
  unfold cutPlan
  split
  · next hle => rw [List.take_of_length_le hle]
  · obtain ⟨n, rfl⟩ := Nat.exists_eq_add_of_le' hmax
    dsimp only
    conv_rhs => rw [← List.map_id (List.take _ _)]
    apply List.map_congr_left
    intro p hp
    rw [List.take_succ_cons] at hp
    rcases List.mem_cons.1 hp with rfl | hp
    · rfl
    · obtain ⟨q, -, rfl⟩ := List.mem_map.1 (List.mem_of_mem_take hp)
      rw [if_pos (by simp [underIndex, indexPage, List.take_succ_cons])]
      rfl

/-! ## The plan -/

theorem mendParents_split (rename : Dict.Items Str Str) {pages before after : List PageSpec} {x : PageSpec}
    (h : Split pages before x after) :
    ∃ before' x' after', Split (mendParents rename pages) before' x' after' ∧ indexPage x' = indexPage x ∧
      (before' ++ after').map underIndex = (before ++ after).map underIndex := by
  obtain ⟨heq, hindex, hothers⟩ := h
  have hmend : ∃ f : PageSpec → Option Str, mendParents rename pages = pages.map fun p => { p with parentSlug := f p } :=
    ⟨_, rfl⟩
  obtain ⟨f, hf⟩ := hmend
  refine ⟨before.map fun p => { p with parentSlug := f p }, { x with parentSlug := f x },
    after.map fun p => { p with parentSlug := f p }, ⟨?_, ?_, ?_⟩, rfl, ?_⟩
  · rw [hf, heq, List.map_append, List.map_cons]
  · exact hindex.imp id fun hnil => by rw [hnil, List.map_nil]
  · intro p hp
    rw [← List.map_append] at hp
    obtain ⟨q, hq, rfl⟩ := List.mem_map.1 hp
    exact hothers q hq
  · rw [← List.map_append, List.map_map]
    rfl

/-- The index page comes first, the others below it in their order, as many as
there may be. -/
theorem normalizePlan_eq {plan : List PageSpec} {pageCountMax : Nat} (hmax : 1 ≤ pageCountMax)
    {before after : List PageSpec} {x : PageSpec} (h : Split (nameSlugs [] plan) before x after) :
    normalizePlan plan pageCountMax = (indexPage x :: (before ++ after).map underIndex).take pageCountMax := by
  obtain ⟨before', x', after', hmended, hx, hrest⟩ :=
    mendParents_split (Dict.ofItems ((plan.map (·.slug)).zip ((nameSlugs [] plan).map (·.slug)))) h
  obtain ⟨others, hpromoted, hunder, hothers⟩ := promoteIndex_split hmended
  rw [normalizePlan, hpromoted, flattenTree_index hothers, cutPlan_index hmax, hunder, hrest, hx]

/-- A normalized plan: its length, its slugs, its tree and the order of its
pages, which a second pass leaves as they are. -/
structure Normalized (plan result : List PageSpec) (pageCountMax : Nat) : Prop where
  bounded : result.length ≤ pageCountMax
  kebab : ∀ p ∈ result, isKebab p.slug = true
  distinct : (result.map (·.slug)).Nodup
  tree : ∃ index others, result = index :: others ∧ index.slug = indexSlug ∧ index.parentSlug = none ∧
    ∀ p ∈ others, p.slug ≠ indexSlug ∧ p.parentSlug = some indexSlug
  order : ∃ before x after, plan = before ++ x :: after ∧
    result.map bare = ((x :: (before ++ after)).map bare).take pageCountMax
  settled : normalizePlan result pageCountMax = result

theorem split_slugs {pages before after : List PageSpec} {x : PageSpec} (h : Split pages before x after)
    (hnodup : (pages.map (·.slug)).Nodup) :
    ((indexPage x :: (before ++ after).map underIndex).map (·.slug)).Nodup := by
  have hslugs : ((before ++ after).map underIndex).map (·.slug) = (before ++ after).map (·.slug) := by
    rw [List.map_map]
    rfl
  rw [List.map_cons, hslugs, List.nodup_cons]
  constructor
  · intro hmem
    obtain ⟨p, hp, hslug⟩ := List.mem_map.1 hmem
    exact h.others p hp hslug
  · have hsub : List.Sublist (before ++ after) pages := by
      rw [h.eq]
      exact (List.sublist_cons_self x after).append_left before
    exact hnodup.sublist (hsub.map _)

/-- The pages of the plan around the one that becomes the index page. -/
theorem bare_split {plan pages before after : List PageSpec} {x : PageSpec} (hbare : pages.map bare = plan.map bare)
    (h : Split pages before x after) : ∃ before' x' after', plan = before' ++ x' :: after' ∧
      (indexPage x :: (before ++ after).map underIndex).map bare = (x' :: (before' ++ after')).map bare := by
  rw [h.eq, List.map_append, List.map_cons] at hbare
  obtain ⟨before', tail, hplan, hbefore, htail⟩ := List.map_eq_append_iff.1 hbare.symm
  obtain ⟨x', after', rfl, hx, hafter⟩ := List.map_eq_cons_iff.1 htail
  refine ⟨before', x', after', hplan, ?_⟩
  have hunder : ((before ++ after).map underIndex).map bare = (before ++ after).map bare := by
    rw [List.map_map]
    rfl
  rw [List.map_cons, List.map_cons, hunder, List.map_append, List.map_append, hbefore, hafter, hx]
  rfl

theorem settled_split {x : PageSpec} {others : List PageSpec} (h : ∀ p ∈ others, p.slug ≠ indexSlug) :
    Split (indexPage x :: others.map underIndex) [] (indexPage x) (others.map underIndex) := by
  refine ⟨rfl, Or.inl rfl, ?_⟩
  intro p hp
  obtain ⟨q, hq, rfl⟩ := List.mem_map.1 hp
  exact h q hq

theorem exists_normalized {plan : List PageSpec} {pageCountMax : Nat} (hne : plan ≠ []) (hmax : 1 ≤ pageCountMax) :
    ∃ before x after, Split (nameSlugs [] plan) before x after ∧
      normalizePlan plan pageCountMax = (indexPage x :: (before ++ after).map underIndex).take pageCountMax := by
  have hnamed : nameSlugs [] plan ≠ [] := by
    obtain ⟨p, pages, rfl⟩ := List.exists_cons_of_ne_nil hne
    exact List.cons_ne_nil _ _
  obtain ⟨before, x, after, hsplit⟩ := exists_split hnamed (nameSlugs_free [] plan).1
  exact ⟨before, x, after, hsplit, normalizePlan_eq hmax hsplit⟩

theorem normalizePlan_distinct {plan : List PageSpec} {pageCountMax : Nat} (hne : plan ≠ []) (hmax : 1 ≤ pageCountMax) :
    ((normalizePlan plan pageCountMax).map (·.slug)).Nodup := by
  obtain ⟨before, x, after, hsplit, heq⟩ := exists_normalized hne hmax
  rw [heq, List.map_take]
  exact (split_slugs hsplit (nameSlugs_free [] plan).1).sublist (List.take_sublist _ _)

theorem normalizePlan_kebab {plan : List PageSpec} {pageCountMax : Nat} (hne : plan ≠ []) (hmax : 1 ≤ pageCountMax) :
    ∀ p ∈ normalizePlan plan pageCountMax, isKebab p.slug = true := by
  obtain ⟨before, x, after, hsplit, heq⟩ := exists_normalized hne hmax
  rw [heq]
  intro p hp
  rcases List.mem_cons.1 (List.mem_of_mem_take hp) with rfl | hp
  · exact (by decide : isKebab indexSlug = true)
  · obtain ⟨q, hq, rfl⟩ := List.mem_map.1 hp
    apply nameSlugs_kebab [] plan q
    rw [hsplit.eq]
    exact ((List.sublist_cons_self x after).append_left before).subset hq

/-- A normalized plan is a plan as the page store takes it. -/
theorem normalizePlan_pagePlan {plan : List PageSpec} {pageCountMax : Nat} (hne : plan ≠ []) (hmax : 1 ≤ pageCountMax) :
    ∃ P : PagePlan, P.pages = normalizePlan plan pageCountMax := by
  refine ⟨⟨_, normalizePlan_distinct hne hmax, ?_⟩, rfl⟩
  obtain ⟨before, x, after, -, heq⟩ := exists_normalized hne hmax
  rw [heq]
  intro p hp
  rcases List.mem_cons.1 (List.mem_of_mem_take hp) with rfl | hp
  · intro h
    cases h
  · obtain ⟨q, -, rfl⟩ := List.mem_map.1 hp
    exact fun h => absurd (Option.some.inj h) (by decide)

/-- A plan with at least one page and room for one is normalized. -/
theorem plan_normalized {plan : List PageSpec} {pageCountMax : Nat} (hne : plan ≠ []) (hmax : 1 ≤ pageCountMax) :
    Normalized plan (normalizePlan plan pageCountMax) pageCountMax := by
  have hkebab := normalizePlan_kebab hne hmax
  have hdistinct := normalizePlan_distinct hne hmax
  obtain ⟨before, x, after, hsplit, heq⟩ := exists_normalized hne hmax
  obtain ⟨n, rfl⟩ := Nat.exists_eq_add_of_le' hmax
  have hcut : normalizePlan plan (n + 1) = indexPage x :: ((before ++ after).take n).map underIndex := by
    rw [heq, List.take_succ_cons, List.map_take]
  have hothers : ∀ p ∈ (before ++ after).take n, p.slug ≠ indexSlug :=
    fun p hp => hsplit.others p (List.mem_of_mem_take hp)
  refine ⟨?_, hkebab, hdistinct, ⟨_, _, hcut, rfl, rfl, ?_⟩, ?_, ?_⟩
  · rw [heq]
    exact List.length_take_le _ _
  · intro p hp
    obtain ⟨q, hq, rfl⟩ := List.mem_map.1 hp
    exact ⟨hothers q hq, rfl⟩
  · obtain ⟨before', x', after', hplan, hbare⟩ := bare_split (nameSlugs_bare [] plan) hsplit
    exact ⟨before', x', after', hplan, by rw [heq, List.map_take, hbare]⟩
  · have hself : nameSlugs [] (normalizePlan plan (n + 1)) = normalizePlan plan (n + 1) :=
      nameSlugs_self hkebab hdistinct fun p _ => List.not_mem_nil
    have hagain : Split (nameSlugs [] (normalizePlan plan (n + 1))) [] (indexPage x)
        (((before ++ after).take n).map underIndex) := by
      rw [hself, hcut]
      exact settled_split hothers
    rw [normalizePlan_eq hmax hagain, List.nil_append, List.map_map, List.take_of_length_le, hcut]
    · rfl
    · rw [List.length_cons, List.length_map, List.length_take]
      omega

/-- Two pages of one slug, and an index page behind them. -/
theorem plan_normalized_three :
    Normalized [⟨"Setup!".toList, [], none, [], false, .concept⟩, ⟨"setup".toList, [], none, [], false, .concept⟩,
        ⟨"Index".toList, [], some "setup".toList, [], false, .index⟩]
      (normalizePlan [⟨"Setup!".toList, [], none, [], false, .concept⟩, ⟨"setup".toList, [], none, [], false, .concept⟩,
        ⟨"Index".toList, [], some "setup".toList, [], false, .index⟩] 2) 2 :=
  plan_normalized (by decide) (by decide)

end Cograph.Wiki
