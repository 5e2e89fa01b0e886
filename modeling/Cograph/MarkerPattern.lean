import Cograph.CoverageSound
import Cograph.HeadingPattern
import Cograph.Occurs

/-!
# The patterns of markers and of evidence

An answer marker is found wherever its text stands. Lines of markers are
neither a citation nor a source line, so a section goes on being evidence when
such lines are put in front of it.
-/

namespace Cograph.Wiki

open Regex

/-! ## Answer markers -/

def slugChar (c : Char) : Bool := isLetter c ∨ ('0' ≤ c ∧ c ≤ '9') ∨ c = '-'

def SlugText (slug : Str) : Prop := ∃ c t, slug = c :: t ∧ isLetter c = true ∧ ∀ d ∈ t, slugChar d = true

/-- The text of a marker: its words with white space in between. -/
def MarkerText (slug text : Str) : Prop :=
  ∃ g₁ a g₂ g₃ g₄, text = "<!--".toList ++ (g₁ ++ (a ++ (g₂ ++ (":".toList ++ (g₃ ++ (slug ++ (g₄ ++ "-->".toList))))))) ∧
    a.map Str.fold = "answers".toList ∧ SlugText slug ∧ ∀ c ∈ g₁ ++ g₂ ++ g₃ ++ g₄, Str.isSpace c = true

section
variable {b s slug slug' text text' : Str} {m : Match} {p q : Point}

theorem mem_ends_slug :
    q ∈ ends (.group 1 (.seq (.sat isLetter) (.star (.sat fun c => isLetter c ∨ ('0' ≤ c ∧ c ≤ '9') ∨ c = '-')))) p ↔
      ∃ slug, SlugText slug ∧ Reads p slug q ∧ q.groups = (1, slug) :: p.groups := by
  simp only [mem_ends_group, mem_ends_seq, mem_ends_sat, mem_ends_star_sat]
  constructor
  · intro h
    obtain ⟨m, ⟨m₁, ⟨c, h₁, hc⟩, t, h₂, ht⟩, hq⟩ := h
    have hr := h₁.trans h₂
    rw [hq]
    exact ⟨c :: t, ⟨c, t, rfl, hc, ht⟩, hr.1, by simp only [hr.1.upto_eq, hr.2, List.singleton_append]⟩
  · intro h
    obtain ⟨slug, ⟨c, t, hs, hc, ht⟩, hr, hg⟩ := h
    obtain ⟨m, hm, hma⟩ := reaches_of_after hr.1
    rw [hs] at hm
    obtain ⟨m₁, h₁, h₂⟩ := Reaches.split (v := [c]) hm
    refine ⟨m, ⟨m₁, ⟨c, h₁, hc⟩, t, h₂, ht⟩, Point.ext ?_ ?_ ?_⟩
    · rw [hr.2, hm.1.2, hs]
    · exact hma.symm
    · rw [hg, hm.2, hm.1.upto_eq, hs]

theorem mem_ends_marker : q ∈ ends answerMarkerRe p ↔
    ∃ slug text, MarkerText slug text ∧ Reads p text q ∧ q.groups = (1, slug) :: p.groups := by
  unfold answerMarkerRe
  simp only [mem_ends_seq, mem_ends_slug, mem_ends_lit, mem_ends_spaces, mem_ends_ignoreCase]
  constructor
  · intro h
    obtain ⟨p₁, h₁, p₂, ⟨g₁, h₂, e₁⟩, p₃, ⟨a, ha, h₃⟩, p₄, ⟨g₂, h₄, e₂⟩, p₅, h₅, p₆, ⟨g₃, h₆, e₃⟩, p₇, ⟨slug, hs, h₇, hg⟩,
      p₈, ⟨g₄, h₈, e₄⟩, h₉⟩ := h
    have hbefore := h₁.trans (h₂.trans (h₃.trans (h₄.trans (h₅.trans h₆))))
    have hafter := h₈.trans h₉
    refine ⟨slug, _, ⟨g₁, a, g₂, g₃, g₄, rfl, ha, hs, ?_⟩, ?_, ?_⟩
    · intro c hc
      simp only [List.mem_append] at hc
      rcases hc with ((hc | hc) | hc) | hc
      · exact e₁ c hc
      · exact e₂ c hc
      · exact e₃ c hc
      · exact e₄ c hc
    · simpa using hbefore.1.trans (h₇.trans hafter.1)
    · rw [hafter.2, hg, hbefore.2]
  · intro h
    obtain ⟨slug, text, ⟨g₁, a, g₂, g₃, g₄, ht, ha, hs, hsp⟩, hr, hg⟩ := h
    have hsp : ∀ g, g = g₁ ∨ g = g₂ ∨ g = g₃ ∨ g = g₄ → ∀ c ∈ g, Str.isSpace c = true := by
      intro g h c hc
      apply hsp
      simp only [List.mem_append]
      rcases h with rfl | rfl | rfl | rfl
      · exact .inl (.inl (.inl hc))
      · exact .inl (.inl (.inr hc))
      · exact .inl (.inr hc)
      · exact .inr hc
    rw [ht] at hr
    obtain ⟨p₁, h₁, a₁⟩ := reaches_of_after (p := p) (w := "<!--".toList) (by rw [hr.1, List.append_assoc])
    simp only [List.append_assoc] at a₁
    obtain ⟨p₂, h₂, a₂⟩ := reaches_of_after a₁
    obtain ⟨p₃, h₃, a₃⟩ := reaches_of_after a₂
    obtain ⟨p₄, h₄, a₄⟩ := reaches_of_after a₃
    obtain ⟨p₅, h₅, a₅⟩ := reaches_of_after a₄
    obtain ⟨p₆, h₆, a₆⟩ := reaches_of_after a₅
    obtain ⟨p₇, h₇, a₇⟩ := reaches_of_after a₆
    obtain ⟨p₈, h₈, a₈⟩ := reaches_of_after (p := ⟨p₇.before, p₇.after, (1, slug) :: p₆.groups⟩) a₇
    have hbefore := h₁.trans (h₂.trans (h₃.trans (h₄.trans (h₅.trans h₆))))
    have h₈' : Reads p₇ g₄ p₈ := h₈.1
    have hafter := hbefore.1.trans (h₇.1.trans h₈')
    have h₉ : Reads p₈ "-->".toList q := by
      refine Reads.after ?_ hafter
      simpa using hr
    refine ⟨p₁, h₁, p₂, ⟨g₁, h₂, hsp _ (by simp)⟩, p₃, ⟨a, ha, h₃⟩, p₄, ⟨g₂, h₄, hsp _ (by simp)⟩, p₅, h₅, p₆,
      ⟨g₃, h₆, hsp _ (by simp)⟩, ⟨p₇.before, p₇.after, (1, slug) :: p₆.groups⟩, ⟨slug, hs, h₇.1, rfl⟩, p₈,
      ⟨g₄, h₈, hsp _ (by simp)⟩, h₉, ?_⟩
    rw [hg, h₈.2, hbefore.2]

/-- The characters of a marker after its first. -/
def markerChar (c : Char) : Bool := Str.isSpace c ∨ slugChar c ∨ c = '!' ∨ c = ':'

theorem fold_ne {c d : Char} (h : isLetter c = true) (hd : isLetter d = false) : c ≠ d := by
  rintro rfl
  rw [hd] at h
  cases h

theorem slugChar_marker {c : Char} (h : slugChar c = true) : markerChar c = true := by
  simp [markerChar, h]

theorem letter_slugChar {c : Char} (h : isLetter c = true) : slugChar c = true := by
  simp [slugChar, h]

theorem SlugText.chars (h : SlugText slug) : ∀ c ∈ slug, slugChar c = true := by
  obtain ⟨d, t, rfl, hd, ht⟩ := h
  intro c hc
  rcases List.mem_cons.1 hc with rfl | hc
  · exact letter_slugChar hd
  · exact ht c hc

theorem slugChar_graphic {c : Char} (h : slugChar c = true) : Str.isSpace c = false := by
  simp only [slugChar, Bool.decide_or, Bool.decide_and, Bool.or_eq_true, Bool.and_eq_true, decide_eq_true_eq] at h
  rcases h with h | ⟨h₀, h₉⟩ | rfl
  · exact (fold_letter (by simpa [isLetter] using h)).1
  · by_contra hs
    have hlow : 48 ≤ c.toNat := h₀
    have hhigh : c.toNat ≤ 57 := h₉
    simp [Str.isSpace] at hs
    omega
  · rfl

theorem answers_letters {a : Str} (h : a.map Str.fold = "answers".toList) : ∀ c ∈ a, isLetter c = true := by
  have hall : ∀ d ∈ "answers".toList, 'a' ≤ d ∧ d ≤ 'z' := by simp
  intro c hc
  have := hall (Str.fold c) (by rw [← h]; exact List.mem_map_of_mem hc)
  simpa [isLetter] using this

theorem strip_gaps {g s g' : Str} (hg : ∀ c ∈ g, Str.isSpace c = true) (hg' : ∀ c ∈ g', Str.isSpace c = true)
    (hs : ∀ c ∈ s, Str.isSpace c = false) : Str.strip (g ++ (s ++ g')) = s := by
  have hr : Str.rstrip s = s := by
    obtain ⟨w, he, hw⟩ := Str.rstrip_append s
    have hnil : w = [] := by
      rcases w with - | ⟨c, w⟩
      · rfl
      · have hspace := hw c (by simp)
        rw [hs c (by rw [he]; simp)] at hspace
        cases hspace
    conv_rhs => rw [he, hnil, List.append_nil]
  cases s with
  | nil =>
    rw [Str.strip, Str.lstrip, List.nil_append, List.dropWhile_append_of_pos hg, List.dropWhile_eq_nil_iff.2 hg']
    rfl
  | cons c s =>
    have hl : Str.lstrip (g ++ (c :: s ++ g')) = c :: s ++ g' := by
      rw [Str.lstrip, List.dropWhile_append_of_pos hg]
      simp [hs c (by simp)]
    rw [Str.strip, hl, Str.rstrip_of_spaces hg', hr]

/-- A marker ends with the only `>` it has, and `:` stands before its slug. -/
theorem MarkerText.shape (h : MarkerText slug text) : ∃ before after, text = '<' :: before ++ ':' :: after ++ "-->".toList ∧
    ':' ∉ before ∧ (∀ c ∈ before ++ ':' :: after, markerChar c = true) ∧ Str.strip after = slug := by
  obtain ⟨g₁, a, g₂, g₃, g₄, rfl, ha, hs, hsp⟩ := h
  have ha := answers_letters ha
  refine ⟨"!--".toList ++ (g₁ ++ (a ++ g₂)), g₃ ++ (slug ++ g₄), by simp, ?_, ?_, ?_⟩
  · have hg : ∀ g : Str, (∀ c ∈ g, Str.isSpace c = true) → ':' ∉ g := by
      intro g hg hmem
      cases hg _ hmem
    have h₁ : ':' ∉ g₁ := hg g₁ fun c hc => hsp c (by simp [hc])
    have h₂ : ':' ∉ g₂ := hg g₂ fun c hc => hsp c (by simp [hc])
    have h₃ : ':' ∉ a := fun hmem => fold_ne (ha _ hmem) (by decide) rfl
    simp [h₁, h₂, h₃]
  · intro c hc
    have hword : ∀ c ∈ a, markerChar c = true := fun c hc => slugChar_marker (letter_slugChar (ha c hc))
    have hslug : ∀ c ∈ slug, markerChar c = true := fun c hc => slugChar_marker (hs.chars c hc)
    have hspaces : ∀ c ∈ g₁ ++ g₂ ++ g₃ ++ g₄, markerChar c = true := fun c hc => by simp [markerChar, hsp c hc]
    simp only [List.mem_append, List.mem_cons] at hc hspaces
    rcases hc with (hc | hc | hc | hc) | rfl | hc | hc | hc
    · have hc : c = '!' ∨ c = '-' := by simpa using hc
      rcases hc with rfl | rfl <;> rfl
    · exact hspaces c (.inl (.inl (.inl hc)))
    · exact hword c hc
    · exact hspaces c (.inl (.inl (.inr hc)))
    · rfl
    · exact hspaces c (.inl (.inr hc))
    · exact hslug c hc
    · exact hspaces c (.inr hc)
  · exact strip_gaps (fun c hc => hsp c (by simp [hc])) (fun c hc => hsp c (by simp [hc]))
      fun c hc => slugChar_graphic (hs.chars c hc)

theorem split_first {d : Char} {x x' r r' : Str} (h : x ++ d :: r = x' ++ d :: r') (hx : d ∉ x) (hx' : d ∉ x') :
    x = x' ∧ r = r' := by
  induction x generalizing x' with
  | nil =>
    cases x' with
    | nil => exact ⟨rfl, (List.cons.inj h).2⟩
    | cons c x' => exact absurd (by rw [(List.cons.inj h).1]; simp) hx'
  | cons c x ih =>
    cases x' with
    | nil => exact absurd (by rw [(List.cons.inj h).1]; simp) hx
    | cons c' x' =>
      obtain ⟨rfl, ht⟩ := List.cons.inj h
      obtain ⟨rfl, hr⟩ := ih ht (fun hm => hx (by simp [hm])) (fun hm => hx' (by simp [hm]))
      exact ⟨rfl, hr⟩

theorem MarkerText.unique {r r' : Str} (h : MarkerText slug text) (h' : MarkerText slug' text')
    (he : text ++ r = text' ++ r') : slug = slug' ∧ text = text' := by
  obtain ⟨u, v, hu, hcolon, hchars, rfl⟩ := h.shape
  obtain ⟨u', v', hu', hcolon', hchars', rfl⟩ := h'.shape
  have hclose : ∀ {u v : Str}, (∀ c ∈ u ++ ':' :: v, markerChar c = true) → '>' ∉ u ++ (':' :: (v ++ "--".toList)) := by
    intro u v hc hmem
    have hmem : '>' ∈ u ++ ':' :: v := by simpa using hmem
    cases hc _ hmem
  have hcut : (u ++ (':' :: (v ++ "--".toList))) ++ '>' :: r = (u' ++ (':' :: (v' ++ "--".toList))) ++ '>' :: r' := by
    simpa [hu, hu'] using he
  obtain ⟨hsame, -⟩ := split_first hcut (hclose hchars) (hclose hchars')
  obtain ⟨rfl, hv⟩ := split_first hsame hcolon hcolon'
  obtain rfl := List.append_cancel_right hv
  exact ⟨rfl, hu.trans hu'.symm⟩

theorem matchAt_marker : matchAt answerMarkerRe b s = some m ↔
    ∃ slug text t, MarkerText slug text ∧ s = text ++ t ∧ m = ⟨text, [(1, slug)]⟩ := by
  constructor
  · intro h
    obtain ⟨q, hq, hs, _, hg⟩ := matchAt_some h
    obtain ⟨slug, text, ht, hr, hgr⟩ := mem_ends_marker.1 hq
    have htext : m.text = text := List.append_cancel_right (hs.symm.trans hr.1)
    refine ⟨slug, text, q.after, ht, hr.1, ?_⟩
    cases m
    simp_all
  · intro ⟨slug, text, t, ht, hs, hm⟩
    have hp : Point.mk (text.reverse ++ b) t [(1, slug)] ∈ ends answerMarkerRe ⟨b, s, []⟩ :=
      mem_ends_marker.2 ⟨slug, text, ht, ⟨hs, rfl⟩, rfl⟩
    obtain ⟨u, v, hu, -⟩ := ht.shape
    rw [matchAt_of_unique hp, hm]
    · simp [hs]
    · intro x hx
      obtain ⟨slug', text', ht', hr, hg⟩ := mem_ends_marker.1 hx
      obtain ⟨rfl, rfl⟩ := ht.unique ht' (hs.symm.trans hr.1)
      exact Point.ext hr.2 (List.append_cancel_left (hr.1.symm.trans hs)) hg
    · simp [hs, hu]
      omega

theorem marker_fixed : Fixed answerMarkerRe := by
  intro b s m h b' t
  obtain ⟨slug, text, -, ht, -, rfl⟩ := matchAt_marker.1 h
  exact matchAt_marker.2 ⟨slug, text, t, ht, rfl, rfl⟩

theorem MarkerText.solo (h : MarkerText slug text) : ∃ t, text = '<' :: t ∧ '<' ∉ t := by
  obtain ⟨u, v, rfl, -, hchars, -⟩ := h.shape
  refine ⟨u ++ ':' :: v ++ "-->".toList, by simp, fun hmem => ?_⟩
  have hmem : '<' ∈ u ++ ':' :: v := by simpa using hmem
  cases hchars _ hmem

theorem marker_solo : Solo '<' answerMarkerRe := by
  intro b s m h
  obtain ⟨slug, text, -, ht, -, rfl⟩ := matchAt_marker.1 h
  exact ht.solo

theorem MarkerText.not_mem {d : Char} (h : MarkerText slug text) (hd : markerChar d = false)
    (hne : d ≠ '<' ∧ d ≠ '-' ∧ d ≠ '>') : d ∉ text := by
  obtain ⟨u, v, rfl, -, hchars, -⟩ := h.shape
  intro hmem
  have hmem : d ∈ u ++ ':' :: v := by simpa [hne] using hmem
  rw [hchars _ hmem] at hd
  cases hd

/-- The markers of a text are all that stand in it. -/
theorem mem_findMarkers {body q : Str} {i : Nat} : (i, q) ∈ findMarkers body ↔
    ∃ v text w slug, MarkerText slug text ∧ body = v ++ (text ++ w) ∧ i = v.length ∧ q = Str.lower (Str.strip slug) := by
  unfold findMarkers
  rw [List.mem_map]
  constructor
  · intro ⟨⟨j, m⟩, hm, he⟩
    obtain ⟨v, w, hs, hv, hm⟩ := (mem_finditer marker_fixed marker_solo).1 hm
    obtain ⟨slug, text, -, ht, -, rfl⟩ := matchAt_marker.1 hm
    obtain ⟨rfl, rfl⟩ := Prod.mk.inj he
    exact ⟨v, text, w, slug, ht, hs, hv, rfl⟩
  · intro ⟨v, text, w, slug, ht, hs, hv, hq⟩
    refine ⟨(i, ⟨text, [(1, slug)]⟩), (mem_finditer marker_fixed marker_solo).2 ⟨v, w, hs, hv, ?_⟩, ?_⟩
    · exact matchAt_marker.2 ⟨slug, text, [], ht, by simp, rfl⟩
    · rw [hq]
      rfl

/-! ## Inserted markers -/

def markerLine (slug : Str) : Str := "<!-- answers: ".toList ++ slug ++ " -->\n".toList

theorem markerText_cons (slug : Str) (slugs : List Str) : markerText (slug :: slugs) = markerLine slug ++ markerText slugs :=
  rfl

theorem markerLine_feed (slug : Str) :
    markerLine slug = ("<!-- answers: ".toList ++ slug ++ " -->".toList) ++ ['\n'] := by
  have hend : " -->\n".toList = " -->".toList ++ ['\n'] := rfl
  unfold markerLine
  rw [hend]
  simp only [List.append_assoc]

theorem slug_marker (h : SlugText slug) : MarkerText slug ("<!-- answers: ".toList ++ slug ++ " -->".toList) :=
  ⟨[' '], "answers".toList, [], [' '], [' '], by simp, by decide, h, by simp [Str.isSpace]⟩

theorem slugText_of_all {s : Str} (h : (s ≠ [] ∧ s.head?.all isLetter) ∧ s.all slugChar) : SlugText s := by
  cases s with
  | nil => exact absurd rfl h.1.1
  | cons c t =>
    obtain ⟨⟨-, hc⟩, ht⟩ := h
    refine ⟨c, t, rfl, by simpa using hc, fun d hd => ?_⟩
    exact List.all_eq_true.1 ht d (by simp [hd])

theorem value_slug (q : ReaderQuestion) : SlugText q.value := by
  cases q <;> exact slugText_of_all (by decide)

theorem value_lower (q : ReaderQuestion) : Str.lower (Str.strip q.value) = q.value := by
  cases q <;> decide

end

/-! ## Evidence -/

theorem sourceLineRe_anchored : ∃ r, sourceLineRe = .seq .lineStart (.seq (.star space) (.seq (.lit "Source".toList) r)) ∧
    (Regex.seq (.star space) (.seq (.lit "Source".toList) r)).unanchored = true :=
  ⟨_, rfl, by decide⟩

section
variable {b s x y l w : Str} {ledger : Ledger}

theorem source_scan (hb : atLineStart b = true) (s : Str) : scan sourceLineRe 0 b s = scan sourceLineRe 0 [] s := by
  obtain ⟨r, hre, hr⟩ := sourceLineRe_anchored
  rw [hre]
  apply scan_anchored hr
  simpa [atLineStart] using hb

theorem source_form {m : Match} (hm : matchAt sourceLineRe b s = some m) : atLineStart b = true ∧
    ∃ w t, s = w ++ ("Source".toList ++ t) ∧ ∀ c ∈ w, Str.isSpace c = true := by
  obtain ⟨r, hre, -⟩ := sourceLineRe_anchored
  rw [hre] at hm
  have hb := matchAt_lineStart hm
  obtain ⟨q, hq, -⟩ := matchAt_some hm
  obtain ⟨p, hp, hq⟩ := mem_ends_seq.1 hq
  obtain ⟨p', hp', hq⟩ := mem_ends_seq.1 hq
  obtain ⟨p'', hp'', -⟩ := mem_ends_seq.1 hq
  obtain ⟨w, hw, hspaces⟩ := mem_ends_spaces.1 hp'
  have hword := mem_ends_lit.1 hp''
  obtain rfl : p = ⟨b, s, []⟩ := by simpa [ends, hb] using hp
  refine ⟨by simp [atLineStart, hb], w, p''.after, ?_, hspaces⟩
  rw [← hword.1.1, ← hw.1.1]

theorem source_none {c : Char} (h : atLineStart b = false ∨ Str.isSpace c = false ∧ c ≠ 'S') :
    matchAt sourceLineRe b (c :: s) = none := by
  cases hm : matchAt sourceLineRe b (c :: s) with
  | none => rfl
  | some m =>
    exfalso
    obtain ⟨hb, w, t, htext, hspaces⟩ := source_form hm
    rcases h with h | ⟨hc, hne⟩
    · rw [hb] at h
      cases h
    · cases w with
      | nil => exact hne (List.cons.inj htext).1
      | cons d w =>
        have := hspaces d (by simp)
        rw [← (List.cons.inj htext).1, hc] at this
        cases this

/-- A line that begins with `<` is no source line and hides none. -/
theorem source_over (hl : '\n' ∉ l) (hhead : l.head? = some '<') (y : Str) :
    hits sourceLineRe (l ++ '\n' :: y) = hits sourceLineRe y := by
  obtain ⟨l, rfl⟩ : ∃ t, l = '<' :: t := by
    cases l with
    | nil => cases hhead
    | cons c t => exact ⟨t, by rw [Option.some.inj hhead]⟩
  have hrest : ∀ (l b : Str), '\n' ∉ l → atLineStart b = false →
      (scan sourceLineRe 0 b (l ++ '\n' :: y)).filterMap Token.hit? = hits sourceLineRe y := by
    intro l
    induction l with
    | nil =>
      intro b _ hb
      rw [List.nil_append, scan_plain (source_none (.inl hb)), source_scan rfl]
      rfl
    | cons c l ih =>
      intro b hl hb
      rw [List.cons_append, scan_plain (source_none (.inl hb))]
      refine ih (c :: b) (fun h => hl (by simp [h])) ?_
      have hc : c ≠ '\n' := fun h => hl (by simp [h])
      simp [atLineStart, hc]
  rw [hits, List.cons_append, scan_plain (source_none (.inr ⟨rfl, by decide⟩))]
  exact hrest l ['<'] (fun h => hl (by simp [h])) rfl

theorem slug_plain {slug : Str} (h : SlugText slug) {c : Char} (hc : slugChar c = false) : c ∉ slug := fun hmem => by
  rw [h.chars c hmem] at hc
  cases hc

theorem source_markers {slugs : List Str} (h : ∀ t ∈ slugs, SlugText t) (y : Str) :
    hits sourceLineRe (markerText slugs ++ y) = hits sourceLineRe y := by
  induction slugs with
  | nil => rfl
  | cons slug slugs ih =>
    have hslug := slug_plain (h slug (by simp)) (c := '\n') rfl
    rw [markerText_cons, markerLine_feed, List.append_assoc, List.append_assoc, List.singleton_append,
      source_over (by simp [hslug]) rfl, ih fun t ht => h t (by simp [ht])]

theorem markers_plain {slugs : List Str} (h : ∀ t ∈ slugs, SlugText t) {c : Char} (hc : slugChar c = false)
    (hne : c ∉ "<!-- answers: ".toList ++ " -->\n".toList) : c ∉ markerText slugs := by
  intro hmem
  obtain ⟨t, ht, hmem⟩ := List.mem_flatMap.1 hmem
  rcases List.mem_append.1 hmem with hmem | hmem
  · rcases List.mem_append.1 hmem with hmem | hmem
    · exact hne (List.mem_append_left _ hmem)
    · exact slug_plain (h t ht) hc hmem
  · exact hne (List.mem_append_right _ hmem)

/-- Marker lines in front of a text are no evidence and hide none. -/
theorem evidence_markers {slugs : List Str} (h : ∀ t ∈ slugs, SlugText t) (y : Str) :
    sectionHasVerifiedEvidence (markerText slugs ++ y) ledger = sectionHasVerifiedEvidence y ledger := by
  unfold sectionHasVerifiedEvidence
  rw [source_markers h]
  have hcites : cites (markerText slugs ++ y) = cites y := cites_skip (markers_plain h rfl (by decide)) y
  unfold cites at hcites
  rw [hcites]

theorem placeholder_fixed : Fixed placeholderRe := by
  intro b s m h b' t
  obtain ⟨kind, v, -, hv, -, rfl⟩ := matchAt_placeholder.1 h
  exact matchAt_placeholder.2 ⟨kind, v, t, hv, rfl, rfl⟩

/-- What is inserted after a line makes no citation run over the line's end that
did not before. -/
theorem whole_insert (h : Whole placeholderRe x y) (hline : x.getLast? = some '\n') (hw : ']' ∉ w) :
    Whole placeholderRe x (w ++ y) := by
  intro t ht hsuf m hm
  obtain ⟨kind, v, r, hv, hs, rfl⟩ := matchAt_placeholder.1 hm
  by_contra hlong
  obtain ⟨t₀, rfl⟩ : ∃ t₀, t = t₀ ++ ['\n'] := by
    obtain ⟨z, rfl⟩ := hsuf
    rw [List.getLast?_append_of_ne_nil _ ht] at hline
    exact List.getLast?_eq_some_iff.1 hline
  obtain ⟨u, hu, hwy⟩ : ∃ u, citation kind v = t₀ ++ ['\n'] ++ u ∧ w ++ y = u ++ r := by
    rcases List.append_eq_append_iff.1 hs with ⟨u, hu, hwy⟩ | ⟨u, hu, -⟩
    · exact ⟨u, hu, hwy⟩
    · have := congrArg List.length hu
      rw [@List.length_append _ _ u] at this
      exact absurd (show (citation kind v).length ≤ (t₀ ++ ['\n']).length by omega) hlong
  have hopen : t₀ ++ '\n' :: u = ("[[".toList ++ kind.text ++ ":".toList) ++ (v ++ "]]".toList) := by
    rw [← List.append_assoc, ← citation, hu]
    simp
  obtain ⟨a, c, rfl, rfl, rfl⟩ := split_mid hopen (by cases kind <;> decide) (by decide)
  -- the inserted text lies within the value
  obtain ⟨c, rfl, rfl⟩ : ∃ c', c = w ++ c' ∧ y = c' ++ "]]".toList ++ r := by
    rw [List.append_assoc] at hwy
    rcases List.append_eq_append_iff.1 hwy with ⟨e, he, hy⟩ | ⟨e, he, hy⟩
    · exact ⟨e, he, by rw [hy, List.append_assoc]⟩
    · cases e with
      | nil => exact ⟨[], by simpa using he.symm, by simpa using hy.symm⟩
      | cons d e =>
        obtain rfl : ']' = d := (List.cons.inj hy).1
        exact absurd (by rw [he]; simp) hw
  have hshort : matchAt placeholderRe [] ("[[".toList ++ kind.text ++ ":".toList ++ a ++ ['\n'] ++ (c ++ "]]".toList ++ r)) =
      some (citationMatch kind (a ++ '\n' :: c)) := by
    refine matchAt_placeholder.2 ⟨kind, _, r, ⟨by simp, fun hmem => hv.2 ?_⟩, by simp [citation], rfl⟩
    simp only [List.mem_append, List.mem_cons] at hmem ⊢
    tauto
  have hle := h _ ht hsuf _ hshort
  simp [citationMatch, citation] at hle

/-- Marker lines after a heading's line change no evidence, where no citation
runs over the line's end. -/
theorem evidence_line {slugs : List Str} (h : ∀ t ∈ slugs, SlugText t) (hl : '\n' ∉ l) (hhead : l.head? = some '<')
    (hwhole : Whole placeholderRe (l ++ ['\n']) y) :
    sectionHasVerifiedEvidence (l ++ '\n' :: (markerText slugs ++ y)) ledger =
      sectionHasVerifiedEvidence (l ++ '\n' :: y) ledger := by
  have hmarks : ']' ∉ markerText slugs := markers_plain h rfl (by decide)
  have hins := whole_insert hwhole (by simp) hmarks
  have hcites : ∀ z, Whole placeholderRe (l ++ ['\n']) z → cites (l ++ '\n' :: z) = cites (l ++ ['\n']) ++ cites z := by
    intro z hz
    have hscan := placeholder_fixed.scan_whole hz
    rw [List.append_assoc, List.singleton_append] at hscan
    unfold cites hits
    rw [hscan, List.filterMap_append]
  have hskip : cites (markerText slugs ++ y) = cites y := cites_skip (markers_plain h rfl (by decide)) y
  have hsame : cites (l ++ '\n' :: (markerText slugs ++ y)) = cites (l ++ '\n' :: y) := by
    rw [hcites _ hins, hcites _ hwhole, hskip]
  unfold cites at hsame
  unfold sectionHasVerifiedEvidence
  rw [hsame, source_over hl hhead, source_over hl hhead, source_markers h]

end

end Cograph.Wiki
