import Cograph.Sections

/-!
# The pattern of a heading with given words

`headingRe` matches where a section begins, reads its words apart from white
space and looks at nothing beyond the heading's line. What follows the section
does not matter, nor white space at its end.
-/

namespace Cograph.Wiki

open Regex

/-- The section begins with a match. -/
def headed (r : Regex) (x : Str) : Bool := (matchAt r [] x).isSome

/-- Where a section begins, the pattern looks at the section alone. -/
structure SectionHead (r : Regex) : Prop extends Heads r where
  local_to : ∀ {b x y}, atLineStart b = true → Section x → Starts x.reverse y →
    (matchAt r b (x ++ y)).isSome = headed r x

/-! ## What is matched -/

/-- Words of letters. -/
def Lettered (words : List Str) : Prop := words ≠ [] ∧ ∀ w ∈ words, w ≠ [] ∧ ∀ c ∈ w, 'a' ≤ c ∧ c ≤ 'z'

/-- The words in any case, white space before each. -/
def Spells : List Str → Str → Prop
  | [], v => v = []
  | w :: ws, v => ∃ gap u rest, v = gap ++ (u ++ rest) ∧ gap ≠ [] ∧ (∀ c ∈ gap, Str.isSpace c = true) ∧
      u.map Str.fold = w ∧ Spells ws rest

/-- White space up to the end of the line. -/
def Blank (z : Str) : Prop := ∀ c ∈ z.takeWhile (· ≠ '\n'), Str.isSpace c = true

def Heading (words : List Str) (s : Str) : Prop :=
  ∃ v z, s = '#' :: '#' :: v ++ z ∧ Spells words v ∧ Blank z

section
variable {b s v w x y z : Str} {words : List Str} {p q : Point}

theorem mem_ends_ignoreCase : q ∈ ends (ignoreCase w) p ↔ ∃ u, u.map Str.fold = w ∧ Reaches p u q := by
  induction w generalizing p with
  | nil =>
    simp only [ignoreCase, ends, List.mem_singleton, List.map_eq_nil_iff]
    constructor
    · intro h
      exact ⟨[], rfl, reaches_nil.2 h⟩
    · intro h
      obtain ⟨u, hu, hq⟩ := h
      rw [hu] at hq
      exact reaches_nil.1 hq
  | cons c w ih =>
    simp only [ignoreCase, mem_ends_seq, mem_ends_sat, decide_eq_true_eq, ih]
    constructor
    · intro h
      obtain ⟨m, ⟨d, hm, hd⟩, u, hu, hq⟩ := h
      exact ⟨d :: u, by rw [List.map_cons, hd, hu], hm.trans hq⟩
    · intro h
      obtain ⟨u, hu, hq⟩ := h
      cases u with
      | nil => cases hu
      | cons d u =>
        obtain ⟨hd, hu⟩ := List.cons.inj hu
        obtain ⟨m, hm, hq⟩ := Reaches.split (v := [d]) hq
        exact ⟨m, ⟨d, hm, hd⟩, u, hu, hq⟩

theorem mem_ends_gap : q ∈ ends (.plus space) p ↔ ∃ w, w ≠ [] ∧ Reaches p w q ∧ ∀ c ∈ w, Str.isSpace c = true :=
  mem_ends_plus_sat

theorem mem_ends_spaces : q ∈ ends (.star space) p ↔ ∃ w, Reaches p w q ∧ ∀ c ∈ w, Str.isSpace c = true :=
  mem_ends_star_sat

theorem mem_ends_words :
    q ∈ ends (words.foldr (fun w r => .seq (.plus space) (.seq (ignoreCase w) r)) .empty) p ↔
      ∃ v, Spells words v ∧ Reaches p v q := by
  induction words generalizing p with
  | nil => simp [ends, Spells, reaches_nil]
  | cons w ws ih =>
    simp only [List.foldr_cons, mem_ends_seq, mem_ends_gap, mem_ends_ignoreCase, ih, Spells]
    constructor
    · intro h
      obtain ⟨m, ⟨gap, hne, hm, hgap⟩, m', ⟨u, hu, hm'⟩, rest, hrest, hq⟩ := h
      exact ⟨_, ⟨gap, u, rest, rfl, hne, hgap, hu, hrest⟩, hm.trans (hm'.trans hq)⟩
    · intro h
      obtain ⟨v, ⟨gap, u, rest, hv, hne, hgap, hu, hrest⟩, hq⟩ := h
      rw [hv] at hq
      obtain ⟨m, hm, hq⟩ := hq.split
      obtain ⟨m', hm', hq⟩ := hq.split
      exact ⟨m, ⟨gap, hne, hm, hgap⟩, m', ⟨u, hu, hm'⟩, rest, hrest, hq⟩

theorem blank_iff : Blank z ↔ ∃ w t, z = w ++ t ∧ (∀ c ∈ w, Str.isSpace c = true) ∧ t.head?.getD '\n' = '\n' := by
  constructor
  · intro h
    refine ⟨_, _, List.takeWhile_append_dropWhile.symm, h, ?_⟩
    have := List.head?_dropWhile_not (· ≠ '\n') z
    cases hd : (z.dropWhile (· ≠ '\n')).head? with
    | none => rfl
    | some c =>
      rw [hd] at this
      simpa using this
  · intro ⟨w, t, hz, hw, ht⟩ c hc
    rw [hz, List.takeWhile_append] at hc
    split at hc
    · cases t with
      | nil => exact hw c (by simpa using hc)
      | cons d t =>
        have hd : d = '\n' := by simpa using ht
        exact hw c (by simpa [hd] using hc)
    · exact hw c ((List.takeWhile_prefix _).subset hc)

theorem mem_ends_heading : q ∈ ends (headingRe words) ⟨b, s, []⟩ ↔ atLineStart b = true ∧ ∃ v w, Spells words v ∧
    (∀ c ∈ w, Str.isSpace c = true) ∧ Reaches ⟨b, s, []⟩ ("##".toList ++ (v ++ w)) q ∧
      q.after.head?.getD '\n' = '\n' := by
  have hline : ∀ p q : Point, q ∈ ends lineStart p ↔ q = p ∧ atLineStart p.before = true := by
    intro p q
    simp [ends, atLineStart, and_comm]
  have hlast : ∀ p q : Point, q ∈ ends lineEnd p ↔ q = p ∧ p.after.head?.getD '\n' = '\n' := by
    intro p q
    simp only [ends]
    split <;> simp_all
  simp only [headingRe, mem_ends_seq, hline, mem_ends_lit, mem_ends_words, mem_ends_spaces, hlast]
  constructor
  · intro h
    obtain ⟨p, ⟨hp, hb⟩, p₁, h₁, p₂, ⟨v, hv, h₂⟩, p₃, ⟨w, h₃, hw⟩, hq, ht⟩ := h
    rw [hp] at h₁
    rw [hq]
    exact ⟨hb, v, w, hv, hw, h₁.trans (h₂.trans h₃), ht⟩
  · intro h
    obtain ⟨hb, v, w, hv, hw, hq, ht⟩ := h
    obtain ⟨p₁, h₁, hq⟩ := hq.split
    obtain ⟨p₂, h₂, hq⟩ := hq.split
    exact ⟨_, ⟨rfl, hb⟩, p₁, h₁, p₂, ⟨v, hv, h₂⟩, q, ⟨w, hq, hw⟩, rfl, ht⟩

theorem matchAt_heading : (matchAt (headingRe words) b s).isSome ↔ atLineStart b = true ∧ Heading words s := by
  constructor
  · intro h
    obtain ⟨m, hm⟩ := Option.isSome_iff_exists.1 h
    obtain ⟨q, hq, -⟩ := matchAt_some hm
    obtain ⟨hb, v, w, hv, hw, hq, ht⟩ := mem_ends_heading.1 hq
    refine ⟨hb, v, w ++ q.after, ?_, hv, blank_iff.2 ⟨w, q.after, rfl, hw, ht⟩⟩
    have hs : s = "##".toList ++ (v ++ w) ++ q.after := hq.1.1
    rw [hs]
    simp
  · intro ⟨hb, v, z, hs, hv, hz⟩
    obtain ⟨w, t, rfl, hw, ht⟩ := blank_iff.1 hz
    obtain ⟨q, hq, hqt⟩ := reaches_of_after (p := ⟨b, s, []⟩) (w := "##".toList ++ (v ++ w)) (t := t) (by simp [hs])
    have hq := mem_ends_heading.2 ⟨hb, v, w, hv, hw, hq, by rw [hqt]; exact ht⟩
    cases he : ends (headingRe words) ⟨b, s, []⟩ with
    | nil =>
      rw [he] at hq
      cases hq
    | cons q' qs =>
      have hq' : q' ∈ ends (headingRe words) ⟨b, s, []⟩ := by
        rw [he]
        exact List.mem_cons_self
      obtain ⟨-, v', w', -, -, hr, -⟩ := mem_ends_heading.1 hq'
      have hne : (⟨b, s, []⟩ : Point).upto q' ≠ [] := by
        rw [hr.1.upto_eq]
        simp
      simp [matchAt, he, hne]

/-! ## What follows -/

theorem space_toLower {c : Char} (h : Str.isSpace c = true) : c.toLower = c := by
  unfold Char.toLower
  split
  · next hc =>
    exfalso
    have hlow : 65 ≤ c.toNat := hc.1
    have hhigh : c.toNat ≤ 90 := hc.2
    simp only [Str.isSpace, decide_eq_true_eq, Bool.decide_or, Bool.decide_and, Bool.or_eq_true, Bool.and_eq_true] at h
    omega
  · rfl

theorem space_letter {c : Char} (h : Str.isSpace c = true) : ¬('a' ≤ c ∧ c ≤ 'z') := by
  intro hc
  have hlow : 97 ≤ c.toNat := hc.1
  have hhigh : c.toNat ≤ 122 := hc.2
  simp only [Str.isSpace, decide_eq_true_eq, Bool.decide_or, Bool.decide_and, Bool.or_eq_true, Bool.and_eq_true] at h
  omega

theorem space_fold {c : Char} (h : Str.isSpace c = true) : Str.fold c = c := by
  have hne : ∀ d, Str.isSpace d = false → c ≠ d := by
    rintro d hd rfl
    rw [h] at hd
    cases hd
  have hi : c ≠ '\u0130' ∧ c ≠ '\u0131' := ⟨hne _ (by decide), hne _ (by decide)⟩
  have hs : c ≠ '\u017f' := hne _ (by decide)
  have hk : c ≠ '\u212a' := hne _ (by decide)
  simp [Str.fold, hi, hs, hk, space_toLower h]

theorem fold_letter {c : Char} (h : 'a' ≤ Str.fold c ∧ Str.fold c ≤ 'z') : Str.isSpace c = false ∧ c ≠ '#' := by
  constructor
  · by_contra hs
    have hspace : Str.isSpace c = true := by simpa using hs
    rw [space_fold hspace] at h
    exact space_letter hspace h
  · rintro rfl
    revert h
    decide

theorem Lettered.cons {ws : List Str} (h : Lettered (w :: ws)) (hws : ws ≠ []) : Lettered ws :=
  ⟨hws, fun u hu => h.2 u (by simp [hu])⟩

/-- The words end in no white space. -/
theorem Spells.last (hl : Lettered words) (h : Spells words v) :
    ∃ init c, v = init ++ [c] ∧ Str.isSpace c = false := by
  induction words generalizing v with
  | nil => exact absurd rfl hl.1
  | cons w ws ih =>
    obtain ⟨gap, u, rest, rfl, -, -, hu, hrest⟩ := h
    by_cases hws : ws = []
    · subst hws
      obtain rfl : rest = [] := hrest
      obtain ⟨hw, hletters⟩ := hl.2 w (by simp)
      rcases List.eq_nil_or_concat u with rfl | ⟨init, c, rfl⟩
      · exact absurd hu.symm hw
      · refine ⟨gap ++ init, c, by simp, (fold_letter (hletters _ ?_)).1⟩
        rw [← hu]
        simp
    · obtain ⟨init, c, rfl, hc⟩ := ih (hl.cons hws) hrest
      exact ⟨gap ++ (u ++ init), c, by simp, hc⟩

theorem Spells.plain (hl : ∀ w ∈ words, ∀ c ∈ w, 'a' ≤ c ∧ c ≤ 'z') (h : Spells words v) : '#' ∉ v := by
  induction words generalizing v with
  | nil =>
    rw [show v = [] from h]
    simp
  | cons w ws ih =>
    obtain ⟨gap, u, rest, rfl, -, hgap, hu, hrest⟩ := h
    have hrest := ih (fun w hw => hl w (by simp [hw])) hrest
    have hgap : '#' ∉ gap := fun hmem => by
      have := hgap _ hmem
      simp [Str.isSpace] at this
    have hword : '#' ∉ u := fun hmem => by
      have hc := hl w (by simp) (Str.fold '#') (by rw [← hu]; exact List.mem_map_of_mem hmem)
      exact (fold_letter hc).2 rfl
    simp [hgap, hword, hrest]

theorem blank_append_feed (hz : '\n' ∈ z) (y : Str) : Blank (z ++ y) ↔ Blank z := by
  unfold Blank
  rw [List.takeWhile_append, if_neg]
  intro hlen
  have hall : z.takeWhile (· ≠ '\n') = z := (List.takeWhile_prefix _).eq_of_length hlen
  have := List.all_eq_true.1 List.all_takeWhile '\n' (hall ▸ hz)
  simp at this

theorem blank_append_spaces (hw : ∀ c ∈ w, Str.isSpace c = true) : Blank (z ++ w) ↔ Blank z := by
  unfold Blank
  rw [List.takeWhile_append]
  split
  · next hlen =>
    have hall : z.takeWhile (· ≠ '\n') = z := (List.takeWhile_prefix _).eq_of_length hlen
    constructor
    · intro h c hc
      exact h c (List.mem_append_left _ (hall ▸ hc))
    · intro h c hc
      rcases List.mem_append.1 hc with hc | hc
      · exact h c (hall.symm ▸ hc)
      · exact hw c ((List.takeWhile_prefix _).subset hc)
  · rfl

/-- A heading is read from its own line alone. -/
theorem heading_append (hl : Lettered words) (hx : opens x = true)
    (h : y = [] ∨ atLineStart x.reverse = true ∧ y.head? = some '#') : Heading words (x ++ y) ↔ Heading words x := by
  rcases h with rfl | ⟨hline, hy⟩
  · rw [List.append_nil]
  have hplain : ∀ {v}, Spells words v → '#' ∉ v := fun hv => hv.plain fun w hw => (hl.2 w hw).2
  obtain ⟨c, t, hxt, -⟩ := opens_cons hx
  have hfeed : ∀ {v z}, Spells words v → x = '#' :: '#' :: v ++ z → '\n' ∈ z := by
    intro v z hv he
    obtain ⟨init, d, hd, hspace⟩ := hv.last hl
    rcases List.eq_nil_or_concat z with rfl | ⟨zs, e, rfl⟩
    · rw [he, hd] at hline
      simp [atLineStart] at hline
      subst hline
      simp [Str.isSpace] at hspace
    · rw [he] at hline
      simp [atLineStart] at hline
      simp [hline]
  constructor
  · intro h
    obtain ⟨v, z, he, hv, hz⟩ := h
    rcases List.append_eq_append_iff.1 he with ⟨a, ha, hb⟩ | ⟨a, ha, hb⟩
    · rcases a with - | ⟨d, a⟩
      · have hx : x = '#' :: '#' :: v ++ [] := by simpa using ha.symm
        exact absurd (hfeed hv hx) (by simp)
      · -- the words would run into the next heading
        obtain rfl : d = '#' := by simpa [hb] using hy
        rw [hxt] at ha
        have : v = c :: t ++ '#' :: a := by simpa using ha
        exact absurd (by simp [this]) (hplain hv)
    · rw [hb, blank_append_feed (hfeed hv ha)] at hz
      exact ⟨v, a, ha, hv, hz⟩
  · intro h
    obtain ⟨v, z, he, hv, hz⟩ := h
    exact ⟨v, z ++ y, by rw [he]; simp, hv, (blank_append_feed (hfeed hv he) y).2 hz⟩

theorem heading_spaces (hl : Lettered words) (hw : ∀ c ∈ w, Str.isSpace c = true) :
    Heading words (s ++ w) ↔ Heading words s := by
  constructor
  · intro ⟨v, z, he, hv, hz⟩
    obtain ⟨init, d, rfl, hd⟩ := hv.last hl
    rcases List.append_eq_append_iff.1 he with ⟨a, ha, hb⟩ | ⟨a, ha, hb⟩
    · rcases List.eq_nil_or_concat a with rfl | ⟨as, e, rfl⟩
      · exact ⟨init ++ [d], [], by simpa using ha.symm, hv, by simp [Blank]⟩
      · have hlast : '#' :: '#' :: init ++ [d] = s ++ as ++ [e] := by simpa using ha
        obtain rfl : d = e := by simpa using List.append_inj_right' hlast rfl
        have := hw d (by simp [hb])
        simp [this] at hd
    · rw [hb, blank_append_spaces hw] at hz
      exact ⟨_, a, ha, hv, hz⟩
  · intro ⟨v, z, he, hv, hz⟩
    exact ⟨v, z ++ w, by rw [he]; simp, hv, (blank_append_spaces hw).2 hz⟩

theorem Heading.opens (hl : Lettered words) (h : Heading words s) : opens s = true := by
  obtain ⟨v, z, rfl, hv, -⟩ := h
  obtain ⟨w, ws, rfl⟩ := List.exists_cons_of_ne_nil hl.1
  obtain ⟨gap, u, rest, rfl, hne, hgap, -, -⟩ := hv
  obtain ⟨c, gap, rfl⟩ := List.exists_cons_of_ne_nil hne
  exact hgap c (by simp)

/-- The first letter of the words of a heading. -/
def initial (s : Str) : Option Char := ((s.drop 2).dropWhile Str.isSpace).head?.map Str.fold

theorem Heading.initial (hl : Lettered words) (h : Heading words s) : initial s = words.head?.bind List.head? := by
  obtain ⟨v, z, rfl, hv, -⟩ := h
  obtain ⟨w, ws, rfl⟩ := List.exists_cons_of_ne_nil hl.1
  obtain ⟨gap, u, rest, rfl, -, hgap, hu, -⟩ := hv
  obtain ⟨hw, hletters⟩ := hl.2 w (by simp)
  cases u with
  | nil => exact absurd hu.symm hw
  | cons c u =>
    obtain ⟨hc, -⟩ := fold_letter (c := c) (hletters _ (by rw [← hu]; simp))
    have hdrop : (gap ++ (c :: u ++ rest) ++ z).dropWhile Str.isSpace = c :: u ++ rest ++ z := by
      rw [List.append_assoc, List.dropWhile_append_of_pos hgap]
      simp [hc]
    have hs : ('#' :: '#' :: (gap ++ (c :: u ++ rest)) ++ z).drop 2 = gap ++ (c :: u ++ rest) ++ z := rfl
    rw [Cograph.Wiki.initial, hs, hdrop, ← hu]
    rfl

theorem headed_heading : headed (headingRe words) s = true ↔ Heading words s := by
  rw [headed, matchAt_heading]
  simp [atLineStart]

/-- The pattern of a heading looks at one section. -/
theorem heading_head (hl : Lettered words) : SectionHead (headingRe words) where
  starts := by
    intro b s m h
    obtain ⟨hb, hs⟩ := matchAt_heading.1 (by rw [h]; rfl)
    exact ⟨hb, hs.opens hl⟩
  plain := by
    intro b s m h
    obtain ⟨q, hq, hs, -, -⟩ := matchAt_some h
    obtain ⟨-, v, w, hv, hw, hr, -⟩ := mem_ends_heading.1 hq
    have htext : m.text = "##".toList ++ (v ++ w) := List.append_cancel_right (hs.symm.trans hr.1.1)
    have hwords : '#' ∉ v := hv.plain fun w hw => (hl.2 w hw).2
    have hgap : '#' ∉ w := fun hmem => by
      have := hw _ hmem
      simp [Str.isSpace] at this
    simp [htext, hwords, hgap]
  local_to := by
    intro b x y hb hx h
    rw [Bool.eq_iff_iff, headed_heading, matchAt_heading, and_iff_right hb]
    refine heading_append hl hx.opens (h.imp_right fun h => ⟨h.1, ?_⟩)
    obtain ⟨c, t, rfl, -⟩ := opens_cons h.2
    rfl

end

end Cograph.Wiki
