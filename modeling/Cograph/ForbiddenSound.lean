import Cograph.CoverageSound
import Cograph.HeadingPattern

/-!
# Which forbidden sections are removed

`stripForbiddenSections` takes one section for each forbidden heading out of
the page, so a heading that comes twice is left standing. What is not part of
a forbidden section stays, the white space at its end aside.
-/

namespace Cograph.Wiki

open Regex

/-! ## What a section heading is searched by -/

section
variable {r : Regex} {b s v w x y : Str}

/-- A scan passes over the sections it does not match in. -/
theorem SectionHead.scan_upto (hr : SectionHead r) {xs ys : List Str} (hsec : sections s = xs ++ ys)
    (hno : ∀ x ∈ xs, headed r x = false) :
    scan r 0 [] s =
      (lead s ++ xs.flatten).map Token.plain ++ scan r 0 (lead s ++ xs.flatten).reverse ys.flatten := by
  have hover : ∀ b, scan r 0 b (xs ++ ys).flatten =
      xs.flatten.map Token.plain ++ scan r 0 (xs.flatten.reverse ++ b) ys.flatten := by
    have hall : Sectioned (xs ++ ys) := hsec ▸ sections_sectioned s
    clear hsec
    induction xs with
    | nil =>
      intro b
      rfl
    | cons x xs ih =>
      intro b
      have hall : Sectioned (x :: (xs ++ ys)) := hall
      have hstarts := hall.2.1
      have hnone : matchAt r b (x ++ (xs ++ ys).flatten) = none := by
        cases hm : matchAt r b (x ++ (xs ++ ys).flatten) with
        | none => rfl
        | some m =>
          have := hr.local_to (hr.starts hm).1 hall.1 hstarts
          rw [hm, hno x (by simp)] at this
          cases this
      rcases hr.scan_section hall.1 (hstarts.after hall.1.ne_nil b) with ⟨-, hscan⟩ | ⟨m, t, hm, -⟩
      · rw [List.cons_append, List.flatten_cons, hscan, ih (fun z hz => hno z (by simp [hz])) hall.2.2]
        simp
      · rw [hnone] at hm
        cases hm
  have hlead := hr.scan_quiet (cut_lead [] s) (cut_starts [] s)
  rw [cut_flatten] at hlead
  have hrest : (cut [] s).2 = xs ++ ys := hsec
  rw [hlead, hrest, hover]
  simp [lead]

theorem search_zero (r : Regex) (s : Str) : search r s 0 = (positions 0 (scan r 0 [] s)).head? := rfl

theorem SectionHead.search_none (hr : SectionHead r) (h : ∀ x ∈ sections s, headed r x = false) :
    search r s 0 = none := by
  have hscan := hr.scan_upto (List.append_nil _).symm h
  rw [search_zero, hscan, positions_plains]
  rfl

theorem SectionHead.search_some (hr : SectionHead r) {xs ys : List Str} (hsec : sections s = xs ++ x :: ys)
    (hno : ∀ z ∈ xs, headed r z = false) (hx : headed r x = true) :
    ∃ m t, x = m.text ++ t ∧ m.text ≠ [] ∧ search r s 0 = some ((lead s ++ xs.flatten).length, m) := by
  have hall : Sectioned (xs ++ x :: ys) := hsec ▸ sections_sectioned s
  obtain ⟨hsx, hstarts, -⟩ := hall.left
  have hline := (sections_starts hsec).line (by simp [hsx.ne_nil])
  rcases hr.scan_section hsx (hstarts.after hsx.ne_nil (lead s ++ xs.flatten).reverse) with ⟨hm, -⟩ | ⟨m, t, hm, ht, hscan⟩
  · have := hr.local_to hline hsx hstarts
    rw [hm, hx] at this
    cases this
  · refine ⟨m, t, ht, (matchAt_some hm).choose_spec.2.2.1, ?_⟩
    rw [search_zero, hr.scan_upto hsec hno, positions_plains, List.flatten_cons, hscan, positions, Nat.zero_add]
    rfl

theorem first_headed (r : Regex) (xs : List Str) : (∀ x ∈ xs, headed r x = false) ∨
    ∃ as x bs, xs = as ++ x :: bs ∧ (∀ z ∈ as, headed r z = false) ∧ headed r x = true := by
  cases h : xs.find? (headed r) with
  | none =>
    left
    simpa using h
  | some x =>
    right
    obtain ⟨hx, as, bs, he, hno⟩ := List.find?_eq_some_iff_append.1 h
    exact ⟨as, x, bs, he, by simpa using hno, hx⟩

theorem found_sections (hr : SectionHead r) (s : Str) : found r s = (sections s).any (headed r) := by
  unfold found
  rcases first_headed r (sections s) with hno | ⟨xs, x, ys, hsec, hno, hx⟩
  · rw [hr.search_none hno]
    simpa using hno
  · obtain ⟨m, t, -, -, hsearch⟩ := hr.search_some hsec hno hx
    rw [hsearch, hsec]
    simp [hx]

/-- The next heading after some text of a section is where the section ends. -/
theorem search_next {xs ys : List Str} {u t : Str} (hsec : sections s = xs ++ x :: ys) (hx : x = u ++ t) (hu : u ≠ []) :
    ((search h2Re s (lead s ++ xs.flatten ++ u).length).map (·.1)).getD s.length =
      (lead s ++ xs.flatten ++ x).length := by
  have hall : Sectioned (xs ++ x :: ys) := hsec ▸ sections_sectioned s
  obtain ⟨hsx, hstarts, hys⟩ := hall.left
  have hs : s = lead s ++ xs.flatten ++ u ++ (t ++ ys.flatten) := by
    conv_lhs => rw [← sections_flatten s, hsec]
    simp [hx]
  generalize lead s ++ xs.flatten = pre at hs ⊢
  have hquiet := hsx.rest (b := pre.reverse) hx hu
  rw [hx] at hstarts hsx
  have hafter := hstarts.after hsx.ne_nil pre.reverse
  have hscan := h2_heads.scan_quiet (y := ys.flatten) hquiet (by simpa using hafter)
  have hsearch : search h2Re s (pre ++ u).length =
      (positions ((pre ++ u).length + t.length) (scan h2Re 0 (t.reverse ++ (u.reverse ++ pre.reverse)) ys.flatten)).head? := by
    rw [search, hs, List.take_left, List.drop_left, List.reverse_append, hscan, positions_plains]
  rw [hsearch]
  cases ys with
  | nil =>
    rw [hs, hx]
    simp [scan, positions]
  | cons y ys =>
    obtain ⟨hline, -⟩ := hafter.resolve_left (by simp [hys.1.ne_nil])
    rcases h2_heads.scan_section hys.1 (hys.2.1.after hys.1.ne_nil (t.reverse ++ (u.reverse ++ pre.reverse))) with
      ⟨hm, -⟩ | ⟨m, v, -, -, hscan⟩
    · rw [matchAt_h2, opens_append hys.1.ne_nil (hys.2.1.imp_right And.left), hys.1.opens] at hm
      simp at hline
      simp [hline] at hm
    · rw [List.flatten_cons, hscan, hx]
      simp [positions]
      omega

theorem stripSection_none (hr : SectionHead r) (h : ∀ x ∈ sections s, headed r x = false) : stripSection s r = s := by
  rw [stripSection, hr.search_none h]

/-- The first section with the heading is cut out. -/
theorem stripSection_some (hr : SectionHead r) {xs ys : List Str} (hsec : sections s = xs ++ x :: ys)
    (hno : ∀ z ∈ xs, headed r z = false) (hx : headed r x = true) :
    stripSection s r = Str.rstrip (lead s ++ (xs ++ ys).flatten) ++ ['\n'] := by
  obtain ⟨m, t, ht, hne, hsearch⟩ := hr.search_some hsec hno hx
  have hs : s = lead s ++ xs.flatten ++ x ++ ys.flatten := by
    conv_lhs => rw [← sections_flatten s, hsec]
    simp
  have hnext := search_next hsec ht hne
  rw [@List.length_append _ _ m.text] at hnext
  have hcut : ∀ v u w : Str, s = v ++ u ++ w → s.take v.length ++ s.drop (v ++ u).length = v ++ w := by
    rintro v u w rfl
    rw [List.drop_left, List.append_assoc, List.take_left]
  rw [stripSection, hsearch]
  dsimp only
  rw [hnext, hcut _ _ _ hs, List.flatten_append, List.append_assoc]

end

/-! ## White space at the end -/

section
variable {b s w x y : Str} {c : Char}

/-- Another end of white space begins no section, but for two `#` that end the text. -/
theorem cut_trim (hx : cut b (x ++ w) = (x ++ w, [])) (hw : ∀ c ∈ w, Str.isSpace c = true) :
    cut b (x ++ ['\n']) = (x ++ ['\n'], []) ∨
      w = [] ∧ ∃ z, x = z ++ "##".toList ∧ atLineStart (z.reverse ++ b) = true ∧
        cut b (x ++ ['\n']) = (z, ["##\n".toList]) := by
  induction x generalizing b with
  | nil =>
    left
    simp [cut, opens]
  | cons c x ih =>
    rw [List.cons_append, cut] at hx
    split at hx
    · cases hx
    · next hno =>
      obtain ⟨hlead, hrest⟩ := Prod.mk.inj hx
      have hquiet : cut (c :: b) (x ++ w) = (x ++ w, []) := Prod.ext (List.cons.inj hlead).2 hrest
      rw [List.cons_append, cut]
      split
      · next hopens =>
        obtain ⟨hb, ho⟩ := Bool.and_eq_true_iff.1 hopens
        have hno : ¬opens (c :: (x ++ w)) = true := fun h => hno (Bool.and_eq_true_iff.2 ⟨hb, h⟩)
        rcases x with - | ⟨d, - | ⟨e, x⟩⟩
        · simp [opens] at ho
        · obtain ⟨e, t, he, -⟩ := opens_cons ho
          obtain ⟨rfl, rfl, -⟩ : c = '#' ∧ d = '#' ∧ _ := by simpa using he
          right
          cases w with
          | nil => exact ⟨rfl, [], rfl, by simpa using hb, by simp [cut, opens]⟩
          | cons e w => exact absurd (hw e (by simp)) hno
        · exfalso
          apply hno
          obtain ⟨e', t, he, hspace⟩ := opens_cons ho
          obtain ⟨rfl, rfl, rfl, -⟩ : c = '#' ∧ d = '#' ∧ e = e' ∧ _ := by simpa using he
          exact hspace
      · rcases ih hquiet with h | ⟨hw, z, rfl, hz, h⟩
        · left
          rw [h]
        · right
          refine ⟨hw, c :: z, rfl, by simpa using hz, ?_⟩
          rw [h]

theorem trim_opens (h : opens x = true) : opens (Str.rstrip x ++ ['\n']) = true := by
  obtain ⟨c, t, rfl, hc⟩ := opens_cons h
  rw [Str.rstrip_graphic rfl, Str.rstrip_graphic rfl]
  by_cases hr : Str.rstrip (c :: t) = []
  · rw [hr]
    rfl
  · obtain ⟨d, u, hd⟩ := List.exists_cons_of_ne_nil hr
    have : c = d := by simpa using Str.rstrip_head (s := c :: t) (c := d) (by rw [hd]; rfl)
    rw [hd, ← this]
    exact hc

/-- A section without the white space at its end is a section, but for two `#`
that end it. -/
theorem Section.trim (h : Section x) : Section (Str.rstrip x ++ ['\n']) ∨
    ∃ z, x = z ++ "##".toList ∧ Section z ∧ atLineStart z.reverse = true ∧
      cut [] (Str.rstrip x ++ ['\n']) = ([], [z, "##\n".toList]) := by
  have hopens := trim_opens h.opens
  obtain ⟨hx, t, rfl, ht⟩ := section_cons.1 h
  obtain ⟨w, he, hw⟩ := Str.rstrip_append t
  rw [Str.rstrip_graphic rfl] at hopens ⊢
  have hcut : ∀ v : Str × List Str, cut ['#'] (Str.rstrip t ++ ['\n']) = v →
      cut [] ('#' :: Str.rstrip t ++ ['\n']) = ([], ('#' :: v.1) :: v.2) := by
    rintro v rfl
    rw [List.cons_append] at hopens ⊢
    rw [cut, hopens]
    rfl
  rcases cut_trim (by rw [← he]; exact ht) hw with hq | ⟨rfl, z, hz, hline, hq⟩
  · exact .inl (hcut _ hq)
  · right
    rw [hz, List.append_nil] at he
    have hclosed : atLineStart ('#' :: z).reverse = true := by simpa using hline
    have hz : Wiki.opens ('#' :: z) = true := by
      rw [he, ← List.cons_append, opens_append (by simp) (.inr hclosed)] at hx
      exact hx
    have hlead := cut_lead ['#'] (Str.rstrip t ++ ['\n'])
    rw [hq] at hlead
    exact ⟨'#' :: z, by rw [he]; rfl, section_cons.2 ⟨hz, z, rfl, hlead⟩, hclosed, hcut _ hq⟩

theorem hashes_unheaded {words : List Str} (hl : Lettered words) : headed (headingRe words) "##\n".toList = false := by
  rw [Bool.eq_false_iff, ne_eq, headed_heading]
  intro h
  have hinit := h.initial hl
  obtain ⟨w, ws, rfl⟩ := List.exists_cons_of_ne_nil hl.1
  obtain ⟨c, w, rfl⟩ := List.exists_cons_of_ne_nil (hl.2 w (by simp)).1
  cases hinit

theorem headed_spaces {words : List Str} (hl : Lettered words) (hw : ∀ c ∈ w, Str.isSpace c = true) (s : Str) :
    headed (headingRe words) (s ++ w) = headed (headingRe words) s := by
  rw [Bool.eq_iff_iff, headed_heading, headed_heading, heading_spaces hl hw]

theorem headed_hashes {words : List Str} (hl : Lettered words) (hx : opens x = true)
    (hline : atLineStart x.reverse = true) :
    headed (headingRe words) (x ++ "##".toList) = headed (headingRe words) x := by
  rw [Bool.eq_iff_iff, headed_heading, headed_heading, heading_append hl hx (.inr ⟨hline, rfl⟩)]

/-- What becomes of the last section: it keeps its heading, and what may break
off has none. -/
theorem trimmed_section (h : Section x) : ∃ z rest, cut [] (Str.rstrip x ++ ['\n']) = ([], z :: rest) ∧
    z ++ rest.flatten = Str.rstrip x ++ ['\n'] ∧ (rest = [] ∨ rest = ["##\n".toList]) ∧
    ∀ words, Lettered words → headed (headingRe words) z = headed (headingRe words) x ∧
      ∀ y ∈ rest, headed (headingRe words) y = false := by
  rcases h.trim with ht | ⟨z, rfl, hz, hline, hcut⟩
  · refine ⟨_, [], ht, by simp, .inl rfl, fun words hl => ⟨?_, by simp⟩⟩
    obtain ⟨w, he, hw⟩ := Str.rstrip_append x
    rw [headed_spaces hl (by simp [Str.isSpace])]
    conv_rhs => rw [he]
    rw [headed_spaces hl hw]
  · have hr : Str.rstrip (z ++ "##".toList) = z ++ "##".toList := Str.rstrip_over (by decide) z
    refine ⟨z, ["##\n".toList], hcut, by rw [hr]; simp, .inr rfl, fun words hl => ⟨?_, ?_⟩⟩
    · exact (headed_hashes hl hz.opens hline).symm
    · intro y hy
      rw [List.mem_singleton.1 hy]
      exact hashes_unheaded hl

/-- The cut of a page without the white space at its end. -/
theorem cut_rstrip {xs : List Str} (hsec : sections s = xs ++ [x]) :
    cut [] (Str.rstrip s ++ ['\n']) = (lead s, xs ++ sections (Str.rstrip x ++ ['\n'])) := by
  have hall : Sectioned (xs ++ [x]) := hsec ▸ sections_sectioned s
  obtain ⟨hx, -⟩ := hall.left
  have hs : s = lead s ++ xs.flatten ++ x := by
    conv_lhs => rw [← sections_flatten s, hsec]
    simp
  have hne : Str.rstrip x ≠ [] := by
    obtain ⟨c, t, rfl, -⟩ := opens_cons hx.opens
    rw [Str.rstrip_graphic rfl]
    simp
  have hstarts : Starts (lead s ++ xs.flatten).reverse (Str.rstrip x ++ ['\n']) :=
    .inr ⟨(sections_starts hsec).line (by simp [hx.ne_nil]), trim_opens hx.opens⟩
  have hr : Str.rstrip s = lead s ++ xs.flatten ++ Str.rstrip x := by
    conv_lhs => rw [hs]
    exact Str.rstrip_over hne _
  rw [hr, List.append_assoc _ (Str.rstrip x), cut_append (by simpa using hstarts), cut_upto hsec]

end

/-! ## What stays -/

def forbiddenHeadings : List Regex := [openQuestionsHeadingRe, testStrategyHeadingRe, comparisonHeadingRe]

def isForbidden (x : Str) : Bool := forbiddenHeadings.any (headed · x)

/-- The text outside the forbidden sections. -/
def outside (s : Str) : Str := lead s ++ ((sections s).filter (!isForbidden ·)).flatten

/-- The result begins with the text, the white space at its end aside, and goes
on with white space. -/
def Kept (text result : Str) : Prop :=
  ∃ tail, result = Str.rstrip text ++ tail ∧
    (Str.rstrip text = [] ∨ ∀ c, tail.head? = some c → Str.isSpace c = true)

section
variable {s t u x : Str} {r : Regex}

theorem Kept.refl (s : Str) : Kept s s := by
  obtain ⟨w, he, hw⟩ := Str.rstrip_append s
  exact ⟨w, he, .inr fun c hc => hw c (List.mem_of_head? hc)⟩

theorem kept_trim (s : Str) : Kept s (Str.rstrip s ++ ['\n']) :=
  ⟨['\n'], rfl, .inr fun c hc => by
    obtain rfl : '\n' = c := by simpa using hc
    rfl⟩

/-- Text after the end of a line is no part of it. -/
theorem kept_closed (hs : atLineStart s.reverse = true) (t : Str) : Kept s (s ++ t) := by
  obtain ⟨w, he, hw⟩ := Str.rstrip_append s
  refine ⟨w ++ t, by rw [← List.append_assoc, ← he], ?_⟩
  by_cases hnil : w = []
  · left
    rw [hnil, List.append_nil] at he
    by_contra hne
    obtain ⟨c, hc⟩ := Option.ne_none_iff_exists'.1 (mt List.getLast?_eq_none_iff.1 hne)
    have hlast := Str.rstrip_last hc
    rw [← he] at hc
    have : c = '\n' := by simpa [atLineStart, hc] using hs
    rw [this] at hlast
    cases hlast
  · right
    intro c hc
    obtain ⟨d, w, rfl⟩ := List.exists_cons_of_ne_nil hnil
    obtain rfl : d = c := by simpa using hc
    exact hw d (by simp)

theorem Kept.trans (h : Kept s t) (h' : Kept t u) : Kept s u := by
  obtain ⟨v, rfl, hv⟩ := h
  obtain ⟨w, rfl, hw⟩ := h'
  by_cases hr : Str.rstrip v = []
  · obtain ⟨e, he, hspaces⟩ := Str.rstrip_append v
    rw [hr, List.nil_append] at he
    have hrr : Str.rstrip (Str.rstrip s ++ v) = Str.rstrip s := by
      rw [he, Str.rstrip_of_spaces hspaces, Str.rstrip_rstrip]
    rw [hrr] at hw ⊢
    exact ⟨w, rfl, hw⟩
  · refine ⟨Str.rstrip v ++ w, by rw [Str.rstrip_over hr, List.append_assoc], hv.imp_right fun hv c hc => hv c ?_⟩
    obtain ⟨d, v', hd⟩ := List.exists_cons_of_ne_nil hr
    obtain rfl : d = c := by simpa [hd] using hc
    exact Str.rstrip_head (by rw [hd]; rfl)

theorem openQuestions_lettered : Lettered ["open".toList, "questions".toList] := by
  simp [Lettered]

theorem testStrategy_lettered : Lettered ["test".toList, "strategy".toList] := by
  simp [Lettered]

theorem comparison_lettered : Lettered ["comparison".toList, "with".toList, "alternatives".toList] := by
  simp [Lettered]

theorem forbidden_head (hr : r ∈ forbiddenHeadings) : ∃ words, Lettered words ∧ r = headingRe words := by
  simp only [forbiddenHeadings, List.mem_cons, List.not_mem_nil, or_false] at hr
  rcases hr with rfl | rfl | rfl
  · exact ⟨_, openQuestions_lettered, rfl⟩
  · exact ⟨_, testStrategy_lettered, rfl⟩
  · exact ⟨_, comparison_lettered, rfl⟩

theorem hashes_free : isForbidden "##\n".toList = false := by
  unfold isForbidden
  rw [List.any_eq_false]
  intro r hr
  obtain ⟨words, hl, rfl⟩ := forbidden_head hr
  rw [hashes_unheaded hl]
  simp

theorem isForbidden_congr {x y : Str} (h : ∀ words, Lettered words →
    headed (headingRe words) x = headed (headingRe words) y) : isForbidden x = isForbidden y := by
  unfold isForbidden
  rw [Bool.eq_iff_iff, List.any_eq_true, List.any_eq_true]
  constructor
  · intro ⟨r, hr, hx⟩
    obtain ⟨words, hl, rfl⟩ := forbidden_head hr
    exact ⟨_, hr, (h words hl).symm.trans hx⟩
  · intro ⟨r, hr, hx⟩
    obtain ⟨words, hl, rfl⟩ := forbidden_head hr
    exact ⟨_, hr, (h words hl).trans hx⟩

theorem rstrip_section (h : Section x) : Str.rstrip x ≠ [] := by
  obtain ⟨c, t, rfl, -⟩ := opens_cons h.opens
  rw [Str.rstrip_graphic rfl]
  simp

theorem closed_flatten {l : Str} {ys : List Str} (hl : atLineStart l.reverse = true)
    (hys : ∀ y ∈ ys, y ≠ [] ∧ atLineStart y.reverse = true) : atLineStart (l ++ ys.flatten).reverse = true := by
  induction ys generalizing l with
  | nil => simpa using hl
  | cons y ys ih =>
    obtain ⟨hne, hy⟩ := hys y (by simp)
    rw [List.flatten_cons, ← List.append_assoc]
    apply ih _ fun z hz => hys z (by simp [hz])
    rw [List.reverse_append, atLineStart_append hne]
    exact hy

/-- A section that another follows ends its last line. -/
theorem Sectioned.closed {xs ys : List Str} (h : Sectioned (xs ++ ys)) (hys : ys ≠ []) :
    ∀ x ∈ xs, x ≠ [] ∧ atLineStart x.reverse = true := by
  induction xs with
  | nil => simp
  | cons y xs ih =>
    have h : Sectioned (y :: (xs ++ ys)) := h
    intro x hx
    rcases List.mem_cons.1 hx with rfl | hx
    · obtain ⟨z, ys, rfl⟩ := List.exists_cons_of_ne_nil hys
      have hz : Section z := h.2.2.left.1
      exact ⟨h.1.ne_nil, h.2.1.line (by simp [hz.ne_nil])⟩
    · exact ih h.2.2 x hx

/-- A page without a section has none with a heading either when the white space
at its end goes. -/
theorem trim_bare (hsec : sections s = []) : ∀ y ∈ sections (Str.rstrip s ++ ['\n']), y = "##\n".toList := by
  have hs : lead s = s := by
    have := sections_flatten s
    simpa [hsec] using this
  obtain ⟨w, he, hw⟩ := Str.rstrip_append s
  have hcut : cut [] (Str.rstrip s ++ w) = (Str.rstrip s ++ w, []) := by
    rw [← he]
    exact Prod.ext hs hsec
  rcases cut_trim hcut hw with h | ⟨-, z, -, -, h⟩
  · simp [sections, h]
  · simp [sections, h]

/-- The headings are as many without the white space at the end. -/
theorem trim_count {words : List Str} (hl : Lettered words) (s : Str) :
    (sections (Str.rstrip s ++ ['\n'])).countP (headed (headingRe words)) =
      (sections s).countP (headed (headingRe words)) := by
  rcases List.eq_nil_or_concat (sections s) with hsec | ⟨xs, x, hsec⟩
  · rw [hsec, List.countP_nil, List.countP_eq_zero]
    intro y hy
    rw [trim_bare hsec y hy, hashes_unheaded hl]
    simp
  · rw [List.concat_eq_append] at hsec
    have hall : Sectioned (xs ++ [x]) := hsec ▸ sections_sectioned s
    obtain ⟨z, rest, hcut, -, -, hheaded⟩ := trimmed_section hall.left.1
    have hsections : sections (Str.rstrip s ++ ['\n']) = xs ++ sections (Str.rstrip x ++ ['\n']) :=
      congrArg Prod.snd (cut_rstrip hsec)
    have hrest : sections (Str.rstrip x ++ ['\n']) = z :: rest := congrArg Prod.snd hcut
    obtain ⟨hz, hnone⟩ := hheaded words hl
    have hzero : rest.countP (headed (headingRe words)) = 0 := by
      rw [List.countP_eq_zero]
      simpa using hnone
    rw [hsections, hrest, hsec, List.countP_append, List.countP_append, List.countP_cons, List.countP_cons, hzero, hz]
    rfl

/-- What stands outside the forbidden sections stays when the white space at the
end goes. -/
theorem trim_outside (s : Str) : Kept (outside s) (outside (Str.rstrip s ++ ['\n'])) := by
  rcases List.eq_nil_or_concat (sections s) with hsec | ⟨xs, x, hsec⟩
  · have hkeep : (sections (Str.rstrip s ++ ['\n'])).filter (!isForbidden ·) = sections (Str.rstrip s ++ ['\n']) := by
      rw [List.filter_eq_self]
      intro y hy
      rw [trim_bare hsec y hy, hashes_free]
      rfl
    have hs : outside s = s := by
      conv_rhs => rw [← sections_flatten s]
      rw [outside, hsec, List.filter_nil]
    rw [hs, outside, hkeep, sections_flatten]
    exact kept_trim s
  · rw [List.concat_eq_append] at hsec
    have hall : Sectioned (xs ++ [x]) := hsec ▸ sections_sectioned s
    have hx := hall.left.1
    obtain ⟨z, rest, hcut, hflat, hrest, hheaded⟩ := trimmed_section hx
    have hlead : lead (Str.rstrip s ++ ['\n']) = lead s := (Prod.mk.inj (cut_rstrip hsec)).1
    have hsections : sections (Str.rstrip s ++ ['\n']) = xs ++ z :: rest := by
      have h := (Prod.mk.inj (cut_rstrip hsec)).2
      rwa [show sections (Str.rstrip x ++ ['\n']) = z :: rest from congrArg Prod.snd hcut] at h
    have hz : isForbidden z = isForbidden x := isForbidden_congr fun words hl => (hheaded words hl).1
    have hkeep : rest.filter (!isForbidden ·) = rest := by
      rcases hrest with rfl | rfl
      · rfl
      · simp only [List.filter_cons, List.filter_nil, hashes_free]
        rfl
    have hbefore : outside s = lead s ++ (xs.filter (!isForbidden ·)).flatten ++ if isForbidden x then [] else x := by
      rw [outside, hsec, List.filter_append, List.flatten_append, List.append_assoc]
      cases h : isForbidden x <;> simp [h]
    have hafter : outside (Str.rstrip s ++ ['\n']) = lead s ++ (xs.filter (!isForbidden ·)).flatten ++
        if isForbidden x then rest.flatten else Str.rstrip x ++ ['\n'] := by
      rw [outside, hlead, hsections, List.filter_append, List.flatten_append, List.append_assoc, List.filter_cons, hkeep,
        hz, ← hflat]
      cases isForbidden x <;> simp
    rw [hbefore, hafter]
    cases isForbidden x with
    | false =>
      have hkept := kept_trim (lead s ++ (xs.filter (!isForbidden ·)).flatten ++ x)
      rw [Str.rstrip_over (rstrip_section hx)] at hkept
      simpa using hkept
    | true =>
      have hclosed : atLineStart (lead s ++ (xs.filter (!isForbidden ·)).flatten).reverse = true := by
        refine closed_flatten ((lead_starts s).line ?_) fun y hy => hall.closed (by simp) y (List.mem_of_mem_filter hy)
        simp [hsec, hx.ne_nil]
      simpa using kept_closed hclosed rest.flatten

/-! ## The sections removed -/

theorem cut_without {xs ys : List Str} (hsec : sections s = xs ++ x :: ys) :
    cut [] (lead s ++ (xs ++ ys).flatten) = (lead s, xs ++ ys) := by
  have hall : Sectioned (xs ++ x :: ys) := hsec ▸ sections_sectioned s
  have hx : Section x := hall.mem (by simp)
  refine cut_join (cut_lead [] s) (hall.without.starts fun _ => ?_) hall.without
  have := (lead_starts s).line (by simp [hsec, hx.ne_nil])
  simpa using this

/-- One section with the heading goes. -/
theorem stripSection_count {words : List Str} (hl : Lettered words) (s : Str) :
    (sections (stripSection s (headingRe words))).countP (headed (headingRe words)) =
      (sections s).countP (headed (headingRe words)) - 1 := by
  have hr := heading_head hl
  rcases first_headed (headingRe words) (sections s) with hno | ⟨xs, x, ys, hsec, hno, hx⟩
  · have hzero : (sections s).countP (headed (headingRe words)) = 0 := by
      rw [List.countP_eq_zero]
      simpa using hno
    rw [stripSection_none hr hno, hzero]
  · have hsections : sections (lead s ++ (xs ++ ys).flatten) = xs ++ ys := congrArg Prod.snd (cut_without hsec)
    rw [stripSection_some hr hsec hno hx, trim_count hl, hsections, hsec, List.countP_append, List.countP_append,
      List.countP_cons, hx]
    simp only [if_true]
    omega

theorem headed_apart {words words' : List Str} (hl : Lettered words) (hl' : Lettered words')
    (hne : words.head?.bind List.head? ≠ words'.head?.bind List.head?) (hx : headed (headingRe words) x = true) :
    headed (headingRe words') x = false := by
  rw [Bool.eq_false_iff, ne_eq, headed_heading]
  intro h
  exact hne (((headed_heading.1 hx).initial hl).symm.trans (h.initial hl'))

theorem stripSection_apart {words words' : List Str} (hl : Lettered words) (hl' : Lettered words')
    (hne : words.head?.bind List.head? ≠ words'.head?.bind List.head?) (s : Str) :
    (sections (stripSection s (headingRe words))).countP (headed (headingRe words')) =
      (sections s).countP (headed (headingRe words')) := by
  have hr := heading_head hl
  rcases first_headed (headingRe words) (sections s) with hno | ⟨xs, x, ys, hsec, hno, hx⟩
  · rw [stripSection_none hr hno]
  · have hsections : sections (lead s ++ (xs ++ ys).flatten) = xs ++ ys := congrArg Prod.snd (cut_without hsec)
    rw [stripSection_some hr hsec hno hx, trim_count hl', hsections, hsec, List.countP_append, List.countP_append,
      List.countP_cons, headed_apart hl hl' hne hx]
    rfl

theorem stripSection_outside (hr : r ∈ forbiddenHeadings) (s : Str) :
    Kept (outside s) (outside (stripSection s r)) := by
  obtain ⟨words, hl, rfl⟩ := forbidden_head hr
  have hhead := heading_head hl
  rcases first_headed (headingRe words) (sections s) with hno | ⟨xs, x, ys, hsec, hno, hx⟩
  · rw [stripSection_none hhead hno]
    exact Kept.refl _
  · have hforbidden : isForbidden x = true := List.any_eq_true.2 ⟨_, hr, hx⟩
    obtain ⟨hlead, hsections⟩ : lead (lead s ++ (xs ++ ys).flatten) = lead s ∧ sections _ = xs ++ ys :=
      Prod.mk.inj (cut_without hsec)
    have hout : outside (lead s ++ (xs ++ ys).flatten) = outside s := by
      unfold outside
      rw [hlead, hsections, hsec, List.filter_append, List.filter_append, List.filter_cons, hforbidden]
      rfl
    rw [stripSection_some hhead hsec hno hx, ← hout]
    exact trim_outside _

theorem hasForbiddenSection_sections (body : Str) (covers : List ReaderQuestion) (ledger : Ledger) :
    (validateCoverage body covers ledger).hasForbiddenSection = false ↔
      ∀ r ∈ forbiddenHeadings, (sections body).countP (headed r) = 0 := by
  have hfound : ∀ r ∈ forbiddenHeadings, found r body = false ↔ (sections body).countP (headed r) = 0 := by
    intro r hr
    obtain ⟨words, hl, rfl⟩ := forbidden_head hr
    rw [found_sections (heading_head hl), List.any_eq_false, List.countP_eq_zero]
  have hflags : (validateCoverage body covers ledger).hasForbiddenSection = forbiddenHeadings.any (found · body) := by
    unfold validateCoverage
    split
    · next hnil =>
      rw [hnil]
      rfl
    · simp [CoverageResult.hasForbiddenSection, forbiddenHeadings, Bool.or_assoc]
  rw [hflags, List.any_eq_false]
  exact forall₂_congr fun r hr => by rw [Bool.not_eq_true, hfound r hr]

theorem stripForbidden_count (hr : r ∈ forbiddenHeadings) (s : Str) :
    (sections (stripForbiddenSections s)).countP (headed r) = (sections s).countP (headed r) - 1 := by
  have hopen := openQuestions_lettered
  have htest := testStrategy_lettered
  have hcomparison := comparison_lettered
  unfold stripForbiddenSections stripComparisonSection stripTestStrategySection stripOpenQuestionsSection
  simp only [forbiddenHeadings, List.mem_cons, List.not_mem_nil, or_false] at hr
  unfold openQuestionsHeadingRe testStrategyHeadingRe comparisonHeadingRe at *
  rcases hr with rfl | rfl | rfl
  · rw [stripSection_apart hcomparison hopen (by decide), stripSection_apart htest hopen (by decide),
      stripSection_count hopen]
  · rw [stripSection_apart hcomparison htest (by decide), stripSection_count htest,
      stripSection_apart hopen htest (by decide)]
  · rw [stripSection_count hcomparison, stripSection_apart htest hcomparison (by decide),
      stripSection_apart hopen hcomparison (by decide)]

theorem outside_free (h : ∀ r ∈ forbiddenHeadings, (sections s).countP (headed r) = 0) : outside s = s := by
  have hkeep : (sections s).filter (!isForbidden ·) = sections s := by
    rw [List.filter_eq_self]
    intro x hx
    rw [Bool.not_eq_true', isForbidden, List.any_eq_false]
    intro r hr
    exact List.countP_eq_zero.1 (h r hr) x hx
  rw [outside, hkeep, sections_flatten]

/-- **Which forbidden sections go.** No forbidden section is left, and what
stands outside them is, if and only if no forbidden heading comes twice. -/
theorem forbidden_removed (markdown : Str) (covers : List ReaderQuestion) (ledger : Ledger) :
    ((validateCoverage (stripForbiddenSections markdown) covers ledger).hasForbiddenSection = false ∧
      Kept (outside markdown) (stripForbiddenSections markdown)) ↔
    ∀ r ∈ forbiddenHeadings, (sections markdown).countP (headed r) ≤ 1 := by
  have hgone : (validateCoverage (stripForbiddenSections markdown) covers ledger).hasForbiddenSection = false ↔
      ∀ r ∈ forbiddenHeadings, (sections markdown).countP (headed r) ≤ 1 := by
    rw [hasForbiddenSection_sections]
    refine forall₂_congr fun r hr => ?_
    rw [stripForbidden_count hr]
    omega
  rw [hgone, and_iff_left_iff_imp]
  intro honce
  have hfree : outside (stripForbiddenSections markdown) = stripForbiddenSections markdown := by
    refine outside_free fun r hr => ?_
    have := honce r hr
    rw [stripForbidden_count hr]
    omega
  have hopen := stripSection_outside (r := openQuestionsHeadingRe) (by simp [forbiddenHeadings]) markdown
  have htest := stripSection_outside (r := testStrategyHeadingRe) (by simp [forbiddenHeadings])
    (stripOpenQuestionsSection markdown)
  have hcomparison := stripSection_outside (r := comparisonHeadingRe) (by simp [forbiddenHeadings])
    (stripTestStrategySection (stripOpenQuestionsSection markdown))
  have hall := hopen.trans (htest.trans hcomparison)
  rw [← hfree]
  exact hall

/-- Two sections of open questions, of which the second stays. -/
theorem repeated_left :
    let markdown := "## Open questions\na\n## Open questions\nb".toList
    stripForbiddenSections markdown = "## Open questions\nb\n".toList ∧
      (validateCoverage (stripForbiddenSections markdown) [] Ledger.empty).hasForbiddenSection = true := by
  decide

end

end Cograph.Wiki
