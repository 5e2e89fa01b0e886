import Cograph.MarkerPattern

/-!
# The coverage gate, section by section

The markers of a page, what they are answered by and the markers put in are all
read off the sections: a marker lies within one of them, its evidence ends with
it, and the markers put in come right after a heading's line.
-/

namespace Cograph.Wiki

open Regex

/-! ## The headings of a page -/

/-- The matches of `h2Re`, the first section beginning at `i`. -/
def headings : Nat → List Str → List (Nat × Match)
  | _, [] => []
  | i, x :: xs => (i, ⟨h2Text x, []⟩) :: headings (i + x.length) xs

section
variable {b s t v w x y : Str} {xs ys : List Str}

theorem h2Text_append (hx : opens x = true) (hy : y = [] ∨ y.head? = some '#') : h2Text (x ++ y) = h2Text x := by
  obtain ⟨c, t, rfl, hc⟩ := opens_cons hx
  have htake : (c :: t ++ y).takeWhile Str.isSpace = (c :: t).takeWhile Str.isSpace := by
    rw [List.takeWhile_append]
    split
    · next hlen =>
      have hall : (c :: t).takeWhile Str.isSpace = c :: t := (List.takeWhile_prefix _).eq_of_length hlen
      rcases y with - | ⟨d, y⟩
      · rw [List.takeWhile_nil, List.append_nil, hall]
      · obtain rfl : d = '#' := by simpa using hy
        rw [List.takeWhile_cons_of_neg (by decide), List.append_nil, hall]
    · rfl
  unfold h2Text
  exact congrArg (fun u => '#' :: '#' :: u) htake

theorem starts_head (h : Starts b y) : y = [] ∨ y.head? = some '#' := by
  refine h.imp_right fun h => ?_
  obtain ⟨c, t, rfl, -⟩ := opens_cons h.2
  rfl

theorem h2_positions (hxs : Sectioned xs) (hb : xs ≠ [] → atLineStart b = true) (i : Nat) :
    positions i (scan h2Re 0 b xs.flatten) = headings i xs := by
  induction xs generalizing b i with
  | nil => rfl
  | cons x xs ih =>
    obtain ⟨hx, hstarts, hxs⟩ := hxs
    have hafter := hstarts.after hx.ne_nil b
    have hline : xs ≠ [] → atLineStart (x.reverse ++ b) = true := by
      intro hne
      obtain ⟨z, zs, rfl⟩ := List.exists_cons_of_ne_nil hne
      exact hafter.line (by simp [hxs.1.ne_nil])
    have hmatch : matchAt h2Re b (x ++ xs.flatten) = some ⟨h2Text x, []⟩ := by
      rw [matchAt_h2, hb (by simp), opens_append hx.ne_nil (hstarts.imp_right And.left), hx.opens,
        h2Text_append hx.opens (starts_head hstarts)]
      rfl
    rcases h2_heads.scan_section hx hafter with ⟨hm, -⟩ | ⟨m, t, hm, ht, hscan⟩
    · rw [hm] at hmatch
      cases hmatch
    · obtain rfl := Option.some.inj (hm.symm.trans hmatch)
      have hlen : i + (h2Text x).length + t.length = i + x.length := by
        have := congrArg List.length ht
        rw [List.length_append] at this
        dsimp only at this
        omega
      rw [List.flatten_cons, hscan, positions, headings, positions_plains, hlen, ih hxs hline]

theorem finditer_h2 (s : Str) : finditer h2Re s = headings (lead s).length (sections s) := by
  have hscan := h2_heads.scan_quiet (cut_lead [] s) (cut_starts [] s)
  rw [cut_flatten] at hscan
  have hlead : scan h2Re 0 [] s =
      (lead s).map Token.plain ++ scan h2Re 0 (lead s).reverse (sections s).flatten := by
    rw [List.append_nil] at hscan
    exact hscan
  have hline : sections s ≠ [] → atLineStart (lead s).reverse = true := by
    intro hne
    obtain ⟨z, zs, hz⟩ := List.exists_cons_of_ne_nil hne
    have hsec := (sections_sectioned s).mem (x := z) (by simp [hz])
    exact (lead_starts s).line (by simp [hz, hsec.ne_nil])
  rw [finditer, hlead, positions_plains, Nat.zero_add, h2_positions (sections_sectioned s) hline]

/-- A section ends where the next begins. -/
theorem sectionEnd_headings {pre : List Nat} {off p end_ : Nat} (hpre : ∀ a ∈ pre, a ≤ p) (hp : p < off) :
    sectionEndFor p (pre ++ (headings off xs).map (·.1)) end_ = if xs = [] then end_ else off := by
  have hskip : pre.find? (p < ·) = none := by
    rw [List.find?_eq_none]
    intro a ha
    have := hpre a ha
    simpa using this
  unfold sectionEndFor
  rw [List.find?_append, hskip, Option.none_or]
  cases xs with
  | nil => rfl
  | cons x xs => simp [headings, hp]

theorem headings_append (i : Nat) (xs ys : List Str) :
    headings i (xs ++ ys) = headings i xs ++ headings (i + xs.flatten.length) ys := by
  induction xs generalizing i with
  | nil => rfl
  | cons x xs ih => simp [headings, ih, Nat.add_assoc]

theorem headings_lt {i : Nat} (hne : ∀ x ∈ xs, x ≠ []) {z : Nat × Match} (hz : z ∈ headings i xs) :
    z.1 < i + xs.flatten.length := by
  induction xs generalizing i with
  | nil => cases hz
  | cons x xs ih =>
    have hpos := List.length_pos_iff.2 (hne x (by simp))
    rw [List.flatten_cons, List.length_append]
    rcases List.mem_cons.1 hz with rfl | hz
    · dsimp only
      omega
    · have := ih (fun x hx => hne x (by simp [hx])) hz
      omega

/-- The stretch a marker is answered in goes to the end of its section. -/
theorem slice_section (hsec : sections s = xs ++ x :: ys) {k : Nat} (hk : k < x.length) :
    slice s ((lead s ++ xs.flatten).length + k)
      (sectionEndFor ((lead s ++ xs.flatten).length + k) (sectionBounds s) s.length) = x.drop k := by
  have hall : Sectioned (xs ++ x :: ys) := hsec ▸ sections_sectioned s
  have hs : s = lead s ++ xs.flatten ++ x ++ ys.flatten := by
    conv_lhs => rw [← sections_flatten s, hsec]
    simp
  have hbounds : sectionBounds s = ((headings (lead s).length xs).map (·.1) ++ [(lead s ++ xs.flatten).length]) ++
      (headings ((lead s ++ xs.flatten).length + x.length) ys).map (·.1) := by
    rw [sectionBounds, finditer_h2, hsec, headings_append, headings, List.length_append]
    simp
  have hpre : ∀ a ∈ (headings (lead s).length xs).map (·.1) ++ [(lead s ++ xs.flatten).length],
      a ≤ (lead s ++ xs.flatten).length + k := by
    intro a ha
    rcases List.mem_append.1 ha with ha | ha
    · obtain ⟨z, hz, rfl⟩ := List.mem_map.1 ha
      have := headings_lt (fun x hx => (hall.mem (by simp [hx])).ne_nil) hz
      rw [List.length_append]
      omega
    · rw [List.mem_singleton.1 ha]
      omega
  have hend : sectionEndFor ((lead s ++ xs.flatten).length + k) (sectionBounds s) s.length =
      (lead s ++ xs.flatten ++ x).length := by
    rw [hbounds, sectionEnd_headings hpre (by omega)]
    split
    · next hys =>
      conv_lhs => rw [hs, hys]
      simp
    · simp [Nat.add_assoc]
  have htake : ∀ u w : Str, s = u ++ w → s.take u.length = u := by
    rintro u w rfl
    exact List.take_left
  rw [hend, slice, htake _ _ hs, List.drop_append]
  simp

/-- So does the stretch of a marker before the first heading. -/
theorem slice_lead {k : Nat} (hk : k < (lead s).length) :
    slice s k (sectionEndFor k (sectionBounds s) s.length) = (lead s).drop k := by
  have hend : sectionEndFor k (sectionBounds s) s.length = (lead s).length := by
    have h : sectionEndFor k ([] ++ (headings (lead s).length (sections s)).map (·.1)) s.length = _ :=
      sectionEnd_headings (by simp) hk
    rw [List.nil_append] at h
    rw [sectionBounds, finditer_h2, h]
    split
    · next hnil =>
      conv_lhs => rw [← sections_flatten s, hnil]
      simp
    · rfl
  have htake : ∀ u w : Str, s = u ++ w → s.take u.length = u := by
    rintro u w rfl
    exact List.take_left
  rw [hend, slice, htake _ _ (sections_flatten s).symm]

/-! ## The markers of a section -/

/-- The marker of a question stands in a part of the page, and what follows it
there is evidence. -/
def AnswersIn (ledger : Ledger) (q x : Str) : Prop :=
  ∃ v text w slug, MarkerText slug text ∧ x = v ++ (text ++ w) ∧ Str.lower (Str.strip slug) = q ∧
    sectionHasVerifiedEvidence (text ++ w) ledger = true

def MarkedIn (q x : Str) : Prop :=
  ∃ v text w slug, MarkerText slug text ∧ x = v ++ (text ++ w) ∧ Str.lower (Str.strip slug) = q

/-- Text without `#` lies within one section. -/
theorem locate {p : Str} (hp : ∀ x ∈ xs, x.head? = some '#') (hno : '#' ∉ t)
    (h : p ++ xs.flatten = v ++ (t ++ w)) : (∃ w', p = v ++ (t ++ w')) ∨
      ∃ as x bs v' w', xs = as ++ x :: bs ∧ x = v' ++ (t ++ w') ∧ v = p ++ as.flatten ++ v' := by
  induction xs generalizing p v with
  | nil =>
    rw [List.flatten_nil, List.append_nil] at h
    exact .inl ⟨w, h⟩
  | cons x xs ih =>
    rcases List.append_eq_append_iff.1 h with ⟨a, ha, hb⟩ | ⟨a, ha, hb⟩
    · right
      rw [List.flatten_cons] at hb
      rcases ih (fun z hz => hp z (by simp [hz])) hb with ⟨w', hx⟩ | ⟨as, y, bs, v', w', rfl, hy, rfl⟩
      · exact ⟨[], x, xs, a, w', rfl, hx, by rw [ha]; simp⟩
      · exact ⟨x :: as, y, bs, v', w', rfl, hy, by rw [ha]; simp⟩
    · rcases List.append_eq_append_iff.1 hb with ⟨e, he, hf⟩ | ⟨e, he, hf⟩
      · exact .inl ⟨e, by rw [ha, he]⟩
      · cases e with
        | nil => exact .inl ⟨[], by rw [ha]; simpa using he.symm⟩
        | cons c e =>
          have hc : c = '#' := by
            obtain ⟨y, hy⟩ : ∃ y, x = '#' :: y := by
              have := hp x (by simp)
              cases x with
              | nil => cases this
              | cons d x => exact ⟨x, by rw [Option.some.inj this]⟩
            rw [List.flatten_cons, hy] at hf
            exact (List.cons.inj hf).1.symm
          exact absurd (by rw [he, hc]; simp) hno

theorem Section.head (h : Section x) : x.head? = some '#' := by
  obtain ⟨c, t, rfl, -⟩ := opens_cons h.opens
  rfl

def parts (s : Str) : List Str := lead s :: sections s

theorem MarkerText.hash {slug text : Str} (h : MarkerText slug text) : '#' ∉ text :=
  h.not_mem rfl (by decide)

theorem MarkerText.ne_nil {slug text : Str} (h : MarkerText slug text) : text ≠ [] := by
  obtain ⟨u, v, rfl, -⟩ := h.shape
  simp

theorem mem_markers {body q : Str} : q ∈ (findMarkers body).map (·.2) ↔ ∃ x ∈ parts body, MarkedIn q x := by
  constructor
  · intro h
    obtain ⟨⟨i, q⟩, hm, rfl⟩ := List.mem_map.1 h
    obtain ⟨v, text, w, slug, ht, hs, -, rfl⟩ := mem_findMarkers.1 hm
    have hflat := (sections_flatten body).trans hs
    rcases locate (fun x hx => ((sections_sectioned body).mem hx).head) ht.hash hflat with
      ⟨w', hl⟩ | ⟨xs, x, ys, v', w', hsec, hx, -⟩
    · exact ⟨lead body, by simp [parts], v, text, w', slug, ht, hl, rfl⟩
    · exact ⟨x, by simp [parts, hsec], v', text, w', slug, ht, hx, rfl⟩
  · intro ⟨x, hx, v, text, w, slug, ht, he, hq⟩
    obtain ⟨before, after, hbody⟩ : ∃ before after, body = before ++ (x ++ after) := by
      rcases List.mem_cons.1 hx with rfl | hx
      · exact ⟨[], (sections body).flatten, (sections_flatten body).symm⟩
      · obtain ⟨xs, ys, hsec⟩ := List.append_of_mem hx
        refine ⟨lead body ++ xs.flatten, ys.flatten, ?_⟩
        conv_lhs => rw [← sections_flatten body, hsec]
        simp
    refine List.mem_map.2 ⟨((before ++ v).length, q), mem_findMarkers.2 ⟨before ++ v, text, w ++ after, slug, ht, ?_, rfl,
      hq.symm⟩, rfl⟩
    rw [hbody, he]
    simp

theorem mem_answered {body q : Str} {covers : List ReaderQuestion} {ledger : Ledger} :
    q ∈ (validateCoverage body covers ledger).answeredQuestions ↔
      q ∈ normalizeQuestionSet covers ∧ ∃ x ∈ parts body, AnswersIn ledger q x := by
  have hgrounded : (∃ i, (i, q) ∈ findMarkers body ∧ sectionHasVerifiedEvidence
      (slice body i (sectionEndFor i (sectionBounds body) body.length)) ledger = true) ↔
        ∃ x ∈ parts body, AnswersIn ledger q x := by
    constructor
    · intro ⟨i, hm, hev⟩
      obtain ⟨v, text, w, slug, ht, hs, rfl, rfl⟩ := mem_findMarkers.1 hm
      have hpos := List.length_pos_iff.2 ht.ne_nil
      have hflat := (sections_flatten body).trans hs
      rcases locate (fun x hx => ((sections_sectioned body).mem hx).head) ht.hash hflat with
        ⟨w', hl⟩ | ⟨xs, x, ys, v', w', hsec, hx, rfl⟩
      · rw [slice_lead (by rw [hl]; simp; omega), hl, List.drop_left] at hev
        exact ⟨lead body, by simp [parts], v, text, w', slug, ht, hl, rfl, hev⟩
      · rw [List.length_append, slice_section hsec (by rw [hx]; simp; omega), hx, List.drop_left] at hev
        exact ⟨x, by simp [parts, hsec], v', text, w', slug, ht, hx, rfl, hev⟩
    · intro ⟨x, hx, v, text, w, slug, ht, he, hq, hev⟩
      have hpos := List.length_pos_iff.2 ht.ne_nil
      rcases List.mem_cons.1 hx with rfl | hx
      · refine ⟨v.length, mem_findMarkers.2 ⟨v, text, w ++ (sections body).flatten, slug, ht, ?_, rfl, hq.symm⟩, ?_⟩
        · conv_lhs => rw [← sections_flatten body, he]
          simp
        · rw [slice_lead (by rw [he]; simp; omega), he, List.drop_left]
          exact hev
      · obtain ⟨xs, ys, hsec⟩ := List.append_of_mem hx
        refine ⟨(lead body ++ xs.flatten ++ v).length, mem_findMarkers.2 ⟨lead body ++ xs.flatten ++ v, text,
          w ++ ys.flatten, slug, ht, ?_, rfl, hq.symm⟩, ?_⟩
        · conv_lhs => rw [← sections_flatten body, hsec]
          simp [he]
        · rw [List.length_append, slice_section hsec (by rw [he]; simp; omega), he, List.drop_left]
          exact hev
  rw [← hgrounded]
  unfold validateCoverage
  split
  · next hnil => simp [hnil, findMarkers, finditer, scan, positions]
  · simp [List.mem_filter, List.mem_map]

end

/-! ## What is put in -/

/-- The end of a heading's line. -/
def titleEnd (x : Str) : Nat := Str.lineEnd x (h2Text x).length

def headingLine (x : Str) : Str := x.take (titleEnd x + 1)

/-- The section without its heading's line. -/
def below (x : Str) : Str := x.drop (titleEnd x + 1)

def title (x : Str) : Str := Str.lower (Str.strip (slice x (h2Text x).length (titleEnd x)))

def withMarkers (x : Str) (slugs : List Str) : Str := headingLine x ++ (markerText slugs ++ below x)

/-- The loop of `ensureInferredAnswerMarkers` over the sections. -/
def marked (ledger : Ledger) : List Str → List Str → List Str
  | [], _ => []
  | x :: xs, missing =>
    let matched := missing.filter (headingAnswers (title x) ·)
    if ¬ sectionHasVerifiedEvidence x ledger ∨ matched = [] then x :: marked ledger xs missing
    else withMarkers x matched :: marked ledger xs (missing.filter (· ∉ matched))

section
variable {s x y l w : Str} {xs ys : List Str} {ledger : Ledger} {missing : List Str}

theorem marked_nil (ledger : Ledger) (xs : List Str) : marked ledger xs [] = xs := by
  induction xs with
  | nil => rfl
  | cons x xs ih => simp [marked, ih]

/-- A heading without a title is no evidence. -/
theorem evidence_bare (x : Str) : sectionHasVerifiedEvidence (h2Text x) ledger = false := by
  have hchars : ∀ c ∈ h2Text x, c = '#' ∨ Str.isSpace c = true := by
    intro c hc
    simp only [h2Text, List.mem_cons] at hc
    rcases hc with rfl | rfl | hc
    · exact .inl rfl
    · exact .inl rfl
    · exact .inr (List.all_eq_true.1 List.all_takeWhile c hc)
  have hcites : cites (h2Text x) = [] := cites_of_not_mem (.inl rfl) fun h => by
    rcases hchars _ h with h | h <;> cases h
  have hsource : hits sourceLineRe (h2Text x) = [] := by
    rw [List.eq_nil_iff_forall_not_mem]
    intro m hm
    rw [← finditer_map, List.mem_map] at hm
    obtain ⟨z, hz, rfl⟩ := hm
    obtain ⟨v, w, hs, -, hm⟩ := finditer_split hz
    obtain ⟨-, u, t, htext, -⟩ := source_form hm
    have hmem : 'S' ∈ h2Text x := by
      rw [hs, htext]
      simp
    rcases hchars _ hmem with h | h <;> cases h
  unfold cites at hcites
  unfold sectionHasVerifiedEvidence
  rw [hcites, hsource]
  rfl

/-- The line of a heading with evidence in its section ends within the section. -/
theorem title_line (hx : Section x) (hy : Starts x.reverse y) (hev : sectionHasVerifiedEvidence x ledger = true) :
    Str.lineEnd (x ++ y) (h2Text x).length = titleEnd x ∧ titleEnd x ≤ x.length ∧ (y ≠ [] → titleEnd x < x.length) := by
  obtain ⟨t, ht, -⟩ := opens_h2 hx.opens
  have hne : t ≠ [] := by
    rintro rfl
    rw [List.append_nil] at ht
    rw [ht, evidence_bare] at hev
    cases hev
  have hend : ∀ z, Str.lineEnd (x ++ z) (h2Text x).length = (h2Text x).length + ((t ++ z).takeWhile (· ≠ '\n')).length := by
    intro z
    have hdrop : ∀ u v : Str, x = u ++ v → (x ++ z).drop u.length = v ++ z := by
      rintro u v rfl
      rw [List.append_assoc, List.drop_left]
    rw [Str.lineEnd, hdrop _ _ ht]
  have htitle : titleEnd x = (h2Text x).length + (t.takeWhile (· ≠ '\n')).length := by
    have h := hend []
    rwa [List.append_nil, List.append_nil] at h
  have hlen : x.length = (h2Text x).length + t.length := by
    conv_lhs => rw [ht, List.length_append]
  have hle := (List.takeWhile_prefix (p := (· ≠ '\n')) (l := t)).length_le
  rcases hy with rfl | ⟨hline, -⟩
  · exact ⟨by rw [List.append_nil]; rfl, by omega, fun h => absurd rfl h⟩
  · -- the section ends a line, and not that of an empty title
    have hfeed : '\n' ∈ t := by
      obtain ⟨init, c, rfl⟩ := List.eq_nil_or_concat t |>.resolve_left hne
      rw [ht] at hline
      have hc : c = '\n' := by simpa [atLineStart] using hline
      simp [hc]
    have hshort : t.takeWhile (· ≠ '\n') ≠ t := fun hall => by
      have := List.all_eq_true.1 List.all_takeWhile '\n' (hall.symm ▸ hfeed)
      simp at this
    have hlt : (t.takeWhile (· ≠ '\n')).length < t.length :=
      lt_of_le_of_ne hle fun h => hshort ((List.takeWhile_prefix _).eq_of_length h)
    refine ⟨?_, by omega, fun _ => by omega⟩
    rw [hend, htitle, List.takeWhile_append, if_neg (by omega)]

theorem lineEnd_append (u v : Str) (i : Nat) : Str.lineEnd (u ++ v) (u.length + i) = u.length + Str.lineEnd v i := by
  unfold Str.lineEnd
  rw [List.drop_append, List.drop_of_length_le (by omega), List.nil_append, Nat.add_sub_cancel_left, Nat.add_assoc]

theorem slice_within (u v : Str) {i j : Nat} (hj : j ≤ x.length) :
    slice (u ++ (x ++ v)) (u.length + i) (u.length + j) = slice x i j := by
  unfold slice
  rw [List.take_append, List.take_of_length_le (by omega), Nat.add_sub_cancel_left, List.take_append_of_le_length hj,
    List.drop_append, List.drop_of_length_le (by omega), List.nil_append, Nat.add_sub_cancel_left]

theorem insertAt_within (u v w : Str) {i : Nat} (h : i ≤ x.length ∨ v = []) :
    insertAt (u ++ (x ++ v)) (u.length + i, w) = u ++ (x.take i ++ (w ++ x.drop i) ++ v) := by
  have htake : (x ++ v).take i = x.take i ∧ (x ++ v).drop i = x.drop i ++ v := by
    rcases h with h | rfl
    · exact ⟨List.take_append_of_le_length h, List.drop_append_of_le_length h⟩
    · simp
  unfold insertAt
  dsimp only
  rw [List.take_append, List.take_of_length_le (by omega), Nat.add_sub_cancel_left, htake.1, List.drop_append,
    List.drop_of_length_le (by omega), List.nil_append, Nat.add_sub_cancel_left, htake.2]
  simp only [List.append_assoc]

theorem insertions_nil (s : Str) (ledger : Ledger) (hs : List (Nat × Match)) : insertions s ledger hs [] = [] := by
  induction hs with
  | nil => rfl
  | cons h hs ih => simp [insertions, ih]

/-- The loop over the headings, from the sections `as` on, puts in what `marked`
says, each time after what it has put in before. -/
theorem insertions_marked {as : List Str} (hsec : sections s = as ++ xs) (missing : List Str) :
    (insertions s ledger (headings (lead s ++ as.flatten).length xs) missing).foldr (fun z out => insertAt out z) s =
      lead s ++ as.flatten ++ (marked ledger xs missing).flatten ∧
    (insertions s ledger (headings (lead s ++ as.flatten).length xs) missing).Pairwise (·.1 < ·.1) ∧
    ∀ z ∈ insertions s ledger (headings (lead s ++ as.flatten).length xs) missing, (lead s ++ as.flatten).length < z.1 := by
  induction xs generalizing as missing with
  | nil =>
    rw [List.append_nil] at hsec
    refine ⟨?_, List.Pairwise.nil, by simp [headings, insertions]⟩
    simp only [headings, insertions, List.foldr_nil, marked, List.flatten_nil, List.append_nil]
    rw [← hsec, sections_flatten]
  | cons x xs ih =>
    have hall : Sectioned (as ++ x :: xs) := hsec ▸ sections_sectioned s
    obtain ⟨hx, hstarts, -⟩ := hall.left
    have hpos := List.length_pos_iff.2 hx.ne_nil
    have hs : s = lead s ++ as.flatten ++ x ++ xs.flatten := by
      conv_lhs => rw [← sections_flatten s, hsec]
      simp
    have hnext : (lead s ++ as.flatten).length + x.length = (lead s ++ (as ++ [x]).flatten).length := by
      simp [Nat.add_assoc]
    have htext : slice s (lead s ++ as.flatten).length
        (sectionEndFor (lead s ++ as.flatten).length (sectionBounds s) s.length) = x := by
      have h := slice_section hsec hpos
      rwa [Nat.add_zero, List.drop_zero] at h
    have hrest := @ih (as ++ [x]) (by simp [hsec])
    rw [← hnext] at hrest
    have hflat : ∀ u : Str, lead s ++ (as ++ [x]).flatten ++ u = lead s ++ as.flatten ++ (x ++ u) := by
      intro u
      simp
    rw [headings, insertions, marked]
    dsimp only
    rw [htext]
    by_cases hev : sectionHasVerifiedEvidence x ledger = true
    · obtain ⟨hend, hle, hlt⟩ := title_line hx hstarts hev
      have hline : Str.lineEnd s ((lead s ++ as.flatten).length + (h2Text x).length) =
          (lead s ++ as.flatten).length + titleEnd x := by
        rw [← hend, ← lineEnd_append, ← List.append_assoc, ← hs]
      have htitle : Str.lower (Str.strip (slice s ((lead s ++ as.flatten).length + (h2Text x).length)
          ((lead s ++ as.flatten).length + titleEnd x))) = title x := by
        have h := slice_within (x := x) (lead s ++ as.flatten) xs.flatten (i := (h2Text x).length) hle
        rw [← List.append_assoc, ← hs] at h
        rw [h, title]
      rw [hline, htitle]
      by_cases hmatched : missing.filter (headingAnswers (title x) ·) = []
      · obtain ⟨hfold, hsorted, hbound⟩ := hrest missing
        rw [if_pos (.inr hmatched), if_pos (.inr hmatched)]
        refine ⟨by rw [hfold, hflat, List.flatten_cons], hsorted, fun z hz => ?_⟩
        have := hbound z hz
        omega
      · have hgo : ¬(¬sectionHasVerifiedEvidence x ledger = true ∨ missing.filter (headingAnswers (title x) ·) = []) := by
          simp [hev, hmatched]
        rw [if_neg hgo, if_neg hgo]
        generalize missing.filter (headingAnswers (title x) ·) = matched
        generalize missing.filter (· ∉ matched) = left
        obtain ⟨hfold, hsorted, hbound⟩ := hrest left
        have hbefore : ∀ z ∈ insertions s ledger (headings ((lead s ++ as.flatten).length + x.length) xs) left,
            (lead s ++ as.flatten).length + titleEnd x + 1 < z.1 := by
          intro z hz
          have hlate := hbound z hz
          cases xs with
          | nil => cases hz
          | cons y xs =>
            have := hlt (by simp [(hall.mem (x := y) (by simp)).ne_nil])
            omega
        have hfits : titleEnd x + 1 ≤ x.length ∨ (marked ledger xs left).flatten = [] := by
          cases xs with
          | nil => exact .inr rfl
          | cons y xs =>
            left
            exact hlt (by simp [(hall.mem (x := y) (by simp)).ne_nil])
        have hskip : (if left = [] then [] else insertions s ledger
            (headings ((lead s ++ as.flatten).length + x.length) xs) left) =
              insertions s ledger (headings ((lead s ++ as.flatten).length + x.length) xs) left := by
          split
          · next hnil => rw [hnil, insertions_nil]
          · rfl
        rw [hskip]
        refine ⟨?_, List.Pairwise.cons hbefore hsorted, ?_⟩
        · rw [List.foldr_cons, hfold, hflat, Nat.add_assoc _ (titleEnd x), insertAt_within _ _ _ hfits, List.flatten_cons]
          rfl
        · intro z hz
          rcases List.mem_cons.1 hz with rfl | hz
          · dsimp only
            omega
          · have := hbefore z hz
            omega
    · obtain ⟨hfold, hsorted, hbound⟩ := hrest missing
      rw [if_pos (.inl hev), if_pos (.inl hev)]
      refine ⟨by rw [hfold, hflat, List.flatten_cons], hsorted, fun z hz => ?_⟩
      have := hbound z hz
      omega

theorem orderedInsert_last {z : Nat × Str} {zs : List (Nat × Str)} (h : ∀ y ∈ zs, z.1 < y.1) :
    zs.orderedInsert (later · ·) z = zs ++ [z] := by
  induction zs with
  | nil => rfl
  | cons y zs ih =>
    have hy := h y (by simp)
    have hno : ¬later z y = true := by
      simp only [later, decide_eq_true_eq]
      omega
    rw [List.orderedInsert_cons, if_neg hno, ih fun y hy => h y (by simp [hy])]
    rfl

theorem sort_increasing {zs : List (Nat × Str)} (h : zs.Pairwise (·.1 < ·.1)) :
    zs.insertionSort (later · ·) = zs.reverse := by
  induction h with
  | nil => rfl
  | @cons z zs hz _ ih =>
    rw [List.insertionSort_cons, ih, orderedInsert_last (by simpa using hz), List.reverse_cons]

/-- The questions without a marker. -/
def unmarked (body : Str) (covers : List ReaderQuestion) : List Str :=
  (normalizeQuestionSet covers).filter (· ∉ (findMarkers body).map (·.2))

/-- The page with the markers put in. -/
theorem ensure_marked (body : Str) (covers : List ReaderQuestion) (ledger : Ledger) :
    ensureInferredAnswerMarkers body covers ledger =
      lead body ++ (marked ledger (sections body) (unmarked body covers)).flatten := by
  have hsame : marked ledger (sections body) [] = sections body := marked_nil _ _
  unfold ensureInferredAnswerMarkers
  dsimp only
  split
  · next h =>
    rcases h with rfl | h
    · rfl
    · rw [unmarked, h, hsame, sections_flatten]
  · obtain ⟨hfold, hsorted, -⟩ := @insertions_marked body (sections body) ledger [] (List.nil_append _).symm
      (unmarked body covers)
    simp only [List.flatten_nil, List.append_nil] at hfold hsorted
    rw [← finditer_h2] at hfold hsorted
    rw [← unmarked, sort_increasing hsorted, List.foldl_reverse]
    exact hfold

end

end Cograph.Wiki
