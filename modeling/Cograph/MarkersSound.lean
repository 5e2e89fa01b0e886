import Cograph.Insertions

/-!
# What inserted answer markers do to the answers

`ensureInferredAnswerMarkers` looks for evidence in a whole section, heading
included, and puts the marker below the heading's line, from where the
validation reads. A question it marks is answered if and only if there is
evidence below the line.
-/

namespace Cograph.Wiki

open Regex

/-! ## The sections stay sections -/

section
variable {b u v w x y : Str} {xs ys : List Str} {ledger : Ledger} {missing slugs : List Str}

theorem opens_insert (hw : '#' ∉ w) (hhead : ∀ c, w.head? = some c → Str.isSpace c = false) (hne : w ≠ [])
    (h : opens (u ++ (w ++ v)) = true) : opens (u ++ v) = true := by
  obtain ⟨d, w, rfl⟩ := List.exists_cons_of_ne_nil hne
  obtain ⟨c, t, he, hc⟩ := opens_cons h
  match u with
  | [] =>
    rw [List.nil_append, List.cons_append] at he
    exact absurd (by rw [(List.cons.inj he).1]; simp) hw
  | [e] =>
    have hd : d = '#' := (List.cons.inj (List.cons.inj he).2).1
    exact absurd (by rw [hd]; simp) hw
  | [e, f] =>
    have hd : d = c := (List.cons.inj (List.cons.inj (List.cons.inj he).2).2).1
    rw [hd] at hhead
    rw [hhead c rfl] at hc
    cases hc
  | e :: f :: g :: u =>
    obtain ⟨rfl, rfl, rfl, -⟩ : e = '#' ∧ f = '#' ∧ g = c ∧ _ := by simpa using he
    exact hc

theorem cut_quiet (h : '#' ∉ w) (hv : v = [] ∨ atLineStart w.reverse = true ∧ cut [] v = (v, [])) (hne : w ≠ []) (b : Str) :
    cut b (w ++ v) = (w ++ v, []) := by
  induction w generalizing b with
  | nil => exact absurd rfl hne
  | cons c w ih =>
    have hno : ¬(atLineStart b && opens (c :: (w ++ v))) = true := by
      intro ho
      obtain ⟨d, t, he, -⟩ := opens_cons (Bool.and_eq_true_iff.1 ho).2
      exact h (by rw [(List.cons.inj he).1]; simp)
    have hrest : cut (c :: b) (w ++ v) = (w ++ v, []) := by
      cases w with
      | nil =>
        rcases hv with rfl | ⟨hline, hcut⟩
        · rfl
        · rw [List.nil_append, ← hcut]
          exact cut_congr hline v
      | cons d w =>
        refine ih (fun hm => h (by simp [hm])) (hv.imp_right fun hv => ⟨?_, hv.2⟩) (by simp) (c :: b)
        have := hv.1
        rwa [List.reverse_cons, atLineStart_append (by simp)] at this
    rw [List.cons_append, cut, if_neg hno, hrest]

/-- Lines put in where a line has ended begin no section. -/
theorem cut_insert (hw : '#' ∉ w) (hhead : ∀ c, w.head? = some c → Str.isSpace c = false) (hne : w ≠ [])
    (hv : v = [] ∨ atLineStart (u.reverse ++ b) = true ∧ atLineStart w.reverse = true)
    (h : cut b (u ++ v) = (u ++ v, [])) : cut b (u ++ (w ++ v)) = (u ++ (w ++ v), []) := by
  induction u generalizing b with
  | nil =>
    refine cut_quiet hw (hv.imp_right fun hv => ⟨hv.2, ?_⟩) hne b
    have hline : atLineStart [] = atLineStart b := hv.1.symm
    rw [cut_congr hline]
    exact h
  | cons c u ih =>
    rw [List.cons_append, cut] at h
    split at h
    · cases h
    · next hno =>
      obtain ⟨hlead, hrest⟩ := Prod.mk.inj h
      have hins := ih (b := c :: b) (by simpa using hv) (Prod.ext (List.cons.inj hlead).2 hrest)
      have hkeep : ¬(atLineStart b && opens (c :: (u ++ (w ++ v)))) = true := by
        intro ho
        obtain ⟨hb, ho⟩ := Bool.and_eq_true_iff.1 ho
        exact hno (Bool.and_eq_true_iff.2 ⟨hb, opens_insert (u := c :: u) hw hhead hne ho⟩)
      rw [List.cons_append, cut, if_neg hkeep, hins]

theorem markers_line (h : slugs ≠ []) : atLineStart (markerText slugs).reverse = true := by
  rcases List.eq_nil_or_concat slugs with rfl | ⟨init, slug, rfl⟩
  · exact absurd rfl h
  · rw [markerText, List.concat_eq_append, List.flatMap_append, List.reverse_append]
    simp [atLineStart]

theorem headingLine_below (x : Str) : headingLine x ++ below x = x := List.take_append_drop ..

theorem slugs_hash (h : ∀ t ∈ slugs, SlugText t) : '#' ∉ markerText slugs := markers_plain h rfl (by decide)

theorem markers_head (h : slugs ≠ []) : (markerText slugs).head? = some '<' := by
  obtain ⟨slug, slugs, rfl⟩ := List.exists_cons_of_ne_nil h
  rfl

theorem markers_ne_nil (h : slugs ≠ []) : markerText slugs ≠ [] := by
  intro hnil
  have := markers_head h
  rw [hnil] at this
  cases this

/-- A heading's line, where more follows it in the section. -/
theorem headingLine_form (hx : opens x = true) (hb : below x ≠ []) :
    ∃ l, headingLine x = h2Text x ++ (l ++ ['\n']) ∧ '\n' ∉ l := by
  obtain ⟨t, ht, -⟩ := opens_h2 hx
  have hdrop : ∀ u v : Str, x = u ++ v → x.drop u.length = v := by
    rintro u v rfl
    exact List.drop_left
  have hend : titleEnd x = (h2Text x).length + (t.takeWhile (· ≠ '\n')).length := by
    rw [titleEnd, Str.lineEnd, hdrop _ _ ht]
  have hno : '\n' ∉ t.takeWhile (· ≠ '\n') := fun hmem => by
    have := List.all_eq_true.1 List.all_takeWhile '\n' hmem
    simp at this
  have hsplit : x = h2Text x ++ t.takeWhile (· ≠ '\n') ++ t.dropWhile (· ≠ '\n') := by
    rw [List.append_assoc, List.takeWhile_append_dropWhile]
    exact ht
  have hlen : (h2Text x ++ t.takeWhile (· ≠ '\n')).length = titleEnd x := by rw [List.length_append, hend]
  cases hd : t.dropWhile (· ≠ '\n') with
  | nil =>
    exfalso
    rw [hd, List.append_nil] at hsplit
    refine hb (List.drop_of_length_le ?_)
    rw [← hlen, ← hsplit]
    omega
  | cons c r =>
    have hc : c = '\n' := by
      have := List.head?_dropWhile_not (· ≠ '\n') t
      rw [hd] at this
      simpa using this
    refine ⟨_, ?_, hno⟩
    rw [hd, hc, List.append_cons] at hsplit
    have htake : ∀ u v : Str, x = u ++ v → x.take u.length = u := by
      rintro u v rfl
      exact List.take_left
    have h := htake _ _ hsplit
    rw [List.length_append, hlen, List.length_singleton] at h
    rw [headingLine, h, List.append_assoc]

theorem headingLine_opens (hx : opens x = true) : ∃ c u, headingLine x = '#' :: '#' :: c :: u ∧ Str.isSpace c = true := by
  obtain ⟨c, t, rfl, hc⟩ := opens_cons hx
  have hend : 2 ≤ titleEnd ('#' :: '#' :: c :: t) := by
    simp only [titleEnd, Str.lineEnd, h2Text, List.length_cons]
    omega
  obtain ⟨n, hn⟩ := Nat.exists_eq_add_of_le hend
  refine ⟨c, t.take n, ?_, hc⟩
  rw [headingLine, hn, show 2 + n + 1 = n + 1 + 1 + 1 by omega]
  rfl

theorem withMarkers_section (hx : Section x) (hslugs : ∀ t ∈ slugs, SlugText t) (hne : slugs ≠ []) :
    Section (withMarkers x slugs) := by
  obtain ⟨c, u, hline, hc⟩ := headingLine_opens hx.opens
  obtain ⟨-, t, hxt, hquiet⟩ := section_cons.1 hx
  have hsplit : t = '#' :: c :: u ++ below x := by
    have h := (headingLine_below x).trans hxt
    rw [hline] at h
    exact (List.cons.inj h).2.symm
  have hclosed : below x = [] ∨ atLineStart (('#' :: c :: u).reverse ++ ['#']) = true ∧
      atLineStart (markerText slugs).reverse = true := by
    by_cases hb : below x = []
    · exact .inl hb
    · right
      obtain ⟨l, hl, -⟩ := headingLine_form hx.opens hb
      have hlast : headingLine x = '#' :: ('#' :: c :: u) := hline
      refine ⟨?_, markers_line hne⟩
      rw [← List.reverse_cons, ← hlast, hl]
      simp [atLineStart]
  rw [hsplit] at hquiet
  have hins := cut_insert (slugs_hash hslugs) (fun d hd => by
    rw [markers_head hne] at hd
    rw [← Option.some.inj hd]
    rfl) (markers_ne_nil hne) hclosed hquiet
  rw [section_cons, withMarkers, hline]
  exact ⟨hc, _, rfl, hins⟩

end

/-! ## Which section a question is marked in -/

/-- The section's heading answers the question, and the section has evidence. -/
def answersWith (ledger : Ledger) (x q : Str) : Bool := sectionHasVerifiedEvidence x ledger && headingAnswers (title x) q

/-- The section that a question without a marker is given one in. -/
def chosen (ledger : Ledger) (body q : Str) : Option Str := (sections body).find? (answersWith ledger · q)

/-- The section as it was, or with markers of questions that it is chosen for. -/
def Put (ledger : Ledger) (all missing : List Str) (x x' : Str) : Prop :=
  x' = x ∨ ∃ slugs, slugs ≠ [] ∧ x' = withMarkers x slugs ∧
    ∀ q ∈ slugs, q ∈ missing ∧ all.find? (answersWith ledger · q) = some x

section
variable {ledger : Ledger} {all as xs missing : List Str} {q x y : Str}

theorem find_after (hno : ∀ y ∈ as, answersWith ledger y q = false) (hx : answersWith ledger x q = true) :
    (as ++ x :: xs).find? (answersWith ledger · q) = some x := by
  rw [List.find?_append, List.find?_eq_none.2 (by simpa using hno), Option.none_or, List.find?_cons, hx]

theorem Put.mono {missing' : List Str} (hsub : missing ⊆ missing') {x' : Str} (h : Put ledger all missing x x') :
    Put ledger all missing' x x' := by
  refine h.imp_right fun h => ?_
  obtain ⟨slugs, hne, hx, hq⟩ := h
  exact ⟨slugs, hne, hx, fun q hmem => ⟨hsub (hq q hmem).1, (hq q hmem).2⟩⟩

/-- What the section leaves over, it does not answer. -/
theorem left_unanswered (hno : ∀ q ∈ missing, ∀ y ∈ as, answersWith ledger y q = false) :
    ∀ q ∈ missing.filter (· ∉ missing.filter (headingAnswers (title x) ·)), ∀ y ∈ as ++ [x],
      answersWith ledger y q = false := by
  intro q hq y hy
  obtain ⟨hmem, hleft⟩ := List.mem_filter.1 hq
  rcases List.mem_append.1 hy with hy | hy
  · exact hno q hmem y hy
  · rw [List.mem_singleton.1 hy]
    have : headingAnswers (title x) q = false := by
      simpa [List.mem_filter, hmem] using hleft
    simp [answersWith, this]

theorem pass_unanswered (hno : ∀ q ∈ missing, ∀ y ∈ as, answersWith ledger y q = false)
    (hx : ¬sectionHasVerifiedEvidence x ledger = true ∨ missing.filter (headingAnswers (title x) ·) = []) :
    ∀ q ∈ missing, ∀ y ∈ as ++ [x], answersWith ledger y q = false := by
  intro q hq y hy
  rcases List.mem_append.1 hy with hy | hy
  · exact hno q hq y hy
  · rw [List.mem_singleton.1 hy]
    rcases hx with hx | hx
    · simp [answersWith, hx]
    · have : headingAnswers (title x) q = false := by
        have h := List.filter_eq_nil_iff.1 hx q hq
        simpa using h
      simp [answersWith, this]

theorem marked_put (hall : all = as ++ xs) (hno : ∀ q ∈ missing, ∀ y ∈ as, answersWith ledger y q = false) :
    List.Forall₂ (Put ledger all missing) xs (marked ledger xs missing) := by
  induction xs generalizing as missing with
  | nil => exact .nil
  | cons x xs ih =>
    have hnext : all = as ++ [x] ++ xs := by rw [hall, List.append_cons]
    rw [marked]
    split
    · next hskip => exact .cons (.inl rfl) (ih hnext (pass_unanswered hno hskip))
    · next hgo =>
      obtain ⟨hev, hmatched⟩ := not_or.1 hgo
      refine .cons (.inr ⟨_, hmatched, rfl, fun q hq => ?_⟩) ((ih hnext (left_unanswered hno)).imp fun _ _ h =>
        h.mono fun _ hm => List.mem_of_mem_filter hm)
      obtain ⟨hmem, htitle⟩ := List.mem_filter.1 hq
      refine ⟨hmem, ?_⟩
      rw [hall]
      exact find_after (hno q hmem) (by simp [answersWith, htitle, not_not.1 hev])

theorem marked_chosen (hall : all = as ++ xs) (hno : ∀ q ∈ missing, ∀ y ∈ as, answersWith ledger y q = false)
    (hq : q ∈ missing) (hx : all.find? (answersWith ledger · q) = some x) :
    ∃ slugs, q ∈ slugs ∧ withMarkers x slugs ∈ marked ledger xs missing := by
  induction xs generalizing as missing with
  | nil =>
    rw [hall, List.append_nil, List.find?_eq_none.2 (by simpa using hno q hq)] at hx
    cases hx
  | cons y xs ih =>
    have hnext : all = as ++ [y] ++ xs := by rw [hall, List.append_cons]
    rw [marked]
    split
    · next hskip =>
      obtain ⟨slugs, hmem, hin⟩ := ih hnext (pass_unanswered hno hskip) hq
      exact ⟨slugs, hmem, List.mem_cons_of_mem _ hin⟩
    · next hgo =>
      obtain ⟨hev, hmatched⟩ := not_or.1 hgo
      by_cases htitle : headingAnswers (title y) q = true
      · have hfind : (as ++ y :: xs).find? (answersWith ledger · q) = some y :=
          find_after (hno q hq) (by simp [answersWith, htitle, not_not.1 hev])
        rw [hall, hfind] at hx
        obtain rfl := Option.some.inj hx
        exact ⟨_, List.mem_filter.2 ⟨hq, htitle⟩, by simp⟩
      · obtain ⟨slugs, hmem, hin⟩ := ih hnext (left_unanswered hno)
          (List.mem_filter.2 ⟨hq, by simp [List.mem_filter, htitle]⟩)
        exact ⟨slugs, hmem, List.mem_cons_of_mem _ hin⟩

end

/-! ## Where a marker stands after -/

section
variable {u v w x y text slug : Str} {slugs : List Str}

/-- A marker does not begin in text without `<`. -/
theorem occurs_after (ht : MarkerText slug text) (hx : '<' ∉ x) (h : x ++ y = v ++ (text ++ w)) :
    ∃ v', v = x ++ v' ∧ y = v' ++ (text ++ w) := by
  rcases List.append_eq_append_iff.1 h with ⟨a, ha, hb⟩ | ⟨a, ha, hb⟩
  · exact ⟨a, ha, hb⟩
  · cases a with
    | nil => exact ⟨[], by simpa using ha.symm, by simpa using hb.symm⟩
    | cons c a =>
      obtain ⟨t, rfl, -⟩ := ht.solo
      obtain rfl : '<' = c := (List.cons.inj hb).1
      exact absurd (by rw [ha]; simp) hx

/-- A marker in lines of markers is one of them. -/
theorem occurs_lines (hslugs : ∀ t ∈ slugs, SlugText t) (ht : MarkerText slug text)
    (h : markerText slugs ++ y = v ++ (text ++ w)) :
    (∃ before after, slugs = before ++ slug :: after ∧ text ++ w = markerText (slug :: after) ++ y) ∨
      ∃ v', v = markerText slugs ++ v' ∧ y = v' ++ (text ++ w) := by
  induction slugs generalizing v with
  | nil => exact .inr ⟨v, rfl, h⟩
  | cons slug' slugs ih =>
    have hline := slug_marker (hslugs slug' (by simp))
    have htext : markerText (slug' :: slugs) ++ y =
        ("<!-- answers: ".toList ++ slug' ++ " -->".toList) ++ '\n' :: (markerText slugs ++ y) := by
      rw [markerText_cons, markerLine_feed]
      simp only [List.append_assoc, List.cons_append, List.nil_append]
    cases v with
    | nil =>
      obtain ⟨rfl, -⟩ := hline.unique ht (htext.symm.trans h)
      exact .inl ⟨[], slugs, rfl, h.symm⟩
    | cons c v =>
      obtain ⟨l, hl, hno⟩ := hline.solo
      rw [htext, hl] at h
      obtain ⟨rfl, hrest⟩ := List.cons.inj h
      have hno : '<' ∉ l ++ ['\n'] := by simp [hno]
      obtain ⟨v', rfl, hy⟩ := occurs_after (x := l ++ ['\n']) (y := markerText slugs ++ y) ht hno
        (by rw [List.append_assoc]; exact hrest)
      rcases ih (fun t ht => hslugs t (by simp [ht])) hy with ⟨before, after, rfl, hw⟩ | ⟨v, rfl, hbelow⟩
      · exact .inl ⟨slug' :: before, after, rfl, hw⟩
      · refine .inr ⟨v, ?_, hbelow⟩
        rw [markerText_cons, markerLine_feed, hl]
        simp only [List.append_assoc, List.cons_append]

/-- A marker of a section with markers put in is in the heading's line, one of
those put in, or below. -/
theorem occurs_insert (hslugs : ∀ t ∈ slugs, SlugText t) (hne : slugs ≠ []) (ht : MarkerText slug text)
    (h : u ++ (markerText slugs ++ y) = v ++ (text ++ w)) :
    (∃ w', u = v ++ (text ++ w') ∧ w = w' ++ (markerText slugs ++ y)) ∨
      (∃ before after, slugs = before ++ slug :: after ∧ text ++ w = markerText (slug :: after) ++ y) ∨
        ∃ v', y = v' ++ (text ++ w) := by
  have hlines : ∀ a, markerText slugs ++ y = a ++ (text ++ w) →
      (∃ before after, slugs = before ++ slug :: after ∧ text ++ w = markerText (slug :: after) ++ y) ∨
        ∃ v', y = v' ++ (text ++ w) := fun a ha =>
    (occurs_lines hslugs ht ha).imp_right fun ⟨v', _, hy⟩ => ⟨v', hy⟩
  rcases List.append_eq_append_iff.1 h with ⟨a, -, hb⟩ | ⟨a, ha, hb⟩
  · exact .inr (hlines a hb)
  · rcases List.append_eq_append_iff.1 hb with ⟨e, he, hf⟩ | ⟨e, he, hf⟩
    · exact .inl ⟨e, by rw [ha, he], hf⟩
    · rcases a with - | ⟨c, a⟩
      · exact .inr (hlines [] hb.symm)
      · cases e with
        | nil =>
          rw [List.append_nil] at he
          exact .inl ⟨[], by rw [ha, he, List.append_nil], by simpa using hf.symm⟩
        | cons d e =>
          -- a marker put in would begin within this one
          obtain ⟨t, hts, hno⟩ := ht.solo
          have hd : d = '<' := by
            obtain ⟨slug', slugs', rfl⟩ := List.exists_cons_of_ne_nil hne
            exact (List.cons.inj hf).1.symm
          rw [hts] at he
          exact absurd (by rw [(List.cons.inj he).2, hd]; simp) hno

end

/-! ## The page with the markers -/

section
variable {body q x x' : Str} {covers : List ReaderQuestion} {ledger : Ledger} {xs xs' all missing : List Str}

theorem unmarked_value (h : q ∈ unmarked body covers) : SlugText q ∧ Str.lower (Str.strip q) = q := by
  have h := List.mem_of_mem_filter h
  rw [normalizeQuestionSet, sortedSet, List.mem_insertionSort, List.mem_eraseDups, List.mem_map] at h
  obtain ⟨r, -, rfl⟩ := h
  exact ⟨value_slug r, value_lower r⟩

theorem below_closed (hx : x.getLast? = some '\n') {slugs : List Str} (hne : slugs ≠ []) :
    atLineStart (withMarkers x slugs).reverse = true := by
  unfold withMarkers
  rw [List.reverse_append, List.reverse_append]
  by_cases hb : below x = []
  · rw [hb, List.reverse_nil, List.nil_append, atLineStart_append (markers_ne_nil hne)]
    exact markers_line hne
  · rw [List.append_assoc, atLineStart_append hb, atLineStart, List.head?_reverse]
    have hlast : (below x).getLast? = x.getLast? := by
      conv_rhs => rw [← headingLine_below x]
      rw [List.getLast?_append_of_ne_nil _ hb]
    rw [hlast, hx]
    rfl

/-- The sections with markers put in are sections. -/
theorem put_sectioned (hmissing : ∀ q ∈ missing, SlugText q) (h : List.Forall₂ (Put ledger all missing) xs xs')
    (hxs : Sectioned xs) : Sectioned xs' := by
  induction h with
  | nil => trivial
  | @cons x x' xs xs' hput htail ih =>
    obtain ⟨hx, hstarts, hrest⟩ := hxs
    have hrest' := ih hrest
    have hline : xs' ≠ [] → atLineStart x.reverse = true := by
      intro hne
      cases htail with
      | nil => exact absurd rfl hne
      | cons _ _ => exact hstarts.line (by simp [hrest.1.ne_nil])
    rcases hput with rfl | ⟨slugs, hne, rfl, hq⟩
    · exact ⟨hx, hrest'.starts hline, hrest'⟩
    · refine ⟨withMarkers_section hx (fun t ht => hmissing t (hq t ht).1) hne, hrest'.starts fun hxs => ?_, hrest'⟩
      refine below_closed ?_ hne
      have h := hline hxs
      obtain ⟨c, hc⟩ := Option.ne_none_iff_exists'.1 (mt List.getLast?_eq_none_iff.1 hx.ne_nil)
      rw [hc]
      rw [atLineStart, List.head?_reverse, hc] at h
      simpa using h

/-- The parts of the page after are those before, some with markers put in. -/
theorem parts_ensure (body : Str) (covers : List ReaderQuestion) (ledger : Ledger) :
    parts (ensureInferredAnswerMarkers body covers ledger) =
        lead body :: marked ledger (sections body) (unmarked body covers) ∧
      List.Forall₂ (Put ledger (sections body) (unmarked body covers)) (sections body)
        (marked ledger (sections body) (unmarked body covers)) := by
  have hput : List.Forall₂ (Put ledger (sections body) (unmarked body covers)) (sections body)
      (marked ledger (sections body) (unmarked body covers)) := marked_put (List.nil_append _).symm (by simp)
  have hsec := put_sectioned (fun q hq => (unmarked_value hq).1) hput (sections_sectioned body)
  have hstarts : Starts ((lead body).reverse ++ [])
      (marked ledger (sections body) (unmarked body covers)).flatten := by
    refine hsec.starts fun hne => ?_
    have hnil : sections body ≠ [] := by
      intro h
      rw [h] at hne
      exact hne rfl
    obtain ⟨z, zs, hz⟩ := List.exists_cons_of_ne_nil hnil
    have hx := (sections_sectioned body).mem (x := z) (by simp [hz])
    rw [List.append_nil]
    exact (lead_starts body).line (by simp [hz, hx.ne_nil])
  have hcut := cut_join (cut_lead [] body) hstarts hsec
  obtain ⟨hlead, hsections⟩ : lead (ensureInferredAnswerMarkers body covers ledger) = lead body ∧
      sections (ensureInferredAnswerMarkers body covers ledger) = marked ledger (sections body) (unmarked body covers) := by
    rw [ensure_marked]
    exact Prod.mk.inj hcut
  exact ⟨by rw [parts, hlead, hsections], hput⟩

theorem h2Text_plain (x : Str) : '<' ∉ h2Text x := by
  intro h
  simp only [h2Text, List.mem_cons] at h
  rcases h with h | h | h
  · cases h
  · cases h
  · have := List.all_eq_true.1 List.all_takeWhile '<' h
    cases this

theorem put_of_after {R : Str → Str → Prop} (h : List.Forall₂ R xs xs') (hx : x' ∈ xs') : ∃ x ∈ xs, R x x' := by
  induction h with
  | nil => cases hx
  | @cons y y' ys ys' hr _ ih =>
    rcases List.mem_cons.1 hx with rfl | hx
    · exact ⟨y, by simp, hr⟩
    · obtain ⟨z, hz, hr⟩ := ih hx
      exact ⟨z, List.mem_cons_of_mem _ hz, hr⟩

theorem put_of_before {R : Str → Str → Prop} (h : List.Forall₂ R xs xs') (hx : x ∈ xs) : ∃ x' ∈ xs', R x x' := by
  obtain ⟨x', hx', hr⟩ := put_of_after (List.Forall₂.flip h) hx
  exact ⟨x', hx', hr⟩

/-- A marker that the page has only after is answered by what is below the
line of the chosen heading. -/
theorem inserted_answer {text v w slug : Str} (hx' : x' ∈ parts (ensureInferredAnswerMarkers body covers ledger))
    (ht : MarkerText slug text) (he : x' = v ++ (text ++ w)) (hq : Str.lower (Str.strip slug) = q)
    (hnew : q ∉ (findMarkers body).map (·.2)) : ∃ x, q ∈ unmarked body covers ∧ chosen ledger body q = some x ∧
      sectionHasVerifiedEvidence (text ++ w) ledger = sectionHasVerifiedEvidence (below x) ledger := by
  obtain ⟨hparts, hput⟩ := parts_ensure body covers ledger
  rw [hparts] at hx'
  have hold : ∀ y ∈ parts body, ∀ v w, y ≠ v ++ (text ++ w) := by
    rintro y hy v w rfl
    exact hnew (mem_markers.2 ⟨_, hy, v, text, w, slug, ht, rfl, hq⟩)
  rcases List.mem_cons.1 hx' with rfl | hx'
  · exact absurd he (hold _ (by simp [parts]) v w)
  · obtain ⟨x, hx, hput⟩ := put_of_after hput hx'
    have hx : x ∈ parts body := List.mem_cons_of_mem _ hx
    rcases hput with rfl | ⟨slugs, hne, rfl, hslugs⟩
    · exact absurd he (hold _ hx v w)
    · have hwords : ∀ t ∈ slugs, SlugText t := fun t ht => (unmarked_value (hslugs t ht).1).1
      rcases occurs_insert hwords hne ht he with ⟨w', hline, -⟩ | ⟨before, after, rfl, htext⟩ | ⟨v', hbelow⟩
      · refine absurd ?_ (hold x hx v (w' ++ below x))
        conv_lhs => rw [← headingLine_below x, hline]
        simp
      · obtain ⟨hmem, hfind⟩ := hslugs slug (by simp)
        rw [(unmarked_value hmem).2] at hq
        subst hq
        refine ⟨x, hmem, hfind, ?_⟩
        rw [htext, evidence_markers fun t ht => hwords t (by simp at ht ⊢; tauto)]
      · refine absurd ?_ (hold x hx (headingLine x ++ v') w)
        conv_lhs => rw [← headingLine_below x, hbelow]
        simp

/-- A question that was answered stays so, where no marker or citation runs over
the end of a heading's line that markers come after. -/
theorem answered_stays {slugs : List Str} (hx : Section x) (hslugs : ∀ t ∈ slugs, SlugText t)
    (hbelow : below x ≠ []) (hmarker : Whole answerMarkerRe (headingLine x) (below x))
    (hcite : Whole placeholderRe (headingLine x) (below x)) (h : AnswersIn ledger q x) :
    AnswersIn ledger q (withMarkers x slugs) := by
  obtain ⟨v, text, w, slug, ht, he, hq, hev⟩ := h
  rw [← headingLine_below x] at he
  have hbeyond : ∀ a, below x = a ++ (text ++ w) → AnswersIn ledger q (withMarkers x slugs) := by
    intro a ha
    refine ⟨headingLine x ++ (markerText slugs ++ a), text, w, slug, ht, ?_, hq, hev⟩
    rw [withMarkers, ha]
    simp
  rcases List.append_eq_append_iff.1 he with ⟨a, -, hb⟩ | ⟨a, ha, hb⟩
  · exact hbeyond a hb
  · by_cases hnil : a = []
    · exact hbeyond [] (by simpa [hnil] using hb.symm)
    have hmatch : matchAt answerMarkerRe [] (a ++ below x) = some ⟨text, [(1, slug)]⟩ :=
      matchAt_marker.2 ⟨slug, text, w, ht, hb.symm, rfl⟩
    have hlen := hmarker a hnil ⟨v, ha.symm⟩ _ hmatch
    obtain ⟨w', rfl, rfl⟩ : ∃ w', a = text ++ w' ∧ w = w' ++ below x := by
      rcases List.append_eq_append_iff.1 hb with ⟨e, he, hf⟩ | ⟨e, he, hf⟩
      · exact ⟨e, he, hf⟩
      · have hnil : e = [] := by
          dsimp only at hlen
          rw [he, List.length_append] at hlen
          exact List.length_eq_zero_iff.1 (by omega)
        rw [hnil] at he hf
        exact ⟨[], by simpa using he.symm, hf.symm⟩
    -- what is left of the heading's line holds no line feed but its last
    obtain ⟨l, hl, hno⟩ : ∃ l, text ++ w' = l ++ ['\n'] ∧ '\n' ∉ l := by
      obtain ⟨l₀, hl₀, hno⟩ := headingLine_form hx.opens hbelow
      obtain ⟨v', -, hrest⟩ := occurs_after ht (h2Text_plain x) (hl₀.symm.trans ha)
      rcases List.eq_nil_or_concat (text ++ w') with h | ⟨l, c, h⟩
      · exact absurd (List.append_eq_nil_iff.1 h).1 ht.ne_nil
      · rw [List.concat_eq_append] at h
        rw [h, ← List.append_assoc] at hrest
        obtain rfl : '\n' = c := by simpa using List.append_inj_right' hrest rfl
        refine ⟨l, h, fun hmem => hno ?_⟩
        rw [List.append_cancel_right hrest]
        exact List.mem_append_right _ hmem
    have hhead : l.head? = some '<' := by
      obtain ⟨t, rfl, -⟩ := ht.solo
      cases l with
      | nil => cases hl
      | cons c l => rw [← (List.cons.inj hl).1]; rfl
    have hwhole : Whole placeholderRe (l ++ ['\n']) (below x) := by
      rw [← hl]
      rw [ha] at hcite
      exact hcite.suffix
    have hsame : sectionHasVerifiedEvidence (l ++ '\n' :: (markerText slugs ++ below x)) ledger =
        sectionHasVerifiedEvidence (l ++ '\n' :: below x) ledger := evidence_line hslugs hno hhead hwhole
    refine ⟨v, text, w' ++ (markerText slugs ++ below x), slug, ht, ?_, hq, ?_⟩
    · rw [withMarkers, ha]
      simp
    · have hfull : ∀ z, text ++ (w' ++ z) = l ++ '\n' :: z := by
        intro z
        rw [← List.append_assoc, hl]
        simp
      rw [hfull, hsame, ← hfull]
      exact hev

end

/-! ## When the markers are sound -/

/-- The text with marker lines added, each at the start of a line. -/
inductive Added : Str → Str → Str → Prop
  | done (b : Str) : Added b [] []
  | char {b s t : Str} (c : Char) (h : Added (c :: b) s t) : Added b (c :: s) (c :: t)
  | line {b s t : Str} (slug : Str) (hb : atLineStart b = true) (h : Added ((markerLine slug).reverse ++ b) s t) :
    Added b s (markerLine slug ++ t)

/-- What was answered still is, what has a marker only after is answered, and
nothing but marker lines is new. -/
structure MarkersSound (body : Str) (covers : List ReaderQuestion) (ledger : Ledger) : Prop where
  stays : ∀ q ∈ (validateCoverage body covers ledger).answeredQuestions,
    q ∈ (validateCoverage (ensureInferredAnswerMarkers body covers ledger) covers ledger).answeredQuestions
  answered : ∀ q ∈ (findMarkers (ensureInferredAnswerMarkers body covers ledger)).map (·.2),
    q ∉ (findMarkers body).map (·.2) →
      q ∈ (validateCoverage (ensureInferredAnswerMarkers body covers ledger) covers ledger).answeredQuestions
  added : Added [] body (ensureInferredAnswerMarkers body covers ledger)

/-- A section that a question is marked in has evidence below its heading's line. -/
def EvidenceBelow (body : Str) (covers : List ReaderQuestion) (ledger : Ledger) : Prop :=
  ∀ q ∈ unmarked body covers, ∀ x, chosen ledger body q = some x → sectionHasVerifiedEvidence (below x) ledger = true

/-- No marker and no placeholder runs over the end of a heading's line that a
question is marked after. -/
def LinesWhole (body : Str) (covers : List ReaderQuestion) (ledger : Ledger) : Prop :=
  ∀ q ∈ unmarked body covers, ∀ x, chosen ledger body q = some x →
    Whole answerMarkerRe (headingLine x) (below x) ∧ Whole placeholderRe (headingLine x) (below x)

section
variable {b s t u body q : Str} {covers : List ReaderQuestion} {ledger : Ledger} {xs xs' slugs : List Str}

theorem Added.over (u : Str) (h : Added (u.reverse ++ b) s t) : Added b (u ++ s) (u ++ t) := by
  induction u generalizing b with
  | nil => exact h
  | cons c u ih => exact .char c (ih (by simpa using h))

theorem Added.lines (hb : atLineStart b = true) (h : ∀ b, Added b s t) : Added b s (markerText slugs ++ t) := by
  induction slugs generalizing b with
  | nil => exact h b
  | cons slug slugs ih =>
    rw [markerText_cons, List.append_assoc]
    refine .line slug hb (ih ?_)
    rw [markerLine_feed]
    simp [atLineStart]

theorem evidence_ne_nil (h : sectionHasVerifiedEvidence u ledger = true) : u ≠ [] := by
  rintro rfl
  cases h

theorem put_added (hline : ∀ x ∈ xs, ∀ q ∈ unmarked body covers, chosen ledger body q = some x → below x ≠ [])
    (hxs : ∀ x ∈ xs, Section x)
    (h : List.Forall₂ (Put ledger (sections body) (unmarked body covers)) xs xs') (b : Str) :
    Added b xs.flatten xs'.flatten := by
  induction h generalizing b with
  | nil => exact .done b
  | @cons x x' xs xs' hput _ ih =>
    have hrest := ih (fun y hy => hline y (by simp [hy])) fun y hy => hxs y (by simp [hy])
    rw [List.flatten_cons, List.flatten_cons]
    rcases hput with rfl | ⟨slugs, hne, rfl, hq⟩
    · exact Added.over _ (hrest _)
    · obtain ⟨slug, rest, rfl⟩ := List.exists_cons_of_ne_nil hne
      obtain ⟨hmem, hfind⟩ := hq slug (by simp)
      obtain ⟨l, hl, -⟩ := headingLine_form (hxs x (by simp)).opens (hline x (by simp) slug hmem hfind)
      conv_lhs => rw [← headingLine_below x]
      rw [withMarkers, List.append_assoc, List.append_assoc, List.append_assoc]
      refine Added.over _ (Added.lines ?_ fun b => Added.over _ (hrest _))
      rw [hl]
      simp [atLineStart]

/-- **When inferred answer markers are sound.** They are only where the evidence
of each section they come into is below the heading's line, and they are then,
unless a marker or placeholder runs over the end of that line. -/
theorem answer_markers_sound (body : Str) (covers : List ReaderQuestion) (ledger : Ledger) :
    (MarkersSound body covers ledger → EvidenceBelow body covers ledger) ∧
      (EvidenceBelow body covers ledger → LinesWhole body covers ledger → MarkersSound body covers ledger) := by
  obtain ⟨hparts, hput⟩ := parts_ensure body covers ledger
  constructor
  · intro h q hq x hx
    have hnew : q ∉ (findMarkers body).map (·.2) := by
      have := (List.mem_filter.1 hq).2
      simpa using this
    obtain ⟨hword, hlower⟩ := unmarked_value hq
    obtain ⟨slugs, hmem, hin⟩ : ∃ slugs, q ∈ slugs ∧
        withMarkers x slugs ∈ marked ledger (sections body) (unmarked body covers) :=
      marked_chosen (List.nil_append _).symm (by simp) hq hx
    have hmarker : q ∈ (findMarkers (ensureInferredAnswerMarkers body covers ledger)).map (·.2) := by
      obtain ⟨before, after, rfl⟩ := List.append_of_mem hmem
      refine mem_markers.2 ⟨_, by rw [hparts]; exact List.mem_cons_of_mem _ hin, headingLine x ++ markerText before, _,
        '\n' :: (markerText after ++ below x), q, slug_marker hword, ?_, hlower⟩
      have hflat : markerText (before ++ q :: after) = markerText before ++ (markerLine q ++ markerText after) := by
        simp only [markerText, List.flatMap_append, List.flatMap_cons]
        rfl
      rw [withMarkers, hflat, markerLine_feed]
      simp only [List.append_assoc, List.cons_append, List.nil_append]
    obtain ⟨-, y, hy, v, text, w, slug, ht, he, hslug, hev⟩ := mem_answered.1 (h.answered q hmarker hnew)
    obtain ⟨z, -, hz, hsame⟩ := inserted_answer hy ht he hslug hnew
    rw [hx] at hz
    obtain rfl := Option.some.inj hz
    rw [← hsame]
    exact hev
  · intro hbelow hwhole
    refine ⟨fun q hq => ?_, fun q hq hnew => ?_, ?_⟩
    · obtain ⟨hrequired, x, hx, hans⟩ := mem_answered.1 hq
      refine mem_answered.2 ⟨hrequired, ?_⟩
      rw [hparts]
      rcases List.mem_cons.1 hx with rfl | hx
      · exact ⟨_, List.mem_cons_self, hans⟩
      · obtain ⟨x', hx', hput⟩ := put_of_before hput hx
        refine ⟨x', List.mem_cons_of_mem _ hx', ?_⟩
        rcases hput with rfl | ⟨slugs, hne, rfl, hslugs⟩
        · exact hans
        · obtain ⟨slug, rest, rfl⟩ := List.exists_cons_of_ne_nil hne
          obtain ⟨hmem, hfind⟩ := hslugs slug (by simp)
          obtain ⟨hmarker, hcite⟩ := hwhole slug hmem x hfind
          exact answered_stays ((sections_sectioned body).mem hx) (fun t ht => (unmarked_value (hslugs t ht).1).1)
            (evidence_ne_nil (hbelow slug hmem x hfind)) hmarker hcite hans
    · obtain ⟨x', hx', v, text, w, slug, ht, he, hslug⟩ := mem_markers.1 hq
      obtain ⟨x, hmem, hx, hsame⟩ := inserted_answer hx' ht he hslug hnew
      refine mem_answered.2 ⟨List.mem_of_mem_filter hmem, x', hx', v, text, w, slug, ht, he, hslug, ?_⟩
      rw [hsame]
      exact hbelow q hmem x hx
    · rw [ensure_marked]
      conv_lhs => rw [← sections_flatten body]
      refine Added.over _ (put_added (fun x _ q hq hx => evidence_ne_nil (hbelow q hq x hx))
        (fun x hx => (sections_sectioned body).mem hx) hput _)

/-- Evidence in the heading's line, which the marker comes after. -/
def usageLedger : Ledger := Ledger.empty.record ⟨"x".toList, .codeNode, some "x".toList, none⟩

theorem heading_evidence_lost : ¬MarkersSound "## Usage [[node:x]]\n".toList [.howToRun] usageLedger := by
  intro h
  have hanswered := h.answered ReaderQuestion.howToRun.value (by decide) (by decide)
  revert hanswered
  decide

end

end Cograph.Wiki
