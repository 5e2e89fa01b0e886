import Cograph.MarkersSound
import Cograph.SourceLines

/-!
# Answers after ungrounded markers are removed

`strip_keeps_answers`: markers are removed by their question, so an answered
question keeps its answer only if all its markers are grounded. That is enough
where the text around a removed marker neither joins to a new marker nor holds
evidence that reaches into it.
-/

namespace Cograph.Wiki

open Regex

/-! ## Removing markers by question -/

section
variable (targets : List Str)

def dropped (m : Match) : Str := if slugOf m ∈ targets then [] else m.text

/-- The text without the markers of some questions. -/
def without (s : Str) : Str := sub answerMarkerRe (dropped targets) s

/-- A marker of one of the questions stands in the text. -/
def Removed (s : Str) : Prop :=
  ∃ u text w slug, MarkerText slug text ∧ Str.lower (Str.strip slug) ∈ targets ∧ s = u ++ (text ++ w)

end

section
variable {targets : List Str} {b s t u v w x y slug text : Str}

theorem strip_without (s : Str) (slugs : List Str) :
    stripUnansweredMarkers s slugs = without (slugs.filter (· ≠ [])) s := by
  simp only [stripUnansweredMarkers]
  split
  · next hnil =>
    have hsame : dropped (slugs.filter (· ≠ [])) = Match.text := by
      funext m
      rw [hnil]
      simp [dropped]
    rw [without, hsame, sub]
    exact (scan_text answerMarkerRe [] s).symm
  · rfl

theorem without_append (h : Whole answerMarkerRe x y) : without targets (x ++ y) = without targets x ++ without targets y := by
  unfold without sub
  rw [marker_fixed.scan_whole h, List.flatMap_append]

/-- A match is as long as the text before the next `<` allows. -/
theorem whole_before (h : y = [] ∨ y.head? = some '<' ∨ y.head? = some '#') : Whole answerMarkerRe x y := by
  intro t ht hsuf m hm
  obtain ⟨slug, text, r, hmark, hs, rfl⟩ := matchAt_marker.1 hm
  rcases List.append_eq_append_iff.1 hs with ⟨e, he, hy⟩ | ⟨e, he, -⟩
  · cases e with
    | nil => simp [he]
    | cons c e =>
      -- the match would hold the character that comes after `t`
      have hc : c ∈ text := by simp [he]
      rcases h with rfl | h | h
      · cases hy
      · rw [hy] at h
        obtain rfl : c = '<' := by simpa using h
        obtain ⟨z, hz, hno⟩ := hmark.solo
        obtain ⟨d, t, rfl⟩ := List.exists_cons_of_ne_nil ht
        rw [hz, List.cons_append] at he
        exact absurd (by rw [(List.cons.inj he).2]; simp) hno
      · rw [hy] at h
        obtain rfl : c = '#' := by simpa using h
        exact absurd hc hmark.hash
  · simp [he]

theorem MarkerText.head (h : MarkerText slug text) (w : Str) : (text ++ w).head? = some '<' := by
  obtain ⟨t, rfl, -⟩ := h.solo
  rfl

theorem marker_whole (h : MarkerText slug text) (w : Str) : Whole answerMarkerRe text w := by
  intro t ht hsuf m hm
  obtain ⟨slug', text', r, hmark, hs, rfl⟩ := matchAt_marker.1 hm
  obtain ⟨z, hz, hno⟩ := h.solo
  obtain ⟨a, ha⟩ := hsuf
  cases a with
  | nil =>
    obtain rfl : t = text := ha
    obtain ⟨-, rfl⟩ := h.unique hmark hs
    exact Nat.le_refl _
  | cons c a =>
    -- a match would begin inside the marker
    obtain ⟨d, t, rfl⟩ := List.exists_cons_of_ne_nil ht
    obtain rfl : d = '<' := by
      have := hmark.head r
      rw [← hs] at this
      simpa using this
    rw [hz] at ha
    exact absurd (by rw [← (List.cons.inj ha).2]; simp) hno

theorem without_marker (h : MarkerText slug text) :
    without targets text = if Str.lower (Str.strip slug) ∈ targets then [] else text := by
  have hm : matchAt answerMarkerRe [] text = some ⟨text, [(1, slug)]⟩ := matchAt_marker.2 ⟨slug, text, [], h, by simp, rfl⟩
  unfold without sub
  rw [scan_hit (t := []) hm (by simp)]
  simp [scan, Token.subst, dropped, slugOf, Match.group]

/-- What stands around a marker is rewritten by itself. -/
theorem without_split (h : MarkerText slug text) : without targets (u ++ (text ++ w)) =
    without targets u ++ ((if Str.lower (Str.strip slug) ∈ targets then [] else text) ++ without targets w) := by
  rw [without_append (whole_before (.inr (.inl (h.head w)))), without_append (marker_whole h w), without_marker h]

theorem without_free (h : ¬Removed targets s) : without targets s = s := by
  have hkept : ∀ t ∈ scan answerMarkerRe 0 [] s, Token.subst (dropped targets) t = t.text := by
    intro t ht
    cases t with
    | plain c => rfl
    | hit m =>
      have hm : m ∈ hits answerMarkerRe s := List.mem_filterMap.2 ⟨_, ht, rfl⟩
      rw [← finditer_map, List.mem_map] at hm
      obtain ⟨z, hz, rfl⟩ := hm
      obtain ⟨v, w, hs, -, hmatch⟩ := finditer_split hz
      obtain ⟨slug, text, r, hmark, -, he⟩ := matchAt_marker.1 hmatch
      show dropped targets z.2 = z.2.text
      rw [he] at hs ⊢
      rw [dropped, if_neg]
      exact fun hmem => h ⟨v, text, w, slug, hmark, hmem, hs⟩
  have hsame : ∀ ts : List Token, (∀ t ∈ ts, Token.subst (dropped targets) t = t.text) →
      ts.flatMap (Token.subst (dropped targets)) = ts.flatMap Token.text := by
    intro ts hts
    exact List.flatMap_congr hts
  rw [without, sub, hsame _ hkept, scan_text]

theorem Removed.left (h : ¬Removed targets (x ++ y)) : ¬Removed targets x := by
  intro hx
  obtain ⟨u, text, w, slug, ht, hmem, rfl⟩ := hx
  exact h ⟨u, text, w ++ y, slug, ht, hmem, by simp⟩

theorem Removed.right (h : ¬Removed targets (x ++ y)) : ¬Removed targets y := by
  intro hy
  obtain ⟨u, text, w, slug, ht, hmem, rfl⟩ := hy
  exact h ⟨x ++ u, text, w, slug, ht, hmem, by simp⟩

theorem first_removed (h : Removed targets s) : ∃ b text w slug, MarkerText slug text ∧
    Str.lower (Str.strip slug) ∈ targets ∧ s = b ++ (text ++ w) ∧ ¬Removed targets b := by
  induction hn : s.length using Nat.strongRecOn generalizing s with
  | _ n ih =>
    obtain ⟨u, text, w, slug, ht, hmem, rfl⟩ := h
    by_cases hu : Removed targets u
    · have hpos := List.length_pos_iff.2 ht.ne_nil
      obtain ⟨b, text', w', slug', ht', hmem', rfl, hb⟩ := ih u.length (by simp at hn; omega) hu rfl
      exact ⟨b, text', w' ++ (text ++ w), slug', ht', hmem', by simp, hb⟩
    · exact ⟨u, text, w, slug, ht, hmem, rfl, hu⟩

end

/-! ## The markers that are left -/

/-- Where a marker is removed the text around it joins to no other marker. -/
def Unjoined (targets : List Str) (s : Str) : Prop :=
  ∀ u text w slug, MarkerText slug text → Str.lower (Str.strip slug) ∈ targets → s = u ++ (text ++ w) →
    Whole answerMarkerRe (without targets u) (without targets w)

section
variable {targets : List Str} {b s u v w x y slug text : Str}

theorem without_skip {m mark : Str} (hb : ¬Removed targets b) (hm : MarkerText m mark)
    (hmem : Str.lower (Str.strip m) ∈ targets) : without targets (b ++ (mark ++ w)) = b ++ without targets w := by
  rw [without_split hm, if_pos hmem, without_free hb, List.nil_append]

theorem Unjoined.right {m mark : Str} (h : Unjoined targets (b ++ (mark ++ w))) (hb : ¬Removed targets b)
    (hm : MarkerText m mark) (hmem : Str.lower (Str.strip m) ∈ targets) : Unjoined targets w := by
  intro u text z slug ht hslug hw
  have hwhole := h (b ++ (mark ++ u)) text z slug ht hslug (by rw [hw]; simp)
  rw [without_skip hb hm hmem] at hwhole
  exact hwhole.suffix

/-- What is a marker after the removal was one before. -/
theorem kept_marker (h : Unjoined targets s) (ht : MarkerText slug text) (hs : without targets s = v ++ (text ++ w)) :
    Str.lower (Str.strip slug) ∉ targets ∧
      ∃ u z, s = u ++ (text ++ z) ∧ without targets u = v ∧ without targets z = w := by
  induction hn : s.length using Nat.strongRecOn generalizing s v with
  | _ n ih =>
    by_cases hrem : Removed targets s
    · obtain ⟨b, mark, r, m, hm, hmem, rfl, hb⟩ := first_removed hrem
      have hpos := List.length_pos_iff.2 hm.ne_nil
      rw [without_skip hb hm hmem] at hs
      have hlater : ∀ a, v = b ++ a → without targets r = a ++ (text ++ w) → Str.lower (Str.strip slug) ∉ targets ∧
          ∃ u z, b ++ (mark ++ r) = u ++ (text ++ z) ∧ without targets u = v ∧ without targets z = w := by
        intro a hv hr
        obtain ⟨hkept, u, z, rfl, hu, hz⟩ := ih r.length (by simp at hn; omega) (h.right hb hm hmem) hr rfl
        exact ⟨hkept, b ++ (mark ++ u), z, by simp, by rw [without_skip hb hm hmem, hu, hv], hz⟩
      rcases List.append_eq_append_iff.1 hs with ⟨a, hv, hr⟩ | ⟨a, hba, hta⟩
      · exact hlater a hv hr
      · by_cases hnil : a = []
        · subst hnil
          exact hlater [] (by simpa using hba.symm) (by simpa using hta.symm)
        · -- the marker ends before the place of the removed one
          have hwhole := h b mark r m hm hmem rfl
          rw [without_free hb] at hwhole
          have hmatch : matchAt answerMarkerRe [] (a ++ without targets r) = some ⟨text, [(1, slug)]⟩ :=
            matchAt_marker.2 ⟨slug, text, w, ht, hta.symm, rfl⟩
          have hlen : text.length ≤ a.length := hwhole a hnil ⟨v, hba.symm⟩ _ hmatch
          obtain ⟨e, rfl, rfl⟩ : ∃ e, a = text ++ e ∧ w = e ++ without targets r := by
            rcases List.append_eq_append_iff.1 hta with ⟨e, he, hw⟩ | ⟨e, he, hw⟩
            · exact ⟨e, he, hw⟩
            · have hnil : e = [] := by
                rw [he, List.length_append] at hlen
                exact List.length_eq_zero_iff.1 (by omega)
              subst hnil
              exact ⟨[], by simpa using he.symm, by simpa using hw.symm⟩
          subst hba
          refine ⟨fun hslug => hb ⟨v, text, e, slug, ht, hslug, rfl⟩, v, e ++ (mark ++ r), by simp, ?_, ?_⟩
          · exact without_free (Removed.left hb)
          · exact without_skip (Removed.right (Removed.right hb)) hm hmem
    · rw [without_free hrem] at hs
      subst hs
      exact ⟨fun hslug => hrem ⟨v, text, w, slug, ht, hslug, rfl⟩, v, w, rfl, without_free (Removed.left hrem),
        without_free (Removed.right (Removed.right hrem))⟩

end

/-! ## From a marker to the end of its section -/

def stretch (v s : Str) : Str := (cut v.reverse s).1

section
variable {b s u v w x y z body q slug text : Str} {ledger : Ledger} {covers : List ReaderQuestion}

theorem cut_plain (hx : '#' ∉ x) (b z : Str) : cut b (x ++ z) =
    (x ++ (cut (x.reverse ++ b) z).1, (cut (x.reverse ++ b) z).2) := by
  induction x generalizing b with
  | nil => rfl
  | cons c x ih =>
    have hno : opens (c :: (x ++ z)) = false := by
      cases h : opens (c :: (x ++ z)) with
      | false => rfl
      | true =>
        obtain ⟨d, t, he, -⟩ := opens_cons h
        exact absurd (by rw [(List.cons.inj he).1]; simp) hx
    rw [List.cons_append, cut, hno, Bool.and_false, ih fun h => hx (by simp [h])]
    simp

theorem stretch_marker (h : MarkerText slug text) (v w : Str) : stretch v (text ++ w) = text ++ (cut text.reverse w).1 := by
  rw [stretch, cut_plain h.hash, cut_congr (atLineStart_append h.ne_nil v.reverse)]

theorem slice_stretch (ht : MarkerText slug text) (h : body = v ++ (text ++ w)) :
    slice body v.length (sectionEndFor v.length (sectionBounds body) body.length) = stretch v (text ++ w) := by
  have hpos := List.length_pos_iff.2 ht.ne_nil
  have hflat := (sections_flatten body).trans h
  have hquiet : ∀ {z y : Str}, cut v.reverse z = (z, []) → Starts (z.reverse ++ v.reverse) y →
      (cut v.reverse (z ++ y)).1 = z := by
    intro z y hz hy
    rw [cut_append hy, hz]
  rcases locate (fun x hx => ((sections_sectioned body).mem hx).head) ht.hash hflat with
    ⟨w', hl⟩ | ⟨xs, x, ys, v', w', hsec, hx, hv⟩
  · have hw : text ++ w = text ++ w' ++ (sections body).flatten := by
      rw [hl] at hflat
      simpa using hflat.symm
    have hlead := cut_lead [] body
    rw [slice_lead (by rw [hl]; simp; omega), hl, List.drop_left, hw, stretch, hquiet]
    · have := cut_suffix (b := []) (v := v) (w := text ++ w') (by rw [← hl]; exact hlead)
      simpa using this
    · have := lead_starts body
      rw [hl] at this
      simpa using this
  · have hsection : Section x := (sections_sectioned body).mem (by rw [hsec]; simp)
    have hw : text ++ w = text ++ w' ++ ys.flatten := by
      rw [hsec, hv] at hflat
      simpa [hx] using hflat.symm
    have hne : v' ≠ [] := by
      rintro rfl
      have hhead := hsection.head
      rw [hx, List.nil_append, ht.head w'] at hhead
      cases hhead
    have hrest : slice body v.length (sectionEndFor v.length (sectionBounds body) body.length) = x.drop v'.length := by
      rw [hv, List.length_append]
      exact slice_section hsec (by rw [hx]; simp; omega)
    rw [hrest, hx, List.drop_left, hw, stretch, hquiet]
    · rw [hv, List.reverse_append]
      exact hsection.rest hx hne
    · have hcut : sections body = (xs ++ [x]) ++ ys := by rw [hsec]; simp
      have hstarts := sections_starts hcut
      rw [hv]
      rw [hx] at hstarts
      simpa using hstarts

/-- A place where a marker stands, with the evidence from there on. -/
def MarkedAs (ledger : Ledger) (body q : Str) (grounded : Bool) : Prop :=
  ∃ v text w slug, MarkerText slug text ∧ body = v ++ (text ++ w) ∧ Str.lower (Str.strip slug) = q ∧
    sectionHasVerifiedEvidence (stretch v (text ++ w)) ledger = grounded

theorem markedAs_iff {grounded : Bool} : MarkedAs ledger body q grounded ↔ ∃ i, (i, q) ∈ findMarkers body ∧
    sectionHasVerifiedEvidence (slice body i (sectionEndFor i (sectionBounds body) body.length)) ledger = grounded := by
  constructor
  · intro h
    obtain ⟨v, text, w, slug, ht, hs, rfl, hev⟩ := h
    exact ⟨v.length, mem_findMarkers.2 ⟨v, text, w, slug, ht, hs, rfl, rfl⟩, by rw [slice_stretch ht hs, hev]⟩
  · intro h
    obtain ⟨i, hm, hev⟩ := h
    obtain ⟨v, text, w, slug, ht, hs, rfl, rfl⟩ := mem_findMarkers.1 hm
    rw [slice_stretch ht hs] at hev
    exact ⟨v, text, w, slug, ht, hs, rfl, hev⟩

theorem mem_answered_at : q ∈ (validateCoverage body covers ledger).answeredQuestions ↔
    q ∈ normalizeQuestionSet covers ∧ MarkedAs ledger body q true := by
  rw [markedAs_iff]
  unfold validateCoverage
  split
  · next hnil => simp [hnil, findMarkers, finditer, scan, positions]
  · simp [List.mem_filter, List.mem_map]

theorem mem_ungrounded : q ∈ (validateCoverage body covers ledger).markersWithoutGrounding ↔
    MarkedAs ledger body q false := by
  rw [markedAs_iff]
  unfold validateCoverage
  split
  · next hnil => simp [hnil, findMarkers, finditer, scan, positions]
  · simp [List.mem_filter, List.mem_map, sortedSet]

end

/-! ## Evidence before the first removed marker -/

/-- Between a marker that stays and one that is removed after it in its section
there is evidence that does not reach into the removed one. -/
def EvidenceFirst (targets : List Str) (ledger : Ledger) (body : Str) : Prop :=
  ∀ u text b mark z slug m, MarkerText slug text → MarkerText m mark → Str.lower (Str.strip slug) ∉ targets →
    Str.lower (Str.strip m) ∈ targets → body = u ++ (text ++ (b ++ (mark ++ z))) → (cut text.reverse b).2 = [] →
      evidenceBefore ledger (text ++ b) = true

section
variable {targets : List Str} {b s u v w x y z body slug text : Str} {ledger : Ledger}

theorem without_cons {c : Char} (hc : c ≠ '<') (s : Str) : without targets (c :: s) = c :: without targets s := by
  have hm : matchAt answerMarkerRe [] (c :: s) = none := by
    cases h : matchAt answerMarkerRe [] (c :: s) with
    | none => rfl
    | some m =>
      have := marker_start h
      exact absurd (Option.some.inj this) hc
  unfold without sub
  rw [scan_plain hm, scan_blind marker_fixed.blind [c] []]
  rfl

/-- A section begins with its heading also where its markers are removed. -/
theorem starts_without (h : Starts b y) : Starts b (without targets y) := by
  rcases h with rfl | ⟨hb, hy⟩
  · exact .inl (without_free fun ⟨_, _, _, _, ht, _, h⟩ => by simp [ht.ne_nil] at h)
  · right
    obtain ⟨c, t, rfl, hc⟩ := opens_cons hy
    have hne : c ≠ '<' := by
      rintro rfl
      revert hc
      decide
    rw [without_cons (by decide), without_cons (by decide), without_cons hne]
    exact ⟨hb, hc⟩

theorem cut_prefix (h : (cut b (x ++ y)).2 = []) : cut b x = (x, []) := by
  induction x generalizing b with
  | nil => rfl
  | cons c x ih =>
    rw [List.cons_append, cut] at h
    split at h
    · cases h
    · next hno =>
      have hopens : ¬(atLineStart b && opens (c :: x)) = true := by
        intro ho
        obtain ⟨hb, hx⟩ := Bool.and_eq_true_iff.1 ho
        obtain ⟨d, t, he, hd⟩ := opens_cons hx
        refine hno (Bool.and_eq_true_iff.2 ⟨hb, ?_⟩)
        rw [← List.cons_append, he]
        exact hd
      rw [cut, if_neg hopens, ih h]

/-- A heading that arises when something else follows takes nothing but its
signs from the text before. -/
theorem cut_joint (h : cut b x = (x, [])) (y : Str) :
    ∃ x₁ x₂ s, x = x₁ ++ x₂ ∧ (∀ c ∈ x₂, c = '#') ∧ (cut b (x ++ y)).1 = x₁ ++ s := by
  induction x generalizing b with
  | nil => exact ⟨[], [], _, rfl, by simp, rfl⟩
  | cons c x ih =>
    rw [cut] at h
    split at h
    · cases h
    · next hno =>
      obtain ⟨hlead, hrest⟩ := Prod.mk.inj h
      obtain ⟨x₁, x₂, s, hx, hhash, hcut⟩ := ih (Prod.ext (List.cons.inj hlead).2 hrest)
      rw [List.cons_append, cut]
      split
      · next hopens =>
        obtain ⟨hb, ho⟩ := Bool.and_eq_true_iff.1 hopens
        refine ⟨[], c :: x, [], rfl, ?_, rfl⟩
        have hclosed : opens (c :: x) = false := by
          cases h : opens (c :: x) with
          | false => rfl
          | true => exact absurd (Bool.and_eq_true_iff.2 ⟨hb, h⟩) hno
        obtain ⟨d, t, hc, hd⟩ := opens_cons ho
        obtain ⟨rfl, he⟩ := List.cons.inj hc
        cases x with
        | nil => simp
        | cons e x =>
          obtain ⟨rfl, hf⟩ := List.cons.inj he
          cases x with
          | nil => simp
          | cons f x =>
            obtain ⟨rfl, -⟩ := List.cons.inj hf
            rw [opens, hd] at hclosed
            cases hclosed
      · exact ⟨c :: x₁, x₂, s, by rw [hx]; rfl, hhash, by rw [hcut]; rfl⟩

/-- A marker that stays is grounded after the removal. -/
theorem stays_grounded (hE : EvidenceFirst targets ledger body) (ht : MarkerText slug text)
    (hbody : body = u ++ (text ++ w)) (hkept : Str.lower (Str.strip slug) ∉ targets)
    (hev : sectionHasVerifiedEvidence (stretch u (text ++ w)) ledger = true) :
    sectionHasVerifiedEvidence (stretch (without targets u) (text ++ without targets w)) ledger = true := by
  rw [stretch_marker ht] at hev ⊢
  have hw := cut_flatten text.reverse w
  have hstarts := cut_starts text.reverse w
  have hlead := cut_lead text.reverse w
  revert hw hstarts hlead hev
  generalize (cut text.reverse w).1 = c
  generalize (cut text.reverse w).2.flatten = d
  intro hev hw hstarts hlead
  by_cases hrem : Removed targets c
  · obtain ⟨b, mark, z, m, hm, hmem, rfl, hb⟩ := first_removed hrem
    have hquiet : cut text.reverse b = (b, []) := cut_prefix (y := mark ++ z) (by rw [hlead])
    have hbefore := hE u text b mark (z ++ d) slug m ht hm hkept hmem (by rw [hbody, ← hw]; simp) (by rw [hquiet])
    have hsame : without targets w = b ++ without targets (z ++ d) := by
      rw [← hw, List.append_assoc, List.append_assoc, without_skip hb hm hmem]
    obtain ⟨b₁, b₂, s, rfl, hhash, hcut⟩ := cut_joint hquiet (without targets (z ++ d))
    rw [hsame, hcut, ← List.append_assoc]
    apply evidence_append
    rwa [← List.append_assoc, evidenceBefore_hash hhash] at hbefore
  · have hsame : without targets w = c ++ without targets d := by
      have hhead : d = [] ∨ d.head? = some '<' ∨ d.head? = some '#' := (starts_head hstarts).imp_right .inr
      rw [← hw, without_append (whole_before hhead), without_free hrem]
    rw [hsame, cut_append (starts_without hstarts), hlead]
    exact hev

end

/-! ## When the answers stay -/

/-- What validation reports as ungrounded is taken out. -/
def stripped (body : Str) (covers : List ReaderQuestion) (ledger : Ledger) : Str :=
  stripUnansweredMarkers body (validateCoverage body covers ledger).markersWithoutGrounding

/-- What was answered still is, and no marker without evidence is left. -/
structure AnswersKept (body : Str) (covers : List ReaderQuestion) (ledger : Ledger) : Prop where
  answered : ∀ q ∈ (validateCoverage body covers ledger).answeredQuestions,
    q ∈ (validateCoverage (stripped body covers ledger) covers ledger).answeredQuestions
  grounded : (validateCoverage (stripped body covers ledger) covers ledger).markersWithoutGrounding = []

/-- No answered question has a marker without evidence. -/
def Apart (r : CoverageResult) : Prop := ∀ q ∈ r.answeredQuestions, q ∉ r.markersWithoutGrounding

theorem lower_ne_nil {slug text : Str} (h : MarkerText slug text) : Str.lower (Str.strip slug) ≠ [] := by
  obtain ⟨-, -, -, -, -, -, -, hslug, -⟩ := h
  have hall := hslug.chars
  obtain ⟨c, t, rfl, -⟩ := hslug
  have hc := slugChar_graphic (hall c (by simp))
  have hstrip : Str.strip (c :: t) = c :: Str.rstrip t := by
    rw [Str.strip, Str.lstrip, List.dropWhile_cons_of_neg (by simp [hc]), Str.rstrip_graphic hc]
  rw [hstrip, Str.lower, List.flatMap_cons]
  split
  · simp
  · split <;> simp

/-- The answers stay only if no answered question has an ungrounded marker, and
then they do, as far as the text around the removed markers stays apart. -/
theorem strip_keeps_answers (body : Str) (covers : List ReaderQuestion) (ledger : Ledger) :
    (Unjoined (validateCoverage body covers ledger).markersWithoutGrounding body →
      AnswersKept body covers ledger → Apart (validateCoverage body covers ledger)) ∧
    (Apart (validateCoverage body covers ledger) →
      Unjoined (validateCoverage body covers ledger).markersWithoutGrounding body →
      EvidenceFirst (validateCoverage body covers ledger).markersWithoutGrounding ledger body →
        AnswersKept body covers ledger) := by
  obtain ⟨targets, htargets⟩ : ∃ targets, targets = (validateCoverage body covers ledger).markersWithoutGrounding :=
    ⟨_, rfl⟩
  have hmem : ∀ q, q ∈ targets ↔ MarkedAs ledger body q false := fun q => by rw [htargets, mem_ungrounded]
  have hne : ∀ q ∈ targets, q ≠ [] := by
    rintro q hq rfl
    obtain ⟨-, text, -, slug, ht, -, hq, -⟩ := (hmem []).1 hq
    exact lower_ne_nil ht hq
  have hstripped : stripped body covers ledger = without targets body := by
    rw [stripped, strip_without, ← htargets, List.filter_eq_self.2 fun q hq => by simpa using hne q hq]
  rw [← htargets]
  constructor
  · intro hjoin hkept q hq hun
    rw [← htargets] at hun
    have hafter := hkept.answered q hq
    rw [mem_answered_at, hstripped] at hafter
    obtain ⟨-, v, text, w, slug, ht, hs, hslug, -⟩ := hafter
    obtain ⟨hstay, -⟩ := kept_marker hjoin ht hs
    rw [hslug] at hstay
    exact hstay hun
  · intro hapart hjoin hfirst
    refine ⟨fun q hq => ?_, ?_⟩
    · have hstay : q ∉ targets := htargets ▸ hapart q hq
      rw [mem_answered_at] at hq ⊢
      obtain ⟨hrequired, u, text, w, slug, ht, hbody, rfl, hev⟩ := hq
      refine ⟨hrequired, without targets u, text, without targets w, slug, ht, ?_, rfl, ?_⟩
      · rw [hstripped, hbody, without_split ht, if_neg hstay]
      · exact stays_grounded hfirst ht hbody hstay hev
    · rw [List.eq_nil_iff_forall_not_mem]
      intro q hq
      rw [mem_ungrounded, hstripped] at hq
      obtain ⟨v, text, w, slug, ht, hs, rfl, hev⟩ := hq
      obtain ⟨hstay, u, z, hbody, rfl, rfl⟩ := kept_marker hjoin ht hs
      have hground : sectionHasVerifiedEvidence (stretch u (text ++ z)) ledger = true := by
        by_contra hno
        exact hstay ((hmem _).2 ⟨u, text, z, slug, ht, hbody, rfl, by simpa using hno⟩)
      rw [stays_grounded hfirst ht hbody hstay hground] at hev
      cases hev

/-- One marker of the question is grounded, the other is not, and both go. -/
theorem grounded_marker_lost :
    ¬AnswersKept ("<!-- answers: configuration -->\n[[node:x]]\n## More\n<!-- answers: configuration -->\n".toList)
      [.configuration] usageLedger := by
  intro h
  have hanswered := h.answered ReaderQuestion.configuration.value (by decide +kernel)
  revert hanswered
  decide +kernel

end Cograph.Wiki
