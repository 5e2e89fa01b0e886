import Cograph.CitationsSound
import Cograph.Coverage

/-!
# What the coverage gate does to citations

Every edit of the coverage gate cuts or inserts at the end of a line or before
a `<`, so on a tame text it makes no citation.
-/

namespace Cograph.Wiki

open Regex

/-! ## Removing markers -/

section
variable {x y : Str}

theorem marker_start {b s : Str} {m : Match} (h : matchAt answerMarkerRe b s = some m) : s.head? = some '<' := by
  obtain ⟨t, rfl⟩ := matchAt_lit h
  rfl

theorem marker_plain {b s : Str} {m : Match} (h : matchAt answerMarkerRe b s = some m) : '[' ∉ m.text :=
  matchAt_avoids (by decide) h

theorem stripMarkers_step (g : Match → Str) (hg : ∀ m, g m = [] ∨ g m = m.text) (b s : Str) :
    ∀ x, Tame (x ++ s) → cites (x ++ (scan answerMarkerRe 0 b s).flatMap (Token.subst g)) = cites (x ++ s) ∧
      Tame (x ++ (scan answerMarkerRe 0 b s).flatMap (Token.subst g)) := by
  apply scan_induct (r := answerMarkerRe) (motive := fun _ s ts => ∀ x, Tame (x ++ s) →
    cites (x ++ ts.flatMap (Token.subst g)) = cites (x ++ s) ∧ Tame (x ++ ts.flatMap (Token.subst g)))
  · intro b x hx
    exact ⟨rfl, hx⟩
  · intro b c s _ ih x hx
    simpa [Token.subst] using ih (x ++ [c]) (by simpa using hx)
  · intro b m t hm ih x hx
    rcases hg m with h | h
    · have hc : Calm x := hx x _ rfl (.inr (.inl (marker_start hm)))
      obtain ⟨ih₁, ih₂⟩ := ih [] hx.suffix.suffix
      simp only [List.flatMap_cons, Token.subst, h, List.nil_append] at ih₁ ih₂ ⊢
      rw [cites_append hc, cites_append hc, cites_skip (marker_plain hm), ih₁]
      exact ⟨rfl, (hx.take hc).append ih₂⟩
    · simpa [Token.subst, h] using ih (x ++ m.text) (by simpa using hx)

theorem stripUnansweredMarkers_cites {s : Str} (hs : Tame s) (slugs : List Str) :
    cites (stripUnansweredMarkers s slugs) = cites s ∧ Tame (stripUnansweredMarkers s slugs) := by
  simp only [stripUnansweredMarkers]
  split
  · exact ⟨rfl, hs⟩
  · apply stripMarkers_step _ _ [] s [] hs
    intro m
    split
    · exact .inl rfl
    · exact .inr rfl

/-! ## Removing sections -/

theorem rstrip_cites (s : Str) : cites (Str.rstrip s ++ ['\n']) = cites s := by
  obtain ⟨w, hs, hw⟩ := Str.rstrip_append s
  rw [cites_tail (by simp)]
  conv_rhs => rw [hs]
  rw [cites_tail]
  intro h
  have := hw _ h
  simp [Str.isSpace] at this

theorem split_mid {d : Char} {t u o v c : Str} (h : t ++ d :: u = o ++ (v ++ c)) (ho : d ∉ o) (hc : d ∉ c) :
    ∃ a b, v = a ++ d :: b ∧ t = o ++ a ∧ u = b ++ c := by
  have tail : ∀ {e a : Str}, d :: u = e ++ c → v = a ++ e → ∃ b, v = a ++ d :: b ∧ u = b ++ c := by
    intro e a he hv
    cases e with
    | nil => exact absurd (by rw [← he.trans (List.nil_append c)]; simp) hc
    | cons x b =>
      obtain ⟨rfl, hu⟩ := List.cons.inj he
      exact ⟨b, hv, hu⟩
  rcases List.append_eq_append_iff.1 h with ⟨a, ha, hb⟩ | ⟨a, ha, hb⟩
  · cases a with
    | nil =>
      obtain ⟨b, hv, hu⟩ := tail hb (List.nil_append v).symm
      exact ⟨[], b, hv, by simpa using ha.symm, hu⟩
    | cons x a =>
      obtain ⟨rfl, _⟩ := List.cons.inj hb
      exact absurd (by rw [ha]; simp) ho
  · rcases List.append_eq_append_iff.1 hb with ⟨e, he, hf⟩ | ⟨e, he, hf⟩
    · exact absurd (by rw [hf]; simp) hc
    · obtain ⟨b, hv, hu⟩ := tail hf he
      exact ⟨a, b, hv, ha, hu⟩

theorem Calm.newline {y w : Str} (h : Calm (y ++ w)) (hw : ∀ c ∈ w, Str.isSpace c = true) : Calm (y ++ ['\n']) := by
  by_cases hnil : w = []
  · rw [hnil, List.append_nil] at h
    exact h.append (calm_of_not_mem (by simp))
  · intro ⟨t, u, kind, v, ht, hu, hs, hv, he⟩
    obtain ⟨r, hr⟩ := hs
    rcases List.append_eq_append_iff.1 hr with ⟨a, ha, hb⟩ | ⟨a, ha, hb⟩
    · -- the line end is read, so it stands in the value
      subst hb
      rw [List.append_assoc, citation, List.append_assoc] at he
      obtain ⟨b, c, hvb, hab, huc⟩ := split_mid he (by cases kind <;> decide) (by decide)
      refine h ⟨a ++ w, u, kind, b ++ w ++ c, by simp [hnil], hu, ⟨r, by rw [← List.append_assoc, ← ha]⟩,
        ⟨by simp [hnil], ?_⟩, ?_⟩
      · intro hmem
        have hvb' : ']' ∉ b ∧ ']' ∉ c := by simpa [hvb] using hv.2
        simp only [List.mem_append, hvb'.1, hvb'.2, or_false, false_or] at hmem
        have := hw _ hmem
        simp [Str.isSpace] at this
      · have huc : u = c ++ "]]".toList := huc
        rw [hab, huc, citation]
        simp
    · have hlast : t = [] ∨ t = ['\n'] := by
        cases a with
        | nil => right; simpa using hb.symm
        | cons x a => left; exact (List.append_eq_nil_iff.1 (List.cons.inj hb).2.symm).2
      rcases hlast with rfl | rfl
      · exact ht rfl
      · have : ('\n' :: u).head? = some '[' := by rw [← List.singleton_append, he]; rfl
        simp at this

theorem Tame.rstrip {s : Str} (h : Tame s) : Tame (Str.rstrip s ++ ['\n']) := by
  obtain ⟨w, hs, hw⟩ := Str.rstrip_append s
  have hc : Calm (Str.rstrip s ++ ['\n']) := Calm.newline (hs ▸ h.calm) hw
  intro a b hab hb
  rcases List.append_eq_append_iff.1 hab with ⟨c, hcc, hd⟩ | ⟨c, hcc, hd⟩
  · cases c with
    | nil =>
      apply h a w (by rw [hcc, List.append_nil]; exact hs)
      rw [List.nil_append] at hd
      rw [← hd] at hb
      right
      right
      simpa using hb
    | cons x c =>
      have hc' : c = [] ∧ b = [] := by simpa using (List.cons.inj hd).2.symm
      rw [hcc, (List.cons.inj hd).1.symm, hc'.1]
      exact hc
  · cases c with
    | nil =>
      apply h a w (by rw [List.append_nil] at hcc; rw [← hcc]; exact hs)
      rw [List.nil_append] at hd
      rw [hd] at hb
      right
      right
      simpa using hb
    | cons x c =>
      apply h a (x :: c ++ w) (by rw [← List.append_assoc, ← hcc]; exact hs)
      rw [hd] at hb
      simpa using hb

end

section
variable {s : Str}

theorem Tame.line {x y : Str} (h : Tame (x ++ y)) (hx : x.reverse.head?.getD '\n' = '\n') : Calm x := by
  by_cases hnil : x = []
  · rw [hnil]
    exact calm_nil
  · apply h x y rfl
    right
    right
    rw [List.head?_reverse] at hx
    cases hl : x.getLast? with
    | none => exact absurd (List.getLast?_eq_none_iff.1 hl) hnil
    | some c =>
      rw [hl] at hx
      exact congrArg some hx

/-- What `_strip_section` cuts runs from one line start to another. -/
theorem stripSection_cut (hs : Tame s) {re : Regex} {start : Nat} {m : Match}
    (h : search (.seq .lineStart re) s 0 = some (start, m)) :
    ∃ v mid y, s = v ++ (mid ++ y) ∧ Calm v ∧ Calm (v ++ mid) ∧
      s.take start ++ s.drop (((search h2Re s (start + m.text.length)).map (·.1)).getD s.length) = v ++ y := by
  obtain ⟨v, w, hv, hstart, _, hm⟩ := search_split (Nat.zero_le _) h
  simp only at hv hstart hm
  have hcv : Calm v := Tame.line (hv ▸ hs) (matchAt_lineStart hm)
  have htake : s.take start = v := by rw [hv, hstart, List.take_left]
  cases h2 : search h2Re s (start + m.text.length) with
  | none =>
    refine ⟨v, m.text ++ w, [], by simpa using hv, hcv, ?_, by simp [htake]⟩
    rw [← hv]
    exact hs.calm
  | some j =>
    obtain ⟨v', w', hv', hj, hle, hm'⟩ := search_split (by rw [hv, hstart]; simp) h2
    have hcv' : Calm v' := Tame.line (hv' ▸ hs) (matchAt_lineStart hm')
    obtain ⟨mid, rfl⟩ : v <+: v' := by
      apply List.prefix_of_prefix_length_le ⟨_, hv.symm⟩ ⟨_, hv'.symm⟩
      omega
    refine ⟨v, mid, j.2.text ++ w', by rw [hv', List.append_assoc], hcv, hcv', ?_⟩
    simp only [Option.map_some, Option.getD_some, htake, hj]
    conv_lhs => rw [hv', List.drop_left]

theorem stripSection_cites (hs : Tame s) (re : Regex) :
    cites (stripSection s (.seq .lineStart re)) ⊆ cites s ∧ Tame (stripSection s (.seq .lineStart re)) := by
  unfold stripSection
  cases h : search (.seq .lineStart re) s 0 with
  | none => exact ⟨List.Subset.refl _, hs⟩
  | some x =>
    obtain ⟨v, mid, y, he, hv, hm, hcut⟩ := stripSection_cut hs h
    simp only [hcut]
    constructor
    · rw [rstrip_cites, cites_append hv, he, ← List.append_assoc, cites_append hm, cites_append hv]
      intro m hmem
      simp only [List.mem_append] at hmem ⊢
      rcases hmem with h | h
      · exact .inl (.inl h)
      · exact .inr h
    · apply Tame.rstrip
      rw [he] at hs
      exact (hs.take hv).append hs.suffix.suffix

theorem stripForbiddenSections_cites (hs : Tame s) :
    cites (stripForbiddenSections s) ⊆ cites s ∧ Tame (stripForbiddenSections s) := by
  obtain ⟨h₁, t₁⟩ := stripSection_cites hs _
  obtain ⟨h₂, t₂⟩ := stripSection_cites t₁ _
  obtain ⟨h₃, t₃⟩ := stripSection_cites t₂ _
  exact ⟨List.Subset.trans h₃ (List.Subset.trans h₂ h₁), t₃⟩

/-! ## Inserting markers -/

theorem take_lineEnd (s : Str) (i : Nat) :
    s.take (Str.lineEnd s i + 1) = s ∨ (s.take (Str.lineEnd s i + 1)).getLast? = some '\n' := by
  unfold Str.lineEnd
  by_cases hi : i ≤ s.length
  · generalize hb : (s.drop i).takeWhile (· ≠ '\n') = b
    have hsplit : s.drop i = b ++ (s.drop i).dropWhile (· ≠ '\n') := by
      rw [← hb, List.takeWhile_append_dropWhile]
    cases hd : (s.drop i).dropWhile (· ≠ '\n') with
    | nil =>
      left
      apply List.take_of_length_le
      have := congrArg List.length hsplit
      simp only [hd, List.append_nil, List.length_drop] at this
      omega
    | cons c t =>
      right
      have hc : c = '\n' := by
        have := List.head?_dropWhile_not (· ≠ '\n') (s.drop i)
        rw [hd] at this
        simpa using this
      have hs : s = (s.take i ++ (b ++ ['\n'])) ++ t := by
        conv_lhs => rw [← List.take_append_drop i s, hsplit, hd, hc]
        simp
      have hl : (s.take i ++ (b ++ ['\n'])).length = i + b.length + 1 := by
        simp
        omega
      have ht : s.take (i + b.length + 1) = s.take i ++ (b ++ ['\n']) := by
        conv_lhs => rw [hs]
        exact List.take_left' hl
      rw [ht, ← List.append_assoc]
      simp
  · left
    apply List.take_of_length_le
    omega

theorem Tame.lineEnd (h : Tame s) (i : Nat) : Calm (s.take (Str.lineEnd s i + 1)) := by
  rcases take_lineEnd s i with ht | ht
  · rw [ht]
    exact h.calm
  · exact h _ _ (List.take_append_drop ..).symm (.inr (.inr ht))

theorem value_plain (q : ReaderQuestion) : '[' ∉ q.value := by
  cases q <;> decide

theorem markerText_plain {slugs : List Str} (h : ∀ t ∈ slugs, '[' ∉ t) : '[' ∉ markerText slugs := by
  intro hmem
  obtain ⟨t, ht, hmem⟩ := List.mem_flatMap.1 hmem
  have := h t ht
  simp [this] at hmem

theorem insertions_spec (body : Str) (ledger : Ledger) (headings : List (Nat × Match)) (missing : List Str)
    (hm : ∀ t ∈ missing, '[' ∉ t) : ∀ x ∈ insertions body ledger headings missing,
      '[' ∉ x.2 ∧ ∃ i, x.1 = Str.lineEnd body i + 1 := by
  induction headings generalizing missing with
  | nil => simp [insertions]
  | cons j headings ih =>
    intro x hx
    simp only [insertions] at hx
    split at hx
    · exact ih missing hm x hx
    · rcases List.mem_cons.1 hx with rfl | hx
      · exact ⟨markerText_plain fun t ht => hm t (List.mem_of_mem_filter ht), _, rfl⟩
      · split at hx
        · simp at hx
        · exact ih _ (fun t ht => hm t (List.mem_of_mem_filter ht)) x hx

theorem insertAll_cites (xs : List (Nat × Str)) (out : Str) (hsort : xs.Pairwise fun x y => y.1 ≤ x.1)
    (hx : ∀ x ∈ xs, '[' ∉ x.2 ∧ Calm (out.take x.1)) (ht : Tame out) :
    cites (xs.foldl insertAt out) = cites out ∧ Tame (xs.foldl insertAt out) := by
  induction xs generalizing out with
  | nil => exact ⟨rfl, ht⟩
  | cons x xs ih =>
    obtain ⟨hw, hc⟩ := hx x (by simp)
    have hout : out = out.take x.1 ++ out.drop x.1 := (List.take_append_drop ..).symm
    have hins : insertAt out x = out.take x.1 ++ (x.2 ++ out.drop x.1) := List.append_assoc ..
    have htame : Tame (insertAt out x) := by
      rw [hins]
      exact Tame.insert (hout ▸ ht) hc hw
    have hcites : cites (insertAt out x) = cites out := by
      conv_rhs => rw [hout]
      rw [hins, cites_append hc, cites_append hc, cites_skip hw]
    obtain ⟨h₁, h₂⟩ := ih (insertAt out x) hsort.of_cons (by
      intro y hy
      refine ⟨(hx y (by simp [hy])).1, ?_⟩
      have hle : y.1 ≤ x.1 := List.rel_of_pairwise_cons hsort hy
      rw [hins, List.take_append]
      by_cases hlen : y.1 ≤ (out.take x.1).length
      · rw [Nat.sub_eq_zero_of_le hlen, List.take_zero, List.append_nil, List.take_take, Nat.min_eq_left hle]
        exact (hx y (by simp [hy])).2
      · -- the earlier insertion was at the end of the text
        have hlong : out.length ≤ x.1 := by
          simp only [List.length_take] at hlen
          omega
        rw [List.take_of_length_le (by omega), List.drop_of_length_le hlong, List.append_nil]
        exact hc.append (calm_of_not_mem fun h => hw (List.mem_of_mem_take h))) htame
    exact ⟨h₁.trans hcites, h₂⟩

theorem later_sorted (xs : List (Nat × Str)) : (xs.insertionSort (later · ·)).Pairwise fun x y => y.1 ≤ x.1 := by
  have insert : ∀ (x : Nat × Str) (l : List (Nat × Str)), l.Pairwise (fun x y => y.1 ≤ x.1) →
      (l.orderedInsert (later · ·) x).Pairwise fun x y => y.1 ≤ x.1 := by
    intro x l hl
    induction l with
    | nil => simp
    | cons y l ih =>
      rw [List.orderedInsert_cons]
      split
      · rename_i h
        have hxy : y.1 ≤ x.1 := by
          simp only [later, decide_eq_true_eq] at h
          omega
        refine List.Pairwise.cons ?_ hl
        intro z hz
        rcases List.mem_cons.1 hz with rfl | hz
        · exact hxy
        · exact le_trans (List.rel_of_pairwise_cons hl hz) hxy
      · rename_i h
        have hyx : x.1 ≤ y.1 := by
          simp only [later, decide_eq_true_eq, not_or] at h
          omega
        refine List.Pairwise.cons ?_ (ih hl.of_cons)
        intro z hz
        rcases (List.mem_orderedInsert _).1 hz with rfl | hz
        · exact hyx
        · exact List.rel_of_pairwise_cons hl hz
  induction xs with
  | nil => simp
  | cons x xs ih => exact insert x _ ih

theorem ensureInferredAnswerMarkers_cites (hs : Tame s) (covers : List ReaderQuestion) (ledger : Ledger) :
    cites (ensureInferredAnswerMarkers s covers ledger) = cites s ∧
      Tame (ensureInferredAnswerMarkers s covers ledger) := by
  simp only [ensureInferredAnswerMarkers]
  split
  · exact ⟨rfl, hs⟩
  · apply insertAll_cites _ _ (later_sorted _) _ hs
    intro x hx
    rw [List.mem_insertionSort] at hx
    obtain ⟨hw, i, hi⟩ := insertions_spec s ledger _ _ (by
      intro t ht
      have ht := List.mem_of_mem_filter ht
      rw [normalizeQuestionSet, sortedSet, List.mem_insertionSort, List.mem_eraseDups, List.mem_map] at ht
      obtain ⟨q, _, rfl⟩ := ht
      exact value_plain q) x hx
    rw [hi]
    exact ⟨hw, hs.lineEnd i⟩

end

end Cograph.Wiki
