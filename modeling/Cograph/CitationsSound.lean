import Cograph.Citations

/-!
# What the citation gate lets through

A citation is found wherever its text stands, so a text put together from parts
holds the citations of the parts, unless one runs over a joint. `Calm` is that
no citation is left open at the end of a text.
-/

namespace Cograph.Wiki

open Regex

/-! ## The placeholder pattern -/

def citation (kind : CitationKind) (v : Str) : Str := "[[".toList ++ kind.text ++ ":".toList ++ v ++ "]]".toList

/-- `v` can stand in a citation. -/
def Valued (v : Str) : Prop := v ≠ [] ∧ ']' ∉ v

def citationMatch (kind : CitationKind) (v : Str) : Match := ⟨citation kind v, [(2, v), (1, kind.text)]⟩

@[simp] theorem kindOf_citation (kind : CitationKind) (v : Str) : kindOf (citationMatch kind v) = kind := by
  cases kind <;> rfl

@[simp] theorem valueOf_citation (kind : CitationKind) (v : Str) : valueOf (citationMatch kind v) = Str.strip v := rfl

theorem mem_kind {p q : Point} : q ∈ ends (.alt (.lit "node".toList) (.lit "doc".toList)) p ↔
    ∃ kind : CitationKind, Reaches p kind.text q := by
  simp only [mem_ends_alt, mem_ends_lit]
  constructor
  · intro h
    rcases h with h | h
    · exact ⟨.node, h⟩
    · exact ⟨.doc, h⟩
  · intro h
    obtain ⟨kind, h⟩ := h
    cases kind with
    | node => exact .inl h
    | doc => exact .inr h

theorem mem_value {p q : Point} : q ∈ ends (.plus (.sat (· ≠ ']'))) p ↔ ∃ v, Valued v ∧ Reaches p v q := by
  simp only [mem_ends_plus_sat, decide_eq_true_eq]
  constructor
  · intro ⟨w, hne, hw, hf⟩
    exact ⟨w, ⟨hne, fun h => hf _ h rfl⟩, hw⟩
  · intro ⟨w, ⟨hne, hv⟩, hw⟩
    exact ⟨w, hne, hw, fun c hc h => hv (h ▸ hc)⟩

theorem mem_ends_placeholder {p q : Point} : q ∈ ends placeholderRe p ↔
    ∃ kind v, Valued v ∧ Reads p (citation kind v) q ∧ q.groups = (2, v) :: (1, kind.text) :: p.groups := by
  unfold placeholderRe
  simp only [mem_ends_seq, mem_ends_group, mem_kind, mem_value, mem_ends_lit]
  constructor
  · intro h
    obtain ⟨p₁, ⟨h₁, g₁⟩, _, ⟨m₂, ⟨kind, hk, gk⟩, rfl⟩, p₃, ⟨h₃, g₃⟩, _, ⟨m₄, ⟨v, hv, hw, gw⟩, rfl⟩, h₅, g₅⟩ := h
    refine ⟨kind, v, hv, ?_, ?_⟩
    · have h₃' : Reads m₂ ":".toList p₃ := h₃
      have h₅' : Reads m₄ "]]".toList q := h₅
      exact (((h₁.trans hk).trans h₃').trans hw).trans h₅'
    · rw [g₅]
      simp only [hw.upto_eq, gw, g₃, hk.upto_eq, gk, g₁]
  · intro h
    obtain ⟨kind, v, hv, h, hg⟩ := h
    obtain ⟨p₁, h₁, a₁⟩ := reaches_of_after (p := p) (w := "[[".toList) (t := kind.text ++ (":".toList ++ (v ++
      ("]]".toList ++ q.after)))) (by rw [h.1]; simp [citation])
    obtain ⟨m₂, h₂, a₂⟩ := reaches_of_after a₁
    obtain ⟨p₃, h₃, a₃⟩ := reaches_of_after (p := ⟨m₂.before, m₂.after, (1, p₁.upto m₂) :: m₂.groups⟩) a₂
    obtain ⟨m₄, h₄, _⟩ := reaches_of_after a₃
    have h₃' : Reads m₂ ":".toList p₃ := h₃.1
    have h₅ : Reads m₄ "]]".toList q := h.after (((h₁.1.trans h₂.1).trans h₃').trans h₄.1)
    refine ⟨p₁, h₁, _, ⟨m₂, ⟨kind, h₂⟩, rfl⟩, p₃, h₃, _, ⟨m₄, ⟨v, hv, h₄⟩, rfl⟩, h₅, ?_⟩
    rw [hg]
    simp only [h₄.1.upto_eq, h₄.2, h₃.2, h₂.1.upto_eq, h₂.2, h₁.2]

/-! ## Where a citation stands -/

theorem citation_ne_nil (kind : CitationKind) (v : Str) : citation kind v ≠ [] := by
  simp [citation]

theorem citation_unique {kind kind' : CitationKind} {v v' s s' : Str} (hv : Valued v) (hv' : Valued v')
    (h : citation kind v ++ s = citation kind' v' ++ s') : kind = kind' ∧ v = v' ∧ s = s' := by
  have hk : kind = kind' := by
    cases kind <;> cases kind' <;> simp [citation, CitationKind.text] at h ⊢
  subst hk
  have ht : v ++ ("]]".toList ++ s) = v' ++ ("]]".toList ++ s') := by
    simpa [citation] using h
  have cut : ∀ {w t : Str}, ']' ∉ w → (w ++ ("]]".toList ++ t)).takeWhile (· ≠ ']') = w := by
    intro w t hw
    rw [List.takeWhile_append_of_pos]
    · simp
    · intro c hc
      have : c ≠ ']' := fun h => hw (h ▸ hc)
      simpa using this
  have hvv : v = v' := by rw [← cut hv.2 (t := s), ht, cut hv'.2]
  subst hvv
  exact ⟨rfl, rfl, List.append_cancel_left (List.append_cancel_left ht)⟩

theorem matchAt_placeholder {b s : Str} {m : Match} : matchAt placeholderRe b s = some m ↔
    ∃ kind v t, Valued v ∧ s = citation kind v ++ t ∧ m = citationMatch kind v := by
  constructor
  · intro h
    obtain ⟨q, hq, hs, _, hg⟩ := matchAt_some h
    obtain ⟨kind, v, hv, hr, hgr⟩ := mem_ends_placeholder.1 hq
    have ht : m.text = citation kind v := List.append_cancel_right (hs.symm.trans hr.1)
    refine ⟨kind, v, q.after, hv, hr.1, ?_⟩
    cases m
    simp_all [citationMatch]
  · intro ⟨kind, v, t, hv, hs, hm⟩
    have hp : Point.mk ((citation kind v).reverse ++ b) t [(2, v), (1, kind.text)] ∈ ends placeholderRe ⟨b, s, []⟩ :=
      mem_ends_placeholder.2 ⟨kind, v, hv, ⟨hs, rfl⟩, rfl⟩
    rw [matchAt_of_unique hp, hm]
    · simp [hs, citationMatch]
    · intro x hx
      obtain ⟨kind', v', hv', hr, hg⟩ := mem_ends_placeholder.1 hx
      obtain ⟨rfl, rfl, ht⟩ := citation_unique hv hv' (hs.symm.trans hr.1)
      exact Point.ext hr.2 ht.symm hg
    · have := List.length_pos_iff.2 (citation_ne_nil kind v)
      simp [hs]
      omega

theorem placeholder_blind : placeholderRe.Blind := by
  intro b b' s
  cases h : matchAt placeholderRe b s with
  | some m => exact (matchAt_placeholder.2 (matchAt_placeholder.1 h)).symm
  | none =>
    cases h' : matchAt placeholderRe b' s with
    | none => rfl
    | some m => rw [matchAt_placeholder.2 (matchAt_placeholder.1 h')] at h; simp at h

/-! ## Citations of a text put together from parts -/

/-- `x` ends within a citation. -/
def Unfinished (x : Str) : Prop :=
  ∃ t u kind v, t ≠ [] ∧ u ≠ [] ∧ t <:+ x ∧ Valued v ∧ t ++ u = citation kind v

def Calm (x : Str) : Prop := ¬ Unfinished x

abbrev cites (s : Str) : List Match := hits placeholderRe s

section
variable {x y w : Str}

theorem Calm.suffix (h : Calm (x ++ y)) : Calm y := by
  intro ⟨t, u, kind, v, ht, hu, hs, hv, he⟩
  exact h ⟨t, u, kind, v, ht, hu, hs.trans (List.suffix_append x y), hv, he⟩

theorem Calm.append (hx : Calm x) (hy : Calm y) : Calm (x ++ y) := by
  intro ⟨t, u, kind, v, ht, hu, ⟨r, hr⟩, hv, he⟩
  rcases List.append_eq_append_iff.1 hr with ⟨a, ha, hb⟩ | ⟨a, ha, hb⟩
  · by_cases hnil : a = []
    · subst hnil
      exact hy ⟨t, u, kind, v, ht, hu, by simp [hb], hv, he⟩
    · exact hx ⟨a, y ++ u, kind, v, hnil, by simp [hu], ⟨r, ha.symm⟩, hv, by rw [← he, hb, List.append_assoc]⟩
  · exact hy ⟨t, u, kind, v, ht, hu, ⟨a, hb.symm⟩, hv, he⟩

theorem calm_of_not_mem (h : '[' ∉ x) : Calm x := by
  intro ⟨t, u, kind, v, ht, _, hs, _, he⟩
  cases t with
  | nil => exact ht rfl
  | cons c t =>
    have hc : c = '[' := (List.cons.inj he).1
    exact h (hs.subset (by simp [hc]))

@[simp] theorem calm_nil : Calm [] := calm_of_not_mem (by simp)

/-- A citation at the start of `t ++ y` that does not run over the joint. -/
theorem matchAt_append {t : Str}
    (h : ∀ c u kind v, t ≠ [] → u ≠ [] → Valued v → t ++ u = citation kind v → y ≠ u ++ c) :
    t ≠ [] → matchAt placeholderRe [] (t ++ y) = matchAt placeholderRe [] t := by
  intro ht
  cases hm : matchAt placeholderRe [] (t ++ y) with
  | none =>
    cases hm' : matchAt placeholderRe [] t with
    | none => rfl
    | some m =>
      obtain ⟨kind, v, r, hv, hs, hmv⟩ := matchAt_placeholder.1 hm'
      rw [matchAt_placeholder.2 ⟨kind, v, r ++ y, hv, by rw [hs, List.append_assoc], hmv⟩] at hm
      simp at hm
  | some m =>
    obtain ⟨kind, v, r, hv, hs, hmv⟩ := matchAt_placeholder.1 hm
    rcases List.append_eq_append_iff.1 hs with ⟨a, ha, hb⟩ | ⟨a, ha, hb⟩
    · by_cases hnil : a = []
      · subst hnil
        exact (matchAt_placeholder.2 ⟨kind, v, [], hv, by simpa using ha.symm, hmv⟩).symm
      · exact absurd hb (h r a kind v ht hnil hv ha.symm)
    · exact (matchAt_placeholder.2 ⟨kind, v, a, hv, ha, hmv⟩).symm

theorem scan_calm (hx : Calm x) (y : Str) :
    scan placeholderRe 0 [] (x ++ y) = scan placeholderRe 0 [] x ++ scan placeholderRe 0 [] y := by
  apply scan_append placeholder_blind
  intro t ht hs
  apply matchAt_append _ ht
  intro c u kind v ht hu hv he
  exact absurd ⟨t, u, kind, v, ht, hu, hs, hv, he⟩ hx

theorem cites_append (hx : Calm x) (y : Str) : cites (x ++ y) = cites x ++ cites y := by
  unfold cites hits
  rw [scan_calm hx, List.filterMap_append]

theorem mem_cites {s : Str} {m : Match} (h : m ∈ cites s) :
    ∃ kind v a b, Valued v ∧ m = citationMatch kind v ∧ s = a ++ (citation kind v ++ b) := by
  rw [cites, ← finditer_map, List.mem_map] at h
  obtain ⟨z, hz, rfl⟩ := h
  obtain ⟨a, b, hs, _, hm⟩ := finditer_split hz
  obtain ⟨kind, v, t, hv, ht, hmv⟩ := matchAt_placeholder.1 hm
  exact ⟨kind, v, a, b, hv, hmv, by rw [hs, hmv]; rfl⟩

theorem cites_of_not_mem {c : Char} (hc : c = '[' ∨ c = ']') (h : c ∉ w) : cites w = [] := by
  apply List.eq_nil_iff_forall_not_mem.2
  intro m hm
  obtain ⟨kind, v, a, b, _, _, rfl⟩ := mem_cites hm
  apply h
  rcases hc with rfl | rfl <;> simp [citation]

theorem cites_skip (hw : '[' ∉ w) (y : Str) : cites (w ++ y) = cites y := by
  rw [cites_append (calm_of_not_mem hw), cites_of_not_mem (.inl rfl) hw]
  rfl

theorem cites_tail (hw : ']' ∉ w) (y : Str) : cites (y ++ w) = cites y := by
  have h : scan placeholderRe 0 [] (y ++ w) = scan placeholderRe 0 [] y ++ scan placeholderRe 0 [] w := by
    apply scan_append placeholder_blind
    intro t ht _
    apply matchAt_append _ ht
    intro c u kind v _ hu _ he hy
    apply hw
    have hlast : (t ++ u).getLast? = some ']' := by
      rw [he, citation, List.getLast?_append_of_ne_nil _ (by simp)]
      rfl
    rw [List.getLast?_append_of_ne_nil _ hu] at hlast
    rw [hy]
    exact List.mem_append_left _ (List.mem_of_getLast? hlast)
  have hn := cites_of_not_mem (.inr rfl) hw
  unfold cites hits at hn ⊢
  rw [h, List.filterMap_append, hn, List.append_nil]

end

/-! ## Tame texts -/

/-- A citation opened in `s` is closed before the line ends, and before the
next `<`. -/
def Tame (s : Str) : Prop :=
  ∀ x y, s = x ++ y → y = [] ∨ y.head? = some '<' ∨ x.getLast? = some '\n' → Calm x

section
variable {x y w : Str}

theorem Tame.calm (h : Tame x) : Calm x := h x [] (by simp) (.inl rfl)

theorem Tame.suffix (h : Tame (x ++ y)) : Tame y := by
  intro a b hab hb
  by_cases hnil : a = []
  · rw [hnil]
    exact calm_nil
  · apply Calm.suffix (x := x)
    apply h (x ++ a) b (by rw [hab, List.append_assoc])
    rw [List.getLast?_append_of_ne_nil _ hnil]
    exact hb

theorem Tame.take (h : Tame (x ++ y)) (hx : Calm x) : Tame x := by
  intro a b hab hb
  by_cases hnil : b = []
  · rw [hab, hnil, List.append_nil] at hx
    exact hx
  · apply h a (b ++ y) (by rw [hab, List.append_assoc])
    rw [List.head?_append_of_ne_nil _ hnil]
    simpa [hnil] using hb

theorem Tame.append (hx : Tame x) (hy : Tame y) : Tame (x ++ y) := by
  intro a b hab hb
  rcases List.append_eq_append_iff.1 hab with ⟨c, hc, hd⟩ | ⟨c, hc, hd⟩
  · by_cases hnil : c = []
    · rw [hc, hnil, List.append_nil]
      exact hx.calm
    · rw [hc] at hb ⊢
      rw [List.getLast?_append_of_ne_nil _ hnil] at hb
      exact hx.calm.append (hy c b hd hb)
  · by_cases hnil : c = []
    · rw [hnil, List.append_nil] at hc
      rw [← hc]
      exact hx.calm
    · apply hx a c hc
      rw [hd, List.head?_append_of_ne_nil _ hnil] at hb
      simpa [hnil] using hb

theorem tame_of_not_mem (h : '[' ∉ x) : Tame x := by
  intro a b hab _
  apply calm_of_not_mem
  rw [hab] at h
  simp_all

theorem Tame.insert (h : Tame (x ++ y)) (hx : Calm x) (hw : '[' ∉ w) : Tame (x ++ (w ++ y)) :=
  (h.take hx).append ((tame_of_not_mem hw).append h.suffix)

end

theorem tame_citation {kind : CitationKind} {v : Str} (hv : Valued v) (hb : '[' ∉ v) (hl : '<' ∉ v) (hn : '\n' ∉ v) :
    Tame (citation kind v) := by
  have hcalm : Calm (citation kind v) := by
    intro ⟨t, u, kind', v', ht, hu, ⟨r, hr⟩, hv', he⟩
    cases r with
    | nil =>
      simp only [List.nil_append] at hr
      have hcut : citation kind v ++ u = citation kind' v' ++ [] := by rw [← hr, he, List.append_nil]
      exact hu (citation_unique hv hv' hcut).2.2
    | cons c r =>
      have hbody : '[' ∉ kind.text ++ ":".toList ++ v ++ "]]".toList := by
        cases kind <;> simp [CitationKind.text, hb]
      have hrt : r ++ t = '[' :: (kind.text ++ ":".toList ++ v ++ "]]".toList) := (List.cons.inj hr).2
      cases t with
      | nil => exact ht rfl
      | cons d t =>
        cases r with
        | nil =>
          have hsnd : kind.text ++ ":".toList ++ v ++ "]]".toList ++ u = '[' :: (kind'.text ++ ":".toList ++ v' ++ "]]".toList) := by
            rw [← (List.cons.inj hrt).2]
            exact (List.cons.inj he).2
          cases kind <;> simp [CitationKind.text] at hsnd
        | cons e r =>
          have hd : d = '[' := (List.cons.inj he).1
          apply hbody
          rw [← (List.cons.inj hrt).2, hd]
          simp
  intro x y hxy hy
  rcases hy with rfl | hy | hy
  · rw [← List.append_nil x, ← hxy]
    exact hcalm
  · have : '<' ∈ citation kind v := by
      rw [hxy]
      exact List.mem_append_right _ (List.mem_of_head? hy)
    cases kind <;> simp [citation, CitationKind.text, hl] at this
  · have : '\n' ∈ citation kind v := by
      rw [hxy]
      exact List.mem_append_left _ (List.mem_of_getLast? hy)
    cases kind <;> simp [citation, CitationKind.text, hn] at this

/-! ## Replacing citations -/

section
variable {keep : Match → Bool} {g f : Match → Str} (hf : ∀ m, f m = if keep m then m.text else g m)
include hf

/-- Citations replaced by text that opens none, where none is open before
them: the others are what is left. `x` is the text since the last replaced
one, and `xs` its tokens. -/
theorem sub_step (b s : Str) :
    ∀ x xs, scan placeholderRe 0 [] (x ++ s) = xs ++ scan placeholderRe 0 b s →
      (∀ m, .hit m ∈ xs → keep m = true) →
      (∀ j ∈ positions 0 (scan placeholderRe 0 b s), keep j.2 = false → '[' ∉ g j.2 ∧ Calm (x ++ s.take j.1)) →
      cites (x ++ (scan placeholderRe 0 b s).flatMap (Token.subst f)) = (cites (x ++ s)).filter keep ∧
      (Tame (x ++ s) → Tame (x ++ (scan placeholderRe 0 b s).flatMap (Token.subst f))) := by
  apply scan_induct (r := placeholderRe) (motive := fun _ s ts => ∀ x xs, scan placeholderRe 0 [] (x ++ s) = xs ++ ts →
    (∀ m, .hit m ∈ xs → keep m = true) →
    (∀ j ∈ positions 0 ts, keep j.2 = false → '[' ∉ g j.2 ∧ Calm (x ++ s.take j.1)) →
    cites (x ++ ts.flatMap (Token.subst f)) = (cites (x ++ s)).filter keep ∧
    (Tame (x ++ s) → Tame (x ++ ts.flatMap (Token.subst f))))
  · intro b x xs hxs hk _
    have hall : ∀ m ∈ cites x, keep m = true := by
      intro m hm
      simp only [List.append_nil] at hxs
      simp only [cites, hits, hxs, List.mem_filterMap] at hm
      obtain ⟨t, ht, hm⟩ := hm
      cases t with
      | plain c => simp [Token.hit?] at hm
      | hit m' =>
        obtain rfl : m' = m := by simpa [Token.hit?] using hm
        exact hk m' ht
    simp [List.filter_eq_self.2 hall]
  · intro b c s _ ih x xs hxs hk hj
    have := ih (x ++ [c]) (xs ++ [.plain c]) (by simpa using hxs) (by simpa using hk) (by
      intro j hmem hkeep
      have hpos := hj _ (mem_positions_plain c hmem) hkeep
      simpa [Nat.add_comm 1, List.take_succ_cons] using hpos)
    simpa [Token.subst] using this
  · intro b m t hm ih x xs hxs hk hj
    by_cases hkm : keep m = true
    · have := ih (x ++ m.text) (xs ++ [.hit m]) (by simpa using hxs) (by
        intro m' hm'
        rcases List.mem_append.1 hm' with h | h
        · exact hk m' h
        · obtain rfl : m' = m := by simpa using h
          exact hkm) (by
        intro j hmem hkeep
        have hpos := hj _ (mem_positions_hit m hmem) hkeep
        rw [List.take_append, List.take_of_length_le (by simp)] at hpos
        simpa using hpos)
      simpa [Token.subst, hf, hkm] using this
    · -- a new stretch starts after the replaced citation
      have hkm' : keep m = false := by simpa using hkm
      obtain ⟨hg, hx⟩ := hj (0, m) (by simp [positions]) hkm'
      have hx : Calm x := by simpa using hx
      rw [placeholder_blind b []] at hm
      have hscan : scan placeholderRe 0 [] (m.text ++ t) =
          .hit m :: scan placeholderRe 0 (m.text.reverse ++ b) t := by
        rw [scan_hit hm rfl, scan_blind placeholder_blind (m.text.reverse ++ [])]
      have hxs' : scan placeholderRe 0 [] x = xs := by
        rw [scan_calm hx, hscan] at hxs
        exact List.append_cancel_right hxs
      obtain ⟨ih₁, ih₂⟩ := ih [] [] (by
        rw [List.nil_append, List.nil_append]
        exact scan_blind placeholder_blind ..) (by simp) (by
        intro j hmem hkeep
        have hpos := hj _ (mem_positions_hit m hmem) hkeep
        refine ⟨hpos.1, ?_⟩
        have := hpos.2
        rw [List.take_append, List.take_of_length_le (by simp), ← List.append_assoc] at this
        simpa using this.suffix)
      have hall : (cites x).filter keep = cites x := by
        apply List.filter_eq_self.2
        intro m' hm'
        simp only [cites, hits, hxs', List.mem_filterMap] at hm'
        obtain ⟨u, hu, hm'⟩ := hm'
        cases u with
        | plain c => simp [Token.hit?] at hm'
        | hit m'' =>
          obtain rfl : m'' = m' := by simpa [Token.hit?] using hm'
          exact hk m'' hu
      have hcites : cites (m.text ++ t) = m :: cites t := by
        simp only [cites, hits, hscan]
        rw [scan_blind placeholder_blind _ []]
        rfl
      simp only [List.flatMap_cons, Token.subst, hf, hkm', Bool.false_eq_true, if_false]
      constructor
      · rw [cites_append hx, cites_skip hg, cites_append hx, hcites, List.filter_append, hall,
          List.filter_cons_of_neg hkm]
        simpa using ih₁
      · intro ht
        exact (ht.take hx).append ((tame_of_not_mem hg).append (ih₂ ht.suffix.suffix))

theorem cites_sub (s : Str)
    (h : ∀ j ∈ finditer placeholderRe s, keep j.2 = false → '[' ∉ g j.2 ∧ Calm (s.take j.1)) :
    cites (sub placeholderRe f s) = (cites s).filter keep ∧ (Tame s → Tame (sub placeholderRe f s)) :=
  sub_step hf [] s [] [] rfl (by simp) h

end

/-! ## The gate -/

/-- What `validate_citations` lets pass. -/
def Stands (ledger : Ledger) (mode : DocPathMatch) (m : Match) : Bool :=
  valueOf m = [] ∨ verified ledger mode (kindOf m) (valueOf m)

section
variable {ledger ledger' : Ledger} {mode : DocPathMatch} {s : Str}

theorem mem_validateCitations {c : InvalidCitation} : c ∈ validateCitations s ledger mode ↔
    ∃ j ∈ finditer placeholderRe s, Stands ledger mode j.2 = false ∧ c = ⟨kindOf j.2, valueOf j.2, j.1⟩ := by
  simp only [validateCitations, List.mem_filterMap, Stands]
  constructor
  · intro ⟨j, hj, hc⟩
    refine ⟨j, hj, ?_⟩
    by_cases hv : valueOf j.2 = []
    · simp [hv] at hc
    · by_cases hl : verified ledger mode (kindOf j.2) (valueOf j.2) = true
      · simp [hv, hl] at hc
      · simp [hv, hl] at hc ⊢
        exact hc.symm
  · intro ⟨j, hj, hv, hc⟩
    refine ⟨j, hj, ?_⟩
    simp only [decide_eq_false_iff_not, not_or] at hv
    simp [hv.1, hv.2, hc]

theorem validateCitations_nil : validateCitations s ledger mode = [] ↔ ∀ m ∈ cites s, Stands ledger mode m = true := by
  constructor
  · intro h m hm
    rw [cites, ← finditer_map, List.mem_map] at hm
    obtain ⟨j, hj, rfl⟩ := hm
    by_contra hs
    have : (⟨kindOf j.2, valueOf j.2, j.1⟩ : InvalidCitation) ∈ validateCitations s ledger mode :=
      mem_validateCitations.2 ⟨j, hj, by simpa using hs, rfl⟩
    simp [h] at this
  · intro h
    apply List.eq_nil_iff_forall_not_mem.2
    intro c hc
    obtain ⟨j, hj, hs, _⟩ := mem_validateCitations.1 hc
    have := h j.2 (by
      rw [cites, ← finditer_map]
      exact List.mem_map_of_mem hj)
    simp [this] at hs

theorem texts_subset (h : ledger.records ⊆ ledger'.records) (src : EvidenceSource) (f : EvidenceRecord → Option Str) :
    ledger.texts src f ⊆ ledger'.texts src f := by
  intro t ht
  obtain ⟨r, hr, hrt⟩ := List.mem_filterMap.1 ht
  exact List.mem_filterMap.2 ⟨r, h hr, hrt⟩

theorem stands_mono (h : ledger.records ⊆ ledger'.records) {m : Match} (hm : Stands ledger mode m = true) :
    Stands ledger' mode m = true := by
  simp only [Stands, decide_eq_true_eq] at hm ⊢
  apply hm.imp_right
  intro hv
  cases hk : kindOf m with
  | node =>
    simp only [verified, hk, decide_eq_true_eq] at hv ⊢
    exact texts_subset h _ _ hv
  | doc =>
    simp only [verified, hk, docPathVerified] at hv ⊢
    split at hv
    · simp at hv
    · rename_i hne
      rw [if_neg hne]
      cases mode <;>
      · simp only [decide_eq_true_eq] at hv ⊢
        exact texts_subset h _ _ hv

theorem record_subset (l : Ledger) (e : EvidenceRecord) : l.records ⊆ (l.record e).records := by
  unfold Ledger.record
  split
  · exact List.Subset.refl _
  · exact List.subset_append_left _ _

theorem recordAll_subset (es : List EvidenceRecord) (l : Ledger) : l.records ⊆ (l.recordAll es).records := by
  induction es generalizing l with
  | nil => exact List.Subset.refl _
  | cons e es ih => exact List.Subset.trans (record_subset l e) (ih (l.record e))

/-- The rejected citations can be unwrapped: none holds a bracket, and none
stands within a citation that is still open. -/
def Unwraps (s : Str) (invalid : List InvalidCitation) : Prop :=
  ∀ c ∈ invalid, '[' ∉ c.value ∧ Calm (s.take c.position)

theorem stripInvalidCitations_cites (h : Unwraps s (validateCitations s ledger mode)) :
    let t := stripInvalidCitations s (validateCitations s ledger mode)
    cites t = (cites s).filter (Stands ledger mode) ∧ (Tame s → Tame t) := by
  simp only [stripInvalidCitations]
  split
  · rename_i hnil
    exact ⟨(List.filter_eq_self.2 (validateCitations_nil.1 hnil)).symm, id⟩
  · generalize hkeys : (validateCitations s ledger mode).map (fun c => (c.kind, c.value)) = keys
    have key : ∀ m ∈ cites s, (kindOf m, valueOf m) ∈ keys ↔ Stands ledger mode m = false := by
      intro m hm
      simp only [← hkeys, List.mem_map, Prod.mk.injEq]
      constructor
      · intro ⟨c, hc, hk, hv⟩
        obtain ⟨j, _, hs, rfl⟩ := mem_validateCitations.1 hc
        simpa [Stands, ← hk, ← hv] using hs
      · intro hs
        rw [cites, ← finditer_map, List.mem_map] at hm
        obtain ⟨j, hj, rfl⟩ := hm
        exact ⟨_, mem_validateCitations.2 ⟨j, hj, hs, rfl⟩, rfl, rfl⟩
    have hf : ∀ m : Match, (if (kindOf m, valueOf m) ∈ keys then plainText (kindOf m) (valueOf m) else m.text) =
        if decide ((kindOf m, valueOf m) ∉ keys) = true then m.text else plainText (kindOf m) (valueOf m) := by
      intro m
      by_cases hm : (kindOf m, valueOf m) ∈ keys <;> simp [hm]
    obtain ⟨h₁, h₂⟩ := cites_sub hf s (by
      intro j hj hkeep
      have hm : j.2 ∈ cites s := by
        rw [cites, ← finditer_map]
        exact List.mem_map_of_mem hj
      have hs := (key _ hm).1 (by simpa using hkeep)
      obtain ⟨hb, hc⟩ := h _ (mem_validateCitations.2 ⟨j, hj, hs, rfl⟩)
      refine ⟨?_, hc⟩
      simp only [plainText]
      split
      · split <;> simp_all
      · exact hb)
    refine ⟨?_, h₂⟩
    rw [h₁]
    apply List.filter_congr
    intro m hm
    have := key m hm
    cases hst : Stands ledger mode m <;> simp_all

end

end Cograph.Wiki
