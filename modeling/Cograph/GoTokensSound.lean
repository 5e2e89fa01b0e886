import Cograph.GoBuild

/-!
# How a build expression is cut into tokens

A text is cut into tokens with white space before each of them and none at the
end, an identifier reaching as far as it can. The texts that are cut so are the
ones the tokenizer takes, and each text in one way.
-/

namespace Cograph.GoVariants

open Regex

def Ident (t : Str) : Prop := t ≠ [] ∧ ∀ c ∈ t, isWord c = true

def Blank (w : Str) : Prop := ∀ c ∈ w, Str.isSpace c = true

/-- A token at the front of a text, with `r` behind it. -/
def Token (t r : Str) : Prop := t ∈ punctuation ∨ Ident t ∧ ∀ c, r.head? = some c → isWord c = false

/-- The text is the tokens with white space around them. -/
def Spelled : List Str → Str → Prop
  | [], s => Blank s
  | t :: ts, s => ∃ w r, s = w ++ (t ++ r) ∧ Blank w ∧ Spelled ts r

def Cut : List Str → Str → Prop
  | [], s => s = []
  | t :: ts, s => ∃ w r, s = w ++ (t ++ r) ∧ Blank w ∧ Token t r ∧ Cut ts r

/-! ## Characters -/

theorem word_ascii {c : Char} (h : isWord c = true) : 33 ≤ c.toNat ∧ c.toNat < 128 := by
  have hnat : c.toNat = c.val.toNat := rfl
  simp only [isWord, Char.isAlphanum, Char.isAlpha, Char.isUpper, Char.isLower, Char.isDigit, Bool.or_eq_true,
    Bool.and_eq_true, decide_eq_true_eq, UInt32.le_iff_toNat_le, ge_iff_le] at h
  have h65 : 'A'.val.toNat = 65 := rfl
  have h90 : 'Z'.val.toNat = 90 := rfl
  have h97 : 'a'.val.toNat = 97 := rfl
  have h122 : 'z'.val.toNat = 122 := rfl
  have h48 : '0'.val.toNat = 48 := rfl
  have h57 : '9'.val.toNat = 57 := rfl
  rcases h with h | rfl | rfl
  · omega
  · decide
  · decide

theorem space_not_word {c : Char} (h : Str.isSpace c = true) : isWord c = false := by
  by_contra hw
  have := word_ascii (Bool.not_eq_false _ ▸ hw : isWord c = true)
  simp only [Str.isSpace, decide_eq_true_eq] at h
  omega

theorem punctuation_head {t : Str} (h : t ∈ punctuation) : ∃ c u, t = c :: u ∧ isWord c = false := by
  simp only [punctuation, List.map_cons, List.map_nil, List.mem_cons, List.not_mem_nil, or_false] at h
  rcases h with rfl | rfl | rfl | rfl | rfl <;> exact ⟨_, _, rfl, by decide⟩

theorem token_solid {t r : Str} (h : Token t r) : t ≠ [] ∧ ∀ c ∈ t, Str.isSpace c = false := by
  rcases h with h | ⟨⟨hne, hw⟩, -⟩
  · simp only [punctuation, List.map_cons, List.map_nil, List.mem_cons, List.not_mem_nil, or_false] at h
    rcases h with rfl | rfl | rfl | rfl | rfl <;> simp [Str.isSpace]
  · refine ⟨hne, ?_⟩
    intro c hc
    by_contra hs
    have := space_not_word (Bool.not_eq_false _ ▸ hs : Str.isSpace c = true)
    rw [hw c hc] at this
    cases this

/-! ## The pattern -/

def tokenRe : Regex :=
  .alt (.lit "&&".toList) <| .alt (.lit "||".toList) <| .alt (.lit "!".toList) <| .alt (.lit "(".toList) <|
    .alt (.lit ")".toList) (.plus (.sat isWord))

theorem first_token {t r : Str} (h : Token t r) {p : Point} (hp : p.after = t ++ r) :
    first tokenRe p = some ⟨t.reverse ++ p.before, r, p.groups⟩ := by
  rcases h with h | ⟨⟨hne, hw⟩, hr⟩
  · simp only [punctuation, List.map_cons, List.map_nil, List.mem_cons, List.not_mem_nil, or_false] at h
    have hno {v : Str} (hv : ¬v <+: t ++ r) : first (lit v) p = none := first_lit_none (by rw [hp]; exact hv)
    simp only [tokenRe, first_alt]
    rcases h with rfl | rfl | rfl | rfl | rfl
    · rw [first_lit hp]
      rfl
    · rw [hno (by simp), first_lit hp]
      rfl
    · rw [hno (by simp), hno (by simp), first_lit hp]
      rfl
    · rw [hno (by simp), hno (by simp), hno (by simp), first_lit hp]
      rfl
    · rw [hno (by simp), hno (by simp), hno (by simp), hno (by simp), first_lit hp]
      rfl
  · have hlit {v : Str} (hv : v ∈ punctuation) : first (lit v) p = none := by
      obtain ⟨d, v', rfl, hd⟩ := punctuation_head hv
      apply first_lit_none
      rw [hp]
      intro hpre
      cases t with
      | nil => exact hne rfl
      | cons c u =>
        have : d = c := by simpa using (List.cons_prefix_cons.1 hpre).1
        rw [this, hw c (by simp)] at hd
        cases hd
    simp only [tokenRe, first_alt]
    rw [hlit (v := "&&".toList) (by decide), hlit (v := "||".toList) (by decide), hlit (v := "!".toList) (by decide),
      hlit (v := "(".toList) (by decide), hlit (v := ")".toList) (by decide)]
    exact first_plus hne hp hw hr

theorem match_token {b w t r : Str} (hw : Blank w) (h : Token t r) :
    matchAt tokenPattern b (w ++ t ++ r) = some ⟨w ++ t, [(1, t)]⟩ := by
  obtain ⟨hne, hsolid⟩ := token_solid h
  obtain ⟨c, u, ht⟩ := List.exists_cons_of_ne_nil hne
  have hspace : first (.star (.sat Str.isSpace)) ⟨b, w ++ t ++ r, []⟩ = some ⟨w.reverse ++ b, t ++ r, []⟩ := by
    refine first_star (List.append_assoc ..) hw ?_
    intro d hd
    rw [ht] at hd
    obtain rfl : c = d := by simpa using hd
    exact hsolid c (by simp [ht])
  have htok : first (.group 1 tokenRe) ⟨w.reverse ++ b, t ++ r, []⟩ =
      some ⟨t.reverse ++ (w.reverse ++ b), r, [(1, t)]⟩ := by
    rw [first_group, first_token h rfl]
    simp [Point.upto]
  exact matchAt_first (first_seq hspace htok) rfl (by simp [ht])

theorem match_cases (s : Str) : (∃ w t r, s = w ++ (t ++ r) ∧ Blank w ∧ Token t r) ∨
    ∀ b, matchAt tokenPattern b s = none := by
  by_cases h : ∃ w t r, s = w ++ (t ++ r) ∧ Blank w ∧ Token t r
  · exact .inl h
  · right
    intro b
    apply matchAt_none
    intro q hq
    obtain ⟨m, hm, hq⟩ := mem_ends_seq.1 hq
    obtain ⟨w, hw, hblank⟩ := mem_ends_star_sat.1 hm
    obtain ⟨x, hx, -⟩ := mem_ends_group.1 hq
    have hs : s = w ++ m.after := hw.1.1
    have hlit {v : Str} (hv : v ∈ punctuation) : x ∉ ends (lit v) m := by
      intro hmem
      have hr : m.after = v ++ x.after := (mem_ends_lit.1 hmem).1.1
      exact h ⟨w, v, x.after, by rw [hs, hr], hblank, .inl hv⟩
    simp only [mem_ends_alt, hlit (show "&&".toList ∈ punctuation by decide),
      hlit (show "||".toList ∈ punctuation by decide), hlit (show "!".toList ∈ punctuation by decide),
      hlit (show "(".toList ∈ punctuation by decide), hlit (show ")".toList ∈ punctuation by decide), false_or] at hx
    obtain ⟨v, hne, hv, hword⟩ := mem_ends_plus_sat.1 hx
    have hv' : m.after = v ++ x.after := hv.1.1
    -- the identifier is the longest run
    refine h ⟨w, m.after.takeWhile isWord, m.after.dropWhile isWord, ?_, hblank, .inr ⟨⟨?_, ?_⟩, ?_⟩⟩
    · rw [List.takeWhile_append_dropWhile, hs]
    · cases v with
      | nil => exact absurd rfl hne
      | cons c v => simp [hv', hword c (by simp)]
    · intro c hc
      exact List.mem_takeWhile_imp hc
    · intro c hc
      have := List.head?_dropWhile_not isWord m.after
      rw [hc] at this
      simpa using this

/-! ## The loop -/

theorem tokenizeAt_skip (x : Str) (b s : Str) : tokenizeAt x.length b (x ++ s) = tokenizeAt 0 (x.reverse ++ b) s := by
  induction x generalizing b with
  | nil => rfl
  | cons c x ih =>
    change tokenizeAt x.length (c :: b) (x ++ s) = _
    rw [ih]
    simp

theorem tokenizeAt_token {w t r : Str} (hw : Blank w) (h : Token t r) (b : Str) :
    tokenizeAt 0 b (w ++ (t ++ r)) = (tokenizeAt 0 ((w ++ t).reverse ++ b) r).map (t :: ·) := by
  have hmatch := match_token (b := b) hw h
  obtain ⟨c, v, hv⟩ := List.exists_cons_of_ne_nil (show w ++ t ≠ [] by simp [(token_solid h).1])
  rw [← List.append_assoc]
  rw [hv] at hmatch ⊢
  rw [List.cons_append] at hmatch ⊢
  rw [tokenizeAt, hmatch]
  have hskip := tokenizeAt_skip v (c :: b) r
  simp only [List.length_cons, Nat.add_sub_cancel, hskip, List.reverse_cons, List.append_assoc, List.singleton_append]
  cases tokenizeAt 0 (v.reverse ++ c :: b) r <;> rfl

theorem tokenizeAt_error (n : Nat) (b s : Str) {e : Raised} (h : tokenizeAt n b s = .error e) :
    ∃ m, e = .unsupported m := by
  fun_induction tokenizeAt n b s with
  | case1 => cases h
  | case2 n b c s ih => exact ih h
  | case3 b c s hm =>
    cases h
    exact ⟨_, rfl⟩
  | case4 b c s m hm ih =>
    cases hr : tokenizeAt (m.text.length - 1) (c :: b) s with
    | error e' =>
      rw [hr] at h
      cases h
      exact ih hr
    | ok ts =>
      rw [hr] at h
      cases h

theorem cut_tokenizes {ts : List Str} : ∀ {s : Str} (b : Str), Cut ts s → tokenizeAt 0 b s = .ok ts := by
  induction ts with
  | nil =>
    intro s b h
    obtain rfl : s = [] := h
    rfl
  | cons t ts ih =>
    intro s b h
    obtain ⟨w, r, rfl, hw, ht, hr⟩ := h
    rw [tokenizeAt_token hw ht, ih _ hr]
    rfl

theorem tokenizes_cut {ts : List Str} : ∀ {s : Str} (b : Str), tokenizeAt 0 b s = .ok ts → Cut ts s := by
  induction ts with
  | nil =>
    intro s b h
    rcases match_cases s with ⟨w, t, r, rfl, hw, ht⟩ | hnone
    · rw [tokenizeAt_token hw ht] at h
      cases hr : tokenizeAt 0 ((w ++ t).reverse ++ b) r <;> rw [hr] at h <;> cases h
    · cases s with
      | nil => rfl
      | cons c s =>
        rw [tokenizeAt, hnone] at h
        cases h
  | cons t ts ih =>
    intro s b h
    rcases match_cases s with ⟨w, u, r, rfl, hw, hu⟩ | hnone
    · rw [tokenizeAt_token hw hu] at h
      cases hr : tokenizeAt 0 ((w ++ u).reverse ++ b) r with
      | error e =>
        rw [hr] at h
        cases h
      | ok us =>
        rw [hr] at h
        cases h
        exact ⟨w, r, rfl, hw, hu, ih _ hr⟩
    · cases s with
      | nil => cases h
      | cons c s =>
        rw [tokenizeAt, hnone] at h
        cases h

theorem tokenize_ok {ts : List Str} {s : Str} : tokenize s = .ok ts ↔ Cut ts s :=
  ⟨tokenizes_cut [], cut_tokenizes []⟩

/-! ## One way to cut a text -/

/-- No two identifiers side by side, and nothing but tokens. -/
def Clear (ts : List Str) : Prop := (∀ t ∈ ts, t ∈ punctuation ∨ Ident t) ∧ ts.IsChain fun t u => ¬(Ident t ∧ Ident u)

def EndsBlank (s : Str) : Prop := ∃ c, s.getLast? = some c ∧ Str.isSpace c = true

theorem cut_spelled {ts : List Str} : ∀ {s : Str}, Cut ts s → Spelled ts s := by
  induction ts with
  | nil =>
    intro s h
    obtain rfl : s = [] := h
    exact fun c hc => absurd hc List.not_mem_nil
  | cons t ts ih =>
    intro s h
    obtain ⟨w, r, hs, hw, -, hr⟩ := h
    exact ⟨w, r, hs, hw, ih hr⟩

theorem cut_not_blank {ts : List Str} : ∀ {s : Str}, Cut ts s → ¬EndsBlank s := by
  induction ts with
  | nil =>
    intro s h hb
    obtain rfl : s = [] := h
    obtain ⟨c, hc, -⟩ := hb
    cases hc
  | cons t ts ih =>
    intro s h hb
    obtain ⟨w, r, rfl, -, ht, hr⟩ := h
    obtain ⟨c, hc, hs⟩ := hb
    by_cases hnil : r = []
    · -- the last character is the token's own
      subst hnil
      obtain ⟨hne, hsolid⟩ := token_solid ht
      rw [List.append_nil, List.getLast?_append_of_ne_nil _ hne] at hc
      rw [hsolid c (List.mem_of_getLast? hc)] at hs
      cases hs
    · refine ih hr ⟨c, ?_, hs⟩
      rwa [List.getLast?_append_of_ne_nil _ (by simp [hnil]), List.getLast?_append_of_ne_nil _ hnil] at hc

theorem spelled_cut {ts : List Str} : ∀ {s : Str}, Clear ts → Spelled ts s → ¬EndsBlank s → Cut ts s := by
  induction ts with
  | nil =>
    intro s hts h hb
    by_contra hne
    exact hb ⟨s.getLast hne, List.getLast?_eq_getLast_of_ne_nil hne, h _ (List.getLast_mem hne)⟩
  | cons t ts ih =>
    intro s hts h hb
    obtain ⟨w, r, rfl, hw, hr⟩ := h
    have hclear : Clear ts := ⟨fun u hu => hts.1 u (by simp [hu]), hts.2.tail⟩
    have hblank : ¬EndsBlank r := by
      intro ⟨c, hc, hs⟩
      have hne : r ≠ [] := by
        rintro rfl
        cases hc
      refine hb ⟨c, ?_, hs⟩
      rwa [List.getLast?_append_of_ne_nil _ (by simp [hne]), List.getLast?_append_of_ne_nil _ hne]
    refine ⟨w, r, rfl, hw, ?_, ih hclear hr hblank⟩
    rcases hts.1 t (by simp) with ht | ht
    · exact .inl ht
    refine .inr ⟨ht, ?_⟩
    intro c hc
    cases ts with
    | nil =>
      exact space_not_word (hr c (List.mem_of_head? hc))
    | cons u us =>
      obtain ⟨w', r', rfl, hw', -⟩ := hr
      cases w' with
      | cons d w' =>
        obtain rfl : d = c := by simpa using hc
        exact space_not_word (hw' d (by simp))
      | nil =>
        have hnot : ¬Ident u := fun hu => (List.isChain_cons_cons.1 hts.2).1 ⟨ht, hu⟩
        rcases hts.1 u (by simp) with hu | hu
        · obtain ⟨d, v, rfl, hd⟩ := punctuation_head hu
          obtain rfl : d = c := by simpa using hc
          exact hd
        · exact absurd hu hnot

end Cograph.GoVariants
