import Cograph.AutoLink

/-!
# The patterns of the auto-linker

What the patterns of `AutoLink` match, said without them: the fences,
placeholders and links a page is cut at, the backticked spans, and the dotted
names with what may stand around one.
-/

namespace Cograph.Wiki

open Regex

section
variable {p q : Point} {v w : Str}

theorem reaches_append : Reaches p (v ++ w) q ↔ ∃ m, Reaches p v m ∧ Reaches m w q := by
  constructor
  · exact Reaches.split
  · intro h
    obtain ⟨m, hv, hw⟩ := h
    exact hv.trans hw

theorem all_ne {d : Char} : (∀ c ∈ w, decide (c ≠ d) = true) ↔ d ∉ w := by
  simp only [decide_eq_true_eq]
  constructor
  · exact fun h hmem => h _ hmem rfl
  · exact fun h c hc he => h (he ▸ hc)

theorem all_neither {d e : Char} : (∀ c ∈ w, decide (c ≠ d ∧ c ≠ e) = true) ↔ d ∉ w ∧ e ∉ w := by
  simp only [decide_eq_true_eq]
  constructor
  · exact fun h => ⟨fun hmem => (h _ hmem).1 rfl, fun hmem => (h _ hmem).2 rfl⟩
  · exact fun h c hc => ⟨fun he => h.1 (he ▸ hc), fun he => h.2 (he ▸ hc)⟩

end

/-! ## Where a page is cut -/

/-- A block fenced by three backticks, its info string plain. -/
def FenceText (x : Str) : Prop := ∃ info body, (∀ c ∈ info, infoChar c = true) ∧
  x = "```".toList ++ (info ++ ("\n".toList ++ (body ++ "\n```".toList)))

/-- `[[node:…]]` or `[[doc:…]]`. -/
def CitationText (x : Str) : Prop := ∃ kind value, (kind = "node".toList ∨ kind = "doc".toList) ∧ value ≠ [] ∧
  ']' ∉ value ∧ x = "[[".toList ++ (kind ++ (":".toList ++ (value ++ "]]".toList)))

/-- `[label](url)`. -/
def LinkText (x : Str) : Prop := ∃ label url, ']' ∉ label ∧ url ≠ [] ∧ ')' ∉ url ∧ '\n' ∉ url ∧
  x = "[".toList ++ (label ++ ("](".toList ++ (url ++ ")".toList)))

/-- What no link is put into. -/
def Guarded (x : Str) : Prop := FenceText x ∨ CitationText x ∨ LinkText x

section
variable {b s t w x : Str} {p q : Point} {m : Match}

theorem mem_fence : q ∈ fenceRe.ends p ↔ ∃ x, FenceText x ∧ Reaches p x q := by
  simp only [fenceRe, Pattern.mem_seq, Pattern.mem_lit, Pattern.mem_star, Pattern.mem_lazyStar]
  constructor
  · intro h
    obtain ⟨p₁, h₁, p₂, ⟨info, h₂, hinfo⟩, p₃, h₃, p₄, ⟨body, h₄, -⟩, h₅⟩ := h
    exact ⟨_, ⟨info, body, hinfo, rfl⟩, h₁.trans (h₂.trans (h₃.trans (h₄.trans h₅)))⟩
  · intro h
    obtain ⟨x, ⟨info, body, hinfo, rfl⟩, h⟩ := h
    simp only [reaches_append] at h
    obtain ⟨p₁, h₁, p₂, h₂, p₃, h₃, p₄, h₄, h₅⟩ := h
    exact ⟨p₁, h₁, p₂, ⟨info, h₂, hinfo⟩, p₃, h₃, p₄, ⟨body, h₄, by simp⟩, h₅⟩

theorem mem_citation : q ∈ citationRe.ends p ↔ ∃ x, CitationText x ∧ Reaches p x q := by
  simp only [citationRe, Pattern.mem_seq, Pattern.mem_lit, Pattern.mem_alt, Pattern.mem_plus, all_ne]
  constructor
  · intro h
    obtain ⟨p₁, h₁, p₂, h₂, p₃, h₃, p₄, ⟨value, hne, h₄, hbar⟩, h₅⟩ := h
    rcases h₂ with h₂ | h₂
    · exact ⟨_, ⟨_, value, .inl rfl, hne, hbar, rfl⟩, h₁.trans (h₂.trans (h₃.trans (h₄.trans h₅)))⟩
    · exact ⟨_, ⟨_, value, .inr rfl, hne, hbar, rfl⟩, h₁.trans (h₂.trans (h₃.trans (h₄.trans h₅)))⟩
  · intro h
    obtain ⟨x, ⟨kind, value, hkind, hne, hbar, rfl⟩, h⟩ := h
    simp only [reaches_append] at h
    obtain ⟨p₁, h₁, p₂, h₂, p₃, h₃, p₄, h₄, h₅⟩ := h
    refine ⟨p₁, h₁, p₂, ?_, p₃, h₃, p₄, ⟨value, hne, h₄, hbar⟩, h₅⟩
    rcases hkind with rfl | rfl
    · exact .inl h₂
    · exact .inr h₂

theorem mem_markdownLink : q ∈ markdownLinkRe.ends p ↔ ∃ x, LinkText x ∧ Reaches p x q := by
  simp only [markdownLinkRe, Pattern.mem_seq, Pattern.mem_lit, Pattern.mem_lazyStar, Pattern.mem_plus, all_ne,
    all_neither]
  constructor
  · intro h
    obtain ⟨p₁, h₁, p₂, ⟨label, h₂, hl⟩, p₃, h₃, p₄, ⟨url, hne, h₄, hu, hline⟩, h₅⟩ := h
    exact ⟨_, ⟨label, url, hl, hne, hu, hline, rfl⟩, h₁.trans (h₂.trans (h₃.trans (h₄.trans h₅)))⟩
  · intro h
    obtain ⟨x, ⟨label, url, hl, hne, hu, hline, rfl⟩, h⟩ := h
    simp only [reaches_append] at h
    obtain ⟨p₁, h₁, p₂, h₂, p₃, h₃, p₄, h₄, h₅⟩ := h
    exact ⟨p₁, h₁, p₂, ⟨label, h₂, hl⟩, p₃, h₃, p₄, ⟨url, hne, h₄, hu, hline⟩, h₅⟩

theorem mem_skip : q ∈ autoLinkSkipRe.ends p ↔ ∃ x, Guarded x ∧ Reaches p x q := by
  simp only [autoLinkSkipRe, Pattern.mem_alt, mem_fence, mem_citation, mem_markdownLink, Guarded, or_and_right,
    exists_or]

theorem Guarded.ne_nil (h : Guarded x) : x ≠ [] := by
  rcases h with ⟨info, body, -, rfl⟩ | ⟨kind, value, -, -, -, rfl⟩ | ⟨label, url, -, -, -, -, rfl⟩
  all_goals simp

theorem skip_some (h : autoLinkSkipRe.matchAt b s = some m) : Guarded m.text := by
  obtain ⟨q, hq, hr, -, -⟩ := Pattern.matchAt_some h
  obtain ⟨x, hx, hq⟩ := mem_skip.1 hq
  have hsame : m.text = x := List.append_cancel_right (hr.1.symm.trans hq.1.1)
  rwa [hsame]

theorem skip_isSome (hx : Guarded x) : autoLinkSkipRe.matchAt b (x ++ t) ≠ none := by
  refine Pattern.matchAt_isSome ?_ ?_
  · intro q hq
    obtain ⟨y, hy, hr⟩ := mem_skip.1 hq
    have hpos := List.length_pos_iff.2 hy.ne_nil
    have htext : x ++ t = y ++ q.after := hr.1.1
    rw [htext, List.length_append]
    omega
  · obtain ⟨q, hq, -⟩ := reaches_of_after (p := ⟨b, x ++ t, []⟩) (w := x) rfl
    exact ⟨q, mem_skip.2 ⟨x, hx, hq⟩⟩

end

/-! ## Spans -/

/-- What a backticked span holds: one line without a backtick. -/
def SpanText (raw : Str) : Prop := raw ≠ [] ∧ '`' ∉ raw ∧ '\n' ∉ raw

section
variable {b s t raw : Str} {p q : Point} {m : Match}

theorem mem_backtick : q ∈ backtickRe.ends p ↔
    ∃ raw, SpanText raw ∧ Reads p ('`' :: (raw ++ ['`'])) q ∧ q.groups = (1, raw) :: p.groups := by
  simp only [backtickRe, Pattern.lazyPlus, Pattern.mem_seq, Pattern.mem_lit, Pattern.mem_group, Pattern.mem_sat,
    Pattern.mem_lazyStar]
  constructor
  · intro h
    obtain ⟨p₁, h₁, p₂, ⟨m, ⟨m₁, ⟨c, hc, hok⟩, w, hw, hall⟩, rfl⟩, h₃⟩ := h
    have hraw : Reads p₁ (c :: w) m := hc.1.trans hw.1
    have hspan : ∀ d ∈ c :: w, decide (d ≠ '`' ∧ d ≠ '\n') = true := by
      intro d hd
      rcases List.mem_cons.1 hd with rfl | hd
      · exact hok
      · exact hall d hd
    refine ⟨c :: w, ⟨by simp, all_neither.1 hspan⟩, h₁.1.trans (hraw.trans h₃.1), ?_⟩
    rw [h₃.2]
    simp only [hraw.upto_eq, hw.2, hc.2, h₁.2]
  · intro h
    obtain ⟨raw, ⟨hne, hspan⟩, hr, hg⟩ := h
    obtain ⟨c, w, rfl⟩ := List.exists_cons_of_ne_nil hne
    have hok := all_neither.2 hspan
    obtain ⟨p₁, h₁, ha₁⟩ := reaches_of_after (p := p) (w := "`".toList) hr.1
    obtain ⟨m₁, h₂, ha₂⟩ := reaches_of_after (p := p₁) (w := [c]) (t := w ++ ('`' :: q.after)) (by simpa using ha₁)
    obtain ⟨m, h₃, ha₃⟩ := reaches_of_after ha₂
    have hraw : Reads p₁ (c :: w) m := h₂.1.trans h₃.1
    refine ⟨p₁, h₁, ⟨m.before, m.after, (1, p₁.upto m) :: m.groups⟩, ⟨m, ⟨m₁, ⟨c, h₂, hok c (by simp)⟩, w, h₃,
      fun d hd => hok d (by simp [hd])⟩, rfl⟩, ⟨ha₃, ?_⟩, ?_⟩
    · rw [hr.2]
      have hb := (h₁.1.trans hraw).2
      simp only [hb]
      simp
    · rw [hg]
      simp only [hraw.upto_eq, h₃.2, h₂.2, h₁.2]

theorem backtick_some (h : backtickRe.matchAt b s = some m) :
    ∃ raw, SpanText raw ∧ m.text = '`' :: (raw ++ ['`']) ∧ m.group 1 = raw := by
  obtain ⟨q, hq, hr, -, hg⟩ := Pattern.matchAt_some h
  obtain ⟨raw, hraw, hq, hgq⟩ := mem_backtick.1 hq
  refine ⟨raw, hraw, List.append_cancel_right (hr.1.symm.trans hq.1), ?_⟩
  rw [Match.group, hg, hgq]
  rfl

theorem backtick_none (h : backtickRe.matchAt b ('`' :: s) = none) (hraw : SpanText raw) : s ≠ raw ++ '`' :: t := by
  rintro rfl
  refine Pattern.matchAt_isSome ?_ ?_ h
  · intro q hq
    obtain ⟨raw', -, hr, -⟩ := mem_backtick.1 hq
    have htext : '`' :: (raw ++ '`' :: t) = '`' :: (raw' ++ ['`']) ++ q.after := hr.1
    rw [htext]
    simp
    omega
  · refine ⟨⟨('`' :: (raw ++ ['`'])).reverse ++ b, t, [(1, raw)]⟩, mem_backtick.2 ⟨raw, hraw, ⟨?_, rfl⟩, rfl⟩⟩
    simp

end

/-! ## Dotted names -/

def IdentName (w : Str) : Prop := ∃ c t, w = c :: t ∧ identStart c = true ∧ ∀ d ∈ t, identPart d = true

/-- Further segments of a name, each after a dot. -/
inductive Dots : Str → Prop
  | nil : Dots []
  | cons {v w} : IdentName v → Dots w → Dots ('.' :: v ++ w)

/-- Two segments or more. -/
def DottedName (w : Str) : Prop := ∃ v d, IdentName v ∧ Dots d ∧ d ≠ [] ∧ w = v ++ d

/-- A character of a dotted name. -/
def nameChar (c : Char) : Bool := identPart c || c = '.'

/-- The name reads on: into a word character, or into a dot and one. -/
def readsOn (letter : Char → Bool) : Str → Bool
  | [] => false
  | c :: s => wordChar letter c || (c = '.' && s.head?.any (wordChar letter))

/-- A character that a name before it, or after it, would belong to. -/
def nameEdge (letter : Char → Bool) (c : Char) : Bool := wordChar letter c || c = '.'

/-- A dotted name that stands by itself between `b` and `s`. -/
def Standing (letter : Char → Bool) (b name s : Str) : Prop :=
  DottedName name ∧ b.head?.any (nameEdge letter) = false ∧ readsOn letter s = false

section
variable {letter : Char → Bool} {b s t v w name : Str} {p q : Point} {m : Match}

theorem IdentName.chars (h : IdentName w) : ∀ c ∈ w, identPart c = true := by
  obtain ⟨c, t, rfl, hc, ht⟩ := h
  intro d hd
  rcases List.mem_cons.1 hd with rfl | hd
  · unfold identStart at hc
    unfold identPart Char.isAlphanum
    rcases Bool.or_eq_true_iff.1 hc with hc | hc <;> simp [hc]
  · exact ht d hd

theorem Dots.chars (h : Dots w) : ∀ c ∈ w, nameChar c = true := by
  induction h with
  | nil => simp
  | cons hv _ ih =>
    intro c hc
    rw [List.cons_append, List.mem_cons, List.mem_append] at hc
    rcases hc with rfl | hc | hc
    · rfl
    · simp [nameChar, hv.chars c hc]
    · exact ih c hc

theorem Dots.dot (h : Dots w) (hne : w ≠ []) : '.' ∈ w := by
  cases h with
  | nil => exact absurd rfl hne
  | cons hv hw => simp

theorem DottedName.chars (h : DottedName w) : ∀ c ∈ w, nameChar c = true := by
  obtain ⟨v, d, hv, hd, -, rfl⟩ := h
  intro c hc
  rcases List.mem_append.1 hc with hc | hc
  · simp [nameChar, hv.chars c hc]
  · exact hd.chars c hc

theorem DottedName.dot (h : DottedName w) : '.' ∈ w := by
  obtain ⟨v, d, -, hd, hne, rfl⟩ := h
  exact List.mem_append_right _ (hd.dot hne)

theorem DottedName.ne_nil (h : DottedName w) : w ≠ [] := List.ne_nil_of_mem h.dot

theorem mem_ident (h : q ∈ ends identRe p) : ∃ w, IdentName w ∧ Reads p w q := by
  simp only [identRe, mem_ends_seq, mem_ends_sat, mem_ends_star_sat] at h
  obtain ⟨m, ⟨c, hc, hstart⟩, w, hw, hall⟩ := h
  exact ⟨c :: w, ⟨c, w, rfl, hstart, hall⟩, hc.1.trans hw.1⟩

theorem mem_segment (h : q ∈ ends (.seq (.lit ".".toList) identRe) p) : ∃ v, IdentName v ∧ Reads p ('.' :: v) q := by
  simp only [mem_ends_seq, mem_ends_lit] at h
  obtain ⟨m, hdot, hq⟩ := h
  obtain ⟨v, hv, hr⟩ := mem_ident hq
  exact ⟨v, hv, hdot.1.trans hr⟩

theorem many_segments (n : Nat) (h : q ∈ many (ends (.seq (.lit ".".toList) identRe)) n p) :
    ∃ w, Dots w ∧ Reads p w q := by
  induction n generalizing p with
  | zero =>
    rw [many, List.mem_singleton] at h
    exact ⟨[], .nil, by rw [h]; exact Reads.refl p⟩
  | succ n ih =>
    simp only [many, List.mem_append, List.mem_flatMap, List.mem_filter, List.mem_singleton] at h
    rcases h with ⟨m, ⟨hm, -⟩, hq⟩ | rfl
    · obtain ⟨v, hv, hr⟩ := mem_segment hm
      obtain ⟨w, hw, hr'⟩ := ih hq
      exact ⟨'.' :: v ++ w, .cons hv hw, hr.trans hr'⟩
    · exact ⟨[], .nil, Reads.refl q⟩

theorem mem_dotted (h : q ∈ ends dottedRe p) : ∃ w, DottedName w ∧ Reads p w q := by
  rw [dottedRe, mem_ends_seq] at h
  obtain ⟨m, hm, hq⟩ := h
  rw [plus, mem_ends_seq] at hq
  obtain ⟨m', hm', hq⟩ := hq
  obtain ⟨v, hv, hr⟩ := mem_ident hm
  obtain ⟨u, hu, hr'⟩ := mem_segment hm'
  obtain ⟨w, hw, hr''⟩ := many_segments _ hq
  exact ⟨v ++ ('.' :: u ++ w), ⟨v, _, hv, .cons hu hw, by simp, rfl⟩, hr.trans (hr'.trans hr'')⟩

theorem readsOn_of_ahead
    (h : ((Pattern.ofRegex (.alt (.sat (wordChar letter)) (.seq (.lit ".".toList) (.sat (wordChar letter))))).ends
      p).isEmpty = true) : readsOn letter p.after = false := by
  have hnone : ∀ q, q ∉ ends (.alt (.sat (wordChar letter)) (.seq (.lit ".".toList) (.sat (wordChar letter)))) p := by
    intro q hq
    have : q ∈ (Pattern.ofRegex (.alt (.sat (wordChar letter)) (.seq (.lit ".".toList) (.sat (wordChar letter))))).ends
      p := hq
    rw [List.isEmpty_iff.1 h] at this
    cases this
  cases ha : p.after with
  | nil => rfl
  | cons c s =>
    have hc : wordChar letter c = false := by
      rw [Bool.eq_false_iff]
      intro hc
      obtain ⟨m, hm, -⟩ := reaches_of_after (p := p) (w := [c]) ha
      exact hnone m (mem_ends_alt.2 (.inl (mem_ends_sat.2 ⟨c, hm, hc⟩)))
    rw [readsOn, hc, Bool.false_or, Bool.eq_false_iff]
    intro hdot
    obtain ⟨hdot, hnext⟩ := Bool.and_eq_true_iff.1 hdot
    obtain rfl : c = '.' := by simpa using hdot
    cases s with
    | nil => cases hnext
    | cons d s =>
      obtain ⟨m, hm, hma⟩ := reaches_of_after (p := p) (w := ".".toList) ha
      obtain ⟨m', hm', -⟩ := reaches_of_after (p := m) (w := [d]) hma
      refine hnone m' (mem_ends_alt.2 (.inr (mem_ends_seq.2 ⟨m, mem_ends_lit.2 hm, mem_ends_sat.2 ⟨d, hm', ?_⟩⟩)))
      simpa using hnext

theorem bare_some (h : (bareDottedRe letter).matchAt b (m.text ++ s) = some m) : Standing letter b m.text s := by
  obtain ⟨q, hq, hr, -, -⟩ := Pattern.matchAt_some h
  simp only [bareDottedRe, Pattern.mem_seq, Pattern.notBehind, Pattern.notAhead, Pattern.mem_guarded] at hq
  obtain ⟨p, ⟨rfl, hb⟩, p', hp', rfl, ha⟩ := hq
  obtain ⟨w, hw, hr'⟩ := mem_dotted hp'
  have hsame : m.text = w := List.append_cancel_right (hr.1.symm.trans hr'.1)
  have hs : s = q.after := List.append_cancel_left hr.1
  refine ⟨by rwa [hsame], ?_, by rw [hs]; exact readsOn_of_ahead ha⟩
  rw [Bool.not_eq_true'] at hb
  exact hb

end

end Cograph.Wiki
