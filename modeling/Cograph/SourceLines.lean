import Cograph.MarkerPattern
import Cograph.StretchesSound

/-!
# Source lines, and evidence that what follows does not touch

A source line is read as what stands before its path and the path, which goes
on as far as it can. So the evidence of a text stays evidence whatever comes
after it, but for a path that ends with the text.
-/

namespace Cograph.Wiki

open Regex

def pathChar (c : Char) : Bool := ¬ Str.isSpace c ∧ c ≠ '`' ∧ c ≠ ':'

/-- What stands before the path of a source line. -/
def SourceLead (lead : Str) : Prop :=
  ∃ g₁ g₂ g₃ tick, lead = g₁ ++ ("Source".toList ++ (g₂ ++ (':' :: (g₃ ++ tick)))) ∧
    (∀ c ∈ g₁ ++ (g₂ ++ g₃), Str.isSpace c = true) ∧ (tick = [] ∨ tick = ['`'])

section
variable {b s r lead : Str} {c : Char} {m : Match}

theorem pathChar_iff : pathChar c = true ↔ Str.isSpace c = false ∧ c ≠ '`' ∧ c ≠ ':' := by
  simp [pathChar]

/-- After the colon comes no character of a path. -/
theorem SourceLead.colon (h : SourceLead lead) : ∃ u v, lead = u ++ ':' :: v ∧ ':' ∉ u ∧ ∀ c ∈ v, pathChar c = false := by
  obtain ⟨g₁, g₂, g₃, tick, rfl, hg, htick⟩ := h
  have hgap : ∀ g, g ⊆ g₁ ++ (g₂ ++ g₃) → ':' ∉ g := by
    intro g hsub hmem
    have := hg ':' (hsub hmem)
    revert this
    decide
  refine ⟨g₁ ++ ("Source".toList ++ g₂), g₃ ++ tick, by simp, ?_, ?_⟩
  · have h₁ := hgap g₁ (by simp)
    have h₂ := hgap g₂ (by intro c hc; simp [hc])
    simp [h₁, h₂]
  · intro c hc
    rcases List.mem_append.1 hc with hc | hc
    · simp [pathChar, hg c (by simp [hc])]
    · rcases htick with rfl | rfl
      · cases hc
      · obtain rfl : c = '`' := by simpa using hc
        rfl

theorem lead_unique {lead' r' : Str} {c' : Char} (h : SourceLead lead) (h' : SourceLead lead')
    (hc : pathChar c = true) (hc' : pathChar c' = true) (he : lead ++ c :: r = lead' ++ c' :: r') : lead = lead' := by
  obtain ⟨u, v, rfl, hu, hv⟩ := h.colon
  obtain ⟨u', v', rfl, hu', hv'⟩ := h'.colon
  have hcut : ∀ {v r : Str} {c : Char}, (∀ d ∈ v, pathChar d = false) → pathChar c = true →
      (v ++ c :: r).takeWhile (!pathChar ·) = v := by
    intro v r c hv hc
    rw [List.takeWhile_append_of_pos]
    · simp [hc]
    · intro d hd
      simp [hv d hd]
  obtain ⟨rfl, hrest⟩ := split_first (by simpa using he) hu hu'
  rw [← hcut hv hc (r := r), hrest, hcut hv' hc']

end

/-! ## The pattern -/

/-- A pattern that reads no white space and closes no group. -/
def Walks (r : Regex) : Prop :=
  ∀ p q, q ∈ ends r p → ∃ w, Reaches p w q ∧ ∀ c ∈ w, Str.isSpace c = false

theorem Walks.seq {r s : Regex} (hr : Walks r) (hs : Walks s) : Walks (.seq r s) := by
  intro p q h
  obtain ⟨m, hm, hq⟩ := mem_ends_seq.1 h
  obtain ⟨v, hv, hvs⟩ := hr p m hm
  obtain ⟨w, hw, hws⟩ := hs m q hq
  refine ⟨v ++ w, hv.trans hw, ?_⟩
  intro c hc
  rcases List.mem_append.1 hc with hc | hc
  · exact hvs c hc
  · exact hws c hc

theorem Walks.opt {r : Regex} (hr : Walks r) : Walks (.opt r) := by
  intro p q h
  rcases mem_ends_alt.1 h with h | h
  · exact hr p q h
  · obtain rfl : q = p := by simpa [ends] using h
    exact ⟨[], reaches_nil.2 rfl, by simp⟩

theorem Walks.sat {f : Char → Bool} (hf : ∀ c, f c = true → Str.isSpace c = false) : Walks (.sat f) := by
  intro p q h
  obtain ⟨c, hc, hfc⟩ := mem_ends_sat.1 h
  exact ⟨[c], hc, by simpa using hf c hfc⟩

theorem Walks.plus {f : Char → Bool} (hf : ∀ c, f c = true → Str.isSpace c = false) : Walks (.plus (.sat f)) := by
  intro p q h
  obtain ⟨w, -, hw, hfw⟩ := mem_ends_plus_sat.1 h
  exact ⟨w, hw, fun c hc => hf c (hfw c hc)⟩

theorem Walks.lit {w : Str} (hw : w.all (!Str.isSpace ·) = true) : Walks (.lit w) := by
  intro p q h
  exact ⟨w, mem_ends_lit.1 h, fun c hc => by simpa using List.all_eq_true.1 hw c hc⟩

theorem digit_graphic {c : Char} (h : c.isDigit = true) : Str.isSpace c = false := by
  rw [Char.isDigit, Bool.and_eq_true, decide_eq_true_eq, decide_eq_true_eq] at h
  have hlow : 48 ≤ c.toNat := h.1
  have hhigh : c.toNat ≤ 57 := h.2
  unfold Str.isSpace
  rw [decide_eq_false_iff_not]
  omega

/-- The lines that a source line names, after its path. -/
def linesTail : Regex :=
  let digits := Regex.plus (.sat Char.isDigit)
  .seq (.opt (.seq (.lit ":L".toList) (.seq digits (.opt (.seq (.chr '-') (.seq (.opt (.chr 'L')) digits))))))
    (.opt (.chr '`'))

theorem linesTail_walks : Walks linesTail := by
  have hdigits : Walks (.plus (.sat Char.isDigit)) := .plus fun _ => digit_graphic
  have hchr : ∀ d, Str.isSpace d = false → Walks (.chr d) := fun d hd => .sat fun c hc => by
    obtain rfl : c = d := by simpa using hc
    exact hd
  have hmore := (hchr '-' rfl).seq ((hchr 'L' rfl).opt.seq hdigits)
  have hlit : Walks (.lit ":L".toList) := .lit (by decide)
  exact (hlit.seq (hdigits.seq hmore.opt)).opt.seq (hchr '`' rfl).opt

theorem linesTail_first (p : Point) : ∃ q, first linesTail p = some q := by
  cases h : first linesTail p with
  | some q => exact ⟨q, rfl⟩
  | none =>
    exfalso
    refine first_none.1 h p ?_
    refine mem_ends_seq.2 ⟨p, mem_ends_alt.2 (.inr ?_), mem_ends_alt.2 (.inr ?_)⟩
    · simp [ends]
    · simp [ends]

section
variable {b s r lead : Str} {c : Char} {m : Match} {p q : Point}

theorem source_mem (h : q ∈ ends sourceLineRe ⟨b, s, []⟩) :
    atLineStart b = true ∧ ∃ lead c r, SourceLead lead ∧ pathChar c = true ∧ s = lead ++ c :: r := by
  unfold sourceLineRe at h
  simp only [mem_ends_seq, mem_ends_group, mem_ends_lit, mem_ends_spaces] at h
  obtain ⟨p₀, hline, p₁, ⟨g₁, h₁, e₁⟩, p₂, h₂, p₃, ⟨g₂, h₃, e₂⟩, p₄, h₄, p₅, ⟨g₃, h₅, e₃⟩, p₆, h₆, p₇,
    ⟨p₈, ⟨p₉, hpart, -⟩, rfl⟩, -⟩ := h
  obtain ⟨hb, rfl⟩ : b.head?.getD '\n' = '\n' ∧ p₀ = ⟨b, s, []⟩ := by simpa [ends] using hline
  obtain ⟨path, hne, h₇, hpath⟩ := mem_ends_plus_sat.1 hpart
  obtain ⟨tick, htick, htickc⟩ : ∃ tick, Reaches p₅ tick p₆ ∧ (tick = [] ∨ tick = ['`']) := by
    rcases mem_ends_alt.1 h₆ with h | h
    · obtain ⟨c, hc, he⟩ := mem_ends_sat.1 h
      obtain rfl : c = '`' := by simpa using he
      exact ⟨['`'], hc, .inr rfl⟩
    · obtain rfl : p₆ = p₅ := by simpa [ends] using h
      exact ⟨[], reaches_nil.2 rfl, .inl rfl⟩
  obtain ⟨c, t, rfl⟩ := List.exists_cons_of_ne_nil hne
  have hall := h₁.trans (h₂.trans (h₃.trans (h₄.trans (h₅.trans (htick.trans h₇)))))
  refine ⟨by simpa [atLineStart] using hb, _, c, t ++ p₉.after, ⟨g₁, g₂, g₃, tick, rfl, ?_, htickc⟩, ?_, ?_⟩
  · intro d hd
    simp only [List.mem_append] at hd
    rcases hd with hd | hd | hd
    · exact e₁ d hd
    · exact e₂ d hd
    · exact e₃ d hd
  · simpa [pathChar] using hpath c (by simp)
  · rw [show s = _ from hall.1.1]
    simp

theorem takes_lit {w t : Str} (h : p.after = w ++ t) : ∃ q, first (.lit w) p = some q ∧ Reaches p w q ∧ q.after = t :=
  ⟨_, first_lit h, ⟨⟨h, rfl⟩, rfl⟩, rfl⟩

theorem takes_spaces {w t : Str} (h : p.after = w ++ t) (hw : ∀ c ∈ w, Str.isSpace c = true)
    (ht : ∀ c, t.head? = some c → Str.isSpace c = false) :
    ∃ q, first (.star space) p = some q ∧ Reaches p w q ∧ q.after = t :=
  ⟨_, first_star h hw ht, ⟨⟨h, rfl⟩, rfl⟩, rfl⟩

theorem star_stays {r : Regex} (h : ∀ q, q ∉ ends r p) : first (.star r) p = some p := by
  have hnil : ends r p = [] := List.eq_nil_iff_forall_not_mem.2 h
  unfold first ends
  cases p.after.length with
  | zero => rfl
  | succ n => simp [many, hnil]

theorem source_first (hb : atLineStart b = true) (h : SourceLead lead) (hc : pathChar c = true) (r : Str) :
    ∃ tail rest, (c :: r).dropWhile pathChar = tail ++ rest ∧ (∀ d ∈ tail, Str.isSpace d = false) ∧
      matchAt sourceLineRe b (lead ++ c :: r) =
        some ⟨lead ++ ((c :: r).takeWhile pathChar ++ tail), [(1, (c :: r).takeWhile pathChar)]⟩ := by
  obtain ⟨g₁, g₂, g₃, tick, hlead, hg, htick⟩ := h
  obtain ⟨hspace, hne, -⟩ := pathChar_iff.1 hc
  obtain ⟨s, hs⟩ : ∃ s, s = g₁ ++ ("Source".toList ++ (g₂ ++ (":".toList ++ (g₃ ++ (tick ++ c :: r))))) := ⟨_, rfl⟩
  have htext : lead ++ c :: r = s := by
    rw [hs, hlead]
    simp
  have hs₁ : ∀ c ∈ g₁, Str.isSpace c = true := fun c hc => hg c (by simp [hc])
  have hs₂ : ∀ c ∈ g₂, Str.isSpace c = true := fun c hc => hg c (by simp [hc])
  have hs₃ : ∀ c ∈ g₃, Str.isSpace c = true := fun c hc => hg c (by simp [hc])
  have hpath : c :: r = (c :: r).takeWhile pathChar ++ (c :: r).dropWhile pathChar :=
    List.takeWhile_append_dropWhile.symm
  have hpathne : (c :: r).takeWhile pathChar ≠ [] := by simp [hc]
  have hstop : ∀ d, ((c :: r).dropWhile pathChar).head? = some d → pathChar d = false := by
    intro d hd
    have := List.head?_dropWhile_not pathChar (c :: r)
    rw [hd] at this
    simpa using this
  have hall : ∀ d ∈ (c :: r).takeWhile pathChar, pathChar d = true := fun d hd => List.mem_takeWhile_imp hd
  revert hpath hpathne hstop hall
  generalize (c :: r).takeWhile pathChar = path
  generalize (c :: r).dropWhile pathChar = rest
  intro hpath hpathne hstop hall
  have hline : first lineStart ⟨b, s, []⟩ = some ⟨b, s, []⟩ := by
    have hb : b.head?.getD '\n' = '\n' := by simpa [atLineStart] using hb
    simp [first, ends, hb]
  obtain ⟨p₁, f₁, h₁, a₁⟩ := takes_spaces (p := ⟨b, s, []⟩) hs hs₁ fun d hd => by
    obtain rfl : 'S' = d := Option.some.inj hd
    rfl
  obtain ⟨p₂, f₂, h₂, a₂⟩ := takes_lit a₁
  obtain ⟨p₃, f₃, h₃, a₃⟩ := takes_spaces a₂ hs₂ fun d hd => by
    obtain rfl : ':' = d := Option.some.inj hd
    rfl
  obtain ⟨p₄, f₄, h₄, a₄⟩ := takes_lit (w := ":".toList) a₃
  obtain ⟨p₅, f₅, h₅, a₅⟩ := takes_spaces a₄ hs₃ fun d hd => by
    rcases htick with rfl | rfl
    · obtain rfl : c = d := Option.some.inj hd
      exact hspace
    · obtain rfl : '`' = d := Option.some.inj hd
      rfl
  obtain ⟨p₆, f₆, h₆, a₆⟩ : ∃ q, first (.opt (.chr '`')) p₅ = some q ∧ Reaches p₅ tick q ∧ q.after = c :: r := by
    rcases htick with rfl | rfl
    · refine ⟨p₅, ?_, reaches_nil.2 rfl, a₅⟩
      rw [opt, first_alt, chr, first_sat, a₅]
      simp [hne, first, ends]
    · refine ⟨⟨'`' :: p₅.before, c :: r, p₅.groups⟩, ?_, ⟨⟨a₅, rfl⟩, rfl⟩, rfl⟩
      rw [opt, first_alt, chr, first_sat, a₅]
      simp
  have hpart := first_plus (f := pathChar) hpathne (a₆.trans hpath) hall hstop
  obtain ⟨q, f₈⟩ := linesTail_first ⟨path.reverse ++ p₆.before, rest, (1, path) :: p₆.groups⟩
  obtain ⟨tail, h₈, htail⟩ := linesTail_walks _ _ (List.mem_of_head? f₈)
  have hmore := star_stays (r := .seq (.chr '/') (.plus (.sat pathChar)))
    (p := ⟨path.reverse ++ p₆.before, rest, p₆.groups⟩) fun q hq => by
      obtain ⟨m, hm, -⟩ := mem_ends_seq.1 hq
      obtain ⟨d, hd, he⟩ := mem_ends_sat.1 hm
      obtain rfl : d = '/' := by simpa using he
      have := hstop '/' (by rw [show rest = _ from hd.1.1]; rfl)
      revert this
      decide
  have hread : Reads p₆ path ⟨path.reverse ++ p₆.before, rest, p₆.groups⟩ := ⟨a₆.trans hpath, rfl⟩
  have f₇ : first (.group 1 (.seq (.plus (.sat pathChar)) (.star (.seq (.chr '/') (.plus (.sat pathChar)))))) p₆ =
      some ⟨path.reverse ++ p₆.before, rest, (1, path) :: p₆.groups⟩ := by
    rw [first_group, first_seq hpart hmore, Option.map_some, hread.upto_eq]
  have hfirst : first sourceLineRe ⟨b, s, []⟩ = some q :=
    first_seq hline (first_seq f₁ (first_seq f₂ (first_seq f₃ (first_seq f₄ (first_seq f₅ (first_seq f₆ (first_seq f₇ f₈)))))))
  have hgroups : q.groups = [(1, path)] := by
    rw [h₈.2]
    show (1, path) :: p₆.groups = _
    rw [h₆.2, h₅.2, h₄.2, h₃.2, h₂.2, h₁.2]
  have hwhole : s = (lead ++ (path ++ tail)) ++ q.after := by
    rw [← htext, hpath, show rest = tail ++ q.after from h₈.1.1]
    simp
  refine ⟨tail, q.after, h₈.1.1, htail, ?_⟩
  rw [htext]
  rw [hwhole] at hfirst ⊢
  rw [matchAt_first hfirst rfl (by simp [hpathne]), hgroups]

end

/-! ## The paths of a text -/

/-- The paths of the source lines of a text, read after `b`. -/
def pathsAfter (b s : Str) : List Str := ((scan sourceLineRe 0 b s).filterMap Token.hit?).map (·.group 1)

/-- What follows the end of the first line. -/
def nextLine (s : Str) : Str := (s.dropWhile (· ≠ '\n')).drop 1

/-- No path goes on to the end of the text. -/
def Stopped (t : Str) : Prop := ∀ c, t.getLast? = some c → pathChar c = false

section
variable {b s t r : Str} {c : Char}

theorem source_match {m : Match} (h : matchAt sourceLineRe b s = some m) : atLineStart b = true ∧
    ∃ lead c r tail rest, SourceLead lead ∧ pathChar c = true ∧ s = lead ++ c :: r ∧
      (c :: r).dropWhile pathChar = tail ++ rest ∧ (∀ d ∈ tail, Str.isSpace d = false) ∧
      m = ⟨lead ++ ((c :: r).takeWhile pathChar ++ tail), [(1, (c :: r).takeWhile pathChar)]⟩ := by
  obtain ⟨q, hq, -⟩ := matchAt_some h
  obtain ⟨hb, lead, c, r, hlead, hc, rfl⟩ := source_mem hq
  obtain ⟨tail, rest, hrest, htail, hm⟩ := source_first hb hlead hc r
  rw [hm] at h
  exact ⟨hb, lead, c, r, tail, rest, hlead, hc, rfl, hrest, htail, (Option.some.inj h).symm⟩

theorem pathsAfter_plain (h : matchAt sourceLineRe b (c :: s) = none) : pathsAfter b (c :: s) = pathsAfter (c :: b) s := by
  unfold pathsAfter
  rw [scan_plain h]
  rfl

theorem pathsAfter_line (hb : atLineStart b = true) (s : Str) : pathsAfter b s = pathsAfter [] s := by
  unfold pathsAfter
  rw [source_scan hb]

/-- Inside a line no path begins before the next line does. -/
theorem pathsAfter_mid (hb : atLineStart b = false) (s : Str) : pathsAfter b s = pathsAfter [] (nextLine s) := by
  induction s generalizing b with
  | nil => rfl
  | cons c s ih =>
    rw [pathsAfter_plain (source_none (.inl hb))]
    by_cases hc : c = '\n'
    · subst hc
      rw [pathsAfter_line rfl]
      rfl
    · rw [ih (by simp [atLineStart, hc])]
      simp [nextLine, hc]

theorem nextLine_free (h : '\n' ∉ t) (s : Str) : nextLine (t ++ s) = nextLine s := by
  unfold nextLine
  rw [List.dropWhile_append_of_pos]
  intro c hc
  simpa using ne_of_mem_of_not_mem hc h

theorem nextLine_none (h : '\n' ∉ t) : nextLine t = [] := by
  have := nextLine_free h []
  rwa [List.append_nil] at this

theorem nextLine_append (h : '\n' ∈ t) : ∃ l, '\n' ∉ l ∧ t = l ++ '\n' :: nextLine t ∧
    ∀ s, nextLine (t ++ s) = nextLine t ++ s := by
  obtain ⟨l, u, rfl, hl⟩ := List.eq_append_cons_of_mem h
  refine ⟨l, hl, ?_, ?_⟩
  · rw [nextLine_free hl]
    rfl
  · intro s
    rw [List.append_assoc, nextLine_free hl, nextLine_free hl]
    rfl

theorem Stopped.suffix {u : Str} (h : Stopped (u ++ t)) : Stopped t := by
  intro c hc
  apply h
  cases t with
  | nil => cases hc
  | cons d t => rwa [List.getLast?_append_of_ne_nil _ (by simp)]

theorem atLineStart_graphic {x : Str} (hx : x ≠ []) (h : ∀ d ∈ x, Str.isSpace d = false) :
    atLineStart (x.reverse ++ b) = false := by
  obtain ⟨y, d, rfl⟩ := (List.eq_nil_or_concat' x).resolve_left hx
  have hd : d ≠ '\n' := by
    rintro rfl
    have := h '\n' (by simp)
    revert this
    decide
  simp [atLineStart, hd]

/-- A match reads its path, and then the paths of the lines after it. -/
theorem pathsAfter_match (hb : atLineStart b = true) {lead : Str} (h : SourceLead lead) (hc : pathChar c = true) (r : Str) :
    pathsAfter b (lead ++ c :: r) =
      (c :: r).takeWhile pathChar :: pathsAfter [] (nextLine ((c :: r).dropWhile pathChar)) := by
  obtain ⟨tail, rest, hrest, htail, hm⟩ := source_first hb h hc r
  have hsplit : lead ++ c :: r = lead ++ ((c :: r).takeWhile pathChar ++ tail) ++ rest := by
    conv_lhs => rw [← List.takeWhile_append_dropWhile (p := pathChar) (l := c :: r), hrest]
    simp
  have hfeed : '\n' ∉ tail := by
    intro hmem
    have := htail _ hmem
    revert this
    decide
  have hend : atLineStart ((lead ++ ((c :: r).takeWhile pathChar ++ tail)).reverse ++ b) = false := by
    rw [List.reverse_append, List.append_assoc]
    apply atLineStart_graphic
    · simp [hc]
    · intro d hd
      rcases List.mem_append.1 hd with hd | hd
      · exact (pathChar_iff.1 (List.mem_takeWhile_imp hd)).1
      · exact htail d hd
  unfold pathsAfter
  rw [scan_hit hm hsplit, List.filterMap_cons]
  show _ :: pathsAfter _ rest = _
  rw [pathsAfter_mid hend, hrest, nextLine_free hfeed]
  rfl

/-- A text that ends within what stands before a path has none. -/
theorem pathsAfter_lead {u : Str} (hb : atLineStart b = true) (h : SourceLead (t ++ u)) : pathsAfter b t = [] := by
  rw [pathsAfter_line hb, pathsAfter, ← hits, List.map_eq_nil_iff, List.eq_nil_iff_forall_not_mem]
  intro m hm
  rw [← finditer_map, List.mem_map] at hm
  obtain ⟨z, hz, rfl⟩ := hm
  obtain ⟨v, w, ht, -, hmatch⟩ := finditer_split hz
  obtain ⟨-, lead, c, r, -, -, hlead, hc, hs, -⟩ := source_match hmatch
  obtain ⟨x, y, rfl, -, -⟩ := hlead.colon
  obtain ⟨x', y', hwhole, hx', hy'⟩ := h.colon
  -- the colon of the match is the only one
  have hcolon : v ++ x ++ ':' :: (y ++ c :: (r ++ u)) = x' ++ ':' :: y' := by
    rw [← hwhole, ht, hs]
    simp
  have hpath : c ∈ y' := by
    rcases List.append_eq_append_iff.1 hcolon with ⟨e, he, hf⟩ | ⟨e, he, hf⟩
    · cases e with
      | nil =>
        obtain ⟨-, rfl⟩ := List.cons.inj hf
        simp
      | cons d e =>
        obtain ⟨rfl, -⟩ := List.cons.inj hf
        exact absurd (by simp [he]) hx'
    · cases e with
      | nil =>
        obtain ⟨-, rfl⟩ := List.cons.inj hf
        simp
      | cons d e =>
        obtain ⟨rfl, rfl⟩ := List.cons.inj hf
        simp
  rw [hy' c hpath] at hc
  cases hc

/-- What comes after a text takes none of its paths away, where none goes on to
the end. -/
theorem pathsAfter_append (h : Stopped t) (s : Str) : pathsAfter b t ⊆ pathsAfter b (t ++ s) := by
  induction hn : t.length using Nat.strongRecOn generalizing b t with
  | _ n ih =>
    have hnext : ∀ {u d}, t = u ++ d → pathsAfter [] (nextLine d) ⊆ pathsAfter [] (nextLine (d ++ s)) := by
      intro u d hd
      by_cases hmem : '\n' ∈ d
      · obtain ⟨l, -, hl, happ⟩ := nextLine_append hmem
        have hsuffix : t = u ++ (l ++ ['\n']) ++ nextLine d := by
          rw [hd]
          conv_lhs => rw [hl]
          simp
        rw [happ]
        refine ih _ ?_ ?_ rfl
        · have := congrArg List.length hsuffix
          simp only [List.length_append, List.length_singleton] at this
          omega
        · rw [hsuffix] at h
          exact h.suffix
      · rw [nextLine_none hmem]
        exact List.nil_subset _
    cases hb : atLineStart b with
    | false =>
      rw [pathsAfter_mid hb, pathsAfter_mid hb]
      exact hnext (List.nil_append t).symm
    | true =>
      cases t with
      | nil => exact List.nil_subset _
      | cons c t =>
        cases hm : matchAt sourceLineRe b (c :: t) with
        | none =>
          cases hm' : matchAt sourceLineRe b (c :: (t ++ s)) with
          | none =>
            rw [pathsAfter_plain hm, List.cons_append, pathsAfter_plain hm']
            exact ih t.length (by simp at hn; omega) (h.suffix (u := [c])) rfl
          | some m =>
            -- the text ends before the path that is found there
            obtain ⟨-, lead, d, r, -, -, hlead, hd, hs, -⟩ := source_match hm'
            rw [← List.cons_append] at hs
            rcases List.append_eq_append_iff.1 hs with ⟨e, he, -⟩ | ⟨e, he, hf⟩
            · rw [pathsAfter_lead hb (he ▸ hlead)]
              exact List.nil_subset _
            · cases e with
              | nil =>
                rw [List.append_nil] at he
                rw [pathsAfter_lead (u := []) hb (by rw [List.append_nil, he]; exact hlead)]
                exact List.nil_subset _
              | cons x e =>
                obtain ⟨rfl, -⟩ := List.cons.inj hf
                obtain ⟨_, _, _, _, hsome⟩ := source_first hb hlead hd e
                rw [← he, hm] at hsome
                cases hsome
        | some m =>
          obtain ⟨-, lead, d, r, -, -, hlead, hd, hs, -⟩ := source_match hm
          have hrest : (d :: r).dropWhile pathChar ≠ [] := by
            intro hnil
            have hall : (d :: r).takeWhile pathChar = d :: r := by
              have := List.takeWhile_append_dropWhile (p := pathChar) (l := d :: r)
              rwa [hnil, List.append_nil] at this
            obtain ⟨c, hc⟩ := Option.ne_none_iff_exists'.1 (mt List.getLast?_eq_none_iff.1 (List.cons_ne_nil d r))
            have hstop := h c (by rw [hs, List.getLast?_append_of_ne_nil _ (by simp), hc])
            have hpath : pathChar c = true := List.mem_takeWhile_imp (p := pathChar) (l := d :: r)
              (by rw [hall]; exact List.mem_of_getLast? hc)
            rw [hpath] at hstop
            cases hstop
          have hdrop : (d :: (r ++ s)).dropWhile pathChar = (d :: r).dropWhile pathChar ++ s := by
            rw [← List.cons_append, List.dropWhile_append, if_neg (by simpa using hrest)]
          have htake : (d :: (r ++ s)).takeWhile pathChar = (d :: r).takeWhile pathChar := by
            have h₁ := List.takeWhile_append_dropWhile (p := pathChar) (l := d :: r)
            have h₂ := List.takeWhile_append_dropWhile (p := pathChar) (l := d :: (r ++ s))
            rw [hdrop] at h₂
            have hsame : (d :: (r ++ s)).takeWhile pathChar ++ ((d :: r).dropWhile pathChar ++ s) =
                (d :: r).takeWhile pathChar ++ ((d :: r).dropWhile pathChar ++ s) := by
              rw [h₂, ← List.append_assoc, h₁]
              rfl
            exact List.append_cancel_right hsame
          have hsuffix : c :: t = lead ++ (d :: r).takeWhile pathChar ++ (d :: r).dropWhile pathChar := by
            rw [hs, List.append_assoc, List.takeWhile_append_dropWhile]
          have hlater := hnext hsuffix
          rw [hs, List.append_assoc, List.cons_append, pathsAfter_match hb hlead hd, pathsAfter_match hb hlead hd, htake,
            hdrop]
          exact List.cons_subset_cons _ hlater

end

/-! ## Evidence before what follows -/

/-- The text without the path it may end with. -/
def dropPath (y : Str) : Str := (y.reverse.dropWhile pathChar).reverse

/-- A citation of the text is evidence, or a source line whose path ends before
the text does. -/
def evidenceBefore (ledger : Ledger) (y : Str) : Bool :=
  (cites y).any (citesEvidence ledger) || (hits sourceLineRe (dropPath y)).any (namesEvidence ledger)

section
variable {ledger : Ledger} {y s w : Str}

theorem dropPath_stopped (y : Str) : Stopped (dropPath y) := by
  intro c hc
  rw [dropPath, List.getLast?_reverse] at hc
  have := List.head?_dropWhile_not pathChar y.reverse
  rw [hc] at this
  simpa using this

theorem dropPath_split (y : Str) : ∃ w, y = dropPath y ++ w := by
  refine ⟨(y.reverse.takeWhile pathChar).reverse, ?_⟩
  rw [dropPath, ← List.reverse_append, List.takeWhile_append_dropWhile, List.reverse_reverse]

theorem dropPath_append (hw : ∀ c ∈ w, pathChar c = true) (y : Str) : dropPath (y ++ w) = dropPath y := by
  unfold dropPath
  rw [List.reverse_append, List.dropWhile_append_of_pos fun c hc => hw c (by simpa using hc)]

theorem cites_subset (y s : Str) : cites y ⊆ cites (y ++ s) := by
  induction hn : y.length using Nat.strongRecOn generalizing y with
  | _ n ih =>
    by_cases hmem : "]]".toList <:+: y
    · obtain ⟨r, t, rfl⟩ := hmem
      rw [List.append_assoc (r ++ _) t s, cites_append (calm_closed r), cites_append (calm_closed r)]
      intro m hm
      rcases List.mem_append.1 hm with hm | hm
      · exact List.mem_append_left _ hm
      · exact List.mem_append_right _ (ih t.length (by simp at hn; omega) t rfl hm)
    · intro m hm
      obtain ⟨kind, v, a, b, -, -, rfl⟩ := mem_cites hm
      exact absurd ⟨a ++ ("[[".toList ++ (kind.text ++ (":".toList ++ v))), b, by simp [citation]⟩ hmem

theorem names_any (s : Str) : (hits sourceLineRe s).any (namesEvidence ledger) = true ↔
    ∃ path ∈ pathsAfter [] s, namesEvidence ledger ⟨[], [(1, path)]⟩ = true := by
  unfold pathsAfter
  rw [← hits, List.any_eq_true]
  constructor
  · intro h
    obtain ⟨m, hm, hev⟩ := h
    exact ⟨m.group 1, List.mem_map.2 ⟨m, hm, rfl⟩, hev⟩
  · intro h
    obtain ⟨path, hpath, hev⟩ := h
    obtain ⟨m, hm, rfl⟩ := List.mem_map.1 hpath
    exact ⟨m, hm, hev⟩

/-- Such evidence stays evidence whatever follows. -/
theorem evidence_append (h : evidenceBefore ledger y = true) (s : Str) :
    sectionHasVerifiedEvidence (y ++ s) ledger = true := by
  unfold sectionHasVerifiedEvidence
  rcases Bool.or_eq_true_iff.1 h with h | h
  · obtain ⟨m, hm, hev⟩ := List.any_eq_true.1 h
    rw [Bool.or_eq_true_iff]
    exact .inl (List.any_eq_true.2 ⟨m, cites_subset y s hm, hev⟩)
  · rw [Bool.or_eq_true_iff]
    right
    obtain ⟨path, hpath, hev⟩ := (names_any _).1 h
    obtain ⟨w, hw⟩ := dropPath_split y
    have hlater := pathsAfter_append (b := []) (dropPath_stopped y) (w ++ s) hpath
    rw [← List.append_assoc, ← hw] at hlater
    exact (names_any _).2 ⟨path, hlater, hev⟩

/-- The signs of a heading that is begun at the end are no evidence. -/
theorem evidenceBefore_hash (hw : ∀ c ∈ w, c = '#') (y : Str) : evidenceBefore ledger (y ++ w) = evidenceBefore ledger y := by
  unfold evidenceBefore
  rw [dropPath_append, cites_tail]
  · intro hmem
    cases hw _ hmem
  · intro c hc
    rw [hw c hc]
    rfl

end

end Cograph.Wiki
