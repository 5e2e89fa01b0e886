import Cograph.Patterns
import Cograph.Strs
import Cograph.CodeSpans

/-!
# Inline code over several lines

`wiki/pipeline.py`: `upgrade_multiline_inline_code`, which makes fenced blocks
of the code that a page's writer left between single backticks.
-/

namespace Cograph.InlineCode

open Regex (Pattern Match)

/-- `_INLINE_MULTILINE_CODE_RE`. -/
def inlineMultilineCodeRe : Pattern :=
  .seq (.notBehind fun c => c = '`' || c = '\\')
    (.seq (.lit ['`'])
      (.seq
        (.group 1
          (.seq (.star fun c => c ≠ '`' && c ≠ '\n') (.seq (.lit ['\n']) (.lazyStar fun c => c ≠ '`'))))
        (.seq (.lit ['`']) (.notAhead (.lit ['`'])))))

def codeChars : List Char := ['{', '}', '(', ')', ';']

/-- Long enough, and with a character that prose has less of. -/
def codeShaped (body : Str) : Bool := 40 ≤ body.length ∧ codeChars.any (· ∈ body)

/-- `str.strip("\n")`. -/
def stripNewlines (s : Str) : Str := ((s.dropWhile (· = '\n')).reverse.dropWhile (· = '\n')).reverse

def fenced (body : Str) : Str := "```\n".toList ++ stripNewlines body ++ "\n```".toList

/-- `_convert`. -/
def convert (m : Match) : Str :=
  let body := m.group 1
  if codeShaped body then fenced body else m.text

/-- `upgrade_multiline_inline_code`. -/
def upgradeMultilineInlineCode (markdown : Str) : Str := inlineMultilineCodeRe.sub convert markdown

end Cograph.InlineCode

/-!
## What is upgraded is inline code

`upgrade_touches_spans_iff`: a text has nothing but whole spans of single
backticks over several lines rewritten exactly when every stretch that the
pattern takes up begins at a backtick that opens such a span.
-/

namespace Cograph.InlineCode

open CodeSpans
open Regex (Pattern Match Point Reads Reaches Token)
open Regex.Pattern (Scans matchAt_some matchAt_isSome)

/-- Every piece is as it was, or is a span of single backticks over several
lines and has become a fenced block. -/
inductive Upgraded : List Piece → Str → Prop
  | nil : Upgraded [] []
  | kept {ps out} (p) : Upgraded ps out → Upgraded (p :: ps) (p.text ++ out)
  | fenced {ps out body} : '\n' ∈ body → Upgraded ps out → Upgraded (.span 1 body :: ps) (fenced body ++ out)

/-! ## Gaps between backticks -/

def opens (behind : Str) : Bool := behind.head? ≠ some '`' ∧ behind.head? ≠ some '\\'

/-- `body` goes over several lines between two neighbouring backticks. The text
behind the first is given with its last character first; it is not escaped, and
none stands beside either. -/
structure Gap (behind body after : Str) : Prop where
  bare : '`' ∉ body
  lines : '\n' ∈ body
  opens : opens behind = true
  closes : after.head? ≠ some '`'

/-- Whether the backtick that follows `behind` can open a gap: it does not close
one whose own first backtick can. `lines` says that a line ended on the way. -/
def freeAfter (lines : Bool) : Str → Bool
  | [] => true
  | c :: behind =>
    if c = '`' then !(lines && opens behind && freeAfter false behind) else freeAfter (lines || c = '\n') behind

def free (behind : Str) : Bool := freeAfter false behind

/-- A free gap that is shaped like code begins here. -/
def Eligible (behind s : Str) : Prop :=
  ∃ body after, s = '`' :: (body ++ '`' :: after) ∧ Gap behind body after ∧ codeShaped body ∧ free behind

/-- A span of single backticks begins after `before`. -/
def OpensSpan (ps : List Piece) (before : Str) : Prop :=
  ∃ qs body rest, ps = qs ++ .span 1 body :: rest ∧ texts qs = before

section
variable {behind body after before w s t : Str}

theorem Gap.body_ne (h : Gap behind body after) : body ≠ [] := List.ne_nil_of_mem h.lines

theorem Gap.head_ne (h : Gap behind body after) (t : Str) : (body ++ t).head? ≠ some '`' := by
  cases body with
  | nil => exact absurd rfl h.body_ne
  | cons c body =>
    have hbare := h.bare
    intro hc
    simp_all

theorem gap_eq {body' after' : Str} (h : Gap behind body after) (h' : Gap before body' after')
    (heq : body ++ '`' :: after = body' ++ '`' :: after') : body = body' ∧ after = after' := by
  have hcut : ∀ {u v : Str}, '`' ∉ u → (u ++ '`' :: v).takeWhile (· ≠ '`') = u := by
    intro u v hu
    rw [List.takeWhile_append_of_pos]
    · simp
    · intro c hc
      simpa using ne_of_mem_of_not_mem hc hu
  have hbody : body = body' := by
    rw [← hcut (v := after) h.bare, heq, hcut h'.bare]
  subst hbody
  exact ⟨rfl, by simpa using heq⟩

theorem freeAfter_bare {lines : Bool} (hw : '`' ∉ w) : freeAfter lines w = true := by
  induction w generalizing lines with
  | nil => rfl
  | cons c w ih =>
    simp only [List.mem_cons, not_or] at hw
    rw [freeAfter, if_neg (Ne.symm hw.1)]
    exact ih hw.2

theorem freeAfter_tick {lines : Bool} (hw : '`' ∉ w) :
    freeAfter lines (w ++ '`' :: before) = !((lines || decide ('\n' ∈ w)) && opens before && free before) := by
  induction w generalizing lines with
  | nil => simp [freeAfter, free]
  | cons c w ih =>
    simp only [List.mem_cons, not_or] at hw
    rw [List.cons_append, freeAfter, if_neg (Ne.symm hw.1), ih hw.2]
    simp [Bool.or_assoc, eq_comm (a := '\n')]

/-- The backtick that closes a gap opens none. -/
theorem Gap.not_free (h : Gap behind body after) (hfree : free behind = true) :
    free (body.reverse ++ '`' :: behind) = false := by
  have hbare : '`' ∉ body.reverse := by simpa using h.bare
  rw [free, freeAfter_tick hbare]
  simp [h.opens, hfree, h.lines]

/-! ## The pattern finds the gaps -/

theorem ends_inv {p q : Point} (h : q ∈ inlineMultilineCodeRe.ends p) :
    ∃ body, p.after = '`' :: (body ++ '`' :: q.after) ∧ Gap p.before body q.after ∧ q.groups = (1, body) :: p.groups := by
  simp only [inlineMultilineCodeRe, Pattern.notBehind, Pattern.notAhead, Pattern.mem_seq, Pattern.mem_guarded,
    Pattern.mem_lit, Pattern.mem_group, Pattern.mem_star, Pattern.mem_lazyStar] at h
  obtain ⟨_, ⟨rfl, hopens⟩, p₁, htick, p₃, ⟨p₂, ⟨m₁, ⟨u, hu, hubare⟩, m₂, hline, v, hv, hvbare⟩, rfl⟩, p₄, hclose, rfl,
    hahead⟩ := h
  have hbody : Reaches p₁ (u ++ ('\n' :: v)) p₂ := hu.trans (hline.trans hv)
  refine ⟨u ++ '\n' :: v, ?_, ⟨?_, by simp, ?_, ?_⟩, ?_⟩
  · have hclose' : p₂.after = '`' :: q.after := hclose.1.1
    rw [htick.1.1, hbody.1.1, hclose']
    rfl
  · intro hmem
    rcases List.mem_append.1 hmem with hmem | hmem
    · simpa using hubare _ hmem
    · rcases List.mem_cons.1 hmem with hmem | hmem
      · cases hmem
      · simpa using hvbare _ hmem
  · rw [opens, decide_eq_true_eq]
    constructor
    · intro hb
      simp [hb] at hopens
    · intro hb
      simp [hb] at hopens
  · intro hhead
    obtain ⟨t, ht⟩ : ∃ t, q.after = '`' :: t := by
      cases ha : q.after with
      | nil => simp [ha] at hhead
      | cons c t => exact ⟨t, by simpa [ha] using hhead⟩
    obtain ⟨m, hm, -⟩ := Regex.reaches_of_after (p := q) (w := ['`']) ht
    have := Pattern.mem_lit.2 hm
    simp_all
  · rw [hclose.2]
    show (1, p₁.upto p₂) :: p₂.groups = _
    rw [hbody.1.upto_eq, hbody.2, htick.2]

theorem match_gap {m : Match} (h : inlineMultilineCodeRe.matchAt behind s = some m) :
    ∃ body after, s = '`' :: (body ++ '`' :: after) ∧ Gap behind body after ∧ m = ⟨'`' :: (body ++ ['`']), [(1, body)]⟩ := by
  obtain ⟨q, hq, hread, -, hgroups⟩ := matchAt_some h
  obtain ⟨body, hs, hgap, hbody⟩ := ends_inv hq
  refine ⟨body, q.after, hs, hgap, ?_⟩
  have htext : m.text = '`' :: (body ++ ['`']) := by
    have hwhole : m.text ++ q.after = '`' :: (body ++ ['`']) ++ q.after := by
      rw [← hread.1]
      simpa using hs
    exact List.append_cancel_right hwhole
  cases m
  simp_all

theorem gap_match (h : Gap behind body after) :
    inlineMultilineCodeRe.matchAt behind ('`' :: (body ++ '`' :: after)) ≠ none := by
  apply matchAt_isSome
  · intro q hq
    obtain ⟨body', hs, -, -⟩ := ends_inv hq
    have := congrArg List.length hs
    simp only [List.length_cons, List.length_append] at this ⊢
    omega
  · -- the first line end of the body is where the greedy part stops
    obtain ⟨u, v, hbody, hu⟩ := List.eq_append_cons_of_mem h.lines
    have hbare : ∀ c ∈ body, c ≠ '`' := fun c hc => ne_of_mem_of_not_mem hc h.bare
    have hs : '`' :: (body ++ '`' :: after) = ['`'] ++ (u ++ (['\n'] ++ (v ++ (['`'] ++ after)))) := by simp [hbody]
    obtain ⟨p₁, h₁, ha₁⟩ := Regex.reaches_of_after (p := ⟨behind, '`' :: (body ++ '`' :: after), []⟩) hs
    obtain ⟨m₁, hm₁, hb₁⟩ := Regex.reaches_of_after ha₁
    obtain ⟨m₂, hm₂, hb₂⟩ := Regex.reaches_of_after hb₁
    obtain ⟨p₂, h₂, ha₂⟩ := Regex.reaches_of_after hb₂
    obtain ⟨q, hq, haq⟩ := Regex.reaches_of_after (p := { p₂ with groups := (1, p₁.upto p₂) :: p₂.groups }) ha₂
    have hopens := h.opens
    have hbehind : (!behind.head?.any fun c => c = '`' || c = '\\') = true := by
      cases behind with
      | nil => rfl
      | cons c behind => simpa [opens] using hopens
    have hahead : ((Pattern.lit ['`']).ends q).isEmpty = true := by
      rw [List.isEmpty_iff, List.eq_nil_iff_forall_not_mem]
      intro m hm
      have hnext : q.after = '`' :: m.after := (Pattern.mem_lit.1 hm).1.1
      exact h.closes (by rw [← haq, hnext]; rfl)
    refine ⟨q, ?_⟩
    simp only [inlineMultilineCodeRe, Pattern.notBehind, Pattern.notAhead, Pattern.mem_seq, Pattern.mem_guarded,
      Pattern.mem_lit, Pattern.mem_group, Pattern.mem_star, Pattern.mem_lazyStar]
    refine ⟨_, ⟨rfl, hbehind⟩, p₁, h₁, _, ⟨p₂, ⟨m₁, ⟨u, hm₁, ?_⟩, m₂, hm₂, v, h₂, ?_⟩, rfl⟩, q, hq, rfl, hahead⟩
    · intro c hc
      simpa using ⟨hbare c (by simp [hbody, hc]), ne_of_mem_of_not_mem hc hu⟩
    · intro c hc
      simpa using hbare c (by simp [hbody, hc])

end

/-! ## What the function rewrites -/

/-- `out` is `s`, read after `behind`, with its eligible gaps as fenced blocks. -/
inductive Edits : Str → Str → Str → Prop
  | nil (behind) : Edits behind [] []
  | kept {behind c s out} : ¬Eligible behind (c :: s) → Edits (c :: behind) s out → Edits behind (c :: s) (c :: out)
  | fenced {behind body after out} : Gap behind body after → codeShaped body = true → free behind = true →
    Edits ('`' :: (body.reverse ++ '`' :: behind)) after out →
    Edits behind ('`' :: (body ++ '`' :: after)) (fenced body ++ out)

/-- No gap that reaches over from `behind` into `s` has been taken up. -/
def Passed (behind s : Str) : Prop :=
  ∀ w before body after, behind = w ++ '`' :: before → '`' ∉ w → w.reverse ++ s = body ++ '`' :: after →
    Gap before body after → free before = false

section
variable {behind body after before w s out : Str}

theorem Eligible.cons {c : Char} (h : Eligible behind (c :: s)) : c = '`' := by
  obtain ⟨body, after, hs, -⟩ := h
  exact (List.cons.inj hs).1

theorem Eligible.of_gap (h : Gap behind body after) (he : Eligible behind ('`' :: (body ++ '`' :: after))) :
    codeShaped body = true ∧ free behind = true := by
  obtain ⟨body', after', hs, hgap, hcode, hfree⟩ := he
  obtain ⟨rfl, -⟩ := gap_eq h hgap (List.cons.inj hs).2
  exact ⟨hcode, hfree⟩

/-- None begins inside a gap that is free, nor at its end. -/
theorem Gap.inside (h : Gap behind body after) (hfree : free behind = true) {v y : Str} (hv : v ≠ []) (hy : y ≠ [])
    (hbody : '`' :: (body ++ ['`']) = v ++ y) : ¬Eligible (v.reverse ++ behind) (y ++ after) := by
  intro he
  obtain ⟨c, v, rfl⟩ := List.exists_cons_of_ne_nil hv
  obtain ⟨z, x, rfl⟩ : ∃ z x, y = z ++ [x] := (List.eq_nil_or_concat' y).resolve_left hy
  obtain ⟨rfl, hrest⟩ : '`' = c ∧ body ++ ['`'] = v ++ z ++ [x] := by simpa using hbody
  obtain ⟨rfl, hx⟩ := List.append_inj' hrest rfl
  cases z with
  | nil =>
    -- at the closing backtick
    obtain ⟨-, -, -, -, -, hfree'⟩ := he
    have hclosed := h.not_free hfree
    simp_all
  | cons d z =>
    obtain rfl : d = '`' := he.cons
    exact h.bare (by simp)

theorem free_of_passed (h : Gap behind body after) (hp : Passed behind ('`' :: (body ++ '`' :: after))) :
    free behind = true := by
  by_cases hmem : '`' ∈ behind
  · obtain ⟨w, before, rfl, hw⟩ := List.eq_append_cons_of_mem hmem
    rw [free, freeAfter_tick hw]
    by_cases hlines : '\n' ∈ w
    · by_cases hopens : opens before = true
      · have hgap : Gap before w.reverse (body ++ '`' :: after) :=
          ⟨by simpa using hw, by simpa using hlines, hopens, h.head_ne _⟩
        simp [hp w before _ _ rfl hw rfl hgap]
      · simp [hopens]
    · simp [hlines]
  · exact freeAfter_bare hmem

theorem Passed.plain {c : Char} (h : Passed behind (c :: s)) (hno : ∀ body after, c :: s = '`' :: (body ++ '`' :: after) →
    ¬Gap behind body after) : Passed (c :: behind) s := by
  intro w before body after hbehind hw hs hgap
  cases w with
  | nil =>
    obtain ⟨rfl, rfl⟩ := List.cons.inj hbehind
    exact absurd hgap (hno body after (by rw [← hs]; rfl))
  | cons d w =>
    obtain ⟨rfl, rfl⟩ := List.cons.inj hbehind
    exact h w before body after rfl (by simp_all) (by simpa using hs) hgap

theorem Passed.hit (h : Gap behind body after) (hfree : free behind = true) :
    Passed ('`' :: (body.reverse ++ '`' :: behind)) after := by
  intro w before body' after' hbehind hw _ _
  cases w with
  | nil =>
    obtain ⟨-, rfl⟩ := List.cons.inj hbehind
    exact h.not_free hfree
  | cons d w =>
    obtain ⟨rfl, -⟩ := List.cons.inj hbehind
    simp at hw

/-- A stretch where nothing is eligible stays as it is. -/
theorem Edits.over (h : Edits (w.reverse ++ behind) s out)
    (hw : ∀ v y, w = v ++ y → y ≠ [] → ¬Eligible (v.reverse ++ behind) (y ++ s)) : Edits behind (w ++ s) (w ++ out) := by
  induction w generalizing behind with
  | nil => exact h
  | cons c w ih =>
    apply Edits.kept
    · exact hw [] (c :: w) rfl (by simp)
    · apply ih
      · simpa using h
      · intro v y hv hy
        have := hw (c :: v) y (by rw [hv]; rfl) hy
        simpa using this

theorem scans_edits {ts : List Token} (h : Scans inlineMultilineCodeRe behind s ts) (hp : Passed behind s) :
    Edits behind s (ts.flatMap (Token.subst convert)) := by
  induction h with
  | nil behind => exact .nil behind
  | @plain behind c s ts hm _ ih =>
    have hno : ∀ body after, c :: s = '`' :: (body ++ '`' :: after) → ¬Gap behind body after := by
      intro body after hs hgap
      rw [hs] at hm
      exact gap_match hgap hm
    refine .kept ?_ (ih (hp.plain hno))
    intro he
    obtain ⟨body, after, hs, hgap, -⟩ := he
    exact hno body after hs hgap
  | @hit behind m t ts hm _ ih =>
    obtain ⟨body, after, hs, hgap, hmatch⟩ := match_gap hm
    subst hmatch
    obtain rfl : t = after := by simpa using hs
    have hs : '`' :: (body ++ ['`']) ++ t = '`' :: (body ++ '`' :: t) := by simp
    have hbehind : ('`' :: (body ++ ['`'])).reverse ++ behind = '`' :: (body.reverse ++ '`' :: behind) := by simp
    have hfree : free behind = true := free_of_passed hgap (by rw [← hs]; exact hp)
    have hrest := ih (by rw [hbehind]; exact .hit hgap hfree)
    rw [List.flatMap_cons]
    show Edits behind _ (convert ⟨'`' :: (body ++ ['`']), [(1, body)]⟩ ++ _)
    by_cases hcode : codeShaped body = true
    · rw [convert, Match.group]
      simp only [List.lookup_cons_self, Option.getD_some, if_pos hcode]
      rw [hs]
      exact .fenced hgap hcode hfree (by rw [← hbehind]; exact hrest)
    · rw [convert, Match.group]
      simp only [List.lookup_cons_self, Option.getD_some, if_neg hcode]
      apply hrest.over
      intro v y hv hy
      by_cases hnil : v = []
      · subst hnil
        obtain rfl : y = '`' :: (body ++ ['`']) := by simpa using hv.symm
        rw [hs]
        intro he
        exact hcode (he.of_gap hgap).1
      · exact hgap.inside hfree hnil hy hv

theorem upgrade_edits (markdown : Str) : Edits [] markdown (upgradeMultilineInlineCode markdown) := by
  apply scans_edits (Pattern.scans _ _ _)
  intro w before body after hnil
  simp at hnil

end

/-! ## The edits and the pieces -/

section
variable {ps : List Piece} {p : Piece} {behind before body s u w out : Str}

theorem fenced_ticks (body t : Str) : ∃ x, fenced body ++ t = '`' :: '`' :: x := ⟨_, rfl⟩

theorem span_text (body : Str) : (Piece.span 1 body).text = '`' :: (body ++ ['`']) := rfl

theorem OpensSpan.cons (h : OpensSpan ps u) : OpensSpan (p :: ps) (p.text ++ u) := by
  obtain ⟨qs, body, rest, rfl, rfl⟩ := h
  exact ⟨p :: qs, body, rest, rfl, texts_cons p qs⟩

/-- A span that begins in the first piece is that piece. -/
theorem OpensSpan.first (h : OpensSpan (p :: ps) u) (hu : u.length < p.text.length) : u = [] ∧ ∃ body, p = .span 1 body := by
  obtain ⟨qs, body, rest, hps, rfl⟩ := h
  cases qs with
  | nil => exact ⟨rfl, body, (List.cons.inj hps).1⟩
  | cons q qs =>
    obtain ⟨rfl, -⟩ := List.cons.inj hps
    simp at hu

theorem OpensSpan.tail (h : OpensSpan (p :: ps) (p.text ++ u)) : OpensSpan ps u := by
  obtain ⟨qs, body, rest, hps, hu⟩ := h
  cases qs with
  | nil =>
    obtain ⟨rfl, -⟩ := List.cons.inj hps
    simp [span_text] at hu
  | cons q qs =>
    obtain ⟨rfl, rfl⟩ := List.cons.inj hps
    exact ⟨qs, body, rest, rfl, List.append_cancel_left hu⟩

theorem Edits.head (h : Edits behind s out) : out.head? = s.head? := by
  cases h with
  | nil => rfl
  | kept => rfl
  | @fenced _ body _ out =>
    obtain ⟨x, hx⟩ := fenced_ticks body out
    rw [hx]
    rfl

theorem Upgraded.head (h : Upgraded ps out) : out.head? = (texts ps).head? := by
  induction h with
  | nil => rfl
  | kept p _ ih =>
    rw [texts_cons, List.head?_append, List.head?_append, ih]
  | @fenced ps out body =>
    obtain ⟨x, hx⟩ := fenced_ticks body out
    rw [hx]
    rfl

theorem Edits.split (h : Edits behind (w ++ s) out)
    (hw : ∀ v y, w = v ++ y → y ≠ [] → ¬Eligible (v.reverse ++ behind) (y ++ s)) :
    ∃ out', out = w ++ out' ∧ Edits (w.reverse ++ behind) s out' := by
  induction w generalizing behind out with
  | nil => exact ⟨out, rfl, h⟩
  | cons c w ih =>
    cases hs : c :: w ++ s with
    | nil => simp at hs
    | cons d t =>
      rw [hs] at h
      cases h with
      | kept _ hrest =>
        obtain ⟨rfl, rfl⟩ := List.cons.inj hs
        obtain ⟨out', rfl, hout⟩ := ih hrest fun v y hv hy => by
          have := hw (c :: v) y (by rw [hv]; rfl) hy
          simpa using this
        exact ⟨out', rfl, by simpa using hout⟩
      | fenced hgap hcode hfree _ =>
        exact absurd ⟨_, _, hs, hgap, hcode, hfree⟩ (hw [] (c :: w) rfl (by simp))

/-- A piece that is kept has nothing eligible in it. -/
theorem Edits.keeps (h : Edits behind (w ++ s) (w ++ out)) (hhead : out.head? = s.head?) :
    Edits (w.reverse ++ behind) s out ∧ ∀ v y, w = v ++ y → y ≠ [] → ¬Eligible (v.reverse ++ behind) (y ++ s) := by
  induction w generalizing behind with
  | nil =>
    refine ⟨h, ?_⟩
    intro v y hv hy
    exact absurd (List.append_eq_nil_iff.1 hv.symm).2 hy
  | cons c w ih =>
    generalize hs : c :: w ++ s = t at h
    generalize ht : c :: w ++ out = t' at h
    cases h with
    | nil => simp at hs
    | kept hno hrest =>
      obtain ⟨rfl, rfl⟩ := List.cons.inj hs
      obtain ⟨-, rfl⟩ := List.cons.inj ht
      obtain ⟨hout, hnone⟩ := ih hrest
      refine ⟨by simpa using hout, ?_⟩
      intro v y hv hy
      cases v with
      | nil =>
        obtain rfl : y = c :: w := hv.symm
        exact hno
      | cons d v =>
        obtain ⟨rfl, hw⟩ := List.cons.inj hv
        simpa using hnone v y hw hy
    | @fenced _ body after out' hgap _ _ _ =>
      -- two backticks would come out where the body begins
      obtain ⟨x, hx⟩ := fenced_ticks body out'
      rw [hx] at ht
      obtain ⟨-, hbody⟩ := List.cons.inj hs
      obtain ⟨-, hout⟩ := List.cons.inj ht
      replace hbody : (w ++ s).head? ≠ some '`' := by
        rw [show w ++ s = body ++ '`' :: after from hbody]
        exact hgap.head_ne _
      replace hout : (w ++ out).head? = some '`' := by
        rw [show w ++ out = '`' :: x from hout]
        rfl
      rw [List.head?_append, hhead, ← List.head?_append] at hout
      exact absurd hout hbody

/-- A free gap that is shaped like code comes out fenced. -/
theorem Edits.taken {after : Str} (h : Edits behind ((Piece.span 1 body).text ++ after) out) (hgap : Gap behind body after)
    (hcode : codeShaped body = true) (hfree : free behind = true) :
    ∃ out', out = InlineCode.fenced body ++ out' ∧ Edits ((Piece.span 1 body).text.reverse ++ behind) after out' := by
  have hs : (Piece.span 1 body).text ++ after = '`' :: (body ++ '`' :: after) := by simp [span_text]
  rw [hs] at h
  generalize ht : '`' :: (body ++ '`' :: after) = t at h
  cases h with
  | nil => cases ht
  | kept hno _ => exact absurd ⟨body, after, ht.symm, hgap, hcode, hfree⟩ hno
  | fenced hgap' _ _ hrest =>
    obtain ⟨rfl, rfl⟩ := gap_eq hgap hgap' (List.cons.inj ht).2
    exact ⟨_, rfl, by simpa [span_text] using hrest⟩

/-- A closed body comes out fenced only where it is a free gap shaped like code. -/
theorem Edits.took {after : Str} (h : Edits behind ((Piece.span 1 body).text ++ after) (InlineCode.fenced body ++ out))
    (hlines : '\n' ∈ body) (hclosed : CodeSpans.Closed body) :
    Gap behind body after ∧ codeShaped body = true ∧ free behind = true ∧
      Edits ((Piece.span 1 body).text.reverse ++ behind) after out := by
  have hs : (Piece.span 1 body).text ++ after = '`' :: (body ++ '`' :: after) := by simp [span_text]
  rw [hs] at h
  generalize ht : '`' :: (body ++ '`' :: after) = t at h
  generalize hout : InlineCode.fenced body ++ out = o at h
  cases h with
  | nil => cases ht
  | kept _ hrest =>
    obtain ⟨x, hx⟩ := fenced_ticks body out
    rw [hx] at hout
    obtain ⟨-, rfl⟩ := List.cons.inj ht
    obtain ⟨-, rfl⟩ := List.cons.inj hout
    have hhead := hrest.head
    cases body with
    | nil => simp at hlines
    | cons c body => exact absurd (by simpa using hhead.symm) hclosed.head
  | fenced hgap hcode hfree hrest =>
    obtain ⟨rfl, rfl⟩ := hclosed.body_eq hgap.bare hgap.closes (List.cons.inj ht).2
    obtain rfl := List.append_cancel_left hout
    exact ⟨hgap, hcode, hfree, by simpa [span_text] using hrest⟩

theorem upgraded_of_opens (h : Edits behind (texts ps) out) (hclosed : ∀ body, .span 1 body ∈ ps → CodeSpans.Closed body)
    (hspan : ∀ u s, texts ps = u ++ s → Eligible (u.reverse ++ behind) s → OpensSpan ps u) : Upgraded ps out := by
  induction ps generalizing behind out with
  | nil =>
    generalize hs : texts [] = s at h
    cases h with
    | nil => exact .nil
    | kept => cases hs
    | fenced => cases hs
  | cons p ps ih =>
    have hlater : ∀ u s, texts ps = u ++ s → Eligible (u.reverse ++ (p.text.reverse ++ behind)) s → OpensSpan ps u := by
      intro u s hs he
      apply OpensSpan.tail (p := p)
      apply hspan (p.text ++ u) s
      · rw [texts_cons, hs, List.append_assoc]
      · simpa using he
    have hinner : ∀ v y, p.text = v ++ y → y ≠ [] → Eligible (v.reverse ++ behind) (y ++ texts ps) →
        v = [] ∧ ∃ body, p = .span 1 body := by
      intro v y hv hy he
      have hopens := hspan v (y ++ texts ps) (by rw [texts_cons, hv, List.append_assoc]) he
      apply hopens.first
      have := List.length_pos_of_ne_nil hy
      rw [hv, List.length_append]
      omega
    rw [texts_cons] at h
    by_cases hfirst : p.text ≠ [] ∧ Eligible behind (p.text ++ texts ps)
    · obtain ⟨-, body, rfl⟩ := hinner [] p.text rfl hfirst.1 hfirst.2
      obtain ⟨body', after, hs, hgap, hcode, hfree⟩ := hfirst.2
      have hs' : body ++ '`' :: texts ps = body' ++ '`' :: after := by simpa [span_text] using hs
      obtain ⟨rfl, rfl⟩ := (hclosed body (by simp)).body_eq hgap.bare hgap.closes hs'
      obtain ⟨out', rfl, hout⟩ := h.taken hgap hcode hfree
      exact .fenced hgap.lines (ih hout (fun b hb => hclosed b (by simp [hb])) hlater)
    · obtain ⟨out', rfl, hout⟩ := h.split fun v y hv hy he => by
        obtain ⟨rfl, -⟩ := hinner v y hv hy he
        obtain rfl : p.text = y := hv
        exact hfirst ⟨hy, he⟩
      exact .kept p (ih hout (fun body hb => hclosed body (by simp [hb])) hlater)

theorem opens_of_upgraded (hup : Upgraded ps out) (h : Edits behind (texts ps) out)
    (hclosed : ∀ body, .span 1 body ∈ ps → CodeSpans.Closed body) :
    ∀ u s, texts ps = u ++ s → Eligible (u.reverse ++ behind) s → OpensSpan ps u := by
  induction hup generalizing behind with
  | nil =>
    intro u s hs he
    obtain ⟨body, after, rfl, -⟩ := he
    simp at hs
  | @kept ps out p hup ih =>
    intro u s hs he
    rw [texts_cons] at h hs
    obtain ⟨hout, hnone⟩ := h.keeps hup.head
    rcases List.append_eq_append_iff.1 hs with ⟨v, hu, hrest⟩ | ⟨y, hp, hs⟩
    · subst hu
      exact .cons (ih hout (fun body hb => hclosed body (by simp [hb])) v s hrest (by simpa using he))
    · by_cases hy : y = []
      · subst hy
        obtain rfl : p.text = u := by simpa using hp
        have := ih hout (fun body hb => hclosed body (by simp [hb])) [] s (List.append_cancel_left hs) (by simpa using he)
        simpa using this.cons (p := p)
      · rw [hs] at he
        exact absurd he (hnone u y hp hy)
  | @fenced ps out body hlines hup ih =>
    intro u s hs he
    have hbody := hclosed body (by simp)
    obtain ⟨hgap, hcode, hfree, hout⟩ := h.took hlines hbody
    rw [texts_cons] at hs
    rcases List.append_eq_append_iff.1 hs with ⟨v, hu, hrest⟩ | ⟨y, hp, hs⟩
    · subst hu
      exact .cons (ih hout (fun b hb => hclosed b (by simp [hb])) v s hrest (by simpa using he))
    · by_cases hu : u = []
      · exact ⟨[], body, ps, rfl, hu.symm⟩
      · by_cases hy : y = []
        · subst hy
          obtain rfl : (Piece.span 1 body).text = u := by simpa using hp
          have := ih hout (fun b hb => hclosed b (by simp [hb])) [] s (List.append_cancel_left hs) (by simpa using he)
          simpa using this.cons (p := .span 1 body)
        · rw [hs] at he
          exact absurd he (hgap.inside hfree hu hy hp)

end

/-! ## The whole text -/

/-- Nothing but whole spans of single backticks over several lines is rewritten,
if and only if every eligible gap of the text begins where such a span does. -/
theorem upgrade_touches_spans_iff (markdown : Str) :
    Upgraded (pieces markdown) (upgradeMultilineInlineCode markdown) ↔
      ∀ before after, markdown = before ++ after → Eligible before.reverse after →
        OpensSpan (pieces markdown) before := by
  have hedits := upgrade_edits markdown
  have hclosed : ∀ body, .span 1 body ∈ pieces markdown → CodeSpans.Closed body := fun body hb => pieces_closed hb
  constructor
  · intro hup before after hmarkdown he
    have htexts : Edits [] (texts (pieces markdown)) (upgradeMultilineInlineCode markdown) := by
      rw [pieces_text]
      exact hedits
    rw [← pieces_text markdown] at hmarkdown
    exact opens_of_upgraded hup htexts hclosed before after hmarkdown (by simpa using he)
  · intro hopens
    apply upgraded_of_opens (by rw [pieces_text]; exact hedits) hclosed
    intro before after hs he
    rw [pieces_text] at hs
    exact hopens before after hs (by simpa using he)

theorem Upgraded.same {ps : List Piece} {out : Str} (h : Upgraded ps out)
    (hps : ∀ body, .span 1 body ∈ ps → '\n' ∉ body) : out = texts ps := by
  induction h with
  | nil => rfl
  | kept p _ ih => rw [ih fun body hb => hps body (by simp [hb]), texts_cons]
  | fenced hlines => exact absurd hlines (hps _ (by simp))

def overLines : Piece → Bool
  | .span 1 body => body.contains '\n'
  | _ => false

theorem not_upgraded {markdown : Str} (hps : (pieces markdown).any overLines = false)
    (hout : upgradeMultilineInlineCode markdown ≠ markdown) :
    ¬Upgraded (pieces markdown) (upgradeMultilineInlineCode markdown) := by
  intro h
  have hsame := h.same fun body hb hlines => by
    have := List.any_eq_false.1 hps _ hb
    simp [overLines, hlines] at this
  rw [pieces_text] at hsame
  exact hout hsame

/-- The prose between two spans is taken for code. -/
theorem prose_between_spans_taken :
    ¬Upgraded (pieces "`a` and then (some prose that is long enough\nto be taken) for code `b`".toList)
      (upgradeMultilineInlineCode "`a` and then (some prose that is long enough\nto be taken) for code `b`".toList) :=
  not_upgraded (by decide +kernel) (by decide +kernel)

/-- Two lone backticks in a fenced block. -/
example : ¬Upgraded (pieces "```\necho `date; (still on the first line)\nand the second one`\n```".toList)
    (upgradeMultilineInlineCode "```\necho `date; (still on the first line)\nand the second one`\n```".toList) :=
  not_upgraded (by decide +kernel) (by decide +kernel)

end Cograph.InlineCode
