import Cograph.Strs
import Cograph.Patterns
import Cograph.NonBlank
import Cograph.Removals

/-!
# The sections of a wiki page, listed and read

`wiki/compact.py`: the prose cleaner, the titles of a page's sections and the
section with a given title. `casefold` is `str.casefold`.
-/

namespace Cograph.Compact

open Regex (Pattern)

/-! ## Lines -/

/-- `_FENCE_RE.match`. -/
def isFence (line : Str) : Bool :=
  "```".toList.isPrefixOf (Str.lstrip line) || "~~~".toList.isPrefixOf (Str.lstrip line)

/-- `_HEADING_RE.match`: the level and the words. -/
def headingMatch (line : Str) : Option (Nat × Str) :=
  let level := (line.takeWhile (· = '#')).length
  let rest := line.dropWhile (· = '#')
  if 1 ≤ level ∧ level ≤ 6 ∧ rest.head?.any Str.isSpace ∧ Str.strip rest ≠ [] then some (level, Str.strip rest) else none

/-- `_strip_code_fences`. -/
def stripCodeFences : Bool → List Str → List Str
  | _, [] => []
  | inFence, line :: lines =>
    if isFence line then stripCodeFences (!inFence) lines
    else if inFence then stripCodeFences inFence lines
    else line :: stripCodeFences inFence lines

/-! ## Prose -/

/-- `_HTML_COMMENT_RE`. -/
def htmlCommentRe : Pattern := .seq (.lit "<!--".toList) (.seq (.lazyStar fun _ => true) (.lit "-->".toList))

/-- `_MD_LINK_RE`. -/
def mdLinkRe : Pattern :=
  .seq (.lit ['[']) <| .seq (.group 1 (.plus (· ≠ ']'))) <|
    .seq (.lit "](".toList) (.seq (.star (· ≠ ')')) (.lit [')']))

/-- `_UNRESOLVED_RE`. -/
def unresolvedRe : Pattern :=
  .seq (.lit ['⚠']) <| .seq (.alt (.lit ['\ufe0f']) (.lit [])) <| .seq (.star Str.isSpace) <|
    .seq (.lit "unresolved:".toList) (.seq (.star Str.isSpace) (.plus fun c => !Str.isSpace c))

/-- `_clean_prose`. -/
def cleanProse (text : Str) : Str :=
  let text := htmlCommentRe.sub (fun _ => []) text
  let text := mdLinkRe.sub (·.group 1) text
  unresolvedRe.sub (fun _ => []) text

/-! ## Titles -/

/-- The loop of `extract_sections`. -/
def sectionsFrom (maxSections : Int) : List Str → List Str → List Str
  | sections, [] => sections
  | sections, line :: lines =>
    let sections :=
      match headingMatch line with
      | some (level, words) =>
        let title := Str.strip (cleanProse words)
        if 2 ≤ level ∧ title ≠ [] ∧ title ∉ sections then sections ++ [title] else sections
      | none => sections
    if (sections.length : Int) ≥ maxSections then sections else sectionsFrom maxSections sections lines

def extractSections (content : Str) (maxSections : Int) : List Str :=
  sectionsFrom maxSections [] (stripCodeFences false (Str.splitlines content))

/-- Every run of white space becomes a space. -/
def collapse : Str → Str
  | [] => []
  | c :: s =>
    if Str.isSpace c then (if s.head?.any Str.isSpace then collapse s else ' ' :: collapse s) else c :: collapse s

section
variable (casefold : Str → Str)

def normHeading (text : Str) : Str := casefold (Str.strip (collapse (cleanProse text)))

/-! ## Sections -/

/-- The headings from the second level on, outside fences: the line, the level
and what `title` makes of the words. -/
def headingsFrom (title : Str → Str) : Bool → Nat → List Str → List (Nat × Nat × Str)
  | _, _, [] => []
  | inFence, index, line :: lines =>
    if isFence line then headingsFrom title (!inFence) (index + 1) lines
    else if inFence then headingsFrom title inFence (index + 1) lines
    else
      match headingMatch line with
      | some (level, words) =>
        if 2 ≤ level then (index, level, title words) :: headingsFrom title inFence (index + 1) lines
        else headingsFrom title inFence (index + 1) lines
      | none => headingsFrom title inFence (index + 1) lines

/-- The lines from a heading up to the next of its level or above. -/
def block (lines : List Str) (lineIndex level : Nat) (headings : List (Nat × Nat × Str)) : Str :=
  let stop :=
    match headings.find? (·.2.1 ≤ level) with
    | some (nextIndex, _, _) => nextIndex
    | none => lines.length
  Str.strip (List.intercalate ['\n'] ((lines.take stop).drop lineIndex))

/-- The loop of `extract_section` over the headings. -/
def firstSection (lines : List Str) (target : Str) : List (Nat × Nat × Str) → Option Str
  | [] => none
  | (lineIndex, level, title) :: headings =>
    if title ≠ target then firstSection lines target headings else some (block lines lineIndex level headings)

def extractSection (content title : Str) : Option Str :=
  let target := normHeading casefold title
  if target = [] then none
  else
    let lines := Str.splitlines content
    firstSection lines target (headingsFrom (normHeading casefold) false 0 lines)

end

end Cograph.Compact

/-!
## What compaction lists can be read

A title that is listed is read back where its key is that of its heading and of
none before it. The cleaner takes out parts of the text in three passes, so that
cleaning once more changes nothing where no construct comes together over a gap.
-/

namespace Cograph.Compact

open Regex (Pattern Point Match Reads Reaches Pass Bridged)

/-! ## What the patterns match -/

def Comment (w : Str) : Prop := ∃ x, w = "<!--".toList ++ (x ++ "-->".toList)

/-- A link with its label. -/
def Link (label w : Str) : Prop :=
  label ≠ [] ∧ ']' ∉ label ∧ ∃ target, ')' ∉ target ∧ w = ['['] ++ (label ++ ("](".toList ++ (target ++ [')'])))

def Unresolved (w : Str) : Prop :=
  ∃ v g h x, (v = ['\ufe0f'] ∨ v = []) ∧ (∀ c ∈ g, Str.isSpace c = true) ∧ (∀ c ∈ h, Str.isSpace c = true) ∧ x ≠ [] ∧
    (∀ c ∈ x, (!Str.isSpace c) = true) ∧ w = ['⚠'] ++ (v ++ (g ++ ("unresolved:".toList ++ (h ++ x))))

section
variable {p q : Point} {b s w label : Str} {m : Match}

theorem mem_comment : q ∈ htmlCommentRe.ends p ↔ ∃ w, Comment w ∧ Reaches p w q := by
  unfold htmlCommentRe Comment
  simp only [Pattern.mem_seq, Pattern.mem_lit, Pattern.mem_lazyStar]
  constructor
  · intro h
    obtain ⟨m, hm, m', ⟨x, hx, -⟩, hq⟩ := h
    exact ⟨_, ⟨x, rfl⟩, hm.trans (hx.trans hq)⟩
  · intro h
    obtain ⟨w, ⟨x, rfl⟩, hq⟩ := h
    obtain ⟨m, hm, hq⟩ := hq.split
    obtain ⟨m', hm', hq⟩ := hq.split
    exact ⟨m, hm, m', ⟨x, hm', fun _ _ => trivial⟩, hq⟩

theorem mem_unresolved : q ∈ unresolvedRe.ends p ↔ ∃ w, Unresolved w ∧ Reaches p w q := by
  unfold unresolvedRe Unresolved
  simp only [Pattern.mem_seq, Pattern.mem_alt, Pattern.mem_lit, Pattern.mem_star, Pattern.mem_plus]
  constructor
  · intro h
    obtain ⟨m₁, h₁, m₂, h₂, m₃, ⟨g, h₃, hg⟩, m₄, h₄, m₅, ⟨h, h₅, hh⟩, x, hx, h₆, hspace⟩ := h
    obtain ⟨v, hv, h₂⟩ : ∃ v, (v = ['\ufe0f'] ∨ v = []) ∧ Reaches m₁ v m₂ := by
      rcases h₂ with h₂ | h₂
      · exact ⟨_, .inl rfl, h₂⟩
      · exact ⟨_, .inr rfl, h₂⟩
    exact ⟨_, ⟨v, g, h, x, hv, hg, hh, hx, hspace, rfl⟩, h₁.trans (h₂.trans (h₃.trans (h₄.trans (h₅.trans h₆))))⟩
  · intro h
    obtain ⟨w, ⟨v, g, h, x, hv, hg, hh, hx, hspace, rfl⟩, hq⟩ := h
    obtain ⟨m₁, h₁, hq⟩ := hq.split
    obtain ⟨m₂, h₂, hq⟩ := hq.split
    obtain ⟨m₃, h₃, hq⟩ := hq.split
    obtain ⟨m₄, h₄, hq⟩ := hq.split
    obtain ⟨m₅, h₅, hq⟩ := hq.split
    refine ⟨m₁, h₁, m₂, ?_, m₃, ⟨g, h₃, hg⟩, m₄, h₄, m₅, ⟨h, h₅, hh⟩, x, hx, hq, hspace⟩
    rcases hv with rfl | rfl
    · exact .inl h₂
    · exact .inr h₂

theorem link_sound (h : q ∈ mdLinkRe.ends p) : ∃ label w, Link label w ∧ Reads p w q ∧ q.groups = (1, label) :: p.groups := by
  unfold mdLinkRe at h
  simp only [Pattern.mem_seq, Pattern.mem_group, Pattern.mem_lit, Pattern.mem_star, Pattern.mem_plus,
    decide_eq_true_eq] at h
  obtain ⟨m₁, h₁, m₂, ⟨m, ⟨label, hne, hlabel, hl⟩, rfl⟩, m₃, h₃, m₄, ⟨target, h₄, ht⟩, h₅⟩ := h
  refine ⟨label, _, ⟨hne, fun hc => hl _ hc rfl, target, fun hc => ht _ hc rfl, rfl⟩, ?_, ?_⟩
  · exact h₁.1.trans (hlabel.1.trans (Reads.trans h₃.1 (h₄.1.trans h₅.1)))
  · rw [h₅.2, h₄.2, h₃.2]
    show (1, m₁.upto m) :: m.groups = _
    rw [hlabel.1.upto_eq, hlabel.2, h₁.2]

theorem link_complete {t : Str} (h : Link label w) (hp : p.after = w ++ t) : ∃ q, q ∈ mdLinkRe.ends p := by
  obtain ⟨hne, hl, target, ht, rfl⟩ := h
  unfold mdLinkRe
  simp only [Pattern.mem_seq, Pattern.mem_group, Pattern.mem_lit, Pattern.mem_star, Pattern.mem_plus, decide_eq_true_eq]
  simp only [List.append_assoc] at hp
  obtain ⟨m₁, h₁, ha₁⟩ := Regex.reaches_of_after hp
  obtain ⟨m, hm, ha⟩ := Regex.reaches_of_after ha₁
  obtain ⟨m₃, h₃, ha₃⟩ := Regex.reaches_of_after (p := { m with groups := (1, m₁.upto m) :: m.groups }) ha
  obtain ⟨m₄, h₄, ha₄⟩ := Regex.reaches_of_after ha₃
  obtain ⟨q, hq, -⟩ := Regex.reaches_of_after ha₄
  exact ⟨q, m₁, h₁, _, ⟨m, ⟨label, hne, hm, fun c hc he => hl (he ▸ hc)⟩, rfl⟩, m₃, h₃, m₄,
    ⟨target, h₄, fun c hc he => ht (he ▸ hc)⟩, hq⟩

theorem spells_comment : Regex.Spells htmlCommentRe Comment where
  sound h := by
    obtain ⟨w, hw, hq⟩ := mem_comment.1 h
    exact ⟨w, hw, hq.1⟩
  complete hw hp := by
    obtain ⟨q, hq, -⟩ := Regex.reaches_of_after hp
    exact ⟨q, mem_comment.2 ⟨_, hw, hq⟩⟩

theorem spells_unresolved : Regex.Spells unresolvedRe Unresolved where
  sound h := by
    obtain ⟨w, hw, hq⟩ := mem_unresolved.1 h
    exact ⟨w, hw, hq.1⟩
  complete hw hp := by
    obtain ⟨q, hq, -⟩ := Regex.reaches_of_after hp
    exact ⟨q, mem_unresolved.2 ⟨_, hw, hq⟩⟩

theorem spells_link : Regex.Spells mdLinkRe fun w => ∃ label, Link label w where
  sound h := by
    obtain ⟨label, w, hw, hread, -⟩ := link_sound h
    exact ⟨w, ⟨label, hw⟩, hread⟩
  complete hw hp := by
    obtain ⟨label, hw⟩ := hw
    exact link_complete hw hp

/-- A match is a link with the first group for its label. -/
theorem link_of_match (hm : mdLinkRe.matchAt b s = some m) : Link (m.group 1) m.text := by
  obtain ⟨q, hq, hread, -, hgroups⟩ := Pattern.matchAt_some hm
  obtain ⟨label, w, hw, hread', hlabel⟩ := link_sound hq
  have htext : m.text = w := List.append_cancel_right (hread.1.symm.trans hread'.1)
  have hgroup : m.group 1 = label := by
    unfold Match.group
    rw [hgroups, hlabel]
    rfl
  rwa [htext, hgroup]

end

/-! ## The passes of the cleaner -/

/-- A pass that takes out all of a match. -/
def removing (r : Pattern) {L : Str → Prop} (h : Regex.Spells r L) (hne : ¬L []) : Pass where
  pattern := r
  lead _ := 0
  stays _ := 0
  shorter hm := List.length_pos_of_ne_nil fun he => hne (he ▸ h.text hm)
  anywhere hm := h.anywhere hne hm
  open_left {b s m b' s' m'} hm _ := by
    obtain ⟨c, w, hc⟩ := List.exists_cons_of_ne_nil (l := m.text) fun he => hne (he ▸ h.text hm)
    exact ⟨c, by simp [hc], by simp⟩

theorem link_length {label w : Str} (h : Link label w) : 1 + label.length < w.length ∧
    (w.drop 1).take label.length = label ∧ ']' ∈ w := by
  obtain ⟨-, -, target, -, rfl⟩ := h
  refine ⟨?_, ?_, ?_⟩
  · simp
    omega
  · simp
  · simp

/-- The pass that leaves the labels of links. -/
def labels : Pass where
  pattern := mdLinkRe
  lead _ := 1
  stays m := (m.group 1).length
  shorter hm := (link_length (link_of_match hm)).1
  anywhere hm := spells_link.anywhere (by
    rintro ⟨label, hlink⟩
    have := (link_length hlink).1
    simp at this) hm
  open_left {b s m b' s' m'} hm hm' := by
    refine ⟨']', (link_length (link_of_match hm)).2.2, ?_⟩
    rw [(link_length (link_of_match hm')).2.1]
    exact (link_of_match hm').2.1

theorem comment_nil : ¬Comment [] := by
  rintro ⟨x, hx⟩
  cases hx

theorem unresolved_nil : ¬Unresolved [] := by
  rintro ⟨v, g, h, x, -, -, -, -, -, hx⟩
  cases hx

def passes : List Pass := [removing htmlCommentRe spells_comment comment_nil, labels,
  removing unresolvedRe spells_unresolved unresolved_nil]

theorem cleanProse_passes (text : Str) : cleanProse text = passes.foldl (fun x P => P.sub x) text := by
  have hlabels : ∀ x, mdLinkRe.sub (·.group 1) x = labels.sub x := by
    intro x
    refine Regex.subst_congr (Pattern.scans mdLinkRe [] x) fun b s m hm => ?_
    exact (link_length (link_of_match hm)).2.1.symm
  unfold cleanProse
  dsimp only
  rw [hlabels]
  rfl

/-- Cleaning once more changes nothing just when no construct comes together
over a gap. -/
theorem cleanProse_self_iff (text : Str) : cleanProse (cleanProse text) = cleanProse text ↔
    ∀ r ∈ [htmlCommentRe, mdLinkRe, unresolvedRe], ¬Bridged r (Regex.remains passes text) := by
  have h := Regex.remains_self_iff passes text
  rw [← cleanProse_passes, ← cleanProse_passes] at h
  rw [h]
  simp [passes, removing, labels]

/-! ## Headings and titles -/

/-- The title a heading is listed by. -/
def titleOf (words : Str) : Str := Str.strip (cleanProse words)

/-- The headings of a page with their words. -/
def headings (content : Str) : List (Nat × Nat × Str) := headingsFrom id false 0 (Str.splitlines content)

/-- The first section listed by a title. -/
def sectionOf (content title : Str) : Option Str :=
  firstSection (Str.splitlines content) title (headingsFrom titleOf false 0 (Str.splitlines content))

/-- A heading that is the first of its title is the first of the title's key. -/
def Keyed (casefold : Str → Str) (content : Str) : Prop :=
  ∀ pre index level words post, headings content = pre ++ (index, level, words) :: post → titleOf words ≠ [] →
    (∀ g ∈ pre, titleOf g.2.2 ≠ titleOf words) →
    normHeading casefold (titleOf words) = normHeading casefold words ∧ normHeading casefold words ≠ [] ∧
      ∀ g ∈ pre, normHeading casefold g.2.2 ≠ normHeading casefold words

section
variable {f : Str → Str} {inFence : Bool} {n : Nat} {lines : List Str} {g h : Nat × Nat × Str} {title : Str} {cap : Int}
  {sections : List Str} {hs pre post : List (Nat × Nat × Str)}

theorem headingsFrom_map (f : Str → Str) (inFence : Bool) (n : Nat) (lines : List Str) :
    headingsFrom f inFence n lines = (headingsFrom id inFence n lines).map fun h => (h.1, h.2.1, f h.2.2) := by
  fun_induction headingsFrom id inFence n lines <;> simp_all [headingsFrom]

theorem block_map (f : Str → Str) (lines : List Str) (index level : Nat) (hs : List (Nat × Nat × Str)) :
    block lines index level (hs.map fun h => (h.1, h.2.1, f h.2.2)) = block lines index level hs := by
  unfold block
  rw [List.find?_map]
  cases hf : hs.find? fun h => decide (h.2.1 ≤ level) <;> simp [hf]

/-- The first heading with the title sought has the section. -/
theorem firstSection_eq_some {body : Str} : firstSection lines title (hs.map fun h => (h.1, h.2.1, f h.2.2)) = some body ↔
    ∃ pre index level words post, hs = pre ++ (index, level, words) :: post ∧ f words = title ∧
      (∀ g ∈ pre, f g.2.2 ≠ title) ∧ body = block lines index level post := by
  induction hs with
  | nil => simp [firstSection]
  | cons h hs ih =>
    obtain ⟨index, level, words⟩ := h
    rw [List.map_cons, firstSection]
    by_cases ht : f words = title
    · simp only [ht, ne_eq, not_true, if_false, block_map, Option.some.injEq]
      constructor
      · intro h
        exact ⟨[], index, level, words, hs, rfl, ht, by simp, h.symm⟩
      · intro h
        obtain ⟨pre, index', level', words', post, hsplit, -, hpre, rfl⟩ := h
        cases pre with
        | nil =>
          obtain ⟨hhead, rfl⟩ := List.cons.inj hsplit
          obtain ⟨rfl, h⟩ := Prod.mk.inj hhead
          obtain ⟨rfl, -⟩ := Prod.mk.inj h
          rfl
        | cons g pre =>
          obtain ⟨rfl, -⟩ := List.cons.inj hsplit
          exact absurd ht (hpre _ List.mem_cons_self)
    · simp only [ht, ne_eq, not_false_eq_true, if_true, ih]
      constructor
      · intro h
        obtain ⟨pre, index', level', words', post, rfl, htitle, hpre, hbody⟩ := h
        refine ⟨_ :: pre, index', level', words', post, rfl, htitle, ?_, hbody⟩
        exact List.forall_mem_cons.2 ⟨ht, hpre⟩
      · intro h
        obtain ⟨pre, index', level', words', post, hsplit, htitle, hpre, hbody⟩ := h
        cases pre with
        | nil =>
          obtain ⟨hhead, -⟩ := List.cons.inj hsplit
          obtain ⟨-, hrest⟩ := Prod.mk.inj hhead
          exact absurd ((Prod.mk.inj hrest).2 ▸ htitle) ht
        | cons g pre =>
          obtain ⟨-, rfl⟩ := List.cons.inj hsplit
          exact ⟨pre, index', level', words', post, rfl, htitle, fun g hg => hpre g (List.mem_cons_of_mem _ hg), hbody⟩

/-! ## What is listed -/

/-- The sections so far with what one line lists. -/
def addLine (sections : List Str) (line : Str) : List Str :=
  match headingMatch line with
  | some (level, words) =>
    if 2 ≤ level ∧ titleOf words ≠ [] ∧ titleOf words ∉ sections then sections ++ [titleOf words] else sections
  | none => sections

theorem sectionsFrom_cons (cap : Int) (sections : List Str) (line : Str) (lines : List Str) :
    sectionsFrom cap sections (line :: lines) =
      if ((addLine sections line).length : Int) ≥ cap then addLine sections line
      else sectionsFrom cap (addLine sections line) lines := rfl

theorem addLine_keeps (sections : List Str) (line : Str) : sections ⊆ addLine sections line := by
  unfold addLine
  intro t ht
  split
  · split
    · exact List.mem_append_left _ ht
    · exact ht
  · exact ht

theorem addLine_length (sections : List Str) (line : Str) : (addLine sections line).length ≤ sections.length + 1 := by
  unfold addLine
  split
  · split
    · simp
    · omega
  · omega

theorem mem_addLine {line : Str} (h : title ∈ addLine sections line) : title ∈ sections ∨
    ∃ level words, headingMatch line = some (level, words) ∧ 2 ≤ level ∧ titleOf words ≠ [] ∧ titleOf words = title := by
  unfold addLine at h
  split at h
  · next level words hline =>
    split at h
    · next hadd =>
      rcases List.mem_append.1 h with h | h
      · exact .inl h
      · exact .inr ⟨level, words, hline, hadd.1, hadd.2.1, (List.mem_singleton.1 h).symm⟩
    · exact .inl h
  · exact .inl h

theorem addLine_mem {line words : Str} {level : Nat} (hline : headingMatch line = some (level, words)) (hlevel : 2 ≤ level)
    (hne : titleOf words ≠ []) : titleOf words ∈ addLine sections line := by
  unfold addLine
  rw [hline]
  dsimp only
  by_cases hmem : titleOf words ∈ sections
  · simp [hmem]
  · simp [hlevel, hne, hmem]

/-- A title that is listed is one of a heading. -/
theorem mem_sectionsFrom (h : title ∈ sectionsFrom cap sections (stripCodeFences inFence lines)) (n : Nat) :
    title ∈ sections ∨ title ≠ [] ∧ ∃ h ∈ headingsFrom id inFence n lines, titleOf h.2.2 = title := by
  induction lines generalizing inFence n sections with
  | nil => exact .inl h
  | cons line lines ih =>
    rw [stripCodeFences] at h
    rw [headingsFrom]
    by_cases hfence : isFence line
    · rw [if_pos hfence] at h ⊢
      exact ih h (n + 1)
    rw [if_neg hfence] at h ⊢
    by_cases hin : inFence
    · rw [if_pos hin] at h ⊢
      exact ih h (n + 1)
    rw [if_neg hin] at h ⊢
    rw [sectionsFrom_cons] at h
    have hline : title ∈ addLine sections line → title ∈ sections ∨ title ≠ [] ∧
        ∃ h ∈ (match headingMatch line with
          | some (level, words) =>
            if 2 ≤ level then (n, level, id words) :: headingsFrom id inFence (n + 1) lines
            else headingsFrom id inFence (n + 1) lines
          | none => headingsFrom id inFence (n + 1) lines), titleOf h.2.2 = title := by
      intro h
      rcases mem_addLine h with h | ⟨level, words, hmatch, hlevel, hne, rfl⟩
      · exact .inl h
      · rw [hmatch]
        dsimp only
        rw [if_pos hlevel]
        exact .inr ⟨hne, _, List.mem_cons_self, rfl⟩
    split at h
    · exact hline h
    · rcases ih h (n + 1) with h | ⟨hne, g, hg, rfl⟩
      · exact hline h
      · refine .inr ⟨hne, g, ?_, rfl⟩
        split
        · split
          · exact List.mem_cons_of_mem _ hg
          · exact hg
        · exact hg

/-- With room enough the title of every heading is listed. -/
theorem sectionsFrom_all (hcap : (lines.length + sections.length : Int) < cap) (n : Nat) :
    sections ⊆ sectionsFrom cap sections (stripCodeFences inFence lines) ∧
      ∀ h ∈ headingsFrom id inFence n lines, titleOf h.2.2 ≠ [] →
        titleOf h.2.2 ∈ sectionsFrom cap sections (stripCodeFences inFence lines) := by
  induction lines generalizing inFence n sections with
  | nil => exact ⟨fun _ h => h, fun h hh => by cases hh⟩
  | cons line lines ih =>
    rw [List.length_cons, Nat.cast_succ] at hcap
    rw [stripCodeFences, headingsFrom]
    by_cases hfence : isFence line
    · rw [if_pos hfence, if_pos hfence]
      exact ih (by omega) (n + 1)
    rw [if_neg hfence, if_neg hfence]
    by_cases hin : inFence
    · rw [if_pos hin, if_pos hin]
      exact ih (by omega) (n + 1)
    rw [if_neg hin, if_neg hin, sectionsFrom_cons]
    have hlen := addLine_length sections line
    rw [if_neg (by omega)]
    obtain ⟨hkeep, hall⟩ := @ih inFence (addLine sections line) (by omega) (n + 1)
    refine ⟨fun t ht => hkeep (addLine_keeps sections line ht), fun h hh hne => ?_⟩
    split at hh
    · next level words hmatch =>
      split at hh
      · next hlevel =>
        rcases List.mem_cons.1 hh with rfl | hh
        · exact hkeep (addLine_mem hmatch hlevel hne)
        · exact hall h hh hne
      · exact hall h hh hne
    · exact hall h hh hne

/-! ## A block tells its heading -/

/-- The lines of the headings go up, and each has its words. -/
theorem headingsFrom_lines (all : List Str) (hlines : all.drop n = lines) :
    ∀ pre index level words post, headingsFrom id inFence n lines = pre ++ (index, level, words) :: post →
      n ≤ index ∧ (∃ line, all[index]? = some line ∧ headingMatch line = some (level, words)) ∧
        ∀ g ∈ post, index < g.1 := by
  induction lines generalizing inFence n with
  | nil =>
    intro pre index level words post h
    simp [headingsFrom] at h
  | cons line lines ih =>
    have hnext : all.drop (n + 1) = lines := by rw [← List.drop_drop, hlines]; rfl
    have hhere : all[n]? = some line := by rw [← List.head?_drop, hlines]; rfl
    have hlater : ∀ {f : Bool} pre index level words post, headingsFrom id f (n + 1) lines = pre ++ (index, level, words) :: post →
        n ≤ index ∧ (∃ line, all[index]? = some line ∧ headingMatch line = some (level, words)) ∧
          ∀ g ∈ post, index < g.1 := by
      intro f pre index level words post h
      obtain ⟨hle, hrest⟩ := ih hnext pre index level words post h
      exact ⟨by omega, hrest⟩
    intro pre index level words post h
    rw [headingsFrom] at h
    split at h
    · exact hlater _ _ _ _ _ h
    split at h
    · exact hlater _ _ _ _ _ h
    split at h
    · next level' words' hmatch =>
      split at h
      · cases pre with
        | nil =>
          obtain ⟨hhead, rfl⟩ := List.cons.inj h
          obtain ⟨rfl, hrest⟩ := Prod.mk.inj hhead
          obtain ⟨rfl, rfl⟩ := Prod.mk.inj hrest
          refine ⟨Nat.le_refl _, ⟨line, hhere, hmatch⟩, fun g hg => ?_⟩
          obtain ⟨pre, post, hg⟩ := List.append_of_mem hg
          obtain ⟨index, level, words⟩ := g
          exact (ih hnext _ _ _ _ _ hg).1
        | cons g pre => exact hlater _ _ _ _ _ (List.cons.inj h).2
      · exact hlater _ _ _ _ _ h
    · exact hlater _ _ _ _ _ h

theorem headingMatch_eq {hashes rest : Str} (hall : ∀ c ∈ hashes, c = '#') (hspace : rest.head?.any Str.isSpace = true) :
    headingMatch (hashes ++ rest) = if 1 ≤ hashes.length ∧ hashes.length ≤ 6 ∧ Str.strip rest ≠ [] then
      some (hashes.length, Str.strip rest) else none := by
  obtain ⟨c, rest, rfl⟩ : ∃ c r, rest = c :: r := by
    cases rest with
    | nil => cases hspace
    | cons c r => exact ⟨c, r, rfl⟩
  have hc : ¬c = '#' := by
    rintro rfl
    cases hspace
  have hhashes : ∀ c ∈ hashes, decide (c = '#') = true := fun c hc => decide_eq_true (hall c hc)
  unfold headingMatch
  rw [List.takeWhile_append_of_pos hhashes, List.dropWhile_append_of_pos hhashes]
  have hspace : Str.isSpace c = true := hspace
  simp [hc, hspace]

theorem headingMatch_some {line words : Str} {level : Nat} (h : headingMatch line = some (level, words)) :
    ∃ hashes rest, line = '#' :: hashes ++ rest ∧ (∀ c ∈ '#' :: hashes, c = '#') ∧ rest.head?.any Str.isSpace = true ∧
      Str.rstrip rest ≠ [] := by
  have hline := (List.takeWhile_append_dropWhile (p := fun c => decide (c = '#')) (l := line)).symm
  have hall : ∀ c ∈ line.takeWhile fun c => decide (c = '#'), c = '#' := fun c hc => by
    simpa using List.all_eq_true.1 List.all_takeWhile c hc
  unfold headingMatch at h
  dsimp only at h
  split at h
  · next hcond =>
    obtain ⟨h₁, -, hspace, hne⟩ := hcond
    obtain ⟨c, hashes, hhashes⟩ := List.exists_cons_of_ne_nil (List.ne_nil_of_length_pos h₁)
    rw [hhashes] at hline hall
    obtain rfl := hall c List.mem_cons_self
    refine ⟨hashes, _, hline, hall, hspace, fun he => ?_⟩
    rw [← Str.strip_rstrip, he] at hne
    exact hne rfl
  · cases h

/-- A heading is read the same without the white space behind it. -/
theorem headingMatch_rstrip {line words : Str} {level : Nat} (h : headingMatch line = some (level, words)) :
    headingMatch (Str.rstrip line) = some (level, words) := by
  obtain ⟨hashes, rest, rfl, hall, hspace, hne⟩ := headingMatch_some h
  have hspace' : (Str.rstrip rest).head?.any Str.isSpace = true := by
    obtain ⟨c, r, hc⟩ := List.exists_cons_of_ne_nil hne
    have hhead : (Str.rstrip rest).head? = some c := by rw [hc]; rfl
    rw [Str.rstrip_head hhead] at hspace
    rwa [hhead]
  rw [Str.rstrip_over hne, headingMatch_eq hall hspace', Str.strip_rstrip, ← headingMatch_eq hall hspace, h]

/-- The first line of a block, up to white space, is its heading. -/
theorem block_heading {line more : Str} (hfeed : '\n' ∉ line) (hmore : more = [] ∨ ∃ s, more = '\n' :: s)
    {level : Nat} {words : Str} (h : headingMatch line = some (level, words)) :
    headingMatch ((Str.strip (line ++ more)).takeWhile (· ≠ '\n')) = some (level, words) := by
  have hfeedless : ∀ c ∈ line, decide (c ≠ '\n') = true := fun c hc => decide_eq_true fun he => hfeed (he ▸ hc)
  obtain ⟨hashes, rest, hline, -, -, -⟩ := headingMatch_some h
  have hl : Str.lstrip (line ++ more) = line ++ more := by
    rw [hline]
    rfl
  unfold Str.strip
  rw [hl]
  by_cases hblank : Str.rstrip more = []
  · obtain ⟨w, hw, hspaces⟩ := Str.rstrip_append more
    rw [hblank, List.nil_append] at hw
    obtain ⟨w', hw', -⟩ := Str.rstrip_append line
    have hpre : Str.rstrip line <+: line := ⟨w', hw'.symm⟩
    rw [hw, Str.rstrip_of_spaces hspaces, List.takeWhile_eq_self_iff.2 fun c hc => hfeedless c (hpre.subset hc)]
    exact headingMatch_rstrip h
  · obtain ⟨s, rfl⟩ : ∃ s, more = '\n' :: s := by
      rcases hmore with rfl | hmore
      · exact absurd rfl hblank
      · exact hmore
    obtain ⟨c, r, hc⟩ := List.exists_cons_of_ne_nil hblank
    have hhead : some '\n' = some c := Str.rstrip_head (s := '\n' :: s) (by rw [hc]; rfl)
    obtain rfl := Option.some.inj hhead
    rw [Str.rstrip_over hblank, hc, List.takeWhile_append_of_pos hfeedless]
    simp [h]

theorem block_words {content : Str} {index level : Nat} {words : Str}
    (h : headings content = pre ++ (index, level, words) :: post) :
    headingMatch ((block (Str.splitlines content) index level post).takeWhile (· ≠ '\n')) = some (level, words) := by
  obtain ⟨-, ⟨line, hline, hmatch⟩, hpost⟩ := headingsFrom_lines (Str.splitlines content) List.drop_zero _ _ _ _ _ h
  obtain ⟨hlt, hget⟩ := List.getElem?_eq_some_iff.1 hline
  have hstop : ∀ stop, index < stop →
      headingMatch ((Str.strip (List.intercalate ['\n'] (((Str.splitlines content).take stop).drop index))).takeWhile
        (· ≠ '\n')) = some (level, words) := by
    intro stop hstop
    have hlt' : index < ((Str.splitlines content).take stop).length := by
      rw [List.length_take]
      omega
    rw [List.drop_eq_getElem_cons hlt', List.getElem_take, hget]
    have hfeed : '\n' ∉ line := fun h => by
      have := Str.mem_splitlines (hget ▸ List.getElem_mem hlt) _ h
      cases this
    cases hmore : ((Str.splitlines content).take stop).drop (index + 1) with
    | nil =>
      have := block_heading hfeed (.inl rfl) hmatch
      rw [List.append_nil] at this
      simpa using this
    | cons next more =>
      rw [List.intercalate_cons_cons, List.append_assoc]
      exact block_heading hfeed (.inr ⟨_, rfl⟩) hmatch
  unfold block
  cases hfind : post.find? fun h => decide (h.2.1 ≤ level) with
  | none => exact hstop _ hlt
  | some g => exact hstop _ (hpost g (List.mem_of_find?_eq_some hfind))

/-- A heading is the first of its title. -/
theorem first_heading {x : Nat × Nat × Str} (hx : x ∈ hs) : ∃ pre index level words post,
    hs = pre ++ (index, level, words) :: post ∧ titleOf words = titleOf x.2.2 ∧
      ∀ g ∈ pre, titleOf g.2.2 ≠ titleOf x.2.2 := by
  induction hs with
  | nil => cases hx
  | cons g hs ih =>
    obtain ⟨index, level, words⟩ := g
    by_cases ht : titleOf words = titleOf x.2.2
    · exact ⟨[], index, level, words, hs, rfl, ht, fun g hg => by cases hg⟩
    · have hmem : x ∈ hs := by
        rcases List.mem_cons.1 hx with rfl | hx
        · exact absurd rfl ht
        · exact hx
      obtain ⟨pre, index', level', words', post, rfl, htitle, hpre⟩ := ih hmem
      exact ⟨_ :: pre, index', level', words', post, rfl, htitle, List.forall_mem_cons.2 ⟨ht, hpre⟩⟩

end

/-! ## Reading what is listed -/

section
variable {casefold : Str → Str} {content title body : Str}

theorem section_eq_some : sectionOf content title = some body ↔
    ∃ pre index level words post, headings content = pre ++ (index, level, words) :: post ∧ titleOf words = title ∧
      (∀ g ∈ pre, titleOf g.2.2 ≠ title) ∧ body = block (Str.splitlines content) index level post := by
  unfold sectionOf headings
  rw [headingsFrom_map]
  exact firstSection_eq_some

theorem extract_eq_some : extractSection casefold content title = some body ↔ normHeading casefold title ≠ [] ∧
    ∃ pre index level words post, headings content = pre ++ (index, level, words) :: post ∧
      normHeading casefold words = normHeading casefold title ∧
      (∀ g ∈ pre, normHeading casefold g.2.2 ≠ normHeading casefold title) ∧
      body = block (Str.splitlines content) index level post := by
  unfold extractSection headings
  dsimp only
  rw [headingsFrom_map, ← firstSection_eq_some]
  split
  · next h => simp [h]
  · next h => simp [h]

/-- Two headings that read the same, each before all others of its kind, are one. -/
theorem same_split {pre pre' post post' : List (Nat × Nat × Str)} {x x' : Nat × Nat × Str}
    (h : pre ++ x :: post = pre' ++ x' :: post') (hx : x ∉ pre') (hx' : x' ∉ pre) : pre' = pre := by
  rcases List.append_eq_append_iff.1 h with ⟨u, hu, hrest⟩ | ⟨u, hu, hrest⟩
  · cases u with
    | nil => rw [hu, List.append_nil]
    | cons y u =>
      obtain ⟨rfl, -⟩ := List.cons.inj hrest
      exact absurd (by simp [hu]) hx
  · cases u with
    | nil => rw [hu, List.append_nil]
    | cons y u =>
      obtain ⟨rfl, -⟩ := List.cons.inj hrest
      exact absurd (by simp [hu]) hx'

theorem keyed_of_read (hread : ∀ maxSections, ∀ title ∈ extractSections content maxSections, ∃ body,
    sectionOf content title = some body ∧ extractSection casefold content title = some body) :
    Keyed casefold content := by
  intro pre index level words post hsplit hne hfirst
  have hmem : (index, level, words) ∈ headings content := by simp [hsplit]
  have hroom : ((Str.splitlines content).length + ([] : List Str).length : Int) < (Str.splitlines content).length + 1 := by
    simp
  obtain ⟨body, hsection, hextract⟩ := hread _ _ ((sectionsFrom_all hroom 0).2 _ hmem hne)
  obtain ⟨hkeyne, pre', index', level', words', post', hsplit', hkey, hfirst', hbody⟩ := extract_eq_some.1 hextract
  have hsame : body = block (Str.splitlines content) index level post :=
    Option.some.inj (hsection.symm.trans (section_eq_some.2 ⟨pre, index, level, words, post, hsplit, rfl, hfirst, rfl⟩))
  have hwords : words' = words := by
    have h := block_words hsplit'
    rw [← hbody, hsame, block_words hsplit] at h
    exact (Prod.mk.inj (Option.some.inj h)).2.symm
  rw [hwords] at hkey hsplit'
  have hpre : pre' = pre :=
    same_split (hsplit.symm.trans hsplit') (fun h => hfirst' _ h hkey) (fun h => hfirst _ h rfl)
  rw [hpre] at hfirst'
  rw [hkey]
  exact ⟨rfl, hkeyne, hfirst'⟩

theorem read_of_keyed {maxSections : Int} (hkeyed : Keyed casefold content) (htitle : title ∈ extractSections content maxSections) :
    ∃ body, sectionOf content title = some body ∧ extractSection casefold content title = some body := by
  rcases mem_sectionsFrom htitle 0 with htitle | ⟨hne, x, hx, rfl⟩
  · cases htitle
  obtain ⟨pre, index, level, words, post, hsplit, ht, hfirst⟩ := first_heading hx
  rw [← ht] at hne hfirst ⊢
  obtain ⟨hkey, hkeyne, hpre⟩ := hkeyed pre index level words post hsplit hne hfirst
  refine ⟨block (Str.splitlines content) index level post, ?_, ?_⟩
  · exact section_eq_some.2 ⟨pre, index, level, words, post, hsplit, rfl, hfirst, rfl⟩
  · rw [← hkey] at hkeyne hpre
    exact extract_eq_some.2 ⟨hkeyne, pre, index, level, words, post, hsplit, hkey.symm, hpre, rfl⟩

end

/-- The titles that are listed are read back, and cleaning once more changes
nothing, just when the headings are keyed and no construct comes together over a
gap. -/
theorem listed_sections_read (casefold : Str → Str) (content : Str) :
    ((∀ maxSections, ∀ title ∈ extractSections content maxSections, ∃ body,
        sectionOf content title = some body ∧ extractSection casefold content title = some body) ∧
      cleanProse (cleanProse content) = cleanProse content) ↔
    Keyed casefold content ∧
      ∀ r ∈ [htmlCommentRe, mdLinkRe, unresolvedRe], ¬Bridged r (Regex.remains passes content) := by
  rw [cleanProse_self_iff]
  exact and_congr_left' ⟨keyed_of_read, fun h _ _ => read_of_keyed h⟩

/-- A badge in a link is listed by a title that is cleaned once more and not
found. -/
theorem badge_not_read : ¬∀ content : Str,
    (∀ title ∈ extractSections content 24, ∃ body,
        sectionOf content title = some body ∧ extractSection Str.lower content title = some body) ∧
      cleanProse (cleanProse content) = cleanProse content := by
  intro h
  obtain ⟨body, -, hbody⟩ := (h "## [![b](u)](v)".toList).1 "![b](v)".toList (by decide +kernel)
  have hnone : extractSection Str.lower "## [![b](u)](v)".toList "![b](v)".toList = none := by decide +kernel
  rw [hnone] at hbody
  cases hbody

end Cograph.Compact
