import Cograph.Replace
import Cograph.Strs
import Cograph.Joins
import Cograph.Occurrences

/-!
# The labels of a diagram

`wiki/pipeline.py`: `_split_label_for_wrap` and `_wrap_long_label_text`, which
put line breaks into the long labels of a Mermaid diagram.
-/

namespace Cograph.Mermaid

def labelWrapThreshold : Nat := 24

def labelLineTarget : Nat := 18

def labelMaxLines : Nat := 3

/-! ## Tokens -/

/-- The separators of a label, the first ones first. -/
def separators : List Char := ['.', '/', '_']

/-- The parts between separators, each but the last with the separator again. -/
def rejoined (sep : Char) (parts : List Str) : List Str := parts.dropLast.map (· ++ [sep]) ++ parts.getLast?.toList

/-- The parts of a text at one separator, where there are several. -/
def splitAtSeparator (text : Str) (sep : Char) : Option (List Str) :=
  if sep ∈ text then
    let parts := (text.splitOn sep).filter (· ≠ [])
    if 2 ≤ parts.length then some (rejoined sep parts) else none
  else none

/-- `_CAMEL_BOUNDARY_RE` between a character, where there is one, and the rest. -/
def camelBoundary (before : Option Char) : Str → Bool
  | [] => false
  | c :: s => c.isUpper && (before.any Char.isLower || s.head?.any Char.isLower)

/-- `_CAMEL_BOUNDARY_RE.split`. -/
def camelSplit : Option Char → Str → List Str
  | _, [] => [[]]
  | before, c :: s =>
    let rest := (camelSplit (some c) s).modifyHead (c :: ·)
    if camelBoundary before (c :: s) then [] :: rest else rest

/-- `_split_label_for_wrap`. -/
def splitLabelForWrap (text : Str) : List Str :=
  match separators.findSome? (splitAtSeparator text) with
  | some parts => parts
  | none =>
    let parts := (camelSplit none text).filter (· ≠ [])
    if 2 ≤ parts.length then parts else [text]

/-! ## Lines -/

/-- A text in pieces of one length, the last one shorter. -/
def hardBreak (text : Str) : List Str :=
  (List.range ((text.length + (labelLineTarget - 1)) / labelLineTarget)).map fun i =>
    (text.drop (labelLineTarget * i)).take labelLineTarget

/-- The tokens put on lines, from the line that is being filled on. -/
def packTokens : Str → List Str → List Str
  | current, [] => if current = [] then [] else [current]
  | current, tok :: rest =>
    if current = [] then packTokens tok rest
    else if current.length + tok.length ≤ labelLineTarget then packTokens (current ++ tok) rest
    else current :: packTokens tok rest

def lineBreak : Str := "<br/>".toList

/-- The text in the attribute that shows the full label. -/
def titleSafe (text : Str) : Str :=
  let amp := Replace.replace "&".toList "&amp;".toList text
  let lt := Replace.replace "<".toList "&lt;".toList amp
  let gt := Replace.replace ">".toList "&gt;".toList lt
  Replace.replace "'".toList "&#x27;".toList gt

/-- The tokens of a long label that are put on lines. -/
def labelTokens (text : Str) : List Str :=
  let tokens := splitLabelForWrap text
  if tokens.length = 1 then hardBreak text else tokens

/-- `_wrap_long_label_text`. -/
def wrapLongLabelText (text : Str) : Str :=
  if text.length ≤ labelWrapThreshold then text
  else if Str.contains text "<br".toList then text
  else
    let lines := packTokens [] (labelTokens text)
    if labelMaxLines < lines.length then
      let kept := lines.take labelMaxLines
      let marked := kept.dropLast ++ kept.getLast?.toList.map (Str.rstrip · ++ ['…'])
      "<span title='".toList ++ titleSafe text ++ "'>".toList ++ List.intercalate lineBreak marked ++ "</span>".toList
    else List.intercalate lineBreak lines

end Cograph.Mermaid

/-!
## What wrapping keeps of a label

A label that is wrapped keeps its text where no segment between the separators
it is split at is empty; of a label that is cut off this is about the segments
on the lines that are kept. The full label can always be read off the title.
-/

namespace Cograph.Mermaid

/-! ## Lines -/

/-- How many tokens of these widths stand on so many further lines, after so
many characters on the line that is being filled. -/
def standing : Nat → Nat → List Nat → Nat
  | _, _, [] => 0
  | more, used, w :: ws =>
    if used = 0 ∨ used + w ≤ labelLineTarget then standing more (used + w) ws + 1
    else if more = 0 then 0
    else standing (more - 1) w ws + 1

theorem packTokens_cons {cur : Str} (hcur : cur ≠ []) (tok : Str) (rest : List Str) :
    packTokens cur (tok :: rest) =
      if cur.length + tok.length ≤ labelLineTarget then packTokens (cur ++ tok) rest else cur :: packTokens tok rest := by
  rw [packTokens, if_neg hcur]

theorem packTokens_flatten (toks : List Str) : ∀ cur, (packTokens cur toks).flatten = cur ++ toks.flatten := by
  induction toks with
  | nil =>
    intro cur
    by_cases hcur : cur = [] <;> simp [packTokens, hcur]
  | cons tok rest ih =>
    intro cur
    by_cases hcur : cur = []
    · simp [packTokens, hcur, ih]
    · rw [packTokens_cons hcur]
      split <;> simp [ih]

/-- Each line holds characters of the tokens only. -/
theorem mem_packTokens {toks : List Str} {cur line : Str} {c : Char} (h : line ∈ packTokens cur toks) (hc : c ∈ line) :
    c ∈ cur ++ toks.flatten := by
  rw [← packTokens_flatten]
  exact List.mem_flatten.2 ⟨line, h, hc⟩

theorem packTokens_ne_nil {toks : List Str} (htoks : ∀ tok ∈ toks, tok ≠ []) : ∀ {cur}, cur ≠ [] →
    packTokens cur toks ≠ [] := by
  induction toks with
  | nil =>
    intro cur hcur
    simp [packTokens, hcur]
  | cons tok rest ih =>
    intro cur hcur
    have hrest : ∀ tok ∈ rest, tok ≠ [] := fun t ht => htoks t (List.mem_cons_of_mem _ ht)
    rw [packTokens_cons hcur]
    split
    · exact ih hrest (by simp [hcur])
    · simp

/-- The first lines hold the first tokens, as many as stand there. -/
theorem packTokens_take {toks : List Str} (htoks : ∀ tok ∈ toks, tok ≠ []) : ∀ {cur} (_ : cur ≠ []) (more : Nat),
    ((packTokens cur toks).take (more + 1)).flatten =
      cur ++ (toks.take (standing more cur.length (toks.map List.length))).flatten := by
  induction toks with
  | nil =>
    intro cur hcur more
    simp [packTokens, hcur]
  | cons tok rest ih =>
    intro cur hcur more
    have hrest : ∀ tok ∈ rest, tok ≠ [] := fun t ht => htoks t (List.mem_cons_of_mem _ ht)
    have hlen : cur.length ≠ 0 := by simpa using hcur
    rw [packTokens_cons hcur, List.map_cons, standing]
    by_cases hfits : cur.length + tok.length ≤ labelLineTarget
    · have hlonger : cur ++ tok ≠ [] := by simp [hcur]
      have hstep := ih hrest hlonger more
      rw [if_pos hfits, if_pos (.inr hfits), hstep, List.take_succ_cons, List.length_append]
      simp
    · rw [if_neg hfits, if_neg (by simp [hlen, hfits]), List.take_succ_cons]
      cases more with
      | zero => simp
      | succ more =>
        have hstep := ih hrest (htoks tok (by simp)) more
        rw [if_neg (by omega), List.take_succ_cons, List.flatten_cons, hstep]
        simp

/-- There are more lines just where the tokens do not all stand on the first ones. -/
theorem packTokens_more {toks : List Str} (htoks : ∀ tok ∈ toks, tok ≠ []) : ∀ {cur} (_ : cur ≠ []) (more : Nat),
    more + 1 < (packTokens cur toks).length ↔ standing more cur.length (toks.map List.length) < toks.length := by
  induction toks with
  | nil =>
    intro cur hcur more
    simp [packTokens, hcur]
  | cons tok rest ih =>
    intro cur hcur more
    have hrest : ∀ tok ∈ rest, tok ≠ [] := fun t ht => htoks t (List.mem_cons_of_mem _ ht)
    have hlen : cur.length ≠ 0 := by simpa using hcur
    rw [packTokens_cons hcur, List.map_cons, standing, List.length_cons]
    by_cases hfits : cur.length + tok.length ≤ labelLineTarget
    · have hlonger : cur ++ tok ≠ [] := by simp [hcur]
      have hstep := ih hrest hlonger more
      rw [if_pos hfits, if_pos (.inr hfits), hstep, List.length_append]
      omega
    · rw [if_neg hfits, if_neg (by simp [hlen, hfits]), List.length_cons]
      cases more with
      | zero =>
        have hne := List.length_pos_of_ne_nil (packTokens_ne_nil hrest (htoks tok (by simp)))
        rw [if_pos rfl]
        omega
      | succ more =>
        have hstep := ih hrest (htoks tok (by simp)) more
        rw [if_neg (by omega), Nat.add_sub_cancel]
        omega

/-! ## Tokens of a label -/

theorem hardBreak_flatten (text : Str) : (hardBreak text).flatten = text := by
  have hpieces : ∀ k, ((List.range k).map fun i => (text.drop (labelLineTarget * i)).take labelLineTarget).flatten =
      text.take (labelLineTarget * k) := by
    intro k
    induction k with
    | zero => simp
    | succ k ih =>
      rw [List.range_succ, List.map_append, List.flatten_append, ih, Nat.mul_succ, List.take_add]
      simp
  unfold hardBreak
  rw [hpieces, List.take_of_length_le]
  unfold labelLineTarget
  omega

theorem camelSplit_flatten (text : Str) : ∀ before, camelSplit before text ≠ [] ∧ (camelSplit before text).flatten = text := by
  induction text with
  | nil => simp [camelSplit]
  | cons c s ih =>
    intro before
    obtain ⟨hne, hflat⟩ := ih (some c)
    obtain ⟨x, xs, hx⟩ := List.exists_cons_of_ne_nil hne
    rw [hx] at hflat
    unfold camelSplit
    dsimp only
    rw [hx]
    split <;> simpa using hflat

theorem filter_flatten (parts : List Str) : (parts.filter (· ≠ [])).flatten = parts.flatten := by
  induction parts with
  | nil => rfl
  | cons p ps ih => by_cases hp : p = [] <;> simp_all

theorem hardBreak_ne_nil {text tok : Str} (h : tok ∈ hardBreak text) : tok ≠ [] := by
  unfold hardBreak labelLineTarget at h
  obtain ⟨i, hi, rfl⟩ := List.mem_map.1 h
  rw [List.mem_range] at hi
  rw [ne_eq, List.take_eq_nil_iff, List.drop_eq_nil_iff]
  omega

/-- The segments of a text at a separator that are not empty. -/
def segments (text : Str) (sep : Char) : List Str := (text.splitOn sep).filter (· ≠ [])

/-- The separator a label is split at: the first one with several segments. -/
def separatorOf (text : Str) : Option Char := separators.find? fun sep => 2 ≤ (segments text sep).length

theorem splitAtSeparator_eq (text : Str) (sep : Char) :
    splitAtSeparator text sep =
      if 2 ≤ (segments text sep).length then some (rejoined sep (segments text sep)) else none := by
  unfold splitAtSeparator
  by_cases hsep : sep ∈ text
  · rw [if_pos hsep]
    rfl
  · have hone : (segments text sep).length ≤ 1 := by
      unfold segments
      refine (List.length_filter_le _ _).trans ?_
      rw [List.splitOn_eq_singleton hsep]
      exact le_rfl
    rw [if_neg hsep, if_neg (by omega)]

theorem findSome_separators (text : Str) (seps : List Char) :
    seps.findSome? (splitAtSeparator text) =
      (seps.find? fun sep => 2 ≤ (segments text sep).length).map fun sep => rejoined sep (segments text sep) := by
  induction seps with
  | nil => rfl
  | cons sep seps ih =>
    rw [List.findSome?_cons, splitAtSeparator_eq, List.find?_cons]
    by_cases hlen : 2 ≤ (segments text sep).length <;> simp [hlen, ih]

theorem rejoined_length {sep : Char} {parts : List Str} (h : parts ≠ []) : (rejoined sep parts).length = parts.length := by
  obtain ⟨init, last, rfl⟩ := List.eq_nil_or_concat' parts |>.resolve_left h
  simp [rejoined]

theorem rejoined_flatten (sep : Char) (parts : List Str) : (rejoined sep parts).flatten = List.intercalate [sep] parts := by
  rcases List.eq_nil_or_concat' parts with rfl | ⟨init, last, rfl⟩
  · rfl
  · by_cases hinit : init = []
    · subst hinit
      simp [rejoined]
    · have hend : init.flatMap (· ++ [sep]) = _ := Joins.flatMap_end hinit
      rw [List.flatMap_def] at hend
      simp [rejoined, hend, Joins.intercalate_append hinit]

theorem rejoined_take {sep : Char} {parts : List Str} {m : Nat} (h : m < parts.length) :
    ((rejoined sep parts).take m).flatten = (parts.take m).flatMap (· ++ [sep]) := by
  rcases List.eq_nil_or_concat' parts with rfl | ⟨init, last, rfl⟩
  · cases h
  · rw [List.length_append, List.length_singleton] at h
    rw [rejoined, List.dropLast_concat, List.take_append_of_le_length (by rw [List.length_map]; omega),
      List.take_append_of_le_length (by omega), ← List.map_take, List.flatMap_def]

theorem separatorOf_spec {text : Str} {sep : Char} (h : separatorOf text = some sep) :
    sep ∈ separators ∧ 2 ≤ (segments text sep).length :=
  ⟨List.mem_of_find?_eq_some h, by simpa using List.find?_some h⟩

/-- A label split at a separator. -/
theorem labelTokens_split {text : Str} {sep : Char} (h : separatorOf text = some sep) :
    labelTokens text = rejoined sep (segments text sep) := by
  have hlen := (separatorOf_spec h).2
  have hsplit : splitLabelForWrap text = rejoined sep (segments text sep) := by
    unfold splitLabelForWrap
    rw [findSome_separators, show separators.find? _ = some sep from h]
    rfl
  have hne : segments text sep ≠ [] := List.ne_nil_of_length_pos (by omega)
  unfold labelTokens
  dsimp only
  rw [hsplit, rejoined_length hne, if_neg (by omega)]

/-- A label without a separator that splits it: its tokens are all of it. -/
theorem labelTokens_plain {text : Str} (h : separatorOf text = none) : (labelTokens text).flatten = text := by
  have hsplit : (splitLabelForWrap text).flatten = text := by
    unfold splitLabelForWrap
    rw [findSome_separators, show separators.find? _ = none from h]
    dsimp only [Option.map_none]
    split
    · rw [filter_flatten, (camelSplit_flatten text none).2]
    · simp
  unfold labelTokens
  dsimp only
  split
  · exact hardBreak_flatten text
  · exact hsplit

theorem labelTokens_ne_nil {text tok : Str} (h : tok ∈ labelTokens text) : tok ≠ [] := by
  cases hsep : separatorOf text with
  | some sep =>
    rw [labelTokens_split hsep] at h
    unfold rejoined at h
    rcases List.mem_append.1 h with h | h
    · obtain ⟨part, _, rfl⟩ := List.mem_map.1 h
      simp
    · have hin : tok ∈ segments text sep := List.mem_of_getLast? (Option.mem_toList.1 h)
      simpa [segments] using (List.mem_filter.1 hin).2
  | none =>
    unfold labelTokens at h
    dsimp only at h
    split at h
    · exact hardBreak_ne_nil h
    · next hone =>
      unfold splitLabelForWrap at h hone
      rw [findSome_separators, show separators.find? _ = none from hsep] at h hone
      dsimp only [Option.map_none] at h hone
      split at h
      · simpa using (List.mem_filter.1 h).2
      · next hfew => exact absurd (by rw [if_neg hfew]; rfl) hone

/-! ## The title -/

/-- What a character is written as in an attribute. -/
def escapeChar (c : Char) : Str :=
  if c = '&' then "&amp;".toList
  else if c = '<' then "&lt;".toList
  else if c = '>' then "&gt;".toList
  else if c = '\'' then "&#x27;".toList
  else [c]

/-- A text with its character references read. -/
def unescape : Str → Str
  | '&' :: 'a' :: 'm' :: 'p' :: ';' :: s => '&' :: unescape s
  | '&' :: 'l' :: 't' :: ';' :: s => '<' :: unescape s
  | '&' :: 'g' :: 't' :: ';' :: s => '>' :: unescape s
  | '&' :: '#' :: 'x' :: '2' :: '7' :: ';' :: s => '\'' :: unescape s
  | c :: s => c :: unescape s
  | [] => []

theorem unescape_cons {c : Char} (h : c ≠ '&') (s : Str) : unescape (c :: s) = c :: unescape s := by
  rw [unescape] <;> intros <;> simp_all

theorem unescape_escapeChar (c : Char) (s : Str) : unescape (escapeChar c ++ s) = c :: unescape s := by
  unfold escapeChar
  by_cases hamp : c = '&'
  · subst hamp
    rfl
  by_cases hlt : c = '<'
  · subst hlt
    rfl
  by_cases hgt : c = '>'
  · subst hgt
    rfl
  by_cases hquote : c = '\''
  · subst hquote
    rfl
  rw [if_neg hamp, if_neg hlt, if_neg hgt, if_neg hquote]
  exact unescape_cons hamp s

/-- Each of the replacements leaves what the ones before have written. -/
theorem titleSafe_eq (text : Str) : titleSafe text = text.flatMap escapeChar := by
  have hchar : ∀ (c : Char) (new s : Str), Replace.replace (String.ofList [c]).toList new s =
      s.flatMap fun d => if d = c then new else [d] := by
    intro c new s
    rw [String.toList_ofList]
    exact Replace.replace_char c new s
  have hamp := hchar '&' "&amp;".toList
  have hlt := hchar '<' "&lt;".toList
  have hgt := hchar '>' "&gt;".toList
  have hquote := hchar '\'' "&#x27;".toList
  unfold titleSafe
  dsimp only
  rw [show "&".toList = (String.ofList ['&']).toList from rfl, show "<".toList = (String.ofList ['<']).toList from rfl,
    show ">".toList = (String.ofList ['>']).toList from rfl, show "'".toList = (String.ofList ['\'']).toList from rfl,
    hamp, hlt, hgt, hquote, List.flatMap_assoc, List.flatMap_assoc, List.flatMap_assoc]
  refine List.flatMap_congr fun c _ => ?_
  unfold escapeChar
  by_cases hamp : c = '&'
  · subst hamp
    decide
  by_cases hlt : c = '<'
  · subst hlt
    decide
  by_cases hgt : c = '>'
  · subst hgt
    decide
  by_cases hquote : c = '\''
  · subst hquote
    decide
  simp [hamp, hlt, hgt, hquote]

theorem unescape_titleSafe (text : Str) : unescape (titleSafe text) = text := by
  rw [titleSafe_eq]
  induction text with
  | nil => rfl
  | cons c text ih => rw [List.flatMap_cons, unescape_escapeChar, ih]

theorem titleSafe_quote (text : Str) : '\'' ∉ titleSafe text := by
  rw [titleSafe_eq, List.mem_flatMap]
  rintro ⟨c, _, hc⟩
  unfold escapeChar at hc
  split at hc
  · revert hc
    decide
  split at hc
  · revert hc
    decide
  split at hc
  · revert hc
    decide
  split at hc
  · revert hc
    decide
  next hquote => exact hquote (List.mem_singleton.1 hc).symm

/-! ## Labels that are kept -/

/-- How many tokens of a label stand on the lines that are kept. -/
def kept (text : Str) : Nat := standing (labelMaxLines - 1) 0 ((labelTokens text).map List.length)

/-- A long label has tokens that stand on no line that is kept. -/
def Truncates (text : Str) : Prop := labelWrapThreshold < text.length ∧ kept text < (labelTokens text).length

instance (text : Str) : Decidable (Truncates text) := inferInstanceAs (Decidable (_ ∧ _))

/-- What is shown of a label is all of it; or where it is cut off, it is a first
part of it, and the title says all of it. -/
def KeepsLabel (text : Str) : Prop :=
  (¬Truncates text → Replace.replace lineBreak [] (wrapLongLabelText text) = text) ∧
  (Truncates text → ∃ title inner, '\'' ∉ title ∧ unescape title = text ∧
    wrapLongLabelText text = "<span title='".toList ++ title ++ "'>".toList ++ inner ++ "</span>".toList ∧
    ∃ w, Replace.replace lineBreak [] inner = w ++ ['…'] ∧ w <+: text)

/-- No segment is empty between the separators that a long label is split at, of
those that stand on the lines that are kept where it is cut off. -/
def WholeSegments (text : Str) : Prop :=
  labelWrapThreshold < text.length → ∀ sep, separatorOf text = some sep →
    [] ∉ (text.splitOn sep).take (if Truncates text then kept text else (text.splitOn sep).length)

section
variable {toks : List Str}

theorem lines_take (h : ∀ tok ∈ toks, tok ≠ []) (more : Nat) :
    ((packTokens [] toks).take (more + 1)).flatten =
      (toks.take (standing more 0 (toks.map List.length))).flatten := by
  cases toks with
  | nil => simp [packTokens]
  | cons tok rest =>
    have hrest : ∀ tok ∈ rest, tok ≠ [] := fun t ht => h t (List.mem_cons_of_mem _ ht)
    rw [packTokens, if_pos rfl, packTokens_take hrest (h tok (by simp)), List.map_cons, standing, if_pos (.inl rfl),
      List.take_succ_cons, Nat.zero_add, List.flatten_cons]

theorem lines_more (h : ∀ tok ∈ toks, tok ≠ []) (more : Nat) :
    more + 1 < (packTokens [] toks).length ↔ standing more 0 (toks.map List.length) < toks.length := by
  cases toks with
  | nil => simp [packTokens]
  | cons tok rest =>
    have hrest : ∀ tok ∈ rest, tok ≠ [] := fun t ht => h t (List.mem_cons_of_mem _ ht)
    rw [packTokens, if_pos rfl, packTokens_more hrest (h tok (by simp)), List.map_cons, standing, if_pos (.inl rfl),
      Nat.zero_add, List.length_cons]
    omega

end

section
variable {text : Str}

theorem separator_plain {sep : Char} (h : sep ∈ separators) : Str.isSpace sep = false ∧ sep ≠ '<' := by
  unfold separators at h
  simp only [List.mem_cons, List.not_mem_nil, or_false] at h
  rcases h with rfl | rfl | rfl <;> decide

theorem segments_free {sep : Char} {part : Str} (h : part ∈ text.splitOn sep) : sep ∉ part := by
  rw [List.splitOn_eq_splitOnP] at h
  intro hin
  simpa using Occurs.splitOnP_mem part h sep hin

theorem segments_lt {sep : Char} {part : Str} (hlt : '<' ∉ text) (h : part ∈ text.splitOn sep) : '<' ∉ part := by
  intro hin
  refine hlt ?_
  rw [← @List.intercalate_splitOn Char text _ _ sep]
  exact Joins.mem_of_part h hin

theorem labelTokens_lt (h : '<' ∉ text) : '<' ∉ (labelTokens text).flatten := by
  cases hsep : separatorOf text with
  | none =>
    rw [labelTokens_plain hsep]
    exact h
  | some sep =>
    rw [labelTokens_split hsep, rejoined_flatten]
    exact Joins.not_mem_intercalate (separator_plain (separatorOf_spec hsep).1).2.symm
      fun part hpart => segments_lt h (List.mem_filter.1 hpart).1

theorem lines_lt (h : '<' ∉ text) {line : Str} (hline : line ∈ packTokens [] (labelTokens text)) : '<' ∉ line :=
  fun hin => labelTokens_lt h (by simpa using mem_packTokens hline hin)

theorem truncates_iff (hlen : labelWrapThreshold < text.length) :
    Truncates text ↔ labelMaxLines < (packTokens [] (labelTokens text)).length :=
  (and_iff_right hlen).trans (lines_more (fun _ => labelTokens_ne_nil) 2).symm

theorem wrap_short (h : ¬labelWrapThreshold < text.length) : wrapLongLabelText text = text := if_pos (Nat.not_lt.1 h)

theorem no_break (h : '<' ∉ text) : Str.contains text "<br".toList = false := by
  rw [Bool.eq_false_iff]
  intro hin
  obtain ⟨t, ht, hbr⟩ := List.any_eq_true.1 hin
  obtain ⟨u, rfl⟩ := List.isPrefixOf_iff_prefix.1 hbr
  exact h (((List.mem_tails _ _).1 ht).subset (by simp))

theorem wrap_whole (hlt : '<' ∉ text) (hlen : labelWrapThreshold < text.length) (h : ¬Truncates text) :
    Replace.replace lineBreak [] (wrapLongLabelText text) = (labelTokens text).flatten := by
  unfold wrapLongLabelText
  rw [if_neg (Nat.not_le.2 hlen), no_break hlt, if_neg Bool.false_ne_true]
  dsimp only
  rw [if_neg ((truncates_iff hlen).not.1 h)]
  refine (Replace.delete_intercalate fun line hline => lines_lt hlt hline).trans ?_
  rw [packTokens_flatten, List.nil_append]

/-- What is shown of a label that is cut off: the tokens on the lines that are
kept, without what is white at their end. -/
theorem wrap_cut (hlt : '<' ∉ text) (h : Truncates text) :
    ∃ inner w u, wrapLongLabelText text =
        "<span title='".toList ++ titleSafe text ++ "'>".toList ++ inner ++ "</span>".toList ∧
      Replace.replace lineBreak [] inner = w ++ ['…'] ∧ ((labelTokens text).take (kept text)).flatten = w ++ u ∧
      ∀ c ∈ u, Str.isSpace c = true := by
  have hmore := (truncates_iff h.1).1 h
  have htake : ((packTokens [] (labelTokens text)).take labelMaxLines).flatten =
      ((labelTokens text).take (kept text)).flatten := lines_take (fun _ => labelTokens_ne_nil) 2
  obtain ⟨init, last, hlines⟩ : ∃ init last, (packTokens [] (labelTokens text)).take labelMaxLines = init ++ [last] := by
    refine (List.eq_nil_or_concat' _).resolve_left ?_
    rw [List.take_eq_nil_iff]
    rintro (hzero | hnil)
    · cases hzero
    · rw [hnil] at hmore
      cases hmore
  have hfree : ∀ line ∈ init ++ [last], '<' ∉ line := by
    intro line hline
    rw [← hlines] at hline
    exact lines_lt hlt (List.mem_of_mem_take hline)
  obtain ⟨u, hu, hspace⟩ := Str.rstrip_append last
  refine ⟨List.intercalate lineBreak (init ++ [Str.rstrip last ++ ['…']]), init.flatten ++ Str.rstrip last, u, ?_, ?_, ?_,
    hspace⟩
  · unfold wrapLongLabelText
    rw [if_neg (Nat.not_le.2 h.1), no_break hlt, if_neg Bool.false_ne_true]
    dsimp only
    rw [if_pos hmore, hlines]
    simp
  · refine (Replace.delete_intercalate ?_).trans (by simp)
    intro line hline hin
    rcases List.mem_append.1 hline with hline | hline
    · exact hfree line (List.mem_append_left _ hline) hin
    · rw [List.mem_singleton.1 hline] at hin
      rcases List.mem_append.1 hin with hin | hin
      · refine hfree last (by simp) ?_
        rw [hu]
        exact List.mem_append_left _ hin
      · exact absurd (List.mem_singleton.1 hin) (by decide)
  · rw [← htake, hlines, List.flatten_append, List.append_assoc, ← hu]
    simp

/-! ## The segments of a label -/

theorem take_filter {parts : List Str} : ∀ {m : Nat}, [] ∉ parts.take m →
    (parts.filter (· ≠ [])).take m = parts.take m := by
  induction parts with
  | nil => simp
  | cons p ps ih =>
    intro m h
    cases m with
    | zero => simp
    | succ m =>
      rw [List.take_succ_cons, List.mem_cons, not_or] at h
      have hp : p ≠ [] := fun hp => h.1 hp.symm
      rw [List.filter_cons, if_pos (by simpa using hp), List.take_succ_cons, List.take_succ_cons, ih h.2]

theorem segments_take_iff {sep : Char} {m : Nat} (hm : m < (segments text sep).length) :
    (segments text sep).take m <+: text.splitOn sep ↔ [] ∉ (text.splitOn sep).take m := by
  constructor
  · intro h hin
    rw [List.prefix_iff_eq_take, List.length_take, Nat.min_eq_left (Nat.le_of_lt hm)] at h
    rw [← h] at hin
    simpa using (List.mem_filter.1 (List.mem_of_mem_take hin)).2
  · intro h
    rw [segments, take_filter h]
    exact List.take_prefix _ _

/-- A first part of a text that is split at a separator: as many segments as
there are of them, none of them empty. -/
theorem start_iff {sep : Char} {m : Nat} (hm : m < (segments text sep).length) :
    ((segments text sep).take m).flatMap (· ++ [sep]) <+: text ↔ [] ∉ (text.splitOn sep).take m := by
  have hle : (segments text sep).length ≤ (text.splitOn sep).length := List.length_filter_le _ _
  have hstarts : ((segments text sep).take m).flatMap (· ++ [sep]) <+: List.intercalate [sep] (text.splitOn sep) ↔
      (segments text sep).take m <+: text.splitOn sep :=
    Joins.starts_iff (fun part hpart => segments_free (List.mem_filter.1 (List.mem_of_mem_take hpart)).1)
      (fun part hpart => segments_free hpart) (by rw [List.length_take]; omega)
  rw [List.intercalate_splitOn] at hstarts
  rw [hstarts, segments_take_iff hm]

theorem whole_iff {sep : Char} (h : separatorOf text = some sep) :
    (labelTokens text).flatten = text ↔ [] ∉ text.splitOn sep := by
  have hlen := (separatorOf_spec h).2
  have hnil : segments text sep ≠ [] := List.ne_nil_of_length_pos (by omega)
  rw [labelTokens_split h, rejoined_flatten]
  constructor
  · intro heq hin
    have hparts : segments text sep = text.splitOn sep := by
      refine Joins.intercalate_inj (fun part hpart => segments_free (List.mem_filter.1 hpart).1)
        (fun part hpart => segments_free hpart) hnil (List.splitOn_ne_nil _ _) ?_
      rw [heq, List.intercalate_splitOn]
    rw [← hparts] at hin
    simpa using (List.mem_filter.1 hin).2
  · intro hin
    rw [segments, List.filter_eq_self.2, List.intercalate_splitOn]
    intro part hpart
    have hne : part ≠ [] := fun hp => hin (hp ▸ hpart)
    simpa using hne

/-- What is shown of a label that is cut off is a first part of it just where
the segments there are not empty. -/
theorem shown_start_iff {w u : Str} (h : Truncates text)
    (hkept : ((labelTokens text).take (kept text)).flatten = w ++ u) (hu : ∀ c ∈ u, Str.isSpace c = true) :
    w <+: text ↔ ∀ sep, separatorOf text = some sep → [] ∉ (text.splitOn sep).take (kept text) := by
  cases hsep : separatorOf text with
  | none =>
    refine iff_of_true ?_ (by simp)
    have hall := labelTokens_plain hsep
    refine (List.prefix_append w u).trans ?_
    rw [← hkept, ← hall]
    nth_rewrite 3 [← List.take_append_drop (kept text) (labelTokens text)]
    rw [hall, List.flatten_append]
    exact List.prefix_append _ _
  | some sep =>
    have hlen := (separatorOf_spec hsep).2
    have hnil : segments text sep ≠ [] := List.ne_nil_of_length_pos (by omega)
    have hm : kept text < (segments text sep).length := by
      have hlt := h.2
      rwa [labelTokens_split hsep, rejoined_length hnil] at hlt
    rw [labelTokens_split hsep, rejoined_take hm] at hkept
    have hempty : u = [] := by
      by_contra hne
      have hlast : (w ++ u).getLast? = some (u.getLast hne) := by
        rw [List.getLast?_append_of_ne_nil _ hne, List.getLast?_eq_some_getLast hne]
      by_cases htake : (segments text sep).take (kept text) = []
      · rw [htake, List.flatMap_nil] at hkept
        exact hne (List.append_eq_nil_iff.1 hkept.symm).2
      · rw [← hkept, Joins.flatMap_end htake, List.getLast?_concat, Option.some.injEq] at hlast
        have hspace := hu _ (List.getLast_mem hne)
        rw [← hlast, (separator_plain (separatorOf_spec hsep).1).1] at hspace
        cases hspace
    rw [hempty, List.append_nil] at hkept
    rw [← hkept, start_iff hm]
    simp

/-- Of the result for a label that is cut off the title and what is shown can be
read in one way only. -/
theorem result_inj {title title' inner inner' : Str} (h : '\'' ∉ title) (h' : '\'' ∉ title')
    (heq : "<span title='".toList ++ title ++ "'>".toList ++ inner ++ "</span>".toList =
      "<span title='".toList ++ title' ++ "'>".toList ++ inner' ++ "</span>".toList) : inner = inner' := by
  simp only [List.append_assoc, List.append_cancel_left_eq] at heq
  have hrest := (Joins.first_inj h h' heq).2
  exact List.append_cancel_right (List.cons.inj hrest).2

theorem keeps_cut_iff {inner w : Str} (hcut : Truncates text)
    (hwrap : wrapLongLabelText text =
      "<span title='".toList ++ titleSafe text ++ "'>".toList ++ inner ++ "</span>".toList)
    (hinner : Replace.replace lineBreak [] inner = w ++ ['…']) : KeepsLabel text ↔ w <+: text := by
  constructor
  · rintro ⟨_, hkeeps⟩
    obtain ⟨title, inner', hquote, _, hwrap', w', hinner', hstart⟩ := hkeeps hcut
    rw [hwrap] at hwrap'
    rw [← result_inj (titleSafe_quote text) hquote hwrap', hinner] at hinner'
    rwa [List.append_cancel_right hinner']
  · intro hstart
    exact ⟨fun hwhole => absurd hcut hwhole, fun _ =>
      ⟨titleSafe text, inner, titleSafe_quote text, unescape_titleSafe text, hwrap, w, hinner, hstart⟩⟩

/-- Wrapping keeps a label just where the segments that are shown of it are not
empty. -/
theorem wrap_keeps_iff (text : Str) (h : '<' ∉ text) : KeepsLabel text ↔ WholeSegments text := by
  by_cases hlen : labelWrapThreshold < text.length
  · by_cases hcut : Truncates text
    · obtain ⟨inner, w, u, hwrap, hinner, hkept, hu⟩ := wrap_cut h hcut
      rw [keeps_cut_iff hcut hwrap hinner, shown_start_iff hcut hkept hu, WholeSegments]
      simp only [if_pos hcut]
      exact ⟨fun hs _ => hs, fun hs => hs hlen⟩
    · have hkeeps : KeepsLabel text ↔ (labelTokens text).flatten = text := by
        unfold KeepsLabel
        rw [wrap_whole h hlen hcut]
        exact ⟨fun hs => hs.1 hcut, fun hs => ⟨fun _ => hs, fun htrunc => absurd htrunc hcut⟩⟩
      rw [hkeeps, WholeSegments]
      simp only [if_neg hcut]
      cases hsep : separatorOf text with
      | none => simp [labelTokens_plain hsep]
      | some sep =>
        rw [whole_iff hsep]
        constructor
        · intro hin _ other hother
          cases hother
          rwa [List.take_length]
        · intro hs
          simpa using hs hlen sep rfl
  · have hshort := wrap_short hlen
    refine iff_of_true ⟨fun _ => ?_, fun htrunc => absurd htrunc.1 hlen⟩ fun hlong => absurd hlong hlen
    rw [hshort]
    exact Replace.replace_of_free h []

end

theorem wrap_keeps_iff_module :
    KeepsLabel "backend.wiki.pipeline.py.run".toList ↔ WholeSegments "backend.wiki.pipeline.py.run".toList :=
  wrap_keeps_iff _ (by decide)

/-- A path from the root loses its first character. -/
theorem rooted_path_cut : '<' ∉ "/srv/application/handlers".toList ∧ ¬KeepsLabel "/srv/application/handlers".toList := by
  have hwhole : ¬Truncates "/srv/application/handlers".toList := by decide
  refine ⟨by decide, fun hkeeps => absurd (hkeeps.1 hwhole) ?_⟩
  decide

end Cograph.Mermaid
