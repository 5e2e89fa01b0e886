import Cograph.JsonText
import Cograph.Patterns

/-!
# Path rules of TypeScript configs

`graph/ts_resolve.py`: the rules of a config in the order they are tried, the
matcher and the reader of JSON with comments.
-/

namespace Cograph.TsResolve

open Regex (Pattern)

/-! ## Rules -/

/-- `s.partition("*")`, the star being whether there is one. -/
def partition (s : Str) : Str × Bool × Str :=
  (s.takeWhile (· ≠ '*'), '*' ∈ s, (s.dropWhile (· ≠ '*')).tail)

/-- `target.replace("*", part, 1)`. -/
def replaceStar (target part : Str) : Str :=
  let (before, star, after) := partition target
  if star then before ++ (part ++ after) else target

/-- `_match`. -/
def matchRules : List (Str × Str) → Str → Option Str
  | [], _ => none
  | (pattern, target) :: rules, specifier =>
    let (pre, star, suf) := partition pattern
    if ¬star then if specifier = pattern then some target else matchRules rules specifier
    else if pre <+: specifier ∧ suf <:+ specifier ∧ pre.length + suf.length ≤ specifier.length then
      some (replaceStar target ((specifier.take (specifier.length - suf.length)).drop pre.length))
    else matchRules rules specifier

/-- `_by_specificity`. -/
def bySpecificity (rule : Str × Str) : Bool × Int :=
  let (pre, star, _) := partition rule.1
  (star, -(pre.length : Int))

/-- The order of the keys, as tuples compare. -/
def keyLe (a b : Bool × Int) : Bool := (!a.1 && b.1) || (a.1 == b.1 && a.2 ≤ b.2)

/-- `paths.sort(key=_by_specificity)`. -/
def sortRules (rules : List (Str × Str)) : List (Str × Str) :=
  rules.mergeSort fun a b => keyLe (bySpecificity a) (bySpecificity b)

/-! ## JSON with comments -/

/-- `_STRING`; `dot` is what `.` reads. -/
def stringRe (dot : Char → Bool) : Pattern :=
  .group 1 (.ofRegex (.seq (.chr '"') (.seq
    (.star (.alt (.seq (.chr '\\') (.sat dot)) (.sat fun c => c ≠ '"' ∧ c ≠ '\\'))) (.chr '"'))))

/-- `_COMMENT`, under `re.S`. -/
def commentRe : Pattern :=
  .alt (stringRe fun _ => true) <|
    .alt (.seq (.lit "//".toList) (.star (· ≠ '\n'))) <|
      .seq (.lit "/*".toList) (.seq (.lazyStar fun _ => true) (.lit "*/".toList))

/-- `_TRAILING_COMMA`. -/
def trailingCommaRe : Pattern :=
  .alt (stringRe (· ≠ '\n')) <|
    .seq (.lit [',']) (.group 2 (.seq (.star Str.isSpace) (.sat fun c => c = '}' ∨ c = ']')))

/-- `_loads_jsonc`. -/
def loadsJsonc (text : Str) : Option JsonText.Json :=
  let text := commentRe.sub (·.group 1) text
  JsonText.loads (trailingCommaRe.sub (fun m => if m.group 1 ≠ [] then m.group 1 else m.group 2) text)

end Cograph.TsResolve

/-!
## Rules by specificity, and JSON with comments

The rules are tried exact ones first and then by the length of the prefix, so
the first that fits is the most specific. The two substitutions of the reader
take away the comments and then the commas before what closes, a string at a
time, and leave a text with the same tokens.
-/

namespace Cograph.TsResolve

open Regex (Pattern Point Match Token)

/-! ## Rules -/

/-- A pattern without a star fits the specifier it is; another one fits around
the part its star stands for. -/
def Fits (pattern specifier part : Str) : Prop :=
  if '*' ∈ pattern then specifier = (partition pattern).1 ++ (part ++ (partition pattern).2.2)
  else specifier = pattern ∧ part = []

/-- What the matcher is to pick for a specifier. -/
structure Picks (rules : List (Str × Str)) (specifier : Str) (picked : Option Str) : Prop where
  none_iff : picked = none ↔ ∀ rule ∈ rules, ∀ part, ¬Fits rule.1 specifier part
  exact : ∀ target, (specifier, target) ∈ rules → '*' ∉ specifier → picked = some target
  wildcard : ∀ result, picked = some result → (∀ rule ∈ rules, '*' ∉ rule.1 → rule.1 ≠ specifier) →
    ∃ rule ∈ rules, ∃ part, '*' ∈ rule.1 ∧ Fits rule.1 specifier part ∧ result = replaceStar rule.2 part ∧
      ∀ other ∈ rules, ∀ part', '*' ∈ other.1 → Fits other.1 specifier part' →
        (partition other.1).1.length ≤ (partition rule.1).1.length

section
variable {rules : List (Str × Str)} {rule : Str × Str} {specifier part : Str}

/-- What the matcher makes of one rule. -/
def applied (rule : Str × Str) (specifier : Str) : Option Str :=
  if '*' ∈ rule.1 then
    if (partition rule.1).1 <+: specifier ∧ (partition rule.1).2.2 <:+ specifier ∧
        (partition rule.1).1.length + (partition rule.1).2.2.length ≤ specifier.length then
      some (replaceStar rule.2 ((specifier.take (specifier.length - (partition rule.1).2.2.length)).drop
        (partition rule.1).1.length))
    else none
  else if specifier = rule.1 then some rule.2 else none

theorem matchRules_cons (rule : Str × Str) (rules : List (Str × Str)) (specifier : Str) :
    matchRules (rule :: rules) specifier = (applied rule specifier).or (matchRules rules specifier) := by
  obtain ⟨pattern, target⟩ := rule
  rw [matchRules]
  unfold applied partition
  by_cases hstar : '*' ∈ pattern
  · simp only [hstar, decide_true, not_true, if_true, if_false]
    split <;> rfl
  · simp only [hstar, decide_false, Bool.false_eq_true, not_false_eq_true, if_true, if_false]
    split <;> rfl

theorem matchRules_findSome (rules : List (Str × Str)) (specifier : Str) :
    matchRules rules specifier = rules.findSome? (applied · specifier) := by
  induction rules with
  | nil => rfl
  | cons rule rules ih =>
    rw [List.findSome?_cons, matchRules_cons, ih]
    cases applied rule specifier <;> rfl

theorem fits_iff {pre suf specifier part : Str} : specifier = pre ++ (part ++ suf) ↔
    (pre <+: specifier ∧ suf <:+ specifier ∧ pre.length + suf.length ≤ specifier.length) ∧
      part = (specifier.take (specifier.length - suf.length)).drop pre.length := by
  constructor
  · rintro rfl
    refine ⟨⟨⟨_, rfl⟩, ⟨pre ++ part, by simp⟩, by simp⟩, ?_⟩
    have hlen : (pre ++ (part ++ suf)).length - suf.length = (pre ++ part).length := by
      simp only [List.length_append]
      omega
    rw [hlen, ← List.append_assoc, List.take_left, List.drop_left]
  · intro h
    obtain ⟨⟨⟨v, hv⟩, ⟨u, hu⟩, hle⟩, rfl⟩ := h
    have hlen : specifier.length - suf.length = u.length := by
      rw [← hu, List.length_append]
      omega
    have hpre : pre <+: u := by
      refine List.prefix_of_prefix_length_le ⟨v, hv⟩ ⟨suf, hu⟩ ?_
      rw [← hu, List.length_append] at hle
      omega
    obtain ⟨mid, rfl⟩ := hpre
    rw [hlen, ← hu, List.take_left, List.drop_left, List.append_assoc]

theorem applied_iff (rule : Str × Str) (specifier result : Str) : applied rule specifier = some result ↔
    ∃ part, Fits rule.1 specifier part ∧ result = if '*' ∈ rule.1 then replaceStar rule.2 part else rule.2 := by
  unfold applied Fits
  split
  · simp only [fits_iff]
    split
    · next h => simp [h, eq_comm]
    · next h => simp [h]
  · split
    · next h => simp [h, eq_comm]
    · next h => simp [h]

theorem keyLe_trans (a b c : Bool × Int) (h : keyLe a b = true) (h' : keyLe b c = true) : keyLe a c = true := by
  obtain ⟨a₁, a₂⟩ := a
  obtain ⟨b₁, b₂⟩ := b
  obtain ⟨c₁, c₂⟩ := c
  cases a₁ <;> cases b₁ <;> cases c₁ <;> simp [keyLe] at * <;> omega

theorem keyLe_total (a b : Bool × Int) : (keyLe a b || keyLe b a) = true := by
  obtain ⟨a₁, a₂⟩ := a
  obtain ⟨b₁, b₂⟩ := b
  cases a₁ <;> cases b₁ <;> simp [keyLe] <;> omega

theorem sortRules_pairwise (rules : List (Str × Str)) :
    (sortRules rules).Pairwise fun a b => keyLe (bySpecificity a) (bySpecificity b) = true := by
  unfold sortRules
  exact List.pairwise_mergeSort (fun a b c => keyLe_trans (bySpecificity a) (bySpecificity b) (bySpecificity c))
    (fun a b => keyLe_total (bySpecificity a) (bySpecificity b)) rules

theorem mem_sortRules : rule ∈ sortRules rules ↔ rule ∈ rules := List.mem_mergeSort

/-- The first rule that fits has nothing more specific behind it. -/
theorem picks_sorted (hn : (rules.map (·.1)).Nodup) (specifier : Str) :
    Picks rules specifier (matchRules (sortRules rules) specifier) := by
  rw [matchRules_findSome]
  have hfirst : ∀ result, (sortRules rules).findSome? (applied · specifier) = some result →
      ∃ rule ∈ rules, applied rule specifier = some result ∧
        ∀ other ∈ rules, (applied other specifier).isSome → keyLe (bySpecificity rule) (bySpecificity other) = true := by
    intro result h
    obtain ⟨before, rule, after, hsplit, hrule, hnone⟩ := List.findSome?_eq_some_iff.1 h
    refine ⟨rule, mem_sortRules.1 (by rw [hsplit]; simp), hrule, fun other hother hsome => ?_⟩
    have hpair := sortRules_pairwise rules
    rw [hsplit, List.pairwise_append, List.pairwise_cons] at hpair
    have hin : other ∈ before ++ rule :: after := hsplit ▸ mem_sortRules.2 hother
    rcases List.mem_append.1 hin with hbefore | hrest
    · rw [hnone other hbefore] at hsome
      cases hsome
    · rcases List.mem_cons.1 hrest with rfl | hafter
      · simpa using keyLe_total (bySpecificity other) (bySpecificity other)
      · exact hpair.2.1.1 other hafter
  refine ⟨?_, fun target hin hstar => ?_, fun result hres hexact => ?_⟩
  · rw [List.findSome?_eq_none_iff]
    constructor
    · intro h rule hrule part hfits
      have := (applied_iff rule specifier _).2 ⟨part, hfits, rfl⟩
      rw [h rule (mem_sortRules.2 hrule)] at this
      cases this
    · intro h rule hrule
      cases hr : applied rule specifier with
      | none => rfl
      | some result =>
        obtain ⟨part, hfits, -⟩ := (applied_iff rule specifier result).1 hr
        exact absurd hfits (h rule (mem_sortRules.1 hrule) part)
  · have happlied : applied (specifier, target) specifier = some target := by
      unfold applied
      rw [if_neg hstar, if_pos rfl]
    have hsome : (applied (specifier, target) specifier).isSome = true := by rw [happlied]; rfl
    have hfound : ((sortRules rules).findSome? (applied · specifier)).isSome = true :=
      List.findSome?_isSome_iff.2 ⟨_, mem_sortRules.2 hin, hsome⟩
    obtain ⟨result, hres⟩ := Option.isSome_iff_exists.1 hfound
    obtain ⟨rule, hrule, hr, hmin⟩ := hfirst result hres
    have hle := hmin _ hin hsome
    have hnostar : '*' ∉ rule.1 := by
      intro hs
      simp [keyLe, bySpecificity, partition, hs, hstar] at hle
    unfold applied at hr
    rw [if_neg hnostar] at hr
    split at hr
    · next hsame =>
      obtain rfl := Option.some.inj hr
      rw [List.inj_on_of_nodup_map hn hrule hin hsame.symm] at hres
      exact hres
    · cases hr
  · obtain ⟨rule, hrule, hr, hmin⟩ := hfirst result hres
    obtain ⟨part, hfits, hresult⟩ := (applied_iff rule specifier result).1 hr
    have hstar : '*' ∈ rule.1 := by
      by_contra hs
      unfold Fits at hfits
      rw [if_neg hs] at hfits
      exact hexact rule hrule hs hfits.1.symm
    rw [if_pos hstar] at hresult
    refine ⟨rule, hrule, part, hstar, hfits, hresult, fun other hother part' hs hfits' => ?_⟩
    have hsome := (applied_iff other specifier _).2 ⟨part', hfits', rfl⟩
    have hle := hmin other hother (by rw [hsome]; rfl)
    simpa [keyLe, bySpecificity, partition, hs, hstar] using hle

end

/-! ## Substitutions -/

section
open JsonText (Body isWs isPunct isWordChar)

variable {b g s t w x y : Str} {c : Char}

/-- `_STRING` between the quotes. -/
def unitRe (dot : Char → Bool) : Regex := .alt (.seq (.chr '\\') (.sat dot)) (.sat fun c => c ≠ '"' ∧ c ≠ '\\')

/-- A repetition whose first turn can only be `q`. -/
theorem many_single {r : Regex} {p q : Point} {n : Nat} (h : r.ends p = [q]) (hlt : q.after.length < p.after.length) {m : Point}
    (hrest : (Regex.many r.ends n q).head? = some m) : (Regex.many r.ends (n + 1) p).head? = some m := by
  rw [Regex.many, h]
  simp [hlt, List.head?_append, hrest]

/-- What is read between the quotes is all of it. -/
theorem body_first {dot : Char → Bool} (hdot : ∀ c, 32 ≤ c.toNat → dot c = true) (hw : Body w) {n : Nat} (hn : w.length ≤ n)
    (b t : Str) (groups : List (Nat × Str)) :
    (Regex.many (unitRe dot).ends n ⟨b, w ++ '"' :: t, groups⟩).head? = some ⟨w.reverse ++ b, '"' :: t, groups⟩ := by
  induction hw generalizing b n with
  | nil =>
    cases n with
    | zero => rfl
    | succ n => simp [Regex.many, unitRe, Regex.ends, Regex.chr]
  | @esc c w hc _ ih =>
    cases n with
    | zero => simp at hn
    | succ n =>
      have hunit : (unitRe dot).ends ⟨b, '\\' :: c :: w ++ '"' :: t, groups⟩ = [⟨c :: '\\' :: b, w ++ '"' :: t, groups⟩] := by
        simp [unitRe, Regex.ends, Regex.chr, hdot c hc]
      have hrest := @ih n (by simp at hn; omega) (c :: '\\' :: b)
      rw [many_single hunit (by simp) hrest]
      simp
  | @plain c w hq hb hc _ ih =>
    cases n with
    | zero => simp at hn
    | succ n =>
      have hunit : (unitRe dot).ends ⟨b, c :: w ++ '"' :: t, groups⟩ = [⟨c :: b, w ++ '"' :: t, groups⟩] := by
        simp [unitRe, Regex.ends, Regex.chr, hq, hb]
      have hrest := @ih n (by simpa using hn) (c :: b)
      rw [many_single hunit (by simp) hrest]
      simp

theorem string_first {dot : Char → Bool} (hdot : ∀ c, 32 ≤ c.toNat → dot c = true) (hw : Body w) (b t : Str) :
    (stringRe dot).first ⟨b, '"' :: (w ++ '"' :: t), []⟩ =
      some ⟨('"' :: (w ++ ['"'])).reverse ++ b, t, [(1, '"' :: (w ++ ['"']))]⟩ := by
  have hopen : Regex.first (.chr '"') ⟨b, '"' :: (w ++ '"' :: t), []⟩ = some ⟨'"' :: b, w ++ '"' :: t, []⟩ := rfl
  have hstar : Regex.first (.star (unitRe dot)) ⟨'"' :: b, w ++ '"' :: t, []⟩ = some ⟨w.reverse ++ '"' :: b, '"' :: t, []⟩ :=
    body_first hdot hw (by simp) _ _ _
  have hclose : Regex.first (.chr '"') ⟨w.reverse ++ '"' :: b, '"' :: t, []⟩ =
      some ⟨'"' :: (w.reverse ++ '"' :: b), t, []⟩ := rfl
  have hall := Regex.first_seq hopen (Regex.first_seq hstar hclose)
  have hupto : Point.upto ⟨b, '"' :: (w ++ '"' :: t), []⟩ ⟨'"' :: (w.reverse ++ '"' :: b), t, []⟩ = '"' :: (w ++ ['"']) :=
    Regex.Reads.upto_eq ⟨by simp, by simp⟩
  unfold stringRe
  rw [Pattern.first_group]
  show (Regex.first (.seq (.chr '"') (.seq (.star (unitRe dot)) (.chr '"'))) _).map _ = _
  rw [hall, Option.map_some, hupto]
  simp

theorem string_none {dot : Char → Bool} (hc : c ≠ '"') (b s : Str) : (stringRe dot).first ⟨b, c :: s, []⟩ = none := by
  unfold stringRe
  rw [Pattern.first_group]
  show (Regex.first (.seq (.chr '"') (.seq (.star (unitRe dot)) (.chr '"'))) _).map _ = _
  have hnone : Regex.first (.seq (.chr '"') (.seq (.star (unitRe dot)) (.chr '"'))) ⟨b, c :: s, []⟩ = none := by
    rw [Regex.first_none]
    intro q hq
    obtain ⟨m, hm, -⟩ := Regex.mem_ends_seq.1 hq
    obtain ⟨d, hd, hdq⟩ := Regex.mem_ends_sat.1 hm
    have hhead := hd.1.1
    rw [List.singleton_append] at hhead
    rw [← (List.cons.inj hhead).1] at hdq
    simp [hc] at hdq
  rw [hnone]
  rfl

theorem wordChar_graphic (h : isWordChar c = true) : Str.isSpace c = false := by
  rw [← Bool.not_eq_true]
  intro hs
  simp only [Str.isSpace, decide_eq_true_eq] at hs
  simp only [isWordChar, decide_eq_true_eq, Char.isAlphanum, Char.isAlpha, Char.isUpper, Char.isLower, Char.isDigit,
    Bool.or_eq_true, Bool.and_eq_true, ge_iff_le, UInt32.le_iff_toNat_le] at h
  have hval : c.val.toNat = c.toNat := rfl
  rcases h with ((⟨h, h'⟩ | ⟨h, h'⟩) | ⟨h, h'⟩) | rfl | rfl | rfl
  · simp at h h'
    omega
  · simp at h h'
    omega
  · simp at h h'
    omega
  · simp at hs
  · simp at hs
  · simp at hs

theorem ws_space (h : isWs c = true) : Str.isSpace c = true := by
  simp only [isWs, decide_eq_true_eq] at h
  rcases h with rfl | rfl | rfl | rfl <;> decide

theorem comment_string (hw : Body w) (b t : Str) :
    commentRe.matchAt b (('"' :: (w ++ ['"'])) ++ t) = some ⟨'"' :: (w ++ ['"']), [(1, '"' :: (w ++ ['"']))]⟩ := by
  have h : commentRe.first ⟨b, ('"' :: (w ++ ['"'])) ++ t, []⟩ =
      some ⟨('"' :: (w ++ ['"'])).reverse ++ b, t, [(1, '"' :: (w ++ ['"']))]⟩ := by
    rw [commentRe, Pattern.first_alt, List.cons_append, List.append_assoc, List.singleton_append,
      string_first (fun _ _ => rfl) hw, Option.some_or]
  exact Pattern.matchAt_first h rfl (by simp)

theorem comment_line (hx : '\n' ∉ x) (b t : Str) (ht : ∀ c, t.head? = some c → c = '\n') :
    commentRe.matchAt b (('/' :: '/' :: x) ++ t) = some ⟨'/' :: '/' :: x, []⟩ := by
  have hstar : (Pattern.star (· ≠ '\n')).first ⟨'/' :: '/' :: b, x ++ t, []⟩ =
      some ⟨x.reverse ++ '/' :: '/' :: b, t, []⟩ :=
    Pattern.first_star rfl (fun d hd => by simpa using ne_of_mem_of_not_mem hd hx) (fun d hd => by simp [ht d hd])
  have hline := Pattern.first_seq (@Pattern.first_lit ⟨b, ('/' :: '/' :: x) ++ t, []⟩ "//".toList (x ++ t) rfl) hstar
  have h : commentRe.first ⟨b, ('/' :: '/' :: x) ++ t, []⟩ = some ⟨x.reverse ++ '/' :: '/' :: b, t, []⟩ := by
    rw [commentRe, Pattern.first_alt, Pattern.first_alt, hline, List.cons_append, string_none (by decide)]
    rfl
  exact Pattern.matchAt_first h rfl (by simp)

theorem comment_block (hx : ∀ u v, x ++ ['*'] ≠ u ++ '*' :: '/' :: v) (b t : Str) :
    commentRe.matchAt b (('/' :: '*' :: (x ++ ['*', '/'])) ++ t) = some ⟨'/' :: '*' :: (x ++ ['*', '/']), []⟩ := by
  have hlazy := @Pattern.first_lazy ['*', '/'] x t [] ('*' :: '/' :: b) fun v y hv hy hpre => by
    obtain ⟨z, hz⟩ := hpre
    cases y with
    | nil => exact hy rfl
    | cons d y =>
      cases y with
      | nil =>
        simp only [List.cons_append, List.nil_append, List.cons.injEq] at hz
        cases hz.2.1
      | cons e y =>
        simp only [List.cons_append, List.nil_append, List.cons.injEq] at hz
        exact hx v (y ++ ['*']) (by rw [hv, ← hz.1, ← hz.2.1]; simp)
  have hblock := Pattern.first_seq
    (@Pattern.first_lit ⟨b, ('/' :: '*' :: (x ++ ['*', '/'])) ++ t, []⟩ "/*".toList (x ++ (['*', '/'] ++ t)) (by simp)) hlazy
  have h : commentRe.first ⟨b, ('/' :: '*' :: (x ++ ['*', '/'])) ++ t, []⟩ =
      some ⟨['*', '/'].reverse ++ (x.reverse ++ '*' :: '/' :: b), t, []⟩ := by
    have hline : (Pattern.seq (.lit "//".toList) (.star (· ≠ '\n'))).first
        ⟨b, ('/' :: '*' :: (x ++ ['*', '/'])) ++ t, []⟩ = none := by
      apply Pattern.first_seq_none
      apply Pattern.first_lit_none
      rintro ⟨z, hz⟩
      cases (List.cons.inj (List.cons.inj hz).2).1
    rw [commentRe, Pattern.first_alt, Pattern.first_alt, hline, List.cons_append, string_none (by decide)]
    exact hblock
  exact Pattern.matchAt_first h rfl (by simp)

theorem comment_plain (hq : c ≠ '"') (hs : c ≠ '/') (b s : Str) : commentRe.matchAt b (c :: s) = none := by
  have hlit : ∀ d : Char, (Pattern.lit ['/', d]).first ⟨b, c :: s, []⟩ = none := by
    intro d
    apply Pattern.first_lit_none
    rintro ⟨z, hz⟩
    exact hs (List.cons.inj hz).1.symm
  have hline : (Pattern.lit "//".toList).first ⟨b, c :: s, []⟩ = none := hlit '/'
  have hblock : (Pattern.lit "/*".toList).first ⟨b, c :: s, []⟩ = none := hlit '*'
  apply Pattern.matchAt_none
  rw [commentRe, Pattern.first_alt, Pattern.first_alt, string_none hq, Pattern.first_seq_none hline,
    Pattern.first_seq_none hblock]
  rfl

theorem trailing_string (hw : Body w) (b t : Str) :
    trailingCommaRe.matchAt b (('"' :: (w ++ ['"'])) ++ t) = some ⟨'"' :: (w ++ ['"']), [(1, '"' :: (w ++ ['"']))]⟩ := by
  have hdot : ∀ c : Char, 32 ≤ c.toNat → decide (c ≠ '\n') = true := by
    intro c hc
    rw [decide_eq_true_eq]
    rintro rfl
    exact absurd hc (by decide)
  have h : trailingCommaRe.first ⟨b, ('"' :: (w ++ ['"'])) ++ t, []⟩ =
      some ⟨('"' :: (w ++ ['"'])).reverse ++ b, t, [(1, '"' :: (w ++ ['"']))]⟩ := by
    rw [trailingCommaRe, Pattern.first_alt, List.cons_append, List.append_assoc, List.singleton_append,
      string_first hdot hw, Option.some_or]
  exact Pattern.matchAt_first h rfl (by simp)

theorem trailing_comma (hg : JsonText.Spaces g) (hc : c = '}' ∨ c = ']') (b t : Str) :
    trailingCommaRe.matchAt b ((',' :: (g ++ [c])) ++ t) = some ⟨',' :: (g ++ [c]), [(2, g ++ [c])]⟩ := by
  have hgraph : Str.isSpace c = false := by rcases hc with rfl | rfl <;> decide
  have hstar : (Pattern.star Str.isSpace).first ⟨',' :: b, g ++ c :: t, []⟩ = some ⟨g.reverse ++ ',' :: b, c :: t, []⟩ :=
    Pattern.first_star rfl (fun d hd => ws_space (hg d hd)) (fun d hd => by
      obtain rfl := Option.some.inj hd
      exact hgraph)
  have hsat : (Pattern.sat fun c => c = '}' ∨ c = ']').first ⟨g.reverse ++ ',' :: b, c :: t, []⟩ =
      some ⟨c :: (g.reverse ++ ',' :: b), t, []⟩ := by
    show Regex.first _ _ = _
    rw [Regex.first_sat]
    simp [hc]
  have hupto : Point.upto ⟨',' :: b, g ++ c :: t, []⟩ ⟨c :: (g.reverse ++ ',' :: b), t, []⟩ = g ++ [c] :=
    Regex.Reads.upto_eq ⟨by simp, by simp⟩
  have hgroup : (Pattern.group 2 (.seq (.star Str.isSpace) (.sat fun c => c = '}' ∨ c = ']'))).first
      ⟨',' :: b, g ++ c :: t, []⟩ = some ⟨c :: (g.reverse ++ ',' :: b), t, [(2, g ++ [c])]⟩ := by
    rw [Pattern.first_group, Pattern.first_seq hstar hsat, Option.map_some, hupto]
  have hcomma := Pattern.first_seq (@Pattern.first_lit ⟨b, (',' :: (g ++ [c])) ++ t, []⟩ [','] (g ++ c :: t) (by simp)) hgroup
  have h : trailingCommaRe.first ⟨b, (',' :: (g ++ [c])) ++ t, []⟩ =
      some ⟨c :: (g.reverse ++ ',' :: b), t, [(2, g ++ [c])]⟩ := by
    rw [trailingCommaRe, Pattern.first_alt, hcomma, List.cons_append, string_none (by decide)]
    rfl
  exact Pattern.matchAt_first h rfl (by simp)

/-- A comma stays where something goes on behind its gap. -/
theorem trailing_kept (hg : JsonText.Spaces g) (hs : ∀ c, s.head? = some c → Str.isSpace c = false ∧ c ≠ '}' ∧ c ≠ ']')
    (b : Str) : trailingCommaRe.matchAt b (',' :: (g ++ s)) = none := by
  apply Pattern.matchAt_none
  have hcomma : (Pattern.seq (.lit [',']) (.group 2 (.seq (.star Str.isSpace) (.sat fun c => c = '}' ∨ c = ']')))).first
      ⟨b, ',' :: (g ++ s), []⟩ = none := by
    unfold Pattern.first
    rw [List.head?_eq_none_iff, List.eq_nil_iff_forall_not_mem]
    intro q hq
    obtain ⟨m, hm, hq⟩ := Pattern.mem_seq.1 hq
    obtain ⟨n, hn, -⟩ := Pattern.mem_group.1 hq
    obtain ⟨o, ho, hn⟩ := Pattern.mem_seq.1 hn
    obtain ⟨v, hv, hvs⟩ := Pattern.mem_star.1 ho
    obtain ⟨d, hd, hclose⟩ := Pattern.mem_sat.1 hn
    have hm' := (Pattern.mem_lit.1 hm).1.1
    have hsplit : g ++ s = v ++ d :: n.after := by
      have hmv : m.after = v ++ o.after := hv.1.1
      rw [hd.1.1, List.singleton_append] at hmv
      rw [← hmv]
      exact (List.cons.inj hm').2
    have hspace : Str.isSpace d = false := by
      have := of_decide_eq_true hclose
      rcases this with rfl | rfl <;> decide
    -- the bracket is neither a blank of the gap nor what goes on behind it
    rcases List.append_eq_append_iff.1 hsplit with ⟨u, rfl, hsu⟩ | ⟨u, hgu, hdu⟩
    · cases u with
      | nil =>
        have hhead := hs d (by rw [hsu]; rfl)
        rcases of_decide_eq_true hclose with rfl | rfl
        · exact hhead.2.1 rfl
        · exact hhead.2.2 rfl
      | cons e u =>
        have hhead := hs e (by rw [hsu]; rfl)
        rw [hvs e (by simp)] at hhead
        cases hhead.1
    · cases u with
      | nil =>
        have hhead := hs d (by rw [← List.nil_append s, ← hdu]; rfl)
        rcases of_decide_eq_true hclose with rfl | rfl
        · exact hhead.2.1 rfl
        · exact hhead.2.2 rfl
      | cons e u =>
        have hin : d ∈ g := by
          rw [hgu, (List.cons.inj hdu).1]
          simp
        rw [ws_space (hg d hin)] at hspace
        cases hspace
  rw [trailingCommaRe, Pattern.first_alt, hcomma, string_none (by decide)]
  rfl

theorem trailing_plain (hq : c ≠ '"') (hs : c ≠ ',') (b s : Str) : trailingCommaRe.matchAt b (c :: s) = none := by
  have hlit : (Pattern.lit [',']).first ⟨b, c :: s, []⟩ = none := by
    apply Pattern.first_lit_none
    rintro ⟨z, hz⟩
    exact hs (List.cons.inj hz).1.symm
  apply Pattern.matchAt_none
  rw [trailingCommaRe, Pattern.first_alt, string_none hq, Pattern.first_seq_none hlit]
  rfl

end

/-! ## Texts without comments -/

section
open JsonText (Body isWs isPunct isWordChar Spaces Commented CommentedEnd Laid Joins)

variable {b g g' s t w x y : Str} {c : Char} {tok : JsonText.Token} {toks : List JsonText.Token}

/-- What is left of a text by a substitution from a place on. -/
def rest (r : Pattern) (f : Match → Str) (b s : Str) : Str := (r.scan 0 b s).flatMap (Token.subst f)

theorem rest_plain {r : Pattern} {f : Match → Str} (h : r.matchAt b (c :: s) = none) :
    rest r f b (c :: s) = c :: rest r f (c :: b) s := by
  unfold rest
  rw [Pattern.scan_plain h]
  rfl

theorem rest_hit {r : Pattern} {f : Match → Str} {v : Str} {groups : List (Nat × Str)}
    (h : r.matchAt b (v ++ t) = some ⟨v, groups⟩) : rest r f b (v ++ t) = f ⟨v, groups⟩ ++ rest r f (v.reverse ++ b) t := by
  unfold rest
  rw [@Pattern.scan_hit r b t ⟨v, groups⟩ h]
  rfl

/-- A stretch in which no match begins, whatever comes before. -/
theorem rest_over {r : Pattern} {f : Match → Str} (h : ∀ c ∈ w, ∀ b s, r.matchAt b (c :: s) = none) (b t : Str) :
    rest r f b (w ++ t) = w ++ rest r f (w.reverse ++ b) t := by
  induction w generalizing b with
  | nil => rfl
  | cons c w ih =>
    rw [List.cons_append, rest_plain (h c List.mem_cons_self _ _), ih fun d hd => h d (List.mem_cons_of_mem c hd)]
    simp

/-- The first substitution of `_loads_jsonc`. -/
def uncomment (b s : Str) : Str := rest commentRe (·.group 1) b s

/-- The second. -/
def uncomma (b s : Str) : Str := rest trailingCommaRe (fun m => if m.group 1 ≠ [] then m.group 1 else m.group 2) b s

theorem loadsJsonc_eq (s : Str) : loadsJsonc s = JsonText.loads (uncomma [] (uncomment [] s)) := rfl

theorem Commented.spaces (h : Commented g w) : Spaces w := by
  induction h with
  | nil => exact JsonText.spaces_nil
  | space hc _ ih =>
    intro d hd
    rcases List.mem_cons.1 hd with rfl | hd
    · exact hc
    · exact ih d hd
  | line _ _ ih =>
    intro d hd
    rcases List.mem_cons.1 hd with rfl | hd
    · rfl
    · exact ih d hd
  | block _ _ ih => exact ih

theorem ws_plain (h : isWs c = true) (b s : Str) : commentRe.matchAt b (c :: s) = none := by
  refine comment_plain ?_ ?_ b s
  · rintro rfl
    cases h
  · rintro rfl
    cases h

theorem uncomment_gap (h : Commented g w) (b t : Str) : ∃ b', uncomment b (g ++ t) = w ++ uncomment b' t := by
  induction h generalizing b with
  | nil => exact ⟨b, rfl⟩
  | @space c g w hc _ ih =>
    obtain ⟨b', hb⟩ := ih (c :: b)
    refine ⟨b', ?_⟩
    unfold uncomment at hb ⊢
    rw [List.cons_append, rest_plain (ws_plain hc _ _), hb]
    rfl
  | @line x g w hx _ ih =>
    obtain ⟨b', hb⟩ := ih ('\n' :: (('/' :: '/' :: x).reverse ++ b))
    refine ⟨b', ?_⟩
    have hsplit : '/' :: '/' :: (x ++ '\n' :: g) ++ t = ('/' :: '/' :: x) ++ ('\n' :: (g ++ t)) := by simp
    have hline := comment_line hx b ('\n' :: (g ++ t)) fun c hc => (Option.some.inj hc).symm
    unfold uncomment at hb ⊢
    rw [hsplit, rest_hit hline, rest_plain (ws_plain rfl _ _), hb]
    rfl
  | @block x g w hx _ ih =>
    obtain ⟨b', hb⟩ := ih (('/' :: '*' :: (x ++ ['*', '/'])).reverse ++ b)
    refine ⟨b', ?_⟩
    have hsplit : '/' :: '*' :: (x ++ '*' :: '/' :: g) ++ t = ('/' :: '*' :: (x ++ ['*', '/'])) ++ (g ++ t) := by simp
    unfold uncomment at hb ⊢
    rw [hsplit, rest_hit (comment_block hx b _), hb]
    rfl

theorem uncomment_token (hok : tok.Ok) (b t : Str) : ∃ b', uncomment b (tok.text ++ t) = tok.text ++ uncomment b' t := by
  unfold uncomment
  cases tok with
  | punct c =>
    obtain ⟨-, -, hq, hs⟩ := JsonText.punct_plain hok
    exact ⟨c :: b, rest_plain (comment_plain hq hs b t)⟩
  | str raw => exact ⟨_, rest_hit (comment_string hok.1 b t)⟩
  | word raw =>
    refine ⟨_, rest_over (fun c hc b s => ?_) b t⟩
    obtain ⟨-, -, hq, hs⟩ := JsonText.wordChar_plain (List.all_eq_true.1 hok.2.1 c hc)
    exact comment_plain hq hs b s

theorem uncomment_end (h : CommentedEnd g w) (b : Str) : uncomment b g = w := by
  rcases h with h | ⟨u, x, rfl, hx, h⟩
  · obtain ⟨b', hb⟩ := uncomment_gap h b []
    rw [List.append_nil] at hb
    rw [hb]
    exact List.append_nil w
  · obtain ⟨b', hb⟩ := uncomment_gap h b ('/' :: '/' :: x)
    rw [hb]
    have hline := @comment_line x hx b' [] (fun c hc => by cases hc)
    have hrest := @rest_hit b' [] commentRe (·.group 1) _ _ hline
    rw [List.append_nil] at hrest
    unfold uncomment
    rw [hrest]
    exact List.append_nil w

/-- Without its comments the text has blanks for gaps. -/
theorem uncomment_laid (h : JsonText.Decorated toks t) (b : Str) : Laid Spaces Spaces True toks (uncomment b t) := by
  induction h generalizing b with
  | last hg =>
    obtain ⟨w, hw⟩ := hg
    rw [uncomment_end hw]
    refine .last ?_
    rcases hw with hw | ⟨_, _, _, _, hw⟩
    · exact Commented.spaces hw
    · exact Commented.spaces hw
  | token hg hok _ ih =>
    obtain ⟨w, hw⟩ := hg
    obtain ⟨b₁, h₁⟩ := uncomment_gap hw b _
    obtain ⟨b₂, h₂⟩ := uncomment_token hok b₁ _
    rw [h₁, h₂]
    exact .token (Commented.spaces hw) hok (ih b₂)
  | @comma g g' tok toks t hcommas hg hg' hclose _ ih =>
    obtain ⟨w, hw⟩ := hg
    obtain ⟨w', hw'⟩ := hg'
    have hok : tok.Ok := by rcases hclose with rfl | rfl <;> rfl
    obtain ⟨b₁, h₁⟩ := uncomment_gap hw b (',' :: (g' ++ (tok.text ++ t)))
    obtain ⟨b₂, h₂⟩ := uncomment_gap hw' (',' :: b₁) (tok.text ++ t)
    obtain ⟨b₃, h₃⟩ := uncomment_token hok b₂ t
    have hcomma : uncomment b₁ (',' :: (g' ++ (tok.text ++ t))) = ',' :: uncomment (',' :: b₁) (g' ++ (tok.text ++ t)) :=
      rest_plain (comment_plain (by decide) (by decide) _ _)
    rw [h₁, hcomma, h₂, h₃]
    exact .comma hcommas (Commented.spaces hw) (Commented.spaces hw') hclose (ih b₃)

/-! ## Texts without commas before what closes -/

theorem uncomma_gap (hg : Spaces g) (b t : Str) : uncomma b (g ++ t) = g ++ uncomma (g.reverse ++ b) t := by
  refine rest_over (fun c hc b s => trailing_plain ?_ ?_ b s) b t
  · rintro rfl
    cases hg _ hc
  · rintro rfl
    cases hg _ hc

/-- What a text goes on with behind its first gap. -/
theorem laid_head (h : Laid Spaces Spaces True toks t) : ∃ g s, t = g ++ s ∧ Spaces g ∧
    ∀ c, s.head? = some c → Str.isSpace c = false ∧
      ((c = '}' ∨ c = ']') → ∃ tok toks', toks = tok :: toks' ∧ tok.Closes) := by
  cases h with
  | last hg => exact ⟨_, [], (List.append_nil _).symm, hg, fun c hc => by cases hc⟩
  | @token g tok toks t hg hok _ =>
    refine ⟨g, tok.text ++ t, rfl, hg, fun c hc => ?_⟩
    cases tok with
    | punct d =>
      obtain rfl := Option.some.inj hc
      refine ⟨?_, fun hclose => ⟨_, _, rfl, ?_⟩⟩
      · simp only [JsonText.Token.Ok, isPunct, decide_eq_true_eq, List.mem_cons, List.not_mem_nil, or_false] at hok
        rcases hok with rfl | rfl | rfl | rfl | rfl | rfl <;> decide
      · rcases hclose with rfl | rfl
        · exact .inr rfl
        · exact .inl rfl
    | str raw =>
      obtain rfl := Option.some.inj hc
      exact ⟨by decide, fun h => by rcases h with h | h <;> cases h⟩
    | word raw =>
      obtain ⟨d, v, rfl⟩ := List.exists_cons_of_ne_nil hok.1
      obtain rfl := Option.some.inj hc
      have hd := List.all_eq_true.1 hok.2.1 d List.mem_cons_self
      refine ⟨wordChar_graphic hd, fun h => ?_⟩
      rcases h with rfl | rfl <;> cases hd
  | @comma g g' tok toks t _ hg _ _ _ =>
    refine ⟨g, ',' :: (g' ++ (tok.text ++ t)), rfl, hg, fun c hc => ?_⟩
    obtain rfl := Option.some.inj hc
    exact ⟨by decide, fun h => by rcases h with h | h <;> cases h⟩

/-- A token that no bracket's comma follows from. -/
theorem uncomma_token (hok : tok.Ok) (h : Laid Spaces Spaces True toks t) (hjoin : (tok :: toks).IsChain Joins) (b : Str) :
    ∃ b', uncomma b (tok.text ++ t) = tok.text ++ uncomma b' t := by
  unfold uncomma
  cases tok with
  | punct c =>
    refine ⟨c :: b, rest_plain ?_⟩
    by_cases hc : c = ','
    · subst hc
      obtain ⟨g, s, rfl, hg, hs⟩ := laid_head h
      refine trailing_kept hg (fun d hd => ⟨(hs d hd).1, ?_⟩) b
      have hopen : ¬(d = '}' ∨ d = ']') := by
        intro hclose
        obtain ⟨tok, toks', rfl, hcloses⟩ := (hs d hd).2 hclose
        exact (List.isChain_cons_cons.1 hjoin).1.1 ⟨rfl, hcloses⟩
      exact not_or.1 hopen
    · exact trailing_plain (JsonText.punct_plain hok).2.2.1 hc b t
  | str raw => exact ⟨_, rest_hit (trailing_string hok.1 b t)⟩
  | word raw =>
    refine ⟨_, rest_over (fun c hc b s => ?_) b t⟩
    have hword := List.all_eq_true.1 hok.2.1 c hc
    refine trailing_plain (JsonText.wordChar_plain hword).2.2.1 ?_ b s
    rintro rfl
    cases hword

theorem uncomma_laid (h : Laid Spaces Spaces True toks t) (hjoin : toks.IsChain Joins) (b : Str) :
    Laid Spaces Spaces False toks (uncomma b t) := by
  induction h generalizing b with
  | @last g hg =>
    have := uncomma_gap hg b []
    rw [List.append_nil] at this
    rw [this]
    exact .last ((List.append_nil g).symm ▸ hg)
  | token hg hok h ih =>
    rw [uncomma_gap hg]
    obtain ⟨b', hb⟩ := uncomma_token hok h hjoin _
    rw [hb]
    exact .token hg hok (ih hjoin.tail b')
  | @comma g g' tok toks t _ hg hg' hclose _ ih =>
    obtain ⟨c, hc, rfl⟩ : ∃ c, (c = '}' ∨ c = ']') ∧ tok = .punct c := by
      rcases hclose with rfl | rfl
      · exact ⟨_, .inr rfl, rfl⟩
      · exact ⟨_, .inl rfl, rfl⟩
    have hok : (JsonText.Token.punct c).Ok := by rcases hc with rfl | rfl <;> rfl
    have hsplit : ',' :: (g' ++ ((JsonText.Token.punct c).text ++ t)) = (',' :: (g' ++ [c])) ++ t := by
      simp [JsonText.Token.text]
    have hspaces : Spaces (g ++ g') := by
      intro d hd
      rcases List.mem_append.1 hd with hd | hd
      · exact hg d hd
      · exact hg' d hd
    rw [uncomma_gap hg, hsplit]
    have hhit := @rest_hit (g.reverse ++ b) t trailingCommaRe (fun m => if m.group 1 ≠ [] then m.group 1 else m.group 2) _ _
      (trailing_comma hg' hc _ t)
    have hgroup : (if Match.group ⟨',' :: (g' ++ [c]), [(2, g' ++ [c])]⟩ 1 ≠ [] then
        Match.group ⟨',' :: (g' ++ [c]), [(2, g' ++ [c])]⟩ 1
        else Match.group ⟨',' :: (g' ++ [c]), [(2, g' ++ [c])]⟩ 2) = g' ++ [c] := rfl
    rw [hgroup] at hhit
    have := Laid.token hspaces hok (ih hjoin.tail ((',' :: (g' ++ [c])).reverse ++ (g.reverse ++ b)))
    unfold uncomma at this ⊢
    rw [hhit]
    simpa [JsonText.Token.text] using this

end

/-- Rules are picked as the compiler picks them, and a JSON text is read as it
is, also with comments between its tokens and commas before what closes. -/
theorem ts_config_reads :
    (∀ (rules : List (Str × Str)) (specifier : Str), (rules.map (·.1)).Nodup →
      Picks rules specifier (matchRules (sortRules rules) specifier)) ∧
    ∀ (s : Str) (v : JsonText.Json), JsonText.loads s = some v →
      loadsJsonc s = some v ∧
        ∀ toks t, JsonText.lex s = some toks → JsonText.Decorated toks t → loadsJsonc t = some v := by
  refine ⟨fun rules specifier hn => picks_sorted hn specifier, fun s v hs => ?_⟩
  obtain ⟨toks, hlex, hparse⟩ := Option.bind_eq_some_iff.1 hs
  have hjoin := JsonText.parse_joins hparse
  have hall : ∀ t, JsonText.Decorated toks t → loadsJsonc t = some v := by
    intro t ht
    rw [loadsJsonc_eq, JsonText.loads, JsonText.lex_of_laid (uncomma_laid (uncomment_laid ht []) hjoin []) hjoin]
    exact hparse
  refine ⟨hall s (JsonText.decorated_self hlex), fun toks' t hlex' ht => hall t ?_⟩
  rwa [Option.some.inj (hlex.symm.trans hlex')]

/-- An exact rule before a wildcard one, and a list with a comma and a comment
behind its last string, which itself looks like a comment. -/
theorem ts_config_reads_alias :
    matchRules (sortRules [("@/*".toList, "src/*".toList), ("@/a".toList, "lib".toList)]) "@/a".toList =
        some "lib".toList ∧
      loadsJsonc "[\"//\",/*c*/]".toList = some (.arr [.str "//".toList]) := by
  constructor
  · exact (ts_config_reads.1 _ _ (by decide)).exact _ (by simp) (by decide)
  · have hread := (ts_config_reads.2 "[\"//\"]".toList (.arr [.str "//".toList]) rfl).2
    refine hread [.punct '[', .str "//".toList, .punct ']'] _ (by decide +kernel) ?_
    have hblock : JsonText.Commented "/*c*/".toList [] := by
      refine .block (x := ['c']) (fun u v h => ?_) .nil
      rcases u with _ | ⟨_, _ | ⟨_, _ | _⟩⟩ <;> simp at h
    have hbody : JsonText.Body "//".toList :=
      .plain (by decide) (by decide) (by decide) (.plain (by decide) (by decide) (by decide) .nil)
    have hnil : ∃ w, JsonText.Commented [] w := ⟨[], .nil⟩
    have hclose : JsonText.Decorated [.punct ']'] ",/*c*/]".toList :=
      @JsonText.Laid.comma _ _ _ [] "/*c*/".toList (.punct ']') [] [] trivial hnil ⟨[], hblock⟩ (.inl rfl)
        (.last ⟨[], .inl .nil⟩)
    have hitem : JsonText.Decorated [.str "//".toList, .punct ']'] "\"//\",/*c*/]".toList :=
      @JsonText.Laid.token _ _ _ [] (.str "//".toList) _ _ hnil ⟨hbody, by decide⟩ hclose
    exact @JsonText.Laid.token _ _ _ [] (.punct '[') _ _ hnil rfl hitem

end Cograph.TsResolve
