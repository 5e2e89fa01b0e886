import Cograph.GoTokensSound

/-!
# What a build constraint evaluates to

The grammar of `//go:build` expressions over tokens, and the texts that spell
them. The parser is compared with it through a plain reading of the tokens from
the left, operand by operand: an expression that the reading gets through is
given its Kleene value, and the reading says exactly where the parser goes
another way.
-/

namespace Cograph.GoVariants

open Kleene Regex

/-! ## Truth values -/

def TruthValue.known : TruthValue → Tri
  | .true => some Bool.true
  | .false => some Bool.false
  | .unknown => none

@[simp] theorem known_not (v : TruthValue) : (triNot v).known = tnot v.known := by
  cases v <;> rfl

@[simp] theorem known_and (v w : TruthValue) : (triAnd v w).known = tand v.known w.known := by
  cases v <;> cases w <;> rfl

@[simp] theorem known_or (v w : TruthValue) : (triOr v w).known = tor v.known w.known := by
  cases v <;> cases w <;> rfl

/-! ## The grammar -/

inductive Level where
  | or
  | and
  | unary

/-- The tokens of an expression and its tree, `!` over `&&` over `||`. -/
inductive Derives : Level → List Str → Formula Str → Prop
  | ident {x : Str} (h : Ident x) : Derives .unary [x] (.atom x)
  | paren {ts : List Str} {f : Formula Str} (h : Derives .or ts f) :
    Derives .unary ("(".toList :: (ts ++ [")".toList])) f
  | not {ts : List Str} {f : Formula Str} (h : Derives .unary ts f) : Derives .unary ("!".toList :: ts) (.not f)
  | unary {ts : List Str} {f : Formula Str} (h : Derives .unary ts f) : Derives .and ts f
  | and {ts us : List Str} {f g : Formula Str} (h : Derives .and ts f) (h' : Derives .unary us g) :
    Derives .and (ts ++ "&&".toList :: us) (.and f g)
  | conj {ts : List Str} {f : Formula Str} (h : Derives .and ts f) : Derives .or ts f
  | or {ts us : List Str} {f g : Formula Str} (h : Derives .or ts f) (h' : Derives .and us g) :
    Derives .or (ts ++ "||".toList :: us) (.or f g)

/-- The grammar of texts. -/
def Generated (s : Str) (f : Formula Str) : Prop := ∃ ts, Derives .or ts f ∧ Spelled ts s

/-! ## Reading from the left -/

inductive Stop where
  | opened
  | refused
  deriving DecidableEq

/-- The operands of the tokens, from where an operand is expected (`true`) or
an operator. Any token but `!` and `(` passes for an operand, and an opening
parenthesis stops the reading. -/
def reading : Bool → List Str → Except Stop (List Str)
  | true, [] => .error .refused
  | true, t :: ts =>
    if t = "!".toList then reading true ts
    else if t = "(".toList then .error .opened
    else (reading false ts).map (t :: ·)
  | false, [] => .ok []
  | false, t :: ts => if t = "&&".toList ∨ t = "||".toList then reading true ts else .error .refused

theorem reading_not (ts : List Str) : reading true ("!".toList :: ts) = reading true ts := by
  rw [reading, if_pos rfl]

theorem reading_paren (ts : List Str) : reading true ("(".toList :: ts) = .error .opened := by
  rw [reading, if_neg (by decide), if_pos rfl]

theorem reading_op {op : Str} (h : op = "&&".toList ∨ op = "||".toList) (ts : List Str) :
    reading false (op :: ts) = reading true ts := by
  rw [reading, if_pos h]

/-- The tokens end after an operand and carry these operands. -/
def Carries (ts ops : List Str) : Prop := ∀ rest, reading true (ts ++ rest) = (reading false rest).map (ops ++ ·)

theorem carries_not {ts ops : List Str} (h : Carries ts ops) : Carries ("!".toList :: ts) ops := by
  intro rest
  rw [List.cons_append, reading_not]
  exact h rest

theorem carries_one {t : Str} (h : t ≠ "!".toList) (h' : t ≠ "(".toList) : Carries [t] [t] := by
  intro rest
  simp only [List.singleton_append, reading, h, h', if_false]

theorem map_map {α β γ ε : Type} (g : β → γ) (f : α → β) (x : Except ε α) :
    (x.map f).map g = x.map fun a => g (f a) := by
  cases x <;> rfl

theorem carries_op {ts us ops ops' : List Str} {op : Str} (h : Carries ts ops) (h' : Carries us ops')
    (hop : op = "&&".toList ∨ op = "||".toList) : Carries (ts ++ op :: us) (ops ++ ops') := by
  intro rest
  rw [List.append_assoc, List.cons_append, h, reading_op hop, h', map_map]
  simp only [List.append_assoc]

/-! ## What the parser reads -/

section
variable (profile : GoIndexProfile)

def Raised.stop : Raised → Stop
  | .unsupported _ => .refused
  | .attributeError _ => .opened

/-- A method reads some operands, and what it reads has a tree where they are
identifiers; it raises where the reading stops. -/
structure Follows (M : Method) (l : Level) : Prop where
  ok : ∀ {ts v us}, M.run ts = .ok (v, us) → ∃ xs ops, ts = xs ++ us ∧ Carries xs ops ∧
    ((∀ x ∈ ops, Ident x) → ∃ f, Derives l xs f)
  error : ∀ {ts e}, M.run ts = .error e → reading true ts = .error e.stop

theorem parseUnary_follows : Follows (parseUnary profile) .unary where
  ok := by
    intro ts
    change ∀ {v us}, parseUnaryRun profile ts = .ok (v, us) → _
    induction ts with
    | nil =>
      intro v us h
      cases h
    | cons t ts ih =>
      intro v us h
      rw [parseUnaryRun] at h
      by_cases ht : t = "!".toList
      · rw [if_pos ht] at h
        cases hr : parseUnaryRun profile ts with
        | error e =>
          rw [hr] at h
          cases h
        | ok r =>
          rw [hr] at h
          obtain ⟨-, rfl⟩ := Prod.mk.inj (Except.ok.inj h)
          obtain ⟨xs, ops, hts, hxs, htree⟩ := ih hr
          refine ⟨t :: xs, ops, by rw [hts, List.cons_append], ht ▸ carries_not hxs, ?_⟩
          intro hops
          obtain ⟨f, hf⟩ := htree hops
          rw [ht]
          exact ⟨_, .not hf⟩
      · rw [if_neg ht, parsePrimary] at h
        by_cases hp : t = "(".toList
        · rw [if_pos hp] at h
          cases h
        · simp only [hp, if_false, Except.ok.injEq, Prod.mk.injEq] at h
          refine ⟨[t], [t], by simp [h.2], carries_one ht hp, ?_⟩
          intro hops
          exact ⟨_, .ident (hops t (by simp))⟩
  error := by
    intro ts
    change ∀ {e}, parseUnaryRun profile ts = .error e → _
    induction ts with
    | nil =>
      intro e h
      cases h
      rfl
    | cons t ts ih =>
      intro e h
      rw [parseUnaryRun] at h
      by_cases ht : t = "!".toList
      · rw [if_pos ht] at h
        cases hr : parseUnaryRun profile ts with
        | error e' =>
          rw [hr] at h
          cases h
          rw [ht, reading_not]
          exact ih hr
        | ok r =>
          rw [hr] at h
          cases h
      · rw [if_neg ht, parsePrimary] at h
        by_cases hp : t = "(".toList
        · rw [if_pos hp] at h
          cases h
          rw [hp, reading_paren]
          rfl
        · rw [if_neg hp] at h
          cases h

section
variable {sub : Method} {op : Str} {combine : TruthValue → TruthValue → TruthValue} {l l' : Level}
  {node : Formula Str → Formula Str → Formula Str}

theorem loop_ok (hsub : Follows sub l) (hop : op = "&&".toList ∨ op = "||".toList)
    (step : ∀ {xs ys f g}, Derives l' xs f → Derives l ys g → Derives l' (xs ++ op :: ys) (node f g))
    (v : TruthValue) (ts : List Str) : ∀ {xs ops w us}, Carries xs ops →
      ((∀ x ∈ ops, Ident x) → ∃ f, Derives l' xs f) → loop sub op combine v ts = .ok (w, us) →
      us.head? ≠ some op ∧ ∃ ys ops', ts = ys ++ us ∧ Carries (xs ++ ys) ops' ∧
        ((∀ x ∈ ops', Ident x) → ∃ f, Derives l' (xs ++ ys) f) := by
  fun_induction loop sub op combine v ts with
  | case1 v =>
    intro xs ops w us hxs htree h
    cases h
    exact ⟨by simp, [], ops, rfl, by simpa using hxs, by simpa using htree⟩
  | case2 v ts e hr =>
    intro xs ops w us hxs htree h
    cases h
  | case3 v ts u vs hr ih =>
    intro xs ops w us hxs htree h
    obtain ⟨ys, ops₁, hts, hys, htree₁⟩ := hsub.ok hr
    have htree' : (∀ x ∈ ops ++ ops₁, Ident x) → ∃ f, Derives l' (xs ++ op :: ys) f := by
      intro hall
      obtain ⟨f, hf⟩ := htree fun x hx => hall x (by simp [hx])
      obtain ⟨g, hg⟩ := htree₁ fun x hx => hall x (by simp [hx])
      exact ⟨_, step hf hg⟩
    obtain ⟨hhead, zs, ops₂, hvs, hzs, hlast⟩ := ih (carries_op hxs hys hop) htree' h
    refine ⟨hhead, op :: (ys ++ zs), ops₂, by simp [hts, hvs], ?_, ?_⟩
    · simpa using hzs
    · simpa using hlast
  | case4 v t ts hne =>
    intro xs ops w us hxs htree h
    cases h
    exact ⟨by simpa using hne, [], ops, rfl, by simpa using hxs, by simpa using htree⟩

theorem loop_error (hsub : Follows sub l) (hop : op = "&&".toList ∨ op = "||".toList) (v : TruthValue) (ts : List Str) :
    ∀ {e}, loop sub op combine v ts = .error e → reading false ts = .error e.stop := by
  fun_induction loop sub op combine v ts with
  | case1 v =>
    intro e h
    cases h
  | case2 v ts e hr =>
    intro e' h
    cases h
    rw [reading_op hop]
    exact hsub.error hr
  | case3 v ts u vs hr ih =>
    intro e h
    obtain ⟨ys, ops, hts, hys, -⟩ := hsub.ok hr
    rw [reading_op hop, hts, hys, ih h]
    rfl
  | case4 v t ts hne =>
    intro e h
    cases h

theorem chain_ok (hsub : Follows sub l) (hop : op = "&&".toList ∨ op = "||".toList)
    (base : ∀ {xs f}, Derives l xs f → Derives l' xs f)
    (step : ∀ {xs ys f g}, Derives l' xs f → Derives l ys g → Derives l' (xs ++ op :: ys) (node f g))
    {ts us : List Str} {v : TruthValue} (h : (chain sub op combine).run ts = .ok (v, us)) :
    us.head? ≠ some op ∧ ∃ xs ops, ts = xs ++ us ∧ Carries xs ops ∧
      ((∀ x ∈ ops, Ident x) → ∃ f, Derives l' xs f) := by
  change chainRun sub op combine ts = _ at h
  unfold chainRun at h
  cases hr : sub.run ts with
  | error e =>
    rw [hr] at h
    cases h
  | ok r =>
    rw [hr] at h
    obtain ⟨xs, ops, hts, hxs, htree⟩ := hsub.ok hr
    have htree' : (∀ x ∈ ops, Ident x) → ∃ f, Derives l' xs f := by
      intro hall
      obtain ⟨f, hf⟩ := htree hall
      exact ⟨f, base hf⟩
    obtain ⟨hhead, ys, ops', hus, hys, hlast⟩ := loop_ok hsub hop step r.1 r.2 hxs htree' h
    exact ⟨hhead, xs ++ ys, ops', by rw [hts, hus, List.append_assoc], hys, hlast⟩

theorem chain_follows (hsub : Follows sub l) (hop : op = "&&".toList ∨ op = "||".toList)
    (base : ∀ {xs f}, Derives l xs f → Derives l' xs f)
    (step : ∀ {xs ys f g}, Derives l' xs f → Derives l ys g → Derives l' (xs ++ op :: ys) (node f g)) :
    Follows (chain sub op combine) l' where
  ok h := (chain_ok hsub hop base step h).2
  error := by
    intro ts e h
    change chainRun sub op combine ts = _ at h
    unfold chainRun at h
    cases hr : sub.run ts with
    | error e' =>
      rw [hr] at h
      cases h
      exact hsub.error hr
    | ok r =>
      rw [hr] at h
      obtain ⟨xs, ops, hts, hxs, -⟩ := hsub.ok hr
      rw [hts, hxs, loop_error hsub hop r.1 r.2 h]
      rfl

end

theorem parseAnd_follows : Follows (parseAnd profile) .and :=
  chain_follows (parseUnary_follows profile) (.inl rfl) .unary .and

theorem parseOr_follows : Follows (parseOr profile) .or :=
  chain_follows (parseAnd_follows profile) (.inr rfl) .conj .or

/-! ## What an expression reads as -/

theorem ident_not_punctuation {x : Str} (h : Ident x) : x ∉ punctuation := by
  intro hx
  simp only [punctuation, List.map_cons, List.map_nil, List.mem_cons, List.not_mem_nil, or_false] at hx
  rcases hx with rfl | rfl | rfl | rfl | rfl <;> exact absurd (h.2 _ (List.mem_cons_self ..)) (by decide)

theorem ident_ne {x : Str} (h : Ident x) : x ≠ "!".toList ∧ x ≠ "(".toList := by
  constructor
  · rintro rfl
    exact ident_not_punctuation h (by decide)
  · rintro rfl
    exact ident_not_punctuation h (by decide)

/-- An expression reads to its end with identifiers for operands, or stops at
its first parenthesis. -/
theorem derives_reading {l : Level} {ts : List Str} {f : Formula Str} (h : Derives l ts f) :
    (∀ rest, reading true (ts ++ rest) = .error .opened) ∨ ∃ ops, (∀ x ∈ ops, Ident x) ∧ Carries ts ops := by
  have hop {ts us : List Str} {op : Str} (hop : op = "&&".toList ∨ op = "||".toList)
      (ih : (∀ rest, reading true (ts ++ rest) = .error .opened) ∨ ∃ ops, (∀ x ∈ ops, Ident x) ∧ Carries ts ops)
      (ih' : (∀ rest, reading true (us ++ rest) = .error .opened) ∨ ∃ ops, (∀ x ∈ ops, Ident x) ∧ Carries us ops) :
      (∀ rest, reading true (ts ++ op :: us ++ rest) = .error .opened) ∨
        ∃ ops, (∀ x ∈ ops, Ident x) ∧ Carries (ts ++ op :: us) ops := by
    rcases ih with ih | ⟨ops, hops, hts⟩
    · left
      intro rest
      rw [List.append_assoc]
      exact ih _
    · rcases ih' with ih' | ⟨ops', hops', hus⟩
      · left
        intro rest
        rw [List.append_assoc, List.cons_append, hts, reading_op hop, ih']
        rfl
      · right
        refine ⟨ops ++ ops', ?_, carries_op hts hus hop⟩
        intro x hx
        exact (List.mem_append.1 hx).elim (hops x) (hops' x)
  induction h with
  | @ident x h => exact .inr ⟨[x], by simpa using h, carries_one (ident_ne h).1 (ident_ne h).2⟩
  | paren h ih => exact .inl fun rest => reading_paren _
  | @not ts f h ih =>
    rcases ih with ih | ⟨ops, hops, hts⟩
    · left
      intro rest
      rw [List.cons_append, reading_not]
      exact ih rest
    · exact .inr ⟨ops, hops, carries_not hts⟩
  | unary h ih | conj h ih => exact ih
  | and h h' ih ih' => exact hop (.inl rfl) ih ih'
  | or h h' ih ih' => exact hop (.inr rfl) ih ih'

/-- The value of a tree under the profile. -/
def treeValue (f : Formula Str) : Tri := f.value fun x => (evaluateIdentifier profile x).known

def Opened (r : Except Raised (TruthValue × List Str)) : Prop := ∃ name, r = .error (.attributeError name)

/-- How a method of a level goes on behind an expression of the level. -/
def Proceeds : Level → Formula Str → List Str → List Str → Prop
  | .unary, f, ts, rest => ∃ v, v.known = treeValue profile f ∧ (parseUnary profile).run (ts ++ rest) = .ok (v, rest)
  | .and, f, ts, rest => ∃ v, v.known = treeValue profile f ∧
    (parseAnd profile).run (ts ++ rest) = loop (parseUnary profile) "&&".toList triAnd v rest
  | .or, f, ts, rest => rest.head? = some "&&".toList ∨ ∃ v, v.known = treeValue profile f ∧
    (parseOr profile).run (ts ++ rest) = loop (parseAnd profile) "||".toList triOr v rest

def Level.method : Level → Method
  | .unary => parseUnary profile
  | .and => parseAnd profile
  | .or => parseOr profile

theorem loop_stop {sub : Method} {op : Str} {combine : TruthValue → TruthValue → TruthValue} {v : TruthValue}
    {ts : List Str} (h : ts.head? ≠ some op) : loop sub op combine v ts = .ok (v, ts) := by
  cases ts with
  | nil => rw [loop]
  | cons t ts => rw [loop, if_neg (by simpa using h)]

theorem loop_step {sub : Method} {op : Str} {combine : TruthValue → TruthValue → TruthValue} {v w : TruthValue}
    {ts us : List Str} (h : sub.run ts = .ok (w, us)) :
    loop sub op combine v (op :: ts) = loop sub op combine (combine v w) us := by
  rw [loop, if_pos rfl]
  split
  · rename_i hr
    rw [h] at hr
    cases hr
  · rename_i hr
    rw [h] at hr
    cases hr
    rfl

theorem loop_opened {sub : Method} {op : Str} {combine : TruthValue → TruthValue → TruthValue} {v : TruthValue}
    {ts : List Str} (h : Opened (sub.run ts)) : Opened (loop sub op combine v (op :: ts)) := by
  obtain ⟨name, h⟩ := h
  rw [loop, if_pos rfl]
  split
  · rename_i hr
    rw [h] at hr
    cases hr
    exact ⟨name, rfl⟩
  · rename_i hr
    rw [h] at hr
    cases hr

theorem chain_run {sub : Method} {op : Str} {combine : TruthValue → TruthValue → TruthValue} {v : TruthValue}
    {ts us : List Str} (h : sub.run ts = .ok (v, us)) : (chain sub op combine).run ts = loop sub op combine v us := by
  change chainRun sub op combine ts = _
  unfold chainRun
  rw [h]
  rfl

theorem chain_opened {sub : Method} {op : Str} {combine : TruthValue → TruthValue → TruthValue} {ts : List Str}
    (h : Opened (sub.run ts)) : Opened ((chain sub op combine).run ts) := by
  obtain ⟨name, h⟩ := h
  refine ⟨name, ?_⟩
  change chainRun sub op combine ts = _
  unfold chainRun
  rw [h]
  rfl

theorem unary_not (ts : List Str) : (parseUnary profile).run ("!".toList :: ts) =
    ((parseUnary profile).run ts).map fun r => (triNot r.1, r.2) := by
  change parseUnaryRun profile _ = (parseUnaryRun profile ts).map _
  rw [parseUnaryRun, if_pos rfl]
  cases parseUnaryRun profile ts <;> rfl

theorem unary_ident {x : Str} (h : Ident x) (ts : List Str) :
    (parseUnary profile).run (x :: ts) = .ok (evaluateIdentifier profile x, ts) := by
  change parseUnaryRun profile _ = _
  rw [parseUnaryRun, if_neg (ident_ne h).1, parsePrimary, if_neg (ident_ne h).2]

theorem unary_paren (ts : List Str) : Opened ((parseUnary profile).run ("(".toList :: ts)) := by
  refine ⟨"_parse_expression".toList, ?_⟩
  change parseUnaryRun profile _ = _
  rw [parseUnaryRun, if_neg (by decide), parsePrimary, if_pos rfl]

/-- An expression is read to its end with its value, but for one that begins a
parenthesis. -/
theorem derives_parsed {l : Level} {ts : List Str} {f : Formula Str} (h : Derives l ts f) :
    ∀ rest, Opened ((l.method profile).run (ts ++ rest)) ∨ Proceeds profile l f ts rest := by
  induction h with
  | @ident x h => exact fun rest => .inr ⟨_, rfl, unary_ident profile h rest⟩
  | paren h ih => exact fun rest => .inl (unary_paren profile _)
  | @not ts f h ih =>
    intro rest
    rcases ih rest with ⟨name, hn⟩ | ⟨v, hv, hrun⟩
    · left
      refine ⟨name, ?_⟩
      change (parseUnary profile).run (ts ++ rest) = _ at hn
      change (parseUnary profile).run ("!".toList :: (ts ++ rest)) = _
      rw [unary_not, hn]
      rfl
    · right
      refine ⟨triNot v, by simp [hv, treeValue, Formula.value], ?_⟩
      rw [List.cons_append, unary_not, hrun]
      rfl
  | @unary ts f h ih =>
    intro rest
    rcases ih rest with ho | ⟨v, hv, hrun⟩
    · exact .inl (chain_opened ho)
    · exact .inr ⟨v, hv, chain_run hrun⟩
  | @and ts us f g h h' ih ih' =>
    intro rest
    have hsplit : ts ++ "&&".toList :: us ++ rest = ts ++ "&&".toList :: (us ++ rest) := by simp
    rw [hsplit]
    rcases ih ("&&".toList :: (us ++ rest)) with ho | ⟨v, hv, hrun⟩
    · exact .inl ho
    · rcases ih' rest with ho | ⟨w, hw, hrun'⟩
      · left
        change Opened ((parseAnd profile).run _)
        rw [hrun]
        exact loop_opened ho
      · right
        refine ⟨triAnd v w, by simp [hv, hw, treeValue, Formula.value], ?_⟩
        rw [hsplit, hrun, loop_step hrun']
  | @conj ts f h ih =>
    intro rest
    by_cases hrest : rest.head? = some "&&".toList
    · exact .inr (.inl hrest)
    · rcases ih rest with ho | ⟨v, hv, hrun⟩
      · exact .inl (chain_opened ho)
      · rw [loop_stop hrest] at hrun
        exact .inr (.inr ⟨v, hv, chain_run hrun⟩)
  | @or ts us f g h h' ih ih' =>
    intro rest
    by_cases hrest : rest.head? = some "&&".toList
    · exact .inr (.inl hrest)
    · have hsplit : ts ++ "||".toList :: us ++ rest = ts ++ "||".toList :: (us ++ rest) := by simp
      rw [hsplit]
      rcases ih ("||".toList :: (us ++ rest)) with ho | hhead | ⟨v, hv, hrun⟩
      · exact .inl ho
      · simp at hhead
      · rcases ih' rest with ho | ⟨w, hw, hrun'⟩
        · left
          change Opened ((parseOr profile).run _)
          rw [hrun]
          exact loop_opened ho
        · right
          rw [loop_stop hrest] at hrun'
          refine .inr ⟨triOr v w, by simp [hv, hw, treeValue, Formula.value], ?_⟩
          rw [hsplit, hrun, loop_step hrun']

/-! ## A list of tokens -/

/-- What the evaluation makes of its tokens. -/
def evaluateTokens (tokens : List Str) : Except Raised TruthValue :=
  if tokens = [] then .error (.unsupported "Empty //go:build expression".toList)
  else do
    let (value, rest) ← (parseExpression profile).run tokens
    if rest ≠ [] then .error (.unsupported ("Unsupported Go build expression tail: ".toList ++ joined rest))
    else return value

/-- What holds of the rest behind each operand holds of the rest behind the
chain. -/
theorem chain_rest {sub : Method} {op : Str} {combine : TruthValue → TruthValue → TruthValue} {P : List Str → Prop}
    (hsub : ∀ {ts v us}, sub.run ts = .ok (v, us) → P us) {ts us : List Str} {v : TruthValue}
    (h : (chain sub op combine).run ts = .ok (v, us)) : P us := by
  have hloop (v : TruthValue) (ts : List Str) : ∀ {w us}, P ts → loop sub op combine v ts = .ok (w, us) → P us := by
    fun_induction loop sub op combine v ts with
    | case1 v =>
      intro w us hP h
      cases h
      exact hP
    | case2 v ts e hr =>
      intro w us hP h
      cases h
    | case3 v ts u vs hr ih =>
      intro w us hP h
      exact ih (hsub hr) h
    | case4 v t ts hne =>
      intro w us hP h
      cases h
      exact hP
  change chainRun sub op combine ts = _ at h
  unfold chainRun at h
  cases hr : sub.run ts with
  | error e =>
    rw [hr] at h
    cases h
  | ok r =>
    rw [hr] at h
    exact hloop r.1 r.2 (hsub hr) h

theorem parseOr_head {ts us : List Str} {v : TruthValue} (h : (parseOr profile).run ts = .ok (v, us)) :
    us.head? ≠ some "&&".toList ∧ us.head? ≠ some "||".toList := by
  constructor
  · apply chain_rest _ h
    intro ts v us hand
    exact (chain_ok (parseUnary_follows profile) (.inl rfl) .unary .and hand).1
  · exact (chain_ok (parseAnd_follows profile) (.inr rfl) .conj .or h).1

theorem reading_end {us : List Str} (h : us.head? ≠ some "&&".toList ∧ us.head? ≠ some "||".toList) :
    reading false us = if us = [] then .ok [] else .error .refused := by
  cases us with
  | nil => rfl
  | cons t ts =>
    rw [reading, if_neg, if_neg (by simp)]
    simpa using h

/-- No parenthesis is opened where an operand stands, and the operands of a
reading that gets through are identifiers. -/
def Plain (ts : List Str) : Prop :=
  reading true ts ≠ .error .opened ∧ ∀ ops, reading true ts = .ok ops → ∀ x ∈ ops, Ident x

/-- An expression is given its Kleene value, any other list of tokens refused. -/
def Right (ts : List Str) : Prop :=
  (∀ f, Derives .or ts f → ∃ v, evaluateTokens profile ts = .ok v ∧ v.known = treeValue profile f) ∧
    ((∀ f, ¬Derives .or ts f) → ∃ m, evaluateTokens profile ts = .error (.unsupported m))

theorem derives_ne_nil {l : Level} {ts : List Str} {f : Formula Str} (h : Derives l ts f) : ts ≠ [] := by
  induction h with
  | ident | paren | not | and | or => simp
  | unary h ih | conj h ih => exact ih

theorem derives_read {ts : List Str} {f : Formula Str} (h : Derives .or ts f) :
    reading true ts = .error .opened ∨ ∃ ops, (∀ x ∈ ops, Ident x) ∧ reading true ts = .ok ops := by
  rcases derives_reading h with ho | ⟨ops, hops, hts⟩
  · exact .inl (by simpa using ho [])
  · have := hts []
    simp only [List.append_nil, reading, Except.map] at this
    exact .inr ⟨ops, hops, this⟩

theorem right_of_refused {ts : List Str} (hread : reading true ts = .error .refused)
    (heval : ∃ m, evaluateTokens profile ts = .error (.unsupported m)) : Right profile ts ∧ Plain ts := by
  refine ⟨⟨?_, fun _ => heval⟩, by simp [hread], by simp [hread]⟩
  intro f hf
  rcases derives_read hf with h | ⟨ops, -, h⟩ <;> simp [hread] at h

theorem right_iff (ts : List Str) : Right profile ts ↔ Plain ts := by
  by_cases hnil : ts = []
  · subst hnil
    have := @right_of_refused profile [] rfl ⟨_, if_pos rfl⟩
    exact iff_of_true this.1 this.2
  cases hr : (parseOr profile).run ts with
  | error e =>
    have hread := (parseOr_follows profile).error hr
    have heval : evaluateTokens profile ts = .error e := by
      rw [evaluateTokens, if_neg hnil, parseExpression, hr]
      rfl
    cases e with
    | unsupported m =>
      have := right_of_refused profile hread ⟨m, heval⟩
      exact iff_of_true this.1 this.2
    | attributeError name =>
      refine iff_of_false ?_ (fun h => h.1 hread)
      intro hright
      by_cases hex : ∃ f, Derives .or ts f
      · obtain ⟨f, hf⟩ := hex
        obtain ⟨v, hv, -⟩ := hright.1 f hf
        rw [heval] at hv
        cases hv
      · obtain ⟨m, hm⟩ := hright.2 (not_exists.1 hex)
        rw [heval] at hm
        cases hm
  | ok r =>
    obtain ⟨v, us⟩ := r
    obtain ⟨xs, ops, hts, hxs, htree⟩ := (parseOr_follows profile).ok hr
    have hread := hxs us
    rw [← hts, reading_end (parseOr_head profile hr)] at hread
    by_cases hus : us = []
    · subst hus
      rw [List.append_nil] at hts
      have hops : reading true ts = .ok ops := by simpa [Except.map] using hread
      have heval : evaluateTokens profile ts = .ok v := by
        rw [evaluateTokens, if_neg hnil, parseExpression, hr]
        rfl
      constructor
      · intro hright
        by_cases hex : ∃ f, Derives .or ts f
        · obtain ⟨f, hf⟩ := hex
          rcases derives_read hf with h | ⟨ops', hall, h⟩
          · simp [hops] at h
          · refine ⟨by simp [hops], ?_⟩
            intro ops'' h''
            rw [h] at h''
            cases h''
            exact hall
        · obtain ⟨m, hm⟩ := hright.2 (not_exists.1 hex)
          rw [heval] at hm
          cases hm
      · intro hplain
        obtain ⟨f, hf⟩ := htree (hplain.2 ops hops)
        refine ⟨?_, fun hnone => absurd (hts ▸ hf) (hnone f)⟩
        intro f hf
        refine ⟨v, heval, ?_⟩
        rcases derives_parsed profile hf [] with ⟨name, h⟩ | h | ⟨w, hw, h⟩
        · rw [List.append_nil] at h
          change (parseOr profile).run ts = _ at h
          rw [hr] at h
          cases h
        · simp at h
        · rw [List.append_nil, hr, loop_stop (by simp)] at h
          cases h
          exact hw
    · rw [if_neg hus] at hread
      have heval : ∃ m, evaluateTokens profile ts = .error (.unsupported m) := by
        refine ⟨"Unsupported Go build expression tail: ".toList ++ joined us, ?_⟩
        rw [evaluateTokens, if_neg hnil, parseExpression, hr]
        change (if us ≠ [] then _ else _) = _
        rw [if_pos hus]
      have := right_of_refused profile hread heval
      exact iff_of_true this.1 this.2

/-! ## Texts -/

theorem ident_iff_not {t : Str} (h : t ∈ punctuation) : ¬Ident t := fun ht => ident_not_punctuation ht h

theorem derives_clear {l : Level} {ts : List Str} {f : Formula Str} (h : Derives l ts f) : Clear ts := by
  have hop {ts us : List Str} {op : Str} (hop : op ∈ punctuation) (h : Clear ts) (h' : Clear us) :
      Clear (ts ++ op :: us) := by
    constructor
    · intro t ht
      rcases List.mem_append.1 ht with ht | ht
      · exact h.1 t ht
      · rcases List.mem_cons.1 ht with rfl | ht
        · exact .inl hop
        · exact h'.1 t ht
    · refine List.isChain_append.2 ⟨h.2, List.isChain_cons.2 ⟨?_, h'.2⟩, ?_⟩
      · intro u _ hu
        exact ident_iff_not hop hu.1
      · intro t _ u hu
        obtain rfl : op = u := by simpa using hu
        exact fun hu => ident_iff_not hop hu.2
  have hone {t : Str} (ht : t ∈ punctuation) : Clear [t] := ⟨by simp [ht], List.isChain_singleton _⟩
  have hempty : Clear [] := ⟨by simp, List.isChain_nil⟩
  induction h with
  | ident h => exact ⟨by simp [h], List.isChain_singleton _⟩
  | paren h ih =>
    have := hop (show "(".toList ∈ punctuation by decide) hempty (hop (show ")".toList ∈ punctuation by decide) ih hempty)
    simpa using this
  | not h ih => exact hop (show "!".toList ∈ punctuation by decide) hempty ih
  | unary h ih | conj h ih => exact ih
  | and h h' ih ih' => exact hop (by decide) ih ih'
  | or h h' ih ih' => exact hop (by decide) ih ih'

/-- A text without white space at its end is generated when its tokens are. -/
theorem generated_cut {s : Str} {ts : List Str} (h : Cut ts s) (f : Formula Str) : Generated s f ↔ Derives .or ts f := by
  constructor
  · intro ⟨us, hus, hs⟩
    have hcut := spelled_cut (derives_clear hus) hs (cut_not_blank h)
    have : us = ts := by
      have := (tokenize_ok.2 hcut).symm.trans (tokenize_ok.2 h)
      simpa using this
    exact this ▸ hus
  · intro hf
    exact ⟨ts, hf, cut_spelled h⟩

def Evaluates (s : Str) : Prop :=
  (∀ f, Generated s f → ∃ v, evaluateBuildExpression profile s = .ok v ∧ v.known = treeValue profile f) ∧
    ((∀ f, ¬Generated s f) → ∃ m, evaluateBuildExpression profile s = .error (.unsupported m))

/-- The text is not an expression with white space behind it, and its tokens
open no parenthesis where an operand stands and have identifiers for operands
when they read to their end. -/
def Handled (s : Str) : Prop := (EndsBlank s → ∀ f, ¬Generated s f) ∧ ∀ ts, Cut ts s → Plain ts

/-- **When a build expression is evaluated as its grammar says.** -/
theorem build_expression_evaluates_iff (s : Str) : Evaluates profile s ↔ Handled s := by
  cases ht : tokenize s with
  | error e =>
    obtain ⟨m, rfl⟩ := tokenizeAt_error 0 [] s ht
    have heval : evaluateBuildExpression profile s = .error (.unsupported m) := by
      rw [evaluateBuildExpression, ht]
      rfl
    have hcut : ∀ ts, ¬Cut ts s := by
      intro ts h
      rw [tokenize_ok.2 h] at ht
      cases ht
    constructor
    · intro h
      refine ⟨?_, fun ts hts => absurd hts (hcut ts)⟩
      intro _ f hf
      obtain ⟨v, hv, -⟩ := h.1 f hf
      rw [heval] at hv
      cases hv
    · intro h
      refine ⟨?_, fun _ => ⟨m, heval⟩⟩
      intro f hf
      by_cases hb : EndsBlank s
      · exact absurd hf (h.1 hb f)
      · obtain ⟨ts, hts, hs⟩ := hf
        exact absurd (spelled_cut (derives_clear hts) hs hb) (hcut ts)
  | ok ts =>
    have hcut := tokenize_ok.1 ht
    have heval : evaluateBuildExpression profile s = evaluateTokens profile ts := by
      rw [evaluateBuildExpression, ht]
      rfl
    have hclaim : Evaluates profile s ↔ Right profile ts := by
      simp only [Evaluates, Right, heval, generated_cut hcut]
    rw [hclaim, right_iff]
    constructor
    · intro h
      refine ⟨fun hb => absurd hb (cut_not_blank hcut), ?_⟩
      intro us hus
      have : us = ts := by
        have := (tokenize_ok.2 hus).symm.trans ht
        simpa using this
      exact this ▸ h
    · intro h
      exact h.2 ts hcut

end

def canonical : GoIndexProfile := ⟨"linux".toList, "amd64".toList, false, (1, 22)⟩

theorem parenthesis_raises : ¬ ∀ (profile : GoIndexProfile) (s : Str), Evaluates profile s := by
  intro h
  have hcut : Cut ["(".toList, "linux".toList, ")".toList] "(linux)".toList := tokenize_ok.1 (by decide)
  have hident : Ident "linux".toList := ⟨by simp, by simp [isWord]⟩
  have hgen : Generated "(linux)".toList (.atom "linux".toList) :=
    ⟨_, .conj (.unary (.paren (.conj (.unary (.ident hident))))), cut_spelled hcut⟩
  obtain ⟨v, hv, -⟩ := (h canonical "(linux)".toList).1 _ hgen
  have hraise : evaluateBuildExpression canonical "(linux)".toList =
      .error (.attributeError "_parse_expression".toList) := by decide
  rw [hraise] at hv
  cases hv

end Cograph.GoVariants
