import Cograph.Strs

/-!
# JSON texts

A text is cut into tokens and the tokens are read by a machine with a stack.
A string or a number stands for its characters: what is made of them does not
depend on the rest. A text may be laid out in other ways, its tokens kept apart
by other gaps and with a comma before a closing bracket.
-/

namespace JsonText

inductive Token where
  | punct (c : Char)
  | str (raw : Str)
  | word (raw : Str)
  deriving DecidableEq

def isWs (c : Char) : Bool := c = ' ' ∨ c = '\t' ∨ c = '\n' ∨ c = '\r'

def isPunct (c : Char) : Bool := c ∈ ['{', '}', '[', ']', ':', ',']

def isWordChar (c : Char) : Bool := c.isAlphanum ∨ c = '+' ∨ c = '-' ∨ c = '.'

/-! ## Words and strings -/

def isExponent : Str → Bool
  | [] => true
  | c :: s =>
    let digits := if s.head? = some '+' ∨ s.head? = some '-' then s.tail else s
    (c = 'e' ∨ c = 'E') ∧ digits ≠ [] ∧ digits.all Char.isDigit

def isFraction : Str → Bool
  | [] => true
  | c :: s => if c = '.' then s.takeWhile Char.isDigit ≠ [] ∧ isExponent (s.dropWhile Char.isDigit) else isExponent (c :: s)

def isNumber (w : Str) : Bool :=
  let w := if w.head? = some '-' then w.tail else w
  let whole := w.takeWhile Char.isDigit
  whole ≠ [] ∧ (whole.head? = some '0' → whole = ['0']) ∧ isFraction (w.dropWhile Char.isDigit)

def validWord (w : Str) : Bool :=
  w ∈ ["true", "false", "null", "NaN", "Infinity", "-Infinity"].map String.toList ∨ isNumber w

def isHex (c : Char) : Bool := c.isDigit ∨ 'a' ≤ c ∧ c ≤ 'f' ∨ 'A' ≤ c ∧ c ≤ 'F'

def validEscapes : Str → Bool
  | [] => true
  | ['\\'] => false
  | '\\' :: 'u' :: a :: b :: c :: d :: s => isHex a && isHex b && isHex c && isHex d && validEscapes s
  | '\\' :: c :: s => c ∈ ['"', '\\', '/', 'b', 'f', 'n', 'r', 't'] && validEscapes s
  | _ :: s => validEscapes s

/-! ## Tokens -/

/-- Outside a string, with the word begun; in one, with what is read of it, or
after its backslash. -/
inductive Mode where
  | out (word : Str)
  | str (raw : Str)
  | esc (raw : Str)

def lexFrom : Mode → Str → Option (List Token)
  | .out _, [] => some []
  | .out word, c :: s =>
    if isWs c then lexFrom (.out []) s
    else if isPunct c then (lexFrom (.out []) s).map (.punct c :: ·)
    else if c = '"' then lexFrom (.str []) s
    else if ¬isWordChar c then none
    else if s.head?.any isWordChar then lexFrom (.out (c :: word)) s
    else if validWord (c :: word).reverse then (lexFrom (.out []) s).map (.word (c :: word).reverse :: ·)
    else none
  | .str raw, c :: s =>
    if c = '"' then if validEscapes raw.reverse then (lexFrom (.out []) s).map (.str raw.reverse :: ·) else none
    else if c = '\\' then lexFrom (.esc raw) s
    else if c.toNat < 32 then none
    else lexFrom (.str (c :: raw)) s
  | .esc raw, c :: s => if c.toNat < 32 then none else lexFrom (.str (c :: '\\' :: raw)) s
  | .str _, [] | .esc _, [] => none

def lex (s : Str) : Option (List Token) := lexFrom (.out []) s

/-! ## Values -/

inductive Json where
  | word (raw : Str)
  | str (raw : Str)
  | arr (items : List Json)
  | obj (members : List (Str × Json))

/-- A container that is open, with what it holds so far, last first. -/
inductive Frame where
  | arr (items : List Json)
  | obj (members : List (Str × Json)) (key : Str)

/-- What must come next. -/
inductive State where
  | value (stack : List Frame)
  | firstItem (stack : List Frame)
  | firstKey (stack : List Frame)
  | key (members : List (Str × Json)) (stack : List Frame)
  | colon (members : List (Str × Json)) (key : Str) (stack : List Frame)
  | afterItem (items : List Json) (stack : List Frame)
  | afterMember (members : List (Str × Json)) (stack : List Frame)
  | done (value : Json)

/-- A value has been read. -/
def complete (v : Json) : List Frame → State
  | [] => .done v
  | .arr items :: stack => .afterItem (v :: items) stack
  | .obj members key :: stack => .afterMember ((key, v) :: members) stack

def startValue (stack : List Frame) : Token → Option State
  | .word raw => some (complete (.word raw) stack)
  | .str raw => some (complete (.str raw) stack)
  | .punct c => if c = '[' then some (.firstItem stack) else if c = '{' then some (.firstKey stack) else none

def step : State → Token → Option State
  | .value stack, tok => startValue stack tok
  | .firstItem stack, tok => if tok = .punct ']' then some (complete (.arr []) stack) else startValue (.arr [] :: stack) tok
  | .firstKey stack, .punct c => if c = '}' then some (complete (.obj []) stack) else none
  | .firstKey stack, .str raw => some (.colon [] raw stack)
  | .key members stack, .str raw => some (.colon members raw stack)
  | .colon members key stack, .punct c => if c = ':' then some (.value (.obj members key :: stack)) else none
  | .afterItem items stack, .punct c =>
    if c = ',' then some (.value (.arr items :: stack))
    else if c = ']' then some (complete (.arr items.reverse) stack)
    else none
  | .afterMember members stack, .punct c =>
    if c = ',' then some (.key members stack)
    else if c = '}' then some (complete (.obj members.reverse) stack)
    else none
  | _, _ => none

def parse (toks : List Token) : Option Json :=
  match toks.foldlM step (.value []) with
  | some (.done v) => some v
  | _ => none

/-- `json.loads`. -/
def loads (s : Str) : Option Json := (lex s).bind parse

/-! ## Layouts -/

def Token.text : Token → Str
  | .punct c => [c]
  | .str raw => '"' :: (raw ++ ['"'])
  | .word raw => raw

/-- The characters between the quotes of a string. -/
inductive Body : Str → Prop where
  | nil : Body []
  | esc {c : Char} {w : Str} : 32 ≤ c.toNat → Body w → Body ('\\' :: c :: w)
  | plain {c : Char} {w : Str} : c ≠ '"' → c ≠ '\\' → 32 ≤ c.toNat → Body w → Body (c :: w)

def Token.Ok : Token → Prop
  | .punct c => isPunct c
  | .str raw => Body raw ∧ validEscapes raw
  | .word raw => raw ≠ [] ∧ raw.all isWordChar ∧ validWord raw

def Token.Closes (tok : Token) : Prop := tok = .punct ']' ∨ tok = .punct '}'

/-- The tokens of a text with gaps before them and one at the end, and, where
`commas` holds, a comma before some that close. -/
inductive Laid (Gap Last : Str → Prop) (commas : Prop) : List Token → Str → Prop where
  | last {g} : Last g → Laid Gap Last commas [] g
  | token {g tok toks t} : Gap g → tok.Ok → Laid Gap Last commas toks t → Laid Gap Last commas (tok :: toks) (g ++ (tok.text ++ t))
  | comma {g g' tok toks t} : commas → Gap g → Gap g' → tok.Closes → Laid Gap Last commas toks t →
    Laid Gap Last commas (tok :: toks) (g ++ ',' :: (g' ++ (tok.text ++ t)))

def Spaces (g : Str) : Prop := ∀ c ∈ g, isWs c = true

/-- A gap with comments, and the blanks it leaves; a comment that runs to the
end of its line leaves the line feed. -/
inductive Commented : Str → Str → Prop where
  | nil : Commented [] []
  | space {c g w} : isWs c = true → Commented g w → Commented (c :: g) (c :: w)
  | line {x g w} : '\n' ∉ x → Commented g w → Commented ('/' :: '/' :: (x ++ '\n' :: g)) ('\n' :: w)
  | block {x g w} : (∀ u v, x ++ ['*'] ≠ u ++ '*' :: '/' :: v) → Commented g w →
    Commented ('/' :: '*' :: (x ++ '*' :: '/' :: g)) w

/-- At the end of a text a comment may have no line feed. -/
def CommentedEnd (g w : Str) : Prop := Commented g w ∨ ∃ h x, g = h ++ '/' :: '/' :: x ∧ '\n' ∉ x ∧ Commented h w

/-- The tokens with comments between them and commas before what closes. -/
def Decorated (toks : List Token) (t : Str) : Prop := Laid (∃ w, Commented · w) (∃ w, CommentedEnd · w) True toks t

/-! ## The tokens of a text -/

/-- Two tokens that may follow each other in a value: a comma is not followed by
what closes, nor a word by a word. -/
def Joins (a b : Token) : Prop := ¬(a = .punct ',' ∧ b.Closes) ∧ ∀ v w, ¬(a = .word v ∧ b = .word w)

section
variable {c : Char} {g s t w : Str} {tok : Token} {toks : List Token}

theorem wordChar_plain (h : isWordChar c = true) : isWs c = false ∧ isPunct c = false ∧ c ≠ '"' ∧ c ≠ '/' := by
  refine ⟨?_, ?_, ?_, ?_⟩
  · by_contra hw
    simp only [isWs, Bool.not_eq_false, decide_eq_true_eq] at hw
    rcases hw with rfl | rfl | rfl | rfl <;> revert h <;> decide
  · by_contra hp
    simp only [isPunct, Bool.not_eq_false, decide_eq_true_eq, List.mem_cons, List.not_mem_nil, or_false] at hp
    rcases hp with rfl | rfl | rfl | rfl | rfl | rfl <;> revert h <;> decide
  · rintro rfl
    revert h
    decide
  · rintro rfl
    revert h
    decide

theorem punct_plain (h : isPunct c = true) : isWs c = false ∧ isWordChar c = false ∧ c ≠ '"' ∧ c ≠ '/' := by
  simp only [isPunct, decide_eq_true_eq, List.mem_cons, List.not_mem_nil, or_false] at h
  rcases h with rfl | rfl | rfl | rfl | rfl | rfl <;> decide

theorem lex_spaces (hg : Spaces g) (s : Str) : lexFrom (.out []) (g ++ s) = lexFrom (.out []) s := by
  induction g with
  | nil => rfl
  | cons c g ih =>
    rw [List.cons_append, lexFrom, if_pos (hg c List.mem_cons_self)]
    exact ih fun d hd => hg d (List.mem_cons_of_mem c hd)

theorem lex_str (hw : Body w) (raw s : Str) (hesc : validEscapes (raw.reverse ++ w) = true) :
    lexFrom (.str raw) (w ++ '"' :: s) = (lexFrom (.out []) s).map (.str (raw.reverse ++ w) :: ·) := by
  induction hw generalizing raw with
  | nil =>
    rw [List.append_nil] at hesc ⊢
    rw [List.nil_append, lexFrom, if_pos rfl, if_pos hesc]
  | @esc c w hc _ ih =>
    rw [List.cons_append, List.cons_append, lexFrom, if_neg (by decide), if_pos rfl, lexFrom, if_neg (Nat.not_lt.2 hc)]
    have := ih (c :: '\\' :: raw) (by simpa using hesc)
    simpa using this
  | @plain c w hq hb hc _ ih =>
    rw [List.cons_append, lexFrom, if_neg hq, if_neg hb, if_neg (Nat.not_lt.2 hc)]
    have := ih (c :: raw) (by simpa using hesc)
    simpa using this

theorem lex_word (word : Str) (hne : w ≠ []) (hw : ∀ c ∈ w, isWordChar c = true) (hvalid : validWord (word.reverse ++ w) = true)
    (hs : s.head?.any isWordChar = false) :
    lexFrom (.out word) (w ++ s) = (lexFrom (.out []) s).map (.word (word.reverse ++ w) :: ·) := by
  induction w generalizing word with
  | nil => exact absurd rfl hne
  | cons c w ih =>
    have hc := hw c List.mem_cons_self
    obtain ⟨hws, hpunct, hquote, -⟩ := wordChar_plain hc
    rw [List.cons_append, lexFrom]
    simp only [hws, hpunct, hquote, hc, Bool.false_eq_true, if_false, not_true]
    cases w with
    | nil =>
      rw [List.nil_append, hs]
      simp only [Bool.false_eq_true, if_false]
      rw [if_pos (by simpa using hvalid)]
      simp
    | cons d w =>
      have hd : ((d :: w) ++ s).head?.any isWordChar = true := by simpa using hw d (by simp)
      rw [hd, if_pos rfl, ih (c :: word) (by simp) (fun e he => hw e (List.mem_cons_of_mem c he)) (by simpa using hvalid)]
      simp

theorem lex_punct (h : isPunct c = true) (s : Str) :
    lexFrom (.out []) (c :: s) = (lexFrom (.out []) s).map (.punct c :: ·) := by
  rw [lexFrom]
  simp [h, (punct_plain h).1]

/-- A token that a word may not run into. -/
theorem lex_token (hok : tok.Ok) (hs : (∃ w, tok = .word w) → s.head?.any isWordChar = false) :
    lexFrom (.out []) (tok.text ++ s) = (lexFrom (.out []) s).map (tok :: ·) := by
  cases tok with
  | punct c => exact lex_punct hok s
  | str raw =>
    have hopen : lexFrom (.out []) ('"' :: (raw ++ '"' :: s)) = lexFrom (.str []) (raw ++ '"' :: s) := by
      rw [lexFrom, if_neg (by decide), if_neg (by decide), if_pos rfl]
    rw [Token.text, List.cons_append, List.append_assoc, List.singleton_append, hopen, lex_str hok.1 [] s hok.2]
    rfl
  | word raw => exact lex_word [] hok.1 (List.all_eq_true.1 hok.2.1) hok.2.2 (hs ⟨raw, rfl⟩)

theorem spaces_nil : Spaces [] := fun _ h => by cases h

theorem Laid.here (hok : tok.Ok) (h : Laid Spaces Spaces False toks t) :
    Laid Spaces Spaces False (tok :: toks) (tok.text ++ t) :=
  .token (g := []) spaces_nil hok h

theorem Laid.space (hc : isWs c = true) (h : Laid Spaces Spaces False toks s) : Laid Spaces Spaces False toks (c :: s) := by
  have hcons : ∀ {g}, Spaces g → Spaces (c :: g) := by
    intro g hg d hd
    rcases List.mem_cons.1 hd with rfl | hd
    · exact hc
    · exact hg d hd
  cases h with
  | last hg => exact .last (hcons hg)
  | token hg hok h => exact .token (hcons hg) hok h
  | comma hf => exact hf.elim

/-- What is lexed is laid out in the text, from each mode. -/
theorem lexed (s : Str) :
    (∀ toks, lexFrom (.out []) s = some toks → Laid Spaces Spaces False toks s) ∧
    (∀ word toks, lexFrom (.out word) s = some toks → s.head?.any isWordChar = true →
      ∃ w t toks', s = w ++ t ∧ w.all isWordChar ∧ w ≠ [] ∧ validWord (word.reverse ++ w) ∧
        toks = .word (word.reverse ++ w) :: toks' ∧ Laid Spaces Spaces False toks' t) ∧
    (∀ raw toks, lexFrom (.str raw) s = some toks →
      ∃ w t toks', s = w ++ '"' :: t ∧ Body w ∧ validEscapes (raw.reverse ++ w) ∧
        toks = .str (raw.reverse ++ w) :: toks' ∧ Laid Spaces Spaces False toks' t) ∧
    ∀ raw toks, lexFrom (.esc raw) s = some toks →
      ∃ c w t toks', s = c :: (w ++ '"' :: t) ∧ 32 ≤ c.toNat ∧ Body w ∧ validEscapes (raw.reverse ++ '\\' :: c :: w) ∧
        toks = .str (raw.reverse ++ '\\' :: c :: w) :: toks' ∧ Laid Spaces Spaces False toks' t := by
  induction s with
  | nil =>
    refine ⟨fun toks h => ?_, fun word toks _ h => ?_, fun raw toks h => ?_, fun raw toks h => ?_⟩
    · rw [lexFrom] at h
      obtain rfl := Option.some.inj h
      exact .last (by simp [Spaces])
    · cases h
    · cases h
    · cases h
  | cons c s ih =>
    obtain ⟨hout, hword, hstr, hesc⟩ := ih
    have hnext : ∀ word toks, isWordChar c = true → lexFrom (.out word) (c :: s) = some toks →
        ∃ w t toks', c :: s = w ++ t ∧ w.all isWordChar ∧ w ≠ [] ∧ validWord (word.reverse ++ w) ∧
          toks = .word (word.reverse ++ w) :: toks' ∧ Laid Spaces Spaces False toks' t := by
      intro word toks hc h
      obtain ⟨hws, hpunct, hquote, -⟩ := wordChar_plain hc
      rw [lexFrom] at h
      simp only [hws, hpunct, hquote, hc, Bool.false_eq_true, if_false, not_true] at h
      split at h
      · next hmore =>
        obtain ⟨w, t, toks', rfl, hall, hne, hvalid, rfl, hlaid⟩ := hword _ _ h hmore
        refine ⟨c :: w, t, toks', rfl, by simp [hc, hall], by simp, by simpa using hvalid, by simp, hlaid⟩
      · split at h
        · next hvalid =>
          obtain ⟨toks', htoks, rfl⟩ := Option.map_eq_some_iff.1 h
          exact ⟨[c], s, toks', rfl, by simp [hc], by simp, by simpa using hvalid, by simp, hout toks' htoks⟩
        · cases h
    refine ⟨fun toks h => ?_, fun word toks h hhead => hnext word toks (by simpa using hhead) h, fun raw toks h => ?_,
      fun raw toks h => ?_⟩
    · by_cases hc : isWordChar c = true
      · obtain ⟨w, t, toks', hs, hall, hne, hvalid, rfl, hlaid⟩ := hnext [] toks hc h
        rw [hs]
        exact .here ⟨hne, hall, hvalid⟩ hlaid
      · rw [lexFrom] at h
        split at h
        · next hws => exact (hout toks h).space hws
        · split at h
          · next hpunct =>
            obtain ⟨toks', htoks, rfl⟩ := Option.map_eq_some_iff.1 h
            exact .here hpunct (hout toks' htoks)
          · split at h
            · next hquote =>
              obtain ⟨w, t, toks', rfl, hbody, hvalid, rfl, hlaid⟩ := hstr [] toks h
              subst hquote
              have := Laid.here (show (Token.str w).Ok from ⟨hbody, hvalid⟩) hlaid
              simpa [Token.text] using this
            · simp at h
    · rw [lexFrom] at h
      split at h
      · next hquote =>
        split at h
        · next hvalid =>
          obtain ⟨toks', htoks, rfl⟩ := Option.map_eq_some_iff.1 h
          exact ⟨[], s, toks', by simp [hquote], .nil, by simpa using hvalid, by simp, hout toks' htoks⟩
        · cases h
      · next hquote =>
        split at h
        · next hback =>
          obtain ⟨d, w, t, toks', rfl, hd, hbody, hvalid, rfl, hlaid⟩ := hesc raw toks h
          exact ⟨'\\' :: d :: w, t, toks', by simp [hback], .esc hd hbody, hvalid, rfl, hlaid⟩
        · next hback =>
          split at h
          · cases h
          · next hctl =>
            obtain ⟨w, t, toks', rfl, hbody, hvalid, rfl, hlaid⟩ := hstr (c :: raw) toks h
            exact ⟨c :: w, t, toks', rfl, .plain hquote hback (Nat.not_lt.1 hctl) hbody, by simpa using hvalid,
              by simp, hlaid⟩
    · rw [lexFrom] at h
      split at h
      · cases h
      · next hctl =>
        obtain ⟨w, t, toks', rfl, hbody, hvalid, rfl, hlaid⟩ := hstr (c :: '\\' :: raw) toks h
        exact ⟨c, w, t, toks', rfl, Nat.not_lt.1 hctl, hbody, by simpa using hvalid, by simp, hlaid⟩

theorem lex_laid (h : lex s = some toks) : Laid Spaces Spaces False toks s := (lexed s).1 toks h

theorem commented_self (hg : Spaces g) : Commented g g := by
  induction g with
  | nil => exact .nil
  | cons c g ih => exact .space (hg c List.mem_cons_self) (ih fun d hd => hg d (List.mem_cons_of_mem c hd))

theorem Laid.decorated (h : Laid Spaces Spaces False toks s) : Decorated toks s := by
  induction h with
  | last hg => exact .last ⟨_, .inl (commented_self hg)⟩
  | token hg hok _ ih => exact .token ⟨_, commented_self hg⟩ hok ih
  | comma hf => exact hf.elim

/-- A text itself has its tokens, without comments and commas. -/
theorem decorated_self (h : lex s = some toks) : Decorated toks s := (lex_laid h).decorated

/-- The first character of a text that goes on with a token. -/
theorem text_head (hok : tok.Ok) (s : Str) : ∃ c, (tok.text ++ s).head? = some c ∧ isWs c = false ∧
    (isWordChar c = true → ∃ w, tok = .word w) := by
  cases tok with
  | punct c => exact ⟨c, rfl, (punct_plain hok).1, fun h => by simp [(punct_plain hok).2.1] at h⟩
  | str raw => exact ⟨'"', rfl, by decide, fun h => absurd h (by decide)⟩
  | word raw =>
    obtain ⟨c, w, rfl⟩ := List.exists_cons_of_ne_nil hok.1
    exact ⟨c, rfl, (wordChar_plain (List.all_eq_true.1 hok.2.1 c (by simp))).1, fun _ => ⟨_, rfl⟩⟩

theorem lex_of_laid (h : Laid Spaces Spaces False toks t) (hjoin : toks.IsChain Joins) : lex t = some toks := by
  unfold lex
  induction h with
  | last hg =>
    have := lex_spaces hg []
    rw [List.append_nil] at this
    rw [this]
    rfl
  | comma hf => exact hf.elim
  | @token g tok toks t hg hok hlaid ih =>
    rw [lex_spaces hg, lex_token hok ?_, ih hjoin.tail]
    · rfl
    · intro hword
      obtain ⟨v, rfl⟩ := hword
      by_contra hmore
      rw [Bool.not_eq_false] at hmore
      cases hlaid with
      | last hg' =>
        cases hcase : t with
        | nil => simp [hcase] at hmore
        | cons c g' =>
          rw [hcase] at hmore hg'
          have hws := hg' c List.mem_cons_self
          rw [(wordChar_plain (by simpa using hmore)).1] at hws
          cases hws
      | comma hf => exact hf.elim
      | @token g' tok' toks' t' hg' hok' _ =>
        cases g' with
        | nil =>
          obtain ⟨c, hc, -, hw⟩ := text_head hok' t'
          rw [List.nil_append, hc] at hmore
          obtain ⟨w, rfl⟩ := hw hmore
          exact ((List.isChain_cons_cons.1 hjoin).1.2 v w) ⟨rfl, rfl⟩
        | cons c g' =>
          have hws := hg' c List.mem_cons_self
          rw [(wordChar_plain (by simpa using hmore)).1] at hws
          cases hws

/-! ## The tokens of a value -/

theorem step_comma {σ σ' : State} (h : step σ (.punct ',') = some σ') :
    (∃ stack, σ' = .value stack) ∨ ∃ members stack, σ' = .key members stack := by
  cases σ <;> simp [step, startValue] at h
  · exact .inl ⟨_, h.symm⟩
  · exact .inr ⟨_, _, h.symm⟩

theorem complete_cases (v : Json) (stack : List Frame) : complete v stack = .done v ∨
    (∃ items stack', complete v stack = .afterItem items stack') ∨
    ∃ members stack', complete v stack = .afterMember members stack' := by
  cases stack with
  | nil => exact .inl rfl
  | cons f stack =>
    cases f with
    | arr items => exact .inr (.inl ⟨_, _, rfl⟩)
    | obj members key => exact .inr (.inr ⟨_, _, rfl⟩)

theorem step_word {σ σ' : State} {w : Str} (h : step σ (.word w) = some σ') : ∃ v stack, σ' = complete v stack := by
  cases σ <;> simp [step, startValue] at h
  · exact ⟨_, _, h.symm⟩
  · exact ⟨_, _, h.symm⟩

theorem step_joins {σ σ₁ σ₂ : State} {a b : Token} (ha : step σ a = some σ₁) (hb : step σ₁ b = some σ₂) : Joins a b := by
  constructor
  · rintro ⟨rfl, hclose⟩
    rcases step_comma ha with ⟨stack, rfl⟩ | ⟨members, stack, rfl⟩
    · rcases hclose with rfl | rfl <;> simp [step, startValue] at hb
    · rcases hclose with rfl | rfl <;> simp [step] at hb
  · rintro v w ⟨rfl, rfl⟩
    obtain ⟨u, stack, rfl⟩ := step_word ha
    rcases complete_cases u stack with h | ⟨_, _, h⟩ | ⟨_, _, h⟩ <;> simp [h, step] at hb

theorem parse_joins {v : Json} (h : parse toks = some v) : toks.IsChain Joins := by
  have hrun : ∀ {σ τ : State} {toks : List Token}, toks.foldlM step σ = some τ → toks.IsChain Joins := by
    intro σ τ toks hτ
    induction toks generalizing σ with
    | nil => exact .nil
    | cons a toks ih =>
      rw [List.foldlM_cons] at hτ
      obtain ⟨σ₁, ha, hτ⟩ := Option.bind_eq_some_iff.1 hτ
      cases toks with
      | nil => exact .singleton a
      | cons b toks =>
        have hτ' := hτ
        rw [List.foldlM_cons] at hτ'
        obtain ⟨σ₂, hb, -⟩ := Option.bind_eq_some_iff.1 hτ'
        exact List.isChain_cons_cons.2 ⟨step_joins ha hb, ih hτ⟩
  unfold parse at h
  split at h
  · next hrunv => exact hrun hrunv
  · cases h

end

end JsonText
