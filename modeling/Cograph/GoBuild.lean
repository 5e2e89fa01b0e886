import Cograph.Kleene
import Cograph.Regex
import Cograph.Strs

/-!
# Go build constraints

`graph/go_variants.py`: the evaluation of the expression of a `//go:build`
line under the index profile. An expression is cut into tokens by a pattern
and read by a recursive-descent parser that computes its truth value as it
goes. The value is true, false, or unknown for a selector that the profile
does not model.

Integers are unbounded and the call stack has no limit.
-/

namespace Cograph.GoVariants

open Regex

/-- `_TruthValue`. -/
inductive TruthValue where
  | true
  | false
  | unknown
  deriving DecidableEq

/-- The exceptions an evaluation ends in: `GoBuildConstraintUnsupportedError`
with its message, and the `AttributeError` for a method that is not there. -/
inductive Raised where
  | unsupported (message : Str)
  | attributeError (name : Str)
  deriving DecidableEq

/-- What the evaluation reads of `GoIndexProfile`. -/
structure GoIndexProfile where
  effectiveGoos : Str
  effectiveGoarch : Str
  effectiveCgo : Bool
  versionKey : Nat × Nat

def supportedGoos : List Str := ["linux", "darwin", "windows"].map String.toList

def supportedGoarch : List Str := ["amd64", "arm64"].map String.toList

def knownGoos : List Str :=
  ["aix", "android", "darwin", "dragonfly", "freebsd", "illumos", "ios", "js", "linux", "netbsd", "openbsd", "plan9",
    "solaris", "wasip1", "windows"].map String.toList

def knownGoarch : List Str :=
  ["386", "amd64", "arm", "arm64", "loong64", "mips", "mips64", "mips64le", "mipsle", "ppc64", "ppc64le", "riscv64",
    "s390x", "wasm"].map String.toList

/-! ## Truth values -/

/-- `_truth`. -/
def truth (p : Prop) [Decidable p] : TruthValue := if p then .true else .false

def triNot : TruthValue → TruthValue
  | .true => .false
  | .false => .true
  | .unknown => .unknown

def triAnd (left right : TruthValue) : TruthValue :=
  if left = .false ∨ right = .false then .false
  else if left = .true ∧ right = .true then .true
  else .unknown

def triOr (left right : TruthValue) : TruthValue :=
  if left = .true ∨ right = .true then .true
  else if left = .false ∧ right = .false then .false
  else .unknown

/-! ## Identifiers -/

def isDigit (c : Char) : Bool := '0' ≤ c ∧ c ≤ '9'

/-- `_VERSION_PATTERN`, on the one line of ASCII an identifier is. -/
def versionPattern : Regex :=
  .seq .lineStart <| .seq (.opt (.lit "go".toList)) <| .seq (.group 1 (.plus (.sat isDigit))) <|
    .seq (.chr '.') <| .seq (.group 2 (.plus (.sat isDigit))) <|
      .seq (.opt (.seq (.chr '.') (.plus (.sat isDigit)))) .lineEnd

/-- `int` of a text of digits. -/
def int (s : Str) : Nat := s.foldl (fun n c => 10 * n + (c.toNat - '0'.toNat)) 0

def parseVersionKey (value : Str) : Nat × Nat :=
  match matchAt versionPattern [] value with
  | none => (1, 22)
  | some m => (int (m.group 1), int (m.group 2))

/-- The order of tuples. -/
def atMost (a b : Nat × Nat) : Prop := a.1 < b.1 ∨ a.1 = b.1 ∧ a.2 ≤ b.2

instance (a b : Nat × Nat) : Decidable (atMost a b) := inferInstanceAs (Decidable (_ ∨ _))

def isKnownUnsupportedBuildIdentifier (identifier : Str) : Bool :=
  identifier ∈ knownGoos ∨ identifier ∈ knownGoarch ∨ identifier ∈ ["unix", "gc", "gccgo"].map String.toList ∨
    identifier.takeWhile (· ≠ '.') ∈ knownGoarch

def evaluateIdentifier (profile : GoIndexProfile) (identifier : Str) : TruthValue :=
  if identifier ∈ supportedGoos then truth (identifier = profile.effectiveGoos)
  else if identifier ∈ supportedGoarch then truth (identifier = profile.effectiveGoarch)
  else if identifier = "cgo".toList then truth (profile.effectiveCgo = Bool.true)
  else if identifier = "nocgo".toList then truth (profile.effectiveCgo = Bool.false)
  else if "go1.".toList.isPrefixOf identifier then truth (atMost (parseVersionKey identifier) profile.versionKey)
  else if isKnownUnsupportedBuildIdentifier identifier then .unknown
  else .false

/-! ## Tokens -/

def isWord (c : Char) : Bool := c.isAlphanum ∨ c = '_' ∨ c = '.'

def punctuation : List Str := ["&&", "||", "!", "(", ")"].map String.toList

/-- `_TOKEN_PATTERN`. -/
def tokenPattern : Regex :=
  .seq (.star (.sat Str.isSpace)) <| .group 1 <|
    .alt (.lit "&&".toList) <| .alt (.lit "||".toList) <| .alt (.lit "!".toList) <| .alt (.lit "(".toList) <|
      .alt (.lit ")".toList) (.plus (.sat isWord))

/-- The loop of `_tokenize` at a position: the text before it, last character
first, and the text after, whose first characters belong to a match. -/
def tokenizeAt : Nat → Str → Str → Except Raised (List Str)
  | _, _, [] => .ok []
  | n + 1, before, c :: s => tokenizeAt n (c :: before) s
  | 0, before, c :: s =>
    match matchAt tokenPattern before (c :: s) with
    | none => .error (.unsupported ("Unsupported Go build expression token near: ".toList ++ c :: s))
    | some m => do
      let tokens ← tokenizeAt (m.text.length - 1) (c :: before) s
      return m.group 1 :: tokens

def tokenize (expression : Str) : Except Raised (List Str) := tokenizeAt 0 [] expression

/-! ## The parser

`_TokenParser` with the tokens from its position on. -/

/-- A method of the parser: a value and the tokens left, fewer than before. -/
structure Method where
  run : List Str → Except Raised (TruthValue × List Str)
  shorter : ∀ ts v us, run ts = .ok (v, us) → us.length < ts.length

def parsePrimary (profile : GoIndexProfile) : List Str → Except Raised (TruthValue × List Str)
  | [] => .error (.unsupported "Unexpected end of //go:build expression".toList)
  | t :: ts =>
    -- the class has no `_parse_expression`
    if t = "(".toList then .error (.attributeError "_parse_expression".toList)
    else .ok (evaluateIdentifier profile t, ts)

def parseUnaryRun (profile : GoIndexProfile) : List Str → Except Raised (TruthValue × List Str)
  | [] => parsePrimary profile []
  | t :: ts =>
    if t = "!".toList then do
      let (v, us) ← parseUnaryRun profile ts
      return (triNot v, us)
    else parsePrimary profile (t :: ts)

theorem parsePrimary_shorter (profile : GoIndexProfile) (ts : List Str) (v : TruthValue) (us : List Str)
    (h : parsePrimary profile ts = .ok (v, us)) : us.length < ts.length := by
  cases ts with
  | nil => cases h
  | cons t ts =>
    rw [parsePrimary] at h
    by_cases ht : t = "(".toList
    · simp [ht] at h
    · simp only [ht, if_false, Except.ok.injEq, Prod.mk.injEq] at h
      simp [h.2]

theorem parseUnaryRun_shorter (profile : GoIndexProfile) : ∀ ts v us,
    parseUnaryRun profile ts = .ok (v, us) → us.length < ts.length := by
  intro ts
  induction ts with
  | nil =>
    intro v us h
    cases h
  | cons t ts ih =>
    intro v us h
    rw [parseUnaryRun] at h
    split at h
    · cases hr : parseUnaryRun profile ts with
      | error e =>
        rw [hr] at h
        cases h
      | ok r =>
        rw [hr] at h
        obtain ⟨-, rfl⟩ := Prod.mk.inj (Except.ok.inj h)
        have := ih r.1 r.2 hr
        simp
        omega
    · exact parsePrimary_shorter profile (t :: ts) v us h

def parseUnary (profile : GoIndexProfile) : Method := ⟨parseUnaryRun profile, parseUnaryRun_shorter profile⟩

/-- `while self._peek() == op`: the rest of a chain of operands. -/
def loop (sub : Method) (op : Str) (combine : TruthValue → TruthValue → TruthValue) (value : TruthValue) :
    List Str → Except Raised (TruthValue × List Str)
  | [] => .ok (value, [])
  | t :: ts =>
    if t = op then
      match _h : sub.run ts with
      | .error e => .error e
      | .ok (v, us) => loop sub op combine (combine value v) us
    else .ok (value, t :: ts)
  termination_by ts => ts.length
  decreasing_by
    have := sub.shorter ts v us _h
    simp
    omega

theorem loop_le (sub : Method) (op : Str) (combine : TruthValue → TruthValue → TruthValue) (value : TruthValue)
    (ts : List Str) : ∀ v us, loop sub op combine value ts = .ok (v, us) → us.length ≤ ts.length := by
  fun_induction loop sub op combine value ts with
  | case1 value =>
    intro v us h
    cases h
    simp
  | case2 value ts e hr =>
    intro v us h
    cases h
  | case3 value ts w vs hr ih =>
    intro v us h
    have hrun := sub.shorter ts w vs hr
    have hrest := ih v us h
    simp
    omega
  | case4 value t ts hne =>
    intro v us h
    cases h
    simp

/-- An operand and the rest of its chain. -/
def chainRun (sub : Method) (op : Str) (combine : TruthValue → TruthValue → TruthValue) (ts : List Str) :
    Except Raised (TruthValue × List Str) := do
  let (v, us) ← sub.run ts
  loop sub op combine v us

theorem chainRun_shorter (sub : Method) (op : Str) (combine : TruthValue → TruthValue → TruthValue) : ∀ ts v us,
    chainRun sub op combine ts = .ok (v, us) → us.length < ts.length := by
  intro ts v us h
  unfold chainRun at h
  cases hr : sub.run ts with
  | error e =>
    rw [hr] at h
    cases h
  | ok r =>
    rw [hr] at h
    obtain ⟨w, vs⟩ := r
    have hfirst := sub.shorter ts w vs hr
    have hrest := loop_le sub op combine w vs v us h
    omega

def chain (sub : Method) (op : Str) (combine : TruthValue → TruthValue → TruthValue) : Method :=
  ⟨chainRun sub op combine, chainRun_shorter sub op combine⟩

def parseAnd (profile : GoIndexProfile) : Method := chain (parseUnary profile) "&&".toList triAnd

def parseOr (profile : GoIndexProfile) : Method := chain (parseAnd profile) "||".toList triOr

/-- `parse_expression`. -/
def parseExpression (profile : GoIndexProfile) : Method := parseOr profile

/-- `" ".join`. -/
def joined (tokens : List Str) : Str := [' '].intercalate tokens

def evaluateBuildExpression (profile : GoIndexProfile) (expression : Str) : Except Raised TruthValue := do
  let tokens ← tokenize expression
  if tokens = [] then .error (.unsupported "Empty //go:build expression".toList)
  else
    let (value, rest) ← (parseExpression profile).run tokens
    if rest ≠ [] then .error (.unsupported ("Unsupported Go build expression tail: ".toList ++ joined rest))
    else return value

end Cograph.GoVariants
