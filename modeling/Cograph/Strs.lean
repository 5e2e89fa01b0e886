import Mathlib

/-!
# Strings as Python has them

A text is its list of code points, with the `str` methods the models read it
by.
-/

abbrev Str := List Char

instance instLawfulBEqStr : LawfulBEq Str := inferInstance

namespace Str

/-- `str.isspace` of one character, the `\s` of a pattern. -/
def isSpace (c : Char) : Bool :=
  (9 ≤ c.toNat ∧ c.toNat ≤ 13) ∨ (28 ≤ c.toNat ∧ c.toNat ≤ 32) ∨ c.toNat = 0x85 ∨ c.toNat = 0xa0 ∨
    c.toNat = 0x1680 ∨ (0x2000 ≤ c.toNat ∧ c.toNat ≤ 0x200a) ∨ c.toNat = 0x2028 ∨ c.toNat = 0x2029 ∨
    c.toNat = 0x202f ∨ c.toNat = 0x205f ∨ c.toNat = 0x3000

def lstrip (s : Str) : Str := s.dropWhile isSpace

def rstrip (s : Str) : Str := (s.reverse.dropWhile isSpace).reverse

def strip (s : Str) : Str := rstrip (lstrip s)

/-- `s.lstrip("./")`. -/
def lstripDotSlash (s : Str) : Str := s.dropWhile fun c => c = '.' ∨ c = '/'

/-- `str.lower`, on the characters whose lower case has an ASCII letter. The
others become no such letter. -/
def lower (s : Str) : Str :=
  s.flatMap fun c => if c = '\u0130' then ['i', '\u0307'] else if c = '\u212a' then ['k'] else [c.toLower]

/-- What a letter of a pattern under `IGNORECASE` compares with: dotted and
dotless i, long s and the kelvin sign fold to letters of ASCII, other
characters outside it do not. -/
def fold (c : Char) : Char :=
  if c = '\u0130' ∨ c = '\u0131' then 'i' else if c = '\u017f' then 's' else if c = '\u212a' then 'k' else c.toLower

/-- `needle in s`. -/
def contains (s needle : Str) : Bool := s.tails.any (needle.isPrefixOf ·)

/-- `s.find("\n", i)`, the length of the text where there is none. -/
def lineEnd (s : Str) (i : Nat) : Nat := i + ((s.drop i).takeWhile (· ≠ '\n')).length

/-- The characters that end a line for `str.splitlines`. -/
def isLineBreak (c : Char) : Bool :=
  (10 ≤ c.toNat ∧ c.toNat ≤ 13) ∨ (28 ≤ c.toNat ∧ c.toNat ≤ 30) ∨ c.toNat = 0x85 ∨ c.toNat = 0x2028 ∨ c.toNat = 0x2029

/-- `str.splitlines`. A carriage return with a line feed is one break. -/
def splitlines : Str → List Str
  | [] => []
  | '\r' :: '\n' :: s => [] :: splitlines s
  | c :: s =>
    if isLineBreak c then [] :: splitlines s
    else
      match splitlines s with
      | [] => [[c]]
      | line :: lines => (c :: line) :: lines

/-! ## Stripping -/

theorem lstrip_of_head {s : Str} (h : ∀ c, s.head? = some c → isSpace c = false) : lstrip s = s := by
  cases s with
  | nil => rfl
  | cons c s => simp [lstrip, h c rfl]

theorem lstrip_head (s : Str) {c : Char} (h : (lstrip s).head? = some c) : isSpace c = false := by
  have := List.head?_dropWhile_not isSpace s
  unfold lstrip at h
  rw [h] at this
  simpa using this

theorem rstrip_head {s : Str} {c : Char} (h : (rstrip s).head? = some c) : s.head? = some c := by
  have hp : rstrip s <+: s := by
    rw [← List.reverse_suffix, rstrip, List.reverse_reverse]
    exact List.dropWhile_suffix _
  obtain ⟨t, ht⟩ := hp
  cases hr : rstrip s with
  | nil => simp [hr] at h
  | cons d w =>
    rw [hr] at h ht
    rw [← ht]
    exact h

theorem rstrip_rstrip (s : Str) : rstrip (rstrip s) = rstrip s := by
  simp only [rstrip, List.reverse_reverse]
  rw [List.dropWhile_idempotent]

theorem rstrip_append (s : Str) : ∃ w, s = rstrip s ++ w ∧ ∀ c ∈ w, isSpace c = true := by
  refine ⟨(s.reverse.takeWhile isSpace).reverse, ?_, ?_⟩
  · rw [rstrip, ← List.reverse_append, List.takeWhile_append_dropWhile, List.reverse_reverse]
  · intro c hc
    exact List.all_eq_true.1 List.all_takeWhile c (List.mem_reverse.1 hc)

theorem rstrip_of_spaces {w : Str} (hw : ∀ c ∈ w, isSpace c = true) (s : Str) : rstrip (s ++ w) = rstrip s := by
  rw [rstrip, List.reverse_append, List.dropWhile_append_of_pos (by simpa using hw)]
  rfl

theorem rstrip_over {y : Str} (h : rstrip y ≠ []) (x : Str) : rstrip (x ++ y) = x ++ rstrip y := by
  rw [rstrip, List.reverse_append, List.dropWhile_append, if_neg]
  · simp [rstrip]
  · intro he
    exact h (by simpa [rstrip] using he)

theorem rstrip_graphic {c : Char} (h : isSpace c = false) (s : Str) : rstrip (c :: s) = c :: rstrip s := by
  by_cases hs : rstrip s = []
  · obtain ⟨w, he, hw⟩ := rstrip_append s
    rw [hs, List.nil_append] at he
    rw [he, ← List.singleton_append, rstrip_of_spaces hw, ← List.nil_append w, rstrip_of_spaces hw]
    simp [rstrip, h]
  · exact rstrip_over hs [c]

theorem rstrip_last {c : Char} {s : Str} (h : (rstrip s).getLast? = some c) : isSpace c = false := by
  rw [rstrip, List.getLast?_reverse] at h
  have := List.head?_dropWhile_not isSpace s.reverse
  rw [h] at this
  simpa using this

/-- White space at the end does not matter between the ends. -/
theorem strip_rstrip (s : Str) : strip (rstrip s) = strip s := by
  obtain ⟨w, hs, hw⟩ := rstrip_append s
  unfold strip lstrip
  conv_rhs => rw [hs, List.dropWhile_append]
  split
  · next hnil =>
    rw [List.isEmpty_iff.1 hnil, List.dropWhile_eq_nil_iff.2 hw]
  · rw [rstrip_of_spaces hw]

@[simp] theorem strip_strip (s : Str) : strip (strip s) = strip s := by
  unfold strip
  rw [lstrip_of_head, rstrip_rstrip]
  intro c hc
  exact lstrip_head s (rstrip_head hc)

end Str
