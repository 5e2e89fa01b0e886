import Mathlib

/-!
# Texts in JSON

How `json.dumps` writes texts, lists and objects with its default arguments:
every character outside printable ASCII is escaped, the ones beyond the basic
plane as two surrogates. A written text is read back in one way only, whatever
follows it.
-/

namespace JsonDump

/-! ## Writing -/

def hexDigit (n : Nat) : Char := Char.ofNat (if n < 10 then 48 + n else 87 + n)

def hex4 (n : Nat) : List Char :=
  [hexDigit (n / 4096 % 16), hexDigit (n / 256 % 16), hexDigit (n / 16 % 16), hexDigit (n % 16)]

def unicodeEscape (n : Nat) : List Char := '\\' :: 'u' :: hex4 n

def escapeChar (c : Char) : List Char :=
  if c = '"' then ['\\', '"']
  else if c = '\\' then ['\\', '\\']
  else if c = '\n' then ['\\', 'n']
  else if c = '\r' then ['\\', 'r']
  else if c = '\t' then ['\\', 't']
  else if c = '\x0c' then ['\\', 'f']
  else if c = '\x08' then ['\\', 'b']
  else if 32 ≤ c.toNat ∧ c.toNat ≤ 126 then [c]
  else if c.toNat < 0x10000 then unicodeEscape c.toNat
  else
    unicodeEscape (0xd800 + (c.toNat - 0x10000) / 0x400) ++ unicodeEscape (0xdc00 + (c.toNat - 0x10000) % 0x400)

def escape (s : List Char) : List Char := s.flatMap escapeChar

def str (s : List Char) : List Char := '"' :: (escape s ++ ['"'])

def array (items : List (List Char)) : List Char := '[' :: (", ".toList.intercalate items ++ [']'])

/-- An object with its values as they are written. -/
def object (items : List (List Char × List Char)) : List Char :=
  '{' :: (", ".toList.intercalate (items.map fun item => str item.1 ++ ": ".toList ++ item.2) ++ ['}'])

def nat (n : Nat) : List Char := Nat.toDigits 10 n

/-! ## Reading -/

def hexVal (c : Char) : Nat := if c.toNat < 58 then c.toNat - 48 else c.toNat - 87

def hexVal4 (a b c d : Char) : Nat := hexVal a * 4096 + hexVal b * 256 + hexVal c * 16 + hexVal d

def unescape (c : Char) : Char :=
  if c = 'n' then '\n' else if c = 'r' then '\r' else if c = 't' then '\t' else if c = 'f' then '\x0c'
  else if c = 'b' then '\x08' else c

/-- The code unit that stands at the start, escaped or not. -/
def readUnit : List Char → Option (Nat × List Char)
  | '\\' :: 'u' :: a :: b :: c :: d :: s => some (hexVal4 a b c d, s)
  | '\\' :: c :: s => some ((unescape c).toNat, s)
  | c :: s => some (c.toNat, s)
  | [] => none

/-- The character that stands at the start, and what follows. -/
def readChar (s : List Char) : Option (Char × List Char) :=
  (readUnit s).bind fun unit =>
    if 0xd800 ≤ unit.1 ∧ unit.1 < 0xdc00 then
      (readUnit unit.2).map fun low => (Char.ofNat (0x10000 + (unit.1 - 0xd800) * 0x400 + (low.1 - 0xdc00)), low.2)
    else some (Char.ofNat unit.1, unit.2)

theorem hexVal_hexDigit {n : Nat} (hn : n < 16) : hexVal (hexDigit n) = n := by
  have hall : ∀ k : Fin 16, hexVal (hexDigit k) = k := by decide
  exact hall ⟨n, hn⟩

/-- Four digits hold any number of the basic plane. -/
theorem hexVal4_hex4 {n : Nat} (hn : n < 0x10000) :
    hexVal4 (hexDigit (n / 4096 % 16)) (hexDigit (n / 256 % 16)) (hexDigit (n / 16 % 16)) (hexDigit (n % 16)) = n := by
  unfold hexVal4
  rw [hexVal_hexDigit (Nat.mod_lt _ (by decide)), hexVal_hexDigit (Nat.mod_lt _ (by decide)),
    hexVal_hexDigit (Nat.mod_lt _ (by decide)), hexVal_hexDigit (Nat.mod_lt _ (by decide))]
  omega

theorem toNat_valid (c : Char) : c.toNat < 0xd800 ∨ 0xdfff < c.toNat ∧ c.toNat < 0x110000 := by
  have := c.valid
  simpa [UInt32.isValidChar, Nat.isValidChar] using this

theorem readUnit_unicode {n : Nat} (hn : n < 0x10000) (s : List Char) :
    readUnit (unicodeEscape n ++ s) = some (n, s) := by
  show some (hexVal4 _ _ _ _, s) = _
  rw [hexVal4_hex4 hn]

theorem readChar_unicode {n : Nat} (hn : n < 0x10000) (hplain : ¬(0xd800 ≤ n ∧ n < 0xdc00)) (s : List Char) :
    readChar (unicodeEscape n ++ s) = some (Char.ofNat n, s) := by
  rw [readChar, readUnit_unicode hn, Option.bind_some, if_neg hplain]

theorem readChar_pair {n m : Nat} (hn : n < 0x400) (hm : m < 0x400) (s : List Char) :
    readChar (unicodeEscape (0xd800 + n) ++ (unicodeEscape (0xdc00 + m) ++ s)) =
      some (Char.ofNat (0x10000 + n * 0x400 + m), s) := by
  have hhigh : 0xd800 ≤ 0xd800 + n ∧ 0xd800 + n < 0xdc00 := by omega
  rw [readChar, readUnit_unicode (by omega), Option.bind_some, if_pos hhigh, readUnit_unicode (by omega),
    Option.map_some]
  simp only [Nat.add_sub_cancel_left]

theorem readChar_plain {c : Char} (hslash : c ≠ '\\') (hlow : c.toNat < 0xd800) (s : List Char) :
    readChar (c :: s) = some (c, s) := by
  have hunit : readUnit (c :: s) = some (c.toNat, s) := by
    unfold readUnit
    split
    · next he => exact absurd (List.cons.inj he).1 hslash
    · next he => exact absurd (List.cons.inj he).1 hslash
    · next he =>
      obtain ⟨rfl, rfl⟩ := List.cons.inj he
      rfl
    · next he => cases he
  have hplain : ¬(0xd800 ≤ c.toNat ∧ c.toNat < 0xdc00) := by omega
  rw [readChar, hunit, Option.bind_some, if_neg hplain, Char.ofNat_toNat]

/-- A character is read back, whatever follows it. -/
theorem readChar_escapeChar (c : Char) (s : List Char) : readChar (escapeChar c ++ s) = some (c, s) := by
  unfold escapeChar
  split
  · next h => rw [h]; rfl
  split
  · next h => rw [h]; rfl
  split
  · next h => rw [h]; rfl
  split
  · next h => rw [h]; rfl
  split
  · next h => rw [h]; rfl
  split
  · next h => rw [h]; rfl
  split
  · next h => rw [h]; rfl
  have hvalid := toNat_valid c
  split
  · next hslash _ _ _ _ _ hprint => exact readChar_plain hslash (by omega) s
  split
  · next hbmp => rw [readChar_unicode hbmp (by omega), Char.ofNat_toNat]
  · next hbeyond =>
    rw [List.append_assoc, readChar_pair (by omega) (Nat.mod_lt _ (by decide))]
    have hback : 0x10000 + (c.toNat - 0x10000) / 0x400 * 0x400 + (c.toNat - 0x10000) % 0x400 = c.toNat := by omega
    rw [hback, Char.ofNat_toNat]

theorem escapeChar_inj {c d : Char} {s t : List Char} (h : escapeChar c ++ s = escapeChar d ++ t) : c = d ∧ s = t := by
  have hread := congrArg readChar h
  rw [readChar_escapeChar, readChar_escapeChar] at hread
  exact Prod.mk.inj (Option.some.inj hread)

/-! ## What a written text is -/

theorem escapeChar_head (c : Char) (s : List Char) : ∃ x r, escapeChar c ++ s = x :: r ∧ x ≠ '"' := by
  unfold escapeChar
  split
  · exact ⟨_, _, rfl, by decide⟩
  · next hquote =>
    repeat' split
    all_goals first | exact ⟨_, _, rfl, by decide⟩ | exact ⟨_, _, rfl, hquote⟩

theorem length_escapeChar (c : Char) : 1 ≤ (escapeChar c).length := by
  obtain ⟨x, r, h, -⟩ := escapeChar_head c []
  rw [List.append_nil] at h
  rw [h]
  exact Nat.succ_pos _

theorem length_escape (s : List Char) : s.length ≤ (escape s).length := by
  induction s with
  | nil => exact Nat.le_refl 0
  | cons c s ih =>
    have := length_escapeChar c
    rw [escape, List.flatMap_cons, List.length_append, List.length_cons]
    have ih : s.length ≤ (s.flatMap escapeChar).length := ih
    omega

theorem escape_quote_inj {s t u v : List Char} (h : escape s ++ '"' :: u = escape t ++ '"' :: v) : s = t ∧ u = v := by
  induction s generalizing t with
  | nil =>
    cases t with
    | nil => exact ⟨rfl, (List.cons.inj h).2⟩
    | cons d t =>
      obtain ⟨x, r, hx, hne⟩ := escapeChar_head d (escape t ++ '"' :: v)
      have hd : escape (d :: t) ++ '"' :: v = escapeChar d ++ (escape t ++ '"' :: v) := List.append_assoc _ _ _
      rw [hd, hx] at h
      exact absurd (List.cons.inj h).1.symm hne
  | cons c s ih =>
    have hc : escape (c :: s) ++ '"' :: u = escapeChar c ++ (escape s ++ '"' :: u) := List.append_assoc _ _ _
    cases t with
    | nil =>
      obtain ⟨x, r, hx, hne⟩ := escapeChar_head c (escape s ++ '"' :: u)
      rw [hc, hx] at h
      exact absurd (List.cons.inj h).1 hne
    | cons d t =>
      have hd : escape (d :: t) ++ '"' :: v = escapeChar d ++ (escape t ++ '"' :: v) := List.append_assoc _ _ _
      rw [hc, hd] at h
      obtain ⟨rfl, hrest⟩ := escapeChar_inj h
      obtain ⟨rfl, hend⟩ := ih hrest
      exact ⟨rfl, hend⟩

/-- A written text ends at its closing quote, and is written for one text
only. -/
theorem str_inj {s t u v : List Char} (h : str s ++ u = str t ++ v) : s = t ∧ u = v := by
  simp only [str, List.cons_append, List.append_assoc, List.cons.injEq, true_and] at h
  exact escape_quote_inj h

section
variable {α : Type} {f : α → List Char} (hf : ∀ a b u v, f a ++ u = f b ++ v → a = b ∧ u = v)
include hf

theorem items_inj {xs ys : List α} {u v : List Char}
    (h : (xs.flatMap fun x => ',' :: ' ' :: f x) ++ ']' :: u = (ys.flatMap fun y => ',' :: ' ' :: f y) ++ ']' :: v) :
    xs = ys ∧ u = v := by
  induction xs generalizing ys with
  | nil =>
    cases ys with
    | nil => exact ⟨rfl, (List.cons.inj h).2⟩
    | cons y ys => exact absurd (List.cons.inj h).1 (by decide)
  | cons x xs ih =>
    cases ys with
    | nil => exact absurd (List.cons.inj h).1 (by decide)
    | cons y ys =>
      simp only [List.flatMap_cons, List.cons_append, List.append_assoc, List.cons.injEq, true_and] at h
      obtain ⟨rfl, hrest⟩ := hf _ _ _ _ h
      obtain ⟨rfl, hend⟩ := ih hrest
      exact ⟨rfl, hend⟩

omit hf in
theorem array_cons (x : α) (xs : List α) (u : List Char) : array ((x :: xs).map f) ++ u =
    '[' :: (f x ++ ((xs.flatMap fun x => ',' :: ' ' :: f x) ++ ']' :: u)) := by
  have hjoin : ∀ x, ", ".toList.intercalate ((x :: xs).map f) = f x ++ xs.flatMap fun x => ',' :: ' ' :: f x := by
    induction xs with
    | nil => intro x; simp [List.intercalate_singleton]
    | cons y ys ih =>
      intro x
      rw [List.map_cons, List.map_cons, List.intercalate_cons_cons, ← List.map_cons, ih y, List.flatMap_cons]
      simp
  rw [array, hjoin x]
  simp

/-- A list of items that are read back one by one is read back. -/
theorem array_inj (hhead : ∀ a u v, f a ++ u ≠ ']' :: v) {xs ys : List α} {u v : List Char}
    (h : array (xs.map f) ++ u = array (ys.map f) ++ v) : xs = ys ∧ u = v := by
  cases xs with
  | nil =>
    cases ys with
    | nil => exact ⟨rfl, (List.cons.inj (List.cons.inj h).2).2⟩
    | cons y ys =>
      rw [array_cons] at h
      exact absurd (List.cons.inj h).2.symm (hhead _ _ _)
  | cons x xs =>
    cases ys with
    | nil =>
      rw [array_cons] at h
      exact absurd (List.cons.inj h).2 (hhead _ _ _)
    | cons y ys =>
      rw [array_cons, array_cons] at h
      obtain ⟨rfl, hrest⟩ := hf _ _ _ _ (List.cons.inj h).2
      obtain ⟨rfl, hend⟩ := items_inj hf hrest
      exact ⟨rfl, hend⟩

end

end JsonDump
