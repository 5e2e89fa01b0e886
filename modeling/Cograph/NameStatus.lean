import Cograph.Strs
import Cograph.Lines
import Cograph.Joins

/-!
# Changed files as git prints them

`git diff --name-status` over a list of changes, with the default quoting of
paths, and `_detect_git_changes_safely` of `graph/ingest.py`, which reads its
output. Git's output is printable ASCII but for tabs and line feeds, so the
decoded text has a character for each byte and no line ending to translate.
-/

namespace Cograph.NameStatus

/-! ## Git -/

abbrev Bytes := List UInt8

/-- A changed path. A rename carries its similarity in percent. -/
inductive Change where
  | added (path : Bytes)
  | modified (path : Bytes)
  | deleted (path : Bytes)
  | renamed (similarity : Fin 101) (old new : Bytes)
  | typeChanged (path : Bytes)
  deriving DecidableEq, Repr

def Change.paths : Change → List Bytes
  | added path | modified path | deleted path | typeChanged path => [path]
  | renamed _ old new => [old, new]

/-- A control character, a quote, a backslash or a byte outside ASCII. -/
def mustQuote (b : UInt8) : Bool := b < 0x20 ∨ b = 0x22 ∨ b = 0x5c ∨ 0x7f ≤ b

def octal (b : UInt8) : Str :=
  [b.toNat / 64, b.toNat / 8 % 8, b.toNat % 8].map Nat.digitChar

def escape (b : UInt8) : Str :=
  if mustQuote b then
    '\\' :: match b.toNat with
      | 7 => ['a']
      | 8 => ['b']
      | 9 => ['t']
      | 10 => ['n']
      | 11 => ['v']
      | 12 => ['f']
      | 13 => ['r']
      | 34 => ['"']
      | 92 => ['\\']
      | _ => octal b
  else [Char.ofNat b.toNat]

/-- A path as it is printed: in quotes where a byte of it must be quoted. -/
def quoteCStyle (path : Bytes) : Str :=
  if path.any mustQuote then '"' :: (path.flatMap escape ++ ['"']) else path.flatMap escape

def percent (s : Fin 101) : Str := [s.val / 100, s.val / 10 % 10, s.val % 10].map Nat.digitChar

/-- The columns of a change. -/
def Change.columns : Change → List Str
  | added path => [['A'], quoteCStyle path]
  | modified path => [['M'], quoteCStyle path]
  | deleted path => [['D'], quoteCStyle path]
  | renamed similarity old new => ['R' :: percent similarity, quoteCStyle old, quoteCStyle new]
  | typeChanged path => [['T'], quoteCStyle path]

def Change.line (c : Change) : Str := ['\t'].intercalate c.columns

def nameStatus (changes : List Change) : Str := changes.flatMap fun c => c.line ++ ['\n']

/-! ## The reader -/

structure GitFileChange where
  kind : Char
  filePath : Str
  oldFilePath : Option Str := none
  deriving DecidableEq, Repr

/-- How the `git` process ends. -/
inductive Completed where
  | stdout (text : Str)
  | calledProcessError
  | timeoutExpired
  | fileNotFound
  deriving DecidableEq, Repr

def isHex (c : Char) : Bool := ('0' ≤ c ∧ c ≤ '9') ∨ ('a' ≤ c ∧ c ≤ 'f') ∨ ('A' ≤ c ∧ c ≤ 'F')

/-- `_SHA_PATTERN`, `^[0-9a-fA-F]{7,64}$`. The end matches before a final line
feed, too. -/
def shaPattern (s : Str) : Bool :=
  let sha := if s.getLast? = some '\n' then s.dropLast else s
  7 ≤ sha.length ∧ sha.length ≤ 64 ∧ sha.all isHex

def readLine (rawLine : Str) : Option GitFileChange :=
  match rawLine.splitOn '\t' with
  | (head :: _) :: first :: rest =>
    if head = 'R' then rest.head?.map fun second => ⟨'R', second, some first⟩
    else if head = 'A' ∨ head = 'M' ∨ head = 'D' then some ⟨head, first, none⟩
    else none
  | _ => none

def detectGitChangesSafely (sinceCommit : Str) (completed : Completed) : Option (List GitFileChange) :=
  if shaPattern sinceCommit then
    match completed with
    | .stdout text => some ((Str.splitlines text).filterMap readLine)
    | _ => none
  else none

end Cograph.NameStatus

/-!
## What the reader recovers of a name-status output

The reader splits git's lines and columns apart without error, but it takes a
quoted path as it is printed and drops type changes. It recovers a list of
changes exactly if there is no type change and no path that git quotes.
-/

namespace Cograph.NameStatus

/-! ## The bytes of a text -/

def encode (s : Str) : Bytes := s.flatMap String.utf8EncodeChar

theorem encode_length_le (s : Str) : s.length ≤ (encode s).length := by
  induction s with
  | nil => exact Nat.le_refl 0
  | cons c s ih =>
    have hc := List.length_pos_iff.2 (String.utf8EncodeChar_ne_nil (c := c))
    simp only [encode, List.flatMap_cons, List.length_append, List.length_cons] at ih ⊢
    omega

/-- What is to be read of a change: the letter, the path, and the old path of a
rename. -/
def Change.fields : Change → Char × Bytes × Option Bytes
  | added path => ('A', path, none)
  | modified path => ('M', path, none)
  | deleted path => ('D', path, none)
  | renamed _ old new => ('R', new, some old)
  | typeChanged path => ('T', path, none)

def GitFileChange.fields (c : GitFileChange) : Char × Bytes × Option Bytes :=
  (c.kind, encode c.filePath, c.oldFilePath.map encode)

/-! ## Printed paths -/

/-- Printed characters other than tabs and line feeds. -/
def Graphic (c : Char) : Prop := 0x20 ≤ c.toNat ∧ c.toNat < 0x7f

instance (c : Char) : Decidable (Graphic c) := inferInstanceAs (Decidable (_ ∧ _))

theorem Graphic.no_break {c : Char} (h : Graphic c) : Str.isLineBreak c = false := by
  obtain ⟨hlo, hhi⟩ := h
  simp only [Str.isLineBreak, decide_eq_false_iff_not]
  omega

theorem Graphic.no_tab {c : Char} (h : Graphic c) : c ≠ '\t' := by
  rintro rfl
  exact absurd h (by decide)

theorem digitChar_graphic {n : Nat} (h : n < 10) : Graphic (Nat.digitChar n) := by
  interval_cases n <;> decide

theorem plain_bounds {b : UInt8} (h : mustQuote b = false) : 0x20 ≤ b.toNat ∧ b.toNat < 0x7f := by
  simp only [mustQuote, decide_eq_false_iff_not, not_or, UInt8.lt_iff_toNat_lt, UInt8.le_iff_toNat_le] at h
  have h₁ := h.1
  have h₂ := h.2.2.2
  simp only [UInt8.reduceToNat] at h₁ h₂
  omega

theorem toNat_ofByte (b : UInt8) : (Char.ofNat b.toNat).toNat = b.toNat := by
  have hb := b.toNat_lt
  have hvalid : b.toNat.isValidChar := Or.inl (by omega)
  rw [Char.ofNat, dif_pos hvalid]
  rfl

theorem octal_graphic (b : UInt8) : ∀ c ∈ octal b, Graphic c := by
  have hb := b.toNat_lt
  intro c hc
  simp only [octal, List.map_cons, List.map_nil, List.mem_cons, List.not_mem_nil, or_false] at hc
  rcases hc with rfl | rfl | rfl
  · exact digitChar_graphic (by omega)
  · exact digitChar_graphic (by omega)
  · exact digitChar_graphic (by omega)

theorem escape_graphic (b : UInt8) : ∀ c ∈ escape b, Graphic c := by
  have hnamed : ∀ d : Char, Graphic d → ∀ c ∈ ['\\', d], Graphic c := by
    intro d hd c hc
    simp only [List.mem_cons, List.not_mem_nil, or_false] at hc
    rcases hc with rfl | rfl
    · decide
    · exact hd
  unfold escape
  split
  · split
    all_goals first
      | exact hnamed _ (by decide)
      | skip
    intro c hc
    rcases List.mem_cons.1 hc with rfl | hc
    · decide
    · exact octal_graphic b c hc
  · rename_i h
    intro c hc
    obtain rfl := List.mem_singleton.1 hc
    have hb := plain_bounds (by simpa using h)
    rw [Graphic, toNat_ofByte]
    exact hb

theorem escape_ne_nil (b : UInt8) : escape b ≠ [] := by
  unfold escape
  split <;> simp

theorem quoteCStyle_graphic (path : Bytes) : ∀ c ∈ quoteCStyle path, Graphic c := by
  have hbody : ∀ c ∈ path.flatMap escape, Graphic c := by
    intro c hc
    obtain ⟨b, -, hb⟩ := List.mem_flatMap.1 hc
    exact escape_graphic b c hb
  intro c hc
  unfold quoteCStyle at hc
  split at hc
  · simp only [List.mem_cons, List.mem_append, List.not_mem_nil, or_false] at hc
    rcases hc with rfl | hc | rfl
    · decide
    · exact hbody c hc
    · decide
  · exact hbody c hc

/-! ## What a printed path is read as -/

theorem encode_plain {b : UInt8} (h : mustQuote b = false) : encode (escape b) = [b] := by
  have hb := plain_bounds h
  have hsize : (Char.ofNat b.toNat).utf8Size = 1 := by
    rw [Char.utf8Size_eq_one_iff, UInt32.le_iff_toNat_le]
    have : (Char.ofNat b.toNat).val.toNat = b.toNat := toNat_ofByte b
    rw [this]
    exact Nat.le_of_lt_succ (Nat.lt_succ_of_lt hb.2)
  rw [escape, h]
  simp only [Bool.false_eq_true, if_false, encode, List.flatMap_cons, List.flatMap_nil, List.append_nil]
  rw [String.utf8EncodeChar_eq_singleton hsize]
  have hval : (Char.ofNat b.toNat).val.toUInt8 = b := by
    apply UInt8.toNat_inj.1
    rw [UInt32.toNat_toUInt8]
    have : (Char.ofNat b.toNat).val.toNat = b.toNat := toNat_ofByte b
    rw [this, Nat.mod_eq_of_lt b.toNat_lt]
  rw [hval]

theorem encode_flatMap {path : Bytes} (h : ∀ b ∈ path, mustQuote b = false) : encode (path.flatMap escape) = path := by
  induction path with
  | nil => rfl
  | cons b path ih =>
    rw [List.flatMap_cons, encode, List.flatMap_append]
    have hb := encode_plain (h b (by simp))
    have hrest := ih fun b' hb' => h b' (List.mem_cons_of_mem _ hb')
    rw [encode] at hb hrest
    rw [hb, hrest]
    rfl

theorem length_le_escape (path : Bytes) : path.length ≤ (path.flatMap escape).length := by
  induction path with
  | nil => exact Nat.le_refl 0
  | cons b path ih =>
    have hb := List.length_pos_iff.2 (escape_ne_nil b)
    simp only [List.flatMap_cons, List.length_append, List.length_cons]
    omega

/-- A printed path is its own bytes if and only if it is not quoted. -/
theorem encode_quoteCStyle (path : Bytes) : encode (quoteCStyle path) = path ↔ ∀ b ∈ path, mustQuote b = false := by
  constructor
  · intro h
    by_contra hq
    have hany : path.any mustQuote = true := by simpa [List.any_eq_true] using hq
    have hlen := encode_length_le (quoteCStyle path)
    have hbody := length_le_escape path
    rw [h, quoteCStyle, if_pos hany, List.length_cons, List.length_append] at hlen
    omega
  · intro h
    have hany : ¬ path.any mustQuote = true := by simpa [List.any_eq_true] using h
    rw [quoteCStyle, if_neg hany]
    exact encode_flatMap h

/-! ## Lines and columns -/

theorem percent_graphic (n : Fin 101) : ∀ c ∈ percent n, Graphic c := by
  have hn := n.isLt
  intro c hc
  simp only [percent, List.map_cons, List.map_nil, List.mem_cons, List.not_mem_nil, or_false] at hc
  rcases hc with rfl | rfl | rfl
  · exact digitChar_graphic (by omega)
  · exact digitChar_graphic (by omega)
  · exact digitChar_graphic (by omega)

theorem columns_graphic (c : Change) : ∀ column ∈ c.columns, ∀ d ∈ column, Graphic d := by
  have hletter : ∀ l : Char, Graphic l → ∀ d ∈ [l], Graphic d := fun l hl d hd => List.mem_singleton.1 hd ▸ hl
  intro column hcolumn
  cases c with
  | renamed n old new =>
    simp only [Change.columns, List.mem_cons, List.not_mem_nil, or_false] at hcolumn
    rcases hcolumn with rfl | rfl | rfl
    · intro d hd
      rcases List.mem_cons.1 hd with rfl | hd
      · decide
      · exact percent_graphic n d hd
    · exact quoteCStyle_graphic old
    · exact quoteCStyle_graphic new
  | _ path =>
    simp only [Change.columns, List.mem_cons, List.not_mem_nil, or_false] at hcolumn
    rcases hcolumn with rfl | rfl
    · exact hletter _ (by decide)
    · exact quoteCStyle_graphic path

theorem line_splitOn (c : Change) : c.line.splitOn '\t' = c.columns := by
  apply List.splitOn_intercalate
  · intro column hcolumn hmem
    exact (columns_graphic c column hcolumn _ hmem).no_tab rfl
  · cases c <;> simp [Change.columns]

theorem line_no_break (c : Change) : ∀ d ∈ c.line, Str.isLineBreak d = false := by
  intro d hd
  rcases Joins.mem_intercalate hd with rfl | ⟨column, hcolumn, hd⟩
  · rfl
  · exact (columns_graphic c column hcolumn d hd).no_break

theorem splitlines_line {s : Str} (h : ∀ d ∈ s, Str.isLineBreak d = false) (t : Str) :
    Str.splitlines (s ++ '\n' :: t) = s :: Str.splitlines t := by
  induction s with
  | nil => exact Str.splitlines_feed t
  | cons c s ih =>
    rw [List.cons_append, Str.splitlines_char (h c (by simp)), ih fun d hd => h d (List.mem_cons_of_mem _ hd)]
    rfl

theorem splitlines_nameStatus (changes : List Change) :
    Str.splitlines (nameStatus changes) = changes.map Change.line := by
  induction changes with
  | nil => rfl
  | cons c changes ih =>
    rw [nameStatus, List.flatMap_cons, List.append_assoc, List.singleton_append, splitlines_line (line_no_break c),
      List.map_cons, ← ih]
    rfl

/-! ## Reading the lines -/

/-- The change is not a type change and no path of it is quoted. -/
def Readable (c : Change) : Prop := c.fields.1 ≠ 'T' ∧ ∀ path ∈ c.paths, ∀ b ∈ path, mustQuote b = false

/-- A change is read off its line if and only if it is readable. -/
theorem readLine_line (c : Change) : (readLine c.line).map GitFileChange.fields = some c.fields ↔ Readable c := by
  have hread : ∀ (letter : Char) (path : Bytes), (⟨letter, quoteCStyle path, none⟩ : GitFileChange).fields =
      (letter, path, none) ↔ ∀ b ∈ path, mustQuote b = false := by
    intro letter path
    simp [GitFileChange.fields, encode_quoteCStyle]
  unfold readLine
  rw [line_splitOn]
  cases c with
  | added path => simpa [Change.columns, Readable, Change.fields, Change.paths] using hread 'A' path
  | modified path => simpa [Change.columns, Readable, Change.fields, Change.paths] using hread 'M' path
  | deleted path => simpa [Change.columns, Readable, Change.fields, Change.paths] using hread 'D' path
  | typeChanged path => simp [Change.columns, Readable, Change.fields]
  | renamed n old new =>
    simp only [Change.columns, Readable, Change.fields, Change.paths]
    simp [GitFileChange.fields, encode_quoteCStyle, and_comm]

/-- Where every element is kept as its image, and only there. -/
theorem filterMap_eq_map {α β : Type} {f : α → Option β} {g : α → β} {xs : List α} :
    xs.filterMap f = xs.map g ↔ ∀ x ∈ xs, f x = some (g x) := by
  induction xs with
  | nil => simp
  | cons x xs ih =>
    rw [List.forall_mem_cons, ← ih]
    cases hx : f x with
    | none =>
      -- One element too few is left.
      rw [List.filterMap_cons_none hx, List.map_cons]
      refine iff_of_false (fun h => ?_) (fun h => nomatch h.1)
      have hlen := congrArg List.length h
      have := List.length_filterMap_le f xs
      rw [List.length_cons, List.length_map] at hlen
      omega
    | some y => rw [List.filterMap_cons_some hx, List.map_cons, List.cons.injEq, Option.some.injEq]

/-- **Name-status output.** The changes read off git's output are the changes
that were printed if and only if each of them is readable. -/
theorem name_status_recovered (sinceCommit : Str) (h : shaPattern sinceCommit = true) (changes : List Change) :
    (detectGitChangesSafely sinceCommit (.stdout (nameStatus changes))).map (·.map GitFileChange.fields) =
        some (changes.map Change.fields) ↔
      ∀ c ∈ changes, Readable c := by
  rw [detectGitChangesSafely, if_pos h]
  simp only [Option.map_some, Option.some.injEq]
  rw [splitlines_nameStatus, List.filterMap_map, List.map_filterMap, filterMap_eq_map]
  exact forall₂_congr fun c _ => readLine_line c

/-! One file is renamed, one has an accent, one becomes a link. -/

def aCommit : Str := "0123abc".toList

def accented : Change := .modified [0x63, 0xc3, 0xa9, 0x2e, 0x67, 0x6f]

theorem name_status_recovered_renamed :
    (detectGitChangesSafely aCommit (.stdout (nameStatus [.renamed 87 [0x61] [0x62]]))).map
        (·.map GitFileChange.fields) = some [('R', [0x62], some [0x61])] ↔
      ∀ c ∈ [Change.renamed 87 [0x61] [0x62]], Readable c :=
  name_status_recovered aCommit (by decide) [.renamed 87 [0x61] [0x62]]

/-- The path is taken with its quotes and escapes. -/
theorem accented_unread :
    ¬ ∀ (sinceCommit : Str) (changes : List Change), shaPattern sinceCommit = true →
      (detectGitChangesSafely sinceCommit (.stdout (nameStatus changes))).map (·.map GitFileChange.fields) =
        some (changes.map Change.fields) :=
  fun h => absurd (h aCommit [accented] (by decide)) (by decide)

end Cograph.NameStatus
