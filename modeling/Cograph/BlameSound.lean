import Cograph.Blame

/-!
# What the parser reads of a blame

`str.splitlines` cuts a printed line at every line break of Unicode, and the
parser takes each piece for a line of its own. Where no piece behind a cut reads
as a field that counts, every line gets the commit of its last entry.
-/

namespace Cograph.Blame

/-! ## Pieces of a line -/

/-- What the parser sees of a printed line. -/
def pieces (line : Str) : List Str := Str.splitlines (line ++ ['\n'])

/-- The pieces behind the first cut. -/
def cut (line : Str) : List Str := (pieces line).tail

theorem splitlines_plain {c : Char} (hc : Str.isLineBreak c = false) (s : Str) (line : Str) (lines : List Str)
    (h : Str.splitlines s = line :: lines) : Str.splitlines (c :: s) = (c :: line) :: lines := by
  have hne : c ≠ '\r' := by
    rintro rfl
    exact absurd hc (by decide)
  rw [Str.splitlines]
  · simp [hc, h]
  · intro s' hcr
    exact absurd hcr hne

theorem splitlines_cut {c : Char} (hc : Str.isLineBreak c = true) (s : Str) (h : c = '\r' → s.head? ≠ some '\n') :
    Str.splitlines (c :: s) = [] :: Str.splitlines s := by
  rw [Str.splitlines]
  · simp [hc]
  · rintro s' hcr rfl
    exact h hcr rfl

theorem splitlines_ne_nil {s : Str} (h : s ≠ []) : Str.splitlines s ≠ [] := by
  rw [Str.splitlines.eq_def]
  split
  · exact absurd rfl h
  · exact List.cons_ne_nil _ _
  · split
    · exact List.cons_ne_nil _ _
    · split
      · exact List.cons_ne_nil _ _
      · exact List.cons_ne_nil _ _

theorem pieces_ne_nil (line : Str) : pieces line ≠ [] := splitlines_ne_nil (by simp)

theorem pieces_cons {c : Char} (hc : Str.isLineBreak c = false) (s : Str) :
    ∃ line lines, pieces s = line :: lines ∧ pieces (c :: s) = (c :: line) :: lines := by
  obtain ⟨line, lines, h⟩ := List.exists_cons_of_ne_nil (pieces_ne_nil s)
  exact ⟨line, lines, h, splitlines_plain hc _ _ _ h⟩

/-- A line feed ends the pieces of what stands before it. -/
theorem splitlines_append (a b : Str) : Str.splitlines (a ++ '\n' :: b) = pieces a ++ Str.splitlines b := by
  have hplain : ∀ (c : Char) (s : Str), Str.isLineBreak c = false →
      Str.splitlines (s ++ '\n' :: b) = pieces s ++ Str.splitlines b →
        Str.splitlines (c :: s ++ '\n' :: b) = pieces (c :: s) ++ Str.splitlines b := by
    intro c s hc ih
    obtain ⟨line, lines, hs, hcs⟩ := pieces_cons hc s
    rw [hs] at ih
    rw [hcs]
    exact splitlines_plain hc _ _ _ ih
  induction a using Str.splitlines.induct with
  | case1 => rfl
  | case2 s ih => exact congrArg ([] :: ·) ih
  | case3 c s hcr hc ih =>
    by_cases hlast : c = '\r' ∧ s = []
    · obtain ⟨rfl, rfl⟩ := hlast
      rfl
    · have hhead : ∀ t, c = '\r' → (s ++ '\n' :: t).head? ≠ some '\n' := by
        intro t hreturn hfeed
        cases s with
        | nil => exact hlast ⟨hreturn, rfl⟩
        | cons d s => exact hcr s hreturn (by rw [Option.some.inj hfeed])
      rw [pieces, List.cons_append, List.cons_append, splitlines_cut hc _ (hhead b), splitlines_cut hc _ (hhead []), ih]
      rfl
  | case4 c s _ hc _ ih => exact hplain c s (Bool.not_eq_true _ ▸ hc) ih
  | case5 c s _ hc _ _ _ ih => exact hplain c s (Bool.not_eq_true _ ▸ hc) ih

theorem splitlines_lines (lines : List Str) : Str.splitlines (lines.flatMap (· ++ ['\n'])) = lines.flatMap pieces := by
  induction lines with
  | nil => rfl
  | cons line lines ih =>
    rw [List.flatMap_cons, List.flatMap_cons, List.append_assoc, ← ih]
    exact splitlines_append line _

/-- No character of a keyword breaks a line. -/
def unbroken (k : Str) : Bool := k.all fun c => !Str.isLineBreak c

theorem unbroken_iff {k : Str} : unbroken k = true ↔ ∀ c ∈ k, Str.isLineBreak c = false := by
  simp [unbroken, List.all_eq_true]

/-- A keyword stays with the first piece. -/
theorem pieces_keyword {k : Str} (h : unbroken k = true) (text : Str) :
    ∃ first, pieces (k ++ text) = (k ++ first) :: cut (k ++ text) := by
  have hk := unbroken_iff.1 h
  clear h
  induction k with
  | nil =>
    obtain ⟨line, lines, h⟩ := List.exists_cons_of_ne_nil (pieces_ne_nil text)
    exact ⟨line, by rw [List.nil_append, cut, h]; rfl⟩
  | cons c k ih =>
    obtain ⟨first, hfirst⟩ := ih fun d hd => hk d (List.mem_cons_of_mem c hd)
    obtain ⟨line, lines, hs, hcs⟩ := pieces_cons (hk c List.mem_cons_self) (k ++ text)
    rw [hs] at hfirst
    obtain ⟨rfl, -⟩ := List.cons.inj hfirst
    exact ⟨first, by rw [List.cons_append, cut, hcs]; rfl⟩

/-- A text without line breaks is one piece. -/
theorem pieces_unbroken {s : Str} (hs : ∀ c ∈ s, Str.isLineBreak c = false) : pieces s = [s] := by
  induction s with
  | nil => rfl
  | cons c s ih =>
    obtain ⟨line, lines, hpieces, hcs⟩ := pieces_cons (hs c List.mem_cons_self) s
    rw [ih fun d hd => hs d (List.mem_cons_of_mem c hd)] at hpieces
    obtain ⟨rfl, rfl⟩ := List.cons.inj hpieces
    exact hcs

/-! ## Printed numbers -/

section
variable (D : Decimals)

theorem number_digit {n : Nat} {c : Char} (h : c ∈ number n) : c.isDigit = true :=
  Nat.isDigit_of_mem_toDigits (by decide) (by decide) h

theorem digit_range {c : Char} (h : c.isDigit = true) : 48 ≤ c.toNat ∧ c.toNat ≤ 57 := by
  have hval : 48 ≤ c.val ∧ c.val ≤ 57 := by simpa [Char.isDigit] using h
  exact ⟨UInt32.le_iff_toNat_le.1 hval.1, UInt32.le_iff_toNat_le.1 hval.2⟩

theorem digit_plain {c : Char} (h : c.isDigit = true) :
    Str.isLineBreak c = false ∧ Str.isSpace c = false ∧ c ≠ '_' ∧ c ≠ '-' ∧ c ≠ '+' ∧ c ≠ ' ' := by
  have hrange := digit_range h
  refine ⟨?_, ?_, ?_, ?_, ?_, ?_⟩
  · simp [Str.isLineBreak]
    omega
  · simp [Str.isSpace]
    omega
  all_goals
    rintro rfl
    exact absurd h (by decide)

theorem foldlM_digits {s : Str} (h : ∀ c ∈ s, c.isDigit = true) (n : Nat) :
    s.foldlM (fun n c => (D.value c).map (10 * n + ·)) n = some (Nat.ofDigitChars 10 s n) := by
  induction s generalizing n with
  | nil => rfl
  | cons c s ih =>
    rw [List.foldlM_cons, D.ascii c (h c List.mem_cons_self)]
    exact ih (fun d hd => h d (List.mem_cons_of_mem c hd)) _

theorem digitsValue_number {n : Nat} (hn : n < 2 ^ 64) : digitsValue D (number n) = some n := by
  have hlen : (number n).length ≤ 20 := (Nat.length_toDigits_le_iff (by decide) (by decide)).2 (by omega)
  rw [digitsValue, if_pos (by omega), foldlM_digits D fun c hc => number_digit hc]
  exact congrArg some Nat.ofDigitChars_ten_toDigits

theorem strip_plain {s : Str} (h : ∀ c ∈ s, Str.isSpace c = false) : Str.strip s = s := by
  rw [Str.strip, Str.lstrip_of_head fun c hc => h c (List.mem_of_mem_head? hc)]
  induction s with
  | nil => rfl
  | cons c s ih => rw [Str.rstrip_graphic (h c List.mem_cons_self), ih fun d hd => h d (List.mem_cons_of_mem c hd)]

theorem strip_number (n : Nat) : Str.strip (number n) = number n :=
  strip_plain fun _ hc => (digit_plain (number_digit hc)).2.1

theorem number_ne_nil (n : Nat) : number n ≠ [] := Nat.toDigits_ne_nil

theorem parseInt_number {n : Nat} (hn : n < 2 ^ 64) : parseInt D (number n) = some (n : Int) := by
  obtain ⟨c, s, hs⟩ := List.exists_cons_of_ne_nil (number_ne_nil n)
  have hdigits : ∀ d ∈ number n, d.isDigit = true := fun d hd => number_digit hd
  have hc := digit_plain (hdigits c (hs ▸ List.mem_cons_self))
  have hhead : (number n).head? = some c := by rw [hs]; rfl
  have hgroups : (number n).splitOn '_' = [number n] :=
    List.splitOn_eq_singleton fun hd => (digit_plain (hdigits _ hd)).2.2.1 rfl
  have hminus : ¬some c = some '-' := fun h => hc.2.2.2.1 (Option.some.inj h)
  have hsign : ¬(some c = some '-' ∨ some c = some '+') := by
    rintro (h | h)
    · exact hminus h
    · exact hc.2.2.2.2.1 (Option.some.inj h)
  have hempty : [] ∉ [number n] := by simpa using (number_ne_nil n).symm
  simp only [parseInt, strip_number, hhead, if_neg hsign, if_neg hminus, hgroups, if_neg hempty, List.flatten_singleton,
    digitsValue_number D hn, Option.map_some]

/-! ## Headers and fields -/

theorem header_entry {e : Entry} (hlen : e.sha.length = 40) (hhex : e.sha.all isHexDigit) :
    header D e.header = some ⟨e.sha, number e.finalLine.toNat, number e.numLines.toNat⟩ := by
  have hsha : ' ' ∉ e.sha := fun h => absurd (List.all_eq_true.1 hhex _ h) (by decide)
  have hnumber : ∀ n, ' ' ∉ number n := fun n h => (digit_plain (number_digit h)).2.2.2.2.2 rfl
  have hgroup : ∀ n, (number n ≠ [] ∧ (number n).all fun c => (D.value c).isSome) := by
    intro n
    refine ⟨number_ne_nil n, List.all_eq_true.2 fun c hc => ?_⟩
    rw [D.ascii c (number_digit hc)]
    rfl
  have hsplit : e.header.splitOn ' ' =
      [e.sha, number e.originalLine.toNat, number e.finalLine.toNat, number e.numLines.toNat] := by
    refine List.splitOn_intercalate _ (fun part hpart => ?_) (List.cons_ne_nil _ _)
    simp only [List.mem_cons, List.not_mem_nil, or_false] at hpart
    obtain rfl | rfl | rfl | rfl := hpart
    · exact hsha
    all_goals exact hnumber _
  have hgroups : ∀ a b c : Nat, [number a, number b, number c].all
      (fun group => group ≠ [] ∧ group.all fun c => (D.value c).isSome) = true := by
    intro a b c
    simp only [List.all_cons, List.all_nil, decide_eq_true (hgroup _), Bool.and_self]
  simp only [header, hsplit]
  exact if_pos ⟨hlen, hhex, hgroups _ _ _⟩

/-- No keyword is as long as the name of a commit. -/
theorem header_keyword {k : Str} (hspace : ' ' ∉ k) (hlen : k.length ≠ 40) (text : Str) :
    header D (k ++ ' ' :: text) = none := by
  rw [header, List.splitOn_append_cons_self_of_not_mem hspace]
  split
  · next h =>
    obtain ⟨rfl, -⟩ := List.cons.inj h
    rw [if_neg fun h => hlen h.1]
  · rfl

theorem field_keyword (k text : Str) : field k (k ++ text) = some (Str.strip text) := by
  rw [field, if_pos (List.isPrefixOf_iff_prefix.2 (List.prefix_append k text)), List.drop_left]

def fieldKeywords : List Str :=
  ["committer-time ", "committer-tz ", "author-time ", "author-tz ", "filename "].map String.toList

/-- The parser passes over the piece. -/
def Silent (raw : Str) : Prop := header D raw = none ∧ ∀ k ∈ fieldKeywords, k.isPrefixOf raw = false

/-- A piece that may stand before the committer's time. -/
structure Early (raw : Str) : Prop where
  header : header D raw = none
  filename : "filename ".toList.isPrefixOf raw = false
  committerTime : ∀ text, field "committer-time ".toList raw = some text → (parseInt D text).isSome
  authorTime : ∀ text, field "author-time ".toList raw = some text → (parseInt D text).isSome

/-- A piece that may stand behind the committer's time. -/
structure Late (time : Int) (raw : Str) : Prop where
  header : header D raw = none
  committerTime : ∀ text, field "committer-time ".toList raw = some text → parseInt D text = some time

variable {D} {st : State} {sha raw : Str}

theorem readLine_field (hheader : header D raw = none) (hsha : st.currentSha = some sha) :
    readLine D st raw = readField D st sha raw := by
  simp only [readLine, hheader, hsha]

theorem field_none {k : Str} (h : k.isPrefixOf raw = false) : field k raw = none := by
  rw [field, h]
  rfl

theorem readLine_silent (h : Silent D raw) (st : State) : readLine D st raw = some st := by
  obtain ⟨hheader, hkeys⟩ := h
  simp only [fieldKeywords, List.map_cons, List.map_nil, List.forall_mem_cons] at hkeys
  obtain ⟨hctime, hctz, hatime, hatz, hfile, -⟩ := hkeys
  cases hsha : st.currentSha with
  | none => simp only [readLine, hheader, hsha]
  | some sha =>
    rw [readLine_field hheader hsha]
    simp only [readField, field_none hctime, field_none hctz, field_none hatime, field_none hatz, hfile]
    rfl

theorem readLine_early (h : Early D raw) (hsha : st.currentSha = some sha) :
    ∃ time tz, readLine D st raw = some { st with time := time, tz := tz } := by
  rw [readLine_field h.header hsha, readField]
  split
  · next text htext =>
    obtain ⟨t, ht⟩ := Option.isSome_iff_exists.1 (h.committerTime text htext)
    exact ⟨some t, st.tz, by rw [ht]; rfl⟩
  split
  · next text _ => exact ⟨st.time, some text, rfl⟩
  split
  · next _ _ text htext _ =>
    obtain ⟨t, ht⟩ := Option.isSome_iff_exists.1 (h.authorTime text htext)
    exact ⟨some t, st.tz, by rw [ht]; rfl⟩
  split
  · next _ _ text _ _ => exact ⟨st.time, some text, rfl⟩
  · rw [if_neg (by rw [h.filename]; decide)]
    exact ⟨st.time, st.tz, rfl⟩

/-! ## Registered lines -/

def covers (e : Entry) (line : Nat) : Bool :=
  e.finalLine.toNat ≤ line && line < e.finalLine.toNat + e.numLines.toNat

theorem get_setLines (blame : Dict.Items Nat Span) (span : Span) (first count line : Nat) :
    Dict.get (setLines blame span first count) line =
      if first ≤ line ∧ line < first + count then some span else Dict.get blame line := by
  unfold setLines
  induction count generalizing blame first with
  | zero =>
    have hnone : ¬(first ≤ line ∧ line < first + 0) := by omega
    rw [if_neg hnone]
    rfl
  | succ count ih =>
    rw [List.range'_succ, List.foldl_cons, ih]
    by_cases hfirst : line = first
    · have hin : first ≤ line ∧ line < first + (count + 1) := by omega
      have hout : ¬(first + 1 ≤ line ∧ line < first + 1 + count) := by omega
      rw [if_pos hin, if_neg hout, hfirst, Dict.get_put_self]
    · have hsame : (first + 1 ≤ line ∧ line < first + 1 + count) ↔ first ≤ line ∧ line < first + (count + 1) := by omega
      rw [if_congr hsame rfl rfl, Dict.get_put_ne _ _ (Ne.symm hfirst)]

/-- The time of the commit is known, from its details or from before. -/
def TimeKnown (st : State) (sha : Str) (time : Int) : Prop :=
  (st.time = some time ∧ st.tz.isSome) ∨ (st.time = none ∧ Dict.get st.committedAtBySha sha = some time)

theorem register_known {time : Int} (h : TimeKnown st sha time) (hrange : timestampToDatetime time = some time) :
    ∃ times, register st sha = some
        { st with
          committedAtBySha := times
          blameByLine := setLines st.blameByLine ⟨sha, some time⟩ st.finalLine st.numLines } ∧
      Dict.get times sha = some time ∧ ∀ s, s ≠ sha → Dict.get times s = Dict.get st.committedAtBySha s := by
  obtain ⟨htime, htz⟩ | ⟨htime, hget⟩ := h
  · obtain ⟨tz, htz⟩ := Option.isSome_iff_exists.1 htz
    refine ⟨Dict.put st.committedAtBySha sha time, ?_, Dict.get_put_self _ _ _,
      fun s hs => Dict.get_put_ne _ _ (Ne.symm hs)⟩
    simp only [register, htime, htz, hrange, Option.map_some, Dict.get_put_self]
  · refine ⟨st.committedAtBySha, ?_, hget, fun _ _ => rfl⟩
    simp only [register, htime, Option.map_some, hget]

/-- The state is one within the entry, and only the entry's lines and its
commit's time have changed. -/
structure Within (e : Entry) (base st : State) : Prop where
  sha : st.currentSha = some e.sha
  finalLine : st.finalLine = e.finalLine.toNat
  numLines : st.numLines = e.numLines.toNat
  times : ∀ s, s ≠ e.sha → Dict.get st.committedAtBySha s = Dict.get base.committedAtBySha s
  blame : ∀ line, covers e line = false → Dict.get st.blameByLine line = Dict.get base.blameByLine line

theorem Within.register {e : Entry} {base : State} {time : Int} (hw : Within e base st) (h : TimeKnown st e.sha time)
    (hrange : timestampToDatetime time = some time) : ∃ st', register st e.sha = some st' ∧ Within e base st' ∧
      st'.time = st.time ∧ st'.tz = st.tz ∧ Dict.get st'.committedAtBySha e.sha = some time ∧
      ∀ line, covers e line = true → Dict.get st'.blameByLine line = some ⟨e.sha, some time⟩ := by
  obtain ⟨times, hregister, hself, hothers⟩ := register_known h hrange
  refine ⟨_, hregister, ⟨hw.sha, hw.finalLine, hw.numLines, ?_, ?_⟩, rfl, rfl, hself, ?_⟩
  · intro s hs
    exact (hothers s hs).trans (hw.times s hs)
  · intro line hline
    have hout : ¬(st.finalLine ≤ line ∧ line < st.finalLine + st.numLines) := by
      rw [hw.finalLine, hw.numLines]
      simpa [covers] using hline
    exact (get_setLines _ _ _ _ _).trans ((if_neg hout).trans (hw.blame line hline))
  · intro line hline
    have hin : st.finalLine ≤ line ∧ line < st.finalLine + st.numLines := by
      rw [hw.finalLine, hw.numLines]
      simpa [covers] using hline
    exact (get_setLines _ _ _ _ _).trans (if_pos hin)

/-! ## Runs of pieces -/

theorem run_silent {raws : List Str} (h : ∀ raw ∈ raws, Silent D raw) (st : State) :
    raws.foldlM (readLine D) st = some st := by
  induction raws with
  | nil => rfl
  | cons raw raws ih =>
    rw [List.foldlM_cons, readLine_silent (h raw List.mem_cons_self)]
    exact ih fun r hr => h r (List.mem_cons_of_mem raw hr)

theorem run_early {raws : List Str} (h : ∀ raw ∈ raws, Early D raw) (hsha : st.currentSha = some sha) :
    ∃ time tz, raws.foldlM (readLine D) st = some { st with time := time, tz := tz } := by
  induction raws generalizing st with
  | nil => exact ⟨st.time, st.tz, rfl⟩
  | cons raw raws ih =>
    obtain ⟨time, tz, hone⟩ := readLine_early (h raw List.mem_cons_self) hsha
    obtain ⟨time', tz', hrest⟩ := @ih { st with time := time, tz := tz }
      (fun r hr => h r (List.mem_cons_of_mem raw hr)) hsha
    exact ⟨time', tz', by rw [List.foldlM_cons, hone]; exact hrest⟩

/-- Behind the committer's time, the commit and the time stay what they are. -/
structure Timed (e : Entry) (time : Int) (base st : State) : Prop where
  within : Within e base st
  time : st.time = some time
  tz : st.tz.isSome

theorem readLine_late {e : Entry} {base : State} {time : Int} (h : Late D time raw) (ht : Timed e time base st)
    (hrange : timestampToDatetime time = some time) : ∃ st', readLine D st raw = some st' ∧ Timed e time base st' := by
  have hw := ht.within
  rw [readLine_field h.header hw.sha, readField]
  split
  · next text htext =>
    rw [h.committerTime text htext]
    exact ⟨_, rfl, ⟨hw.sha, hw.finalLine, hw.numLines, hw.times, hw.blame⟩, rfl, ht.tz⟩
  split
  · exact ⟨_, rfl, ⟨hw.sha, hw.finalLine, hw.numLines, hw.times, hw.blame⟩, ht.time, rfl⟩
  split
  · next hnone =>
    rw [ht.time] at hnone
    cases hnone
  split
  · next hnone =>
    have htz := ht.tz
    rw [hnone] at htz
    cases htz
  split
  · obtain ⟨st', hregister, hwithin, htime, htz, -⟩ := hw.register (Or.inl ⟨ht.time, ht.tz⟩) hrange
    exact ⟨st', hregister, hwithin, htime.trans ht.time, htz ▸ ht.tz⟩
  · exact ⟨st, rfl, ht⟩

theorem run_late {e : Entry} {base : State} {time : Int} {raws : List Str} (h : ∀ raw ∈ raws, Late D time raw)
    (ht : Timed e time base st) (hrange : timestampToDatetime time = some time) :
    ∃ st', raws.foldlM (readLine D) st = some st' ∧ Timed e time base st' := by
  induction raws generalizing st with
  | nil => exact ⟨st, rfl, ht⟩
  | cons raw raws ih =>
    obtain ⟨st', hone, ht'⟩ := readLine_late (h raw List.mem_cons_self) ht hrange
    obtain ⟨st'', hrest, ht''⟩ := ih (fun r hr => h r (List.mem_cons_of_mem raw hr)) ht'
    exact ⟨st'', by rw [List.foldlM_cons, hone]; exact hrest, ht''⟩

/-! ## One entry -/

variable (D) in
/-- No piece behind a cut of the details reads as a field that counts, and the
committer's time is in the years of the calendar. -/
structure Clean (c : Commit) : Prop where
  early : ∀ line ∈ c.early, ∀ raw ∈ cut line, Early D raw
  late : ∀ line ∈ c.late, ∀ raw ∈ cut line, Late D c.committerTime.toNat raw
  time : c.committerTime.toNat ≤ 253402300799

variable {c : Commit}

theorem Clean.range (h : Clean D c) :
    timestampToDatetime c.committerTime.toNat = some (c.committerTime.toNat : Int) := by
  have htime := h.time
  exact if_pos (by omega)

theorem pieces_number {k : Str} (hk : unbroken k = true) (n : Nat) : pieces (k ++ number n) = [k ++ number n] := by
  refine pieces_unbroken fun c hc => ?_
  obtain hc | hc := List.mem_append.1 hc
  · exact unbroken_iff.1 hk c hc
  · exact (digit_plain (number_digit hc)).1

/-- The keyword of a printed line, and that it is no field of the parser. -/
theorem early_text {k text : Str} (hk : unbroken k = true) (hcut : ∀ raw ∈ cut (k ++ text), Early D raw)
    (hfirst : ∀ first, Early D (k ++ first)) : ∀ raw ∈ pieces (k ++ text), Early D raw := by
  obtain ⟨first, hpieces⟩ := pieces_keyword hk text
  rw [hpieces, List.forall_mem_cons]
  exact ⟨hfirst first, hcut⟩

theorem field_ne {k text : Str} (h : k.isPrefixOf raw = false) : field k raw ≠ some text := by
  rw [field_none h]
  exact (Option.some_ne_none text).symm

theorem early_keyword {k : Str} (hspace : ' ' ∉ k) (hlen : k.length ≠ 40) (first : Str)
    (hfile : "filename ".toList.isPrefixOf (k ++ ' ' :: first) = false)
    (hctime : "committer-time ".toList.isPrefixOf (k ++ ' ' :: first) = false)
    (hatime : "author-time ".toList.isPrefixOf (k ++ ' ' :: first) = false) : Early D (k ++ ' ' :: first) where
  header := header_keyword D hspace hlen first
  filename := hfile
  committerTime := fun _ h => absurd h (field_ne hctime)
  authorTime := fun _ h => absurd h (field_ne hatime)

theorem early_pieces (h : Clean D c) : ∀ raw ∈ c.early.flatMap pieces, Early D raw := by
  have htime : Early D ("author-time ".toList ++ number c.authorTime.toNat) := by
    refine ⟨header_keyword D (k := "author-time".toList) (by decide) (by decide) _, rfl,
      fun _ h => absurd h (field_ne rfl), fun text htext => ?_⟩
    rw [field_keyword, strip_number] at htext
    rw [← Option.some.inj htext, parseInt_number D c.authorTime.toNat_lt]
    rfl
  have hearly := h.early
  rw [Commit.early] at hearly
  simp only [List.forall_mem_cons] at hearly
  obtain ⟨hauthor, hmail, -, htz, hcommitter, hcmail, -⟩ := hearly
  simp only [Commit.early, List.flatMap_cons, List.flatMap_nil, List.forall_mem_append]
  refine ⟨early_text rfl hauthor fun first => ?_, early_text rfl hmail fun first => ?_, ?_,
    early_text rfl htz fun first => ?_, early_text rfl hcommitter fun first => ?_,
    early_text rfl hcmail fun first => ?_, fun _ h => absurd h List.not_mem_nil⟩
  · exact early_keyword (k := "author".toList) (by decide) (by decide) first rfl rfl rfl
  · exact early_keyword (k := "author-mail".toList) (by decide) (by decide) first rfl rfl rfl
  · rw [pieces_number rfl, List.forall_mem_singleton]
    exact htime
  · exact early_keyword (k := "author-tz".toList) (by decide) (by decide) first rfl rfl rfl
  · exact early_keyword (k := "committer".toList) (by decide) (by decide) first rfl rfl rfl
  · exact early_keyword (k := "committer-mail".toList) (by decide) (by decide) first rfl rfl rfl

theorem readLine_time (c : Commit) (hsha : st.currentSha = some sha) :
    (pieces c.timeLine).foldlM (readLine D) st = some { st with time := some (c.committerTime.toNat : Int) } := by
  have hpieces : pieces c.timeLine = [c.timeLine] := pieces_number rfl _
  have hheader : header D c.timeLine = none :=
    header_keyword D (k := "committer-time".toList) (by decide) (by decide) (number c.committerTime.toNat)
  have hfield : field "committer-time ".toList c.timeLine = some (number c.committerTime.toNat) :=
    (field_keyword _ _).trans (congrArg some (strip_number _))
  have hread : readField D st sha c.timeLine = some { st with time := some (c.committerTime.toNat : Int) } := by
    rw [readField, hfield]
    simp only [parseInt_number D c.committerTime.toNat_lt, Option.map_some]
  rw [hpieces, List.foldlM_cons, readLine_field hheader hsha, hread]
  rfl

theorem late_keyword {time : Int} {k : Str} (hspace : ' ' ∉ k) (hlen : k.length ≠ 40) (first : Str)
    (hctime : "committer-time ".toList.isPrefixOf (k ++ ' ' :: first) = false) : Late D time (k ++ ' ' :: first) where
  header := header_keyword D hspace hlen first
  committerTime := fun _ h => absurd h (field_ne hctime)

theorem run_late_lines {e : Entry} {base : State} (h : Clean D c) (hw : Within e base st)
    (htime : st.time = some (c.committerTime.toNat : Int)) :
    ∃ st', (c.late.flatMap pieces).foldlM (readLine D) st = some st' ∧ Timed e c.committerTime.toNat base st' := by
  obtain ⟨first, htz⟩ := pieces_keyword (k := "committer-tz ".toList) rfl c.committerTz
  obtain ⟨first', hsummary⟩ := pieces_keyword (k := "summary ".toList) rfl c.summary
  have hlate := h.late
  rw [Commit.late, List.cons_append, List.cons_append, List.nil_append] at hlate
  simp only [List.forall_mem_cons] at hlate
  obtain ⟨hcutTz, hcutSummary, -⟩ := hlate
  have hfirst : readLine D st ("committer-tz ".toList ++ first) = some { st with tz := some (Str.strip first) } := by
    have hheader : header D ("committer-tz ".toList ++ first) = none :=
      header_keyword D (k := "committer-tz".toList) (by decide) (by decide) first
    rw [readLine_field hheader hw.sha, readField, field_none rfl, field_keyword]
  have hboundary : ∀ raw ∈ (if c.boundary then ["boundary".toList] else []).flatMap pieces,
      Late D c.committerTime.toNat raw := by
    intro raw hraw
    split at hraw
    · rw [List.flatMap_singleton, pieces_unbroken (unbroken_iff.1 rfl), List.mem_singleton] at hraw
      subst hraw
      exact ⟨rfl, fun _ h => absurd h (field_ne rfl)⟩
    · cases hraw
  have hrest : ∀ raw ∈ cut ("committer-tz ".toList ++ c.committerTz) ++ (pieces ("summary ".toList ++ c.summary) ++
      (if c.boundary then ["boundary".toList] else []).flatMap pieces), Late D c.committerTime.toNat raw := by
    rw [List.forall_mem_append, List.forall_mem_append, hsummary, List.forall_mem_cons]
    exact ⟨hcutTz, ⟨late_keyword (k := "summary".toList) (by decide) (by decide) first' rfl, hcutSummary⟩, hboundary⟩
  obtain ⟨st', hrun, htimed⟩ := @run_late D { st with tz := some (Str.strip first) } e base _ _ hrest
    ⟨⟨hw.sha, hw.finalLine, hw.numLines, hw.times, hw.blame⟩, htime, rfl⟩ h.range
  refine ⟨st', ?_, htimed⟩
  rw [Commit.late, List.cons_append, List.cons_append, List.nil_append, List.flatMap_cons, List.flatMap_cons, htz,
    List.cons_append, List.foldlM_cons, hfirst]
  exact hrun

theorem silent_previous {p : Str × Str} (hcut : ∀ raw ∈ cut ("previous ".toList ++ p.1 ++ [' '] ++ p.2), Silent D raw) :
    ∀ raw ∈ pieces ("previous ".toList ++ p.1 ++ [' '] ++ p.2), Silent D raw := by
  rw [List.append_assoc, List.append_assoc] at hcut ⊢
  obtain ⟨first, hpieces⟩ := pieces_keyword (k := "previous ".toList) rfl (p.1 ++ ([' '] ++ p.2))
  rw [hpieces, List.forall_mem_cons]
  refine ⟨⟨header_keyword D (k := "previous".toList) (by decide) (by decide) first, ?_⟩, hcut⟩
  simp only [fieldKeywords, List.map_cons, List.map_nil, List.forall_mem_cons]
  exact ⟨rfl, rfl, rfl, rfl, rfl, fun _ h => absurd h List.not_mem_nil⟩

/-- The path lines register the entry's lines. -/
theorem run_paths {e : Entry} {base : State} {time : Int} (hpaths : ∀ line ∈ e.paths, ∀ raw ∈ cut line, Silent D raw)
    (hw : Within e base st) (h : TimeKnown st e.sha time) (hrange : timestampToDatetime time = some time) :
    ∃ st', (e.paths.flatMap pieces).foldlM (readLine D) st = some st' ∧ Within e base st' ∧
      Dict.get st'.committedAtBySha e.sha = some time ∧
      ∀ line, covers e line = true → Dict.get st'.blameByLine line = some ⟨e.sha, some time⟩ := by
  rw [Entry.paths, List.forall_mem_append, List.forall_mem_singleton] at hpaths
  obtain ⟨hprevious, hfilename⟩ := hpaths
  have hsilent : ∀ raw ∈ (e.previous.toList.map fun p => "previous ".toList ++ p.1 ++ [' '] ++ p.2).flatMap pieces,
      Silent D raw := by
    intro raw hraw
    obtain ⟨line, hline, hraw⟩ := List.mem_flatMap.1 hraw
    obtain ⟨p, -, rfl⟩ := List.mem_map.1 hline
    exact silent_previous (hprevious _ hline) raw hraw
  obtain ⟨first, hpieces⟩ := pieces_keyword (k := "filename ".toList) rfl e.filename
  obtain ⟨st', hregister, hw', -, -, htimes, hblame⟩ := hw.register h hrange
  have hheader : header D ("filename ".toList ++ first) = none :=
    header_keyword D (k := "filename".toList) (by decide) (by decide) first
  have hfile : readLine D st ("filename ".toList ++ first) = some st' := by
    rw [readLine_field hheader hw.sha, readField, field_none rfl, field_none rfl, field_none rfl, field_none rfl]
    exact hregister
  refine ⟨st', ?_, hw', htimes, hblame⟩
  rw [Entry.paths, List.flatMap_append, List.foldlM_append, run_silent hsilent, List.flatMap_singleton, hpieces]
  show (("filename ".toList ++ first) :: cut ("filename ".toList ++ e.filename)).foldlM (readLine D) st = some st'
  rw [List.foldlM_cons, hfile]
  exact run_silent hfilename st'

theorem hex_plain {c : Char} (h : isHexDigit c = true) : Str.isLineBreak c = false := by
  have hle : ∀ a b : Char, a ≤ b → a.toNat ≤ b.toNat := fun a b hab => UInt32.le_iff_toNat_le.1 hab
  have hrange : 48 ≤ c.toNat ∧ c.toNat ≤ 102 := by
    simp only [isHexDigit, Bool.or_eq_true, Bool.and_eq_true, decide_eq_true_eq] at h
    obtain (h | h) | h := h
    · have := digit_range h
      omega
    · exact ⟨(by decide : 48 ≤ 'a'.toNat).trans (hle _ _ h.1), hle _ _ h.2⟩
    · exact ⟨(by decide : 48 ≤ 'A'.toNat).trans (hle _ _ h.1), (hle _ _ h.2).trans (by decide)⟩
  simp [Str.isLineBreak]
  omega

theorem pieces_header {e : Entry} (hhex : e.sha.all isHexDigit) : pieces e.header = [e.header] := by
  have hform : e.header = e.sha ++ ([' '] ++ (number e.originalLine.toNat ++ ([' '] ++ (number e.finalLine.toNat ++
      ([' '] ++ number e.numLines.toNat))))) := by
    simp [Entry.header, List.intercalate]
  have hspace : ∀ c ∈ [' '], Str.isLineBreak c = false := unbroken_iff.1 rfl
  have hnumber : ∀ n, ∀ c ∈ number n, Str.isLineBreak c = false := fun n c hc => (digit_plain (number_digit hc)).1
  refine pieces_unbroken ?_
  rw [hform]
  simp only [List.forall_mem_append]
  exact ⟨fun c hc => hex_plain (List.all_eq_true.1 hhex c hc), hspace, hnumber _, hspace, hnumber _, hspace, hnumber _⟩

/-- The details of a commit, where they are printed, make its time known. -/
theorem run_details {e : Entry} {base : State} {log : Str → Commit} {shown : Bool} (hclean : Clean D (log e.sha))
    (hw : Within e base st) (htime : st.time = none)
    (hshown : shown = true → Dict.get st.committedAtBySha e.sha = some ((log e.sha).committerTime.toNat : Int)) :
    ∃ st', ((if shown then [] else (log e.sha).lines).flatMap pieces).foldlM (readLine D) st = some st' ∧
      Within e base st' ∧ TimeKnown st' e.sha (log e.sha).committerTime.toNat := by
  cases shown with
  | true => exact ⟨st, rfl, hw, Or.inr ⟨htime, hshown rfl⟩⟩
  | false =>
    obtain ⟨time, tz, hearly⟩ := run_early (early_pieces hclean) hw.sha
    have hline := @readLine_time D { st with time := time, tz := tz } e.sha (log e.sha) hw.sha
    obtain ⟨st', hlate, htimed⟩ := @run_late_lines D
      { st with time := some ((log e.sha).committerTime.toNat : Int), tz := tz } (log e.sha) e base hclean
      ⟨hw.sha, hw.finalLine, hw.numLines, hw.times, hw.blame⟩ rfl
    refine ⟨st', ?_, htimed.within, Or.inl ⟨htimed.time, htimed.tz⟩⟩
    show ((log e.sha).lines.flatMap pieces).foldlM (readLine D) st = some st'
    rw [Commit.lines, List.flatMap_append, List.flatMap_cons, List.foldlM_append, hearly]
    show List.foldlM (readLine D) _ (pieces (log e.sha).timeLine ++ (log e.sha).late.flatMap pieces) = some st'
    rw [List.foldlM_append, hline]
    exact hlate

/-- **One entry.** Its lines are read, the commit's time is known from then on
and the rest stays as it was. -/
theorem run_entry {e : Entry} {log : Str → Commit} {shown : Bool} (hlen : e.sha.length = 40)
    (hhex : e.sha.all isHexDigit) (hclean : Clean D (log e.sha))
    (hpaths : ∀ line ∈ e.paths, ∀ raw ∈ cut line, Silent D raw)
    (hshown : shown = true → Dict.get st.committedAtBySha e.sha = some ((log e.sha).committerTime.toNat : Int)) :
    ∃ st', ((e.lines log shown).flatMap pieces).foldlM (readLine D) st = some st' ∧ Within e st st' ∧
      Dict.get st'.committedAtBySha e.sha = some ((log e.sha).committerTime.toNat : Int) ∧
      ∀ line, covers e line = true →
        Dict.get st'.blameByLine line = some ⟨e.sha, some ((log e.sha).committerTime.toNat : Int)⟩ := by
  have hsmall : ∀ n : UInt32, n.toNat < 2 ^ 64 := fun n => n.toNat_lt.trans (by decide)
  let opened : State :=
    { st with
      currentSha := some e.sha
      finalLine := e.finalLine.toNat
      numLines := e.numLines.toNat
      time := none
      tz := none }
  have hheader : readLine D st e.header = some opened := by
    simp only [readLine, header_entry D hlen hhex, digitsValue_number D (hsmall _)]
    rfl
  have hopened : Within e st opened := ⟨rfl, rfl, rfl, fun _ _ => rfl, fun _ _ => rfl⟩
  obtain ⟨st', hdetails, hw', hknown⟩ := run_details hclean hopened rfl hshown
  obtain ⟨st'', hrun, hw'', htimes, hblame⟩ := run_paths hpaths hw' hknown hclean.range
  refine ⟨st'', ?_, hw'', htimes, hblame⟩
  rw [Entry.lines, List.flatMap_cons, List.flatMap_append, pieces_header hhex, List.singleton_append, List.foldlM_cons,
    hheader]
  show List.foldlM (readLine D) opened _ = some st''
  rw [List.foldlM_append, hdetails]
  exact hrun

/-! ## A whole blame -/

/-- The last entry of the line. -/
def lastEntry (entries : List Entry) (line : Nat) : Option Entry := entries.reverse.find? (covers · line)

def timeOf (log : Str → Commit) (e : Entry) : Int := (log e.sha).committerTime.toNat

def spanOf (log : Str → Commit) (e : Entry) : Span := ⟨e.sha, some (timeOf log e)⟩

variable (D) in
/-- Every entry is read for what it is. -/
structure Harmless (log : Str → Commit) (entries : List Entry) : Prop where
  names : ∀ e ∈ entries, e.sha.length = 40 ∧ e.sha.all isHexDigit
  commits : ∀ e ∈ entries, Clean D (log e.sha)
  paths : ∀ e ∈ entries, ∀ line ∈ e.paths, ∀ raw ∈ cut line, Silent D raw

variable {log : Str → Commit} {entries : List Entry}

theorem lastEntry_cons (e : Entry) (es : List Entry) (line : Nat) :
    lastEntry (e :: es) line = (lastEntry es line).or (if covers e line then some e else none) := by
  rw [lastEntry, List.reverse_cons, List.find?_append, lastEntry]
  cases hcovers : covers e line <;> simp [hcovers]

/-- The entries are read one after another, with the times of the commits seen
before. -/
theorem run_entries (h : Harmless D log entries) (seen : List Str)
    (hseen : ∀ s ∈ seen, Dict.get st.committedAtBySha s = some ((log s).committerTime.toNat : Int)) :
    ∃ st', ((printedLines log seen entries).flatMap pieces).foldlM (readLine D) st = some st' ∧
      ∀ line, Dict.get st'.blameByLine line =
        ((lastEntry entries line).map (spanOf log)).or (Dict.get st.blameByLine line) := by
  induction entries generalizing seen st with
  | nil => exact ⟨st, rfl, fun _ => rfl⟩
  | cons e es ih =>
    obtain ⟨hname, hnames⟩ := List.forall_mem_cons.1 h.names
    obtain ⟨hclean, hcommits⟩ := List.forall_mem_cons.1 h.commits
    obtain ⟨hpath, hpaths⟩ := List.forall_mem_cons.1 h.paths
    obtain ⟨st', hone, hwithin, htime, hblame⟩ := @run_entry D st e log (decide (e.sha ∈ seen)) hname.1 hname.2
      hclean hpath fun hshown => hseen _ (of_decide_eq_true hshown)
    have hseen' : ∀ s ∈ e.sha :: seen,
        Dict.get st'.committedAtBySha s = some ((log s).committerTime.toNat : Int) := by
      intro s hs
      by_cases hsame : s = e.sha
      · rw [hsame, htime]
      · rw [hwithin.times s hsame]
        exact hseen s ((List.mem_cons.1 hs).resolve_left hsame)
    obtain ⟨st'', hrest, hblame'⟩ := ih ⟨hnames, hcommits, hpaths⟩ (e.sha :: seen) hseen'
    refine ⟨st'', ?_, fun line => ?_⟩
    · rw [printedLines, List.flatMap_append, List.foldlM_append, hone]
      exact hrest
    · rw [hblame', lastEntry_cons]
      cases lastEntry es line with
      | some _ => rfl
      | none =>
        cases hcovers : covers e line with
        | true => exact hblame line hcovers
        | false => exact hwithin.blame line hcovers

theorem blame_read (h : Harmless D log entries) : ∃ blame, collectBlameByLine D (printBlame log entries) = some blame ∧
    ∀ line, Dict.get blame line = (lastEntry entries line).map (spanOf log) := by
  obtain ⟨st, hrun, hblame⟩ := @run_entries D {} log entries h [] fun _ h => absurd h List.not_mem_nil
  refine ⟨st.blameByLine, ?_, fun line => ?_⟩
  · rw [collectBlameByLine, printBlame, splitlines_lines, hrun]
    rfl
  · rw [hblame line]
    cases lastEntry entries line <;> rfl

end

/-! ## Nodes -/

section
variable {α β : Type} [LinearOrder β] {better : α → α → Bool} {f : α → β}
  (hbetter : ∀ x best, better x best = true ↔ f best < f x)
include hbetter

theorem foldl_best (xs : List α) (x : α) :
    xs.foldl (fun best y => if better y best then y else best) x ∈ x :: xs ∧
      ∀ y ∈ x :: xs, f y ≤ f (xs.foldl (fun best y => if better y best then y else best) x) := by
  induction xs generalizing x with
  | nil => simp
  | cons y ys ih =>
    rw [List.foldl_cons]
    obtain ⟨hmem, hle⟩ := ih (if better y x then y else x)
    have hstart := hle _ List.mem_cons_self
    have hboth : f x ≤ f (if better y x then y else x) ∧ f y ≤ f (if better y x then y else x) := by
      split
      · next hlt => exact ⟨((hbetter y x).1 hlt).le, le_rfl⟩
      · next hlt => exact ⟨le_rfl, not_lt.1 fun h => hlt ((hbetter y x).2 h)⟩
    refine ⟨?_, ?_⟩
    · obtain hmem | hmem := List.mem_cons.1 hmem
      · rw [hmem]
        split <;> simp
      · exact List.mem_cons_of_mem x (List.mem_cons_of_mem y hmem)
    · rw [List.forall_mem_cons, List.forall_mem_cons]
      exact ⟨hboth.1.trans hstart, hboth.2.trans hstart, fun z hz => hle z (List.mem_cons_of_mem _ hz)⟩

theorem firstBest_best {xs : List α} (hne : xs ≠ []) :
    ∃ best ∈ xs, firstBest better xs = some best ∧ ∀ y ∈ xs, f y ≤ f best := by
  obtain ⟨x, xs, rfl⟩ := List.exists_cons_of_ne_nil hne
  obtain ⟨hmem, hle⟩ := foldl_best hbetter xs x
  exact ⟨_, hmem, rfl, hle⟩

end

section
variable {log : Str → Commit} {entries : List Entry} {blame : Dict.Items Nat Span} {node : Node}

/-- What is reported of a node: among the entries of its lines, one with the
greatest committer time is the last commit, one with the least the first. -/
structure Reports (log : Str → Commit) (entries : List Entry) (node : Node) (m : NodeTemporalMetadata) : Prop where
  last : ∃ line ∈ node.lines, ∃ e, lastEntry entries line = some e ∧ m.lastChangedCommit = some e.sha ∧
    m.lastChangedAt = some (timeOf log e) ∧
    ∀ line' ∈ node.lines, ∀ e', lastEntry entries line' = some e' → timeOf log e' ≤ timeOf log e
  first : ∃ line ∈ node.lines, ∃ e, lastEntry entries line = some e ∧ m.firstSeenCommit = some e.sha ∧
    ∀ line' ∈ node.lines, ∀ e', lastEntry entries line' = some e' → timeOf log e ≤ timeOf log e'

section
variable (hblame : ∀ line, Dict.get blame line = (lastEntry entries line).map (spanOf log))
include hblame

theorem mem_spans {s : Span} : s ∈ node.spans blame ↔
    ∃ line ∈ node.lines, ∃ e, lastEntry entries line = some e ∧ spanOf log e = s := by
  rw [Node.spans, List.mem_filterMap]
  refine exists_congr fun line => and_congr_right fun _ => ?_
  rw [hblame, Option.map_eq_some_iff]

theorem dated_spans : dated (node.spans blame) = node.spans blame := by
  rw [dated, List.filter_eq_self]
  intro s hs
  obtain ⟨-, -, e, -, rfl⟩ := (mem_spans hblame).1 hs
  rfl

theorem addNode_reports (hne : node.spans blame ≠ []) (metadata : Dict.Items (Str × Str) NodeTemporalMetadata) :
    ∃ m, addNode blame metadata node = Dict.put metadata node.key m ∧ Reports log entries node m := by
  have hle : ∀ e e' : Entry, (spanOf log e).order ≤ (spanOf log e').order → timeOf log e ≤ timeOf log e' := by
    intro e e' h
    exact Prod.Lex.monotone_fst _ _ h
  obtain ⟨newest, hnewest, hfirstNewest, hgreatest⟩ := firstBest_best (f := Span.order)
    (fun x best => decide_eq_true_iff) hne
  obtain ⟨oldest, holdest, hfirstOldest, hleast⟩ := firstBest_best (f := fun s : Span => OrderDual.toDual s.order)
    (fun x best => decide_eq_true_iff) hne
  have hpickNewest : pickNewestSpan (node.spans blame) = some newest := by
    rw [pickNewestSpan, dated_spans hblame]
    exact congrArg (Option.or · _) hfirstNewest
  have hpickOldest : pickOldestSpan (node.spans blame) = some oldest := by
    rw [pickOldestSpan, dated_spans hblame]
    exact congrArg (Option.or · _) hfirstOldest
  obtain ⟨line, hline, e, hentry, rfl⟩ := (mem_spans hblame).1 hnewest
  obtain ⟨line', hline', e', hentry', rfl⟩ := (mem_spans hblame).1 holdest
  have hin : ∀ l ∈ node.lines, ∀ x, lastEntry entries l = some x → spanOf log x ∈ node.spans blame := fun l hl x hx =>
    (mem_spans hblame).2 ⟨l, hl, x, hx, rfl⟩
  refine ⟨⟨some e'.sha, some e.sha, some (timeOf log e)⟩, ?_, ?_, ?_⟩
  · rw [addNode, if_neg hne, hpickNewest, hpickOldest]
    rfl
  · exact ⟨line, hline, e, hentry, rfl, rfl, fun l hl x hx => hle x e (hgreatest _ (hin l hl x hx))⟩
  · exact ⟨line', hline', e', hentry', rfl, fun l hl x hx => hle e' x (hleast _ (hin l hl x hx))⟩

end

/-- The metadata of a node's key is what the last node with it reports. -/
theorem nodes_report (hblame : ∀ line, Dict.get blame line = (lastEntry entries line).map (spanOf log))
    (before after : List Node) (hlines : node.spans blame ≠ [])
    (hlast : ∀ n ∈ after, n.key = node.key → n.spans blame = []) :
    ∃ m, Dict.get ((before ++ node :: after).foldl (addNode blame) []) node.key = some m ∧
      Reports log entries node m := by
  have hkeep : ∀ nodes : List Node, (∀ n ∈ nodes, n.key = node.key → n.spans blame = []) →
      ∀ metadata, Dict.get (nodes.foldl (addNode blame) metadata) node.key = Dict.get metadata node.key := by
    intro nodes
    induction nodes with
    | nil => exact fun _ _ => rfl
    | cons n nodes ih =>
      intro hnodes metadata
      rw [List.foldl_cons, ih fun n' hn' => hnodes n' (List.mem_cons_of_mem n hn')]
      by_cases hspans : n.spans blame = []
      · rw [addNode, if_pos hspans]
      · have hkey : n.key ≠ node.key := fun hkey => hspans (hnodes n List.mem_cons_self hkey)
        rw [addNode, if_neg hspans]
        exact Dict.get_put_ne _ _ hkey
  obtain ⟨m, hadd, hreports⟩ := addNode_reports hblame hlines (before.foldl (addNode blame) [])
  refine ⟨m, ?_, hreports⟩
  rw [List.foldl_append, List.foldl_cons, hadd, hkeep after hlast, Dict.get_put_self]

/-- What is read of a blame: each line has the commit of its last entry with
that commit's time, and a node with a blamed line, the last of its key, the
commits of its lines. -/
structure Exact (D : Decimals) (log : Str → Commit) (entries : List Entry) : Prop where
  lines : ∃ blame, collectBlameByLine D (printBlame log entries) = some blame ∧
    ∀ line, Dict.get blame line = (lastEntry entries line).map (spanOf log)
  nodes : ∀ nodes, ∃ metadata, collectNodeTemporalMetadata D (printBlame log entries) nodes = some metadata ∧
    ∀ before node after, nodes = before ++ node :: after →
      (∃ line ∈ node.lines, (lastEntry entries line).isSome) →
        (∀ n ∈ after, n.key = node.key → ∀ line ∈ n.lines, lastEntry entries line = none) →
          ∃ m, Dict.get metadata node.key = some m ∧ Reports log entries node m

/-- **Blame.** Where no piece behind a cut reads as a field that counts, the
parser reads what git has printed. -/
theorem blame_exact {D : Decimals} {log : Str → Commit} {entries : List Entry} (h : Harmless D log entries) :
    Exact D log entries := by
  obtain ⟨blame, hread, hblame⟩ := blame_read h
  refine ⟨⟨blame, hread, hblame⟩, fun nodes => ?_⟩
  by_cases hnodes : nodes = []
  · refine ⟨[], by rw [collectNodeTemporalMetadata, if_pos hnodes], fun before node after hsplit => ?_⟩
    rw [hnodes] at hsplit
    exact absurd hsplit.symm (by simp)
  · refine ⟨if blame = [] then [] else nodes.foldl (addNode blame) [], ?_,
      fun before node after hsplit hsome hafter => ?_⟩
    · rw [collectNodeTemporalMetadata, if_neg hnodes, hread, Option.map_some]
    · obtain ⟨line, hline, hentry⟩ := hsome
      obtain ⟨e, he⟩ := Option.isSome_iff_exists.1 hentry
      have hspans : node.spans blame ≠ [] := List.ne_nil_of_mem ((mem_spans hblame).2 ⟨line, hline, e, he, rfl⟩)
      have hne : blame ≠ [] := by
        rintro rfl
        have hget := hblame line
        rw [he] at hget
        cases hget
      rw [if_neg hne, hsplit]
      refine nodes_report hblame before after hspans fun n hn hkey => ?_
      rw [List.eq_nil_iff_forall_not_mem]
      intro s hs
      obtain ⟨l, hl, x, hx, -⟩ := (mem_spans hblame).1 hs
      rw [hafter n hn hkey l hl] at hx
      cases hx

end

/-! ## Samples -/

/-- The digits of ASCII. -/
def asciiDecimals : Decimals where
  value := fun c => if c.isDigit then some (c.toNat - '0'.toNat) else none
  ascii := fun _ h => if_pos h

def commitWith (summary : Str) : Commit where
  author := "A U Thor".toList
  authorMail := "<author@example.com>".toList
  authorTime := 1700000000
  authorTz := "+0200".toList
  committer := "C O Mitter".toList
  committerMail := "<committer@example.com>".toList
  committerTime := 1700000060
  committerTz := "+0000".toList
  summary := summary
  boundary := true

def oneLine : Entry where
  sha := List.replicate 40 'a'
  originalLine := 1
  finalLine := 1
  numLines := 1
  previous := none
  filename := "a.py".toList

/-- A summary with a line separator that is harmless. -/
def separated : Commit := commitWith "Fix\u2028see the notes".toList

theorem blame_exact_separated : Exact asciiDecimals (fun _ => separated) [oneLine, oneLine] := by
  have hearly : separated.early.flatMap cut = [] := by decide +kernel
  have hlate : separated.late.flatMap cut = ["see the notes".toList] := by decide +kernel
  have hpaths : oneLine.paths.flatMap cut = [] := by decide +kernel
  refine blame_exact ⟨?_, ?_, ?_⟩
  · decide +kernel
  · refine fun _ _ => ⟨fun line hline raw hraw => ?_, fun line hline raw hraw => ?_, by decide +kernel⟩
    · have hmem := List.mem_flatMap.2 ⟨line, hline, hraw⟩
      rw [hearly] at hmem
      cases hmem
    · have hmem := List.mem_flatMap.2 ⟨line, hline, hraw⟩
      rw [hlate, List.mem_singleton] at hmem
      subst hmem
      exact ⟨by decide +kernel, fun _ h => absurd h (field_ne rfl)⟩
  · intro e he line hline raw hraw
    have hsame : e = oneLine := by simpa using he
    subst hsame
    have hmem := List.mem_flatMap.2 ⟨line, hline, hraw⟩
    rw [hpaths] at hmem
    cases hmem

/-- A summary whose second piece the parser takes for a time that is no
number. -/
def raising : Commit := commitWith "Fix\u2028committer-time soon".toList

/-- A summary whose second piece the parser takes for the commit's time. -/
def shifted : Commit := commitWith "Fix\u2028committer-time 5".toList

theorem summary_misread : collectBlameByLine asciiDecimals (printBlame (fun _ => raising) [oneLine]) = none ∧
    collectBlameByLine asciiDecimals (printBlame (fun _ => shifted) [oneLine]) = some [(1, ⟨oneLine.sha, some 5⟩)] ∧
    ¬Exact asciiDecimals (fun _ => raising) [oneLine] := by
  have hraise : collectBlameByLine asciiDecimals (printBlame (fun _ => raising) [oneLine]) = none := by decide +kernel
  refine ⟨hraise, by decide +kernel, fun h => ?_⟩
  obtain ⟨blame, hread, -⟩ := h.lines
  rw [hraise] at hread
  cases hread

end Cograph.Blame
