import Cograph.Lines

/-!
# The lines of a text that are not blank

The lines of a text without the white space around them, the blank ones left
out. White space around the text and the kind of its line breaks do not matter
to them, and they are read piece by piece where pieces are joined by a line
feed.
-/

namespace Str

def nonBlank (lines : List Str) : List Str := (lines.map strip).filter (· ≠ [])

def nonBlankLines (s : Str) : List Str := nonBlank (splitlines s)

@[simp] theorem nonBlank_nil : nonBlank [] = [] := rfl

theorem nonBlank_append (xs ys : List Str) : nonBlank (xs ++ ys) = nonBlank xs ++ nonBlank ys := by
  rw [nonBlank, List.map_append, List.filter_append]
  rfl

theorem nonBlank_cons (x : Str) (xs : List Str) : nonBlank (x :: xs) = nonBlank [x] ++ nonBlank xs :=
  nonBlank_append [x] xs

@[simp] theorem nonBlank_empty : nonBlank [[]] = [] := by
  simp [nonBlank, strip, lstrip, rstrip]

theorem nonBlank_congr {x y : Str} (h : strip x = strip y) : nonBlank [x] = nonBlank [y] := by
  simp [nonBlank, h]

/-! ## Lines as pieces between breaks -/

theorem pieces_char {c : Char} (hc : isLineBreak c = false) (s : Str) :
    (c :: s).splitOnP isLineBreak =
      (c :: (s.splitOnP isLineBreak).headD []) :: (s.splitOnP isLineBreak).tail := by
  obtain ⟨p, ps, hp⟩ := List.exists_cons_of_ne_nil (List.splitOnP_ne_nil isLineBreak s)
  rw [List.splitOnP_cons_eq_if_modifyHead, hc, if_neg Bool.false_ne_true, hp]
  rfl

theorem pieces_break {c : Char} (hc : isLineBreak c = true) (s : Str) :
    (c :: s).splitOnP isLineBreak = [] :: s.splitOnP isLineBreak := by
  rw [List.splitOnP_cons_eq_if_modifyHead, if_pos hc]

theorem nonBlank_headD {xs ys : List Str} (hhead : xs.headD [] = ys.headD [])
    (htail : nonBlank xs.tail = nonBlank ys.tail) : nonBlank xs = nonBlank ys := by
  have hall : ∀ xs : List Str, nonBlank xs = nonBlank [xs.headD []] ++ nonBlank xs.tail := by
    intro xs
    cases xs with
    | nil => simp
    | cons x xs => exact nonBlank_cons x xs
  rw [hall xs, hall ys, hhead, htail]

/-- Lines and the pieces between the break characters differ in blank ones. -/
theorem splitlines_pieces (s : Str) : (splitlines s).headD [] = (s.splitOnP isLineBreak).headD [] ∧
    nonBlank (splitlines s).tail = nonBlank (s.splitOnP isLineBreak).tail := by
  have hplain : ∀ (c : Char) (s : Str), isLineBreak c = false →
      (splitlines s).headD [] = (s.splitOnP isLineBreak).headD [] ∧
        nonBlank (splitlines s).tail = nonBlank (s.splitOnP isLineBreak).tail →
      (splitlines (c :: s)).headD [] = ((c :: s).splitOnP isLineBreak).headD [] ∧
        nonBlank (splitlines (c :: s)).tail = nonBlank ((c :: s).splitOnP isLineBreak).tail := by
    intro c s hc ih
    rw [splitlines_char hc, pieces_char hc]
    exact ⟨congrArg (c :: ·) ih.1, ih.2⟩
  induction s using splitlines.induct with
  | case1 => simp [splitlines]
  | case2 s ih =>
    rw [splitlines, pieces_break (by decide), pieces_break (by decide)]
    refine ⟨rfl, ?_⟩
    rw [List.tail_cons, List.tail_cons, nonBlank_cons [], nonBlank_empty, List.nil_append]
    exact nonBlank_headD ih.1 ih.2
  | case3 c s hr hc ih =>
    rw [splitlines.eq_3 c s hr, if_pos hc, pieces_break hc]
    exact ⟨rfl, nonBlank_headD ih.1 ih.2⟩
  | case4 c s hr hc hnil ih => exact hplain c s (by simpa using hc) ih
  | case5 c s hr hc l ls hl ih => exact hplain c s (by simpa using hc) ih

theorem nonBlankLines_pieces (s : Str) : nonBlankLines s = nonBlank (s.splitOnP isLineBreak) :=
  nonBlank_headD (splitlines_pieces s).1 (splitlines_pieces s).2

/-! ## White space around a text -/

theorem strip_cons {c : Char} (hc : isSpace c = true) (s : Str) : strip (c :: s) = strip s := by
  simp [strip, lstrip, hc]

theorem strip_concat {c : Char} (hc : isSpace c = true) (s : Str) : strip (s ++ [c]) = strip s := by
  have hr : ∀ s : Str, rstrip (s ++ [c]) = rstrip s := by
    intro s
    simp [rstrip, hc]
  induction s with
  | nil => simp [strip, lstrip, rstrip, hc]
  | cons d s ih =>
    rw [List.cons_append]
    by_cases hd : isSpace d = true
    · rw [strip_cons hd, strip_cons hd, ih]
    · have hl : ∀ t : Str, lstrip (d :: t) = d :: t := fun t => by simp [lstrip, hd]
      rw [strip, strip, hl, hl, ← List.cons_append, hr]

theorem nonBlankLines_cons {c : Char} (hc : isSpace c = true) (s : Str) : nonBlankLines (c :: s) = nonBlankLines s := by
  rw [nonBlankLines_pieces, nonBlankLines_pieces]
  by_cases hb : isLineBreak c = true
  · rw [pieces_break hb, nonBlank_cons, nonBlank_empty, List.nil_append]
  · rw [pieces_char (by simpa using hb)]
    obtain ⟨p, ps, hp⟩ := List.exists_cons_of_ne_nil (List.splitOnP_ne_nil isLineBreak s)
    rw [hp, List.headD_cons, List.tail_cons, nonBlank_cons, nonBlank_cons p, nonBlank_congr (strip_cons hc p)]

/-- A character that is no break goes to the end of the last piece. -/
theorem pieces_concat {c : Char} (hc : isLineBreak c = false) (s : Str) : ∃ init last,
    s.splitOnP isLineBreak = init ++ [last] ∧ (s ++ [c]).splitOnP isLineBreak = init ++ [last ++ [c]] := by
  induction s with
  | nil => exact ⟨[], [], by simp, by rw [List.nil_append, pieces_char hc]; simp⟩
  | cons d s ih =>
    obtain ⟨init, last, hs, hsc⟩ := ih
    by_cases hd : isLineBreak d = true
    · exact ⟨[] :: init, last, by rw [pieces_break hd, hs]; rfl, by rw [List.cons_append, pieces_break hd, hsc]; rfl⟩
    · have hd : isLineBreak d = false := by simpa using hd
      rw [List.cons_append, pieces_char hd, pieces_char hd, hs, hsc]
      cases init with
      | nil => exact ⟨[], d :: last, rfl, rfl⟩
      | cons i init => exact ⟨(d :: i) :: init, last, rfl, rfl⟩

theorem nonBlankLines_concat {c : Char} (hc : isSpace c = true) (s : Str) :
    nonBlankLines (s ++ [c]) = nonBlankLines s := by
  rw [nonBlankLines_pieces, nonBlankLines_pieces]
  by_cases hb : isLineBreak c = true
  · rw [List.splitOnP_append_cons s [] hb, nonBlank_append]
    simp
  · obtain ⟨init, last, hs, hsc⟩ := pieces_concat (by simpa using hb) s
    rw [hs, hsc, nonBlank_append, nonBlank_append, nonBlank_congr (strip_concat hc last)]

theorem nonBlankLines_strip (s : Str) : nonBlankLines (strip s) = nonBlankLines s := by
  have hl : ∀ s, nonBlankLines (lstrip s) = nonBlankLines s := by
    intro s
    induction s with
    | nil => rfl
    | cons c s ih =>
      by_cases hc : isSpace c = true
      · rw [nonBlankLines_cons hc, ← ih, lstrip, List.dropWhile_cons_of_pos hc]
        rfl
      · rw [lstrip, List.dropWhile_cons_of_neg hc]
  have hr : ∀ s, nonBlankLines (rstrip s) = nonBlankLines s := by
    intro s
    induction s using List.reverseRecOn with
    | nil => rfl
    | append_singleton s c ih =>
      by_cases hc : isSpace c = true
      · rw [nonBlankLines_concat hc, ← ih]
        simp [rstrip, hc]
      · simp [rstrip, hc]
  rw [strip, hr, hl]

/-! ## Joined texts -/

theorem nonBlankLines_feed (s t : Str) : nonBlankLines (s ++ '\n' :: t) = nonBlankLines s ++ nonBlankLines t := by
  have hn : isLineBreak '\n' = true := by decide
  rw [nonBlankLines_pieces, nonBlankLines_pieces, nonBlankLines_pieces, List.splitOnP_append_cons s t hn,
    nonBlank_append]

theorem splitlines_line {s : Str} (h : ∀ c ∈ s, isLineBreak c = false) (hne : s ≠ []) : splitlines s = [s] := by
  induction s with
  | nil => exact absurd rfl hne
  | cons c s ih =>
    rw [splitlines_char (h c (by simp))]
    by_cases hs : s = []
    · rw [hs]
      rfl
    · rw [ih (fun d hd => h d (List.mem_cons_of_mem _ hd)) hs]
      rfl

theorem nonBlankLines_line {s : Str} (h : ∀ c ∈ s, isLineBreak c = false) : nonBlankLines s = nonBlank [s] := by
  by_cases hne : s = []
  · simp [hne, nonBlankLines, splitlines]
  · rw [nonBlankLines, splitlines_line h hne]

theorem mem_splitlines {s l : Str} (h : l ∈ splitlines s) : ∀ c ∈ l, isLineBreak c = false := by
  induction s using splitlines.induct generalizing l with
  | case1 => simp [splitlines] at h
  | case2 s ih =>
    rw [splitlines, List.mem_cons] at h
    rcases h with rfl | h
    · simp
    · exact ih h
  | case3 c s hr hc ih =>
    rw [splitlines.eq_3 c s hr, if_pos hc, List.mem_cons] at h
    rcases h with rfl | h
    · simp
    · exact ih h
  | case4 c s hr hc hnil ih =>
    rw [splitlines_char (by simpa using hc), hnil, List.mem_cons] at h
    rcases h with rfl | h
    · simpa using hc
    · simp at h
  | case5 c s hr hc l' ls hl ih =>
    rw [splitlines_char (by simpa using hc), hl, List.mem_cons] at h
    rcases h with rfl | h
    · intro d hd
      rcases List.mem_cons.1 hd with rfl | hd
      · simpa using hc
      · exact ih (by rw [hl]; simp) d hd
    · exact ih (by rw [hl]; exact List.mem_cons_of_mem _ h)

/-- The lines read one by one. -/
theorem splitlines_nonBlank (s : Str) : (splitlines s).flatMap nonBlankLines = nonBlankLines s := by
  have hall : ∀ ls : List Str, (∀ l ∈ ls, ∀ c ∈ l, isLineBreak c = false) →
      ls.flatMap nonBlankLines = nonBlank ls := by
    intro ls h
    induction ls with
    | nil => rfl
    | cons l ls ih =>
      rw [List.flatMap_cons, nonBlankLines_line (h l (by simp)), ih fun x hx => h x (List.mem_cons_of_mem _ hx),
        nonBlank_cons l ls]
  exact hall _ fun l hl => mem_splitlines hl

end Str
