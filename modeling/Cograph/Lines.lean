import Cograph.Strs

/-!
# Rows and lines of a text

A row of a text ends with a line feed; a line, as `splitlines` has it, with any
line break. In a text whose breaks are all line feeds the two agree, so that a
range of rows reads the stretch of the text they cover.
-/

namespace Str

/-- The rows that end before the end of a text. -/
def feeds (s : Str) : Nat := s.count '\n'

/-- Lines `first` to `last`, counted from zero, without the break of the last. -/
def lineRange (s : Str) (first last : Nat) : Str :=
  List.intercalate ['\n'] (((splitlines s).take (last + 1)).drop first)

/-- A text whose line breaks are all line feeds. -/
def Plain (s : Str) : Prop := ∀ c ∈ s, isLineBreak c = true → c = '\n'

/-- A text with a line feed for each break. -/
def breaksAsFeeds (s : Str) : Str := s.map fun c => if isLineBreak c then '\n' else c

theorem feeds_append (s t : Str) : feeds (s ++ t) = feeds s + feeds t := List.count_append

theorem Plain.left {s t : Str} (h : Plain (s ++ t)) : Plain s := fun c hc => h c (by simp [hc])

theorem Plain.right {s t : Str} (h : Plain (s ++ t)) : Plain t := fun c hc => h c (by simp [hc])

theorem Plain.tail {c : Char} {s : Str} (h : Plain (c :: s)) : Plain s := h.right (s := [c])

theorem Plain.char {c : Char} {s : Str} (h : Plain (c :: s)) (hc : c ≠ '\n') : isLineBreak c = false := by
  by_contra hb
  exact hc (h c (by simp) (by simpa using hb))

theorem plain_breaksAsFeeds (s : Str) : Plain (breaksAsFeeds s) := by
  intro c hc hb
  obtain ⟨d, -, rfl⟩ := List.mem_map.1 hc
  by_cases hd : isLineBreak d
  · simp [hd]
  · simp [hd] at hb

theorem breaksAsFeeds_plain {s : Str} (h : Plain s) : breaksAsFeeds s = s := by
  unfold breaksAsFeeds
  rw [List.map_congr_left (g := id), List.map_id]
  intro c hc
  by_cases hb : isLineBreak c
  · simp [h c hc hb]
  · simp [hb]

/-! ## Splitting -/

theorem splitlines_feed (s : Str) : splitlines ('\n' :: s) = [] :: splitlines s := by
  rw [splitlines]
  · rfl
  · intro t h
    simp at h

theorem splitlines_break {c : Char} (hc : isLineBreak c = true) (hr : c ≠ '\r') (s : Str) :
    splitlines (c :: s) = [] :: splitlines s := by
  rw [splitlines]
  · simp [hc]
  · intro t h
    simp [hr] at h

/-- A character that is no break goes to the front of the first line. -/
theorem splitlines_char {c : Char} (hc : isLineBreak c = false) (s : Str) :
    splitlines (c :: s) = (c :: (splitlines s).headD []) :: (splitlines s).tail := by
  rw [splitlines]
  · rw [hc]
    cases splitlines s <;> rfl
  · intro t h
    rw [h] at hc
    cases hc

theorem splitlines_ne_nil {s : Str} (h : s ≠ []) : splitlines s ≠ [] := by
  fun_cases splitlines s <;> simp_all

theorem splitlines_breaksAsFeeds {s : Str} (h : '\r' ∉ s) : splitlines (breaksAsFeeds s) = splitlines s := by
  induction s with
  | nil => rfl
  | cons c s ih =>
    obtain ⟨hc, hs⟩ := List.ne_and_not_mem_of_not_mem_cons h
    have hs := ih hs
    by_cases hb : isLineBreak c
    · rw [splitlines_break hb (Ne.symm hc), ← hs]
      simpa [breaksAsFeeds, hb] using splitlines_feed _
    · have hb : isLineBreak c = false := by simpa using hb
      rw [splitlines_char hb, ← hs, ← splitlines_char hb]
      simp [breaksAsFeeds, hb]

/-- The lines after so many rows are those of what follows the rows. -/
theorem split_rows {s : Str} (h : Plain s) : ∀ {k : Nat}, k ≤ feeds s →
    ∃ t u, s = t ++ u ∧ feeds t = k ∧ ∀ v, (splitlines (t ++ v)).drop k = splitlines v := by
  induction s with
  | nil =>
    intro k hk
    obtain rfl : k = 0 := by simpa [feeds] using hk
    exact ⟨[], [], rfl, rfl, fun v => rfl⟩
  | cons c s ih =>
    intro k hk
    have hs := h.tail
    cases k with
    | zero => exact ⟨[], c :: s, rfl, rfl, fun v => rfl⟩
    | succ k =>
      by_cases hc : c = '\n'
      · subst hc
        obtain ⟨t, u, rfl, ht, hdrop⟩ := ih hs (k := k) (by simpa [feeds] using hk)
        refine ⟨'\n' :: t, u, rfl, by simpa [feeds] using ht, ?_⟩
        intro v
        rw [List.cons_append, splitlines_feed, List.drop_succ_cons, hdrop]
      · have hb := h.char hc
        obtain ⟨t, u, rfl, ht, hdrop⟩ := ih hs (k := k + 1) (by simpa [feeds, hc] using hk)
        refine ⟨c :: t, u, rfl, by simpa [feeds, hc] using ht, ?_⟩
        intro v
        have hv := hdrop v
        rw [List.cons_append, splitlines_char hb]
        cases hl : splitlines (t ++ v) with
        | nil =>
          rw [hl] at hv
          simpa using hv
        | cons line lines =>
          rw [hl] at hv
          simpa using hv

theorem lineRange_drop {s : Str} {t v : Str} {k : Nat} (hdrop : (splitlines (t ++ v)).drop k = splitlines v)
    (hs : s = t ++ v) {last : Nat} (hk : k ≤ last) : lineRange s k last = lineRange v 0 (last - k) := by
  unfold lineRange
  rw [hs, List.drop_take, hdrop, List.drop_zero, Nat.sub_add_comm hk]

/-! ## What a range reads -/

theorem lineRange_feed (s : Str) (last : Nat) (hs : s ≠ []) :
    lineRange ('\n' :: s) 0 (last + 1) = '\n' :: lineRange s 0 last := by
  unfold lineRange
  rw [splitlines_feed]
  obtain ⟨line, lines, hl⟩ := List.exists_cons_of_ne_nil (splitlines_ne_nil hs)
  simp [hl]

theorem lineRange_char {c : Char} (hc : isLineBreak c = false) (s : Str) (last : Nat) :
    lineRange (c :: s) 0 last = c :: lineRange s 0 last := by
  unfold lineRange
  rw [splitlines_char hc]
  cases hl : splitlines s with
  | nil => simp
  | cons line lines =>
    cases hlines : lines.take last <;> simp [hlines, List.intercalate_cons_cons]

/-- A prefix whose rows the range has is read, but for a feed that ends the text. -/
theorem prefix_lineRange {y v : Str} (hy : Plain y) : ∀ {last : Nat}, feeds y ≤ last →
    (v ≠ [] ∨ y.getLast? ≠ some '\n') → y <+: lineRange (y ++ v) 0 last := by
  induction y with
  | nil => simp
  | cons c y ih =>
    intro last hlast hend
    have hys := hy.tail
    by_cases hc : c = '\n'
    · subst hc
      obtain ⟨last, rfl⟩ : ∃ n, last = n + 1 := ⟨last - 1, by
        simp only [feeds, List.count_cons_self] at hlast
        omega⟩
      have hne : y ++ v ≠ [] := by
        intro hnil
        obtain ⟨rfl, rfl⟩ := List.append_eq_nil_iff.1 hnil
        simp at hend
      rw [List.cons_append, lineRange_feed _ _ hne]
      apply List.cons_prefix_cons.2 ⟨rfl, ih hys (by simpa [feeds] using hlast) _⟩
      refine hend.imp_right fun h => ?_
      cases y with
      | nil => simp
      | cons d y => simpa [List.getLast?_cons_cons] using h
    · have hb := hy.char hc
      rw [List.cons_append, lineRange_char hb]
      apply List.cons_prefix_cons.2 ⟨rfl, ih hys (by simpa [feeds, hc] using hlast) _⟩
      refine hend.imp_right fun h => ?_
      cases y with
      | nil => simp
      | cons d y => simpa [List.getLast?_cons_cons] using h

/-- What a range from the start reads is a prefix of the text within its rows. -/
theorem lineRange_prefix {s : Str} (hs : Plain s) :
    ∀ last, lineRange s 0 last <+: s ∧ feeds (lineRange s 0 last) ≤ last := by
  induction s with
  | nil => simp [lineRange, splitlines, feeds]
  | cons c s ih =>
    intro last
    have ih := ih hs.tail
    by_cases hc : c = '\n'
    · subst hc
      by_cases hnil : s = []
      · subst hnil
        simp [lineRange, splitlines_feed, splitlines, feeds]
      · cases last with
        | zero => simp [lineRange, splitlines_feed, feeds]
        | succ last =>
          obtain ⟨hpre, hle⟩ := ih last
          rw [lineRange_feed _ _ hnil]
          exact ⟨List.cons_prefix_cons.2 ⟨rfl, hpre⟩, by simpa [feeds] using hle⟩
    · have hb := hs.char hc
      obtain ⟨hpre, hle⟩ := ih last
      rw [lineRange_char hb]
      exact ⟨List.cons_prefix_cons.2 ⟨rfl, hpre⟩, by simpa [feeds, hc] using hle⟩

/-- **A range covers its rows.** A stretch of a plain text is read by a range
that starts no later and ends no earlier than its rows. -/
theorem infix_lineRange {u w v : Str} (h : Plain (u ++ w ++ v)) {first last : Nat} (hfirst : first ≤ feeds u)
    (hlast : feeds (u ++ w) ≤ last) (hend : v ≠ [] ∨ w.getLast? ≠ some '\n') (hne : w ≠ []) :
    w <:+: lineRange (u ++ w ++ v) first last := by
  obtain ⟨t, u', rfl, ht, hdrop⟩ := split_rows h.left.left hfirst
  have hrows := feeds_append (t ++ u') w
  have hle : first ≤ last := by
    rw [feeds_append] at hlast
    omega
  have hskip := lineRange_drop (hdrop (u' ++ w ++ v)) rfl hle
  rw [show t ++ u' ++ w ++ v = t ++ (u' ++ w ++ v) by simp, hskip]
  have hpre : u' ++ w <+: lineRange (u' ++ w ++ v) 0 (last - first) := by
    apply prefix_lineRange
    · intro c hc
      exact h c (by simp at hc ⊢; tauto)
    · simp only [feeds_append] at hlast ⊢
      omega
    · refine hend.imp_right fun hw => ?_
      rwa [List.getLast?_append_of_ne_nil _ hne]
  exact (List.suffix_append u' w).isInfix.trans hpre.isInfix

/-- What a range reads stands in the text, within its rows. -/
theorem lineRange_infix {s : Str} (hs : Plain s) {first last : Nat} (hfirst : first ≤ feeds s) (hle : first ≤ last) :
    ∃ u v, s = u ++ lineRange s first last ++ v ∧ feeds (u ++ lineRange s first last) ≤ last := by
  obtain ⟨t, u, rfl, ht, hdrop⟩ := split_rows hs hfirst
  rw [lineRange_drop (hdrop u) rfl hle]
  obtain ⟨⟨v, hv⟩, hrows⟩ := lineRange_prefix hs.right (last - first)
  refine ⟨t, v, by rw [List.append_assoc, hv], ?_⟩
  rw [feeds_append]
  omega

/-- A text has more lines than a stretch of it before its end has feeds. -/
theorem feeds_lt_lines {u v : Str} (h : Plain u) (hv : v ≠ []) : feeds u < (splitlines (u ++ v)).length := by
  obtain ⟨t, w, rfl, ht, hdrop⟩ := split_rows h le_rfl
  have hlines := hdrop (w ++ v)
  rw [← List.append_assoc] at hlines
  by_contra hlt
  rw [List.drop_eq_nil_of_le (by omega)] at hlines
  exact splitlines_ne_nil (by simp [hv]) hlines.symm

theorem lines_le {s : Str} (hs : Plain s) : (splitlines s).length ≤ feeds s + 1 := by
  induction s with
  | nil => simp [splitlines]
  | cons c s ih =>
    have ih := ih hs.tail
    by_cases hc : c = '\n'
    · subst hc
      simpa [splitlines_feed, feeds] using ih
    · have hb := hs.char hc
      rw [splitlines_char hb]
      cases hl : splitlines s with
      | nil => simp
      | cons line lines => simpa [hl, feeds, hc] using ih

end Str
