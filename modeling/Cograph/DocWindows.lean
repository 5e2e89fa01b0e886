import Cograph.Occurrences
import Cograph.RepoDocs

/-!
# The windows of a document's section

`_window_section_text` of `repo_docs/chunker.py`, for every window and overlap
that the constructor takes. A window starts a step after the one before, at
least one word; where the overlap is smaller than the window, the step leaves
just the overlap in common, and else all but one word.
-/

namespace Cograph.DocWindows

open RepoDocs (words)

section
variable {α : Type}

/-- `xs[start:stop]`, with a stop that may count from the end. -/
def slice (xs : List α) (start : Nat) (stop : Int) : List α :=
  (xs.take (if stop < 0 then xs.length + stop else stop).toNat).drop start

/-- The loop over the starts. -/
def windowsFrom (window : Int) (all : List α) : List Nat → List (List α)
  | [] => []
  | start :: starts =>
    let chunk := slice all start (start + window)
    if chunk = [] then []
    else if (all.length : Int) ≤ start + window then [chunk]
    else chunk :: windowsFrom window all starts

/-- `range(0, n, step)`. -/
def range (n step : Nat) : List Nat := List.range' 0 ((n + step - 1) / step) step

def stepOf (maxWords overlapWords : Int) : Nat := (max 1 (maxWords - overlapWords)).toNat

end

def windowSectionText (maxWords overlapWords : Int) (sectionText : Str) : List Str :=
  let all := words sectionText
  if (all.length : Int) ≤ maxWords then [sectionText]
  else (windowsFrom maxWords all (range all.length (stepOf maxWords overlapWords))).map [' '].intercalate

/-! ## Spans -/

/-- Spans of positions from the first to the last of `n`: each reaches beyond
the one before, with `shared` positions in common. -/
structure Tiling (shared n : Nat) (spans : List (Nat × Nat)) : Prop where
  first : spans.head?.map (·.1) = some 0
  last : spans.getLast?.map (·.2) = some n
  steps : spans.IsChain fun a b => a.1 < b.1 ∧ a.2 < b.2 ∧ a.2 = b.1 + shared

section
variable {α : Type} {window step start : Nat} {all : List α}

theorem slice_window (hstart : start < all.length) (hwindow : 1 ≤ window) :
    slice all start (start + window) = (all.take (start + window)).drop start ∧ slice all start (start + window) ≠ [] := by
  have hslice : slice all start (start + window) = (all.take (start + window)).drop start := by
    have hstop : ¬(start + window : Int) < 0 := by omega
    rw [slice, if_neg hstop]
    rfl
  refine ⟨hslice, ?_⟩
  rw [hslice, ← List.length_pos_iff, List.length_drop, List.length_take]
  omega

/-- The windows from a start on, where the starts left reach the end. -/
theorem windowsFrom_spans (hstep : 1 ≤ step) (hle : step ≤ window) {k : Nat} (hstart : start < all.length)
    (hend : all.length ≤ start + k * step) : ∃ spans : List (Nat × Nat), spans.head?.map (·.1) = some start ∧
      spans.getLast?.map (·.2) = some all.length ∧
      spans.IsChain (fun a b => a.1 < b.1 ∧ a.2 < b.2 ∧ a.2 = b.1 + (window - step)) ∧
      (∀ s ∈ spans, s.2 ≤ s.1 + window) ∧
      windowsFrom window all (List.range' start k step) = spans.map fun s => (all.take s.2).drop s.1 := by
  induction k generalizing start with
  | zero => omega
  | succ k ih =>
    obtain ⟨hslice, hne⟩ := slice_window hstart (hstep.trans hle)
    rw [List.range'_succ, windowsFrom]
    simp only [hne, if_false]
    by_cases hlast : all.length ≤ start + window
    · refine ⟨[(start, all.length)], rfl, rfl, .singleton _, by simpa using hlast, ?_⟩
      have hcond : (all.length : Int) ≤ start + window := by omega
      rw [if_pos hcond, hslice, List.take_of_length_le hlast, List.map_singleton, List.take_length]
    · have hcond : ¬(all.length : Int) ≤ start + window := by omega
      have hnext : all.length ≤ start + step + k * step := by
        rw [Nat.succ_mul] at hend
        omega
      obtain ⟨spans, hfirst, hend', hchain, hsize, hmap⟩ := ih (by omega) hnext
      obtain ⟨s, rest, rfl⟩ : ∃ s rest, spans = s :: rest := by
        cases spans with
        | nil => cases hfirst
        | cons s rest => exact ⟨s, rest, rfl⟩
      have hs : s.1 = start + step := Option.some.inj hfirst
      -- the next window ends beyond this one
      have hbeyond : start + window < s.2 := by
        cases rest with
        | nil =>
          have : s.2 = all.length := Option.some.inj hend'
          omega
        | cons t rest =>
          have := (List.isChain_cons_cons.1 hchain).1
          omega
      refine ⟨(start, start + window) :: s :: rest, rfl, hend', ?_, ?_, ?_⟩
      · exact hchain.cons_cons ⟨by omega, hbeyond, by omega⟩
      · exact List.forall_mem_cons.2 ⟨le_rfl, hsize⟩
      · rw [if_neg hcond, hslice, hmap]
        rfl

end

/-! ## Words of a window -/

theorem words_sep (w s : Str) (hw : ∀ c ∈ w, Str.isSpace c = false) (hne : w ≠ []) :
    words (w ++ ' ' :: s) = w :: words s := by
  rw [words, List.splitOnP_append_cons_of_forall_mem hw ' ' (by decide) s, List.filter_cons, if_pos (by simpa using hne)]
  rfl

theorem words_single {w : Str} (hw : ∀ c ∈ w, Str.isSpace c = false) (hne : w ≠ []) : words w = [w] := by
  rw [words, List.splitOnP_eq_singleton hw, List.filter_cons, if_pos (by simpa using hne), List.filter_nil]

/-- Words joined by spaces are read as they were. -/
theorem words_join {ws : List Str} (hws : ∀ w ∈ ws, w ≠ [] ∧ ∀ c ∈ w, Str.isSpace c = false) :
    words ([' '].intercalate ws) = ws := by
  induction ws with
  | nil => rfl
  | cons w ws ih =>
    obtain ⟨hne, hw⟩ := hws w List.mem_cons_self
    cases ws with
    | nil =>
      rw [List.intercalate_singleton]
      exact words_single hw hne
    | cons v ws =>
      rw [List.intercalate_cons_cons, List.append_assoc, List.singleton_append, words_sep w _ hw hne,
        ih fun u hu => hws u (List.mem_cons_of_mem _ hu)]

theorem mem_words {text w : Str} (hw : w ∈ words text) : w ≠ [] ∧ ∀ c ∈ w, Str.isSpace c = false := by
  obtain ⟨hmem, hne⟩ := List.mem_filter.1 hw
  exact ⟨by simpa using hne, Occurs.splitOnP_mem w hmem⟩

theorem stepOf_le {maxWords overlapWords : Int} (hmax : 1 ≤ maxWords) (hover : 0 ≤ overlapWords) :
    1 ≤ stepOf maxWords overlapWords ∧ (stepOf maxWords overlapWords : Int) ≤ maxWords ∧
      maxWords.toNat - stepOf maxWords overlapWords = (min overlapWords (maxWords - 1)).toNat := by
  unfold stepOf
  omega

/-- The starts reach beyond the last word. -/
theorem range_reaches {n step : Nat} (hstep : 1 ≤ step) : n ≤ (n + step - 1) / step * step := by
  have hdiv := Nat.div_add_mod (n + step - 1) step
  have hmod := Nat.mod_lt (n + step - 1) hstep
  rw [Nat.mul_comm] at hdiv
  omega

/-- **The windows tile the words.** Read as words, the windows of a text are
spans of its words from the first to the last, each of them beyond the one
before, with the overlap in common; an overlap as large as the window counts as
all but one word. -/
theorem windows_tile {maxWords overlapWords : Int} (hmax : 1 ≤ maxWords) (hover : 0 ≤ overlapWords) (text : Str) :
    ∃ spans : List (Nat × Nat), Tiling (min overlapWords (maxWords - 1)).toNat (words text).length spans ∧
      (∀ s ∈ spans, (s.2 : Int) ≤ s.1 + maxWords) ∧
      (windowSectionText maxWords overlapWords text).map words =
        spans.map fun s => ((words text).take s.2).drop s.1 := by
  unfold windowSectionText
  dsimp only
  split
  · rename_i hshort
    refine ⟨[(0, (words text).length)], ⟨rfl, rfl, .singleton _⟩, by simpa using hshort, ?_⟩
    rw [List.map_singleton, List.map_singleton, List.take_length, List.drop_zero]
  · rename_i hlong
    obtain ⟨hstep, hle, hshared⟩ := stepOf_le hmax hover
    obtain ⟨window, rfl⟩ := Int.eq_ofNat_of_zero_le (Int.le_trans Int.one_nonneg hmax)
    have hend := range_reaches (n := (words text).length) hstep
    have hstart : 0 < (words text).length := by omega
    obtain ⟨spans, hfirst, hlast, hchain, hsize, hmap⟩ := windowsFrom_spans hstep (Int.ofNat_le.1 hle) hstart
      (by rwa [Nat.zero_add])
    rw [Int.toNat_natCast] at hshared
    rw [hshared] at hchain
    refine ⟨spans, ⟨hfirst, hlast, hchain⟩, fun s hs => by exact_mod_cast hsize s hs, ?_⟩
    have hrange : windowsFrom window (words text) (range (words text).length (stepOf window overlapWords)) =
        spans.map fun s => ((words text).take s.2).drop s.1 := hmap
    rw [hrange, List.map_map, List.map_map]
    apply List.map_congr_left
    intro s _
    exact words_join fun w hw => mem_words (List.mem_of_mem_take (List.mem_of_mem_drop hw))

def fiveWords : Str := "one two three four five".toList

theorem windows_tile_fiveWords : ∃ spans : List (Nat × Nat), Tiling 1 5 spans ∧ (∀ s ∈ spans, (s.2 : Int) ≤ s.1 + 3) ∧
    (windowSectionText 3 1 fiveWords).map words = spans.map fun s => ((words fiveWords).take s.2).drop s.1 := by
  have hwords : (words fiveWords).length = 5 := by decide
  have htile := @windows_tile 3 1 (by decide) (by decide) fiveWords
  rwa [hwords] at htile

/-- An overlap of two words in windows of two is one of a single word. Windows
of no words cover nothing, and a negative overlap leaves words out. -/
theorem overlap_cut_to_window :
    (¬∀ (maxWords overlapWords : Int) (text : Str), ∃ spans : List (Nat × Nat),
      Tiling overlapWords.toNat (words text).length spans ∧
        (windowSectionText maxWords overlapWords text).map words =
          spans.map fun s => ((words text).take s.2).drop s.1) ∧
      windowSectionText 0 0 "a".toList = [] ∧
      windowSectionText 1 (-1) "a b c".toList = [['a'], ['c']] := by
  refine ⟨fun hall => ?_, by decide, by decide⟩
  obtain ⟨spans, htile, hmap⟩ := hall 2 2 "a b c".toList
  have hwindows : (windowSectionText 2 2 "a b c".toList).map words = [[['a'], ['b']], [['b'], ['c']]] := by decide
  have hwords : words "a b c".toList = [['a'], ['b'], ['c']] := by decide
  rw [hwindows, hwords] at hmap
  have hlen := congrArg List.length hmap
  rw [List.length_map] at hlen
  obtain ⟨s, t, rfl⟩ := List.length_eq_two.1 hlen.symm
  have hstep := (List.isChain_cons_cons.1 htile.steps).1
  have hfirst : s.1 = 0 := Option.some.inj htile.first
  have hlast : t.2 = 3 := by
    have := htile.last
    rw [hwords] at this
    exact Option.some.inj this
  have hsecond := congrArg List.length (List.cons.inj (List.cons.inj hmap).2).1
  simp only [List.length_cons, List.length_nil, List.length_drop, List.length_take, hlast] at hsecond
  have hfirstLen := congrArg List.length (List.cons.inj hmap).1
  simp only [List.length_cons, List.length_nil, List.length_drop, List.length_take, hfirst] at hfirstLen
  have : s.2 = t.1 + 2 := hstep.2.2
  omega

/-! ## The windows of the indexer -/

theorem slice_drop {α : Type} (all : List α) (start window : Nat) :
    slice all start (start + window) = (all.drop start).take window := by
  have hstop : ¬(start + window : Int) < 0 := by omega
  rw [slice, if_neg hstop, List.take_drop]
  rfl

theorem repoDocs_windowsFrom (all : List Str) {k start fuel : Nat} (hfuel : all.length ≤ start + fuel)
    (hend : all.length ≤ start + k * 448) : RepoDocs.windows fuel (all.drop start) =
      (windowsFrom 512 all (List.range' start k 448)).map [' '].intercalate := by
  induction k generalizing start fuel with
  | zero =>
    rw [List.drop_eq_nil_of_le (by omega)]
    cases fuel <;> rfl
  | succ k ih =>
    rw [List.range'_succ, windowsFrom, show (512 : Int) = (512 : Nat) from rfl, slice_drop]
    by_cases hdone : all.length ≤ start
    · rw [List.drop_eq_nil_of_le hdone]
      cases fuel <;> rfl
    · obtain ⟨fuel, rfl⟩ : ∃ n, fuel = n + 1 := ⟨fuel - 1, by omega⟩
      have hleft : all.drop start ≠ [] := by
        rw [← List.length_pos_iff, List.length_drop]
        omega
      have hchunk : (all.drop start).take 512 ≠ [] := by
        rw [← List.length_pos_iff, List.length_take, List.length_drop]
        omega
      rw [RepoDocs.windows, if_neg hleft, if_neg hchunk, List.length_drop]
      by_cases hlast : all.length ≤ start + 512
      · have hshort : all.length - start ≤ RepoDocs.maxWords := by
          unfold RepoDocs.maxWords
          omega
        rw [if_pos hshort, if_pos (by omega)]
        rfl
      · have hlong : ¬all.length - start ≤ RepoDocs.maxWords := by
          unfold RepoDocs.maxWords
          omega
        have hnext := @ih (start + 448) fuel (by omega) (by omega)
        rw [if_neg hlong, if_neg (by omega), List.map_cons, List.drop_drop]
        exact congrArg _ hnext

/-- The indexer's chunker has windows of 512 words that share 64. -/
theorem repoDocs_windows (text : Str) :
    RepoDocs.windowSectionText text = windowSectionText RepoDocs.maxWords RepoDocs.overlapWords text := by
  unfold RepoDocs.windowSectionText windowSectionText
  dsimp only
  have hcond : ((words text).length : Int) ≤ RepoDocs.maxWords ↔ (words text).length ≤ RepoDocs.maxWords := by omega
  by_cases hshort : (words text).length ≤ RepoDocs.maxWords
  · rw [if_pos hshort, if_pos (hcond.2 hshort)]
  · rw [if_neg hshort, if_neg (hcond.not.2 hshort)]
    have hend : (words text).length ≤ 0 + ((words text).length + 448 - 1) / 448 * 448 := by
      rw [Nat.zero_add]
      exact range_reaches (by decide)
    exact @repoDocs_windowsFrom (words text) _ 0 _ (by omega) hend

end Cograph.DocWindows
