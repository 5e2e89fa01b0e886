import Mathlib.Data.List.TakeWhile

/-!
# Fences and code spans of a Markdown text

A text is cut into its fenced blocks, its blank lines and its paragraphs, and a
paragraph at its code spans: the backtick runs are paired from left to right,
each with the next one of its length. What other blocks a paragraph may be,
such as a heading or an item of a list, makes no difference here.
-/

namespace CodeSpans

inductive Piece where
  | fence (w : List Char)
  | span (n : Nat) (body : List Char)
  | other (w : List Char)
  deriving DecidableEq

def ticks (n : Nat) : List Char := List.replicate n '`'

def Piece.text : Piece → List Char
  | fence w => w
  | span n body => ticks n ++ (body ++ ticks n)
  | other w => w

def texts (ps : List Piece) : List Char := ps.flatMap Piece.text

/-! ## Code spans -/

/-- What stands before the next run of `n` backticks, and after it, where `run`
backticks have been read. -/
def closing (n : Nat) : Nat → List Char → Option (List Char × List Char)
  | run, [] => if run = n then some ([], []) else none
  | run, c :: s =>
    if c = '`' then closing n (run + 1) s
    else if run = n then some ([], c :: s)
    else (closing n 0 s).map fun p => (ticks run ++ c :: p.1, p.2)

/-- A paragraph at its code spans, in at most `fuel` pieces before the last. -/
def spans : (fuel : Nat) → List Char → List Piece
  | 0, s => [.other s]
  | _ + 1, [] => []
  | fuel + 1, c :: s =>
    if c = '\\' ∧ (s.head? = some '`' ∨ s.head? = some '\\') then .other (c :: s.take 1) :: spans fuel (s.drop 1)
    else if c = '`' then
      let n := (s.takeWhile (· = '`')).length + 1
      let rest := s.dropWhile (· = '`')
      match closing n 0 rest with
      | some (body, t) => .span n body :: spans fuel t
      | none => .other (ticks n) :: spans fuel rest
    else .other [c] :: spans fuel s

/-! ## Blocks -/

/-- The lines of a text with their ends. -/
def lines : List Char → List (List Char)
  | [] => []
  | c :: s =>
    if c = '\n' ∨ (c = '\r' ∧ s.head? ≠ some '\n') then [c] :: lines s
    else
      match lines s with
      | [] => [[c]]
      | line :: rest => (c :: line) :: rest

def blank (w : List Char) : Bool := w.all fun c => c = ' ' ∨ c = '\t' ∨ c = '\n' ∨ c = '\r'

/-- The character and the length of an opening fence. -/
def openingFence (line : List Char) : Option (Char × Nat) :=
  let rest := line.dropWhile (· = ' ')
  let ticks := (rest.takeWhile (· = '`')).length
  let tildes := (rest.takeWhile (· = '~')).length
  if 3 < (line.takeWhile (· = ' ')).length then none
  else if 3 ≤ ticks ∧ '`' ∉ rest.drop ticks then some ('`', ticks)
  else if 3 ≤ tildes then some ('~', tildes)
  else none

def closesFence (fence : Char × Nat) (line : List Char) : Bool :=
  let rest := line.dropWhile (· = ' ')
  (line.takeWhile (· = ' ')).length ≤ 3 ∧ fence.2 ≤ (rest.takeWhile (· = fence.1)).length ∧
    blank (rest.dropWhile (· = fence.1))

inductive Block where
  | prose (w : List Char)
  | fenced (fence : Char × Nat) (w : List Char)

def Block.text : Block → List Char
  | prose w => w
  | fenced _ w => w

/-- The pieces from the block that is being read on. A fence that is not closed
goes to the end. -/
def blocks : Block → List (List Char) → List Piece
  | .prose w, [] => spans w.length w
  | .fenced _ w, [] => [.fence w]
  | .prose w, line :: rest =>
    match openingFence line with
    | some fence => spans w.length w ++ blocks (.fenced fence line) rest
    | none =>
      if blank line then spans w.length w ++ .other line :: blocks (.prose []) rest
      else blocks (.prose (w ++ line)) rest
  | .fenced fence w, line :: rest =>
    if closesFence fence line then .fence (w ++ line) :: blocks (.prose []) rest
    else blocks (.fenced fence (w ++ line)) rest

def pieces (markdown : List Char) : List Piece := blocks (.prose []) (lines markdown)

/-! ## The pieces are the text -/

@[simp] theorem texts_nil : texts [] = [] := rfl

@[simp] theorem texts_cons (p : Piece) (ps : List Piece) : texts (p :: ps) = p.text ++ texts ps := List.flatMap_cons

@[simp] theorem texts_append (ps qs : List Piece) : texts (ps ++ qs) = texts ps ++ texts qs := List.flatMap_append

theorem ticks_succ (n : Nat) : ticks (n + 1) = '`' :: ticks n := List.replicate_succ

theorem ticks_append (n : Nat) (s : List Char) : ticks n ++ '`' :: s = ticks (n + 1) ++ s := by
  simp [ticks, List.replicate_succ']

theorem closing_text {n run : Nat} {s body t : List Char} (h : closing n run s = some (body, t)) :
    ticks run ++ s = body ++ (ticks n ++ t) := by
  induction s generalizing run body with
  | nil =>
    rw [closing] at h
    split at h
    · next hrun =>
      cases h
      simp [hrun]
    · cases h
  | cons c s ih =>
    rw [closing] at h
    split at h
    · next hc =>
      rw [hc, ticks_append]
      exact ih h
    · split at h
      · next hrun =>
        cases h
        simp [hrun]
      · obtain ⟨p, hp, hbody⟩ := Option.map_eq_some_iff.1 h
        cases hbody
        have hrest : s = p.1 ++ (ticks n ++ p.2) := by simpa [ticks] using ih hp
        rw [hrest]
        simp

theorem takeWhile_ticks (s : List Char) : s.takeWhile (· = '`') = ticks (s.takeWhile (· = '`')).length :=
  List.eq_replicate_iff.2 ⟨rfl, fun c hc => by simpa using List.mem_takeWhile_imp hc⟩

theorem run_text (s : List Char) : '`' :: s = ticks ((s.takeWhile (· = '`')).length + 1) ++ s.dropWhile (· = '`') := by
  rw [ticks_succ, ← takeWhile_ticks, List.cons_append, List.takeWhile_append_dropWhile]

/-- After a whole run of backticks comes another character, if any. -/
theorem run_whole (s : List Char) : (s.dropWhile (· = '`')).head? ≠ some '`' := by
  intro h
  have hnot := List.head?_dropWhile_not (· = '`') s
  rw [h] at hnot
  simp at hnot

theorem spans_text (fuel : Nat) (s : List Char) : texts (spans fuel s) = s := by
  induction fuel generalizing s with
  | zero => simp [spans, Piece.text]
  | succ fuel ih =>
    cases s with
    | nil => rfl
    | cons c s =>
      simp only [spans]
      split
      · simp only [texts_cons, Piece.text, ih, List.cons_append, List.take_append_drop]
      · split
        · next hc =>
          rw [hc, run_text s]
          split
          · next body t h =>
            have hrest := closing_text h
            simp only [texts_cons, Piece.text, ih, List.append_assoc]
            rw [← hrest]
            simp [ticks]
          · simp [Piece.text, ih]
        · simp [Piece.text, ih]

theorem lines_text (s : List Char) : (lines s).flatten = s := by
  induction s with
  | nil => rfl
  | cons c s ih =>
    rw [lines]
    split
    · simp [ih]
    · cases h : lines s with
      | nil =>
        rw [h] at ih
        simp [← ih]
      | cons line rest =>
        rw [h] at ih
        simp [← ih]

theorem blocks_text (block : Block) (ls : List (List Char)) : texts (blocks block ls) = block.text ++ ls.flatten := by
  induction ls generalizing block with
  | nil =>
    cases block with
    | prose w => simp [blocks, spans_text, Block.text]
    | fenced fence w => simp [blocks, Piece.text, Block.text]
  | cons line rest ih =>
    cases block with
    | prose w =>
      rw [blocks]
      cases openingFence line with
      | some fence => simp [spans_text, ih, Block.text]
      | none =>
        show texts (if _ then _ else _) = _
        split
        · simp [spans_text, ih, Block.text, Piece.text]
        · simp [ih, Block.text]
    | fenced fence w =>
      rw [blocks]
      split
      · simp [ih, Block.text, Piece.text]
      · simp [ih, Block.text]

theorem pieces_text (markdown : List Char) : texts (pieces markdown) = markdown := by
  rw [pieces, blocks_text, lines_text]
  rfl

/-! ## Spans of single backticks -/

/-- What a span of single backticks holds: the first backtick in it or after it
is the closing one or stands in a longer run. -/
structure Closed (body : List Char) : Prop where
  head : body.head? ≠ some '`'
  first : ∀ u v, body ++ ['`'] = u ++ '`' :: v → '`' ∉ u → v = [] ∨ v.head? = some '`'

section
variable {s body t : List Char} {run : Nat}

theorem closing_first (h : closing 1 run s = some (body, t)) :
    ∀ u v, body ++ ['`'] = u ++ '`' :: v → '`' ∉ u → v = [] ∨ v.head? = some '`' := by
  induction s generalizing run body with
  | nil =>
    intro u v hv hu
    rw [closing] at h
    split at h
    · cases h
      cases u with
      | nil => exact .inl (by simpa using hv.symm)
      | cons c u => simp at hv
    · cases h
  | cons c s ih =>
    intro u v hv hu
    rw [closing] at h
    split at h
    · exact ih h u v hv hu
    · next hc =>
      split at h
      · cases h
        cases u with
        | nil => exact .inl (by simpa using hv.symm)
        | cons d u => simp at hv
      · next hrun =>
        obtain ⟨p, hp, hbody⟩ := Option.map_eq_some_iff.1 h
        cases hbody
        cases u with
        | nil =>
          -- the run read so far is a longer one
          obtain _ | _ | run := run
          · obtain ⟨rfl, -⟩ : c = '`' ∧ _ := by simpa [ticks] using hv
            exact absurd rfl hc
          · exact absurd rfl hrun
          · right
            simp only [ticks_succ, List.cons_append, List.nil_append, List.cons.injEq, true_and] at hv
            simp [← hv]
        | cons d u =>
          cases run with
          | zero =>
            obtain ⟨rfl, hrest⟩ : c = d ∧ p.1 ++ ['`'] = u ++ '`' :: v := by simpa [ticks] using hv
            exact ih hp u v hrest fun hmem => hu (by simp [hmem])
          | succ run =>
            obtain ⟨rfl, -⟩ : '`' = d ∧ _ := by simpa [ticks_succ] using hv
            simp at hu

theorem closing_closed (hs : s.head? ≠ some '`') (h : closing 1 0 s = some (body, t)) : Closed body := by
  refine ⟨?_, closing_first h⟩
  have htext : s = body ++ (ticks 1 ++ t) := by simpa [ticks] using closing_text h
  cases body with
  | nil => simp
  | cons c body => simpa [htext] using hs

theorem spans_closed (fuel : Nat) (h : .span 1 body ∈ spans fuel s) : Closed body := by
  induction fuel generalizing s with
  | zero => simp [spans] at h
  | succ fuel ih =>
    cases s with
    | nil => simp [spans] at h
    | cons c s =>
      simp only [spans] at h
      split at h
      · exact ih (by simpa using h)
      · split at h
        · split at h
          · next b t hclosing =>
            rcases List.mem_cons.1 h with h | h
            · obtain ⟨hn, rfl⟩ := Piece.span.inj h
              rw [← hn] at hclosing
              exact closing_closed (run_whole s) hclosing
            · exact ih h
          · exact ih (by simpa using h)
        · exact ih (by simpa using h)

theorem blocks_closed {block : Block} {ls : List (List Char)} (h : .span 1 body ∈ blocks block ls) : Closed body := by
  induction ls generalizing block with
  | nil =>
    cases block with
    | prose w => exact spans_closed _ h
    | fenced fence w => simp [blocks] at h
  | cons line rest ih =>
    cases block with
    | prose w =>
      rw [blocks] at h
      cases hfence : openingFence line with
      | some fence =>
        rw [hfence] at h
        rcases List.mem_append.1 h with h | h
        · exact spans_closed _ h
        · exact ih h
      | none =>
        simp only [hfence] at h
        split at h
        · rcases List.mem_append.1 h with h | h
          · exact spans_closed _ h
          · exact ih (by simpa using h)
        · exact ih h
    | fenced fence w =>
      rw [blocks] at h
      split at h
      · exact ih (by simpa using h)
      · exact ih h

theorem pieces_closed {markdown : List Char} (h : .span 1 body ∈ pieces markdown) : Closed body := blocks_closed h

/-- A span of single backticks ends at the next backtick, where that stands alone. -/
theorem Closed.body_eq {v t : List Char} (hbody : Closed body) (hv : '`' ∉ v) (ht : t.head? ≠ some '`') {s : List Char}
    (h : body ++ '`' :: s = v ++ '`' :: t) : body = v ∧ s = t := by
  rcases List.append_eq_append_iff.1 h with ⟨w, hw, hs⟩ | ⟨w, hw, hs⟩
  · cases w with
    | nil => exact ⟨by simpa using hw.symm, by simpa using hs⟩
    | cons c w =>
      obtain ⟨rfl, -⟩ := List.cons.inj hs
      exact absurd (by simp [hw]) hv
  · cases w with
    | nil => exact ⟨by simpa using hw, by simpa using hs.symm⟩
    | cons c w =>
      obtain ⟨rfl, rfl⟩ := List.cons.inj hs
      rcases hbody.first v (w ++ ['`']) (by simp [hw]) hv with hnil | hhead
      · simp at hnil
      · cases w with
        | nil => simp at ht
        | cons d w => exact absurd (by simpa using hhead) ht

end

end CodeSpans
