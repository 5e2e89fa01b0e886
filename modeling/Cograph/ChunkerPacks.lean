import Cograph.Chunker
import Cograph.Cuts

/-!
# How chunks are packed

The lines of a text go through sections and atomic blocks into the chunks
without loss: the chunks put consecutive atomic blocks together, and what the
limits let into one chunk is stated for the sections and for the blocks of a
long section.
-/

namespace Cograph.MdChunks

open Cuts

/-! ## Sizes -/

/-- The length of the lines with a line feed after each. -/
def weight (lines : List Str) : Nat := (lines.map fun l => l.length + 1).sum

@[simp] theorem weight_nil : weight [] = 0 := rfl

@[simp] theorem weight_append (xs ys : List Str) : weight (xs ++ ys) = weight xs + weight ys := by
  simp [weight]

theorem weight_pos {lines : List Str} (h : lines ≠ []) : 0 < weight lines := by
  cases lines with
  | nil => exact absurd rfl h
  | cons a rest =>
    simp only [weight, List.map_cons, List.sum_cons]
    omega

theorem joinLines_cons (a b : Str) (rest : List Str) :
    joinLines (a :: b :: rest) = a ++ '\n' :: joinLines (b :: rest) := by
  simp [joinLines, List.intercalate]

theorem size_succ {lines : List Str} (h : lines ≠ []) : size lines + 1 = weight lines := by
  induction lines with
  | nil => exact absurd rfl h
  | cons a rest ih =>
    cases rest with
    | nil => simp [size, weight, joinLines, List.intercalate]
    | cons b rest =>
      have := ih (by simp)
      unfold size at this ⊢
      rw [joinLines_cons, List.length_append, List.length_cons]
      have hw : weight (a :: b :: rest) = a.length + 1 + weight (b :: rest) := by simp [weight]
      omega

theorem weight_le (lines : List Str) : weight lines ≤ size lines + 1 := by
  by_cases h : lines = []
  · simp [h]
  · rw [size_succ h]

theorem weight_flatten (blocks : List (List Str)) :
    weight blocks.flatten ≤ (blocks.map fun b => size b + 1).sum := by
  induction blocks with
  | nil => simp
  | cons b blocks ih =>
    have := weight_le b
    simp only [List.flatten_cons, weight_append, List.map_cons, List.sum_cons]
    omega

theorem weight_sublist {xs ys : List Str} (h : xs.Sublist ys) : weight xs ≤ weight ys :=
  (h.map _).sum_le_sum (by simp)

/-! ## Sections -/

def Headed (s : Section) : Prop := ∃ line rest, s.lines = line :: rest ∧ (headingMatch line).isSome

section
variable (P : Py)

theorem emit_lines (s : Section) : s.emit.flatMap (·.lines) = s.lines := by
  unfold Section.emit
  by_cases h : s.lines = [] <;> simp [h]

theorem splitFrom_lines (s : Section) (lines : List Str) :
    (splitFrom P s lines).flatMap (·.lines) = s.lines ++ lines := by
  induction lines generalizing s with
  | nil => simp [splitFrom, emit_lines]
  | cons line rest ih =>
    unfold splitFrom
    split
    · simp [ih, emit_lines]
    · simp [ih]

theorem splitFrom_ne_nil (s : Section) (lines : List Str) : ∀ x ∈ splitFrom P s lines, x.lines ≠ [] := by
  have hemit : ∀ s : Section, ∀ x ∈ s.emit, x.lines ≠ [] := by
    intro s x hx
    unfold Section.emit at hx
    by_cases h : s.lines = []
    · simp [h] at hx
    · simp only [h, if_false, List.mem_singleton] at hx
      exact hx ▸ h
  induction lines generalizing s with
  | nil => exact hemit s
  | cons line rest ih =>
    unfold splitFrom
    split
    · intro x hx
      rcases List.mem_append.mp hx with hx | hx
      · exact hemit s x hx
      · exact ih _ x hx
    · exact ih _

theorem splitFrom_headed {s : Section} (hs : Headed s) (lines : List Str) : ∀ x ∈ splitFrom P s lines, Headed x := by
  have hemit : ∀ s : Section, Headed s → ∀ x ∈ s.emit, Headed x := by
    intro s hs x hx
    unfold Section.emit at hx
    split at hx
    · simp at hx
    · exact List.mem_singleton.mp hx ▸ hs
  induction lines generalizing s with
  | nil => exact hemit s hs
  | cons line rest ih =>
    unfold splitFrom
    split
    · next level text hm =>
      intro x hx
      rcases List.mem_append.mp hx with hx | hx
      · exact hemit s hs x hx
      · exact ih ⟨line, [], rfl, by simp [hm]⟩ x hx
    · obtain ⟨l, r, hl, hm⟩ := hs
      exact ih ⟨l, r ++ [line], by simp [hl], hm⟩

theorem splitFrom_tail (s : Section) (lines : List Str) : ∀ x ∈ (splitFrom P s lines).tail, Headed x := by
  have hemit : ∀ s : Section, s.emit = [] ∨ s.emit = [s] := by
    intro s
    unfold Section.emit
    by_cases h : s.lines = [] <;> simp [h]
  induction lines generalizing s with
  | nil =>
    intro x hx
    unfold splitFrom at hx
    rcases hemit s with he | he <;> simp [he] at hx
  | cons line rest ih =>
    unfold splitFrom
    split
    · next level text hm =>
      have hall := splitFrom_headed P
        (s := ⟨[line], updatePath s.path level text, some level, some (makeAnchor P text)⟩) ⟨line, [], rfl, by simp [hm]⟩ rest
      intro x hx
      rcases hemit s with he | he
      · rw [he, List.nil_append] at hx
        exact hall x (List.mem_of_mem_tail hx)
      · rw [he, List.singleton_append, List.tail_cons] at hx
        exact hall x hx
    · exact ih _

theorem splitFrom_heading (s : Section) (xs : List Str) {line : Str} (h : (headingMatch line).isSome) (ys : List Str) :
    ∃ before after, splitFrom P s (xs ++ line :: ys) = before ++ after ∧
      before.flatMap (·.lines) = s.lines ++ xs := by
  induction xs generalizing s with
  | nil =>
    obtain ⟨⟨level, text⟩, hm⟩ := Option.isSome_iff_exists.mp h
    have hnext : splitFrom P s (line :: ys) = s.emit ++
        splitFrom P ⟨[line], updatePath s.path level text, some level, some (makeAnchor P text)⟩ ys := by
      rw [splitFrom, hm]
    exact ⟨s.emit, _, hnext, by simp [emit_lines]⟩
  | cons x xs ih =>
    rw [List.cons_append, splitFrom]
    split
    · next level text _ =>
      obtain ⟨before, after, he, hlines⟩ :=
        ih ⟨[x], updatePath s.path level text, some level, some (makeAnchor P text)⟩
      exact ⟨s.emit ++ before, after, by rw [he, List.append_assoc], by simp [hlines, emit_lines]⟩
    · obtain ⟨before, after, he, hlines⟩ := ih { s with lines := s.lines ++ [x] }
      exact ⟨before, after, he, by simp [hlines]⟩

end

/-! ## Atomic blocks -/

theorem emitBlock_flatten (current : List Str) : (emitBlock current).flatten = current := by
  unfold emitBlock
  by_cases h : current = [] <;> simp [h]

theorem openBlock_flatten (current : List Str) (line : Str) :
    (openBlock current line).1.flatten ++ (openBlock current line).2.2 = current ++ [line] := by
  unfold openBlock
  split_ifs <;> simp [emitBlock_flatten]

theorem blockStep_flatten (mode : Mode) (current : List Str) (line : Str) :
    (blockStep mode current line).1.flatten ++ (blockStep mode current line).2.2 = current ++ [line] := by
  cases mode with
  | text => exact openBlock_flatten current line
  | fence =>
    unfold blockStep
    by_cases h : startsFence line = true <;> simp [h]
  | table =>
    unfold blockStep
    by_cases h : startsTable line = true
    · simp [h]
    · have := openBlock_flatten [] line
      simp only [h, Bool.false_eq_true, if_false, List.flatten_append, emitBlock_flatten, List.append_assoc]
      rw [this, List.nil_append]

theorem groupFrom_flatten (mode : Mode) (current lines : List Str) :
    (groupFrom mode current lines).flatten = current ++ lines := by
  induction lines generalizing mode current with
  | nil => simp [groupFrom, emitBlock_flatten]
  | cons line rest ih =>
    rw [groupFrom, List.flatten_append, ih, ← List.append_assoc, blockStep_flatten, List.append_assoc,
      List.singleton_append]

theorem groupAtomicBlocks_flatten (lines : List Str) : (groupAtomicBlocks lines).flatten = lines := by
  rw [groupAtomicBlocks, groupFrom_flatten, List.nil_append]

theorem emitBlock_ne_nil {current : List Str} : ∀ b ∈ emitBlock current, b ≠ [] := by
  intro b hb
  unfold emitBlock at hb
  by_cases h : current = []
  · simp [h] at hb
  · simp only [h, if_false, List.mem_singleton] at hb
    exact hb ▸ h

theorem openBlock_ne_nil (current : List Str) (line : Str) : ∀ b ∈ (openBlock current line).1, b ≠ [] := by
  intro b hb
  unfold openBlock at hb
  split_ifs at hb
  · exact emitBlock_ne_nil b hb
  · exact emitBlock_ne_nil b hb
  · rcases List.mem_append.mp hb with hb | hb
    · exact emitBlock_ne_nil b hb
    · rw [List.mem_singleton.mp hb]
      simp
  · simp at hb

theorem blockStep_ne_nil (mode : Mode) (current : List Str) (line : Str) :
    ∀ b ∈ (blockStep mode current line).1, b ≠ [] := by
  cases mode with
  | text => exact openBlock_ne_nil current line
  | fence =>
    unfold blockStep
    by_cases h : startsFence line = true <;> simp [h]
  | table =>
    unfold blockStep
    by_cases h : startsTable line = true
    · simp [h]
    · simp only [h, Bool.false_eq_true, if_false]
      intro b hb
      rcases List.mem_append.mp hb with hb | hb
      · exact emitBlock_ne_nil b hb
      · exact openBlock_ne_nil [] line b hb

theorem groupFrom_ne_nil (mode : Mode) (current lines : List Str) : ∀ b ∈ groupFrom mode current lines, b ≠ [] := by
  induction lines generalizing mode current with
  | nil => exact emitBlock_ne_nil
  | cons line rest ih =>
    intro b hb
    rw [groupFrom] at hb
    rcases List.mem_append.mp hb with hb | hb
    · exact blockStep_ne_nil mode current line b hb
    · exact ih _ _ b hb

/-! ## The tail of a packing -/

def linesOf (chunks : List MdChunkDraft) : List (List Str) := chunks.map (·.lines)

@[simp] theorem linesOf_append (cs ds : List MdChunkDraft) : linesOf (cs ++ ds) = linesOf cs ++ linesOf ds :=
  List.map_append

section
variable {L : Limits} {chunks : List MdChunkDraft} {lines : List Str} {chars : Nat} {draft : MdChunkDraft}

theorem closeTail_cases (hd : draft.lines = lines) (hne : lines ≠ []) :
    linesOf (closeTail L chunks lines chars draft) = linesOf chunks ++ [lines] ∨
      ∃ init last, linesOf chunks = init ++ [last] ∧
        linesOf (closeTail L chunks lines chars draft) = init ++ [last ++ lines] := by
  unfold closeTail
  rw [if_neg hne]
  cases hlast : chunks.getLast? with
  | none => exact .inl (by simp [linesOf, hd])
  | some prev =>
    obtain ⟨init, rfl⟩ := List.getLast?_eq_some_iff.mp hlast
    by_cases hmerge : chars < L.minChars ∧ prev.content.length + chars ≤ L.maxChars * 2
    · exact .inr ⟨linesOf init, prev.lines, by simp [linesOf], by simp [hmerge, linesOf]⟩
    · exact .inl (by simp [hmerge, linesOf, hd])

theorem closeTail_coarsens {pieces : List (List Str)} (hd : draft.lines = lines)
    (h : Coarsens (linesOf chunks ++ [lines]) pieces) (hp : ∀ p ∈ pieces, p ≠ []) :
    Coarsens (linesOf (closeTail L chunks lines chars draft)) pieces := by
  by_cases hne : lines = []
  · subst hne
    simpa [closeTail] using h.drop_empty hp
  · rcases @closeTail_cases L chunks lines chars draft hd hne with he | ⟨init, last, hinit, he⟩
    · rwa [he]
    · rw [he]
      rw [hinit, List.append_assoc] at h
      exact h.merge

theorem closeTail_zero (hd : draft.lines = lines) (hmin : L.minChars = 0) :
    linesOf (closeTail L chunks lines chars draft) = linesOf chunks ++ emitBlock lines := by
  unfold closeTail emitBlock
  by_cases hne : lines = []
  · simp [hne]
  · rw [if_neg hne, if_neg hne]
    cases hlast : chunks.getLast? with
    | none => simp [linesOf, hd]
    | some prev => simp [hmin, linesOf, hd]

end

/-! ## Splitting a section -/

/-- What `_split_section` counts for blocks in its buffer. -/
def charsOf (blocks : List (List Str)) : Nat := (blocks.map fun b => size b + 1).sum

/-- Blocks that are one block or that fit the limit. -/
def Fits (L : Limits) (blocks : List (List Str)) : Prop := blocks.length ≤ 1 ∨ charsOf blocks ≤ L.maxChars

/-- The chunks and the buffer hold the blocks that were read, in parts that
fit. -/
structure SplitInv (L : Limits) (done : List (List Str)) (st : Split) (parts : List (List (List Str)))
    (rest : List (List Str)) : Prop where
  read : parts.flatten ++ rest = done
  chunks : linesOf st.chunks = parts.map List.flatten
  buffer : st.buffer = rest.flatten
  chars : st.bufChars = charsOf rest
  parts_fit : ∀ part ∈ parts, Fits L part
  rest_fits : Fits L rest

section
variable {L : Limits} {s : Section} {done : List (List Str)} {st : Split}

theorem flush_inv {parts : List (List (List Str))} {rest : List (List Str)} (h : SplitInv L done st parts rest)
    (hdone : ∀ b ∈ done, b ≠ []) : ∃ parts', SplitInv L done (st.flush s) parts' [] := by
  unfold Split.flush
  by_cases hbuf : st.buffer = []
  · have hrest : rest = [] := by
      by_contra hne
      obtain ⟨b, hb⟩ := List.exists_mem_of_ne_nil rest hne
      have hnil := List.flatten_eq_nil_iff.mp (h.buffer.symm.trans hbuf) b hb
      exact hdone b (by rw [← h.read]; simp [hb]) hnil
    subst hrest
    rw [if_pos hbuf]
    exact ⟨parts, h⟩
  · rw [if_neg hbuf]
    refine ⟨parts ++ [rest], by simpa using h.read, ?_, rfl, rfl, ?_, .inl (by simp)⟩
    · simp [linesOf, sectionDraft, h.buffer, ← h.chunks]
    · intro part hpart
      rcases List.mem_append.mp hpart with hpart | hpart
      · exact h.parts_fit part hpart
      · exact List.mem_singleton.mp hpart ▸ h.rest_fits

theorem add_inv {parts : List (List (List Str))} {rest : List (List Str)} (h : SplitInv L done st parts rest)
    (hdone : ∀ b ∈ done, b ≠ []) (block : List Str) :
    ∃ parts' rest', SplitInv L (done ++ [block]) (st.add L s block) parts' rest' := by
  unfold Split.add
  by_cases hbig : L.maxChars < size block
  · rw [if_pos hbig]
    obtain ⟨parts', h'⟩ := flush_inv (s := s) h hdone
    refine ⟨parts' ++ [[block]], [], ?_, ?_, h'.buffer, h'.chars, ?_, h'.rest_fits⟩
    · have := h'.read
      simp only [List.append_nil] at this
      simp [this]
    · have := h'.chunks
      simp [linesOf, sectionDraft] at this ⊢
      exact this
    · intro part hpart
      rcases List.mem_append.mp hpart with hpart | hpart
      · exact h'.parts_fit part hpart
      · exact .inl (by simp [List.mem_singleton.mp hpart])
  · rw [if_neg hbig]
    by_cases hover : L.maxChars < st.bufChars + size block + 1
    · obtain ⟨parts', h'⟩ := flush_inv (s := s) h hdone
      simp only [hover, if_true]
      refine ⟨parts', [block], ?_, h'.chunks, ?_, ?_, h'.parts_fit, .inl (by simp)⟩
      · have := h'.read
        simp only [List.append_nil] at this
        simp [this]
      · simp [h'.buffer]
      · simp [h'.chars, charsOf]
    · simp only [hover, if_false]
      refine ⟨parts, rest ++ [block], ?_, h.chunks, ?_, ?_, h.parts_fit, .inr ?_⟩
      · rw [← List.append_assoc, h.read]
      · simp [h.buffer]
      · simp [h.chars, charsOf, Nat.add_assoc]
      · have := h.chars
        simp only [charsOf, List.map_append, List.map_cons, List.map_nil, List.sum_append, List.sum_singleton] at this ⊢
        omega

theorem split_inv (s : Section) (blocks : List (List Str)) (hb : ∀ b ∈ blocks, b ≠ []) :
    ∃ parts rest, SplitInv L blocks (blocks.foldl (Split.add L s) ⟨[], [], 0⟩) parts rest := by
  have hrun : ∀ (blocks done : List (List Str)) (st : Split) (parts : List (List (List Str))) (rest : List (List Str)),
      SplitInv L done st parts rest → (∀ b ∈ done ++ blocks, b ≠ []) →
        ∃ parts' rest', SplitInv L (done ++ blocks) (blocks.foldl (Split.add L s) st) parts' rest' := by
    intro blocks
    induction blocks with
    | nil =>
      intro done st parts rest h _
      exact ⟨parts, rest, by simpa using h⟩
    | cons block blocks ih =>
      intro done st parts rest h hne
      obtain ⟨parts', rest', h'⟩ := add_inv (s := s) h (fun b hb => hne b (by simp [hb])) block
      have := ih (done ++ [block]) _ parts' rest' h' (by simpa using hne)
      simpa using this
  have hstart : SplitInv L [] ⟨[], [], 0⟩ [] [] := ⟨rfl, rfl, rfl, rfl, by simp, .inl (by simp)⟩
  simpa using hrun blocks [] _ [] [] hstart (by simpa using hb)

theorem SplitInv.coarsens {parts : List (List (List Str))} {rest : List (List Str)} (h : SplitInv L done st parts rest) :
    Coarsens (linesOf st.chunks ++ [st.buffer]) done :=
  ⟨parts ++ [rest], by simp [← h.read], by simp [h.chunks, h.buffer]⟩

theorem splitSection_coarsens (L : Limits) (s : Section) :
    Coarsens (linesOf (splitSection L s)) (groupAtomicBlocks s.lines) := by
  obtain ⟨parts, rest, h⟩ := split_inv (L := L) s (groupAtomicBlocks s.lines) (groupFrom_ne_nil _ _ _)
  exact closeTail_coarsens rfl h.coarsens (groupFrom_ne_nil _ _ _)

theorem splitSection_fits (hmin : L.minChars = 0) (s : Section) : ∃ parts : List (List (List Str)),
    parts.flatten = groupAtomicBlocks s.lines ∧ linesOf (splitSection L s) = parts.map List.flatten ∧
      ∀ part ∈ parts, Fits L part := by
  obtain ⟨parts, rest, h⟩ := split_inv (L := L) s (groupAtomicBlocks s.lines) (groupFrom_ne_nil _ _ _)
  obtain ⟨parts', h'⟩ := flush_inv (s := s) h (groupFrom_ne_nil _ _ _)
  refine ⟨parts', by simpa using h'.read, ?_, h'.parts_fit⟩
  have hclose : ∀ st : Split, linesOf (closeTail L st.chunks st.buffer st.bufChars (sectionDraft s st.buffer)) =
      linesOf (st.flush s).chunks := by
    intro st
    refine (closeTail_zero (show (sectionDraft s st.buffer).lines = st.buffer from rfl) hmin).trans ?_
    unfold Split.flush emitBlock
    by_cases hbuf : st.buffer = [] <;> simp [hbuf, linesOf, sectionDraft]
  exact (hclose _).trans h'.chunks

end

/-! ## Packing sections -/

/-- Consecutive sections that the packing treats together. -/
inductive Run where
  | small (ss : List Section)
  | big (s : Section)

namespace Run

def sections : Run → List Section
  | .small ss => ss
  | .big s => [s]

def groups (L : Limits) : Run → List (List Str)
  | .small ss => [ss.flatMap (·.lines)]
  | .big s => linesOf (splitSection L s)

@[simp] theorem sections_small (ss : List Section) : (small ss).sections = ss := rfl

@[simp] theorem sections_big (s : Section) : (big s).sections = [s] := rfl

@[simp] theorem groups_small (L : Limits) (ss : List Section) : (small ss).groups L = [ss.flatMap (·.lines)] := rfl

@[simp] theorem groups_big (L : Limits) (s : Section) : (big s).groups L = linesOf (splitSection L s) := rfl

def Light (L : Limits) : Run → Prop
  | .small ss => weight (ss.flatMap (·.lines)) ≤ L.maxChars + 1
  | .big _ => True

end Run

def unitsOf (sections : List Section) : List (List Str) := sections.flatMap fun s => groupAtomicBlocks s.lines

theorem unitsOf_ne_nil (sections : List Section) : ∀ b ∈ unitsOf sections, b ≠ [] := by
  intro b hb
  obtain ⟨s, -, hs⟩ := List.mem_flatMap.mp hb
  exact groupFrom_ne_nil _ _ _ b hs

theorem unitsOf_flatten (sections : List Section) : (unitsOf sections).flatten = sections.flatMap (·.lines) := by
  induction sections with
  | nil => rfl
  | cons s ss ih =>
    unfold unitsOf at ih ⊢
    rw [List.flatMap_cons, List.flatten_append, groupAtomicBlocks_flatten, ih, List.flatMap_cons]

theorem run_coarsens (L : Limits) (run : Run) : Coarsens (run.groups L) (unitsOf run.sections) := by
  cases run with
  | small ss =>
    have := coarsens_one (unitsOf ss)
    rwa [unitsOf_flatten] at this
  | big s =>
    have := splitSection_coarsens L s
    simpa [Run.groups, Run.sections, unitsOf] using this

theorem runs_coarsen (L : Limits) (runs : List Run) :
    Coarsens (runs.flatMap (·.groups L)) (unitsOf (runs.flatMap (·.sections))) := by
  induction runs with
  | nil => exact ⟨[], rfl, rfl⟩
  | cons run runs ih =>
    have := (run_coarsens L run).append ih
    simpa [unitsOf] using this

/-- The chunks are those of runs of sections, and the buffer holds the sections
after them. -/
structure AccInv (L : Limits) (done : List Section) (acc : Acc) (runs : List Run) : Prop where
  read : runs.flatMap (·.sections) ++ acc.pending = done
  chunks : linesOf acc.chunks = runs.flatMap (·.groups L)
  light : ∀ run ∈ runs, run.Light L
  weight : weight acc.buffer ≤ acc.chars
  chars : acc.chars ≤ L.maxChars + 1
  empty : acc.pending = [] → acc.chars = 0

section
variable {L : Limits} {done : List Section} {acc : Acc} {runs : List Run}

theorem buffer_eq_nil {acc : Acc} (hne : ∀ s ∈ acc.pending, s.lines ≠ []) (h : acc.buffer = []) : acc.pending = [] := by
  by_contra hp
  obtain ⟨s, hs⟩ := List.exists_mem_of_ne_nil acc.pending hp
  exact hne s hs (List.flatMap_eq_nil_iff.mp h s hs)

theorem accFlush_inv (h : AccInv L done acc runs) (hdone : ∀ s ∈ done, s.lines ≠ []) :
    ∃ runs', AccInv L done acc.flush runs' ∧ acc.flush.pending = [] := by
  unfold Acc.flush
  by_cases hbuf : acc.buffer = []
  · rw [if_pos hbuf]
    exact ⟨runs, h, buffer_eq_nil (fun s hs => hdone s (by rw [← h.read]; simp [hs])) hbuf⟩
  · rw [if_neg hbuf]
    refine ⟨runs ++ [.small acc.pending], ⟨?_, ?_, ?_, by simp [Acc.buffer], by simp, fun _ => rfl⟩, rfl⟩
    · simpa using h.read
    · rw [List.flatMap_append, ← h.chunks]
      simp [linesOf, Acc.draft, Acc.buffer]
    · intro run hrun
      rcases List.mem_append.mp hrun with hrun | hrun
      · exact h.light run hrun
      · rw [List.mem_singleton.mp hrun]
        exact h.weight.trans h.chars

theorem push_lines (chunks subs : List MdChunkDraft) :
    linesOf (subs.foldl Acc.push chunks) = linesOf chunks ++ linesOf subs := by
  induction subs generalizing chunks with
  | nil => simp [linesOf]
  | cons sub subs ih =>
    rw [List.foldl_cons, ih]
    simp [Acc.push, linesOf]

theorem accAdd_inv (h : AccInv L done acc runs) (hdone : ∀ s ∈ done, s.lines ≠ []) (s : Section) :
    ∃ runs', AccInv L (done ++ [s]) (acc.add L s) runs' := by
  have hlines := weight_le s.lines
  unfold Acc.add
  by_cases hbig : L.maxChars < size s.lines
  · rw [if_pos hbig]
    obtain ⟨runs', h', hpend⟩ := accFlush_inv h hdone
    refine ⟨runs' ++ [.big s], ?_, ?_, ?_, h'.weight, h'.chars, h'.empty⟩
    · have := h'.read
      simp only [hpend, List.append_nil] at this ⊢
      simp [this]
    · simp [push_lines, h'.chunks]
    · intro run hrun
      rcases List.mem_append.mp hrun with hrun | hrun
      · exact h'.light run hrun
      · rw [List.mem_singleton.mp hrun]
        trivial
  · rw [if_neg hbig]
    by_cases hover : L.maxChars < acc.chars + size s.lines
    · obtain ⟨runs', h', hpend⟩ := accFlush_inv h hdone
      have hzero := h'.empty hpend
      have hread := h'.read
      rw [hpend, List.append_nil] at hread
      simp only [hover, if_true]
      refine ⟨runs', by simp [hpend, hread], h'.chunks, h'.light, ?_, ?_, by simp⟩
      · simpa [Acc.buffer, hpend, hzero] using hlines
      · dsimp only
        omega
    · simp only [hover, if_false]
      refine ⟨runs, ?_, h.chunks, h.light, ?_, ?_, by simp⟩
      · rw [← List.append_assoc, h.read]
      · have := h.weight
        simp only [Acc.buffer, List.flatMap_append, weight_append, List.flatMap_cons, List.flatMap_nil,
          List.append_nil] at this ⊢
        omega
      · dsimp only
        omega

theorem AccInv.coarsens (h : AccInv L done acc runs) :
    Coarsens (linesOf acc.chunks ++ [acc.buffer]) (unitsOf done) := by
  have hbuf : Coarsens [acc.buffer] (unitsOf acc.pending) := by
    have := coarsens_one (unitsOf acc.pending)
    rwa [unitsOf_flatten] at this
  have hread : unitsOf (runs.flatMap (·.sections)) ++ unitsOf acc.pending = unitsOf done := by
    rw [← h.read]
    simp [unitsOf]
  have hall := (runs_coarsen L runs).append hbuf
  rwa [← h.chunks, hread] at hall

theorem acc_inv (L : Limits) (sections : List Section) (hne : ∀ s ∈ sections, s.lines ≠ []) :
    ∃ runs, AccInv L sections (sections.foldl (Acc.add L) ⟨[], [], 0⟩) runs := by
  have hrun : ∀ (sections done : List Section) (acc : Acc) (runs : List Run), AccInv L done acc runs →
      (∀ s ∈ done ++ sections, s.lines ≠ []) →
        ∃ runs', AccInv L (done ++ sections) (sections.foldl (Acc.add L) acc) runs' := by
    intro sections
    induction sections with
    | nil =>
      intro done acc runs h _
      exact ⟨runs, by simpa using h⟩
    | cons s sections ih =>
      intro done acc runs h hne
      obtain ⟨runs', h'⟩ := accAdd_inv h (fun x hx => hne x (by simp [hx])) s
      have := ih (done ++ [s]) _ runs' h' (by simpa using hne)
      simpa using this
  have hstart : AccInv L [] ⟨[], [], 0⟩ [] := ⟨rfl, rfl, by simp, by simp [Acc.buffer], by simp, fun _ => rfl⟩
  simpa using hrun sections [] _ [] hstart (by simpa using hne)

end

section
variable (P : Py) (L : Limits) (text : Str)

def sectionsOf : List Section := splitByHeadings P (Str.splitlines text)

theorem sectionsOf_lines : (sectionsOf P text).flatMap (·.lines) = Str.splitlines text := by
  unfold sectionsOf splitByHeadings
  rw [splitFrom_lines, List.nil_append]

def units : List (List Str) := unitsOf (sectionsOf P text)

theorem units_flatten : (units P text).flatten = Str.splitlines text := by
  unfold units
  rw [unitsOf_flatten, sectionsOf_lines]

theorem allChunks_coarsen : Coarsens (linesOf (allChunks P L text)) (units P text) := by
  obtain ⟨runs, h⟩ := acc_inv L (sectionsOf P text) (splitFrom_ne_nil P _ _)
  exact closeTail_coarsens rfl h.coarsens (unitsOf_ne_nil _)

theorem allChunks_flatten : (linesOf (allChunks P L text)).flatten = Str.splitlines text := by
  rw [(allChunks_coarsen P L text).flatten, units_flatten]

theorem allChunks_runs (hmin : L.minChars = 0) : ∃ runs : List Run, runs.flatMap (·.sections) = sectionsOf P text ∧
    linesOf (allChunks P L text) = runs.flatMap (·.groups L) ∧ ∀ run ∈ runs, run.Light L := by
  obtain ⟨runs, h⟩ := acc_inv L (sectionsOf P text) (splitFrom_ne_nil P _ _)
  obtain ⟨runs', h', hpend⟩ := accFlush_inv h (splitFrom_ne_nil P _ _)
  refine ⟨runs', by simpa [hpend] using h'.read, ?_, h'.light⟩
  have hclose : ∀ acc : Acc, linesOf (closeTail L acc.chunks acc.buffer acc.chars acc.draft) =
      linesOf acc.flush.chunks := by
    intro acc
    refine (closeTail_zero (show acc.draft.lines = acc.buffer from rfl) hmin).trans ?_
    unfold Acc.flush emitBlock
    by_cases hbuf : acc.buffer = [] <;> simp [hbuf, linesOf, Acc.draft]
  exact (hclose _).trans h'.chunks

end

/-! ## What a chunk shows -/

/-- The characters that are not white space. -/
def dark (s : Str) : Str := s.filter fun c => !Str.isSpace c

theorem dark_lstrip (s : Str) : dark (Str.lstrip s) = dark s := by
  induction s with
  | nil => rfl
  | cons c s ih =>
    unfold Str.lstrip dark at *
    by_cases h : Str.isSpace c = true <;> simp [h, ih]

theorem dark_strip (s : Str) : dark (Str.strip s) = dark s := by
  have hrstrip : ∀ s, dark (Str.rstrip s) = dark s := by
    intro s
    have := dark_lstrip s.reverse
    unfold dark Str.lstrip Str.rstrip at *
    rw [List.filter_reverse, this, List.filter_reverse, List.reverse_reverse]
  unfold Str.strip
  rw [hrstrip, dark_lstrip]

theorem dark_append (s t : Str) : dark (s ++ t) = dark s ++ dark t := List.filter_append ..

theorem dark_feed (s : Str) : dark ('\n' :: s) = dark s := by simp [dark, Str.isSpace]

/-- What is read of a text piece by piece, whatever white space is around it. -/
structure Reading {β : Type} (f : Str → List β) : Prop where
  empty : f [] = []
  strip : ∀ s, f (Str.strip s) = f s
  feed : ∀ s t, f (s ++ '\n' :: t) = f s ++ f t

theorem dark_reading : Reading dark where
  empty := rfl
  strip := dark_strip
  feed s t := by rw [dark_append, dark_feed]

section
variable {β : Type} {f : Str → List β} (hf : Reading f)
include hf

theorem Reading.joinLines (lines : List Str) : f (joinLines lines) = lines.flatMap f := by
  induction lines with
  | nil => exact hf.empty
  | cons a rest ih =>
    cases rest with
    | nil => simp [MdChunks.joinLines, List.intercalate]
    | cons b rest =>
      rw [joinLines_cons, hf.feed, ih]
      rfl

end

/-- The content is the lines, white space aside. -/
def Shows (c : MdChunkDraft) : Prop := dark c.content = c.lines.flatMap dark

/-- The content reads as the lines do. -/
def ReadsAs {β : Type} (f : Str → List β) (c : MdChunkDraft) : Prop := f c.content = c.lines.flatMap f

section
variable {β : Type} {f : Str → List β}

theorem readsAs_snoc {chunks : List MdChunkDraft} {draft : MdChunkDraft} (h : ∀ c ∈ chunks, ReadsAs f c)
    (hd : ReadsAs f draft) : ∀ c ∈ chunks ++ [draft], ReadsAs f c := by
  intro c hc
  rcases List.mem_append.mp hc with hc | hc
  · exact h c hc
  · exact List.mem_singleton.mp hc ▸ hd

variable (hf : Reading f)
include hf

theorem closeTail_readsAs {L : Limits} {chunks : List MdChunkDraft} {lines : List Str} {chars : Nat}
    {draft : MdChunkDraft} (h : ∀ c ∈ chunks, ReadsAs f c) (hd : ReadsAs f draft) :
    ∀ c ∈ closeTail L chunks lines chars draft, ReadsAs f c := by
  unfold closeTail
  split
  · exact h
  · split
    · exact readsAs_snoc h hd
    · next prev hlast =>
      split
      · have hprev : ReadsAs f prev := h prev (List.mem_of_getLast? hlast)
        have htail : f (Str.strip (joinLines lines)) = lines.flatMap f := by rw [hf.strip, hf.joinLines]
        refine readsAs_snoc (fun c hc => h c (List.mem_of_mem_dropLast hc)) ?_
        unfold ReadsAs at hprev ⊢
        dsimp only
        rw [List.flatMap_append, ← hprev, ← htail]
        split
        · next hnil => rw [hnil, hf.empty, List.append_nil]
        · rw [hf.strip, hf.feed]
      · exact readsAs_snoc h hd

theorem sectionDraft_readsAs (s : Section) (lines : List Str) : ReadsAs f (sectionDraft s lines) := by
  unfold ReadsAs sectionDraft
  rw [hf.strip, hf.joinLines]

theorem split_readsAs {L : Limits} {s : Section} {st : Split} (h : ∀ c ∈ st.chunks, ReadsAs f c) (block : List Str) :
    ∀ c ∈ (st.add L s block).chunks, ReadsAs f c := by
  have hflush : ∀ c ∈ (st.flush s).chunks, ReadsAs f c := by
    unfold Split.flush
    split
    · exact h
    · exact readsAs_snoc h (sectionDraft_readsAs hf s _)
  unfold Split.add
  split
  · exact readsAs_snoc hflush (sectionDraft_readsAs hf s block)
  · dsimp only
    split
    · exact hflush
    · exact h

theorem splitSection_readsAs (L : Limits) (s : Section) : ∀ c ∈ splitSection L s, ReadsAs f c := by
  have hstart : ∀ c ∈ (⟨[], [], 0⟩ : Split).chunks, ReadsAs f c := by simp
  exact closeTail_readsAs hf (List.foldlRecOn (motive := fun st => ∀ c ∈ st.chunks, ReadsAs f c) _ (Split.add L s) hstart
    fun _ h block _ => split_readsAs hf h block) (sectionDraft_readsAs hf s _)

theorem draft_readsAs (acc : Acc) : ReadsAs f acc.draft := by
  unfold ReadsAs Acc.draft
  dsimp only
  rw [hf.strip, hf.joinLines]

omit hf in
theorem push_readsAs {chunks subs : List MdChunkDraft} (h : ∀ c ∈ chunks, ReadsAs f c)
    (hs : ∀ c ∈ subs, ReadsAs f c) : ∀ c ∈ subs.foldl Acc.push chunks, ReadsAs f c := by
  exact List.foldlRecOn (motive := fun cs => ∀ c ∈ cs, ReadsAs f c) subs Acc.push h
    fun cs hcs sub hsub => readsAs_snoc hcs (hs sub hsub)

theorem add_readsAs {L : Limits} {acc : Acc} (h : ∀ c ∈ acc.chunks, ReadsAs f c) (s : Section) :
    ∀ c ∈ (acc.add L s).chunks, ReadsAs f c := by
  have hflush : ∀ c ∈ acc.flush.chunks, ReadsAs f c := by
    unfold Acc.flush
    split
    · exact h
    · exact readsAs_snoc h (draft_readsAs hf acc)
  unfold Acc.add
  split
  · exact push_readsAs hflush (splitSection_readsAs hf L s)
  · dsimp only
    split
    · exact hflush
    · exact h

theorem chunk_readsAs (P : Py) (L : Limits) (text : Str) : ∀ c ∈ chunk P L text, ReadsAs f c := by
  have hstart : ∀ c ∈ (⟨[], [], 0⟩ : Acc).chunks, ReadsAs f c := by simp
  have hall : ∀ c ∈ allChunks P L text, ReadsAs f c :=
    closeTail_readsAs hf (List.foldlRecOn (motive := fun acc => ∀ c ∈ acc.chunks, ReadsAs f c) _ (Acc.add L) hstart
      fun _ h s _ => add_readsAs hf h s) (draft_readsAs hf _)
  exact fun c hc => hall c (List.mem_of_mem_take hc)

end

/-- **Chunks show their lines.** -/
theorem chunk_shows (P : Py) (L : Limits) (text : Str) : ∀ c ∈ chunk P L text, Shows c :=
  chunk_readsAs dark_reading P L text

end Cograph.MdChunks
