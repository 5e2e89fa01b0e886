import Cograph.Lines

/-!
# Reading the lines of a node

`read_file_range` of `mcp/tools/read_file_range.py`, and the nodes whose lines
it is asked for: `graph/extractor.py` numbers the rows of the parser, which end
with a line feed, over the text `ingest.py` reads and the builder stores.
-/

namespace Cograph.Ranges

/-- `Path.read_text`, whose line ends are all line feeds. -/
def readText : Str → Str
  | [] => []
  | '\r' :: '\n' :: s => '\n' :: readText s
  | c :: s => (if c = '\r' then '\n' else c) :: readText s

/-- A row of `source_files`; its text is `none` where the bytes are no UTF-8. -/
structure SourceFile where
  filePath : Str
  text : Option Str

/-- What the builder stores of a file of some content. -/
def stored (filePath content : Str) : SourceFile := ⟨filePath, some (readText content)⟩

/-! ## Nodes -/

/-- The stretch of a text that a node of the parse covers, the whole text for
the module. -/
structure Span (text : Str) where
  before : Str
  covered : Str
  after : Str
  whole : text = before ++ covered ++ after

structure ExtractedNode where
  startLine : Nat
  endLine : Nat
  content : Str
  deriving DecidableEq

/-- The lines and the content of a node, `_start_line`, `_end_line` and
`_node_text`. -/
def extracted {text : Str} (node : Span text) : ExtractedNode :=
  ⟨Str.feeds node.before + 1, Str.feeds (node.before ++ node.covered) + 1, node.covered⟩

/-- The node of a module, which starts at line 1 and ends with the root. -/
def moduleNode (text : Str) : ExtractedNode := ⟨1, max 1 (Str.feeds text + 1), text⟩

/-- The span of a module. -/
def Span.module (text : Str) : Span text := ⟨[], text, [], by simp⟩

theorem moduleNode_eq (text : Str) : moduleNode text = extracted (Span.module text) := by
  simp [moduleNode, extracted, Span.module, Str.feeds]

/-! ## The tool -/

def maxLineRange : Nat := 1000

structure RangePayload where
  filePath : Str
  totalLines : Nat
  startLine : Nat
  endLine : Nat
  content : Str
  contentTruncated : Bool
  deriving DecidableEq

def natText (n : Nat) : Str := (toString n).toList

def pastEnd (startLine totalLines : Nat) : Str :=
  "INVALID_RANGE: start_line ".toList ++ natText startLine ++ " > total_lines ".toList ++ natText totalLines

/-- The lines of a text from `startLine` to `endLine`. -/
def readLines (filePath full : Str) (startLine endLine : Nat) : Except Str RangePayload :=
  let lines := Str.splitlines full
  if lines.length < startLine then .error (pastEnd startLine lines.length)
  else
    let clampedEnd := min endLine lines.length
    .ok {
      filePath
      totalLines := lines.length
      startLine
      endLine := clampedEnd
      content := List.intercalate ['\n'] ((lines.take clampedEnd).drop (startLine - 1))
      contentTruncated := clampedEnd < endLine }

/-- `read_file_range`, for the row the query finds. What it says of an argument
out of bounds is the validator's. -/
def readFileRange (sourceFile : Option SourceFile) (path : Str) (startLine endLine : Nat) : Except Str RangePayload :=
  if startLine < 1 ∨ endLine < 1 then .error "INVALID_REQUEST".toList
  else if endLine < startLine then .error "INVALID_RANGE: end_line must be >= start_line".toList
  else if maxLineRange < endLine - startLine + 1 then
    .error ("INVALID_RANGE: range exceeds ".toList ++ natText maxLineRange ++ " lines".toList)
  else
    match sourceFile with
    | none => .error "NOT_FOUND: Source file not found".toList
    | some file =>
      match file.text with
      | none => .error ("INVALID_RANGE: cannot decode ".toList ++ path ++ " as UTF-8".toList)
      | some full => readLines file.filePath full startLine endLine

end Cograph.Ranges

/-!
## Which nodes are read by their lines

A range of lines shows a node when no line break but line feeds stands before
its end: the parser counts line feeds, the tool all breaks. The condition is
exact for a node whose text stands in the file once.
-/

namespace Cograph.Ranges

open Str (feeds splitlines isLineBreak Plain breaksAsFeeds lineRange)

theorem readText_feeds (s : Str) : '\r' ∉ readText s := by
  fun_induction readText s with
  | case1 => simp
  | case2 s ih => simp [ih]
  | case3 c s _ ih =>
    by_cases hc : c = '\r'
    · simp [hc, ih]
    · simp [hc, ih, Ne.symm hc]

/-! ## The last line end -/

/-- A text without the line feed that ends it, as lines are joined. -/
def normalised (s : Str) : Str := if s.getLast? = some '\n' then s.dropLast else s

def lastFeed (s : Str) : Str := if s.getLast? = some '\n' then ['\n'] else []

theorem normalised_append (s : Str) : normalised s ++ lastFeed s = s := by
  unfold normalised lastFeed
  split
  · rename_i h
    exact List.dropLast_append_getLast? '\n' h
  · exact List.append_nil s

theorem feeds_normalised (s : Str) : feeds (normalised s) + feeds (lastFeed s) = feeds s := by
  rw [← Str.feeds_append, normalised_append]

/-- The breaks of a text that the parser does not count. -/
def otherBreaks (s : Str) : Nat := s.countP fun c => isLineBreak c ∧ c ≠ '\n'

theorem feeds_breaksAsFeeds (s : Str) : feeds (breaksAsFeeds s) = feeds s + otherBreaks s := by
  induction s with
  | nil => rfl
  | cons c s ih =>
    by_cases hc : c = '\n'
    · subst hc
      simp [feeds, breaksAsFeeds, otherBreaks, isLineBreak] at ih ⊢
      omega
    · by_cases hb : isLineBreak c
      · simp [feeds, breaksAsFeeds, otherBreaks, hc, hb] at ih ⊢
        omega
      · simpa [feeds, breaksAsFeeds, otherBreaks, hc, hb] using ih

/-! ## Nodes -/

section
variable {text : Str}

/-- The range of a node does not exceed the cap. -/
def Within (node : Span text) : Prop := (extracted node).endLine - (extracted node).startLine + 1 ≤ maxLineRange

/-- A node that is there, and no break that the parser does not count stands
before its end. One may stand before a node that ends with a line feed. -/
structure Addressed (node : Span text) : Prop where
  present : node.covered ≠ []
  plain : Plain node.covered
  before : otherBreaks node.before ≤ if node.covered.getLast? = some '\n' then 1 else 0

/-- The text of a node stands in the file once, every break written as a line feed. -/
def Once (node : Span text) : Prop :=
  ∀ u v u' v', breaksAsFeeds text = u ++ normalised node.covered ++ v →
    breaksAsFeeds text = u' ++ normalised node.covered ++ v' → u = u'

theorem breaks_split (node : Span text) :
    breaksAsFeeds text = breaksAsFeeds node.before ++ breaksAsFeeds node.covered ++ breaksAsFeeds node.after := by
  conv_lhs => rw [node.whole]
  simp [breaksAsFeeds]

theorem breaks_plain (node : Span text) (h : Plain node.covered) : breaksAsFeeds text =
    breaksAsFeeds node.before ++ normalised node.covered ++ (lastFeed node.covered ++ breaksAsFeeds node.after) := by
  rw [breaks_split, Str.breaksAsFeeds_plain h]
  conv_lhs => rw [← normalised_append node.covered]
  simp

theorem lastFeed_feeds (s : Str) : feeds (lastFeed s) = if s.getLast? = some '\n' then 1 else 0 := by
  unfold lastFeed
  split <;> rfl

theorem plain_normalised {s : Str} (h : Plain (normalised s)) : Plain s := by
  rw [← normalised_append s]
  intro c hc hb
  rcases List.mem_append.1 hc with hc | hc
  · exact h c hc hb
  · unfold lastFeed at hc
    split at hc
    · exact List.mem_singleton.1 hc
    · cases hc

end

/-! ## What the tool returns -/

/-- The tool succeeds over the lines of the node, and what it returns contains
the node's content. -/
def Shown (filePath content : Str) (node : Span (readText content)) : Prop :=
  ∃ payload,
    readFileRange (some (stored filePath content)) filePath (extracted node).startLine (extracted node).endLine =
    .ok payload ∧ normalised (extracted node).content <:+: payload.content

section
variable {filePath content : Str} {node : Span (readText content)}

theorem readFileRange_eq (h : Within node) :
    readFileRange (some (stored filePath content)) filePath (extracted node).startLine (extracted node).endLine =
      readLines filePath (readText content) (feeds node.before + 1) (feeds (node.before ++ node.covered) + 1) := by
  have hrows := Str.feeds_append node.before node.covered
  have hcap : ¬maxLineRange < (extracted node).endLine - (extracted node).startLine + 1 := Nat.not_lt.2 h
  unfold readFileRange
  rw [if_neg (by simp [extracted]), if_neg (by simp [extracted]; omega), if_neg hcap]
  rfl

/-- The lines are those of the text with a line feed for each break. -/
theorem shown_iff (h : Within node) : Shown filePath content node ↔
    feeds node.before < (splitlines (breaksAsFeeds (readText content))).length ∧
      normalised node.covered <:+:
        lineRange (breaksAsFeeds (readText content)) (feeds node.before) (feeds (node.before ++ node.covered)) := by
  unfold Shown
  rw [readFileRange_eq h]
  unfold lineRange readLines
  rw [Str.splitlines_breaksAsFeeds (readText_feeds content)]
  by_cases hlt : (splitlines (readText content)).length < feeds node.before + 1
  · simp only [if_pos hlt, reduceCtorEq, false_and, exists_false, false_iff]
    omega
  · rw [if_neg hlt]
    simp only [Except.ok.injEq, exists_eq_left', extracted, Nat.add_sub_cancel]
    rw [← List.take_eq_take_min]
    exact (and_iff_right (by omega)).symm

theorem addressed_shown (h : Within node) (ha : Addressed node) : Shown filePath content node := by
  have hplain := Str.plain_breaksAsFeeds (readText content)
  have hbefore := ha.before
  rw [← lastFeed_feeds] at hbefore
  have hrows := feeds_breaksAsFeeds node.before
  rw [shown_iff h]
  constructor
  · rw [breaks_split, Str.breaksAsFeeds_plain ha.plain, List.append_assoc]
    have := Str.feeds_lt_lines (v := node.covered ++ breaksAsFeeds node.after) (Str.plain_breaksAsFeeds node.before)
      (by simp [ha.present])
    omega
  · rw [breaks_plain node ha.plain] at hplain ⊢
    by_cases hne : normalised node.covered = []
    · rw [hne]
      exact List.nil_infix
    · apply Str.infix_lineRange hplain (by omega) _ _ hne
      · have := feeds_normalised node.covered
        rw [Str.feeds_append, Str.feeds_append]
        omega
      · unfold lastFeed normalised
        split
        · exact .inl (by simp)
        · rename_i hlast
          exact .inr hlast

theorem shown_addressed (h : Within node) (honce : Once node) (hs : Shown filePath content node) :
    Addressed node := by
  obtain ⟨hlines, hin⟩ := (shown_iff h).1 hs
  have hplain := Str.plain_breaksAsFeeds (readText content)
  have hfirst : feeds node.before ≤ feeds (breaksAsFeeds (readText content)) := by
    have := Str.lines_le hplain
    omega
  have hle : feeds node.before ≤ feeds (node.before ++ node.covered) := by
    rw [Str.feeds_append]
    omega
  obtain ⟨u, v, htext, hrows⟩ := Str.lineRange_infix hplain hfirst hle
  obtain ⟨p, q, hpq⟩ := hin
  rw [← hpq] at htext hrows
  have hcovered : Plain node.covered := by
    apply plain_normalised
    intro c hc
    apply hplain
    rw [htext]
    simp [hc]
  have hsame : u ++ p = breaksAsFeeds node.before :=
    honce (u ++ p) (q ++ v) _ _ (by simpa using htext) (breaks_plain node hcovered)
  refine ⟨?_, hcovered, ?_⟩
  · intro hnil
    -- the empty text stands once in the empty file alone
    have hempty := honce [] (breaksAsFeeds (readText content)) (breaksAsFeeds (readText content)) []
      (by simp [hnil, normalised]) (by simp [hnil, normalised])
    rw [← hempty] at hlines
    simp [splitlines] at hlines
  · have hcount : feeds (breaksAsFeeds node.before) + feeds (normalised node.covered) ≤
        feeds (node.before ++ node.covered) := by
      rw [← hsame]
      simp only [Str.feeds_append] at hrows ⊢
      omega
    have hdrift := feeds_breaksAsFeeds node.before
    have hlast := feeds_normalised node.covered
    rw [Str.feeds_append] at hcount
    rw [← lastFeed_feeds]
    omega

end

/-- **When the lines of a node show it.** Where no break but line feeds stands
before the end of a node, its lines show it; and a node whose text stands once
in the file is shown under no other condition. -/
theorem range_shows_iff (filePath content : Str) (node : Span (readText content)) (h : Within node) :
    (Addressed node → Shown filePath content node) ∧
      (Once node → (Shown filePath content node ↔ Addressed node)) :=
  ⟨addressed_shown h, fun honce => ⟨shown_addressed h honce, addressed_shown h⟩⟩

namespace Sample

def content : Str := "\x0c\ndef f():\n    pass\n".toList

def node : Span (readText content) := ⟨"\x0c\n".toList, "def f():\n    pass".toList, "\n".toList, by decide⟩

def plain : Str := "import os\ndef f():\n    pass\n".toList

def function : Span (readText plain) := ⟨"import os\n".toList, "def f():\n    pass".toList, "\n".toList, by decide⟩

end Sample

theorem function_shown : Within Sample.function ∧ Shown "m.py".toList Sample.plain Sample.function := by
  have hwithin : Within Sample.function := by
    unfold Within
    decide
  have hplain : Plain Sample.function.covered := by
    have hall : ∀ c ∈ Sample.function.covered, (!isLineBreak c || c = '\n') = true := List.all_eq_true.1 (by decide)
    intro c hc hb
    simpa [hb] using hall c hc
  exact ⟨hwithin,
    (range_shows_iff "m.py".toList Sample.plain Sample.function hwithin).1 ⟨by decide, hplain, by decide⟩⟩

theorem form_feed_shifts : ¬ ∀ (filePath content : Str) (node : Span (readText content)), Within node →
    Shown filePath content node := by
  intro h
  obtain ⟨payload, hrun, hin⟩ := h "m.py".toList Sample.content Sample.node (by unfold Within; decide)
  have hread : readFileRange (some (stored "m.py".toList Sample.content)) "m.py".toList 2 3 =
      .ok ⟨"m.py".toList, 4, 2, 3, "\ndef f():".toList, false⟩ := by decide
  have hp := Except.ok.inj (hread.symm.trans hrun)
  rw [← hp] at hin
  exact absurd hin (by decide)

end Cograph.Ranges
