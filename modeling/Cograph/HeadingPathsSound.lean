import Cograph.Outline
import Cograph.RepoDocs

/-!
# The heading paths of the two chunkers

`md_rag/chunker.py` and `repo_docs/chunker.py` take a heading's level for its
place in the path. The path is the chain of the heading's ancestors as long as
no level is left out between a heading and the ones it is shallower than.
-/

namespace Cograph.HeadingPaths

open Outline

/-- `_split_by_headings` of `md_rag`, the paths and the lines. -/
theorem splitFrom_sections (P : MdChunks.Py) (s : MdChunks.Section) (lines : List Str) :
    (MdChunks.splitFrom P s lines).map (fun s => (s.path, s.lines)) =
      sections MdChunks.headingMatch s.path s.lines lines := by
  have hemit : ∀ s : MdChunks.Section, s.emit.map (fun s => (s.path, s.lines)) = emit s.path s.lines := by
    intro s
    unfold MdChunks.Section.emit emit
    split <;> rfl
  induction lines generalizing s with
  | nil => exact hemit s
  | cons line rest ih =>
    rw [MdChunks.splitFrom, sections]
    cases MdChunks.headingMatch line with
    | some h =>
      simp only [List.map_append, hemit, ih]
      rfl
    | none => exact ih _

/-- `_split_sections` of `repo_docs`. -/
theorem splitFrom_docs (path current lines : List Str) :
    RepoDocs.splitFrom path current lines = sections RepoDocs.headingMatch path current lines := by
  induction lines generalizing path current with
  | nil => rfl
  | cons line rest ih =>
    rw [RepoDocs.splitFrom, sections]
    cases RepoDocs.headingMatch line with
    | some h =>
      simp only [ih]
      rfl
    | none => exact ih _ _

theorem md_level {line : Str} {h : Nat × Str} (hm : MdChunks.headingMatch line = some h) : 1 ≤ h.1 := by
  unfold MdChunks.headingMatch at hm
  simp only at hm
  split at hm
  · split at hm
    · rename_i hc
      obtain rfl := Option.some.inj hm
      exact hc.1
    · cases hm
  · cases hm

theorem docs_level {line : Str} {h : Nat × Str} (hm : RepoDocs.headingMatch line = some h) : 1 ≤ h.1 := by
  unfold RepoDocs.headingMatch at hm
  simp only at hm
  split at hm
  · cases hm
  · split at hm
    · rename_i hc
      obtain rfl := Option.some.inj hm
      exact hc.1
    · cases hm

/-- The sections of `MdChunker`, by path and lines. -/
def mdSections (P : MdChunks.Py) (text : Str) : List (List Str × List Str) :=
  (MdChunks.splitByHeadings P (Str.splitlines text)).map fun s => (s.path, s.lines)

/-- The sections of `RepoDocumentChunker`, before the blank one is left out. -/
def docSections (content : Str) : List (List Str × List Str) := RepoDocs.splitFrom [] [] (Str.splitlines content)

/-- Each chunker keeps the path of a section of this list. -/
theorem docSections_kept {content : Str} {x : List Str × Str} (hx : x ∈ RepoDocs.splitSections content) :
    ∃ s ∈ docSections content, x = (s.1, Str.strip (MdChunks.joinLines s.2)) := by
  obtain ⟨s, hs, rfl⟩ := List.mem_map.1 (List.mem_of_mem_filter hx)
  exact ⟨s, hs, rfl⟩

/-- **Heading paths.** In either chunker every section's path is the chain of
its heading's ancestors if and only if every heading is deeper than all of the
chain before it, or that chain has a heading at each level above it. -/
theorem heading_paths_iff (P : MdChunks.Py) (text : Str) :
    (AncestorChains MdChunks.headingMatch (mdSections P text) ↔
        Fitting ((Str.splitlines text).filterMap MdChunks.headingMatch)) ∧
      (AncestorChains RepoDocs.headingMatch (docSections text) ↔
        Fitting ((Str.splitlines text).filterMap RepoDocs.headingMatch)) := by
  constructor
  · rw [mdSections, MdChunks.splitByHeadings, splitFrom_sections]
    exact sections_chains_iff _ (fun _ _ => md_level) _
  · rw [docSections, splitFrom_docs]
    exact sections_chains_iff _ (fun _ _ => docs_level) _

/-! A third-level heading before a second-level one. -/

def skipping : Str := "### b\n## c".toList

/-- `c` is put under the deeper `b`. -/
theorem deeper_ancestor :
    (¬ ∀ (P : MdChunks.Py) (text : Str), AncestorChains MdChunks.headingMatch (mdSections P text)) ∧
      ¬ ∀ text : Str, AncestorChains RepoDocs.headingMatch (docSections text) := by
  constructor
  · intro h
    have hpath := h ⟨id, fun _ => true⟩ skipping [([['b']], ["### b".toList])] ([['b'], ['c']], ["## c".toList]) []
      (by decide)
    exact absurd hpath (by decide)
  · intro h
    have hpath := h skipping [([['b']], ["### b".toList])] ([['b'], ['c']], ["## c".toList]) [] (by decide)
    exact absurd hpath (by decide)

end Cograph.HeadingPaths
