import Mathlib.Data.List.Basic

/-!
# Adjacency lists beside an edge set

A node's list holds its neighbours under a relation. When the relation changes
only at some nodes, a list elsewhere need not be built again: it is enough to
swap the entries for the nodes where it changed. `swapped_mirrors` says when
that is exact, for one direction of the relation; the other direction is the
same statement for the converse.
-/

namespace Cograph.Mirror

variable {ι : Type} [DecidableEq ι]

/-- Drop the `stale` entries that are not `fresh`, append the new `fresh`
ones. -/
def swapped (current stale fresh : List ι) : List ι :=
  let kept := current.filter fun x => x ∉ stale ∨ x ∈ fresh
  kept ++ fresh.filter (· ∉ kept)

theorem mem_swapped {current stale fresh : List ι} {x : ι} :
    x ∈ swapped current stale fresh ↔ x ∈ fresh ∨ x ∈ current ∧ x ∉ stale := by
  simp only [swapped, List.mem_append, List.mem_filter, decide_eq_true_eq]
  by_cases hf : x ∈ fresh
  · simp only [hf, or_true, true_or, true_and, and_true, iff_true]
    exact Classical.em _
  · simp [hf]

/-- The list holds exactly the neighbours of `n`. -/
def Lists (E : ι → ι → Prop) (n : ι) (l : List ι) : Prop := ∀ m, m ∈ l ↔ E n m

/-- `E` became `E'` by changes at `touched` nodes, and the `dropped` ones are
gone. -/
structure Changed (E E' : ι → ι → Prop) (touched dropped : List ι) : Prop where
  kept : ∀ a b, a ∉ touched → b ∉ touched → a ∉ dropped → b ∉ dropped → (E' a b ↔ E a b)
  source : ∀ a b, E' a b → a ∉ dropped
  target : ∀ a b, E' a b → b ∉ dropped

omit [DecidableEq ι] in
theorem Changed.converse {E E' : ι → ι → Prop} {touched dropped : List ι} (h : Changed E E' touched dropped) :
    Changed (fun a b => E b a) (fun a b => E' b a) touched dropped where
  kept a b ha hb hda hdb := h.kept b a hb ha hdb hda
  source a b e := h.target b a e
  target a b e := h.source b a e

section
variable {E E' : ι → ι → Prop} {touched dropped : List ι} (h : Changed E E' touched dropped)
include h

/-- **Swapping is exact.** A node where nothing changed, whose list held its
neighbours, holds the new ones after its entries for the touched and dropped
nodes are swapped. -/
theorem swapped_mirrors {n : ι} {old fresh : List ι} (hn : n ∉ touched) (hd : n ∉ dropped) (hold : Lists E n old)
    (hfresh : ∀ m, m ∈ fresh ↔ E' n m ∧ m ∈ touched) : Lists E' n (swapped old (touched ++ dropped) fresh) := by
  intro m
  rw [mem_swapped, hfresh, hold, List.mem_append, not_or]
  constructor
  · rintro (⟨he, -⟩ | ⟨he, ht, hdm⟩)
    · exact he
    · exact (h.kept n m hn ht hd hdm).mpr he
  · intro he
    by_cases ht : m ∈ touched
    · exact Or.inl ⟨he, ht⟩
    · have hdm : m ∉ dropped := h.target n m he
      exact Or.inr ⟨(h.kept n m hn ht hd hdm).mp he, ht, hdm⟩

/-- A list left as it was is exact if and only if no neighbour was dropped,
where no touched node is a neighbour by the change. -/
theorem kept_mirrors_iff {n : ι} {old : List ι} (hn : n ∉ touched) (hd : n ∉ dropped) (hold : Lists E n old)
    (hsame : ∀ m ∈ touched, m ∉ dropped → (E' n m ↔ E n m)) :
    Lists E' n old ↔ ∀ d ∈ dropped, ¬ E n d := by
  constructor
  · intro hl d hdd he
    exact h.target n d ((hl d).mp ((hold d).mpr he)) hdd
  · intro hnone m
    rw [hold]
    by_cases hdm : m ∈ dropped
    · exact ⟨fun he => absurd he (hnone m hdm), fun he => absurd hdm (h.target n m he)⟩
    · by_cases ht : m ∈ touched
      · exact (hsame m ht hdm).symm
      · exact (h.kept n m hn ht hd hdm).symm

end

end Cograph.Mirror
