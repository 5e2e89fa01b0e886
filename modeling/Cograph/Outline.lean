import Mathlib

/-!
# Headings and their ancestors

Headings of a document, each with a level from one on. The chain of a heading
is the nearest heading before it with a lower level, the nearest one before
that with a level lower still, and so on. A path that is cut at the level of
each heading is the chain as long as every heading fits into it.
-/

namespace Outline

variable {α β : Type}

/-- The nearest headings with levels below the bound, each below the one after
it. The list has the nearest heading first. -/
def above (level : Nat) : List (Nat × α) → List (Nat × α)
  | [] => []
  | h :: before => if h.1 < level then h :: above h.1 before else above level before

def trail : List (Nat × α) → List (Nat × α)
  | [] => []
  | h :: before => h :: above h.1 before

/-- The chain of the last heading, that heading included. -/
def chain (hs : List (Nat × α)) : List (Nat × α) := (trail hs.reverse).reverse

/-- The path after some headings, each put behind as many elements as its level
has levels above. -/
def cutPath (hs : List (Nat × α)) : List α := hs.foldl (fun path h => path.take (h.1 - 1) ++ [h.2]) []

/-- The heading is deeper than every heading of the chain, or the chain has a
heading at each level above it. -/
def Fits (open_ : List (Nat × α)) (h : Nat × α) : Prop :=
  (∀ a ∈ open_, a.1 < h.1) ∨ ∀ j, 1 ≤ j → j < h.1 → ∃ a ∈ open_, a.1 = j

/-- Every heading fits into the chain before it. -/
def Fitting (hs : List (Nat × α)) : Prop := ∀ before h after, hs = before ++ h :: after → Fits (chain before) h

/-! ## Chains -/

theorem above_lt (level : Nat) (hs : List (Nat × α)) : ∀ a ∈ above level hs, a.1 < level := by
  induction hs generalizing level with
  | nil => simp [above]
  | cons h before ih =>
    unfold above
    split
    · rename_i hlt
      intro a ha
      rcases List.mem_cons.1 ha with rfl | ha
      · exact hlt
      · exact (ih _ a ha).trans hlt
    · exact ih level

theorem above_sorted (level : Nat) (hs : List (Nat × α)) : (above level hs).Pairwise fun a b => b.1 < a.1 := by
  induction hs generalizing level with
  | nil => simp [above]
  | cons h before ih =>
    unfold above
    split
    · exact List.pairwise_cons.2 ⟨above_lt _ _, ih _⟩
    · exact ih level

theorem above_filter {k l : Nat} (h : l ≤ k) (hs : List (Nat × α)) : above l hs = (above k hs).filter (·.1 < l) := by
  induction hs generalizing k l with
  | nil => simp [above]
  | cons x before ih =>
    unfold above
    by_cases hl : x.1 < l
    · rw [if_pos hl, if_pos (hl.trans_le h), List.filter_cons_of_pos (by simpa using hl)]
      congr 1
      refine (List.filter_eq_self.2 fun a ha => ?_).symm
      simpa using (above_lt _ _ a ha).trans hl
    · rw [if_neg hl]
      by_cases hk : x.1 < k
      · rw [if_pos hk, List.filter_cons_of_neg (by simpa using hl)]
        exact ih (Nat.le_of_not_lt hl)
      · rw [if_neg hk]
        exact ih h

theorem above_mem {level : Nat} {hs : List (Nat × α)} : ∀ a ∈ above level hs, a ∈ hs := by
  induction hs generalizing level with
  | nil => simp [above]
  | cons h before ih =>
    unfold above
    split
    · intro a ha
      rcases List.mem_cons.1 ha with rfl | ha
      · simp
      · exact List.mem_cons_of_mem _ (ih a ha)
    · exact fun a ha => List.mem_cons_of_mem _ (ih a ha)

@[simp] theorem chain_nil : chain ([] : List (Nat × α)) = [] := rfl

/-- What is left of the chain under a new heading. -/
theorem chain_snoc (hs : List (Nat × α)) (h : Nat × α) :
    chain (hs ++ [h]) = (chain hs).filter (·.1 < h.1) ++ [h] := by
  have habove : above h.1 hs.reverse = (trail hs.reverse).filter (·.1 < h.1) := by
    cases hs.reverse with
    | nil => rfl
    | cons x before =>
      unfold above trail
      by_cases hx : x.1 < h.1
      · rw [if_pos hx, List.filter_cons_of_pos (by simpa using hx)]
        congr 1
        refine (List.filter_eq_self.2 fun a ha => ?_).symm
        simpa using (above_lt _ _ a ha).trans hx
      · rw [if_neg hx, List.filter_cons_of_neg (by simpa using hx)]
        exact above_filter (Nat.le_of_not_lt hx) before
  unfold chain
  rw [List.reverse_append, List.reverse_singleton, List.singleton_append, trail, List.reverse_cons, habove,
    List.filter_reverse]

theorem chain_sorted (hs : List (Nat × α)) : (chain hs).Pairwise fun a b => a.1 < b.1 := by
  unfold chain
  rw [List.pairwise_reverse]
  cases hs.reverse with
  | nil => exact List.Pairwise.nil
  | cons h before => exact List.pairwise_cons.2 ⟨above_lt _ _, above_sorted _ _⟩

theorem chain_mem {hs : List (Nat × α)} : ∀ a ∈ chain hs, a ∈ hs := by
  induction hs using List.reverseRecOn with
  | nil => simp
  | append_singleton hs h ih =>
    intro a ha
    rw [chain_snoc] at ha
    rcases List.mem_append.1 ha with ha | ha
    · exact List.mem_append_left _ (ih a (List.mem_of_mem_filter ha))
    · exact List.mem_append_right _ ha

/-! ## Cut paths -/

theorem cutPath_snoc (hs : List (Nat × α)) (h : Nat × α) :
    cutPath (hs ++ [h]) = (cutPath hs).take (h.1 - 1) ++ [h.2] := by
  unfold cutPath
  rw [List.foldl_append]
  rfl

theorem filter_take {open_ : List (Nat × α)} (hsort : open_.Pairwise fun a b => a.1 < b.1) (l : Nat) :
    open_.filter (·.1 < l) = open_.take (open_.filter (·.1 < l)).length := by
  induction open_ with
  | nil => rfl
  | cons a rest ih =>
    obtain ⟨ha, hrest⟩ := List.pairwise_cons.1 hsort
    by_cases hl : a.1 < l
    · rw [List.filter_cons_of_pos (by simpa using hl), List.length_cons, List.take_succ_cons, ← ih hrest]
    · have hnil : rest.filter (·.1 < l) = [] := by
        rw [List.filter_eq_nil_iff]
        intro b hb
        have := ha b hb
        simp only [decide_eq_true_eq]
        omega
      rw [List.filter_cons_of_neg (by simpa using hl), hnil]
      rfl

/-- The headings of a chain with lower levels are no more than those levels. -/
theorem filter_levels {open_ : List (Nat × α)} (hsort : open_.Pairwise fun a b => a.1 < b.1)
    (hpos : ∀ a ∈ open_, 1 ≤ a.1) (l : Nat) :
    (open_.filter (·.1 < l)).length ≤ l - 1 ∧
      ((open_.filter (·.1 < l)).length = l - 1 ↔ ∀ j, 1 ≤ j → j < l → ∃ a ∈ open_, a.1 = j) := by
  have hnodup : ((open_.filter (·.1 < l)).map (·.1)).Nodup :=
    List.pairwise_map.2 ((hsort.filter _).imp fun hab => Nat.ne_of_lt hab)
  have hcard : ((open_.filter (·.1 < l)).map (·.1)).toFinset.card = (open_.filter (·.1 < l)).length := by
    rw [List.toFinset_card_of_nodup hnodup, List.length_map]
  have hsub : ((open_.filter (·.1 < l)).map (·.1)).toFinset ⊆ Finset.Ico 1 l := by
    intro j hj
    obtain ⟨a, ha, rfl⟩ := List.mem_map.1 (List.mem_toFinset.1 hj)
    obtain ⟨ha, hl⟩ := List.mem_filter.1 ha
    exact Finset.mem_Ico.2 ⟨hpos a ha, by simpa using hl⟩
  have hico : (Finset.Ico 1 l).card = l - 1 := Nat.card_Ico 1 l
  refine ⟨?_, ?_⟩
  · rw [← hcard, ← hico]
    exact Finset.card_le_card hsub
  · rw [← hcard, ← hico]
    constructor
    · intro heq j hj hjl
      have hall := Finset.eq_of_subset_of_card_le hsub heq.ge
      obtain ⟨a, ha, rfl⟩ := List.mem_map.1 (List.mem_toFinset.1 (hall ▸ Finset.mem_Ico.2 ⟨hj, hjl⟩))
      exact ⟨a, List.mem_of_mem_filter ha, rfl⟩
    · intro h
      refine congrArg Finset.card (hsub.antisymm fun j hj => ?_)
      obtain ⟨hj, hjl⟩ := Finset.mem_Ico.1 hj
      obtain ⟨a, ha, rfl⟩ := h j hj hjl
      exact List.mem_toFinset.2 (List.mem_map.2 ⟨a, List.mem_filter.2 ⟨ha, by simpa using hjl⟩, rfl⟩)

/-- One heading: the path that was the chain is cut to the new chain if and only
if the heading fits. -/
theorem cut_iff {hs : List (Nat × α)} (hpos : ∀ a ∈ hs, 1 ≤ a.1) (h : Nat × α)
    (hpath : cutPath hs = (chain hs).map (·.2)) :
    cutPath (hs ++ [h]) = (chain (hs ++ [h])).map (·.2) ↔ Fits (chain hs) h := by
  have hsort := chain_sorted hs
  obtain ⟨hle, hfull⟩ := filter_levels hsort (fun a ha => hpos a (chain_mem a ha)) h.1
  have htake := filter_take hsort h.1
  have hlen := List.length_filter_le (fun a : Nat × α => decide (a.1 < h.1)) (chain hs)
  have hall : ((chain hs).filter (·.1 < h.1)).length = (chain hs).length ↔ ∀ a ∈ chain hs, a.1 < h.1 := by
    simp [List.length_filter_eq_length_iff]
  -- Both are prefixes of the chain, so they agree as soon as their lengths do.
  have hmap : ((chain hs).map (·.2)).take (h.1 - 1) = ((chain hs).filter (·.1 < h.1)).map (·.2) ↔
      min (h.1 - 1) (chain hs).length = ((chain hs).filter (·.1 < h.1)).length := by
    constructor
    · intro he
      have := congrArg List.length he
      rwa [List.length_take, List.length_map, List.length_map] at this
    · intro he
      rw [← List.map_take, htake, ← he, ← List.take_eq_take_min]
  rw [cutPath_snoc, chain_snoc, hpath, List.map_append, List.map_singleton, List.append_left_inj, hmap, Fits, ← hall,
    ← hfull]
  omega

/-- **Cut paths are chains** after all the headings, and after each of them, if
and only if every heading fits into the chain before it. -/
theorem cutPath_iff {hs : List (Nat × α)} (hpos : ∀ a ∈ hs, 1 ≤ a.1) :
    (∀ before after, hs = before ++ after → cutPath before = (chain before).map (·.2)) ↔ Fitting hs := by
  constructor
  · intro h before x after he
    have hbefore : ∀ a ∈ before, 1 ≤ a.1 := fun a ha => hpos a (he ▸ List.mem_append_left _ ha)
    exact (cut_iff hbefore x (h before (x :: after) he)).1 (h (before ++ [x]) after (by simpa using he))
  · intro h before
    induction before using List.reverseRecOn with
    | nil => exact fun _ _ => rfl
    | append_singleton before x ih =>
      intro after he
      have he' : hs = before ++ x :: after := by simpa using he
      have hbefore : ∀ a ∈ before, 1 ≤ a.1 := fun a ha => hpos a (he' ▸ List.mem_append_left _ ha)
      exact (cut_iff hbefore x (ih (x :: after) he')).2 (h before x after he')

/-! ## Sections -/

variable (heading : β → Option (Nat × α))

def emit (path : List α) (current : List β) : List (List α × List β) := if current = [] then [] else [(path, current)]

/-- The lines cut before each heading, with the path at each cut. -/
def sections (path : List α) (current : List β) : List β → List (List α × List β)
  | [] => emit path current
  | line :: rest =>
    match heading line with
    | some (level, text) => emit path current ++ sections (path.take (level - 1) ++ [text]) [line] rest
    | none => sections path (current ++ [line]) rest

/-- Every section has the chain of its own heading for its path: the last of the
headings up to the section's end. A section before all headings has the empty
one. -/
def AncestorChains (ss : List (List α × List β)) : Prop :=
  ∀ before s after, ss = before ++ s :: after →
    s.1 = (chain ((before.flatMap (·.2) ++ s.2).filterMap heading)).map (·.2)

section
variable {heading} {path : List α} {current : List β} {done : List (Nat × α)}

theorem emit_cases (path : List α) (current : List β) :
    current = [] ∧ emit path current = [] ∨ current ≠ [] ∧ emit path current = [(path, current)] := by
  by_cases h : current = []
  · exact Or.inl ⟨h, if_pos h⟩
  · exact Or.inr ⟨h, if_neg h⟩

theorem emit_lines (path : List α) (current : List β) : (emit path current).flatMap (·.2) = current := by
  rcases emit_cases path current with ⟨rfl, h⟩ | ⟨-, h⟩ <;> simp [h]

/-- A section is the one that is emitted, or it is found behind it. -/
theorem emit_split {path : List α} {current : List β} {more before : List (List α × List β)} {s : List α × List β}
    {after : List (List α × List β)} (he : emit path current ++ more = before ++ s :: after) :
    before = [] ∧ s = (path, current) ∨
      ∃ before', more = before' ++ s :: after ∧ before.flatMap (·.2) = current ++ before'.flatMap (·.2) := by
  rcases emit_cases path current with ⟨rfl, h⟩ | ⟨-, h⟩
  · exact Or.inr ⟨before, by rw [h] at he; exact he, by simp⟩
  · rw [h, List.singleton_append] at he
    cases before with
    | nil => exact Or.inl ⟨rfl, (List.cons.inj he).1.symm⟩
    | cons b before =>
      obtain ⟨rfl, hmore⟩ := List.cons.inj he
      exact Or.inr ⟨before, hmore, by simp⟩

theorem sections_lines (lines : List β) : (sections heading path current lines).flatMap (·.2) = current ++ lines := by
  induction lines generalizing path current with
  | nil => rw [sections, emit_lines, List.append_nil]
  | cons line rest ih =>
    rw [sections]
    split
    · rw [List.flatMap_append, emit_lines, ih, List.singleton_append]
    · rw [ih, List.append_assoc, List.singleton_append]

/-- The path of a section is the path cut for the headings up to its end. -/
theorem sections_path (lines : List β) (hpath : path = cutPath (done ++ current.filterMap heading))
    {before after : List (List α × List β)} {s : List α × List β}
    (he : sections heading path current lines = before ++ s :: after) :
    s.1 = cutPath (done ++ (before.flatMap (·.2) ++ s.2).filterMap heading) := by
  induction lines generalizing path current done before with
  | nil =>
    rw [sections, ← List.append_nil (emit path current)] at he
    rcases emit_split he with ⟨rfl, rfl⟩ | ⟨before', hnil, -⟩
    · exact hpath
    · simp at hnil
  | cons line rest ih =>
    rw [sections] at he
    split at he
    · rename_i level text hline
      rcases emit_split he with ⟨rfl, rfl⟩ | ⟨before', hmore, hlines⟩
      · exact hpath
      · have hnext : path.take (level - 1) ++ [text] =
            cutPath ((done ++ current.filterMap heading) ++ [line].filterMap heading) := by
          rw [List.filterMap_cons_some hline, List.filterMap_nil, cutPath_snoc, hpath]
        rw [ih hnext hmore, hlines, List.append_assoc current, List.filterMap_append (l := current), List.append_assoc]
    · rename_i hline
      refine ih ?_ he
      rw [List.filterMap_append, List.filterMap_cons_none hline, List.filterMap_nil, List.append_nil]
      exact hpath

/-- After each heading there is a section that ends before the next one. -/
theorem sections_reach {hs more : List (Nat × α)} (lines : List β) (hlines : lines.filterMap heading = hs ++ more)
    (hne : current ≠ [] ∨ hs ≠ []) : ∃ before s after, sections heading path current lines = before ++ s :: after ∧
      (before.flatMap (·.2) ++ s.2).filterMap heading = current.filterMap heading ++ hs := by
  induction lines generalizing path current hs with
  | nil =>
    obtain ⟨rfl, -⟩ := List.nil_eq_append_iff.1 hlines
    have hcur : current ≠ [] := hne.resolve_right (by simp)
    exact ⟨[], (path, current), [], by rw [sections, emit, if_neg hcur, List.nil_append], by simp⟩
  | cons line rest ih =>
    rw [sections]
    split
    · rename_i level text hline
      rw [List.filterMap_cons_some hline] at hlines
      cases hs with
      | nil =>
        have hcur : current ≠ [] := hne.resolve_right (by simp)
        exact ⟨[], (path, current), _, by rw [emit, if_neg hcur]; rfl, by simp⟩
      | cons h hs =>
        obtain ⟨rfl, hrest⟩ := List.cons.inj hlines
        obtain ⟨before, s, after, he, hheads⟩ := @ih (path.take (level - 1) ++ [text]) [line] hs hrest
          (Or.inl (by simp))
        refine ⟨emit path current ++ before, s, after, by rw [he, List.append_assoc], ?_⟩
        rw [List.flatMap_append, emit_lines, List.append_assoc, List.filterMap_append, hheads,
          List.filterMap_cons_some hline, List.filterMap_nil, List.singleton_append]
    · rename_i hline
      rw [List.filterMap_cons_none hline] at hlines
      obtain ⟨before, s, after, he, hheads⟩ := @ih path (current ++ [line]) hs hlines (Or.inl (by simp))
      refine ⟨before, s, after, he, ?_⟩
      rw [hheads, List.filterMap_append, List.filterMap_cons_none hline, List.filterMap_nil, List.append_nil]

end

/-- **Sections have ancestor chains** for their paths if and only if every
heading fits into the chain before it. -/
theorem sections_chains_iff (hpos : ∀ line h, heading line = some h → 1 ≤ h.1) (lines : List β) :
    AncestorChains heading (sections heading [] [] lines) ↔ Fitting (lines.filterMap heading) := by
  have hlevels : ∀ a ∈ lines.filterMap heading, 1 ≤ a.1 := by
    intro a ha
    obtain ⟨line, -, hline⟩ := List.mem_filterMap.1 ha
    exact hpos line a hline
  rw [← cutPath_iff hlevels]
  have hcut : ∀ before s after, sections heading [] [] lines = before ++ s :: after →
      s.1 = cutPath ((before.flatMap (·.2) ++ s.2).filterMap heading) := by
    intro before s after hss
    have hstart : ([] : List α) = cutPath ([] ++ ([] : List β).filterMap heading) := rfl
    simpa using sections_path lines hstart hss
  constructor
  · intro h hs more he
    by_cases hne : hs = []
    · rw [hne]
      rfl
    · obtain ⟨before, s, after, hss, hheads⟩ := @sections_reach _ _ heading [] [] hs more lines he (Or.inr hne)
      rw [List.filterMap_nil, List.nil_append] at hheads
      rw [← hheads, ← hcut before s after hss]
      exact h before s after hss
  · intro h before s after hss
    have hall := congrArg (List.flatMap (·.2)) hss
    rw [sections_lines, List.nil_append, List.flatMap_append, List.flatMap_cons, ← List.append_assoc] at hall
    rw [hcut before s after hss]
    exact h _ ((after.flatMap (·.2)).filterMap heading) (by rw [hall, List.filterMap_append])

end Outline
