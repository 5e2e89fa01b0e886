import Mathlib

/-!
# Cuts of a list

A list cut into pieces, the positions that a cut falls between, and pieces that
are put together into coarser ones.
-/

namespace Cograph.Cuts

variable {α : Type}

/-- A cut of the pieces falls strictly between the positions. -/
def Splits (pieces : List (List α)) (a b : Nat) : Prop :=
  ∃ ps qs, pieces = ps ++ qs ∧ a < ps.flatten.length ∧ ps.flatten.length < b

/-- One piece holds the positions from `a` up to `b`. -/
def InOne (pieces : List (List α)) (a b : Nat) : Prop :=
  ∃ ps p qs, pieces = ps ++ p :: qs ∧ ps.flatten.length ≤ a ∧ b ≤ ps.flatten.length + p.length

/-- Each group is some consecutive pieces put together. -/
def Coarsens (groups pieces : List (List α)) : Prop :=
  ∃ parts : List (List (List α)), parts.flatten = pieces ∧ parts.map List.flatten = groups

/-! ## Cuts and holders -/

theorem not_splits_of_inOne {pieces : List (List α)} {a b : Nat} (h : InOne pieces a b) : ¬Splits pieces a b := by
  obtain ⟨ps, p, qs, rfl, ha, hb⟩ := h
  rintro ⟨ps', qs', he, ha', hb'⟩
  rcases List.append_eq_append_iff.mp he with ⟨as, rfl, has⟩ | ⟨as, rfl, -⟩
  · cases as with
    | nil =>
      rw [List.append_nil] at ha'
      omega
    | cons x as =>
      obtain ⟨rfl, -⟩ := List.cons.inj has
      rw [List.flatten_append, List.length_append, List.flatten_cons, List.length_append] at hb'
      omega
  · rw [List.flatten_append, List.length_append] at ha
    omega

theorem inOne_of_not_splits {pieces : List (List α)} {a b : Nat} (h : ¬Splits pieces a b) (hab : a < b)
    (hb : b ≤ pieces.flatten.length) : InOne pieces a b := by
  induction pieces generalizing a b with
  | nil =>
    rw [List.flatten_nil, List.length_nil] at hb
    omega
  | cons p rest ih =>
    rw [List.flatten_cons, List.length_append] at hb
    by_cases hpa : p.length ≤ a
    · have hrest : ¬Splits rest (a - p.length) (b - p.length) := by
        rintro ⟨ps, qs, rfl, ha', hb'⟩
        refine h ⟨p :: ps, qs, rfl, ?_, ?_⟩ <;> rw [List.flatten_cons, List.length_append] <;> omega
      obtain ⟨ps, q, qs, rfl, ha', hb'⟩ := ih hrest (by omega) (by omega)
      refine ⟨p :: ps, q, qs, rfl, ?_, ?_⟩ <;> rw [List.flatten_cons, List.length_append] <;> omega
    · by_cases hpb : b ≤ p.length
      · exact ⟨[], p, rest, rfl, by simp, by simpa using hpb⟩
      · exact absurd ⟨[p], rest, rfl, by simpa using hpa, by simpa using hpb⟩ h

theorem splits_of_take {pieces : List (List α)} {a b : Nat} (n : Nat) (h : Splits (pieces.take n) a b) :
    Splits pieces a b := by
  obtain ⟨ps, qs, he, ha, hb⟩ := h
  exact ⟨ps, qs ++ pieces.drop n, by rw [← List.append_assoc, ← he, List.take_append_drop], ha, hb⟩

/-- What a piece holds is held by one of the first `n` pieces, or comes after
them. -/
theorem inOne_take {pieces : List (List α)} {a b : Nat} (n : Nat) (h : InOne pieces a b) :
    InOne (pieces.take n) a b ∨ (pieces.take n).length = n ∧ (pieces.take n).flatten.length ≤ a := by
  obtain ⟨ps, p, qs, rfl, ha, hb⟩ := h
  by_cases hn : ps.length < n
  · refine .inl ⟨ps, p, qs.take (n - ps.length - 1), ?_, ha, hb⟩
    rw [List.take_append, List.take_of_length_le (by omega)]
    obtain ⟨m, hm⟩ := Nat.exists_eq_add_of_lt hn
    have : n - ps.length = m + 1 := by omega
    rw [this, List.take_succ_cons, Nat.add_sub_cancel]
  · refine .inr ⟨by simp; omega, ?_⟩
    rw [List.take_append_of_le_length (by omega)]
    have hle : (ps.take n).flatten.length ≤ ps.flatten.length := ((List.take_sublist n ps).flatten).length_le
    omega

theorem splits_append {ps qs : List (List α)} {a b : Nat} (h : Splits ps a b) : Splits (ps ++ qs) a b := by
  obtain ⟨xs, ys, rfl, ha, hb⟩ := h
  exact ⟨xs, ys ++ qs, by rw [List.append_assoc], ha, hb⟩

/-! ## Coarser pieces -/

section
variable {groups pieces groups' pieces' : List (List α)}

theorem Coarsens.splits (h : Coarsens groups pieces) {a b : Nat} (hs : Splits groups a b) : Splits pieces a b := by
  obtain ⟨parts, rfl, rfl⟩ := h
  obtain ⟨ps, qs, he, ha, hb⟩ := hs
  obtain ⟨l₁, l₂, rfl, rfl, rfl⟩ := List.map_eq_append_iff.mp he
  rw [← List.flatten_flatten] at ha hb
  exact ⟨l₁.flatten, l₂.flatten, List.flatten_append, ha, hb⟩

theorem Coarsens.flatten (h : Coarsens groups pieces) : groups.flatten = pieces.flatten := by
  obtain ⟨parts, rfl, rfl⟩ := h
  exact List.flatten_flatten.symm

theorem Coarsens.append (h : Coarsens groups pieces) (h' : Coarsens groups' pieces') :
    Coarsens (groups ++ groups') (pieces ++ pieces') := by
  obtain ⟨parts, rfl, rfl⟩ := h
  obtain ⟨parts', rfl, rfl⟩ := h'
  exact ⟨parts ++ parts', List.flatten_append, List.map_append⟩

theorem coarsens_one (pieces : List (List α)) : Coarsens [pieces.flatten] pieces :=
  ⟨[pieces], by simp, rfl⟩

theorem coarsens_empty : Coarsens ([[]] : List (List α)) [] := coarsens_one []

theorem Coarsens.extend {last more : List α} (h : Coarsens (groups ++ [last]) pieces) (hmore : more = pieces'.flatten) :
    Coarsens (groups ++ [last ++ more]) (pieces ++ pieces') := by
  obtain ⟨parts, rfl, he⟩ := h
  obtain ⟨l₁, l₂, rfl, rfl, hl⟩ := List.map_eq_append_iff.mp he
  obtain ⟨part, rfl, rfl⟩ := List.map_eq_singleton_iff.mp hl
  exact ⟨l₁ ++ [part ++ pieces'], by simp, by simp [hmore]⟩

theorem Coarsens.merge {last more : List α} (h : Coarsens (groups ++ [last, more]) pieces) :
    Coarsens (groups ++ [last ++ more]) pieces := by
  obtain ⟨parts, rfl, he⟩ := h
  obtain ⟨l₁, l₂, rfl, rfl, hl⟩ := List.map_eq_append_iff.mp he
  match l₂, hl with
  | [p, q], hl =>
    simp only [List.map_cons, List.map_nil, List.cons.injEq, and_true] at hl
    obtain ⟨rfl, rfl⟩ := hl
    exact ⟨l₁ ++ [p ++ q], by simp, by simp⟩

theorem Coarsens.drop_empty (h : Coarsens (groups ++ [[]]) pieces) (hp : ∀ p ∈ pieces, p ≠ []) :
    Coarsens groups pieces := by
  obtain ⟨parts, rfl, he⟩ := h
  obtain ⟨l₁, l₂, rfl, rfl, hl⟩ := List.map_eq_append_iff.mp he
  obtain ⟨part, rfl, hpart⟩ := List.map_eq_singleton_iff.mp hl
  have : part = [] := by
    by_contra hne
    obtain ⟨p, hin⟩ := List.exists_mem_of_ne_nil part hne
    exact hp p (by simp [hin]) (List.flatten_eq_nil_iff.mp hpart p hin)
  exact ⟨l₁, by simp [this], rfl⟩

end

end Cograph.Cuts
