import Mathlib

/-!
# Joined texts and what they determine

Parts joined with a separator that none of them holds can be told apart again,
but for no part and one empty part.
-/

namespace Joins

variable {α : Type} {sep : α}

theorem intercalate_cons (x : List α) (xs : List (List α)) :
    List.intercalate [sep] (x :: xs) = x ++ xs.flatMap (sep :: ·) := by
  induction xs generalizing x with
  | nil => simp
  | cons y xs ih =>
    rw [List.intercalate_cons_cons, ih, List.flatMap_cons]
    simp

theorem mem_intercalate {a : α} {xs : List (List α)} (h : a ∈ List.intercalate [sep] xs) :
    a = sep ∨ ∃ x ∈ xs, a ∈ x := by
  cases xs with
  | nil => simp at h
  | cons x xs =>
    rw [intercalate_cons] at h
    simp only [List.mem_append, List.mem_flatMap, List.mem_cons] at h
    rcases h with h | ⟨y, hy, rfl | h⟩
    · exact .inr ⟨x, by simp, h⟩
    · exact .inl rfl
    · exact .inr ⟨y, by simp [hy], h⟩

theorem not_mem_intercalate {a : α} {xs : List (List α)} (hsep : a ≠ sep) (h : ∀ x ∈ xs, a ∉ x) :
    a ∉ List.intercalate [sep] xs := by
  intro hmem
  rcases mem_intercalate hmem with rfl | ⟨x, hx, ha⟩
  · exact hsep rfl
  · exact h x hx ha

/-- The first separator of a text. -/
theorem first_inj {a b x y : List α} (ha : sep ∉ a) (hb : sep ∉ b)
    (h : a ++ sep :: x = b ++ sep :: y) : a = b ∧ x = y := by
  induction a generalizing b with
  | nil =>
    cases b with
    | nil => exact ⟨rfl, (List.cons.inj h).2⟩
    | cons c b => exact absurd (List.cons.inj h).1 fun he => hb (by simp [he])
  | cons c a ih =>
    cases b with
    | nil => exact absurd (List.cons.inj h).1 fun he => ha (by simp [he])
    | cons d b =>
      obtain ⟨rfl, htail⟩ := List.cons.inj h
      obtain ⟨rfl, hxy⟩ := ih (fun hc => ha (by simp [hc])) (fun hd => hb (by simp [hd])) htail
      exact ⟨rfl, hxy⟩

/-- The last separator of a text. -/
theorem last_inj {a b x y : List α} (hx : sep ∉ x) (hy : sep ∉ y)
    (h : a ++ sep :: x = b ++ sep :: y) : a = b ∧ x = y := by
  have hrev : x.reverse ++ sep :: a.reverse = y.reverse ++ sep :: b.reverse := by
    simpa using congrArg List.reverse h
  obtain ⟨hxy, hab⟩ := first_inj (by simpa using hx) (by simpa using hy) hrev
  exact ⟨List.reverse_inj.1 hab, List.reverse_inj.1 hxy⟩

theorem intercalate_inj {xs ys : List (List α)} (hx : ∀ x ∈ xs, sep ∉ x) (hy : ∀ y ∈ ys, sep ∉ y) (hxs : xs ≠ [])
    (hys : ys ≠ []) (h : List.intercalate [sep] xs = List.intercalate [sep] ys) : xs = ys := by
  induction xs generalizing ys with
  | nil => exact absurd rfl hxs
  | cons x xs ih =>
    obtain ⟨y, ys, rfl⟩ := List.exists_cons_of_ne_nil hys
    cases xs with
    | nil =>
      cases ys with
      | nil => simpa using h
      | cons z ys =>
        -- a separator on one side only
        rw [List.intercalate_cons_cons, List.intercalate_singleton] at h
        exact absurd (h ▸ (by simp : sep ∈ y ++ [sep] ++ _)) (hx x (by simp))
    | cons w xs =>
      cases ys with
      | nil =>
        rw [List.intercalate_cons_cons, List.intercalate_singleton] at h
        exact absurd (h ▸ (by simp : sep ∈ x ++ [sep] ++ _)) (hy y (by simp))
      | cons z ys =>
        simp only [List.intercalate_cons_cons, List.append_assoc, List.singleton_append] at h
        obtain ⟨rfl, hrest⟩ := first_inj (hx x (by simp)) (hy y (by simp)) h
        have htail := ih (fun v hv => hx v (List.mem_cons_of_mem _ hv)) (fun v hv => hy v (List.mem_cons_of_mem _ hv))
          (by simp) (by simp) hrest
        rw [htail]

/-- Lists of parts, neither of them the one empty part. -/
theorem intercalate_inj_of_ne {xs ys : List (List α)} (hx : ∀ x ∈ xs, sep ∉ x) (hy : ∀ y ∈ ys, sep ∉ y)
    (hxs : xs ≠ [[]])
    (hys : ys ≠ [[]]) (h : List.intercalate [sep] xs = List.intercalate [sep] ys) : xs = ys := by
  have hone {zs : List (List α)} (hz : ∀ z ∈ zs, sep ∉ z) (hne : zs ≠ [[]]) (hnil : List.intercalate [sep] zs = []) :
      zs = [] := by
    by_contra hzs
    exact hne (intercalate_inj hz (by simp) hzs (by simp) (by simpa using hnil))
  by_cases hxn : xs = []
  · rw [hxn] at h ⊢
    exact (hone hy hys (by simpa using h.symm)).symm
  · by_cases hyn : ys = []
    · rw [hyn] at h
      exact absurd (hone hx hxs (by simpa using h)) hxn
    · exact intercalate_inj hx hy hxn hyn h

/-! ## Parts of parts -/

theorem length_intercalate (x : List α) (xs : List (List α)) :
    (List.intercalate [sep] (x :: xs)).length = ((x :: xs).map List.length).sum + xs.length := by
  rw [intercalate_cons]
  simp only [List.length_append, List.length_flatMap, List.length_cons, List.map_cons, List.sum_cons]
  rw [Nat.add_assoc]
  congr 1
  induction xs with
  | nil => rfl
  | cons y ys ih =>
    simp only [List.map_cons, List.sum_cons, List.length_cons, ih]
    omega

theorem intercalate_append {xs ys : List (List α)} (hx : xs ≠ []) (hy : ys ≠ []) :
    List.intercalate [sep] (xs ++ ys) = List.intercalate [sep] xs ++ sep :: List.intercalate [sep] ys := by
  obtain ⟨x, xs, rfl⟩ := List.exists_cons_of_ne_nil hx
  obtain ⟨y, ys, rfl⟩ := List.exists_cons_of_ne_nil hy
  rw [List.cons_append]
  simp only [intercalate_cons, List.flatMap_append, List.flatMap_cons]
  simp

/-- Groups of parts are joined as all the parts are. -/
theorem intercalate_flatten {groups : List (List (List α))} (h : ∀ g ∈ groups, g ≠ []) :
    List.intercalate [sep] (groups.map (List.intercalate [sep])) = List.intercalate [sep] groups.flatten := by
  induction groups with
  | nil => rfl
  | cons g gs ih =>
    have hg : g ≠ [] := h g (by simp)
    have hgs : ∀ g ∈ gs, g ≠ [] := fun x hx => h x (by simp [hx])
    by_cases hnil : gs = []
    · subst hnil
      simp
    · obtain ⟨x, xs, rfl⟩ := List.exists_cons_of_ne_nil hnil
      have hflat : (x :: xs).flatten ≠ [] := by simp [hgs x (by simp)]
      rw [List.flatten_cons, intercalate_append hg hflat, ← ih hgs, List.map_cons, List.map_cons,
        List.intercalate_cons_cons]
      simp

theorem mem_of_part {a : α} {x : List α} {xs : List (List α)} (hx : x ∈ xs) (ha : a ∈ x) :
    a ∈ List.intercalate [sep] xs := by
  cases xs with
  | nil => cases hx
  | cons y ys =>
    rw [intercalate_cons, List.mem_append]
    rcases List.mem_cons.1 hx with rfl | hx
    · exact .inl ha
    · exact .inr (List.mem_flatMap.2 ⟨x, hx, List.mem_cons_of_mem _ ha⟩)

/-! ## The first parts -/

theorem flatMap_end {xs : List (List α)} (h : xs ≠ []) :
    xs.flatMap (· ++ [sep]) = List.intercalate [sep] xs ++ [sep] := by
  obtain ⟨x, xs, rfl⟩ := List.exists_cons_of_ne_nil h
  rw [intercalate_cons]
  induction xs generalizing x with
  | nil => simp
  | cons y ys ih =>
    rw [List.flatMap_cons, ih y (by simp), List.flatMap_cons]
    simp

/-- Parts that each end with the separator are at a text's start just where they
are its first parts. -/
theorem starts_iff {xs ys : List (List α)} (hx : ∀ x ∈ xs, sep ∉ x) (hy : ∀ y ∈ ys, sep ∉ y)
    (hlen : xs.length < ys.length) : xs.flatMap (· ++ [sep]) <+: List.intercalate [sep] ys ↔ xs <+: ys := by
  induction xs generalizing ys with
  | nil => simp
  | cons x xs ih =>
    obtain ⟨y, zs, rfl⟩ := List.exists_cons_of_ne_nil (List.ne_nil_of_length_pos (Nat.zero_lt_of_lt hlen))
    have hrest : xs.length < zs.length := Nat.lt_of_succ_lt_succ hlen
    obtain ⟨z, zs, rfl⟩ := List.exists_cons_of_ne_nil (List.ne_nil_of_length_pos (Nat.zero_lt_of_lt hrest))
    have htail := ih (fun v hv => hx v (List.mem_cons_of_mem _ hv)) (fun v hv => hy v (List.mem_cons_of_mem _ hv)) hrest
    rw [List.flatMap_cons, List.intercalate_cons_cons, List.append_assoc, List.append_assoc, List.cons_prefix_cons,
      ← htail]
    constructor
    · rintro ⟨u, hu⟩
      rw [List.append_assoc, List.append_assoc] at hu
      obtain ⟨heq, hafter⟩ := first_inj (hx x (by simp)) (hy y (by simp)) hu
      exact ⟨heq, u, hafter⟩
    · rintro ⟨rfl, u, hu⟩
      refine ⟨u, ?_⟩
      rw [List.append_assoc, List.append_assoc, hu]

end Joins
