import Mathlib

/-!
# A word replaced in a text

Every place of a word in a text, from the left and without overlap, takes
another word.
-/

namespace Replace

section
variable {α : Type} [DecidableEq α]

/-- The text with a word replaced, from behind the characters still to be
passed over. -/
def replaceFrom (old new : List α) : Nat → List α → List α
  | _, [] => []
  | k + 1, _ :: s => replaceFrom old new k s
  | 0, c :: s =>
    if old.isPrefixOf (c :: s) then new ++ replaceFrom old new (old.length - 1) s
    else c :: replaceFrom old new 0 s

def replace (old new s : List α) : List α := replaceFrom old new 0 s

theorem replaceFrom_drop (old new : List α) : ∀ (k : Nat) (s : List α),
    replaceFrom old new k s = replace old new (s.drop k)
  | 0, s => by rw [List.drop_zero, replace]
  | k + 1, [] => rfl
  | k + 1, _ :: s => by
    rw [replaceFrom, List.drop_succ_cons]
    exact replaceFrom_drop old new k s

@[simp] theorem replace_nil (old new : List α) : replace old new [] = [] := rfl

/-- Where the word stands, it is replaced. -/
theorem replace_word {old : List α} (h : old ≠ []) (new s : List α) :
    replace old new (old ++ s) = new ++ replace old new s := by
  obtain ⟨c, w, rfl⟩ := List.exists_cons_of_ne_nil h
  have hstart : (c :: w).isPrefixOf (c :: (w ++ s)) = true := by simp
  rw [List.cons_append, replace, replaceFrom, if_pos hstart, replaceFrom_drop, List.length_cons, Nat.add_sub_cancel,
    List.drop_left]

theorem replace_cons {c : α} {old s : List α} (h : ¬old <+: c :: s) (new : List α) :
    replace old new (c :: s) = c :: replace old new s := by
  have hstart : old.isPrefixOf (c :: s) = false := by
    rw [Bool.eq_false_iff, ne_eq, List.isPrefixOf_iff_prefix]
    exact h
  rw [replace, replaceFrom, hstart, replace]
  rfl

/-- What holds no first character of the word is left as it is. -/
theorem replace_free {c : α} {w x : List α} (h : c ∉ x) (new s : List α) :
    replace (c :: w) new (x ++ s) = x ++ replace (c :: w) new s := by
  induction x with
  | nil => rfl
  | cons d x ih =>
    have hd : d ≠ c := fun hd => h (by simp [hd])
    have hx : c ∉ x := fun hx => h (by simp [hx])
    have hstart : ¬(c :: w) <+: d :: (x ++ s) := by
      rintro ⟨u, hu⟩
      simp only [List.cons_append, List.cons.injEq] at hu
      exact hd hu.1.symm
    rw [List.cons_append, replace_cons hstart, ih hx, List.cons_append]

theorem replace_of_free {c : α} {w x : List α} (h : c ∉ x) (new : List α) : replace (c :: w) new x = x := by
  have hfree := replace_free h new [] (w := w)
  rwa [List.append_nil, replace_nil, List.append_nil] at hfree

/-- A word of one character is replaced one by one. -/
theorem replace_char (c : α) (new s : List α) : replace [c] new s = s.flatMap fun d => if d = c then new else [d] := by
  induction s with
  | nil => rfl
  | cons d s ih =>
    rw [List.flatMap_cons, ← ih]
    by_cases hd : d = c
    · subst hd
      rw [if_pos rfl]
      exact replace_word (by simp) new s
    · rw [if_neg hd]
      exact replace_free (x := [d]) (by simpa using Ne.symm hd) new s

/-- Parts put together with the word are told by it. -/
theorem replace_intercalate {c : α} {w : List α} {xs : List (List α)} (h : ∀ x ∈ xs, c ∉ x) (new : List α) :
    replace (c :: w) new (List.intercalate (c :: w) xs) = List.intercalate new xs := by
  induction xs with
  | nil => rfl
  | cons x xs ih =>
    have hx : c ∉ x := h x (by simp)
    cases xs with
    | nil =>
      rw [List.intercalate_singleton, List.intercalate_singleton]
      exact replace_of_free hx new
    | cons y ys =>
      have hrest := ih fun z hz => h z (List.mem_cons_of_mem _ hz)
      rw [List.intercalate_cons_cons, List.intercalate_cons_cons, List.append_assoc, replace_free hx,
        replace_word (by simp), hrest, List.append_assoc]

omit [DecidableEq α] in
theorem intercalate_empty (xs : List (List α)) : List.intercalate [] xs = xs.flatten := by
  induction xs with
  | nil => rfl
  | cons x xs ih =>
    cases xs with
    | nil => simp
    | cons y ys =>
      rw [List.intercalate_cons_cons, ih, List.append_nil]
      rfl

/-- With the word between them deleted, the parts follow one another. -/
theorem delete_intercalate {c : α} {w : List α} {xs : List (List α)} (h : ∀ x ∈ xs, c ∉ x) :
    replace (c :: w) [] (List.intercalate (c :: w) xs) = xs.flatten := by
  rw [replace_intercalate h, intercalate_empty]

end

end Replace
