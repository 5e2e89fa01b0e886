import Mathlib.Data.List.Basic
import Mathlib.Data.List.Nodup

/-!
# Insertion-ordered dictionaries

A dictionary is its list of items in order of first insertion. `put` gives a
key its value where the key stands, or at the end where it is new; `drop`
removes a key.
-/

namespace Cograph.Dict

variable {κ α : Type} [DecidableEq κ]

abbrev Items (κ α : Type) := List (κ × α)

def get (d : Items κ α) (k : κ) : Option α := (d.find? (·.1 = k)).map (·.2)

def put : Items κ α → κ → α → Items κ α
  | [], k, v => [(k, v)]
  | x :: d, k, v => if x.1 = k then (k, v) :: d else x :: put d k v

def drop (d : Items κ α) (k : κ) : Items κ α := d.filter (·.1 ≠ k)

/-- A comprehension: a later item with the same key wins. -/
def ofItems (xs : Items κ α) : Items κ α := xs.foldl (fun d x => put d x.1 x.2) []

@[simp] theorem get_nil (k : κ) : get ([] : Items κ α) k = none := rfl

theorem get_cons (x : κ × α) (d : Items κ α) (k : κ) : get (x :: d) k = if x.1 = k then some x.2 else get d k := by
  by_cases h : x.1 = k <;> simp [get, h]

theorem mem_of_get {d : Items κ α} {k : κ} {v : α} (h : get d k = some v) : (k, v) ∈ d := by
  simp only [get, Option.map_eq_some_iff] at h
  obtain ⟨x, hx, rfl⟩ := h
  have hk : x.1 = k := by simpa using List.find?_some hx
  subst hk
  exact List.mem_of_find?_eq_some hx

theorem get_isSome {d : Items κ α} {k : κ} {v : α} (h : (k, v) ∈ d) : (get d k).isSome := by
  simp only [get, Option.isSome_map, List.find?_isSome]
  exact ⟨(k, v), h, by simp⟩

theorem get_eq_none {d : Items κ α} {k : κ} : get d k = none ↔ ∀ v, (k, v) ∉ d := by
  constructor
  · intro h v hv
    have := get_isSome hv
    simp [h] at this
  · intro h
    cases hg : get d k with
    | none => rfl
    | some v => exact absurd (mem_of_get hg) (h v)

@[simp] theorem get_put_self (d : Items κ α) (k : κ) (v : α) : get (put d k v) k = some v := by
  induction d with
  | nil => simp [put, get_cons]
  | cons x d ih =>
    by_cases h : x.1 = k
    · simp [put, h, get_cons]
    · simp [put, h, get_cons, ih]

theorem get_put_ne (d : Items κ α) {k k' : κ} (v : α) (h : k ≠ k') : get (put d k v) k' = get d k' := by
  induction d with
  | nil => simp [put, get_cons, h]
  | cons x d ih =>
    by_cases hx : x.1 = k
    · simp [put, hx, get_cons, h]
    · simp [put, hx, get_cons, ih]

theorem mem_put {d : Items κ α} {k : κ} {v : α} {x : κ × α} (h : x ∈ put d k v) : x = (k, v) ∨ x ∈ d := by
  induction d with
  | nil => simpa [put] using h
  | cons y d ih =>
    by_cases hy : y.1 = k
    · simp only [put, hy, if_true, List.mem_cons] at h
      rcases h with h | h
      · exact Or.inl h
      · exact Or.inr (List.mem_cons_of_mem _ h)
    · simp only [put, hy, if_false, List.mem_cons] at h
      rcases h with rfl | h
      · exact Or.inr (List.mem_cons_self ..)
      · exact (ih h).imp_right (List.mem_cons_of_mem _)

theorem mem_drop {d : Items κ α} {k : κ} {x : κ × α} : x ∈ drop d k ↔ x ∈ d ∧ x.1 ≠ k := by
  simp [drop]

theorem get_drop_ne (d : Items κ α) {k k' : κ} (h : k ≠ k') : get (drop d k) k' = get d k' := by
  induction d with
  | nil => rfl
  | cons x d ih =>
    unfold drop at ih ⊢
    by_cases hx : x.1 = k
    · have hk : ¬x.1 = k' := fun he => h (hx.symm.trans he)
      rw [List.filter_cons_of_neg (by simpa using hx), ih, get_cons, if_neg hk]
    · rw [List.filter_cons_of_pos (by simpa using hx), get_cons, get_cons, ih]

theorem put_keys (d : Items κ α) (k : κ) (v : α) :
    (put d k v).map (·.1) = d.map (·.1) ∨ k ∉ d.map (·.1) ∧ (put d k v).map (·.1) = d.map (·.1) ++ [k] := by
  induction d with
  | nil => exact Or.inr ⟨by simp, rfl⟩
  | cons x d ih =>
    by_cases h : x.1 = k
    · left
      simp [put, h]
    · simp only [put, h, if_false, List.map_cons]
      rcases ih with ih | ⟨hk, ih⟩
      · left
        rw [ih]
      · right
        refine ⟨?_, by rw [ih, List.cons_append]⟩
        simp only [List.mem_cons, not_or]
        exact ⟨Ne.symm h, hk⟩

/-- A dictionary built by `put` has each key once. -/
theorem put_nodup {d : Items κ α} (h : (d.map (·.1)).Nodup) (k : κ) (v : α) : ((put d k v).map (·.1)).Nodup := by
  rcases put_keys d k v with hk | ⟨hk, he⟩
  · rw [hk]; exact h
  · rw [he, List.nodup_append]
    refine ⟨h, List.nodup_singleton k, ?_⟩
    intro a ha b hb
    rw [List.mem_singleton.mp hb]
    rintro rfl
    exact hk ha

theorem mem_ofItems {xs : Items κ α} {x : κ × α} (h : x ∈ ofItems xs) : x ∈ xs := by
  have hfold : ∀ (ys d : Items κ α), x ∈ ys.foldl (fun d y => put d y.1 y.2) d → x ∈ d ∨ x ∈ ys := by
    intro ys
    induction ys with
    | nil => intro d hx; exact Or.inl hx
    | cons y ys ih =>
      intro d hx
      rcases ih _ hx with hx | hx
      · rcases mem_put hx with rfl | hx
        · exact Or.inr (List.mem_cons_self ..)
        · exact Or.inl hx
      · exact Or.inr (List.mem_cons_of_mem _ hx)
  simpa using hfold xs [] h

theorem mem_keys_put {d : Items κ α} {k k' : κ} {v : α} :
    k' ∈ (put d k v).map (·.1) ↔ k' = k ∨ k' ∈ d.map (·.1) := by
  induction d with
  | nil => simp [put]
  | cons x d ih =>
    by_cases h : x.1 = k
    · simp [put, h]
    · simp only [put, h, if_false, List.map_cons, List.mem_cons, ih]
      tauto

theorem get_of_nodup {d : Items κ α} (h : (d.map (·.1)).Nodup) {k : κ} {v : α} (hm : (k, v) ∈ d) :
    get d k = some v := by
  induction d with
  | nil => cases hm
  | cons x d ih =>
    rw [List.map_cons, List.nodup_cons] at h
    rw [get_cons]
    rcases List.mem_cons.mp hm with rfl | hm
    · simp
    · have hx : x.1 ≠ k := by
        rintro rfl
        exact h.1 (List.mem_map.mpr ⟨_, hm, rfl⟩)
      rw [if_neg hx]
      exact ih h.2 hm

theorem ofItems_keys (xs : Items κ α) : ((ofItems xs).map (·.1)).Nodup := by
  have hfold : ∀ (ys d : Items κ α), (d.map (·.1)).Nodup →
      ((ys.foldl (fun d y => put d y.1 y.2) d).map (·.1)).Nodup := by
    intro ys
    induction ys with
    | nil => intro d hd; exact hd
    | cons y ys ih => intro d hd; exact ih _ (put_nodup hd _ _)
  exact hfold xs [] (by simp)

theorem mem_keys_ofItems {xs : Items κ α} {k : κ} : k ∈ (ofItems xs).map (·.1) ↔ k ∈ xs.map (·.1) := by
  have hfold : ∀ (ys d : Items κ α), k ∈ (ys.foldl (fun d y => put d y.1 y.2) d).map (·.1) ↔
      k ∈ d.map (·.1) ∨ k ∈ ys.map (·.1) := by
    intro ys
    induction ys with
    | nil => intro d; simp
    | cons y ys ih =>
      intro d
      rw [List.foldl_cons, ih, mem_keys_put, List.map_cons, List.mem_cons]
      grind
  exact (hfold xs []).trans (by simp)

theorem put_map {β : Type} (f : α → β) (d : Items κ α) (k : κ) (v : α) :
    put (d.map fun x => (x.1, f x.2)) k (f v) = (put d k v).map fun x => (x.1, f x.2) := by
  induction d with
  | nil => rfl
  | cons x d ih =>
    by_cases h : x.1 = k
    · simp [put, h]
    · simp [put, h, ih]

theorem ofItems_map {β : Type} (f : α → β) (xs : Items κ α) :
    ofItems (xs.map fun x => (x.1, f x.2)) = (ofItems xs).map fun x => (x.1, f x.2) := by
  have hfold : ∀ (ys d : Items κ α),
      (ys.map fun x => (x.1, f x.2)).foldl (fun d y => put d y.1 y.2) (d.map fun x => (x.1, f x.2)) =
        (ys.foldl (fun d y => put d y.1 y.2) d).map fun x => (x.1, f x.2) := by
    intro ys
    induction ys with
    | nil => intro d; rfl
    | cons y ys ih =>
      intro d
      rw [List.map_cons, List.foldl_cons, List.foldl_cons, ← ih, put_map]
  exact hfold xs []

theorem put_new {d : Items κ α} {k : κ} (h : k ∉ d.map (·.1)) (v : α) : put d k v = d ++ [(k, v)] := by
  induction d with
  | nil => rfl
  | cons x d ih =>
    simp only [List.map_cons, List.mem_cons, not_or] at h
    rw [put, if_neg (Ne.symm h.1), ih h.2, List.cons_append]

theorem ofItems_nodup {xs : Items κ α} (h : (xs.map (·.1)).Nodup) : ofItems xs = xs := by
  have hfold : ∀ (ys d : Items κ α), ((d ++ ys).map (·.1)).Nodup →
      ys.foldl (fun d x => put d x.1 x.2) d = d ++ ys := by
    intro ys
    induction ys with
    | nil => simp
    | cons y ys ih =>
      intro d hd
      have hy : y.1 ∉ d.map (·.1) := by
        rw [List.map_append, List.nodup_append] at hd
        intro hmem
        exact hd.2.2 _ hmem _ (by simp) rfl
      rw [List.foldl_cons, put_new hy, ih _ (by simpa using hd)]
      simp
  exact hfold xs [] h

theorem get_iff {d : Items κ α} (h : (d.map (·.1)).Nodup) {k : κ} {v : α} : get d k = some v ↔ (k, v) ∈ d :=
  ⟨mem_of_get, get_of_nodup h⟩

omit [DecidableEq κ] in
theorem eraseDups_nodup [BEq α] [LawfulBEq α] (l : List α) : l.eraseDups.Nodup := by
  induction hn : l.length using Nat.strongRecOn generalizing l with
  | _ n ih =>
    cases l with
    | nil => simp
    | cons a l =>
      rw [List.eraseDups_cons, List.nodup_cons]
      refine ⟨by simp, ?_⟩
      apply ih _ _ _ rfl
      have := List.length_filter_le (fun b => !b == a) l
      simp only [List.length_cons] at hn
      omega

omit [DecidableEq κ] in
theorem eraseDups_filter [BEq α] [LawfulBEq α] (p : α → Bool) (l : List α) :
    (l.filter p).eraseDups = l.eraseDups.filter p := by
  induction hn : l.length using Nat.strongRecOn generalizing l with
  | _ n ih =>
    cases l with
    | nil => rfl
    | cons a l =>
      have hlen := List.length_filter_le (fun b => !b == a) l
      simp only [List.length_cons] at hn
      have hrest := ih _ (by omega) (l.filter fun b => !b == a) rfl
      by_cases ha : p a = true
      · rw [List.filter_cons_of_pos ha, List.eraseDups_cons, List.eraseDups_cons, List.filter_cons_of_pos ha, ← hrest]
        rw [List.filter_comm]
      · have hsame : (l.filter fun b => !b == a).filter p = l.filter p := by
          rw [List.filter_filter]
          refine List.filter_congr fun b _ => ?_
          by_cases hb : b = a
          · simp [hb, ha]
          · simp [hb]
        rw [List.filter_cons_of_neg ha, List.eraseDups_cons, List.filter_cons_of_neg ha, ← hrest, hsame]

end Cograph.Dict
