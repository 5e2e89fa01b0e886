import Mathlib

/-!
# Where a word stands in a text

The first place of a word, and its places in a stretch of the text.
-/

namespace Occurs

section
variable {α : Type} [DecidableEq α]

/-- The first place where `y` begins in the text. -/
def find : List α → List α → Option Nat
  | [], y => if y = [] then some 0 else none
  | c :: s, y => if y.isPrefixOf (c :: s) then some 0 else (find s y).map (· + 1)

theorem find_some {y : List α} : ∀ {s : List α} {k : Nat},
    find s y = some k ↔ k ≤ s.length ∧ y <+: s.drop k ∧ ∀ j < k, ¬y <+: s.drop j
  | [], k => by
    unfold find
    constructor
    · intro h
      split at h
      · next hy =>
        cases h
        exact ⟨le_rfl, by simp [hy], fun j hj => absurd hj (by omega)⟩
      · cases h
    · intro h
      obtain ⟨hk, hy, _⟩ := h
      have hk0 : k = 0 := by simpa using hk
      rw [if_pos (by simpa using hy), hk0]
  | c :: s, k => by
    unfold find
    by_cases hp : y <+: c :: s
    · rw [if_pos (List.isPrefixOf_iff_prefix.2 hp)]
      constructor
      · intro h
        cases h
        exact ⟨Nat.zero_le _, hp, fun j hj => absurd hj (by omega)⟩
      · intro h
        cases k with
        | zero => rfl
        | succ k => exact absurd hp (h.2.2 0 (Nat.succ_pos k))
    · rw [if_neg (fun h => hp (List.isPrefixOf_iff_prefix.1 h))]
      cases k with
      | zero =>
        constructor
        · intro h
          simp at h
        · intro h
          exact absurd h.2.1 hp
      | succ k =>
        rw [Option.map_eq_some_iff]
        constructor
        · intro h
          obtain ⟨i, hi, he⟩ := h
          obtain rfl : i = k := by omega
          obtain ⟨hk, hy, hmin⟩ := find_some.1 hi
          refine ⟨by simpa using hk, hy, ?_⟩
          intro j hj
          cases j with
          | zero => exact hp
          | succ j => exact hmin j (by omega)
        · intro h
          obtain ⟨hk, hy, hmin⟩ := h
          refine ⟨k, find_some.2 ⟨by simpa using hk, hy, ?_⟩, rfl⟩
          intro j hj
          exact hmin (j + 1) (by omega)

theorem find_none {s y : List α} : find s y = none ↔ ∀ k ≤ s.length, ¬y <+: s.drop k := by
  constructor
  · intro h k
    induction k using Nat.strong_induction_on with
    | _ k ih =>
      intro hk hy
      have hsome : find s y = some k := find_some.2 ⟨hk, hy, fun j hj => ih j hj (by omega)⟩
      rw [h] at hsome
      cases hsome
  · intro h
    cases hf : find s y with
    | none => rfl
    | some k => exact absurd (find_some.1 hf).2.1 (h k (find_some.1 hf).1)

omit [DecidableEq α] in
theorem singleton_prefix_drop {s : List α} {c : α} {k : Nat} : [c] <+: s.drop k ↔ s[k]? = some c := by
  rw [← List.head?_drop]
  cases s.drop k with
  | nil => simp
  | cons d r => simp [List.cons_prefix_cons, eq_comm]

theorem find_singleton {s : List α} {c : α} {k : Nat} :
    find s [c] = some k ↔ s[k]? = some c ∧ ∀ j < k, s[j]? ≠ some c := by
  rw [find_some]
  simp only [singleton_prefix_drop]
  constructor
  · intro h
    exact h.2
  · intro h
    have hk : k < s.length := (List.getElem?_eq_some_iff.1 h.1).1
    exact ⟨by omega, h⟩

theorem find_singleton_none {s : List α} {c : α} : find s [c] = none ↔ ∀ j : Nat, s[j]? ≠ some c := by
  rw [find_none]
  simp only [singleton_prefix_drop]
  constructor
  · intro h j hj
    have hlt : j < s.length := (List.getElem?_eq_some_iff.1 hj).1
    exact h j (by omega) hj
  · intro h j _
    exact h j

end

/-! ## Stretches -/

section
variable {α : Type} {s y : List α}

/-- `s[i:j]`. -/
def stretch (s : List α) (i j : Nat) : List α := (s.take j).drop i

theorem stretch_length {i j : Nat} (hj : j ≤ s.length) : (stretch s i j).length = j - i := by
  rw [stretch, List.length_drop, List.length_take, min_eq_left hj]

theorem stretch_get {i j k : Nat} (hk : i + k < j) : (stretch s i j)[k]? = s[i + k]? := by
  rw [stretch, List.getElem?_drop, List.getElem?_take_of_lt hk]

theorem stretch_drop (s : List α) (i j k : Nat) : (stretch s i j).drop k = stretch s (i + k) j := by
  rw [stretch, List.drop_drop, stretch]

theorem stretch_take {i j k : Nat} (hk : i + k ≤ j) : (stretch s i j).take k = stretch s i (i + k) := by
  rw [stretch, stretch, List.take_drop, List.take_take, min_eq_left hk]

theorem stretch_inside (s : List α) (i j : Nat) : stretch s i j <:+: s :=
  (List.drop_suffix _ _).isInfix.trans (List.take_prefix _ _).isInfix

theorem place_le (hy : y ≠ []) {k : Nat} (h : y <+: s.drop k) : k + y.length ≤ s.length := by
  have hpos : 0 < y.length := List.length_pos_of_ne_nil hy
  have hle := h.length_le
  rw [List.length_drop] at hle
  omega

/-- A word of a stretch stands between its ends. -/
theorem infix_stretch (hy : y ≠ []) {i j : Nat} :
    y <:+: stretch s i j ↔ ∃ k, i ≤ k ∧ k + y.length ≤ j ∧ y <+: s.drop k := by
  have hpos : 0 < y.length := List.length_pos_of_ne_nil hy
  have hplace (n : Nat) : y <+: stretch s n j ↔ y <+: s.drop n ∧ y.length ≤ j - n := by
    rw [stretch, List.drop_take, List.prefix_take_iff]
  constructor
  · intro h
    obtain ⟨u, v, huv⟩ := h
    have hpre : y <+: (stretch s i j).drop u.length := by
      rw [← huv, List.append_assoc, List.drop_left]
      exact List.prefix_append y v
    rw [stretch_drop, hplace] at hpre
    exact ⟨i + u.length, Nat.le_add_right _ _, by omega, hpre.1⟩
  · intro h
    obtain ⟨k, hik, hkj, hk⟩ := h
    have hpre : y <+: (stretch s i j).drop (k - i) := by
      rw [stretch_drop, Nat.add_sub_cancel' hik, hplace]
      exact ⟨hk, by omega⟩
    exact hpre.isInfix.trans (List.drop_suffix _ _).isInfix

theorem infix_iff_place (hy : y ≠ []) : y <:+: s ↔ ∃ k, y <+: s.drop k := by
  have h := infix_stretch (s := s) hy (i := 0) (j := s.length)
  rw [stretch, List.take_length, List.drop_zero] at h
  rw [h]
  constructor
  · intro h
    obtain ⟨k, _, _, hk⟩ := h
    exact ⟨k, hk⟩
  · intro h
    obtain ⟨k, hk⟩ := h
    exact ⟨k, Nat.zero_le k, place_le hy hk, hk⟩

/-! ## Words and what they do not hold -/

variable {z : List α}

theorem prefix_of_apart (hy : y ≠ []) (hz : ∀ d ∈ z, d ∉ y) (h : y <+: z ++ s) : z = [] := by
  cases z with
  | nil => rfl
  | cons d z =>
    cases y with
    | nil => exact absurd rfl hy
    | cons e y =>
      rw [List.cons_append, List.cons_prefix_cons] at h
      exact absurd (h.1 ▸ List.mem_cons_self) (hz d List.mem_cons_self)

/-- What holds nothing of a word does not help to spell it. -/
theorem infix_apart_left (hy : y ≠ []) (hz : ∀ d ∈ z, d ∉ y) : y <:+: z ++ s ↔ y <:+: s := by
  constructor
  · intro h
    induction z with
    | nil => exact h
    | cons d z ih =>
      rw [List.cons_append, List.infix_cons_iff] at h
      rcases h with h | h
      · have := prefix_of_apart hy hz h
        cases this
      · exact ih (fun e he => hz e (List.mem_cons_of_mem d he)) h
  · intro h
    exact h.trans (List.suffix_append z s).isInfix

theorem infix_apart_right (hy : y ≠ []) (hz : ∀ d ∈ z, d ∉ y) : y <:+: s ++ z ↔ y <:+: s := by
  rw [← List.reverse_infix, List.reverse_append, infix_apart_left (by simpa using hy) (by simpa using hz),
    List.reverse_infix]

variable {r r' : List α}

/-- What spells the same words spells the same behind a common start. -/
theorem prefix_append_congr (z : List α) (h : ∀ v, v <:+ y → (v <+: r ↔ v <+: r')) :
    y <+: z ++ r ↔ y <+: z ++ r' := by
  induction z generalizing y with
  | nil => exact h y List.suffix_rfl
  | cons d z ih =>
    cases y with
    | nil => simp
    | cons e y =>
      rw [List.cons_append, List.cons_append, List.cons_prefix_cons, List.cons_prefix_cons,
        ih fun v hv => h v (hv.trans (List.suffix_cons e y))]

theorem infix_append_congr (z : List α) (h : ∀ v, v <:+ y → (v <+: r ↔ v <+: r')) (hin : y <:+: r ↔ y <:+: r') :
    y <:+: z ++ r ↔ y <:+: z ++ r' := by
  induction z with
  | nil => exact hin
  | cons d z ih =>
    rw [List.cons_append, List.cons_append, List.infix_cons_iff, List.infix_cons_iff, ih]
    have hpre := prefix_append_congr (d :: z) h
    rw [List.cons_append, List.cons_append] at hpre
    rw [hpre]

end

/-- The pieces of a text hold no separator. -/
theorem splitOnP_mem {α : Type} {p : α → Bool} : ∀ {l : List α}, ∀ s ∈ l.splitOnP p, ∀ c ∈ s, p c = false
  | [], s, hs, c, hc => by
    rw [List.splitOnP_nil, List.mem_singleton] at hs
    rw [hs] at hc
    cases hc
  | d :: l, s, hs, c, hc => by
    rw [List.splitOnP_cons_eq_if_modifyHead] at hs
    split at hs
    · rcases List.mem_cons.1 hs with rfl | hs
      · cases hc
      · exact splitOnP_mem s hs c hc
    · next hd =>
      obtain ⟨u, us, hu⟩ := List.exists_cons_of_ne_nil (List.splitOnP_ne_nil p l)
      have hall : ∀ v ∈ u :: us, ∀ e ∈ v, p e = false := hu ▸ splitOnP_mem
      rw [hu, List.modifyHead_cons] at hs
      rcases List.mem_cons.1 hs with rfl | hs
      · rcases List.mem_cons.1 hc with rfl | hc
        · simpa using hd
        · exact hall u List.mem_cons_self c hc
      · exact hall s (List.mem_cons_of_mem u hs) c hc

end Occurs
