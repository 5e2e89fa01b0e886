import Mathlib.Data.List.Nodup
import Mathlib.Data.Nat.Find

/-!
# Breadth-first order

A graph is a function from a vertex to its successors. `rounds` lists the
vertices a search comes to, level by level and each with the number of its
level, and that number is the length of the shortest walk from the root.
-/

namespace Cograph.Bfs

variable {α : Type}

/-! ## Distance -/

section
variable (next : α → List α) (root : α)

/-- A walk of `n` steps leads from the root to the vertex. -/
def Steps : Nat → α → Prop
  | 0, x => x = root
  | n + 1, x => ∃ y, Steps n y ∧ x ∈ next y

/-- The shortest walk to the vertex has `n` steps. -/
def AtDistance (n : Nat) (x : α) : Prop := Steps next root n x ∧ ∀ m < n, ¬Steps next root m x

end

section
variable {next : α → List α} {root : α} {n m d : Nat} {x : α}

theorem AtDistance.unique (h : AtDistance next root n x) (h' : AtDistance next root m x) : n = m := by
  rcases Nat.lt_trichotomy n m with hlt | heq | hlt
  · exact absurd h.1 (h'.2 n hlt)
  · exact heq
  · exact absurd h'.1 (h.2 m hlt)

theorem Steps.dist (h : Steps next root n x) : ∃ d ≤ n, AtDistance next root d x := by
  classical
  have hex : ∃ d, Steps next root d x := ⟨n, h⟩
  exact ⟨Nat.find hex, Nat.find_min' hex h, Nat.find_spec hex, fun m hm => Nat.find_min hex hm⟩

@[simp] theorem dist_zero : AtDistance next root 0 x ↔ x = root := by
  simp [AtDistance, Steps]

/-- A vertex of the next level follows one of this level and lies in no level
so far. -/
theorem dist_succ : AtDistance next root (n + 1) x ↔
    (∃ y, AtDistance next root n y ∧ x ∈ next y) ∧ ∀ d ≤ n, ¬AtDistance next root d x := by
  constructor
  · intro ⟨⟨y, hy, hx⟩, hmin⟩
    constructor
    · refine ⟨y, ⟨hy, ?_⟩, hx⟩
      intro m hm hs
      exact hmin (m + 1) (by omega) ⟨y, hs, hx⟩
    · intro d hd h
      exact hmin d (by omega) h.1
  · intro ⟨⟨y, hy, hx⟩, hnone⟩
    refine ⟨⟨y, hy.1, hx⟩, ?_⟩
    intro m hm hs
    obtain ⟨d, hd, h⟩ := hs.dist
    exact hnone d (by omega) h

end

/-! ## Levels -/

variable [DecidableEq α]

/-- The members of a list that are not seen yet, each where it first stands. -/
def fresh (seen : List α) : List α → List α
  | [] => []
  | x :: xs => if x ∈ seen then fresh seen xs else x :: fresh (seen ++ [x]) xs

theorem mem_fresh {seen xs : List α} {x : α} : x ∈ fresh seen xs ↔ x ∈ xs ∧ x ∉ seen := by
  induction xs generalizing seen with
  | nil => simp [fresh]
  | cons y xs ih =>
    unfold fresh
    split
    · rw [ih]
      grind
    · rw [List.mem_cons, ih]
      grind

theorem fresh_nodup (seen xs : List α) : (fresh seen xs).Nodup := by
  induction xs generalizing seen with
  | nil => simp [fresh]
  | cons y xs ih =>
    unfold fresh
    split
    · exact ih seen
    · rw [List.nodup_cons, mem_fresh]
      exact ⟨by simp, ih _⟩

section
variable (next : α → List α) (root : α)

/-- The vertices after `n` rounds with their levels, and the last level. -/
def rounds : Nat → List (α × Nat) × List α
  | 0 => ([(root, 0)], [root])
  | n + 1 =>
    let level := fresh ((rounds n).1.map (·.1)) ((rounds n).2.flatMap next)
    ((rounds n).1 ++ level.map (·, n + 1), level)

end

variable {next : α → List α} {root : α} {n m d : Nat} {x : α}

/-- **The levels are the distances.** -/
theorem rounds_spec (n : Nat) : (∀ x d, (x, d) ∈ (rounds next root n).1 ↔ d ≤ n ∧ AtDistance next root d x) ∧
    ∀ x, x ∈ (rounds next root n).2 ↔ AtDistance next root n x := by
  induction n with
  | zero =>
    constructor
    · intro x d
      simp only [rounds, List.mem_singleton, Prod.mk.injEq, Nat.le_zero]
      constructor
      · intro ⟨hx, hd⟩
        exact ⟨hd, hd ▸ dist_zero.2 hx⟩
      · intro ⟨hd, hx⟩
        exact ⟨dist_zero.1 (hd ▸ hx), hd⟩
    · intro x
      simp [rounds]
  | succ n ih =>
    obtain ⟨hseen, hlevel⟩ := ih
    have hkeys : ∀ x, x ∈ (rounds next root n).1.map (·.1) ↔ ∃ d ≤ n, AtDistance next root d x := by
      intro x
      simp [hseen]
    have hfront : ∀ x, x ∈ (rounds next root (n + 1)).2 ↔ AtDistance next root (n + 1) x := by
      intro x
      simp only [rounds, mem_fresh, hkeys, List.mem_flatMap, hlevel, dist_succ]
      simp
    refine ⟨?_, hfront⟩
    intro x d
    have hnew : (x, d) ∈ (rounds next root (n + 1)).1 ↔
        (x, d) ∈ (rounds next root n).1 ∨ d = n + 1 ∧ x ∈ (rounds next root (n + 1)).2 := by
      simp only [rounds, List.mem_append, List.mem_map, Prod.mk.injEq]
      grind
    rw [hnew, hseen, hfront]
    constructor
    · intro h
      rcases h with ⟨hd, h⟩ | ⟨rfl, h⟩
      · exact ⟨by omega, h⟩
      · exact ⟨Nat.le_refl _, h⟩
    · intro ⟨hd, h⟩
      by_cases hn : d ≤ n
      · exact .inl ⟨hn, h⟩
      · obtain rfl : d = n + 1 := by omega
        exact .inr ⟨rfl, h⟩

theorem mem_rounds : (x, d) ∈ (rounds next root n).1 ↔ d ≤ n ∧ AtDistance next root d x := (rounds_spec n).1 x d

theorem mem_level : x ∈ (rounds next root n).2 ↔ AtDistance next root n x := (rounds_spec n).2 x

theorem rounds_nodup (n : Nat) : ((rounds next root n).1.map (·.1)).Nodup := by
  induction n with
  | zero => simp [rounds]
  | succ n ih =>
    simp only [rounds, List.map_append, List.map_map, Function.comp_def, List.map_id']
    refine List.nodup_append.2 ⟨ih, fresh_nodup _ _, ?_⟩
    intro x hx y hy heq
    rw [← heq] at hy
    exact (mem_fresh.1 hy).2 hx

theorem rounds_extend (n k : Nat) : (rounds next root n).1 <+: (rounds next root (n + k)).1 := by
  induction k with
  | zero => exact List.prefix_rfl
  | succ k ih => exact ih.trans (List.prefix_append _ _)

theorem rounds_append (n k : Nat) : ∃ ys, (rounds next root (n + k)).1 = (rounds next root n).1 ++ ys := by
  obtain ⟨ys, hys⟩ := @rounds_extend _ _ next root n k
  exact ⟨ys, hys.symm⟩

theorem rounds_end (h : (rounds next root n).2 = []) (k : Nat) :
    rounds next root (n + k) = ((rounds next root n).1, []) := by
  induction k with
  | zero => rw [Nat.add_zero, ← h]
  | succ k ih => simp [rounds, ih, fresh]

end Cograph.Bfs
