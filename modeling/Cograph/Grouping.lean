import Mathlib.Algebra.BigOperators.Group.List.Basic
import Mathlib.Data.List.Dedup

/-!
# Sums by key

Rows are grouped by a key. Over keys that are listed once, the sums of the
groups add up to the sum of the rows whose key is listed.
-/

namespace Cograph.Grouping

section
variable {ρ κ M : Type} [DecidableEq κ] [AddCommMonoid M] (key : ρ → κ) (f : ρ → M)

/-- `GROUP BY`: each key that occurs with its rows. -/
def groupBy (rows : List ρ) : List (κ × List ρ) := (rows.map key).dedup.map fun k => (k, rows.filter (key · = k))

theorem sum_indicator {keys : List κ} (hn : keys.Nodup) (k : κ) (x : M) :
    (keys.map fun k' => if k = k' then x else 0).sum = if k ∈ keys then x else 0 := by
  induction keys with
  | nil => simp
  | cons k' keys ih =>
    obtain ⟨hk', hn⟩ := List.nodup_cons.1 hn
    rw [List.map_cons, List.sum_cons, ih hn]
    by_cases hk : k = k'
    · subst hk
      simp [hk']
    · simp [hk]

/-- Each row counts for one key, if that key is listed. -/
theorem sum_keys {keys : List κ} (hn : keys.Nodup) (rows : List ρ) :
    (keys.map fun k => ((rows.filter (key · = k)).map f).sum).sum = ((rows.filter (key · ∈ keys)).map f).sum := by
  induction rows with
  | nil => simp
  | cons row rows ih =>
    have hrow (k : κ) : (((row :: rows).filter (key · = k)).map f).sum =
        (if key row = k then f row else 0) + ((rows.filter (key · = k)).map f).sum := by
      by_cases hk : key row = k <;> simp [hk]
    simp only [hrow, List.sum_map_add, sum_indicator hn, ih]
    by_cases hmem : key row ∈ keys <;> simp [hmem]

theorem sum_groupBy (rows : List ρ) :
    ((groupBy key rows).map fun g => (g.2.map f).sum).sum = (rows.map f).sum := by
  have hall : rows.filter (key · ∈ (rows.map key).dedup) = rows := by
    rw [List.filter_eq_self]
    intro row hrow
    simpa using ⟨row, hrow, rfl⟩
  simp only [groupBy, List.map_map, Function.comp_def]
  rw [sum_keys key f (List.nodup_dedup _), hall]

theorem find_groupBy (rows : List ρ) (k : κ) :
    ((groupBy key rows).find? (·.1 = k)).map (·.2) =
      if k ∈ rows.map key then some (rows.filter (key · = k)) else none := by
  have hfind (keys : List κ) : ((keys.map fun k => (k, rows.filter (key · = k))).find? (·.1 = k)).map (·.2) =
      if k ∈ keys then some (rows.filter (key · = k)) else none := by
    induction keys with
    | nil => simp
    | cons k' keys ih =>
      by_cases hk : k' = k
      · simp [hk]
      · have hk' : k ≠ k' := fun h => hk h.symm
        simpa [hk, hk'] using ih
  rw [groupBy, hfind]
  simp only [List.mem_dedup]

end

end Cograph.Grouping
