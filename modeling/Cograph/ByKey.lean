import Mathlib.Data.List.Basic
import Mathlib.Data.List.Nodup

/-!
# Rows found by a key

A table whose key names a row only once: a lookup answers with a row if and
only if the table has it under that key.
-/

namespace ByKey

section
variable {α κ : Type*} [DecidableEq κ] {rows : List α} {key : α → κ} {k : κ} {row : α}

/-- A row that is found is in the table, under the key. -/
theorem find_mem (h : rows.find? (key · = k) = some row) : row ∈ rows ∧ key row = k :=
  ⟨List.mem_of_find?_eq_some h, by simpa using List.find?_some h⟩

theorem find_iff (hn : (rows.map key).Nodup) :
    rows.find? (key · = k) = some row ↔ row ∈ rows ∧ key row = k := by
  constructor
  · exact find_mem
  · intro ⟨hrow, hk⟩
    cases hf : rows.find? (key · = k) with
    | none => exact absurd hk (by simpa using List.find?_eq_none.1 hf row hrow)
    | some found =>
      obtain ⟨hfound, hkey⟩ := find_mem hf
      rw [List.inj_on_of_nodup_map hn hfound hrow (hkey.trans hk.symm)]

/-- The lookup under a row's own key finds it. -/
theorem find_self (hn : (rows.map key).Nodup) (hrow : row ∈ rows) : rows.find? (key · = key row) = some row :=
  (find_iff hn).2 ⟨hrow, rfl⟩

end

end ByKey
