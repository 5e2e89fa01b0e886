import Mathlib.Data.List.Basic

/-!
# Three-valued logic

A truth value is true, false or unknown. Negation, conjunction and disjunction
are Kleene's: a known operand decides where it can, and else the unknown one
stays.
-/

namespace Cograph.Kleene

abbrev Tri := Option Bool

def tnot (a : Tri) : Tri := a.map (!·)

def tand (a b : Tri) : Tri :=
  if a = some false ∨ b = some false then some false
  else if a = some true ∧ b = some true then some true
  else none

def tor (a b : Tri) : Tri :=
  if a = some true ∨ b = some true then some true
  else if a = some false ∧ b = some false then some false
  else none

theorem tor_true (a b : Tri) : tor a b = some true ↔ a = some true ∨ b = some true := by
  unfold tor
  split
  · simp [*]
  · split <;> simp_all

theorem tand_true (a b : Tri) : tand a b = some true ↔ a = some true ∧ b = some true := by
  unfold tand
  split
  · rename_i hf
    rcases hf with hf | hf <;> simp [hf]
  · split <;> simp_all

theorem foldr_tand_true (xs : List Tri) : xs.foldr tand (some true) = some true ↔ ∀ x ∈ xs, x = some true := by
  induction xs with
  | nil => simp
  | cons x xs ih => simp [tand_true, ih]

/-! ## Formulas -/

inductive Formula (α : Type) where
  | atom (a : α)
  | not (f : Formula α)
  | and (f g : Formula α)
  | or (f g : Formula α)

def Formula.value {α : Type} (v : α → Tri) : Formula α → Tri
  | atom a => v a
  | not f => tnot (f.value v)
  | and f g => tand (f.value v) (g.value v)
  | or f g => tor (f.value v) (g.value v)

/-! ## Two-valued readings -/

theorem tnot_some (a : Tri) (b : Bool) : tnot a = some b ↔ a = some !b := by
  cases a with
  | none => simp [tnot]
  | some c => cases b <;> cases c <;> simp [tnot]

theorem tand_false (a b : Tri) : tand a b = some false ↔ a = some false ∨ b = some false := by
  unfold tand
  split
  · simp [*]
  · split <;> simp_all

theorem tor_false (a b : Tri) : tor a b = some false ↔ a = some false ∧ b = some false := by
  unfold tor
  split
  · rename_i ht
    rcases ht with ht | ht <;> simp [ht]
  · split <;> simp_all

def Formula.holds {α : Type} (ρ : α → Bool) : Formula α → Bool
  | atom a => ρ a
  | not f => !f.holds ρ
  | and f g => f.holds ρ && g.holds ρ
  | or f g => f.holds ρ || g.holds ρ

/-- The known atoms have their value, the others one of the assignment. -/
def completed {α : Type} (v : α → Tri) (u : α → Bool) (a : α) : Bool := (v a).getD (u a)

/-- A known value is the value under every assignment. -/
theorem Formula.value_sound {α : Type} (v : α → Tri) (u : α → Bool) (f : Formula α) :
    ∀ b, f.value v = some b → f.holds (completed v u) = b := by
  induction f with
  | atom a =>
    intro b h
    change v a = some b at h
    simp [holds, completed, h]
  | not f ih =>
    intro b h
    have hf := ih _ ((tnot_some _ b).1 h)
    simp [holds, hf]
  | and f g ihf ihg =>
    intro b h
    cases b with
    | true =>
      obtain ⟨hf, hg⟩ := (tand_true _ _).1 h
      simp [holds, ihf _ hf, ihg _ hg]
    | false =>
      rcases (tand_false _ _).1 h with hf | hg
      · simp [holds, ihf _ hf]
      · simp [holds, ihg _ hg]
  | or f g ihf ihg =>
    intro b h
    cases b with
    | true =>
      rcases (tor_true _ _).1 h with hf | hg
      · simp [holds, ihf _ hf]
      · simp [holds, ihg _ hg]
    | false =>
      obtain ⟨hf, hg⟩ := (tor_false _ _).1 h
      simp [holds, ihf _ hf, ihg _ hg]

end Cograph.Kleene
