import Mathlib

/-!
# Instants that come back

An instant is a slot of period `p` at offset `o` when it leaves the rest `o`.
The next slot behind an instant is the least one, and a counter that is set to
the next slot is due just when a slot has passed since.
-/

namespace Cograph.Slots

/-- The slots of period `p` at offset `o`. -/
def slots (p o : ℕ) : Set ℕ := {t | t % p = o}

/-- The first slot behind `t`. -/
def after (p o t : ℕ) : ℕ := t - t % p + o + if t % p < o then 0 else p

theorem mem_slots {p o t : ℕ} : t ∈ slots p o ↔ t % p = o := Iff.rfl

section
variable {p o : ℕ} (ho : o < p)

include ho in
theorem after_slot (t : ℕ) : after p o t ∈ slots p o := by
  have hbase : t - t % p = p * (t / p) := by
    have := Nat.div_add_mod t p
    omega
  rw [mem_slots, after, hbase, Nat.add_assoc, Nat.mul_add_mod]
  by_cases h : t % p < o
  · rw [if_pos h, Nat.add_zero, Nat.mod_eq_of_lt ho]
  · rw [if_neg h, Nat.add_mod_right, Nat.mod_eq_of_lt ho]

include ho in
theorem lt_after (t : ℕ) : t < after p o t := by
  have hp : 0 < p := Nat.zero_lt_of_lt ho
  have hmod := Nat.mod_lt t hp
  have hle := Nat.mod_le t p
  by_cases h : t % p < o
  · simp only [after, if_pos h]
    omega
  · simp only [after, if_neg h]
    omega

/-- Two slots of one period are a whole number of periods apart. -/
theorem slots_apart {s t : ℕ} (hs : s ∈ slots p o) (ht : t ∈ slots p o) (h : s < t) : s + p ≤ t := by
  rw [mem_slots] at hs ht
  have hs' := Nat.div_add_mod s p
  have ht' := Nat.div_add_mod t p
  have hlt : s / p < t / p := by
    by_contra hge
    have := Nat.mul_le_mul_left p (not_lt.mp hge)
    omega
  have hmul := Nat.mul_le_mul_left p hlt
  rw [Nat.mul_succ] at hmul
  omega

include ho in
theorem after_le {s t : ℕ} (hs : s ∈ slots p o) (h : t < s) : after p o t ≤ s := by
  have hp : 0 < p := Nat.zero_lt_of_lt ho
  have hslot := after_slot ho t
  by_contra hlt
  have hapart := slots_apart hs hslot (not_le.mp hlt)
  have hmod := Nat.mod_lt t hp
  have hle := Nat.mod_le t p
  rw [mem_slots] at hs
  by_cases hrest : t % p < o
  · rw [after, if_pos hrest] at hapart
    omega
  · rw [after, if_neg hrest] at hapart
    have hs' := Nat.div_add_mod s p
    have ht' := Nat.div_add_mod t p
    have hdiv : s / p ≤ t / p := by
      by_contra hgt
      have hmul := Nat.mul_le_mul_left p (not_le.mp hgt)
      rw [Nat.mul_succ] at hmul
      omega
    have hmul := Nat.mul_le_mul_left p hdiv
    omega

include ho in
/-- **The next slot** is the least slot that is still to come. -/
theorem after_isLeast (t : ℕ) : IsLeast {s | s ∈ slots p o ∧ t < s} (after p o t) :=
  ⟨⟨after_slot ho t, lt_after ho t⟩, fun _ hs => after_le ho hs.1 hs.2⟩

end

/-- A slot lies in between just when the least slot to come has passed. -/
theorem due_iff {S : Set ℕ} {n t u : ℕ} (h : IsLeast {s | s ∈ S ∧ t < s} n) : n ≤ u ↔ ∃ s ∈ S, t < s ∧ s ≤ u := by
  constructor
  · intro hn
    exact ⟨n, h.1.1, h.1.2, hn⟩
  · intro ⟨s, hs, hts, hsu⟩
    exact (h.2 ⟨hs, hts⟩).trans hsu

end Cograph.Slots
