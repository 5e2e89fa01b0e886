import Mathlib.Data.List.Basic

/-!
# Registers read back from a log

A log of events, the last one first, and a register that an event sets, clears
or leaves alone. What the register holds is what the last event that touches it
says.
-/

namespace Cograph.Registers

variable {ε β : Type}

/-- `write e` is `none` where the event leaves the register alone, and else what
it puts there. -/
def lastWrite (write : ε → Option (Option β)) : List ε → Option β
  | [] => none
  | e :: log =>
    match write e with
    | none => lastWrite write log
    | some value => value

section
variable {write : ε → Option (Option β)} {e : ε} {log : List ε} {b : β}

@[simp] theorem lastWrite_nil : lastWrite write [] = none := rfl

theorem lastWrite_other (h : write e = none) : lastWrite write (e :: log) = lastWrite write log := by
  rw [lastWrite, h]

theorem lastWrite_write {value : Option β} (h : write e = some value) : lastWrite write (e :: log) = value := by
  rw [lastWrite, h]

/-- A log that is rewritten event by event. -/
theorem lastWrite_map {f : ε → ε} {g : β → β} (h : ∀ e, write (f e) = (write e).map (Option.map g)) :
    lastWrite write (log.map f) = (lastWrite write log).map g := by
  induction log with
  | nil => rfl
  | cons e log ih =>
    have hwrite := h e
    rw [List.map_cons]
    cases hold : write e with
    | none =>
      rw [hold] at hwrite
      rw [lastWrite_other hwrite, lastWrite_other hold, ih]
    | some value =>
      rw [hold] at hwrite
      rw [lastWrite_write hwrite, lastWrite_write hold]

end

end Cograph.Registers
