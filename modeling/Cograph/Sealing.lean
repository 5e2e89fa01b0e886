import Mathlib.Data.List.Basic

/-!
# Sealed values and keys that are replaced

A scheme seals a value under a key, with a random number that the value does
not depend on. `rekey` is what a migration does with one token: it leaves alone
what opens under the new key, seals again what opens under the old one, and
gives up on the rest.
-/

namespace Cograph.Sealing

variable {Key Value Token : Type}

structure Scheme (Key Value Token : Type) where
  sealWith : Key → ℕ → Value → Token
  open? : Key → Token → Option Value

structure Scheme.Lawful (scheme : Scheme Key Value Token) : Prop where
  opens : ∀ k iv v, scheme.open? k (scheme.sealWith k iv v) = some v
  refuses : ∀ k k' iv v, k ≠ k' → scheme.open? k' (scheme.sealWith k iv v) = none

variable {scheme : Scheme Key Value Token}

/-- The token was made under `k` from `v`. -/
def Scheme.Sealed (scheme : Scheme Key Value Token) (k : Key) (v : Value) (token : Token) : Prop :=
  ∃ iv, token = scheme.sealWith k iv v

section
variable (laws : scheme.Lawful) {k k' : Key} {v v' : Value} {token : Token}
include laws

theorem Scheme.Sealed.open_self (h : scheme.Sealed k v token) : scheme.open? k token = some v := by
  obtain ⟨iv, rfl⟩ := h
  exact laws.opens k iv v

/-- A token opens under its own key only, and to its own value. -/
theorem Scheme.Sealed.open_iff (h : scheme.Sealed k v token) :
    scheme.open? k' token = some v' ↔ k' = k ∧ v' = v := by
  constructor
  · intro hopen
    by_cases hk : k' = k
    · subst hk
      rw [h.open_self laws] at hopen
      exact ⟨rfl, (Option.some.inj hopen).symm⟩
    · obtain ⟨iv, rfl⟩ := h
      rw [laws.refuses k k' iv v (Ne.symm hk)] at hopen
      cases hopen
  · rintro ⟨rfl, rfl⟩
    exact h.open_self laws

theorem Scheme.Sealed.open_none (h : scheme.Sealed k v token) (hk : k' ≠ k) : scheme.open? k' token = none := by
  cases hopen : scheme.open? k' token with
  | none => rfl
  | some v' => exact absurd ((h.open_iff laws).1 hopen).1 hk

theorem Scheme.Sealed.value_unique (h : scheme.Sealed k v token) (h' : scheme.Sealed k' v' token) : v' = v :=
  ((h.open_iff laws).1 (h'.open_self laws)).2

end

/-! ## One token of a migration -/

inductive Rekeyed (Token : Type) where
  | already
  | migrated (token : Token)
  | failed

def rekey (scheme : Scheme Key Value Token) (old new : Key) (iv : ℕ) (token : Token) : Rekeyed Token :=
  match scheme.open? new token with
  | some _ => .already
  | none =>
    match scheme.open? old token with
    | some v => .migrated (scheme.sealWith new iv v)
    | none => .failed

section
variable {old new : Key} {iv : ℕ} {v : Value} {token token' : Token}

theorem rekey_already_iff :
    rekey scheme old new iv token = .already ↔ ∃ v, scheme.open? new token = some v := by
  unfold rekey
  split
  · rename_i v hnew
    exact ⟨fun _ => ⟨v, hnew⟩, fun _ => rfl⟩
  · rename_i hnew
    rw [hnew]
    split
    · exact ⟨nofun, nofun⟩
    · exact ⟨nofun, nofun⟩

/-- What is migrated had the old key and has the new one, and keeps its value. -/
theorem rekey_migrated (h : rekey scheme old new iv token = .migrated token') :
    scheme.open? new token = none ∧ ∃ v, scheme.open? old token = some v ∧ token' = scheme.sealWith new iv v := by
  unfold rekey at h
  split at h
  · cases h
  · rename_i hnew
    split at h
    · rename_i v hold
      cases h
      exact ⟨hnew, v, hold, rfl⟩
    · cases h

theorem rekey_failed_iff :
    rekey scheme old new iv token = .failed ↔ scheme.open? new token = none ∧ scheme.open? old token = none := by
  unfold rekey
  cases scheme.open? new token <;> cases scheme.open? old token <;> simp

end

end Cograph.Sealing
