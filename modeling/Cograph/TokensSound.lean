import Cograph.Tokens

/-!
# Rotation of refresh tokens

Over every interleaving a token is exchanged once, a family has one token that
can be exchanged, and a family that is revoked gives out no more tokens.
-/

namespace Cograph.Auth

open Machine

/-! ## What a step does -/

/-- The token a request is about to exchange or has exchanged. -/
def Phase.holds : Phase → Option (TokenClaims × Nat)
  | .refreshing claims family | .matched claims family | .rotating claims family => some (claims, family)
  | .exchanged claims family _ => some (claims, family)
  | _ => none

def Phase.dooms : Phase → Option Nat
  | .reused family | .revoking family => some family
  | _ => none

/-- The request has obtained tokens of a family, or is about to answer with
them. -/
def Phase.Pays (f : Nat) (p : Phase) : Prop :=
  (∃ c, p = .answered (some c) ∧ c.family = some f) ∨ ∃ c j, p = .exchanged c f j

structure Moves (s : St) (r : Nat) (p : Phase) : Prop where
  holds : ∀ c f, p.holds = some (c, f) → (s.requests r).holds = some (c, f) ∨ c ∈ s.issued ∧ c.family = some f
  dooms : ∀ f, p.dooms = some f → ∃ row, s.families f = some row
  pays : ∀ f, ¬p.Pays f

theorem moves_answered (s : St) (r : Nat) : Moves s r (.answered none) where
  holds := by simp [Phase.holds]
  dooms := by simp [Phase.dooms]
  pays := by simp [Phase.Pays]

theorem moves_claims {s : St} {r : Nat} {p : Phase} {c : TokenClaims} {f : Nat} (hp : p.holds = some (c, f))
    (hd : p.dooms = none) (hpay : ∀ f, ¬p.Pays f)
    (h : (s.requests r).holds = some (c, f) ∨ c ∈ s.issued ∧ c.family = some f) : Moves s r p where
  holds c' f' hc := by
    rw [hp] at hc
    cases hc
    exact h
  dooms := by simp [hd]
  pays := hpay

theorem moves_dooms {s : St} {r f : Nat} {p : Phase} {row : RefreshTokenFamily} (hp : p.dooms = some f)
    (hh : p.holds = none) (hpay : ∀ f, ¬p.Pays f) (h : s.families f = some row) : Moves s r p where
  holds := by simp [hh]
  dooms f' hf := by
    rw [hp] at hf
    cases hf
    exact ⟨row, h⟩
  pays := hpay

inductive Effect (s : St) : Action → St → Prop
  | login {r u : Nat} (h : s.requests r = .idle) : Effect s (.login r u) (login s r u)
  | rotate {r f : Nat} {c : TokenClaims} {row : RefreshTokenFamily} (h : s.requests r = .rotating c f)
    (hrow : s.families f = some row) (hjti : row.currentJti = c.jti) (hlive : row.revokedAt = none) :
    Effect s (.rotate r) { s.goto r (.exchanged c f s.nextId) with
      families := Function.update s.families f (some { row with currentJti := s.nextId })
      exchanges := ⟨r, c⟩ :: s.exchanges
      nextId := s.nextId + 1 }
  | respond {r f j : Nat} {c : TokenClaims} (h : s.requests r = .exchanged c f j) :
    Effect s (.respond r) { s.goto r (.answered (some ⟨c.userId, some f, j⟩)) with
      issued := ⟨c.userId, some f, j⟩ :: s.issued }
  | revoke {r f now : Nat} {a : Action} (h : (s.requests r).dooms = some f) :
    Effect s a ((s.revoke f now).goto r (.answered none))
  | move {r : Nat} {p : Phase} {a : Action} (h : Moves s r p) : Effect s a (s.goto r p)

theorem present_effect {s : St} {r : Nat} {token : Option TokenClaims} {start : TokenClaims → Nat → Phase} {a : Action}
    (h : ∀ c f, c ∈ token → c.family = some f → Moves s r (start c f)) : Effect s a (present s r token start) := by
  unfold present
  split
  · exact .move (moves_answered s r)
  · rename_i c
    split
    · exact .move (moves_answered s r)
    · rename_i f hf
      exact .move (h c f rfl hf)

theorem readFamily_effect {s : St} {r f : Nat} {c : TokenClaims} {a : Action} (h : s.requests r = .refreshing c f) :
    Effect s a (readFamily s r c f) := by
  unfold readFamily
  split
  · exact .move (moves_answered s r)
  · rename_i row hrow
    split
    · exact .move (moves_answered s r)
    · split
      · exact .move (moves_dooms rfl rfl (by simp [Phase.Pays]) hrow)
      · exact .move (moves_claims rfl rfl (by simp [Phase.Pays]) (.inl (by rw [h]; rfl)))

theorem rotate_effect {s : St} {r f : Nat} {c : TokenClaims} (h : s.requests r = .rotating c f) :
    Effect s (.rotate r) (rotate s r c f) := by
  unfold rotate
  split
  · exact .move (moves_answered s r)
  · rename_i row hrow
    split
    · rename_i hcas
      exact .rotate h hrow hcas.1 hcas.2
    · exact .move (moves_answered s r)

theorem readLogout_effect {s : St} {r f : Nat} {a : Action} : Effect s a (readLogout s r f) := by
  unfold readLogout
  split
  · exact .move (moves_answered s r)
  · rename_i row hrow
    split
    · exact .move (moves_dooms rfl rfl (by simp [Phase.Pays]) hrow)
    · exact .move (moves_answered s r)

theorem effect_of_next {s s' : St} {a : Action} (h : next s a = some s') : Effect s a s' := by
  unfold next at h
  cases a with
  | login r u =>
    dsimp only at h
    split at h
    · cases h
      exact .login ‹_›
    · cases h
  | refresh r token =>
    dsimp only at h
    split at h
    · rename_i hok
      cases h
      refine present_effect fun c f hc hf => ?_
      exact moves_claims rfl rfl (by simp [Phase.Pays]) (.inr ⟨hok.2 c hc, hf⟩)
    · cases h
  | readFamily r =>
    dsimp only at h
    split at h
    · cases h
      exact readFamily_effect ‹_›
    · cases h
  | readUser r found =>
    dsimp only at h
    split at h
    · rename_i c f hr
      cases h
      cases found with
      | false => exact .move (moves_answered s r)
      | true => exact .move (moves_claims rfl rfl (by simp [Phase.Pays]) (.inl (by rw [hr]; rfl)))
    · cases h
  | rotate r =>
    dsimp only at h
    split at h
    · cases h
      exact rotate_effect ‹_›
    · cases h
  | respond r =>
    dsimp only at h
    split at h
    · cases h
      exact .respond ‹_›
    · cases h
  | revokeReused r now =>
    dsimp only at h
    split at h
    · rename_i f hr
      cases h
      exact .revoke (by rw [hr]; rfl)
    · cases h
  | logout r token =>
    dsimp only at h
    split at h
    · cases h
      refine present_effect fun c f _ _ => ⟨?_, ?_, ?_⟩ <;> simp [Phase.holds, Phase.dooms, Phase.Pays]
    · cases h
  | readLogout r =>
    dsimp only at h
    split at h
    · cases h
      exact readLogout_effect
    · cases h
  | revokeLogout r now =>
    dsimp only at h
    split at h
    · rename_i f hr
      cases h
      exact .revoke (by rw [hr]; rfl)
    · cases h

/-! ## The invariant -/

structure Inv (s : St) : Prop where
  rows : ∀ f row, s.families f = some row → f < s.nextId ∧ row.currentJti < s.nextId
  issued : ∀ c ∈ s.issued, ∃ f row, c.family = some f ∧ s.families f = some row ∧ row.userId = c.userId
  holds : ∀ r c f, (s.requests r).holds = some (c, f) → c ∈ s.issued ∧ c.family = some f
  dooms : ∀ r f, (s.requests r).dooms = some f → ∃ row, s.families f = some row
  spent : ∀ x ∈ s.exchanges, ∃ f row, x.token.family = some f ∧ s.families f = some row ∧
    row.currentJti ≠ x.token.jti ∧ x.token.jti < s.nextId
  once : (s.exchanges.map (·.token)).Nodup

theorem inv_init : Inv .init where
  rows := by simp [St.init]
  issued := by simp [St.init]
  holds := by simp [St.init, Phase.holds]
  dooms := by simp [St.init, Phase.dooms]
  spent := by simp [St.init]
  once := by simp [St.init]

theorem goto_all {s : St} {r : Nat} {p : Phase} {Q : Phase → Prop} (h : ∀ q, Q (s.requests q)) (hp : Q p) :
    ∀ q, Q ((s.goto r p).requests q) := by
  intro q
  by_cases hq : q = r
  · subst hq
    simpa [St.goto] using hp
  · simpa [St.goto, hq] using h q

theorem goto_holds {s : St} {r : Nat} {p : Phase} {P : TokenClaims → Nat → Prop}
    (h : ∀ q c f, (s.requests q).holds = some (c, f) → P c f) (hp : ∀ c f, p.holds = some (c, f) → P c f) :
    ∀ q c f, ((s.goto r p).requests q).holds = some (c, f) → P c f :=
  goto_all (Q := fun p => ∀ c f, p.holds = some (c, f) → P c f) h hp

theorem goto_dooms {s : St} {r : Nat} {p : Phase} {P : Nat → Prop}
    (h : ∀ q f, (s.requests q).dooms = some f → P f) (hp : ∀ f, p.dooms = some f → P f) :
    ∀ q f, ((s.goto r p).requests q).dooms = some f → P f :=
  goto_all (Q := fun p => ∀ f, p.dooms = some f → P f) h hp

theorem revoke_families {s : St} {f g now : Nat} {row : RefreshTokenFamily} (h : s.families g = some row) :
    ∃ row', (s.revoke f now).families g = some row' ∧ row'.userId = row.userId ∧ row'.currentJti = row.currentJti ∧
      (row.revokedAt ≠ none → row'.revokedAt ≠ none) := by
  by_cases hg : g = f
  · subst hg
    exact ⟨{ row with revokedAt := some now }, by simp [St.revoke, h], rfl, rfl, by simp⟩
  · exact ⟨row, by simp [St.revoke, hg, h], rfl, rfl, id⟩

theorem families_revoke {s : St} {f g now : Nat} {row : RefreshTokenFamily}
    (h : (s.revoke f now).families g = some row) : ∃ row', s.families g = some row' ∧ row.currentJti = row'.currentJti := by
  by_cases hg : g = f
  · subst hg
    simp only [St.revoke, Function.update_self, Option.map_eq_some_iff] at h
    obtain ⟨row', hrow, rfl⟩ := h
    exact ⟨row', hrow, rfl⟩
  · exact ⟨row, by simpa [St.revoke, hg] using h, rfl⟩

theorem inv_move {s : St} (h : Inv s) {r : Nat} {p : Phase} (hm : Moves s r p) : Inv (s.goto r p) where
  rows := h.rows
  issued := h.issued
  holds := goto_holds h.holds fun c f hc => (hm.holds c f hc).elim (h.holds r c f) id
  dooms := goto_dooms h.dooms hm.dooms
  spent := h.spent
  once := h.once

theorem inv_revoke {s : St} (h : Inv s) (f now : Nat) : Inv (s.revoke f now) where
  rows g row hg := by
    obtain ⟨row', hrow, hjti⟩ := families_revoke hg
    rw [hjti]
    exact h.rows g row' hrow
  issued c hc := by
    obtain ⟨g, row, hg, hrow, hu⟩ := h.issued c hc
    obtain ⟨row', hrow', hu', -⟩ := revoke_families hrow
    exact ⟨g, row', hg, hrow', hu'.trans hu⟩
  holds := h.holds
  dooms q g hq := by
    obtain ⟨row, hrow⟩ := h.dooms q g hq
    obtain ⟨row', hrow', -⟩ := revoke_families hrow
    exact ⟨row', hrow'⟩
  spent x hx := by
    obtain ⟨g, row, hg, hrow, hne, hlt⟩ := h.spent x hx
    obtain ⟨row', hrow', -, hjti, -⟩ := revoke_families hrow
    exact ⟨g, row', hg, hrow', by rw [hjti]; exact hne, hlt⟩
  once := h.once

theorem inv_login {s : St} (h : Inv s) (r u : Nat) : Inv (login s r u) := by
  have hold : ∀ g row, s.families g = some row → (login s r u).families g = some row := by
    intro g row hg
    have hlt := (h.rows g row hg).1
    have hne : g ≠ s.nextId := by omega
    simp [login, St.goto, hne, hg]
  constructor
  · intro g row hg
    by_cases hgn : g = s.nextId
    · subst hgn
      simp only [login, Function.update_self, Option.some.injEq] at hg
      subst hg
      simp [login]
    · have hs : s.families g = some row := by simpa [login, St.goto, hgn] using hg
      have := h.rows g row hs
      simp only [login]
      omega
  · intro c hc
    rcases List.mem_cons.1 hc with rfl | hc
    · exact ⟨s.nextId, ⟨u, s.nextId + 1, none⟩, rfl, by simp [login], rfl⟩
    · obtain ⟨g, row, hg, hrow, hu⟩ := h.issued c hc
      exact ⟨g, row, hg, hold g row hrow, hu⟩
  · refine goto_holds (fun q c f hq => ?_) (by simp [Phase.holds])
    have := h.holds q c f hq
    exact ⟨List.mem_cons_of_mem _ this.1, this.2⟩
  · refine goto_dooms (fun q f hq => ?_) (by simp [Phase.dooms])
    obtain ⟨row, hrow⟩ := h.dooms q f hq
    exact ⟨row, hold f row hrow⟩
  · intro x hx
    obtain ⟨g, row, hg, hrow, hne, hlt⟩ := h.spent x hx
    refine ⟨g, row, hg, hold g row hrow, hne, ?_⟩
    simp only [login]
    omega
  · exact h.once

theorem inv_respond {s : St} (h : Inv s) {r f j : Nat} {c : TokenClaims} (hr : s.requests r = .exchanged c f j) :
    Inv { s.goto r (.answered (some ⟨c.userId, some f, j⟩)) with issued := ⟨c.userId, some f, j⟩ :: s.issued } where
  rows := h.rows
  issued c' hc := by
    rcases List.mem_cons.1 hc with rfl | hc
    · obtain ⟨hissued, hf⟩ := h.holds r c f (by rw [hr]; rfl)
      obtain ⟨g, row, hg, hrow, hu⟩ := h.issued c hissued
      obtain rfl : f = g := Option.some.inj (hf.symm.trans hg)
      exact ⟨f, row, rfl, hrow, hu⟩
    · exact h.issued c' hc
  holds := by
    refine goto_holds (fun q c' g hq => ?_) (by simp [Phase.holds])
    have := h.holds q c' g hq
    exact ⟨List.mem_cons_of_mem _ this.1, this.2⟩
  dooms := goto_dooms h.dooms (by simp [Phase.dooms])
  spent := h.spent
  once := h.once

theorem inv_rotate {s : St} (h : Inv s) {r f : Nat} {c : TokenClaims} {row : RefreshTokenFamily}
    (hr : s.requests r = .rotating c f) (hrow : s.families f = some row) (hjti : row.currentJti = c.jti) :
    Inv { s.goto r (.exchanged c f s.nextId) with
      families := Function.update s.families f (some { row with currentJti := s.nextId })
      exchanges := ⟨r, c⟩ :: s.exchanges
      nextId := s.nextId + 1 } := by
  obtain ⟨hissued, hf⟩ := h.holds r c f (by rw [hr]; rfl)
  have hlt := h.rows f row hrow
  have hold : ∀ g row', s.families g = some row' → ∃ row'',
      Function.update s.families f (some { row with currentJti := s.nextId }) g = some row'' ∧
        row''.userId = row'.userId ∧ (row''.currentJti = s.nextId ∨ row''.currentJti = row'.currentJti) := by
    intro g row' hg
    by_cases hgf : g = f
    · subst hgf
      rw [hrow] at hg
      cases hg
      exact ⟨_, Function.update_self .., rfl, .inl rfl⟩
    · exact ⟨row', by simp [hgf, hg], rfl, .inr rfl⟩
  constructor
  · intro g row' hg
    dsimp only at hg ⊢
    by_cases hgf : g = f
    · subst hgf
      rw [Function.update_self] at hg
      cases hg
      simp only
      omega
    · rw [Function.update_of_ne hgf] at hg
      have := h.rows g row' hg
      omega
  · intro c' hc
    obtain ⟨g, row', hg, hrow', hu⟩ := h.issued c' hc
    obtain ⟨row'', hrow'', hu', -⟩ := hold g row' hrow'
    exact ⟨g, row'', hg, hrow'', hu'.trans hu⟩
  · refine goto_holds h.holds fun c' g hc => ?_
    cases hc
    exact ⟨hissued, hf⟩
  · refine goto_dooms (fun q g hq => ?_) (by simp [Phase.dooms])
    obtain ⟨row', hrow'⟩ := h.dooms q g hq
    obtain ⟨row'', hrow'', -⟩ := hold g row' hrow'
    exact ⟨row'', hrow''⟩
  · intro x hx
    rcases List.mem_cons.1 hx with rfl | hx
    · refine ⟨f, _, hf, Function.update_self .., ?_, ?_⟩
      · dsimp only
        omega
      · dsimp only
        omega
    · obtain ⟨g, row', hg, hrow', hne, hlt'⟩ := h.spent x hx
      obtain ⟨row'', hrow'', -, hjti'⟩ := hold g row' hrow'
      refine ⟨g, row'', hg, hrow'', ?_, by dsimp only; omega⟩
      rcases hjti' with he | he <;> omega
  · refine List.nodup_cons.2 ⟨?_, h.once⟩
    intro hmem
    obtain ⟨x, hx, hxc⟩ := List.mem_map.1 hmem
    obtain ⟨g, row', hg, hrow', hne, -⟩ := h.spent x hx
    dsimp only at hxc
    rw [hxc] at hg hne
    obtain rfl : f = g := Option.some.inj (hf.symm.trans hg)
    rw [hrow] at hrow'
    cases hrow'
    exact hne hjti

theorem inv_step (s : St) (a : Action) (s' : St) (h : Inv s) (hn : next s a = some s') : Inv s' := by
  cases effect_of_next hn with
  | login hr => exact inv_login h _ _
  | rotate hr hrow hjti hlive => exact inv_rotate h hr hrow hjti
  | respond hr => exact inv_respond h hr
  | revoke hr => exact inv_move (inv_revoke h _ _) (moves_answered _ _)
  | move hm => exact inv_move h hm

theorem inv_run {as : List Action} {s : St} (h : run next .init as = some s) : Inv s :=
  run_inv next (fun s a s' hs (_ : True) hn => inv_step s a s' hs hn) inv_init (fun _ _ => trivial) h

/-! ## Exchangeable tokens -/

/-- The actions of a refresh that nothing comes between. -/
def alone (r : Nat) (c : TokenClaims) : List Action :=
  [.refresh r (some c), .readFamily r, .readUser r true, .rotate r, .respond r]

/-- A request with the token, run alone, obtains a new pair. -/
def Exchangeable (s : St) (c : TokenClaims) : Prop :=
  ∃ r s' t, s.requests r = .idle ∧ run next s (alone r c) = some s' ∧ s'.requests r = .answered (some t)

theorem goto_same (s : St) (r : Nat) (p : Phase) : (s.goto r p).requests r = p := by simp [St.goto]

theorem exchangeable_current {s : St} {c : TokenClaims} (h : Exchangeable s c) : c ∈ s.issued ∧ ∃ f row,
    c.family = some f ∧ s.families f = some row ∧ row.currentJti = c.jti ∧ row.revokedAt = none := by
  obtain ⟨r, s', t, hidle, hrun, -⟩ := h
  obtain ⟨s₁, h₁, hrun⟩ := run_next next hrun
  obtain ⟨s₂, h₂, hrun⟩ := run_next next hrun
  obtain ⟨s₃, h₃, -⟩ := run_next next hrun
  unfold next at h₁ h₂ h₃
  dsimp only at h₁ h₂ h₃
  split at h₁
  · rename_i hok
    refine ⟨hok.2 c rfl, ?_⟩
    cases h₁
    cases hf : c.family with
    | none =>
      simp [present, hf, goto_same] at h₂
    | some f =>
      simp only [present, hf, goto_same, Option.some.injEq] at h₂
      subst h₂
      cases hrow : s.families f with
      | none =>
        have hsame : (s.goto r (.refreshing c f)).families f = none := hrow
        simp [readFamily, hsame, goto_same] at h₃
      | some row =>
        have hsame : (s.goto r (.refreshing c f)).families f = some row := hrow
        refine ⟨f, row, rfl, hrow, ?_⟩
        by_cases hlive : row.revokedAt = none
        · by_cases hjti : c.jti = row.currentJti
          · exact ⟨hjti.symm, hlive⟩
          · simp [readFamily, hsame, hlive, hjti, goto_same] at h₃
        · simp [readFamily, hsame, hlive, goto_same] at h₃
  · cases h₁

theorem exchangeable_unique {s : St} (h : Inv s) {c c' : TokenClaims} {f : Nat} (hc : Exchangeable s c)
    (hc' : Exchangeable s c') (hf : c.family = some f) (hf' : c'.family = some f) : c = c' := by
  obtain ⟨hi, g, row, hg, hrow, hjti, -⟩ := exchangeable_current hc
  obtain ⟨hi', g', row', hg', hrow', hjti', -⟩ := exchangeable_current hc'
  obtain ⟨k, rowk, hk, hrowk, hu⟩ := h.issued c hi
  obtain ⟨k', rowk', hk', hrowk', hu'⟩ := h.issued c' hi'
  -- all rows are the family's
  have : g = f := by simpa [hf] using hg.symm
  have : g' = f := by simpa [hf'] using hg'.symm
  have : k = f := by simpa [hf] using hk.symm
  have : k' = f := by simpa [hf'] using hk'.symm
  subst_vars
  rw [hrow] at hrow' hrowk hrowk'
  cases hrow'
  cases hrowk
  cases hrowk'
  cases c
  cases c'
  simp_all

/-! ## Revoked families -/

def Revoked (s : St) (f : Nat) : Prop := ∃ row, s.families f = some row ∧ row.revokedAt ≠ none

theorem goto_pays {s : St} {r f : Nat} {p : Phase} (hp : p.Pays f → (s.requests r).Pays f) :
    ∀ q, ((s.goto r p).requests q).Pays f → (s.requests q).Pays f := by
  intro q hq
  by_cases hqr : q = r
  · subst hqr
    rw [goto_same] at hq
    exact hp hq
  · simpa [St.goto, hqr] using hq

theorem revoked_step {s s' : St} {a : Action} {f : Nat} (h : Inv s) (hf : Revoked s f) (hn : next s a = some s') :
    Revoked s' f ∧ ∀ q, (s'.requests q).Pays f → (s.requests q).Pays f := by
  obtain ⟨row, hrow, hrev⟩ := hf
  cases effect_of_next hn with
  | @login r u hr =>
    have hne : f ≠ s.nextId := by
      have := (h.rows f row hrow).1
      omega
    refine ⟨⟨row, by simp [login, St.goto, hne, hrow], hrev⟩, goto_pays ?_⟩
    rintro (⟨c, hc, hcf⟩ | ⟨c, j, hc⟩)
    · cases hc
      exact absurd (Option.some.inj hcf).symm hne
    · cases hc
  | @rotate r g c row' hr hrow' hjti hlive =>
    have hne : f ≠ g := by
      rintro rfl
      rw [hrow] at hrow'
      cases hrow'
      exact hrev hlive
    refine ⟨⟨row, by simp [hne, hrow], hrev⟩, goto_pays ?_⟩
    rintro (⟨c', hc, -⟩ | ⟨c', j, hc⟩)
    · cases hc
    · cases hc
      exact absurd rfl hne
  | @respond r g j c hr =>
    refine ⟨⟨row, hrow, hrev⟩, goto_pays ?_⟩
    rintro (⟨c', hc, hcf⟩ | ⟨c', j', hc⟩)
    · cases hc
      obtain rfl : g = f := Option.some.inj hcf
      exact .inr ⟨c, j, hr⟩
    · cases hc
  | @revoke r g now _ hr =>
    obtain ⟨row', hrow', -, -, hrev'⟩ := @revoke_families s g f now row hrow
    exact ⟨⟨row', hrow', hrev' hrev⟩, goto_pays fun hp => absurd hp ((moves_answered s r).pays f)⟩
  | @move r p _ hm => exact ⟨⟨row, hrow, hrev⟩, goto_pays fun hp => absurd hp (hm.pays f)⟩

/-- From a revoked family a request obtains tokens only with an update that was
committed before. -/
theorem revoked_run {s s' : St} {f : Nat} {bs : List Action} (h : Inv s) (hf : Revoked s f)
    (hrun : run next s bs = some s') : ∀ q, (s'.requests q).Pays f → (s.requests q).Pays f := by
  have hstep : ∀ t a t', (Inv t ∧ Revoked t f ∧ ∀ q, (t.requests q).Pays f → (s.requests q).Pays f) → True →
      next t a = some t' → Inv t' ∧ Revoked t' f ∧ ∀ q, (t'.requests q).Pays f → (s.requests q).Pays f := by
    intro t a t' ht _ hn
    obtain ⟨hinv, hrev, hpays⟩ := ht
    obtain ⟨hrev', hback⟩ := revoked_step hinv hrev hn
    exact ⟨inv_step t a t' hinv hn, hrev', fun q hq => hpays q (hback q hq)⟩
  exact (run_inv next hstep ⟨h, hf, fun _ => id⟩ (fun _ _ => trivial) hrun).2.2

/-! ## Rotation -/

def LogoutCommits (s : St) (a : Action) (f : Nat) : Prop :=
  ∃ r now, a = .revokeLogout r now ∧ s.requests r = .revoking f

/-- A request reads the family row for a token that was exchanged already. -/
def SeesExchanged (s : St) (a : Action) (f : Nat) : Prop :=
  ∃ r c, a = .readFamily r ∧ s.requests r = .refreshing c f ∧ ∃ x ∈ s.exchanges, x.token = c

/-- The revocation by a request that read another token commits. -/
def ReuseCommits (s : St) (a : Action) (f : Nat) : Prop :=
  ∃ r now, a = .revokeReused r now ∧ s.requests r = .reused f

/-- Over every run a token is exchanged once, a family has one token that can be
exchanged, and no request that begins after the family is closed obtains tokens
from it. `Closes` are the actions that close a family. -/
def Rotates (Closes : St → Action → Nat → Prop) : Prop :=
  ∀ (as : List Action) (s : St), run next .init as = some s →
    (s.exchanges.map (·.token)).Nodup ∧
    (∀ c c' f, Exchangeable s c → Exchangeable s c' → c.family = some f → c'.family = some f → c = c') ∧
    ∀ a f s₁ bs s', Closes s a f → next s a = some s₁ → run next s₁ bs = some s' →
      ∀ r t, s₁.requests r = .idle → s'.requests r = .answered (some t) → t.family ≠ some f

theorem closed_revoked {s s₁ : St} {a : Action} {f : Nat} (h : Inv s) (hc : LogoutCommits s a f ∨ ReuseCommits s a f)
    (hn : next s a = some s₁) : Revoked s₁ f := by
  have hrow : ∃ row, s.families f = some row := by
    rcases hc with ⟨r, now, -, hr⟩ | ⟨r, now, -, hr⟩ <;> exact h.dooms r f (by rw [hr]; rfl)
  obtain ⟨row, hrow⟩ := hrow
  rcases hc with ⟨r, now, rfl, hr⟩ | ⟨r, now, rfl, hr⟩
  · simp only [next, hr, Option.some.injEq] at hn
    subst hn
    exact ⟨{ row with revokedAt := some now }, by simp [St.revoke, St.goto, hrow], by simp⟩
  · simp only [next, hr, Option.some.injEq] at hn
    subst hn
    exact ⟨{ row with revokedAt := some now }, by simp [St.revoke, St.goto, hrow], by simp⟩

/-- **Tokens rotate once**, and a family is closed when a logout or the
revocation after a reuse commits. -/
theorem tokens_rotate : Rotates fun s a f => LogoutCommits s a f ∨ ReuseCommits s a f := by
  intro as s hrun
  have h := inv_run hrun
  refine ⟨h.once, fun c c' f hc hc' hf hf' => exchangeable_unique h hc hc' hf hf', ?_⟩
  intro a f s₁ bs s' hclose hn hrun' r t hidle hanswer hf
  have hrev := closed_revoked h hclose hn
  have hpays := revoked_run (inv_step s a s₁ h hn) hrev hrun' r (.inl ⟨t, hanswer, hf⟩)
  rw [hidle] at hpays
  simp [Phase.Pays] at hpays

/-- A request that reads the row for an exchanged token goes on to revoke the
family, unless it is revoked. -/
theorem exchanged_seen {s : St} (h : Inv s) {r f : Nat} {c : TokenClaims} (hr : s.requests r = .refreshing c f)
    (hx : ∃ x ∈ s.exchanges, x.token = c) (hlive : ¬Revoked s f) :
    next s (.readFamily r) = some (s.goto r (.reused f)) := by
  obtain ⟨x, hx, rfl⟩ := hx
  obtain ⟨g, row, hg, hrow, hne, -⟩ := h.spent x hx
  obtain ⟨-, hf⟩ := h.holds r x.token f (by rw [hr]; rfl)
  obtain rfl : f = g := Option.some.inj (hf.symm.trans hg)
  have hnone : row.revokedAt = none := by
    by_contra hrev
    exact hlive ⟨row, hrow, hrev⟩
  simp [next, hr, readFamily, hrow, hnone, Ne.symm hne]

/-- Between the read of an exchanged token and the revocation another request
exchanges the current one. -/
theorem exchange_before_revocation : ¬Rotates fun s a f => LogoutCommits s a f ∨ SeesExchanged s a f := by
  intro h
  let first : TokenClaims := ⟨0, some 0, 1⟩
  let second : TokenClaims := ⟨0, some 0, 2⟩
  have := (h ((.login 0 0) :: alone 1 first ++ [.refresh 2 (some first)]) _ rfl).2.2 (.readFamily 2) 0 _ (alone 3 second) _
    (.inr ⟨2, first, rfl, rfl, ⟨1, first⟩, by decide, rfl⟩) rfl rfl 3 ⟨0, some 0, 3⟩ rfl rfl
  exact this rfl

end Cograph.Auth
