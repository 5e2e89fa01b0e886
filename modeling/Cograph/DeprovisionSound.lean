import Cograph.CredentialsSound

/-!
# Deprovisioning

When a SCIM disable is answered with success, the credentials requested before
are out of use for good, in the runs where the disable ran its cascade over
every credential in use and no request that it overtook stores another.
-/

namespace Cograph.Credentials

open Machine

/-- Nothing that the request stored can be used, were the user active or not. -/
def Dead (s : St) (r : Nat) : Prop :=
  (∀ f row, s.families f = some row → row.request = r → row.usable = false) ∧
    ∀ t row, s.tokens t = some row → row.request = r → ∀ active, resolvePat active s.now row = false

/-- The credentials requested before a SCIM disable was answered are dead, and
no step gives tokens to a user who is not active. -/
def Deprovisioned (t : Step St Action) : Prop :=
  (∀ r ∈ t.post.barred, Dead t.post r) ∧ (t.post.issued ≠ t.pre.issued → t.pre.user.isActive = true)

/-- The credentials in use are among the families and the tokens listed. -/
def OnlyUsed (s : St) (families tokens : List Nat) : Prop :=
  (∀ f row, s.families f = some row → row.usable = true → f ∈ families) ∧
    ∀ t row, s.tokens t = some row → resolvePat true s.now row = true → t ∈ tokens

/-- An answer without a cascade finds no credential in use; a cascade's commit
finds none but those its statements hit; no request that a disable overtook
stores one; and login and refresh commit while the user is active. -/
def Clean (s : St) (a : Action) : Prop :=
  match event s a with
  | .replayed => OnlyUsed s [] []
  | .deprovisioned c => OnlyUsed s c.families c.tokens
  | .stored r => r ∉ s.barred ∧ s.user.isActive = true
  | .exchanged _ _ => s.user.isActive = true
  | .minted r expiresAt => r ∈ s.barred → lapsed s.now expiresAt = true
  | .rotated r _ old => r ∈ s.barred → lapsed s.now old.expiresAt = true
  | _ => True

/-! ## Rows go out of use -/

theorem resolvePat_false {now : Nat} {row : PersonalAccessToken} :
    (∀ active, resolvePat active now row = false) ↔ resolvePat true now row = false := by
  constructor
  · exact fun h => h true
  · intro h active
    cases active
    · simp [resolvePat]
    · exact h

theorem resolvePat_later {now now' : Nat} {row : PersonalAccessToken} (hle : now ≤ now')
    (h : resolvePat true now' row = true) : resolvePat true now row = true := by
  simp only [resolvePat, lapsed, Bool.and_true, Bool.and_eq_true, Option.isNone_iff_eq_none, Bool.not_eq_true',
    Option.any_eq_false, decide_eq_false_iff_not] at h ⊢
  refine ⟨h.1, fun e he => ?_⟩
  have := h.2 e he
  omega

/-- What is in use after the step was in use before, under the same request. -/
structure Fades (s s' : St) : Prop where
  families : ∀ f row, s'.families f = some row → row.usable = true →
    ∃ row', s.families f = some row' ∧ row'.request = row.request ∧ row'.usable = true
  tokens : ∀ t row, s'.tokens t = some row → resolvePat true s'.now row = true →
    ∃ row', s.tokens t = some row' ∧ row'.request = row.request ∧ resolvePat true s.now row' = true

theorem dead_fades {s s' : St} {r : Nat} (h : Dead s r) (hf : Fades s s') : Dead s' r := by
  constructor
  · intro f row hrow hr
    by_contra hu
    obtain ⟨row', hrow', hr', hu'⟩ := hf.families f row hrow (by simpa using hu)
    rw [h.1 f row' hrow' (hr'.trans hr)] at hu'
    cases hu'
  · intro t row hrow hr
    rw [resolvePat_false]
    by_contra hu
    obtain ⟨row', hrow', hr', hu'⟩ := hf.tokens t row hrow (by simpa using hu)
    rw [h.2 t row' hrow' (hr'.trans hr) true] at hu'
    cases hu'

theorem fades_quiet {s s' : St} (h : Quiet s s') : Fades s s' where
  families _ row hrow hu := ⟨row, h.families ▸ hrow, rfl, hu⟩
  tokens _ row hrow hu := ⟨row, h.tokens ▸ hrow, rfl, resolvePat_later h.now hu⟩

theorem revoke_used {s : St} {ts : List Nat} {reason : String} {t : Nat} {row : PersonalAccessToken}
    (hrow : (s.revoke ts reason).tokens t = some row) (hu : resolvePat true s.now row = true) :
    t ∉ ts ∧ s.tokens t = some row := by
  obtain ⟨row', hrow', rfl⟩ := revoke_some hrow
  by_cases ht : t ∈ ts
  · simp [ht, resolvePat] at hu
  · simp only [ht, if_false] at hu ⊢
    exact ⟨not_false, hrow'⟩

theorem dead_all {s : St} (h : OnlyUsed s [] []) (r : Nat) : Dead s r := by
  constructor
  · intro f row hrow _
    by_contra hu
    cases h.1 f row hrow (by simpa using hu)
  · intro t row hrow _
    rw [resolvePat_false]
    by_contra hu
    cases h.2 t row hrow (by simpa using hu)

theorem unused_of_dead {s : St} (h : Inv s) (hd : ∀ r ∈ s.begun, Dead s r) : OnlyUsed s [] [] := by
  constructor
  · intro f row hrow hu
    rw [(hd _ (h.families f row hrow)).1 f row hrow rfl] at hu
    cases hu
  · intro t row hrow hu
    rw [(hd _ (h.tokens t row hrow)).2 t row hrow rfl true] at hu
    cases hu

/-! ## Rows that are stored -/

/-- What is in use after the step was in use before, but a row that `r` stored;
it is in use where `used` says so. -/
structure Stores (s s' : St) (r : Nat) (used : Bool) : Prop where
  families : ∀ f row, s'.families f = some row → row.usable = true → row.request = r ∧ used = true ∨
    ∃ row', s.families f = some row' ∧ row'.request = row.request ∧ row'.usable = true
  tokens : ∀ t row, s'.tokens t = some row → resolvePat true s'.now row = true → row.request = r ∧ used = true ∨
    ∃ row', s.tokens t = some row' ∧ row'.request = row.request ∧ resolvePat true s.now row' = true
  new : used = true → ¬Dead s' r

theorem dead_stores {s s' : St} {r : Nat} {used : Bool} (h : Stores s s' r used) (hd : ∀ q ∈ s.barred, Dead s q) :
    (∀ q ∈ s.barred, Dead s' q) ↔ (r ∈ s.barred → used = false) := by
  constructor
  · intro hd' hr
    by_contra hu
    exact h.new (by simpa using hu) (hd' r hr)
  · intro hr q hq
    -- a row of `q` that is in use was in use before
    have hnew : ∀ p, p = q → ¬(p = r ∧ used = true) := by
      intro p hp hpr
      have := hr (hpr.1 ▸ hp ▸ hq)
      rw [hpr.2] at this
      cases this
    constructor
    · intro f row hrow hrq
      by_contra hu
      obtain ⟨row', hrow', hr', hu'⟩ := (h.families f row hrow (by simpa using hu)).resolve_left (hnew _ hrq)
      rw [(hd q hq).1 f row' hrow' (hr'.trans hrq)] at hu'
      cases hu'
    · intro t row hrow hrq
      rw [resolvePat_false]
      by_contra hu
      obtain ⟨row', hrow', hr', hu'⟩ := (h.tokens t row hrow (by simpa using hu)).resolve_left (hnew _ hrq)
      rw [(hd q hq).2 t row' hrow' (hr'.trans hrq) true] at hu'
      cases hu'

theorem stores_family {s : St} {r : Nat} :
    Stores s { (s.setFamily s.nextId ⟨s.nextId + 1, none, r⟩).goto r (.answered true) with
      issued := (s.nextId, s.nextId + 1) :: s.issued
      nextId := s.nextId + 2 } r true where
  families f row hrow hu := by
    by_cases hf : f = s.nextId
    · subst hf
      have : (⟨s.nextId + 1, none, r⟩ : RefreshTokenFamily) = row := by simpa [St.setFamily, St.goto] using hrow
      exact .inl ⟨this ▸ rfl, rfl⟩
    · exact .inr ⟨row, by simpa [St.setFamily, St.goto, hf] using hrow, rfl, hu⟩
  tokens _ row hrow hu := .inr ⟨row, hrow, rfl, hu⟩
  new _ hd := by
    have := hd.1 s.nextId ⟨s.nextId + 1, none, r⟩ (by simp [St.setFamily, St.goto]) rfl
    cases this

theorem stores_token {s s₁ s' : St} {r : Nat} {new : PersonalAccessToken}
    (hold : ∀ t row, s₁.tokens t = some row → resolvePat true s.now row = true → s.tokens t = some row)
    (hid : s₁.nextId = s.nextId) (hf : s'.families = s.families) (ht : s'.tokens = (s₁.setToken s₁.nextId new).tokens)
    (hnow : s'.now = s.now) (hr : new.request = r) (hlive : new.revokedAt = none) :
    Stores s s' r (!lapsed s.now new.expiresAt) where
  families _ row hrow hu := .inr ⟨row, hf ▸ hrow, rfl, hu⟩
  tokens t row hrow hu := by
    rw [ht] at hrow
    rw [hnow] at hu
    rcases stored_tokens hrow with ⟨rfl, rfl⟩ | ⟨-, hrow⟩
    · exact .inl ⟨hr, by simpa [resolvePat, hlive] using hu⟩
    · exact .inr ⟨row, hold t row hrow hu, rfl, hu⟩
  new hu hd := by
    have := hd.2 s.nextId new (by simp [ht, St.setToken, hid]) hr true
    rw [hnow] at this
    simp [resolvePat, hlive] at hu this
    simp [hu] at this

/-! ## Steps -/

theorem dead_answered {s' : St} (h : Inv s') (hb : s'.barred = s'.begun) :
    (∀ r ∈ s'.barred, Dead s' r) ↔ OnlyUsed s' [] [] := by
  rw [hb]
  exact ⟨unused_of_dead h, fun hu r _ => dead_all hu r⟩

theorem fades_kept {s s' : St} (hd : ∀ r ∈ s.barred, Dead s r) (hf : Fades s s') (hb : s'.barred = s.barred)
    {r : Nat} (hr : r ∈ s'.barred) : Dead s' r :=
  dead_fades (hd r (hb ▸ hr)) hf

/-- After the cascade's commit the credentials in use are those it did not hit. -/
theorem cascade_used {s s' : St} {c : Cascade} {reason : String}
    (hf : s'.families = fun f => if f ∈ c.families then none else s.families f)
    (ht : s'.tokens = (s.revoke c.tokens reason).tokens) (hnow : s'.now = s.now) :
    OnlyUsed s' [] [] ↔ OnlyUsed s c.families c.tokens := by
  constructor
  · intro h
    constructor
    · intro f row hrow hu
      by_contra hc
      cases h.1 f row (by simp [hf, hc, hrow]) hu
    · intro t row hrow hu
      by_contra hc
      cases h.2 t row (by simp [ht, St.revoke, hc, hrow]) (hnow ▸ hu)
  · intro h
    constructor
    · intro f row hrow hu
      by_cases hc : f ∈ c.families
      · simp [hf, hc] at hrow
      · exact absurd (h.1 f row (by simpa [hf, hc] using hrow) hu) hc
    · intro t row hrow hu
      rw [ht] at hrow
      rw [hnow] at hu
      obtain ⟨hc, hrow'⟩ := revoke_used hrow hu
      exact absurd (h.2 t row hrow' hu) hc

theorem deprovisioned_step {s s' : St} {a : Action} (h : Inv s) (hd : ∀ r ∈ s.barred, Dead s r)
    (hn : next s a = some s') : Deprovisioned ⟨s, a, s'⟩ ↔ Clean s a := by
  have heff := effect_of_next hn
  have h' := inv_step h hn
  unfold Deprovisioned Clean
  generalize event s a = e at heff
  dsimp only
  cases heff with
  | quiet hq hb =>
    refine iff_of_true ⟨fun r hr => ?_, fun hi => absurd hq.issued hi⟩ trivial
    exact fades_kept hd (fades_quiet hq) hb hr
  | replayed hq hnow hbegun hb =>
    have hsame : OnlyUsed s' [] [] ↔ OnlyUsed s [] [] := by simp only [OnlyUsed, hq.families, hq.tokens, hnow]
    exact (and_iff_left fun hi => absurd hq.issued hi).trans ((dead_answered h' (hb.trans hbegun.symm)).trans hsame)
  | @deprovisioned r key c hr =>
    exact (and_iff_left fun hi => absurd rfl hi).trans ((dead_answered h' rfl).trans (cascade_used rfl rfl rfl))
  | @stored r hr =>
    have hstores := (dead_stores (stores_family (s := s) (r := r)) hd).trans
      ⟨fun hi hr => absurd (hi hr) (by simp), fun hr hi => absurd hi hr⟩
    exact and_congr hstores ⟨fun hi => hi (by simp), fun hu _ => hu⟩
  | @exchanged r f jti row hr hrow hlive =>
    have hfades : Fades s { (s.setFamily f { row with currentJti := s.nextId }).goto r (.answered true) with
        issued := (f, s.nextId) :: s.issued
        nextId := s.nextId + 1 } := by
      refine ⟨?_, fun t row' hrow' hu => ⟨row', hrow', rfl, hu⟩⟩
      intro g row' hrow' hu
      by_cases hg : g = f
      · subst hg
        have : { row with currentJti := s.nextId } = row' := by simpa [St.setFamily, St.goto] using hrow'
        exact ⟨row, hrow, this ▸ rfl, by simp [RefreshTokenFamily.usable, hlive]⟩
      · exact ⟨row', by simpa [St.setFamily, St.goto, hg] using hrow', rfl, hu⟩
    exact ⟨fun hi => hi.2 (by simp), fun hu => ⟨fun q hq => fades_kept hd hfades rfl hq, fun _ => hu⟩⟩
  | @reused r f hr =>
    have hfades : Fades s ((s.revokeFamily f).goto r (.answered false)) := by
      refine ⟨?_, fun t row hrow hu => ⟨row, hrow, rfl, hu⟩⟩
      intro g row hrow hu
      obtain ⟨row', hrow', rfl⟩ := Option.map_eq_some_iff.mp hrow
      by_cases hg : g = f
      · simp [hg, RefreshTokenFamily.usable] at hu
      · exact ⟨row', hrow', by simp [hg], by simpa [hg] using hu⟩
    exact iff_of_true ⟨fun q hq => fades_kept hd hfades rfl hq, fun hi => absurd rfl hi⟩ trivial
  | @minted r expiresAt hr =>
    have hstores : Stores s (createMyToken s r expiresAt) r (!lapsed s.now expiresAt) :=
      @stores_token s s _ r ⟨expiresAt, none, none, r, []⟩ (fun _ _ hrow _ => hrow) rfl rfl rfl rfl rfl rfl
    refine (and_iff_left fun hi => absurd rfl hi).trans ((dead_stores hstores hd).trans ?_)
    simp
  | @rotated r t old hr =>
    refine (and_iff_left fun hi => absurd rfl hi).trans ((@dead_stores s _ r (!lapsed s.now old.expiresAt) ?_ hd).trans ?_)
    · exact @stores_token s (s.revoke [t] "rotation") _ r ⟨old.expiresAt, none, none, r, t :: old.lineage⟩
        (fun _ _ hrow hu => (revoke_used hrow hu).2) rfl rfl rfl rfl rfl rfl
    · simp
  | @revoked r ts reason hr =>
    have hfades : Fades s ((s.revoke ts reason).answerRevoke r ts) :=
      ⟨fun f row hrow hu => ⟨row, hrow, rfl, hu⟩, fun t row hrow hu => ⟨row, (revoke_used hrow hu).2, rfl, hu⟩⟩
    exact iff_of_true ⟨fun q hq => fades_kept hd hfades rfl hq, fun hi => absurd rfl hi⟩ trivial
  | @revokedBefore r t row hr hrow hrev =>
    exact iff_of_true ⟨hd, fun hi => absurd rfl hi⟩ trivial

/-- **Deprovisioning kills every credential** in a run just when all its steps
are clean. -/
theorem deprovisioned_iff (user : User) (as : List Action) :
    (∀ t ∈ trace next (.init user) as, Deprovisioned t) ↔ ∀ t ∈ trace next (.init user) as, Clean t.pre t.act := by
  have hstep : ∀ s a s', (Inv s ∧ ∀ r ∈ s.barred, Dead s r) → next s a = some s' →
      Deprovisioned ⟨s, a, s'⟩ → Inv s' ∧ ∀ r ∈ s'.barred, Dead s' r :=
    fun s a s' h hn hp => ⟨inv_step h.1 hn, hp.1⟩
  exact trace_iff next (fun s a s' h hn => deprovisioned_step h.1 h.2 hn) hstep ⟨inv_init user, by simp [St.init]⟩

/-- A token is minted, an administrator disables the user and a SCIM disable
finds nothing to do. -/
theorem disabled_twice : ¬∀ (user : User) (as : List Action), ∀ t ∈ trace next (.init user) as, Deprovisioned t := by
  intro h
  have hmem := @trace_last _ _ next (.init ⟨true, none⟩) _ _ [.arrive 0 (.createToken none), .load 0, .commit 0,
    .arrive 1 (.disable true none), .load 1, .commit 1, .arrive 2 (.scimDisable 7 false), .load 2, .readEvent 2]
    (.commit 2) rfl rfl
  have hdead := (h _ _ _ hmem).1 0 (by decide)
  have := hdead.2 0 ⟨none, none, none, 0, []⟩ rfl rfl true
  cases this

end Cograph.Credentials
