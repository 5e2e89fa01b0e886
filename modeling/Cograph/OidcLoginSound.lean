import Cograph.Machine
import Cograph.OidcLogin

/-!
# What a sign-in is worth

Over any interleaving of logins, links, callbacks and administration: whoever is
signed in went through the whole flow in its order, and a state whose callback
has committed lets no later callback in.
-/

namespace Cograph.OidcLogin

open Machine
open Admins (ApiError)
open Oidc (IdTokenClaims)

variable {H : Type} (hash : Str → H) (lower : Str → Str) (ttl : ℕ)

/-! ## What has to have happened -/

/-- The row that a login or a link writes. -/
def issued (t : Step (St H) Act) : Option (OIDCLoginState H) :=
  match t.act with
  | .login slug state codeVerifier nonce returnTo =>
    (t.pre.loadProvider slug).toOption.map fun provider =>
      ⟨hash state, provider.policy.id, codeVerifier, nonce, returnTo, none, t.pre.clock + ttl, none⟩
  | .linkStart userId _ slug state codeVerifier nonce =>
    (t.pre.loadProvider slug).toOption.map fun provider =>
      ⟨hash state, provider.policy.id, codeVerifier, nonce, "/account/identities".toList, some userId,
        t.pre.clock + ttl, none⟩
  | _ => none

/-- The row is as a request wrote it, or it is that of a link whose user was
deleted since. -/
def Issued (ts : List (Step (St H) Act)) (row : OIDCLoginState H) : Prop :=
  Once (fun _ t => issued hash ttl t = some { row with consumedAt := none }) ts ∨
    row.initiatedUserId = none ∧ Once (fun past t => ∃ userId, t.act = .deleteUser userId ∧
      Once (fun _ t => issued hash ttl t = some { row with initiatedUserId := some userId, consumedAt := none }) past) ts

/-- Callback `i` came back with the state of an issued row, in time, to the
enabled provider it was issued for. -/
def Read (i : ℕ) (ts : List (Step (St H) Act)) (provider : IdentityProvider) (row : OIDCLoginState H) : Prop :=
  Once (fun past t => Issued hash ttl past row ∧
    ∃ code state, t.act = .callback i provider.slug code state ∧ hash state = row.stateHash ∧
      provider ∈ t.pre.providers ∧ provider.enabled ∧ provider.policy.id = row.providerId ∧
      t.pre.clock ≤ row.expiresAt) ts

/-- Then the provider answered with a token that carries the nonce of the row. -/
def Verified (i : ℕ) (ts : List (Step (St H) Act)) (provider : IdentityProvider) (row : OIDCLoginState H)
    (claims : IdTokenClaims) : Prop :=
  Once (fun past t => Read hash ttl i past provider row ∧
    ∃ payload, t.act = .exchange i (.ok payload) ∧ payload.nonce = some row.nonce ∧
      payload.sub = some claims.sub ∧ claims.sub ≠ [] ∧ claims.groups = payload.groups provider.groupsClaim) ts

section
variable {hash ttl} {i : ℕ} {ts : List (Step (St H) Act)} {provider : IdentityProvider} {row : OIDCLoginState H}
variable {claims : IdTokenClaims}

/-- A row is issued unused. -/
theorem issued_unused {t : Step (St H) Act} (h : issued hash ttl t = some row) :
    issued hash ttl t = some { row with consumedAt := none } := by
  unfold issued at h ⊢
  split at h
  · obtain ⟨provider, -, rfl⟩ := Option.map_eq_some_iff.1 h
    exact h
  · obtain ⟨provider, -, rfl⟩ := Option.map_eq_some_iff.1 h
    exact h
  · cases h

theorem Issued.later (h : Issued hash ttl ts row) (t : Step (St H) Act) : Issued hash ttl (ts ++ [t]) row :=
  h.imp (·.later t) fun h => ⟨h.1, h.2.later t⟩

/-- When the row was used is no part of what was issued. -/
theorem Issued.consumed (h : Issued hash ttl ts row) (at? : Option ℕ) :
    Issued hash ttl ts { row with consumedAt := at? } := h

theorem Issued.orphan {userId : ℕ} (h : Issued hash ttl ts row) (huser : row.initiatedUserId = some userId)
    {t : Step (St H) Act} (ht : t.act = .deleteUser userId) :
    Issued hash ttl (ts ++ [t]) { row with initiatedUserId := none } := by
  obtain h | ⟨hnone, -⟩ := h
  · refine .inr ⟨rfl, Once.now ⟨userId, ht, ?_⟩⟩
    rw [← huser]
    exact h
  · rw [hnone] at huser
    cases huser

theorem Read.later (h : Read hash ttl i ts provider row) (t : Step (St H) Act) :
    Read hash ttl i (ts ++ [t]) provider row := Once.later h t

theorem Verified.later (h : Verified hash ttl i ts provider row claims) (t : Step (St H) Act) :
    Verified hash ttl i (ts ++ [t]) provider row claims := Once.later h t

end

/-! ## What each request does -/

section
variable {hash ttl} {s s' : St H}

theorem St.loadProvider_ok {slug : Str} {provider : IdentityProvider} (h : s.loadProvider slug = .ok provider) :
    provider ∈ s.providers ∧ provider.slug = slug ∧ provider.enabled := by
  unfold St.loadProvider at h
  cases hfind : s.providers.find? (·.slug = slug) with
  | none =>
    rw [hfind] at h
    cases h
  | some p =>
    rw [hfind] at h
    dsimp only at h
    split at h
    · rename_i henabled
      cases h
      exact ⟨List.mem_of_find?_eq_some hfind, by simpa using List.find?_some hfind, henabled⟩
    · cases h

theorem verifyIdToken_ok {payload : Payload} {nonce : Str} {groupsClaim : Option Str} {claims : IdTokenClaims}
    (h : verifyIdToken payload nonce groupsClaim = .ok claims) :
    payload.nonce = some nonce ∧ payload.sub = some claims.sub ∧ claims.sub ≠ [] ∧
      claims.groups = payload.groups groupsClaim := by
  unfold verifyIdToken at h
  split at h
  · cases h
  · rename_i hnonce
    split at h
    · cases h
    · cases h
    · rename_i sub hne hsub
      cases h
      refine ⟨not_not.1 hnonce, hsub, ?_, rfl⟩
      rintro rfl
      exact hne rfl

/-- The row that a callback has read and not yet written back. -/
def Callback.row : Callback H → Option (OIDCLoginState H)
  | .consumed _ row _ | .verified _ row _ => some row
  | _ => none

@[simp] theorem St.goto_self (i : ℕ) (c : Callback H) : (s.goto i c).callbacks i = c := Function.update_self ..

theorem St.goto_ne {i j : ℕ} (h : j ≠ i) (c : Callback H) : (s.goto i c).callbacks j = s.callbacks j :=
  Function.update_of_ne h ..

@[simp] theorem St.goto_rows (i : ℕ) (c : Callback H) : (s.goto i c).rows = s.rows := rfl

variable [DecidableEq H]

theorem St.addRow_eq {row : OIDCLoginState H} (h : s.addRow row = some s') : s' = { s with rows := row :: s.rows } := by
  unfold St.addRow at h
  split at h
  · cases h
  · exact (Option.some.inj h).symm

theorem St.consumeState_ok {state : Str} {providerId : ℕ} {row : OIDCLoginState H}
    (h : s.consumeState hash state providerId = .ok row) :
    ∃ q ∈ s.rows, row = { q with consumedAt := some s.clock } ∧ q.stateHash = hash state ∧ q.providerId = providerId ∧
      q.consumedAt = none ∧ s.clock ≤ q.expiresAt := by
  unfold St.consumeState at h
  cases hfind : s.rows.find? (·.stateHash = hash state) with
  | none =>
    rw [hfind] at h
    cases h
  | some q =>
    rw [hfind] at h
    dsimp only at h
    split_ifs at h with hprovider hconsumed hexpired
    cases h
    exact ⟨q, List.mem_of_find?_eq_some hfind, rfl, by simpa using List.find?_some hfind, not_not.1 hprovider,
      not_not.1 hconsumed, not_lt.1 hexpired⟩

theorem St.commitRow_callbacks {row : OIDCLoginState H} (h : s.commitRow row = some s') :
    s'.callbacks = s.callbacks := by
  unfold St.commitRow at h
  split at h
  · cases h
    rfl
  · cases h

/-- A commit writes one column of one row. -/
theorem St.mem_commitRow {row q : OIDCLoginState H} (h : s.commitRow row = some s') (hq : q ∈ s'.rows) :
    ∃ p ∈ s.rows, if p.stateHash = row.stateHash then q = { p with consumedAt := row.consumedAt } else q = p := by
  unfold St.commitRow at h
  split at h
  · cases h
    obtain ⟨p, hp, rfl⟩ := List.mem_map.1 hq
    refine ⟨p, hp, ?_⟩
    split <;> rfl
  · cases h

theorem St.fail_cases (i : ℕ) (row : OIDCLoginState H) (e : ApiError) :
    (∃ s₁, s.commitRow row = some s₁ ∧ s.fail i row e = s₁.goto i (.redirected e)) ∨ s.fail i row e = s.goto i .raised := by
  unfold St.fail
  cases s.commitRow row with
  | none => exact .inr rfl
  | some s₁ => exact .inl ⟨s₁, rfl, rfl⟩

end

section
variable [DecidableEq H] {s s' : St H}

/-- What a callback can do in one step: read a row, have the token verified, or
end, with its row committed or rolled back. -/
inductive Moves (s s' : St H) (i : ℕ) : Act → Prop
  | refuse {slug code state : Str} {e : ApiError} (hold : s.callbacks i = .idle) (hs : s' = s.goto i (.refused e)) :
      Moves s s' i (.callback i slug code state)
  | read {slug code state : Str} {provider : IdentityProvider} {row : OIDCLoginState H}
      (hold : s.callbacks i = .idle) (hprovider : s.loadProvider slug = .ok provider)
      (hrow : s.consumeState hash state provider.policy.id = .ok row) (hs : s' = s.goto i (.consumed provider row code)) :
      Moves s s' i (.callback i slug code state)
  | verify {provider : IdentityProvider} {row : OIDCLoginState H} {code : Str} {payload : Payload} {claims : IdTokenClaims}
      (hold : s.callbacks i = .consumed provider row code)
      (hpayload : verifyIdToken payload row.nonce provider.groupsClaim = .ok claims)
      (hs : s' = s.goto i (.verified provider row claims)) : Moves s s' i (.exchange i (.ok payload))
  | redirect {a : Act} {row : OIDCLoginState H} {e : ApiError} {s₁ : St H} (hold : (s.callbacks i).row = some row)
      (hcommit : s.commitRow row = some s₁) (hs : s' = s₁.goto i (.redirected e)) : Moves s s' i a
  | rollBack {a : Act} {row : OIDCLoginState H} (hold : (s.callbacks i).row = some row) (hs : s' = s.goto i .raised) :
      Moves s s' i a
  | signIn {provider : IdentityProvider} {row : OIDCLoginState H} {claims : IdTokenClaims} {userId : ℕ} {db : Oidc.Db}
      {s₁ : St H} (hold : s.callbacks i = .verified provider row claims)
      (haccount : s.account lower provider row claims = .ok (userId, db)) (hcommit : s.commitRow row = some s₁)
      (hs : s' = { s₁ with
        db := db.writeAudit ⟨some userId, userId, "oidc_login"⟩
        families := userId :: s.families }.goto i (.signedIn userId)) : Moves s s' i (.finish i)

/-- The callback that a request belongs to. -/
def Act.callback? : Act → Option ℕ
  | .callback i .. | .exchange i _ | .finish i | .raise i => some i
  | _ => none

theorem moves_fail {a : Act} {i : ℕ} {row : OIDCLoginState H} {e : ApiError} (hold : (s.callbacks i).row = some row) :
    Moves hash lower s (s.fail i row e) i a := by
  obtain ⟨s₁, hcommit, heq⟩ | heq := s.fail_cases i row e
  · exact .redirect hold hcommit heq
  · exact .rollBack hold heq

theorem moves_of_next {a : Act} {i : ℕ} (ha : a.callback? = some i) (hn : next hash lower ttl s a = some s') :
    Moves hash lower s s' i a := by
  cases a with
  | callback j slug code state =>
    obtain rfl : j = i := Option.some.inj ha
    simp only [next, St.callback] at hn
    split at hn
    · rename_i hidle
      split at hn
      · cases hn
        exact .refuse hidle rfl
      · rename_i provider hprovider
        split at hn
        · cases hn
          exact .refuse hidle rfl
        · rename_i row hrow
          cases hn
          exact .read hidle hprovider hrow rfl
    · cases hn
  | exchange j answer =>
    obtain rfl : j = i := Option.some.inj ha
    simp only [next, St.exchange] at hn
    split at hn
    · rename_i provider row code hold
      have hrow : (s.callbacks j).row = some row := by rw [hold]; rfl
      split at hn
      · cases hn
        exact moves_fail hash lower hrow
      · split at hn
        · cases hn
          exact moves_fail hash lower hrow
        · rename_i claims hclaims
          cases hn
          exact .verify hold hclaims rfl
    · cases hn
  | finish j =>
    obtain rfl : j = i := Option.some.inj ha
    simp only [next, St.finish] at hn
    split at hn
    · rename_i provider row claims hold
      have hrow : (s.callbacks j).row = some row := by rw [hold]; rfl
      split at hn
      · cases hn
        exact moves_fail hash lower hrow
      · cases hn
        exact .rollBack hrow rfl
      · rename_i userId db haccount
        split at hn
        · cases hn
          exact .rollBack hrow rfl
        · rename_i s₁ hcommit
          cases hn
          exact .signIn hold haccount hcommit rfl
    · cases hn
  | raise j =>
    obtain rfl : j = i := Option.some.inj ha
    simp only [next, St.raise] at hn
    split at hn
    · rename_i provider row code hold
      cases hn
      exact .rollBack (by rw [hold]; rfl) rfl
    · rename_i provider row claims hold
      cases hn
      exact .rollBack (by rw [hold]; rfl) rfl
    · cases hn
  | _ => cases ha

/-- A request besides the callbacks leaves them alone. -/
theorem callbacks_of_next {a : Act} (ha : a.callback? = none) (hn : next hash lower ttl s a = some s') :
    s'.callbacks = s.callbacks := by
  cases a with
  | login slug state codeVerifier nonce returnTo =>
    simp only [next, St.login] at hn
    split at hn
    · cases hn
    · rw [St.addRow_eq hn]
  | linkStart userId method slug state codeVerifier nonce =>
    simp only [next, St.linkStart] at hn
    split at hn
    · cases hn
    · split at hn
      · cases hn
      · rw [St.addRow_eq hn]
  | account a =>
    obtain ⟨db, -, rfl⟩ := Option.map_eq_some_iff.1 hn
    rfl
  | _ => cases ha <;> cases hn <;> rfl

/-- Its rows are the one it issues and those there were, one of them perhaps
without its user. -/
theorem rows_of_next {a : Act} (ha : a.callback? = none) (hn : next hash lower ttl s a = some s')
    {q : OIDCLoginState H} (hq : q ∈ s'.rows) :
    issued hash ttl ⟨s, a, s'⟩ = some q ∨ q ∈ s.rows ∨ ∃ userId, a = .deleteUser userId ∧
      ∃ p ∈ s.rows, p.initiatedUserId = some userId ∧ q = { p with initiatedUserId := none } := by
  cases a with
  | wait d =>
    cases hn
    exact .inr (.inl hq)
  | setProviders providers =>
    cases hn
    exact .inr (.inl (List.mem_of_mem_filter hq))
  | pruneExpiredStates =>
    cases hn
    exact .inr (.inl (List.mem_of_mem_filter hq))
  | account a =>
    obtain ⟨db, -, rfl⟩ := Option.map_eq_some_iff.1 hn
    exact .inr (.inl hq)
  | login slug state codeVerifier nonce returnTo =>
    simp only [next, St.login] at hn
    split at hn
    · cases hn
    · rename_i provider hprovider
      obtain rfl := St.addRow_eq hn
      obtain rfl | hq := List.mem_cons.1 hq
      · refine .inl ?_
        simp only [issued, hprovider]
        rfl
      · exact .inr (.inl hq)
  | linkStart userId method slug state codeVerifier nonce =>
    simp only [next, St.linkStart] at hn
    split at hn
    · cases hn
    · split at hn
      · cases hn
      · rename_i provider hprovider
        obtain rfl := St.addRow_eq hn
        obtain rfl | hq := List.mem_cons.1 hq
        · refine .inl ?_
          simp only [issued, hprovider]
          rfl
        · exact .inr (.inl hq)
  | deleteUser userId =>
    cases hn
    obtain ⟨p, hp, rfl⟩ := List.mem_map.1 hq
    split
    · rename_i huser
      exact .inr (.inr ⟨userId, rfl, p, hp, huser, rfl⟩)
    · exact .inr (.inl hp)
  | _ => cases ha

end

/-! ## The invariant -/

section
variable {hash ttl} {s s' s₁ : St H} {i : ℕ} {ts : List (Step (St H) Act)}

/-- A callback has its past. -/
def Callback.Earned (hash : Str → H) (ttl i : ℕ) (ts : List (Step (St H) Act)) : Callback H → Prop
  | .consumed provider row _ => Read hash ttl i ts provider row
  | .verified provider row claims => Verified hash ttl i ts provider row claims
  | _ => True

/-- Rows were issued, callbacks have their past. -/
structure Earned (hash : Str → H) (ttl : ℕ) (ts : List (Step (St H) Act)) (s : St H) : Prop where
  rows : ∀ q ∈ s.rows, Issued hash ttl ts q
  callbacks : ∀ i, (s.callbacks i).Earned hash ttl i ts

theorem Callback.Earned.later {c : Callback H} (h : c.Earned hash ttl i ts) (t : Step (St H) Act) :
    c.Earned hash ttl i (ts ++ [t]) := by
  cases c with
  | consumed provider row code => exact Read.later h t
  | verified provider row claims => exact Verified.later h t
  | _ => trivial

theorem Init.earned (h : Init s) : Earned hash ttl [] s := by
  refine ⟨fun q hq => ?_, fun i => ?_⟩
  · rw [h.rows] at hq
    cases hq
  · rw [h.callbacks i]
    trivial

/-- One callback moves on. -/
theorem Earned.goto (h : Earned hash ttl ts s) (t : Step (St H) Act) {c : Callback H}
    (hrows : ∀ q ∈ s₁.rows, Issued hash ttl (ts ++ [t]) q) (hcallbacks : s₁.callbacks = s.callbacks)
    (hc : c.Earned hash ttl i (ts ++ [t])) : Earned hash ttl (ts ++ [t]) (s₁.goto i c) where
  rows := hrows
  callbacks j := by
    by_cases hj : j = i
    · subst hj
      rw [St.goto_self]
      exact hc
    · rw [St.goto_ne hj, hcallbacks]
      exact (h.callbacks j).later t

variable [DecidableEq H]

theorem Earned.commitRow (h : Earned hash ttl ts s) {row : OIDCLoginState H} (hcommit : s.commitRow row = some s₁) :
    ∀ q ∈ s₁.rows, Issued hash ttl ts q := by
  intro q hq
  obtain ⟨p, hp, heq⟩ := St.mem_commitRow hcommit hq
  split at heq
  · rw [heq]
    exact (h.rows p hp).consumed _
  · rw [heq]
    exact h.rows p hp

theorem Earned.move (h : Earned hash ttl ts s) {a : Act} (hmove : Moves hash lower s s' i a) :
    Earned hash ttl (ts ++ [⟨s, a, s'⟩]) s' := by
  have hrows : ∀ q ∈ s.rows, Issued hash ttl (ts ++ [⟨s, a, s'⟩]) q := fun q hq => (h.rows q hq).later _
  cases hmove with
  | refuse hold hs =>
    subst hs
    exact h.goto _ hrows rfl trivial
  | @read slug code state provider row hold hprovider hrow hs =>
    subst hs
    obtain ⟨hmem, rfl, henabled⟩ := St.loadProvider_ok hprovider
    obtain ⟨q, hq, rfl, hhash, hid, -, hexpires⟩ := St.consumeState_ok hrow
    exact h.goto _ hrows rfl
      (Once.now ⟨(h.rows q hq).consumed _, code, state, rfl, hhash.symm, hmem, henabled, hid.symm, hexpires⟩)
  | @verify provider row code payload claims hold hpayload hs =>
    subst hs
    have hread := h.callbacks i
    rw [hold] at hread
    exact h.goto _ hrows rfl (Once.now ⟨hread, payload, rfl, verifyIdToken_ok hpayload⟩)
  | redirect hold hcommit hs =>
    subst hs
    exact h.goto _ (fun q hq => (h.commitRow hcommit q hq).later _) (St.commitRow_callbacks hcommit) trivial
  | rollBack hold hs =>
    subst hs
    exact h.goto _ hrows rfl trivial
  | @signIn provider row claims userId db s₁ hold haccount hcommit hs =>
    subst hs
    have hcallbacks : s₁.callbacks = s.callbacks := St.commitRow_callbacks hcommit
    exact h.goto _ (fun q hq => (h.commitRow hcommit q hq).later _) hcallbacks trivial

/-- **Step lemma.** -/
theorem Earned.step (h : Earned hash ttl ts s) {a : Act} (hn : next hash lower ttl s a = some s') :
    Earned hash ttl (ts ++ [⟨s, a, s'⟩]) s' := by
  cases hi : a.callback? with
  | some i => exact h.move lower (moves_of_next hash lower ttl hi hn)
  | none =>
    refine ⟨fun q hq => ?_, fun i => ?_⟩
    · obtain hissued | hq | ⟨userId, rfl, p, hp, huser, rfl⟩ := rows_of_next hash lower ttl hi hn hq
      · exact .inl (Once.now (issued_unused hissued))
      · exact (h.rows q hq).later _
      · exact (h.rows p hp).orphan huser rfl
    · rw [callbacks_of_next hash lower ttl hi hn]
      exact (h.callbacks i).later _

/-- **Whoever is signed in has earned it.** The provider vouched for him with the
nonce of a row that a login or a link had issued, the state of that row came
back in time to the provider it was issued for, and all this in that order; a
link signs in the user who started it, a login the user that the claims
provision. -/
theorem session_earned {s₀ : St H} {as : List Act} {userId : ℕ} (hinit : Init s₀)
    (hrun : run (next hash lower ttl) s₀ as = some s) (hfinish : next hash lower ttl s (.finish i) = some s')
    (hin : s'.callbacks i = .signedIn userId) :
    ∃ provider row claims, Verified hash ttl i (trace (next hash lower ttl) s₀ as) provider row claims ∧
      match row.initiatedUserId with
      | some user => user = userId ∧ ∃ r, Oidc.linkExistingUser s.db user provider.policy claims s.clock = .ok r
      | none => ∃ user db, Oidc.findOrCreateUser lower s.db provider.policy claims s.clock = .ok (user, db) ∧
          user.id = userId := by
  have hearned := @run_history_nil _ _ (next hash lower ttl) (Earned hash ttl)
    (fun ts s a s' h hn => h.step lower hn) _ _ _ hinit.earned hrun
  have hpast := hearned.callbacks i
  have hmove := moves_of_next hash lower ttl (a := .finish i) rfl hfinish
  cases hmove with
  | redirect hold hcommit hs =>
    rw [hs, St.goto_self] at hin
    cases hin
  | rollBack hold hs =>
    rw [hs, St.goto_self] at hin
    cases hin
  | @signIn provider row claims user db s₁ hold haccount hcommit hs =>
    rw [hs, St.goto_self] at hin
    cases hin
    rw [hold] at hpast
    refine ⟨provider, row, claims, hpast, ?_⟩
    cases hinitiated : row.initiatedUserId with
    | some user =>
      cases hlink : Oidc.linkExistingUser s.db user provider.policy claims s.clock with
      | error e =>
        simp only [St.account, hinitiated, hlink] at haccount
        cases haccount
      | ok r =>
        simp only [St.account, hinitiated, hlink] at haccount
        cases haccount
        exact ⟨rfl, r, hlink⟩
    | none =>
      cases hfound : Oidc.findOrCreateUser lower s.db provider.policy claims s.clock with
      | error e =>
        simp only [St.account, hinitiated, hfound] at haccount
        cases haccount
      | ok r =>
        simp only [St.account, hinitiated, hfound] at haccount
        cases haccount
        exact ⟨r.1, r.2, rfl, rfl⟩

end

/-! A user signs in for the first time. -/

namespace Sample

def idp : IdentityProvider :=
  ⟨"idp".toList, true, some "groups".toList, ⟨7, none, true, true, .ignore, none⟩⟩

def start : St Str := ⟨100, [idp], [], Oidc.Db.init [], [], fun _ => .idle⟩

theorem start_init : Init start := ⟨rfl, fun _ => rfl⟩

def token : Payload := ⟨some "n".toList, some "sub".toList, some "a@b.c".toList, true, none, []⟩

def flow : List Act :=
  [.login "idp".toList "state".toList "v".toList "n".toList "/".toList,
    .callback 0 "idp".toList "code".toList "state".toList, .exchange 0 (.ok token)]

end Sample

theorem session_earned_first : ∃ s s', run (next id id 600) Sample.start Sample.flow = some s ∧
    next id id 600 s (.finish 0) = some s' ∧ s'.callbacks 0 = .signedIn 0 ∧
    ∃ provider row claims, Verified id 600 0 (trace (next id id 600) Sample.start Sample.flow) provider row claims ∧
      match row.initiatedUserId with
      | some user => user = 0 ∧ ∃ r, Oidc.linkExistingUser s.db user provider.policy claims s.clock = .ok r
      | none => ∃ user db, Oidc.findOrCreateUser id s.db provider.policy claims s.clock = .ok (user, db) ∧
          user.id = 0 :=
  ⟨_, _, rfl, rfl, rfl, session_earned id Sample.start_init rfl rfl rfl⟩

/-! ## A state is used up -/

section
variable {hash lower ttl} {s s' s₁ : St H} {i : ℕ} {h : H}

/-- A callback that holds a row writes it back as used. -/
def Held (s : St H) : Prop := ∀ i row, (s.callbacks i).row = some row → row.consumedAt ≠ none

/-- The rows of a hash are used. -/
def Spent (h : H) (s : St H) : Prop := ∀ q ∈ s.rows, q.stateHash = h → q.consumedAt ≠ none

theorem Init.held (hinit : Init s) : Held s := by
  intro i row hrow
  rw [hinit.callbacks i] at hrow
  cases hrow

theorem Held.goto (hheld : Held s) (hcallbacks : s₁.callbacks = s.callbacks) {c : Callback H}
    (hc : ∀ row, c.row = some row → row.consumedAt ≠ none) : Held (s₁.goto i c) := by
  intro j row hrow
  by_cases hj : j = i
  · subst hj
    rw [St.goto_self] at hrow
    exact hc row hrow
  · rw [St.goto_ne hj, hcallbacks] at hrow
    exact hheld j row hrow

variable [DecidableEq H]

theorem Held.move (hheld : Held s) {a : Act} (hmove : Moves hash lower s s' i a) : Held s' := by
  cases hmove with
  | refuse hold hs =>
    subst hs
    exact hheld.goto rfl nofun
  | read hold hprovider hrow hs =>
    subst hs
    obtain ⟨q, -, rfl, -⟩ := St.consumeState_ok hrow
    refine hheld.goto rfl fun row hrow => ?_
    cases hrow
    exact Option.some_ne_none _
  | verify hold hpayload hs =>
    subst hs
    refine hheld.goto rfl fun row hrow => ?_
    cases hrow
    refine hheld i _ ?_
    rw [hold]
    rfl
  | redirect hold hcommit hs =>
    subst hs
    exact hheld.goto (St.commitRow_callbacks hcommit) nofun
  | rollBack hold hs =>
    subst hs
    exact hheld.goto rfl nofun
  | @signIn provider row claims userId db s₁ hold haccount hcommit hs =>
    subst hs
    have hcallbacks : s₁.callbacks = s.callbacks := St.commitRow_callbacks hcommit
    exact hheld.goto hcallbacks nofun

theorem Held.step (hheld : Held s) {a : Act} (hn : next hash lower ttl s a = some s') : Held s' := by
  cases hi : a.callback? with
  | some i => exact hheld.move (moves_of_next hash lower ttl hi hn)
  | none =>
    have hcallbacks : s'.callbacks = s.callbacks := callbacks_of_next hash lower ttl hi hn
    unfold Held
    rw [hcallbacks]
    exact hheld

/-- A commit uses its row up, and no row is unused by it. -/
theorem St.used_commitRow {row q : OIDCLoginState H} (hcommit : s.commitRow row = some s₁) (hused : row.consumedAt ≠ none)
    (hq : q ∈ s₁.rows) : q.consumedAt ≠ none ∨ q ∈ s.rows ∧ q.stateHash ≠ row.stateHash := by
  obtain ⟨p, hp, heq⟩ := St.mem_commitRow hcommit hq
  split at heq
  · rw [heq]
    exact .inl hused
  · rename_i hne
    rw [heq]
    exact .inr ⟨hp, hne⟩

theorem Spent.move (hspent : Spent h s) (hheld : Held s) {a : Act} (hmove : Moves hash lower s s' i a) : Spent h s' := by
  cases hmove with
  | refuse hold hs =>
    subst hs
    exact hspent
  | read hold hprovider hrow hs =>
    subst hs
    exact hspent
  | verify hold hpayload hs =>
    subst hs
    exact hspent
  | rollBack hold hs =>
    subst hs
    exact hspent
  | redirect hold hcommit hs =>
    subst hs
    intro q hq hhash
    obtain hused | ⟨hq, -⟩ := St.used_commitRow hcommit (hheld i _ hold) hq
    · exact hused
    · exact hspent q hq hhash
  | signIn hold haccount hcommit hs =>
    subst hs
    intro q hq hhash
    obtain hused | ⟨hq, -⟩ := St.used_commitRow hcommit (hheld i _ (by rw [hold]; rfl)) hq
    · exact hused
    · exact hspent q hq hhash

/-- **Step lemma.** Only a request that draws the same state makes the hash
good again. -/
theorem Spent.step (hspent : Spent h s) (hheld : Held s) {a : Act}
    (hfresh : ∀ q, issued hash ttl ⟨s, a, s'⟩ = some q → q.stateHash ≠ h) (hn : next hash lower ttl s a = some s') :
    Spent h s' := by
  cases hi : a.callback? with
  | some i => exact hspent.move hheld (moves_of_next hash lower ttl hi hn)
  | none =>
    intro q hq hhash
    obtain hissued | hq | ⟨userId, -, p, hp, -, rfl⟩ := rows_of_next hash lower ttl hi hn hq
    · exact absurd hhash (hfresh q hissued)
    · exact hspent q hq hhash
    · exact hspent p hp hhash

/-- A callback that commits uses its state up. -/
theorem Moves.spent {a : Act} {row : OIDCLoginState H} (hmove : Moves hash lower s s' i a) (hheld : Held s)
    (hrow : (s.callbacks i).row = some row)
    (hdone : (∃ userId, s'.callbacks i = .signedIn userId) ∨ ∃ e, s'.callbacks i = .redirected e) :
    Spent row.stateHash s' := by
  have hused := hheld i row hrow
  cases hmove with
  | refuse hold hs =>
    rw [hold] at hrow
    cases hrow
  | read hold hprovider hconsume hs =>
    rw [hold] at hrow
    cases hrow
  | verify hold hpayload hs =>
    rw [hs, St.goto_self] at hdone
    obtain ⟨_, hdone⟩ | ⟨_, hdone⟩ := hdone <;> cases hdone
  | rollBack hold hs =>
    rw [hs, St.goto_self] at hdone
    obtain ⟨_, hdone⟩ | ⟨_, hdone⟩ := hdone <;> cases hdone
  | redirect hold hcommit hs =>
    obtain rfl := Option.some.inj (hold.symm.trans hrow)
    subst hs
    intro q hq hhash
    obtain hq | ⟨-, hne⟩ := St.used_commitRow hcommit hused hq
    · exact hq
    · exact absurd hhash hne
  | signIn hold haccount hcommit hs =>
    rw [hold] at hrow
    obtain rfl := Option.some.inj hrow
    subst hs
    intro q hq hhash
    obtain hq | ⟨-, hne⟩ := St.used_commitRow hcommit hused hq
    · exact hq
    · exact absurd hhash hne

/-- A used state gets nobody past the callback. -/
theorem Spent.refuses {j : ℕ} {slug code state : Str} (hspent : Spent (hash state) s)
    (hn : next hash lower ttl s (.callback j slug code state) = some s') : ∃ e, s'.callbacks j = .refused e := by
  have hmove := moves_of_next hash lower ttl (a := .callback j slug code state) rfl hn
  simp only [next, St.callback] at hn
  split at hn
  · rename_i hidle
    cases hmove with
    | refuse hold hs =>
      rw [hs, St.goto_self]
      exact ⟨_, rfl⟩
    | read hold hprovider hrow hs =>
      obtain ⟨q, hq, -, hhash, -, hunused, -⟩ := St.consumeState_ok hrow
      exact absurd hunused (hspent q hq hhash)
    | redirect hold hcommit hs =>
      rw [hidle] at hold
      cases hold
    | rollBack hold hs =>
      rw [hidle] at hold
      cases hold
  · cases hn

/-- **No state is taken twice**, once its callback has committed: whether the
callback signed somebody in or was sent back with an error, a callback that
comes later with the same state is refused. -/
theorem state_spent {s₀ s₂ : St H} {as bs : List Act} {a : Act} {j : ℕ} {row : OIDCLoginState H} {slug code state : Str}
    (hinit : Init s₀) (hrun : run (next hash lower ttl) s₀ as = some s) (ha : a.callback? = some i)
    (hrow : (s.callbacks i).row = some row) (hn : next hash lower ttl s a = some s')
    (hdone : (∃ userId, s'.callbacks i = .signedIn userId) ∨ ∃ e, s'.callbacks i = .redirected e)
    (hlater : run (next hash lower ttl) s' bs = some s₁)
    (hfresh : ∀ t ∈ trace (next hash lower ttl) s' bs, ∀ q, issued hash ttl t = some q → q.stateHash ≠ row.stateHash)
    (hcallback : next hash lower ttl s₁ (.callback j slug code state) = some s₂) (hstate : hash state = row.stateHash) :
    ∃ e, s₂.callbacks j = .refused e := by
  have hheld : Held s := run_inv _ (fun _ _ _ h _ hn => Held.step h hn) hinit.held (fun _ _ => trivial) hrun
  have hheld' : Held s' := hheld.step hn
  have hspent : Spent row.stateHash s' := (moves_of_next hash lower ttl ha hn).spent hheld hrow hdone
  have hstep : ∀ u b u', Held u ∧ Spent row.stateHash u →
      (∀ q, issued hash ttl ⟨u, b, u⟩ = some q → q.stateHash ≠ row.stateHash) →
      next hash lower ttl u b = some u' → Held u' ∧ Spent row.stateHash u' :=
    fun u b u' hinv hok hnext => ⟨hinv.1.step hnext, hinv.2.step hinv.1 hok hnext⟩
  have hlast := run_guarded (next hash lower ttl) hstep ⟨hheld', hspent⟩ (fun t ht => hfresh t ht) hlater
  rw [← hstate] at hlast
  exact hlast.2.refuses hcallback

end

/-! The same link, opened again. -/

theorem state_spent_first : ∃ s s₂, run (next id id 600) Sample.start (Sample.flow ++ [.finish 0]) = some s ∧
    next id id 600 s (.callback 1 "idp".toList "code".toList "state".toList) = some s₂ ∧
    ∃ e, s₂.callbacks 1 = .refused e :=
  ⟨_, _, rfl, rfl, @state_spent _ id id 600 _ _ _ 0 _ _ _ Sample.flow [] (.finish 0) 1 _ "idp".toList "code".toList
    "state".toList Sample.start_init rfl rfl rfl rfl (.inl ⟨0, rfl⟩) rfl nofun rfl rfl⟩

end Cograph.OidcLogin
