import Cograph.Oidc
import Cograph.ByKey
import Cograph.Machine

/-!
# Safety of account linking

A sign-in ends in one of three ways: with the account the subject is linked to,
with the account of its address, which it links, or with a new account. From
these follow the constraints of the tables and what a run of sign-ins, links
and account creations keeps.
-/

namespace Cograph.Oidc

open Machine
open Scim (UserRole)
open Admins (ApiError)

/-! ## The tables -/

/-- The constraints of the tables: unique ids, addresses and subjects, and an
account behind every link. -/
structure Inv (s : Db) : Prop where
  fresh : ∀ u ∈ s.users, u.id < s.nextId
  ids : (s.users.map (·.id)).Nodup
  emails : (s.users.map (·.email)).Nodup
  pairs : (s.identities.map fun i => (i.providerId, i.subject)).Nodup
  linked : ∀ i ∈ s.identities, ∃ u ∈ s.users, u.id = i.userId

theorem inv_init (groups : List Group) : Inv (.init groups) :=
  ⟨by simp [Db.init], by simp [Db.init], by simp [Db.init], by simp [Db.init], by simp [Db.init]⟩

section
variable {s : Db}

theorem user_found {id : Nat} {u : User} (h : s.user? id = some u) : u ∈ s.users ∧ u.id = id :=
  ByKey.find_mem h

theorem email_found {email : Option Str} {u : User} (h : s.userByEmail email = some u) :
    u ∈ s.users ∧ email = some u.email := by
  unfold Db.userByEmail at h
  split at h
  · cases h
  · cases h
  · have hemail := List.find?_some h
    simp only [decide_eq_true_eq] at hemail
    exact ⟨List.mem_of_find?_eq_some h, by rw [hemail]⟩

theorem email_missing {email : Str} (h : s.userByEmail (some email) = none) (hne : email ≠ []) :
    ∀ u ∈ s.users, u.email ≠ email := by
  unfold Db.userByEmail at h
  split at h
  · cases ‹some email = none›
  · simp_all
  · simp_all

theorem identity_found {p : Nat} {sub : Str} {i : UserIdentity} (h : s.identity? p sub = some i) :
    i ∈ s.identities ∧ i.providerId = p ∧ i.subject = sub := by
  unfold Db.identity? at h
  exact ⟨List.mem_of_find?_eq_some h, by simpa using List.find?_some h⟩

theorem identity_missing {p : Nat} {sub : Str} (h : s.identity? p sub = none) :
    (p, sub) ∉ s.identities.map fun i => (i.providerId, i.subject) := by
  unfold Db.identity? at h
  simpa using h

end

/-! ## What each write keeps -/

section
variable {s : Db} (h : Inv s)
include h

theorem inv_sync (id : Nat) (provider : IdentityProvider) (groups : List Str) :
    Inv (syncGroupMemberships s id provider groups) :=
  ⟨h.fresh, h.ids, h.emails, h.pairs, h.linked⟩

theorem inv_audit (event : AuditEvent) : Inv (s.writeAudit event) :=
  ⟨h.fresh, h.ids, h.emails, h.pairs, h.linked⟩

theorem inv_touch (identity : UserIdentity) (now : Nat) : Inv (s.touch identity now) := by
  refine ⟨h.fresh, h.ids, h.emails, ?_, ?_⟩
  · have hpairs : (s.touch identity now).identities.map (fun i => (i.providerId, i.subject)) =
        s.identities.map fun i => (i.providerId, i.subject) := by
      unfold Db.touch
      rw [List.map_map]
      refine List.map_congr_left fun i _ => ?_
      by_cases hi : i = identity <;> simp [hi]
    rw [hpairs]
    exact h.pairs
  · intro i hi
    unfold Db.touch at hi
    obtain ⟨j, hj, rfl⟩ := List.mem_map.mp hi
    obtain ⟨u, hu, hid⟩ := h.linked j hj
    refine ⟨u, hu, ?_⟩
    by_cases hji : j = identity <;> simpa [hji] using hid

theorem inv_addIdentity (identity : UserIdentity)
    (hpair : (identity.providerId, identity.subject) ∉ s.identities.map fun i => (i.providerId, i.subject))
    (huser : ∃ u ∈ s.users, u.id = identity.userId) : Inv (s.addIdentity identity) := by
  refine ⟨h.fresh, h.ids, h.emails, ?_, ?_⟩
  · unfold Db.addIdentity
    rw [List.map_cons]
    exact List.nodup_cons.mpr ⟨hpair, h.pairs⟩
  · intro i hi
    unfold Db.addIdentity at hi
    rcases List.mem_cons.mp hi with rfl | hi
    · exact huser
    · exact h.linked i hi

theorem inv_addUser (user : User) (hid : user.id = s.nextId) (hemail : ∀ u ∈ s.users, u.email ≠ user.email) :
    Inv (s.addUser user) := by
  refine ⟨?_, ?_, ?_, h.pairs, ?_⟩
  · intro u hu
    unfold Db.addUser at hu ⊢
    rcases List.mem_cons.mp hu with rfl | hu
    · simp [hid]
    · have := h.fresh u hu
      dsimp only
      omega
  · have hnot : user.id ∉ s.users.map (·.id) := by
      intro hin
      obtain ⟨u, hu, he⟩ := List.mem_map.mp hin
      have := h.fresh u hu
      omega
    exact List.nodup_cons.mpr ⟨hnot, h.ids⟩
  · have hnot : user.email ∉ s.users.map (·.email) := by
      intro hin
      obtain ⟨u, hu, he⟩ := List.mem_map.mp hin
      exact hemail u hu he
    exact List.nodup_cons.mpr ⟨hnot, h.emails⟩
  · intro i hi
    obtain ⟨u, hu, hid⟩ := h.linked i hi
    exact ⟨u, List.mem_cons_of_mem _ hu, hid⟩

omit h in
theorem setUser_ids (user : User) : (s.setUser user).users.map (·.id) = s.users.map (·.id) := by
  unfold Db.setUser
  rw [List.map_map]
  refine List.map_congr_left fun v _ => ?_
  by_cases hv : v.id = user.id <;> simp [hv]

theorem inv_setUser (user : User) (hemail : ∀ u ∈ s.users, u.email = user.email → u.id = user.id) :
    Inv (s.setUser user) := by
  have hids := setUser_ids (s := s) user
  refine ⟨?_, hids ▸ h.ids, ?_, h.pairs, ?_⟩
  · intro u hu
    have hin : u.id ∈ s.users.map (·.id) := hids ▸ List.mem_map_of_mem hu
    obtain ⟨v, hv, he⟩ := List.mem_map.mp hin
    exact he ▸ h.fresh v hv
  · unfold Db.setUser
    rw [List.map_map]
    refine List.Nodup.map_on ?_ h.ids.of_map
    intro a ha b hb he
    have hinj := List.inj_on_of_nodup_map h.emails ha hb
    have hids := List.inj_on_of_nodup_map h.ids ha hb
    by_cases hau : a.id = user.id
    · by_cases hbu : b.id = user.id
      · exact hids (hau.trans hbu.symm)
      · have := hemail b hb (by simpa [hau, hbu] using he.symm)
        exact absurd this hbu
    · by_cases hbu : b.id = user.id
      · have := hemail a ha (by simpa [hau, hbu] using he)
        exact absurd this hau
      · exact hinj (by simpa [hau, hbu] using he)
  · intro i hi
    obtain ⟨u, hu, hid⟩ := h.linked i hi
    have hin : i.userId ∈ (s.setUser user).users.map (·.id) := by
      rw [hids, ← hid]
      exact List.mem_map_of_mem hu
    simpa using hin

end

/-! ## How a sign-in ends -/

section
variable {lower : Str → Str} {s s' : Db} {provider : IdentityProvider} {claims : IdTokenClaims} {now : Nat} {user : User}

theorem signIn_ok {identity : UserIdentity} (h : signIn s identity provider claims now = .ok (user, s')) :
    user ∈ s.users ∧ user.id = identity.userId ∧
      s' = syncGroupMemberships (s.touch identity now) user.id provider claims.groups := by
  unfold signIn at h
  cases hu : s.user? identity.userId with
  | none => simp [hu] at h
  | some u =>
    by_cases hact : u.isActive = false
    · simp [hu, hact] at h
    · simp only [hu] at h
      rw [if_neg hact] at h
      obtain ⟨rfl, rfl⟩ := Prod.mk.inj (Except.ok.inj h)
      exact ⟨(user_found hu).1, (user_found hu).2, rfl⟩

def User.ssoOnly (user : User) : User := { user with passwordHash := none, authSource := .oidc }

/-- The rows after the link of `old`. -/
def autoLinked (s : Db) (old : User) (provider : IdentityProvider) (claims : IdTokenClaims) (now : Nat) : Db :=
  syncGroupMemberships (((s.setUser old.ssoOnly).addIdentity
    ⟨old.id, provider.id, claims.sub, claims.email, some now⟩).writeAudit
      ⟨none, old.id, "user_identity_auto_linked"⟩) old.id provider claims.groups

def newUser (s : Db) (email : Str) (provider : IdentityProvider) (claims : IdTokenClaims) : User :=
  ⟨s.nextId, email, none, claims.name, resolveInitialRole provider claims, true, .oidc⟩

def provisioned (s : Db) (email : Str) (provider : IdentityProvider) (claims : IdTokenClaims) (now : Nat) : Db :=
  syncGroupMemberships (((s.addUser (newUser s email provider claims)).addIdentity
    ⟨s.nextId, provider.id, claims.sub, claims.email, some now⟩).writeAudit
      ⟨none, s.nextId, "user_provisioned_oidc"⟩) s.nextId provider claims.groups

theorem autoLink_ok {old : User} (h : autoLinkExistingUser s old provider claims now = .ok (user, s')) :
    user = old.ssoOnly ∧ s' = autoLinked s old provider claims now := by
  unfold autoLinkExistingUser at h
  by_cases hact : old.isActive = false
  · simp [hact] at h
  · rw [if_neg hact] at h
    obtain ⟨rfl, rfl⟩ := Prod.mk.inj (Except.ok.inj h)
    exact ⟨rfl, rfl⟩

theorem createUser_ok {email : Str} (h : createUser s email provider claims now = .ok (user, s')) :
    user = newUser s email provider claims ∧ s' = provisioned s email provider claims now := by
  unfold createUser at h
  dsimp only at h
  split_ifs at h with hfit
  obtain ⟨rfl, rfl⟩ := Prod.mk.inj (Except.ok.inj h)
  exact ⟨rfl, rfl⟩

theorem provision_ok (h : provision lower s provider claims now = .ok (user, s')) :
    ∃ email, claims.email = some email ∧ email ≠ [] ∧ user = newUser s email provider claims ∧
      s' = provisioned s email provider claims now := by
  unfold provision at h
  by_cases hauto : provider.autoProvision = false
  · simp [hauto] at h
  · rw [if_neg hauto] at h
    split at h
    · cases h
    · cases h
    · next email hne hemail =>
      split_ifs at h
      exact ⟨email, hemail, hne, createUser_ok h⟩

/-- **How a sign-in ends.** -/
theorem findOrCreateUser_ok (h : findOrCreateUser lower s provider claims now = .ok (user, s')) :
    (∃ identity ∈ s.identities, identity.providerId = provider.id ∧ identity.subject = claims.sub ∧
      user ∈ s.users ∧ user.id = identity.userId ∧
      s' = syncGroupMemberships (s.touch identity now) user.id provider claims.groups) ∨
    ((provider.id, claims.sub) ∉ s.identities.map fun i => (i.providerId, i.subject)) ∧
      ((∃ old ∈ s.users, claims.email = some old.email ∧ canAutoLink lower provider claims = true ∧
          user = old.ssoOnly ∧ s' = autoLinked s old provider claims now) ∨
        ∃ email, claims.email = some email ∧ (∀ u ∈ s.users, u.email ≠ email) ∧
          user = newUser s email provider claims ∧ s' = provisioned s email provider claims now) := by
  unfold findOrCreateUser at h
  cases hi : s.identity? provider.id claims.sub with
  | some identity =>
    simp only [hi] at h
    obtain ⟨hin, hp, hsub⟩ := identity_found hi
    obtain ⟨hu, hid, hs⟩ := signIn_ok h
    exact .inl ⟨identity, hin, hp, hsub, hu, hid, hs⟩
  | none =>
    simp only [hi] at h
    refine .inr ⟨identity_missing hi, ?_⟩
    cases hu : s.userByEmail claims.email with
    | some old =>
      simp only [hu] at h
      by_cases hcan : canAutoLink lower provider claims = true
      · simp only [hcan, if_true] at h
        obtain ⟨hin, hemail⟩ := email_found hu
        obtain ⟨huser, hs⟩ := autoLink_ok h
        exact .inl ⟨old, hin, hemail, hcan, huser, hs⟩
      · simp [hcan] at h
    | none =>
      simp only [hu] at h
      obtain ⟨email, hemail, hne, huser, hs⟩ := provision_ok h
      exact .inr ⟨email, hemail, email_missing (hemail ▸ hu) hne, huser, hs⟩

theorem linkExistingUser_ok {userId : Nat} {identity : UserIdentity}
    (h : linkExistingUser s userId provider claims now = .ok (identity, s')) :
    ∃ u ∈ s.users, u.id = userId ∧
      ((∃ i ∈ s.identities, i.providerId = provider.id ∧ i.subject = claims.sub ∧ i.userId = userId ∧
          s' = s.touch i now) ∨
        ((provider.id, claims.sub) ∉ s.identities.map fun i => (i.providerId, i.subject)) ∧
          s' = (s.addIdentity ⟨u.id, provider.id, claims.sub, claims.email, some now⟩).writeAudit
            ⟨some u.id, u.id, "user_identity_linked"⟩) := by
  unfold linkExistingUser at h
  cases hu : s.user? userId with
  | none => simp [hu] at h
  | some u =>
    obtain ⟨hin, hid⟩ := user_found hu
    simp only [hu] at h
    split_ifs at h with hact hemail hother
    rw [Except.ok.injEq] at h
    refine ⟨u, hin, hid, ?_⟩
    unfold linkOwn at h
    split at h
    · next i hi =>
      have hkey := List.find?_some hi
      simp only [decide_eq_true_eq] at hkey
      exact .inl ⟨i, List.mem_of_find?_eq_some hi, hkey.1, hkey.2.1, hkey.2.2.trans hid, (congrArg Prod.snd h).symm⟩
    · next hi =>
      refine .inr ⟨?_, (congrArg Prod.snd h).symm⟩
      intro hpair
      obtain ⟨i, hi', he⟩ := List.mem_map.mp hpair
      obtain ⟨hp, hsub⟩ : i.providerId = provider.id ∧ i.subject = claims.sub := by simpa using he
      have hown := List.find?_eq_none.mp hi i hi'
      simp only [hp, hsub, true_and, decide_eq_true_eq] at hown
      exact hother (List.any_eq_true.mpr ⟨i, hi', by simp [hp, hsub, hown]⟩)

end

/-! ## Steps -/

section
variable {s : Db} (h : Inv s) (provider : IdentityProvider) (claims : IdTokenClaims) (now : Nat)
include h

theorem inv_autoLinked {old : User} (hold : old ∈ s.users)
    (hpair : (provider.id, claims.sub) ∉ s.identities.map fun i => (i.providerId, i.subject)) :
    Inv (autoLinked s old provider claims now) := by
  have hset : Inv (s.setUser old.ssoOnly) := by
    refine inv_setUser h _ fun u hu he => ?_
    have : u = old := List.inj_on_of_nodup_map h.emails hu hold he
    rw [this]
    rfl
  have hin : old.id ∈ (s.setUser old.ssoOnly).users.map (·.id) := by
    rw [setUser_ids]
    exact List.mem_map_of_mem hold
  have hlink := inv_addIdentity hset ⟨old.id, provider.id, claims.sub, claims.email, some now⟩ hpair
    (List.mem_map.mp hin)
  exact inv_sync (inv_audit hlink _) _ _ _

theorem inv_provisioned {email : Str} (hemail : ∀ u ∈ s.users, u.email ≠ email)
    (hpair : (provider.id, claims.sub) ∉ s.identities.map fun i => (i.providerId, i.subject)) :
    Inv (provisioned s email provider claims now) := by
  have huser : Inv (s.addUser (newUser s email provider claims)) := inv_addUser h _ rfl hemail
  have hlink := inv_addIdentity huser ⟨s.nextId, provider.id, claims.sub, claims.email, some now⟩ hpair
    ⟨_, List.mem_cons_self .., rfl⟩
  exact inv_sync (inv_audit hlink _) _ _ _

end

section
variable {lower : Str → Str}

/-- What a login leaves: the rows as they were, or those of a sign-in. -/
theorem login_next {s s' : Db} {provider : IdentityProvider} {claims : IdTokenClaims} {now : Nat}
    (hn : next lower s (.login provider claims now) = some s') :
    s' = s ∨ (∃ identity userId, s' = syncGroupMemberships (s.touch identity now) userId provider claims.groups) ∨
      ((provider.id, claims.sub) ∉ s.identities.map fun i => (i.providerId, i.subject)) ∧
        ((∃ old ∈ s.users, s' = autoLinked s old provider claims now) ∨
          ∃ email, (∀ u ∈ s.users, u.email ≠ email) ∧ s' = provisioned s email provider claims now) := by
  simp only [next] at hn
  split at hn
  · next user s₁ hok =>
    obtain rfl := Option.some.inj hn
    obtain ⟨i, -, -, -, -, -, rfl⟩ | ⟨hpair, ⟨old, hold, -, -, -, rfl⟩ | ⟨email, -, hemail, -, rfl⟩⟩ :=
      findOrCreateUser_ok hok
    · exact .inr (.inl ⟨i, user.id, rfl⟩)
    · exact .inr (.inr ⟨hpair, .inl ⟨old, hold, rfl⟩⟩)
    · exact .inr (.inr ⟨hpair, .inr ⟨email, hemail, rfl⟩⟩)
  · exact .inl (Option.some.inj hn).symm

/-- What a link leaves: the rows as they were, or with one identity written. -/
theorem link_next {s s' : Db} {userId : Nat} {provider : IdentityProvider} {claims : IdTokenClaims} {now : Nat}
    (hn : next lower s (.link userId provider claims now) = some s') :
    s' = s ∨ (∃ identity, s' = s.touch identity now) ∨
      ((provider.id, claims.sub) ∉ s.identities.map fun i => (i.providerId, i.subject)) ∧
        ∃ u ∈ s.users, s' = (s.addIdentity ⟨u.id, provider.id, claims.sub, claims.email, some now⟩).writeAudit
          ⟨some u.id, u.id, "user_identity_linked"⟩ := by
  simp only [next] at hn
  split at hn
  · next identity s₁ hok =>
    obtain rfl := Option.some.inj hn
    obtain ⟨u, hu, -, ⟨i, -, -, -, -, rfl⟩ | ⟨hpair, rfl⟩⟩ := linkExistingUser_ok hok
    · exact .inr (.inl ⟨i, rfl⟩)
    · exact .inr (.inr ⟨hpair, u, hu, rfl⟩)
  · exact .inl (Option.some.inj hn).symm

theorem inv_step (s : Db) (a : Action) (s' : Db) (h : Inv s) (hn : next lower s a = some s') : Inv s' := by
  cases a with
  | login provider claims now =>
    obtain rfl | ⟨i, userId, rfl⟩ | ⟨hpair, ⟨old, hold, rfl⟩ | ⟨email, hemail, rfl⟩⟩ := login_next hn
    · exact h
    · exact inv_sync (inv_touch h _ _) _ _ _
    · exact inv_autoLinked h provider claims now hold hpair
    · exact inv_provisioned h provider claims now hemail hpair
  | link userId provider claims now =>
    obtain rfl | ⟨i, rfl⟩ | ⟨hpair, u, hu, rfl⟩ := link_next hn
    · exact h
    · exact inv_touch h _ _
    · exact inv_audit (inv_addIdentity h _ hpair ⟨u, hu, rfl⟩) _
  | create email passwordHash name role isActive authSource =>
    simp only [next] at hn
    split_ifs at hn with hbad
    obtain rfl := Option.some.inj hn
    refine inv_addUser h _ rfl fun u hu he => hbad (.inl ?_)
    exact List.any_eq_true.mpr ⟨u, hu, by simpa using he⟩
  | edit userId email name role isActive =>
    simp only [next] at hn
    split at hn
    · cases hn
    · next user huser =>
      obtain ⟨-, rfl⟩ := user_found huser
      split_ifs at hn with hbad
      obtain rfl := Option.some.inj hn
      refine inv_setUser h _ fun u hu he => ?_
      by_contra hid
      exact hbad (.inl (List.any_eq_true.mpr ⟨u, hu, by simpa using ⟨he, hid⟩⟩))

/-- The constraints hold of every reachable state, so that no write of a run
breaks one. -/
theorem inv_run {groups : List Group} {as : List Action} {s : Db} (h : run (next lower) (.init groups) as = some s) :
    Inv s :=
  run_inv (next lower) (fun s a s' hs (_ : True) hn => inv_step s a s' hs hn) (inv_init groups)
    (fun _ _ => trivial) h

theorem signIn_reads {s : Db} (h : Inv s) {identity : UserIdentity} (hi : identity ∈ s.identities)
    (provider : IdentityProvider) (claims : IdTokenClaims) (now : Nat) :
    signIn s identity provider claims now ≠ .error .attributeError := by
  obtain ⟨u, hu, hid⟩ := h.linked identity hi
  unfold signIn
  cases hfound : s.user? identity.userId with
  | none =>
    unfold Db.user? at hfound
    have := List.find?_eq_none.mp hfound u hu
    simp [hid] at this
  | some v => by_cases hact : v.isActive = false <;> simp [hact]

end

/-! ## Links are permanent -/

/-- The subject of the provider is linked to the account. -/
def Mapped (s : Db) (providerId : Nat) (subject : Str) (userId : Nat) : Prop :=
  ∃ i ∈ s.identities, i.providerId = providerId ∧ i.subject = subject ∧ i.userId = userId

section
variable {lower : Str → Str} {s s' : Db} {p : Nat} {sub : Str} {u : Nat}

theorem mapped_touch (h : Mapped s p sub u) (identity : UserIdentity) (now : Nat) :
    Mapped (s.touch identity now) p sub u := by
  obtain ⟨i, hi, hp, hsub, hu⟩ := h
  refine ⟨_, List.mem_map_of_mem hi, ?_⟩
  by_cases he : i = identity <;> simp [he] at * <;> exact ⟨hp, hsub, hu⟩

theorem mapped_add (h : Mapped s p sub u) (identity : UserIdentity) : Mapped (s.addIdentity identity) p sub u := by
  obtain ⟨i, hi, he⟩ := h
  exact ⟨i, List.mem_cons_of_mem _ hi, he⟩

theorem mapped_step (a : Action) (h : Mapped s p sub u) (hn : next lower s a = some s') : Mapped s' p sub u := by
  cases a with
  | login provider claims now =>
    obtain rfl | ⟨i, userId, rfl⟩ | ⟨-, ⟨old, -, rfl⟩ | ⟨email, -, rfl⟩⟩ := login_next hn
    · exact h
    · exact mapped_touch h _ _
    · exact mapped_add (s := s.setUser old.ssoOnly) h _
    · exact mapped_add (s := s.addUser _) h _
  | link userId provider claims now =>
    obtain rfl | ⟨i, rfl⟩ | ⟨-, v, -, rfl⟩ := link_next hn
    · exact h
    · exact mapped_touch h _ _
    · exact mapped_add h _
  | create email passwordHash name role isActive authSource =>
    simp only [next] at hn
    split_ifs at hn
    exact Option.some.inj hn ▸ h
  | edit userId email name role isActive =>
    simp only [next] at hn
    split at hn
    · cases hn
    · split_ifs at hn
      exact Option.some.inj hn ▸ h

theorem mapped_run {bs : List Action} (h : Mapped s p sub u) (hr : run (next lower) s bs = some s') :
    Mapped s' p sub u :=
  run_inv (next lower) (fun _ a _ hm (_ : True) hn => mapped_step a hm hn) h (fun _ _ => trivial) hr

theorem mapped_unique (h : Inv s) {u' : Nat} (hu : Mapped s p sub u) (hu' : Mapped s p sub u') : u = u' := by
  obtain ⟨i, hi, rfl, rfl, rfl⟩ := hu
  obtain ⟨j, hj, hp, hsub, rfl⟩ := hu'
  exact congrArg UserIdentity.userId (List.inj_on_of_nodup_map h.pairs hi hj (by simp [hp, hsub]))

end

/-! ## Accounts that are linked by a sign-in -/

/-- The domain of the address is one that the provider allows. -/
def DomainListed (lower : Str → Str) (provider : IdentityProvider) (email : Str) : Prop :=
  ∃ d, emailDomain lower (some email) = some d ∧ d ∈ allowlist lower provider

/-- What a sign-in asks before it links an account to a subject by its
address. -/
structure MayAutoLink (lower : Str → Str) (provider : IdentityProvider) (claims : IdTokenClaims) (user : User) :
    Prop where
  enabled : provider.autoLinkOnVerifiedEmail = true
  same : claims.email = some user.email
  trusted : claims.emailVerified = true ∨ DomainListed lower provider user.email
  allowed : allowlist lower provider ≠ [] → DomainListed lower provider user.email

section
variable {lower : Str → Str} {provider : IdentityProvider} {claims : IdTokenClaims}

theorem listed_of_any {email : Str}
    (h : (emailDomain lower (some email)).any (· ∈ allowlist lower provider) = true) :
    DomainListed lower provider email := by
  unfold DomainListed
  cases hd : emailDomain lower (some email) with
  | none => simp [hd] at h
  | some d => exact ⟨d, rfl, by simpa [hd] using h⟩

theorem canAutoLink_may {user : User} (h : canAutoLink lower provider claims = true)
    (hemail : claims.email = some user.email) : MayAutoLink lower provider claims user := by
  unfold canAutoLink at h
  split_ifs at h with hoff htrust hnil
  all_goals
    have htrusted : claims.emailVerified = true ∨ DomainListed lower provider user.email := by
      unfold emailIsTrusted at htrust
      rw [hemail] at htrust
      by_cases hv : claims.emailVerified = true
      · exact .inl hv
      · refine .inr (listed_of_any ?_)
        split at htrust <;> simp_all
  · exact ⟨by simpa using hoff, hemail, htrusted, fun hne => absurd hnil hne⟩
  · exact ⟨by simpa using hoff, hemail, htrusted, fun _ => listed_of_any (hemail ▸ h)⟩

end

/-! ## Owners -/

def Action.FromProvider : Action → Prop
  | .login .. | .link .. => True
  | _ => False

theorem initial_role (provider : IdentityProvider) (claims : IdTokenClaims) :
    resolveInitialRole provider claims ≠ .owner := by
  unfold resolveInitialRole
  split_ifs
  · simp
  · split
    · simp
    · split_ifs <;> simp

theorem owners_step {lower : Str → Str} {s s' : Db} {a : Action} (ha : a.FromProvider)
    (hn : next lower s a = some s') : ∀ u ∈ s'.users, u.role = .owner → ∃ v ∈ s.users, v.id = u.id ∧ v.role = .owner := by
  intro u hu hrole
  cases a with
  | login provider claims now =>
    obtain rfl | ⟨i, userId, rfl⟩ | ⟨-, ⟨old, hold, rfl⟩ | ⟨email, -, rfl⟩⟩ := login_next hn
    · exact ⟨u, hu, rfl, hrole⟩
    · exact ⟨u, hu, rfl, hrole⟩
    · obtain ⟨v, hv, rfl⟩ := List.mem_map.mp hu
      by_cases hid : v.id = old.ssoOnly.id
      · rw [if_pos hid] at hrole ⊢
        exact ⟨old, hold, rfl, hrole⟩
      · rw [if_neg hid] at hrole ⊢
        exact ⟨v, hv, rfl, hrole⟩
    · rcases List.mem_cons.mp hu with rfl | hu
      · exact absurd hrole (initial_role provider claims)
      · exact ⟨u, hu, rfl, hrole⟩
  | link userId provider claims now =>
    obtain rfl | ⟨i, rfl⟩ | ⟨-, v, -, rfl⟩ := link_next hn <;> exact ⟨u, hu, rfl, hrole⟩
  | create => cases ha
  | edit => cases ha

/-- **Account linking is safe.** In any state that is reached, a subject of a
provider stays with the one account it is linked to, a sign-in returns another
account than its own only where it may link it, and no request of a provider
makes an owner. -/
theorem accounts_linked_safely {lower : Str → Str} {groups : List Group} {as : List Action} {s : Db}
    (h : run (next lower) (.init groups) as = some s) :
    (∀ bs s' p sub u u', run (next lower) s bs = some s' → Mapped s p sub u → Mapped s' p sub u' → u = u') ∧
    (∀ provider claims now user s', findOrCreateUser lower s provider claims now = .ok (user, s') →
      (∃ u ∈ s.users, u.id = user.id) → ¬Mapped s provider.id claims.sub user.id →
        MayAutoLink lower provider claims user) ∧
    ∀ a s', a.FromProvider → next lower s a = some s' →
      ∀ u ∈ s'.users, u.role = .owner → ∃ v ∈ s.users, v.id = u.id ∧ v.role = .owner := by
  have hinv := inv_run h
  refine ⟨?_, ?_, fun a s' ha hn => owners_step ha hn⟩
  · intro bs s' p sub u u' hr hu hu'
    have hinv' : Inv s' := run_inv (next lower) (fun s a s' hs (_ : True) hn => inv_step s a s' hs hn) hinv
      (fun _ _ => trivial) hr
    exact mapped_unique hinv' (mapped_run hu hr) hu'
  · intro provider claims now user s' hok hold hnot
    obtain ⟨i, hi, hp, hsub, -, hid, -⟩ | ⟨-, ⟨old, -, hemail, hcan, rfl, -⟩ | ⟨email, -, -, rfl, -⟩⟩ :=
      findOrCreateUser_ok hok
    · exact absurd ⟨i, hi, hp, hsub, hid.symm⟩ hnot
    · exact canAutoLink_may hcan hemail
    · obtain ⟨u, hu, he⟩ := hold
      have : u.id < s.nextId := hinv.fresh u hu
      have : u.id = s.nextId := he
      omega

def workforce : IdentityProvider := ⟨7, some [['c', 'o']], false, true, .ignore, none⟩

def annClaims : IdTokenClaims := ⟨['x'], some ['a', '@', 'C', 'o'], false, none, []⟩

def ann : User := ⟨0, ['a', '@', 'C', 'o'], some ['h'], none, .owner, true, .password⟩

theorem ann_may_link : MayAutoLink Str.lower workforce annClaims ann.ssoOnly := by
  have hrun : run (next Str.lower) (.init []) [.create ann.email ann.passwordHash none .owner true .password] =
      some ⟨[ann], [], [], [], [], 1⟩ := rfl
  exact (accounts_linked_safely hrun).2.1 workforce annClaims 3 _ _ rfl ⟨ann, by simp, rfl⟩ (by simp [Mapped])

end Cograph.Oidc
