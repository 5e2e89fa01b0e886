import Cograph.Credentials
import Cograph.Gateway
import Cograph.Machine

/-!
# What gets through, and for how long

Whoever a gate lets through is an active user, and goes back to a sign-in of that
user: by a session that was signed for it, or by a personal access token that such
a session asked for, with the scopes it asked for. A token that is revoked or
rotated is refused by every gate from then on.
-/

namespace Cograph.Gateway

open Machine

/-! ## The ledger of the last use -/

section
variable {Digest : Type} {s s' s'' : St Digest}

/-- The row but for its last use. -/
def PersonalAccessToken.core (row : PersonalAccessToken Digest) : PersonalAccessToken Digest :=
  { row with lastUsedAt := none, lastUsedIp := none }

/-- Only the last use of tokens may have changed. -/
structure Touched (s s' : St Digest) : Prop where
  now : s'.now = s.now
  nextId : s'.nextId = s.nextId
  users : s'.users = s.users
  families : s'.families = s.families
  issued : s'.issued = s.issued
  tokens : s'.tokens.map (·.core) = s.tokens.map (·.core)

theorem Touched.refl : Touched s s := ⟨rfl, rfl, rfl, rfl, rfl, rfl⟩

theorem Touched.trans (h₁ : Touched s s') (h₂ : Touched s' s'') : Touched s s'' :=
  ⟨h₂.now.trans h₁.now, h₂.nextId.trans h₁.nextId, h₂.users.trans h₁.users, h₂.families.trans h₁.families,
    h₂.issued.trans h₁.issued, h₂.tokens.trans h₁.tokens⟩

theorem touch_touched {row : PersonalAccessToken Digest} {clientIp : Option Str} {commits : Bool} :
    Touched s (s.touch row clientIp commits) := by
  unfold St.touch
  dsimp only
  split
  · refine ⟨rfl, rfl, rfl, rfl, rfl, ?_⟩
    show List.map _ (List.map _ s.tokens) = _
    rw [List.map_map]
    refine List.map_congr_left fun other _ => ?_
    show (if other.id = row.id then _ else other : PersonalAccessToken Digest).core = other.core
    split <;> rfl
  · exact .refl

theorem Touched.mem (h : Touched s s') {row' : PersonalAccessToken Digest} (hrow : row' ∈ s'.tokens) :
    ∃ row ∈ s.tokens, row.core = row'.core := by
  have hcore := List.mem_map_of_mem (f := (·.core)) hrow
  rw [h.tokens] at hcore
  exact List.mem_map.1 hcore

theorem Touched.symm (h : Touched s s') : Touched s' s :=
  ⟨h.now.symm, h.nextId.symm, h.users.symm, h.families.symm, h.issued.symm, h.tokens.symm⟩

end

/-! ## The row of a token -/

section
variable {Digest : Type} [DecidableEq Digest] {sha256 : Str → Digest} {s s' : St Digest}

/-- The row that a token passes by, and its user. -/
def St.patRow (s : St Digest) (sha256 : Str → Digest) (token : Str) : Option (PersonalAccessToken Digest × User) :=
  if patPlaintextPrefix.isPrefixOf token then
    (s.tokens.find? (·.tokenHash = sha256 token)).bind fun row =>
      if row.revokedAt.isSome ∨ row.expiresAt.any (· < s.now) then none
      else ((s.user? row.userId).filter (·.isActive)).map fun user => (row, user)
  else none

def St.actorOf (s : St Digest) (sha256 : Str → Digest) (token : Str) : Option AuthenticatedActor :=
  (s.patRow sha256 token).map fun x => ⟨x.2, .pat, x.1.scopes, some x.1.id⟩

theorem resolvePat_eq {token : Str} {clientIp : Option Str} {commits : Bool} :
    s.resolvePat sha256 token clientIp commits =
      match s.patRow sha256 token with
      | none => (none, s)
      | some (row, user) => (some ⟨user, .pat, row.scopes, some row.id⟩, s.touch row clientIp commits) := by
  unfold St.resolvePat St.patRow
  by_cases hmarked : patPlaintextPrefix.isPrefixOf token = true
  · rw [if_neg (not_not.2 hmarked), if_pos hmarked]
    cases hfind : s.tokens.find? (·.tokenHash = sha256 token) with
    | none => rfl
    | some row =>
      rw [Option.bind_some]
      dsimp only
      by_cases hout : row.revokedAt.isSome = true ∨ row.expiresAt.any (· < s.now) = true
      · rw [if_pos hout, if_pos hout]
      · rw [if_neg hout, if_neg hout]
        cases huser : (s.user? row.userId).filter (·.isActive) with
        | none => rfl
        | some user => rfl
  · rw [if_pos hmarked, if_neg hmarked]

/-- **Spec of `_resolve_pat`.** -/
theorem resolvePat_spec (s : St Digest) (sha256 : Str → Digest) (token : Str) (clientIp : Option Str) (commits : Bool) :
    ∃ s₁, s.resolvePat sha256 token clientIp commits = (s.actorOf sha256 token, s₁) ∧ Touched s s₁ := by
  rw [resolvePat_eq, St.actorOf]
  cases s.patRow sha256 token with
  | none => exact ⟨s, rfl, .refl⟩
  | some x => exact ⟨s.touch x.1 clientIp commits, rfl, touch_touched⟩

theorem resolvePat_none {token : Str} {clientIp : Option Str} {commits : Bool} (h : s.actorOf sha256 token = none) :
    s.resolvePat sha256 token clientIp commits = (none, s) := by
  rw [resolvePat_eq, Option.map_eq_none_iff.1 h]

/-- What the row of a token that passes is like. -/
structure Passes (sha256 : Str → Digest) (s : St Digest) (token : Str) (row : PersonalAccessToken Digest)
    (user : User) : Prop where
  mem : row ∈ s.tokens
  hash : row.tokenHash = sha256 token
  unrevoked : row.revokedAt = none
  unexpired : ∀ e, row.expiresAt = some e → s.now ≤ e
  member : user ∈ s.users
  owner : user.id = row.userId
  isActive : user.isActive = true

omit [DecidableEq Digest] in
theorem user?_some {userId : ℕ} {user : User} (h : s.user? userId = some user) : user ∈ s.users ∧ user.id = userId :=
  ⟨List.mem_of_find?_eq_some h, by simpa using List.find?_some h⟩

theorem patRow_some {token : Str} {row : PersonalAccessToken Digest} {user : User}
    (h : s.patRow sha256 token = some (row, user)) : Passes sha256 s token row user := by
  unfold St.patRow at h
  split at h
  · obtain ⟨row', hfind, h⟩ := Option.bind_eq_some_iff.1 h
    split at h
    · cases h
    · rename_i hout
      obtain ⟨hrevoked, hexpired⟩ := not_or.1 hout
      obtain ⟨user', huser, heq⟩ := Option.map_eq_some_iff.1 h
      cases heq
      obtain ⟨huser, hactive⟩ := Option.filter_eq_some_iff.1 huser
      obtain ⟨hmem, hid⟩ := user?_some huser
      refine ⟨List.mem_of_find?_eq_some hfind, by simpa using List.find?_some hfind, by simpa using hrevoked, ?_, hmem,
        hid, by simpa using hactive⟩
      intro e he
      rw [he] at hexpired
      simpa using hexpired
  · cases h

theorem actorOf_some {token : Str} {actor : AuthenticatedActor} (h : s.actorOf sha256 token = some actor) :
    ∃ row, Passes sha256 s token row actor.user ∧ actor.method = .pat ∧ actor.scopes = row.scopes := by
  obtain ⟨⟨row, user⟩, hrow, rfl⟩ := Option.map_eq_some_iff.1 h
  exact ⟨row, patRow_some hrow, rfl, rfl⟩

/-- A row lets its user through by the rule of `Credentials`, whichever request
stored it and whatever it was rotated from. -/
theorem actorOf_resolvePat {token : Str} {row : PersonalAccessToken Digest}
    (hmarked : patPlaintextPrefix.isPrefixOf token = true)
    (hrow : s.tokens.find? (·.tokenHash = sha256 token) = some row) (reason : Option String) (request : ℕ)
    (lineage : List ℕ) :
    (s.actorOf sha256 token).isSome = Credentials.resolvePat ((s.user? row.userId).any (·.isActive)) s.now
      ⟨row.expiresAt, row.revokedAt, reason, request, lineage⟩ := by
  unfold St.actorOf St.patRow Credentials.resolvePat Credentials.lapsed
  rw [if_pos hmarked, hrow, Option.bind_some]
  by_cases hout : row.revokedAt.isSome = true ∨ row.expiresAt.any (· < s.now) = true
  · rw [if_pos hout]
    obtain hrevoked | hexpired := hout
    · simp [Option.isNone_eq_false_iff.2 hrevoked]
    · simp [hexpired]
  · rw [if_neg hout]
    obtain ⟨hrevoked, hexpired⟩ := not_or.1 hout
    have hnone : row.revokedAt.isNone = true := by simpa using hrevoked
    rw [hnone, Bool.eq_false_iff.2 hexpired]
    cases s.user? row.userId with
    | none => rfl
    | some user =>
      cases hactive : user.isActive <;> simp [Option.filter, hactive]

/-- The last use of a token has no say. -/
theorem Touched.actorOf (h : Touched s s') (token : Str) : s'.actorOf sha256 token = s.actorOf sha256 token := by
  have hfind (r : St Digest) : (r.tokens.find? (·.tokenHash = sha256 token)).map (·.core) =
      (r.tokens.map (·.core)).find? (·.tokenHash = sha256 token) := by
    rw [List.find?_map]
    rfl
  have hsame := (hfind s').trans ((congrArg _ h.tokens).trans (hfind s).symm)
  unfold St.actorOf St.patRow St.user?
  rw [h.now, h.users]
  cases hnew : s'.tokens.find? (·.tokenHash = sha256 token) with
  | none =>
    rw [hnew] at hsame
    rw [Option.map_eq_none_iff.1 hsame.symm]
  | some row' =>
    rw [hnew] at hsame
    obtain ⟨row, hold, hcore⟩ := Option.map_eq_some_iff.1 hsame.symm
    have hid : row.id = row'.id := congrArg (·.id) hcore
    have huser : row.userId = row'.userId := congrArg (·.userId) hcore
    have hscopes : row.scopes = row'.scopes := congrArg (·.scopes) hcore
    have hrevoked : row.revokedAt = row'.revokedAt := congrArg (·.revokedAt) hcore
    have hexpires : row.expiresAt = row'.expiresAt := congrArg (·.expiresAt) hcore
    rw [hold]
    simp only [Option.bind_some, hrevoked, hexpires, huser]
    split
    · split
      · rfl
      · simp only [Option.map_map, Function.comp_def, hscopes, hid]
    · rfl

end

/-! ## Gates -/

section
variable {Digest : Type} [DecidableEq Digest] {sha256 : Str → Digest} {verify : Str → Option Payload} {s s' : St Digest}
variable {req : Request} {commits : Bool} {actor : AuthenticatedActor}

abbrev Outcome (Digest : Type) := Except Failure AuthenticatedActor × St Digest

theorem resolvePatOrRaise_touched {token scope : Str} {clientIp : Option Str} :
    Touched s (s.resolvePatOrRaise sha256 token clientIp commits scope).2 := by
  obtain ⟨s₁, heq, htouched⟩ := resolvePat_spec s sha256 token clientIp commits
  unfold St.resolvePatOrRaise
  rw [heq]
  cases s.actorOf sha256 token with
  | none => exact htouched
  | some actor =>
    dsimp only
    split <;> exact htouched

theorem resolvePatOrRaise_ok {token scope : Str} {clientIp : Option Str}
    (h : s.resolvePatOrRaise sha256 token clientIp commits scope = (.ok actor, s')) :
    s.actorOf sha256 token = some actor ∧ scope ∈ actor.scopes := by
  obtain ⟨s₁, heq, -⟩ := resolvePat_spec s sha256 token clientIp commits
  unfold St.resolvePatOrRaise at h
  rw [heq] at h
  cases hactor : s.actorOf sha256 token with
  | none =>
    rw [hactor] at h
    cases h
  | some actor' =>
    rw [hactor] at h
    dsimp only at h
    by_cases hscope : scope ∈ actor'.scopes
    · rw [if_pos hscope] at h
      cases h
      exact ⟨rfl, hscope⟩
    · rw [if_neg hscope] at h
      cases h

theorem requireCurrentUser_touched : Touched s (s.requireCurrentUser sha256 verify req commits).2 := by
  unfold St.requireCurrentUser
  split
  · exact resolvePatOrRaise_touched
  · exact .refl

theorem requireAuthenticated_touched : Touched s (s.requireAuthenticated sha256 verify req commits).2 := by
  unfold St.requireAuthenticated
  cases patBearer req with
  | none => exact requireCurrentUser_touched
  | some token =>
    obtain ⟨s₁, heq, htouched⟩ := resolvePat_spec s sha256 token (requestClientIp req) commits
    dsimp only
    rw [heq]
    cases s.actorOf sha256 token with
    | none => exact htouched
    | some actor => exact htouched

omit [DecidableEq Digest] in
theorem andThen_touched {o : Outcome Digest} {check : AuthenticatedActor → Except Failure Unit}
    (h : Touched s o.2) : Touched s (St.andThen o check).2 := by
  unfold St.andThen
  split
  · exact h
  · split <;> exact h

theorem csrfGate_touched {o : Outcome Digest} (h : Touched s o.2) :
    Touched s (St.csrfGate sha256 verify req commits o).2 := by
  unfold St.csrfGate
  split
  · exact h
  · split
    · exact h
    · split
      · exact h.trans resolvePatOrRaise_touched
      · exact andThen_touched h

theorem mcpAuth_touched {found : Bool} : Touched s (s.mcpAuth sha256 req commits found).2 := by
  unfold St.mcpAuth
  cases extractBearerMcp req with
  | none => exact .refl
  | some token =>
    obtain ⟨s₁, heq, htouched⟩ := resolvePat_spec s sha256 token req.client commits
    dsimp only
    rw [heq]
    split
    · exact .refl
    · split
      · exact .refl
      · cases s.actorOf sha256 token with
        | none => exact htouched
        | some actor =>
          dsimp only
          split
          · exact htouched
          · split <;> exact htouched

/-- A gate changes nothing but the last use of tokens. -/
theorem enter_touched {gate : Gate} : Touched s (s.enter sha256 verify gate req commits).2 := by
  cases gate with
  | currentUser => exact requireCurrentUser_touched
  | authenticated => exact requireAuthenticated_touched
  | adminOrOwner => exact andThen_touched requireCurrentUser_touched
  | scope scope => exact andThen_touched requireAuthenticated_touched
  | actorCsrf => exact andThen_touched requireAuthenticated_touched
  | csrf => exact csrfGate_touched requireCurrentUser_touched
  | adminCsrf => exact csrfGate_touched (andThen_touched requireCurrentUser_touched)
  | mcp found => exact mcpAuth_touched

theorem currentUser_ok (h : s.requireCurrentUser sha256 verify req commits = (.ok actor, s')) :
    (∃ token, patBearer req = some token ∧ s.actorOf sha256 token = some actor ∧
        requiredPatScopeForMethod req.method ∈ actor.scopes) ∨
      patBearer req = none ∧ s.sessionActor verify req = .ok actor := by
  unfold St.requireCurrentUser at h
  split at h
  · rename_i token hbearer
    exact .inl ⟨token, hbearer, resolvePatOrRaise_ok h⟩
  · rename_i hbearer
    cases hsession : s.sessionActor verify req with
    | error e =>
      rw [hsession] at h
      cases h
    | ok actor' =>
      rw [hsession] at h
      cases h
      exact .inr ⟨hbearer, rfl⟩

theorem authenticated_ok (h : s.requireAuthenticated sha256 verify req commits = (.ok actor, s')) :
    (∃ token, patBearer req = some token ∧ s.actorOf sha256 token = some actor) ∨
      patBearer req = none ∧ s.sessionActor verify req = .ok actor := by
  unfold St.requireAuthenticated at h
  cases hbearer : patBearer req with
  | none =>
    rw [hbearer] at h
    obtain ⟨token, htoken, -⟩ | hsession := currentUser_ok h
    · rw [hbearer] at htoken
      cases htoken
    · exact .inr ⟨rfl, hsession.2⟩
  | some token =>
    obtain ⟨s₁, heq, -⟩ := resolvePat_spec s sha256 token (requestClientIp req) commits
    rw [hbearer] at h
    dsimp only at h
    rw [heq] at h
    cases hactor : s.actorOf sha256 token with
    | none =>
      rw [hactor] at h
      cases h
    | some actor' =>
      rw [hactor] at h
      cases h
      exact .inl ⟨token, rfl, hactor⟩

omit [DecidableEq Digest] in
theorem andThen_ok {o : Outcome Digest} {check : AuthenticatedActor → Except Failure Unit}
    (h : St.andThen o check = (.ok actor, s')) : o = (.ok actor, s') ∧ check actor = .ok () := by
  unfold St.andThen at h
  split at h
  · cases h
  · split at h
    · cases h
    · rename_i hcheck
      cases h
      exact ⟨rfl, hcheck⟩

theorem csrfGate_ok {o : Outcome Digest} (h : St.csrfGate sha256 verify req commits o = (.ok actor, s')) :
    ∃ actor₀ s₁, o = (.ok actor₀, s₁) ∧
      (actor = actor₀ ∧ upper req.method ∉ mutatingMethods ∨
        (∃ token, patBearer req = some token ∧ s₁.actorOf sha256 token = some actor ∧ apiWrite ∈ actor.scopes) ∨
        patBearer req = none ∧ actor = actor₀ ∧ s₁.checkCsrf verify req = .ok ()) := by
  unfold St.csrfGate at h
  split at h
  · cases h
  · rename_i actor₀ s₁
    refine ⟨actor₀, s₁, rfl, ?_⟩
    split at h
    · rename_i hsafe
      cases h
      exact .inl ⟨rfl, hsafe⟩
    · split at h
      · rename_i token hbearer
        exact .inr (.inl ⟨token, hbearer, resolvePatOrRaise_ok h⟩)
      · rename_i hbearer
        obtain ⟨heq, hcheck⟩ := andThen_ok h
        cases heq
        exact .inr (.inr ⟨hbearer, rfl, hcheck⟩)

end

/-! ## What a session shows -/

section
variable {Digest : Type} {verify : Str → Option Payload} {s s' : St Digest}
variable {req : Request} {actor : AuthenticatedActor}

theorem decodeToken_ok {now : ℕ} {token : Str} {typ : TokenType} {claims : TokenClaims}
    (h : decodeToken verify now token typ = .ok claims) :
    ∃ p, verify token = some p ∧ p.typ = .value typ ∧ p.sub = .value claims.userId ∧ p.csrf = claims.csrf ∧
      ∀ e, p.exp = some e → now < e := by
  unfold decodeToken at h
  split at h
  · cases h
  · rename_i p hverify
    split at h
    · cases h
    · split at h
      · cases h
      · rename_i hexpired
        have hlive : ∀ e, p.exp = some e → now < e := by
          intro e he
          rw [he] at hexpired
          simpa using hexpired
        split at h
        · rename_i typ' userId role jti htyp hsub hrole hjti
          split at h
          · cases h
          · rename_i hne
            obtain rfl := not_not.1 hne
            split at h
            · cases h
            · cases h
              exact ⟨p, hverify, htyp, hsub, rfl, hlive⟩
            · cases h
              exact ⟨p, hverify, htyp, hsub, rfl, hlive⟩
        · cases h

/-- The user of a session that is let through. -/
structure InSession (verify : Str → Option Payload) (s : St Digest) (req : Request) (user : User) (p : Payload) :
    Prop where
  token : ∃ token, extractAccessToken req = some token ∧ verify token = some p
  typ : p.typ = .value .access
  sub : p.sub = .value user.id
  unexpired : ∀ e, p.exp = some e → s.now < e
  mem : user ∈ s.users
  isActive : user.isActive = true

theorem sessionActor_ok (h : s.sessionActor verify req = .ok actor) :
    actor.method = .cookieJwt ∧ ∃ p, InSession verify s req actor.user p := by
  unfold St.sessionActor at h
  split at h
  · cases h
  · rename_i token htoken
    split at h
    · cases h
    · rename_i claims hclaims
      split at h
      · cases h
      · rename_i user huser
        split at h
        · rename_i hactive
          cases h
          obtain ⟨p, hverify, htyp, hsub, -, hlive⟩ := decodeToken_ok hclaims
          obtain ⟨hmem, hid⟩ := user?_some huser
          refine ⟨rfl, p, ⟨token, htoken, hverify⟩, htyp, ?_, hlive, hmem, hactive⟩
          rw [hsub, ← hid]
        · cases h

/-- The request repeats the secret of the payload. -/
def Repeats (req : Request) (p : Payload) : Prop :=
  ∃ csrf, csrf ≠ [] ∧ req.header "x-csrf-token".toList = some csrf ∧ p.csrf = some csrf

theorem checkCsrf_ok {p : Payload} {token : Str} (h : s.checkCsrf verify req = .ok ())
    (htoken : extractAccessToken req = some token) (hverify : verify token = some p) : Repeats req p := by
  unfold St.checkCsrf at h
  split at h
  · cases h
  · rename_i csrf hcsrf
    obtain ⟨hheader, hne⟩ := Option.filter_eq_some_iff.1 hcsrf
    rw [htoken] at h
    dsimp only at h
    split at h
    · cases h
    · rename_i claims hclaims
      obtain ⟨p', hverify', -, -, hsame, -⟩ := decodeToken_ok hclaims
      obtain rfl : p = p' := Option.some.inj (hverify.symm.trans hverify')
      split at h
      · cases h
      · rename_i same hcompare
        split at h
        · rename_i htrue
          unfold compareDigest at hcompare
          split at hcompare
          · obtain rfl : same = decide (csrf = claims.csrf.getD []) := (Except.ok.inj hcompare).symm
            have heq : csrf = claims.csrf.getD [] := of_decide_eq_true htrue
            have hcsrf : csrf ≠ [] := by simpa using hne
            refine ⟨csrf, hcsrf, hheader, ?_⟩
            rw [hsame]
            cases hclaim : claims.csrf with
            | none =>
              rw [hclaim] at heq
              exact absurd heq hcsrf
            | some secret =>
              rw [hclaim] at heq
              rw [heq]
              rfl
          · cases hcompare
        · cases h

theorem Touched.checkCsrf (h : Touched s s') : s'.checkCsrf verify req = s.checkCsrf verify req := by
  unfold St.checkCsrf
  rw [h.now]

end

/-! ## What a gate lets through -/

/-- The bearer that a gate takes for a personal access token. -/
def Gate.bearer : Gate → Request → Option Str
  | .mcp _, req => extractBearerMcp req
  | _, req => patBearer req

/-- The scopes a gate asks a personal access token for. -/
def Gate.needs : Gate → Str → List Str
  | .authenticated, _ => []
  | .scope needed, _ => [needed]
  | .actorCsrf, method => if upper method ∈ mutatingMethods then [apiWrite] else []
  | .mcp _, _ => [mcpScope, apiRead]
  | .currentUser, method | .adminOrOwner, method | .csrf, method | .adminCsrf, method =>
    [requiredPatScopeForMethod method]

def Gate.isMcp : Gate → Bool
  | .mcp _ => true
  | _ => false

def Gate.isAdmin : Gate → Bool
  | .adminOrOwner | .adminCsrf => true
  | _ => false

def Gate.checksCsrf : Gate → Bool
  | .actorCsrf | .csrf | .adminCsrf => true
  | _ => false

section
variable {Digest : Type} [DecidableEq Digest] {sha256 : Str → Digest} {verify : Str → Option Payload} {s s' : St Digest}
variable {req : Request} {commits : Bool} {actor : AuthenticatedActor} {gate : Gate}

/-- By a token with the scopes the gate needs, or by a session that repeats its
secret where the gate asks for it. -/
def Source (sha256 : Str → Digest) (verify : Str → Option Payload) (s : St Digest) (gate : Gate) (req : Request)
    (actor : AuthenticatedActor) : Prop :=
  (∃ token, gate.bearer req = some token ∧ s.actorOf sha256 token = some actor ∧
      ∀ scope ∈ gate.needs req.method, scope ∈ actor.scopes) ∨
    gate.isMcp = false ∧ patBearer req = none ∧ s.sessionActor verify req = .ok actor ∧
      (gate.checksCsrf = true → upper req.method ∈ mutatingMethods → s.checkCsrf verify req = .ok ())

structure Through (sha256 : Str → Digest) (verify : Str → Option Payload) (s : St Digest) (gate : Gate) (req : Request)
    (actor : AuthenticatedActor) : Prop where
  source : Source sha256 verify s gate req actor
  role : gate.isAdmin = true → actor.user.role.isAdmin = true

theorem requireScope_through {scope : Str} (h : s.requireScope sha256 verify scope req commits = (.ok actor, s')) :
    Through sha256 verify s (.scope scope) req actor := by
  obtain ⟨hauth, hcheck⟩ := andThen_ok h
  refine ⟨?_, nofun⟩
  obtain ⟨token, hbearer, hactor⟩ | ⟨hbearer, hsession⟩ := authenticated_ok hauth
  · refine .inl ⟨token, hbearer, hactor, ?_⟩
    obtain ⟨row, -, hpat, -⟩ := actorOf_some hactor
    split at hcheck
    · rename_i hscope
      have hmem : scope ∈ actor.scopes := hscope.resolve_left (not_not.2 hpat)
      intro scope' hscope'
      rw [List.mem_singleton.1 hscope']
      exact hmem
    · cases hcheck
  · exact .inr ⟨rfl, hbearer, hsession, nofun⟩

theorem requireActorCsrf_through (h : s.requireActorCsrf sha256 verify req commits = (.ok actor, s')) :
    Through sha256 verify s .actorCsrf req actor := by
  obtain ⟨hauth, hcheck⟩ := andThen_ok h
  refine ⟨?_, nofun⟩
  obtain ⟨token, hbearer, hactor⟩ | ⟨hbearer, hsession⟩ := authenticated_ok hauth
  · refine .inl ⟨token, hbearer, hactor, ?_⟩
    obtain ⟨row, -, hpat, -⟩ := actorOf_some hactor
    intro scope hscope
    by_cases hmethod : upper req.method ∈ mutatingMethods
    · rw [if_neg (not_not.2 hmethod), if_pos hpat] at hcheck
      rw [Gate.needs, if_pos hmethod] at hscope
      rw [List.mem_singleton.1 hscope]
      split at hcheck
      · assumption
      · cases hcheck
    · rw [Gate.needs, if_neg hmethod] at hscope
      cases hscope
  · refine .inr ⟨rfl, hbearer, hsession, fun _ hmethod => ?_⟩
    have hcookie := (sessionActor_ok hsession).1
    rw [if_neg (not_not.2 hmethod), if_neg (by rw [hcookie]; exact nofun)] at hcheck
    exact hcheck

/-- What `require_csrf` adds to what `require_current_user` let through. -/
theorem csrfGate_source {o : Outcome Digest} {gate : Gate} (hgate : gate = .csrf ∨ gate = .adminCsrf)
    (h : St.csrfGate sha256 verify req commits o = (.ok actor, s')) (htouched : Touched s o.2)
    (ho : ∀ actor₀ s₁, o = (.ok actor₀, s₁) →
      (∃ token, patBearer req = some token ∧ s.actorOf sha256 token = some actor₀ ∧
        requiredPatScopeForMethod req.method ∈ actor₀.scopes) ∨
      patBearer req = none ∧ s.sessionActor verify req = .ok actor₀) :
    (∃ s₁, o = (.ok actor, s₁)) ∧ Source sha256 verify s gate req actor := by
  obtain ⟨actor₀, s₁, rfl, hcases⟩ := csrfGate_ok h
  have hbearer : gate.bearer req = patBearer req := by
    obtain rfl | rfl := hgate <;> rfl
  have hneeds : gate.needs req.method = [requiredPatScopeForMethod req.method] := by
    obtain rfl | rfl := hgate <;> rfl
  have hmcp : gate.isMcp = false := by
    obtain rfl | rfl := hgate <;> rfl
  rw [Source, hbearer, hneeds]
  have hold := ho actor₀ s₁ rfl
  obtain ⟨rfl, hsafe⟩ | ⟨token, htoken, hactor, hwrite⟩ | ⟨hnone, rfl, hcheck⟩ := hcases
  · refine ⟨⟨s₁, rfl⟩, ?_⟩
    obtain ⟨token, htoken, hactor, hscope⟩ | ⟨hnone, hsession⟩ := hold
    · exact .inl ⟨token, htoken, hactor, fun scope hmem => List.mem_singleton.1 hmem ▸ hscope⟩
    · exact .inr ⟨hmcp, hnone, hsession, fun _ hmethod => absurd hmethod hsafe⟩
  · rw [htouched.actorOf] at hactor
    obtain ⟨token', htoken', hactor', hscope⟩ | ⟨hnone, -⟩ := hold
    · obtain rfl : token' = token := Option.some.inj (htoken'.symm.trans htoken)
      obtain rfl : actor₀ = actor := Option.some.inj (hactor'.symm.trans hactor)
      exact ⟨⟨s₁, rfl⟩, .inl ⟨token', htoken', hactor, fun scope hmem => List.mem_singleton.1 hmem ▸ hscope⟩⟩
    · rw [hnone] at htoken
      cases htoken
  · refine ⟨⟨s₁, rfl⟩, ?_⟩
    obtain ⟨token', htoken', -, -⟩ | ⟨-, hsession⟩ := hold
    · rw [hnone] at htoken'
      cases htoken'
    · rw [htouched.checkCsrf] at hcheck
      exact .inr ⟨hmcp, hnone, hsession, fun _ _ => hcheck⟩

theorem adminOrOwner_ok (h : s.requireAdminOrOwner sha256 verify req commits = (.ok actor, s')) :
    s.requireCurrentUser sha256 verify req commits = (.ok actor, s') ∧
      (actor.user.role.isAdmin = true) := by
  obtain ⟨huser, hcheck⟩ := andThen_ok h
  refine ⟨huser, ?_⟩
  split at hcheck
  · assumption
  · cases hcheck

theorem mcpAuth_through {found : Bool} (h : s.mcpAuth sha256 req commits found = (.ok actor, s')) :
    Through sha256 verify s (.mcp found) req actor := by
  unfold St.mcpAuth at h
  cases hbearer : extractBearerMcp req with
  | none =>
    rw [hbearer] at h
    cases h
  | some token =>
    obtain ⟨s₁, heq, -⟩ := resolvePat_spec s sha256 token req.client commits
    rw [hbearer] at h
    dsimp only at h
    rw [heq] at h
    split at h
    · cases h
    · split at h
      · cases h
      · cases hactor : s.actorOf sha256 token with
        | none =>
          rw [hactor] at h
          cases h
        | some actor' =>
          rw [hactor] at h
          dsimp only at h
          by_cases hmcp : mcpScope ∉ actor'.scopes
          · rw [if_pos hmcp] at h
            cases h
          · by_cases hread : apiRead ∉ actor'.scopes
            · rw [if_neg hmcp, if_pos hread] at h
              cases h
            · rw [if_neg hmcp, if_neg hread] at h
              cases h
              refine ⟨.inl ⟨token, hbearer, hactor, fun scope hscope => ?_⟩, nofun⟩
              obtain rfl | hscope := List.mem_cons.1 hscope
              · exact not_not.1 hmcp
              · rw [List.mem_singleton.1 hscope]
                exact not_not.1 hread

/-- **What a gate lets through.** -/
theorem enter_through (h : s.enter sha256 verify gate req commits = (.ok actor, s')) :
    Through sha256 verify s gate req actor := by
  cases gate with
  | currentUser =>
    refine ⟨?_, nofun⟩
    obtain ⟨token, hbearer, hactor, hscope⟩ | ⟨hbearer, hsession⟩ := currentUser_ok h
    · exact .inl ⟨token, hbearer, hactor, fun scope hmem => List.mem_singleton.1 hmem ▸ hscope⟩
    · exact .inr ⟨rfl, hbearer, hsession, nofun⟩
  | authenticated =>
    refine ⟨?_, nofun⟩
    obtain ⟨token, hbearer, hactor⟩ | ⟨hbearer, hsession⟩ := authenticated_ok h
    · exact .inl ⟨token, hbearer, hactor, nofun⟩
    · exact .inr ⟨rfl, hbearer, hsession, nofun⟩
  | adminOrOwner =>
    obtain ⟨huser, hrole⟩ := adminOrOwner_ok h
    refine ⟨?_, fun _ => hrole⟩
    obtain ⟨token, hbearer, hactor, hscope⟩ | ⟨hbearer, hsession⟩ := currentUser_ok huser
    · exact .inl ⟨token, hbearer, hactor, fun scope hmem => List.mem_singleton.1 hmem ▸ hscope⟩
    · exact .inr ⟨rfl, hbearer, hsession, nofun⟩
  | scope scope => exact requireScope_through h
  | actorCsrf => exact requireActorCsrf_through h
  | csrf =>
    obtain ⟨-, hsource⟩ := csrfGate_source (.inl rfl) h requireCurrentUser_touched fun _ _ heq => currentUser_ok heq
    exact ⟨hsource, nofun⟩
  | adminCsrf =>
    obtain ⟨⟨s₁, hadmin⟩, hsource⟩ := csrfGate_source (.inr rfl) h (andThen_touched requireCurrentUser_touched)
      fun _ _ heq => currentUser_ok (adminOrOwner_ok heq).1
    exact ⟨hsource, fun _ => (adminOrOwner_ok hadmin).2⟩
  | mcp found => exact mcpAuth_through h

end

/-! ## What a step does to the tokens -/

/-- What a token is good for. -/
structure Grant where
  userId : ℕ
  name : Str
  scopes : List Str
  expiresAt : Option ℕ

def PersonalAccessToken.grant {Digest : Type} (row : PersonalAccessToken Digest) : Grant :=
  ⟨row.userId, row.name, row.scopes, row.expiresAt⟩

section
variable {Digest : Type} {s s' s'' : St Digest} {row row' row'' : PersonalAccessToken Digest} {P : Grant → Prop}

/-- The row may be revoked or used, and is else as it was. -/
structure Keeps (row row' : PersonalAccessToken Digest) : Prop where
  grant : row'.grant = row.grant
  hash : row'.tokenHash = row.tokenHash
  revoked : row.revokedAt.isSome = true → row'.revokedAt.isSome = true

theorem Keeps.refl : Keeps row row := ⟨rfl, rfl, id⟩

theorem Keeps.trans (h₁ : Keeps row row') (h₂ : Keeps row' row'') : Keeps row row'' :=
  ⟨h₂.grant.trans h₁.grant, h₂.hash.trans h₁.hash, h₂.revoked ∘ h₁.revoked⟩

theorem Keeps.of_core (h : row.core = row'.core) : Keeps row row' := by
  have hgrant : row.core.grant = row'.core.grant := congrArg _ h
  have hhash : row.core.tokenHash = row'.core.tokenHash := congrArg _ h
  have hrevoked : row.core.revokedAt = row'.core.revokedAt := congrArg _ h
  refine ⟨hgrant.symm, hhash.symm, fun hsome => ?_⟩
  show row'.core.revokedAt.isSome = true
  rw [← hrevoked]
  exact hsome

theorem revoke_keeps {now : ℕ} {reason : Str} : Keeps row (St.revoke now reason row) := ⟨rfl, rfl, fun _ => rfl⟩

/-- Rows go on, and a row that is new has a new hash and a grant of the kind `P`.
Nothing is signed. -/
structure Flow (P : Grant → Prop) (s s' : St Digest) : Prop where
  now : s'.now = s.now
  issued : s'.issued = s.issued
  forward : ∀ row ∈ s.tokens, ∃ row' ∈ s'.tokens, Keeps row row'
  backward : ∀ row' ∈ s'.tokens, (∃ row ∈ s.tokens, Keeps row row') ∨
    (∀ row ∈ s.tokens, row.tokenHash ≠ row'.tokenHash) ∧ P row'.grant
  nodup : (s.tokens.map (·.tokenHash)).Nodup → (s'.tokens.map (·.tokenHash)).Nodup

theorem Flow.same (h : s'.tokens = s.tokens) (hnow : s'.now = s.now) (hissued : s'.issued = s.issued) :
    Flow P s s' where
  now := hnow
  issued := hissued
  forward row hrow := ⟨row, h ▸ hrow, .refl⟩
  backward row hrow := .inl ⟨row, h ▸ hrow, .refl⟩
  nodup hnodup := h ▸ hnodup

theorem Flow.of_touched (h : Touched s s') : Flow P s s' where
  now := h.now
  issued := h.issued
  forward row hrow := by
    obtain ⟨row', hrow', hcore⟩ := h.symm.mem hrow
    exact ⟨row', hrow', .of_core hcore.symm⟩
  backward row' hrow' := by
    obtain ⟨row, hrow, hcore⟩ := h.mem hrow'
    exact .inl ⟨row, hrow, .of_core hcore⟩
  nodup hnodup := by
    have hhashes (r : St Digest) : (r.tokens.map (·.core)).map (·.tokenHash) = r.tokens.map (·.tokenHash) := by
      rw [List.map_map]
      rfl
    rw [← hhashes s', h.tokens, hhashes s]
    exact hnodup

theorem Flow.map {f : PersonalAccessToken Digest → PersonalAccessToken Digest} (h : s'.tokens = s.tokens.map f)
    (hf : ∀ row, Keeps row (f row)) (hnow : s'.now = s.now) (hissued : s'.issued = s.issued) : Flow P s s' where
  now := hnow
  issued := hissued
  forward row hrow := ⟨f row, h ▸ List.mem_map_of_mem hrow, hf row⟩
  backward row' hrow' := by
    rw [h] at hrow'
    obtain ⟨row, hrow, rfl⟩ := List.mem_map.1 hrow'
    exact .inl ⟨row, hrow, hf row⟩
  nodup hnodup := by
    have hsame : s.tokens.map ((·.tokenHash) ∘ f) = s.tokens.map (·.tokenHash) :=
      List.map_congr_left fun row _ => (hf row).hash
    rw [h, List.map_map, hsame]
    exact hnodup

theorem Flow.insert (h : s'.tokens = s.tokens ++ [row]) (hnew : ∀ old ∈ s.tokens, old.tokenHash ≠ row.tokenHash)
    (hP : P row.grant) (hnow : s'.now = s.now) (hissued : s'.issued = s.issued) : Flow P s s' where
  now := hnow
  issued := hissued
  forward old hold := ⟨old, h ▸ List.mem_append_left _ hold, .refl⟩
  backward row' hrow' := by
    rw [h] at hrow'
    obtain hold | hadded := List.mem_append.1 hrow'
    · exact .inl ⟨row', hold, .refl⟩
    · rw [List.mem_singleton.1 hadded]
      exact .inr ⟨hnew, hP⟩
  nodup hnodup := by
    rw [h, List.map_append, List.nodup_append]
    refine ⟨hnodup, List.nodup_singleton _, fun x hx y hy => ?_⟩
    obtain ⟨old, hold, rfl⟩ := List.mem_map.1 hx
    obtain rfl := List.mem_singleton.1 hy
    exact hnew old hold

theorem Flow.trans (h₁ : Flow P s s') (h₂ : Flow P s' s'') : Flow P s s'' where
  now := h₂.now.trans h₁.now
  issued := h₂.issued.trans h₁.issued
  forward row hrow := by
    obtain ⟨row', hrow', hkeeps⟩ := h₁.forward row hrow
    obtain ⟨row'', hrow'', hkeeps'⟩ := h₂.forward row' hrow'
    exact ⟨row'', hrow'', hkeeps.trans hkeeps'⟩
  backward row'' hrow'' := by
    obtain ⟨row', hrow', hkeeps'⟩ | ⟨hnew, hP⟩ := h₂.backward row'' hrow''
    · obtain ⟨row, hrow, hkeeps⟩ | ⟨hnew, hP⟩ := h₁.backward row' hrow'
      · exact .inl ⟨row, hrow, hkeeps.trans hkeeps'⟩
      · rw [hkeeps'.grant, hkeeps'.hash]
        exact .inr ⟨hnew, hP⟩
    · refine .inr ⟨fun row hrow => ?_, hP⟩
      obtain ⟨row', hrow', hkeeps⟩ := h₁.forward row hrow
      rw [← hkeeps.hash]
      exact hnew row' hrow'
  nodup := h₂.nodup ∘ h₁.nodup

theorem updateToken_flow {tokenId : ℕ} {f : PersonalAccessToken Digest → PersonalAccessToken Digest}
    (hf : ∀ row, Keeps row (f row)) : Flow P s (s.updateToken tokenId f) := by
  refine .map rfl (fun row => ?_) rfl rfl
  split
  · exact hf row
  · exact .refl

theorem revokeAll_flow {userId : ℕ} {reason : Str} : Flow P s (s.revokeAll userId reason) := by
  refine .map rfl (fun row => ?_) rfl rfl
  split
  · exact revoke_keeps
  · exact .refl

end

section
variable {Digest : Type} [DecidableEq Digest] {sha256 : Str → Digest} {verify : Str → Option Payload}
variable {settings : Settings} {s s' : St Digest} {a : Act} {P : Grant → Prop} {req : Request} {commits : Bool}

theorem insertToken_flow {userId : ℕ} {name secret : Str} {scopes : List Str} {expiresAt : Option ℕ}
    (hP : P ⟨userId, name, scopes, expiresAt⟩) :
    Flow P s (s.insertToken sha256 userId name secret scopes expiresAt).2 := by
  unfold St.insertToken
  dsimp only
  split
  · exact .same rfl rfl rfl
  · rename_i hnew
    refine .insert rfl (fun old hold heq => hnew ?_) hP rfl rfl
    exact List.any_eq_true.2 ⟨old, hold, by simpa using heq⟩

theorem requireActorCsrf_touched : Touched s (s.requireActorCsrf sha256 verify req commits).2 :=
  andThen_touched requireAuthenticated_touched

/-- A session of `actor` asked for the grant. -/
def Asked (sha256 : Str → Digest) (verify : Str → Option Payload) (s : St Digest) (req : Request) (commits : Bool)
    (payload : CreateTokenRequest) (g : Grant) : Prop :=
  ∃ actor s₁, s.requireActorCsrf sha256 verify req commits = (.ok actor, s₁) ∧ actor.method ≠ .pat ∧
    g.userId = actor.user.id ∧ payload.validate = .ok g.scopes ∧ g.name = Str.strip payload.name ∧
    g.expiresAt = payload.expiresAt

omit [DecidableEq Digest] in
/-- A route changes what its work does, and the gate before it nothing else. -/
theorem guarded_flow {α : Type} {o : Outcome Digest}
    {work : St Digest → AuthenticatedActor → Except Failure α × St Digest}
    (hgate : Touched s o.2)
    (hwork : ∀ actor s₁, o = (.ok actor, s₁) → Touched s s₁ → Flow P s₁ (work s₁ actor).2) :
    Flow P s (guarded o work).2 := by
  obtain ⟨_ | actor, s₁⟩ := o
  · exact .of_touched hgate
  · exact (Flow.of_touched hgate).trans (hwork actor s₁ rfl hgate)

theorem createMyToken_flow {payload : CreateTokenRequest} {secret : Str} :
    Flow (Asked sha256 verify s req commits payload) s
      (s.createMyToken sha256 verify req commits payload secret).2 := by
  refine guarded_flow requireActorCsrf_touched fun actor s₁ heq _ => ?_
  have hsame : Flow (Asked sha256 verify s req commits payload) s₁ s₁ := .same rfl rfl rfl
  cases hscopes : payload.validate with
  | error fields => exact hsame
  | ok scopes =>
    dsimp only
    split
    · exact hsame
    · rename_i hpat
      split
      · exact hsame
      · split
        · exact hsame
        · exact insertToken_flow ⟨actor, s₁, heq, hpat, rfl, hscopes, rfl, rfl⟩

omit [DecidableEq Digest] in
theorem ownToken_some {actor : AuthenticatedActor} {tokenId : ℕ} {row : PersonalAccessToken Digest}
    (h : s.ownToken actor tokenId = some row) : row ∈ s.tokens ∧ row.userId = actor.user.id := by
  obtain ⟨hfind, howner⟩ := Option.filter_eq_some_iff.1 h
  exact ⟨List.mem_of_find?_eq_some hfind, by simpa using howner⟩

theorem rotateMyToken_flow {tokenId : ℕ} {secret : Str} :
    Flow (fun g => ∃ row ∈ s.tokens, row.grant = g) s
      (s.rotateMyToken sha256 verify req commits tokenId secret).2 := by
  refine guarded_flow requireActorCsrf_touched fun actor s₁ _ htouched => ?_
  have hsame : Flow (fun g => ∃ row ∈ s.tokens, row.grant = g) s₁ s₁ := .same rfl rfl rfl
  split
  · exact hsame
  · cases hold : s₁.ownToken actor tokenId with
    | none => exact hsame
    | some old =>
      obtain ⟨hmem, howner⟩ := ownToken_some hold
      obtain ⟨row, hrow, hcore⟩ := htouched.mem hmem
      have hgrant : row.grant = ⟨actor.user.id, old.name, old.scopes, old.expiresAt⟩ := by
        have hgrant : row.core.grant = old.core.grant := congrArg _ hcore
        rw [← howner]
        exact hgrant
      have hinsert : Flow (fun g => ∃ row ∈ s.tokens, row.grant = g) s₁
          (s₁.insertToken sha256 actor.user.id old.name secret old.scopes old.expiresAt).2 :=
        insertToken_flow ⟨row, hrow, hgrant⟩
      dsimp only
      split
      · exact hsame
      · generalize s₁.insertToken sha256 actor.user.id old.name secret old.scopes old.expiresAt = o at hinsert ⊢
        obtain ⟨_ | newId, s₂⟩ := o
        · exact hsame
        · exact hinsert.trans (updateToken_flow fun _ => revoke_keeps)

theorem revokeMyToken_flow {tokenId : ℕ} :
    Flow P s (s.revokeMyToken sha256 verify req commits tokenId).2 := by
  refine guarded_flow requireActorCsrf_touched fun actor s₁ _ _ => ?_
  cases s₁.ownToken actor tokenId with
  | none => exact .same rfl rfl rfl
  | some row =>
    dsimp only
    split
    · exact .same rfl rfl rfl
    · exact updateToken_flow fun _ => revoke_keeps

theorem adminRevokeAllTokens_flow {userId : ℕ} {reason : Option Str} :
    Flow P s (s.adminRevokeAllTokens sha256 verify req commits userId reason).2 := by
  refine guarded_flow (csrfGate_touched (andThen_touched requireCurrentUser_touched)) fun actor s₁ _ _ => ?_
  cases checkReason reason with
  | error fields => exact .same rfl rfl rfl
  | ok reason =>
    cases s₁.user? userId with
    | none => exact .same rfl rfl rfl
    | some user => exact revokeAll_flow

/-- The payload was signed for the user at this time. -/
structure Stamped (settings : Settings) (now userId : ℕ) (typ : TokenType) (p : Payload) : Prop where
  sub : p.sub = .value userId
  iat : p.iat = some now
  exp : p.exp = some (now + settings.ttl typ)
  typ : p.typ = .value typ

theorem createToken_stamped {now userId jti : ℕ} {role : UserRole} {typ : TokenType} {csrf : Option Str}
    {family : Option ℕ} : Stamped settings now userId typ (createToken settings now userId role typ csrf family jti) :=
  ⟨rfl, rfl, rfl, rfl⟩

omit [DecidableEq Digest] in
theorem refreshTokens_frame {cookie : Option Str} {csrf : Str} :
    (s.refreshTokens verify settings cookie csrf).2.tokens = s.tokens ∧
      (s.refreshTokens verify settings cookie csrf).2.now = s.now := by
  unfold St.refreshTokens
  split
  · exact ⟨rfl, rfl⟩
  · exact ⟨rfl, rfl⟩
  · split
    · exact ⟨rfl, rfl⟩
    · split
      · exact ⟨rfl, rfl⟩
      · split
        · exact ⟨rfl, rfl⟩
        · split <;> exact ⟨rfl, rfl⟩

omit [DecidableEq Digest] in
/-- A refresh signs for the user of the token it is shown. -/
theorem refreshTokens_issued {cookie : Option Str} {csrf : Str} {p : Payload}
    (hp : p ∈ (s.refreshTokens verify settings cookie csrf).2.issued) :
    p ∈ s.issued ∨ ∃ token p₀ userId typ, cookie = some token ∧ verify token = some p₀ ∧ p₀.sub = .value userId ∧
      Stamped settings s.now userId typ p := by
  unfold St.refreshTokens at hp
  split at hp
  · exact .inl hp
  · exact .inl hp
  · rename_i claims hclaims
    obtain ⟨token, hcookie, hdecode⟩ := Option.map_eq_some_iff.1 hclaims
    split at hp
    · exact .inl hp
    · split at hp
      · exact .inl hp
      · split at hp
        · exact .inl hp
        · split at hp
          · exact .inl hp
          · rename_i user huser
            obtain ⟨p₀, hverify, -, hsub, -, -⟩ := decodeToken_ok hdecode
            have hid := (user?_some huser).2
            have hcookie := (Option.filter_eq_some_iff.1 hcookie).1
            rw [← hid] at hsub
            obtain rfl | hp := List.mem_cons.1 hp
            · exact .inr ⟨token, p₀, user.id, .access, hcookie, hverify, hsub, createToken_stamped⟩
            · obtain rfl | hp := List.mem_cons.1 hp
              · exact .inr ⟨token, p₀, user.id, .refresh, hcookie, hverify, hsub, createToken_stamped⟩
              · exact .inl hp

omit [DecidableEq Digest] in
theorem logout_frame {cookie : Option Str} :
    (s.logout verify cookie).tokens = s.tokens ∧ (s.logout verify cookie).issued = s.issued ∧
      (s.logout verify cookie).now = s.now := by
  unfold St.logout
  split
  · split
    · exact ⟨rfl, rfl, rfl⟩
    · exact ⟨rfl, rfl, rfl⟩
  · exact ⟨rfl, rfl, rfl⟩

/-- The grants of the rows that a step adds: those of another row, or asked for by
a session. -/
def Added (sha256 : Str → Digest) (verify : Str → Option Payload) (s : St Digest) (a : Act) (g : Grant) : Prop :=
  (∃ row ∈ s.tokens, row.grant = g) ∨
    ∃ req commits payload secret, a = .createMyToken req commits payload secret ∧ req.method = "POST".toList ∧
      Asked sha256 verify s req commits payload g

omit [DecidableEq Digest] in
theorem Flow.mono {Q : Grant → Prop} (h : Flow P s s') (himp : ∀ g, P g → Q g) : Flow Q s s' where
  now := h.now
  issued := h.issued
  forward := h.forward
  backward row' hrow' := (h.backward row' hrow').imp_right fun hnew => ⟨hnew.1, himp _ hnew.2⟩
  nodup := h.nodup

omit [DecidableEq Digest] in
theorem routed_some {method : Str} (h : routed method req s = some s') : req.method = method ∧ s = s' := by
  unfold routed at h
  split at h
  · rename_i hmethod
    exact ⟨hmethod, Option.some.inj h⟩
  · cases h

/-- What a step signs: for a user who signs in, or for the user of a token that is
shown. -/
def NewlySigned (verify : Str → Option Payload) (settings : Settings) (s : St Digest) (a : Act) (p : Payload) : Prop :=
  ∃ userId typ, Stamped settings s.now userId typ p ∧
    ((∃ csrf, a = .signIn userId csrf ∧ ∃ user ∈ s.users, user.id = userId ∧ user.isActive = true) ∨
      ∃ token csrf p₀, a = .refreshTokens (some token) csrf ∧ verify token = some p₀ ∧ p₀.sub = .value userId)

omit [DecidableEq Digest] in
theorem signIn_issued {userId : ℕ} {csrf : Str} (hn : s.signIn settings userId csrf = some s') :
    s'.tokens = s.tokens ∧ s'.now = s.now ∧
      ∀ p ∈ s'.issued, p ∈ s.issued ∨ NewlySigned verify settings s (.signIn userId csrf) p := by
  obtain ⟨user, huser, rfl⟩ := Option.map_eq_some_iff.1 hn
  obtain ⟨hfind, hactive⟩ := Option.filter_eq_some_iff.1 huser
  obtain ⟨hmem, rfl⟩ := user?_some hfind
  have hsignIn : ∃ csrf', Act.signIn user.id csrf = .signIn user.id csrf' ∧
      ∃ other ∈ s.users, other.id = user.id ∧ other.isActive = true :=
    ⟨csrf, rfl, user, hmem, rfl, by simpa using hactive⟩
  refine ⟨rfl, rfl, fun p hp => ?_⟩
  obtain rfl | hp := List.mem_cons.1 hp
  · exact .inr ⟨user.id, .access, createToken_stamped, .inl hsignIn⟩
  · obtain rfl | hp := List.mem_cons.1 hp
    · exact .inr ⟨user.id, .refresh, createToken_stamped, .inl hsignIn⟩
    · exact .inl hp

omit [DecidableEq Digest] in
theorem disableUserCascade_flow {userId : ℕ} : Flow P s (s.disableUserCascade userId) := by
  have hsame : Flow P s s := .same rfl rfl rfl
  unfold St.disableUserCascade
  cases s.user? userId with
  | none => exact hsame
  | some target =>
    dsimp only
    split
    · exact hsame
    · split
      · exact hsame
      · have husers : Flow P s (s.updateUser userId fun user => { user with isActive := false }) := .same rfl rfl rfl
        exact husers.trans (revokeAll_flow.trans (.same rfl rfl rfl))

/-- **Step inversion.** A user is deleted, tokens flow, time passes, or something
is signed. -/
theorem next_cases (hn : next sha256 verify settings s a = some s') :
    (∃ userId, a = .deleteUser userId ∧ s' = s.deleteUser userId) ∨ Flow (Added sha256 verify s a) s s' ∨
      (∃ seconds, s' = { s with now := s.now + seconds }) ∨
      s'.tokens = s.tokens ∧ s'.now = s.now ∧ ∀ p ∈ s'.issued, p ∈ s.issued ∨ NewlySigned verify settings s a p := by
  cases a with
  | deleteUser userId =>
    cases hn
    exact .inl ⟨userId, rfl, rfl⟩
  | tick seconds =>
    cases hn
    exact .inr (.inr (.inl ⟨seconds, rfl⟩))
  | createUser role isActive =>
    cases hn
    exact .inr (.inl (.same rfl rfl rfl))
  | setRole userId role =>
    cases hn
    exact .inr (.inl (.same rfl rfl rfl))
  | setActive userId isActive =>
    cases hn
    exact .inr (.inl (.same rfl rfl rfl))
  | disableUserCascade userId =>
    cases hn
    exact .inr (.inl disableUserCascade_flow)
  | signIn userId csrf => exact .inr (.inr (.inr (signIn_issued hn)))
  | refreshTokens cookie csrf =>
    cases hn
    obtain ⟨htokens, hnow⟩ := refreshTokens_frame (s := s)
    refine .inr (.inr (.inr ⟨htokens, hnow, fun p hp => ?_⟩))
    refine (refreshTokens_issued hp).imp_right fun hsigned => ?_
    obtain ⟨token, p₀, userId, typ, rfl, hverify, hsub, hstamped⟩ := hsigned
    exact ⟨userId, typ, hstamped, .inr ⟨token, csrf, p₀, rfl, hverify, hsub⟩⟩
  | logout cookie =>
    cases hn
    obtain ⟨htokens, hissued, hnow⟩ := logout_frame (s := s)
    exact .inr (.inl (.same htokens hnow hissued))
  | request gate req commits =>
    cases hn
    exact .inr (.inl (.of_touched enter_touched))
  | createMyToken req commits payload secret =>
    obtain ⟨hmethod, rfl⟩ := routed_some hn
    exact .inr (.inl (createMyToken_flow.mono fun g hg => .inr ⟨req, commits, payload, secret, rfl, hmethod, hg⟩))
  | revokeMyToken req commits tokenId =>
    obtain ⟨-, rfl⟩ := routed_some hn
    exact .inr (.inl revokeMyToken_flow)
  | rotateMyToken req commits tokenId secret =>
    obtain ⟨-, rfl⟩ := routed_some hn
    exact .inr (.inl (rotateMyToken_flow.mono fun g hg => .inl hg))
  | adminRevokeAllTokens req commits userId reason =>
    obtain ⟨-, rfl⟩ := routed_some hn
    exact .inr (.inl adminRevokeAllTokens_flow)

end

/-! ## Where it comes from -/

section
variable {Digest : Type} [DecidableEq Digest] {sha256 : Str → Digest} {verify : Str → Option Payload}
variable {settings : Settings} {s s' : St Digest} {a : Act}
variable {ts : List (Step (St Digest) Act)}

/-- The user signed in while active. -/
def SignedIn (userId : ℕ) (ts : List (Step (St Digest) Act)) : Prop :=
  Once (fun _ t => ∃ csrf, t.act = .signIn userId csrf ∧ ∃ user ∈ t.pre.users, user.id = userId ∧ user.isActive = true)
    ts

/-- The application signed the payload for a user who had signed in. -/
def Signed (settings : Settings) (ts : List (Step (St Digest) Act)) (now : ℕ) (p : Payload) : Prop :=
  ∃ iat userId typ, Stamped settings iat userId typ p ∧ iat ≤ now ∧ SignedIn userId ts

/-- The request comes from a live session of the user, and repeats its secret. -/
def BySession (verify : Str → Option Payload) (s : St Digest) (req : Request) (userId : ℕ)
    (ts : List (Step (St Digest) Act)) : Prop :=
  patBearer req = none ∧ ∃ user p, user.id = userId ∧ InSession verify s req user p ∧ Repeats req p ∧ SignedIn userId ts

/-- A session of the user asked for the grant. -/
def Granted (verify : Str → Option Payload) (g : Grant) (ts : List (Step (St Digest) Act)) : Prop :=
  Once (fun past t => ∃ req commits payload secret, t.act = .createMyToken req commits payload secret ∧
    payload.validate = .ok g.scopes ∧ g.name = Str.strip payload.name ∧ g.expiresAt = payload.expiresAt ∧
    BySession verify t.pre req g.userId past) ts

/-- The signed tokens that a step is shown. -/
def Act.presents : Act → List Str
  | .refreshTokens cookie _ => cookie.toList
  | .request _ req _ | .createMyToken req _ _ _ | .revokeMyToken req _ _ | .rotateMyToken req _ _ _
  | .adminRevokeAllTokens req _ _ _ => (extractAccessToken req).toList
  | _ => []

/-- A signature that verifies is the application's own. -/
def Unforged (verify : Str → Option Payload) (s : St Digest) (a : Act) : Prop :=
  ∀ token ∈ a.presents, ∀ p, verify token = some p → p ∈ s.issued

structure Traced (verify : Str → Option Payload) (settings : Settings) (ts : List (Step (St Digest) Act))
    (s : St Digest) : Prop where
  issued : ∀ p ∈ s.issued, Signed settings ts s.now p
  tokens : ∀ row ∈ s.tokens, Granted verify row.grant ts

omit [DecidableEq Digest] in
theorem Init.traced (h : Init s) : Traced verify settings [] s where
  issued p hp := by
    rw [h.issued] at hp
    cases hp
  tokens row hrow := by
    rw [h.tokens] at hrow
    cases hrow

omit [DecidableEq Digest] in
theorem Signed.later {now now' : ℕ} {p : Payload} (h : Signed settings ts now p) (hle : now ≤ now')
    (t : Step (St Digest) Act) : Signed settings (ts ++ [t]) now' p := by
  obtain ⟨iat, userId, typ, hstamped, hiat, hsigned⟩ := h
  exact ⟨iat, userId, typ, hstamped, hiat.trans hle, hsigned.later t⟩

omit [DecidableEq Digest] in
/-- The user whose session it is has signed in. -/
theorem Traced.signedIn (h : Traced verify settings ts s) {req : Request} {user : User} {p : Payload}
    (hin : InSession verify s req user p)
    (hforged : ∀ token ∈ (extractAccessToken req).toList, ∀ p, verify token = some p → p ∈ s.issued) :
    SignedIn user.id ts ∧ ∃ iat, p.iat = some iat ∧ iat ≤ s.now ∧ s.now < iat + settings.accessTokenTtlSeconds := by
  obtain ⟨token, htoken, hverify⟩ := hin.token
  obtain ⟨iat, userId, typ, hstamped, hiat, hsigned⟩ := h.issued p (hforged token (by simp [htoken]) p hverify)
  obtain rfl : userId = user.id := Claim.value.inj (hstamped.sub.symm.trans hin.sub)
  obtain rfl : typ = .access := Claim.value.inj (hstamped.typ.symm.trans hin.typ)
  exact ⟨hsigned, iat, hstamped.iat, hiat, hin.unexpired _ hstamped.exp⟩

/-- A token is asked for by a session. -/
theorem Traced.asked (h : Traced verify settings ts s) {req : Request} {commits : Bool} {payload : CreateTokenRequest}
    {g : Grant} (hmethod : req.method = "POST".toList) (hasked : Asked sha256 verify s req commits payload g)
    (hforged : ∀ token ∈ (extractAccessToken req).toList, ∀ p, verify token = some p → p ∈ s.issued) :
    BySession verify s req g.userId ts := by
  obtain ⟨actor, s₁, hgate, hpat, huser, -, -, -⟩ := hasked
  have hthrough : Through sha256 verify s .actorCsrf req actor := requireActorCsrf_through hgate
  obtain ⟨token, -, hactor, -⟩ | ⟨-, hnone, hsession, hcsrf⟩ := hthrough.source
  · obtain ⟨row, -, hmethod, -⟩ := actorOf_some hactor
    exact absurd hmethod hpat
  · obtain ⟨-, p, hin⟩ := sessionActor_ok hsession
    obtain ⟨token, htoken, hverify⟩ := hin.token
    have hpost : upper req.method ∈ mutatingMethods := by
      rw [hmethod]
      decide
    have hrepeats := checkCsrf_ok (hcsrf rfl hpost) htoken hverify
    refine ⟨hnone, actor.user, p, huser.symm, hin, hrepeats, ?_⟩
    rw [huser]
    exact (h.signedIn hin hforged).1

/-- **Step lemma.** -/
theorem Traced.next (h : Traced verify settings ts s) (hok : Unforged verify s a)
    (hn : next sha256 verify settings s a = some s') : Traced verify settings (ts ++ [⟨s, a, s'⟩]) s' := by
  obtain ⟨userId, -, rfl⟩ | hflow | ⟨seconds, rfl⟩ | ⟨htokens, hnow, hissued⟩ := next_cases hn
  · exact ⟨fun p hp => (h.issued p hp).later (Nat.le_refl _) _,
      fun row hrow => (h.tokens row (List.mem_of_mem_filter hrow)).later _⟩
  · refine ⟨fun p hp => ?_, fun row' hrow' => ?_⟩
    · rw [hflow.issued] at hp
      exact (h.issued p hp).later (Nat.le_of_eq hflow.now.symm) _
    · obtain ⟨row, hrow, hkeeps⟩ | ⟨-, ⟨row, hrow, hgrant⟩ | ⟨req, commits, payload, secret, rfl, hmethod, hasked⟩⟩ :=
        hflow.backward row' hrow'
      · rw [hkeeps.grant]
        exact (h.tokens row hrow).later _
      · rw [← hgrant]
        exact (h.tokens row hrow).later _
      · have hsession := h.asked hmethod hasked hok
        obtain ⟨actor, s₁, -, -, -, hscopes, hname, hexpires⟩ := hasked
        exact Once.now ⟨req, commits, payload, secret, rfl, hscopes, hname, hexpires, hsession⟩
  · exact ⟨fun p hp => (h.issued p hp).later (Nat.le_add_right _ _) _, fun row hrow => (h.tokens row hrow).later _⟩
  · refine ⟨fun p hp => ?_, fun row hrow => ?_⟩
    · rw [hnow]
      obtain hold | ⟨userId, typ, hstamped, ⟨csrf, rfl, hactive⟩ | ⟨token, csrf, p₀, rfl, hverify, hsub⟩⟩ :=
        hissued p hp
      · exact (h.issued p hold).later (Nat.le_refl _) _
      · exact ⟨s.now, userId, typ, hstamped, Nat.le_refl _, Once.now ⟨csrf, rfl, hactive⟩⟩
      · have hshown : p₀ ∈ s.issued := hok token (List.mem_cons_self ..) p₀ hverify
        obtain ⟨iat, userId', typ', hstamped', -, hsigned⟩ := h.issued p₀ hshown
        obtain rfl : userId' = userId := Claim.value.inj (hstamped'.sub.symm.trans hsub)
        exact ⟨s.now, userId', typ, hstamped, Nat.le_refl _, hsigned.later _⟩
    · rw [htokens] at hrow
      exact (h.tokens row hrow).later _

/-- **Whoever gets through goes back to a sign-in.** A gate lets through only
active users: by a personal access token, unrevoked and in time, with the scopes
the gate needs, which a session of the same user asked for with just these scopes
and this expiry; or by a session of their own that is no older than access tokens
live, and that repeats its secret where the gate asks for it. -/
theorem entry_earned {as : List Act} (hinit : Init s)
    (hok : ∀ t ∈ trace (next sha256 verify settings) s as, Unforged verify t.pre t.act)
    (hr : run (next sha256 verify settings) s as = some s') {gate : Gate} {req : Request} {commits : Bool}
    (hreq : Unforged verify s' (.request gate req commits)) {actor : AuthenticatedActor} {s'' : St Digest}
    (h : s'.enter sha256 verify gate req commits = (.ok actor, s'')) :
    actor.user ∈ s'.users ∧ actor.user.isActive = true ∧
      (gate.isAdmin = true → actor.user.role.isAdmin = true) ∧
      ((∃ token, gate.bearer req = some token ∧ ∃ row ∈ s'.tokens, row.tokenHash = sha256 token ∧
          row.userId = actor.user.id ∧ row.revokedAt = none ∧ (∀ e, row.expiresAt = some e → s'.now ≤ e) ∧
          (∀ scope ∈ gate.needs req.method, scope ∈ row.scopes) ∧
          Granted verify row.grant (trace (next sha256 verify settings) s as)) ∨
        gate.isMcp = false ∧ patBearer req = none ∧
          SignedIn actor.user.id (trace (next sha256 verify settings) s as) ∧
          ∃ token p iat, extractAccessToken req = some token ∧ verify token = some p ∧ p.sub = .value actor.user.id ∧
            p.iat = some iat ∧ iat ≤ s'.now ∧ s'.now < iat + settings.accessTokenTtlSeconds ∧
            (gate.checksCsrf = true → upper req.method ∈ mutatingMethods → Repeats req p)) := by
  have htraced := run_history_guarded (next sha256 verify settings)
    (fun ts s a s' (h : Traced verify settings ts s) hok hn => h.next hok hn) hinit.traced hok hr
  rw [List.nil_append] at htraced
  have hthrough := enter_through h
  obtain ⟨token, hbearer, hactor, hscopes⟩ | ⟨hmcp, hnone, hsession, hcsrf⟩ := hthrough.source
  · obtain ⟨row, hpasses, -, hrow⟩ := actorOf_some hactor
    rw [hrow] at hscopes
    exact ⟨hpasses.member, hpasses.isActive, hthrough.role, .inl ⟨token, hbearer, row, hpasses.mem, hpasses.hash,
      hpasses.owner.symm, hpasses.unrevoked, hpasses.unexpired, hscopes, htraced.tokens row hpasses.mem⟩⟩
  · obtain ⟨-, p, hin⟩ := sessionActor_ok hsession
    obtain ⟨token, htoken, hverify⟩ := hin.token
    obtain ⟨hsigned, iat, hiat, hle, hlt⟩ := htraced.signedIn hin hreq
    exact ⟨hin.mem, hin.isActive, hthrough.role, .inr ⟨hmcp, hnone, hsigned, token, p, iat, htoken, hverify, hin.sub,
      hiat, hle, hlt, fun hgate hmethod => checkCsrf_ok (hcsrf hgate hmethod) htoken hverify⟩⟩

/-! ## Revocation -/

/-- The row is there, and every row of this hash is revoked. -/
structure Retired (hash : Digest) (userId : ℕ) (s : St Digest) : Prop where
  here : ∃ row ∈ s.tokens, row.tokenHash = hash ∧ row.userId = userId
  revoked : ∀ row ∈ s.tokens, row.tokenHash = hash → row.revokedAt.isSome = true

theorem Retired.next {hash : Digest} {userId : ℕ} (h : Retired hash userId s) (hkept : a ≠ .deleteUser userId)
    (hn : next sha256 verify settings s a = some s') : Retired hash userId s' := by
  obtain ⟨row, hrow, hhash, huser⟩ := h.here
  obtain ⟨other, rfl, rfl⟩ | hflow | ⟨seconds, rfl⟩ | ⟨htokens, -, -⟩ := next_cases hn
  · have hne : row.userId ≠ other := by
      rintro rfl
      exact hkept (congrArg Act.deleteUser huser)
    exact ⟨⟨row, List.mem_filter.2 ⟨hrow, by simpa using hne⟩, hhash, huser⟩,
      fun row hrow => h.revoked row (List.mem_of_mem_filter hrow)⟩
  · refine ⟨?_, fun row' hrow' hhash' => ?_⟩
    · obtain ⟨row', hrow', hkeeps⟩ := hflow.forward row hrow
      exact ⟨row', hrow', hkeeps.hash.trans hhash, (congrArg Grant.userId hkeeps.grant).trans huser⟩
    · obtain ⟨old, hold, hkeeps⟩ | ⟨hnew, -⟩ := hflow.backward row' hrow'
      · exact hkeeps.revoked (h.revoked old hold (hkeeps.hash.symm.trans hhash'))
      · exact absurd (hhash.trans hhash'.symm) (hnew row hrow)
  · exact ⟨h.here, h.revoked⟩
  · exact ⟨htokens ▸ h.here, htokens ▸ h.revoked⟩

theorem Retired.actorOf {token : Str} {userId : ℕ} (h : Retired (sha256 token) userId s) :
    s.actorOf sha256 token = none := by
  cases hactor : s.actorOf sha256 token with
  | none => rfl
  | some actor =>
    obtain ⟨row, hpasses, -, -⟩ := actorOf_some hactor
    have hrevoked := h.revoked row hpasses.mem hpasses.hash
    rw [hpasses.unrevoked] at hrevoked
    cases hrevoked

section
variable {req : Request} {commits : Bool} {token : Str}

theorem currentUser_refused (hbearer : patBearer req = some token) (h : s.actorOf sha256 token = none) :
    s.requireCurrentUser sha256 verify req commits = (.error unauthenticated, s) := by
  unfold St.requireCurrentUser St.resolvePatOrRaise
  rw [hbearer]
  dsimp only
  rw [resolvePat_none h]

theorem authenticated_refused (hbearer : patBearer req = some token) (h : s.actorOf sha256 token = none) :
    s.requireAuthenticated sha256 verify req commits = (.error unauthenticated, s) := by
  unfold St.requireAuthenticated
  rw [hbearer]
  dsimp only
  rw [resolvePat_none h]

theorem mcpAuth_refused {found : Bool} (hbearer : extractBearerMcp req = some token)
    (h : s.actorOf sha256 token = none) :
    ∃ e, s.mcpAuth sha256 req commits found = (.error e, s) ∧ e.status = 401 := by
  unfold St.mcpAuth
  rw [hbearer]
  dsimp only
  split
  · exact ⟨_, rfl, rfl⟩
  · split
    · exact ⟨_, rfl, rfl⟩
    · rw [resolvePat_none h]
      exact ⟨_, rfl, rfl⟩

/-- A token that passes nowhere is refused by every gate, which changes nothing. -/
theorem enter_refused {gate : Gate} (hbearer : gate.bearer req = some token) (h : s.actorOf sha256 token = none) :
    ∃ e, s.enter sha256 verify gate req commits = (.error e, s) ∧ e.status = 401 := by
  cases gate with
  | mcp found => exact mcpAuth_refused hbearer h
  | currentUser => exact ⟨unauthenticated, currentUser_refused hbearer h, rfl⟩
  | authenticated => exact ⟨unauthenticated, authenticated_refused hbearer h, rfl⟩
  | adminOrOwner =>
    refine ⟨unauthenticated, ?_, rfl⟩
    show St.andThen _ _ = _
    rw [currentUser_refused hbearer h]
    rfl
  | scope scope =>
    refine ⟨unauthenticated, ?_, rfl⟩
    show St.andThen _ _ = _
    rw [authenticated_refused hbearer h]
    rfl
  | actorCsrf =>
    refine ⟨unauthenticated, ?_, rfl⟩
    show St.andThen _ _ = _
    rw [authenticated_refused hbearer h]
    rfl
  | csrf =>
    refine ⟨unauthenticated, ?_, rfl⟩
    show St.csrfGate sha256 verify req commits _ = _
    rw [currentUser_refused hbearer h]
    rfl
  | adminCsrf =>
    refine ⟨unauthenticated, ?_, rfl⟩
    show St.csrfGate sha256 verify req commits (St.andThen _ _) = _
    rw [currentUser_refused hbearer h]
    rfl

end

theorem nodup_next (h : (s.tokens.map (·.tokenHash)).Nodup) (hn : next sha256 verify settings s a = some s') :
    (s'.tokens.map (·.tokenHash)).Nodup := by
  obtain ⟨userId, -, rfl⟩ | hflow | ⟨seconds, rfl⟩ | ⟨htokens, -, -⟩ := next_cases hn
  · exact h.sublist (List.filter_sublist.map _)
  · exact hflow.nodup h
  · exact h
  · rw [htokens]
    exact h

/-- **A revoked token is refused for good.** Once a row is revoked, by its user,
an administrator, the identity provider or a rotation, every gate refuses its
token in every later state, as long as its user is not deleted with all rows. -/
theorem revoked_refused {s₁ s₂ : St Digest} {as bs : List Act} (hinit : Init s)
    (hr : run (next sha256 verify settings) s as = some s₁) {row : PersonalAccessToken Digest} (hrow : row ∈ s₁.tokens)
    (hrevoked : row.revokedAt.isSome = true) (hr' : run (next sha256 verify settings) s₁ bs = some s₂)
    (hkept : .deleteUser row.userId ∉ bs) {gate : Gate} {req : Request} {token : Str} (commits : Bool)
    (hbearer : gate.bearer req = some token) (hhash : sha256 token = row.tokenHash) :
    ∃ e, s₂.enter sha256 verify gate req commits = (.error e, s₂) ∧ e.status = 401 := by
  have hstart : (s.tokens.map (·.tokenHash)).Nodup := by
    rw [hinit.tokens]
    exact List.nodup_nil
  have hstep : ∀ (s : St Digest) a s', (s.tokens.map (·.tokenHash)).Nodup → True →
      next sha256 verify settings s a = some s' → (s'.tokens.map (·.tokenHash)).Nodup :=
    fun s a s' h _ hn => nodup_next h hn
  have hnodup := run_guarded (next sha256 verify settings) hstep hstart (fun _ _ => trivial) hr
  have hretired : Retired (sha256 token) row.userId s₁ := by
    refine ⟨⟨row, hrow, hhash.symm, rfl⟩, fun other hother hsame => ?_⟩
    rw [List.inj_on_of_nodup_map hnodup hother hrow (hsame.trans hhash)]
    exact hrevoked
  have hall : ∀ t ∈ trace (next sha256 verify settings) s₁ bs, t.act ≠ .deleteUser row.userId :=
    fun t ht heq => hkept (heq ▸ trace_act _ ht)
  have hstep' : ∀ (s : St Digest) a s', Retired (sha256 token) row.userId s → a ≠ .deleteUser row.userId →
      next sha256 verify settings s a = some s' → Retired (sha256 token) row.userId s' :=
    fun s a s' h hkept hn => h.next hkept hn
  exact enter_refused hbearer (run_guarded (next sha256 verify settings) hstep' hretired hall hr').actorOf

end

/-! A session mints a token, which reads until it is rotated. -/

namespace Sample

def settings : Settings := ⟨900, 86400⟩

def session : Payload := createToken settings 0 0 .user .access (some "c".toList) none 3

def verify (token : Str) : Option Payload := if token = "jwt".toList then some session else none

def digest (text : Str) : Str := text

def first : St Str := ⟨0, 1, [⟨0, .user, true⟩], [], [], []⟩

/-- A request of the browser. -/
def browser : Request := ⟨"POST".toList, [("x-csrf-token".toList, "c".toList)], some "jwt".toList, none⟩

/-- A request that carries the token. -/
def client : Request := ⟨"GET".toList, [("authorization".toList, "Bearer cgr_pat_x".toList)], none, none⟩

def minting : List Act :=
  [.signIn 0 "c".toList, .createMyToken browser true ⟨"ci".toList, ["api:read".toList], none⟩ "x".toList]

def refresh : Payload := createToken settings 0 0 .user .refresh none (some 1) 2

def minted : St Str :=
  ⟨0, 5, [⟨0, .user, true⟩],
    [⟨4, 0, "ci".toList, "cgr_pat_x".toList, "cgr_pat_x".toList, ["api:read".toList], none, none, none, none, none⟩],
    [⟨1, 0, 2, none⟩], [session, refresh]⟩

def rotating : List Act := [.tick 10, .rotateMyToken browser true 4 "y".toList]

def old : PersonalAccessToken Str :=
  ⟨4, 0, "ci".toList, "cgr_pat_x".toList, "cgr_pat_x".toList, ["api:read".toList], none, some 10,
    some "rotation".toList, none, none⟩

def rotated : St Str :=
  ⟨10, 6, [⟨0, .user, true⟩], [old, ⟨5, 0, "ci".toList, "cgr_pat_y".toList, "cgr_pat_y".toList, ["api:read".toList],
    none, none, none, none, none⟩], [⟨1, 0, 2, none⟩], [session, refresh]⟩

theorem first_init : Init first := by constructor <;> decide

theorem minting_run : run (next digest verify settings) first minting = some minted := by decide

theorem rotating_run : run (next digest verify settings) first (minting ++ rotating) = some rotated := by decide

theorem unforged {s : St Str} {a : Act} (h : session ∈ s.issued ∨ a.presents = []) : Unforged verify s a := by
  intro token htoken p hp
  unfold verify at hp
  split at hp
  · cases hp
    obtain hmem | hnone := h
    · exact hmem
    · rw [hnone] at htoken
      cases htoken
  · cases hp

theorem minting_unforged : ∀ t ∈ trace (next digest verify settings) first minting, Unforged verify t.pre t.act := by
  have hall : ∀ t ∈ trace (next digest verify settings) first minting,
      session ∈ t.pre.issued ∨ t.act.presents = [] := by decide
  exact fun t ht => unforged (hall t ht)

end Sample

theorem entry_earned_sample :
    Granted Sample.verify ⟨0, "ci".toList, ["api:read".toList], none⟩
      (trace (next Sample.digest Sample.verify Sample.settings) Sample.first Sample.minting) := by
  have henter : ∃ s'', Sample.minted.enter Sample.digest Sample.verify .currentUser Sample.client true =
      (.ok ⟨⟨0, .user, true⟩, .pat, ["api:read".toList], some 4⟩, s'') := ⟨_, rfl⟩
  obtain ⟨s'', henter⟩ := henter
  have hforged : Unforged Sample.verify Sample.minted (.request .currentUser Sample.client true) :=
    Sample.unforged (.inl (List.mem_cons_self ..))
  obtain ⟨-, -, -, ⟨token, -, row, hrow, -, -, -, -, -, hgranted⟩ | ⟨-, hnone, -⟩⟩ :=
    entry_earned Sample.first_init Sample.minting_unforged Sample.minting_run hforged henter
  · rw [List.mem_singleton.1 hrow] at hgranted
    exact hgranted
  · exact absurd hnone (by decide)

theorem revoked_refused_sample :
    ∃ e, Sample.rotated.enter Sample.digest Sample.verify .currentUser Sample.client true = (.error e, Sample.rotated) ∧
      e.status = 401 := by
  have hrow : Sample.old ∈ Sample.rotated.tokens := List.mem_cons_self ..
  have hstays : run (next Sample.digest Sample.verify Sample.settings) Sample.rotated [] = some Sample.rotated :=
    run_nil _ _
  have hbearer : Gate.currentUser.bearer Sample.client = some "cgr_pat_x".toList := by decide
  exact revoked_refused Sample.first_init Sample.rotating_run hrow rfl hstays (by decide) true hbearer rfl

end Cograph.Gateway
