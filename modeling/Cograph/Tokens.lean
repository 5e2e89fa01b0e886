import Cograph.Machine
import Mathlib.Logic.Function.Basic

/-!
# Refresh tokens

`api/auth.py`: the login, refresh and logout requests over the rows of
`refresh_token_families`. Each statement on the database is one action, and
between two of them other requests act. A fresh id is one that no row or token
carries. What a request answers beside its tokens is left out.
-/

namespace Cograph.Auth

/-- The claims of a refresh token, `TokenClaims`. -/
structure TokenClaims where
  userId : Nat
  family : Option Nat
  jti : Nat
  deriving DecidableEq

structure RefreshTokenFamily where
  userId : Nat
  currentJti : Nat
  revokedAt : Option Nat
  deriving DecidableEq

/-- Where a request stands. The phases of a refresh are its read of the family
row, the read of the user, the update and the answer; a request that found
another token than its own current is about to revoke the family. -/
inductive Phase where
  | idle
  | refreshing (claims : TokenClaims) (family : Nat)
  | reused (family : Nat)
  | matched (claims : TokenClaims) (family : Nat)
  | rotating (claims : TokenClaims) (family : Nat)
  | exchanged (claims : TokenClaims) (family newJti : Nat)
  | leaving (family : Nat)
  | revoking (family : Nat)
  | answered (tokens : Option TokenClaims)
  deriving DecidableEq

/-- A token exchanged by a request. -/
structure Exchange where
  request : Nat
  token : TokenClaims
  deriving DecidableEq

/-- `issued` holds the refresh tokens given out, `exchanges` the rotations that
were committed, the last first. -/
structure St where
  families : Nat → Option RefreshTokenFamily
  requests : Nat → Phase
  issued : List TokenClaims
  exchanges : List Exchange
  nextId : Nat

def St.init : St := ⟨fun _ => none, fun _ => .idle, [], [], 0⟩

/-- The actions name the request they belong to. -/
inductive Action where
  | login (request userId : Nat)
  | refresh (request : Nat) (token : Option TokenClaims)
  | readFamily (request : Nat)
  | readUser (request : Nat) (found : Bool)
  | rotate (request : Nat)
  | respond (request : Nat)
  | revokeReused (request now : Nat)
  | logout (request : Nat) (token : Option TokenClaims)
  | readLogout (request : Nat)
  | revokeLogout (request now : Nat)
  deriving DecidableEq

namespace St

def goto (s : St) (r : Nat) (p : Phase) : St := { s with requests := Function.update s.requests r p }

/-- `family_row.revoked_at = now` and its commit. -/
def revoke (s : St) (f now : Nat) : St :=
  { s with families := Function.update s.families f ((s.families f).map fun row => { row with revokedAt := some now }) }

end St

/-- `login`, from the new family to the answer. -/
def login (s : St) (r userId : Nat) : St :=
  let family := s.nextId
  let token : TokenClaims := ⟨userId, some family, s.nextId + 1⟩
  { s.goto r (.answered (some token)) with
    families := Function.update s.families family (some ⟨userId, s.nextId + 1, none⟩)
    issued := token :: s.issued
    nextId := s.nextId + 2 }

/-- The start of a request on its cookie. A cookie that is missing or does not
decode, and a token of no family, end it. -/
def present (s : St) (r : Nat) (token : Option TokenClaims) (start : TokenClaims → Nat → Phase) : St :=
  match token with
  | none => s.goto r (.answered none)
  | some claims =>
    match claims.family with
    | none => s.goto r (.answered none)
    | some family => s.goto r (start claims family)

/-- The read of the family row in `refresh_tokens`. -/
def readFamily (s : St) (r : Nat) (claims : TokenClaims) (family : Nat) : St :=
  match s.families family with
  | none => s.goto r (.answered none)
  | some row =>
    if row.revokedAt ≠ none then s.goto r (.answered none)
    else if claims.jti ≠ row.currentJti then s.goto r (.reused family)
    else s.goto r (.matched claims family)

/-- The conditional update of `refresh_tokens`. -/
def rotate (s : St) (r : Nat) (claims : TokenClaims) (family : Nat) : St :=
  match s.families family with
  | none => s.goto r (.answered none)
  | some row =>
    if row.currentJti = claims.jti ∧ row.revokedAt = none then
      { s.goto r (.exchanged claims family s.nextId) with
        families := Function.update s.families family (some { row with currentJti := s.nextId })
        exchanges := ⟨r, claims⟩ :: s.exchanges
        nextId := s.nextId + 1 }
    else s.goto r (.answered none)

/-- The read of the family row in `logout`. -/
def readLogout (s : St) (r family : Nat) : St :=
  match s.families family with
  | none => s.goto r (.answered none)
  | some row => if row.revokedAt = none then s.goto r (.revoking family) else s.goto r (.answered none)

/-- One action, where its request stands at it. A token that is presented was
issued; a missing, foreign or expired one decodes to none. -/
def next (s : St) : Action → Option St
  | .login r userId => if s.requests r = .idle then some (login s r userId) else none
  | .refresh r token =>
    if s.requests r = .idle ∧ ∀ t ∈ token, t ∈ s.issued then some (present s r token .refreshing) else none
  | .readFamily r =>
    match s.requests r with
    | .refreshing claims family => some (readFamily s r claims family)
    | _ => none
  | .readUser r found =>
    match s.requests r with
    | .matched claims family => some (s.goto r (if found then .rotating claims family else .answered none))
    | _ => none
  | .rotate r =>
    match s.requests r with
    | .rotating claims family => some (rotate s r claims family)
    | _ => none
  | .respond r =>
    match s.requests r with
    | .exchanged claims family newJti =>
      let token : TokenClaims := ⟨claims.userId, some family, newJti⟩
      some { s.goto r (.answered (some token)) with issued := token :: s.issued }
    | _ => none
  | .revokeReused r now =>
    match s.requests r with
    | .reused family => some ((s.revoke family now).goto r (.answered none))
    | _ => none
  | .logout r token =>
    if s.requests r = .idle ∧ ∀ t ∈ token, t ∈ s.issued then some (present s r token fun _ family => .leaving family)
    else none
  | .readLogout r =>
    match s.requests r with
    | .leaving family => some (readLogout s r family)
    | _ => none
  | .revokeLogout r now =>
    match s.requests r with
    | .revoking family => some ((s.revoke family now).goto r (.answered none))
    | _ => none

end Cograph.Auth
