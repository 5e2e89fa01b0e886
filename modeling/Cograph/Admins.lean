import Cograph.Scim
import Mathlib.Logic.Function.Basic

/-!
# Concurrent user administration

The transactions that can take an administrator away: the admin API's
`update_user`, `disable_user` and `delete_user`, and SCIM's deprovisioning.
Under read committed each of their reads sees the rows committed by then, the
session keeps the rows it has loaded, and the commit writes the changed columns
of the row whatever the row has become. Reads and the commit are separate
actions.
-/

namespace Cograph.Admins

open Scim (User UserRole isAdminRole)

/-! ## Guards and writes -/

structure ApiError where
  status : Nat
  code : String
  message : String
  deriving DecidableEq, Repr

/-- The columns a transaction changes. -/
inductive Write where
  | setRole (role : UserRole)
  | deactivate (reason : String)
  | delete
  deriving DecidableEq, Repr

def Write.apply (w : Write) (id : Nat) (users : List User) : List User :=
  match w with
  | .setRole role => users.map fun v => if v.id = id then { v with role := role } else v
  | .deactivate reason =>
    users.map fun v => if v.id = id then { v with isActive := false, deactivatedReason := some reason } else v
  | .delete => users.filter (·.id ≠ id)

section
variable (users : List User)

/-- The active administrators other than `user`, which the guards count. -/
def remaining (user : User) : List Nat :=
  (users.filter fun v => v.id ≠ user.id ∧ isAdminRole v.role ∧ v.isActive).map (·.id)

def wouldLeaveNoAdmins (user : User) : Bool := isAdminRole user.role && (remaining users user).isEmpty

def updateUser (actor : Nat) (user : User) (role : Option UserRole) : Except ApiError (Option Write) :=
  match role with
  | none => .ok none
  | some role =>
    if role = user.role then .ok none
    else if user.role = .owner ∨ role = .owner then
      .error ⟨409, "OWNER_LABEL_LOCKED", "Owner role is set at instance bootstrap and cannot be changed via API."⟩
    -- Demoting yourself out of admin is allowed only if another admin remains.
    else if user.id = actor ∧ role = .user ∧ wouldLeaveNoAdmins users user then
      .error ⟨409, "LAST_ADMIN_PROTECTED", "Cannot demote the last administrator; promote another admin first."⟩
    else .ok (some (.setRole role))

def disableUser (actor : Nat) (user : User) (reason : Option String) : Except ApiError (Option Write) :=
  if user.id = actor then .error ⟨409, "SELF_DISABLE", "You cannot disable your own account."⟩
  else if wouldLeaveNoAdmins users user then
    .error ⟨409, "LAST_ADMIN_PROTECTED", "Cannot disable the last administrator."⟩
  else if user.isActive = false then .ok none
  else .ok (some (.deactivate (if reason.getD "" = "" then "admin" else reason.getD "")))

def deleteUser (actor : Nat) (user : User) : Except ApiError (Option Write) :=
  if user.id = actor then
    .error ⟨409, "SELF_DELETE", "You cannot delete your own account; ask another admin."⟩
  else if wouldLeaveNoAdmins users user then
    .error ⟨409, "LAST_ADMIN_PROTECTED", "Cannot delete the last administrator."⟩
  else .ok (some .delete)

def disableUserCascade (user : User) : Except ApiError (Option Write) :=
  if wouldLeaveNoAdmins users user then
    .error ⟨403, "mutability", "Cannot disable the last administrator via SCIM"⟩
  else if user.isActive = false then .ok none
  else .ok (some (.deactivate "scim"))

end

/-! ## Transactions -/

inductive Request where
  | update (actor target : Nat) (role : Option UserRole)
  | disable (actor target : Nat) (reason : Option String)
  | delete (actor target : Nat)
  /-- `PATCH` or `PUT` with `active=false`, or `DELETE`. -/
  | scim (target : Nat)
  deriving DecidableEq, Repr

def Request.actor : Request → Option Nat
  | .update a _ _ | .disable a _ _ | .delete a _ => some a
  | .scim _ => none

def Request.target : Request → Nat
  | .update _ t _ | .disable _ t _ | .delete _ t | .scim t => t

/-- What a handler decides on the rows it reads and its copy of the target. -/
def Request.decide (users : List User) (user : User) : Request → Except ApiError (Option Write)
  | .update a _ role => updateUser users a user role
  | .disable a _ reason => disableUser users a user reason
  | .delete a _ => deleteUser users a user
  | .scim _ => disableUserCascade users user

inductive Phase where
  | idle
  | authorised
  | loaded (user : User)
  /-- With the administrators that the guard counted. -/
  | checked (user : User) (counted : List Nat) (write : Write)
  | ended
  deriving DecidableEq, Repr

structure Tx where
  request : Request
  /-- The session's copy of the actor. -/
  current : Option User
  phase : Phase

structure St where
  users : List User
  txs : Nat → Tx

structure Init (s : St) : Prop where
  txs : ∀ i, (s.txs i).phase = .idle

inductive Act where
  | authorise (i : Nat) (r : Request)
  | load (i : Nat)
  | check (i : Nat)
  | commit (i : Nat)
  /-- The request fails, or its changes are rolled back. -/
  | abort (i : Nat)
  deriving DecidableEq, Repr

namespace St

variable (s : St)

def setTx (i : Nat) (t : Tx) : St := { s with txs := Function.update s.txs i t }

def goto (i : Nat) (p : Phase) : St := s.setTx i { s.txs i with phase := p }

def user? (id : Nat) : Option User := s.users.find? (·.id = id)

/-- `require_admin_or_owner`. A SCIM request is authorised by its client. -/
def authorise (i : Nat) (r : Request) : Option St :=
  if (s.txs i).phase = .idle then
    match r.actor with
    | none => some (s.setTx i ⟨r, none, .authorised⟩)
    | some a =>
      match s.user? a with
      | none => none
      | some v => if v.isActive ∧ isAdminRole v.role then some (s.setTx i ⟨r, some v, .authorised⟩) else none
  else none

/-- `session.get(User, user_id)`, which reads no row the session has loaded. -/
def load (i : Nat) : Option St :=
  let t := s.txs i
  if t.phase = .authorised then
    match (t.current.filter (·.id = t.request.target)).or (s.user? t.request.target) with
    | none => some (s.goto i .ended)
    | some v => some (s.goto i (.loaded v))
  else none

def check (i : Nat) : Option St :=
  match (s.txs i).phase with
  | .loaded v =>
    match (s.txs i).request.decide s.users v with
    | .error _ => some (s.goto i .ended)
    | .ok none => some (s.goto i .ended)
    | .ok (some w) => some (s.goto i (.checked v (remaining s.users v) w))
  | _ => none

def commit (i : Nat) : Option St :=
  match (s.txs i).phase with
  | .checked v _ w => some { s.goto i .ended with users := w.apply v.id s.users }
  | _ => none

def abort (i : Nat) : Option St :=
  if (s.txs i).phase = .idle then none else some (s.goto i .ended)

end St

def next (s : St) : Act → Option St
  | .authorise i r => s.authorise i r
  | .load i => s.load i
  | .check i => s.check i
  | .commit i => s.commit i
  | .abort i => s.abort i

end Cograph.Admins
