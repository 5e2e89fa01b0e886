import Cograph.Kleene
import Cograph.Scim
import Cograph.ByKey

/-!
# Who reads a repository

`core/repository_access.py` states the rule twice: as `WHERE` clauses on a
`select(Repository)`, for the lists, and as checks on one row, for the routes
that name a repository. Grants hang on groups; a user is a member of groups.
-/

namespace Cograph.Access

open Kleene Scim

/-! ## Tables -/

inductive RepositoryVisibility where
  | «public»
  | adminOnly
  deriving DecidableEq, Repr

structure Repository where
  id : Nat
  host : String
  owner : String
  name : String
  visibility : RepositoryVisibility
  deletedAt : Option Nat
  deriving DecidableEq, Repr

def Repository.slug (r : Repository) : String × String × String := (r.host, r.owner, r.name)

inductive GrantLevel where
  | read
  | write
  deriving DecidableEq, Repr

structure RepositoryGrant where
  groupId : Nat
  repositoryId : Nat
  level : GrantLevel
  deriving DecidableEq, Repr

structure GroupMember where
  groupId : Nat
  userId : Nat
  deriving DecidableEq, Repr

/-- The tables, with the keys of `repositories`. -/
structure Tables where
  repositories : List Repository
  grants : List RepositoryGrant
  members : List GroupMember
  ids : (repositories.map (·.id)).Nodup
  slugs : (repositories.map (·.slug)).Nodup

/-! ## Queries -/

/-- The conditions the scope puts on a row. -/
inductive Condition where
  | no
  | deletedIsNull
  | visibilityIs (v : RepositoryVisibility)
  | idIn (ids : List Nat)
  | or (a b : Condition)

/-- SQL's `x = v` is unknown on a null. The compared columns have none. -/
def Condition.eval (r : Repository) : Condition → Tri
  | no => some false
  | deletedIsNull => some r.deletedAt.isNone
  | visibilityIs v => some (r.visibility = v)
  | idIn ids => some (ids.contains r.id)
  | or a b => tor (a.eval r) (b.eval r)

/-- `select(Repository)` with its `WHERE` clauses. -/
structure Select where
  clauses : List Condition

def Select.all : Select := ⟨[]⟩

def Select.filter (s : Select) (c : Condition) : Select := ⟨s.clauses ++ [c]⟩

def Select.rows (s : Select) (db : Tables) : List Repository :=
  db.repositories.filter fun r => (s.clauses.map (·.eval r)).foldr tand (some true) = some true

/-- `select(RepositoryGrant.repository_id).join(GroupMember, …)`. -/
def grantedSubq (db : Tables) (userId : Nat) : List Nat :=
  db.grants.flatMap fun g =>
    (db.members.filter fun m => m.groupId = g.groupId ∧ m.userId = userId).map fun _ => g.repositoryId

section
variable (db : Tables) (publicRead : Bool) (currentUser : Option User)

def applyRepositoryReadScope (statement : Select) : Select :=
  let statement := statement.filter .deletedIsNull
  match currentUser with
  | none => if publicRead then statement.filter (.visibilityIs .public) else statement.filter .no
  | some user =>
    if user.role = .owner ∨ user.role = .admin then statement
    else statement.filter (.or (.visibilityIs .public) (.idIn (grantedSubq db user.id)))

/-! ## Checks on one row -/

def canReadRepositorySync (r : Repository) : Bool :=
  if r.deletedAt.isSome then false
  else
    match currentUser with
    | none => publicRead && r.visibility = .public
    | some user => if user.role = .owner ∨ user.role = .admin then true else r.visibility = .public

def userCanReadRepository (r : Repository) : Bool :=
  if r.deletedAt.isSome then false
  else if canReadRepositorySync publicRead currentUser r then true
  else
    match currentUser with
    | none => false
    | some user =>
      let granted := (db.grants.flatMap fun g => (db.members.filter fun m =>
        m.groupId = g.groupId ∧ m.userId = user.id ∧ g.repositoryId = r.id).map fun _ => g.repositoryId).head?
      granted.isSome

structure ApiError where
  status : Nat
  code : String
  message : String
  deriving DecidableEq, Repr

def notFound : ApiError := ⟨404, "NOT_FOUND", "Repository not found"⟩

def readable (row : Option Repository) : Except ApiError Repository :=
  match row with
  | none => .error notFound
  | some r => if userCanReadRepository db publicRead currentUser r then .ok r else .error notFound

def getReadableRepository (repositoryId : Nat) : Except ApiError Repository :=
  readable db publicRead currentUser (db.repositories.find? (·.id = repositoryId))

def getReadableRepositoryBySlug (host owner name : String) : Except ApiError Repository :=
  readable db publicRead currentUser (db.repositories.find? fun r => r.host = host ∧ r.owner = owner ∧ r.name = name)

end

end Cograph.Access

/-!
## The lists and the routes agree

A row is in the scope of a list if and only if the check on one row lets the
caller read it. The two get functions look a row up by a key, so they answer
with exactly the rows of the list.
-/

namespace Cograph.Access

open Kleene Scim

/-! ## Queries -/

theorem mem_rows {s : Select} {db : Tables} {r : Repository} :
    r ∈ s.rows db ↔ r ∈ db.repositories ∧ ∀ c ∈ s.clauses, c.eval r = some true := by
  simp [Select.rows, foldr_tand_true]

theorem mem_filter {s : Select} {c : Condition} {db : Tables} {r : Repository} :
    r ∈ (s.filter c).rows db ↔ r ∈ s.rows db ∧ c.eval r = some true := by
  simp only [mem_rows, Select.filter, List.mem_append, List.mem_singleton]
  grind

variable {db : Tables} {publicRead : Bool} {currentUser : Option User}

theorem mem_grantedSubq {userId i : Nat} : i ∈ grantedSubq db userId ↔
    ∃ g ∈ db.grants, g.repositoryId = i ∧ ∃ m ∈ db.members, m.groupId = g.groupId ∧ m.userId = userId := by
  simp only [grantedSubq, List.mem_flatMap, List.mem_map, List.mem_filter, decide_eq_true_eq]
  grind

theorem granted_isSome {userId i : Nat} :
    (db.grants.flatMap fun g => (db.members.filter fun m =>
      m.groupId = g.groupId ∧ m.userId = userId ∧ g.repositoryId = i).map fun _ => g.repositoryId).head?.isSome =
      decide (i ∈ grantedSubq db userId) := by
  rw [Bool.eq_iff_iff, decide_eq_true_iff, List.isSome_head?, mem_grantedSubq]
  simp only [ne_eq, List.flatMap_eq_nil_iff, List.map_eq_nil_iff, List.filter_eq_nil_iff]
  grind

/-! ## One rule -/

theorem mem_scope {s : Select} {r : Repository} :
    r ∈ (applyRepositoryReadScope db publicRead currentUser s).rows db ↔
      r ∈ s.rows db ∧ userCanReadRepository db publicRead currentUser r := by
  cases hdel : r.deletedAt with
  | some t =>
    -- a deleted row fails the first clause and the first check
    have hnull : Condition.deletedIsNull.eval r ≠ some true := by simp [Condition.eval, hdel]
    unfold applyRepositoryReadScope userCanReadRepository
    cases currentUser with
    | none => cases publicRead <;> simp [mem_filter, hnull, hdel]
    | some user => by_cases hrole : user.role = .owner ∨ user.role = .admin <;> simp [mem_filter, hnull, hdel, hrole]
  | none =>
    have hnull : Condition.deletedIsNull.eval r = some true := by simp [Condition.eval, hdel]
    unfold applyRepositoryReadScope userCanReadRepository canReadRepositorySync
    cases currentUser with
    | none => cases publicRead <;> simp [mem_filter, hdel, Condition.eval]
    | some user =>
      by_cases hrole : user.role = .owner ∨ user.role = .admin
      · simp [mem_filter, hnull, hdel, hrole]
      · simp only [hdel, hrole, granted_isSome]
        by_cases hp : r.visibility = .public <;> simp [mem_filter, hdel, hp, Condition.eval, tor_true]

/-! ## Lookups by a key -/

theorem readable_ok {row : Option Repository} {r : Repository} :
    readable db publicRead currentUser row = .ok r ↔ row = some r ∧ userCanReadRepository db publicRead currentUser r := by
  cases row with
  | none => simp [readable]
  | some x =>
    by_cases hx : userCanReadRepository db publicRead currentUser x
    · simp only [readable, hx, if_true, Except.ok.injEq, Option.some.injEq]
      grind
    · simp only [readable, hx, Option.some.injEq]
      grind

theorem refused {row : Option Repository} {e : ApiError}
    (he : readable db publicRead currentUser row = .error e) : e = notFound := by
  unfold readable at he
  split at he
  · simpa using he.symm
  · split at he
    · cases he
    · simpa using he.symm

/-- **The scope of the lists is what the routes let through.** For any tables,
settings and caller: a repository is in the list if and only if each of the two
lookups answers with it, and a refused lookup is a 404 that tells nothing. -/
theorem read_scope_agrees (db : Tables) (publicRead : Bool) (currentUser : Option User) :
    let listed := (applyRepositoryReadScope db publicRead currentUser .all).rows db
    (∀ i r, getReadableRepository db publicRead currentUser i = .ok r ↔ r ∈ listed ∧ r.id = i) ∧
    (∀ host owner name r, getReadableRepositoryBySlug db publicRead currentUser host owner name = .ok r ↔
      r ∈ listed ∧ r.slug = (host, owner, name)) ∧
    (∀ i e, getReadableRepository db publicRead currentUser i = .error e → e = notFound) ∧
    ∀ host owner name e, getReadableRepositoryBySlug db publicRead currentUser host owner name = .error e →
      e = notFound := by
  have hall : ∀ r, r ∈ Select.all.rows db ↔ r ∈ db.repositories := by simp [mem_rows, Select.all]
  refine ⟨?_, ?_, fun i e => refused, fun host owner name e => refused⟩
  · intro i r
    rw [getReadableRepository, readable_ok, ByKey.find_iff db.ids, mem_scope, hall]
    grind
  · intro host owner name r
    have hslug : (fun r : Repository => decide (r.host = host ∧ r.owner = owner ∧ r.name = name)) =
        fun r => decide (r.slug = (host, owner, name)) := by
      funext r
      simp [Repository.slug]
    rw [getReadableRepositoryBySlug, hslug, readable_ok, ByKey.find_iff db.slugs, mem_scope, hall]
    grind

end Cograph.Access
