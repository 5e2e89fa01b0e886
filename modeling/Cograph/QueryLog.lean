import Cograph.Machine
import Mathlib.Data.Finset.Basic
import Mathlib.Logic.Function.Basic

/-!
# The query-log flag

The calls of `enqueue_query_log` for one repository (`query_logs/recorder.py`)
and the requests of `update_repository` (`api/repos.py`) within one process.
What runs between two awaits is one action. Database reads succeed.
-/

namespace Cograph.QueryLog

/-- A cached decision with its `expires_at`. -/
structure Entry where
  allow : Bool
  expiresAt : Nat
  deriving DecidableEq, Repr

/-- Where a call of `enqueue_query_log` stands. A call keeps the `now` it began
with. -/
inductive Call where
  | idle
  /-- About to acquire the lock. -/
  | waiting (now : Nat)
  /-- Holding the lock: about to read the row, and with what it read. -/
  | reading (now : Nat)
  | read (now : Nat) (allow : Bool)
  | allowed
  | skipped
  | enqueued
  deriving DecidableEq, Repr

/-- Where a request of `update_repository` stands; `logQueries` is the payload's,
`log_queries` the copy of the row that the session holds. -/
inductive Update where
  | idle
  | arrived (logQueries : Option Bool)
  | loaded (logQueries : Option Bool) (copy : Bool)
  | committed (logQueries : Option Bool)
  | invalidated (logQueries : Option Bool)
  | answered
  deriving DecidableEq, Repr

/-- `optedOut` says that a request setting `log_queries=false` was answered and
none setting it to true has committed since; `covered` holds the calls that
began while it did, and `log` the calls that enqueued an entry. -/
structure St where
  now : Nat
  logQueries : Bool
  cache : Option Entry
  lock : Option Nat
  calls : Nat → Call
  updates : Nat → Update
  optedOut : Bool
  covered : Finset Nat
  log : List Nat

def St.init (logQueries : Bool) : St := ⟨0, logQueries, none, none, fun _ => .idle, fun _ => .idle, false, ∅, []⟩

inductive Action where
  | tick (now : Nat)
  /-- `served` says that the call's `app_state` has a session manager. -/
  | begin (call : Nat) (served : Bool)
  | acquire (call : Nat)
  | readRow (call : Nat)
  | fill (call : Nat)
  | enqueue (call : Nat)
  | arrive (update : Nat) (logQueries : Option Bool)
  | load (update : Nat)
  | commit (update : Nat)
  | invalidate (update : Nat)
  | answer (update : Nat)
  deriving DecidableEq, Repr

namespace St

def gotoCall (s : St) (r : Nat) (c : Call) : St := { s with calls := Function.update s.calls r c }

def gotoUpdate (s : St) (r : Nat) (u : Update) : St := { s with updates := Function.update s.updates r u }

end St

/-- A call's decision. -/
def decided (allow : Bool) : Call := if allow then .allowed else .skipped

/-- The cached decision, unless it has expired. -/
def cached (cache : Option Entry) (now : Nat) : Option Bool := (cache.filter (now < ·.expiresAt)).map (·.allow)

section
variable (disabled : Bool) (ttl : Nat)

/-- `enqueue_query_log` up to its first await. -/
def enqueueQueryLog (s : St) (r : Nat) (served : Bool) : St :=
  let s' := { s with covered := if s.optedOut then insert r s.covered else s.covered }
  if disabled then s'.gotoCall r .skipped
  else
    match if served then cached s.cache s.now else none with
    | some allow => s'.gotoCall r (decided allow)
    -- without a session manager the entry is allowed
    | none => s'.gotoCall r (if served then .waiting s.now else .allowed)

/-- The second look at the cache, under the lock. -/
def acquire (s : St) (r now : Nat) : St :=
  match cached s.cache now with
  | some allow => s.gotoCall r (decided allow)
  | none => { s.gotoCall r (.reading now) with lock := some r }

/-- The cache is filled and the lock released. -/
def fill (s : St) (r now : Nat) (allow : Bool) : St :=
  { s.gotoCall r (decided allow) with
    cache := if 0 < ttl then some ⟨allow, now + ttl⟩ else s.cache
    lock := none }

/-- The commit of `update_repository`, which writes a value other than the one
it loaded. -/
def commit (s : St) (r : Nat) (logQueries : Option Bool) (copy : Bool) : St :=
  { s.gotoUpdate r (.committed logQueries) with
    logQueries := (logQueries.filter (· ≠ copy)).getD s.logQueries
    optedOut := if logQueries = some true then false else s.optedOut }

def next (s : St) : Action → Option St
  | .tick now => if s.now ≤ now then some { s with now := now } else none
  | .begin r served => if s.calls r = .idle then some (enqueueQueryLog disabled s r served) else none
  | .acquire r =>
    match s.calls r, s.lock with
    | .waiting now, none => some (acquire s r now)
    | _, _ => none
  | .readRow r =>
    match s.calls r with
    | .reading now => some (s.gotoCall r (.read now s.logQueries))
    | _ => none
  | .fill r =>
    match s.calls r with
    | .read now allow => some (fill ttl s r now allow)
    | _ => none
  | .enqueue r => if s.calls r = .allowed then some { s.gotoCall r .enqueued with log := r :: s.log } else none
  | .arrive r logQueries => if s.updates r = .idle then some (s.gotoUpdate r (.arrived logQueries)) else none
  | .load r =>
    match s.updates r with
    | .arrived logQueries => some (s.gotoUpdate r (.loaded logQueries s.logQueries))
    | _ => none
  | .commit r =>
    match s.updates r with
    | .loaded logQueries copy => some (commit s r logQueries copy)
    | _ => none
  | .invalidate r =>
    match s.updates r with
    | .committed logQueries => some { s.gotoUpdate r (.invalidated logQueries) with cache := none }
    | _ => none
  | .answer r =>
    match s.updates r with
    | .invalidated logQueries =>
      some { s.gotoUpdate r .answered with optedOut := if logQueries = some false then true else s.optedOut }
    | _ => none

end

end Cograph.QueryLog
