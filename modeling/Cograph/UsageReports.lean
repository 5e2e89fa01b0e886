import Cograph.Grouping
import Cograph.Strs
import Mathlib.Algebra.Order.Group.Int
import Mathlib.Data.List.Lex

/-!
# Usage reports

`api/query_logs.py`: the totals, the report by users and the time series over
the table of query logs. A time is its microseconds since the epoch; the seconds
of a time are taken exact. Latencies, the lists of top queries and repositories
and the times of the last queries are left out.
-/

namespace Cograph.UsageReports

open Grouping

inductive QueryLogSource where
  | mcp
  | rest
  deriving DecidableEq

inductive QueryLogStatus where
  | ok
  | empty
  | error
  deriving DecidableEq

structure QueryLog where
  createdAt : Int
  userId : Option Nat
  userEmailSnapshot : Option Str
  source : QueryLogSource
  status : QueryLogStatus
  resultCount : Option Nat
  tokensInput : Option Int
  tokensOutput : Option Int
  costUsdMicros : Option Int
  deriving DecidableEq

structure User where
  id : Nat
  email : Str
  isActive : Bool
  deriving DecidableEq

/-- The two tables, with the key of `users` and the foreign key of the logs. -/
structure Tables where
  users : List User
  logs : List QueryLog
  ids : (users.map (·.id)).Nodup
  userIds : ∀ log ∈ logs, ∀ i, log.userId = some i → i ∈ users.map (·.id)

structure ApiError where
  status : Nat
  detail : Str
  deriving DecidableEq

/-- `_apply_filters` with the filters the reports set. -/
def applyFilters (since untilTime : Option Int) (logs : List QueryLog) : List QueryLog :=
  logs.filter fun log => since.all (· ≤ log.createdAt) ∧ untilTime.all (log.createdAt ≤ ·)

/-! ## Totals -/

structure QueryLogStats where
  totalCount : Nat
  zeroResultCount : Nat
  errorCount : Nat
  tokensInputTotal : Int
  tokensOutputTotal : Int
  costUsdMicrosTotal : Int
  rowsWithCost : Nat
  deriving DecidableEq

/-- A sum over a nullable column. -/
def total (column : QueryLog → Option Int) (logs : List QueryLog) : Int := (logs.filterMap column).sum

def adminQueryLogsStats (db : Tables) (since untilTime : Option Int) : QueryLogStats :=
  let rows := applyFilters since untilTime db.logs
  { totalCount := rows.length
    zeroResultCount := (rows.filter (·.resultCount = some 0)).length
    errorCount := (rows.filter (·.status = .error)).length
    tokensInputTotal := total (·.tokensInput) rows
    tokensOutputTotal := total (·.tokensOutput) rows
    costUsdMicrosTotal := total (·.costUsdMicros) rows
    rowsWithCost := (rows.filter (·.costUsdMicros.isSome)).length }

/-! ## By users -/

structure UserUsageItem where
  userId : Option Nat
  userEmail : Option Str
  isActive : Option Bool
  isDeleted : Bool
  queryCount : Nat
  mcpCount : Nat
  restCount : Nat
  errorCount : Nat
  zeroResultCount : Nat
  tokensInput : Int
  tokensOutput : Int
  costUsdMicros : Int
  deriving DecidableEq

/-- The aggregates of a group of rows. -/
def UserUsageItem.of (userId : Option Nat) (userEmail : Option Str) (isActive : Option Bool) (isDeleted : Bool)
    (rows : List QueryLog) : UserUsageItem where
  userId := userId
  userEmail := userEmail
  isActive := isActive
  isDeleted := isDeleted
  queryCount := rows.length
  mcpCount := (rows.filter (·.source = .mcp)).length
  restCount := (rows.filter (·.source = .rest)).length
  errorCount := (rows.filter (·.status = .error)).length
  zeroResultCount := (rows.filter (·.resultCount = some 0)).length
  tokensInput := total (·.tokensInput) rows
  tokensOutput := total (·.tokensOutput) rows
  costUsdMicros := total (·.costUsdMicros) rows

/-- The key the items are sorted by. -/
def before (a b : UserUsageItem) : Bool :=
  b.queryCount < a.queryCount ∨
    a.queryCount = b.queryCount ∧ Str.lower (a.userEmail.getD []) ≤ Str.lower (b.userEmail.getD [])

structure UserUsageStats where
  items : List UserUsageItem
  totalUsers : Nat
  activeUsers : Nat

def adminQueryLogsUserStats (db : Tables) (since untilTime : Option Int) : UserUsageStats :=
  let rows := applyFilters since untilTime db.logs
  let window := groupBy (·.userId) rows
  let deletedItems := (groupBy (·.userEmailSnapshot) (rows.filter (·.userId = none))).map fun (email, group) =>
    UserUsageItem.of none email none true group
  let items := db.users.map fun user =>
    let row := (window.find? (·.1 = some user.id)).map (·.2)
    UserUsageItem.of (some user.id) (some user.email) (some user.isActive) false (row.getD [])
  let items := (items ++ deletedItems).mergeSort before
  ⟨items, db.users.length, (items.filter (0 < ·.queryCount)).length⟩

/-! ## Over time -/

inductive Bucket where
  | hour
  | day
  deriving DecidableEq

/-- `_BUCKET_SECONDS`. -/
def Bucket.seconds : Bucket → Nat
  | .hour => 3600
  | .day => 86400

def maxBuckets : Nat := 400

/-- The step in microseconds. -/
def Bucket.step (b : Bucket) : Int := b.seconds * 1000000

theorem Bucket.step_pos (b : Bucket) : 0 < b.step := by
  cases b <;> decide

/-- `_floor`; `int` of the seconds cuts their fraction off. -/
def floor (b : Bucket) (ts : Int) : Int :=
  let epoch := ts.tdiv 1000000
  (epoch - epoch % b.seconds) * 1000000

structure TimeseriesBucket where
  bucketStart : Int
  queryCount : Nat
  mcpCount : Nat
  restCount : Nat
  errorCount : Nat
  tokensInput : Int
  tokensOutput : Int
  costUsdMicros : Int
  deriving DecidableEq

/-- The keys of `by_bucket`, from the cursor on. -/
def cursors (b : Bucket) (untilTime cursor : Int) : List Int :=
  if cursor < untilTime then cursor :: cursors b untilTime (cursor + b.step) else []
  termination_by (untilTime - cursor).toNat
  decreasing_by
    have := b.step_pos
    omega

def TimeseriesBucket.add (slot : TimeseriesBucket) (row : QueryLog) : TimeseriesBucket :=
  { slot with
    queryCount := slot.queryCount + 1
    mcpCount := if row.source = .mcp then slot.mcpCount + 1 else slot.mcpCount
    restCount := if row.source = .mcp then slot.restCount else slot.restCount + 1
    errorCount := if row.status = .error then slot.errorCount + 1 else slot.errorCount
    tokensInput := slot.tokensInput + row.tokensInput.getD 0
    tokensOutput := slot.tokensOutput + row.tokensOutput.getD 0
    costUsdMicros := slot.costUsdMicros + row.costUsdMicros.getD 0 }

/-- One row of the loop over the rows. A row without a slot is passed over. -/
def addRow (b : Bucket) (byBucket : List TimeseriesBucket) (row : QueryLog) : List TimeseriesBucket :=
  byBucket.map fun slot => if slot.bucketStart = floor b row.createdAt then slot.add row else slot

def adminQueryLogsTimeseries (db : Tables) (now : Int) (since untilTime : Option Int) (b : Bucket) :
    Except ApiError (List TimeseriesBucket) :=
  let resolvedUntil := untilTime.getD now
  let resolvedSince := since.getD (resolvedUntil - 30 * 86400 * 1000000)
  if resolvedUntil ≤ resolvedSince then .error ⟨422, "since must precede until".toList⟩
  else
    let spanBuckets := (resolvedUntil - resolvedSince).tdiv 1000000 / b.seconds + 1
    if maxBuckets < spanBuckets then .error ⟨422, "range too wide for bucket".toList⟩
    else
      let rows := applyFilters (some resolvedSince) (some resolvedUntil) db.logs
      let slots := (cursors b resolvedUntil (floor b resolvedSince)).map fun key => ⟨key, 0, 0, 0, 0, 0, 0, 0⟩
      .ok ((rows.foldl (addRow b) slots).mergeSort fun x y => x.bucketStart ≤ y.bucketStart)

end Cograph.UsageReports
