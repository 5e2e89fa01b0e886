import Cograph.UsageReports
import Mathlib.Algebra.BigOperators.Group.List.Basic
import Mathlib.Tactic.Ring
import Mathlib.Tactic.Linarith

/-!
# When the usage reports agree

Each report is measured the same way: queries, errors, tokens and cost. Totals
and users agree on every table. The series counts the rows whose bucket it has,
and it has the buckets from the one of `since` to the last that starts before
`until`.
-/

namespace Cograph.UsageReports

open Grouping

/-! ## Measures -/

inductive Measure where
  | queries
  | errors
  | tokensInput
  | tokensOutput
  | cost
  deriving DecidableEq

def QueryLog.measure (log : QueryLog) : Measure → Int
  | .queries => 1
  | .errors => if log.status = .error then 1 else 0
  | .tokensInput => log.tokensInput.getD 0
  | .tokensOutput => log.tokensOutput.getD 0
  | .cost => log.costUsdMicros.getD 0

def QueryLogStats.measure (s : QueryLogStats) : Measure → Int
  | .queries => s.totalCount
  | .errors => s.errorCount
  | .tokensInput => s.tokensInputTotal
  | .tokensOutput => s.tokensOutputTotal
  | .cost => s.costUsdMicrosTotal

def UserUsageItem.measure (item : UserUsageItem) : Measure → Int
  | .queries => item.queryCount
  | .errors => item.errorCount
  | .tokensInput => item.tokensInput
  | .tokensOutput => item.tokensOutput
  | .cost => item.costUsdMicros

def TimeseriesBucket.measure (slot : TimeseriesBucket) : Measure → Int
  | .queries => slot.queryCount
  | .errors => slot.errorCount
  | .tokensInput => slot.tokensInput
  | .tokensOutput => slot.tokensOutput
  | .cost => slot.costUsdMicros

theorem total_eq (column : QueryLog → Option Int) (rows : List QueryLog) :
    total column rows = (rows.map fun row => (column row).getD 0).sum := by
  induction rows with
  | nil => rfl
  | cons row rows ih =>
    simp only [total] at ih
    cases h : column row <;> simp [total, h, ih]

theorem length_filter (p : QueryLog → Bool) (rows : List QueryLog) :
    ((rows.filter p).length : Int) = (rows.map fun row => if p row then 1 else 0).sum := by
  induction rows with
  | nil => rfl
  | cons row rows ih =>
    cases h : p row
    · simp [h, ih]
    · simp only [List.filter_cons, h, if_true, List.length_cons, Nat.cast_add, Nat.cast_one, List.map_cons, List.sum_cons, ih]
      ring

theorem stats_measure (db : Tables) (since untilTime : Option Int) (m : Measure) :
    (adminQueryLogsStats db since untilTime).measure m =
      ((applyFilters since untilTime db.logs).map (·.measure m)).sum := by
  cases m with
  | queries => simp [adminQueryLogsStats, QueryLogStats.measure, QueryLog.measure]
  | errors => simp [adminQueryLogsStats, QueryLogStats.measure, QueryLog.measure, length_filter]
  | tokensInput | tokensOutput | cost => exact total_eq _ _

theorem item_measure (userId : Option Nat) (userEmail : Option Str) (isActive : Option Bool) (isDeleted : Bool)
    (rows : List QueryLog) (m : Measure) :
    (UserUsageItem.of userId userEmail isActive isDeleted rows).measure m = (rows.map (·.measure m)).sum := by
  cases m with
  | queries => simp [UserUsageItem.of, UserUsageItem.measure, QueryLog.measure]
  | errors => simp [UserUsageItem.of, UserUsageItem.measure, QueryLog.measure, length_filter]
  | tokensInput | tokensOutput | cost => exact total_eq _ _

/-! ## Users -/

theorem group_getD (rows : List QueryLog) (i : Nat) :
    (((groupBy (·.userId) rows).find? (·.1 = some i)).map (·.2)).getD [] = rows.filter (·.userId = some i) := by
  rw [find_groupBy]
  split
  · rfl
  · rename_i hnone
    symm
    rw [Option.getD_none, List.filter_eq_nil_iff]
    intro row hrow
    simpa using fun h => hnone (List.mem_map.2 ⟨row, hrow, h⟩)

/-- The rows of users and the rows of nobody are all the rows. -/
theorem sum_users (db : Tables) {rows : List QueryLog} (hrows : ∀ row ∈ rows, row ∈ db.logs) (f : QueryLog → Int) :
    (db.users.map fun user => ((rows.filter (·.userId = some user.id)).map f).sum).sum +
      ((rows.filter (·.userId = none)).map f).sum = (rows.map f).sum := by
  have hn : (none :: db.users.map fun user => some user.id).Nodup := by
    rw [List.nodup_cons]
    refine ⟨by simp, ?_⟩
    have := db.ids.map (Option.some_injective Nat)
    simpa [List.map_map, Function.comp_def] using this
  have hsum := sum_keys (·.userId) f hn rows
  have hall : ∀ row ∈ rows, row.userId ∈ none :: db.users.map fun user => some user.id := by
    intro row hrow
    cases hid : row.userId with
    | none => simp
    | some i => simpa using db.userIds row (hrows row hrow) i hid
  rw [List.filter_eq_self.2 (by simpa using hall), List.map_cons, List.sum_cons, List.map_map] at hsum
  rw [← hsum, add_comm]
  rfl

theorem filters_sub (db : Tables) (since untilTime : Option Int) :
    ∀ row ∈ applyFilters since untilTime db.logs, row ∈ db.logs := fun _ h => List.mem_of_mem_filter h

theorem users_measure (db : Tables) (since untilTime : Option Int) (m : Measure) :
    ((adminQueryLogsUserStats db since untilTime).items.map (·.measure m)).sum =
      ((applyFilters since untilTime db.logs).map (·.measure m)).sum := by
  rw [adminQueryLogsUserStats, (List.Perm.map _ (List.mergeSort_perm _ _)).sum_eq, List.map_append, List.sum_append,
    List.map_map, List.map_map]
  have hdeleted := sum_groupBy (·.userEmailSnapshot) (·.measure m)
    ((applyFilters since untilTime db.logs).filter (·.userId = none))
  simp only [Function.comp_def, item_measure, group_getD]
  rw [hdeleted]
  exact sum_users db (filters_sub db since untilTime) (·.measure m)

/-! ## Buckets -/

theorem floor_dvd (b : Bucket) (ts : Int) : b.step ∣ floor b ts := by
  have hmod : (b.seconds : Int) ∣ ts.tdiv 1000000 - ts.tdiv 1000000 % b.seconds := Int.dvd_self_sub_emod
  obtain ⟨k, hk⟩ := hmod
  refine ⟨k, ?_⟩
  simp only [floor, Bucket.step, hk]
  ring

theorem floor_mono (b : Bucket) {x y : Int} (h : x ≤ y) : floor b x ≤ floor b y := by
  have hcut : x.tdiv 1000000 ≤ y.tdiv 1000000 := Int.tdiv_le_tdiv (by decide) h
  have hpos : 0 < (b.seconds : Int) := by cases b <;> decide
  have hx := Int.mul_ediv_add_emod (x.tdiv 1000000) b.seconds
  have hy := Int.mul_ediv_add_emod (y.tdiv 1000000) b.seconds
  have hdiv := Int.ediv_le_ediv hpos hcut
  have hle : (b.seconds : Int) * (x.tdiv 1000000 / b.seconds) ≤ b.seconds * (y.tdiv 1000000 / b.seconds) :=
    Int.mul_le_mul_of_nonneg_left hdiv hpos.le
  simp only [floor]
  omega

theorem mem_cursors {b : Bucket} {untilTime cursor x : Int} :
    x ∈ cursors b untilTime cursor ↔ cursor ≤ x ∧ x < untilTime ∧ b.step ∣ x - cursor := by
  fun_induction cursors b untilTime cursor with
  | case1 cursor hlt ih =>
    have hstep := b.step_pos
    rw [List.mem_cons, ih]
    constructor
    · rintro (rfl | ⟨hle, hbound, k, hk⟩)
      · exact ⟨le_refl _, hlt, by simp⟩
      · refine ⟨by omega, hbound, k + 1, ?_⟩
        linarith
    · rintro ⟨hle, hbound, k, hk⟩
      by_cases hx : x = cursor
      · exact .inl hx
      · right
        have hkpos : 1 ≤ k := by
          by_contra hneg
          have hk0 : k ≤ 0 := by omega
          have := Int.mul_nonpos_of_nonneg_of_nonpos hstep.le hk0
          omega
        have hge : b.step ≤ b.step * k := by nlinarith
        refine ⟨by omega, hbound, k - 1, ?_⟩
        linarith
  | case2 cursor hge =>
    simp only [List.not_mem_nil, false_iff]
    omega

theorem cursors_consecutive (b : Bucket) (untilTime cursor : Int) :
    (cursors b untilTime cursor).IsChain fun x y => y = x + b.step := by
  fun_induction cursors b untilTime cursor with
  | case1 cursor hlt ih =>
    rw [List.isChain_cons]
    refine ⟨?_, ih⟩
    intro y hy
    rw [cursors] at hy
    split at hy
    · simpa using hy.symm
    · simp at hy
  | case2 cursor hge => exact List.isChain_nil

theorem cursors_sorted (b : Bucket) (untilTime cursor : Int) : (cursors b untilTime cursor).Pairwise (· < ·) := by
  have hstep := b.step_pos
  fun_induction cursors b untilTime cursor with
  | case1 cursor hlt ih =>
    rw [List.pairwise_cons]
    refine ⟨?_, ih⟩
    intro x hx
    have := (mem_cursors.1 hx).1
    omega
  | case2 cursor hge => exact List.Pairwise.nil

theorem cursors_length (b : Bucket) (untilTime : Int) :
    ∀ (n : Nat) (cursor : Int), (cursors b untilTime cursor).length ≤ n ↔ untilTime ≤ cursor + n * b.step := by
  have hstep := b.step_pos
  intro n
  induction n with
  | zero =>
    intro cursor
    rw [cursors]
    split
    · simp
      omega
    · simp
      omega
  | succ n ih =>
    intro cursor
    rw [cursors]
    split
    · rw [List.length_cons, Nat.add_le_add_iff_right, ih]
      push_cast
      constructor <;> intro h <;> linarith
    · have : 0 ≤ (n + 1 : Int) * b.step := by positivity
      simp only [List.length_nil, Nat.zero_le, true_iff]
      push_cast
      omega

/-! ## The series -/

theorem add_measure (slot : TimeseriesBucket) (row : QueryLog) (m : Measure) :
    (slot.add row).measure m = slot.measure m + row.measure m := by
  cases m with
  | errors => by_cases h : row.status = .error <;> simp [TimeseriesBucket.measure, TimeseriesBucket.add, QueryLog.measure, h]
  | queries | tokensInput | tokensOutput | cost => rfl

theorem addRow_starts (b : Bucket) (slots : List TimeseriesBucket) (row : QueryLog) :
    (addRow b slots row).map (·.bucketStart) = slots.map (·.bucketStart) := by
  rw [addRow, List.map_map]
  apply List.map_congr_left
  intro slot _
  by_cases h : slot.bucketStart = floor b row.createdAt <;> simp [h, TimeseriesBucket.add]

theorem addRow_measure (b : Bucket) (slots : List TimeseriesBucket) (row : QueryLog) (m : Measure)
    (hn : (slots.map (·.bucketStart)).Nodup) :
    ((addRow b slots row).map (·.measure m)).sum = (slots.map (·.measure m)).sum +
      if floor b row.createdAt ∈ slots.map (·.bucketStart) then row.measure m else 0 := by
  have hslot (slot : TimeseriesBucket) : (if slot.bucketStart = floor b row.createdAt then slot.add row else slot).measure m =
      slot.measure m + if floor b row.createdAt = slot.bucketStart then row.measure m else 0 := by
    by_cases h : slot.bucketStart = floor b row.createdAt
    · simp [h, add_measure]
    · have h' : floor b row.createdAt ≠ slot.bucketStart := fun e => h e.symm
      simp [h, h']
  have hkeys := sum_indicator hn (floor b row.createdAt) (row.measure m)
  rw [List.map_map] at hkeys
  rw [addRow, List.map_map, ← hkeys, ← List.sum_map_add]
  congr 1
  apply List.map_congr_left
  intro slot _
  exact hslot slot

theorem foldl_starts (b : Bucket) (rows : List QueryLog) (slots : List TimeseriesBucket) :
    (rows.foldl (addRow b) slots).map (·.bucketStart) = slots.map (·.bucketStart) := by
  induction rows generalizing slots with
  | nil => rfl
  | cons row rows ih => rw [List.foldl_cons, ih, addRow_starts]

theorem foldl_measure (b : Bucket) (rows : List QueryLog) (m : Measure) (slots : List TimeseriesBucket)
    (hn : (slots.map (·.bucketStart)).Nodup) :
    ((rows.foldl (addRow b) slots).map (·.measure m)).sum = (slots.map (·.measure m)).sum +
      ((rows.filter fun row => floor b row.createdAt ∈ slots.map (·.bucketStart)).map (·.measure m)).sum := by
  induction rows generalizing slots with
  | nil => simp
  | cons row rows ih =>
    have hstarts := addRow_starts b slots row
    rw [List.foldl_cons, ih _ (by rw [hstarts]; exact hn), addRow_measure b slots row m hn, hstarts]
    by_cases h : floor b row.createdAt ∈ slots.map (·.bucketStart)
    · rw [if_pos h, List.filter_cons, if_pos (by simpa using h), List.map_cons, List.sum_cons]
      ring
    · rw [if_neg h, List.filter_cons, if_neg (by simpa using h)]
      ring

theorem mem_filters {since untilTime : Int} {logs : List QueryLog} {log : QueryLog} :
    log ∈ applyFilters (some since) (some untilTime) logs ↔
      log ∈ logs ∧ since ≤ log.createdAt ∧ log.createdAt ≤ untilTime := by
  simp [applyFilters]

/-- A row of the window has its bucket just when the bucket starts before the
end. -/
theorem bucket_listed {b : Bucket} {since untilTime ts : Int} (h : since ≤ ts) :
    floor b ts ∈ cursors b untilTime (floor b since) ↔ floor b ts < untilTime := by
  rw [mem_cursors]
  constructor
  · intro hmem
    exact hmem.2.1
  · intro hlt
    exact ⟨floor_mono b h, hlt, Int.dvd_sub (floor_dvd b ts) (floor_dvd b since)⟩

def emptySlots (b : Bucket) (since untilTime : Int) : List TimeseriesBucket :=
  (cursors b untilTime (floor b since)).map fun key => ⟨key, 0, 0, 0, 0, 0, 0, 0⟩

theorem emptySlots_starts (b : Bucket) (since untilTime : Int) :
    (emptySlots b since untilTime).map (·.bucketStart) = cursors b untilTime (floor b since) := by
  simp [emptySlots, Function.comp_def]

theorem emptySlots_measure (b : Bucket) (since untilTime : Int) (m : Measure) :
    ((emptySlots b since untilTime).map (·.measure m)).sum = 0 := by
  have hzero : (fun slot : TimeseriesBucket => slot.measure m) ∘
      (fun key => (⟨key, 0, 0, 0, 0, 0, 0, 0⟩ : TimeseriesBucket)) = fun _ => 0 := by
    funext key
    cases m <;> rfl
  rw [emptySlots, List.map_map, hzero]
  simp

section
variable {db : Tables} {now since untilTime : Int} {b : Bucket} {items : List TimeseriesBucket}

/-- The series of an accepted window, whose slots are in order already. -/
theorem timeseries_ok (h : adminQueryLogsTimeseries db now (some since) (some untilTime) b = .ok items) :
    items = (applyFilters (some since) (some untilTime) db.logs).foldl (addRow b) (emptySlots b since untilTime) := by
  simp only [adminQueryLogsTimeseries, Option.getD_some] at h
  split_ifs at h with hwindow hspan
  rw [← Except.ok.inj h]
  apply List.mergeSort_of_pairwise
  have hsorted := cursors_sorted b untilTime (floor b since)
  rw [← emptySlots_starts, ← foldl_starts b (applyFilters (some since) (some untilTime) db.logs), List.pairwise_map]
    at hsorted
  apply hsorted.imp
  intro x y hlt
  simpa using hlt.le

theorem timeseries_starts (h : adminQueryLogsTimeseries db now (some since) (some untilTime) b = .ok items) :
    items.map (·.bucketStart) = cursors b untilTime (floor b since) := by
  rw [timeseries_ok h, foldl_starts, emptySlots_starts]

theorem timeseries_measure (h : adminQueryLogsTimeseries db now (some since) (some untilTime) b = .ok items)
    (m : Measure) : (items.map (·.measure m)).sum =
      (((applyFilters (some since) (some untilTime) db.logs).filter fun row => floor b row.createdAt < untilTime).map
        (·.measure m)).sum := by
  have hn : ((emptySlots b since untilTime).map (·.bucketStart)).Nodup := by
    rw [emptySlots_starts]
    exact (cursors_sorted b untilTime (floor b since)).imp fun hlt => hlt.ne
  rw [timeseries_ok h, foldl_measure b _ m _ hn, emptySlots_measure, zero_add, emptySlots_starts]
  congr 2
  apply List.filter_congr
  intro row hrow
  simp only [bucket_listed (mem_filters.1 hrow).2.1]

end

/-! ## The reports together -/

/-- The three reports of a window measure the same, and the series has at most
`_MAX_BUCKETS` consecutive buckets that start at multiples of the step. -/
structure ReportsAgree (db : Tables) (since untilTime : Int) (b : Bucket) (items : List TimeseriesBucket) : Prop where
  users : ∀ m, (adminQueryLogsStats db (some since) (some untilTime)).measure m =
    ((adminQueryLogsUserStats db (some since) (some untilTime)).items.map (·.measure m)).sum
  series : ∀ m, (adminQueryLogsStats db (some since) (some untilTime)).measure m = (items.map (·.measure m)).sum
  consecutive : (items.map (·.bucketStart)).IsChain fun x y => y = x + b.step
  aligned : ∀ slot ∈ items, b.step ∣ slot.bucketStart
  bounded : items.length ≤ maxBuckets

/-- No query of the window falls into a bucket that starts at its end or later,
and the window has at most `_MAX_BUCKETS` steps from the start of its first
bucket on. -/
structure Fits (db : Tables) (since untilTime : Int) (b : Bucket) : Prop where
  inside : ∀ log ∈ db.logs, since ≤ log.createdAt → log.createdAt ≤ untilTime → floor b log.createdAt < untilTime
  bounded : untilTime ≤ floor b since + maxBuckets * b.step

/-- Since 1970 only a query at the very end can fall there, and only where the
end is the start of a bucket. -/
theorem floor_lt_iff {b : Bucket} {ts untilTime : Int} (hpos : 0 ≤ ts) (hle : ts ≤ untilTime) :
    floor b ts < untilTime ↔ ¬(ts = untilTime ∧ b.step ∣ untilTime) := by
  have hseconds : 0 < (b.seconds : Int) := by cases b <;> decide
  have hcut : ts.tdiv 1000000 = ts / 1000000 := Int.tdiv_eq_ediv_of_nonneg hpos
  have hmod := Int.emod_nonneg (ts / 1000000) hseconds.ne'
  have hfloor : floor b ts ≤ ts := by
    simp only [floor, hcut]
    omega
  constructor
  · rintro hlt ⟨rfl, k, hk⟩
    have hwhole : ts / 1000000 = b.seconds * k := by
      rw [hk, Bucket.step, mul_right_comm]
      exact Int.mul_ediv_cancel _ (by decide)
    have : floor b ts = ts := by
      simp only [floor, hcut, hwhole, Int.mul_emod_right]
      rw [hk, Bucket.step]
      ring
    omega
  · intro hnot
    rcases lt_or_eq_of_le hle with hlt | rfl
    · omega
    · rcases lt_or_eq_of_le hfloor with hlt | heq
      · exact hlt
      · exact absurd ⟨rfl, heq ▸ floor_dvd b ts⟩ hnot

/-- **When the usage reports agree.** -/
theorem usage_reports_iff (db : Tables) (now since untilTime : Int) (b : Bucket) (items : List TimeseriesBucket)
    (h : adminQueryLogsTimeseries db now (some since) (some untilTime) b = .ok items) :
    ReportsAgree db since untilTime b items ↔ Fits db since untilTime b := by
  have hstarts := timeseries_starts h
  have hlength : items.length = (cursors b untilTime (floor b since)).length := by
    rw [← hstarts, List.length_map]
  have hbounded : items.length ≤ maxBuckets ↔ untilTime ≤ floor b since + maxBuckets * b.step := by
    rw [hlength, cursors_length]
  constructor
  · intro hagree
    refine ⟨?_, hbounded.1 hagree.bounded⟩
    have hcount := hagree.series .queries
    rw [stats_measure, timeseries_measure h] at hcount
    simp only [QueryLog.measure, List.map_const', List.sum_replicate, nsmul_eq_mul, mul_one, Nat.cast_inj] at hcount
    have hall := List.length_filter_eq_length_iff.1 hcount.symm
    intro log hlog hsince huntil
    simpa using hall log (mem_filters.2 ⟨hlog, hsince, huntil⟩)
  · intro hfits
    refine ⟨?_, ?_, ?_, ?_, hbounded.2 hfits.bounded⟩
    · intro m
      rw [stats_measure, users_measure]
    · intro m
      have hall : ∀ row ∈ applyFilters (some since) (some untilTime) db.logs, floor b row.createdAt < untilTime := by
        intro row hrow
        obtain ⟨hlog, hsince, huntil⟩ := mem_filters.1 hrow
        exact hfits.inside row hlog hsince huntil
      rw [stats_measure, timeseries_measure h, List.filter_eq_self.2 (by simpa using hall)]
    · rw [hstarts]
      exact cursors_consecutive b untilTime (floor b since)
    · intro slot hslot
      have hmem : slot.bucketStart ∈ cursors b untilTime (floor b since) := by
        rw [← hstarts]
        exact List.mem_map_of_mem hslot
      have hdvd := Int.dvd_add (mem_cursors.1 hmem).2.2 (floor_dvd b since)
      simpa using hdvd

/-! ## One query on the hour -/

def query (createdAt : Int) : QueryLog := ⟨createdAt, none, none, .mcp, .ok, none, none, none, none⟩

def oneQuery (createdAt : Int) : Tables := ⟨[], [query createdAt], by decide, by simp [query]⟩

theorem usage_reports_inside : ∃ items,
    adminQueryLogsTimeseries (oneQuery 1000000) 0 (some 0) (some 3600000000) .hour = .ok items ∧
      ReportsAgree (oneQuery 1000000) 0 3600000000 .hour items := by
  refine ⟨_, rfl, (usage_reports_iff _ 0 0 3600000000 .hour _ rfl).2 ⟨?_, by decide⟩⟩
  intro log hlog _ _
  obtain rfl := List.mem_singleton.1 hlog
  decide

/-- The query of the last instant is in the totals and in no bucket. -/
theorem last_instant_dropped : ¬∀ (db : Tables) (now since untilTime : Int) (b : Bucket) (items : List TimeseriesBucket),
    adminQueryLogsTimeseries db now (some since) (some untilTime) b = .ok items →
      ReportsAgree db since untilTime b items := by
  intro h
  have hok : adminQueryLogsTimeseries (oneQuery 3600000000) 0 (some 0) (some 3600000000) .hour = .ok _ := rfl
  have hcount := (h _ 0 0 3600000000 .hour _ hok).series .queries
  rw [stats_measure, timeseries_measure hok] at hcount
  simp [applyFilters, oneQuery, query, floor, Bucket.seconds, QueryLog.measure] at hcount

end Cograph.UsageReports
