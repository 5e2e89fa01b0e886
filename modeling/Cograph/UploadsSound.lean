import Cograph.Uploads

/-!
# When upload progress is exact

The counter of the row is compared with the documents of the requests that have
succeeded. As long as each request advances from the count the row still has,
the two agree; once one does not, the row and every copy of it are behind for
good.
-/

namespace Cograph.Uploads

/-! ## Sums over a list with one place changed -/

theorem sum_set {α : Type} (f : α → Nat) {l : List α} {i : Nat} {a : α} (h : l[i]? = some a) (b : α) :
    ((l.set i b).map f).sum + f a = (l.map f).sum + f b := by
  induction l generalizing i with
  | nil => simp at h
  | cons c l ih =>
    cases i with
    | zero =>
      obtain rfl : c = a := by simpa using h
      simp only [List.set_cons_zero, List.map_cons, List.sum_cons]
      omega
    | succ i =>
      have := ih (i := i) (by simpa using h)
      simp only [List.set_cons_succ, List.map_cons, List.sum_cons]
      omega

/-! ## The row -/

theorem attach_ok {collectionId : Nat} {job : Option MdJob} {j : MdJob} (h : attachUploadJob collectionId job = .ok j) :
    job = some j ∧ (j.status = .queued ∨ j.status = .running) := by
  cases job with
  | none => simp [attachUploadJob] at h
  | some j' =>
    simp only [attachUploadJob] at h
    split_ifs at h with hcollection hkind hstatus
    obtain rfl := Except.ok.inj h
    refine ⟨rfl, ?_⟩
    tauto

/-- An empty batch that finds a counter in its copy does not write the column. -/
def Idle (job : MdJob) (batch : Batch) : Prop := batch.documents = 0 ∧ job.resultSummary.processed ≠ none

instance (job : MdJob) (batch : Batch) : Decidable (Idle job batch) := inferInstanceAs (Decidable (_ ∧ _))

theorem idle_iff (job : MdJob) (batch : Batch) :
    { job.resultSummary with processed := some (job.processed + batch.documents) } = job.resultSummary ↔
      Idle job batch := by
  obtain ⟨collectionId, kind, status, ⟨total, processed⟩⟩ := job
  cases processed with
  | none => simp [Idle]
  | some n => simp [Idle, MdJob.processed]

theorem advance_processed (job row : MdJob) (batch : Batch) :
    (advanceUploadJob job batch row).processed =
      if Idle job batch then row.processed else job.processed + batch.documents := by
  by_cases h : Idle job batch
  · have hsame := (idle_iff job batch).2 h
    rw [if_pos h, MdJob.processed, advanceUploadJob, if_pos hsame]
    simp [MdJob.processed]
  · have hdiffer := mt (idle_iff job batch).1 h
    rw [if_neg h, MdJob.processed, advanceUploadJob, if_neg hdiffer]
    simp

/-! ## What a step does -/

/-- `Live` requests of `s'` are requests of `s` that were live with the same
copy. -/
def Fewer (s s' : System) : Prop := ∀ r' ∈ s'.requests, r'.Live → ∃ r ∈ s.requests, r.Live ∧ r.job = r'.job

inductive Moved (s : System) : Action → System → Prop
  | quiet {a : Action} {s' : System} (hjob : s'.job = s.job) (hsum : s'.uploaded = s.uploaded) (hlive : Fewer s s')
    (ha : ∀ i, a ≠ .advance i) : Moved s a s'
  | joined {a : Action} {batch : Batch} {j : MdJob}
    (hjob : s.job = none ∧ j.resultSummary.processed = some 0 ∨ s.job = some j) (ha : ∀ i, a ≠ .advance i) :
    Moved s a ⟨some j, s.requests ++ [⟨batch, j, .attached⟩]⟩
  | advanced {i : Nat} {r : Request} {row : MdJob} {s' : System} (hr : s.requests[i]? = some r) (hstage : r.stage = .stored)
    (hrow : s.job = some row) (hjob : s'.job = some (advanceUploadJob r.job r.batch row))
    (hsum : s'.uploaded = s.uploaded + r.batch.documents) (hlive : Fewer s s') : Moved s (.advance i) s'

theorem moved_live {s : System} {i : Nat} {r : Request} {stage : Stage} (hr : s.requests[i]? = some r) (hlive : r.Live)
    (job : Option MdJob) : Fewer s ⟨job, s.moved i r stage⟩ := by
  intro r' hr' hlive'
  rcases List.mem_or_eq_of_mem_set hr' with hr' | rfl
  · exact ⟨r', hr', hlive', rfl⟩
  · exact ⟨r, List.mem_of_getElem? hr, hlive, rfl⟩

theorem moved_uploaded {s : System} {i : Nat} {r : Request} (stage : Stage) (hr : s.requests[i]? = some r)
    (hlive : r.Live) (job : Option MdJob) :
    System.uploaded ⟨job, s.moved i r stage⟩ = s.uploaded + if stage = .done then r.batch.documents else 0 := by
  have hsum := sum_set (fun r => if r.stage = .done then r.batch.documents else 0) hr { r with stage := stage }
  have hnot : r.stage ≠ .done := by
    intro h
    simp [Request.Live, h] at hlive
  simpa [System.uploaded, System.moved, hnot] using hsum

theorem next_moved {s s' : System} {a : Action} (h : s.next a = some s') : Moved s a s' := by
  cases a with
  | create batch uploadTotal =>
    cases hjob : s.job with
    | some job => simp [System.next, hjob] at h
    | none =>
      simp only [System.next, hjob, Option.some.injEq] at h
      subst h
      exact .joined (.inl ⟨hjob, rfl⟩) (by simp)
  | attach batch =>
    cases hattach : attachUploadJob batch.collectionId s.job with
    | error e =>
      simp only [System.next, hattach, Option.some.injEq] at h
      subst h
      exact .quiet rfl rfl (fun r hr hl => ⟨r, hr, hl, rfl⟩) (by simp)
    | ok job =>
      obtain ⟨hjob, -⟩ := attach_ok hattach
      simp only [System.next, hattach, Option.some.injEq] at h
      subst h
      rw [hjob]
      exact .joined (.inr hjob) (by simp)
  | upsert i =>
    cases hr : s.requests[i]? with
    | none => simp [System.next, hr] at h
    | some r =>
      simp only [System.next, hr] at h
      split_ifs at h with hstage
      obtain rfl := Option.some.inj h
      have hlive : r.Live := .inl hstage
      refine .quiet rfl ?_ (moved_live hr hlive s.job) (by simp)
      simpa using moved_uploaded .stored hr hlive s.job
  | advance i =>
    cases hr : s.requests[i]? with
    | none => simp [System.next, hr] at h
    | some r =>
      cases hrow : s.job with
      | none => simp [System.next, hr, hrow] at h
      | some row =>
        simp only [System.next, hr, hrow] at h
        split_ifs at h with hstage
        obtain rfl := Option.some.inj h
        have hlive : r.Live := .inr hstage
        refine .advanced hr hstage hrow rfl ?_ (moved_live hr hlive _)
        simpa using moved_uploaded .done hr hlive (some (advanceUploadJob r.job r.batch row))
  | fail i =>
    cases hr : s.requests[i]? with
    | none => simp [System.next, hr] at h
    | some r =>
      simp only [System.next, hr] at h
      split_ifs at h with hlive
      obtain rfl := Option.some.inj h
      refine .quiet rfl ?_ (moved_live hr hlive s.job) (by simp)
      simpa using moved_uploaded .failed hr hlive s.job

/-! ## Counting -/

/-- The request advances the count that the row has, or writes none. -/
def Counts (s : System) : Action → Prop
  | .advance i => ∀ r row, s.requests[i]? = some r → s.job = some row →
    Idle r.job r.batch ∨ r.job.processed = row.processed
  | _ => True

/-- No copy is ahead of the documents counted so far, nor is the row behind. -/
structure Exact (s : System) : Prop where
  row : s.processed = s.uploaded
  copies : ∀ r ∈ s.requests, r.Live → r.job.processed ≤ s.uploaded

structure Behind (s : System) : Prop where
  row : s.processed < s.uploaded
  copies : ∀ r ∈ s.requests, r.Live → r.job.processed < s.uploaded

theorem initial_exact {s : System} (h : s.Initial) : Exact s := by
  obtain ⟨hrequests, hprocessed⟩ := h
  refine ⟨?_, ?_⟩
  · simp [hprocessed, System.uploaded, hrequests]
  · simp [hrequests]

theorem joined_processed {s : System} {j : MdJob}
    (h : s.job = none ∧ j.resultSummary.processed = some 0 ∨ s.job = some j) : j.processed = s.processed := by
  rcases h with ⟨hjob, hzero⟩ | hjob
  · simp [System.processed, MdJob.processed, hjob, hzero]
  · simp [System.processed, hjob]

theorem joined_uploaded {s : System} {batch : Batch} {j : MdJob} :
    System.uploaded ⟨some j, s.requests ++ [⟨batch, j, .attached⟩]⟩ = s.uploaded := by
  simp [System.uploaded]

theorem joined_copies {s : System} {batch : Batch} {j : MdJob} {P : MdJob → Prop} (hj : P j)
    (h : ∀ r ∈ s.requests, r.Live → P r.job) :
    ∀ r ∈ s.requests ++ [(⟨batch, j, .attached⟩ : Request)], r.Live → P r.job := by
  intro r hr hlive
  rcases List.mem_append.1 hr with hr | hr
  · exact h r hr hlive
  · obtain rfl := List.mem_singleton.1 hr
    exact hj

theorem fewer_copies {s s' : System} (hlive : Fewer s s') {P : MdJob → Prop}
    (h : ∀ r ∈ s.requests, r.Live → P r.job) : ∀ r ∈ s'.requests, r.Live → P r.job := by
  intro r' hr' hl'
  obtain ⟨r, hr, hl, hjob⟩ := hlive r' hr' hl'
  rw [← hjob]
  exact h r hr hl

theorem exact_step {s s' : System} {a : Action} (hs : Exact s) (hok : Counts s a) (h : s.next a = some s') :
    Exact s' := by
  cases next_moved h with
  | quiet hjob hsum hlive _ =>
    refine ⟨?_, ?_⟩
    · simpa [System.processed, hjob, hsum] using hs.row
    · rw [hsum]
      exact fewer_copies hlive (P := (·.processed ≤ s.uploaded)) hs.copies
  | joined hjob _ =>
    refine ⟨?_, ?_⟩
    · rw [joined_uploaded, ← hs.row, ← joined_processed hjob]
      simp [System.processed]
    · rw [joined_uploaded]
      apply joined_copies (P := (·.processed ≤ s.uploaded)) _ hs.copies
      rw [joined_processed hjob, hs.row]
  | @advanced i r row _ hr hstage hrow hjob hsum hlive =>
    have hcount : s'.processed = s.processed + r.batch.documents := by
      have hbefore : s.processed = row.processed := by simp [System.processed, hrow]
      have hafter : s'.processed = (advanceUploadJob r.job r.batch row).processed := by simp [System.processed, hjob]
      rw [hafter, hbefore, advance_processed]
      by_cases hidle : Idle r.job r.batch
      · simp [hidle, hidle.1]
      · rw [if_neg hidle, (hok r row hr hrow).resolve_left hidle]
    refine ⟨?_, ?_⟩
    · rw [hcount, hsum, hs.row]
    · apply fewer_copies hlive (P := (·.processed ≤ s'.uploaded))
      intro r hr hl
      have := hs.copies r hr hl
      omega

structure Keyed (s : System) : Prop where
  row : ∀ job, s.job = some job → job.resultSummary.processed ≠ none
  copies : ∀ r ∈ s.requests, r.Live → r.job.resultSummary.processed ≠ none

theorem advance_keyed {job row : MdJob} {batch : Batch} (h : row.resultSummary.processed ≠ none) :
    (advanceUploadJob job batch row).resultSummary.processed ≠ none := by
  simp only [advanceUploadJob]
  split
  · exact h
  · simp

theorem keyed_step {s s' : System} {a : Action} (hs : Keyed s) (h : s.next a = some s') : Keyed s' := by
  have hold {s' : System} (hlive : Fewer s s') := fewer_copies hlive (P := (·.resultSummary.processed ≠ none)) hs.copies
  cases next_moved h with
  | quiet hjob _ hlive _ => exact ⟨by simpa [hjob] using hs.row, hold hlive⟩
  | @joined _ _ j hjob _ =>
    have hkey : j.resultSummary.processed ≠ none := by
      rcases hjob with ⟨-, hzero⟩ | hjob
      · simp [hzero]
      · exact hs.row j hjob
    refine ⟨?_, joined_copies (P := (·.resultSummary.processed ≠ none)) hkey hs.copies⟩
    intro job hj
    obtain rfl := Option.some.inj hj
    exact hkey
  | @advanced i r row _ _ _ hrow hjob _ hlive =>
    refine ⟨?_, hold hlive⟩
    intro job hj
    rw [hjob] at hj
    obtain rfl := Option.some.inj hj
    exact advance_keyed (hs.row row hrow)

/-- A request that advances another count leaves the row behind. -/
theorem exact_step_behind {s s' : System} {a : Action} (hs : Exact s) (hkeyed : Keyed s) (hok : ¬Counts s a)
    (h : s.next a = some s') : Behind s' := by
  cases next_moved h with
  | quiet _ _ _ ha | joined _ ha =>
    cases a with
    | advance i => exact absurd rfl (ha i)
    | create | attach | upsert | fail => exact absurd trivial hok
  | @advanced i r row _ hr hstage hrow hjob hsum hlive =>
    have hrmem : r ∈ s.requests := List.mem_of_getElem? hr
    have hother : ¬Idle r.job r.batch ∧ r.job.processed ≠ row.processed := by
      simpa [Counts, hr, hrow] using hok
    have hrow' : s.processed = row.processed := by simp [System.processed, hrow]
    have hlt : r.job.processed < s.uploaded := by
      have hle := hs.copies r hrmem (.inr hstage)
      have heq := hs.row
      have hne := hother.2
      omega
    have hpositive : 0 < r.batch.documents := by
      apply Nat.pos_of_ne_zero
      intro hzero
      exact hother.1 ⟨hzero, hkeyed.copies r hrmem (.inr hstage)⟩
    have hcount : s'.processed = r.job.processed + r.batch.documents := by
      have hafter : s'.processed = (advanceUploadJob r.job r.batch row).processed := by simp [System.processed, hjob]
      rw [hafter, advance_processed, if_neg hother.1]
    refine ⟨by omega, ?_⟩
    apply fewer_copies hlive (P := (·.processed < s'.uploaded))
    intro r hr hl
    have hle := hs.copies r hr hl
    omega

theorem behind_step {s s' : System} {a : Action} (hs : Behind s) (h : s.next a = some s') : Behind s' := by
  cases next_moved h with
  | quiet hjob hsum hlive _ =>
    refine ⟨?_, ?_⟩
    · simpa [System.processed, hjob, hsum] using hs.row
    · rw [hsum]
      exact fewer_copies hlive (P := (·.processed < s.uploaded)) hs.copies
  | joined hjob _ =>
    have hlt := hs.row
    rw [← joined_processed hjob] at hlt
    refine ⟨?_, ?_⟩
    · rw [joined_uploaded]
      simpa [System.processed] using hlt
    · rw [joined_uploaded]
      exact joined_copies (P := (·.processed < s.uploaded)) hlt hs.copies
  | @advanced i r row _ hr hstage hrow hjob hsum hlive =>
    have hcopy := hs.copies r (List.mem_of_getElem? hr) (.inr hstage)
    have hrow' : s.processed = row.processed := by simp [System.processed, hrow]
    have hafter : s'.processed = (advanceUploadJob r.job r.batch row).processed := by simp [System.processed, hjob]
    refine ⟨?_, ?_⟩
    · have hlt := hs.row
      rw [hafter, advance_processed]
      split <;> omega
    · apply fewer_copies hlive (P := (·.processed < s'.uploaded))
      intro r hr hl
      have hlt := hs.copies r hr hl
      omega

/-! ## The end of an upload -/

/-- The request does not take a finished row back to running. -/
def Settles (s : System) : Action → Prop
  | .advance i => ∀ r row, s.requests[i]? = some r → s.job = some row → row.status = .success →
    completes r.job r.batch ∨ r.job.status ≠ .queued
  | _ => True

def StaysDone (s s' : System) : Prop := s.status = some .success → s'.status = some .success

theorem advance_status {job row : MdJob} {batch : Batch} (h : row.status = .success) :
    (advanceUploadJob job batch row).status = .success ↔ completes job batch ∨ job.status ≠ .queued := by
  simp only [advanceUploadJob]
  by_cases hdone : completes job batch
  · simp [hdone]
  · by_cases hqueued : job.status = .queued <;> simp [hdone, hqueued, h]

theorem stays_done_iff {s s' : System} {a : Action} (h : s.next a = some s') : StaysDone s s' ↔ Settles s a := by
  cases next_moved h with
  | quiet hjob _ _ ha =>
    cases a with
    | advance i => exact absurd rfl (ha i)
    | create | attach | upsert | fail => simp [StaysDone, System.status, hjob, Settles]
  | joined hjob ha =>
    cases a with
    | advance i => exact absurd rfl (ha i)
    | create | attach | upsert | fail =>
      rcases hjob with ⟨hjob, -⟩ | hjob <;> simp [StaysDone, System.status, hjob, Settles]
  | @advanced i r row _ hr hstage hrow hjob _ _ =>
    have hstatus := @advance_status r.job row r.batch
    simp only [StaysDone, System.status, hrow, hjob, Settles, hr, Option.map_some, Option.some.injEq]
    constructor
    · intro hstays r' row' hr' hrow' hdone
      subst hr' hrow'
      exact (hstatus hdone).1 (hstays hdone)
    · intro hsettles hdone
      exact (hstatus hdone).2 (hsettles r row rfl rfl hdone)

/-! ## Runs -/

/-- The request advances the row it loaded: no other batch has advanced the
row since, or what it did does not show. -/
def Current (s : System) (a : Action) : Prop := Counts s a ∧ Settles s a

open Machine

/-- What upload progress promises of a run that ends in `s`. -/
def Progress (s₀ : System) (as : List Action) (s : System) : Prop :=
  s.processed = s.uploaded ∧ ∀ t ∈ trace System.next s₀ as, StaysDone t.pre t.post

theorem run_exact {s₀ s : System} {as : List Action} (h₀ : Exact s₀) (hr : run System.next s₀ as = some s)
    (hok : ∀ t ∈ trace System.next s₀ as, Counts t.pre t.act) : Exact s :=
  run_guarded System.next (fun _ _ _ => exact_step) h₀ hok hr

theorem run_behind {s₀ s : System} {as : List Action} (h₀ : Exact s₀) (hkeyed : Keyed s₀)
    (hr : run System.next s₀ as = some s) (hbad : ¬∀ t ∈ trace System.next s₀ as, Counts t.pre t.act) : Behind s := by
  induction as generalizing s₀ with
  | nil => simp at hbad
  | cons a as ih =>
    obtain ⟨s₁, hn, hr'⟩ := run_next System.next hr
    by_cases hok : Counts s₀ a
    · apply ih (exact_step h₀ hok hn) (keyed_step hkeyed hn) hr'
      simpa [trace_cons System.next hn, hok] using hbad
    · have hbehind := exact_step_behind h₀ hkeyed hok hn
      exact @run_inv _ _ System.next Behind (fun _ => True) (fun _ _ _ hs _ => behind_step hs) _ _ as hbehind (by simp) hr'

/-- **When upload progress is exact.** A run whose advances are all current
counts every successful batch and never leaves SUCCESS; and where the row has its
counter from the start, or is created on the way, only such runs do. -/
theorem upload_progress_iff {s₀ s : System} {as : List Action} (h₀ : s₀.Initial)
    (hr : run System.next s₀ as = some s) :
    ((∀ t ∈ trace System.next s₀ as, Current t.pre t.act) → Progress s₀ as s) ∧
      ((∀ job, s₀.job = some job → job.resultSummary.processed ≠ none) → Progress s₀ as s →
        ∀ t ∈ trace System.next s₀ as, Current t.pre t.act) := by
  have hexact := initial_exact h₀
  constructor
  · intro hok
    refine ⟨(run_exact hexact hr fun t ht => (hok t ht).1).row, ?_⟩
    intro t ht
    exact (stays_done_iff (trace_next System.next ht)).2 (hok t ht).2
  · intro hkey hprogress t ht
    have hkeyed : Keyed s₀ := ⟨hkey, by simp [h₀.1]⟩
    refine ⟨?_, (stays_done_iff (trace_next System.next ht)).1 (hprogress.2 t ht)⟩
    by_contra hbad
    have hlt := (run_behind hexact hkeyed hr fun hall => hbad (hall t ht)).row
    have heq := hprogress.1
    omega

/-! ## Two batches of one upload -/

def batch (documents : Nat) (uploadFinal : Bool) : Batch := ⟨1, documents, uploadFinal⟩

/-- The second batch attaches while the first is being stored. -/
def overlapping : List Action :=
  [.create (batch 2 false) 9, .attach (batch 3 true), .upsert 0, .upsert 1, .advance 1, .advance 0]

def inTurn : List Action :=
  [.create (batch 2 false) 9, .upsert 0, .advance 0, .attach (batch 3 true), .upsert 1, .advance 1]

theorem upload_progress_in_turn : ∃ s, run System.next ⟨none, []⟩ inTurn = some s ∧ Progress ⟨none, []⟩ inTurn s := by
  obtain ⟨s, hs⟩ : ∃ s, run System.next ⟨none, []⟩ inTurn = some s := ⟨_, rfl⟩
  refine ⟨s, hs, (upload_progress_iff ⟨rfl, rfl⟩ hs).1 ?_⟩
  have hquiet {s : System} {a : Action} (h : ∀ i, a ≠ .advance i) : Current s a := by
    cases a with
    | advance i => exact absurd rfl (h i)
    | create | attach | upsert | fail => exact ⟨trivial, trivial⟩
  have hcurrent {s : System} {i : Nat} {r : Request} {row : MdJob} (hr : s.requests[i]? = some r)
      (hrow : s.job = some row) (hcount : r.job.processed = row.processed) (hopen : row.status ≠ .success) :
      Current s (.advance i) := by
    refine ⟨?_, ?_⟩
    · intro r' row' hr' hrow'
      rw [hr] at hr'
      rw [hrow] at hrow'
      cases hr'
      cases hrow'
      exact .inr hcount
    · intro r' row' _ hrow' hdone
      rw [hrow] at hrow'
      cases hrow'
      exact absurd hdone hopen
  have halong : Along System.next Current ⟨none, []⟩ inTurn := by
    refine ⟨hquiet (by simp), hquiet (by simp), ?_, hquiet (by simp), hquiet (by simp), ?_, trivial⟩
    · exact hcurrent rfl rfl (by decide) (by decide)
    · exact hcurrent rfl rfl (by decide) (by decide)
  exact (along_iff System.next).1 halong

theorem upload_progress_lost : ¬∀ (s₀ s : System) (as : List Action), s₀.Initial →
    run System.next s₀ as = some s → s.Finished → Progress s₀ as s := by
  intro h
  have hrun : (run System.next ⟨none, []⟩ overlapping).map
      (fun s => (s.processed, s.uploaded, decide (∀ r ∈ s.requests, ¬r.Live))) = some (2, 5, true) := by decide
  obtain ⟨s, hs, hend⟩ := Option.map_eq_some_iff.1 hrun
  simp only [Prod.mk.injEq, decide_eq_true_eq] at hend
  have hprogress := h _ s overlapping ⟨rfl, rfl⟩ hs hend.2.2
  have hcount := hprogress.1
  omega

end Cograph.Uploads
