import Cograph.FinalSound
import Cograph.Jobs

/-!
# Runs, batches and jobs agree

A terminal run should have a terminal batch and terminal jobs. The enqueue's
failure, the schedule change, the batch a cascade resolves, the worker of a
run that somebody else has ended and the admin API's retry can each break
that; this says when exactly.
-/

namespace Cograph.Jobs

open Pipeline (Has Active Once)

/-! ## Agreement -/

def SyncBatch.jobsDone (b : SyncBatch) : Bool := b.jobs.all fun j => !j.status.active

def SyncBatch.done (b : SyncBatch) : Bool := !b.status.active && b.jobsDone

/-- The batch of a terminal run is terminal, and so are its jobs. -/
def Agree (s : St) : Prop :=
  ∀ q ∈ s.pipe.rows, q.active = false → ∀ b ∈ s.batches, b.run = q.id → b.done = true

/-- Nothing is left `QUEUED` or `RUNNING`. -/
theorem done_iff {b : SyncBatch} :
    b.done = true ↔ b.status.active = false ∧ ∀ j ∈ b.jobs, j.status.active = false := by
  simp [SyncBatch.done, SyncBatch.jobsDone]

/-- The step leaves no run terminal that has an active batch or job: a run that
is failed at its enqueue, after its last step or by a schedule change has had
its jobs ended before, a cascade resolves the run's own batch, and whatever
sets a batch or a job going again finds the run active. -/
def Fits (s : St) : Act → Prop
  | .pipe (.markEnqueueFailed h) => ∀ b ∈ s.batches, b.run = h → b.jobsDone = true
  | .pipe (.markFailedSync r) => ∀ b ∈ s.batches, b.run = r → b.jobsDone = true
  | .pipe (.endRun e) => ∀ b ∈ s.batches, b.run = (s.pipe.enders e).run → b.done = true
  | .cascade e batch =>
    batch = some (s.pipe.enders e).run ∨ ∀ b ∈ s.batches, b.run = (s.pipe.enders e).run → b.done = true
  | .resolveBatchAndJobs r | .startStep r => Active s.pipe.rows r
  | .retryJob b _ => Active s.pipe.rows b
  | _ => True

/-! ## Writes -/

@[simp] theorem cancelled_active : SyncJobStatus.cancelled.active = false := rfl

@[simp] theorem batchStatus_active (x : Pipeline.Ending) : (batchStatus x).active = false := by cases x <;> rfl

/-- A write that keeps the steps, and sets nothing going. -/
structure Quiets (f : SyncBatch → SyncBatch) : Prop where
  run : ∀ b, (f b).run = b.run
  steps : ∀ b, (f b).jobs.map (·.step) = b.jobs.map (·.step)
  jobs : ∀ b, ∀ j ∈ (f b).jobs, j.status.active = false ∨ j ∈ b.jobs
  status : ∀ b, (f b).status.active = false ∨ (f b).status = b.status

/-- It sets no job to `ERROR`. -/
def NoErrors (f : SyncBatch → SyncBatch) : Prop := ∀ b, ∀ j ∈ (f b).jobs, j.status = .error → j ∈ b.jobs

theorem Quiets.done {f : SyncBatch → SyncBatch} (h : Quiets f) {b : SyncBatch} (hb : b.done = true) :
    (f b).done = true := by
  rw [done_iff] at hb ⊢
  refine ⟨?_, fun j hj => (h.jobs b j hj).elim id (hb.2 j)⟩
  rcases h.status b with hs | hs
  · exact hs
  · rw [hs]
    exact hb.1

theorem setJobs_quiets (p : SyncJob → Bool) {st : SyncJobStatus} (h : st.active = false)
    {g : SyncBatch → SyncJobStatus} (hg : ∀ b, (g b).active = false ∨ g b = b.status) :
    Quiets fun b => { b.setJobs p st with status := g b } where
  run _ := rfl
  steps b := by
    simp only [SyncBatch.setJobs, List.map_map]
    apply List.map_congr_left
    intro j _
    by_cases hp : p j = true <;> simp [hp]
  jobs b j hj := by
    obtain ⟨i, hi, rfl⟩ := List.mem_map.mp hj
    by_cases hp : p i = true
    · simp [hp, h]
    · simp [hp, hi]
  status := hg

theorem setJobs_noErrors (p : SyncJob → Bool) {st : SyncJobStatus} (h : st ≠ .error) (g : SyncBatch → SyncJobStatus) :
    NoErrors fun b => { b.setJobs p st with status := g b } := by
  intro b j hj he
  obtain ⟨i, hi, rfl⟩ := List.mem_map.mp hj
  by_cases hp : p i = true
  · simp [hp, h] at he
  · simpa [hp] using hi

theorem setJob_eq (x : SyncStep) (st : SyncJobStatus) :
    (fun b : SyncBatch => b.setJob x st) = fun b => { b.setJobs (fun j => decide (j.step = x)) st with status := b.status } := by
  funext b
  simp [SyncBatch.setJob, SyncBatch.setJobs]

theorem setJob_steps (x : SyncStep) (st : SyncJobStatus) (b : SyncBatch) :
    (b.setJob x st).jobs.map (·.step) = b.jobs.map (·.step) := by
  simp only [SyncBatch.setJob, List.map_map]
  apply List.map_congr_left
  intro j _
  by_cases hj : j.step = x <;> simp [hj]

theorem setJob_quiets (x : SyncStep) {st : SyncJobStatus} (h : st.active = false) : Quiets (·.setJob x st) := by
  rw [setJob_eq]
  exact setJobs_quiets _ h fun _ => Or.inr rfl

theorem setJob_noErrors (x : SyncStep) {st : SyncJobStatus} (h : st ≠ .error) : NoErrors (·.setJob x st) := by
  rw [setJob_eq]
  exact setJobs_noErrors _ h _

theorem setStatus_quiets {st : SyncJobStatus} (h : st.active = false) : Quiets fun b => { b with status := st } where
  run _ := rfl
  steps _ := rfl
  jobs _ _ hj := Or.inr hj
  status _ := Or.inl h

theorem setStatus_noErrors (st : SyncJobStatus) : NoErrors fun b => { b with status := st } := fun _ _ hj _ => hj

theorem cascade_quiets (x : Pipeline.Ending) : Quiets (·.cascade x) := by
  refine setJobs_quiets _ rfl ?_
  intro b
  by_cases h : b.status.active = true
  · simp [h]
  · simp [h]

theorem cascade_done (b : SyncBatch) (x : Pipeline.Ending) : (b.cascade x).done = true := by
  rw [done_iff]
  constructor
  · by_cases h : b.status.active = true
    · simp [SyncBatch.cascade, h]
    · simp [SyncBatch.cascade, h]
  · intro j hj
    obtain ⟨i, _, rfl⟩ := List.mem_map.mp hj
    by_cases h : i.status.active = true
    · simp [h]
    · simp [h]

/-! ## Rows of the pipeline -/

section
variable {s s' : Pipeline.St} {a : Pipeline.Act} (hm : Pipeline.RowMove s a s'.rows)
include hm

theorem active_or_ended (ho : Once s.rows) {r : Nat} (ha : Active s.rows r) :
    Active s'.rows r ∨ ∃ st, a.ending s = some (r, st) := by
  have hactive : ∀ {st : Pipeline.RepoSyncRunStatus}, s'.status r = some st → st.active = true → Active s'.rows r := by
    intro st hst hact
    rw [Pipeline.St.status, Option.map_eq_some_iff] at hst
    obtain ⟨q, hq, rfl⟩ := hst
    obtain ⟨hmem, hid⟩ := ByKey.find_mem hq
    exact ⟨q, hmem, hid, hact⟩
  obtain ⟨st, hst, hact⟩ := ha.status ho
  have hmove := hm.status r
  generalize hs' : s'.status r = o at hmove
  cases hmove with
  | stay => exact Or.inl (hactive (hs'.trans hst) hact)
  | inserted | running => exact Or.inl (hactive hs' rfl)
  | ended he => exact Or.inr ⟨_, he⟩

theorem ended_inactive {r : Nat} {st : Pipeline.RepoSyncRunStatus} (he : a.ending s = some (r, st)) :
    ¬ Active s'.rows r := by
  generalize s'.rows = rows at hm
  cases hm with
  | stay hw =>
    cases a with
    | dispatch | markEnqueueFailed | succeed | markFailedSync | endRun => cases hw
    | _ => cases he
  | conflict | insert | requestedRef | busy | running => cases he
  | stored hs => simp [Pipeline.Act.ending, hs] at he
  | skip _ hs =>
    simp only [Pipeline.Act.ending, hs, if_true, Option.some.injEq, Prod.mk.injEq] at he
    obtain ⟨rfl, _⟩ := he
    exact fun h => ((Pipeline.active_setRow_end (fun _ => by rfl) fun _ => by rfl).mp h).1 rfl
  | enqueueFailed | success | syncFailed =>
    cases he
    exact fun h => ((Pipeline.active_setRow_end (fun _ => by rfl) fun _ => by rfl).mp h).1 rfl
  | endRun =>
    cases he
    exact fun h => ((Pipeline.active_setRow_end (fun _ => by rfl) fun _ => by exact Pipeline.Ending.inactive _).mp h).1 rfl

end

/-! ## What holds in every state -/

/-- The worker of run `r` is in the handler of an exception, past
`_fail_step`. -/
def Failed (s : St) (r : Nat) : Prop :=
  s.isRunning r = true ∧ (s.progress r = .stepFailed ∨ s.progress r = .batchFailed)

structure Kept (s : St) : Prop where
  inv : Pipeline.Inv s.pipe
  once : Once s.pipe.rows
  rowed : ∀ b ∈ s.batches, Has s.pipe.rows b.run
  batched : ∀ {r : Nat}, Has s.pipe.rows r → ∃ b ∈ s.batches, b.run = r
  steps : ∀ b ∈ s.batches, b.jobs.map (·.step) = repoSyncSteps
  unfailed : ∀ b ∈ s.batches, (s.pipe.works b.run).phase ≠ .ended → ¬ Failed s b.run → ∀ j ∈ b.jobs, j.status ≠ .error
  finished : ∀ b ∈ s.batches, s.isRunning b.run = true → ∀ {todo : List SyncStep} {started : Bool},
    s.progress b.run = .working todo started → ∀ j ∈ b.jobs, j.step ∉ todo → j.status.active = false
  closed : ∀ b ∈ s.batches, s.isRunning b.run = true → s.progress b.run = .batchFailed → b.status.active = false

theorem Init.kept {s : St} (h : Init s) : Kept s where
  inv := h.pipe.inv
  once := by simp [Once, h.pipe.rows]
  rowed b hb := by simp [h.batches] at hb
  batched hr := by
    obtain ⟨q, hq, _⟩ := hr
    simp [h.pipe.rows] at hq
  steps b hb := by simp [h.batches] at hb
  unfailed b hb := by simp [h.batches] at hb
  finished b hb := by simp [h.batches] at hb
  closed b hb := by simp [h.batches] at hb

theorem mem_steps (x : SyncStep) : x ∈ repoSyncSteps := by cases x <;> simp [repoSyncSteps]

theorem Kept.running_batch {s : St} (h : Kept s) {r : Nat} (hr : s.isRunning r = true) :
    ∃ b ∈ s.batches, b.run = r := by
  have hwork : (s.pipe.works r).phase ≠ .idle := by
    simp only [St.isRunning, decide_eq_true_eq] at hr
    simp [hr]
  exact h.batched (h.inv.worked hwork)

theorem Kept.job {s : St} (h : Kept s) {b : SyncBatch} (hb : b ∈ s.batches) (x : SyncStep) : ∃ j ∈ b.jobs, j.step = x := by
  have hx : x ∈ b.jobs.map (·.step) := by
    rw [h.steps b hb]
    exact mem_steps x
  exact List.mem_map.mp hx

def Agrees (rows : List Pipeline.RepoSyncRun) (batches : List SyncBatch) : Prop :=
  ∀ b ∈ batches, ¬ Active rows b.run → b.done = true

theorem agree_iff {s : St} (h : Kept s) : Agree s ↔ Agrees s.pipe.rows s.batches := by
  constructor
  · intro ha b hb hno
    obtain ⟨q, hq, hid⟩ := h.rowed b hb
    apply ha q hq _ b hb hid.symm
    by_contra hact
    exact hno ⟨q, hq, hid, by simpa using hact⟩
  · intro ha q hq hact b hb hid
    apply ha b hb
    intro hactive
    rw [hid] at hactive
    obtain ⟨p, hp, hpact⟩ := Pipeline.active_of_row? h.once hactive
    have hsame : p = q := Pipeline.row?_unique h.once hp hq
    rw [hsame, hact] at hpact
    cases hpact

/-! ## What a step keeps -/

theorem mem_setBatch {s : St} {r : Nat} {f : SyncBatch → SyncBatch} {c : SyncBatch} (hc : c ∈ (s.setBatch r f).batches) :
    ∃ b ∈ s.batches, (b.run = r ∧ c = f b) ∨ (b.run ≠ r ∧ c = b) := by
  obtain ⟨b, hb, rfl⟩ := List.mem_map.mp hc
  by_cases h : b.run = r
  · exact ⟨b, hb, Or.inl ⟨h, if_pos h⟩⟩
  · exact ⟨b, hb, Or.inr ⟨h, if_neg h⟩⟩

theorem setBatch_mem {s : St} {r : Nat} (f : SyncBatch → SyncBatch) {b : SyncBatch} (hb : b ∈ s.batches) (h : b.run = r) :
    f b ∈ (s.setBatch r f).batches :=
  List.mem_map.mpr ⟨b, hb, if_pos h⟩

theorem setBatch_other {s : St} {r : Nat} (f : SyncBatch → SyncBatch) {b : SyncBatch} (hb : b ∈ s.batches) (h : b.run ≠ r) :
    b ∈ (s.setBatch r f).batches :=
  List.mem_map.mpr ⟨b, hb, if_neg h⟩

/-- The batch of one run is written and its worker moves on, over the same
pipeline. -/
theorem Kept.write {s : St} (h : Kept s) {r : Nat} {f : SyncBatch → SyncBatch} (p : Progress)
    (hrun : ∀ b, (f b).run = b.run) (hsteps : ∀ b, (f b).jobs.map (·.step) = b.jobs.map (·.step))
    (hunfailed : ∀ b ∈ s.batches, b.run = r → (s.pipe.works r).phase ≠ .ended →
      ¬ (s.isRunning r = true ∧ (p = .stepFailed ∨ p = .batchFailed)) → ∀ j ∈ (f b).jobs, j.status ≠ .error)
    (hfinished : ∀ b ∈ s.batches, b.run = r → s.isRunning r = true → ∀ {todo : List SyncStep} {started : Bool},
      p = .working todo started → ∀ j ∈ (f b).jobs, j.step ∉ todo → j.status.active = false)
    (hclosed : ∀ b ∈ s.batches, b.run = r → s.isRunning r = true → p = .batchFailed → (f b).status.active = false) :
    Kept ((s.setBatch r f).goto r p) := by
  have hself : ((s.setBatch r f).goto r p).progress r = p := Function.update_self ..
  have hother : ∀ {g : Nat}, g ≠ r → ((s.setBatch r f).goto r p).progress g = s.progress g :=
    fun hg => Function.update_of_ne hg ..
  refine ⟨h.inv, h.once, ?_, ?_, ?_, ?_, ?_, ?_⟩
  · intro c hc
    obtain ⟨b, hb, ⟨_, rfl⟩ | ⟨_, rfl⟩⟩ := mem_setBatch hc
    · rw [hrun]
      exact h.rowed b hb
    · exact h.rowed c hb
  · intro g hg
    obtain ⟨b, hb, hid⟩ := h.batched hg
    by_cases hr : b.run = r
    · exact ⟨f b, setBatch_mem f hb hr, (hrun b).trans hid⟩
    · exact ⟨b, setBatch_other f hb hr, hid⟩
  · intro c hc
    obtain ⟨b, hb, ⟨_, rfl⟩ | ⟨_, rfl⟩⟩ := mem_setBatch hc
    · rw [hsteps]
      exact h.steps b hb
    · exact h.steps c hb
  · intro c hc hended hfailed
    obtain ⟨b, hb, ⟨hr, rfl⟩ | ⟨hr, rfl⟩⟩ := mem_setBatch hc
    · rw [hrun, hr] at hended
      rw [hrun, hr, Failed, hself] at hfailed
      exact hunfailed b hb hr hended hfailed
    · rw [Failed, hother hr] at hfailed
      exact h.unfailed c hb hended hfailed
  · intro c hc hrunning todo started hp
    obtain ⟨b, hb, ⟨hr, rfl⟩ | ⟨hr, rfl⟩⟩ := mem_setBatch hc
    · rw [hrun, hr] at hrunning
      rw [hrun, hr, hself] at hp
      exact hfinished b hb hr hrunning hp
    · rw [hother hr] at hp
      exact h.finished c hb hrunning hp
  · intro c hc hrunning hp
    obtain ⟨b, hb, ⟨hr, rfl⟩ | ⟨hr, rfl⟩⟩ := mem_setBatch hc
    · rw [hrun, hr] at hrunning
      rw [hrun, hr, hself] at hp
      exact hclosed b hb hr hrunning hp
    · rw [hother hr] at hp
      exact h.closed c hb hrunning hp

theorem goto_same (s : St) (r : Nat) : s.goto r (s.progress r) = s := by
  simp [St.goto]

theorem Kept.quiet {s : St} (h : Kept s) {f : SyncBatch → SyncBatch} (hf : Quiets f) (he : NoErrors f) (r : Nat) :
    Kept (s.setBatch r f) := by
  rw [← goto_same (s.setBatch r f) r]
  apply h.write _ hf.run hf.steps
  · intro b hb hr hended hfailed j hj hst
    subst hr
    exact h.unfailed b hb hended hfailed j (he b j hj hst) hst
  · intro b hb hr hrunning todo started hp j hj hstep
    subst hr
    rcases hf.jobs b j hj with ha | hj
    · exact ha
    · exact h.finished b hb hrunning hp j hj hstep
  · intro b hb hr hrunning hp
    subst hr
    rcases hf.status b with hs | hs
    · exact hs
    · rw [hs]
      exact h.closed b hb hrunning hp

theorem work_ended {s : Pipeline.St} {r : Nat} {a : Pipeline.Act} {w : Pipeline.Work} (hm : Pipeline.WorkMove s r a w)
    (hi : Pipeline.Inv s) (hp : (s.works r).phase = .ended) : w.phase = .ended := by
  cases hm with
  | stay => exact hp
  | store hc =>
    have hjob := hi.jobbed (r := r) (by simp [hp])
    simp [hc, Pipeline.CallPhase.jobbed] at hjob
  | start h | loadRepository h | loadRun h | running h => simp [hp] at h
  | ended => rfl

theorem work_running {s : Pipeline.St} {r : Nat} {a : Pipeline.Act} {w : Pipeline.Work} (hm : Pipeline.WorkMove s r a w)
    (hi : Pipeline.Inv s) (hp : (s.works r).phase = .running) : w.phase = .ended ∨ w.phase = .running ∧ a ≠ .beginRun r := by
  cases hm with
  | stay hw =>
    refine Or.inr ⟨hp, fun ha => hw ?_⟩
    rw [ha]
    rfl
  | store hc =>
    have hjob := hi.jobbed (r := r) (by simp [hp])
    simp [hc, Pipeline.CallPhase.jobbed] at hjob
  | start h | loadRepository h | loadRun h | running h => simp [hp] at h
  | ended => exact Or.inl rfl

/-- The batch of a run that has no job in the queue. -/
structure Fresh (s : St) (b : SyncBatch) : Prop where
  new : b = St.newBatch b.run b.createdAt
  rowed : Has s.pipe.rows b.run
  idle : (s.pipe.works b.run).phase = .idle

theorem Fresh.notRunning {s : St} {b : SyncBatch} (h : Fresh s b) : s.isRunning b.run = false := by
  simp [St.isRunning, h.idle]

theorem Kept.move {s s' : St} (h : Kept s) {a : Pipeline.Act} (hn : Pipeline.next s.pipe a = some s'.pipe)
    (hb : ∀ b ∈ s'.batches, b ∈ s.batches ∨ Fresh s' b)
    (hall : ∀ {r : Nat}, Has s'.pipe.rows r → ∃ b ∈ s'.batches, b.run = r)
    (hp : ∀ r, s'.progress r = if a = .beginRun r then .resolving else s.progress r) : Kept s' := by
  have hm := Pipeline.next_moved hn
  have hrunning : ∀ {r : Nat}, s'.isRunning r = true → a ≠ .beginRun r → s.isRunning r = true := by
    intro r hr ha
    simp only [St.isRunning, decide_eq_true_eq] at hr ⊢
    rcases (hm.work r).runs hr with ⟨hr, _⟩ | ⟨hr, _⟩
    · exact hr
    · exact absurd hr ha
  refine ⟨h.inv.step hn, hm.rows.once h.inv h.once, ?_, hall, ?_, ?_, ?_, ?_⟩
  · intro b hbm
    rcases hb b hbm with hbm | hf
    · exact hm.rows.has_of (h.rowed b hbm)
    · exact hf.rowed
  · intro b hbm
    rcases hb b hbm with hbm | hf
    · exact h.steps b hbm
    · rw [hf.new]
      rfl
  · intro b hbm hended hfailed
    rcases hb b hbm with hbm | hf
    · apply h.unfailed b hbm
      · exact fun he => hended (work_ended (hm.work b.run) h.inv he)
      · intro hf
        obtain ⟨hr, hprogress⟩ := hf
        simp only [St.isRunning, decide_eq_true_eq] at hr
        rcases work_running (hm.work b.run) h.inv hr with he | ⟨hr, ha⟩
        · exact hended he
        · apply hfailed
          rw [Failed, hp, if_neg ha]
          exact ⟨by simpa [St.isRunning] using hr, hprogress⟩
    · intro j hj
      rw [hf.new] at hj
      obtain ⟨x, _, rfl⟩ := List.mem_map.mp hj
      simp
  · intro b hbm hr todo started hprogress
    rcases hb b hbm with hbm | hf
    · rw [hp] at hprogress
      by_cases ha : a = .beginRun b.run
      · simp [ha] at hprogress
      · rw [if_neg ha] at hprogress
        exact h.finished b hbm (hrunning hr ha) hprogress
    · rw [hf.notRunning] at hr
      cases hr
  · intro b hbm hr hprogress
    rcases hb b hbm with hbm | hf
    · rw [hp] at hprogress
      by_cases ha : a = .beginRun b.run
      · simp [ha] at hprogress
      · rw [if_neg ha] at hprogress
        exact h.closed b hbm (hrunning hr ha) hprogress
    · rw [hf.notRunning] at hr
      cases hr

theorem Kept.moveOn {s s' : St} (h : Kept s) {a : Pipeline.Act} (hn : Pipeline.next s.pipe a = some s'.pipe)
    (hinsert : ∀ {r : Nat}, Has s'.pipe.rows r → Has s.pipe.rows r) (hb : s'.batches = s.batches)
    (hp : ∀ r, s'.progress r = if a = .beginRun r then .resolving else s.progress r) : Kept s' := by
  apply h.move hn _ _ hp
  · intro b hbm
    rw [hb] at hbm
    exact Or.inl hbm
  · intro r hr
    rw [hb]
    exact h.batched (hinsert hr)

theorem follow_quiets (s : St) (a : Pipeline.Act) :
    ∃ r f, Quiets f ∧ NoErrors f ∧ (s.follow a).batches = (s.setBatch r f).batches := by
  have hsame : Quiets (fun b => b) := ⟨fun _ => rfl, fun _ => rfl, fun _ _ h => Or.inr h, fun _ => Or.inr rfl⟩
  have hid : (s.setBatch 0 fun b => b).batches = s.batches := by simp [St.setBatch]
  have hnone : (s.follow a).batches = s.batches →
      ∃ r f, Quiets f ∧ NoErrors f ∧ (s.follow a).batches = (s.setBatch r f).batches :=
    fun h => ⟨0, _, hsame, fun _ _ h _ => h, h.trans hid.symm⟩
  cases a with
  | dispatch h lost =>
    by_cases hskip : (s.pipe.calls h).skips = true
    · have hquiets : Quiets fun b => { b.setJobs (fun _ => true) .skipped with status := .success } :=
        setJobs_quiets _ rfl fun _ => Or.inl rfl
      have hno : NoErrors fun b => { b.setJobs (fun _ => true) .skipped with status := .success } :=
        setJobs_noErrors _ (by decide) _
      exact ⟨h, _, hquiets, hno, by simp only [St.follow, hskip, if_true]⟩
    · exact hnone (by simp [St.follow, hskip])
  | markEnqueueFailed h => exact ⟨h, _, setStatus_quiets rfl, setStatus_noErrors _, rfl⟩
  | succeed r => exact ⟨r, _, setStatus_quiets rfl, setStatus_noErrors _, rfl⟩
  | _ => exact hnone rfl

theorem pipeline_some {s s' : St} {a : Pipeline.Act} (hn : s.pipeline a = some s') :
    s.allows a = true ∧ ∃ p, Pipeline.next s.pipe a = some p ∧ s' = { s.follow a with pipe := p } := by
  obtain ⟨hallows, hn⟩ := Pipeline.guard_some hn
  obtain ⟨p, hp, rfl⟩ := Option.map_eq_some_iff.mp hn
  exact ⟨hallows, p, hp, rfl⟩

theorem insert_some {s s' : St} {h began : Nat} (hn : s.insert h began = some s') :
    ∃ p, Pipeline.next s.pipe (.insert h) = some p ∧
      ((∃ q, Pipeline.activeRun s.pipe.rows = some q) ∧ s' = { s with pipe := p } ∨
      Pipeline.activeRun s.pipe.rows = none ∧ s' = { s with
        pipe := p
        batches := St.newBatch h began :: s.batches
        createdAt := Function.update s.createdAt h began }) := by
  obtain ⟨_, hn⟩ := Pipeline.guard_some hn
  obtain ⟨p, hp, rfl⟩ := Option.map_eq_some_iff.mp hn
  refine ⟨p, hp, ?_⟩
  cases hactive : Pipeline.activeRun s.pipe.rows with
  | some q => exact Or.inl ⟨⟨q, rfl⟩, rfl⟩
  | none => exact Or.inr ⟨rfl, rfl⟩

theorem cascade_some {s s' : St} {e : Nat} {batch : Option Nat} (hn : s.cascade e batch = some s') :
    ∃ p, Pipeline.next s.pipe (.endRun e) = some p ∧
      (batch = none ∧ s' = { s with pipe := p } ∨
        ∃ b, batch = some b ∧ s' = { s.setBatch b (·.cascade (s.pipe.enders e).ending) with pipe := p }) := by
  obtain ⟨_, hn⟩ := Pipeline.guard_some hn
  obtain ⟨p, hp, rfl⟩ := Option.map_eq_some_iff.mp hn
  cases batch with
  | none => exact ⟨p, hp, Or.inl ⟨rfl, rfl⟩⟩
  | some b => exact ⟨p, hp, Or.inr ⟨b, rfl, rfl⟩⟩

theorem has_same {s s' : Pipeline.St} {a : Pipeline.Act} (hn : Pipeline.next s a = some s') (ha : ∀ g, a ≠ .insert g)
    {r : Nat} (hr : Has s'.rows r) : Has s.rows r :=
  ((Pipeline.next_moved hn).rows.has hr).resolve_right (ha r)

theorem Kept.pipeline {s s' : St} (h : Kept s) {a : Pipeline.Act} (hn : s.pipeline a = some s') : Kept s' := by
  obtain ⟨hallows, p, hp, rfl⟩ := pipeline_some hn
  obtain ⟨r, f, hf, hno, hb⟩ := follow_quiets s a
  have hsame : ∀ g, a ≠ .insert g := by
    intro g ha
    simp [ha, St.allows] at hallows
  have hnext : Pipeline.next (s.setBatch r f).pipe a = some ({ s.follow a with pipe := p } : St).pipe := hp
  apply (h.quiet hf hno r).moveOn hnext (has_same hp hsame) hb
  · intro g
    by_cases ha : a = .beginRun g
    · simp [ha, St.follow, St.goto]
    · rw [if_neg ha]
      cases a with
      | dispatch h lost =>
        simp only [St.follow]
        split <;> rfl
      | beginRun g' =>
        have hne : g ≠ g' := fun he => ha (he ▸ rfl)
        simp [St.follow, St.goto, St.setBatch, hne]
      | _ => rfl

theorem Kept.cascade {s s' : St} (h : Kept s) {e : Nat} {batch : Option Nat} (hn : s.cascade e batch = some s') :
    Kept s' := by
  obtain ⟨p, hp, ⟨_, rfl⟩ | ⟨b, _, rfl⟩⟩ := cascade_some hn
  · exact h.moveOn hp (has_same hp nofun) rfl fun r => by simp
  · have hno : NoErrors (·.cascade (s.pipe.enders e).ending) := setJobs_noErrors _ (by decide) _
    exact (h.quiet (cascade_quiets _) hno b).moveOn hp (has_same hp nofun) rfl fun r => by simp [St.setBatch]

theorem Kept.insert {s s' : St} (h : Kept s) {g began : Nat} (hn : s.insert g began = some s') : Kept s' := by
  obtain ⟨p, hp, hs⟩ := insert_some hn
  have hm := Pipeline.next_moved hp
  obtain ⟨hphase, _⟩ := Pipeline.guard_some hp
  rcases hs with ⟨⟨q, hq⟩, rfl⟩ | ⟨hnone, rfl⟩
  · refine h.moveOn hp (fun {r} hr => ?_) rfl fun r => by simp
    have hrows : p.rows = s.pipe.rows := by
      have hmove := hm.rows
      generalize p.rows = rows at hmove
      cases hmove with
      | stay hw => cases hw
      | conflict => rfl
      | insert _ hnone => simp [hq] at hnone
    rwa [hrows] at hr
  · have hrows := hm.rows.insert_eq hnone
    have hnew : ¬ Has s.pipe.rows g := by
      intro hr
      have hbefore := h.inv.rowed hr
      simp [hphase, Pipeline.CallPhase.before] at hbefore
    have hidle : (s.pipe.works g).phase = .idle := by
      by_contra hwork
      exact hnew (h.inv.worked hwork)
    refine h.move hp ?_ ?_ fun r => by simp
    · intro b hb
      rcases List.mem_cons.mp hb with rfl | hb
      · refine Or.inr ⟨rfl, ?_, ?_⟩
        · exact ⟨_, by simp only [hrows]; exact List.mem_cons_self .., rfl⟩
        · show (p.works g).phase = .idle
          have hwork := hm.work g
          generalize p.works g = w at hwork
          cases hwork with
          | stay => exact hidle
          | ended hne => exact absurd hidle hne
      · exact Or.inl hb
    · intro r hr
      rcases hm.rows.has hr with hr | hr
      · obtain ⟨b, hb, hid⟩ := h.batched hr
        exact ⟨b, List.mem_cons_of_mem _ hb, hid⟩
      · cases hr
        exact ⟨_, List.mem_cons_self .., rfl⟩

theorem Kept.work {s : St} (h : Kept s) {r : Nat} {x : SyncStep} {todo rest : List SyncStep} {started : Bool}
    (going : Bool) (hp : s.progress r = .working (x :: todo) started) {st : SyncJobStatus} (hst : st ≠ .error)
    (hx : st.active = false ∨ x ∈ rest) (hrest : ∀ y ∉ rest, y ≠ x → y ∉ todo) :
    Kept ((s.setBatch r (·.setJob x st)).goto r (.working rest going)) := by
  have hno := setJob_noErrors x hst
  apply h.write
  · intro b
    rfl
  · exact setJob_steps x st
  · intro b hb hid hended _ j hj he
    subst hid
    exact h.unfailed b hb hended (by simp [Failed, hp]) j (hno b j hj he) he
  · intro b hb hid hr todo' started' ht j hj hstep
    subst hid
    cases ht
    obtain ⟨i, hi, rfl⟩ := List.mem_map.mp hj
    by_cases hix : i.step = x
    · simp only [hix, if_true] at hstep ⊢
      exact hx.resolve_right hstep
    · simp only [hix, if_false] at hstep ⊢
      apply h.finished b hb hr hp i hi
      simp [hix, hrest i.step hstep hix]
  · simp

theorem hasJob_iff {s : St} {b : Nat} {x : SyncStep} {p : SyncJobStatus → Bool} :
    s.hasJob b x p = true ↔ ∃ c ∈ s.batches, c.run = b ∧ ∃ j ∈ c.jobs, j.step = x ∧ p j.status = true := by
  simp [St.hasJob]

theorem setBatch_id (s : St) (r : Nat) : (s.setBatch r fun b => b) = s := by simp [St.setBatch]

theorem Kept.step {s s' : St} (h : Kept s) {a : Act} (hn : next s a = some s') : Kept s' := by
  cases a with
  | pipe a => exact h.pipeline hn
  | insert g began => exact h.insert hn
  | cascade e batch => exact h.cascade hn
  | resolveBatchAndJobs r =>
    obtain ⟨⟨hr, hp⟩, hn⟩ := Pipeline.guard_some hn
    cases hn
    apply h.write
    · simp
    · simp
    · intro b hb hid hended _
      subst hid
      apply h.unfailed b hb hended
      simp [Failed, hp]
    · intro b _ _ _ todo started ht j _ hj
      cases ht
      exact absurd (mem_steps _) hj
    · simp
  | startStep r =>
    simp only [next, St.startStep] at hn
    split at hn
    · rename_i x todo hp
      obtain ⟨_, hn⟩ := Pipeline.guard_some hn
      cases hn
      apply h.work true hp (by decide) (Or.inr (by simp))
      intro y hy _
      exact fun hmem => hy (List.mem_cons_of_mem _ hmem)
    · cases hn
  | completeStep r =>
    simp only [next, St.completeStep] at hn
    split at hn
    · rename_i x todo started hp
      obtain ⟨_, hn⟩ := Pipeline.guard_some hn
      cases hn
      exact h.work false hp (by decide) (Or.inl rfl) fun y hy _ => hy
    · cases hn
  | skipStep r =>
    simp only [next, St.skipStep] at hn
    split at hn
    · rename_i x todo hp
      obtain ⟨_, hn⟩ := Pipeline.guard_some hn
      cases hn
      exact h.work false hp (by decide) (Or.inl rfl) fun y hy _ => hy
    · cases hn
  | raise r running =>
    simp only [next, St.raise] at hn
    split at hn
    · rename_i todo started hp
      obtain ⟨_, hn⟩ := Pipeline.guard_some hn
      cases hn
      rw [← setBatch_id s r]
      apply h.write
      · simp
      · simp
      · intro b hb hid hended _
        subst hid
        exact h.unfailed b hb hended (by simp [Failed, hp])
      · simp
      · simp
    · cases hn
  | failStep r =>
    simp only [next, St.failStep] at hn
    split at hn
    · rename_i running hp
      obtain ⟨hr, hn⟩ := Pipeline.guard_some hn
      split at hn
      · cases hn
        rw [← setBatch_id s r]
        apply h.write <;> simp [hr]
      · cases hn
        apply h.write
        · simp [SyncBatch.setJob]
        · exact setJob_steps _ _
        · simp [hr]
        · simp
        · simp
    · cases hn
  | failBatch r =>
    obtain ⟨⟨hr, hp⟩, hn⟩ := Pipeline.guard_some hn
    cases hn
    have hquiets : Quiets fun b => { b.setJobs (·.status.active) .cancelled with status := .error } :=
      setJobs_quiets _ rfl fun _ => Or.inl rfl
    apply h.write _ hquiets.run hquiets.steps
    · simp [hr]
    · simp
    · intro b _ _ _ _
      rfl
  | retryJob b x =>
    obtain ⟨hjob, hn⟩ := Pipeline.guard_some hn
    cases hn
    obtain ⟨c, hc, hcb, j, hj, hje⟩ := hasJob_iff.mp hjob
    have hopen : (s.pipe.works b).phase ≠ .ended → ¬ Failed s b → False := by
      intro hended hfailed
      subst hcb
      exact h.unfailed c hc hended hfailed j hj (by simpa using hje.2)
    rw [← goto_same (s.setBatch b _) b]
    apply h.write
    · intro c
      rfl
    · exact setJob_steps _ _
    · intro c _ _ hended hfailed
      exact (hopen hended hfailed).elim
    · intro c _ _ hr todo started hp
      refine (hopen ?_ ?_).elim
      · intro hended
        simp [St.isRunning, hended] at hr
      · intro hfailed
        simp [Failed, show s.progress b = .working todo started from hp] at hfailed
    · intro c hc hid hr hp
      subst hid
      exact h.closed c hc hr hp
  | cancelJob b x =>
    obtain ⟨_, hn⟩ := Pipeline.guard_some hn
    cases hn
    exact h.quiet (setJob_quiets x rfl) (setJob_noErrors x (by decide)) b

/-! ## What a step does to the agreement -/

theorem Agrees.quiet {s : St} {rows : List Pipeline.RepoSyncRun} (ha : Agrees rows s.batches)
    {f : SyncBatch → SyncBatch} (hf : Quiets f) (r : Nat) : Agrees rows (s.setBatch r f).batches := by
  intro c hc hno
  obtain ⟨b, hb, ⟨_, rfl⟩ | ⟨_, rfl⟩⟩ := mem_setBatch hc
  · rw [hf.run] at hno
    exact hf.done (ha b hb hno)
  · exact ha c hb hno

theorem Agrees.active {s : St} {rows : List Pipeline.RepoSyncRun} (ha : Agrees rows s.batches)
    {f : SyncBatch → SyncBatch} (hf : ∀ b, (f b).run = b.run) {r : Nat} (hr : Active rows r) :
    Agrees rows (s.setBatch r f).batches := by
  intro c hc hno
  obtain ⟨b, hb, ⟨hid, rfl⟩ | ⟨_, rfl⟩⟩ := mem_setBatch hc
  · rw [hf, hid] at hno
    exact absurd hr hno
  · exact ha c hb hno

theorem Agrees.move {s p : Pipeline.St} {batches : List SyncBatch} (ho : Once s.rows) (ha : Agrees s.rows batches)
    {a : Pipeline.Act} (hn : Pipeline.next s a = some p)
    (hend : ∀ b ∈ batches, ∀ st, a.ending s = some (b.run, st) → b.done = true) : Agrees p.rows batches := by
  intro b hb hno
  by_cases hact : Active s.rows b.run
  · rcases active_or_ended (Pipeline.next_moved hn).rows ho hact with hact | ⟨st, he⟩
    · exact absurd hact hno
    · exact hend b hb st he
  · exact ha b hb hact

theorem fits_pipeline {s s' : St} {a : Pipeline.Act} (hn : s.pipeline a = some s') (ha' : Agrees s'.pipe.rows s'.batches) :
    Fits s (.pipe a) := by
  obtain ⟨_, p, hp, rfl⟩ := pipeline_some hn
  have hm := (Pipeline.next_moved hp).rows
  cases a with
  | markEnqueueFailed g =>
    intro b hb hid
    subst hid
    have hdone := ha' _ (setBatch_mem _ hb rfl) (ended_inactive hm rfl)
    simpa [SyncBatch.done, SyncBatch.jobsDone] using (done_iff.mp hdone).2
  | markFailedSync r =>
    intro b hb hid
    subst hid
    have hdone := ha' b hb (ended_inactive hm rfl)
    simpa [SyncBatch.jobsDone] using (done_iff.mp hdone).2
  | endRun e =>
    intro b hb hid
    apply ha' b hb
    rw [hid]
    exact ended_inactive hm rfl
  | _ => trivial

theorem agrees_pipeline {s s' : St} (h : Kept s) (ha : Agrees s.pipe.rows s.batches) {a : Pipeline.Act}
    (hn : s.pipeline a = some s') (hfits : Fits s (.pipe a)) : Agrees s'.pipe.rows s'.batches := by
  obtain ⟨hallows, p, hp, rfl⟩ := pipeline_some hn
  obtain ⟨r, f, hf, _, hb⟩ := follow_quiets s a
  have hquiet : Agrees s.pipe.rows (s.follow a).batches := by
    rw [hb]
    exact ha.quiet hf r
  apply hquiet.move h.once hp
  intro c hc st he
  cases a with
  | dispatch g lost =>
    obtain ⟨hskip, he⟩ := Pipeline.guard_some he
    simp only [Option.some.injEq, Prod.mk.injEq] at he
    simp only [St.follow, hskip, if_true] at hc
    obtain ⟨b, _, ⟨_, rfl⟩ | ⟨hne, rfl⟩⟩ := mem_setBatch hc
    · rw [done_iff]
      refine ⟨rfl, fun j hj => ?_⟩
      obtain ⟨i, _, rfl⟩ := List.mem_map.mp hj
      rfl
    · exact absurd he.1.symm hne
  | markEnqueueFailed g =>
    simp only [Pipeline.Act.ending, Option.some.injEq, Prod.mk.injEq] at he
    obtain ⟨b, hbm, ⟨hid, rfl⟩ | ⟨hne, rfl⟩⟩ := mem_setBatch hc
    · rw [done_iff]
      refine ⟨rfl, ?_⟩
      simpa [SyncBatch.jobsDone] using hfits b hbm hid
    · exact absurd he.1.symm hne
  | succeed g =>
    simp only [Pipeline.Act.ending, Option.some.injEq, Prod.mk.injEq] at he
    obtain ⟨hw, _⟩ := Pipeline.guard_some hp
    obtain ⟨b, hbm, ⟨hid, rfl⟩ | ⟨hne, rfl⟩⟩ := mem_setBatch hc
    · rw [done_iff]
      subst hid
      refine ⟨rfl, fun j hj => h.finished b hbm (by simp [St.isRunning, hw]) (of_decide_eq_true hallows) j hj ?_⟩
      simp
    · exact absurd he.1.symm hne
  | markFailedSync g =>
    simp only [Pipeline.Act.ending, Option.some.injEq, Prod.mk.injEq] at he
    obtain ⟨hw, _⟩ := Pipeline.guard_some hp
    obtain ⟨rfl, _⟩ := he
    rw [done_iff]
    refine ⟨h.closed c hc (by simp [St.isRunning, hw]) (of_decide_eq_true hallows), ?_⟩
    simpa [SyncBatch.jobsDone] using hfits c hc rfl
  | endRun e =>
    simp only [Pipeline.Act.ending, Option.some.injEq, Prod.mk.injEq] at he
    exact hfits c hc he.1.symm
  | _ => cases he

theorem cascade_iff {s s' : St} (h : Kept s) (ha : Agrees s.pipe.rows s.batches) {e : Nat} {batch : Option Nat}
    (hn : s.cascade e batch = some s') : Agrees s'.pipe.rows s'.batches ↔ Fits s (.cascade e batch) := by
  obtain ⟨p, hp, hs⟩ := cascade_some hn
  have hended : ¬ Active p.rows (s.pipe.enders e).run := ended_inactive (Pipeline.next_moved hp).rows rfl
  constructor
  · intro ha'
    by_cases hown : batch = some (s.pipe.enders e).run
    · exact Or.inl hown
    · refine Or.inr fun b hb hid => ha' b ?_ ?_
      · rcases hs with ⟨_, rfl⟩ | ⟨c, rfl, rfl⟩
        · exact hb
        · exact setBatch_other _ hb fun hc => hown (by rw [← hid, hc])
      · rw [hid]
        rcases hs with ⟨_, rfl⟩ | ⟨c, _, rfl⟩ <;> exact hended
  · intro hfits
    rcases hs with ⟨rfl, rfl⟩ | ⟨c, rfl, rfl⟩
    · apply ha.move h.once hp
      intro b hb st he
      simp only [Pipeline.Act.ending, Option.some.injEq, Prod.mk.injEq] at he
      exact hfits.resolve_left (by simp) b hb he.1.symm
    · apply (ha.quiet (cascade_quiets (s.pipe.enders e).ending) c).move h.once hp
      intro b hb st he
      simp only [Pipeline.Act.ending, Option.some.injEq, Prod.mk.injEq] at he
      obtain ⟨b, hbm, ⟨_, rfl⟩ | ⟨hne, rfl⟩⟩ := mem_setBatch hb
      · exact cascade_done b _
      · rcases hfits with hown | hdone
        · cases hown
          exact absurd he.1.symm hne
        · exact hdone b hbm he.1.symm

/-- A write that sets the batch or a job of run `r` going. -/
theorem going_iff {s : St} (ha : Agrees s.pipe.rows s.batches) {r : Nat} (f : SyncBatch → SyncBatch)
    (hf : ∀ b, (f b).run = b.run) {b : SyncBatch} (hb : b ∈ s.batches) (hid : b.run = r) (hgoing : (f b).done = false) :
    Agrees s.pipe.rows (s.setBatch r f).batches ↔ Active s.pipe.rows r := by
  constructor
  · intro ha'
    by_contra hno
    have hdone := ha' (f b) (setBatch_mem f hb hid) (by rwa [hf, hid])
    simp [hdone] at hgoing
  · exact ha.active hf

theorem setJob_going {b : SyncBatch} {x : SyncStep} {j : SyncJob} (hj : j ∈ b.jobs) (hx : j.step = x) {st : SyncJobStatus}
    (hst : st.active = true) : (b.setJob x st).done = false := by
  rw [Bool.eq_false_iff]
  intro hdone
  have hjob := (done_iff.mp hdone).2 _ (List.mem_map.mpr ⟨j, hj, if_pos hx⟩)
  simp [hst] at hjob

/-- **One step.** It leaves runs, batches and jobs in agreement exactly if it
fits. -/
theorem agree_step {s s' : St} {a : Act} (h : Kept s) (ha : Agree s) (hn : next s a = some s') :
    Agree s' ↔ Fits s a := by
  rw [agree_iff h] at ha
  rw [agree_iff (h.step hn)]
  cases a with
  | pipe a => exact ⟨fits_pipeline hn, agrees_pipeline h ha hn⟩
  | cascade e batch => exact cascade_iff h ha hn
  | insert g began =>
    refine iff_of_true ?_ trivial
    obtain ⟨p, hp, ⟨_, rfl⟩ | ⟨hnone, rfl⟩⟩ := insert_some hn
    · exact Agrees.move h.once ha hp nofun
    · intro b hb hno
      rcases List.mem_cons.mp hb with rfl | hb
      · refine absurd ?_ hno
        show Active p.rows g
        rw [(Pipeline.next_moved hp).rows.insert_eq hnone]
        exact ⟨_, List.mem_cons_self .., rfl, rfl⟩
      · exact Agrees.move h.once ha hp nofun b hb hno
  | resolveBatchAndJobs r =>
    obtain ⟨⟨hr, _⟩, hn⟩ := Pipeline.guard_some hn
    cases hn
    obtain ⟨b, hb, hid⟩ := h.running_batch hr
    exact going_iff ha (fun b => { b with status := .running }) (fun _ => rfl) hb hid rfl
  | startStep r =>
    simp only [next, St.startStep] at hn
    split at hn
    · rename_i x todo hp
      obtain ⟨⟨hr, _⟩, hn⟩ := Pipeline.guard_some hn
      cases hn
      obtain ⟨b, hb, hid⟩ := h.running_batch hr
      obtain ⟨j, hj, hx⟩ := h.job hb x
      exact going_iff ha (·.setJob x _) (fun _ => rfl) hb hid (setJob_going hj hx rfl)
    · cases hn
  | retryJob r x =>
    obtain ⟨hjob, hn⟩ := Pipeline.guard_some hn
    cases hn
    obtain ⟨b, hb, hid, j, hj, hx, _⟩ := hasJob_iff.mp hjob
    exact going_iff ha (·.setJob x _) (fun _ => rfl) hb hid (setJob_going hj hx rfl)
  | completeStep r =>
    refine iff_of_true ?_ trivial
    simp only [next, St.completeStep] at hn
    split at hn
    · obtain ⟨_, hn⟩ := Pipeline.guard_some hn
      cases hn
      exact ha.quiet (setJob_quiets _ rfl) r
    · cases hn
  | skipStep r =>
    refine iff_of_true ?_ trivial
    simp only [next, St.skipStep] at hn
    split at hn
    · obtain ⟨_, hn⟩ := Pipeline.guard_some hn
      cases hn
      exact ha.quiet (setJob_quiets _ rfl) r
    · cases hn
  | raise r running =>
    refine iff_of_true ?_ trivial
    simp only [next, St.raise] at hn
    split at hn
    · obtain ⟨_, hn⟩ := Pipeline.guard_some hn
      cases hn
      exact ha
    · cases hn
  | failStep r =>
    refine iff_of_true ?_ trivial
    simp only [next, St.failStep] at hn
    split at hn
    · obtain ⟨_, hn⟩ := Pipeline.guard_some hn
      split at hn
      · cases hn
        exact ha
      · cases hn
        exact ha.quiet (setJob_quiets _ rfl) r
    · cases hn
  | failBatch r =>
    refine iff_of_true ?_ trivial
    obtain ⟨_, hn⟩ := Pipeline.guard_some hn
    cases hn
    have hquiets : Quiets fun b => { b.setJobs (·.status.active) .cancelled with status := .error } :=
      setJobs_quiets _ rfl fun _ => Or.inl rfl
    exact ha.quiet hquiets r
  | cancelJob b x =>
    refine iff_of_true ?_ trivial
    obtain ⟨_, hn⟩ := Pipeline.guard_some hn
    cases hn
    exact ha.quiet (setJob_quiets x rfl) b

/-! ## Runs -/

theorem agree_trace {s : St} (h : Kept s) (ha : Agree s) (as : List Act) :
    (∀ t ∈ Machine.trace next s as, Agree t.post) ↔ ∀ t ∈ Machine.trace next s as, Fits t.pre t.act := by
  induction as generalizing s with
  | nil => simp
  | cons a as ih =>
    cases hn : next s a with
    | none => simp [Machine.trace_stuck next hn]
    | some s' =>
      rw [Machine.trace_cons next hn, List.forall_mem_cons, List.forall_mem_cons, agree_step h ha hn]
      refine and_congr_right fun hfits => ?_
      exact ih (h.step hn) ((agree_step h ha hn).mpr hfits)

/-- **Runs, batches and jobs.** They agree in every state of a run of the
pipeline exactly if each of its steps fits. -/
theorem agree_iff_fits {s : St} (hs : Init s) (as : List Act) :
    (∀ t ∈ Machine.trace next s as, Agree t.post) ↔ ∀ t ∈ Machine.trace next s as, Fits t.pre t.act := by
  apply agree_trace hs.kept
  intro q hq
  simp [hs.pipe.rows] at hq

instance (s : St) : Decidable (Agree s) :=
  inferInstanceAs (Decidable (∀ q ∈ s.pipe.rows, q.active = false → ∀ b ∈ s.batches, b.run = q.id → b.done = true))

instance (s : St) (a : Act) : Decidable (Fits s a) :=
  match a with
  | .pipe (.markEnqueueFailed h) => inferInstanceAs (Decidable (∀ b ∈ s.batches, b.run = h → b.jobsDone = true))
  | .pipe (.markFailedSync r) => inferInstanceAs (Decidable (∀ b ∈ s.batches, b.run = r → b.jobsDone = true))
  | .pipe (.endRun e) =>
    inferInstanceAs (Decidable (∀ b ∈ s.batches, b.run = (s.pipe.enders e).run → b.done = true))
  | .cascade e batch =>
    inferInstanceAs (Decidable
      (batch = some (s.pipe.enders e).run ∨ ∀ b ∈ s.batches, b.run = (s.pipe.enders e).run → b.done = true))
  | .resolveBatchAndJobs r | .startStep r | .retryJob r _ =>
    inferInstanceAs (Decidable (∃ q ∈ s.pipe.rows, q.id = r ∧ q.active = true))
  | .pipe .tick | .pipe (.push ..) | .pipe (.receive ..) | .pipe (.request ..) | .pipe (.load _)
  | .pipe (.persistUpload ..) | .pipe (.check _) | .pipe (.insert _) | .pipe (.prepareCheckout _) | .pipe (.fetch ..)
  | .pipe (.checkedOut _) | .pipe (.dispatch ..) | .pipe (.setRequestedRef _) | .pipe (.raise _) | .pipe (.crash _)
  | .pipe (.start _) | .pipe (.loadRepository _) | .pipe (.loadRun _) | .pipe (.beginRun _) | .pipe (.succeed _)
  | .pipe (.die _) | .pipe (.cancelRun ..) | .pipe (.findStale ..) | .pipe (.probe ..) | .pipe (.cancelPending ..)
  | .pipe (.refresh _) | .insert .. | .completeStep _ | .skipStep _ | .raise .. | .failStep _ | .failBatch _
  | .cancelJob .. => inferInstanceAs (Decidable True)

def idle : St where
  pipe := Pipeline.fresh
  batches := []
  createdAt _ := 0
  scheduled _ := false
  progress _ := .resolving

theorem idle_init : Init idle := ⟨Pipeline.fresh_init, rfl⟩

/-- A call up to its job, and its worker up to its steps. -/
def enqueued (h : Nat) (k : Pipeline.RepoSyncTriggerKind) : List Act :=
  [.pipe (.request h (.other k none)), .pipe (.load h), .pipe (.check h), .insert h 0, .pipe (.prepareCheckout h),
    .pipe (.fetch h "a1"), .pipe (.checkedOut h), .pipe (.dispatch h false), .pipe (.setRequestedRef h)]

def begun (r : Nat) : List Act :=
  [.pipe (.start r), .pipe (.loadRepository r), .pipe (.loadRun r), .pipe (.beginRun r), .resolveBatchAndJobs r,
    .completeStep r]

def worked (r : Nat) : List Act :=
  (List.replicate 7 [.startStep r, .completeStep r]).flatten ++ [.pipe (.succeed r)]

def wholeSync : List Act := enqueued 1 .manual ++ begun 1 ++ worked 1

theorem wholeSync_fits : ∀ t ∈ Machine.trace next idle wholeSync, Fits t.pre t.act := by
  decide

theorem wholeSync_agrees : ((Machine.run next idle wholeSync).map (·.batches.map (·.status)) = some [.success]) ∧
    ∀ t ∈ Machine.trace next idle wholeSync, Agree t.post :=
  ⟨by decide, (agree_iff_fits idle_init wholeSync).mpr wholeSync_fits⟩

/-- An enqueue that fails; a schedule change before the worker starts; a cancel
under the worker, which starts its next step; a failed step that is retried
after the run has failed; a cancel within the window of an earlier run, whose
batch it resolves. -/
def brokenSyncs : List (List Act) :=
  [[.pipe (.request 1 (.other .manual none)), .pipe (.load 1), .pipe (.check 1), .insert 1 0, .pipe (.prepareCheckout 1),
      .pipe (.raise 1), .pipe (.markEnqueueFailed 1)],
    enqueued 1 .schedule ++ [.pipe (.cancelPending 1 1), .pipe (.endRun 1)],
    enqueued 1 .manual ++ begun 1 ++ [.pipe (.cancelRun 1 1), .pipe (.refresh 1), .cascade 1 (some 1), .startStep 1],
    enqueued 1 .manual ++ begun 1 ++ [.startStep 1, .raise 1 true, .failStep 1, .failBatch 1, .pipe (.markFailedSync 1),
      .retryJob 1 .parse],
    wholeSync ++ enqueued 2 .manual ++ [.pipe (.cancelRun 1 2), .pipe (.refresh 1), .cascade 1 (some 1)]]

theorem broken_disagree : Init idle ∧ ∀ as ∈ brokenSyncs, ∃ t ∈ Machine.trace next idle as, ¬ Agree t.post :=
  ⟨idle_init, by decide⟩

end Cograph.Jobs
