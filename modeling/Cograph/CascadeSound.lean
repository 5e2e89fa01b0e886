import Cograph.JobsSound

/-!
# The batch a cascade ends

No batch has the id of its run: it is built before the flush that assigns one.
So a cascade goes by the time window, and ends its own run's batch just when
that is the first batch of the window, or when there is nothing to end.
-/

namespace Cograph.Jobs

open Pipeline (Has)

/-- A cascade updates the batch created together with its run and that batch's
jobs, and no other. -/
def CascadesOwn (t : Step St Act) : Prop :=
  ∀ e batch, t.act = .cascade e batch →
    t.post.batches = (t.pre.setBatch (t.pre.pipe.enders e).run (·.cascade (t.pre.pipe.enders e).ending)).batches

/-- Created within five seconds of the run. -/
def Near (s : St) (run : Nat) (b : SyncBatch) : Prop :=
  s.createdAt run ≤ b.createdAt + legacyBatchWindow ∧ b.createdAt ≤ s.createdAt run + legacyBatchWindow

/-- Every other batch of the window was created after the run's own, or at the
same instant and is not the one that the database sorts first. -/
def First (s : St) (run : Nat) (batch : Option Nat) : Prop :=
  ∀ c ∈ s.batches, c.run ≠ run → Near s run c →
    s.createdAt run < c.createdAt ∨ s.createdAt run = c.createdAt ∧ batch ≠ some c.run

/-- The batch is among the oldest of the window, and sorted first of these. -/
def Oldest (s : St) (run : Nat) (batch : Option Nat) (c : SyncBatch) : Prop :=
  Near s run c ∧ (∀ d ∈ s.batches, Near s run d → c.createdAt ≤ d.createdAt) ∧ batch = some c.run

/-- The cascade's own batch is the first of the window, or it and the first are
terminal with all their jobs. -/
def Finds (s : St) : Act → Prop
  | .cascade e batch =>
    First s (s.pipe.enders e).run batch ∨
      ∀ c ∈ s.batches, c.run = (s.pipe.enders e).run ∨ Oldest s (s.pipe.enders e).run batch c → c.done = true
  | _ => True

/-! ## The columns a batch keeps -/

def SyncBatch.key (b : SyncBatch) : Nat × Option Nat × Nat := (b.run, b.runId, b.createdAt)

section
variable {s s' : St}

theorem setBatch_keys {f : SyncBatch → SyncBatch} (r : Nat) (hf : ∀ b, (f b).key = b.key) :
    (s.setBatch r f).batches.map (·.key) = s.batches.map (·.key) := by
  simp only [St.setBatch, List.map_map]
  apply List.map_congr_left
  intro b _
  simp only [Function.comp]
  split
  · exact hf b
  · rfl

/-- What a step does to the columns of the batches, and to the pipeline. -/
structure Columns (s : St) (a : Act) (s' : St) : Prop where
  keys : s'.createdAt = s.createdAt ∧ s'.batches.map (·.key) = s.batches.map (·.key) ∨
    ∃ h began, Pipeline.next s.pipe (.insert h) = some s'.pipe ∧ Pipeline.activeRun s.pipe.rows = none ∧
      s'.batches = St.newBatch h began :: s.batches ∧ s'.createdAt = Function.update s.createdAt h began
  pipe : s'.pipe = s.pipe ∨ ∃ b, Pipeline.next s.pipe b = some s'.pipe

theorem Columns.of_write {a : Act} {f : SyncBatch → SyncBatch} (r g : Nat) (p : Progress)
    (hs : s' = (s.setBatch r f).goto g p) (hf : ∀ b, (f b).key = b.key) : Columns s a s' := by
  subst hs
  exact ⟨.inl ⟨rfl, setBatch_keys r hf⟩, .inl rfl⟩

theorem follow_keys (a : Pipeline.Act) :
    (s.follow a).createdAt = s.createdAt ∧ (s.follow a).batches.map (·.key) = s.batches.map (·.key) := by
  cases a with
  | dispatch h lost =>
    simp only [St.follow]
    split
    · exact ⟨rfl, setBatch_keys h fun _ => rfl⟩
    · exact ⟨rfl, rfl⟩
  | markEnqueueFailed h => exact ⟨rfl, setBatch_keys h fun _ => rfl⟩
  | succeed r => exact ⟨rfl, setBatch_keys r fun _ => rfl⟩
  | _ => exact ⟨rfl, rfl⟩

theorem next_columns {a : Act} (hn : next s a = some s') : Columns s a s' := by
  cases a with
  | pipe a =>
    obtain ⟨-, p, hp, rfl⟩ := pipeline_some hn
    exact ⟨.inl (follow_keys a), .inr ⟨a, hp⟩⟩
  | insert h began =>
    obtain ⟨p, hp, ⟨-, rfl⟩ | ⟨hnone, rfl⟩⟩ := insert_some hn
    · exact ⟨.inl ⟨rfl, rfl⟩, .inr ⟨_, hp⟩⟩
    · exact ⟨.inr ⟨h, began, hp, hnone, rfl, rfl⟩, .inr ⟨_, hp⟩⟩
  | cascade e batch =>
    obtain ⟨p, hp, ⟨-, rfl⟩ | ⟨b, -, rfl⟩⟩ := cascade_some hn
    · exact ⟨.inl ⟨rfl, rfl⟩, .inr ⟨_, hp⟩⟩
    · exact ⟨.inl ⟨rfl, setBatch_keys b fun _ => rfl⟩, .inr ⟨_, hp⟩⟩
  | resolveBatchAndJobs r =>
    obtain ⟨_, hn⟩ := Pipeline.guard_some hn
    cases hn
    exact .of_write r r _ rfl fun _ => rfl
  | startStep r =>
    simp only [next, St.startStep] at hn
    split at hn
    · obtain ⟨_, hn⟩ := Pipeline.guard_some hn
      cases hn
      exact .of_write r r _ rfl fun _ => rfl
    · cases hn
  | completeStep r =>
    simp only [next, St.completeStep] at hn
    split at hn
    · obtain ⟨_, hn⟩ := Pipeline.guard_some hn
      cases hn
      exact .of_write r r _ rfl fun _ => rfl
    · cases hn
  | skipStep r =>
    simp only [next, St.skipStep] at hn
    split at hn
    · obtain ⟨_, hn⟩ := Pipeline.guard_some hn
      cases hn
      exact .of_write r r _ rfl fun _ => rfl
    · cases hn
  | raise r running =>
    simp only [next, St.raise] at hn
    split at hn
    · obtain ⟨_, hn⟩ := Pipeline.guard_some hn
      cases hn
      exact ⟨.inl ⟨rfl, rfl⟩, .inl rfl⟩
    · cases hn
  | failStep r =>
    simp only [next, St.failStep] at hn
    split at hn
    · obtain ⟨_, hn⟩ := Pipeline.guard_some hn
      split at hn
      · cases hn
        exact ⟨.inl ⟨rfl, rfl⟩, .inl rfl⟩
      · cases hn
        exact .of_write r r _ rfl fun _ => rfl
    · cases hn
  | failBatch r =>
    obtain ⟨_, hn⟩ := Pipeline.guard_some hn
    cases hn
    exact .of_write r r _ rfl fun _ => rfl
  | retryJob b x =>
    obtain ⟨_, hn⟩ := Pipeline.guard_some hn
    cases hn
    exact ⟨.inl ⟨rfl, setBatch_keys b fun _ => rfl⟩, .inl rfl⟩
  | cancelJob b x =>
    obtain ⟨_, hn⟩ := Pipeline.guard_some hn
    cases hn
    exact ⟨.inl ⟨rfl, setBatch_keys b fun _ => rfl⟩, .inl rfl⟩

end

/-! ## What holds in every state -/

/-- No batch is linked to its run, each was created at the instant its run was,
and a cascade past its refresh has a run. -/
structure Unlinked (s : St) : Prop where
  kept : Kept s
  unlinked : ∀ b ∈ s.batches, b.runId = none
  dated : ∀ b ∈ s.batches, b.createdAt = s.createdAt b.run
  ending : ∀ e, (s.pipe.enders e).phase = .refreshed → Has s.pipe.rows (s.pipe.enders e).run

theorem Init.unlinked {s : St} (h : Init s) : Unlinked s where
  kept := h.kept
  unlinked b hb := by simp [h.batches] at hb
  dated b hb := by simp [h.batches] at hb
  ending e he := by rw [h.pipe.enders e] at he; cases he

section
variable {s s' : St} {a : Act}

theorem mem_keys {b : SyncBatch} (hb : b ∈ s'.batches) (h : s'.batches.map (·.key) = s.batches.map (·.key)) :
    ∃ c ∈ s.batches, c.run = b.run ∧ c.runId = b.runId ∧ c.createdAt = b.createdAt := by
  have hkey : b.key ∈ s.batches.map (·.key) := h ▸ List.mem_map_of_mem hb
  obtain ⟨c, hc, heq⟩ := List.mem_map.mp hkey
  simp only [SyncBatch.key, Prod.mk.injEq] at heq
  exact ⟨c, hc, heq⟩

theorem Unlinked.step (h : Unlinked s) (hn : next s a = some s') : Unlinked s' where
  kept := h.kept.step hn
  unlinked b hb := by
    rcases (next_columns hn).keys with ⟨-, hkeys⟩ | ⟨r, began, -, -, hbatches, -⟩
    · obtain ⟨c, hc, -, hid, -⟩ := mem_keys hb hkeys
      rw [← hid]
      exact h.unlinked c hc
    · rw [hbatches] at hb
      rcases List.mem_cons.mp hb with rfl | hb
      · rfl
      · exact h.unlinked b hb
  dated b hb := by
    rcases (next_columns hn).keys with ⟨hcreated, hkeys⟩ | ⟨r, began, hp, hnone, hbatches, hcreated⟩
    · obtain ⟨c, hc, hrun, -, hat⟩ := mem_keys hb hkeys
      rw [hcreated, ← hat, ← hrun]
      exact h.dated c hc
    · rw [hbatches] at hb
      rw [hcreated]
      rcases List.mem_cons.mp hb with rfl | hb
      · simp [St.newBatch]
      · -- an older batch is of another run
        have hne : b.run ≠ r := by
          intro heq
          have hbefore := h.kept.inv.rowed (h.kept.rowed b hb)
          rw [heq, (Pipeline.guard_some hp).1] at hbefore
          cases hbefore
        rw [Function.update_of_ne hne]
        exact h.dated b hb
  ending e he := by
    rcases (next_columns hn).pipe with hsame | ⟨b, hb⟩
    · rw [hsame] at he ⊢
      exact h.ending e he
    · have hrows := (Pipeline.next_moved hb).rows
      rcases Pipeline.ender_refreshed hb h.kept.once he with ⟨hold, -⟩ | ⟨st, hst, -⟩
      · rw [hold] at he ⊢
        exact hrows.has_of (h.ending e he)
      · exact hrows.has_of (Pipeline.status_has hst)

/-! ## The window -/

theorem Unlinked.linked (h : Unlinked s) (run : Nat) : s.batches.filter (·.runId = some run) = [] := by
  rw [List.filter_eq_nil_iff]
  intro b hb
  simp [h.unlinked b hb]

/-- What `_resolve_batch` returns is an oldest batch of the window. -/
theorem resolves_oldest (h : Unlinked s) {run b : Nat} (hr : s.resolves run (some b) = true) :
    ∃ c ∈ s.batches, Oldest s run (some b) c := by
  simp only [St.resolves, St.resolveBatch, h.linked, List.isEmpty_nil, if_true, List.any_eq_true, List.mem_filter,
    List.all_eq_true, decide_eq_true_eq] at hr
  obtain ⟨c, ⟨⟨hc, hnear⟩, hmin⟩, rfl⟩ := hr
  exact ⟨c, hc, hnear, fun d hd hnd => hmin d ⟨hd, hnd⟩, rfl⟩

theorem own_near (h : Unlinked s) {c : SyncBatch} (hc : c ∈ s.batches) : Near s c.run c := by
  rw [Near, h.dated c hc]
  omega

theorem exists_oldest {l : List SyncBatch} (h : l ≠ []) : ∃ m ∈ l, ∀ d ∈ l, m.createdAt ≤ d.createdAt := by
  have hsome : l.argmin (·.createdAt) ≠ none := mt List.argmin_eq_none.mp h
  obtain ⟨m, hm⟩ := Option.ne_none_iff_exists'.mp hsome
  exact ⟨m, List.argmin_mem hm, fun d hd => List.le_of_mem_argmin hd hm⟩

theorem resolves_some (h : Unlinked s) {run : Nat} (hrun : Has s.pipe.rows run) : s.resolves run none = false := by
  obtain ⟨own, hown, rfl⟩ := h.kept.batched hrun
  have hmem : own ∈ s.batches.filter fun b => s.createdAt own.run ≤ b.createdAt + legacyBatchWindow ∧
      b.createdAt ≤ s.createdAt own.run + legacyBatchWindow := by
    simp only [List.mem_filter, decide_eq_true_eq]
    exact ⟨hown, own_near h hown⟩
  obtain ⟨m, hm, hmin⟩ := exists_oldest (List.ne_nil_of_mem hmem)
  simp only [St.resolves, St.resolveBatch, h.linked, List.isEmpty_nil, if_true, List.isEmpty_eq_false_iff]
  apply List.ne_nil_of_mem (a := m)
  simp only [List.mem_filter, List.all_eq_true, decide_eq_true_eq] at hm hmin ⊢
  exact ⟨hm, hmin⟩

/-- `fail_run_cascade` leaves a batch alone that has nothing to end. -/
theorem cascade_eq_iff {b : SyncBatch} {x : Pipeline.Ending} : b.cascade x = b ↔ b.done = true := by
  rw [done_iff]
  constructor
  · intro h
    have hdone := done_iff.mp (cascade_done b x)
    rwa [h] at hdone
  · rintro ⟨hstatus, hjobs⟩
    have hjobs' : (b.jobs.map fun j => if j.status.active then { j with status := .cancelled } else j) = b.jobs := by
      rw [List.map_congr_left (g := id), List.map_id]
      intro j hj
      simp [hjobs j hj]
    simp [SyncBatch.cascade, SyncBatch.setJobs, hstatus, hjobs']

theorem setBatch_eq_iff {r q : Nat} {x : Pipeline.Ending} (hne : r ≠ q) :
    (s.setBatch r (·.cascade x)).batches = (s.setBatch q (·.cascade x)).batches ↔
      ∀ c ∈ s.batches, c.run = q ∨ c.run = r → c.done = true := by
  simp only [St.setBatch, List.map_inj_left]
  refine forall₂_congr fun c _ => ?_
  by_cases hr : c.run = r
  · have hq : c.run ≠ q := fun hq => hne (hr.symm.trans hq)
    rw [if_pos hr, if_neg hq, cascade_eq_iff]
    simp [hr]
  · by_cases hq : c.run = q
    · rw [if_neg hr, if_pos hq, eq_comm, cascade_eq_iff]
      simp [hq]
    · simp [hr, hq]

/-- **One cascade.** -/
theorem cascadesOwn_iff (h : Unlinked s) (hn : next s a = some s') : CascadesOwn ⟨s, a, s'⟩ ↔ Finds s a := by
  by_cases ha : ∃ e batch, a = .cascade e batch
  · obtain ⟨e, batch, rfl⟩ := ha
    obtain ⟨⟨-, hres⟩, -⟩ := Pipeline.guard_some hn
    obtain ⟨p, hp, hs⟩ := cascade_some hn
    have hrun := h.ending e (Pipeline.guard_some hp).1
    have howns : CascadesOwn ⟨s, .cascade e batch, s'⟩ ↔ s'.batches =
        (s.setBatch (s.pipe.enders e).run (·.cascade (s.pipe.enders e).ending)).batches :=
      ⟨fun hown => hown e batch rfl, fun hown e' batch' h' => by cases h'; exact hown⟩
    rcases hs with ⟨rfl, -⟩ | ⟨b, rfl, rfl⟩
    · rw [resolves_some h hrun] at hres
      cases hres
    obtain ⟨m, hm, hold⟩ := resolves_oldest h hres
    have hmb : b = m.run := Option.some.inj hold.2.2
    obtain ⟨own, hown, hownrun⟩ := h.kept.batched hrun
    have hmin : m.createdAt ≤ s.createdAt (s.pipe.enders e).run := by
      rw [← hownrun, ← h.dated own hown]
      exact hold.2.1 own hown (hownrun ▸ own_near h hown)
    rw [howns]
    by_cases hb : b = (s.pipe.enders e).run
    · -- its own batch is found
      subst hb
      refine ⟨fun _ => .inl fun c hc hne hnear => ?_, fun _ => rfl⟩
      have hle := hold.2.1 c hc hnear
      rw [h.dated m hm, ← hmb] at hle
      rcases hle.lt_or_eq with hlt | heq
      · exact .inl hlt
      · exact .inr ⟨heq, fun hc' => hne (Option.some.inj hc').symm⟩
    · -- another one is, and the two cascades compare
      have hfirst : ¬First s (s.pipe.enders e).run (some b) := by
        intro hfirst
        rcases hfirst m hm (hmb ▸ hb) hold.1 with hlt | ⟨-, hne⟩
        · omega
        · exact hne hold.2.2
      have holdest : ∀ c ∈ s.batches, c.run = b → Oldest s (s.pipe.enders e).run (some b) c := by
        intro c hc hcb
        have hat : c.createdAt = m.createdAt := by rw [h.dated c hc, h.dated m hm, hcb, hmb]
        refine ⟨?_, ?_, congrArg some hcb.symm⟩
        · rw [Near, hat]
          exact hold.1
        · intro d hd hnear
          rw [hat]
          exact hold.2.1 d hd hnear
      have hsame : ({ s.setBatch b (·.cascade (s.pipe.enders e).ending) with pipe := p } : St).batches =
          (s.setBatch b (·.cascade (s.pipe.enders e).ending)).batches := rfl
      rw [hsame, setBatch_eq_iff hb]
      constructor
      · intro hdone
        refine .inr fun c hc hwhich => hdone c hc (hwhich.imp_right fun ho => ?_)
        exact (Option.some.inj ho.2.2).symm
      · intro hfinds c hc hwhich
        exact (hfinds.resolve_left hfirst) c hc (hwhich.imp_right (holdest c hc))
  · refine ⟨fun _ => ?_, fun _ e batch h' => absurd ⟨e, batch, h'⟩ ha⟩
    unfold Finds
    split
    · exact absurd ⟨_, _, rfl⟩ ha
    · trivial

end

/-! ## Runs -/

/-- **Cascades, exactly.** Over any history of enqueues, workers, cancels and
sweeps, every cascade ends its own run's batch and no other just when it finds
that batch first in the window, or nothing to end. -/
theorem cascades_own_iff {s : St} (hs : Init s) (as : List Act) :
    (∀ t ∈ Machine.trace next s as, CascadesOwn t) ↔ ∀ t ∈ Machine.trace next s as, Finds t.pre t.act := by
  have hiff : ∀ s a s', Unlinked s → next s a = some s' → (CascadesOwn ⟨s, a, s'⟩ ↔ Finds s a) :=
    fun _ _ _ h hn => cascadesOwn_iff h hn
  have hstep : ∀ s a s', Unlinked s → next s a = some s' → CascadesOwn ⟨s, a, s'⟩ → Unlinked s' :=
    fun _ _ _ h hn _ => h.step hn
  exact Machine.trace_iff next hiff hstep hs.unlinked

instance (s : St) (run : Nat) (b : SyncBatch) : Decidable (Near s run b) :=
  inferInstanceAs (Decidable (s.createdAt run ≤ b.createdAt + legacyBatchWindow ∧
    b.createdAt ≤ s.createdAt run + legacyBatchWindow))

instance (s : St) (run : Nat) (batch : Option Nat) : Decidable (First s run batch) :=
  inferInstanceAs (Decidable (∀ c ∈ s.batches, c.run ≠ run → Near s run c →
    s.createdAt run < c.createdAt ∨ s.createdAt run = c.createdAt ∧ batch ≠ some c.run))

/-- An enqueue that fails, and one that is cancelled. -/
def failedThenCancelled (began : Nat) : List Act :=
  [.pipe (.request 1 (.other .manual none)), .pipe (.load 1), .pipe (.check 1), .insert 1 0, .pipe (.raise 1),
    .pipe (.markEnqueueFailed 1), .pipe (.request 2 (.other .manual none)), .pipe (.load 2), .pipe (.check 2),
    .insert 2 began, .pipe (.cancelRun 1 2), .pipe (.refresh 1)]

/-- The clock stands at ten seconds. -/
def tenSeconds : St := { idle with pipe := { Pipeline.fresh with now := 10000000 } }

theorem tenSeconds_init : Init tenSeconds := ⟨⟨rfl, rfl, fun _ => ⟨rfl, rfl⟩, fun _ => rfl, fun _ => rfl⟩, rfl⟩

/-- Six seconds apart. -/
theorem apart_own :
    (Machine.run next tenSeconds (failedThenCancelled 6000000 ++ [.cascade 1 (some 2)])).isSome ∧
      ∀ t ∈ Machine.trace next tenSeconds (failedThenCancelled 6000000 ++ [.cascade 1 (some 2)]), CascadesOwn t := by
  have hfinds : Machine.Along next Finds tenSeconds (failedThenCancelled 6000000 ++ [.cascade 1 (some 2)]) :=
    ⟨trivial, trivial, trivial, trivial, trivial, trivial, trivial, trivial, trivial, trivial, trivial, trivial,
      .inl (by decide +kernel), trivial⟩
  exact ⟨by decide +kernel, (cascades_own_iff tenSeconds_init _).mpr ((Machine.along_iff next).mp hfinds)⟩

/-- One second apart, the cascade ends the jobs of the first. -/
theorem neighbour_ended : ¬∀ (s : St), Init s → ∀ (as : List Act), ∀ t ∈ Machine.trace next s as, CascadesOwn t := by
  intro h
  have hmem := @Machine.trace_last _ _ next tenSeconds _ _ (failedThenCancelled 1000000) (.cascade 1 (some 1)) rfl rfl
  exact absurd (h tenSeconds tenSeconds_init _ _ hmem 1 (some 1) rfl) (by decide +kernel)

end Cograph.Jobs
