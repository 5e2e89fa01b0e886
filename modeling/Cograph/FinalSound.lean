import Cograph.ByKey
import Cograph.PipelineSound

/-!
# Terminal runs

Every writer of a run's status writes whatever the row has become since it was
read. A terminal status is final as long as a run is ended only when no other
process is on its way to write another status of it.
-/

namespace Cograph.Pipeline

/-! ## Statuses -/

def St.status (s : St) (r : Nat) : Option RepoSyncRunStatus := (row? s.rows r).map (·.status)

def Once (rows : List RepoSyncRun) : Prop := (rows.map (·.id)).Nodup

section
variable {rows : List RepoSyncRun} {r a : Nat} {f : RepoSyncRun → RepoSyncRun}

theorem row?_cons (q : RepoSyncRun) : row? (q :: rows) r = if q.id = r then some q else row? rows r := by
  by_cases h : q.id = r <;> simp [row?, h]

theorem row?_none (h : ¬ Has rows r) : row? rows r = none := by
  simp only [row?, List.find?_eq_none, decide_eq_true_eq]
  exact fun q hq hid => h ⟨q, hq, hid⟩

theorem row?_setRow (hid : ∀ q, (f q).id = q.id) :
    row? (setRow rows r f) a = (row? rows a).map fun q => if a = r then f q else q := by
  induction rows with
  | nil => rfl
  | cons q rows ih =>
    have hcons : setRow (q :: rows) r f = (if q.id = r then f q else q) :: setRow rows r f := rfl
    have hhead : (if q.id = r then f q else q).id = q.id := by
      split <;> simp [hid]
    rw [hcons, row?_cons, row?_cons, hhead, ih]
    by_cases hq : q.id = a
    · simp [hq]
    · simp [hq]

theorem once_setRow (hid : ∀ q, (f q).id = q.id) (h : Once rows) : Once (setRow rows r f) := by
  have hids : (setRow rows r f).map (·.id) = rows.map (·.id) := by
    simp only [setRow, List.map_map]
    apply List.map_congr_left
    intro q _
    by_cases hq : q.id = r <;> simp [hq, hid]
  rw [Once, hids]
  exact h

theorem row?_unique (h : Once rows) {p q : RepoSyncRun} (hp : row? rows q.id = some p) (hq : q ∈ rows) : p = q := by
  obtain ⟨hmem, hid⟩ := ByKey.find_mem hp
  exact List.inj_on_of_nodup_map h hmem hq hid

theorem active_of_row? (h : Once rows) (ha : Active rows r) : ∃ q, row? rows r = some q ∧ q.active = true := by
  obtain ⟨q, hq, hid, hact⟩ := ha
  induction rows with
  | nil => cases hq
  | cons p rows ih =>
    obtain ⟨hp, h⟩ := List.nodup_cons.mp h
    rw [row?_cons]
    rcases List.mem_cons.mp hq with rfl | hq
    · exact ⟨q, by simp [hid], hact⟩
    · have hne : p.id ≠ r := by
        intro he
        apply hp
        simp only [he, ← hid]
        exact List.mem_map_of_mem hq
      simpa [hne] using ih h hq

end

theorem Active.status {s : St} {r : Nat} (h : Once s.rows) (ha : Active s.rows r) :
    ∃ st, s.status r = some st ∧ st.active = true := by
  obtain ⟨q, hq, hact⟩ := active_of_row? h ha
  exact ⟨q.status, by simp [St.status, hq], hact⟩

/-- The run an action ends, and the status it ends it with. -/
def Act.ending (s : St) : Act → Option (Nat × RepoSyncRunStatus)
  | .dispatch h _ => if (s.calls h).skips then some (h, .skipped) else none
  | .markEnqueueFailed h => some (h, .error)
  | .succeed r => some (r, .success)
  | .markFailedSync r => some (r, .error)
  | .endRun e => some ((s.enders e).run, (s.enders e).ending.status)
  | _ => none

/-- How the status of run `r` can change. -/
inductive StatusMove (s : St) (a : Act) (r : Nat) : Option RepoSyncRunStatus → Prop
  | stay : StatusMove s a r (s.status r)
  | inserted : a = .insert r → (s.calls r).phase = .checked → StatusMove s a r (some .queued)
  | running : a = .beginRun r → (s.works r).phase = .loaded → StatusMove s a r (some .running)
  | ended {st : RepoSyncRunStatus} : a.ending s = some (r, st) → StatusMove s a r (some st)

section
variable {s : St} {r g : Nat} {f : RepoSyncRun → RepoSyncRun} (hid : ∀ q, (f q).id = q.id)
include hid

theorem status_kept {s' : St} (hrows : s'.rows = setRow s.rows g f) (h : r ≠ g ∨ ∀ q, (f q).status = q.status) :
    s'.status r = s.status r := by
  rw [St.status, St.status, hrows, row?_setRow hid, Option.map_map]
  congr 1
  funext q
  rcases h with h | h
  · simp [h]
  · by_cases hr : r = g <;> simp [hr, h]

theorem status_set {s' : St} {st : RepoSyncRunStatus} (hrows : s'.rows = setRow s.rows g f)
    (h : ∀ q, (f q).status = st) : s'.status g = s.status g ∨ s'.status g = some st := by
  rw [St.status, St.status, hrows, row?_setRow hid]
  cases row? s.rows g <;> simp [h]

end

section
variable {s s' : St} {a : Act} (hm : RowMove s a s'.rows)
include hm

theorem RowMove.status (r : Nat) : StatusMove s a r (s'.status r) := by
  have hstay : s'.status r = s.status r → StatusMove s a r (s'.status r) := fun h => h ▸ .stay
  have hset : ∀ {g : Nat} {f : RepoSyncRun → RepoSyncRun} {st : RepoSyncRunStatus}, (∀ q, (f q).id = q.id) →
      (∀ q, (f q).status = st) → s'.rows = setRow s.rows g f → StatusMove s a g (some st) →
      StatusMove s a r (s'.status r) := by
    intro g f st hid hst hrows hmove
    by_cases hr : r = g
    · subst hr
      rcases status_set hid hrows hst with h | h
      · exact hstay h
      · rw [h]
        exact hmove
    · exact hstay (status_kept hid hrows (Or.inl hr))
  generalize hrows : s'.rows = rows at hm
  have hsame : rows = s.rows → StatusMove s a r (s'.status r) := by
    intro h
    apply hstay
    rw [St.status, St.status, hrows, h]
  cases hm with
  | stay | conflict | stored | busy => exact hsame rfl
  | @insert h hp =>
    by_cases hr : h = r
    · subst hr
      have hst : s'.status h = some .queued := by
        rw [St.status, hrows, row?_cons]
        simp [St.newRun]
      rw [hst]
      exact .inserted rfl hp
    · apply hstay
      rw [St.status, St.status, hrows, row?_cons, if_neg (by simpa [St.newRun] using hr)]
  | requestedRef => exact hstay (status_kept (fun _ => by rfl) hrows (Or.inr fun _ => by rfl))
  | running hp => exact hset (fun _ => by rfl) (fun _ => by rfl) hrows (.running rfl hp)
  | skip _ hs => exact hset (fun _ => by rfl) (fun _ => by rfl) hrows (.ended (by simp [Act.ending, hs]))
  | enqueueFailed | success | syncFailed | endRun =>
    exact hset (fun _ => by rfl) (fun _ => by rfl) hrows (.ended rfl)

theorem RowMove.once (hi : Inv s) (h : Once s.rows) : Once s'.rows := by
  generalize s'.rows = rows at hm
  cases hm with
  | stay | conflict | stored | busy => exact h
  | @insert g hp =>
    refine List.nodup_cons.mpr ⟨?_, h⟩
    intro hmem
    obtain ⟨q, hq, hid⟩ := List.mem_map.mp hmem
    have hbefore := hi.rowed ⟨q, hq, hid⟩
    simp only [St.newRun, hp] at hbefore
    cases hbefore
  | skip | requestedRef | enqueueFailed | running | success | syncFailed | endRun =>
    exact once_setRow (fun _ => by rfl) h

end

/-! ## Writers under way -/

/-- The call may yet skip its run or fail it. -/
def CallPhase.undecided : CallPhase → Bool
  | .inserted | .rewriting | .fetched | .prepared => true
  | _ => false

/-- The call may write a status other than `st`. -/
def CallPhase.mayWrite (p : CallPhase) (st : RepoSyncRunStatus) : Bool :=
  p.undecided || p = .raising && st ≠ .error

/-- The worker may write a status other than `st`: it has passed the start
guard, or the guard lets `st` pass. -/
def WorkPhase.mayWrite (p : WorkPhase) (st : RepoSyncRunStatus) : Bool :=
  match p with
  | .loaded | .running => true
  | .queued | .started | .opened => st = .error
  | .idle | .ended => false

/-- The cancel, sweep or schedule change is past its check of run `r`, and
writes a status other than `st`. -/
def Ender.mayWrite (x : Ender) (r : Nat) (st : RepoSyncRunStatus) : Bool :=
  x.phase = .refreshed && x.run = r && x.ending.status ≠ st

/-- No process is about to write another status of a terminal run. -/
structure Undisputed (s : St) (r : Nat) (st : RepoSyncRunStatus) : Prop where
  call : (s.calls r).phase.mayWrite st = false
  worker : (s.works r).phase.mayWrite st = false
  enders : ∀ e, (s.enders e).mayWrite r st = false

/-- No process but the one that takes `a` is about to write another status of
run `r` than `st`. -/
structure Unopposed (s : St) (a : Act) (r : Nat) (st : RepoSyncRunStatus) : Prop where
  call : a.caller = some r ∨ (s.calls r).phase.mayWrite st = false
  worker : a.worker = some r ∨ (s.works r).phase.mayWrite st = false
  enders : ∀ e, a = .endRun e ∨ (s.enders e).mayWrite r st = false

/-- A run is ended only if nobody else is about to write another status of it. -/
def Alone (s : St) (a : Act) : Prop := ∀ r st, a.ending s = some (r, st) → Unopposed s a r st

def Act.ender : Act → Option Nat
  | .cancelRun e _ | .findStale e _ | .probe e _ | .cancelPending e _ | .refresh e | .endRun e => some e
  | _ => none

section
variable {s s' : St} {a : Act} (hn : next s a = some s')
include hn

theorem enders_same (ha : a.ender = none) : s'.enders = s.enders := by
  cases a with
  | cancelRun | findStale | probe | cancelPending | refresh | endRun => cases ha
  | tick => cases hn; rfl
  | push | load | persistUpload | prepareCheckout | fetch | checkedOut | setRequestedRef | raise | markEnqueueFailed
  | crash | start | loadRepository | markFailedSync | die =>
    obtain ⟨_, hn⟩ := guard_some hn
    cases hn
    rfl
  | receive | request | check | insert | dispatch | loadRun | beginRun | succeed =>
    simp only [next, St.receive, St.request, St.check, St.insert, St.dispatch, St.loadRun, St.beginRun, St.succeed] at hn
    repeat' split at hn
    all_goals cases hn
    all_goals rfl

theorem ender_refreshed (ho : Once s.rows) {e : Nat} (hp : (s'.enders e).phase = .refreshed) :
    (s'.enders e = s.enders e ∧ a ≠ .endRun e) ∨ ∃ st, s.status (s'.enders e).run = some st ∧ st.active = true := by
  have hother : ∀ {g : Nat} {x : Ender}, s'.enders = Function.update s.enders g x → a ≠ .endRun e →
      (x.phase = .refreshed → ∃ st, s.status x.run = some st ∧ st.active = true) →
      (s'.enders e = s.enders e ∧ a ≠ .endRun e) ∨ ∃ st, s.status (s'.enders e).run = some st ∧ st.active = true := by
    intro g x hx hne hst
    rw [hx] at hp ⊢
    by_cases he : e = g
    · subst he
      rw [Function.update_self] at hp ⊢
      exact Or.inr (hst hp)
    · rw [Function.update_of_ne he]
      exact Or.inl ⟨rfl, hne⟩
  cases a with
  | cancelRun g r =>
    obtain ⟨_, hn⟩ := guard_some hn
    cases hn
    exact hother rfl (by simp) (by simp)
  | findStale g r =>
    simp only [next, St.findStale] at hn
    split at hn
    · cases hn
    · obtain ⟨_, hn⟩ := guard_some hn
      cases hn
      exact hother rfl (by simp) (by simp)
  | probe g answered =>
    obtain ⟨_, hn⟩ := guard_some hn
    split at hn <;> cases hn <;> exact hother rfl (by simp) (by simp)
  | cancelPending g r =>
    simp only [next, St.cancelPending] at hn
    split at hn
    · cases hn
    · rename_i q hq
      obtain ⟨hguard, hn⟩ := guard_some hn
      cases hn
      exact hother rfl (by simp) fun _ => ⟨.queued, by simp [St.status, hq, hguard.2.2], rfl⟩
  | refresh g =>
    obtain ⟨_, hn⟩ := guard_some hn
    cases hn
    refine hother rfl (by simp) fun hr => ?_
    by_cases hact : isActive s.rows (s.enders g).run = true
    · exact (isActive_iff.mp hact).status ho
    · simp [hact] at hr
  | endRun g =>
    obtain ⟨hg, hn⟩ := guard_some hn
    cases hn
    by_cases he : e = g
    · subst he
      simp [St.setRow, St.ender, St.setEnder] at hp
    · refine Or.inl ⟨?_, fun h => he (Act.endRun.inj h).symm⟩
      simp [St.setRow, St.ender, St.setEnder, he]
  | _ => exact Or.inl ⟨congrFun (enders_same hn rfl) e, by simp⟩

end

/-! ## A step -/

theorem status_has {s : St} {r : Nat} {st : RepoSyncRunStatus} (h : s.status r = some st) : Has s.rows r := by
  by_contra hno
  simp [St.status, row?_none hno] at h

theorem CallMove.undisputed {s : St} {r : Nat} {a : Act} {c : Call} {st : RepoSyncRunStatus} (hm : CallMove s r a c)
    (hb : (s.calls r).phase.before = false) (h : (s.calls r).phase.mayWrite st = false) :
    c.phase.mayWrite st = false := by
  cases hm with
  | stay => exact h
  | receive hp | duplicate hp | request hp | load hp => simp [hp, CallPhase.before] at hb
  | fetch hp => simp [hp, CallPhase.mayWrite, CallPhase.undecided] at h
  | goto hg =>
    cases hg with
    | inserted hp => simp [hp, CallPhase.before] at hb
    | rewriting hp | prepared hp | stored hp => simp [hp, CallPhase.mayWrite, CallPhase.undecided] at h
    | raising hp => rcases hp with hp | hp | hp | hp <;> simp [hp, CallPhase.mayWrite, CallPhase.undecided] at h
    | persisted | absorbed | checked | conflict | skipped | done | failed | crashed => rfl

section
variable {s s' : St} {a : Act} {r : Nat} {st : RepoSyncRunStatus} (hn : next s a = some s')
include hn

theorem start_guard (ha : a = .loadRun r) (hst : s.status r = some st) (hterm : st.active = false)
    (hne : st ≠ .error) : (s'.works r).phase = .ended := by
  subst ha
  obtain ⟨_, hn⟩ := guard_some hn
  rw [St.status, Option.map_eq_some_iff] at hst
  obtain ⟨q, hq, rfl⟩ := hst
  rw [hq] at hn
  have hguard : q.status = .cancelled ∨ q.status = .skipped ∨ q.status = .success := by
    cases h : q.status <;> simp [h, RepoSyncRunStatus.active] at hterm hne ⊢
  simp only [hguard, if_true, Option.some.injEq] at hn
  subst hn
  simp [St.work, St.setWork]

theorem ending_undisputed {st' : RepoSyncRunStatus} (he : a.ending s = some (r, st')) (h : Undisputed s r st) : st' = st := by
  cases a with
  | dispatch g lost =>
    obtain ⟨hp, _⟩ := guard_some hn
    obtain ⟨_, he⟩ := guard_some he
    cases he
    have hcall := h.call
    simp [hp, CallPhase.mayWrite, CallPhase.undecided] at hcall
  | markEnqueueFailed g =>
    obtain ⟨hp, _⟩ := guard_some hn
    cases he
    have hcall := h.call
    simp only [hp, CallPhase.mayWrite, CallPhase.undecided, Bool.false_or, decide_true, Bool.true_and,
      decide_eq_false_iff_not, not_not] at hcall
    exact hcall.symm
  | succeed g | markFailedSync g =>
    obtain ⟨hp, _⟩ := guard_some hn
    cases he
    have hworker := h.worker
    simp [hp, WorkPhase.mayWrite] at hworker
  | endRun e =>
    obtain ⟨hp, _⟩ := guard_some hn
    cases he
    simpa [Ender.mayWrite, hp] using h.enders e
  | _ => cases he

theorem Undisputed.kept (hi : Inv s) (ho : Once s.rows) (hst : s.status r = some st) (hterm : st.active = false)
    (h : Undisputed s r st) : Undisputed s' r st := by
  have hm := next_moved hn
  refine ⟨(hm.call r).undisputed (hi.rowed (status_has hst)) h.call, ?_, ?_⟩
  · have hw := h.worker
    by_cases hload : a = .loadRun r
    · by_cases hne : st = .error
      · obtain ⟨hp, _⟩ := guard_some (hload ▸ hn)
        simp [hp, hne, WorkPhase.mayWrite] at hw
      · simp [start_guard hn hload hst hterm hne, WorkPhase.mayWrite]
    · have hmove := hm.work r
      generalize s'.works r = w at hmove
      cases hmove with
      | stay => exact hw
      | store hp =>
        have hcall := h.call
        simp [hp, CallPhase.mayWrite, CallPhase.undecided] at hcall
      | start hp | loadRepository hp => simpa [hp, WorkPhase.mayWrite] using hw
      | loadRun => exact absurd rfl hload
      | running hp => simp [hp, WorkPhase.mayWrite] at hw
      | ended => rfl
  · intro e
    by_cases hp : (s'.enders e).phase = .refreshed
    · rcases ender_refreshed hn ho hp with ⟨he, _⟩ | ⟨st', hst', hact⟩
      · rw [he]
        exact h.enders e
      · by_cases hr : (s'.enders e).run = r
        · -- it found the run active, which is terminal
          rw [hr, hst, Option.some.injEq] at hst'
          rw [← hst', hterm] at hact
          cases hact
        · simp [Ender.mayWrite, hr]
    · simp [Ender.mayWrite, hp]

theorem Unopposed.undisputed (he : a.ending s = some (r, st)) (h : Unopposed s a r st) : Undisputed s' r st := by
  have hcall := h.call
  have hworker := h.worker
  have henders := h.enders
  cases a with
  | dispatch g lost =>
    obtain ⟨_, hn⟩ := guard_some hn
    obtain ⟨hskip, he⟩ := guard_some he
    cases he
    simp only [hskip, if_true, Option.some.injEq] at hn
    subst hn
    exact ⟨by simp [St.setRow, St.goto, St.setCall, CallPhase.mayWrite, CallPhase.undecided],
      hworker.resolve_left nofun, fun e => (henders e).resolve_left nofun⟩
  | markEnqueueFailed g =>
    obtain ⟨_, hn⟩ := guard_some hn
    cases he
    cases hn
    exact ⟨by simp [St.setRow, St.goto, St.setCall, CallPhase.mayWrite, CallPhase.undecided],
      hworker.resolve_left nofun, fun e => (henders e).resolve_left nofun⟩
  | succeed g =>
    have hsame := enders_same hn rfl
    cases he
    refine ⟨?_, ?_, fun e => hsame ▸ (henders e).resolve_left nofun⟩
    all_goals
      obtain ⟨_, hn⟩ := guard_some hn
      split at hn
    · cases hn
      exact hcall.resolve_left nofun
    · split at hn <;> cases hn <;> exact hcall.resolve_left nofun
    · cases hn
      simp [St.setRow, St.work, St.setWork, WorkPhase.mayWrite]
    · split at hn <;> cases hn <;> simp [St.setRow, St.work, St.setWork, WorkPhase.mayWrite]
  | markFailedSync g =>
    obtain ⟨_, hn⟩ := guard_some hn
    cases he
    cases hn
    exact ⟨hcall.resolve_left nofun, by simp [St.setRow, St.work, St.setWork, WorkPhase.mayWrite],
      fun e => (henders e).resolve_left nofun⟩
  | endRun g =>
    obtain ⟨_, hn⟩ := guard_some hn
    cases he
    cases hn
    refine ⟨hcall.resolve_left nofun, hworker.resolve_left nofun, fun e => ?_⟩
    by_cases heg : e = g
    · simp [heg, St.setRow, St.ender, St.setEnder, Ender.mayWrite]
    · have hother := (henders e).resolve_left fun h => heg (Act.endRun.inj h).symm
      simpa [heg, St.setRow, St.ender, St.setEnder] using hother
  | _ => cases he

end

structure Final (s : St) : Prop where
  inv : Inv s
  once : Once s.rows
  undisputed : ∀ r st, s.status r = some st → st.active = false → Undisputed s r st

theorem Init.final {s : St} (h : Init s) : Final s where
  inv := h.inv
  once := by simp [Once, h.rows]
  undisputed r st hst := by simp [St.status, row?, h.rows] at hst

section
variable {s s' : St} {a : Act} (h : Final s) (hn : next s a = some s')
include h hn

theorem Final.status {r : Nat} {st : RepoSyncRunStatus} (hst : s.status r = some st) (hterm : st.active = false) :
    s'.status r = some st := by
  have hset := h.undisputed r st hst hterm
  have hmove := (next_moved hn).rows.status r
  generalize s'.status r = o at hmove
  cases hmove with
  | stay => exact hst
  | inserted _ hp =>
    have hbefore := h.inv.rowed (status_has hst)
    simp [hp, CallPhase.before] at hbefore
  | running _ hp =>
    have hworker := hset.worker
    simp [hp, WorkPhase.mayWrite] at hworker
  | ended he => rw [ending_undisputed hn he hset]

theorem Final.step (hok : Alone s a) : Final s' := by
  refine ⟨h.inv.step hn, (next_moved hn).rows.once h.inv h.once, ?_⟩
  intro r st hst hterm
  have hmove := (next_moved hn).rows.status r
  generalize ho : s'.status r = o at hmove
  rw [hst] at ho
  cases hmove with
  | stay => exact (h.undisputed r st ho.symm hterm).kept hn h.inv h.once ho.symm hterm
  | inserted | running =>
    cases ho
    cases hterm
  | ended he =>
    cases ho
    exact (hok r st he).undisputed hn he

end

/-! ## Runs -/

/-- **Terminal runs are final.** In every run in which a sync run is ended only
while no other process is about to write another status of it, a terminal
status never changes again. -/
theorem terminal_final {s u v : St} (hs : Init s) {as bs : List Act}
    (hok : ∀ t ∈ Machine.trace next s (as ++ bs), Alone t.pre t.act) (hu : Machine.run next s as = some u)
    (hv : Machine.run next u bs = some v) {r : Nat} {st : RepoSyncRunStatus} (hst : u.status r = some st)
    (hterm : st.active = false) : v.status r = some st := by
  have hstep : ∀ s a s', Final s → Alone s a → next s a = some s' → Final s' := fun _ _ _ h ho hn => h.step hn ho
  rw [Machine.trace_append next hu] at hok
  have hfinal : Final u :=
    Machine.run_guarded next hstep hs.final (fun t ht => hok t (List.mem_append_left _ ht)) hu
  have hstatus : ∀ s a s', Final s ∧ s.status r = some st → Alone s a → next s a = some s' →
      Final s' ∧ s'.status r = some st :=
    fun _ _ _ h ho hn => ⟨h.1.step hn ho, h.1.status hn h.2 hterm⟩
  exact (Machine.run_guarded next hstatus ⟨hfinal, hst⟩ (fun t ht => hok t (List.mem_append_right _ ht)) hv).2

/-- Two syncs, the first of which succeeds and the second fails. -/
def successfulSync : List Act := upToRunning 1 "a1" ++ [.succeed 1]

def failedSync : List Act := upToRunning 2 "a1" ++ [.markFailedSync 2]

theorem syncs_alone : ∀ t ∈ Machine.trace next fresh (successfulSync ++ failedSync), Alone t.pre t.act := by
  have hstep : ∀ s a s', s.enders = fresh.enders → a.ender = none → next s a = some s' → s'.enders = fresh.enders :=
    fun _ _ _ he ha hn => (enders_same hn ha).trans he
  have hidle : ∀ t ∈ Machine.trace next fresh (successfulSync ++ failedSync),
      t.pre.enders = fresh.enders ∧ t.post.enders = fresh.enders :=
    Machine.inv_of_guarded next hstep rfl (by decide)
  have hothers : ∀ t ∈ Machine.trace next fresh (successfulSync ++ failedSync), ∀ x ∈ t.act.ending t.pre,
      (t.act.caller = some x.1 ∨ (t.pre.calls x.1).phase.mayWrite x.2 = false) ∧
        (t.act.worker = some x.1 ∨ (t.pre.works x.1).phase.mayWrite x.2 = false) := by
    decide
  intro t ht r st he
  obtain ⟨hcall, hworker⟩ := hothers t ht (r, st) he
  exact ⟨hcall, hworker, fun e => Or.inr (by simp [(hidle t ht).1, fresh, Ender.mayWrite])⟩

theorem terminal_final_two :
    ∃ u, Machine.run next fresh successfulSync = some u ∧ u.status 1 = some .success ∧
      ∃ v, Machine.run next u failedSync = some v ∧ v.status 1 = some .success := by
  obtain ⟨v, hv⟩ : ∃ v, Machine.run next fresh (successfulSync ++ failedSync) = some v :=
    Option.isSome_iff_exists.mp (by decide)
  obtain ⟨u, hu, hrest⟩ := Machine.run_split next hv
  have hst : u.status 1 = some .success := by
    have hrun : (Machine.run next fresh successfulSync).bind (·.status 1) = some .success := by decide
    simpa [hu] using hrun
  exact ⟨u, hu, hst, v, hrest, terminal_final fresh_init syncs_alone hu hrest hst rfl⟩

/-- A cancel whose abort has no effect: the worker ends the cancelled run in
success. -/
theorem cancelled_succeeds :
    (Machine.run next fresh (upToRunning 1 "a1" ++ [.cancelRun 1 1, .refresh 1, .endRun 1])).bind (·.status 1) =
      some .cancelled ∧
    (Machine.run next fresh (upToRunning 1 "a1" ++ [.cancelRun 1 1, .refresh 1, .endRun 1] ++ [.succeed 1])).bind
      (·.status 1) = some .success := by
  decide

end Cograph.Pipeline
