import Cograph.Pipeline

/-!
# What one step can do

A step moves at most one call, one worker and the run table. These are all the
moves, with what each is guarded by, and what they do to the active runs.
-/

namespace Cograph.Pipeline

/-! ## Rows -/

def Active (rows : List RepoSyncRun) (r : Nat) : Prop := ∃ q ∈ rows, q.id = r ∧ q.active = true

def Has (rows : List RepoSyncRun) (r : Nat) : Prop := ∃ q ∈ rows, q.id = r

theorem Active.has {rows : List RepoSyncRun} {r : Nat} (h : Active rows r) : Has rows r :=
  let ⟨q, hq, hid, _⟩ := h
  ⟨q, hq, hid⟩

theorem isActive_iff {rows : List RepoSyncRun} {r : Nat} : isActive rows r = true ↔ Active rows r := by
  simp only [isActive, Active, List.any_eq_true, decide_eq_true_eq]

theorem activeRun_none {rows : List RepoSyncRun} (h : activeRun rows = none) (r : Nat) : ¬ Active rows r := by
  intro ⟨q, hq, _, hact⟩
  exact (List.find?_eq_none.mp h) q hq hact

theorem activeRun_some {rows : List RepoSyncRun} {q : RepoSyncRun} (h : activeRun rows = some q) : Active rows q.id :=
  ⟨q, List.mem_of_find?_eq_some h, rfl, List.find?_some h⟩

section
variable {rows : List RepoSyncRun} {r a : Nat} {f : RepoSyncRun → RepoSyncRun} (hid : ∀ q, (f q).id = q.id)
include hid

theorem has_setRow : Has (setRow rows r f) a ↔ Has rows a := by
  simp only [Has, setRow, List.mem_map, exists_exists_and_eq_and]
  refine exists_congr fun q => and_congr_right fun _ => ?_
  split
  · rw [hid]
  · rfl

theorem active_setRow_ne (h : a ≠ r) : Active (setRow rows r f) a ↔ Active rows a := by
  simp only [Active, setRow, List.mem_map, exists_exists_and_eq_and]
  refine exists_congr fun q => and_congr_right fun _ => ?_
  split
  · rename_i hq
    rw [hid]
    exact ⟨fun ⟨h₁, _⟩ => absurd (h₁.symm.trans hq) h, fun ⟨h₁, _⟩ => absurd (h₁.symm.trans hq) h⟩
  · rfl

theorem active_setRow_keep (hst : ∀ q, (f q).status = q.status) : Active (setRow rows r f) a ↔ Active rows a := by
  simp only [Active, setRow, List.mem_map, exists_exists_and_eq_and]
  refine exists_congr fun q => and_congr_right fun _ => ?_
  split
  · rw [hid, RepoSyncRun.active, hst]; rfl
  · rfl

theorem active_setRow_end (hst : ∀ q, (f q).active = false) : Active (setRow rows r f) a ↔ a ≠ r ∧ Active rows a := by
  by_cases h : a = r
  · subst h
    refine ⟨fun ⟨q, hq, hqid, hact⟩ => ?_, fun h => absurd rfl h.1⟩
    obtain ⟨p, _, rfl⟩ := List.mem_map.mp hq
    by_cases hp : p.id = a
    · rw [if_pos hp, hst] at hact; cases hact
    · rw [if_neg hp] at hqid; exact absurd hqid hp
  · rw [active_setRow_ne hid h]
    exact ⟨fun ha => ⟨h, ha⟩, fun ha => ha.2⟩

theorem active_setRow_start (hst : ∀ q, (f q).active = true) (hrow : Has rows r) : Active (setRow rows r f) r := by
  obtain ⟨q, hq, hqid⟩ := hrow
  exact ⟨f q, List.mem_map.mpr ⟨q, hq, by simp [hqid]⟩, (hid q).trans hqid, hst q⟩

end

/-! ## Moves -/

def Act.caller : Act → Option Nat
  | .receive h _ | .request h _ | .load h | .persistUpload h _ | .check h | .insert h | .prepareCheckout h | .fetch h _
  | .checkedOut h | .dispatch h _ | .setRequestedRef h | .raise h | .markEnqueueFailed h | .crash h => some h
  | _ => none

def Act.worker : Act → Option Nat
  | .start r | .loadRepository r | .loadRun r | .beginRun r | .succeed r | .markFailedSync r | .die r => some r
  | _ => none

def Act.writes : Act → Bool
  | .insert _ | .dispatch _ _ | .setRequestedRef _ | .markEnqueueFailed _ | .beginRun _ | .succeed _ | .markFailedSync _
  | .endRun _ => true
  | _ => false

/-- How the phase of call `h` alone can change. -/
inductive Goes (s : St) (h : Nat) : Act → CallPhase → Prop
  | persisted {c : Ref} : (s.calls h).phase = .loaded → Goes s h (.persistUpload h c) .persisted
  | absorbed {q : RepoSyncRun} : (s.calls h).phase = St.ready (s.calls h).kind → activeRun s.rows = some q →
      Goes s h (.check h) (.absorbed q.id)
  | checked : (s.calls h).phase = St.ready (s.calls h).kind → activeRun s.rows = none → Goes s h (.check h) .checked
  | conflict {q : RepoSyncRun} : (s.calls h).phase = .checked → activeRun s.rows = some q → Goes s h (.insert h) .failed
  | inserted : (s.calls h).phase = .checked → activeRun s.rows = none → Goes s h (.insert h) .inserted
  | rewriting : (s.calls h).phase = .inserted → Goes s h (.prepareCheckout h) .rewriting
  | prepared : (s.calls h).phase = .fetched → Goes s h (.checkedOut h) .prepared
  | skipped {lost : Bool} : (s.calls h).phase = .prepared → (s.calls h).skips = true →
      Goes s h (.dispatch h lost) .skipped
  | stored {lost : Bool} : (s.calls h).phase = .prepared → (s.calls h).skips = false →
      Goes s h (.dispatch h lost) (if lost then .raising else .stored)
  | done : (s.calls h).phase = .stored → Goes s h (.setRequestedRef h) .done
  | raising : (s.calls h).phase = .inserted ∨ (s.calls h).phase = .rewriting ∨ (s.calls h).phase = .fetched ∨
      (s.calls h).phase = .prepared → Goes s h (.raise h) .raising
  | failed : (s.calls h).phase = .raising → Goes s h (.markEnqueueFailed h) .failed
  | crashed : (s.calls h).phase ≠ .idle → (s.calls h).phase.ended = false → Goes s h (.crash h) .failed

inductive CallMove (s : St) (h : Nat) : Act → Call → Prop
  | stay {a : Act} : a.caller ≠ some h → CallMove s h a (s.calls h)
  | receive {d : Nat} : (s.calls h).phase = .idle → s.deliveries.find? (·.deliveryId = d) = none →
      CallMove s h (.receive h d) ⟨.webhook d, .received, none, none⟩
  | duplicate {d : Nat} : (s.calls h).phase = .idle → CallMove s h (.receive h d) ⟨.webhook d, .duplicate, none, none⟩
  | request {k : Kind} : (s.calls h).phase = .idle → (∀ d, k ≠ .webhook d) →
      CallMove s h (.request h k) ⟨k, .received, none, none⟩
  | load : (s.calls h).phase = .received →
      CallMove s h (.load h) { s.calls h with phase := .loaded, lastCommit := s.lastCommit }
  | fetch {c : Ref} : (s.calls h).phase = .rewriting →
      ((s.calls h).kind.requestedRef = none → s.origin.head? = some c) →
      CallMove s h (.fetch h c) { s.calls h with phase := .fetched, commit := some c }
  | goto {a : Act} {p : CallPhase} : Goes s h a p → CallMove s h a { s.calls h with phase := p }

inductive WorkMove (s : St) (r : Nat) : Act → Work → Prop
  | stay {a : Act} : a.worker ≠ some r → WorkMove s r a (s.works r)
  | store {lost : Bool} : (s.calls r).phase = .prepared → (s.calls r).skips = false →
      WorkMove s r (.dispatch r lost) { s.works r with phase := .queued }
  | start : (s.works r).phase = .queued → WorkMove s r (.start r) { s.works r with phase := .started }
  | loadRepository : (s.works r).phase = .started →
      WorkMove s r (.loadRepository r) { s.works r with phase := .opened, lastCommit := s.lastCommit }
  | loadRun {q : RepoSyncRun} : (s.works r).phase = .opened → row? s.rows r = some q →
      WorkMove s r (.loadRun r)
        { s.works r with phase := .loaded, requestedRef := q.requestedRef, startedAt := q.startedAt }
  | running : (s.works r).phase = .loaded → (∀ a, Active s.rows a → a = r) →
      WorkMove s r (.beginRun r) { s.works r with phase := .running }
  | ended {a : Act} : (s.works r).phase ≠ .idle → WorkMove s r a { s.works r with phase := .ended }

inductive RowMove (s : St) : Act → List RepoSyncRun → Prop
  | stay {a : Act} : a.writes = false → RowMove s a s.rows
  | conflict {h : Nat} {q : RepoSyncRun} : activeRun s.rows = some q → RowMove s (.insert h) s.rows
  | insert {h : Nat} : (s.calls h).phase = .checked → activeRun s.rows = none →
      RowMove s (.insert h) (s.newRun h :: s.rows)
  | stored {h : Nat} {lost : Bool} : (s.calls h).skips = false → RowMove s (.dispatch h lost) s.rows
  | skip {h : Nat} {lost : Bool} : (s.calls h).phase = .prepared → (s.calls h).skips = true →
      RowMove s (.dispatch h lost) (setRow s.rows h fun q =>
        { q with status := .skipped, requestedRef := (s.calls h).commit, arqJobId := none })
  | requestedRef {h : Nat} : (s.calls h).phase = .stored → RowMove s (.setRequestedRef h)
      (setRow s.rows h fun q => { q with requestedRef := (s.calls h).commit, arqJobId := some h })
  | enqueueFailed {h : Nat} : (s.calls h).phase = .raising → RowMove s (.markEnqueueFailed h)
      (setRow s.rows h fun q => { q with status := .error })
  | busy {b r : Nat} : Active s.rows b → b ≠ r → RowMove s (.beginRun r) s.rows
  | running {r : Nat} : (s.works r).phase = .loaded → (∀ a, Active s.rows a → a = r) → RowMove s (.beginRun r)
      (setRow s.rows r fun q =>
        { q with status := .running, startedAt := some ((s.works r).startedAt.getD s.now) })
  | success {r : Nat} : (s.works r).phase = .running → RowMove s (.succeed r)
      (setRow s.rows r fun q => { q with status := .success })
  | syncFailed {r : Nat} : (s.works r).phase = .running → RowMove s (.markFailedSync r)
      (setRow s.rows r fun q => { q with status := .error })
  | endRun {e : Nat} : (s.enders e).phase = .refreshed → RowMove s (.endRun e)
      (setRow s.rows (s.enders e).run fun q => { q with status := (s.enders e).ending.status })

def Act.delivers : Act → Bool
  | .receive _ _ | .check _ | .insert _ | .crash _ => true
  | _ => false

inductive DeliveryMove (s : St) : Act → List RepoWebhookDelivery → Prop
  | stay {a : Act} : a.delivers = false → DeliveryMove s a s.deliveries
  | receive {h d : Nat} : s.deliveries.find? (·.deliveryId = d) = none →
      DeliveryMove s (.receive h d) (⟨d, h, false⟩ :: s.deliveries)
  | duplicate {h d : Nat} {x : RepoWebhookDelivery} : s.deliveries.find? (·.deliveryId = d) = some x →
      DeliveryMove s (.receive h d) s.deliveries
  | pass {h : Nat} : DeliveryMove s (.check h) s.deliveries
  | absorb {h : Nat} : DeliveryMove s (.check h) (commitDelivery s.deliveries h)
  | insert {h : Nat} : activeRun s.rows = none → DeliveryMove s (.insert h) (commitDelivery s.deliveries h)
  | conflict {h : Nat} {q : RepoSyncRun} : activeRun s.rows = some q →
      DeliveryMove s (.insert h) (rollbackDelivery s.deliveries h)
  | crash {h : Nat} : DeliveryMove s (.crash h) (rollbackDelivery s.deliveries h)

/-- What a step does to the calls, the workers, the tables, the recorded commit
and the origin. -/
structure Moved (s : St) (a : Act) (s' : St) : Prop where
  call : ∀ h, CallMove s h a (s'.calls h)
  work : ∀ r, WorkMove s r a (s'.works r)
  rows : RowMove s a s'.rows
  deliveries : DeliveryMove s a s'.deliveries
  last : (∀ r, a ≠ .succeed r) → s'.lastCommit = s.lastCommit
  origin : (∀ c d, a ≠ .push c d) → (∀ h c, a ≠ .persistUpload h c) → s'.origin = s.origin

section
variable {s s' : St} {a : Act}

theorem call_at {g h : Nat} {c : Call} (ha : a.caller = some g) (hc : CallMove s g a c) :
    CallMove s h a (Function.update s.calls g c h) := by
  by_cases hg : h = g
  · subst hg; rw [Function.update_self]; exact hc
  · rw [Function.update_of_ne hg]
    exact .stay fun h' => hg (Option.some.inj (h'.symm.trans ha))

theorem work_at {g r : Nat} {w : Work} (ha : ∀ r, a.worker = some r → r = g) (hw : WorkMove s g a w) :
    WorkMove s r a (Function.update s.works g w r) := by
  by_cases hg : r = g
  · subst hg; rw [Function.update_self]; exact hw
  · rw [Function.update_of_ne hg]
    exact .stay fun h' => hg (ha r h')

theorem Moved.quiet (hcaller : a.caller = none) (hworker : a.worker = none) (hwrites : a.writes = false)
    (hdelivers : a.delivers = false) (hc : s'.calls = s.calls) (hw : s'.works = s.works) (hr : s'.rows = s.rows)
    (hd : s'.deliveries = s.deliveries) (hl : s'.lastCommit = s.lastCommit)
    (ho : (∀ c d, a ≠ .push c d) → s'.origin = s.origin) : Moved s a s' where
  call h := by rw [hc]; exact .stay (by rw [hcaller]; nofun)
  work r := by rw [hw]; exact .stay (by rw [hworker]; nofun)
  rows := by rw [hr]; exact .stay hwrites
  deliveries := by rw [hd]; exact .stay hdelivers
  last _ := hl
  origin hp _ := ho hp

theorem Moved.of_call {g : Nat} {c : Call} (hm : CallMove s g a c) (hcaller : a.caller = some g)
    (hworker : a.worker = none) (hc : s'.calls = Function.update s.calls g c) (hw : s'.works = s.works) (hr : RowMove s a s'.rows)
    (hd : DeliveryMove s a s'.deliveries) (hl : s'.lastCommit = s.lastCommit)
    (ho : (∀ h c, a ≠ .persistUpload h c) → s'.origin = s.origin) : Moved s a s' where
  call h := by rw [hc]; exact call_at hcaller hm
  work r := by rw [hw]; exact .stay (by rw [hworker]; nofun)
  rows := hr
  deliveries := hd
  last _ := hl
  origin _ := ho

theorem Moved.of_work {g : Nat} {w : Work} (hm : WorkMove s g a w) (hcaller : a.caller = none)
    (hworker : a.worker = some g) (hc : s'.calls = s.calls)
    (hw : s'.works = Function.update s.works g w) (hr : RowMove s a s'.rows) (hd : DeliveryMove s a s'.deliveries)
    (hl : (∀ r, a ≠ .succeed r) → s'.lastCommit = s.lastCommit) (ho : s'.origin = s.origin) : Moved s a s' where
  call h := by rw [hc]; exact .stay (by rw [hcaller]; nofun)
  work r := by
    rw [hw]
    exact work_at (fun r hr => (Option.some.inj (hworker.symm.trans hr)).symm) hm
  rows := hr
  deliveries := hd
  last := hl
  origin _ _ := ho

theorem guard_some {α : Type} {p : Prop} [Decidable p] {o : Option α} {y : α} (h : (if p then o else none) = some y) :
    p ∧ o = some y := by
  split at h
  · exact ⟨‹p›, h⟩
  · cases h

theorem next_moved (hn : next s a = some s') : Moved s a s' := by
  cases a with
  | tick => cases hn; exact .quiet rfl rfl rfl rfl rfl rfl rfl rfl rfl fun _ => rfl
  | push c d =>
    obtain ⟨_, hn⟩ := guard_some hn; cases hn
    exact .quiet rfl rfl rfl rfl rfl rfl rfl rfl rfl fun h => absurd rfl (h c d)
  | receive g d =>
    obtain ⟨hp, hn⟩ := guard_some hn
    split at hn
    · rename_i hq; cases hn
      exact .of_call (.receive hp.1 hq) rfl rfl rfl rfl (.stay rfl) (.receive hq) rfl fun _ => rfl
    · rename_i hq
      split at hn
      · cases hn
        exact .of_call (.duplicate hp.1) rfl rfl rfl rfl (.stay rfl) (.duplicate hq) rfl fun _ => rfl
      · cases hn
  | request g k =>
    simp only [next, St.request] at hn
    split at hn
    · cases hn
    · rename_i hk
      obtain ⟨hp, hn⟩ := guard_some hn; cases hn
      exact .of_call (.request hp hk) rfl rfl rfl rfl (.stay rfl) (.stay rfl) rfl fun _ => rfl
  | load g =>
    obtain ⟨hp, hn⟩ := guard_some hn; cases hn
    exact .of_call (.load hp) rfl rfl rfl rfl (.stay rfl) (.stay rfl) rfl fun _ => rfl
  | persistUpload g c =>
    obtain ⟨hp, hn⟩ := guard_some hn; cases hn
    exact .of_call (.goto (.persisted hp.1)) rfl rfl rfl rfl (.stay rfl) (.stay rfl) rfl fun h => absurd rfl (h g c)
  | check g =>
    obtain ⟨hp, hn⟩ := guard_some hn
    split at hn
    · rename_i hq; cases hn
      exact .of_call (.goto (.absorbed hp hq)) rfl rfl rfl rfl (.stay rfl) .absorb rfl fun _ => rfl
    · rename_i hq; cases hn
      exact .of_call (.goto (.checked hp hq)) rfl rfl rfl rfl (.stay rfl) .pass rfl fun _ => rfl
  | insert g =>
    obtain ⟨hp, hn⟩ := guard_some hn
    split at hn
    · rename_i hq; cases hn
      exact .of_call (.goto (.conflict hp hq)) rfl rfl rfl rfl (.conflict hq) (.conflict hq) rfl fun _ => rfl
    · rename_i hq; cases hn
      exact .of_call (.goto (.inserted hp hq)) rfl rfl rfl rfl (.insert hp hq) (.insert hq) rfl fun _ => rfl
  | prepareCheckout g =>
    obtain ⟨hp, hn⟩ := guard_some hn; cases hn
    exact .of_call (.goto (.rewriting hp)) rfl rfl rfl rfl (.stay rfl) (.stay rfl) rfl fun _ => rfl
  | fetch g c =>
    obtain ⟨hp, hn⟩ := guard_some hn; cases hn
    exact .of_call (.fetch hp.1 hp.2) rfl rfl rfl rfl (.stay rfl) (.stay rfl) rfl fun _ => rfl
  | checkedOut g =>
    obtain ⟨hp, hn⟩ := guard_some hn; cases hn
    exact .of_call (.goto (.prepared hp)) rfl rfl rfl rfl (.stay rfl) (.stay rfl) rfl fun _ => rfl
  | dispatch g lost =>
    obtain ⟨hp, hn⟩ := guard_some hn
    split at hn
    · rename_i hskip; cases hn
      exact .of_call (.goto (.skipped hp hskip)) rfl rfl rfl rfl (.skip hp hskip) (.stay rfl) rfl fun _ => rfl
    · rename_i hskip
      have hskip : (s.calls g).skips = false := by simpa using hskip
      cases hn
      exact ⟨fun h => call_at rfl (.goto (.stored hp hskip)), fun r => work_at nofun (.store hp hskip), .stored hskip,
        .stay rfl, fun _ => rfl, fun _ _ => rfl⟩
  | setRequestedRef g =>
    obtain ⟨hp, hn⟩ := guard_some hn; cases hn
    exact .of_call (.goto (.done hp)) rfl rfl rfl rfl (.requestedRef hp) (.stay rfl) rfl fun _ => rfl
  | raise g =>
    obtain ⟨hp, hn⟩ := guard_some hn; cases hn
    exact .of_call (.goto (.raising hp)) rfl rfl rfl rfl (.stay rfl) (.stay rfl) rfl fun _ => rfl
  | markEnqueueFailed g =>
    obtain ⟨hp, hn⟩ := guard_some hn; cases hn
    exact .of_call (.goto (.failed hp)) rfl rfl rfl rfl (.enqueueFailed hp) (.stay rfl) rfl fun _ => rfl
  | crash g =>
    obtain ⟨hp, hn⟩ := guard_some hn; cases hn
    exact .of_call (.goto (.crashed hp.1 hp.2)) rfl rfl rfl rfl (.stay rfl) .crash rfl fun _ => rfl
  | start g =>
    obtain ⟨hp, hn⟩ := guard_some hn; cases hn
    exact .of_work (.start hp) rfl rfl rfl rfl (.stay rfl) (.stay rfl) (fun _ => rfl) rfl
  | loadRepository g =>
    obtain ⟨hp, hn⟩ := guard_some hn; cases hn
    exact .of_work (.loadRepository hp) rfl rfl rfl rfl (.stay rfl) (.stay rfl) (fun _ => rfl) rfl
  | loadRun g =>
    obtain ⟨hp, hn⟩ := guard_some hn
    have hne : (s.works g).phase ≠ .idle := by rw [hp]; nofun
    split at hn
    · cases hn
      exact .of_work (.ended hne) rfl rfl rfl rfl (.stay rfl) (.stay rfl) (fun _ => rfl) rfl
    · rename_i hq
      split at hn
      · cases hn
        exact .of_work (.ended hne) rfl rfl rfl rfl (.stay rfl) (.stay rfl) (fun _ => rfl) rfl
      · cases hn
        exact .of_work (.loadRun hp hq) rfl rfl rfl rfl (.stay rfl) (.stay rfl) (fun _ => rfl) rfl
  | beginRun g =>
    obtain ⟨hp, hn⟩ := guard_some hn
    split at hn
    · rename_i hbusy
      obtain ⟨q, hq, hc⟩ := List.any_eq_true.mp hbusy
      simp only [decide_eq_true_eq] at hc
      cases hn
      exact .of_work (.ended (by rw [hp]; nofun)) rfl rfl rfl rfl (.busy ⟨q, hq, rfl, hc.2⟩ hc.1) (.stay rfl) (fun _ => rfl) rfl
    · rename_i hfree
      cases hn
      have alone : ∀ a, Active s.rows a → a = g := by
        intro a ⟨q, hq, hid, hact⟩
        by_cases hqr : q.id = g
        · exact hid.symm.trans hqr
        · exact absurd (List.any_eq_true.mpr ⟨q, hq, by simp [hqr, hact]⟩) hfree
      exact .of_work (.running hp alone) rfl rfl rfl rfl (.running hp alone) (.stay rfl) (fun _ => rfl) rfl
  | succeed g =>
    obtain ⟨hp, hn⟩ := guard_some hn
    have hne : (s.works g).phase ≠ .idle := by rw [hp]; nofun
    split at hn
    · cases hn
      exact .of_work (.ended hne) rfl rfl rfl rfl (.success hp) (.stay rfl) (fun h => absurd rfl (h g)) rfl
    · split at hn
      · cases hn
        exact .of_work (.ended hne) rfl rfl rfl rfl (.success hp) (.stay rfl) (fun h => absurd rfl (h g)) rfl
      · cases hn
        exact .of_work (.ended hne) rfl rfl rfl rfl (.success hp) (.stay rfl) (fun h => absurd rfl (h g)) rfl
  | markFailedSync g =>
    obtain ⟨hp, hn⟩ := guard_some hn; cases hn
    exact .of_work (.ended (by rw [hp]; nofun)) rfl rfl rfl rfl (.syncFailed hp) (.stay rfl) (fun _ => rfl) rfl
  | die g =>
    obtain ⟨hp, hn⟩ := guard_some hn; cases hn
    refine .of_work (.ended fun hidle => ?_) rfl rfl rfl rfl (.stay rfl) (.stay rfl) (fun _ => rfl) rfl
    rw [hidle] at hp; rcases hp with hp | hp <;> cases hp
  | cancelRun e g => obtain ⟨_, hn⟩ := guard_some hn; cases hn; exact .quiet rfl rfl rfl rfl rfl rfl rfl rfl rfl fun _ => rfl
  | findStale e g =>
    simp only [next, St.findStale] at hn
    split at hn
    · cases hn
    · obtain ⟨_, hn⟩ := guard_some hn; cases hn; exact .quiet rfl rfl rfl rfl rfl rfl rfl rfl rfl fun _ => rfl
  | probe e answered =>
    obtain ⟨_, hn⟩ := guard_some hn
    split at hn <;> cases hn <;> exact .quiet rfl rfl rfl rfl rfl rfl rfl rfl rfl fun _ => rfl
  | cancelPending e g =>
    simp only [next, St.cancelPending] at hn
    split at hn
    · cases hn
    · obtain ⟨_, hn⟩ := guard_some hn; cases hn; exact .quiet rfl rfl rfl rfl rfl rfl rfl rfl rfl fun _ => rfl
  | refresh e => obtain ⟨_, hn⟩ := guard_some hn; cases hn; exact .quiet rfl rfl rfl rfl rfl rfl rfl rfl rfl fun _ => rfl
  | endRun e =>
    obtain ⟨hp, hn⟩ := guard_some hn; cases hn
    exact ⟨fun _ => .stay nofun, fun _ => .stay nofun, .endRun hp, .stay rfl, fun _ => rfl, fun _ _ => rfl⟩

end

end Cograph.Pipeline
