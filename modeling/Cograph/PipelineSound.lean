import Cograph.PipelineMoves

/-!
# One sync at a time

What keeps two syncs of a repository apart is the partial unique index over
its active runs. At most one run is ever active, and a call that prepares the
checkout and a worker that reads it each have their run active, as long as
nobody else ends that run under them. A cancel, a sweep, or an enqueue that
failed after its job was stored can do so, and then the two overlap.
-/

namespace Cograph.Pipeline

/-! ## The run table -/

/-- The run that an action may end. -/
def Act.ends (s : St) : Act → Option Nat
  | .dispatch h _ | .markEnqueueFailed h => some h
  | .succeed r | .markFailedSync r => some r
  | .endRun e => some (s.enders e).run
  | _ => none

theorem Ending.inactive (x : Ending) : x.status.active = false := by cases x <;> rfl

section
variable {s : St} {a : Act} {rows : List RepoSyncRun} (hm : RowMove s a rows)
include hm

theorem RowMove.has {r : Nat} (hr : Has rows r) : Has s.rows r ∨ a = .insert r := by
  cases hm with
  | stay | conflict | stored | busy => exact Or.inl hr
  | insert =>
    obtain ⟨q, hq, hid⟩ := hr
    rcases List.mem_cons.mp hq with rfl | hq
    · exact Or.inr (congrArg Act.insert hid)
    · exact Or.inl ⟨q, hq, hid⟩
  | skip | requestedRef | enqueueFailed | running | success | syncFailed | endRun =>
    exact Or.inl ((has_setRow fun _ => by rfl).mp hr)

theorem RowMove.has_of {r : Nat} (hr : Has s.rows r) : Has rows r := by
  cases hm with
  | stay | conflict | stored | busy => exact hr
  | insert => obtain ⟨q, hq, hid⟩ := hr; exact ⟨q, List.mem_cons_of_mem _ hq, hid⟩
  | skip | requestedRef | enqueueFailed | running | success | syncFailed | endRun =>
    exact (has_setRow fun _ => by rfl).mpr hr

theorem RowMove.active {r : Nat} (hr : Active rows r) : Active s.rows r ∨ a = .insert r ∨ a = .beginRun r := by
  cases hm with
  | stay | conflict | stored | busy => exact Or.inl hr
  | insert =>
    obtain ⟨q, hq, hid, hact⟩ := hr
    rcases List.mem_cons.mp hq with rfl | hq
    · exact Or.inr (Or.inl (congrArg Act.insert hid))
    · exact Or.inl ⟨q, hq, hid, hact⟩
  | requestedRef => exact Or.inl ((active_setRow_keep (fun _ => by rfl) fun _ => by rfl).mp hr)
  | @running g =>
    by_cases hrg : r = g
    · subst hrg; exact Or.inr (Or.inr rfl)
    · exact Or.inl ((active_setRow_ne (fun _ => by rfl) hrg).mp hr)
  | skip | enqueueFailed | success | syncFailed =>
    exact Or.inl ((active_setRow_end (fun _ => by rfl) fun _ => by rfl).mp hr).2
  | endRun => exact Or.inl ((active_setRow_end (fun _ => by rfl) fun _ => by exact Ending.inactive _).mp hr).2

theorem RowMove.kept {r : Nat} (hr : Active s.rows r) (he : a.ends s ≠ some r) : Active rows r := by
  have hne : ∀ {g : Nat}, a.ends s = some g → r ≠ g := fun h hg => he (hg ▸ h)
  cases hm with
  | stay | conflict | stored | busy => exact hr
  | insert => obtain ⟨q, hq, hc⟩ := hr; exact ⟨q, List.mem_cons_of_mem _ hq, hc⟩
  | requestedRef => exact (active_setRow_keep (fun _ => by rfl) fun _ => by rfl).mpr hr
  | running _ halone =>
    have hrg := halone r hr
    subst hrg
    exact active_setRow_start (fun _ => by rfl) (fun _ => by rfl) hr.has
  | skip | enqueueFailed | success | syncFailed | endRun => exact (active_setRow_ne (fun _ => by rfl) (hne rfl)).mpr hr

theorem RowMove.unique (hu : ∀ {b c : Nat}, Active s.rows b → Active s.rows c → b = c) {b c : Nat}
    (hb : Active rows b) (hc : Active rows c) : b = c := by
  -- Whatever becomes active is alone.
  have alone : ∀ {g : Nat}, (∀ x, Active rows x → x = g) → b = c := fun h => (h b hb).trans (h c hc).symm
  have old : (∀ x, a ≠ .insert x) → (∀ x, a ≠ .beginRun x) → b = c := fun hi hr =>
    have was : ∀ {x}, Active rows x → Active s.rows x := fun hx =>
      (hm.active hx).resolve_right fun h => h.elim (hi _) (hr _)
    hu (was hb) (was hc)
  cases hm with
  | conflict | busy => exact hu hb hc
  | @insert h _ hnone =>
    refine alone (g := h) fun x hx => ?_
    obtain ⟨q, hq, hid, hact⟩ := hx
    rcases List.mem_cons.mp hq with rfl | hq
    · exact hid.symm
    · exact absurd ⟨q, hq, hid, hact⟩ (activeRun_none hnone x)
  | @running r _ halone =>
    refine alone (g := r) fun x hx => ?_
    by_cases hxr : x = r
    · exact hxr
    · exact halone x ((active_setRow_ne (fun _ => by rfl) hxr).mp hx)
  | stay hw => refine old (fun x h => ?_) fun x h => ?_ <;> rw [h] at hw <;> cases hw
  | stored | skip | requestedRef | enqueueFailed | success | syncFailed | endRun => exact old nofun nofun

end

theorem RowMove.started {s : St} {r : Nat} {rows : List RepoSyncRun} (hm : RowMove s (.beginRun r) rows)
    (halone : ∀ b, Active s.rows b → b = r) (hr : Has s.rows r) : Active rows r := by
  cases hm with
  | stay hw => cases hw
  | busy hb hne => exact absurd (halone _ hb) hne
  | running => exact active_setRow_start (fun _ => by rfl) (fun _ => by rfl) hr

theorem RowMove.insert_eq {s : St} {h : Nat} {rows : List RepoSyncRun} (hm : RowMove s (.insert h) rows)
    (hnone : activeRun s.rows = none) : rows = s.newRun h :: s.rows := by
  cases hm with
  | stay hw => cases hw
  | conflict hq => rw [hnone] at hq; cases hq
  | insert => rfl

/-! ## The schema and the processes -/

def CallPhase.before : CallPhase → Bool
  | .idle | .received | .loaded | .persisted | .checked => true
  | _ => false

def CallPhase.owns : CallPhase → Bool
  | .inserted | .rewriting | .fetched | .prepared | .stored | .raising | .done | .skipped => true
  | _ => false

def CallPhase.jobbed : CallPhase → Bool
  | .stored | .raising | .done | .failed => true
  | _ => false

/-- The call has its run and has yet to finish its checkout. -/
def CallPhase.preparing : CallPhase → Bool
  | .inserted | .rewriting | .fetched => true
  | _ => false

structure Inv (s : St) : Prop where
  unique : ∀ {a b : Nat}, Active s.rows a → Active s.rows b → a = b
  rowed : ∀ {r : Nat}, Has s.rows r → (s.calls r).phase.before = false
  owned : ∀ {h : Nat}, (s.calls h).phase.owns = true → Has s.rows h
  jobbed : ∀ {r : Nat}, (s.works r).phase ≠ .idle → (s.calls r).phase.jobbed = true
  worked : ∀ {r : Nat}, (s.works r).phase ≠ .idle → Has s.rows r

theorem Init.inv {s : St} (h : Init s) : Inv s where
  unique ha := by obtain ⟨q, hq, _⟩ := ha; rw [h.rows] at hq; cases hq
  rowed hr := by obtain ⟨q, hq, _⟩ := hr; rw [h.rows] at hq; cases hq
  owned {a} ho := by rw [(h.calls a).1] at ho; cases ho
  jobbed hw := absurd (h.works _) hw
  worked hw := absurd (h.works _) hw

theorem ready_before (k : Kind) : (St.ready k).before = true := by cases k <;> rfl

section
variable {s : St} {h : Nat} {a : Act} {c : Call} (hm : CallMove s h a c)
include hm

theorem CallMove.before (hb : (s.calls h).phase.before = false) : c.phase.before = false := by
  cases hm with
  | stay => exact hb
  | receive hp | duplicate hp | request hp | load hp => rw [hp] at hb; cases hb
  | fetch => rfl
  | goto hg =>
    cases hg with
    | persisted hp | conflict hp | inserted hp => rw [hp] at hb; cases hb
    | absorbed hp | checked hp => rw [hp, ready_before] at hb; cases hb
    | stored => split <;> rfl
    | rewriting | prepared | skipped | done | raising | failed | crashed => rfl

theorem CallMove.owns (ho : c.phase.owns = true) :
    (s.calls h).phase.owns = true ∨ (a = .insert h ∧ activeRun s.rows = none) := by
  cases hm with
  | stay => exact Or.inl ho
  | receive | duplicate | request | load => cases ho
  | fetch hp => rw [hp]; exact Or.inl rfl
  | goto hg =>
    cases hg with
    | persisted | absorbed | checked | conflict | failed | crashed => cases ho
    | inserted _ hq => exact Or.inr ⟨rfl, hq⟩
    | rewriting hp | prepared hp | skipped hp | stored hp | done hp => rw [hp]; exact Or.inl rfl
    | raising hp => rcases hp with hp | hp | hp | hp <;> rw [hp] <;> exact Or.inl rfl

theorem CallMove.jobbed (hj : (s.calls h).phase.jobbed = true) : c.phase.jobbed = true := by
  cases hm with
  | stay => exact hj
  | receive hp | duplicate hp | request hp | load hp | fetch hp => rw [hp] at hj; cases hj
  | goto hg =>
    cases hg with
    | persisted hp | conflict hp | inserted hp | rewriting hp | prepared hp | skipped hp => rw [hp] at hj; cases hj
    | absorbed hp | checked hp =>
      rw [hp] at hj
      cases hk : (s.calls h).kind <;> rw [hk] at hj <;> cases hj
    | stored => split <;> rfl
    | done | raising | failed | crashed => rfl

theorem CallMove.preparing (hp : c.phase.preparing = true) :
    ((s.calls h).phase.preparing = true ∧ (∀ lost, a ≠ .dispatch h lost) ∧ a ≠ .markEnqueueFailed h) ∨
      (a = .insert h ∧ activeRun s.rows = none) := by
  cases hm with
  | stay hne =>
    refine Or.inl ⟨hp, fun lost ha => hne ?_, fun ha => hne ?_⟩ <;> rw [ha] <;> rfl
  | receive | duplicate | request | load => cases hp
  | fetch h' => rw [h']; exact Or.inl ⟨rfl, nofun, nofun⟩
  | goto hg =>
    cases hg with
    | inserted _ hnone => exact Or.inr ⟨rfl, hnone⟩
    | rewriting h' => rw [h']; exact Or.inl ⟨rfl, nofun, nofun⟩
    | stored => split at hp <;> cases hp
    | persisted | absorbed | checked | conflict | prepared | skipped | done | raising | failed | crashed => cases hp

end

theorem CallMove.inserted {s : St} {h : Nat} {c : Call} (hm : CallMove s h (.insert h) c) : c.phase.before = false := by
  cases hm with
  | stay hne => exact absurd rfl hne
  | goto hg => cases hg <;> rfl

theorem CallMove.stored {s : St} {h : Nat} {lost : Bool} {c : Call} (hm : CallMove s h (.dispatch h lost) c)
    (hs : (s.calls h).skips = false) : c.phase.jobbed = true := by
  cases hm with
  | stay hne => exact absurd rfl hne
  | goto hg =>
    cases hg with
    | skipped _ hskip => rw [hs] at hskip; cases hskip
    | stored => cases lost <;> rfl

theorem WorkMove.idle {s : St} {r : Nat} {a : Act} {w : Work} (hm : WorkMove s r a w) (hw : w.phase ≠ .idle) :
    (s.works r).phase ≠ .idle ∨
      ∃ lost, a = .dispatch r lost ∧ (s.calls r).phase = .prepared ∧ (s.calls r).skips = false := by
  cases hm with
  | stay => exact Or.inl hw
  | store hp hs => exact Or.inr ⟨_, rfl, hp, hs⟩
  | start hp | loadRepository hp | loadRun hp | running hp => rw [hp]; exact Or.inl nofun
  | ended hp => exact Or.inl hp

/-- A worker runs on, or has its `RUNNING` commit. -/
theorem WorkMove.runs {s : St} {r : Nat} {a : Act} {w : Work} (hm : WorkMove s r a w) (hw : w.phase = .running) :
    ((s.works r).phase = .running ∧ a.worker ≠ some r) ∨ (a = .beginRun r ∧ ∀ b, Active s.rows b → b = r) := by
  cases hm with
  | stay hne => exact Or.inl ⟨hw, hne⟩
  | running _ halone => exact Or.inr ⟨rfl, halone⟩
  | store | start | loadRepository | loadRun | ended => cases hw

theorem Inv.step {s s' : St} (hi : Inv s) {a : Act} (hn : next s a = some s') : Inv s' := by
  have hm := next_moved hn
  constructor
  · intro b c hb hc
    exact hm.rows.unique hi.unique hb hc
  · intro r hr
    rcases hm.rows.has hr with hr | rfl
    · exact (hm.call r).before (hi.rowed hr)
    · exact (hm.call r).inserted
  · intro h ho
    rcases (hm.call h).owns ho with ho | ⟨rfl, hnone⟩
    · exact hm.rows.has_of (hi.owned ho)
    · rw [hm.rows.insert_eq hnone]
      exact ⟨_, List.mem_cons_self .., rfl⟩
  · intro r hw
    rcases (hm.work r).idle hw with hw | ⟨lost, rfl, hp, hs⟩
    · exact (hm.call r).jobbed (hi.jobbed hw)
    · exact (hm.call r).stored hs
  · intro r hw
    rcases (hm.work r).idle hw with hw | ⟨lost, rfl, hp, hs⟩
    · exact hm.rows.has_of (hi.worked hw)
    · exact hm.rows.has_of (hi.owned (by rw [hp]; rfl))

/-! ## Exclusion -/

/-- Whoever touches the checkout has its run active. -/
structure Live (s : St) : Prop where
  running : ∀ {r : Nat}, (s.works r).phase = .running → Active s.rows r
  preparing : ∀ {h : Nat}, (s.calls h).phase.preparing = true → Active s.rows h

/-- The action ends no run whose worker is running or whose checkout is still
to be prepared. -/
def Undisturbed (s : St) : Act → Prop
  | .endRun e => (s.works (s.enders e).run).phase ≠ .running ∧ (s.calls (s.enders e).run).phase.preparing = false
  | .markEnqueueFailed h => (s.works h).phase ≠ .running
  | _ => True

instance (s : St) (a : Act) : Decidable (Undisturbed s a) := by
  cases a <;> unfold Undisturbed <;> infer_instance

theorem Init.live {s : St} (h : Init s) : Live s where
  running {r} hr := by rw [h.works r] at hr; cases hr
  preparing {a} hr := by rw [(h.calls a).1] at hr; cases hr

theorem Inv.not_preparing {s : St} (hi : Inv s) {r : Nat} (hw : (s.works r).phase ≠ .idle) :
    (s.calls r).phase.preparing = false := by
  have := hi.jobbed hw
  cases hp : (s.calls r).phase <;> rw [hp] at this <;> first | rfl | cases this

theorem Live.step {s s' : St} (hi : Inv s) (hl : Live s) {a : Act} (hok : Undisturbed s a) (hn : next s a = some s') :
    Live s' := by
  have hm := next_moved hn
  constructor
  · intro r hr
    rcases (hm.work r).runs hr with ⟨hw, hne⟩ | ⟨rfl, halone⟩
    · refine hm.rows.kept (hl.running hw) fun he => ?_
      have hjob : (s.works r).phase ≠ .idle := by rw [hw]; nofun
      cases a with
      | dispatch h lost =>
        cases he
        obtain ⟨hp, _⟩ := guard_some hn
        have := hi.jobbed hjob
        rw [hp] at this; cases this
      | markEnqueueFailed h => cases he; exact hok hw
      | endRun e => cases he; exact hok.1 hw
      | succeed g | markFailedSync g => exact hne he
      | _ => cases he
    · obtain ⟨hp, _⟩ := guard_some hn
      exact hm.rows.started halone (hi.worked (by rw [hp]; nofun))
  · intro h hp
    rcases (hm.call h).preparing hp with ⟨hp, hd, hf⟩ | ⟨rfl, hnone⟩
    · refine hm.rows.kept (hl.preparing hp) fun he => ?_
      cases a with
      | dispatch g lost => cases he; exact hd lost rfl
      | markEnqueueFailed g => cases he; exact hf rfl
      | endRun e => cases he; have := hok.2; rw [hp] at this; cases this
      | succeed g | markFailedSync g =>
        cases he
        obtain ⟨hw, _⟩ := guard_some hn
        rw [hi.not_preparing (by rw [hw]; nofun)] at hp; cases hp
      | _ => cases he
    · rw [hm.rows.insert_eq hnone]
      exact ⟨_, List.mem_cons_self .., rfl, rfl⟩

/-! ## Runs -/

/-- At most one worker reads the checkout, and nobody rewrites it meanwhile. -/
structure Exclusive (s : St) : Prop where
  running : ∀ q r, (s.works q).phase = .running → (s.works r).phase = .running → q = r
  reading : ∀ q h, (s.works q).phase = .running → (s.calls h).phase.rewrites = false

theorem Live.exclusive {s : St} (hi : Inv s) (hl : Live s) : Exclusive s where
  running _ _ hq hr := hi.unique (hl.running hq) (hl.running hr)
  reading q h hq := by
    by_contra hc
    have hprep : (s.calls h).phase.preparing = true := by
      cases hp : (s.calls h).phase <;> rw [hp] at hc <;> first | rfl | exact absurd rfl hc
    have hqh : q = h := hi.unique (hl.running hq) (hl.preparing hprep)
    subst hqh
    rw [hi.not_preparing (by rw [hq]; nofun)] at hprep
    cases hprep

/-- **One sync at a time.** In every run in which nobody else ends a run whose
worker is running or whose checkout is still to be prepared, the workers and
the calls that rewrite the checkout exclude one another. -/
theorem sync_exclusion {s : St} (hs : Init s) (as : List Act)
    (hok : ∀ t ∈ Machine.trace next s as, Undisturbed t.pre t.act) :
    ∀ t ∈ Machine.trace next s as, Exclusive t.post := by
  intro t ht
  have hstep : ∀ s a s', Inv s ∧ Live s → Undisturbed s a → next s a = some s' → Inv s' ∧ Live s' :=
    fun s a s' h ho hn => ⟨h.1.step hn, h.2.step h.1 ho hn⟩
  have h := (Machine.inv_of_guarded next hstep ⟨hs.inv, hs.live⟩ hok t ht).2
  exact h.2.exclusive h.1

/-- An idle pipeline over one pushed commit. -/
def fresh : St where
  source := .git
  staleThreshold := 15
  now := 0
  origin := ["a1"]
  sent := [1]
  lastCommit := none
  rows := []
  deliveries := []
  calls _ := ⟨.upload, .idle, none, none⟩
  works _ := ⟨.idle, none, none, none⟩
  enders _ := ⟨.idle, 0, .error, none⟩

theorem fresh_init : Init fresh := ⟨rfl, rfl, fun _ => ⟨rfl, rfl⟩, fun _ => rfl, fun _ => rfl⟩

/-- A call up to its run's `RUNNING` commit. -/
def upToRunning (h : Nat) (c : Ref) : List Act :=
  [.request h (.other .manual none), .load h, .check h, .insert h, .prepareCheckout h, .fetch h c, .checkedOut h,
    .dispatch h false, .setRequestedRef h, .start h, .loadRepository h, .loadRun h, .beginRun h]

theorem sync_exclusion_one :
    ∃ t ∈ Machine.trace next fresh (upToRunning 1 "a1"), t.act = .beginRun 1 ∧ Exclusive t.post := by
  have hmem := List.get_mem (Machine.trace next fresh (upToRunning 1 "a1")) ⟨12, by decide⟩
  exact ⟨_, hmem, by decide, sync_exclusion fresh_init (upToRunning 1 "a1") (by decide) _ hmem⟩

/-- A cancel whose abort has no effect, and the next enqueue. -/
def cancelled : List Act := upToRunning 1 "a1" ++ [.cancelRun 1 1, .refresh 1, .endRun 1] ++ upToRunning 2 "a1"

theorem cancelled_overlap : ∃ t ∈ Machine.trace next fresh cancelled, ¬ Exclusive t.post := by
  refine ⟨_, List.get_mem (Machine.trace next fresh cancelled) ⟨28, by decide⟩, fun h => ?_⟩
  have : 1 = 2 := h.running 1 2 (by decide) (by decide)
  exact absurd this (by decide)

end Cograph.Pipeline
