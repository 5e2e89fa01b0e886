import Cograph.Recorded

/-!
# Pushes

An active run absorbs every later trigger, and its checkout may have been
taken before the push that the trigger announces. So a push can be lost, and
the newest one is recorded once some trigger is answered with a run whose
checkout was still to be taken when the push came in. A delivery id starts one
run at most, whatever happens.
-/

namespace Cograph.Pipeline

/-! ## Deliveries -/

/-- The webhook call still counts on its delivery row. -/
def CallPhase.delivering : CallPhase → Bool
  | .received | .loaded | .checked => true
  | _ => false

structure Delivered (s : St) : Prop where
  unique : ∀ x ∈ s.deliveries, ∀ y ∈ s.deliveries, x.deliveryId = y.deliveryId → x.call = y.call
  held : ∀ {h d : Nat}, (s.calls h).kind = .webhook d → (s.calls h).phase.delivering = true ∨ Has s.rows h →
    ∃ x ∈ s.deliveries, x.deliveryId = d ∧ x.call = h
  committed : ∀ {h : Nat}, Has s.rows h → ∀ x ∈ s.deliveries, x.call = h → x.committed = true

theorem Init.delivered {s : St} (hs : Init s) : Delivered s where
  unique x hx := by rw [hs.deliveries] at hx; cases hx
  held {h d} _ hp := by
    rcases hp with hp | ⟨q, hq, _⟩
    · rw [(hs.calls h).1] at hp; cases hp
    · rw [hs.rows] at hq; cases hq
  committed hr := by obtain ⟨q, hq, _⟩ := hr; rw [hs.rows] at hq; cases hq

theorem mem_commit {ds : List RepoWebhookDelivery} {h : Nat} {x : RepoWebhookDelivery} (hx : x ∈ commitDelivery ds h) :
    ∃ y ∈ ds, x.deliveryId = y.deliveryId ∧ x.call = y.call ∧ (x.call = h → x.committed = true) ∧
      (y.committed = true → x.committed = true) := by
  obtain ⟨y, hy, rfl⟩ := List.mem_map.mp hx
  refine ⟨y, hy, ?_⟩
  by_cases hc : y.call = h
  · rw [if_pos hc]; exact ⟨rfl, rfl, fun _ => rfl, fun _ => rfl⟩
  · rw [if_neg hc]; exact ⟨rfl, rfl, fun h' => absurd h' hc, id⟩

theorem commit_mem {ds : List RepoWebhookDelivery} {h : Nat} {y : RepoWebhookDelivery} (hy : y ∈ ds) :
    ∃ x ∈ commitDelivery ds h, x.deliveryId = y.deliveryId ∧ x.call = y.call := by
  refine ⟨_, List.mem_map.mpr ⟨y, hy, rfl⟩, ?_⟩
  split <;> exact ⟨rfl, rfl⟩

section
variable {s : St} {a : Act} {ds : List RepoWebhookDelivery} (hm : DeliveryMove s a ds)
include hm

theorem DeliveryMove.old {x : RepoWebhookDelivery} (hx : x ∈ ds) :
    (∃ y ∈ s.deliveries, x.deliveryId = y.deliveryId ∧ x.call = y.call ∧ (y.committed = true → x.committed = true)) ∨
      (a = .receive x.call x.deliveryId ∧ s.deliveries.find? (·.deliveryId = x.deliveryId) = none) := by
  cases hm with
  | stay | duplicate | pass => exact Or.inl ⟨x, hx, rfl, rfl, id⟩
  | receive hd =>
    rcases List.mem_cons.mp hx with rfl | hx
    · exact Or.inr ⟨rfl, hd⟩
    · exact Or.inl ⟨x, hx, rfl, rfl, id⟩
  | absorb | insert =>
    obtain ⟨y, hy, h₁, h₂, _, h₃⟩ := mem_commit hx
    exact Or.inl ⟨y, hy, h₁, h₂, h₃⟩
  | conflict | crash => exact Or.inl ⟨x, (List.mem_filter.mp hx).1, rfl, rfl, id⟩

theorem DeliveryMove.kept {y : RepoWebhookDelivery} (hy : y ∈ s.deliveries)
    (hcrash : a = .crash y.call → y.committed = true)
    (hconflict : ∀ q, a = .insert y.call → activeRun s.rows = some q → y.committed = true) :
    ∃ x ∈ ds, x.deliveryId = y.deliveryId ∧ x.call = y.call := by
  have rolled : ∀ {h : Nat}, (y.call = h → y.committed = true) → ∃ x ∈ rollbackDelivery s.deliveries h,
      x.deliveryId = y.deliveryId ∧ x.call = y.call := by
    intro h hc
    refine ⟨y, List.mem_filter.mpr ⟨hy, ?_⟩, rfl, rfl⟩
    by_cases hyh : y.call = h
    · simp [hc hyh]
    · simp [hyh]
  cases hm with
  | stay | duplicate | pass => exact ⟨y, hy, rfl, rfl⟩
  | receive => exact ⟨y, List.mem_cons_of_mem _ hy, rfl, rfl⟩
  | absorb | insert => exact commit_mem hy
  | conflict hq => exact rolled fun hyh => hconflict _ (by rw [hyh]) hq
  | crash => exact rolled fun hyh => hcrash (by rw [hyh])

end

theorem DeliveryMove.received {s : St} {h d : Nat} {ds : List RepoWebhookDelivery}
    (hm : DeliveryMove s (.receive h d) ds) (hd : s.deliveries.find? (·.deliveryId = d) = none) :
    ∃ x ∈ ds, x.deliveryId = d ∧ x.call = h := by
  cases hm with
  | stay hw => cases hw
  | receive => exact ⟨_, List.mem_cons_self .., rfl, rfl⟩
  | duplicate hx => rw [hd] at hx; cases hx

/-- A webhook call that counts on a row just wrote it, or counted on it before. -/
theorem CallMove.delivering {s : St} {h d : Nat} {a : Act} {c : Call} (hm : CallMove s h a c) (hk : c.kind = .webhook d)
    (hp : c.phase.delivering = true) :
    (a = .receive h d ∧ s.deliveries.find? (·.deliveryId = d) = none) ∨
      ((s.calls h).kind = .webhook d ∧ (s.calls h).phase.delivering = true ∧ a ≠ .crash h ∧
        ∀ q, a = .insert h → activeRun s.rows ≠ some q) := by
  cases hm with
  | stay hne =>
    refine Or.inr ⟨hk, hp, fun ha => hne ?_, fun q ha => absurd ?_ hne⟩ <;> rw [ha] <;> rfl
  | receive _ hd => cases hk; exact Or.inl ⟨rfl, hd⟩
  | duplicate | fetch => cases hp
  | request _ hw => exact absurd hk (hw d)
  | load hl => exact Or.inr ⟨hk, by rw [hl]; rfl, nofun, nofun⟩
  | goto hg =>
    cases hg with
    | checked hl =>
      have hk : (s.calls h).kind = .webhook d := hk
      rw [hk] at hl
      exact Or.inr ⟨hk, by rw [hl]; rfl, nofun, nofun⟩
    | stored => split at hp <;> cases hp
    | persisted | absorbed | conflict | inserted | rewriting | prepared | skipped | done | raising | failed
    | crashed => cases hp

theorem Moved.fresh {s s' : St} {a : Act} (hm : Moved s a s') {r : Nat} (hr : Has s'.rows r) :
    Has s.rows r ∨ (a = .insert r ∧ activeRun s.rows = none ∧ (s.calls r).phase = .checked ∧
      s'.calls r = { s.calls r with phase := .inserted }) := by
  rcases hm.rows.has hr with hr' | rfl
  · exact Or.inl hr'
  · have hc := hm.call r
    generalize s'.calls r = c at hc
    cases hc with
    | stay hne => exact absurd rfl hne
    | goto hg =>
      cases hg with
      | inserted hp hnone => exact Or.inr ⟨rfl, hnone, hp, rfl⟩
      | conflict _ hq =>
        have hrows := hm.rows
        generalize s'.rows = rows at hrows hr
        cases hrows with
        | stay hw => cases hw
        | conflict => exact Or.inl hr
        | insert _ hnone => rw [hnone] at hq; cases hq

theorem Delivered.step {s s' : St} (hi : Inv s) (hd : Delivered s) {a : Act} (hn : next s a = some s') :
    Delivered s' := by
  have hm := next_moved hn
  constructor
  · intro x hx y hy hxy
    rcases hm.deliveries.old hx with ⟨x', hx', h₁, h₂, _⟩ | ⟨ha, hnone⟩
    · rcases hm.deliveries.old hy with ⟨y', hy', h₃, h₄, _⟩ | ⟨_, hnone⟩
      · rw [h₂, h₄]; exact hd.unique x' hx' y' hy' (h₁.symm.trans (hxy.trans h₃))
      · exact absurd (by simpa using h₁.symm.trans hxy) (List.find?_eq_none.mp hnone x' hx')
    · rcases hm.deliveries.old hy with ⟨y', hy', h₃, _⟩ | ⟨ha', _⟩
      · exact absurd (by simpa using h₃.symm.trans hxy.symm) (List.find?_eq_none.mp hnone y' hy')
      · rw [ha] at ha'; exact (Act.receive.inj ha').1
  · intro h d hk hp
    -- The row was there, and its call does not roll it back.
    have keep : (∃ y ∈ s.deliveries, y.deliveryId = d ∧ y.call = h) → (a = .crash h → Has s.rows h) →
        (∀ q, a = .insert h → activeRun s.rows = some q → Has s.rows h) →
        ∃ x ∈ s'.deliveries, x.deliveryId = d ∧ x.call = h := by
      rintro ⟨y, hy, rfl, rfl⟩ hcrash hconflict
      exact hm.deliveries.kept hy (fun ha => hd.committed (hcrash ha) y hy rfl) fun q ha hq =>
        hd.committed (hconflict q ha hq) y hy rfl
    rcases hp with hp | hr
    · rcases (hm.call h).delivering hk hp with ⟨rfl, hnone⟩ | ⟨hk, hp, hcrash, hconflict⟩
      · exact hm.deliveries.received hnone
      · exact keep (hd.held hk (Or.inl hp)) (fun ha => absurd ha hcrash) fun q ha hq => absurd hq (hconflict q ha)
    · rcases hm.fresh hr with hr | ⟨rfl, hnone, hp, hc⟩
      · have hidle := before_not_idle (hi.rowed hr)
        rw [(hm.call h).kind_eq hidle] at hk
        exact keep (hd.held hk (Or.inr hr)) (fun _ => hr) fun _ _ _ => hr
      · rw [hc] at hk
        exact keep (hd.held hk (Or.inl (by rw [hp]; rfl))) nofun fun q _ hq => by rw [hnone] at hq; cases hq
  · intro h hr x hx hxh
    rcases hm.fresh hr with hr | ⟨rfl, hnone, _⟩
    · rcases hm.deliveries.old hx with ⟨y, hy, _, h₂, h₃⟩ | ⟨rfl, _⟩
      · exact h₃ (hd.committed hr y hy (h₂.symm.trans hxh))
      · obtain ⟨⟨hp, _⟩, _⟩ := guard_some hn
        rw [hxh] at hp
        exact absurd hp (before_not_idle (hi.rowed hr))
    · have hds := hm.deliveries
      generalize s'.deliveries = ds at hds hx
      cases hds with
      | stay hw => cases hw
      | conflict hq => rw [hnone] at hq; cases hq
      | insert => obtain ⟨_, _, _, _, h₃, _⟩ := mem_commit hx; exact h₃ hxh

theorem Delivered.once {s : St} (hd : Delivered s) {h g d : Nat} (hh : (s.calls h).kind = .webhook d)
    (hg : (s.calls g).kind = .webhook d) (hrh : Has s.rows h) (hrg : Has s.rows g) : h = g := by
  obtain ⟨x, hx, hxd, rfl⟩ := hd.held hh (Or.inr hrh)
  obtain ⟨y, hy, hyd, rfl⟩ := hd.held hg (Or.inr hrg)
  exact hd.unique x hx y hy (hxd.trans hyd.symm)

/-! ## Runs without failures -/

/-- Webhooks and uploads are the only triggers, no enqueue and no step fails,
and nobody ends a run. -/
def Smooth (s : St) : Act → Prop
  | .request _ k => k = .upload
  | .insert _ => activeRun s.rows = none
  | .dispatch _ lost => lost = false
  | .raise _ | .markEnqueueFailed _ | .crash _ | .markFailedSync _ | .die _ | .cancelRun _ _ | .findStale _ _
  | .cancelPending _ _ | .endRun _ => False
  | _ => True

/-- A worker loads its run after the enqueue's last commit, and no run ends
between a webhook's read of the repository's row and its own run. -/
def Prompt (s : St) : Act → Prop
  | .loadRun r => (s.calls r).phase = .done
  | .insert h => (s.calls h).kind.triggerKind ≠ .manual → (s.calls h).lastCommit = s.lastCommit
  | _ => True

/-- The run is on its way to its job. -/
def CallPhase.pending : CallPhase → Bool
  | .inserted | .rewriting | .fetched | .prepared | .stored => true
  | _ => false

/-- The checkout is taken, and no failure hides it. -/
def CallPhase.taken : CallPhase → Bool
  | .fetched | .prepared | .stored | .done | .skipped => true
  | _ => false

def WorkPhase.knows : WorkPhase → Bool
  | .opened | .loaded | .running => true
  | _ => false

def WorkPhase.alive : WorkPhase → Bool
  | .queued | .started | .opened | .loaded | .running => true
  | _ => false

structure Flow (s : St) : Prop where
  kinds : ∀ {h : Nat}, (s.calls h).phase ≠ .idle → (s.calls h).kind.requestedRef = none
  early : ∀ {h : Nat}, (s.calls h).phase.before = true → (s.calls h).commit = none
  taken : ∀ {h : Nat}, (s.calls h).phase.taken = true → (s.calls h).commit.isSome = true
  pending : ∀ {h : Nat}, (s.calls h).phase.pending = true → Active s.rows h
  alive : ∀ {r : Nat}, (s.works r).phase.alive = true → Active s.rows r
  cached : ∀ {h : Nat}, Active s.rows h → (s.calls h).kind.triggerKind ≠ .manual →
    (s.calls h).lastCommit = s.lastCommit
  copies : ∀ {r : Nat}, (s.works r).phase.knows = true → (s.works r).lastCommit = s.lastCommit
  loaded : ∀ {r : Nat}, (s.works r).phase = .loaded ∨ (s.works r).phase = .running →
    (s.calls r).phase = .done ∧ (s.works r).requestedRef = (s.calls r).commit
  closed : ∀ {r : Nat}, Has s.rows r → ¬ Active s.rows r → (s.calls r).phase = .done ∨ (s.calls r).phase = .skipped
  absorbed : ∀ {h q : Nat}, (s.calls h).phase = .absorbed q → Has s.rows q

theorem Init.flow {s : St} (hs : Init s) : Flow s where
  kinds {h} hp := absurd (hs.calls h).1 hp
  early {h} _ := (hs.calls h).2
  taken {h} hp := by rw [(hs.calls h).1] at hp; cases hp
  pending {h} hp := by rw [(hs.calls h).1] at hp; cases hp
  alive {r} hp := by rw [hs.works r] at hp; cases hp
  cached ha := by obtain ⟨q, hq, _⟩ := ha; rw [hs.rows] at hq; cases hq
  copies {r} hp := by rw [hs.works r] at hp; cases hp
  loaded {r} hp := by rw [hs.works r] at hp; rcases hp with hp | hp <;> cases hp
  closed hr := by obtain ⟨q, hq, _⟩ := hr; rw [hs.rows] at hq; cases hq
  absorbed {h q} hp := by rw [(hs.calls h).1] at hp; cases hp

section
variable {s s' : St} (hi : Inv s) (hf : Flow s) {a : Act} (hok : Smooth s a) (hn : next s a = some s')
include hok hn

theorem Smooth.ends {r : Nat} (he : a.ends s = some r) : (∃ lost, a = .dispatch r lost) ∨ a = .succeed r := by
  cases a with
  | dispatch h lost => cases he; exact Or.inl ⟨lost, rfl⟩
  | succeed g => cases he; exact Or.inr rfl
  | markEnqueueFailed | markFailedSync | endRun => exact hok.elim
  | _ => cases he

theorem Smooth.stays {r : Nat} (hr : Active s.rows r)
    (hskip : (s.calls r).phase = .prepared → (s.calls r).skips = true → ∀ lost, a ≠ .dispatch r lost)
    (hsucc : a ≠ .succeed r) : Active s'.rows r := by
  have hm := next_moved hn
  by_cases he : a.ends s = some r
  · rcases Smooth.ends hok hn he with ⟨lost, rfl⟩ | ha
    · have hrows := hm.rows
      generalize s'.rows = rows at hrows ⊢
      cases hrows with
      | stay hw => cases hw
      | stored => exact hr
      | skip hp hs => exact absurd rfl (hskip hp hs lost)
    · exact absurd ha hsucc
  · exact hm.rows.kept hr he

include hf

theorem Flow.step_kinds {h : Nat} (hp : (s'.calls h).phase ≠ .idle) : (s'.calls h).kind.requestedRef = none := by
  have hc := (next_moved hn).call h
  generalize s'.calls h = c at hc hp ⊢
  cases hc with
  | stay => exact hf.kinds hp
  | receive | duplicate => rfl
  | request => rw [show _ = Kind.upload from hok]; rfl
  | load h' | fetch h' => exact hf.kinds (by rw [h']; nofun)
  | goto hg =>
    refine hf.kinds fun hidle => ?_
    cases hg with
    | absorbed h' | checked h' => rw [hidle] at h'; cases hk : (s.calls h).kind <;> rw [hk] at h' <;> cases h'
    | raising h' => rcases h' with h' | h' | h' | h' <;> rw [hidle] at h' <;> cases h'
    | crashed h' => exact h' hidle
    | persisted h' | conflict h' | inserted h' | rewriting h' | prepared h' | skipped h' | stored h' | done h'
    | failed h' => rw [hidle] at h'; cases h'

theorem Flow.step_early {h : Nat} (hp : (s'.calls h).phase.before = true) : (s'.calls h).commit = none := by
  have hc := (next_moved hn).call h
  generalize s'.calls h = c at hc hp ⊢
  cases hc with
  | stay => exact hf.early hp
  | receive | duplicate | request => rfl
  | load h' => exact hf.early (by rw [h']; rfl)
  | fetch => cases hp
  | goto hg =>
    cases hg with
    | persisted h' => exact hf.early (by rw [h']; rfl)
    | checked h' => exact hf.early (by rw [h']; exact ready_before _)
    | stored => split at hp <;> cases hp
    | absorbed | conflict | inserted | rewriting | prepared | skipped | done | raising | failed | crashed => cases hp

theorem Flow.step_taken {h : Nat} (hp : (s'.calls h).phase.taken = true) : (s'.calls h).commit.isSome = true := by
  have hc := (next_moved hn).call h
  generalize s'.calls h = c at hc hp ⊢
  cases hc with
  | stay => exact hf.taken hp
  | fetch => rfl
  | receive | duplicate | request | load => cases hp
  | goto hg =>
    cases hg with
    | prepared h' | skipped h' | stored h' | done h' => exact hf.taken (by rw [h']; rfl)
    | persisted | absorbed | checked | conflict | inserted | rewriting | raising | failed | crashed => cases hp

theorem Flow.step_pending {h : Nat} (hp : (s'.calls h).phase.pending = true) : Active s'.rows h := by
  have hm := next_moved hn
  -- A pending run has no worker past its start guard, and its call is not skipping.
  have stays : (s.calls h).phase.pending = true → (∀ lost, a = .dispatch h lost → (s.calls h).skips = false) →
      Active s'.rows h := by
    intro hp hskip
    refine Smooth.stays hok hn (hf.pending hp) (fun _ hs lost ha => ?_) fun ha => ?_
    · rw [hskip lost ha] at hs; cases hs
    · subst ha
      obtain ⟨hw, _⟩ := guard_some hn
      rw [(hf.loaded (Or.inr hw)).1] at hp; cases hp
  have hc := hm.call h
  generalize s'.calls h = c at hc hp
  cases hc with
  | stay hne => exact stays hp fun lost ha => absurd (by rw [ha]; rfl) hne
  | receive | duplicate | request | load => cases hp
  | fetch h' => exact stays (by rw [h']; rfl) nofun
  | goto hg =>
    cases hg with
    | inserted _ hnone =>
      rw [hm.rows.insert_eq hnone]
      exact ⟨_, List.mem_cons_self .., rfl, rfl⟩
    | rewriting h' | prepared h' => exact stays (by rw [h']; rfl) nofun
    | stored h' hs => exact stays (by rw [h']; rfl) fun _ _ => hs
    | persisted | absorbed | checked | conflict | skipped | done | raising | failed | crashed => cases hp

include hi

theorem Flow.step_alive {r : Nat} (hp : (s'.works r).phase.alive = true) : Active s'.rows r := by
  have hm := next_moved hn
  have stays : (s.works r).phase.alive = true → a ≠ .succeed r → Active s'.rows r := by
    intro hp hne
    refine Smooth.stays hok hn (hf.alive hp) (fun hprep _ => ?_) hne
    have hj := hi.jobbed (r := r) (by rintro hidle; rw [hidle] at hp; cases hp)
    rw [hprep] at hj; cases hj
  have hw := hm.work r
  generalize s'.works r = w at hw hp
  cases hw with
  | stay hne => exact stays hp fun ha => absurd (by rw [ha]; rfl) hne
  | store hprep hs =>
    refine Smooth.stays hok hn (hf.pending (by rw [hprep]; rfl)) (fun _ hs' => ?_) nofun
    rw [hs] at hs'; cases hs'
  | start h' | loadRepository h' | loadRun h' | running h' => exact stays (by rw [h']; rfl) nofun
  | ended => cases hp

theorem Flow.succeeded {q r : Nat} (ha : a = .succeed q) (hr : Active s.rows r) : r = q ∧ ¬ Active s'.rows r := by
  subst ha
  obtain ⟨hw, _⟩ := guard_some hn
  have hrq : r = q := hi.unique hr (hf.alive (by rw [hw]; rfl))
  subst hrq
  refine ⟨rfl, fun hact => ?_⟩
  have hrows := (next_moved hn).rows
  generalize s'.rows = rows at hrows hact
  cases hrows with
  | stay hw' => cases hw'
  | success => exact ((active_setRow_end (fun _ => by rfl) fun _ => by rfl).mp hact).1 rfl

/-- The recorded commit moves under no active run but the one that succeeds. -/
theorem Flow.last_eq {r : Nat} (hr : Active s.rows r) (hne : a ≠ .succeed r) : s'.lastCommit = s.lastCommit := by
  refine (next_moved hn).last fun q ha => hne ?_
  rw [(hf.succeeded hi hok hn ha hr).1]; exact ha

theorem Flow.step_cached (hprompt : Prompt s a) {h : Nat} (hr : Active s'.rows h)
    (ht : (s'.calls h).kind.triggerKind ≠ .manual) : (s'.calls h).lastCommit = s'.lastCommit := by
  have hm := next_moved hn
  have old : Active s.rows h → (s'.calls h).lastCommit = s'.lastCommit := by
    intro hr'
    have hlast : s'.lastCommit = s.lastCommit :=
      hf.last_eq hi hok hn hr' fun ha => (hf.succeeded hi hok hn ha hr').2 hr
    have hrun := hi.rowed hr'.has
    have hc := hm.call h
    generalize s'.calls h = c at hc ht ⊢
    rw [hlast]
    cases hc with
    | stay | fetch | goto => exact hf.cached hr' ht
    | load => rfl
    | receive hp | duplicate hp | request hp => rw [hp] at hrun; cases hrun
  rcases hm.rows.active hr with hr' | rfl | rfl
  · exact old hr'
  · rcases hm.fresh hr.has with hr' | ⟨_, _, _, hc⟩
    · obtain ⟨hp, _⟩ := guard_some hn
      have := hi.rowed hr'
      rw [hp] at this; cases this
    · rw [hc] at ht ⊢
      exact (hprompt ht).trans (hm.last fun _ => nofun).symm
  · obtain ⟨hp, _⟩ := guard_some hn
    exact old (hf.alive (by rw [hp]; rfl))

theorem Flow.step_copies {r : Nat} (hp : (s'.works r).phase.knows = true) :
    (s'.works r).lastCommit = s'.lastCommit := by
  have hm := next_moved hn
  have stays : (s.works r).phase.knows = true → a ≠ .succeed r → s'.lastCommit = s.lastCommit := by
    intro hk hne
    refine hf.last_eq hi hok hn (hf.alive ?_) hne
    cases hw : (s.works r).phase <;> rw [hw] at hk <;> first | rfl | cases hk
  have hw := hm.work r
  generalize s'.works r = w at hw hp ⊢
  cases hw with
  | stay hne =>
    rw [stays hp fun ha => hne (by rw [ha]; rfl)]
    exact hf.copies hp
  | loadRepository => exact (hm.last fun _ => nofun).symm
  | loadRun h' | running h' =>
    have hk : (s.works r).phase.knows = true := by rw [h']; rfl
    rw [stays hk nofun]
    exact hf.copies hk
  | store | start | ended => cases hp

theorem Flow.step_loaded (hrefs : Refs s) (hprompt : Prompt s a) {r : Nat}
    (hp : (s'.works r).phase = .loaded ∨ (s'.works r).phase = .running) :
    (s'.calls r).phase = .done ∧ (s'.works r).requestedRef = (s'.calls r).commit := by
  have hm := next_moved hn
  have still : (s.calls r).phase = .done → s'.calls r = s.calls r := fun hd =>
    (hm.call r).ended_eq (by rw [hd]; rfl)
  rcases (hm.work r).loads hp with ⟨hw, href⟩ | rfl
  · obtain ⟨hd, hc⟩ := hf.loaded hw
    rw [still hd, href]; exact ⟨hd, hc⟩
  · have hd : (s.calls r).phase = .done := hprompt
    have hne : (s'.works r).phase ≠ .ended := by rcases hp with hp | hp <;> rw [hp] <;> nofun
    obtain ⟨_, _, href⟩ := loadRun_ref hi hrefs hn hne
    rw [if_pos hd] at href
    rw [still hd]; exact ⟨hd, href⟩

omit hi in
theorem Flow.step_closed {r : Nat} (hr : Has s'.rows r) (hact : ¬ Active s'.rows r) :
    (s'.calls r).phase = .done ∨ (s'.calls r).phase = .skipped := by
  have hm := next_moved hn
  have still : (s.calls r).phase = .done ∨ (s.calls r).phase = .skipped →
      (s'.calls r).phase = .done ∨ (s'.calls r).phase = .skipped := by
    intro hp
    rw [(hm.call r).ended_eq (by rcases hp with hp | hp <;> rw [hp] <;> rfl)]
    exact hp
  rcases hm.fresh hr with hr' | ⟨rfl, hnone, _⟩
  · by_cases hwas : Active s.rows r
    · by_cases hsucc : a = .succeed r
      · subst hsucc
        obtain ⟨hw, _⟩ := guard_some hn
        exact still (Or.inl (hf.loaded (Or.inr hw)).1)
      · -- Only a skip is left.
        by_contra hlive
        refine hact (Smooth.stays hok hn hwas (fun _ hs lost ha => hlive (Or.inr ?_)) hsucc)
        have hc := hm.call r
        rw [ha] at hc
        exact hc.skipped hs
    · exact still (hf.closed hr' hwas)
  · rw [hm.rows.insert_eq hnone] at hact
    exact absurd ⟨_, List.mem_cons_self .., rfl, rfl⟩ hact

omit hi hok in
theorem Flow.step_absorbed {h q : Nat} (hp : (s'.calls h).phase = .absorbed q) : Has s'.rows q := by
  have hm := next_moved hn
  refine hm.rows.has_of ?_
  have hc := hm.call h
  generalize s'.calls h = c at hc hp
  cases hc with
  | stay => exact hf.absorbed hp
  | receive | duplicate | request | load | fetch => cases hp
  | goto hg =>
    cases hg with
    | absorbed _ hq => cases hp; exact (activeRun_some hq).has
    | stored => split at hp <;> cases hp
    | persisted | checked | conflict | inserted | rewriting | prepared | skipped | done | raising | failed
    | crashed => cases hp

theorem Flow.step (hrefs : Refs s) (hprompt : Prompt s a) : Flow s' where
  kinds := hf.step_kinds hok hn
  early := hf.step_early hok hn
  taken := hf.step_taken hok hn
  pending := hf.step_pending hok hn
  alive := hf.step_alive hi hok hn
  cached := hf.step_cached hi hok hn hprompt
  copies := hf.step_copies hi hok hn
  loaded := hf.step_loaded hi hok hn hrefs hprompt
  closed := hf.step_closed hok hn
  absorbed := hf.step_absorbed hn

end

/-! ## The newest push -/

def Act.news : Act → Bool
  | .push _ _ | .persistUpload _ _ => true
  | _ => false

/-- Every checkout in use is at `c`, and so is the record once none is. -/
structure Current (c : Option Ref) (s : St) : Prop where
  taken : ∀ {r : Nat}, Active s.rows r → (s.calls r).commit = none ∨ (s.calls r).commit = c
  recorded : (∀ r, ¬ Active s.rows r) → s.lastCommit = c

section
variable {s s' : St} (hi : Inv s) (hf : Flow s) {a : Act} (hok : Smooth s a) (hn : next s a = some s')
  {c : Option Ref} (horigin : s.origin.head? = c)
include hi hf hok hn horigin

omit hi in
theorem Current.step (hc : Current c s) : Current c s' := by
  have hm := next_moved hn
  constructor
  · intro r hr
    have old : Active s.rows r ∨ (s.calls r).phase = .checked →
        (s'.calls r).commit = none ∨ (s'.calls r).commit = c := by
      intro hr'
      have hcommit : (s.calls r).commit = none ∨ (s.calls r).commit = c := by
        rcases hr' with hr' | hr'
        · exact hc.taken hr'
        · exact Or.inl (hf.early (by rw [hr']; rfl))
      have hcall := hm.call r
      generalize s'.calls r = x at hcall ⊢
      cases hcall with
      | stay | load | goto => exact hcommit
      | receive | duplicate | request => exact Or.inl rfl
      | fetch hp href =>
        have hkind := hf.kinds (h := r) (by rw [hp]; nofun)
        exact Or.inr ((href hkind).symm.trans horigin)
    rcases hm.rows.active hr with hr | rfl | rfl
    · exact old (Or.inl hr)
    · exact old (Or.inr (guard_some hn).1)
    · obtain ⟨hp, _⟩ := guard_some hn
      exact old (Or.inl (hf.alive (by rw [hp]; rfl)))
  · intro hnone
    by_cases hact : ∃ r, Active s.rows r
    · obtain ⟨r, hr⟩ := hact
      have hend : a.ends s = some r := by
        by_contra he
        exact hnone r (hm.rows.kept hr he)
      rcases Smooth.ends hok hn hend with ⟨lost, rfl⟩ | rfl
      · -- A skip leaves the record, which is at the commit it was skipped for.
        obtain ⟨hp, _⟩ := guard_some hn
        have hskip : (s.calls r).skips = true := by
          by_contra hs
          refine hnone r (Smooth.stays hok hn hr (fun _ h => absurd h hs) nofun)
        simp only [Call.skips, ne_eq, Bool.decide_and, Bool.and_eq_true, decide_eq_true_eq] at hskip
        have hcommit := hf.taken (h := r) (by rw [hp]; rfl)
        rw [hm.last fun _ => nofun, ← hf.cached hr hskip.1, hskip.2]
        rcases hc.taken hr with h | h
        · rw [h] at hcommit; cases hcommit
        · exact h
      · obtain ⟨hw, _⟩ := guard_some hn
        obtain ⟨hd, href⟩ := hf.loaded (Or.inr hw)
        rw [succeed_lastCommit hn (hf.copies (by rw [hw]; rfl)), href]
        have hcommit := hf.taken (h := r) (by rw [hd]; rfl)
        obtain ⟨x, hx⟩ := Option.isSome_iff_exists.mp hcommit
        rcases hc.taken hr with h | h
        · rw [h] at hx; cases hx
        · rw [← h, hx]; rfl
    · have hfree : ∀ r, ¬ Active s.rows r := fun r hr => hact ⟨r, hr⟩
      rw [hm.last fun q ha => ?_]
      · exact hc.recorded hfree
      · subst ha
        obtain ⟨hw, _⟩ := guard_some hn
        exact hfree q (hf.alive (by rw [hw]; rfl))

theorem Current.first {q : Nat} (hnone : (s.calls q).commit = none) (hsome : (s'.calls q).commit ≠ none) :
    Current c s' := by
  have hm := next_moved hn
  have hcall := hm.call q
  generalize hx : s'.calls q = x at hcall hsome
  cases hcall with
  | stay | load | goto => exact absurd hnone hsome
  | receive | duplicate | request => exact absurd rfl hsome
  | fetch hp href =>
    have hkind := hf.kinds (h := q) (by rw [hp]; nofun)
    have hq : Active s.rows q := hf.pending (by rw [hp]; rfl)
    have hq' : Active s'.rows q := hm.rows.kept hq nofun
    have hi' := hi.step hn
    refine ⟨fun {r} hr => ?_, fun h => absurd hq' (h q)⟩
    have hrq := hi'.unique hr hq'
    subst hrq
    rw [hx]
    exact Or.inr ((href hkind).symm.trans horigin)

end

/-- The call was answered with run `q`, its own or the one that absorbed it. -/
def Answered (s : St) (h q : Nat) : Prop :=
  (q = h ∧ ((s.calls h).phase = .done ∨ (s.calls h).phase = .skipped)) ∨ (s.calls h).phase = .absorbed q

theorem Flow.answered {s : St} (hf : Flow s) (hidle : ∀ r, ¬ Active s.rows r) {h q : Nat} (ha : Answered s h q) :
    (s.calls q).commit ≠ none := by
  have taken : (s.calls q).phase = .done ∨ (s.calls q).phase = .skipped → (s.calls q).commit ≠ none := by
    intro hp hnone
    have := hf.taken (h := q) (by rcases hp with hp | hp <;> rw [hp] <;> rfl)
    rw [hnone] at this; cases this
  rcases ha with ⟨rfl, hp⟩ | hp
  · exact taken hp
  · exact taken (hf.closed (hf.absorbed hp) (hidle q))

/-- **No push is lost, where it is not absorbed.** A delivery id starts one run
at most. And in a run without failures that ends with no active run, the newest
push or upload is recorded if some trigger was answered with a run whose
checkout was still to be taken when it came in: `u` is the state then. -/
theorem no_push_lost {s u w : St} {as bs : List Act} (hs : Init s) (hu : Machine.run next s as = some u)
    (hw : Machine.run next u bs = some w) :
    (∀ h g d : Nat, (w.calls h).kind = .webhook d → (w.calls g).kind = .webhook d → Has w.rows h → Has w.rows g →
      h = g) ∧
    ((∀ t ∈ Machine.trace next s (as ++ bs), Smooth t.pre t.act ∧ Prompt t.pre t.act) → (∀ a ∈ bs, a.news = false) →
      (∃ h q, Answered w h q ∧ (u.calls q).commit = none) → activeRun w.rows = none →
      w.lastCommit = w.origin.head?) := by
  constructor
  · have hstep : ∀ s a s', Inv s ∧ Delivered s → True → next s a = some s' → Inv s' ∧ Delivered s' :=
      fun s a s' h _ hn => ⟨h.1.step hn, h.2.step h.1 hn⟩
    have hws : Machine.run next s (as ++ bs) = some w := by rw [Machine.run_append, hu]; exact hw
    have hd := (Machine.run_inv next hstep ⟨hs.inv, hs.delivered⟩ (fun _ _ => trivial) hws).2
    exact fun _ _ _ hh hg hrh hrg => hd.once hh hg hrh hrg
  · intro hok hnews ⟨h, q, hans, hq⟩ hidle
    have hidle : ∀ r, ¬ Active w.rows r := activeRun_none hidle
    rw [Machine.trace_append next hu] at hok
    have hflow : ∀ s a s', Inv s ∧ Refs s ∧ Flow s → Smooth s a ∧ Prompt s a → next s a = some s' →
        Inv s' ∧ Refs s' ∧ Flow s' := fun s a s' h ho hn =>
      ⟨h.1.step hn, h.2.1.step h.1 hn, h.2.2.step h.1 ho.1 hn h.2.1 ho.2⟩
    have hinit : Inv u ∧ Refs u ∧ Flow u := Machine.run_guarded next hflow ⟨hs.inv, hs.refs, hs.flow⟩
      (fun t ht => hok t (List.mem_append_left _ ht)) hu
    -- Nothing more is pushed, and the checkout of `q` makes the pipeline current.
    have hstep : ∀ s a s', (Inv s ∧ Refs s ∧ Flow s) ∧ s.origin = u.origin ∧
        ((s.calls q).commit = none ∨ Current u.origin.head? s) → (Smooth s a ∧ Prompt s a) ∧ a.news = false →
        next s a = some s' → (Inv s' ∧ Refs s' ∧ Flow s') ∧ s'.origin = u.origin ∧
          ((s'.calls q).commit = none ∨ Current u.origin.head? s') := by
      rintro s a s' ⟨hb, ho, hc⟩ ⟨hok, hnew⟩ hn
      have hhead : s.origin.head? = u.origin.head? := by rw [ho]
      have horigin : s'.origin = s.origin := by
        refine (next_moved hn).origin (fun c d ha => ?_) fun h c ha => ?_ <;> rw [ha] at hnew <;> cases hnew
      refine ⟨hflow s a s' hb hok hn, horigin.trans ho, ?_⟩
      by_cases hsome : (s'.calls q).commit = none
      · exact Or.inl hsome
      · refine Or.inr ?_
        rcases hc with hnone | hc
        · exact Current.first hb.1 hb.2.2 hok.1 hn hhead hnone hsome
        · exact hc.step hb.2.2 hok.1 hn hhead
    have hnews' : ∀ t ∈ Machine.trace next u bs, t.act.news = false := fun t ht => hnews _ (Machine.trace_act next ht)
    obtain ⟨⟨_, _, hfw⟩, ho, hc⟩ := Machine.run_guarded next hstep ⟨hinit, rfl, Or.inl hq⟩
      (fun t ht => ⟨hok t (List.mem_append_right _ ht), hnews' t ht⟩) hw
    rw [ho]
    exact (hc.resolve_left (hfw.answered hidle hans)).recorded hidle

/-! ## An absorbed push -/

/-- All deliveries and uploads are answered, and no run is active. -/
structure Settled (s : St) : Prop where
  delivered : ∀ d ∈ s.sent, ∃ h, (s.calls h).kind = .webhook d ∧ (s.calls h).phase.ended = true
  answered : ∀ h, (s.calls h).phase = .idle ∨ (s.calls h).phase.ended = true
  idle : activeRun s.rows = none

/-- A registered repository with nothing pushed. -/
def unpushed : St := { fresh with origin := [], sent := [] }

theorem unpushed_init : Init unpushed := ⟨rfl, rfl, fun _ => ⟨rfl, rfl⟩, fun _ => rfl, fun _ => rfl⟩

/-- A push's webhook up to its checkout, -/
def firstPush : List Act :=
  [.push "a1" 1, .receive 1 1, .load 1, .check 1, .insert 1, .prepareCheckout 1, .fetch 1 "a1", .checkedOut 1]

/-- and from there to its run's end. -/
def firstSync : List Act :=
  [.dispatch 1 false, .setRequestedRef 1, .start 1, .loadRepository 1, .loadRun 1, .beginRun 1, .succeed 1]

def secondPush : List Act := [.push "b2" 2, .receive 2 2, .load 2, .check 2]

instance (s : St) (a : Act) : Decidable (Smooth s a) :=
  match a with
  | .request _ k => inferInstanceAs (Decidable (k = .upload))
  | .insert _ => inferInstanceAs (Decidable (activeRun s.rows = none))
  | .dispatch _ lost => inferInstanceAs (Decidable (lost = false))
  | .raise _ | .markEnqueueFailed _ | .crash _ | .markFailedSync _ | .die _ | .cancelRun _ _ | .findStale _ _
  | .cancelPending _ _ | .endRun _ => isFalse id
  | .tick | .push _ _ | .receive _ _ | .load _ | .persistUpload _ _ | .check _ | .prepareCheckout _ | .fetch _ _
  | .checkedOut _ | .setRequestedRef _ | .start _ | .loadRepository _ | .loadRun _ | .beginRun _ | .succeed _
  | .probe _ _ | .refresh _ => isTrue trivial

instance (s : St) (a : Act) : Decidable (Prompt s a) :=
  match a with
  | .loadRun r => inferInstanceAs (Decidable ((s.calls r).phase = .done))
  | .insert h => inferInstanceAs
      (Decidable ((s.calls h).kind.triggerKind ≠ .manual → (s.calls h).lastCommit = s.lastCommit))
  | .tick | .push _ _ | .receive _ _ | .request _ _ | .load _ | .persistUpload _ _ | .check _ | .prepareCheckout _
  | .fetch _ _ | .checkedOut _ | .dispatch _ _ | .setRequestedRef _ | .raise _ | .markEnqueueFailed _ | .crash _
  | .start _ | .loadRepository _ | .beginRun _ | .succeed _ | .markFailedSync _ | .die _ | .cancelRun _ _
  | .findStale _ _ | .probe _ _ | .cancelPending _ _ | .refresh _ | .endRun _ => isTrue trivial

/-- Where a run of the unpushed repository gets. -/
def after (as : List Act) : St := (Machine.run next unpushed as).getD unpushed

theorem no_push_lost_one : (after (firstPush ++ firstSync)).lastCommit = (after (firstPush ++ firstSync)).origin.head? :=
  have hu : Machine.run next unpushed (firstPush.take 1) = some (after (firstPush.take 1)) := rfl
  have hw : Machine.run next (after (firstPush.take 1)) (firstPush.drop 1 ++ firstSync) =
    some (after (firstPush ++ firstSync)) := rfl
  (no_push_lost unpushed_init hu hw).2 (by decide) (by decide) ⟨1, 1, Or.inl ⟨rfl, Or.inl (by decide)⟩, by decide⟩
    (by decide)

/-- The second push comes in after the first one's checkout, and its webhook is
absorbed. -/
theorem no_push_lost_absorbed :
    ¬ ∀ (s w : St) (as : List Act), Init s → Machine.run next s as = some w →
      (∀ t ∈ Machine.trace next s as, Smooth t.pre t.act ∧ Prompt t.pre t.act) → Settled w →
      w.lastCommit = w.origin.head? := by
  intro h
  have hw : Machine.run next unpushed (firstPush ++ secondPush ++ firstSync) =
    some (after (firstPush ++ secondPush ++ firstSync)) := rfl
  have hset : Settled (after (firstPush ++ secondPush ++ firstSync)) := by
    refine ⟨fun d hd => ⟨d, ?_⟩, fun h => ?_, by decide⟩
    · revert d; decide
    · match h with
      | 0 => decide
      | 1 => decide
      | 2 => decide
      | n + 3 => exact Or.inl rfl
  exact absurd (h unpushed _ _ unpushed_init hw (by decide) hset) (by decide)

end Cograph.Pipeline
