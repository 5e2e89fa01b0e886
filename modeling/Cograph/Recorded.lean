import Cograph.ByKey
import Cograph.PipelineSound

/-!
# The recorded commit

The commit of a checkout reaches the worker through one column of the run's
row, which the enqueue writes after its job is stored. A worker that loads the
row earlier keeps the requested ref the caller gave, which for most callers is
none, and then records nothing.
-/

namespace Cograph.Pipeline

/-! ## What a call keeps -/

section
variable {s : St} {h : Nat} {a : Act} {c : Call} (hm : CallMove s h a c)
include hm

theorem CallMove.kind_eq (hp : (s.calls h).phase ≠ .idle) : c.kind = (s.calls h).kind := by
  cases hm with
  | stay | load | fetch | goto => rfl
  | receive hi | duplicate hi | request hi => exact absurd hi hp

theorem CallMove.commit_eq (hp : (s.calls h).phase ≠ .idle) (hr : (s.calls h).phase ≠ .rewriting) :
    c.commit = (s.calls h).commit := by
  cases hm with
  | stay | load | goto => rfl
  | receive hi | duplicate hi | request hi => exact absurd hi hp
  | fetch hi => exact absurd hi hr

theorem CallMove.ended_eq (he : (s.calls h).phase.ended = true) : c = s.calls h := by
  cases hm with
  | stay => rfl
  | receive hp | duplicate hp | request hp | load hp | fetch hp => rw [hp] at he; cases he
  | goto hg =>
    cases hg with
    | absorbed hp | checked hp => rw [hp] at he; cases hk : (s.calls h).kind <;> rw [hk] at he <;> cases he
    | raising hp => rcases hp with hp | hp | hp | hp <;> rw [hp] at he <;> cases he
    | crashed _ hp => rw [hp] at he; cases he
    | persisted hp | conflict hp | inserted hp | rewriting hp | prepared hp | skipped hp | stored hp | done hp
    | failed hp => rw [hp] at he; cases he

theorem CallMove.done (hd : c.phase = .done) : (s.calls h).phase = .done ∨ a = .setRequestedRef h := by
  cases hm with
  | stay => exact Or.inl hd
  | receive | duplicate | request | load | fetch => cases hd
  | goto hg =>
    cases hg with
    | done => exact Or.inr rfl
    | stored => split at hd <;> cases hd
    | persisted | absorbed | checked | conflict | inserted | rewriting | prepared | skipped | raising | failed
    | crashed => cases hd

theorem CallMove.fetched (hp : c.phase = .fetched ∨ c.phase = .prepared) :
    c.commit.isSome = true ∨ ((s.calls h).phase = .fetched ∨ (s.calls h).phase = .prepared) := by
  cases hm with
  | stay => exact Or.inr hp
  | receive | duplicate | request | load => rcases hp with hp | hp <;> cases hp
  | fetch => exact Or.inl rfl
  | goto hg =>
    cases hg with
    | prepared h' => exact Or.inr (Or.inl h')
    | stored => rcases hp with hp | hp <;> split at hp <;> cases hp
    | persisted | absorbed | checked | conflict | inserted | rewriting | skipped | done | raising | failed
    | crashed => rcases hp with hp | hp <;> cases hp

end

theorem CallMove.setRequestedRef {s : St} {h : Nat} {c : Call} (hm : CallMove s h (.setRequestedRef h) c) :
    c = { s.calls h with phase := .done } := by
  cases hm with
  | stay hne => exact absurd rfl hne
  | goto hg => cases hg; rfl

theorem CallMove.skipped {s : St} {h : Nat} {lost : Bool} {c : Call} (hm : CallMove s h (.dispatch h lost) c)
    (hs : (s.calls h).skips = true) : c.phase = .skipped := by
  cases hm with
  | stay hne => exact absurd rfl hne
  | goto hg =>
    cases hg with
    | skipped => rfl
    | stored _ hskip => rw [hs] at hskip; cases hskip

/-! ## The requested ref -/

/-- Where a row's requested ref comes from. -/
inductive Source (s : St) (a : Act) (q : RepoSyncRun) : Prop
  | old {p : RepoSyncRun} : p ∈ s.rows → p.id = q.id → q.requestedRef = p.requestedRef → a ≠ .setRequestedRef q.id →
      Source s a q
  | insert : a = .insert q.id → (s.calls q.id).phase = .checked → q.requestedRef = (s.calls q.id).kind.requestedRef →
      Source s a q
  | set : a = .setRequestedRef q.id → q.requestedRef = (s.calls q.id).commit → Source s a q
  | skip {lost : Bool} : a = .dispatch q.id lost → (s.calls q.id).skips = true → Source s a q

theorem mem_setRow {rows : List RepoSyncRun} {r : Nat} {f : RepoSyncRun → RepoSyncRun} {q : RepoSyncRun}
    (hq : q ∈ setRow rows r f) : ∃ p ∈ rows, (p.id = r ∧ q = f p) ∨ (p.id ≠ r ∧ q = p) := by
  obtain ⟨p, hp, rfl⟩ := List.mem_map.mp hq
  by_cases h : p.id = r
  · exact ⟨p, hp, Or.inl ⟨h, if_pos h⟩⟩
  · exact ⟨p, hp, Or.inr ⟨h, if_neg h⟩⟩

theorem RowMove.source {s : St} {a : Act} {rows : List RepoSyncRun} (hm : RowMove s a rows) {q : RepoSyncRun}
    (hq : q ∈ rows) : Source s a q := by
  cases hm with
  | stay hw => exact .old hq rfl rfl fun ha => by rw [ha] at hw; cases hw
  | conflict | stored | busy => exact .old hq rfl rfl nofun
  | insert hp =>
    rcases List.mem_cons.mp hq with rfl | hq
    · exact .insert rfl hp rfl
    · exact .old hq rfl rfl nofun
  | skip _ hs =>
    obtain ⟨p, hp, ⟨hid, rfl⟩ | ⟨_, rfl⟩⟩ := mem_setRow hq
    · subst hid; exact .skip rfl hs
    · exact .old hp rfl rfl nofun
  | requestedRef =>
    obtain ⟨p, hp, ⟨hid, rfl⟩ | ⟨hne, rfl⟩⟩ := mem_setRow hq
    · subst hid; exact .set rfl rfl
    · exact .old hp rfl rfl fun ha => hne (Act.setRequestedRef.inj ha).symm
  | enqueueFailed | running | success | syncFailed | endRun =>
    obtain ⟨p, hp, ⟨_, rfl⟩ | ⟨_, rfl⟩⟩ := mem_setRow hq
    · exact .old hp rfl rfl nofun
    · exact .old hp rfl rfl nofun

/-- A row asks for what its call was given until the enqueue is done. -/
structure Refs (s : St) : Prop where
  done : ∀ q ∈ s.rows, (s.calls q.id).phase = .done → q.requestedRef = (s.calls q.id).commit
  given : ∀ q ∈ s.rows, (s.calls q.id).phase ≠ .done → (s.calls q.id).phase ≠ .skipped →
    q.requestedRef = (s.calls q.id).kind.requestedRef
  fetched : ∀ {h : Nat}, (s.calls h).phase = .fetched ∨ (s.calls h).phase = .prepared → (s.calls h).commit.isSome = true
  job : ∀ {r : Nat}, (s.works r).phase ≠ .idle → (s.calls r).commit.isSome = true

theorem Init.refs {s : St} (h : Init s) : Refs s where
  done q hq := by rw [h.rows] at hq; cases hq
  given q hq := by rw [h.rows] at hq; cases hq
  fetched {a} hp := by rw [(h.calls a).1] at hp; rcases hp with hp | hp <;> cases hp
  job hw := absurd (h.works _) hw

theorem before_not_idle {p : CallPhase} (h : p.before = false) : p ≠ .idle := by rintro rfl; cases h

theorem Inv.not_idle {s : St} (hi : Inv s) {q : RepoSyncRun} (hq : q ∈ s.rows) : (s.calls q.id).phase ≠ .idle :=
  before_not_idle (hi.rowed ⟨q, hq, rfl⟩)

theorem Inv.commit_eq {s s' : St} (hi : Inv s) {a : Act} (hm : Moved s a s') {r : Nat} (hw : (s.works r).phase ≠ .idle) :
    (s'.calls r).commit = (s.calls r).commit := by
  have hj := hi.jobbed hw
  refine (hm.call r).commit_eq ?_ ?_ <;> intro hp <;> rw [hp] at hj <;> cases hj

theorem Refs.step {s s' : St} (hi : Inv s) (hf : Refs s) {a : Act} (hn : next s a = some s') : Refs s' := by
  have hm := next_moved hn
  constructor
  · intro q hq hd
    cases hm.rows.source hq with
    | @old p hp hid href hne =>
      have hdone : (s.calls q.id).phase = .done := ((hm.call q.id).done hd).resolve_right hne
      rw [(hm.call q.id).ended_eq (by rw [hdone]; rfl), href]
      rw [← hid] at hdone ⊢
      exact hf.done p hp hdone
    | insert ha hp =>
      rcases (hm.call q.id).done hd with h | h
      · rw [hp] at h; cases h
      · rw [ha] at h; cases h
    | set ha href =>
      have hc := hm.call q.id
      rw [ha] at hc
      rw [href, hc.setRequestedRef]
    | skip ha hs =>
      have hc := hm.call q.id
      rw [ha] at hc
      rw [hc.skipped hs] at hd; cases hd
  · intro q hq hd hk
    cases hm.rows.source hq with
    | @old p hp hid href hne =>
      -- A call that had ended would still be where it was.
      have hlive : ∀ x : CallPhase, x.ended = true → (s'.calls q.id).phase ≠ x → (s.calls q.id).phase ≠ x :=
        fun x hx hx' h => hx' (by rw [(hm.call q.id).ended_eq (by rw [h]; exact hx)]; exact h)
      have hd' := hlive _ rfl hd
      have hk' := hlive _ rfl hk
      have hidle := hi.not_idle hp
      rw [hid] at hidle
      rw [href, (hm.call q.id).kind_eq hidle]
      rw [← hid] at hd' hk' ⊢
      exact hf.given p hp hd' hk'
    | insert _ hp href =>
      rw [href, (hm.call q.id).kind_eq (by rw [hp]; nofun)]
    | set ha =>
      have hc := hm.call q.id
      rw [ha] at hc
      rw [hc.setRequestedRef] at hd
      exact absurd rfl hd
    | skip ha hs =>
      have hc := hm.call q.id
      rw [ha] at hc
      exact absurd (hc.skipped hs) hk
  · intro h hp
    rcases (hm.call h).fetched hp with hc | hp'
    · exact hc
    · have hcommit : (s'.calls h).commit = (s.calls h).commit := by
        refine (hm.call h).commit_eq ?_ ?_ <;> rcases hp' with hp' | hp' <;> rw [hp'] <;> nofun
      rw [hcommit]
      exact hf.fetched hp'
  · intro r hw
    rcases (hm.work r).idle hw with hw | ⟨lost, _, hp, _⟩
    · rw [hi.commit_eq hm hw]
      exact hf.job hw
    · rw [(hm.call r).commit_eq (by rw [hp]; nofun) (by rw [hp]; nofun)]
      exact hf.fetched (Or.inr hp)

/-! ## The worker's copies -/

/-- The worker has loaded the repository's row, and nothing was recorded since. -/
def Opened (r : Nat) (s : St) : Prop := (s.works r).phase = .opened → (s.works r).lastCommit = s.lastCommit

/-- What a worker that has loaded its run keeps. -/
structure Tracked (r : Nat) (ref last commit : Option Ref) (s : St) : Prop where
  recorded : s.lastCommit = last
  prepared : (s.calls r).commit = commit
  past : (s.works r).phase = .loaded ∨ (s.works r).phase = .running ∨ (s.works r).phase = .ended
  copies : (s.works r).phase ≠ .ended → (s.works r).requestedRef = ref ∧ (s.works r).lastCommit = last

section
variable {s s' : St} (hi : Inv s) {r : Nat} {a : Act} (ha : ∀ q, a ≠ .succeed q) (hn : next s a = some s')
include ha hn

omit ha in
include hi in
theorem ended_step (he : (s.works r).phase = .ended) : (s'.works r).phase = .ended := by
  have hw := (next_moved hn).work r
  generalize s'.works r = w at hw ⊢
  cases hw with
  | stay => exact he
  | ended => rfl
  | store hp => have hj := hi.jobbed (r := r) (by rw [he]; nofun); rw [hp] at hj; cases hj
  | start hp | loadRepository hp | loadRun hp | running hp => rw [he] at hp; cases hp

theorem Opened.step (ho : Opened r s) : Opened r s' := by
  intro hp
  have hm := next_moved hn
  rw [hm.last ha]
  have hw := hm.work r
  generalize s'.works r = w at hw hp ⊢
  cases hw with
  | stay => exact ho hp
  | loadRepository => rfl
  | store | start | loadRun | running | ended => cases hp

include hi in
theorem Tracked.step {ref last commit : Option Ref} (ht : Tracked r ref last commit s) :
    Tracked r ref last commit s' := by
  have hm := next_moved hn
  have hjob : (s.works r).phase ≠ .idle := by rcases ht.past with h | h | h <;> rw [h] <;> nofun
  -- The worker is past its loads.
  have hpast : ∀ p : WorkPhase, p ≠ .loaded → p ≠ .running → p ≠ .ended → (s.works r).phase ≠ p := by
    intro p h₁ h₂ h₃ hp
    rcases ht.past with h | h | h
    · exact h₁ (hp.symm.trans h)
    · exact h₂ (hp.symm.trans h)
    · exact h₃ (hp.symm.trans h)
  have hlast : s'.lastCommit = last := (hm.last ha).trans ht.recorded
  have hcommit : (s'.calls r).commit = commit := (hi.commit_eq hm hjob).trans ht.prepared
  have hw := hm.work r
  suffices h : ((s'.works r).phase = .loaded ∨ (s'.works r).phase = .running ∨ (s'.works r).phase = .ended) ∧
      ((s'.works r).phase ≠ .ended → (s'.works r).requestedRef = ref ∧ (s'.works r).lastCommit = last) from
    ⟨hlast, hcommit, h.1, h.2⟩
  generalize s'.works r = w at hw ⊢
  cases hw with
  | stay => exact ⟨ht.past, ht.copies⟩
  | store hp =>
    have hj := hi.jobbed hjob
    rw [hp] at hj; cases hj
  | start hp => exact absurd hp (hpast _ nofun nofun nofun)
  | loadRepository hp => exact absurd hp (hpast _ nofun nofun nofun)
  | loadRun hp => exact absurd hp (hpast _ nofun nofun nofun)
  | running hp => exact ⟨Or.inr (Or.inl rfl), fun _ => ht.copies (by rw [hp]; nofun)⟩
  | ended => exact ⟨Or.inr (Or.inr rfl), fun h => absurd rfl h⟩

end

theorem WorkMove.loads {s : St} {r : Nat} {a : Act} {w : Work} (hm : WorkMove s r a w)
    (hp : w.phase = .loaded ∨ w.phase = .running) :
    (((s.works r).phase = .loaded ∨ (s.works r).phase = .running) ∧ w.requestedRef = (s.works r).requestedRef) ∨
      a = .loadRun r := by
  cases hm with
  | stay => exact Or.inl ⟨hp, rfl⟩
  | loadRun => exact Or.inr rfl
  | running h' => exact Or.inl ⟨Or.inl h', rfl⟩
  | store | start | loadRepository | ended => rcases hp with hp | hp <;> cases hp

theorem succeed_lastCommit {s s' : St} {r : Nat} (hn : s.succeed r = some s')
    (hlast : (s.works r).lastCommit = s.lastCommit) : s'.lastCommit = (s.works r).requestedRef.or s.lastCommit := by
  obtain ⟨_, hn⟩ := guard_some hn
  simp only at hn
  split at hn
  · rename_i href
    cases hn
    rw [href]; rfl
  · rename_i c href
    split at hn
    · rename_i hc
      cases hn
      rw [href, Option.some_or, hc]
      exact hlast.symm
    · cases hn
      rw [href]; rfl

theorem loadRun_ref {s s' : St} (hi : Inv s) (hf : Refs s) {r : Nat} (hn : s.loadRun r = some s')
    (hp : (s'.works r).phase ≠ .ended) :
    (s'.works r).phase = .loaded ∧ (s'.works r).lastCommit = (s.works r).lastCommit ∧ (s'.works r).requestedRef =
      if (s.calls r).phase = .done then (s.calls r).commit else (s.calls r).kind.requestedRef := by
  obtain ⟨hopened, hn⟩ := guard_some hn
  have hself : ∀ w : Work, (s.setWork r w).works r = w := fun w => Function.update_self ..
  split at hn
  · cases hn; exact absurd (congrArg Work.phase (hself _)) hp
  · rename_i q hq
    split at hn
    · cases hn; exact absurd (congrArg Work.phase (hself _)) hp
    · cases hn
      obtain ⟨hmem, hid⟩ := ByKey.find_mem hq
      subst hid
      have hjob := hi.jobbed (r := q.id) (by rw [hopened]; nofun)
      rw [hself]
      refine ⟨rfl, rfl, ?_⟩
      by_cases hd : (s.calls q.id).phase = .done
      · rw [if_pos hd]; exact hf.done q hmem hd
      · rw [if_neg hd]
        exact hf.given q hmem hd fun hk => by rw [hk] at hjob; cases hjob

/-! ## Runs -/

/-- The worker that loads the row of run `r` finds the checkout's commit
there, or finds no ref though that commit is recorded already. -/
def Timely (s : St) (r : Nat) : Prop :=
  (s.calls r).phase = .done ∨ (s.calls r).kind.requestedRef = (s.calls r).commit ∨
    ((s.calls r).kind.requestedRef = none ∧ s.lastCommit = (s.calls r).commit)

/-- **The recorded commit.** A run that ends in success leaves the commit of
its checkout recorded if and only if its worker loaded the run's row after the
enqueue had written the commit there, or the caller had named that very
commit, or no ref and the commit was recorded before. -/
theorem recorded_commit {s u w : St} {r : Nat} {as₁ as₂ as₃ : List Act} (hs : Init s)
    (hu : Machine.run next s (as₁ ++ .loadRepository r :: as₂) = some u)
    (hw : Machine.run next u (.loadRun r :: (as₃ ++ [.succeed r])) = some w)
    (hothers : ∀ q, .succeed q ∉ as₂ ∧ .succeed q ∉ as₃) :
    w.lastCommit = (w.calls r).commit ↔ Timely u r := by
  have hbase : ∀ s a s', Inv s ∧ Refs s → True → next s a = some s' → Inv s' ∧ Refs s' := fun s a s' h _ hn =>
    ⟨h.1.step hn, h.2.step h.1 hn⟩
  -- Up to the load of the repository's row.
  obtain ⟨s₁, h₁, hu⟩ := Machine.run_split next hu
  have hs₁ := Machine.run_inv next hbase ⟨hs.inv, hs.refs⟩ (fun _ _ => trivial) h₁
  obtain ⟨s₂, h₂, hu⟩ := Machine.run_next next hu
  have hs₂ := hbase _ _ _ hs₁ trivial h₂
  have hload : ∀ q, Act.loadRepository r ≠ .succeed q := fun _ => nofun
  have hopen : Opened r s₂ := Opened.step hload h₂ fun hp => by
    obtain ⟨hstart, _⟩ := guard_some h₂
    rw [hstart] at hp; cases hp
  -- Up to the load of the run's row.
  have hopened : ∀ s a s', (Inv s ∧ Refs s) ∧ Opened r s → (∀ q, a ≠ .succeed q) → next s a = some s' →
      (Inv s' ∧ Refs s') ∧ Opened r s' := fun s a s' h ha hn => ⟨hbase s a s' h.1 trivial hn, h.2.step ha hn⟩
  have hquiet : ∀ as : List Act, (∀ q, .succeed q ∉ as) → ∀ a ∈ as, ∀ q, a ≠ .succeed q := fun as h a ha q hq =>
    h q (hq ▸ ha)
  obtain ⟨⟨hiu, hfu⟩, hou⟩ := Machine.run_inv next hopened ⟨hs₂, hopen⟩ (hquiet _ fun q => (hothers q).1) hu
  obtain ⟨u', hload, hw⟩ := Machine.run_next next hw
  obtain ⟨v, hv, hw⟩ := Machine.run_split next hw
  obtain ⟨w', hsucc, hw⟩ := Machine.run_next next hw
  cases hw
  have hiu' : Inv u' := hiu.step hload
  -- From there to the success.
  obtain ⟨hrunning, _⟩ := guard_some hsucc
  have hended : (u'.works r).phase ≠ .ended := fun he => by
    have hstep : ∀ s a s', Inv s ∧ (s.works r).phase = .ended → True → next s a = some s' →
        Inv s' ∧ (s'.works r).phase = .ended := fun s a s' h _ hn => ⟨h.1.step hn, ended_step h.1 hn h.2⟩
    have := (Machine.run_inv next hstep ⟨hiu', he⟩ (fun _ _ => trivial) hv).2
    rw [hrunning] at this; cases this
  obtain ⟨hloaded, hcopy, href⟩ := loadRun_ref hiu hfu hload hended
  have hphase : (u.works r).phase = .opened := (guard_some hload).1
  have hm := next_moved hload
  have hjob : (u.works r).phase ≠ .idle := by rw [hphase]; nofun
  have htrack : Tracked r (u'.works r).requestedRef u.lastCommit (u.calls r).commit u' := by
    refine ⟨hm.last fun _ => nofun, hiu.commit_eq hm hjob, Or.inl hloaded, fun _ => ⟨rfl, ?_⟩⟩
    rw [hcopy]; exact hou hphase
  have hstep : ∀ s a s', Inv s ∧ Tracked r (u'.works r).requestedRef u.lastCommit (u.calls r).commit s →
      (∀ q, a ≠ .succeed q) → next s a = some s' →
      Inv s' ∧ Tracked r (u'.works r).requestedRef u.lastCommit (u.calls r).commit s' := fun s a s' h ha hn =>
    ⟨h.1.step hn, h.2.step h.1 ha hn⟩
  obtain ⟨hiv, hv⟩ := Machine.run_inv next hstep ⟨hiu', htrack⟩ (hquiet _ fun q => (hothers q).2) hv
  obtain ⟨hvref, hvlast⟩ := hv.copies (by rw [hrunning]; nofun)
  -- What is recorded, and what it should be.
  have hw : w.lastCommit = (u'.works r).requestedRef.or u.lastCommit := by
    rw [succeed_lastCommit hsucc (hvlast.trans hv.recorded.symm), hvref, hv.recorded]
  have hc : (w.calls r).commit = (u.calls r).commit :=
    (hiv.commit_eq (next_moved hsucc) (by rw [hrunning]; nofun)).trans hv.prepared
  obtain ⟨c, hsome⟩ := Option.isSome_iff_exists.mp (hfu.job hjob)
  rw [hw, hc, href, Timely, hsome]
  by_cases hd : (u.calls r).phase = .done
  · simp [hd]
  · cases (u.calls r).kind.requestedRef <;> simp [hd]

/-- A manual sync of the pushed commit up to the worker's load of the
repository's row, and the enqueue's last commit. -/
def enqueued (late : Bool) : List Act :=
  [.request 1 (.other .manual none), .load 1, .check 1, .insert 1, .prepareCheckout 1, .fetch 1 "a1", .checkedOut 1,
    .dispatch 1 false, .start 1] ++ (if late then [.loadRepository 1] else [.loadRepository 1, .setRequestedRef 1])

theorem recorded_commit_in_time :
    ∃ u w, Machine.run next fresh (enqueued false) = some u ∧
      Machine.run next u (.loadRun 1 :: ([.beginRun 1] ++ [.succeed 1])) = some w ∧
      (w.lastCommit = (w.calls 1).commit ↔ Timely u 1) := by
  have hu : (Machine.run next fresh (enqueued false)).isSome = true := by decide
  obtain ⟨u, hu⟩ := Option.isSome_iff_exists.mp hu
  have hw : ((Machine.run next fresh (enqueued false)).bind
      (Machine.run next · (.loadRun 1 :: ([.beginRun 1] ++ [.succeed 1])))).isSome = true := by decide
  rw [hu] at hw
  obtain ⟨w, hw⟩ := Option.isSome_iff_exists.mp hw
  exact ⟨u, w, hu, hw, recorded_commit fresh_init hu hw fun _ => ⟨by simp, by simp⟩⟩

/-- The worker loads the row first, and the run ends in success with nothing
recorded. -/
theorem recorded_commit_early :
    ¬ ∀ (as : List Act) (w : St) (r : Nat), Machine.run next fresh as = some w →
      (row? w.rows r).map (·.status) = some .success → w.lastCommit = (w.calls r).commit := by
  intro h
  have hrun : (Machine.run next fresh (enqueued true ++ [.loadRun 1, .setRequestedRef 1, .beginRun 1, .succeed 1])).map
      (fun w => ((row? w.rows 1).map (·.status), w.lastCommit, (w.calls 1).commit)) =
        some (some .success, none, some "a1") := by decide
  obtain ⟨w, hw, he⟩ := Option.map_eq_some_iff.mp hrun
  simp only [Prod.mk.injEq] at he
  have hrecorded := h _ w 1 hw he.1
  rw [he.2.1, he.2.2] at hrecorded
  cases hrecorded

end Cograph.Pipeline
