import Cograph.LifecycleMoves

/-!
# An indexed repository stays READY

READY with a recorded commit is left, and ERROR stands beside a recorded
commit, just when an archive is uploaded over a READY repository or a session
commits a status by a copy that is older than the commit.
-/

namespace Cograph.Lifecycle

open Machine
open Pipeline (activeRun)

/-- READY with a recorded commit. -/
def St.Indexed (s : St) : Prop := s.status = .ready ∧ s.sync.lastCommit.isSome

/-- A step of a repository that is not being deleted. -/
structure Stable (t : Step St Act) : Prop where
  ready : t.pre.Indexed → t.post.deletedAt = none → t.post.Indexed
  error : t.post.deletedAt = none → t.post.status = .error → t.post.sync.lastCommit = none

/-- The session's copy is not READY, but the row is, with a commit. -/
def Lags (s : St) (x : Session) (v : RepositoryStatus) : Prop :=
  s.Indexed ∧ ∃ c, x = .loaded c ∧ c.status ≠ .ready ∧ c.status ≠ v

/-- A commit was recorded after the copy was read. -/
def Misses (s : St) (c : Copy) : Prop := s.sync.lastCommit.isSome ∧ c.lastCommit = none ∧ c.status ≠ .error

/-- A success writes `last_commit`. -/
def Records (s : Pipeline.St) (r : Nat) : Prop :=
  ∃ c, (s.works r).requestedRef = some c ∧ (s.works r).lastCommit ≠ some c

/-- No archive is uploaded over an indexed repository, and no commit of a status
comes from a copy that misses what another session has recorded. -/
def Guarded (s : St) : Act → Prop
  | .markPending h => ¬(s.Indexed ∧ ∃ c, s.calls h = .loaded c ∧ c.status ≠ .pending)
  | .sync (.insert h) => activeRun s.sync.rows = none → ¬Lags s (s.calls h) .cloning
  | .sync (.beginRun r) => ¬Busy s r → ¬Lags s (s.works r) .indexing
  | .advancePhase r p => ¬Lags s (s.works r) p.status
  | .sync (.markEnqueueFailed h) => ∀ c, s.calls h = .reread c → ¬Misses s c
  | .sync (.markFailedSync r) => ∀ c, s.works r = .reread c → ¬Misses s c
  | .sync (.endRun e) => (s.sync.enders e).ending = .error →
      ∀ c, s.enders e = .loaded c → c.status.active = true → ¬Misses s c
  | .sync (.succeed r) => s.status = .error → Records s.sync r → ∀ c, s.works r = .loaded c → c.status ≠ .ready
  | _ => True

structure Inv (s : St) : Prop where
  error : s.deletedAt = none → s.status = .error → s.sync.lastCommit = none
  recorded : ∀ h c, s.calls h = .recorded c → c.status = c.failed

theorem Init.inv {s : St} (h : Init s) : Inv s where
  error _ := h.error
  recorded a c hc := by rw [h.calls] at hc; cases hc

theorem succeed_last {s s' : Pipeline.St} {r : Nat} (h : Pipeline.next s (.succeed r) = some s') :
    Records s r ∧ s'.lastCommit.isSome ∨ ¬Records s r ∧ s'.lastCommit = s.lastCommit := by
  obtain ⟨_, h⟩ := Pipeline.guard_some h
  split at h
  · rename_i hnone
    cases h
    exact .inr ⟨by simp [Records, hnone], rfl⟩
  · rename_i c hc
    split at h
    · rename_i heq
      cases h
      exact .inr ⟨by simp [Records, hc, heq.symm], rfl⟩
    · rename_i hne
      cases h
      exact .inl ⟨⟨c, hc, fun heq => hne heq.symm⟩, rfl⟩

/-! ## One commit -/

section
variable {s s' : St} {a : Act} {c : Copy}

theorem stable_stay (hs : Inv s) (hstatus : s'.status = s.status) (hlast : s'.sync.lastCommit = s.sync.lastCommit)
    (hdel : s'.deletedAt = s.deletedAt) : Stable ⟨s, a, s'⟩ where
  ready hi _ := by
    rw [St.Indexed, hstatus, hlast]
    exact hi
  error hd he := by
    rw [hlast]
    exact hs.error (hdel ▸ hd) (hstatus ▸ he)

theorem stable_ready (hs : Inv s) (hstatus : s'.status = c.commit .ready s.status)
    (hlast : s'.sync.lastCommit = s.sync.lastCommit) (hdel : s'.deletedAt = s.deletedAt) : Stable ⟨s, a, s'⟩ := by
  unfold Copy.commit at hstatus
  split at hstatus
  · exact stable_stay hs hstatus hlast hdel
  · exact ⟨fun hi _ => ⟨hstatus, hlast ▸ hi.2⟩, fun _ he => by rw [hstatus] at he; cases he⟩

theorem stable_write {v : RepositoryStatus} (hs : Inv s) (hr : v ≠ .ready) (he : v ≠ .error)
    (hstatus : s'.status = c.commit v s.status) (hlast : s'.sync.lastCommit = s.sync.lastCommit)
    (hdel : s'.deletedAt = s.deletedAt) :
    Stable ⟨s, a, s'⟩ ↔ (s.deletedAt = none → ¬(s.Indexed ∧ c.status ≠ v)) := by
  unfold Copy.commit at hstatus
  split at hstatus
  · rename_i hc
    simp only [hc, ne_eq, not_true_eq_false, and_false, not_false_eq_true, implies_true, iff_true]
    exact stable_stay hs hstatus hlast hdel
  · rename_i hc
    constructor
    · rintro hst hd ⟨hi, -⟩
      exact hr (hstatus.symm.trans (hst.ready hi (hdel.trans hd)).1)
    · intro hok
      refine ⟨fun hi hd => absurd ⟨hi, hc⟩ (hok (hdel.symm.trans hd)), fun _ he' => ?_⟩
      exact absurd (hstatus.symm.trans he') he

/-- `_advance_phase` and the test of the enqueue. -/
theorem stable_advance {v : RepositoryStatus} {x : Session} (hs : Inv s) (hx : x = .loaded c) (hr : v ≠ .ready)
    (he : v ≠ .error) (hstatus : s'.status = c.commit (c.advance v) s.status)
    (hlast : s'.sync.lastCommit = s.sync.lastCommit) (hdel : s'.deletedAt = s.deletedAt) :
    Stable ⟨s, a, s'⟩ ↔ (s.deletedAt = none → ¬Lags s x v) := by
  subst hx
  by_cases hc : c.status = .ready
  · have hstay : s'.status = s.status := by simpa [Copy.advance, Copy.commit, hc] using hstatus
    have hlags : ¬Lags s (.loaded c) v := by
      rintro ⟨-, c', hc', hne, -⟩
      cases hc'
      exact hne hc
    exact ⟨fun _ _ => hlags, fun _ => stable_stay hs hstay hlast hdel⟩
  · rw [Copy.advance, if_pos hc] at hstatus
    rw [stable_write hs hr he hstatus hlast hdel]
    have hlags : Lags s (.loaded c) v ↔ s.Indexed ∧ c.status ≠ v := by
      simp only [Lags, Session.loaded.injEq]
      exact and_congr_right fun _ => ⟨fun ⟨_, h, _, hv⟩ => h ▸ hv, fun hv => ⟨c, rfl, hc, hv⟩⟩
    rw [hlags]

theorem stable_failed (hs : Inv s) (hstatus : s'.status = c.commit c.failed s.status)
    (hlast : s'.sync.lastCommit = s.sync.lastCommit) (hdel : s'.deletedAt = s.deletedAt) :
    Stable ⟨s, a, s'⟩ ↔ (s.deletedAt = none → ¬Misses s c) := by
  cases hc : c.lastCommit with
  | some r =>
    have hfailed : c.failed = .ready := by simp [Copy.failed, hc]
    rw [hfailed] at hstatus
    have hmisses : ¬Misses s c := by simp [Misses, hc]
    exact ⟨fun _ _ => hmisses, fun _ => stable_ready hs hstatus hlast hdel⟩
  | none =>
    have hfailed : c.failed = .error := by simp [Copy.failed, hc]
    rw [hfailed] at hstatus
    unfold Copy.commit at hstatus
    split at hstatus
    · rename_i herr
      exact ⟨fun _ _ hm => hm.2.2 herr, fun _ => stable_stay hs hstatus hlast hdel⟩
    · rename_i herr
      constructor
      · intro hst hd hm
        have hnone : s'.sync.lastCommit = none := hst.error (hdel.trans hd) hstatus
        rw [Misses, ← hlast, hnone] at hm
        exact absurd hm.1 (by simp)
      · intro hok
        have hnone : s'.deletedAt = none → s.sync.lastCommit = none := by
          intro hd
          by_contra hne
          exact hok (hdel.symm.trans hd) ⟨Option.isSome_iff_ne_none.mpr hne, hc, herr⟩
        refine ⟨fun hi hd => ?_, fun hd _ => hlast.trans (hnone hd)⟩
        simp [St.Indexed, hnone hd] at hi

theorem stable_success {r : Nat} (hs : Inv s) (hc : s.works r = .loaded c)
    (hstatus : s'.status = c.commit .ready s.status) (hnext : Pipeline.next s.sync (.succeed r) = some s'.sync)
    (hdel : s'.deletedAt = s.deletedAt) :
    Stable ⟨s, a, s'⟩ ↔ (s.deletedAt = none → Guarded s (.sync (.succeed r))) := by
  rcases succeed_last hnext with ⟨hrec, hlast⟩ | ⟨hrec, hlast⟩
  · constructor
    · intro hst hd herr _ c' hc' hready
      rw [hc] at hc'
      cases hc'
      have hstay : s'.status = .error := by rw [hstatus, Copy.commit, if_pos hready, herr]
      have hnone : s'.sync.lastCommit = none := hst.error (hdel.trans hd) hstay
      simp [hnone] at hlast
    · intro hok
      refine ⟨fun hi _ => ⟨?_, hlast⟩, fun hd he => ?_⟩
      · show s'.status = .ready
        rw [hstatus, Copy.commit, hi.1, ite_self]
      · change s'.status = .error at he
        rw [hstatus, Copy.commit] at he
        split at he
        · rename_i hready
          exact absurd hready (hok (hdel.symm.trans hd) he hrec c hc)
        · cases he
  · exact ⟨fun _ _ _ h => absurd h hrec, fun _ => stable_ready hs hstatus hlast hdel⟩

end

/-! ## Runs -/

/-- **One step.** It keeps the status stable just when it is guarded. -/
theorem stable_iff {s s' : St} {a : Act} (hs : Inv s) (hn : next s a = some s') :
    Stable ⟨s, a, s'⟩ ↔ (s.deletedAt = none → Guarded s a) := by
  have h := next_stepped hn
  have hw := h.status
  generalize hv : s'.status = v at hw
  -- the commits that leave the status or make it READY are stable
  have hfree : Stable ⟨s, a, s'⟩ → Guarded s a → (Stable ⟨s, a, s'⟩ ↔ (s.deletedAt = none → Guarded s a)) :=
    fun hst hok => ⟨fun _ _ => hok, fun _ => hst⟩
  cases hw with
  | stay ha =>
    have hne : ∀ r, a ≠ .sync (.succeed r) := by rintro r rfl; cases ha
    have hned : ∀ d, a ≠ .commitDelete d := by rintro d rfl; cases ha
    refine hfree (stable_stay hs hv (h.last hne) (h.kept hned)) ?_
    unfold Guarded
    split <;> trivial
  | conflict hsome =>
    exact hfree (stable_stay hs hv (h.last nofun) (h.kept nofun)) fun hnone => absurd hnone hsome
  | insert hnone hc =>
    rw [stable_advance hs hc (by decide) (by decide) hv (h.last nofun) (h.kept nofun)]
    exact forall_congr' fun _ => ⟨fun hl _ => hl, fun hl => hl hnone⟩
  | dispatch hskip => exact hfree (stable_stay hs hv (h.last nofun) (h.kept nofun)) trivial
  | skip hskip hc => exact hfree (stable_ready hs hv (h.last nofun) (h.kept nofun)) trivial
  | enqueueFailed hc =>
    rw [stable_failed hs hv (h.last nofun) (h.kept nofun)]
    simp only [Guarded, forall_reread hc]
  | busy hbusy => exact hfree (stable_stay hs hv (h.last nofun) (h.kept nofun)) fun hfree => absurd hbusy hfree
  | begin hbusy hc =>
    rw [stable_advance hs hc (by decide) (by decide) hv (h.last nofun) (h.kept nofun)]
    exact forall_congr' fun _ => ⟨fun hl _ => hl, fun hl => hl hbusy⟩
  | success hc =>
    rcases h.sync with ⟨b, hb, hnext⟩ | ⟨hne, -⟩
    · cases hb
      exact stable_success hs hc hv hnext (h.kept nofun)
    · exact absurd rfl (hne _)
  | syncFailed hc =>
    rw [stable_failed hs hv (h.last nofun) (h.kept nofun)]
    simp only [Guarded, forall_reread hc]
  | cancelled hending =>
    refine hfree (stable_stay hs hv (h.last nofun) (h.kept nofun)) fun herr => ?_
    rw [hending] at herr
    cases herr
  | inactive hending hc hact =>
    refine hfree (stable_stay hs hv (h.last nofun) (h.kept nofun)) fun _ => (forall_loaded hc).mpr fun hact' => ?_
    rw [hact] at hact'
    cases hact'
  | ended hending hc hact =>
    rw [stable_failed hs hv (h.last nofun) (h.kept nofun)]
    exact forall_congr' fun _ => ⟨fun hm _ => (forall_loaded hc).mpr fun _ => hm, fun hg => hg hending _ hc hact⟩
  | pending hc =>
    rw [stable_write hs (by decide) (by decide) hv (h.last nofun) (h.kept nofun)]
    refine forall_congr' fun _ => not_congr (and_congr_right fun _ => ?_)
    exact ⟨fun hne => ⟨_, hc, hne⟩, fun ⟨c', hc', hne⟩ => by rw [hc] at hc'; cases hc'; exact hne⟩
  | repositoryError hc =>
    -- the row has the recorded failure already
    rw [Copy.commit, if_pos (hs.recorded _ _ hc)] at hv
    exact hfree (stable_stay hs hv (h.last nofun) (h.kept nofun)) trivial
  | advance hc =>
    rename_i r p c
    rw [stable_advance hs hc (by cases p <;> nofun) (by cases p <;> nofun) hv (h.last nofun) (h.kept nofun)]
    rfl
  | delete hc =>
    have hdel : s'.deletedAt ≠ none := Option.isSome_iff_ne_none.mp (h.deleted ⟨_, rfl⟩)
    exact hfree ⟨fun _ hd => absurd hd hdel, fun hd => absurd hd hdel⟩ trivial

theorem inv_step {s s' : St} {a : Act} (hs : Inv s) (hn : next s a = some s') (hst : Stable ⟨s, a, s'⟩) : Inv s' where
  error := hst.error
  recorded h c hc := by
    rcases (next_stepped hn).recorded h c hc with hold | hnew
    · exact hs.recorded h c hold
    · exact hnew

/-- **Stability, exactly.** Over any run of enqueues, jobs, cancels, sweeps and
uploads, an indexed repository stays so and ERROR means that nothing was
indexed, just when every step of the repository, while it is not deleted, is
guarded. -/
theorem status_stable_iff {s : St} (hs : Init s) (as : List Act) :
    (∀ t ∈ trace next s as, Stable t) ↔ ∀ t ∈ trace next s as, t.pre.deletedAt = none → Guarded t.pre t.act := by
  have hiff : ∀ s a s', Inv s → next s a = some s' → (Stable ⟨s, a, s'⟩ ↔ (s.deletedAt = none → Guarded s a)) :=
    fun _ _ _ hs hn => stable_iff hs hn
  have hstep : ∀ s a s', Inv s → next s a = some s' → Stable ⟨s, a, s'⟩ → Inv s' :=
    fun _ _ _ hs hn hst => inv_step hs hn hst
  exact @trace_iff _ _ next Inv Stable (fun s a => s.deletedAt = none → Guarded s a) hiff hstep _ as hs.inv

/-- An indexed repository of source `source` and no process. -/
def indexed (source : Pipeline.RepoSource) : St where
  sync := { Pipeline.fresh with source, lastCommit := some "a0" }
  status := .ready
  deletedAt := none
  purged := false
  calls _ := .closed
  works _ := .closed
  enders _ := .closed
  deletes _ := .closed

theorem indexed_init (source : Pipeline.RepoSource) : Init (indexed source) where
  sync := ⟨rfl, rfl, fun _ => ⟨rfl, rfl⟩, fun _ => rfl, fun _ => rfl⟩
  calls _ := rfl
  works _ := rfl
  enders _ := rfl
  deletes _ := rfl
  error h := by cases h
  deleting := by simp [indexed]

def failedReindex : List Act :=
  [.sync (.request 1 (.other .manual none)), .sync (.load 1), .sync (.check 1), .sync (.insert 1),
    .sync (.prepareCheckout 1), .sync (.fetch 1 "a1"), .sync (.checkedOut 1), .sync (.dispatch 1 false),
    .sync (.start 1), .sync (.loadRepository 1), .sync (.loadRun 1), .sync (.beginRun 1), .rollback 1, .reloadWork 1,
    .sync (.markFailedSync 1)]

theorem failed_reindex_stable : (run next (indexed .git) failedReindex).isSome ∧
    ∀ t ∈ trace next (indexed .git) failedReindex, Stable t := by
  have hready : ∀ {s : St} {x : Session} {v : RepositoryStatus}, x = .loaded ⟨.ready, some "a0"⟩ → ¬Lags s x v := by
    rintro s x v rfl ⟨-, c, hc, hne, -⟩
    cases hc
    exact hne rfl
  have hguarded : Along next (fun s a => s.deletedAt = none → Guarded s a) (indexed .git) failedReindex :=
    ⟨fun _ => trivial, fun _ => trivial, fun _ => trivial, fun _ _ => hready rfl, fun _ => trivial, fun _ => trivial,
      fun _ => trivial, fun _ => trivial, fun _ => trivial, fun _ => trivial, fun _ => trivial, fun _ _ => hready rfl,
      fun _ => trivial, fun _ => trivial, fun _ c hc hm => by cases hc; exact absurd hm.2.1 (by decide), trivial⟩
  exact ⟨rfl, (status_stable_iff (indexed_init .git) failedReindex).mpr ((along_iff next).mp hguarded)⟩

/-- An archive is uploaded over an indexed repository. -/
theorem upload_demotes : ¬∀ (s : St), Init s → ∀ (as : List Act), ∀ t ∈ trace next s as, Stable t := by
  intro h
  have hmem := @trace_last _ _ next (indexed .zip) _ _
    [.sync (.request 1 .upload), .sync (.load 1), .sync (.persistUpload 1 "b1")] (.markPending 1) rfl rfl
  have hready := ((h _ (indexed_init .zip) _ _ hmem).ready ⟨rfl, rfl⟩ rfl).1
  exact absurd hready (by decide)

end Cograph.Lifecycle
