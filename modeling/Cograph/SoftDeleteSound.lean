import Cograph.LifecycleMoves

/-!
# A deleted repository

Once `deleted_at` is set the row stays DELETING and gets no new run just when
no enqueue inserts its run afterwards and every session that still commits a
status has a copy that holds it already.
-/

namespace Cograph.Lifecycle

open Machine
open Pipeline (activeRun Has)

/-- A deleted row is DELETING, and a step of it inserts no run. -/
structure StaysDeleted (t : Step St Act) : Prop where
  status : t.post.deletedAt.isSome → t.post.status = .deleting
  runs : t.pre.deletedAt.isSome → ∀ r, Has t.post.sync.rows r → Has t.pre.sync.rows r

/-- No enqueue inserts its run, and no session of an upload, an enqueue, a job
or a sweep assigns another status than its copy has. -/
def Withheld (s : St) : Act → Prop
  | .sync (.insert _) => activeRun s.sync.rows ≠ none
  | .sync (.dispatch h _) => (s.sync.calls h).skips = true → ∀ c, s.calls h = .loaded c → c.status = .ready
  | .sync (.markEnqueueFailed h) => ∀ c, s.calls h = .reread c → c.status = c.failed
  | .sync (.beginRun r) => ¬Busy s r → ∀ c, s.works r = .loaded c → c.status = .ready ∨ c.status = .indexing
  | .sync (.succeed r) => ∀ c, s.works r = .loaded c → c.status = .ready
  | .sync (.markFailedSync r) => ∀ c, s.works r = .reread c → c.status = c.failed
  | .sync (.endRun e) => (s.sync.enders e).ending = .error → ∀ c, s.enders e = .loaded c → c.status.active = false
  | .markPending h => ∀ c, s.calls h = .loaded c → c.status = .pending
  | .advancePhase r p => ∀ c, s.works r = .loaded c → c.status = .ready ∨ c.status = p.status
  | _ => True

structure DeletionInv (s : St) : Prop where
  deleting : s.status = .deleting ↔ s.deletedAt.isSome
  recorded : ∀ h c, s.calls h = .recorded c → c.status = c.failed
  loaded : ∀ d c, s.deletes d = .loaded c → c.status ≠ .deleting
  sync : Pipeline.Inv s.sync

theorem Init.deletionInv {s : St} (h : Init s) : DeletionInv s where
  deleting := h.deleting
  recorded a c hc := by rw [h.calls] at hc; cases hc
  loaded d c hc := by rw [h.deletes] at hc; cases hc
  sync := h.sync.inv

/-! ## One commit -/

section
variable {c : Copy} {v row : RepositoryStatus}

theorem commit_deleting (hv : v ≠ .deleting) : c.commit v .deleting = .deleting ↔ c.status = v := by
  unfold Copy.commit
  split
  · rename_i h
    simp [h]
  · rename_i h
    simp [h, hv]

theorem commit_ne (hv : v ≠ .deleting) (hr : row ≠ .deleting) : c.commit v row ≠ .deleting := by
  unfold Copy.commit
  split
  · exact hr
  · exact hv

theorem failed_ne (c : Copy) : c.failed ≠ .deleting := by
  unfold Copy.failed
  split <;> decide

theorem active_failed (h : c.status.active = true) : c.status ≠ c.failed := by
  unfold Copy.failed
  intro hc
  split at hc <;> rw [hc] at h <;> cases h

theorem advance_ne (hv : v ≠ .deleting) : c.advance v ≠ .deleting := by
  unfold Copy.advance
  split
  · exact hv
  · rename_i h
    rw [not_ne_iff.mp h]
    decide

theorem advance_self : c.status = c.advance v ↔ c.status = .ready ∨ c.status = v := by
  unfold Copy.advance
  split
  · rename_i h
    simp [h]
  · rename_i h
    simp [not_ne_iff.mp h]

end

/-! ## One step -/

section
variable {s s' : St} {a : Act}

theorem runs_kept (hn : next s a = some s') (ha : ∀ h, a = .sync (.insert h) → activeRun s.sync.rows ≠ none) (r : Nat)
    (hr : Has s'.sync.rows r) : Has s.sync.rows r := by
  rcases (next_stepped hn).sync with ⟨b, rfl, hb⟩ | ⟨-, hsame⟩
  · have hmove := (Pipeline.next_moved hb).rows
    rcases hmove.has hr with hold | rfl
    · exact hold
    · generalize s'.sync.rows = rows at hmove hr
      cases hmove with
      | stay h => cases h
      | conflict _ => exact hr
      | insert _ hnone => exact absurd hnone (ha r rfl)
  · rwa [hsame] at hr

theorem insert_adds {h : Nat} (hs : DeletionInv s) (hn : next s (.sync (.insert h)) = some s')
    (hnone : activeRun s.sync.rows = none) : Has s'.sync.rows h ∧ ¬Has s.sync.rows h := by
  rcases (next_stepped hn).sync with ⟨b, hb, hp⟩ | ⟨hne, -⟩
  · cases hb
    have hmove := (Pipeline.next_moved hp).rows
    generalize s'.sync.rows = rows at hmove
    cases hmove with
    | stay hw => cases hw
    | conflict hsome => rw [hnone] at hsome; cases hsome
    | insert hphase _ =>
      refine ⟨⟨_, List.mem_cons_self .., rfl⟩, fun hold => ?_⟩
      have hbefore := hs.sync.rowed hold
      rw [hphase] at hbefore
      cases hbefore
  · exact absurd rfl (hne _)

theorem stays_iff {c : Copy} {v : RepositoryStatus} (hs : DeletionInv s) (hn : next s a = some s')
    (ha : ∀ h, a ≠ .sync (.insert h)) (hd : ∀ d, a ≠ .commitDelete d) (hv : v ≠ .deleting)
    (hstatus : s'.status = c.commit v s.status) :
    StaysDeleted ⟨s, a, s'⟩ ↔ (s.deletedAt.isSome → c.status = v) := by
  have hkept := (next_stepped hn).kept hd
  have hruns := runs_kept hn fun h hh => absurd hh (ha h)
  constructor
  · intro hst hdel
    have hpost : s'.status = .deleting := hst.status (by rwa [hkept])
    rw [hstatus, hs.deleting.mpr hdel] at hpost
    exact (commit_deleting hv).mp hpost
  · intro hok
    refine ⟨fun hdel => ?_, fun _ => hruns⟩
    change s'.deletedAt.isSome at hdel
    show s'.status = .deleting
    rw [hkept] at hdel
    rw [hstatus, hs.deleting.mpr hdel]
    exact (commit_deleting hv).mpr (hok hdel)

theorem stays_stay (hs : DeletionInv s) (hn : next s a = some s')
    (ha : ∀ h, a = .sync (.insert h) → activeRun s.sync.rows ≠ none) (hd : ∀ d, a ≠ .commitDelete d)
    (hstatus : s'.status = s.status) : StaysDeleted ⟨s, a, s'⟩ where
  status hdel := hstatus.trans (hs.deleting.mpr (((next_stepped hn).kept hd) ▸ hdel))
  runs _ := runs_kept hn ha

/-- **One step.** It leaves a deleted row as it is just when it is withheld. -/
theorem staysDeleted_iff (hs : DeletionInv s) (hn : next s a = some s') :
    StaysDeleted ⟨s, a, s'⟩ ↔ (s.deletedAt.isSome → Withheld s a) := by
  have h := next_stepped hn
  have hw := h.status
  generalize hv : s'.status = v at hw
  have hfree : StaysDeleted ⟨s, a, s'⟩ → Withheld s a →
      (StaysDeleted ⟨s, a, s'⟩ ↔ (s.deletedAt.isSome → Withheld s a)) := fun hst hok => ⟨fun _ _ => hok, fun _ => hst⟩
  cases hw with
  | stay ha =>
    have hni : ∀ h, a ≠ .sync (.insert h) := by rintro h rfl; cases ha
    have hnd : ∀ d, a ≠ .commitDelete d := by rintro d rfl; cases ha
    refine hfree (stays_stay hs hn (fun h hh => absurd hh (hni h)) hnd hv) ?_
    unfold Withheld
    split <;> trivial
  | conflict hsome => exact hfree (stays_stay hs hn (fun _ _ => hsome) nofun hv) hsome
  | insert hnone hc =>
    obtain ⟨hnew, hold⟩ := insert_adds hs hn hnone
    refine ⟨fun hst hdel => absurd (hst.runs hdel _ hnew) hold, fun hok => ?_⟩
    have hlive : ¬s.deletedAt.isSome := fun hdel => hok hdel hnone
    refine ⟨fun hdel => ?_, fun hdel => absurd hdel hlive⟩
    exact absurd ((h.kept nofun) ▸ hdel) hlive
  | dispatch hskip =>
    exact hfree (stays_stay hs hn nofun nofun hv) fun hs' => by rw [hskip] at hs'; cases hs'
  | skip hskip hc =>
    rw [stays_iff hs hn nofun nofun (by decide) hv]
    exact forall_congr' fun _ => ⟨fun he _ => (forall_loaded hc).mpr he, fun hok => hok hskip _ hc⟩
  | enqueueFailed hc =>
    rw [stays_iff hs hn nofun nofun (failed_ne _) hv]
    simp only [Withheld, forall_reread hc]
  | busy hbusy => exact hfree (stays_stay hs hn nofun nofun hv) fun hidle => absurd hbusy hidle
  | begin hbusy hc =>
    rw [stays_iff hs hn nofun nofun (advance_ne (by decide)) hv]
    refine forall_congr' fun _ => advance_self.trans ?_
    exact ⟨fun he _ => (forall_loaded hc).mpr he, fun hok => hok hbusy _ hc⟩
  | success hc =>
    rw [stays_iff hs hn nofun nofun (by decide) hv]
    simp only [Withheld, forall_loaded hc]
  | syncFailed hc =>
    rw [stays_iff hs hn nofun nofun (failed_ne _) hv]
    simp only [Withheld, forall_reread hc]
  | cancelled hending =>
    refine hfree (stays_stay hs hn nofun nofun hv) fun herr => ?_
    rw [hending] at herr
    cases herr
  | inactive hending hc hact =>
    exact hfree (stays_stay hs hn nofun nofun hv) fun _ => (forall_loaded hc).mpr hact
  | ended hending hc hact =>
    rw [stays_iff hs hn nofun nofun (failed_ne _) hv]
    refine forall_congr' fun _ => ⟨fun he => absurd he (active_failed hact), fun hok => ?_⟩
    have hinactive := hok hending _ hc
    rw [hact] at hinactive
    cases hinactive
  | pending hc =>
    rw [stays_iff hs hn nofun nofun (by decide) hv]
    simp only [Withheld, forall_loaded hc]
  | repositoryError hc =>
    rw [Copy.commit, if_pos (hs.recorded _ _ hc)] at hv
    exact hfree (stays_stay hs hn nofun nofun hv) trivial
  | advance hc =>
    rename_i r p c
    rw [stays_iff hs hn nofun nofun (advance_ne (by cases p <;> decide)) hv]
    simp only [Withheld, forall_loaded hc, advance_self]
  | delete hc =>
    rw [Copy.commit, if_neg (hs.loaded _ _ hc)] at hv
    exact hfree ⟨fun _ => hv, fun _ => runs_kept hn nofun⟩ trivial

theorem wrote_ne {v : RepositoryStatus} (hw : Wrote s a v) (hd : ∀ d, a ≠ .commitDelete d)
    (hs : s.status ≠ .deleting) : v ≠ .deleting := by
  cases hw with
  | stay | conflict | dispatch | busy | cancelled | inactive => exact hs
  | insert | begin => exact commit_ne (advance_ne (by decide)) hs
  | advance =>
    rename_i r p c _
    exact commit_ne (advance_ne (by cases p <;> decide)) hs
  | skip | success | pending => exact commit_ne (by decide) hs
  | enqueueFailed | syncFailed | ended | repositoryError => exact commit_ne (failed_ne _) hs
  | delete => exact absurd rfl (hd _)

theorem deletionInv_step (hs : DeletionInv s) (hn : next s a = some s') (hst : StaysDeleted ⟨s, a, s'⟩) :
    DeletionInv s' where
  deleting := by
    have h := next_stepped hn
    refine ⟨fun hdel => ?_, hst.status⟩
    by_cases hd : ∃ d, a = .commitDelete d
    · exact h.deleted hd
    · have hd' : ∀ d, a ≠ .commitDelete d := fun d hd' => hd ⟨d, hd'⟩
      rw [h.kept hd']
      by_contra hlive
      exact wrote_ne h.status hd' (fun hs' => hlive (hs.deleting.mp hs')) hdel
  recorded h c hc := ((next_stepped hn).recorded h c hc).elim (hs.recorded h c) id
  loaded d c hc := by
    rcases (next_stepped hn).loaded d c hc with hold | ⟨hlive, rfl⟩
    · exact hs.loaded d c hold
    · intro hdel
      have hsome := hs.deleting.mp hdel
      rw [hlive] at hsome
      cases hsome
  sync := by
    rcases (next_stepped hn).sync with ⟨b, -, hb⟩ | ⟨-, hsame⟩
    · exact hs.sync.step hb
    · rw [hsame]
      exact hs.sync

end

/-- **Deletion, exactly.** Over any interleaving of the soft delete with
enqueues, jobs, cancels, sweeps and uploads, the deleted row stays DELETING and
gets no run until it is purged just when every step of it is withheld. -/
theorem stays_deleted_iff {s : St} (hs : Init s) (as : List Act) :
    (∀ t ∈ trace next s as, StaysDeleted t) ↔
      ∀ t ∈ trace next s as, t.pre.deletedAt.isSome → Withheld t.pre t.act := by
  have hiff : ∀ s a s', DeletionInv s → next s a = some s' →
      (StaysDeleted ⟨s, a, s'⟩ ↔ (s.deletedAt.isSome → Withheld s a)) := fun _ _ _ hs hn => staysDeleted_iff hs hn
  have hstep : ∀ s a s', DeletionInv s → next s a = some s' → StaysDeleted ⟨s, a, s'⟩ → DeletionInv s' :=
    fun _ _ _ hs hn hst => deletionInv_step hs hn hst
  exact @trace_iff _ _ next DeletionInv StaysDeleted (fun s a => s.deletedAt.isSome → Withheld s a) hiff hstep _ as
    hs.deletionInv

/-- An idle repository that was never indexed. -/
def unindexed : St where
  sync := Pipeline.fresh
  status := .pending
  deletedAt := none
  purged := false
  calls _ := .closed
  works _ := .closed
  enders _ := .closed
  deletes _ := .closed

theorem unindexed_init : Init unindexed where
  sync := Pipeline.fresh_init
  calls _ := rfl
  works _ := rfl
  enders _ := rfl
  deletes _ := rfl
  error h := by cases h
  deleting := by simp [unindexed]

/-- The idle repository is deleted and purged; a reindex that has been received
finds it no more. -/
def deletedIdle : List Act := [.sync (.request 1 (.other .manual none)), .loadDelete 2, .commitDelete 2, .purge]

theorem deleted_idle :
    (run next unindexed deletedIdle).isSome ∧ ∀ t ∈ trace next unindexed deletedIdle, StaysDeleted t := by
  have hwithheld : Along next (fun s a => s.deletedAt.isSome → Withheld s a) unindexed deletedIdle :=
    ⟨fun _ => trivial, fun _ => trivial, fun _ => trivial, fun _ => trivial, trivial⟩
  exact ⟨rfl, (stays_deleted_iff unindexed_init deletedIdle).mpr ((along_iff next).mp hwithheld)⟩

/-- The delete lands after the tick has selected the repository. -/
theorem tick_revives : ¬∀ (s : St), Init s → ∀ (as : List Act), ∀ t ∈ trace next s as, StaysDeleted t := by
  intro h
  have hmem := @trace_last _ _ next unindexed _ _
    [.sync (.request 1 (.other .schedule none)), .loadDelete 2, .commitDelete 2, .sync (.load 1), .sync (.check 1)]
    (.sync (.insert 1)) rfl rfl
  have hdeleting := (h _ unindexed_init _ _ hmem).status rfl
  exact absurd hdeleting (by decide)

end Cograph.Lifecycle
