import Cograph.Lifecycle

/-!
# What one step does to the repository's row

All the commits of an assignment to the status, each with the session that
makes it, what it assigns, and the branch of the code it stands in.
-/

namespace Cograph.Lifecycle

open Pipeline (activeRun Has)

section
variable {x : Session} {c : Copy} {P : Copy → Prop}

theorem forall_loaded (hx : x = .loaded c) : (∀ c', x = .loaded c' → P c') ↔ P c := by
  subst hx
  simp

theorem forall_reread (hx : x = .reread c) : (∀ c', x = .reread c' → P c') ↔ P c := by
  subst hx
  simp

end

def Act.assigns : Act → Bool
  | .sync (.insert _) | .sync (.dispatch _ _) | .sync (.markEnqueueFailed _) | .sync (.beginRun _)
  | .sync (.succeed _) | .sync (.markFailedSync _) | .sync (.endRun _) | .markPending _ | .markRepositoryError _
  | .advancePhase _ _ | .commitDelete _ => true
  | _ => false

/-- Another run than `r` is active. -/
def Busy (s : St) (r : Nat) : Prop := s.sync.rows.any (fun q => q.id ≠ r ∧ q.active) = true

inductive Wrote (s : St) : Act → RepositoryStatus → Prop
  | stay {a : Act} : a.assigns = false → Wrote s a s.status
  | conflict {h : Nat} : activeRun s.sync.rows ≠ none → Wrote s (.sync (.insert h)) s.status
  | insert {h : Nat} {c : Copy} : activeRun s.sync.rows = none → s.calls h = .loaded c →
      Wrote s (.sync (.insert h)) (c.commit (c.advance .cloning) s.status)
  | dispatch {h : Nat} {lost : Bool} : (s.sync.calls h).skips = false → Wrote s (.sync (.dispatch h lost)) s.status
  | skip {h : Nat} {lost : Bool} {c : Copy} : (s.sync.calls h).skips = true → s.calls h = .loaded c →
      Wrote s (.sync (.dispatch h lost)) (c.commit .ready s.status)
  | enqueueFailed {h : Nat} {c : Copy} : s.calls h = .reread c →
      Wrote s (.sync (.markEnqueueFailed h)) (c.commit c.failed s.status)
  | busy {r : Nat} : Busy s r → Wrote s (.sync (.beginRun r)) s.status
  | begin {r : Nat} {c : Copy} : ¬Busy s r → s.works r = .loaded c →
      Wrote s (.sync (.beginRun r)) (c.commit (c.advance .indexing) s.status)
  | success {r : Nat} {c : Copy} : s.works r = .loaded c → Wrote s (.sync (.succeed r)) (c.commit .ready s.status)
  | syncFailed {r : Nat} {c : Copy} : s.works r = .reread c →
      Wrote s (.sync (.markFailedSync r)) (c.commit c.failed s.status)
  | cancelled {e : Nat} : (s.sync.enders e).ending = .cancelled → Wrote s (.sync (.endRun e)) s.status
  | inactive {e : Nat} {c : Copy} : (s.sync.enders e).ending = .error → s.enders e = .loaded c →
      c.status.active = false → Wrote s (.sync (.endRun e)) s.status
  | ended {e : Nat} {c : Copy} : (s.sync.enders e).ending = .error → s.enders e = .loaded c → c.status.active = true →
      Wrote s (.sync (.endRun e)) (c.commit c.failed s.status)
  | pending {h : Nat} {c : Copy} : s.calls h = .loaded c → Wrote s (.markPending h) (c.commit .pending s.status)
  | repositoryError {h : Nat} {c : Copy} : s.calls h = .recorded c →
      Wrote s (.markRepositoryError h) (c.commit c.failed s.status)
  | advance {r : Nat} {p : Stage} {c : Copy} : s.works r = .loaded c →
      Wrote s (.advancePhase r p) (c.commit (c.advance p.status) s.status)
  | delete {d : Nat} {c : Copy} : s.deletes d = .loaded c → Wrote s (.commitDelete d) (c.commit .deleting s.status)

/-- What a step does to the row, to the pipeline's rows, and to the recorded
failures and the copies of the deleting requests. -/
structure Stepped (s : St) (a : Act) (s' : St) : Prop where
  status : Wrote s a s'.status
  kept : (∀ d, a ≠ .commitDelete d) → s'.deletedAt = s.deletedAt
  deleted : (∃ d, a = .commitDelete d) → s'.deletedAt.isSome
  last : (∀ r, a ≠ .sync (.succeed r)) → s'.sync.lastCommit = s.sync.lastCommit
  sync : (∃ b, a = .sync b ∧ Pipeline.next s.sync b = some s'.sync) ∨ (∀ b, a ≠ .sync b) ∧ s'.sync = s.sync
  recorded : ∀ h c, s'.calls h = .recorded c → s.calls h = .recorded c ∨ c.status = c.failed
  loaded : ∀ d c, s'.deletes d = .loaded c → s.deletes d = .loaded c ∨ s.deletedAt = none ∧ c = s.copy

section
variable {s s' : St}

theorem Stepped.of_call {a : Act} {g : Nat} {x : Session} (hstatus : Wrote s a s'.status)
    (hcalls : s'.calls = Function.update s.calls g x) (hx : ∀ c, x = .recorded c → c.status = c.failed)
    (hdel : s'.deletedAt = s.deletedAt) (hdels : s'.deletes = s.deletes) (hne : ∀ d, a ≠ .commitDelete d)
    (hlast : s'.sync.lastCommit = s.sync.lastCommit)
    (hsync : (∃ b, a = .sync b ∧ Pipeline.next s.sync b = some s'.sync) ∨ (∀ b, a ≠ .sync b) ∧ s'.sync = s.sync) :
    Stepped s a s' where
  status := hstatus
  kept _ := hdel
  deleted := fun ⟨d, hd⟩ => absurd hd (hne d)
  last _ := hlast
  sync := hsync
  recorded h c hc := by
    rw [hcalls] at hc
    by_cases hg : h = g
    · subst hg
      rw [Function.update_self] at hc
      exact .inr (hx c hc)
    · rw [Function.update_of_ne hg] at hc
      exact .inl hc
  loaded d c hc := by
    rw [hdels] at hc
    exact .inl hc

theorem Stepped.of_other {a : Act} (hstatus : Wrote s a s'.status) (hcalls : s'.calls = s.calls)
    (hdel : s'.deletedAt = s.deletedAt) (hdels : s'.deletes = s.deletes) (hne : ∀ d, a ≠ .commitDelete d)
    (hlast : (∀ r, a ≠ .sync (.succeed r)) → s'.sync.lastCommit = s.sync.lastCommit)
    (hsync : (∃ b, a = .sync b ∧ Pipeline.next s.sync b = some s'.sync) ∨ (∀ b, a ≠ .sync b) ∧ s'.sync = s.sync) :
    Stepped s a s' where
  status := hstatus
  kept _ := hdel
  deleted := fun ⟨d, hd⟩ => absurd hd (hne d)
  last := hlast
  sync := hsync
  recorded h c hc := .inl (by rwa [hcalls] at hc)
  loaded d c hc := .inl (by rwa [hdels] at hc)

theorem Copy.assigned_failed (c : Copy) : (c.assign c.failed).status = (c.assign c.failed).failed := rfl

theorem follow_stepped {p : Pipeline.St} {b : Pipeline.Act} (hp : Pipeline.next s.sync b = some p)
    (hf : s.follow { s with sync := p } b = some s') : Stepped s (.sync b) s' := by
  have hmoved := Pipeline.next_moved hp
  have hlast : (∀ r, Act.sync b ≠ .sync (.succeed r)) → p.lastCommit = s.sync.lastCommit :=
    fun h => hmoved.last fun r hr => h r (hr ▸ rfl)
  have hsync : ∀ {t : St}, t.sync = p → (∃ b', Act.sync b = .sync b' ∧ Pipeline.next s.sync b' = some t.sync) ∨
      (∀ b', Act.sync b ≠ .sync b') ∧ t.sync = s.sync := fun ht => .inl ⟨b, rfl, ht ▸ hp⟩
  have hquiet : (Act.sync b).assigns = false → s' = { s with sync := p } → Stepped s (.sync b) s' := by
    rintro hb rfl
    exact .of_other (.stay hb) rfl rfl rfl nofun hlast (hsync rfl)
  cases b with
  | request h k =>
    simp only [St.follow] at hf
    split at hf
    · cases hf
    · exact hquiet rfl (Option.some.inj hf).symm
  | load h =>
    simp only [St.follow] at hf
    split at hf
    · cases hf
    · cases hf
      exact .of_call (.stay rfl) rfl nofun rfl rfl nofun (hlast nofun) (hsync rfl)
  | check h =>
    simp only [St.follow] at hf
    split at hf
    · split at hf
      · cases hf
      · exact hquiet rfl (Option.some.inj hf).symm
    · cases hf
  | insert h =>
    simp only [St.follow] at hf
    split at hf
    · rename_i c hc hnone
      cases hf
      exact .of_call (.insert hnone hc) rfl nofun rfl rfl nofun (hlast nofun) (hsync rfl)
    · rename_i c q hc hsome
      cases hf
      exact .of_call (.conflict (by simp [hsome])) rfl nofun rfl rfl nofun (hlast nofun) (hsync rfl)
    · cases hf
  | dispatch h lost =>
    simp only [St.follow] at hf
    split at hf
    · rename_i c hc
      split at hf
      · rename_i hskip
        cases hf
        exact .of_call (.skip hskip hc) rfl nofun rfl rfl nofun (hlast nofun) (hsync rfl)
      · rename_i hskip
        have hskip : (s.sync.calls h).skips = false := by simpa using hskip
        cases lost with
        | true =>
          cases hf
          exact .of_call (.dispatch hskip) rfl nofun rfl rfl nofun (hlast nofun) (hsync rfl)
        | false =>
          cases hf
          exact .of_other (.dispatch hskip) rfl rfl rfl nofun hlast (hsync rfl)
    · cases hf
  | raise h =>
    cases hf
    exact .of_call (.stay rfl) rfl nofun rfl rfl nofun (hlast nofun) (hsync rfl)
  | markEnqueueFailed h =>
    simp only [St.follow] at hf
    split at hf
    · rename_i c hc
      cases hf
      refine .of_call (.enqueueFailed hc) rfl ?_ rfl rfl nofun (hlast nofun) (hsync rfl)
      rintro c' hc'
      cases hc'
      exact c.assigned_failed
    · cases hf
  | crash h =>
    cases hf
    exact .of_call (.stay rfl) rfl nofun rfl rfl nofun (hlast nofun) (hsync rfl)
  | loadRepository r =>
    cases hf
    exact .of_other (.stay rfl) rfl rfl rfl nofun hlast (hsync rfl)
  | beginRun r =>
    simp only [St.follow] at hf
    split at hf
    · rename_i c hc
      split at hf
      · rename_i hbusy
        cases hf
        exact .of_other (.busy hbusy) rfl rfl rfl nofun hlast (hsync rfl)
      · rename_i hbusy
        cases hf
        exact .of_other (.begin hbusy hc) rfl rfl rfl nofun hlast (hsync rfl)
    · cases hf
  | succeed r =>
    simp only [St.follow] at hf
    split at hf
    · rename_i c hc
      cases hf
      exact .of_other (.success hc) rfl rfl rfl nofun hlast (hsync rfl)
    · cases hf
  | markFailedSync r =>
    simp only [St.follow] at hf
    split at hf
    · rename_i c hc
      cases hf
      exact .of_other (.syncFailed hc) rfl rfl rfl nofun hlast (hsync rfl)
    · cases hf
  | endRun e =>
    simp only [St.follow] at hf
    split at hf
    · rename_i hending
      cases hf
      exact .of_other (.cancelled hending) rfl rfl rfl nofun hlast (hsync rfl)
    · rename_i c hending hc
      cases hact : c.status.active with
      | true =>
        simp only [hact, if_true] at hf
        cases hf
        exact .of_other (.ended hending hc hact) rfl rfl rfl nofun hlast (hsync rfl)
      | false =>
        simp only [hact, Bool.false_eq_true, if_false] at hf
        cases hf
        exact .of_other (.inactive hending hc hact) rfl rfl rfl nofun hlast (hsync rfl)
    · cases hf
  | _ => exact hquiet rfl (Option.some.inj hf).symm

theorem next_stepped {a : Act} (hn : next s a = some s') : Stepped s a s' := by
  unfold next at hn
  split at hn
  · cases hn
  cases a with
  | sync b =>
    obtain ⟨p, hp, hf⟩ := Option.bind_eq_some_iff.mp hn
    exact follow_stepped hp hf
  | markPending h =>
    simp only [St.markPending] at hn
    split at hn
    · rename_i c hc
      split at hn
      · cases hn
        exact .of_call (.pending hc) rfl nofun rfl rfl nofun rfl (.inr ⟨nofun, rfl⟩)
      · cases hn
    · cases hn
  | reloadCall h =>
    obtain ⟨_, hn⟩ := Pipeline.guard_some hn
    cases hn
    exact .of_call (.stay rfl) rfl nofun rfl rfl nofun rfl (.inr ⟨nofun, rfl⟩)
  | markRepositoryError h =>
    simp only [St.markRepositoryError] at hn
    split at hn
    · rename_i c hc
      split at hn
      · cases hn
        exact .of_other (.repositoryError hc) rfl rfl rfl nofun (fun _ => rfl) (.inr ⟨nofun, rfl⟩)
      · cases hn
    · cases hn
  | advancePhase r p =>
    simp only [St.advancePhase] at hn
    split at hn
    · rename_i c hc
      split at hn
      · cases hn
        exact .of_other (.advance hc) rfl rfl rfl nofun (fun _ => rfl) (.inr ⟨nofun, rfl⟩)
      · cases hn
    · cases hn
  | rollback r =>
    simp only [St.rollback] at hn
    split at hn
    · obtain ⟨_, hn⟩ := Pipeline.guard_some hn
      cases hn
      exact .of_other (.stay rfl) rfl rfl rfl nofun (fun _ => rfl) (.inr ⟨nofun, rfl⟩)
    · cases hn
  | reloadWork r =>
    obtain ⟨_, hn⟩ := Pipeline.guard_some hn
    cases hn
    exact .of_other (.stay rfl) rfl rfl rfl nofun (fun _ => rfl) (.inr ⟨nofun, rfl⟩)
  | readRepository e =>
    obtain ⟨_, hn⟩ := Pipeline.guard_some hn
    cases hn
    exact .of_other (.stay rfl) rfl rfl rfl nofun (fun _ => rfl) (.inr ⟨nofun, rfl⟩)
  | loadDelete d =>
    obtain ⟨hg, hn⟩ := Pipeline.guard_some hn
    cases hn
    refine ⟨.stay rfl, fun _ => rfl, nofun, fun _ => rfl, .inr ⟨nofun, rfl⟩, fun _ _ hc => .inl hc, ?_⟩
    intro d' c hc
    by_cases hd : d' = d
    · subst hd
      refine .inr ⟨by simpa using hg.1, ?_⟩
      simpa [St.setDelete] using hc.symm
    · exact .inl (by simpa [St.setDelete, Function.update_of_ne hd] using hc)
  | commitDelete d =>
    simp only [St.commitDelete] at hn
    split at hn
    · rename_i c hc
      cases hn
      refine ⟨.delete hc, fun h => absurd rfl (h d), fun _ => rfl, fun _ => rfl, .inr ⟨nofun, rfl⟩, ?_, ?_⟩
      · exact fun _ _ h => .inl h
      intro d' c' hc'
      by_cases hd : d' = d
      · subst hd
        simp [St.setDelete] at hc'
      · exact .inl (by simpa [St.setDelete, St.put, Function.update_of_ne hd] using hc')
    · cases hn
  | purge =>
    obtain ⟨_, hn⟩ := Pipeline.guard_some hn
    cases hn
    exact .of_other (.stay rfl) rfl rfl rfl nofun (fun _ => rfl) (.inr ⟨nofun, rfl⟩)

end

end Cograph.Lifecycle
