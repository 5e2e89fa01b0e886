import Cograph.QueryLog

/-!
# Opting out of query logs

Once a request setting `log_queries=false` is answered, the calls that begin
before another sets it to true enqueue nothing, in the runs where no lookup
leaves an older decision in the cache.
-/

namespace Cograph.QueryLog

open Machine

/-- No call that began while the repository was opted out enqueued an entry. -/
def Silent (s : St) : Prop := ∀ r ∈ s.covered, r ∉ s.log

def DeniedOnly (cache : Option Entry) : Prop := ∀ e, cache = some e → e.allow = false

/-- The answer to an opting-out request finds the row and the cache as the
request left them, no lookup fills the cache with an older decision afterwards,
and a call that began then has the application's state and reaches its own
lookups before another request sets the flag. -/
def Current (ttl : Nat) (s : St) : Action → Prop
  | .begin _ served => s.optedOut = true → served = true
  | .acquire r | .readRow r => r ∈ s.covered → s.optedOut = true
  | .fill r => s.optedOut = true → 0 < ttl → ∀ now, s.calls r ≠ .read now true
  | .answer r => s.updates r = .invalidated (some false) → s.logQueries = false ∧ DeniedOnly s.cache
  | _ => True

/-! ## The invariant -/

/-- Where a covered call may stand. -/
def Quiet (c : Call) : Prop := c ≠ .idle ∧ c ≠ .allowed ∧ ∀ now, c ≠ .read now true

structure Inv (s : St) : Prop where
  quiet : ∀ r ∈ s.covered, Quiet (s.calls r)
  logged : ∀ r ∈ s.log, s.calls r = .enqueued
  silent : Silent s
  closed : s.optedOut = true → s.logQueries = false ∧ DeniedOnly s.cache

theorem inv_init (logQueries : Bool) : Inv (.init logQueries) where
  quiet := by simp [St.init]
  logged := by simp [St.init]
  silent := by simp [Silent, St.init]
  closed := by simp [St.init]

theorem quiet_decided {allow : Bool} (h : allow = false) : Quiet (decided allow) := by
  subst h
  simp [decided, Quiet]

theorem cached_denied {cache : Option Entry} {now : Nat} {allow : Bool} (h : DeniedOnly cache)
    (hc : cached cache now = some allow) : allow = false := by
  simp only [cached, Option.map_eq_some_iff, Option.filter_eq_some_iff] at hc
  obtain ⟨e, ⟨he, -⟩, rfl⟩ := hc
  exact h e he

theorem inv_call {s s' : St} {r : Nat} {c : Call} (h : Inv s) (hr : s.calls r ≠ .enqueued)
    (hcalls : s'.calls = Function.update s.calls r c) (hcov : ∀ q ∈ s'.covered, q ∈ s.covered ∨ q = r)
    (hc : r ∈ s'.covered → Quiet c) (hlog : s'.log = s.log)
    (hclosed : s'.optedOut = true → s'.logQueries = false ∧ DeniedOnly s'.cache) : Inv s' where
  quiet q hq := by
    rw [hcalls]
    by_cases hqr : q = r
    · subst hqr
      simpa using hc hq
    · rw [Function.update_of_ne hqr]
      exact h.quiet q ((hcov q hq).resolve_right hqr)
  logged q hq := by
    rw [hlog] at hq
    have hqr : q ≠ r := by
      rintro rfl
      exact hr (h.logged q hq)
    rw [hcalls, Function.update_of_ne hqr]
    exact h.logged q hq
  silent q hq hq' := by
    rw [hlog] at hq'
    rcases hcov q hq with hs | rfl
    · exact h.silent q hs hq'
    · exact hr (h.logged q hq')
  closed := hclosed

theorem inv_update {s s' : St} (h : Inv s) (hcalls : s'.calls = s.calls) (hcov : s'.covered = s.covered)
    (hlog : s'.log = s.log) (hclosed : s'.optedOut = true → s'.logQueries = false ∧ DeniedOnly s'.cache) : Inv s' where
  quiet := by rw [hcalls, hcov]; exact h.quiet
  logged := by rw [hcalls, hlog]; exact h.logged
  silent := by rw [Silent, hcov, hlog]; exact h.silent
  closed := hclosed

/-! ## Steps -/

section
variable {disabled : Bool} {ttl : Nat}

theorem inv_begin {s : St} {r : Nat} {served : Bool} (h : Inv s) (hr : s.calls r = .idle)
    (hok : s.optedOut = true → served = true) : Inv (enqueueQueryLog disabled s r served) := by
  have hne : s.calls r ≠ .enqueued := by simp [hr]
  have hcov : ∀ q ∈ (if s.optedOut then insert r s.covered else s.covered : Finset Nat), q ∈ s.covered ∨ q = r := by
    intro q hq
    split at hq
    · exact (Finset.mem_insert.mp hq).symm
    · exact .inl hq
  -- a call that is covered now began while the repository was opted out
  have hout : r ∈ (if s.optedOut then insert r s.covered else s.covered : Finset Nat) → s.optedOut = true := by
    intro hmem
    by_contra ho
    exact (h.quiet r (by simpa [ho] using hmem)).1 hr
  unfold enqueueQueryLog
  dsimp only
  split
  · exact inv_call h hne rfl hcov (fun _ => quiet_decided rfl) rfl h.closed
  · cases served with
    | false =>
      refine inv_call h hne rfl hcov ?_ rfl h.closed
      exact fun hmem => absurd (hok (hout hmem)) (by simp)
    | true =>
      simp only [if_true]
      split
      · rename_i allow hc
        exact inv_call h hne rfl hcov (fun hmem => quiet_decided (cached_denied (h.closed (hout hmem)).2 hc)) rfl h.closed
      · exact inv_call h hne rfl hcov (fun _ => by simp [Quiet]) rfl h.closed

theorem inv_acquire {s : St} {r now : Nat} (h : Inv s) (hr : s.calls r = .waiting now)
    (hok : r ∈ s.covered → s.optedOut = true) : Inv (acquire s r now) := by
  have hne : s.calls r ≠ .enqueued := by simp [hr]
  unfold acquire
  split
  · rename_i allow hc
    exact inv_call h hne rfl (fun _ => .inl) (fun hmem => quiet_decided (cached_denied (h.closed (hok hmem)).2 hc)) rfl
      h.closed
  · exact inv_call h hne rfl (fun _ => .inl) (fun _ => by simp [Quiet]) rfl h.closed

theorem inv_fill {s : St} {r now : Nat} {allow : Bool} (h : Inv s) (hr : s.calls r = .read now allow)
    (hok : s.optedOut = true → 0 < ttl → ∀ now, s.calls r ≠ .read now true) : Inv (fill ttl s r now allow) := by
  refine inv_call h (by simp [hr]) rfl (fun _ => .inl) ?_ rfl ?_
  · intro hmem
    refine quiet_decided ?_
    cases allow with
    | false => rfl
    | true => exact absurd hr ((h.quiet r hmem).2.2 now)
  · intro ho
    refine ⟨(h.closed ho).1, ?_⟩
    intro e he
    simp only [fill] at he
    split at he
    · rename_i hpos
      cases he
      cases allow with
      | false => rfl
      | true => exact absurd hr (hok ho hpos now)
    · exact (h.closed ho).2 e he

theorem inv_commit {s : St} {r : Nat} {logQueries : Option Bool} {copy : Bool} (h : Inv s) :
    Inv (commit s r logQueries copy) := by
  refine inv_update h rfl rfl rfl ?_
  intro ho
  simp only [commit] at ho ⊢
  split at ho
  · cases ho
  · rename_i hset
    have hold := h.closed ho
    refine ⟨?_, hold.2⟩
    match logQueries with
    | none => exact hold.1
    | some true => exact absurd rfl hset
    | some false =>
      cases copy with
      | false => simpa [Option.filter_some] using hold.1
      | true => simp [Option.filter_some]

theorem inv_step {s s' : St} {a : Action} (h : Inv s) (hok : Current ttl s a) (hn : next disabled ttl s a = some s') :
    Inv s' := by
  cases a with
  | tick now =>
    simp only [next] at hn
    split at hn
    · cases hn
      exact inv_update h rfl rfl rfl h.closed
    · cases hn
  | begin r served =>
    simp only [next] at hn
    split at hn
    · cases hn
      exact inv_begin h ‹_› hok
    · cases hn
  | acquire r =>
    simp only [next] at hn
    split at hn
    · cases hn
      exact inv_acquire h ‹_› hok
    · cases hn
  | readRow r =>
    simp only [next] at hn
    split at hn
    · rename_i now hr
      cases hn
      refine inv_call h (by simp [hr]) rfl (fun _ => .inl) ?_ rfl h.closed
      intro hmem
      simp [Quiet, (h.closed (hok hmem)).1]
    · cases hn
  | fill r =>
    simp only [next] at hn
    split at hn
    · cases hn
      exact inv_fill h ‹_› hok
    · cases hn
  | enqueue r =>
    simp only [next] at hn
    split at hn
    · rename_i hr
      cases hn
      -- a call that may enqueue is not covered
      have hnot : r ∉ s.covered := fun hmem => (h.quiet r hmem).2.1 hr
      have hcall : Inv (s.gotoCall r .enqueued) :=
        inv_call h (by simp [hr]) rfl (fun _ => .inl) (fun hmem => absurd hmem hnot) rfl h.closed
      refine ⟨hcall.quiet, ?_, ?_, hcall.closed⟩
      · intro q hq
        rcases List.mem_cons.mp hq with rfl | hq
        · simp [St.gotoCall]
        · exact hcall.logged q hq
      · intro q hq hq'
        rcases List.mem_cons.mp hq' with rfl | hq'
        · exact hnot hq
        · exact h.silent q hq hq'
    · cases hn
  | arrive r logQueries =>
    simp only [next] at hn
    split at hn
    · cases hn
      exact inv_update h rfl rfl rfl h.closed
    · cases hn
  | load r =>
    simp only [next] at hn
    split at hn
    · cases hn
      exact inv_update h rfl rfl rfl h.closed
    · cases hn
  | commit r =>
    simp only [next] at hn
    split at hn
    · cases hn
      exact inv_commit h
    · cases hn
  | invalidate r =>
    simp only [next] at hn
    split at hn
    · cases hn
      exact inv_update h rfl rfl rfl fun ho => ⟨(h.closed ho).1, by simp [DeniedOnly]⟩
    · cases hn
  | answer r =>
    simp only [next] at hn
    split at hn
    · rename_i logQueries hr
      cases hn
      refine inv_update h rfl rfl rfl ?_
      intro ho
      by_cases hset : logQueries = some false
      · exact hok (hset ▸ hr)
      · exact h.closed (by simpa [hset] using ho)
    · cases hn

/-- **Opting out takes effect at once**, in every run whose lookups and answers
are current. -/
theorem opt_out_silent {logQueries : Bool} {as : List Action}
    (hok : ∀ t ∈ trace (next disabled ttl) (.init logQueries) as, Current ttl t.pre t.act) :
    ∀ t ∈ trace (next disabled ttl) (.init logQueries) as, Silent t.post := by
  have hstep : ∀ s a s', Inv s → Current ttl s a → next disabled ttl s a = some s' → Inv s' :=
    fun _ _ _ h hok hn => inv_step h hok hn
  intro t ht
  exact (inv_of_guarded _ hstep (inv_init logQueries) hok t ht).2.silent

end

/-- A repository is opted out and the next call looks the row up. -/
def optOut : List Action :=
  [.arrive 0 (some false), .load 0, .commit 0, .invalidate 0, .answer 0, .begin 1 true, .acquire 1, .readRow 1, .fill 1]

theorem opted_out_call : (run (next false 30) (.init true) optOut).isSome ∧
    ∀ t ∈ trace (next false 30) (.init true) optOut, Silent t.post :=
  ⟨rfl, opt_out_silent ((along_iff _).mp ⟨trivial, trivial, trivial, trivial, fun _ => ⟨rfl, fun _ h => (by cases h)⟩,
    fun _ => rfl, fun _ => rfl, fun _ => rfl, fun _ _ _ h => (by cases h), trivial⟩)⟩

/-- A lookup that read the row before the commit fills the cache after the
invalidation. -/
theorem stale_fill : ¬∀ (disabled : Bool) (ttl : Nat) (logQueries : Bool) (as : List Action),
    ∀ t ∈ trace (next disabled ttl) (.init logQueries) as, Silent t.post := by
  intro h
  have hmem := @trace_last _ _ (next false 30) (.init true) _ _ [.begin 0 true, .acquire 0, .readRow 0,
    .arrive 1 (some false), .load 1, .commit 1, .invalidate 1, .fill 0, .answer 1, .begin 2 true] (.enqueue 2) rfl rfl
  exact h false 30 true _ _ hmem 2 (by decide) (by decide)

end Cograph.QueryLog
