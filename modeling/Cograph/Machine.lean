

/-!
# Runs of a partial machine

A machine is a partial step function: `next s a` is the state after action
`a`, or `none` where `a` is not enabled in `s`. A run is a list of actions.
`trace` lists the steps a run takes, each with the state before and after, and
a property of runs is a property of every step in the trace.
-/

namespace Cograph

/-- One step of a run: the state before, the action, the state after. -/
structure Step (σ α : Type) where
  pre : σ
  act : α
  post : σ

namespace Machine

variable {σ α : Type} (next : σ → α → Option σ)

/-- The steps of a run, up to its first action that is not enabled. -/
def trace : σ → List α → List (Step σ α)
  | _, [] => []
  | s, a :: as =>
    match next s a with
    | none => []
    | some s' => ⟨s, a, s'⟩ :: trace s' as

/-- The state a run ends in, if each of its actions is enabled. -/
def run : σ → List α → Option σ
  | s, [] => some s
  | s, a :: as => (next s a).bind (run · as)

@[simp] theorem trace_nil (s : σ) : trace next s [] = [] := rfl

theorem trace_cons {s s' : σ} {a : α} {as : List α} (h : next s a = some s') :
    trace next s (a :: as) = ⟨s, a, s'⟩ :: trace next s' as := by
  rw [trace, h]

theorem trace_stuck {s : σ} {a : α} {as : List α} (h : next s a = none) : trace next s (a :: as) = [] := by
  rw [trace, h]

@[simp] theorem run_nil (s : σ) : run next s [] = some s := rfl

theorem run_cons {s s' : σ} {a : α} {as : List α} (h : next s a = some s') :
    run next s (a :: as) = run next s' as := by
  rw [run, h]; rfl

/-- A step of a run is its first one or one of the rest. -/
theorem mem_trace_cons {s : σ} {a : α} {as : List α} {t : Step σ α} (h : t ∈ trace next s (a :: as)) :
    ∃ s', next s a = some s' ∧ (t = ⟨s, a, s'⟩ ∨ t ∈ trace next s' as) := by
  cases hn : next s a with
  | none =>
    rw [trace_stuck next hn] at h
    cases h
  | some s' =>
    rw [trace_cons next hn] at h
    exact ⟨s', rfl, List.mem_cons.mp h⟩

theorem trace_next {s : σ} {as : List α} {t : Step σ α} (h : t ∈ trace next s as) :
    next t.pre t.act = some t.post := by
  induction as generalizing s with
  | nil => cases h
  | cons a as ih =>
    obtain ⟨s', hn, rfl | h⟩ := mem_trace_cons next h
    · exact hn
    · exact ih h

theorem run_append {s : σ} {as bs : List α} : run next s (as ++ bs) = (run next s as).bind (run next · bs) := by
  induction as generalizing s with
  | nil => rfl
  | cons a as ih =>
    cases hn : next s a with
    | none => simp [run, hn]
    | some s₁ => rw [List.cons_append, run_cons next hn, run_cons next hn]; exact ih

theorem run_split {s s' : σ} {as bs : List α} (h : run next s (as ++ bs) = some s') :
    ∃ s₁, run next s as = some s₁ ∧ run next s₁ bs = some s' := by
  rw [run_append] at h
  exact Option.bind_eq_some_iff.mp h

theorem run_next {s s' : σ} {a : α} {as : List α} (h : run next s (a :: as) = some s') :
    ∃ s₁, next s a = some s₁ ∧ run next s₁ as = some s' :=
  Option.bind_eq_some_iff.mp h

theorem trace_act {s : σ} {as : List α} {t : Step σ α} (h : t ∈ trace next s as) : t.act ∈ as := by
  induction as generalizing s with
  | nil => cases h
  | cons a as ih =>
    obtain ⟨s', -, rfl | h⟩ := mem_trace_cons next h
    · exact List.mem_cons_self ..
    · exact List.mem_cons_of_mem _ (ih h)

/-- **Guarded invariants.** What holds at the start and is kept by every step
that meets `ok` holds before and after every step of a run whose steps all
meet `ok`. -/
theorem inv_of_guarded {Inv : σ → Prop} {ok : σ → α → Prop}
    (hstep : ∀ s a s', Inv s → ok s a → next s a = some s' → Inv s') :
    ∀ {s : σ} {as : List α}, Inv s → (∀ t ∈ trace next s as, ok t.pre t.act) →
      ∀ t ∈ trace next s as, Inv t.pre ∧ Inv t.post
  | _, [], _, _, _, ht => by cases ht
  | s, a :: as, hs, hok, t, ht => by
    obtain ⟨s', hn, ht⟩ := mem_trace_cons next ht
    rw [trace_cons next hn] at hok
    have hs' : Inv s' := hstep s a s' hs (hok _ (List.mem_cons_self ..)) hn
    rcases ht with rfl | ht
    · exact ⟨hs, hs'⟩
    · exact inv_of_guarded hstep hs' (fun t h => hok t (List.mem_cons_of_mem _ h)) t ht

theorem inv_of_step {Inv : σ → Prop} (hstep : ∀ s a s', Inv s → next s a = some s' → Inv s')
    {s : σ} {as : List α} (hs : Inv s) : ∀ t ∈ trace next s as, Inv t.pre ∧ Inv t.post := by
  have hguarded : ∀ s a s', Inv s → True → next s a = some s' → Inv s' := fun s a s' h _ hn => hstep s a s' h hn
  exact inv_of_guarded next hguarded hs fun _ _ => trivial

/-- **Exact conditions.** Where a step has a property just when it meets `ok`,
as long as the steps before had it, a run has the property throughout just when
all its steps meet `ok`. -/
theorem trace_iff {Inv : σ → Prop} {P : Step σ α → Prop} {ok : σ → α → Prop}
    (hiff : ∀ s a s', Inv s → next s a = some s' → (P ⟨s, a, s'⟩ ↔ ok s a))
    (hstep : ∀ s a s', Inv s → next s a = some s' → P ⟨s, a, s'⟩ → Inv s') :
    ∀ {s : σ} {as : List α}, Inv s → ((∀ t ∈ trace next s as, P t) ↔ ∀ t ∈ trace next s as, ok t.pre t.act)
  | _, [], _ => by simp
  | s, a :: as, hs => by
    cases hn : next s a with
    | none => simp [trace_stuck next hn]
    | some s' =>
      simp only [trace_cons next hn, List.forall_mem_cons, hiff s a s' hs hn]
      constructor
      · rintro ⟨hok, h⟩
        exact ⟨hok, (trace_iff hiff hstep (hstep s a s' hs hn ((hiff s a s' hs hn).mpr hok))).mp h⟩
      · rintro ⟨hok, h⟩
        exact ⟨hok, (trace_iff hiff hstep (hstep s a s' hs hn ((hiff s a s' hs hn).mpr hok))).mpr h⟩

theorem run_guarded {Inv : σ → Prop} {ok : σ → α → Prop}
    (hstep : ∀ s a s', Inv s → ok s a → next s a = some s' → Inv s') :
    ∀ {s s' : σ} {as : List α}, Inv s → (∀ t ∈ trace next s as, ok t.pre t.act) →
      run next s as = some s' → Inv s'
  | _, _, [], hs, _, hr => by cases hr; exact hs
  | s, s', a :: as, hs, hok, hr => by
    cases hn : next s a with
    | none => rw [run, hn] at hr; cases hr
    | some s₁ =>
      rw [run_cons next hn] at hr
      rw [trace_cons next hn] at hok
      exact run_guarded hstep (hstep s a s₁ hs (hok _ (List.mem_cons_self ..)) hn)
        (fun t h => hok t (List.mem_cons_of_mem _ h)) hr

theorem trace_append {s u : σ} {as bs : List α} (h : run next s as = some u) :
    trace next s (as ++ bs) = trace next s as ++ trace next u bs := by
  induction as generalizing s with
  | nil => cases h; rfl
  | cons a as ih =>
    obtain ⟨s₁, hn, hr⟩ := run_next next h
    rw [List.cons_append, trace_cons next hn, trace_cons next hn, ih hr, List.cons_append]

theorem trace_last {s u v : σ} {as : List α} {a : α} (h : run next s as = some u) (hn : next u a = some v) :
    ⟨u, a, v⟩ ∈ trace next s (as ++ [a]) := by
  rw [trace_append next h, trace_cons next hn]
  simp

/-- The steps of a run all meet `ok`, by recursion on the run. -/
def Along (ok : σ → α → Prop) : σ → List α → Prop
  | _, [] => True
  | s, a :: as =>
    match next s a with
    | none => True
    | some s' => ok s a ∧ Along ok s' as

theorem along_iff {ok : σ → α → Prop} {s : σ} {as : List α} :
    Along next ok s as ↔ ∀ t ∈ trace next s as, ok t.pre t.act := by
  induction as generalizing s with
  | nil => simp [Along]
  | cons a as ih =>
    cases hn : next s a with
    | none => simp [Along, hn, trace_stuck next hn]
    | some s' => simp [Along, hn, trace_cons next hn, ih]

theorem run_inv {Inv : σ → Prop} {ok : α → Prop} (hstep : ∀ s a s', Inv s → ok a → next s a = some s' → Inv s')
    {s s' : σ} {as : List α} (hs : Inv s) (hok : ∀ a ∈ as, ok a) (hr : run next s as = some s') : Inv s' :=
  run_guarded next hstep hs (fun _ ht => hok _ (trace_act next ht)) hr

end Machine

end Cograph

/-!
## Invariants that look back

A property of the steps taken so far and of the state they lead to. What a step
keeps, one step later in the history, a run keeps. `Once` says that some step of
the history was of a kind, where the kind may look at the steps before it.
-/

namespace Cograph.Machine

variable {σ α : Type} (next : σ → α → Option σ)

/-- **Invariants with a history**, for runs whose steps all meet `ok`. -/
theorem run_history_guarded {Inv : List (Step σ α) → σ → Prop} {ok : σ → α → Prop}
    (hstep : ∀ ts s a s', Inv ts s → ok s a → next s a = some s' → Inv (ts ++ [⟨s, a, s'⟩]) s') :
    ∀ {ts : List (Step σ α)} {s s' : σ} {as : List α}, Inv ts s → (∀ t ∈ trace next s as, ok t.pre t.act) →
      run next s as = some s' → Inv (ts ++ trace next s as) s'
  | ts, _, _, [], hs, _, hr => by
    cases hr
    rw [trace_nil, List.append_nil]
    exact hs
  | ts, s, s', a :: as, hs, hok, hr => by
    obtain ⟨s₁, hn, hrest⟩ := run_next next hr
    rw [trace_cons next hn] at hok ⊢
    have hs₁ : Inv (ts ++ [⟨s, a, s₁⟩]) s₁ := hstep ts s a s₁ hs (hok _ (List.mem_cons_self ..)) hn
    have htail := run_history_guarded hstep hs₁ (fun t ht => hok t (List.mem_cons_of_mem _ ht)) hrest
    rwa [List.append_assoc] at htail

/-- The same where `ok` is about the actions alone. -/
theorem run_history_ok {Inv : List (Step σ α) → σ → Prop} {ok : α → Prop}
    (hstep : ∀ ts s a s', Inv ts s → ok a → next s a = some s' → Inv (ts ++ [⟨s, a, s'⟩]) s')
    {ts : List (Step σ α)} {s s' : σ} {as : List α} (hs : Inv ts s) (hok : ∀ a ∈ as, ok a)
    (hr : run next s as = some s') : Inv (ts ++ trace next s as) s' :=
  run_history_guarded next hstep hs (fun t ht => hok t.act (trace_act next ht)) hr

theorem run_history {Inv : List (Step σ α) → σ → Prop}
    (hstep : ∀ ts s a s', Inv ts s → next s a = some s' → Inv (ts ++ [⟨s, a, s'⟩]) s')
    {ts : List (Step σ α)} {s s' : σ} {as : List α} (hs : Inv ts s) (hr : run next s as = some s') :
    Inv (ts ++ trace next s as) s' :=
  run_history_ok next (fun ts s a s' h (_ : True) hn => hstep ts s a s' h hn) hs (fun _ _ => trivial) hr

/-- The same from an empty history. -/
theorem run_history_nil {Inv : List (Step σ α) → σ → Prop}
    (hstep : ∀ ts s a s', Inv ts s → next s a = some s' → Inv (ts ++ [⟨s, a, s'⟩]) s')
    {s s' : σ} {as : List α} (hs : Inv [] s) (hr : run next s as = some s') : Inv (trace next s as) s' := by
  have hrun := run_history next hstep hs hr
  rwa [List.nil_append] at hrun

/-! ## Something that happened -/

/-- Some step of the history is of kind `P`, given the steps before it. -/
def Once (P : List (Step σ α) → Step σ α → Prop) (ts : List (Step σ α)) : Prop :=
  ∃ past t rest, ts = past ++ t :: rest ∧ P past t

section
variable {P Q : List (Step σ α) → Step σ α → Prop} {ts : List (Step σ α)} {t : Step σ α}

theorem Once.now (h : P ts t) : Once P (ts ++ [t]) := ⟨ts, t, [], rfl, h⟩

/-- What happened has happened one step later. -/
theorem Once.later (h : Once P ts) (t : Step σ α) : Once P (ts ++ [t]) := by
  obtain ⟨past, u, rest, rfl, hu⟩ := h
  exact ⟨past, u, rest ++ [t], by simp, hu⟩

theorem Once.mono (h : Once P ts) (himp : ∀ past t, P past t → Q past t) : Once Q ts := by
  obtain ⟨past, u, rest, hts, hu⟩ := h
  exact ⟨past, u, rest, hts, himp _ _ hu⟩

end

end Cograph.Machine
