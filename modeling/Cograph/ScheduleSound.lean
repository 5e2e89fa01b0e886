import Cograph.Machine
import Cograph.Schedule

/-!
# When a repository is due

The instant stored in a row is the first slot of its schedule behind the moment
at which it was last computed. So a tick picks a repository just when a slot has
passed since its schedule was changed or its last sync was enqueued, and a tick
that returns has tried every repository it picked once.
-/

namespace Cograph.Schedule

open Machine

/-! ## Slots of a schedule -/

/-- The instants at which a schedule asks for a sync. -/
def SyncSchedule.slots (h : Fin 24) : SyncSchedule → Set ℕ
  | .manual | .webhook => ∅
  | .hourly => {t | t % hour = 0}
  | .daily => {t | t % day = h * hour}
  | .weekly => {t | weekday t = 0 ∧ t % day = h * hour}

theorem after_daily {h now : ℕ} :
    (if now - now % 86400 + h * 3600 ≤ now then now - now % 86400 + h * 3600 + 86400
      else now - now % 86400 + h * 3600) =
      now - now % 86400 + h * 3600 + if now % 86400 < h * 3600 then 0 else 86400 := by
  split_ifs <;> omega

theorem after_weekly {h now : ℕ} (hlt : h < 24) :
    (if now - now % 86400 + h * 3600 + (7 - (now / 86400 + 3) % 7) % 7 * 86400 ≤ now then
        now - now % 86400 + h * 3600 + (7 - (now / 86400 + 3) % 7) % 7 * 86400 + 604800
      else now - now % 86400 + h * 3600 + (7 - (now / 86400 + 3) % 7) % 7 * 86400) =
      now - now % 604800 + (345600 + h * 3600) + if now % 604800 < 345600 + h * 3600 then 0 else 604800 := by
  have hmonday : h * 3600 < 86400 := by omega
  split_ifs <;> omega

theorem computeNextSyncAt_daily (h : Fin 24) (now : ℕ) :
    computeNextSyncAt .daily h now = some (Slots.after day (h * hour) now) := congrArg some after_daily

theorem computeNextSyncAt_weekly (h : Fin 24) (now : ℕ) :
    computeNextSyncAt .weekly h now = some (Slots.after (7 * day) (4 * day + h * hour) now) :=
  congrArg some (after_weekly h.isLt)

theorem slots_weekly (h : Fin 24) :
    SyncSchedule.weekly.slots h = Slots.slots (7 * day) (4 * day + h * hour) := by
  have hlt := h.isLt
  ext t
  simp only [SyncSchedule.slots, Slots.mem_slots, weekday, day, hour, Set.mem_ofPred_eq]
  omega

/-- **The next instant** is the first slot of the schedule that is still to
come. -/
theorem computeNextSyncAt_isLeast {schedule : SyncSchedule} {h : Fin 24} {now n : ℕ}
    (hn : computeNextSyncAt schedule h now = some n) : IsLeast {t | t ∈ schedule.slots h ∧ now < t} n := by
  have hlt := h.isLt
  cases schedule with
  | manual => cases hn
  | webhook => cases hn
  | hourly =>
    cases hn
    have hafter : replaceMinute now + hour = Slots.after hour 0 now := by simp [Slots.after, replaceMinute]
    rw [hafter]
    exact Slots.after_isLeast (by decide) now
  | daily =>
    rw [computeNextSyncAt_daily] at hn
    cases hn
    exact Slots.after_isLeast (by simp only [day, hour]; omega) now
  | weekly =>
    rw [computeNextSyncAt_weekly] at hn
    cases hn
    rw [slots_weekly]
    exact Slots.after_isLeast (by simp only [day, hour]; omega) now

theorem computeNextSyncAt_none {schedule : SyncSchedule} {h : Fin 24} {now : ℕ}
    (hn : computeNextSyncAt schedule h now = none) : schedule.slots h = ∅ ∧ schedule.timed = false := by
  cases schedule with
  | manual => exact ⟨rfl, rfl⟩
  | webhook => exact ⟨rfl, rfl⟩
  | hourly => cases hn
  | daily => cases hn
  | weekly => cases hn

theorem computeNextSyncAt_timed {schedule : SyncSchedule} {h : Fin 24} {now n : ℕ}
    (hn : computeNextSyncAt schedule h now = some n) : schedule.timed = true := by
  cases schedule with
  | manual => cases hn
  | webhook => cases hn
  | hourly => rfl
  | daily => rfl
  | weekly => rfl

/-! ## The rows that are due -/

theorem mem_dueRepositoryIds {repositories : List Repository} {now r : ℕ} :
    r ∈ dueRepositoryIds repositories now ↔ ∃ q ∈ repositories, q.isDue now = true ∧ q.id = r := by
  simp [dueRepositoryIds, and_assoc]

theorem dueRepositoryIds_nodup {repositories : List Repository} (h : (repositories.map (·.id)).Nodup) (now : ℕ) :
    (dueRepositoryIds repositories now).Nodup := by
  unfold dueRepositoryIds
  have hperm := (List.perm_insertionSort Repository.sooner (repositories.filter (·.isDue now))).map (·.id)
  rw [hperm.nodup_iff]
  exact h.sublist (List.filter_sublist.map _)

/-! ## What sets the instant of a row -/

/-- The moment from which a step computes the row's instant, if it does. -/
def setAt (r : ℕ) (t : Step St Act) : Option ℕ :=
  match t.act with
  | .updateRepositorySchedule q _ _ => if q = r then some t.pre.clock else none
  | .advance => t.pre.tick.bind fun k => if k.due.head? = some r ∧ (t.pre.row? r).isSome then some k.now else none
  | _ => none

/-- The last such moment. -/
def lastSet (r : ℕ) (ts : List (Step St Act)) : Option ℕ := (ts.filterMap (setAt r)).getLast?

theorem lastSet_snoc (r : ℕ) (ts : List (Step St Act)) (t : Step St Act) :
    lastSet r (ts ++ [t]) = (setAt r t).or (lastSet r ts) := by
  unfold lastSet
  rw [List.filterMap_append]
  cases hset : setAt r t with
  | none => simp [hset]
  | some u => simp [hset]

/-- The instants are computed from the moments `last`. -/
structure Computed (last : ℕ → Option ℕ) (s : St) : Prop where
  keys : (s.repositories.map (·.id)).Nodup
  fresh : ∀ q ∈ s.repositories, q.id < s.nextId
  unset : ∀ r, s.nextId ≤ r → last r = none
  instants : ∀ q ∈ s.repositories, q.nextSyncAt = (last q.id).bind (computeNextSyncAt q.syncSchedule q.syncHourUtc)

section
variable {s s' : St} {last : ℕ → Option ℕ}

theorem Init.computed (h : Init s) : Computed (fun _ => none) s where
  keys := h.keys
  fresh := h.fresh
  unset _ _ := rfl
  instants q hq := h.unset q hq

theorem St.row?_some {r : ℕ} {q : Repository} (h : s.row? r = some q) : q ∈ s.repositories ∧ q.id = r :=
  ⟨List.mem_of_find?_eq_some h, by simpa using List.find?_some h⟩

theorem St.setRow_ids (r : ℕ) {f : Repository → Repository} (hf : ∀ q, (f q).id = q.id) :
    (s.setRow r f).repositories.map (·.id) = s.repositories.map (·.id) := by
  simp only [St.setRow, List.map_map]
  refine List.map_congr_left fun q _ => ?_
  show (if q.id = r then f q else q).id = q.id
  split
  · exact hf q
  · rfl

theorem Computed.setRow {f : Repository → Repository} {last' : ℕ → Option ℕ} (h : Computed last s) (r : ℕ)
    (hf : ∀ q, (f q).id = q.id) (hunset : ∀ x, s.nextId ≤ x → last' x = none) (hother : ∀ x, x ≠ r → last' x = last x)
    (hset : ∀ q ∈ s.repositories, q.id = r →
      (f q).nextSyncAt = (last' r).bind (computeNextSyncAt (f q).syncSchedule (f q).syncHourUtc)) :
    Computed last' (s.setRow r f) where
  keys := by
    rw [St.setRow_ids r hf]
    exact h.keys
  fresh q hq := by
    obtain ⟨p, hp, rfl⟩ := List.mem_map.1 hq
    have hlt := h.fresh p hp
    show (if p.id = r then f p else p).id < s.nextId
    split
    · rw [hf]
      exact hlt
    · exact hlt
  unset := hunset
  instants q hq := by
    obtain ⟨p, hp, rfl⟩ := List.mem_map.1 hq
    by_cases hid : p.id = r
    · simp only [if_pos hid]
      rw [hf, hid]
      exact hset p hp hid
    · simp only [if_neg hid]
      rw [hother p.id hid]
      exact h.instants p hp

theorem Computed.congr {last' : ℕ → Option ℕ} (h : Computed last s) (hrows : s'.repositories = s.repositories)
    (hid : s'.nextId = s.nextId) (hlast : ∀ r, last' r = last r) : Computed last' s' where
  keys := hrows ▸ h.keys
  fresh q hq := by
    rw [hid]
    exact h.fresh q (hrows ▸ hq)
  unset r hr := (hlast r).trans (h.unset r (hid ▸ hr))
  instants q hq := by
    rw [hlast]
    exact h.instants q (hrows ▸ hq)

theorem Computed.create (h : Computed last s) (schedule : Option SyncSchedule) : Computed last (s.create schedule) where
  keys := by
    simp only [St.create, List.map_append, List.map_cons, List.map_nil]
    refine List.nodup_append.2 ⟨h.keys, List.nodup_singleton _, ?_⟩
    intro a ha b hb
    obtain ⟨q, hq, rfl⟩ := List.mem_map.1 ha
    rw [List.mem_singleton] at hb
    have hlt := h.fresh q hq
    subst hb
    exact Nat.ne_of_lt hlt
  fresh q hq := by
    show q.id < s.nextId + 1
    rcases List.mem_append.1 hq with hq | hq
    · exact Nat.lt_succ_of_lt (h.fresh q hq)
    · rw [List.mem_singleton.1 hq]
      exact Nat.lt_succ_self _
  unset r hr := h.unset r (Nat.le_of_succ_le hr)
  instants q hq := by
    rcases List.mem_append.1 hq with hq | hq
    · exact h.instants q hq
    · rw [List.mem_singleton.1 hq]
      have hnone : last s.nextId = none := h.unset s.nextId (Nat.le_refl _)
      simp [newRepository, hnone]

theorem Computed.purge (h : Computed last s) (r : ℕ) : Computed last (s.purge r) where
  keys := h.keys.sublist (List.filter_sublist.map _)
  fresh q hq := h.fresh q (List.mem_of_mem_filter hq)
  unset := h.unset
  instants q hq := h.instants q (List.mem_of_mem_filter hq)

/-- **Step lemma.** A step leaves the instants computed from the last moments,
its own among them. -/
theorem Computed.step (h : Computed last s) {a : Act} (hn : next s a = some s') :
    Computed (fun r => (setAt r ⟨s, a, s'⟩).or (last r)) s' := by
  have hother : ∀ r x : ℕ, x ≠ r → (if r = x then some s.clock else none).or (last x) = last x := by
    intro r x hx
    rw [if_neg (Ne.symm hx)]
    rfl
  cases a with
  | wait d =>
    cases hn
    exact h.congr rfl rfl fun _ => rfl
  | create schedule =>
    cases hn
    exact (h.create schedule).congr rfl rfl fun _ => rfl
  | softDelete r =>
    cases hn
    exact h.setRow r (fun _ => rfl) (fun x hx => h.unset x hx) (fun _ _ => rfl)
      fun q hq hid => by rw [h.instants q hq, hid]; rfl
  | purge r =>
    cases hn
    exact (h.purge r).congr rfl rfl fun _ => rfl
  | updateRepositorySchedule r schedule secret =>
    obtain ⟨q, hq, rfl⟩ := Option.map_eq_some_iff.1 hn
    obtain ⟨hmem, hid⟩ := St.row?_some hq
    have hrow := @Computed.setRow s last (·.reschedule schedule secret s.clock) _ h r (fun _ => rfl) ?_ (hother r) ?_
    · exact hrow.congr rfl rfl fun _ => rfl
    · intro x hx
      have hne : x ≠ r := by
        have hlt := h.fresh q hmem
        omega
      rw [hother r x hne]
      exact h.unset x hx
    · intro p _ _
      rw [if_pos rfl]
      rfl
  | sync runs =>
    cases hn
    exact h.congr rfl rfl fun _ => rfl
  | beginTick =>
    simp only [next, St.beginTick] at hn
    split at hn
    · cases hn
      exact h.congr rfl rfl fun _ => rfl
    · cases hn
  | enqueue result =>
    simp only [next, St.enqueue] at hn
    split at hn
    · cases result with
      | none =>
        cases hn
        exact h.congr rfl rfl fun _ => rfl
      | some e =>
        dsimp only at hn
        split at hn
        · cases hn
          exact h.congr rfl rfl fun _ => rfl
        · cases hn
    · cases hn
  | advance =>
    simp only [next, St.advance] at hn
    split at hn
    · rename_i now r due e counts htick
      have hat : ∀ x t, setAt x ⟨s, .advance, t⟩ = if r = x ∧ (s.row? x).isSome then some now else none := by
        intro x t
        simp [setAt, htick]
      simp only [hat]
      cases hrow : s.row? r with
      | none =>
        rw [hrow] at hn
        cases hn
        refine h.congr rfl rfl fun x => ?_
        have hne : ¬(r = x ∧ (s.row? x).isSome) := by
          rintro ⟨rfl, hsome⟩
          rw [hrow] at hsome
          cases hsome
        rw [if_neg hne]
        rfl
      | some q =>
        rw [hrow] at hn
        cases hn
        obtain ⟨hmem, hid⟩ := St.row?_some hrow
        have hne : ∀ x, x ≠ r → (if r = x ∧ (s.row? x).isSome then some now else none).or (last x) = last x := by
          intro x hx
          rw [if_neg fun hr => hx hr.1.symm]
          rfl
        have hset := @Computed.setRow s last
          (fun q => { q with nextSyncAt := computeNextSyncAt q.syncSchedule q.syncHourUtc now }) _ h r (fun _ => rfl) ?_
          hne ?_
        · exact hset.congr rfl rfl fun _ => rfl
        · intro x hx
          have hxr : x ≠ r := by
            have hlt := h.fresh q hmem
            omega
          rw [hne x hxr]
          exact h.unset x hx
        · intro p _ _
          rw [if_pos ⟨rfl, by rw [hrow]; rfl⟩]
          rfl
    · cases hn
  | endTick =>
    simp only [next, St.endTick] at hn
    split at hn
    · cases hn
      exact h.congr rfl rfl fun _ => rfl
    · cases hn
  | die =>
    cases hn
    exact h.congr rfl rfl fun _ => rfl

theorem Computed.history (ts : List (Step St Act)) (s : St) (a : Act) (s' : St)
    (h : Computed (fun r => lastSet r ts) s) (hn : next s a = some s') :
    Computed (fun r => lastSet r (ts ++ [⟨s, a, s'⟩])) s' :=
  (h.step hn).congr rfl rfl fun r => lastSet_snoc r ts _

end

/-! ## What a tick picks -/

section
variable {s₀ s s' : St} {as : List Act}

theorem Computed.due_iff {last : ℕ → Option ℕ} (h : Computed last s) {r : ℕ} :
    r ∈ dueRepositoryIds s.repositories s.clock ↔ ∃ q ∈ s.repositories, q.id = r ∧ q.deletedAt = none ∧
      ∃ u, last r = some u ∧ ∃ t ∈ q.syncSchedule.slots q.syncHourUtc, u < t ∧ t ≤ s.clock := by
  rw [mem_dueRepositoryIds]
  refine exists_congr fun q => and_congr_right fun hq => ?_
  have hinstant := h.instants q hq
  simp only [Repository.isDue, decide_eq_true_eq]
  constructor
  · rintro ⟨⟨hlive, -, hany⟩, rfl⟩
    obtain ⟨n, hn, hle⟩ := (Option.any_eq_true _ _).1 hany
    have hle := of_decide_eq_true hle
    rw [hn] at hinstant
    obtain ⟨u, hu, hcompute⟩ := Option.bind_eq_some_iff.1 hinstant.symm
    exact ⟨rfl, hlive, u, hu, (Slots.due_iff (computeNextSyncAt_isLeast hcompute)).1 hle⟩
  · rintro ⟨rfl, hlive, u, hu, hslot⟩
    rw [hu, Option.bind_some] at hinstant
    refine ⟨⟨hlive, ?_⟩, rfl⟩
    cases hcompute : computeNextSyncAt q.syncSchedule q.syncHourUtc u with
    | none =>
      obtain ⟨t, ht, -⟩ := hslot
      rw [(computeNextSyncAt_none hcompute).1] at ht
      cases ht
    | some n =>
      rw [hinstant, hcompute]
      exact ⟨computeNextSyncAt_timed hcompute,
        by simpa using (Slots.due_iff (computeNextSyncAt_isLeast hcompute)).2 hslot⟩

end

/-! A repository set to an hourly sync is due when the hour has struck. -/

namespace Sample

def start : St := ⟨100, 0, [], [], none, none⟩

theorem start_init : Init start := ⟨rfl, List.nodup_nil, nofun, nofun⟩

def anHour : List Act := [.create none, .updateRepositorySchedule 0 .hourly "", .wait 3500]

def hourly : Repository := ⟨0, 100, none, .hourly, ⟨2, by decide⟩, some 3600, none⟩

def struck : St := ⟨3600, 1, [hourly], [], none, none⟩

def ticking : St := { struck with tick := some ⟨3600, [0], none, ⟨1, 0, 0, 0, 0⟩⟩ }

end Sample

/-- The repository that a step tries to enqueue, and what comes of it. -/
def tried (t : Step St Act) : Option (ℕ × Option RepoSyncEnqueueResult) :=
  match t.act with
  | .enqueue result => t.pre.tick.bind fun k => k.due.head?.map (·, result)
  | _ => none

/-- The counters, one outcome later. -/
def RepoSyncSchedulerResult.tally (c : RepoSyncSchedulerResult) (x : ℕ × Option RepoSyncEnqueueResult) :
    RepoSyncSchedulerResult :=
  match x.2 with
  | none => { c with failedRepositories := c.failedRepositories + 1 }
  | some e => c.count e

namespace Tick

variable (k : Tick)

/-- The repositories that the tick has still to try. -/
def untried : List ℕ := if k.enqueued.isSome then k.due.tail else k.due

/-- The counters with the enqueue that has returned. -/
def settled : RepoSyncSchedulerResult := (k.enqueued.map k.result.count).getD k.result

end Tick

/-- The tick is over, or the outcomes so far are those of the repositories that
it has tried. -/
def Trying (due : List ℕ) (outcomes : List (ℕ × Option RepoSyncEnqueueResult)) (s : St) : Prop :=
  s.tick = none ∨ ∃ k, s.tick = some k ∧ (k.enqueued.isSome → k.due ≠ []) ∧
    outcomes.map (·.1) ++ k.untried = due ∧
    k.settled = outcomes.foldl RepoSyncSchedulerResult.tally ⟨due.length, 0, 0, 0, 0⟩

section
variable {s s' : St} {due : List ℕ} {outcomes : List (ℕ × Option RepoSyncEnqueueResult)}

/-- A step besides the tick. -/
theorem Trying.quiet {t : Step St Act} (h : Trying due outcomes s) (htick : s'.tick = s.tick) (htried : tried t = none) :
    Trying due (outcomes ++ (tried t).toList) s' := by
  unfold Trying at h ⊢
  rw [htick, htried, Option.toList_none, List.append_nil]
  exact h

/-- **Step lemma.** -/
theorem Trying.step (h : Trying due outcomes s) {a : Act} (ha : a ≠ .beginTick) (hn : next s a = some s') :
    Trying due (outcomes ++ (tried ⟨s, a, s'⟩).toList) s' := by
  cases a with
  | beginTick => exact absurd rfl ha
  | wait d =>
    cases hn
    exact h.quiet rfl rfl
  | create schedule =>
    cases hn
    exact h.quiet rfl rfl
  | softDelete r =>
    cases hn
    exact h.quiet rfl rfl
  | purge r =>
    cases hn
    exact h.quiet rfl rfl
  | updateRepositorySchedule r schedule secret =>
    obtain ⟨_, -, rfl⟩ := Option.map_eq_some_iff.1 hn
    exact h.quiet rfl rfl
  | sync runs =>
    cases hn
    exact h.quiet rfl rfl
  | die =>
    cases hn
    exact .inl rfl
  | endTick =>
    simp only [next, St.endTick] at hn
    split at hn
    · cases hn
      exact .inl rfl
    · cases hn
  | enqueue result =>
    simp only [next, St.enqueue] at hn
    split at hn
    · rename_i now r rest counts htick
      obtain hnone | ⟨k, hk, -, hdue, hcount⟩ := h
      · rw [hnone] at htick
        cases htick
      · rw [htick] at hk
        cases hk
        simp only [tried, htick, Option.bind_some, List.head?_cons, Option.map_some, Option.toList_some]
        simp only [Tick.untried, Tick.settled, Option.isSome_none, Bool.false_eq_true, if_false, Option.map_none,
          Option.getD_none] at hdue hcount
        cases result with
        | none =>
          cases hn
          refine .inr ⟨_, rfl, nofun, ?_, ?_⟩
          · simpa [Tick.untried] using hdue
          · rw [List.foldl_append, ← hcount]
            rfl
        | some e =>
          dsimp only at hn
          split at hn
          · cases hn
            refine .inr ⟨_, rfl, fun _ => List.cons_ne_nil _ _, ?_, ?_⟩
            · simpa [Tick.untried] using hdue
            · rw [List.foldl_append, ← hcount]
              rfl
          · cases hn
    · cases hn
  | advance =>
    simp only [next, St.advance] at hn
    split at hn
    · rename_i now r rest e counts htick
      obtain hnone | ⟨k, hk, -, hdue, hcount⟩ := h
      · rw [hnone] at htick
        cases htick
      · rw [htick] at hk
        cases hk
        simp only [tried, Option.toList_none, List.append_nil]
        split at hn
        · cases hn
          exact .inl rfl
        · cases hn
          exact .inr ⟨_, rfl, nofun, hdue, hcount⟩
    · cases hn

theorem Trying.run (h : Trying due [] s) {as : List Act} (has : .beginTick ∉ as)
    (hr : Machine.run next s as = some s') : Trying due ((trace next s as).filterMap tried) s' := by
  -- a tick that begins would start the count again
  let Inv : List (Step St Act) → St → Prop :=
    fun ts s => (∀ t ∈ ts, t.act ≠ .beginTick) → Trying due (ts.filterMap tried) s
  have hstep : ∀ ts s a s', Inv ts s → next s a = some s' → Inv (ts ++ [(⟨s, a, s'⟩ : Step St Act)]) s' := by
    intro ts s a s' h hn hall
    have ha : a ≠ .beginTick := hall ⟨s, a, s'⟩ (by simp)
    have hnow := (h fun t ht => hall t (List.mem_append_left _ ht)).step ha hn
    rw [List.filterMap_append]
    cases htried : tried ⟨s, a, s'⟩ with
    | none => simpa [htried] using hnow
    | some x => simpa [htried] using hnow
  have hrun : Inv (trace next s as) s' := run_history_nil next hstep (fun _ => h) hr
  refine hrun fun t ht hact => has ?_
  rw [← hact]
  exact trace_act next ht

/-- **A tick that returns** has tried every repository it picked once, in their
order, whatever users did meanwhile, and its counters tell what came of them. -/
theorem tick_tries_all {s s₁ s₂ s' : St} {as : List Act} (hbegin : next s .beginTick = some s₁)
    (hrun : Machine.run next s₁ as = some s₂) (has : .beginTick ∉ as) (hend : next s₂ .endTick = some s') :
    ((trace next s₁ as).filterMap tried).map (·.1) = dueRepositoryIds s.repositories s.clock ∧
      s'.returned = some (((trace next s₁ as).filterMap tried).foldl RepoSyncSchedulerResult.tally
        ⟨(dueRepositoryIds s.repositories s.clock).length, 0, 0, 0, 0⟩) := by
  have hstart : Trying (dueRepositoryIds s.repositories s.clock) [] s₁ := by
    simp only [next, St.beginTick] at hbegin
    split at hbegin
    · cases hbegin
      exact .inr ⟨_, rfl, nofun, rfl, rfl⟩
    · cases hbegin
  have hlast := hstart.run has hrun
  simp only [next, St.endTick] at hend
  split at hend
  · rename_i now enqueued counts htick
    cases hend
    obtain hnone | ⟨k, hk, hne, hdue, hcount⟩ := hlast
    · rw [hnone] at htick
      cases htick
    · rw [htick] at hk
      cases hk
      cases enqueued with
      | some e => exact absurd rfl (hne rfl)
      | none =>
        simp only [Tick.untried, Option.isSome_none, Bool.false_eq_true, if_false, List.append_nil] at hdue
        exact ⟨hdue, congrArg some hcount⟩
  · cases hend

end

theorem tick_tries_all_hourly :
    ((trace next Sample.ticking [.enqueue (some ⟨.queued, false⟩), .advance]).filterMap tried).map (·.1) = [0] ∧
      ∃ s', next ⟨3600, 1, [{ Sample.hourly with nextSyncAt := some 7200 }], [],
          some ⟨3600, [], none, ⟨1, 1, 0, 0, 0⟩⟩, none⟩ .endTick = some s' ∧ s'.returned = some ⟨1, 1, 0, 0, 0⟩ :=
  have h := @tick_tries_all Sample.struck _ _ _ [.enqueue (some ⟨.queued, false⟩), .advance] rfl rfl (by decide) rfl
  ⟨h.1, _, rfl, h.2⟩

end Cograph.Schedule
