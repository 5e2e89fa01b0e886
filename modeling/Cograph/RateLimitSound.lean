import Cograph.RateLimit
import Cograph.Throttle

/-!
# The limiters agree

Both limiters keep, under each key, the window that was opened last: Redis as a
counter that expires with it, the other as a count with its start. Calls whose
times do not decrease are answered as those windows say.
-/

namespace Cograph.RateLimit

def RateLimitResult.outcome (r : RateLimitResult) : Bool × Nat := (r.allowed, r.remaining)

/-- A window: the time of its first hit and how many hits it has. -/
structure Open where
  start : ℚ
  count : Nat
  deriving DecidableEq

/-- The window, while it lasts. -/
def active (window : Nat) (o : Option Open) (now : ℚ) : Option Open := o.filter (now < ·.start + window)

/-- The hits that count at a time. -/
def counted (window : Nat) (o : Option Open) (now : ℚ) : Nat := (active window o now).elim 0 (·.count)

/-- The window of a hit. -/
def opened (window : Nat) (o : Option Open) (now : ℚ) : Open :=
  (active window o now).elim ⟨now, 1⟩ fun o => { o with count := o.count + 1 }

/-- What a limiter answers to the `n`-th hit of a window. -/
def verdict (limit n : Nat) : Bool × Nat := (decide (n ≤ limit), limit - n)

/-- What it answers to a check after `n` hits. -/
def forecast (limit n : Nat) : Bool × Nat := (decide (n < limit), limit - n)

/-- A limiter answers as the windows say; `Sim now s a` holds of its store and
the windows under the keys at `now`. -/
structure Refines {κ σ : Type} [DecidableEq κ] (L : RateLimiter κ σ) (window : κ → Nat)
    (Sim : ℚ → σ → (κ → Option Open) → Prop) : Prop where
  empty : ∀ now, Sim now L.empty fun _ => none
  later : ∀ now now' s a, now ≤ now' → Sim now s a → Sim now' s a
  hit : ∀ now s a key limit, Sim now s a →
    Sim now (L.hit s key now (window key) limit).1 (Function.update a key (some (opened (window key) (a key) now)))
  verdict : ∀ now s a key limit, Sim now s a →
    (L.hit s key now (window key) limit).2.outcome = verdict limit (counted (window key) (a key) now + 1)
  forecast : ∀ now s a key limit, Sim now s a →
    (L.check s key now (window key) limit).outcome = forecast limit (counted (window key) (a key) now)

theorem opened_count (window : Nat) (o : Option Open) (now : ℚ) :
    (opened window o now).count = counted window o now + 1 := by
  unfold opened counted
  cases active window o now <;> rfl

/-! ## Redis -/

section
variable {κ σ : Type} [DecidableEq κ] {R : Redis κ σ} {held : σ → κ → ℚ → Option (Nat × Option ℚ)} {window : κ → Nat}

/-- The server holds the windows as counters that expire. -/
def Held (held : σ → κ → ℚ → Option (Nat × Option ℚ)) (window : κ → Nat) (now : ℚ) (s : σ) (a : κ → Option Open) : Prop :=
  ∀ key now', now ≤ now' →
    held s key now' = (active (window key) (a key) now').map fun o => (o.count, some (o.start + (window key : ℚ)))

omit [DecidableEq κ] in
theorem held_later {s s' : σ} {key : κ} {now now' : ℚ} (hR : R.Documented held) (hle : now ≤ now')
    (h : held s' key now = held s key now) : held s' key now' = held s key now' := by
  rw [hR.later _ _ _ _ hle, hR.later s _ _ _ hle, h]

omit [DecidableEq κ] in
theorem redis_hit_store (s : σ) (key : κ) (now : ℚ) (w limit : Nat) :
    (R.hit s key now w limit).1 = R.expireNx (R.incr s key now).1 key w now := by
  unfold Redis.hit
  dsimp only
  split <;> rfl

theorem redis_refines (hR : R.Documented held) (hw : ∀ key, 0 < window key) :
    Refines (redis R) window (Held held window) where
  empty now key now' _ := by
    show held R.empty key now' = none
    exact hR.empty key now'
  later now now' s a hle h key later hlater := h key later (hle.trans hlater)
  hit now s a key limit h k now' hle := by
    show held (R.hit s key now (window key) limit).1 k now' = _
    rw [redis_hit_store]
    by_cases hk : k = key
    · subst hk
      rw [Function.update_self, hR.later _ _ _ _ hle, hR.expire _ _ _ _ (hw k), hR.incr, h k now le_rfl]
      unfold opened
      cases hact : active (window k) (a k) now with
      | none => simp [active, Option.filter_some]
      | some o => simp [active, Option.filter_some]
    · rw [Function.update_of_ne hk, ← h k now' hle]
      apply held_later hR hle
      rw [hR.expire_other _ _ _ _ _ hk, hR.incr_other _ _ _ _ hk]
  verdict now s a key limit h := by
    have hcount : (R.incr s key now).2 = counted (window key) (a key) now + 1 := by
      rw [hR.incr_reply, h key now le_rfl]
      unfold counted
      cases active (window key) (a key) now <;> rfl
    simp only [redis, Redis.hit, hcount]
    split
    · next hle => simp [RateLimitResult.outcome, verdict, hle]
    · next hlt => simp [RateLimitResult.outcome, verdict, hlt, Nat.sub_eq_zero_of_le (Nat.le_of_not_le hlt)]
  forecast now s a key limit h := by
    have hcount : (R.get s key now).getD 0 = counted (window key) (a key) now := by
      rw [hR.get, h key now le_rfl]
      unfold counted
      cases active (window key) (a key) now <;> rfl
    simp only [redis, Redis.check, hcount]
    split
    · next hlt => simp [RateLimitResult.outcome, forecast, hlt]
    · next hle => simp [RateLimitResult.outcome, forecast, hle, Nat.sub_eq_zero_of_le (Nat.le_of_not_lt hle)]

end

/-! ## In memory -/

section
variable {κ : Type} [DecidableEq κ] {window : κ → Nat} {s : Windows κ} {a : κ → Option Open}

/-- The dictionary holds the windows as counts with their starts. -/
def Stored (window : κ → Nat) (_now : ℚ) (s : Windows κ) (a : κ → Option Open) : Prop :=
  ∀ key, s key = (a key).elim ⟨0, 0, 0⟩ (fun o => ⟨o.count, o.start, window key⟩) ∧ ∀ o ∈ a key, 0 < o.count

omit [DecidableEq κ] in
theorem currentCount_stored {now : ℚ} (hw : ∀ key, 0 < window key) (h : Stored window now s a) (key : κ) :
    Windows.currentCount s key now = (active (window key) (a key) now).elim (0, now) fun o => (o.count, o.start) := by
  obtain ⟨hs, hpos⟩ := h key
  unfold Windows.currentCount active
  rw [hs]
  cases ha : a key with
  | none => rfl
  | some o =>
    have hcount := Nat.ne_of_gt (hpos o ha)
    have hwin := Nat.ne_of_gt (hw key)
    by_cases hlt : now < o.start + window key
    · have : ¬(window key : ℚ) ≤ now - o.start := by linarith
      simp [Option.filter_some, hlt, hcount, hwin, this]
    · have : (window key : ℚ) ≤ now - o.start := by linarith
      simp [Option.filter_some, hlt, this]

theorem inMemory_refines (hw : ∀ key, 0 < window key) :
    Refines (inMemory : RateLimiter κ (Windows κ)) window (Stored window) where
  empty now key := ⟨rfl, by simp⟩
  later now now' s a _ h := h
  hit now s a key limit h k := by
    have hstore : (Windows.hit s key now (window key) limit).1 = Function.update s key
        ⟨(opened (window key) (a key) now).count, (opened (window key) (a key) now).start, window key⟩ := by
      have hcur := currentCount_stored hw h key
      obtain ⟨-, hpos⟩ := h key
      unfold Windows.hit opened
      dsimp only
      rw [hcur]
      cases hact : active (window key) (a key) now with
      | none => split <;> rfl
      | some o =>
        have := Nat.ne_of_gt (hpos o (Option.filter_eq_some_iff.1 hact).1)
        split <;> simp [this]
    show (Windows.hit s key now (window key) limit).1 k = _ ∧ _
    rw [hstore]
    by_cases hk : k = key
    · subst hk
      simp [opened_count]
    · rw [Function.update_of_ne hk, Function.update_of_ne hk]
      exact h k
  verdict now s a key limit h := by
    have hcount : (Windows.currentCount s key now).1 = counted (window key) (a key) now := by
      rw [currentCount_stored hw h key]
      unfold counted
      cases active (window key) (a key) now <;> rfl
    simp only [inMemory, Windows.hit, hcount]
    split
    · next hle => simp [RateLimitResult.outcome, verdict, hle]
    · next hlt => simp [RateLimitResult.outcome, verdict, hlt, Nat.sub_eq_zero_of_le (Nat.le_of_not_le hlt)]
  forecast now s a key limit h := by
    have hcount : (Windows.currentCount s key now).1 = counted (window key) (a key) now := by
      rw [currentCount_stored hw h key]
      unfold counted
      cases active (window key) (a key) now <;> rfl
    simp only [inMemory, Windows.check, hcount]
    split
    · next hlt => simp [RateLimitResult.outcome, forecast, hlt]
    · next hle => simp [RateLimitResult.outcome, forecast, hle, Nat.sub_eq_zero_of_le (Nat.le_of_not_lt hle)]

end

/-! ## Traces -/

/-- What the windows say to the calls. -/
def outcomes {κ : Type} [DecidableEq κ] (window limit : κ → Nat) : (κ → Option Open) → List (Call κ) → List (Bool × Nat)
  | _, [] => []
  | a, c :: calls =>
    let n := counted (window c.key) (a c.key) c.now
    match c.kind with
    | .hit =>
      verdict (limit c.key) (n + 1) ::
        outcomes window limit (Function.update a c.key (some (opened (window c.key) (a c.key) c.now))) calls
    | .check => forecast (limit c.key) n :: outcomes window limit a calls

/-- The hits of a key by its window. -/
def marks (window limit : Nat) : Option Open → List ℚ → List (ℚ × Bool)
  | _, [] => []
  | o, t :: ts =>
    (t, decide (counted window o t + 1 ≤ limit)) :: marks window limit (some (opened window o t)) ts

/-- The times at which a key is hit. -/
def times {κ : Type} [DecidableEq κ] (key : κ) (calls : List (Call κ)) : List ℚ :=
  (calls.filter fun c => c.kind = .hit ∧ c.key = key).map (·.now)

section
variable {κ σ : Type} [DecidableEq κ] {L : RateLimiter κ σ} {window : κ → Nat} {limit : κ → Nat}
  {Sim : ℚ → σ → (κ → Option Open) → Prop}

theorem answers_outcomes (hL : Refines L window Sim) {now : ℚ} {s : σ} {a : κ → Option Open} {calls : List (Call κ)}
    (h : Sim now s a) (hnow : (now :: calls.map (·.now)).Pairwise (· ≤ ·)) :
    (answers L window limit s calls).map (·.outcome) = outcomes window limit a calls := by
  induction calls generalizing now s a with
  | nil => rfl
  | cons c calls ih =>
    rw [List.map_cons, List.pairwise_cons] at hnow
    have hc := hL.later now c.now s a (hnow.1 _ List.mem_cons_self) h
    rw [answers, outcomes, List.map_cons]
    cases hk : c.kind with
    | hit =>
      simp only [call, hk]
      rw [hL.verdict _ _ _ _ _ hc, ih (hL.hit _ _ _ _ _ hc) hnow.2]
    | check =>
      simp only [call, hk]
      rw [hL.forecast _ _ _ _ _ hc, ih hc hnow.2]

theorem answers_marks (hL : Refines L window Sim) {now : ℚ} {s : σ} {a : κ → Option Open} {calls : List (Call κ)}
    (h : Sim now s a) (hnow : (now :: calls.map (·.now)).Pairwise (· ≤ ·)) (key : κ) :
    hits key calls (answers L window limit s calls) = marks (window key) (limit key) (a key) (times key calls) := by
  induction calls generalizing now s a with
  | nil => rfl
  | cons c calls ih =>
    rw [List.map_cons, List.pairwise_cons] at hnow
    have hc := hL.later now c.now s a (hnow.1 _ List.mem_cons_self) h
    unfold hits times at ih ⊢
    rw [answers, List.zip_cons_cons]
    cases hk : c.kind with
    | hit =>
      have hallowed := congrArg Prod.fst (hL.verdict c.now s a c.key (limit c.key) hc)
      have hrest := ih (hL.hit _ _ _ c.key (limit c.key) hc) hnow.2
      by_cases hkey : c.key = key
      · subst hkey
        simp only [call, hk, List.filter_cons, and_self, decide_true, if_true, List.map_cons, marks]
        rw [hrest, Function.update_self]
        exact congrArg (fun b => (c.now, b) :: _) hallowed
      · simp only [call, hk, hkey, List.filter_cons, and_false, decide_false, Bool.false_eq_true, if_false]
        rw [hrest, Function.update_of_ne (Ne.symm hkey)]
    | check =>
      simp only [call, hk, List.filter_cons, reduceCtorEq, false_and, decide_false, Bool.false_eq_true, if_false]
      exact ih hc hnow.2

theorem after_sim (hL : Refines L window Sim) {now last : ℚ} {s : σ} {a : κ → Option Open} {calls : List (Call κ)}
    (h : Sim now s a) (hnow : (now :: calls.map (·.now)).Pairwise (· ≤ ·)) (hlast : ∀ c ∈ calls, c.now ≤ last)
    (hle : now ≤ last) : ∃ a', Sim last (after L window limit s calls) a' := by
  induction calls generalizing now s a with
  | nil => exact ⟨a, hL.later now last s a hle h⟩
  | cons c calls ih =>
    rw [List.map_cons, List.pairwise_cons] at hnow
    have hc := hL.later now c.now s a (hnow.1 _ List.mem_cons_self) h
    have hrest : ∀ c ∈ calls, c.now ≤ last := fun c' h' => hlast c' (List.mem_cons_of_mem c h')
    unfold after
    rw [List.foldl_cons]
    cases hk : c.kind with
    | hit =>
      simp only [call, hk]
      exact ih (hL.hit _ _ _ c.key (limit c.key) hc) hnow.2 hrest (hlast c List.mem_cons_self)
    | check =>
      simp only [call, hk]
      exact ih hc hnow.2 hrest (hlast c List.mem_cons_self)

end

section
variable {window limit : Nat}

/-- Of an open window, the hits still to come that are allowed. -/
theorem open_allowed (start : ℚ) (n : Nat) (ts : List ℚ) :
    ((marks window limit (some ⟨start, n⟩) ts).takeWhile (·.1 < start + window)).countP (·.2) ≤ limit - n := by
  induction ts generalizing n with
  | nil => exact Nat.zero_le _
  | cons t ts ih =>
    by_cases ht : t < start + window
    · have hopened : opened window (some ⟨start, n⟩) t = ⟨start, n + 1⟩ := by
        simp [opened, active, Option.filter_some, ht]
      have hcounted : counted window (some ⟨start, n⟩) t = n := by simp [counted, active, Option.filter_some, ht]
      rw [marks, hopened, hcounted, List.takeWhile_cons_of_pos (by simpa using ht), List.countP_cons]
      have := ih (n + 1)
      by_cases hn : n + 1 ≤ limit
      · simp only [hn, decide_true, if_true]
        omega
      · simp only [hn, decide_false, Bool.false_eq_true, if_false]
        omega
    · rw [marks, List.takeWhile_cons_of_neg (by simpa using ht)]
      exact Nat.zero_le _

/-- Behind a window the hits are as if none had been open. -/
theorem marks_behind (start : ℚ) (n : Nat) (ts : List ℚ) :
    (marks window limit (some ⟨start, n⟩) ts).dropWhile (·.1 < start + window) =
      marks window limit none (ts.dropWhile (· < start + window)) := by
  induction ts generalizing n with
  | nil => rfl
  | cons t ts ih =>
    by_cases ht : t < start + window
    · have hopened : opened window (some ⟨start, n⟩) t = ⟨start, n + 1⟩ := by
        simp [opened, active, Option.filter_some, ht]
      rw [marks, hopened, List.dropWhile_cons_of_pos (by simpa using ht),
        List.dropWhile_cons_of_pos (by simpa using ht)]
      exact ih (n + 1)
    · have hactive : active window (some ⟨start, n⟩) t = active window none t := by
        simp [active, Option.filter_some, ht]
      rw [marks, List.dropWhile_cons_of_neg (by simpa using ht), List.dropWhile_cons_of_neg (by simpa using ht)]
      simp only [marks, counted, opened, hactive]
      rfl

theorem windows_allowed (ts : List ℚ) {w : List (ℚ × Bool)}
    (h : w ∈ fixedWindows (window : ℚ) (marks window limit none ts)) : w.countP (·.2) ≤ limit := by
  induction hn : ts.length using Nat.strong_induction_on generalizing ts with
  | _ n ih =>
    cases ts with
    | nil =>
      rw [marks, fixedWindows] at h
      cases h
    | cons t ts =>
      have hopened : opened window none t = ⟨t, 1⟩ := rfl
      have hcounted : counted window none t = 0 := rfl
      rw [marks, hopened, hcounted, fixedWindows, marks_behind] at h
      rcases List.mem_cons.1 h with rfl | h
      · have := @open_allowed window limit t 1 ts
        rw [List.countP_cons]
        by_cases hl : 0 + 1 ≤ limit
        · simp only [hl, decide_true, if_true]
          omega
        · simp only [hl, decide_false, Bool.false_eq_true, if_false]
          omega
      · refine ih _ ?_ _ h rfl
        rw [← hn]
        exact Nat.lt_succ_of_le (List.dropWhile_suffix _).length_le

end

/-- A check allows what a hit at once after it would, with one more remaining. -/
def Predicts {κ σ : Type} (L : RateLimiter κ σ) (window limit : κ → Nat) (calls : List (Call κ)) : Prop :=
  ∀ key now, (∀ c ∈ calls, c.now ≤ now) →
    let s := after L window limit L.empty calls
    let checked := L.check s key now (window key) (limit key)
    let hit := (L.hit s key now (window key) (limit key)).2
    hit.allowed = checked.allowed ∧ hit.remaining = checked.remaining - 1

/-- No fixed window of a key has more than the limit of allowed hits. -/
def Limited {κ σ : Type} [DecidableEq κ] (L : RateLimiter κ σ) (window limit : κ → Nat) (calls : List (Call κ)) : Prop :=
  ∀ key, ∀ w ∈ fixedWindows (window key : ℚ) (hits key calls (answers L window limit L.empty calls)),
    w.countP (·.2) ≤ limit key

section
variable {κ σ : Type} [DecidableEq κ] {L : RateLimiter κ σ} {window : κ → Nat} {limit : κ → Nat}
  {Sim : ℚ → σ → (κ → Option Open) → Prop} {calls : List (Call κ)}

omit [DecidableEq κ] in
/-- A time that is not after the calls. -/
theorem exists_start (hnow : (calls.map (·.now)).Pairwise (· ≤ ·)) : ∃ t, (t :: calls.map (·.now)).Pairwise (· ≤ ·) := by
  cases calls with
  | nil => exact ⟨0, by simp⟩
  | cons c calls =>
    refine ⟨c.now, List.pairwise_cons.2 ⟨fun t ht => ?_, hnow⟩⟩
    rw [List.map_cons, List.mem_cons] at ht
    rcases ht with rfl | ht
    · exact le_rfl
    · exact (List.pairwise_cons.1 hnow).1 t ht

theorem refines_predicts (hL : Refines L window Sim) (hnow : (calls.map (·.now)).Pairwise (· ≤ ·)) :
    Predicts L window limit calls := by
  intro key now hlast
  obtain ⟨t, ht⟩ := exists_start hnow
  have hmin : (min t now :: calls.map (·.now)).Pairwise (· ≤ ·) := by
    rw [List.pairwise_cons] at ht ⊢
    exact ⟨fun t' ht' => (min_le_left t now).trans (ht.1 t' ht'), ht.2⟩
  obtain ⟨a, ha⟩ := @after_sim _ _ _ _ _ limit _ hL _ _ _ _ _ (hL.empty _) hmin hlast (min_le_right t now)
  have hcheck := hL.forecast now _ a key (limit key) ha
  have hhit := hL.verdict now _ a key (limit key) ha
  obtain ⟨hchecked, hcheckrem⟩ := Prod.mk.inj hcheck
  obtain ⟨hallowed, hhitrem⟩ := Prod.mk.inj hhit
  dsimp only
  rw [hchecked, hcheckrem, hallowed, hhitrem]
  exact ⟨rfl, Nat.sub_add_eq _ _ _⟩

theorem refines_limited (hL : Refines L window Sim) (hnow : (calls.map (·.now)).Pairwise (· ≤ ·)) :
    Limited L window limit calls := by
  intro key w hw
  obtain ⟨t, ht⟩ := exists_start hnow
  rw [answers_marks hL (hL.empty t) ht key] at hw
  exact windows_allowed _ hw

end

/-- The counters under the keys, with the times they expire at. -/
abbrev Counters (κ : Type) := κ → Option (Nat × Option ℚ)

def Counters.held {κ : Type} (s : Counters κ) (key : κ) (now : ℚ) : Option (Nat × Option ℚ) :=
  (s key).filter fun h => h.2.all (now < ·)

/-- `TTL` is in seconds, rounded, and negative where no time is set. -/
def counters {κ : Type} [DecidableEq κ] : Redis κ (Counters κ) where
  empty _ := none
  incr s key now :=
    let h := (s.held key now).elim (1, none) fun h => (h.1 + 1, h.2)
    (Function.update s key (some h), h.1)
  expireNx s key seconds now :=
    Function.update s key ((s.held key now).map fun h => (h.1, some (h.2.getD (now + seconds))))
  get s key now := (s.held key now).map (·.1)
  ttl s key now := (s.held key now).elim (-2) fun h => h.2.elim (-1) fun e => ⌊e - now + 1 / 2⌋

theorem counters_documented {κ : Type} [DecidableEq κ] : (counters : Redis κ (Counters κ)).Documented Counters.held where
  empty _ _ := rfl
  later s key now now' hle := by
    unfold Counters.held
    cases s key with
    | none => rfl
    | some h =>
      obtain ⟨n, e⟩ := h
      cases e with
      | none => simp [Option.filter_some]
      | some e =>
        by_cases hlt : now' < e
        · simp [Option.filter_some, hlt, hle.trans_lt hlt]
        · by_cases hlt' : now < e <;> simp [Option.filter_some, hlt, hlt']
  get _ _ _ := rfl
  incr s key now := by
    show ((Function.update s key _ key).filter _) = _
    rw [Function.update_self]
    cases hs : s.held key now with
    | none => rfl
    | some h =>
      have hlive := (Option.filter_eq_some_iff.1 hs).2
      simp only [Option.elim_some, Option.filter_some]
      rw [if_pos hlive]
  incr_reply s key now := by
    show ((s.held key now).elim (1, none) _).1 = _
    cases s.held key now <;> rfl
  incr_other s key key' now hne := by
    show ((Function.update s key _ key').filter _) = (s key').filter _
    rw [Function.update_of_ne hne]
  expire s key seconds now hpos := by
    show ((Function.update s key _ key).filter _) = _
    rw [Function.update_self]
    cases hs : s.held key now with
    | none => rfl
    | some h =>
      have hlive := (Option.filter_eq_some_iff.1 hs).2
      obtain ⟨n, e⟩ := h
      cases e with
      | none => simp [Option.filter_some, hpos]
      | some e => simpa [Option.filter_some] using hlive
  expire_other s key key' seconds now hne := by
    show ((Function.update s key _ key').filter _) = (s key').filter _
    rw [Function.update_of_ne hne]

/-- A hit at the end of the window of the first, and one of another key. -/
def boundaryCalls : List (Call Bool) := [⟨.hit, true, 0⟩, ⟨.check, true, 59⟩, ⟨.hit, true, 60⟩, ⟨.hit, false, 60⟩]

section
variable (key : Throttle.Key) (now window limit : Nat)

def wholeWindows (s : Throttle.Windows) : Windows Throttle.Key := fun key => ⟨(s key).count, (s key).start, (s key).seconds⟩

def wholeCounters (s : Throttle.Redis) : Counters Throttle.Key :=
  fun key => (s key).map fun c => (c.count, some (c.expiresAt : ℚ))

theorem login_currentCount (s : Throttle.Windows) : Windows.currentCount (wholeWindows s) key now =
    ((Throttle.Windows.currentCount s key now).1, ((Throttle.Windows.currentCount s key now).2 : ℚ)) := by
  have hover : (s key).seconds = 0 ∨ ((s key).seconds : ℚ) ≤ now - (s key).start ↔
      (s key).seconds = 0 ∨ (s key).seconds ≤ now - (s key).start := by
    rw [le_sub_iff_add_le]
    norm_cast
    omega
  unfold Windows.currentCount Throttle.Windows.currentCount wholeWindows
  simp only [hover]
  split <;> rfl

theorem login_hit_inMemory (s : Throttle.Windows) :
    (inMemory.hit (wholeWindows s) key now window limit).1 = wholeWindows (Throttle.inMemory.hit s key now window limit).1 ∧
      (inMemory.hit (wholeWindows s) key now window limit).2.outcome =
        ((Throttle.inMemory.hit s key now window limit).2.allowed, (Throttle.inMemory.hit s key now window limit).2.remaining) := by
  have hstore : ∀ w : Throttle.Window, wholeWindows (Function.update s key w) =
      Function.update (wholeWindows s) key ⟨w.count, w.start, w.seconds⟩ := by
    intro w
    funext k
    by_cases hk : k = key
    · subst hk
      simp [wholeWindows]
    · simp [wholeWindows, hk]
  simp only [inMemory, Throttle.inMemory, Windows.hit, Throttle.Windows.hit, login_currentCount]
  split
  · exact ⟨by rw [hstore]; simp only [apply_ite (Nat.cast (R := ℚ))], rfl⟩
  · exact ⟨by rw [hstore]; simp only [apply_ite (Nat.cast (R := ℚ))], rfl⟩

theorem login_check_inMemory (s : Throttle.Windows) :
    (inMemory.check (wholeWindows s) key now window limit).outcome =
      ((Throttle.inMemory.check s key now window limit).allowed, (Throttle.inMemory.check s key now window limit).remaining) := by
  simp only [inMemory, Throttle.inMemory, Windows.check, Throttle.Windows.check, login_currentCount]
  split <;> rfl

theorem login_held (s : Throttle.Redis) : (wholeCounters s).held key now =
    (Throttle.Redis.live s key now).map fun c => (c.count, some (c.expiresAt : ℚ)) := by
  unfold Counters.held wholeCounters Throttle.Redis.live
  cases s key with
  | none => rfl
  | some c => by_cases hlt : now < c.expiresAt <;> simp [Option.filter_some, hlt]

theorem login_hit_redis (s : Throttle.Redis) :
    ((redis counters).hit (wholeCounters s) key now window limit).1 =
        wholeCounters (Throttle.redis.hit s key now window limit).1 ∧
      ((redis counters).hit (wholeCounters s) key now window limit).2.outcome =
        ((Throttle.redis.hit s key now window limit).2.allowed, (Throttle.redis.hit s key now window limit).2.remaining) := by
  have hcount : (counters.incr (wholeCounters s) key now).2 = (Throttle.Redis.incr s key now window).count := by
    show ((Counters.held (wholeCounters s) key now).elim (1, none) _).1 = _
    rw [login_held]
    unfold Throttle.Redis.incr
    cases Throttle.Redis.live s key now <;> rfl
  have hstore : counters.expireNx (counters.incr (wholeCounters s) key now).1 key window now =
      wholeCounters (Function.update s key (some (Throttle.Redis.incr s key now window))) := by
    funext k
    by_cases hk : k = key
    · subst hk
      have hinc := counters_documented.incr (wholeCounters s) k now
      rw [login_held] at hinc
      show (Function.update (counters.incr (wholeCounters s) k now).1 k ((Counters.held _ k now).map _) : Counters _) k = _
      rw [Function.update_self, hinc]
      unfold wholeCounters Throttle.Redis.incr
      rw [Function.update_self]
      cases Throttle.Redis.live s k now <;> simp
    · show (Function.update (Function.update (wholeCounters s) key _) key _ : Counters _) k = _
      rw [Function.update_of_ne hk, Function.update_of_ne hk]
      simp [wholeCounters, hk]
  simp only [redis, Throttle.redis, Redis.hit, Throttle.Redis.hit, hcount, hstore]
  split <;> exact ⟨rfl, rfl⟩

theorem login_check_redis (s : Throttle.Redis) :
    ((redis counters).check (wholeCounters s) key now window limit).outcome =
      ((Throttle.redis.check s key now window limit).allowed, (Throttle.redis.check s key now window limit).remaining) := by
  have hcount : (counters.get (wholeCounters s) key now).getD 0 = Throttle.Redis.get s key now := by
    show ((Counters.held (wholeCounters s) key now).map _).getD 0 = _
    rw [login_held]
    unfold Throttle.Redis.get
    cases Throttle.Redis.live s key now <;> rfl
  simp only [redis, Throttle.redis, Redis.check, Throttle.Redis.check, hcount]
  split <;> rfl

end

end Cograph.RateLimit
