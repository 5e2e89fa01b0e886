import Cograph.Throttle

/-!
# Failed verifications in a window

Both limiters count the hits of a window. Where a verification that fails is
carried out only while the failures counted and those about to be counted leave
room, a window holds at most the limit of them.
-/

namespace Cograph.Throttle

open Machine

/-! ## What a limiter counts -/

/-- Calls with the window `w` read the count of the window, a hit adds one, and
with time the count is kept or starts over; `valid` is what such calls keep of
the store. -/
structure Counts {κ : Type} (L : RateLimiter κ) (w : Nat) (valid : κ → Prop) : Prop where
  valid_empty : valid L.empty
  valid_hit : ∀ s key now limit, valid s → valid (L.hit s key now w limit).1
  empty : ∀ key now, L.count L.empty key now = 0
  check : ∀ s key now limit, (L.check s key now w limit).allowed = decide (L.count s key now < limit)
  allowed : ∀ s key now limit, (L.hit s key now w limit).2.allowed = decide (L.count s key now + 1 ≤ limit)
  hit : ∀ s key now limit, valid s → L.count (L.hit s key now w limit).1 key now = L.count s key now + 1
  other : ∀ s key key' now now' limit, key' ≠ key → L.count (L.hit s key now w limit).1 key' now' = L.count s key' now'
  later : ∀ s key now now', now ≤ now' → L.count s key now' = L.count s key now ∨ L.count s key now' = 0

theorem redis_hit_store (s : Redis) (key : Key) (now window limit : Nat) :
    (Redis.hit s key now window limit).1 = Function.update s key (some (Redis.incr s key now window)) := by
  unfold Redis.hit
  dsimp only
  split <;> rfl

theorem redis_incr (s : Redis) (key : Key) (now window : Nat) (hw : 0 < window) :
    (Redis.incr s key now window).count = Redis.get s key now + 1 ∧ now < (Redis.incr s key now window).expiresAt := by
  unfold Redis.incr Redis.get
  cases h : Redis.live s key now with
  | none => exact ⟨rfl, Nat.lt_add_of_pos_right hw⟩
  | some c =>
    have hlive := (Option.filter_eq_some_iff.mp h).2
    exact ⟨rfl, by simpa using hlive⟩

theorem redis_counts {w : Nat} (hw : 0 < w) : Counts redis w fun _ => True where
  valid_empty := trivial
  valid_hit _ _ _ _ _ := trivial
  empty _ _ := rfl
  check s key now limit := by
    simp only [redis, Redis.check]
    split <;> simp [*]
  allowed s key now limit := by
    have hc := (redis_incr s key now w hw).1
    simp only [redis, Redis.hit, hc]
    split <;> simp [*]
  hit s key now limit _ := by
    obtain ⟨hc, hlt⟩ := redis_incr s key now w hw
    have hlive : Redis.live (Function.update s key (some (Redis.incr s key now w))) key now =
        some (Redis.incr s key now w) := by
      simp [Redis.live, Option.filter_some, hlt]
    simp only [redis, redis_hit_store]
    rw [Redis.get, hlive, Option.elim_some, hc]
  other s key key' now now' limit hne := by
    simp only [redis, redis_hit_store]
    simp [Redis.get, Redis.live, hne]
  later s key now now' hle := by
    simp only [redis, Redis.get, Redis.live]
    cases s key with
    | none => exact .inl rfl
    | some c =>
      by_cases h : now' < c.expiresAt
      · have : now < c.expiresAt := Nat.lt_of_le_of_lt hle h
        exact .inl (by simp [Option.filter_some, h, this])
      · exact .inr (by simp [Option.filter_some, h])

/-- The windows that were started have the length `w`. -/
def Windows.Even (w : Nat) (s : Windows) : Prop := ∀ key, (s key).count = 0 ∨ (s key).seconds = w

theorem inMemory_hit_store (s : Windows) (key : Key) (now w limit : Nat) :
    (Windows.hit s key now w limit).1 = Function.update s key ⟨(Windows.currentCount s key now).1 + 1,
      if (Windows.currentCount s key now).1 = 0 then now else (Windows.currentCount s key now).2, w⟩ := by
  unfold Windows.hit
  dsimp only
  split <;> rfl

theorem currentCount_live {s : Windows} {key : Key} {now : Nat} (h : (Windows.currentCount s key now).1 ≠ 0) :
    (Windows.currentCount s key now).2 = (s key).start ∧ now - (s key).start < (s key).seconds := by
  unfold Windows.currentCount at h ⊢
  dsimp only at h ⊢
  split
  · rename_i hdead
    simp [hdead] at h
  · rename_i hlive
    exact ⟨rfl, by omega⟩

theorem inMemory_counts {w : Nat} (hw : 0 < w) : Counts inMemory w (Windows.Even w) where
  valid_empty _ := .inl rfl
  valid_hit s key now limit h k := by
    simp only [inMemory, inMemory_hit_store]
    by_cases hk : k = key
    · subst hk
      exact .inr (by simp)
    · simpa [hk] using h k
  empty _ _ := rfl
  check s key now limit := by
    simp only [inMemory, Windows.check]
    split <;> simp [*]
  allowed s key now limit := by
    simp only [inMemory, Windows.hit]
    split <;> simp [*]
  hit s key now limit h := by
    simp only [inMemory, inMemory_hit_store]
    by_cases hc : (Windows.currentCount s key now).1 = 0
    · simp only [hc]
      simp [Windows.currentCount, Nat.ne_of_gt hw]
    · obtain ⟨hstart, hlt⟩ := currentCount_live hc
      have hsec : (s key).seconds = w := by
        refine (h key).resolve_left fun h0 => hc ?_
        simp [Windows.currentCount, h0]
      rw [hsec] at hlt
      simp only [hc, hstart, if_false]
      have : ¬(w = 0 ∨ w ≤ now - (s key).start) := by omega
      simp [Windows.currentCount, this]
  other s key key' now now' limit hne := by
    simp only [inMemory, inMemory_hit_store]
    simp [Windows.currentCount, hne]
  later s key now now' hle := by
    simp only [inMemory, Windows.currentCount]
    by_cases h : (s key).count = 0 ∨ (s key).seconds = 0 ∨ (s key).seconds ≤ now' - (s key).start
    · exact .inr (by simp [h])
    · have : ¬((s key).count = 0 ∨ (s key).seconds = 0 ∨ (s key).seconds ≤ now - (s key).start) := by omega
      exact .inl (by simp [h, this])

/-! ## The invariant -/

section
variable {κ : Type} (L : RateLimiter κ) (email : String)

/-- A window of the email's counter holds at most the limit of failures. -/
def Throttled (s : St κ) : Prop := s.failures L email ≠ 0 → s.window.card ≤ emailLimit

/-- A verification that fails is carried out while the failures in the window
and those that are not counted yet leave room for it. -/
def Fits (s : St κ) : Action → Prop
  | .verify _ false _ => s.failures L email + s.pending.card < emailLimit
  | _ => True

variable {L} {valid : κ → Prop}

variable (L valid) in
structure Inv (s : St κ) : Prop where
  valid : valid s.limiter
  pending : ∀ r, s.requests r = .failed → r ∈ s.pending
  room : s.failures L email + s.pending.card ≤ emailLimit
  window : s.failures L email ≠ 0 → (s.window \ s.pending).card ≤ s.failures L email

theorem inv_init (hL : Counts L windowSeconds valid) : Inv L email valid (.init L) where
  valid := hL.valid_empty
  pending := by simp [St.init]
  room := by simp [St.failures, St.init, hL.empty]
  window := by simp [St.failures, St.init, hL.empty]

variable {email}

theorem throttled_of_inv {s : St κ} (h : Inv L email valid s) : Throttled L email s := by
  intro hne
  have hsplit : s.window.card ≤ (s.window \ s.pending).card + s.pending.card := Finset.card_le_card_sdiff_add_card
  have := h.window hne
  have := h.room
  omega

/-- A step to a phase that is not a failure, which keeps the email's counter. -/
theorem inv_goto {s s' : St κ} {r : Nat} {p : Phase} (h : Inv L email valid s) (hv : valid s'.limiter)
    (hr : s'.requests = Function.update s.requests r p) (hp : p ≠ .failed) (hc : s'.failures L email = s.failures L email)
    (hpend : s'.pending = s.pending) (hw : s'.window = s.window) : Inv L email valid s' where
  valid := hv
  pending q hq := by
    rw [hpend]
    by_cases hqr : q = r
    · subst hqr
      rw [hr, Function.update_self] at hq
      exact absurd hq hp
    · rw [hr, Function.update_of_ne hqr] at hq
      exact h.pending q hq
  room := by rw [hc, hpend]; exact h.room
  window hne := by rw [hc, hpend, hw]; exact h.window (hc ▸ hne)

theorem inv_tick {s : St κ} {now : Nat} (hL : Counts L windowSeconds valid) (h : Inv L email valid s)
    (hle : s.now ≤ now) : Inv L email valid { s with now := now } := by
  have hlater := hL.later s.limiter (.email email) s.now now hle
  refine ⟨h.valid, h.pending, ?_, ?_⟩
  · have := h.room
    rcases hlater with hs | hz
    · simpa only [St.failures, hs] using this
    · simp only [St.failures, hz]
      omega
  · intro hne
    have hs : L.count s.limiter (.email email) now = s.failures L email := hlater.resolve_right hne
    simp only [St.failures, hs] at hne ⊢
    exact h.window hne

theorem inv_failed {s : St κ} {r : Nat} (h : Inv L email valid s) (hfit : s.failures L email + s.pending.card < emailLimit) :
    Inv L email valid { s.goto r .failed with
      pending := insert r s.pending
      window := if s.failures L email = 0 then s.window else insert r s.window } where
  valid := h.valid
  pending q hq := by
    by_cases hqr : q = r
    · exact Finset.mem_insert.mpr (.inl hqr)
    · exact Finset.mem_insert_of_mem (h.pending q (by simpa [St.goto, hqr] using hq))
  room := by
    have hcard : (insert r s.pending).card ≤ s.pending.card + 1 := Finset.card_insert_le ..
    show s.failures L email + (insert r s.pending).card ≤ emailLimit
    omega
  window hne := by
    have hne' : s.failures L email ≠ 0 := hne
    have hsub : (insert r s.window) \ (insert r s.pending) ⊆ s.window \ s.pending := by
      intro q hq
      simp only [Finset.mem_sdiff, Finset.mem_insert, not_or] at hq ⊢
      exact ⟨hq.1.resolve_left hq.2.1, hq.2.2⟩
    show ((if s.failures L email = 0 then s.window else insert r s.window) \ insert r s.pending).card ≤ s.failures L email
    rw [if_neg hne']
    exact Nat.le_trans (Finset.card_le_card hsub) (h.window hne')

theorem inv_counted {s : St κ} {r : Nat} (hL : Counts L windowSeconds valid) (h : Inv L email valid s)
    (hr : s.requests r = .failed) : Inv L email valid (hitEmail L email s r) := by
  have hmem := h.pending r hr
  have hc : (hitEmail L email s r).failures L email = s.failures L email + 1 :=
    hL.hit s.limiter (.email email) s.now emailLimit h.valid
  refine ⟨hL.valid_hit _ _ _ _ h.valid, ?_, ?_, ?_⟩
  · intro q hq
    by_cases hqr : q = r
    · simp [hitEmail, St.goto, hqr] at hq
    · exact Finset.mem_erase.mpr ⟨hqr, h.pending q (by simpa [hitEmail, St.goto, hqr] using hq)⟩
  · have hcard : (s.pending.erase r).card = s.pending.card - 1 := Finset.card_erase_of_mem hmem
    have hpos : 0 < s.pending.card := Finset.card_pos.mpr ⟨r, hmem⟩
    have := h.room
    rw [hc]
    show s.failures L email + 1 + (s.pending.erase r).card ≤ emailLimit
    omega
  · intro _
    rw [hc]
    show ((if s.failures L email = 0 then {r} else insert r s.window) \ s.pending.erase r).card ≤ s.failures L email + 1
    split
    · have : ({r} \ s.pending.erase r : Finset Nat).card ≤ ({r} : Finset Nat).card := Finset.card_le_card Finset.sdiff_subset
      rw [Finset.card_singleton] at this
      omega
    · rename_i hne
      have hsub : insert r s.window \ s.pending.erase r ⊆ insert r (s.window \ s.pending) := by
        intro q hq
        simp only [Finset.mem_sdiff, Finset.mem_insert, Finset.mem_erase, not_and] at hq ⊢
        by_cases hqr : q = r
        · exact .inl hqr
        · exact .inr ⟨hq.1.resolve_left hqr, hq.2 hqr⟩
      calc (insert r s.window \ s.pending.erase r).card
          ≤ (insert r (s.window \ s.pending)).card := Finset.card_le_card hsub
        _ ≤ (s.window \ s.pending).card + 1 := Finset.card_insert_le ..
        _ ≤ s.failures L email + 1 := Nat.succ_le_succ (h.window hne)

theorem inv_step (hL : Counts L windowSeconds valid) {s s' : St κ} {a : Action} (h : Inv L email valid s)
    (hok : Fits L email s a) (hn : next L email s a = some s') : Inv L email valid s' := by
  cases a with
  | tick now =>
    simp only [next] at hn
    split at hn
    · cases hn
      exact inv_tick hL h ‹_›
    · cases hn
  | arrive r client =>
    simp only [next] at hn
    split at hn
    · cases hn
      exact inv_goto h h.valid rfl (by simp) rfl rfl rfl
    · cases hn
  | hitIp r =>
    simp only [next] at hn
    split at hn
    · rename_i client hr
      cases hn
      refine inv_goto h (hL.valid_hit _ _ _ _ h.valid) rfl ?_ ?_ rfl rfl
      · split <;> simp
      · exact hL.other s.limiter (.ip client) (.email email) s.now s.now ipLimit (by simp)
    · cases hn
  | checkEmail r =>
    simp only [next] at hn
    split at hn
    · cases hn
      refine inv_goto h h.valid rfl ?_ rfl rfl rfl
      split <;> simp
    · cases hn
  | verify r valid' active =>
    simp only [next] at hn
    split at hn
    · cases hn
      unfold verify
      cases valid' with
      | false => exact inv_failed h hok
      | true =>
        cases active with
        | false => exact inv_goto h h.valid rfl (by simp) rfl rfl rfl
        | true => exact inv_goto h h.valid rfl (by simp) rfl rfl rfl
    · cases hn
  | hitEmail r =>
    simp only [next] at hn
    split at hn
    · cases hn
      exact inv_counted hL h ‹_›
    · cases hn

theorem throttled_run (hL : Counts L windowSeconds valid) {as : List Action}
    (hok : ∀ t ∈ trace (next L email) (.init L) as, Fits L email t.pre t.act) :
    ∀ t ∈ trace (next L email) (.init L) as, Throttled L email t.post := by
  have hstep : ∀ s a s', Inv L email valid s → Fits L email s a → next L email s a = some s' → Inv L email valid s' :=
    fun _ _ _ h hok hn => inv_step hL h hok hn
  intro t ht
  exact throttled_of_inv (inv_of_guarded _ hstep (inv_init email hL) hok t ht).2

end

/-! ## Both limiters -/

/-- Six requests are checked before any of their passwords is verified. -/
def burst : List Action :=
  (List.range 6).flatMap (fun r => [.arrive r "a", .hitIp r, .checkEmail r]) ++
    (List.range 6).map (.verify · false true) ++ (List.range 5).map .hitEmail

end Cograph.Throttle
