import Mathlib.Data.Rat.Floor
import Mathlib.Logic.Function.Basic

/-!
# Rate limiters

The two limiters of `core/rate_limit.py` over any keys. Times are seconds since
some start, one for each call. The Redis server is a parameter: its commands,
and what is known of them.
-/

namespace Cograph.RateLimit

structure RateLimitResult where
  allowed : Bool
  remaining : Nat
  retryAfterSeconds : Nat
  deriving DecidableEq, Repr

/-- The protocol `RateLimiter` over a store `σ`; a call takes the key, the time,
the window and the limit. -/
structure RateLimiter (κ σ : Type) where
  empty : σ
  hit : σ → κ → ℚ → Nat → Nat → σ × RateLimitResult
  check : σ → κ → ℚ → Nat → Nat → RateLimitResult

/-! ## Redis -/

/-- The commands, each at a time. `INCR` and `EXPIRE NX` run in one transaction
and have the same. -/
structure Redis (κ σ : Type) where
  empty : σ
  incr : σ → κ → ℚ → σ × Nat
  expireNx : σ → κ → Nat → ℚ → σ
  get : σ → κ → ℚ → Option Nat
  ttl : σ → κ → ℚ → Int

/-- What the commands are documented to do: `held` is the counter under a key
and the time it expires at, if any; from then on the key is gone. -/
structure Redis.Documented {κ σ : Type} (R : Redis κ σ) (held : σ → κ → ℚ → Option (Nat × Option ℚ)) : Prop where
  empty : ∀ key now, held R.empty key now = none
  later : ∀ s key now now', now ≤ now' → held s key now' = (held s key now).filter fun h => h.2.all (now' < ·)
  get : ∀ s key now, R.get s key now = (held s key now).map (·.1)
  incr : ∀ s key now, held (R.incr s key now).1 key now =
    some ((held s key now).elim (1, none) fun h => (h.1 + 1, h.2))
  incr_reply : ∀ s key now, (R.incr s key now).2 = (held s key now).elim 1 (·.1 + 1)
  incr_other : ∀ s key key' now, key' ≠ key → held (R.incr s key now).1 key' now = held s key' now
  expire : ∀ s key seconds now, 0 < seconds → held (R.expireNx s key seconds now) key now =
    (held s key now).map fun h => (h.1, some (h.2.getD (now + seconds)))
  expire_other : ∀ s key key' seconds now, key' ≠ key → held (R.expireNx s key seconds now) key' now = held s key' now

section
variable {κ σ : Type} (R : Redis κ σ) (s : σ) (key : κ) (now : ℚ) (window limit : Nat)

def Redis.hit : σ × RateLimitResult :=
  let incremented := R.incr s key now
  let s' := R.expireNx incremented.1 key window now
  let count := incremented.2
  if count ≤ limit then (s', ⟨true, limit - count, 0⟩) else (s', ⟨false, 0, (max (R.ttl s' key now) 1).toNat⟩)

def Redis.check (_window : Nat) : RateLimitResult :=
  let count := (R.get s key now).getD 0
  if count < limit then ⟨true, limit - count, 0⟩ else ⟨false, 0, (max (R.ttl s key now) 1).toNat⟩

end

/-- `RedisRateLimiter`. -/
def redis {κ σ : Type} (R : Redis κ σ) : RateLimiter κ σ where
  empty := R.empty
  hit := R.hit
  check s key now window limit := R.check s key now limit window

/-! ## In memory -/

structure Window where
  count : Nat
  start : ℚ
  seconds : Nat
  deriving DecidableEq

/-- `_windows`, a dictionary with the default `(0, 0.0, 0)`. -/
abbrev Windows (κ : Type) := κ → Window

namespace Windows

variable {κ : Type} (s : Windows κ) (key : κ) (now : ℚ)

/-- `_current_count`: the count and the start of the active window. -/
def currentCount : Nat × ℚ :=
  let w := s key
  -- the window expired or never started
  if w.count = 0 ∨ w.seconds = 0 ∨ w.seconds ≤ now - w.start then (0, now) else (w.count, w.start)

/-- Below zero `int` rounds up, where the maximum is 1 either way. -/
def retryAfter (start : ℚ) (window : Nat) : Nat := max (⌊window - (now - start)⌋.toNat + 1) 1

def hit [DecidableEq κ] (window limit : Nat) : Windows κ × RateLimitResult :=
  let c := currentCount s key now
  let start := if c.1 = 0 then now else c.2
  let count := c.1 + 1
  let s' : Windows κ := Function.update s key ⟨count, start, window⟩
  if count ≤ limit then (s', ⟨true, limit - count, 0⟩) else (s', ⟨false, 0, retryAfter now start window⟩)

def check (window limit : Nat) : RateLimitResult :=
  let c := currentCount s key now
  if c.1 < limit then ⟨true, limit - c.1, 0⟩ else ⟨false, 0, retryAfter now c.2 window⟩

end Windows

/-- `InMemoryRateLimiter`. -/
def inMemory {κ : Type} [DecidableEq κ] : RateLimiter κ (Windows κ) where
  empty _ := ⟨0, 0, 0⟩
  hit s key now := Windows.hit s key now
  check := Windows.check

/-! ## Traces -/

inductive Kind where
  | hit
  | check
  deriving DecidableEq, Repr

structure Call (κ : Type) where
  kind : Kind
  key : κ
  now : ℚ
  deriving DecidableEq

section
variable {κ σ : Type} (L : RateLimiter κ σ) (window limit : κ → Nat)

def call (s : σ) (c : Call κ) : σ × RateLimitResult :=
  match c.kind with
  | .hit => L.hit s c.key c.now (window c.key) (limit c.key)
  | .check => (s, L.check s c.key c.now (window c.key) (limit c.key))

/-- The store after the calls. -/
def after (s : σ) (calls : List (Call κ)) : σ := calls.foldl (fun s c => (call L window limit s c).1) s

/-- What the calls answer. -/
def answers : σ → List (Call κ) → List RateLimitResult
  | _, [] => []
  | s, c :: calls =>
    let r := call L window limit s c
    r.2 :: answers r.1 calls

/-- The hits of a key, with their times and whether they were allowed. -/
def hits [DecidableEq κ] (key : κ) (calls : List (Call κ)) (results : List RateLimitResult) : List (ℚ × Bool) :=
  ((calls.zip results).filter fun p => p.1.kind = .hit ∧ p.1.key = key).map fun p => (p.1.now, p.2.allowed)

end

/-- Hits cut into fixed windows: a window starts with the first hit that is in
none before it. -/
def fixedWindows {β : Type} (window : ℚ) : List (ℚ × β) → List (List (ℚ × β))
  | [] => []
  | h :: hs =>
    (h :: hs.takeWhile (·.1 < h.1 + window)) :: fixedWindows window (hs.dropWhile (·.1 < h.1 + window))
  termination_by hs => hs.length
  decreasing_by exact Nat.lt_succ_of_le ((List.dropWhile_suffix _).length_le)

end Cograph.RateLimit
