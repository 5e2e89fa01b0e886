import Cograph.Machine
import Mathlib.Data.Finset.Card
import Mathlib.Logic.Function.Basic

/-!
# Login throttling

The two limiters of `core/rate_limit.py` and the login requests of
`api/auth.py` for one email, from the per-address counter to the answer. A
limiter call is one action, the verification of the password another, and
between them other requests act. Times are whole seconds.
-/

namespace Cograph.Throttle

/-! ## Rate limiters -/

/-- The counters of `login`. -/
inductive Key where
  | ip (client : String)
  | email (email : String)
  deriving DecidableEq, Repr

structure RateLimitResult where
  allowed : Bool
  remaining : Nat
  retryAfterSeconds : Nat
  deriving DecidableEq, Repr

/-- The protocol `RateLimiter` over a store `κ`, whose calls take the time, the
window and the limit. `count` is the counter that a call reads. -/
structure RateLimiter (κ : Type) where
  empty : κ
  count : κ → Key → Nat → Nat
  hit : κ → Key → Nat → Nat → Nat → κ × RateLimitResult
  check : κ → Key → Nat → Nat → Nat → RateLimitResult

/-! ## Redis -/

structure Counter where
  count : Nat
  expiresAt : Nat
  deriving DecidableEq, Repr

abbrev Redis := Key → Option Counter

namespace Redis

variable (s : Redis) (key : Key) (now : Nat)

/-- The counter under the key, which Redis drops when it expires. -/
def live : Option Counter := (s key).filter (now < ·.expiresAt)

def get : Nat := (live s key now).elim 0 (·.count)

def ttl : Nat := (live s key now).elim 0 (·.expiresAt - now)

/-- `INCR` and `EXPIRE NX` in one transaction. -/
def incr (window : Nat) : Counter :=
  (live s key now).elim ⟨1, now + window⟩ fun c => { c with count := c.count + 1 }

def hit (window limit : Nat) : Redis × RateLimitResult :=
  let c := incr s key now window
  let s' : Redis := Function.update s key (some c)
  if c.count ≤ limit then (s', ⟨true, limit - c.count, 0⟩) else (s', ⟨false, 0, max (ttl s' key now) 1⟩)

def check (_window limit : Nat) : RateLimitResult :=
  let count := get s key now
  if count < limit then ⟨true, limit - count, 0⟩ else ⟨false, 0, max (ttl s key now) 1⟩

end Redis

/-- `RedisRateLimiter`. -/
def redis : RateLimiter Redis where
  empty _ := none
  count := Redis.get
  hit := Redis.hit
  check := Redis.check

/-! ## In memory -/

structure Window where
  count : Nat
  start : Nat
  seconds : Nat
  deriving DecidableEq, Repr

abbrev Windows := Key → Window

namespace Windows

variable (s : Windows) (key : Key) (now : Nat)

/-- `_current_count`: the count and the start of the active window. -/
def currentCount : Nat × Nat :=
  let w := s key
  -- the window expired or never started
  if w.count = 0 ∨ w.seconds = 0 ∨ w.seconds ≤ now - w.start then (0, now) else (w.count, w.start)

def retryAfter (start window : Nat) : Nat := max (window - (now - start) + 1) 1

def hit (window limit : Nat) : Windows × RateLimitResult :=
  let c := currentCount s key now
  let start := if c.1 = 0 then now else c.2
  let count := c.1 + 1
  let s' : Windows := Function.update s key ⟨count, start, window⟩
  if count ≤ limit then (s', ⟨true, limit - count, 0⟩) else (s', ⟨false, 0, retryAfter now start window⟩)

def check (window limit : Nat) : RateLimitResult :=
  let c := currentCount s key now
  if c.1 < limit then ⟨true, limit - c.1, 0⟩ else ⟨false, 0, retryAfter now c.2 window⟩

end Windows

/-- `InMemoryRateLimiter`. -/
def inMemory : RateLimiter Windows where
  empty _ := ⟨0, 0, 0⟩
  count s key now := (Windows.currentCount s key now).1
  hit := Windows.hit
  check := Windows.check

/-! ## Login -/

def windowSeconds : Nat := 900
def ipLimit : Nat := 20
def emailLimit : Nat := 5

inductive Response where
  | rateLimited (retryAfterSeconds : Nat)
  | unauthenticated (message : String)
  | ok
  deriving DecidableEq, Repr

/-- Where a request stands. -/
inductive Phase where
  | idle
  | arrived (client : String)
  | counted
  | admitted
  | failed
  | answered (response : Response)
  deriving DecidableEq, Repr

/-- `pending` holds the requests whose verification failed and is not counted
yet, `window` those whose failed verification was carried out or counted in the
current window of the email's counter. -/
structure St (κ : Type) where
  limiter : κ
  now : Nat
  requests : Nat → Phase
  pending : Finset Nat
  window : Finset Nat

/-- The verification of the password finds the credentials valid or not, and
the user active or not. -/
inductive Action where
  | tick (now : Nat)
  | arrive (request : Nat) (client : String)
  | hitIp (request : Nat)
  | checkEmail (request : Nat)
  | verify (request : Nat) (valid active : Bool)
  | hitEmail (request : Nat)
  deriving DecidableEq, Repr

section
variable {κ : Type} (L : RateLimiter κ) (email : String)

def St.init : St κ := ⟨L.empty, 0, fun _ => .idle, ∅, ∅⟩

/-- The failures in the email's current window, as the limiter counts them. -/
def St.failures (s : St κ) : Nat := L.count s.limiter (.email email) s.now

def St.goto (s : St κ) (r : Nat) (p : Phase) : St κ := { s with requests := Function.update s.requests r p }

def hitIp (s : St κ) (r : Nat) (client : String) : St κ :=
  let h := L.hit s.limiter (.ip client) s.now windowSeconds ipLimit
  let s' := { s with limiter := h.1 }
  s'.goto r (if h.2.allowed then .counted else .answered (.rateLimited h.2.retryAfterSeconds))

def checkEmail (s : St κ) (r : Nat) : St κ :=
  let c := L.check s.limiter (.email email) s.now windowSeconds emailLimit
  s.goto r (if c.allowed then .admitted else .answered (.rateLimited c.retryAfterSeconds))

def verify (s : St κ) (r : Nat) (valid active : Bool) : St κ :=
  if valid = false then
    { s.goto r .failed with
      pending := insert r s.pending
      window := if s.failures L email = 0 then s.window else insert r s.window }
  else if active = false then s.goto r (.answered (.unauthenticated "Account is disabled"))
  else s.goto r (.answered .ok)

def hitEmail (s : St κ) (r : Nat) : St κ :=
  let h := L.hit s.limiter (.email email) s.now windowSeconds emailLimit
  let response := if h.2.allowed then .unauthenticated "Invalid credentials" else .rateLimited h.2.retryAfterSeconds
  { s.goto r (.answered response) with
    limiter := h.1
    pending := s.pending.erase r
    window := if s.failures L email = 0 then {r} else insert r s.window }

def next (s : St κ) : Action → Option (St κ)
  | .tick now => if s.now ≤ now then some { s with now := now } else none
  | .arrive r client => if s.requests r = .idle then some (s.goto r (.arrived client)) else none
  | .hitIp r =>
    match s.requests r with
    | .arrived client => some (hitIp L s r client)
    | _ => none
  | .checkEmail r => if s.requests r = .counted then some (checkEmail L email s r) else none
  | .verify r valid active => if s.requests r = .admitted then some (verify L email s r valid active) else none
  | .hitEmail r => if s.requests r = .failed then some (hitEmail L email s r) else none

end

end Cograph.Throttle
