import MeterMatch.Binary64

/-! # Token buckets

Rule writes are rate limited per writer (a uid) by token buckets on a clock counted in
milliseconds. A bucket starts full; it earns `elapsed / refill` tokens for the time since its
last refill, up to its capacity; a write takes one token when at least one is there.

The arithmetic of tokens is a parameter (`TokenArith`): the engine counts in binary64, as
`Binary64.tokens` does (seconds as `whole + nanos / 10⁹`, then divided).

A bucket also remembers when it was last used, so that `evictIdle` can drop buckets idle for
at least a given time. Looking at a bucket's tokens (`available`) refills it but does not
count as use.
-/

namespace MeterMatch

/-- How token counts are computed. -/
structure TokenArith (α : Type) where
  /-- A whole number of tokens. -/
  ofNat : Nat → α
  /-- The tokens earned in `elapsed` milliseconds at one token per `refill` milliseconds. -/
  earned : (elapsed refill : Nat) → α
  add : α → α → α
  sub : α → α → α
  /-- The smaller of two counts. -/
  min : α → α → α
  /-- `a ≤ b`. -/
  le : α → α → Bool

/-- Seconds of a millisecond count as binary64: whole seconds plus nanoseconds over 10⁹. -/
def Binary64.ofMillis (ms : Nat) : Binary64 :=
  (Binary64.ofNat (ms / 1000)).add
    ((Binary64.ofNat (ms % 1000 * 1000000)).div (Binary64.ofNat 1000000000))

/-- Token counts in binary64. -/
def Binary64.tokens : TokenArith Binary64 where
  ofNat := Binary64.ofNat
  earned e r := (Binary64.ofMillis e).div (Binary64.ofMillis r)
  add := Binary64.add
  sub := Binary64.sub
  min a b := if a.lt b then a else b
  le := Binary64.le

/-- One writer's bucket. -/
structure Bucket (α : Type) where
  tokens : α
  lastRefill : Nat
  lastSeen : Nat

/-- Token buckets by writer. -/
structure Limiter (α : Type) where
  arith : TokenArith α
  /-- Tokens in a full bucket, at least one. -/
  capacity : Nat
  /-- Milliseconds per earned token, never zero. -/
  refillMs : Nat
  buckets : List (String × Bucket α) := []

namespace Limiter

variable {α : Type}

/-- Empty buckets of the given capacity (zero acts as one) and refill interval (zero acts as
five seconds). -/
def empty (arith : TokenArith α) (capacity refillMs : Nat) : Limiter α :=
  { arith, capacity := max capacity 1, refillMs := if refillMs == 0 then 5000 else refillMs }

/-- A writer's bucket. -/
def bucket? (l : Limiter α) (uid : String) : Option (Bucket α) :=
  (l.buckets.find? (·.1 == uid)).map (·.2)

/-- Replaces or adds a writer's bucket. -/
def setBucket (l : Limiter α) (uid : String) (b : Bucket α) : Limiter α :=
  if l.buckets.any (·.1 == uid) then
    { l with buckets := l.buckets.map fun e => if e.1 == uid then (uid, b) else e }
  else { l with buckets := l.buckets ++ [(uid, b)] }

/-- A bucket refilled up to `now`. -/
def refill (l : Limiter α) (b : Bucket α) (now : Nat) : Bucket α :=
  let a := l.arith
  { b with
    tokens := a.min (a.add b.tokens (a.earned (now - b.lastRefill) l.refillMs)) (a.ofNat l.capacity)
    lastRefill := now }

/-- A write by `uid` at `now`: refills its bucket (full if new) and takes a token if there is
one. -/
def allow (l : Limiter α) (uid : String) (now : Nat) : Bool × Limiter α :=
  let a := l.arith
  let b := (l.bucket? uid).getD ⟨a.ofNat l.capacity, now, now⟩
  let b := { l.refill b now with lastSeen := now }
  if a.le (a.ofNat 1) b.tokens then
    (true, l.setBucket uid { b with tokens := a.sub b.tokens (a.ofNat 1) })
  else (false, l.setBucket uid b)

/-- Drops a writer's bucket, saying whether it had one. -/
def forget (l : Limiter α) (uid : String) : Bool × Limiter α :=
  (l.buckets.any (·.1 == uid), { l with buckets := l.buckets.filter (·.1 != uid) })

/-- Drops the buckets unused for at least `ttl` milliseconds, giving how many. -/
def evictIdle (l : Limiter α) (now ttl : Nat) : Nat × Limiter α :=
  let kept := l.buckets.filter fun (_, b) => now - b.lastSeen < ttl
  (l.buckets.length - kept.length, { l with buckets := kept })

/-- A writer's tokens at `now`, after refilling (which is not use). -/
def available (l : Limiter α) (uid : String) (now : Nat) : Option α × Limiter α :=
  match l.bucket? uid with
  | some b =>
    let b := l.refill b now
    (some b.tokens, l.setBucket uid b)
  | none => (none, l)

/-- The number of buckets. -/
def size (l : Limiter α) : Nat := l.buckets.length

end Limiter

end MeterMatch
