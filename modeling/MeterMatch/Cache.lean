import MeterMatch.Selector

/-! # The match cache

Judging an object by a rule is memoised under the rule's key and generation and the object's
key and generation. The cache holds at most `capacity` outcomes (at least one) and forgets the
least recently used one first: a lookup that hits and a store both make the entry the most
recent. `forgetRule` drops every outcome of a rule, whatever its generation.

Entries are kept most recent first, one per match key.
-/

namespace MeterMatch

/-- What an outcome is memoised under. -/
structure MatchKey where
  rule : ObjectKey
  ruleGeneration : Int
  object : ObjectKey
  objectGeneration : Int
  deriving DecidableEq, Inhabited

/-- A least-recently-used store of outcomes. -/
structure MatchCache where
  capacity : Nat
  /-- Most recent first, one entry per key. -/
  entries : List (MatchKey × Outcome) := []
  deriving Inhabited

namespace MatchCache

/-- An empty cache; a capacity of zero holds one entry. -/
def empty (capacity : Nat) : MatchCache := ⟨max capacity 1, []⟩

/-- The outcome stored under a key, made most recent. -/
def get? (c : MatchCache) (k : MatchKey) : Option Outcome × MatchCache :=
  match c.entries.find? (·.1 == k) with
  | some (_, o) => (some o, { c with entries := (k, o) :: c.entries.filter (·.1 != k) })
  | none => (none, c)

/-- Stores an outcome as the most recent, forgetting the least recent entry when full. -/
def insert (c : MatchCache) (k : MatchKey) (o : Outcome) : MatchCache :=
  { c with entries := ((k, o) :: c.entries.filter (·.1 != k)).take c.capacity }

/-- Drops every outcome of a rule, giving how many there were. -/
def forgetRule (c : MatchCache) (rule : ObjectKey) : Nat × MatchCache :=
  let kept := c.entries.filter (·.1.rule != rule)
  (c.entries.length - kept.length, { c with entries := kept })

/-- The number of stored outcomes. -/
def size (c : MatchCache) : Nat := c.entries.length

/-- Drops everything. -/
def clear (c : MatchCache) : MatchCache := { c with entries := [] }

end MatchCache

end MeterMatch
