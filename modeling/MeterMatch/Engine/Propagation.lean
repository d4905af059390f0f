import MeterMatch.Engine.Tracking

/-! # Propagating rule changes

A rule change reaches the tracked objects through the coordinator, which takes the changes
off the registry's queue one at a time:

* an added or updated rule re-applies every tracked object, through the cache;
* a deleted rule re-applies the objects it metered, in key order, stopping at the first error.

A change whose definition does not derive its key is malformed. A change that fails goes
back to the queue. `Engine.drain` handles changes until the queue is empty or one fails;
`Engine.run` keeps going after a failure, waiting `retryBackoffMs` on the clock each time,
until the closed queue is empty or a deadline passes.

Handling a change never queues a rule change, so each handled change shortens the queue.
-/

namespace MeterMatch

namespace Engine

/-- Re-applies the tracked objects of the given associations in order, stopping at the first
error. -/
def cascade : List Association → Engine → Except EngineError Unit × Engine
  | [], e => (.ok (), e)
  | a :: rest, e =>
    match e.rematch a.key false with
    | (.ok _, e) => cascade rest e
    | (.error err, e) => (.error err, e)

/-- Applies one rule change to the tracked objects. -/
def handle (e : Engine) (d : Delta Definition) : Except EngineError Unit × Engine :=
  match d.payload.key with
  | .error err => (.error (.malformedDelta d.key.display err.message), e)
  | .ok payloadKey =>
    if payloadKey != d.key then
      (.error (.malformedDelta d.key.display ("payload describes '" ++ payloadKey.display ++ "'")), e)
    else
      match d.kind with
      | .added | .updated =>
        match e.rematchAll false with
        | (.ok _, e) => (.ok (), e)
        | (.error err, e) => (.error err, e)
      | .deleted =>
        match e.byIndex d.key with
        | .error err => (.error err, e)
        | .ok affected => cascade affected e

/-- Takes the next rule change and handles it: confirmed on success, handed back on failure.
Gives the change's key, or none when the queue is empty. -/
def processNext (e : Engine) : Except EngineError (Option ObjectKey) × Engine :=
  match e.registry.changes.take with
  | none => (.ok none, e)
  | some (d, changes) =>
    let (result, e) := handle { e with registry := { e.registry with changes } } d
    let changes := e.registry.changes.settle d (result matches .ok _)
    let e := { e with registry := { e.registry with changes } }
    match result with
    | .ok () => (.ok (some d.key), e)
    | .error err => (.error err, e)

/-- Handles changes until the queue is empty (at most `fuel` of them), counting them on top
of `handled`; the first failure stops. -/
def drainFrom (fuel handled : Nat) (e : Engine) : Except EngineError Nat × Engine :=
  match fuel with
  | 0 => (.ok handled, e)
  | fuel + 1 =>
    match e.processNext with
    | (.ok none, e) => (.ok handled, e)
    | (.ok (some _), e) => drainFrom fuel (handled + 1) e
    | (.error err, e) => (.error err, e)

/-- Handles changes until the queue is empty, giving how many; the first failure stops.
Each handled change leaves the queue for good, so one more round than there are pending
changes is enough. -/
def drain (e : Engine) : Except EngineError Nat × Engine :=
  drainFrom (e.registry.changes.size + 1) 0 e

/-- Retries after failures until the queue is empty or the next attempt would come after
`deadline`, with at most `attempts` more attempts; gives whether the queue was emptied. -/
def retryUntil (deadline : Nat) : Nat → Engine → Bool × Engine
  | 0, e => (false, { e with clock := max e.clock deadline })
  | attempts + 1, e =>
    match e.drain with
    | (.ok _, e) => (true, e)
    | (.error _, e) =>
      if e.clock + e.retryBackoffMs ≤ deadline then
        retryUntil deadline attempts (e.advance e.retryBackoffMs)
      else (false, { e with clock := max e.clock deadline })

/-- Handles the changes of a closed queue, retrying after each failure once `retryBackoffMs`
has passed, for `timeoutMs` at most; an attempt due exactly at the deadline still runs. Gives
whether the queue was emptied; if not, the clock stands at the deadline. -/
def run (e : Engine) (timeoutMs : Nat) : Bool × Engine :=
  let attempts := if e.retryBackoffMs == 0 then 1 else timeoutMs / e.retryBackoffMs + 1
  retryUntil (e.clock + timeoutMs) attempts e

end Engine

end MeterMatch
