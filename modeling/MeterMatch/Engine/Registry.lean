import MeterMatch.Engine.Error
import MeterMatch.Cache
import MeterMatch.Limiter
import MeterMatch.Text.Quoted

/-! # The rule registry

The registry holds the active rules in the order their keys were first admitted, each with
its definition and compiled predicate, together with the match cache, the write limiter and
the queue of rule changes.

* `Registry.submit` derives the key, compiles, takes a limiter token (a write without one is
  dropped as rate limited), queues the change and stores the rule in its key's place.
* `Registry.delete` queues a delete (also for an unknown key), drops the rule, its limiter
  bucket and its cached outcomes.
* `Registry.findMatches` judges an object by every rule in order, through the cache unless
  told to skip it; the first rule that cannot judge the object stops the scan.
* `Registry.resync` reconciles the rules with an authoritative listing.

The rule change queue keeps deletes (`Policy.retainDeletes`), so that a consumer never misses
the removal of a rule whose addition it has not seen yet.
-/

namespace MeterMatch

/-- How rules are compiled. -/
inductive Compiler where
  /-- Rules are compiled from their filters. -/
  | selector
  /-- Every rule compiles, and every rule answers the registry's switchable outcome. -/
  | switch
  deriving DecidableEq, Inhabited

/-- A compiled predicate. -/
inductive Predicate where
  | selector (m : Matcher)
  | switch
  deriving DecidableEq, Inhabited

/-- An active rule. -/
structure Rule where
  key : ObjectKey
  definition : Definition
  predicate : Predicate
  deriving Inhabited

namespace Rule

/-- The uid of the rule's definition. -/
def uid (r : Rule) : String := r.definition.uid

/-- The generation of the rule's definition. -/
def generation (r : Rule) : Int := r.definition.generation

/-- The rule as debug output shows it: its key, uid and generation, the rest elided. -/
def debugText (r : Rule) : String :=
  let ns := match r.key.ns with
    | some n => "Some(" ++ Text.debugQuoted n ++ ")"
    | none => "None"
  "Rule \x7b key: ObjectKey \x7b namespace: " ++ ns ++ ", name: " ++ Text.debugQuoted r.key.name ++
    " \x7d, uid: " ++ Text.debugQuoted r.uid ++ ", generation: " ++ toString r.generation ++
    ", .. \x7d"

end Rule

/-- The limiter bucket of a rule's writes: its uid, or its key when it has none. -/
def Definition.limiterId (d : Definition) (key : ObjectKey) : String :=
  if d.uid.isEmpty then key.display else d.uid

/-- Whether a rule write was taken or dropped by the limiter. -/
inductive Admission where
  | admitted
  | rateLimited
  deriving DecidableEq, Inhabited

/-- The admission's name. -/
def Admission.name : Admission → String
  | .admitted => "Admitted"
  | .rateLimited => "RateLimited"

/-- What one reconciliation changed. -/
structure ResyncReport where
  added : Nat := 0
  updated : Nat := 0
  deleted : Nat := 0
  rateLimited : Nat := 0
  failed : Nat := 0
  deriving DecidableEq, Inhabited

/-- Whether nothing changed and nothing failed. -/
def ResyncReport.isNoop (r : ResyncReport) : Bool := r == {}

/-- The report as the worker's log writes it: its name, then each count as `name: n` in
braces, `rate_limited` with an underscore. -/
def ResyncReport.debugText (r : ResyncReport) : String :=
  "ResyncReport \x7b added: " ++ toString r.added ++ ", updated: " ++ toString r.updated ++
    ", deleted: " ++ toString r.deleted ++ ", rate_limited: " ++ toString r.rateLimited ++
    ", failed: " ++ toString r.failed ++ " \x7d"

/-- The active rules with their cache, limiter and change queue. -/
structure Registry where
  compiler : Compiler := .selector
  /-- The answer of every `Predicate.switch`. -/
  switchOutcome : Outcome := .ok true
  /-- Active rules in admission order, one per key. -/
  rules : List Rule := []
  cache : MatchCache
  limiter : Limiter Binary64
  changes : ChangeQueue Definition := ChangeQueue.empty "rules" .retainDeletes

namespace Registry

/-- An empty registry with the given limiter capacity and refill interval and cache size. -/
def create (compiler : Compiler) (capacity refillMs cacheCapacity : Nat) : Registry :=
  { compiler
    cache := MatchCache.empty cacheCapacity
    limiter := Limiter.empty Binary64.tokens capacity refillMs }

/-- The rule of a key. -/
def get? (r : Registry) (key : ObjectKey) : Option Rule := r.rules.find? (·.key == key)

/-- Whether a key is registered. -/
def contains (r : Registry) (key : ObjectKey) : Bool := r.rules.any (·.key == key)

/-- The number of rules. -/
def size (r : Registry) : Nat := r.rules.length

/-- Stores a rule, in its key's place if the key is registered, else last. -/
def place (rules : List Rule) (rule : Rule) : List Rule :=
  if rules.any (·.key == rule.key) then rules.map fun r => if r.key == rule.key then rule else r
  else rules ++ [rule]

/-- Compiles a definition with the registry's compiler. -/
def compile (r : Registry) (key : ObjectKey) (d : Definition) : Except EngineError Predicate :=
  match r.compiler with
  | .selector =>
    match d.compile with
    | .ok m => .ok (.selector m)
    | .error e => .error (.compile key.display e)
  | .switch => .ok .switch

/-- Judges an object by a predicate. -/
def judge (r : Registry) (p : Predicate) (o : CandidateObject) : Outcome :=
  match p with
  | .selector m => m.evaluate o
  | .switch => r.switchOutcome

/-- Submits a rule write of the given kind at `now`. A refused token still refills and touches
the writer's bucket; a closed queue fails the write after the token is taken. -/
def submit (r : Registry) (kind : DeltaKind) (d : Definition) (now : Nat) :
    Except EngineError Admission × Registry :=
  match d.key with
  | .error e => (.error (.key e), r)
  | .ok key =>
    match r.compile key d with
    | .error e => (.error e, r)
    | .ok predicate =>
      let (allowed, limiter) := r.limiter.allow (d.limiterId key) now
      let r := { r with limiter }
      if !allowed then (.ok .rateLimited, r)
      else
        match r.changes.push ⟨kind, key, d⟩ with
        | .error e => (.error (.queue e), r)
        | .ok changes =>
          (.ok .admitted, { r with changes, rules := place r.rules ⟨key, d, predicate⟩ })

/-- Deletes a rule. The delete is queued even for an unknown key; then the rule, the limiter
bucket of its writes (of the stored definition if there is one) and its outcomes go. -/
def delete (r : Registry) (d : Definition) : Except EngineError Unit × Registry :=
  match d.key with
  | .error e => (.error (.key e), r)
  | .ok key =>
    match r.changes.push ⟨.deleted, key, d⟩ with
    | .error e => (.error (.queue e), r)
    | .ok changes =>
      let writer := match r.get? key with
        | some rule => rule.definition.limiterId key
        | none => d.limiterId key
      (.ok (), { r with
        changes
        rules := r.rules.filter (·.key != key)
        limiter := (r.limiter.forget writer).2
        cache := (r.cache.forgetRule key).2 })

/-- Judges an object (whose key is `okey`) by the given rules in order, through the cache
unless `skip`; a fresh outcome is stored either way. -/
def matchRules (r : Registry) (o : CandidateObject) (okey : ObjectKey) (skip : Bool) :
    List Rule → MatchCache → Except EngineError (List Rule) × MatchCache
  | [], cache => (.ok [], cache)
  | rule :: rest, cache =>
    let mk : MatchKey := ⟨rule.key, rule.generation, okey, o.generation⟩
    let (cached, cache) := if skip then (none, cache) else cache.get? mk
    let (outcome, cache) := match cached with
      | some hit => (hit, cache)
      | none =>
        let fresh := r.judge rule.predicate o
        (fresh, cache.insert mk fresh)
    match outcome with
    | .ok true =>
      let (more, cache) := matchRules r o okey skip rest cache
      (more.map (rule :: ·), cache)
    | .ok false => matchRules r o okey skip rest cache
    | .error reason => (.error (.evaluation rule.key.display okey.display reason), cache)

/-- The rules that meter an object, in registry order. -/
def findMatches (r : Registry) (o : CandidateObject) (skip : Bool) :
    Except EngineError (List Rule) × Registry :=
  match o.key with
  | .error e => (.error (.key e), r)
  | .ok okey =>
    let (found, cache) := r.matchRules o okey skip r.rules r.cache
    (found, { r with cache })

/-- Where a reconciliation stands: the registry, the report, the first error and the keys
listed so far. -/
structure Reconciling where
  registry : Registry
  report : ResyncReport := {}
  firstError : Option EngineError := none
  seen : List ObjectKey := []

namespace Reconciling

/-- Counts a failure, keeping the first error. -/
def fail (s : Reconciling) (e : EngineError) : Reconciling :=
  { s with
    report := { s.report with failed := s.report.failed + 1 }
    firstError := s.firstError.orElse fun _ => some e }

/-- Reconciles one listed definition: adds an unknown key, updates a key whose generation
differs, and leaves the rest alone. -/
def visit (now : Nat) (s : Reconciling) (d : Definition) : Reconciling :=
  match d.key with
  | .error e => s.fail (.key e)
  | .ok key =>
    let s := { s with seen := s.seen ++ [key] }
    let write (kind : DeltaKind) : Reconciling :=
      let (result, registry) := s.registry.submit kind d now
      let s := { s with registry }
      match result with
      | .ok .admitted =>
        if kind == .added then { s with report := { s.report with added := s.report.added + 1 } }
        else { s with report := { s.report with updated := s.report.updated + 1 } }
      | .ok .rateLimited =>
        { s with report := { s.report with rateLimited := s.report.rateLimited + 1 } }
      | .error e => s.fail e
    match s.registry.get? key with
    | none => write .added
    | some existing => if existing.generation != d.generation then write .updated else s

/-- Deletes one rule that the listing left out. -/
def prune (s : Reconciling) (rule : Rule) : Reconciling :=
  let (result, registry) := s.registry.delete rule.definition
  let s := { s with registry }
  match result with
  | .ok () => { s with report := { s.report with deleted := s.report.deleted + 1 } }
  | .error e => s.fail e

end Reconciling

/-- Reconciles the registry with a listing at `now`: each listed definition in order is
visited (a key listed twice is visited twice), every rule whose key was not listed is
deleted, in registry order, and the change queue is marked populated. Every entry is tried;
the first error is returned after the pass. -/
def resync (r : Registry) (listing : List Definition) (now : Nat) :
    Except EngineError ResyncReport × Registry :=
  let s := listing.foldl (Reconciling.visit now) { registry := r }
  let stale := s.registry.rules.filter fun rule => !s.seen.contains rule.key
  let s := stale.foldl Reconciling.prune s
  let registry := { s.registry with changes := s.registry.changes.markPopulated }
  match s.firstError with
  | some e => (.error e, registry)
  | none => (.ok s.report, registry)

end Registry

end MeterMatch
