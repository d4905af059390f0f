import MeterMatch.Engine.Registry
import MeterMatch.Association

/-! # Tracking objects

The engine tracks an object while at least one rule meters it: the association table holds,
per object key, the object as last matched and its matching rules, indexed by rule. Every
change to the table is also queued on the association change queue (`Policy.cancelUnseen`).

* `Engine.apply` matches an object and writes the outcome: no rules drops the association,
  the same rules and object change nothing, anything else stores and queues the new
  association. An object that a rule cannot judge is dropped, and the error returned.
* `Engine.update` skips an object whose tracked generation is unchanged.
* `Engine.rematchAll` re-applies every tracked object and counts the changes.
* `Engine.replace` makes the tracked objects those of a listing.

The engine also carries the clock, in milliseconds, that rule writes are limited by.
-/

namespace MeterMatch

/-- What a write did to the tracked objects. -/
inductive IndexChange where
  | added
  | updated
  | removed
  | unchanged
  | untracked
  deriving DecidableEq, Inhabited

namespace IndexChange

/-- The change's name. -/
def name : IndexChange → String
  | added => "Added"
  | updated => "Updated"
  | removed => "Removed"
  | unchanged => "Unchanged"
  | untracked => "Untracked"

/-- The change's kind, by name. -/
def ofName? : String → Option IndexChange
  | "Added" => some added
  | "Updated" => some updated
  | "Removed" => some removed
  | "Unchanged" => some unchanged
  | "Untracked" => some untracked
  | _ => none

/-- Whether the table changed. -/
def isChange : IndexChange → Bool
  | added | updated | removed => true
  | unchanged | untracked => false

end IndexChange

/-- The rules, the tracked objects and the clock. -/
structure Engine where
  registry : Registry
  /-- Associations by object key, indexed by rule. -/
  tracked : Indexed Association := { indexOf := Association.rules }
  /-- Changes to the associations. -/
  feed : ChangeQueue Association := ChangeQueue.empty "associations"
  /-- Milliseconds since start. -/
  clock : Nat := 0
  /-- How long the coordinator waits after a failed rule change. -/
  retryBackoffMs : Nat := 500

namespace Engine

/-- An engine with no rules and no tracked objects. -/
def create (registry : Registry) (retryBackoffMs : Nat) : Engine := { registry, retryBackoffMs }

/-- Lets time pass. -/
def advance (e : Engine) (ms : Nat) : Engine := { e with clock := e.clock + ms }

/-- Submits a rule write now. -/
def submit (e : Engine) (kind : DeltaKind) (d : Definition) : Except EngineError Admission × Engine :=
  let (result, registry) := e.registry.submit kind d e.clock
  (result, { e with registry })

/-- Deletes a rule. -/
def deleteRule (e : Engine) (d : Definition) : Except EngineError Unit × Engine :=
  let (result, registry) := e.registry.delete d
  (result, { e with registry })

/-- Reconciles the rules with a listing now. -/
def resyncRules (e : Engine) (listing : List Definition) :
    Except EngineError ResyncReport × Engine :=
  let (result, registry) := e.registry.resync listing e.clock
  (result, { e with registry })

/-- The rules that meter an object. -/
def findMatches (e : Engine) (o : CandidateObject) (skip : Bool) :
    Except EngineError (List Rule) × Engine :=
  let (result, registry) := e.registry.findMatches o skip
  (result, { e with registry })

/-- Stops tracking a key: queues the delete of its association and drops it. -/
def untrack (e : Engine) (key : ObjectKey) : Except EngineError IndexChange × Engine :=
  match e.tracked.get? key with
  | none => (.ok .untracked, e)
  | some existing =>
    match e.feed.push ⟨.deleted, key, existing⟩ with
    | .error err => (.error (.queue err), e)
    | .ok feed =>
      match e.tracked.remove key with
      | (.error f, tracked) => (.error (.invariant f), { e with feed, tracked })
      | (.ok _, tracked) => (.ok .removed, { e with feed, tracked })

/-- Writes an association of an object (whose key is `key`) with its matching rules. -/
def record (e : Engine) (key : ObjectKey) (o : CandidateObject) (rules : List ObjectKey) :
    Except EngineError IndexChange × Engine :=
  let previous := e.tracked.get? key
  if previous.any (fun p => p.rules == rules && p.object == o) then (.ok .unchanged, e)
  else
    let association := Association.make key o rules
    let (kind, change) : DeltaKind × IndexChange :=
      if previous.isSome then (.updated, .updated) else (.added, .added)
    match e.feed.push ⟨kind, key, association⟩ with
    | .error err => (.error (.queue err), e)
    | .ok feed =>
      match e.tracked.upsert key association with
      | (.error f, tracked) => (.error (.invariant f), { e with feed, tracked })
      | (.ok _, tracked) => (.ok change, { e with feed, tracked })

/-- Matches an object and writes the outcome, through the cache unless `skip`. -/
def apply (e : Engine) (o : CandidateObject) (skip : Bool) : Except EngineError IndexChange × Engine :=
  match o.key with
  | .error err => (.error (.key err), e)
  | .ok key =>
    let (found, e) := e.findMatches o skip
    match found with
    | .error err =>
      if e.tracked.contains key then
        match e.untrack key with
        | (.error err', e) => (.error err', e)
        | (.ok _, e) => (.error err, e)
      else (.error err, e)
    | .ok [] => e.untrack key
    | .ok rules => e.record key o (rules.map (·.key))

/-- Tracks a new or changed object. -/
def add (e : Engine) (o : CandidateObject) : Except EngineError IndexChange × Engine :=
  e.apply o false

/-- Tracks a changed object; one whose tracked generation is the same is left alone. -/
def update (e : Engine) (o : CandidateObject) : Except EngineError IndexChange × Engine :=
  match o.key with
  | .error err => (.error (.key err), e)
  | .ok key =>
    if (e.tracked.get? key).any (·.generation == o.generation) then (.ok .unchanged, e)
    else e.apply o false

/-- Stops tracking a deleted object. -/
def delete (e : Engine) (o : CandidateObject) : Except EngineError IndexChange × Engine :=
  match o.key with
  | .error err => (.error (.key err), e)
  | .ok key => e.untrack key

/-- Re-applies the tracked object of a key. -/
def rematch (e : Engine) (key : ObjectKey) (skip : Bool) : Except EngineError IndexChange × Engine :=
  match e.tracked.get? key with
  | some existing => e.apply existing.object skip
  | none => (.ok .untracked, e)

/-- Re-applies the given objects in order, counting changes and keeping the first error. -/
def reapply (skip : Bool) :
    List CandidateObject → Engine → Nat → Option EngineError → Nat × Option EngineError × Engine
  | [], e, changed, firstError => (changed, firstError, e)
  | o :: rest, e, changed, firstError =>
    match e.apply o skip with
    | (.ok change, e) => reapply skip rest e (if change.isChange then changed + 1 else changed) firstError
    | (.error err, e) => reapply skip rest e changed (firstError.orElse fun _ => some err)

/-- Re-applies every tracked object, in table order; gives the number of changes, or the
first error once all were tried. -/
def rematchAll (e : Engine) (skip : Bool) : Except EngineError Nat × Engine :=
  match reapply skip (e.tracked.list.map (·.object)) e 0 none with
  | (_, some err, e) => (.error err, e)
  | (changed, none, e) => (.ok changed, e)

/-- Re-applies every tracked object with fresh outcomes. -/
def resync (e : Engine) : Except EngineError Nat × Engine := e.rematchAll true

/-- Stops tracking each of the keys that the listing lacks, keeping the first error. -/
def dropUnlisted (listed : List ObjectKey) :
    List ObjectKey → Engine → Option EngineError → Option EngineError × Engine
  | [], e, firstError => (firstError, e)
  | key :: rest, e, firstError =>
    if listed.contains key then dropUnlisted listed rest e firstError
    else
      match e.untrack key with
      | (.ok _, e) => dropUnlisted listed rest e firstError
      | (.error err, e) => dropUnlisted listed rest e (firstError.orElse fun _ => some err)

/-- Makes the tracked objects those of a listing: objects without a key are skipped (an
error), tracked keys not listed are dropped, each listed object is applied with fresh
outcomes, and the association queue is marked populated. Gives the number tracked, or the
first error once all were tried. -/
def replace (e : Engine) (listing : List CandidateObject) : Except EngineError Nat × Engine :=
  let keyed := listing.filterMap fun o => (o.key.toOption).map (·, o)
  let keyFault := listing.findSome? fun o => match o.key with
    | .error err => some (EngineError.key err)
    | .ok _ => none
  let (firstError, e) := dropUnlisted (keyed.map (·.1)) e.tracked.keys e keyFault
  let (_, firstError, e) := reapply true (keyed.map (·.2)) e 0 firstError
  let e := { e with feed := e.feed.markPopulated }
  match firstError with
  | some err => (.error err, e)
  | none => (.ok e.tracked.size, e)

/-- The associations of a rule, ordered by object key. -/
def byIndex (e : Engine) (rule : ObjectKey) : Except EngineError (List Association) :=
  (e.tracked.byIndex rule).mapError .invariant

/-- The rules that meter at least one tracked object, ascending. -/
def indexedRules (e : Engine) : List ObjectKey := e.tracked.indexValues

/-- The association of a key. -/
def association? (e : Engine) (key : ObjectKey) : Option Association := e.tracked.get? key

end Engine

end MeterMatch
