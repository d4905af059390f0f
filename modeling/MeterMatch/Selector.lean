import MeterMatch.Definition

/-! # Selectors

Compiling a rule checks its filters and keeps what matching needs: the group, the kind (an
empty kind counts as none) and the filters.

* `Definition.compile` refuses a rule without filters, a filter with no selector, a requirement
  with an empty key, `In`/`NotIn` without values, `Exists`/`DoesNotExist` with values, and an
  owner selector with neither kind nor name; the first fault, in filter order, is reported.
* `Matcher.evaluate` decides whether an object is metered: an object without a kind cannot be
  judged by a rule that names a kind anywhere; an object of another group is not metered;
  otherwise some filter must admit it.
* `LabelSelector.admits` is the label test on its own.
-/

namespace MeterMatch

/-- Why a rule does not compile. -/
inductive CompileError where
  | noFilters
  | noSelector (filter : Nat)
  | emptyKey (filter : Nat)
  | needsValues (filter : Nat) (op : Operator) (key : String)
  | forbidsValues (filter : Nat) (op : Operator) (key : String)
  | ownerUnset (filter : Nat)
  deriving DecidableEq, Inhabited

namespace CompileError

/-- The reason's text. -/
def message : CompileError → String
  | noFilters => "spec.resourceFilters must contain at least one filter"
  | noSelector i => at_ i "filter must set at least one selector"
  | emptyKey i => at_ i "matchExpressions key must not be empty"
  | needsValues i op key =>
    at_ i ("operator " ++ op.name ++ " on '" ++ key ++ "' requires at least one value")
  | forbidsValues i op key =>
    at_ i ("operator " ++ op.name ++ " on '" ++ key ++ "' must not carry values")
  | ownerUnset i => at_ i "owner selector needs a kind or a name"
where
  at_ (i : Nat) (s : String) : String := "resourceFilters[" ++ toString i ++ "]: " ++ s

end CompileError

/-- The outcome of judging one object: metered or not, or why it could not be judged. -/
abbrev Outcome := Except String Bool

/-- A compiled rule: what matching needs. -/
structure Matcher where
  group : Option String
  /-- The spec's kind, when it is not empty. -/
  kind : Option String
  filters : List Filter
  deriving DecidableEq, Inhabited

namespace Requirement

/-- The first fault of a requirement of filter `i`. -/
def fault? (i : Nat) (r : Requirement) : Option CompileError :=
  if r.key.isEmpty then some (.emptyKey i)
  else match r.op with
    | .isIn | .notIn => if r.values.isEmpty then some (.needsValues i r.op r.key) else none
    | .exists_ | .doesNotExist =>
      if r.values.isEmpty then none else some (.forbidsValues i r.op r.key)

/-- Whether the labels pass the requirement. -/
def admits (r : Requirement) (labels : TextMap) : Bool :=
  match r.op, labels.get? r.key with
  | .isIn, some v => r.values.contains v
  | .isIn, none => false
  | .notIn, some v => !r.values.contains v
  | .notIn, none => true
  | .exists_, v => v.isSome
  | .doesNotExist, v => v.isNone

end Requirement

namespace LabelSelector

/-- All exact labels are present with their values, and all requirements pass. -/
def admits (s : LabelSelector) (labels : TextMap) : Bool :=
  s.matchLabels.entries.all (fun (k, v) => labels.get? k == some v) &&
    s.matchExpressions.all (·.admits labels)

end LabelSelector

namespace Filter

/-- The first fault of filter `i`. -/
def fault? (i : Nat) (f : Filter) : Option CompileError :=
  if f.namespaces.isNone && f.labels.isNone && f.annotations.isNone && f.owner.isNone &&
      f.kind.isNone then some (.noSelector i)
  else
    let labelFault := match f.labels with
      | some s => s.matchExpressions.findSome? (·.fault? i)
      | none => none
    match labelFault with
    | some e => some e
    | none =>
      match f.owner with
      | some o => if o.kind.isNone && o.name.isNone then some (.ownerUnset i) else none
      | none => none

/-- Whether the filter admits the object, with the spec's kind standing in for a filter
without one. -/
def admits (f : Filter) (specKind : Option String) (o : CandidateObject) : Bool :=
  let kindOk := match f.kind.orElse fun _ => specKind with
    | some k => o.kind == k
    | none => true
  let nsOk := match f.namespaces with
    | some names => names.isEmpty || names.contains (o.metadata.ns.getD "")
    | none => true
  let labelsOk := match f.labels with
    | some s => s.admits o.metadata.labels
    | none => true
  let annotationsOk := match f.annotations with
    | some a => a.entries.all fun (k, v) => o.metadata.annotations.get? k == some v
    | none => true
  let ownerOk := match f.owner with
    | some s => o.metadata.owners.any fun r =>
        (s.kind.all (r.kind == ·)) && (s.name.all (r.name == ·))
    | none => true
  kindOk && nsOk && labelsOk && annotationsOk && ownerOk

end Filter

/-- The first fault among numbered filters. -/
def firstFault : Nat → List Filter → Option CompileError
  | _, [] => none
  | i, f :: rest => (f.fault? i).orElse fun _ => firstFault (i + 1) rest

/-- Checks a rule's filters and keeps what matching needs. -/
def Definition.compile (d : Definition) : Except CompileError Matcher :=
  if d.spec.filters.isEmpty then .error .noFilters
  else match firstFault 0 d.spec.filters with
    | some e => .error e
    | none => .ok ⟨d.spec.group, d.spec.kind.filter (!·.isEmpty), d.spec.filters⟩

namespace Matcher

/-- Whether the rule names a kind anywhere, so that a kindless object cannot be judged. -/
def needsKind (m : Matcher) : Bool := m.kind.isSome || m.filters.any (·.kind.isSome)

/-- Judges an object. -/
def evaluate (m : Matcher) (o : CandidateObject) : Outcome :=
  if m.needsKind && o.kind.isEmpty then .error "object has no kind"
  else if m.group.any (· != o.group) then .ok false
  else .ok (m.filters.any (·.admits m.kind o))

end Matcher

end MeterMatch
