import MeterMatch.Object

/-! # Metering rules

A metering rule (a meter definition) carries metadata like any object and a spec: an optional
API group and kind, and a list of resource filters. An object is metered by the rule when it
passes any one filter (see `Selector`).

A filter combines optional selectors: namespaces, a label selector, annotations, an owner
and a kind. A label selector holds exact labels and requirements (`In`, `NotIn`, `Exists`,
`DoesNotExist` on a label key).

`Definition.read` reads the document form; absent API version and kind default to the rule
resource's own. `Definition.toNode` writes it back, leaving out absent optional parts.
-/

namespace MeterMatch

/-- How a requirement tests a label. -/
inductive Operator where
  | isIn
  | notIn
  | exists_
  | doesNotExist
  deriving DecidableEq, Inhabited

namespace Operator

/-- The operator's name. -/
def name : Operator → String
  | isIn => "In"
  | notIn => "NotIn"
  | exists_ => "Exists"
  | doesNotExist => "DoesNotExist"

/-- Reads an operator's name, spelled exactly. -/
def ofName? : String → Option Operator
  | "In" => some isIn
  | "NotIn" => some notIn
  | "Exists" => some exists_
  | "DoesNotExist" => some doesNotExist
  | _ => none

end Operator

/-- A test on one label. -/
structure Requirement where
  key : String
  op : Operator
  values : List String := []
  deriving DecidableEq, Inhabited

/-- Exact labels and requirements, all of which must hold. -/
structure LabelSelector where
  matchLabels : TextMap := {}
  matchExpressions : List Requirement := []
  deriving DecidableEq, Inhabited

/-- Who must own the object: an owner reference with this kind and/or name. -/
structure OwnerSelector where
  kind : Option String := none
  name : Option String := none
  deriving DecidableEq, Inhabited

/-- One way for an object to be metered; every selector that is set must pass. -/
structure Filter where
  namespaces : Option (List String) := none
  labels : Option LabelSelector := none
  annotations : Option TextMap := none
  owner : Option OwnerSelector := none
  kind : Option String := none
  deriving DecidableEq, Inhabited

/-- What a rule meters. -/
structure Spec where
  group : Option String := none
  kind : Option String := none
  filters : List Filter := []
  deriving DecidableEq, Inhabited

namespace Definition

/-- The API version of the rule resource. -/
def defaultApiVersion : String := "marketplace.redhat.com/v1beta1"

/-- The kind of the rule resource. -/
def defaultKind : String := "MeterDefinition"

end Definition

/-- A metering rule. -/
structure Definition where
  apiVersion : String := Definition.defaultApiVersion
  kind : String := Definition.defaultKind
  metadata : ObjectMeta
  spec : Spec
  deriving DecidableEq, Inhabited

/-! ## Reading and writing -/

namespace Requirement

/-- Reads a requirement: key and operator are required. -/
def read (n : Node) : Decode Requirement := do
  let fs ← Fields.ofNode n ["key", "operator", "values"]
  let readOp (n : Node) : Decode Operator := do
    match Operator.ofName? (← n.string) with
    | some op => pure op
    | none => throw "unknown operator"
  return {
    key := ← fs.need "key" Node.string
    op := ← fs.need "operator" readOp
    values := ← fs.withDefault "values" [] (Node.listOf Node.string) }

/-- The document form. -/
def toNode (r : Requirement) : Node :=
  .record [("key", .str r.key), ("operator", .str r.op.name), ("values", Node.strs r.values)]

end Requirement

namespace LabelSelector

/-- Reads a label selector; both parts may be left out. -/
def read (n : Node) : Decode LabelSelector := do
  let fs ← Fields.ofNode n ["matchLabels", "matchExpressions"]
  return {
    matchLabels := ← fs.withDefault "matchLabels" {} TextMap.read
    matchExpressions := ← fs.withDefault "matchExpressions" [] (Node.listOf Requirement.read) }

/-- The document form. -/
def toNode (s : LabelSelector) : Node :=
  .record [("matchLabels", s.matchLabels.toNode),
    ("matchExpressions", .seq (s.matchExpressions.map Requirement.toNode))]

end LabelSelector

namespace Filter

/-- Reads a filter; every selector may be left out or null. -/
def read (n : Node) : Decode Filter := do
  let fs ← Fields.ofNode n ["namespace", "label", "annotation", "owner", "kind"]
  let readNamespaces (n : Node) : Decode (List String) := do
    let f ← Fields.ofNode n ["names"]
    f.withDefault "names" [] (Node.listOf Node.string)
  let readLabels (n : Node) : Decode LabelSelector := do
    let f ← Fields.ofNode n ["labelSelector"]
    f.need "labelSelector" LabelSelector.read
  let readAnnotations (n : Node) : Decode TextMap := do
    let f ← Fields.ofNode n ["matchAnnotations"]
    f.withDefault "matchAnnotations" {} TextMap.read
  let readOwner (n : Node) : Decode OwnerSelector := do
    let f ← Fields.ofNode n ["kind", "name"]
    return { kind := ← f.maybe "kind" Node.string, name := ← f.maybe "name" Node.string }
  return {
    namespaces := ← fs.maybe "namespace" readNamespaces
    labels := ← fs.maybe "label" readLabels
    annotations := ← fs.maybe "annotation" readAnnotations
    owner := ← fs.maybe "owner" readOwner
    kind := ← fs.maybe "kind" Node.string }

/-- The document form; unset selectors are left out. -/
def toNode (f : Filter) : Node :=
  let ownerNode (o : OwnerSelector) : Node :=
    .record ((match o.kind with | some k => [("kind", .str k)] | none => []) ++
      (match o.name with | some k => [("name", .str k)] | none => []))
  .record <|
    (match f.namespaces with | some ns => [("namespace", .record [("names", Node.strs ns)])] | none => []) ++
    (match f.labels with
      | some s => [("label", .record [("labelSelector", s.toNode)])] | none => []) ++
    (match f.annotations with
      | some a => [("annotation", .record [("matchAnnotations", a.toNode)])] | none => []) ++
    (match f.owner with | some o => [("owner", ownerNode o)] | none => []) ++
    (match f.kind with | some k => [("kind", .str k)] | none => [])

end Filter

namespace Spec

/-- Reads a spec; every part may be left out. -/
def read (n : Node) : Decode Spec := do
  let fs ← Fields.ofNode n ["group", "kind", "resourceFilters"]
  return {
    group := ← fs.maybe "group" Node.string
    kind := ← fs.maybe "kind" Node.string
    filters := ← fs.withDefault "resourceFilters" [] (Node.listOf Filter.read) }

/-- The document form; an unset group or kind is left out. -/
def toNode (s : Spec) : Node :=
  .record <|
    (match s.group with | some g => [("group", .str g)] | none => []) ++
    (match s.kind with | some k => [("kind", .str k)] | none => []) ++
    [("resourceFilters", .seq (s.filters.map Filter.toNode))]

end Spec

namespace Definition

/-- The rule's key. -/
def key (d : Definition) : Except KeyError ObjectKey := d.metadata.key

/-- The rule's uid. -/
def uid (d : Definition) : String := d.metadata.uid

/-- The rule's generation. -/
def generation (d : Definition) : Int := d.metadata.generation

/-- A rule in a namespace with uid `uid-<name>`, generation 1 and an empty spec. -/
def build (ns name : String) : Definition :=
  { metadata := { ns := some ns, name, uid := "uid-" ++ name, generation := 1 }, spec := {} }

/-- Sets the uid. -/
def withUid (d : Definition) (uid : String) : Definition := { d with metadata.uid := uid }

/-- Sets the generation. -/
def withGeneration (d : Definition) (g : Int) : Definition := { d with metadata.generation := g }

/-- Sets the spec's kind. -/
def withKind (d : Definition) (kind : String) : Definition := { d with spec.kind := some kind }

/-- Adds a filter that requires one exact label. -/
def withLabelFilter (d : Definition) (k v : String) : Definition :=
  let f : Filter := { labels := some { matchLabels := TextMap.ofList [(k, v)] } }
  { d with spec.filters := d.spec.filters ++ [f] }

/-- Reads a rule: metadata and spec are required. -/
def read (n : Node) : Decode Definition := do
  let fs ← Fields.ofNode n ["apiVersion", "kind", "metadata", "spec"]
  return {
    apiVersion := ← fs.withDefault "apiVersion" defaultApiVersion Node.string
    kind := ← fs.withDefault "kind" defaultKind Node.string
    metadata := ← fs.need "metadata" ObjectMeta.read
    spec := ← fs.need "spec" Spec.read }

/-- The document form. -/
def toNode (d : Definition) : Node :=
  .record [("apiVersion", .str d.apiVersion), ("kind", .str d.kind),
    ("metadata", d.metadata.toNode), ("spec", d.spec.toNode)]

end Definition

end MeterMatch
