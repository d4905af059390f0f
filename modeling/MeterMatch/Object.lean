import MeterMatch.Key
import MeterMatch.Data.TextMap
import MeterMatch.Text.Blank

/-! # Candidate objects

A candidate object is a cluster object offered for metering: its API version and kind, and its
metadata (namespace, name, uid, generation, labels, annotations and owner references).

* `ObjectMeta.key` derives the object's key: the name must not be blank, and a namespace that is
  missing or empty makes the object cluster-scoped.
* `CandidateObject.group` is the API group, the part of the API version before the first slash.
* `CandidateObject.read` reads the object from its document form; `toNode` writes it back,
  leaving out a missing namespace and empty labels, annotations and owner references.
-/

namespace MeterMatch

/-- A reference from an object to the object that owns it. -/
structure OwnerRef where
  apiVersion : String := ""
  kind : String
  name : String
  uid : String := ""
  controller : Bool := false
  deriving DecidableEq, Inhabited

/-- The metadata shared by objects and rules. -/
structure ObjectMeta where
  ns : Option String := none
  name : String := ""
  uid : String := ""
  generation : Int := 0
  labels : TextMap := {}
  annotations : TextMap := {}
  owners : List OwnerRef := []
  deriving DecidableEq, Inhabited

/-- An object offered for metering. -/
structure CandidateObject where
  apiVersion : String := ""
  kind : String := ""
  metadata : ObjectMeta
  deriving DecidableEq, Inhabited

namespace ObjectMeta

/-- The key named by the metadata: a blank name has none; an empty namespace counts as none. -/
def key (m : ObjectMeta) : Except KeyError ObjectKey :=
  if Text.isBlankText m.name then .error .emptyName
  else match m.ns with
    | some ns => if ns.isEmpty then .ok (.cluster m.name) else .ok (.inNamespace ns m.name)
    | none => .ok (.cluster m.name)

/-- Reads metadata: every field may be left out. -/
def read (n : Node) : Decode ObjectMeta := do
  let fs ← Fields.ofNode n
    ["namespace", "name", "uid", "generation", "labels", "annotations", "ownerReferences"]
  let readOwner (n : Node) : Decode OwnerRef := do
    let o ← Fields.ofNode n ["apiVersion", "kind", "name", "uid", "controller"]
    return {
      apiVersion := ← o.withDefault "apiVersion" "" Node.string
      kind := ← o.need "kind" Node.string
      name := ← o.need "name" Node.string
      uid := ← o.withDefault "uid" "" Node.string
      controller := ← o.withDefault "controller" false Node.boolean }
  return {
    ns := ← fs.maybe "namespace" Node.string
    name := ← fs.withDefault "name" "" Node.string
    uid := ← fs.withDefault "uid" "" Node.string
    generation := ← fs.withDefault "generation" 0 Node.int64
    labels := ← fs.withDefault "labels" {} TextMap.read
    annotations := ← fs.withDefault "annotations" {} TextMap.read
    owners := ← fs.withDefault "ownerReferences" [] (Node.listOf readOwner) }

/-- The document form of an owner reference. -/
def ownerNode (o : OwnerRef) : Node :=
  .record [("apiVersion", .str o.apiVersion), ("kind", .str o.kind), ("name", .str o.name),
    ("uid", .str o.uid), ("controller", .bool o.controller)]

/-- The document form: a missing namespace and empty collections are left out. -/
def toNode (m : ObjectMeta) : Node :=
  .record <|
    (match m.ns with | some ns => [("namespace", .str ns)] | none => []) ++
    [("name", .str m.name), ("uid", .str m.uid), ("generation", .int m.generation)] ++
    (if m.labels.isEmpty then [] else [("labels", m.labels.toNode)]) ++
    (if m.annotations.isEmpty then [] else [("annotations", m.annotations.toNode)]) ++
    (if m.owners.isEmpty then [] else [("ownerReferences", .seq (m.owners.map ownerNode))])

end ObjectMeta

namespace CandidateObject

/-- The object's key. -/
def key (o : CandidateObject) : Except KeyError ObjectKey := o.metadata.key

/-- The object's generation. -/
def generation (o : CandidateObject) : Int := o.metadata.generation

/-- The API group: the API version up to its first slash, or empty without one. -/
def group (o : CandidateObject) : String :=
  match o.apiVersion.splitOn "/" with
  | g :: _ :: _ => g
  | _ => ""

/-- A `v1` object of the given kind in a namespace, at generation 1. -/
def build (kind ns name : String) : CandidateObject :=
  { apiVersion := "v1", kind, metadata := { ns := some ns, name, generation := 1 } }

/-- Sets a label. -/
def withLabel (o : CandidateObject) (k v : String) : CandidateObject :=
  { o with metadata.labels := o.metadata.labels.insert k v }

/-- Sets an annotation. -/
def withAnnotation (o : CandidateObject) (k v : String) : CandidateObject :=
  { o with metadata.annotations := o.metadata.annotations.insert k v }

/-- Sets the generation. -/
def withGeneration (o : CandidateObject) (g : Int) : CandidateObject :=
  { o with metadata.generation := g }

/-- Adds an owner reference of the given kind and name. -/
def withOwner (o : CandidateObject) (kind name : String) : CandidateObject :=
  { o with metadata.owners := o.metadata.owners ++ [{ kind, name }] }

/-- Reads an object; only the metadata is required. -/
def read (n : Node) : Decode CandidateObject := do
  let fs ← Fields.ofNode n ["apiVersion", "kind", "metadata"]
  return {
    apiVersion := ← fs.withDefault "apiVersion" "" Node.string
    kind := ← fs.withDefault "kind" "" Node.string
    metadata := ← fs.need "metadata" ObjectMeta.read }

/-- The document form. -/
def toNode (o : CandidateObject) : Node :=
  .record [("apiVersion", .str o.apiVersion), ("kind", .str o.kind),
    ("metadata", o.metadata.toNode)]

end CandidateObject

end MeterMatch
