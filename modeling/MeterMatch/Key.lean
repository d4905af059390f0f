/-! # Object keys

An object is named by its key: a name, and a namespace unless the object is cluster-scoped.
The written form is `ns/name`, or the bare name for a cluster-scoped key.

* `ObjectKey.parse?` reads the written form back: one non-empty part, or two non-empty parts
  around a single slash.
* `ObjectKey.display` writes it.
* Keys are ordered by namespace first (a missing namespace before any other), then by name,
  both by code point, which is the byte order of their UTF-8 text.
-/

namespace MeterMatch

/-- Why no key could be had for an object or a written key. -/
inductive KeyError where
  /-- The object's name is blank. -/
  | emptyName
  /-- The text is not of the form `name` or `ns/name`. -/
  | malformed (raw : String)
  deriving DecidableEq, Inhabited

namespace KeyError

/-- The error's text. -/
def message : KeyError → String
  | emptyName => "key derivation error: metadata.name must not be empty"
  | malformed raw => "key derivation error: '" ++ raw ++ "' is not a valid namespace/name key"

end KeyError

/-- The name of an object: its namespace, if it has one, and its name. -/
structure ObjectKey where
  ns : Option String
  name : String
  deriving DecidableEq, Hashable, Inhabited

namespace ObjectKey

/-- The key of a namespaced object. -/
def inNamespace (ns name : String) : ObjectKey := ⟨some ns, name⟩

/-- The key of a cluster-scoped object. -/
def cluster (name : String) : ObjectKey := ⟨none, name⟩

/-- `ns/name`, or the bare name of a cluster-scoped key. -/
def display : ObjectKey → String
  | ⟨some ns, name⟩ => ns ++ "/" ++ name
  | ⟨none, name⟩ => name

instance : ToString ObjectKey := ⟨display⟩

/-- Reads `name` or `ns/name`, each part non-empty, with at most one slash. -/
def parse? (raw : String) : Option ObjectKey :=
  match (raw.toList.splitOn '/').map String.ofList with
  | [name] => if name.isEmpty then none else some (cluster name)
  | [ns, name] => if ns.isEmpty || name.isEmpty then none else some (inNamespace ns name)
  | _ => none

/-- Parses a written key, failing with the text that could not be read. -/
def parse (raw : String) : Except KeyError ObjectKey :=
  match parse? raw with
  | some key => .ok key
  | none => .error (.malformed raw)

/-- Namespace first, a missing namespace before any present one, then the name. -/
def compare (a b : ObjectKey) : Ordering :=
  match a.ns, b.ns with
  | none, some _ => .lt
  | some _, none => .gt
  | none, none => Ord.compare a.name b.name
  | some x, some y => (Ord.compare x y).then (Ord.compare a.name b.name)

instance : Ord ObjectKey := ⟨compare⟩

/-- `a` sorts no later than `b`. -/
def le (a b : ObjectKey) : Bool := compare a b != .gt

/-- Sorts keys ascending, keeping equal keys in their given order. -/
def sort (keys : List ObjectKey) : List ObjectKey := keys.mergeSort le

end ObjectKey

end MeterMatch
