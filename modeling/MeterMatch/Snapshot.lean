import MeterMatch.Files
import MeterMatch.Yaml.Stream
import MeterMatch.Object

/-! # Object snapshots

A snapshot directory lists the objects to meter as YAML files, any number of documents per
file. `FileTree.objects` reads every `.yml` and `.yaml` file under the directory, leaving out
hidden files and directories, in path order, and every document of each file in order.

A document is first read as a YAML value, plain scalars resolved by the YAML core schema
(`Node.resolve`), so that `0x10` is the number 16 and `yes` and `123` are a string and a
number; a null document is skipped. The value must then describe an object: a number where
text is expected is refused. In a value, null stands for an empty collection.

A directory that does not exist fails the whole listing with the directory's path, and so
does one under it that cannot be listed (the first such in path order) before any file is
read; otherwise the first file that cannot be read, parsed or decoded fails it, with its path.
-/

namespace MeterMatch

/-- The YAML files under a directory, leaving out hidden entries, within `depth` levels, or the
first directory that cannot be listed. -/
def FileTree.yamlFiles (t : FileTree) : Nat → Path → Except Path (List Path)
  | 0, _ => .ok []
  | depth + 1, d =>
    if !t.listable d then .error d
    else
      (t.children d).flatMapM fun name =>
        let p := d ++ [name]
        if p.isHidden then .ok []
        else if t.isDir p then t.yamlFiles depth p
        else if p.isYaml then .ok [p]
        else .ok []

/-- An object document with null collections read as empty ones: metadata, labels,
annotations and owner references. -/
def emptyForNull (n : Node) : Node :=
  let fill (n : Node) (field : String) (empty : Node) : Node :=
    match n with
    | .map es => .map (es.map fun (k, v) =>
        if k.keyName == some field && (v matches .null) then (k, empty) else (k, v))
    | n => n
  match fill n "metadata" (.map []) with
  | .map es => .map (es.map fun (k, v) =>
      if k.keyName == some "metadata" then
        (k, fill (fill (fill v "labels" (.map [])) "annotations" (.map [])) "ownerReferences" (.seq []))
      else (k, v))
  | n => n

/-- The objects of the documents of one file, null documents left out. -/
def objectsOfText (text : String) : Option (List CandidateObject) := do
  let docs ← (Yaml.documents text).toOption
  let values ← (docs.mapM Node.resolve).toOption
  (values.filter (!·.isNull)).mapM fun v => (CandidateObject.read (emptyForNull v)).toOption

/-- Reads the objects of a snapshot directory, or the path of the first thing that fails. -/
def FileTree.objects (t : FileTree) (dir : Path) : Except Path (List CandidateObject) :=
  if !t.isDir dir then .error dir
  else do
    let files ← t.yamlFiles (t.entries.length + 1) dir
    (Path.sort files).foldlM (fun acc p =>
      match (t.text? p).bind objectsOfText with
      | some objs => .ok (acc ++ objs)
      | none => .error p) []

end MeterMatch
