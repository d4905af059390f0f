import MeterMatch.Files
import MeterMatch.Yaml.Stream
import MeterMatch.Engine.Registry

/-! # Rule directories

Rules are kept as YAML files, one definition per file, in a directory tree. The loader reads
the tree and remembers the definition of each file by path.

* `Loader.scan` lists every file under the directory, entering no hidden directory: a hidden
  file is skipped, a file that is not `.yml` or `.yaml` is skipped, and any other file is
  loaded or fails (unreadable, not one valid definition, or a definition without a key). A
  directory that cannot be listed is passed over without a row, as if it were empty.
* `Loader.loadAll` records the loaded definitions and forgets the paths no longer listed; a
  file that failed keeps the definition it had.
* A definition re-read with a generation no newer than the recorded one keeps the recorded
  generation if its spec is unchanged and gets the next one otherwise (`Definition.bump`), in
  64-bit arithmetic that wraps.
* `Loader.sync` loads everything and reconciles a registry with the recorded definitions.
-/

namespace MeterMatch

/-- Why a definition file was not loaded. -/
inductive LoadFailure where
  /-- The file could not be read as text. -/
  | io
  /-- The text is not one YAML document describing a definition. -/
  | parse
  /-- The definition has no key. -/
  | validation (path : String) (e : KeyError)
  deriving DecidableEq, Inhabited

namespace LoadFailure

/-- The failure's kind. -/
def kind : LoadFailure → String
  | .io => "Io"
  | .parse => "Parse"
  | .validation .. => "Validation"

/-- The failure's text, for a validation failure. -/
def message? : LoadFailure → Option String
  | .validation path e => some ("Validation error: " ++ path ++ ": " ++ e.message)
  | _ => none

end LoadFailure

/-- What became of one file of the directory. -/
inductive LoadStatus where
  | loaded (rule : ObjectKey)
  | skipped (reason : String)
  | failed (why : LoadFailure)
  deriving DecidableEq, Inhabited

/-- One file and what became of it. -/
structure LoadRow where
  path : Path
  status : LoadStatus
  deriving Inhabited

/-- Reads the definition in a file, with its key: valid UTF-8, one YAML document, a definition
with a key. -/
def FileTree.definition (t : FileTree) (p : Path) : Except LoadFailure (ObjectKey × Definition) :=
  match t.text? p with
  | none => .error .io
  | some text =>
    match Yaml.single text with
    | .error _ => .error .parse
    | .ok node =>
      match Definition.read node with
      | .error _ => .error .parse
      | .ok d =>
        match d.key with
        | .error e => .error (.validation p.text e)
        | .ok key => .ok (key, d)

/-- A re-read definition against the recorded one: a generation no newer than the recorded
one becomes the recorded generation if the spec is unchanged, and the next one otherwise. The
next generation is counted in 64-bit two's complement, so the next of the largest is the
smallest. -/
def Definition.bump (previous next : Definition) : Definition :=
  if next.generation ≤ previous.generation then
    next.withGeneration (if next.spec == previous.spec then previous.generation
      else (Int64.ofInt previous.generation + 1).toInt)
  else next

/-- The definitions of a rule directory, by path. -/
@[ext] structure Loader where
  /-- The directory, below the root. -/
  dir : Path
  /-- Recorded definitions, one per path, in path order. -/
  definitions : List (Path × Definition) := []
  distinct : (definitions.map (·.1)).Nodup := by decide

instance : Inhabited Loader := ⟨{ dir := [], definitions := [], distinct := List.nodup_nil }⟩

namespace Loader

/-- The recorded definition of a path. -/
def get? (l : Loader) (p : Path) : Option Definition := (l.definitions.find? (·.1 == p)).map (·.2)

/-- The records with a path's own put last keep one record per path, in any order. -/
theorem nodup_record (ds : List (Path × Definition)) (hd : (ds.map (·.1)).Nodup) (p : Path)
    (d : Definition) :
    ((sortBy (fun a b => Path.le a.1 b.1) (ds.filter (·.1 != p) ++ [(p, d)])).map (·.1)).Nodup := by
  rw [((perm_sortBy _ _).map _).nodup_iff]
  refine nodup_map_fst_append (nodup_map_fst_filter hd _) (fun hp => ?_) d
  obtain ⟨x, hx, hxp⟩ := List.mem_map.1 hp
  exact absurd hxp (by simpa using (List.mem_filter.1 hx).2)

/-- Records the definition of a path, keeping path order. -/
def record (l : Loader) (p : Path) (d : Definition) : Loader :=
  let rest := l.definitions.filter (·.1 != p)
  { l with
    definitions := sortBy (fun a b => Path.le a.1 b.1) (rest ++ [(p, d)])
    distinct := nodup_record l.definitions l.distinct p d }

/-- Forgets the definition of a path. -/
def forget (l : Loader) (p : Path) : Loader :=
  { l with
    definitions := l.definitions.filter (·.1 != p)
    distinct := nodup_map_fst_filter l.distinct _ }

/-- The recorded definitions in path order. -/
def list (l : Loader) : List Definition := l.definitions.map (·.2)

/-- The number of recorded definitions. -/
def size (l : Loader) : Nat := l.definitions.length

/-- What becomes of one file of the directory, with its definition when it loads. -/
def visit (t : FileTree) (p : Path) : LoadRow × Option Definition :=
  if p.isHidden then (⟨p, .skipped "dotfile"⟩, none)
  else if !p.isYaml then (⟨p, .skipped "not a YAML file"⟩, none)
  else
    match t.definition p with
    | .ok (key, d) => (⟨p, .loaded key⟩, some d)
    | .error e => (⟨p, .failed e⟩, none)

/-- The files under a directory, entering no hidden directory, within `depth` levels; a
directory that cannot be listed holds none. -/
def walk (t : FileTree) : Nat → Path → List Path
  | 0, _ => []
  | depth + 1, d =>
    if !t.listable d then []
    else
      (t.children d).flatMap fun name =>
        let p := d ++ [name]
        if t.isDir p then (if p.isHidden then [] else walk t depth p) else [p]

/-- Every file of the directory and what becomes of it, in path order. -/
def scan (l : Loader) (t : FileTree) : List (LoadRow × Option Definition) :=
  let files := if t.isDir l.dir then walk t (t.entries.length + 1) l.dir else []
  (Path.sort files).map (visit t)

/-- Loads the directory: records each loaded definition (bumped against the recorded one) and
forgets every path that is no longer a loaded or failed file. -/
def loadAll (l : Loader) (t : FileTree) : List LoadRow × Loader :=
  let results := l.scan t
  let l := results.foldl (fun l (row, d) =>
    match d with
    | some d => l.record row.path ((l.get? row.path).elim d (·.bump d))
    | none => l) l
  let kept := (results.filter fun (row, _) => !(row.status matches .skipped _)).map (·.1.path)
  (results.map (·.1),
    { l with
      definitions := l.definitions.filter fun (p, _) => kept.contains p
      distinct := nodup_map_fst_filter l.distinct _ })

/-- Loads the directory and reconciles the registry with the recorded definitions at `now`. -/
def sync (l : Loader) (t : FileTree) (r : Registry) (now : Nat) :
    Except EngineError ResyncReport × Loader × Registry :=
  let (_, l) := l.loadAll t
  let (result, r) := r.resync l.list now
  (result, l, r)

end Loader

end MeterMatch
