import MeterMatch.Loader

/-! # Hot reload

A watched rule directory applies each change of a YAML file as it happens:

* a file that exists is read again (`Loader.upsert`): a file that fails to read keeps the
  recorded definition; the definition is bumped against the recorded one and written to the
  registry as an update if its key is registered, else as an addition; if its key differs
  from the recorded one's, the old rule is deleted; then it is recorded. A write that the
  registry refuses keeps the recorded definition, a rate-limited one is still recorded.
* a file that is gone is forgotten (`Loader.drop`), and its rule deleted.

Only the file's own name decides whether it is hidden. `Reloader` carries a file tree, its
loader, a registry and the clock, and turns each change of the tree into these steps once
watching has started: writing a file changes that file; removing a tree removes each file in
it, in path order; renaming changes the old path and then the new one.
-/

namespace MeterMatch

namespace Loader

/-- Reads a changed file again and writes its definition to the registry at `now`. -/
def upsert (l : Loader) (t : FileTree) (r : Registry) (p : Path) (now : Nat) : Loader × Registry :=
  match t.definition p with
  | .error _ => (l, r)
  | .ok (key, parsed) =>
    let previous := l.get? p
    let d := previous.elim parsed (·.bump parsed)
    let kind := if r.contains key then DeltaKind.updated else .added
    match r.submit kind d now with
    | (.error _, r) => (l, r)
    | (.ok _, r) =>
      match previous with
      | some prev =>
        match prev.key with
        | .ok k =>
          if k == key then (l.record p d, r)
          else
            match r.delete prev with
            | (.ok (), r) => (l.record p d, r)
            | (.error _, r) => (l, r)
        | .error _ => (l, r)
      | none => (l.record p d, r)

/-- Forgets a file that is gone and deletes its rule. -/
def drop (l : Loader) (r : Registry) (p : Path) : Loader × Registry :=
  match l.get? p with
  | some d => (l.forget p, (r.delete d).2)
  | none => (l, r)

/-- Applies a change of a path: YAML files that are not hidden are read again if they exist
and forgotten if not; other paths are ignored. -/
def onChange (l : Loader) (t : FileTree) (r : Registry) (p : Path) (now : Nat) : Loader × Registry :=
  if !p.isYaml || p.isHidden then (l, r)
  else if t.exists_ p then l.upsert t r p now
  else l.drop r p

end Loader

/-- A rule directory with its loader, a registry and the clock, watched or not. -/
structure Reloader where
  files : FileTree
  loader : Loader
  registry : Registry
  clock : Nat := 0
  watching : Bool := false

namespace Reloader

/-- A loader on a directory of the tree, which is created if missing. -/
def create (files : FileTree) (dir : Path) (registry : Registry) : Reloader :=
  { files := (files.makeDirs dir).getD files, loader := { dir, definitions := [], distinct := List.nodup_nil }, registry }

/-- Applies the changes of the given paths, in order, when watching. -/
def changed (s : Reloader) (paths : List Path) : Reloader :=
  if !s.watching then s
  else
    paths.foldl (fun s p =>
      if !p.isUnder s.loader.dir then s
      else
        let (loader, registry) := s.loader.onChange s.files s.registry p s.clock
        { s with loader, registry }) s

/-- Writes a file. -/
def write (s : Reloader) (p : Path) (bytes : List UInt8) : Reloader :=
  match s.files.write p bytes with
  | some files => { s with files }.changed [p]
  | none => s

/-- Removes a file or a directory tree, saying whether anything was there. -/
def remove (s : Reloader) (p : Path) : Bool × Reloader :=
  match s.files.remove p with
  | some files => (true, { s with files }.changed (s.files.filesUnder p ++ [p]))
  | none => (false, s)

/-- Creates a directory and its ancestors, saying whether that worked. -/
def mkdir (s : Reloader) (p : Path) : Bool × Reloader :=
  match s.files.makeDirs p with
  | some files => (true, { s with files })
  | none => (false, s)

/-- Renames a file or a directory, saying whether that worked. -/
def rename (s : Reloader) (src dst : Path) : Bool × Reloader :=
  match s.files.rename src dst with
  | some files => (true, { s with files }.changed [src, dst])
  | none => (false, s)

/-- Starts watching. -/
def watch (s : Reloader) : Reloader := { s with watching := true }

/-- Loads the directory. -/
def loadAll (s : Reloader) : List LoadRow × Reloader :=
  let (rows, loader) := s.loader.loadAll s.files
  (rows, { s with loader })

/-- Loads the directory and reconciles the registry with it. -/
def sync (s : Reloader) : Except EngineError ResyncReport × Reloader :=
  let (result, loader, registry) := s.loader.sync s.files s.registry s.clock
  (result, { s with loader, registry })

end Reloader

end MeterMatch
