import MeterMatch.Worker.Run

/-! # The worker's command line

`main` runs the worker once over a working tree that it reads from standard input: a YAML
mapping from each file's path, relative to the working directory, to its text. The
arguments are the worker's own, and the environment gives the variables that the worker
reads (those of the profile named either in the environment or in the tree's `.env` file).

The log goes to standard output, before help and version text; the first line of the error
stream, if any, goes to standard error; the exit status is the worker's, or 2 when standard
input is not such a mapping.
-/

namespace MeterMatch

namespace Worker

/-- A working tree from a YAML mapping of relative paths to file texts. -/
def treeOfListing? (text : String) : Option FileTree := do
  let entries ← ((Yaml.single text).toOption.getD (.plain "")).entries.toOption
  entries.foldlM (fun t (k, v) => do
    let path ← k.string.toOption
    let body ← v.string.toOption
    t.write (Path.ofText path) body.toUTF8.toList) { entries := [], distinct := List.nodup_nil }

/-- All of a stream's bytes, after those already read. -/
partial def readAll (s : IO.FS.Stream) (acc : ByteArray) : IO ByteArray := do
  let chunk ← s.read 65536
  if chunk.isEmpty then return acc else readAll s (acc ++ chunk)

/-- The values of the named variables that are set. -/
def gather (names : List String) : IO Env :=
  names.filterMapM fun n => return (← IO.getEnv n).map (n, ·)

end Worker

end MeterMatch

/-- Runs the worker once over the working tree on standard input. -/
def main (args : List String) : IO UInt32 := do
  let input ← MeterMatch.Worker.readAll (← IO.getStdin) .empty
  match (String.fromUTF8? input).bind MeterMatch.Worker.treeOfListing? with
  | none =>
    IO.eprintln "error: standard input is not a mapping of paths to texts"
    return 2
  | some files =>
    let env ← MeterMatch.Worker.gather (MeterMatch.Worker.variableNames "")
    let profile := (MeterMatch.EngineConfig.fromEnv (MeterMatch.Worker.environment files env)).profile
    let env ← MeterMatch.Worker.gather (MeterMatch.Worker.variableNames profile)
    let o := MeterMatch.Worker.run files args env
    for line in o.log ++ o.stdout do IO.println line
    if let some line := o.stderr then IO.eprintln line
    return (o.exit.getD 0).toUInt32
