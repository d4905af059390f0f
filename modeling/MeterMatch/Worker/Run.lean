import MeterMatch.Worker.Options
import MeterMatch.Worker.DotEnv
import MeterMatch.Engine.Propagation
import MeterMatch.Loader
import MeterMatch.Snapshot

/-! # One run of the worker

`Worker.run` answers a command line over a file tree and an environment, in the worker's
one-shot mode:

1. a `.env` file at the root adds the variables it sets that are not set already;
2. the command line is read (help, version and usage errors answer here);
3. the engine's settings come from the environment and must be valid;
4. the rule directory, created if missing, is loaded into a fresh registry, and the changes
   are drained into the (empty) index;
5. the object snapshot replaces the tracked objects; a snapshot that cannot be read ends the
   run;
6. every association is logged, in the order its key entered the table, and the run ends;
   without `--once` the worker goes on watching instead and its run does not end by itself.

A log line is `LEVEL message field=value …`. A failure of the run is one line on the error
stream, `Error: …`, with exit status 1; a usage error exits with status 2.
-/

namespace MeterMatch

namespace Worker

/-- What a run shows: its exit status (none while it goes on running), its log, its plain
output and the first line of its error stream. -/
structure Outcome where
  exit : Option Nat
  log : List String := []
  stdout : List String := []
  stderr : Option String := none
  deriving DecidableEq, Inhabited

/-- A failed run, after the given log. -/
def Outcome.failure (log : List String) (message : String) : Outcome :=
  { exit := some 1, log, stderr := some ("Error: " ++ message) }

/-- How a path below a directory is shown: the directory as it was given, joined with the
rest of the path by `/` (none is doubled). -/
def shownBelow (dirText : String) (dir p : Path) : String :=
  match p.drop dir.length with
  | [] => dirText
  | rest => (if dirText.endsWith "/" || dirText.isEmpty then dirText else dirText ++ "/") ++ Path.text rest

/-- The log line after loading the rule directory. -/
def loadedLine (registry : Registry) : Except EngineError ResyncReport → String
  | .ok report =>
    "INFO definitions loaded rules=" ++ toString registry.size ++ " report=" ++ report.debugText
  | .error e =>
    "WARN some definitions were not admitted rules=" ++ toString registry.size ++ " error=" ++ e.message

/-- The log line after indexing the snapshot. -/
def indexedLine (engine : Engine) : Except EngineError Nat → String
  | .ok n => "INFO objects indexed tracked=" ++ toString n
  | .error e =>
    "WARN some objects were not indexed tracked=" ++ toString engine.tracked.size ++ " error=" ++ e.message

/-- The log line of one association: the object and its rules, quoted. -/
def associationLine (a : Association) : String :=
  "INFO association object=" ++ a.key.display ++ " rules=[" ++
    ", ".intercalate (a.rules.map fun r => Text.debugQuoted r.display) ++ "]"

/-- Loads the rules and the objects and logs the associations. -/
def session (files : FileTree) (env : Env) (o : Options) : Outcome :=
  let config := EngineConfig.fromEnv env
  match config.validate with
  | .error e => Outcome.failure [] e.message
  | .ok () =>
    let rulesDir := Path.ofText o.rulesDir
    let objectsDir := Path.ofText o.objectsDir
    let files := if files.exists_ rulesDir then files else (files.makeDirs rulesDir).getD files
    let registry := Registry.create .selector config.capacity config.refillMs config.cacheCapacity
    let (synced, _, registry) := ({ dir := rulesDir, definitions := [], distinct := List.nodup_nil } : Loader).sync files registry 0
    let loaded := loadedLine registry synced
    match (Engine.create registry config.retryBackoffMs).drain with
    | (.error e, _) => Outcome.failure [loaded] e.message
    | (.ok _, engine) =>
      match files.objects objectsDir with
      | .error p =>
        Outcome.failure [loaded]
          ("object snapshot '" ++ shownBelow o.objectsDir objectsDir p ++ "' unreadable")
      | .ok objects =>
        let (replaced, engine) := engine.replace objects
        let log := [loaded, indexedLine engine replaced]
        if o.once then { exit := some 0, log := log ++ engine.tracked.list.map associationLine }
        else { exit := none, log }

/-- The environment with the variables of the tree's `.env` file added. -/
def environment (files : FileTree) (env : Env) : Env :=
  match files.bytes? [".env"] with
  | some bytes => DotEnv.apply env bytes
  | none => env

/-- Every variable that a run may read, given its settings' profile. -/
def variableNames (profile : String) : List String :=
  [DirOption.rules.envName, DirOption.objects.envName, "METERDEF_WATCH"] ++
    EngineConfig.variableNames profile

/-- Runs the worker once over a file tree, with its arguments and environment. -/
def run (files : FileTree) (args : List String) (env : Env) : Outcome :=
  let env := environment files env
  match Invocation.parse args env with
  | .help => { exit := some 0, stdout := helpLines env }
  | .version => { exit := some 0, stdout := [versionText] }
  | .usage message => { exit := some 2, stderr := some message }
  | .run o => session files env o

end Worker

end MeterMatch
