import MeterMatch.Config

/-! # The worker's command line

`meterdef-worker [OPTIONS]` takes:

| option | value | environment | default |
|---|---|---|---|
| `--rules-dir` | a directory | `METERDEF_RULES_DIR` | `data/meterdefs` |
| `--objects-dir` | a directory | `METERDEF_OBJECTS_DIR` | `data/objects` |
| `--watch` | | `METERDEF_WATCH` (`true` or `false`) | off |
| `--once` | | | off |

and `-h`/`--help` and `-V`/`--version`; short flags may be grouped (`-hV`).

Arguments are read from the left, and the first fault ends the reading with a usage error:

* a directory's value is the next argument, unless that looks like a flag, or follows `=`;
  a directory given no value, or an empty one, is a fault; so is an option given twice;
* when a directory waits for its value and a known flag comes instead, the missing value is
  the fault; an unknown flag is reported before it;
* a flag that takes no value is refused one after `=`;
* any argument that is not a flag, and every argument after `--`, is unexpected.

Help and version answer as soon as they are read. The environment fills in the options not
given, in the order of the table; a set variable counts even when it is empty.
-/

namespace MeterMatch

namespace Worker

/-- What the worker was asked to do. -/
structure Options where
  rulesDir : String
  objectsDir : String
  watch : Bool
  once : Bool
  deriving DecidableEq, Inhabited

/-- How a command line reads. -/
inductive Invocation where
  | run (o : Options)
  | help
  | version
  /-- A usage error, with its message. -/
  | usage (message : String)
  deriving DecidableEq, Inhabited

/-- The program's name and version. -/
def versionText : String := "meterdef-worker 0.1.0"

/-- The help text, showing the current values of the options' variables. -/
def helpLines (env : Env) : List String :=
  let shown (name : String) := "[env: " ++ name ++ "=" ++ ((env.get? name).getD "") ++ "]"
  [ "Metering-rule matching worker",
    "",
    "Usage: meterdef-worker [OPTIONS]",
    "",
    "Options:",
    "      --rules-dir <RULES_DIR>      Directory of MeterDefinition YAML files " ++
      shown "METERDEF_RULES_DIR" ++ " [default: data/meterdefs]",
    "      --objects-dir <OBJECTS_DIR>  Directory of workload object YAML files " ++
      shown "METERDEF_OBJECTS_DIR" ++ " [default: data/objects]",
    "      --watch                      Hot-reload definition files as they change " ++
      shown "METERDEF_WATCH",
    "      --once                       Load, match, print the associations and exit",
    "  -h, --help                       Print help",
    "  -V, --version                    Print version" ]

/-- The two directory options. -/
inductive DirOption where
  | rules
  | objects
  deriving DecidableEq, Inhabited

namespace DirOption

/-- The option as usage errors show it. -/
def shown : DirOption → String
  | .rules => "--rules-dir <RULES_DIR>"
  | .objects => "--objects-dir <OBJECTS_DIR>"

/-- The environment variable that stands in for the option. -/
def envName : DirOption → String
  | .rules => "METERDEF_RULES_DIR"
  | .objects => "METERDEF_OBJECTS_DIR"

/-- The value when neither the option nor its variable is given. -/
def fallback : DirOption → String
  | .rules => "data/meterdefs"
  | .objects => "data/objects"

end DirOption

/-- What one argument is, on its own. -/
inductive Arg where
  | help
  | version
  | once
  | watch
  /-- A directory option, with the value after `=` if there is one. -/
  | dir (o : DirOption) (attached : Option String)
  /-- A flag that takes no value, given one after `=`. -/
  | unneeded (flag value : String)
  /-- A flag that is not known, as errors show it. -/
  | unknown (shown : String)
  /-- `--`: every later argument is positional. -/
  | escape
  /-- Not a flag. -/
  | value (text : String)
  deriving DecidableEq, Inhabited

/-- A long flag with its name (after `--`) and the value after `=`. -/
def Arg.ofLong (name : String) (attached : Option String) : Arg :=
  let plain (a : Arg) := match attached with
    | some v => Arg.unneeded ("--" ++ name) v
    | none => a
  match name with
  | "help" => plain .help
  | "version" => plain .version
  | "once" => plain .once
  | "watch" => plain .watch
  | "rules-dir" => .dir .rules attached
  | "objects-dir" => .dir .objects attached
  | _ => .unknown ("--" ++ name)

/-- Reads a group of short flags: the first that is known or unknown decides. -/
def Arg.ofShort : List Char → Arg
  | [] => .value "-"
  | 'h' :: _ => .help
  | 'V' :: _ => .version
  | c :: _ => .unknown ("-" ++ String.singleton c)

/-- Classifies one argument. -/
def Arg.ofText (s : String) : Arg :=
  match s.toList with
  | '-' :: '-' :: [] => .escape
  | '-' :: '-' :: rest =>
    match rest.splitOn '=' with
    | [name] => Arg.ofLong (String.ofList name) none
    | name :: more => Arg.ofLong (String.ofList name) (some (String.ofList ((more.intersperse ['=']).flatten)))
    | [] => Arg.ofLong "" none
  | '-' :: [] => .value s
  | '-' :: rest => Arg.ofShort rest
  | _ => .value s

/-- What has been read of a command line so far. -/
structure Reading where
  rulesDir : Option String := none
  objectsDir : Option String := none
  watch : Bool := false
  once : Bool := false
  /-- A directory option waiting for its value. -/
  pending : Option DirOption := none
  /-- Whether `--` has been read. -/
  escaped : Bool := false
  deriving Inhabited

namespace Reading

/-- The value of a directory option so far. -/
def dir? (r : Reading) : DirOption → Option String
  | .rules => r.rulesDir
  | .objects => r.objectsDir

/-- Sets a directory option. -/
def setDir (r : Reading) : DirOption → String → Reading
  | .rules, v => { r with rulesDir := some v }
  | .objects, v => { r with objectsDir := some v }

end Reading

/-- The usage error for an argument that is not understood. -/
def unexpected (arg : String) : Invocation := .usage ("error: unexpected argument '" ++ arg ++ "' found")

/-- The usage error for an option given twice. -/
def repeated (shown : String) : Invocation :=
  .usage ("error: the argument '" ++ shown ++ "' cannot be used multiple times")

/-- The usage error for a missing or empty value. -/
def missingValue (o : DirOption) : Invocation :=
  .usage ("error: a value is required for '" ++ o.shown ++ "' but none was supplied")

/-- The usage error for a value given to a flag that takes none. -/
def unneededValue (flag v : String) : Invocation :=
  .usage ("error: unexpected value '" ++ v ++ "' for '" ++ flag ++ "' found; no more were expected")

/-- The usage error for a variable that does not read as a switch. -/
def invalidSwitch (v : String) : Invocation := .usage ("error: invalid value '" ++ v ++ "' for '--watch'")

/-- Gives a directory option its value from the command line: a second value is a fault,
then an empty one. -/
def giveDir (r : Reading) (o : DirOption) (v : String) : Except Invocation Reading :=
  if (r.dir? o).isSome then .error (repeated o.shown)
  else if v.isEmpty then .error (missingValue o)
  else .ok (r.setDir o v)

/-- Reads one argument. -/
def Reading.step (r : Reading) (arg : String) : Except Invocation Reading :=
  if r.escaped then .error (unexpected arg)
  else
    let a := Arg.ofText arg
    match r.pending, a with
    | _, .unknown shown => .error (unexpected shown)
    | _, .unneeded flag v => .error (unneededValue flag v)
    | some o, .value v => giveDir { r with pending := none } o v
    | some o, _ => .error (missingValue o)
    | none, .value v => .error (unexpected v)
    | none, .escape => .ok { r with escaped := true }
    | none, .help => .error .help
    | none, .version => .error .version
    | none, .once => if r.once then .error (repeated "--once") else .ok { r with once := true }
    | none, .watch => if r.watch then .error (repeated "--watch") else .ok { r with watch := true }
    | none, .dir o (some v) => giveDir r o v
    | none, .dir o none => .ok { r with pending := some o }

/-- A directory option after the command line: its value, else its variable's (which may not be
empty), else its fallback. -/
def settle (env : Env) (r : Reading) (o : DirOption) : Except Invocation String :=
  match r.dir? o, env.get? o.envName with
  | some v, _ => .ok v
  | none, some v => if v.isEmpty then .error (missingValue o) else .ok v
  | none, none => .ok o.fallback

/-- The options once every argument is read: a value still missing is a fault, then the
environment fills in what was not given. -/
def Reading.finish (env : Env) (r : Reading) : Except Invocation Options := do
  if let some o := r.pending then throw (missingValue o)
  let rulesDir ← settle env r .rules
  let objectsDir ← settle env r .objects
  let watch ← if r.watch then pure true
    else match env.get? "METERDEF_WATCH" with
      | none | some "false" => pure false
      | some "true" => pure true
      | some v => throw (invalidSwitch v)
  return { rulesDir, objectsDir, watch, once := r.once }

/-- Reads a command line, with the environment for the options not given. -/
def Invocation.parse (args : List String) (env : Env) : Invocation :=
  match args.foldlM Reading.step {} >>= Reading.finish env with
  | .ok o => .run o
  | .error i => i

end Worker

end MeterMatch
