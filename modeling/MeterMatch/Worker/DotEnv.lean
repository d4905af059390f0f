import MeterMatch.Config
import MeterMatch.Text.Blank

/-! # Environment files

A `.env` file sets environment variables that are not set already, one `KEY=value` per line:

* blank lines and lines starting with `#` are skipped; a line may start with `export`;
* a key starts with an ASCII letter or `_` and goes on with ASCII letters, digits, `_` and `.`;
* blanks may stand around `=`; an unquoted value ends at a space or tab, after which only a
  comment may follow;
* `'…'` keeps its text as it is, `"…"` takes the escapes `\\`, `\'`, `\"`, `\$`, `\ ` and `\n`,
  and outside single quotes `$NAME` and `${NAME}` stand for a variable's value (the
  environment's, else empty);
* a quoted value may span lines, and a line whose comment starts after a blank is cut there.

Reading stops at the first line that is not of this form, or that is not UTF-8; the lines
before it still count. Blanks are the characters of the Unicode `White_Space` property.
-/

namespace MeterMatch

namespace DotEnv

/-- How far a logical line has got: inside quotes, after an escape, after a blank. -/
inductive LineState where
  | complete
  | blank
  | escape
  | weak
  | weakEscape
  | strong
  deriving DecidableEq, Inhabited

/-- The state after one more character that is not in quotes. -/
def LineState.open (c : Char) : LineState :=
  match c with
  | '\\' => .escape
  | '"' => .weak
  | '\'' => .strong
  | _ => .complete

/-- The state after some more text of a logical line, and where a comment starts, if one
does. A line break is no blank: it completes the line outside quotes. -/
def scanLine : LineState → Nat → List Char → LineState × Option Nat
  | st, _, [] => (st, none)
  | st, i, c :: rest =>
    match st with
    | .blank => if c == '#' then (.complete, some i) else scanLine (.open c) (i + 1) rest
    | .escape => scanLine .complete (i + 1) rest
    | .complete =>
      scanLine (if Text.isBlank c && c != '\n' && c != '\r' then .blank else .open c) (i + 1) rest
    | .weak => scanLine (match c with
        | '\\' => .weakEscape
        | '"' => .complete
        | _ => .weak) (i + 1) rest
    | .weakEscape => scanLine .weak (i + 1) rest
    | .strong => scanLine (if c == '\'' then .complete else .strong) (i + 1) rest

/-- A completed line without its line break (`\n`, or `\r\n`). -/
def dropBreak (cs : List Char) : List Char :=
  if cs.getLast? == some '\n' then
    let cs := cs.dropLast
    if cs.getLast? == some '\r' then cs.dropLast else cs
  else cs

/-- Joins physical lines, each with its line break, into logical ones: a line continues
while a quote, an escape or a trailing blank is open, and a comment after a blank is cut
off. An unreadable line (`none`) or an unfinished last line is an error, marked by `none`
and ending the list. -/
def logicalLines (physical : List (Option (List Char))) : List (Option (List Char)) :=
  go .complete [] physical
where
  /-- Collects the physical lines of one logical line, with the text and state so far. -/
  go (st : LineState) (acc : List Char) : List (Option (List Char)) → List (Option (List Char))
    | [] => if acc.isEmpty then [] else [none]
    | none :: _ => [none]
    | some l :: more =>
      let acc' := acc ++ l
      if (acc'.dropWhile Text.isBlank).head? == some '#' then some [] :: go .complete [] more
      else
        match scanLine st 0 l with
        | (_, some i) => some (acc'.take (acc.length + i)) :: go .complete [] more
        | (.complete, none) => some (dropBreak acc') :: go .complete [] more
        | (st', none) => go st' acc' more

/-- How a value's text is being read. -/
structure ValueState where
  out : String := ""
  strong : Bool := false
  weak : Bool := false
  escaped : Bool := false
  /-- Only spaces, tabs and a comment may follow. -/
  closing : Bool := false
  /-- `some false` inside `$NAME`, `some true` inside `${NAME}`. -/
  subst : Option Bool := none
  name : String := ""
  deriving Inhabited

/-- The value of a variable, empty when it is unset. -/
def lookup (env : Env) (name : String) : String := (env.get? name).getD ""

/-- The value once its text ends: none inside quotes or an unclosed `${`. -/
def finish (env : Env) (st : ValueState) : Option String :=
  if st.subst == some true || st.strong || st.weak then none
  else some (st.out ++ lookup env st.name)

/-- Reads a value's text. -/
def value (env : Env) : List Char → ValueState → Option String
  | [], st => finish env st
  | c :: rest, st =>
    if st.closing then
      if c == ' ' || c == '\t' then value env rest st
      else if c == '#' then finish env st
      else none
    else if st.escaped then
      match c with
      | '\\' | '\'' | '"' | '$' | ' ' => value env rest { st with out := st.out.push c, escaped := false }
      | 'n' => value env rest { st with out := st.out.push '\n', escaped := false }
      | _ => none
    else if st.strong then
      if c == '\'' then value env rest { st with strong := false }
      else value env rest { st with out := st.out.push c }
    else match st.subst with
      | some braced =>
        if c.isAlphanum then value env rest { st with name := st.name.push c }
        else if braced then
          if c == '\x7d' then
            value env rest { st with subst := none, out := st.out ++ lookup env st.name, name := "" }
          else value env rest { st with name := st.name.push c }
        else if c == '\x7b' && st.name.isEmpty then value env rest { st with subst := some true }
        else
          let out := st.out ++ lookup env st.name
          if c == '$' then value env rest { st with out, name := "" }
          else value env rest { st with out := out.push c, name := "", subst := none }
      | none =>
        if c == '$' then value env rest { st with subst := some false }
        else if st.weak then
          if c == '"' then value env rest { st with weak := false }
          else if c == '\\' then value env rest { st with escaped := true }
          else value env rest { st with out := st.out.push c }
        else if c == '\'' then value env rest { st with strong := true }
        else if c == '"' then value env rest { st with weak := true }
        else if c == '\\' then value env rest { st with escaped := true }
        else if c == ' ' || c == '\t' then value env rest { st with closing := true }
        else value env rest { st with out := st.out.push c }

/-- A key at the head of the text, and the text after it. -/
def key? (cs : List Char) : Option (String × List Char) :=
  match cs with
  | c :: _ =>
    if c.isAlpha || c == '_' then
      let k := cs.takeWhile fun c => c.isAlphanum || c == '_' || c == '.'
      some (String.ofList k, cs.drop k.length)
    else none
  | [] => none

/-- Reads one logical line: nothing for a blank line or a comment, else a key and its value;
`none` when the line is not of the accepted form. Blanks at the end do not count. -/
def entry? (env : Env) (line : List Char) : Option (Option (String × String)) := do
  let skip (cs : List Char) := cs.dropWhile Text.isBlank
  let cs := skip (line.reverse.dropWhile Text.isBlank).reverse
  if cs.isEmpty || cs.head? == some '#' then return none
  let (k, rest) ← key? cs
  let rest := skip rest
  let (k, rest) ← if k == "export" && rest.head? != some '=' then do
      let (k', r) ← key? rest
      pure (k', skip r)
    else pure (k, rest)
  match rest with
  | '=' :: v =>
    let v := skip v
    if v.isEmpty || v.head? == some '#' then return some (k, "")
    return some (k, ← value env v {})
  | _ => none

/-- The physical lines of a file's bytes, each with its line break; a line that is not UTF-8
is `none`. -/
def physicalLines (bytes : List UInt8) : List (Option (List Char)) :=
  let pieces := bytes.splitOn 10
  let lines := (pieces.dropLast.map (· ++ [10])) ++ (if pieces.getLast? == some [] then [] else [pieces.getLastD []])
  lines.map fun l => (String.fromUTF8? (ByteArray.mk l.toArray)).map String.toList

/-- The environment with the variables of a `.env` file added where not set already; reading
stops at the first malformed line. -/
def apply (env : Env) (bytes : List UInt8) : Env :=
  let rec load (env : Env) : List (Option (List Char)) → Env
    | [] => env
    | none :: _ => env
    | some line :: more =>
      match entry? env line with
      | none => env
      | some none => load env more
      | some (some (k, v)) => load (if (env.get? k).isSome then env else env ++ [(k, v)]) more
  load env (logicalLines (physicalLines bytes))

end DotEnv

end MeterMatch
