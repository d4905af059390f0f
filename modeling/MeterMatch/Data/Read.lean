import MeterMatch.Data.Node

/-! # Reading documents

Typed reads of a document tree, as a record reader takes them: a string field takes a string
or the text of any plain scalar, an integer field takes an integer or a plain scalar written
as one, a field that may be null takes `null` or a plain scalar spelling null, and an empty
plain scalar reads as an empty sequence or mapping.

Plain scalars follow the YAML core schema: `~`, `null`, `Null`, `NULL` and the empty text are
null; `true`/`True`/`TRUE` and `false`/`False`/`FALSE` are booleans; integers are decimal, or
hexadecimal, octal or binary after `0x`, `0o`, `0b`, with an optional sign, but a decimal with
a leading zero is no integer; floats are decimal fractions with an optional exponent, and
`.inf`, `-.inf`, `.nan`. `Node.resolve` applies the schema to a whole tree, after which reads
are strict.
-/

namespace MeterMatch

/-- The outcome of reading a document as some type; the error says what was expected. -/
abbrev Decode := Except String

namespace Node

/-- The digit value of a character in the given radix. -/
def digitIn (radix : Nat) (c : Char) : Option Nat :=
  let v :=
    if '0' ≤ c && c ≤ '9' then c.toNat - 48
    else if 'a' ≤ c && c ≤ 'z' then c.toNat - 87
    else if 'A' ≤ c && c ≤ 'Z' then c.toNat - 55
    else radix
  if v < radix then some v else none

/-- A non-empty string of digits in the given radix. -/
def natIn? (radix : Nat) (s : String) : Option Nat :=
  if s.isEmpty then none
  else s.toList.foldl (fun acc c => acc.bind fun a => (digitIn radix c).map (a * radix + ·)) (some 0)

/-- A decimal with a leading zero and more digits, which the schema leaves a string. -/
def zeroPadded (s : String) : Bool :=
  let body := if s.startsWith "-" || s.startsWith "+" then s.drop 1 |>.toString else s
  body.length > 1 && body.startsWith "0" && body.toList.all Char.isDigit

/-- An unsigned integer literal of the schema, with an optional `+`. -/
def unsignedLiteral? (s : String) : Option Nat :=
  let body := if s.startsWith "+" then (s.drop 1).toString else s
  let prefixed (mark : String) (radix : Nat) : Option Nat :=
    if body.startsWith mark then
      let rest := (body.drop 2).toString
      if rest.startsWith "+" || rest.startsWith "-" then none else natIn? radix rest
    else none
  (prefixed "0x" 16).orElse fun _ => (prefixed "0o" 8).orElse fun _ => (prefixed "0b" 2).orElse fun _ =>
    if body.startsWith "+" || body.startsWith "-" || zeroPadded s then none
    else natIn? 10 body

/-- A negative integer literal of the schema. -/
def negativeLiteral? (s : String) : Option Int :=
  let prefixed (mark : String) (radix : Nat) : Option Int :=
    if s.startsWith mark then (natIn? radix (s.drop 3).toString).map fun n => -(n : Int)
    else none
  (prefixed "-0x" 16).orElse fun _ => (prefixed "-0o" 8).orElse fun _ => (prefixed "-0b" 2).orElse fun _ =>
    if zeroPadded s || !s.startsWith "-" then none
    else (natIn? 10 (s.drop 1).toString).map fun n => -(n : Int)

/-- An integer literal of the schema. -/
def intLiteral? (s : String) : Option Int :=
  match unsignedLiteral? s with
  | some n => some n
  | none => negativeLiteral? s

/-- A decimal fraction `[+-]digits[.digits][e[+-]digits]`, with digits on at least one side of
the point, as a float rounded to nearest. -/
def decimalFloat? (s : String) : Option Float :=
  let (negative, body) :=
    if s.startsWith "-" then (true, (s.drop 1).toString)
    else if s.startsWith "+" then (false, (s.drop 1).toString)
    else (false, s)
  -- cut at one character, over the characters, as keys are cut
  let cut (t : String) (c : Char) : List String := (t.toList.splitOn c).map String.ofList
  let (mant, expPart) := match cut body 'e', cut body 'E' with
    | [m, e], _ => (m, some e)
    | _, [m, e] => (m, some e)
    | _, _ => (body, none)
  let (whole, frac) := match cut mant '.' with
    | [w] => (w, "")
    | [w, f] => (w, f)
    | _ => ("x", "")
  let exp? : Option Int := match expPart with
    | none => some 0
    | some e =>
      if e.startsWith "-" then (natIn? 10 (e.drop 1).toString).map fun n => -(n : Int)
      else if e.startsWith "+" then (natIn? 10 (e.drop 1).toString).map Int.ofNat
      else (natIn? 10 e).map Int.ofNat
  let digitsOk := (whole ++ frac).length > 0 && (whole ++ frac).toList.all Char.isDigit
  match exp?, digitsOk with
  | some e, true =>
    let m := (natIn? 10 (whole ++ frac)).getD 0
    let e := e - frac.length
    let f := if e ≥ 0 then Float.ofScientific m false e.toNat else Float.ofScientific m true (-e).toNat
    some (if negative then -f else f)
  | _, _ => none

/-- A float of the schema; a decimal that overflows to infinity is no float. -/
def floatLiteral? (s : String) : Option Float :=
  let signed := s.startsWith "+"
  let body := if signed then (s.drop 1).toString else s
  if signed && (body.startsWith "+" || body.startsWith "-") then none
  else if body == ".inf" || body == ".Inf" || body == ".INF" then some (1.0 / 0.0)
  else if s == "-.inf" || s == "-.Inf" || s == "-.INF" then some (-1.0 / 0.0)
  else if s == ".nan" || s == ".NaN" || s == ".NAN" then some (0.0 / 0.0)
  else match decimalFloat? body with
    | some f => if f.isFinite then some f else none
    | none => none

/-- A null of the schema. -/
def nullWord (s : String) : Bool :=
  s == "" || s == "~" || s == "null" || s == "Null" || s == "NULL"

/-- A boolean of the schema. -/
def boolWord? : String → Option Bool
  | "true" | "True" | "TRUE" => some true
  | "false" | "False" | "FALSE" => some false
  | _ => none

/-- The typed leaf a plain scalar stands for. -/
def resolveScalar (s : String) : Node :=
  if nullWord s then .null
  else match boolWord? s with
    | some b => .bool b
    | none =>
      match intLiteral? s with
      | some i => .int i
      | none =>
        if zeroPadded s then .str s
        else match floatLiteral? s with
          | some f => .float f
          | none => .str s

/-- The plain-scalar-free text of a key, for duplicate detection. -/
def keyName : Node → Option String
  | .str s => some s
  | .plain s => some s
  | _ => none

mutual

/-- Resolves every plain scalar by the schema; a mapping may not repeat a key. -/
def resolve : Node → Decode Node
  | .plain s => pure (resolveScalar s)
  | .seq items => return .seq (← resolveItems items)
  | .map entries => do
    let entries ← resolveEntries entries
    let names := entries.filterMap fun (k, _) => k.keyName
    if names.eraseDups.length != names.length then throw "duplicate mapping key"
    return .map entries
  | .null => pure .null
  | .bool b => pure (.bool b)
  | .int i => pure (.int i)
  | .float f => pure (.float f)
  | .str s => pure (.str s)

/-- Resolves the items of a sequence. -/
def resolveItems : List Node → Decode (List Node)
  | [] => pure []
  | n :: rest => return (← resolve n) :: (← resolveItems rest)

/-- Resolves the keys and values of a mapping. -/
def resolveEntries : List (Node × Node) → Decode (List (Node × Node))
  | [] => pure []
  | (k, v) :: rest => return ((← resolve k), (← resolve v)) :: (← resolveEntries rest)

end

/-- Whether the node is null. -/
def isNull : Node → Bool
  | .null => true
  | .plain s => nullWord s
  | _ => false

/-- A string, or the text of a plain scalar. -/
def string : Node → Decode String
  | .str s => pure s
  | .plain s => pure s
  | _ => throw "expected a string"

/-- A boolean. -/
def boolean : Node → Decode Bool
  | .bool b => pure b
  | .plain s => match boolWord? s with
    | some b => pure b
    | none => throw "expected a boolean"
  | _ => throw "expected a boolean"

/-- Any integer. -/
def integer : Node → Decode Int
  | .int i => pure i
  | .plain s => match intLiteral? s with
    | some i => pure i
    | none => throw "expected an integer"
  | _ => throw "expected an integer"

/-- A signed 64-bit integer. -/
def int64 (n : Node) : Decode Int := do
  let i ← n.integer
  if -Int.pow 2 63 ≤ i && i < Int.pow 2 63 then pure i else throw "integer out of range"

/-- An unsigned integer below `2 ^ bits`. -/
def unsigned (bits : Nat) (n : Node) : Decode Nat := do
  let i ← n.integer
  if 0 ≤ i && i < Int.pow 2 bits then pure i.toNat else throw "integer out of range"

/-- The items of a sequence; an empty plain scalar is an empty sequence. -/
def items : Node → Decode (List Node)
  | .seq items => pure items
  | .plain "" => pure []
  | _ => throw "expected a sequence"

/-- The entries of a mapping; an empty plain scalar is an empty mapping. -/
def entries : Node → Decode (List (Node × Node))
  | .map entries => pure entries
  | .plain "" => pure []
  | _ => throw "expected a mapping"

/-- A value that may be null. -/
def nullable {α : Type} (read : Node → Decode α) (n : Node) : Decode (Option α) :=
  if n.isNull then pure none else some <$> read n

/-- A sequence of values. -/
def listOf {α : Type} (read : Node → Decode α) (n : Node) : Decode (List α) := do
  (← n.items).mapM read

end Node

/-- The fields of a record document, looked up by name. -/
structure Fields where
  entries : List (Node × Node)

namespace Fields

/-- The fields of a record; the same field given twice is refused. -/
def ofNode (n : Node) (known : List String) : Decode Fields := do
  let entries ← n.entries
  let names := entries.filterMap fun (k, _) => k.keyName
  for name in known do
    if (names.filter (· == name)).length > 1 then throw ("duplicate field " ++ name)
  return ⟨entries⟩

/-- The value of a field, if given. -/
def find? (fs : Fields) (name : String) : Option Node :=
  (fs.entries.find? fun (k, _) => k.keyName == some name).map (·.2)

/-- A field that must be given. -/
def need {α : Type} (fs : Fields) (name : String) (read : Node → Decode α) : Decode α :=
  match fs.find? name with
  | some n => read n
  | none => throw ("missing field " ++ name)

/-- A field with a default for when it is not given. -/
def withDefault {α : Type} (fs : Fields) (name : String) (dflt : α) (read : Node → Decode α) :
    Decode α :=
  match fs.find? name with
  | some n => read n
  | none => pure dflt

/-- A field that may be missing or null. -/
def maybe {α : Type} (fs : Fields) (name : String) (read : Node → Decode α) :
    Decode (Option α) :=
  fs.withDefault name none (Node.nullable read)

end Fields

end MeterMatch
