import MeterMatch.Decimal.Shortest

/-! # Document trees

Objects, rules and answers are exchanged as documents: nulls, booleans, integers, floats,
strings, sequences and mappings. A YAML file adds one more kind of leaf, the plain scalar,
whose type is decided by whoever reads it: a string field takes its text, an integer field
parses it, and a resolving pass (`Node.resolve` in the YAML module) turns it into a typed
leaf once and for all.

This module holds the tree and its JSON text (`Node.render`). Floats are written with the
fewest digits that read back (`Decimal.shortest`) in the layout of `Node.floatLayout`.
-/

namespace MeterMatch

/-- A document. Mapping keys are documents too, as YAML allows. -/
inductive Node where
  | null
  | bool (b : Bool)
  | int (i : Int)
  | float (f : Float)
  | str (s : String)
  /-- An unquoted YAML scalar, not yet read as any type. -/
  | plain (text : String)
  | seq (items : List Node)
  | map (entries : List (Node × Node))
  deriving Inhabited

/-- How a float is laid out once its shortest digits `d₁d₂…dₙ × 10 ^ k` are known. -/
structure FloatLayout where
  /-- Positional notation is used while the decimal point falls after at most this many
  digits. -/
  maxPoint : Int
  /-- Positional notation with leading zeros is used while the point is more than this many
  places before the first digit. -/
  minPoint : Int
  /-- A whole number keeps a `.0`. -/
  pointZero : Bool
  /-- The exponent mark of scientific notation. -/
  mark : String

namespace Node

/-- A mapping with text keys, in the given order. -/
def record (fields : List (String × Node)) : Node :=
  .map (fields.map fun (k, v) => (.str k, v))

/-- An optional value, `null` when absent. -/
def opt {α : Type} (f : α → Node) : Option α → Node
  | some a => f a
  | none => .null

/-- A list of texts. -/
def strs (xs : List String) : Node := .seq (xs.map .str)

/-- Floats are positional while the point is at most 16 digits in and at most 5 places out,
whole numbers keep `.0`, and the exponent mark is a bare `e`. -/
def floatLayout : FloatLayout := ⟨16, -5, true, "e"⟩

/-- Lays out `digits × 10 ^ k` (digits without trailing zeros) by the given layout. -/
def layoutDecimal (fmt : FloatLayout) (digits : String) (k : Int) : String :=
  let n : Int := digits.length
  let point := n + k
  let zeros (c : Int) : String := String.ofList (List.replicate c.toNat '0')
  if 0 ≤ k && point ≤ fmt.maxPoint then
    digits ++ zeros k ++ (if fmt.pointZero then ".0" else "")
  else if 0 < point && point ≤ fmt.maxPoint then
    String.ofList (digits.toList.take point.toNat) ++ "." ++
      String.ofList (digits.toList.drop point.toNat)
  else if fmt.minPoint < point && point ≤ 0 then
    "0." ++ zeros (-point) ++ digits
  else
    let exp := toString (point - 1)
    match digits.toList with
    | [d] => String.singleton d ++ fmt.mark ++ exp
    | d :: rest => String.singleton d ++ "." ++ String.ofList rest ++ fmt.mark ++ exp
    | [] => "0" ++ fmt.mark ++ exp

/-- The JSON text of a float: shortest digits laid out by `floatLayout`; a non-finite value
has no JSON number and is written `null`. -/
def floatText (f : Float) : String :=
  let bits := f.toBits
  let negative := bits >>> 63 == 1
  let sign := if negative then "-" else ""
  let magnitude := bits &&& 0x7FFFFFFFFFFFFFFF
  if magnitude == 0 then sign ++ "0.0"
  else match Decimal.Binary.ofBits magnitude with
    | none => "null"
    | some x =>
      let s := Decimal.shortest x
      sign ++ layoutDecimal floatLayout (toString s.digits) s.exp

/-- The hex digit of a nibble, lower case. -/
def hexDigit (n : Nat) : Char :=
  if n < 10 then Char.ofNat (48 + n) else Char.ofNat (87 + n)

/-- One character of a JSON string: quote, backslash and control characters escaped, all
else written as is. -/
def escapeChar (c : Char) : String :=
  match c with
  | '"' => "\\\""
  | '\\' => "\\\\"
  | '\n' => "\\n"
  | '\r' => "\\r"
  | '\t' => "\\t"
  | '\x08' => "\\b"
  | '\x0c' => "\\f"
  | c =>
    if c.toNat < 0x20 then
      "\\u00" ++ String.singleton (hexDigit (c.toNat / 16)) ++
        String.singleton (hexDigit (c.toNat % 16))
    else String.singleton c

/-- A JSON string literal. -/
def quote (s : String) : String :=
  "\"" ++ String.join (s.toList.map escapeChar) ++ "\""

/-- The text a key is written as in a JSON object. -/
def keyText : Node → String
  | .str s => s
  | .plain s => s
  | .int i => toString i
  | .bool b => toString b
  | _ => ""

mutual

/-- Compact JSON text. -/
def render : Node → String
  | .null => "null"
  | .bool b => toString b
  | .int i => toString i
  | .float f => floatText f
  | .str s => quote s
  | .plain s => quote s
  | .seq items => "[" ++ renderItems items ++ "]"
  | .map entries => "\x7b" ++ renderEntries entries ++ "\x7d"

/-- The items of a JSON array, comma separated. -/
def renderItems : List Node → String
  | [] => ""
  | [n] => render n
  | n :: rest => render n ++ "," ++ renderItems rest

/-- The members of a JSON object, comma separated. -/
def renderEntries : List (Node × Node) → String
  | [] => ""
  | [(k, v)] => quote (keyText k) ++ ":" ++ render v
  | (k, v) :: rest => quote (keyText k) ++ ":" ++ render v ++ "," ++ renderEntries rest

end

end Node

end MeterMatch
