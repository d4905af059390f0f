import MeterMatch.Data.Node

/-! # YAML scalars

The pieces of YAML text that stand for one scalar:

* a double-quoted scalar, with backslash escapes (`\n`, `\t`, `\x41`, `é`, an escaped line
  break, …) and line folding;
* a single-quoted scalar, where `''` stands for one quote;
* the separation rules of plain scalars: which characters may start one, where a comment
  starts (`#` after a blank) and where a mapping value indicator (`:` before a blank) is.

A line break inside a quoted scalar folds: the blanks around it go, a single break becomes a
space and `n + 1` breaks become `n` newlines.
-/

namespace MeterMatch

namespace Yaml

/-- Why some text is not a YAML document of the accepted shape. -/
structure YamlError where
  /-- What went wrong. -/
  reason : String
  /-- Whether more input could have completed the construct (an unclosed bracket or quote). -/
  atEnd : Bool := false
  deriving Inhabited

/-- A result of reading YAML. -/
abbrev Parse := Except YamlError

/-- Fails with a reason. -/
def fail {α : Type} (reason : String) : Parse α := .error { reason }

/-- Fails because the input ended inside a construct. -/
def failAtEnd {α : Type} (reason : String) : Parse α := .error { reason, atEnd := true }

/-- A blank: space or tab. -/
def isBlank (c : Char) : Bool := c == ' ' || c == '\t'

/-- A blank or a line break. -/
def isSpace (c : Char) : Bool := isBlank c || c == '\n'

/-- The value of a hex digit. -/
def hexDigit? (c : Char) : Option Nat :=
  if c.isDigit then some (c.toNat - 48)
  else if 'a' ≤ c && c ≤ 'f' then some (c.toNat - 87)
  else if 'A' ≤ c && c ≤ 'F' then some (c.toNat - 55)
  else none

/-- The code point of a run of hex digits, as a character. -/
def hexChar? (ds : List Char) : Option Char := do
  let n ← ds.foldlM (fun n c => (16 * n + ·) <$> hexDigit? c) 0
  if n < 0xd800 || (0xdfff < n && n < 0x110000) then some (Char.ofNat n) else none

/-- The character a one-letter escape stands for. -/
def simpleEscape? : Char → Option Char
  | '0' => some '\x00'
  | 'a' => some '\x07'
  | 'b' => some '\x08'
  | 't' => some '\t'
  | '\t' => some '\t'
  | 'n' => some '\n'
  | 'v' => some '\x0b'
  | 'f' => some '\x0c'
  | 'r' => some '\r'
  | 'e' => some '\x1b'
  | ' ' => some ' '
  | '"' => some '"'
  | '/' => some '/'
  | '\\' => some '\\'
  | 'N' => some '\u0085'
  | '_' => some '\u00a0'
  | 'L' => some '\u2028'
  | 'P' => some '\u2029'
  | _ => none

/-- Text with its trailing blanks removed. -/
def dropTrailingBlanks (s : String) : String :=
  String.ofList (s.toList.reverse.dropWhile isBlank).reverse

/-- What a run of `breaks` folded line breaks becomes: nothing after an escaped break, a
space for one, newlines for more. -/
def folded (breaks : Nat) : String :=
  match breaks with
  | 0 => ""
  | 1 => " "
  | n + 1 => String.ofList (List.replicate n '\n')

/-- Reads the body of a double-quoted scalar up to its closing quote, giving the text and what
follows the quote. `pending` is `some n` while blanks after `n` line breaks are skipped
(`some 0` after an escaped break). -/
def doubleQuoted : List Char → String → Option Nat → Parse (String × List Char)
  | [], _, _ => failAtEnd "unterminated double-quoted scalar"
  | c :: rest, acc, some n =>
    if isBlank c then doubleQuoted rest acc (some n)
    else if c == '\n' then doubleQuoted rest acc (some (n + 1))
    else doubleQuoted (c :: rest) (acc ++ folded n) none
  | '"' :: rest, acc, none => .ok (acc, rest)
  | '\n' :: rest, acc, none => doubleQuoted rest (dropTrailingBlanks acc) (some 1)
  | '\\' :: '\n' :: rest, acc, none => doubleQuoted rest acc (some 0)
  | '\\' :: 'x' :: a :: b :: rest, acc, none =>
    match hexChar? [a, b] with
    | some c => doubleQuoted rest (acc.push c) none
    | none => fail "invalid escape"
  | '\\' :: 'u' :: a :: b :: c :: d :: rest, acc, none =>
    match hexChar? [a, b, c, d] with
    | some ch => doubleQuoted rest (acc.push ch) none
    | none => fail "invalid escape"
  | '\\' :: 'U' :: a :: b :: c :: d :: e :: f :: g :: h :: rest, acc, none =>
    match hexChar? [a, b, c, d, e, f, g, h] with
    | some ch => doubleQuoted rest (acc.push ch) none
    | none => fail "invalid escape"
  | '\\' :: c :: rest, acc, none =>
    match simpleEscape? c with
    | some ch => doubleQuoted rest (acc.push ch) none
    | none => fail "invalid escape"
  | '\\' :: [], _, none => failAtEnd "unterminated double-quoted scalar"
  | c :: rest, acc, none => doubleQuoted rest (acc.push c) none
termination_by cs _ pending => (cs.length, if pending.isSome then 1 else 0)

/-- Reads the body of a single-quoted scalar up to its closing quote, giving the text and what
follows the quote; `pending` works as for `doubleQuoted`. -/
def singleQuoted : List Char → String → Option Nat → Parse (String × List Char)
  | [], _, _ => failAtEnd "unterminated single-quoted scalar"
  | c :: rest, acc, some n =>
    if isBlank c then singleQuoted rest acc (some n)
    else if c == '\n' then singleQuoted rest acc (some (n + 1))
    else singleQuoted (c :: rest) (acc ++ folded n) none
  | '\'' :: '\'' :: rest, acc, none => singleQuoted rest (acc.push '\'') none
  | '\'' :: rest, acc, none => .ok (acc, rest)
  | '\n' :: rest, acc, none => singleQuoted rest (dropTrailingBlanks acc) (some 1)
  | c :: rest, acc, none => singleQuoted rest (acc.push c) none
termination_by cs _ pending => (cs.length, if pending.isSome then 1 else 0)

/-- Reads a quoted scalar that starts at the head of `cs`, giving its text and what follows. -/
def quoted? (cs : List Char) : Option (Parse (String × List Char)) :=
  match cs with
  | '"' :: rest => some (doubleQuoted rest "" none)
  | '\'' :: rest => some (singleQuoted rest "" none)
  | _ => none

/-- The text before a comment: a `#` at the start or after a blank starts one. -/
def beforeComment : List Char → List Char
  | [] => []
  | '#' :: _ => []
  | c :: '#' :: rest => if isBlank c then [] else c :: '#' :: beforeComment rest
  | c :: rest => c :: beforeComment rest

/-- Whether nothing but blanks and a comment is left. -/
def isRestBlank (cs : List Char) : Bool := (beforeComment cs).all isBlank

/-- Text without its leading and trailing blanks. -/
def trimBlanks (cs : List Char) : List Char :=
  ((cs.dropWhile isBlank).reverse.dropWhile isBlank).reverse

/-- Whether a `:` at the head of `cs` is a mapping value indicator: followed by a blank, a
line break or nothing. -/
def valueIndicatorAt : List Char → Bool
  | ':' :: [] => true
  | ':' :: c :: _ => isSpace c
  | _ => false

/-- Splits a plain key from the rest of a line at its first mapping value indicator. -/
def splitPlainKey : List Char → Option (List Char × List Char)
  | [] => none
  | ':' :: rest => if valueIndicatorAt (':' :: rest) then some ([], rest) else
      (splitPlainKey rest).map fun (k, v) => (':' :: k, v)
  | c :: rest => (splitPlainKey rest).map fun (k, v) => (c :: k, v)

/-- Whether the text holds a mapping value indicator. -/
def hasValueIndicator (cs : List Char) : Bool := (splitPlainKey cs).isSome

/-- Whether a plain scalar may start with these characters: not with an indicator, except
`-`, `?` and `:` followed by a non-blank. -/
def plainStart : List Char → Bool
  | [] => false
  | c :: rest =>
    if c == '-' || c == '?' || c == ':' then
      match rest with
      | d :: _ => !isSpace d
      | [] => false
    else !(",[]\x7b\x7d#&*!|>'\"%@`".toList.contains c) && !isSpace c

end Yaml

end MeterMatch
