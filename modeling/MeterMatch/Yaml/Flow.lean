import MeterMatch.Yaml.Scalar

/-! # YAML flow collections

Flow collections are written with brackets: `[a, b]` for a sequence and `{k: v, k2: v2}` for a
mapping, nested freely, with quoted or plain scalars inside and JSON as a special case. A flow
collection may span lines; blanks, line breaks and comments between its tokens are skipped.

* A plain scalar in a flow collection ends before `,`, a bracket, a `:` that is followed by a
  blank, a bracket, a comma or nothing, and before a comment.
* A mapping entry without `:` has an empty value, and so has `k:` before `,` or `}`.
* In a sequence, `k: v` is a mapping of one entry.
* A trailing comma before the closing bracket is allowed; an empty entry is not.
-/

namespace MeterMatch

namespace Yaml

/-- Skips blanks, line breaks and comments; `inComment` is set inside a comment. -/
def skipFlowSpace : Bool → List Char → List Char
  | _, [] => []
  | true, c :: rest => if c == '\n' then skipFlowSpace false rest else skipFlowSpace true rest
  | false, c :: rest =>
    if isSpace c then skipFlowSpace false rest
    else if c == '#' then skipFlowSpace true rest
    else c :: rest

/-- Whether a character opens or closes a collection or separates entries. -/
def isFlowIndicator (c : Char) : Bool :=
  c == ',' || c == '[' || c == ']' || c == '\x7b' || c == '\x7d'

/-- The characters of a plain scalar inside a flow collection, and what follows it. -/
def flowPlainChars : List Char → List Char × List Char
  | [] => ([], [])
  | c :: rest =>
    let endsValue := match rest with
      | [] => true
      | d :: _ => isSpace d || isFlowIndicator d
    if isFlowIndicator c || (c == ':' && endsValue) then ([], c :: rest)
    else if isSpace c && rest.head? == some '#' then ([], c :: rest)
    else
      let (s, r) := flowPlainChars rest
      (c :: s, r)

/-- A plain scalar's text with each line trimmed and line breaks folded to spaces. -/
def foldPlainLines (cs : List Char) : String :=
  let lines := (cs.splitOn '\n').map trimBlanks
  " ".intercalate ((lines.filter (!·.isEmpty)).map String.ofList)

mutual

/-- Reads one node of a flow collection. -/
def flowNode (fuel : Nat) (cs : List Char) : Parse (Node × List Char) :=
  match fuel with
  | 0 => fail "flow collection nested too deeply"
  | fuel + 1 =>
    match skipFlowSpace false cs with
    | [] => failAtEnd "unterminated flow collection"
    | '[' :: rest => flowSeq fuel rest []
    | '\x7b' :: rest => flowMap fuel rest []
    | cs =>
      match quoted? cs with
      | some r => do
        let (s, rest) ← r
        return (.str s, rest)
      | none =>
        if !plainStart cs then fail "unexpected character in a flow collection"
        else
          let (s, rest) := flowPlainChars cs
          return (.plain (foldPlainLines s), rest)

/-- Reads the rest of a flow sequence after `[`, with the items read so far. -/
def flowSeq (fuel : Nat) (cs : List Char) (acc : List Node) : Parse (Node × List Char) :=
  match fuel with
  | 0 => fail "flow collection nested too deeply"
  | fuel + 1 =>
    match skipFlowSpace false cs with
    | [] => failAtEnd "unterminated flow sequence"
    | ']' :: rest => .ok (.seq acc, rest)
    | cs => do
      let (item, rest) ← flowNode fuel cs
      let (item, rest) ← match skipFlowSpace false rest with
        | ':' :: r =>
          match skipFlowSpace false r with
          | ',' :: r' => pure (Node.map [(item, .plain "")], ',' :: r')
          | ']' :: r' => pure (Node.map [(item, .plain "")], ']' :: r')
          | r' => do
            let (v, r'') ← flowNode fuel r'
            pure (Node.map [(item, v)], r'')
        | r => pure (item, r)
      match skipFlowSpace false rest with
      | ',' :: r => flowSeq fuel r (acc ++ [item])
      | ']' :: r => .ok (.seq (acc ++ [item]), r)
      | [] => failAtEnd "unterminated flow sequence"
      | _ => fail "expected ',' or ']'"

/-- Reads the rest of a flow mapping after its opening brace, with the entries read so far. -/
def flowMap (fuel : Nat) (cs : List Char) (acc : List (Node × Node)) :
    Parse (Node × List Char) :=
  match fuel with
  | 0 => fail "flow collection nested too deeply"
  | fuel + 1 =>
    match skipFlowSpace false cs with
    | [] => failAtEnd "unterminated flow mapping"
    | '\x7d' :: rest => .ok (.map acc, rest)
    | cs => do
      let (key, rest) ← flowNode fuel cs
      let (value, rest) ← match skipFlowSpace false rest with
        | ':' :: r =>
          match skipFlowSpace false r with
          | ',' :: r' => pure (Node.plain "", ',' :: r')
          | '\x7d' :: r' => pure (Node.plain "", '\x7d' :: r')
          | r' => flowNode fuel r'
        | r => pure (Node.plain "", r)
      match skipFlowSpace false rest with
      | ',' :: r => flowMap fuel r (acc ++ [(key, value)])
      | '\x7d' :: r => .ok (.map (acc ++ [(key, value)]), r)
      | [] => failAtEnd "unterminated flow mapping"
      | _ => fail "expected ',' or a closing brace"

end

/-- Reads a flow collection that opens at the head of `cs`, giving what follows it. -/
def flowCollection (cs : List Char) : Parse (Node × List Char) :=
  flowNode (2 * cs.length + 2) cs

end Yaml

end MeterMatch
