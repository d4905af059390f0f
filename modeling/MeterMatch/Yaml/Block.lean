import MeterMatch.Yaml.Flow

/-! # YAML block structure

A document's lines nest by indentation:

* lines starting `- ` at one column are the items of a block sequence; the text after the dash
  is the start of the item, indented to its own column, so `- k: v` starts a mapping;
* lines `key: value` at one column are the entries of a block mapping; a value left empty is
  the block indented below it, or a sequence at the key's own column, or empty;
* anything else is a scalar or flow collection: a plain scalar continues on the more indented
  lines below it (folded by spaces), quoted scalars and flow collections on any lines until
  they close, and `|` and `>` start literal and folded block scalars.

A line indented deeper than its structure allows, a line of structure whose indentation ends in
a tab, a mapping line without `:`, or a `:` inside a plain value is an error. Plain scalars are
kept as `Node.plain`, for the reader to interpret; quoted and block scalars are strings.
-/

namespace MeterMatch

namespace Yaml

/-- One line of a document: its indentation in spaces and the text after it. -/
structure Line where
  indent : Nat
  text : List Char
  deriving Inhabited

namespace Line

/-- A line split into its indentation and text. -/
def ofChars (cs : List Char) : Line :=
  let spaces := (cs.takeWhile (· == ' ')).length
  ⟨spaces, cs.drop spaces⟩

/-- Whether the line holds only blanks or a comment. -/
def isBlank (l : Line) : Bool := isRestBlank l.text

/-- Whether the line holds only blanks. -/
def isEmpty (l : Line) : Bool := l.text.all Yaml.isBlank

/-- Whether the line is a comment. -/
def isComment (l : Line) : Bool := (l.text.dropWhile Yaml.isBlank).head? == some '#'

end Line

/-- The lines from the first that is neither blank nor a comment. -/
def dropBlank (lines : List Line) : List Line := lines.dropWhile Line.isBlank

/-- Whether the next line with content is indented beyond `col`. -/
def deeper (col : Nat) (lines : List Line) : Bool :=
  match dropBlank lines with
  | l :: _ => col < l.indent
  | [] => false

/-- Whether the text starts a block sequence item: a dash followed by a blank or nothing. -/
def isSeqItem : List Char → Bool
  | ['-'] => true
  | '-' :: c :: _ => isBlank c
  | _ => false

/-- A plain key and the value text after its `:`, if the line has one. -/
def plainEntry? (text : List Char) : Option (Parse (Node × List Char)) :=
  match splitPlainKey (beforeComment text) with
  | none => none
  | some (k, _) =>
    let key := trimBlanks k
    if !key.isEmpty && !plainStart key then some (fail "unsupported mapping key")
    else some (.ok (.plain (String.ofList key), (text.drop (k.length + 1)).dropWhile isBlank))

/-- The key and the value text of a mapping line, if the line is one. -/
def entryOf? (text : List Char) : Option (Parse (Node × List Char)) :=
  match text with
  | '"' :: _ | '\'' :: _ =>
    match quoted? text with
    | some (.ok (s, after)) =>
      match after.dropWhile isBlank with
      | ':' :: r => if valueIndicatorAt (':' :: r) then some (.ok (.str s, r.dropWhile isBlank)) else none
      | _ => none
    | _ => none
  | '[' :: _ | '\x7b' :: _ => none
  | '?' :: c :: _ => if isSpace c then some (fail "complex mapping keys are not supported")
      else plainEntry? text
  | ['?'] => some (fail "complex mapping keys are not supported")
  | _ => plainEntry? text

/-- Reads a construct that may continue on the following lines: `read` is tried on the text
so far, and while it runs out of input another line is joined. Whatever follows the construct
on its last line must be blank or a comment. -/
def joined {α : Type} (read : List Char → Parse (α × List Char)) :
    List Char → List Line → Parse (α × List Line)
  | text, lines =>
    match read text with
    | .ok (a, after) =>
      if isRestBlank after then .ok (a, lines) else fail "unexpected text after a value"
    | .error e =>
      match e.atEnd, lines with
      | true, l :: rest => joined read (text ++ '\n' :: l.text) rest
      | _, _ => .error e

/-- Folds the lines of a plain scalar: a line break between text becomes a space, and each
empty line a newline. -/
def foldParts : List (List Char) → String
  | [] => ""
  | first :: rest =>
    let (out, _) := rest.foldl (fun (out, breaks) part =>
      if part.isEmpty then (out, breaks + 1)
      else
        let sep := if breaks == 0 then " " else String.ofList (List.replicate breaks '\n')
        (out ++ sep ++ String.ofList part, 0)) (String.ofList first, 0)
    out

/-- The continuation lines of a plain scalar under `parent`: lines indented deeper, with empty
lines between them; a comment line ends the scalar. -/
def plainLines (parent : Int) : List Line → List (List Char) × List Line
  | [] => ([], [])
  | l :: rest =>
    if l.isEmpty then
      match plainLines parent rest with
      | ([], _) => ([], l :: rest)
      | (more, r) => ([] :: more, r)
    else if parent < l.indent && !l.isComment then
      let (more, r) := plainLines parent rest
      (trimBlanks (beforeComment l.text) :: more, r)
    else ([], l :: rest)

/-- A plain scalar starting with `text`, continued on the deeper lines. -/
def plainNode (parent : Int) (text : List Char) (lines : List Line) : Parse (Node × List Line) :=
  let first := trimBlanks (beforeComment text)
  let (more, rest) := plainLines parent lines
  if (first :: more).any hasValueIndicator then fail "mapping values are not allowed here"
  else .ok (.plain (foldParts (first :: more)), rest)

/-- The chomping and explicit indentation of a block scalar header. -/
structure BlockHeader where
  literal : Bool
  /-- `some true` keeps trailing line breaks, `some false` strips them, `none` keeps one. -/
  chomp : Option Bool := none
  indent : Option Nat := none

/-- Reads a block scalar header after its `|` or `>`. -/
def blockHeader (literal : Bool) : List Char → Parse BlockHeader
  | cs =>
    let (marks, rest) := (cs.takeWhile (!isBlank ·), cs.dropWhile (!isBlank ·))
    if !isRestBlank rest then fail "unexpected text after a block scalar header"
    else marks.foldlM (fun (h : BlockHeader) c =>
      if c == '+' && h.chomp.isNone then pure { h with chomp := some true }
      else if c == '-' && h.chomp.isNone then pure { h with chomp := some false }
      else if '1' ≤ c && c ≤ '9' && h.indent.isNone then pure { h with indent := some (c.toNat - 48) }
      else fail "invalid block scalar header") { literal }

/-- The lines of a block scalar under `parent`: empty lines and lines indented deeper. -/
def blockLines (parent : Int) : List Line → List Line × List Line
  | [] => ([], [])
  | l :: rest =>
    if l.isEmpty || parent < l.indent then
      let (more, r) := blockLines parent rest
      (l :: more, r)
    else ([], l :: rest)

/-- Joins the lines of a folded block scalar: a break between two lines of text becomes a
space unless either is indented further; empty lines stay as breaks. -/
def foldBlock : List String → String
  | [] => ""
  | first :: rest =>
    let (out, _, _) := rest.foldl (fun (out, breaks, prevPlain) line =>
      if line.isEmpty then (out, breaks + 1, prevPlain)
      else
        let plain := !(line.startsWith " " || line.startsWith "\t")
        let sep := if breaks == 0 && prevPlain && plain then " "
          else String.ofList (List.replicate (if prevPlain && plain then breaks else breaks + 1) '\n')
        (out ++ sep ++ line, 0, plain)) (first, 0, !(first.startsWith " " || first.startsWith "\t"))
    out

/-- A block scalar with its header, taking the lines under `parent`. -/
def blockScalar (parent : Int) (h : BlockHeader) (lines : List Line) : Node × List Line :=
  let (body, rest) := blockLines parent lines
  let col := match h.indent with
    | some n => (max parent 0).toNat + n
    | none => ((body.find? (!·.isEmpty)).map (·.indent)).getD 0
  -- Lines shallower than the content column end the scalar.
  let kept := body.takeWhile fun l => l.isEmpty || col ≤ l.indent
  let rest := body.drop kept.length ++ rest
  let texts := kept.map fun l =>
    if l.isEmpty then "" else String.ofList (List.replicate (l.indent - col) ' ' ++ l.text)
  let core := (texts.reverse.dropWhile String.isEmpty).reverse
  let trailing := texts.length - core.length
  let text := if h.literal then "\n".intercalate core else foldBlock core
  let text := match h.chomp with
    | some false => text
    | none => if core.isEmpty then "" else text ++ "\n"
    | some true => text ++ String.ofList (List.replicate (trailing + if core.isEmpty then 0 else 1) '\n')
  (.str text, rest)

/-- Reads a node written on the rest of a line: a quoted scalar, a flow collection, a block
scalar or a plain scalar, taking the lines it continues on. -/
def inlineNode (parent : Int) (text : List Char) (lines : List Line) : Parse (Node × List Line) :=
  match text with
  | '"' :: _ | '\'' :: _ =>
    joined (fun cs => match quoted? cs with
      | some r => r.map fun (s, after) => (Node.str s, after)
      | none => fail "expected a quoted scalar") text lines
  | '[' :: _ | '\x7b' :: _ => joined flowCollection text lines
  | '|' :: h => do return blockScalar parent (← blockHeader true h) lines
  | '>' :: h => do return blockScalar parent (← blockHeader false h) lines
  | _ =>
    if isSeqItem text then fail "block sequence entries are not allowed here"
    else if !plainStart text then fail "unexpected character"
    else plainNode parent text lines

mutual

/-- Reads the node made of the lines indented beyond `parent`; with none, the node is empty. -/
def blockNode (fuel : Nat) (parent : Int) (lines : List Line) : Parse (Node × List Line) :=
  match fuel with
  | 0 => fail "document nested too deeply"
  | fuel + 1 =>
    match dropBlank lines with
    | [] => .ok (.plain "", [])
    | l :: rest =>
      if l.indent ≤ parent then .ok (.plain "", l :: rest)
      else if l.text.head? == some '\t' then fail "tab in indentation"
      else if isSeqItem l.text then blockSeq fuel l.indent (l :: rest) []
      else match entryOf? l.text with
        | some (.error e) => .error e
        | some (.ok _) => blockMap fuel l.indent (l :: rest) []
        | none => inlineNode parent l.text rest

/-- Reads the items of a block sequence at column `col`, after those read so far. -/
def blockSeq (fuel : Nat) (col : Nat) (lines : List Line) (acc : List Node) :
    Parse (Node × List Line) :=
  match fuel with
  | 0 => fail "document nested too deeply"
  | fuel + 1 =>
    match dropBlank lines with
    | l :: rest =>
      if l.text.head? == some '\t' then fail "tab in indentation"
      else if l.indent == col && isSeqItem l.text then do
        let after := l.text.drop 1
        let gap := (after.takeWhile isBlank).length
        let body := after.drop gap
        let (item, rest) ← if isRestBlank body then blockNode fuel col rest
          else blockNode fuel col (⟨col + 1 + gap, body⟩ :: rest)
        if deeper col rest then fail "bad indentation of a sequence entry"
        else blockSeq fuel col rest (acc ++ [item])
      else .ok (.seq acc, l :: rest)
    | [] => .ok (.seq acc, [])

/-- Reads the entries of a block mapping at column `col`, after those read so far. -/
def blockMap (fuel : Nat) (col : Nat) (lines : List Line) (acc : List (Node × Node)) :
    Parse (Node × List Line) :=
  match fuel with
  | 0 => fail "document nested too deeply"
  | fuel + 1 =>
    match dropBlank lines with
    | l :: rest =>
      if l.text.head? == some '\t' then fail "tab in indentation"
      else if l.indent == col && !isSeqItem l.text then
        match entryOf? l.text with
        | none => fail "could not find expected ':'"
        | some (.error e) => .error e
        | some (.ok (key, value)) => do
          let (v, rest) ← if isRestBlank value then
              match dropBlank rest with
              | n :: _ =>
                if col < n.indent then blockNode fuel col rest
                else if n.indent == col && isSeqItem n.text then blockSeq fuel col rest []
                else pure (Node.plain "", rest)
              | [] => pure (Node.plain "", rest)
            else inlineNode col value rest
          if deeper col rest then fail "bad indentation of a mapping entry"
          else blockMap fuel col rest (acc ++ [(key, v)])
      else .ok (.map acc, l :: rest)
    | [] => .ok (.map acc, [])

end

/-- Reads the node of a document's lines; nothing may follow it. -/
def document (lines : List Line) : Parse Node := do
  let fuel := 2 * (lines.foldl (fun n l => n + l.text.length + 1) 0) + 8
  let (node, rest) ← blockNode fuel (-1) lines
  if (dropBlank rest).isEmpty then pure node else fail "unexpected content after the document"

end Yaml

end MeterMatch
