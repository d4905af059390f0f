import MeterMatch.Yaml.Block

/-! # YAML streams

A YAML text is a stream of documents. A line `---` starts a document (text after it on the
same line belongs to the document), a line `...` ends one, and content before the first
marker forms a document of its own. A document begun by a marker exists even when empty; one
without a marker only when it has content. Directive lines (`%…`) before a document's content
are skipped. Line ends may be `\r\n`, and a leading byte order mark is ignored.

* `Yaml.documents` reads every document of a stream.
* `Yaml.single` reads a stream that must hold exactly one document.
-/

namespace MeterMatch

namespace Yaml

/-- What a line at the left margin says about documents. -/
inductive Marker where
  /-- `---`, with the text after it. -/
  | start (rest : List Char)
  /-- `...`. -/
  | finish
  /-- A line of content. -/
  | content

/-- The marker a line is. -/
def markerOf : List Char → Marker
  | ['-', '-', '-'] => .start []
  | '-' :: '-' :: '-' :: c :: rest => if isBlank c then .start (c :: rest) else .content
  | ['.', '.', '.'] => .finish
  | '.' :: '.' :: '.' :: c :: _ => if isBlank c then .finish else .content
  | _ => .content

/-- Documents split so far, with the lines of the open one. -/
structure Splitting where
  done : List (List Line) := []
  /-- The open document's lines, if a document is open. -/
  current : Option (List Line) := none
  /-- Whether the open document began with a marker. -/
  explicit : Bool := false

namespace Splitting

/-- Closes the open document, keeping it if it began with a marker or has content. -/
def close (s : Splitting) : Splitting :=
  match s.current with
  | some ls => if s.explicit || ls.any (!·.isBlank) then { done := s.done ++ [ls] } else { done := s.done }
  | none => { done := s.done }

/-- Takes one line of the stream. -/
def push (s : Splitting) (cs : List Char) : Splitting :=
  match markerOf cs with
  | .start rest =>
    let gap := (rest.takeWhile isBlank).length
    let body := rest.drop gap
    let first := if isRestBlank body then [] else [⟨3 + gap, body⟩]
    { s.close with current := some first, explicit := true }
  | .finish => s.close
  | .content =>
    let fresh := match s.current with
      | some ls => !ls.any (!·.isBlank)
      | none => true
    if cs.head? == some '%' && fresh then s
    else match s.current with
      | some ls => { s with current := some (ls ++ [Line.ofChars cs]) }
      | none => { s with current := some [Line.ofChars cs], explicit := false }

end Splitting

/-- The lines of a text, without line-end characters or a leading byte order mark. -/
def lines (text : String) : List (List Char) :=
  let cs := text.toList
  let cs := if cs.head? == some '\uFEFF' then cs.drop 1 else cs
  (cs.splitOn '\n').map fun l => if l.getLast? == some '\r' then l.dropLast else l

/-- The documents of a stream, as lines. -/
def split (text : String) : List (List Line) :=
  ((lines text).foldl Splitting.push {}).close.done

/-- Reads every document of a stream. -/
def documents (text : String) : Parse (List Node) := (split text).mapM document

/-- Reads a stream that holds exactly one document. -/
def single (text : String) : Parse Node :=
  match split text with
  | [d] => document d
  | [] => fail "no document in the stream"
  | _ => fail "more than one document in the stream"

end Yaml

end MeterMatch
