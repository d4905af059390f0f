import MeterMatch.Object

/-! # Associations

An association records which rules meter an object: the object's key, the object as it was
matched, and the keys of the matching rules in rule order, each once.
-/

namespace MeterMatch

/-- The rules that meter one object. -/
structure Association where
  key : ObjectKey
  object : CandidateObject
  rules : List ObjectKey
  deriving DecidableEq, Inhabited

namespace Association

/-- Keeps the first occurrence of each key, in order. -/
def dedup : List ObjectKey → List ObjectKey
  | [] => []
  | k :: rest => k :: (dedup rest).filter (· != k)

/-- An association, with repeated rules dropped. -/
def make (key : ObjectKey) (object : CandidateObject) (rules : List ObjectKey) : Association :=
  ⟨key, object, dedup rules⟩

/-- The generation of the matched object. -/
def generation (a : Association) : Int := a.object.generation

/-- Whether the rule meters the object. -/
def containsRule (a : Association) (rule : ObjectKey) : Bool := a.rules.contains rule

/-- `key@generation=[rule,rule]`. -/
def summary (a : Association) : String :=
  a.key.display ++ "@" ++ toString a.generation ++ "=[" ++
    ",".intercalate (a.rules.map ObjectKey.display) ++ "]"

end Association

end MeterMatch
