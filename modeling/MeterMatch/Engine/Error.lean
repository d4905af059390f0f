import MeterMatch.Selector
import MeterMatch.Indexed
import MeterMatch.Queue.ChangeQueue

/-! # Engine errors

Why a rule write, a match, an index write or the handling of a rule change failed. Each
error's text is `EngineError.message`; errors wrapped from a lower layer keep that layer's text.
-/

namespace MeterMatch

/-- Why an engine operation failed. -/
inductive EngineError where
  /-- A rule or object without a usable key. -/
  | key (e : KeyError)
  /-- A rule that does not compile. -/
  | compile (rule : String) (reason : CompileError)
  /-- A rule that could not judge an object. -/
  | evaluation (rule object reason : String)
  /-- A push to a closed change queue. -/
  | queue (e : QueueError)
  /-- A rule change whose definition does not describe its key. -/
  | malformedDelta (key reason : String)
  /-- A corrupt association index. -/
  | invariant (fault : IndexFault)
  deriving DecidableEq, Inhabited

/-- The error's text. -/
def EngineError.message : EngineError → String
  | .key e => e.message
  | .compile rule reason => "rule '" ++ rule ++ "' failed to compile: " ++ reason.message
  | .evaluation rule object reason =>
    "rule '" ++ rule ++ "' failed to evaluate object '" ++ object ++ "': " ++ reason
  | .queue e => e.message
  | .malformedDelta k reason => "malformed delta for '" ++ k ++ "': " ++ reason
  | .invariant f => f.message

end MeterMatch
