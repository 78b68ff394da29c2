import PointsTo.Error

/-!
# Events

What a run reports while it works: the failures that end it, the accesses that
leave an object's layout, and the dumps that the configuration asks for. An
event is recorded as data; level, message and fields are how it is shown.
-/

namespace PointsTo

inductive Event where
  | solvingAborted (cause : AnalysisError)
  | analysisAborted (cause : AnalysisError)
  | creationFailed (cause : AnalysisError)
  /-- An access beyond the last field of an object was led to its base. -/
  | outsideLayout (object offset fieldCount : Nat)
  | dump (title text : String)
deriving DecidableEq

namespace Event

inductive Level where
  | error
  | warn
  | debug
deriving DecidableEq

def Level.name : Level → String
  | .error => "ERROR"
  | .warn => "WARN"
  | .debug => "DEBUG"

inductive Field where
  | text (t : String)
  | number (n : Nat)
deriving DecidableEq

def level : Event → Level
  | solvingAborted _ | analysisAborted _ | creationFailed _ => .error
  | outsideLayout _ _ _ => .warn
  | dump _ _ => .debug

def message : Event → String
  | solvingAborted _ => "points-to solving aborted"
  | analysisAborted _ => "points-to analysis aborted"
  | creationFailed _ => "node creation failed, aborting analysis"
  | outsideLayout _ _ _ => "field offset outside object layout, using base object"
  | dump title text => title ++ "\n" ++ text

def fields : Event → List (String × Field)
  | solvingAborted cause | analysisAborted cause | creationFailed cause =>
    [("error", .text cause.message)]
  | outsideLayout object offset fieldCount =>
    [("object", .number object), ("offset", .number offset), ("field_count", .number fieldCount)]
  | dump _ _ => []

end Event

end PointsTo
