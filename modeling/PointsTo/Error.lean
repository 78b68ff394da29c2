/-!
# Errors

Why a configuration is refused (`ConfigError`) and why a run fails
(`AnalysisError`). An error records its cause; the wording is in `message`.
A message about values that come from a caller quotes the text it was given.
-/

namespace PointsTo

inductive ConfigError where
  /-- A setting lies outside its range. -/
  | range (field value least greatest hint : String)
  | unknownPreset (name : String)
  /-- Two settings contradict each other. -/
  | conflict (issue remedy : String)
  /-- A document cannot be read from where it is kept. -/
  | unreadable
  /-- A document is no configuration. -/
  | malformed
deriving DecidableEq

namespace ConfigError

def message : ConfigError → String
  | range field value least greatest hint =>
    s!"{field} = {value} is outside {least}..={greatest} ({hint})"
  | unknownPreset name => s!"no preset named '{name}' (expected fast, balanced or thorough)"
  | conflict issue remedy => s!"conflicting settings: {issue}; {remedy}"
  | unreadable => "cannot read configuration"
  | malformed => "malformed YAML configuration"

end ConfigError

/-- What a run may use up. -/
inductive Resource where
  | merges
  | membership
deriving DecidableEq

def Resource.name : Resource → String
  | .merges => "merge count"
  | .membership => "points-to membership"

inductive AnalysisError where
  | invalidConstraint (index : Nat) (reason : String)
  | invalidMerge (a b : Nat) (reason : String)
  | capacityExceeded (limit : Nat)
  | resourceExceeded (resource : Resource) (limit : Nat)
  /-- The graph is frozen and takes no more nodes and constraints. -/
  | graphFrozen
  /-- An earlier failure ended the run. -/
  | aborted
  /-- A defect of the engine, never of the input. -/
  | inconsistent (reason : String)
  | config (cause : ConfigError)
deriving DecidableEq

namespace AnalysisError

def message : AnalysisError → String
  | invalidConstraint index reason => s!"Invalid constraint #{index}: {reason}"
  | invalidMerge a b reason => s!"Invalid merge of n{a} and n{b}: {reason}"
  | capacityExceeded limit => s!"Node capacity exceeded: limit is {limit} nodes"
  | resourceExceeded resource limit =>
    s!"Resource exceeded: {resource.name} went over the limit of {limit}"
  | graphFrozen => "Points-to graph is frozen; the analysis no longer accepts mutations"
  | aborted => "Analysis run was aborted; no points-to graph is available"
  | inconsistent reason => s!"Internal consistency failure: {reason}"
  | config cause => s!"Configuration error: {cause.message}"

/-- Whether the error shows a defect of the engine. -/
def isInternal : AnalysisError → Bool
  | inconsistent _ => true
  | _ => false

end AnalysisError

end PointsTo
