import PointsTo.Limits
import PointsTo.Worklist

/-!
# Configuration

One `Config` drives the reduction, the solver and the diagnostics of a run. Its
settings are independent of each other with one exception: the offline passes
belong to the reduction, so switching the reduction off by a `Setting` switches
them off as well, and a configuration that still asks for them is at fault.
-/

namespace PointsTo

/-- The pop order of the worklist, as a configuration names it. -/
inductive PopStrategy where
  | fifo
  | lifo
  | shuffled (seed : Nat)
deriving DecidableEq, Inhabited

/-- The pop order of a strategy if each seed stands for a stream of numbers. -/
def PopStrategy.popOrderBy (draws : Nat → Nat → Nat) : PopStrategy → PopOrder
  | .fifo => .oldest
  | .lifo => .newest
  | .shuffled seed => .drawn (draws seed)

def PopStrategy.popOrder : PopStrategy → PopOrder := popOrderBy PopOrder.scramble

structure Config where
  /-- Lead an access with an offset to the field it names. -/
  fieldSensitive : Bool
  /-- Reduce the constraints before solving. -/
  optimize : Bool
  /-- Collapse the cycles of the given copy constraints before solving. -/
  cyclePass : Bool
  /-- Merge variables with the same inputs before solving. -/
  equivalencePass : Bool
  /-- Look for cycles after so many processed nodes; with 0 only when no node
  is left. -/
  sccInterval : Nat
  worklist : PopStrategy
  limits : Limits
  parallelThreshold : Nat
  dumpConstraints : Bool
  dumpResult : Bool
  dumpDebug : Bool
deriving DecidableEq, Inhabited

namespace Config

/-- The names of the settings, in the order of their declaration. -/
def fieldNames : List String :=
  ["field_sensitive", "optimize", "offline_cycle_detection", "offline_equivalence",
    "scc_interval", "worklist", "limits", "parallel_threshold", "dump_constraints",
    "dump_result", "dump_debug"]

def maxInterval : Nat := 100000000

def offlineConflict : ConfigError :=
  .conflict "offline passes are enabled while the optimizer is disabled"
    "set optimize: true or disable offline_cycle_detection and offline_equivalence"

/-- The first thing that is wrong with a configuration. -/
def fault? (c : Config) : Option ConfigError :=
  if maxInterval < c.sccInterval then
    some (.range "scc_interval" (toString c.sccInterval) "0" (toString maxInterval)
      "Use 0 to detect cycles only at worklist exhaustion")
  else if c.parallelThreshold = 0 then
    some (.range "parallel_threshold" "0" "1" (toString maxCount)
      "Parallel threshold must be at least one node")
  else if !c.optimize && (c.cyclePass || c.equivalencePass) then some offlineConflict
  else c.limits.fault?

def validate (c : Config) : Except ConfigError Unit :=
  match c.fault? with
  | some e => .error e
  | none => .ok ()

/-- One change to a configuration. -/
inductive Setting where
  | fieldSensitive (on : Bool)
  | optimize (on : Bool)
  | cyclePass (on : Bool)
  | equivalencePass (on : Bool)
  | sccInterval (pops : Nat)
  | worklist (strategy : PopStrategy)
  | limits (limits : Limits)
  | maxNodes (limit : Option Nat)
  | maxMerges (limit : Option Nat)
  | maxMembership (limit : Option Nat)
  | parallelThreshold (nodes : Nat)
  | dumpConstraints (on : Bool)
  | dumpResult (on : Bool)
  | dumpDebug (on : Bool)
deriving DecidableEq

/-- Without the reduction there are no offline passes. -/
def set (c : Config) : Setting → Config
  | .fieldSensitive on => { c with fieldSensitive := on }
  | .optimize on =>
    { c with
      optimize := on
      cyclePass := c.cyclePass && on
      equivalencePass := c.equivalencePass && on }
  | .cyclePass on => { c with cyclePass := on }
  | .equivalencePass on => { c with equivalencePass := on }
  | .sccInterval pops => { c with sccInterval := pops }
  | .worklist strategy => { c with worklist := strategy }
  | .limits limits => { c with limits }
  | .maxNodes limit => { c with limits.maxNodes := limit }
  | .maxMerges limit => { c with limits.maxMerges := limit }
  | .maxMembership limit => { c with limits.maxMembership := limit }
  | .parallelThreshold nodes => { c with parallelThreshold := nodes }
  | .dumpConstraints on => { c with dumpConstraints := on }
  | .dumpResult on => { c with dumpResult := on }
  | .dumpDebug on => { c with dumpDebug := on }

def setAll (c : Config) (settings : List Setting) : Config := settings.foldl set c

end Config

end PointsTo
