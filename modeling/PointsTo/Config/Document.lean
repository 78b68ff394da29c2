import PointsTo.Config.Preset

/-!
# Configuration documents

A `Document` names a preset and overrides some of its settings. It states the
version of its format, of which there is one. A configuration is written as a
document that overrides every setting, so reading it does not depend on the
preset; what was wrong with the configuration is found again by reading.
-/

namespace PointsTo

/-- Settings that replace those of a preset. -/
structure Overrides where
  fieldSensitive : Option Bool := none
  optimize : Option Bool := none
  cyclePass : Option Bool := none
  equivalencePass : Option Bool := none
  sccInterval : Option Nat := none
  worklist : Option PopStrategy := none
  limits : Option Limits := none
  parallelThreshold : Option Nat := none
  dumpConstraints : Option Bool := none
  dumpResult : Option Bool := none
  dumpDebug : Option Bool := none
deriving DecidableEq, Inhabited

namespace Overrides

/-- Replaces what is overridden, each setting for itself. -/
def apply (o : Overrides) (c : Config) : Config where
  fieldSensitive := o.fieldSensitive.getD c.fieldSensitive
  optimize := o.optimize.getD c.optimize
  cyclePass := o.cyclePass.getD c.cyclePass
  equivalencePass := o.equivalencePass.getD c.equivalencePass
  sccInterval := o.sccInterval.getD c.sccInterval
  worklist := o.worklist.getD c.worklist
  limits := o.limits.getD c.limits
  parallelThreshold := o.parallelThreshold.getD c.parallelThreshold
  dumpConstraints := o.dumpConstraints.getD c.dumpConstraints
  dumpResult := o.dumpResult.getD c.dumpResult
  dumpDebug := o.dumpDebug.getD c.dumpDebug

def full (c : Config) : Overrides where
  fieldSensitive := some c.fieldSensitive
  optimize := some c.optimize
  cyclePass := some c.cyclePass
  equivalencePass := some c.equivalencePass
  sccInterval := some c.sccInterval
  worklist := some c.worklist
  limits := some c.limits
  parallelThreshold := some c.parallelThreshold
  dumpConstraints := some c.dumpConstraints
  dumpResult := some c.dumpResult
  dumpDebug := some c.dumpDebug

theorem apply_full (c d : Config) : (full c).apply d = c := rfl

end Overrides

structure Document where
  version : Nat
  preset : Preset
  overrides : Option Overrides
deriving DecidableEq, Inhabited

namespace Document

def supportedVersion : Nat := 1

def versionError (version : Nat) : ConfigError :=
  .range "version" (toString version) (toString supportedVersion) (toString supportedVersion)
    "Only schema version 1 is supported"

/-- The configuration that a document describes, checked. -/
def toConfig (d : Document) : Except ConfigError Config :=
  if d.version ≠ supportedVersion then .error (versionError d.version)
  else
    let c := match d.overrides with
      | some o => o.apply d.preset.config
      | none => d.preset.config
    match c.fault? with
    | some e => .error e
    | none => .ok c

end Document

/-- The document that spells out every setting. -/
def Config.toDocument (c : Config) : Document where
  version := Document.supportedVersion
  preset := .balanced
  overrides := some (.full c)

end PointsTo
