import PointsTo.Config.PopStrategy
import PointsTo.Json.Decode

/-!
# Configurations in JSON

A configuration is a record of all its settings, in which the pop order is
written with its name first.
-/

namespace PointsTo

namespace PopStrategy

def toJson : PopStrategy → Json
  | .shuffled seed => .record [("order", .text "shuffled"), ("seed", .nat seed)]
  | s => .record [("order", .text s.orderName)]

def ofJson? : Json → Option PopStrategy
  | .object members => do
    let members ← Json.named? members
    let name ← Json.required? Json.string? (← Json.member? members "order")
    let others := members.filter (·.1 != "order")
    let entries ← others.mapM fun (key, j) => do
      return (Loose.text key, ← j.loose? Loose.maxDepth)
    ofEntries? name entries
  | .array (name :: others) => do
    ofItems? (← name.string?) (← others.mapM (Json.loose? Loose.maxDepth))
  | _ => none

end PopStrategy

namespace Limits

def toJson (l : Limits) : Json :=
  .record [("max_nodes", Json.option .nat l.maxNodes), ("max_merges", Json.option .nat l.maxMerges),
    ("max_pts_membership", Json.option .nat l.maxMembership)]

def ofJson? (j : Json) : Option Limits :=
  match j.fields? ["max_nodes", "max_merges", "max_pts_membership"] with
  | some [maxNodes, maxMerges, maxMembership] => do
    return { maxNodes := ← Json.optional? Json.count? maxNodes
             maxMerges := ← Json.optional? Json.count? maxMerges
             maxMembership := ← Json.optional? Json.count? maxMembership }
  | _ => none

end Limits

namespace Config

def toJson (c : Config) : Json :=
  .record [("field_sensitive", .bool c.fieldSensitive), ("optimize", .bool c.optimize),
    ("offline_cycle_detection", .bool c.cyclePass),
    ("offline_equivalence", .bool c.equivalencePass), ("scc_interval", .nat c.sccInterval),
    ("worklist", c.worklist.toJson), ("limits", c.limits.toJson),
    ("parallel_threshold", .nat c.parallelThreshold),
    ("dump_constraints", .bool c.dumpConstraints), ("dump_result", .bool c.dumpResult),
    ("dump_debug", .bool c.dumpDebug)]

def ofJson? (j : Json) : Option Config :=
  match j.fields? fieldNames with
  | some [fieldSensitive, optimize, cyclePass, equivalencePass, sccInterval, worklist, limits,
      parallelThreshold, dumpConstraints, dumpResult, dumpDebug] => do
    return { fieldSensitive := ← Json.required? Json.bool? fieldSensitive
             optimize := ← Json.required? Json.bool? optimize
             cyclePass := ← Json.required? Json.bool? cyclePass
             equivalencePass := ← Json.required? Json.bool? equivalencePass
             sccInterval := ← Json.required? Json.count? sccInterval
             worklist := ← Json.required? PopStrategy.ofJson? worklist
             limits := ← Json.required? Limits.ofJson? limits
             parallelThreshold := ← Json.required? Json.count? parallelThreshold
             dumpConstraints := ← Json.required? Json.bool? dumpConstraints
             dumpResult := ← Json.required? Json.bool? dumpResult
             dumpDebug := ← Json.required? Json.bool? dumpDebug }
  | _ => none

end Config

end PointsTo
