import PointsTo.Config.Document
import PointsTo.Config.PopStrategy
import PointsTo.Yaml.Reading

/-!
# Configuration documents in YAML

A document is a mapping from the names of its parts, and so are its overrides,
limits and pop order. Names that are not known are refused in the document and
its overrides, and passed over in limits. An override without a value is no
override.
-/

namespace PointsTo

namespace PopStrategy

def toYaml : PopStrategy → Yaml
  | .shuffled seed => .record [("order", .plain "shuffled"), ("seed", .nat seed)]
  | s => .record [("order", .plain s.orderName)]

/-- The keys are set aside as well, as none of them is known before it is read. -/
def readYaml (y : Yaml) : Yaml.Reading PopStrategy := do
  match ← Yaml.follow y with
  | .mapping tag entries =>
    if Yaml.isOwn tag then failure
    let entries ← entries.mapM fun (key, y) =>
      return (← Yaml.readLoose Loose.maxDepth key, y)
    match entries.filter (·.1 == .text "order") with
    | [(_, name)] =>
      let name ← Yaml.readText name
      let others ← (entries.filter (·.1 != .text "order")).mapM fun (key, y) =>
        return (key, ← Yaml.readLoose Loose.maxDepth y)
      ofEntries? name others
    | _ => failure
  | .sequence tag (name :: items) =>
    if Yaml.isOwn tag then failure
    ofItems? (← Yaml.readText name) (← items.mapM (Yaml.readLoose Loose.maxDepth))
  | _ => failure

end PopStrategy

namespace Limits

def toYaml (l : Limits) : Yaml :=
  .record [("max_nodes", Yaml.option .nat l.maxNodes),
    ("max_merges", Yaml.option .nat l.maxMerges),
    ("max_pts_membership", Yaml.option .nat l.maxMembership)]

def readYaml (y : Yaml) : Yaml.Reading Limits := do
  let entries ← Yaml.readEntries y
  return { maxNodes := ← Yaml.readOptional Yaml.readCount entries "max_nodes"
           maxMerges := ← Yaml.readOptional Yaml.readCount entries "max_merges"
           maxMembership := ← Yaml.readOptional Yaml.readCount entries "max_pts_membership" }

end Limits

namespace Preset

/-- A preset by its exact name, or by a tag without a value. -/
def ofScalar? (tag : Option Yaml.Tag) (style : Yaml.Style) (text : String) : Option Preset :=
  match tag with
  | some (.own name) =>
    if style = .plain ∧ Yaml.isNullText text then all.find? (·.name == name) else none
  | _ => all.find? (·.name == text)

def readYaml (y : Yaml) : Yaml.Reading Preset := do
  match ← Yaml.follow y with
  | .scalar tag style text => ofScalar? tag style text
  | _ => failure

end Preset

namespace Overrides

/-- The overridden settings, by name. -/
def toYaml (o : Overrides) : Yaml :=
  .record ([("field_sensitive", o.fieldSensitive.map Yaml.bool),
    ("optimize", o.optimize.map Yaml.bool),
    ("offline_cycle_detection", o.cyclePass.map Yaml.bool),
    ("offline_equivalence", o.equivalencePass.map Yaml.bool),
    ("scc_interval", o.sccInterval.map Yaml.nat),
    ("worklist", o.worklist.map PopStrategy.toYaml),
    ("limits", o.limits.map Limits.toYaml),
    ("parallel_threshold", o.parallelThreshold.map Yaml.nat),
    ("dump_constraints", o.dumpConstraints.map Yaml.bool),
    ("dump_result", o.dumpResult.map Yaml.bool),
    ("dump_debug", o.dumpDebug.map Yaml.bool)].filterMap fun (name, y) => y.map (name, ·))

def readYaml (y : Yaml) : Yaml.Reading Overrides := do
  let entries ← Yaml.readEntries y
  if !Yaml.knownOnly Config.fieldNames entries then failure
  return { fieldSensitive := ← Yaml.readOptional Yaml.readBool entries "field_sensitive"
           optimize := ← Yaml.readOptional Yaml.readBool entries "optimize"
           cyclePass := ← Yaml.readOptional Yaml.readBool entries "offline_cycle_detection"
           equivalencePass := ← Yaml.readOptional Yaml.readBool entries "offline_equivalence"
           sccInterval := ← Yaml.readOptional Yaml.readCount entries "scc_interval"
           worklist := ← Yaml.readOptional PopStrategy.readYaml entries "worklist"
           limits := ← Yaml.readOptional Limits.readYaml entries "limits"
           parallelThreshold := ← Yaml.readOptional Yaml.readCount entries "parallel_threshold"
           dumpConstraints := ← Yaml.readOptional Yaml.readBool entries "dump_constraints"
           dumpResult := ← Yaml.readOptional Yaml.readBool entries "dump_result"
           dumpDebug := ← Yaml.readOptional Yaml.readBool entries "dump_debug" }

end Overrides

namespace Document

def toYaml (d : Document) : Yaml :=
  .record ([("version", .nat d.version), ("preset", .plain d.preset.name)] ++
    (d.overrides.map fun o => ("overrides", o.toYaml)).toList)

def readYaml (y : Yaml) : Yaml.Reading Document := do
  let entries ← Yaml.readEntries y
  if !Yaml.knownOnly ["version", "preset", "overrides"] entries then failure
  return { version := ← Yaml.readRequired (Yaml.readNat maxIndex) entries "version"
           preset := ← Yaml.readRequired Preset.readYaml entries "preset"
           overrides := ← Yaml.readOptional Overrides.readYaml entries "overrides" }

end Document

namespace Config

/-- The YAML text of a configuration, with every setting spelled out. -/
def toYamlText (c : Config) : String := c.toDocument.toYaml.text

/-- Reads a configuration from YAML text and checks it. -/
def ofYamlText (s : String) : Except ConfigError Config :=
  match (Yaml.parse? s).bind (·.read? Document.readYaml) with
  | some d => d.toConfig
  | none => .error .malformed

end Config

end PointsTo
