import PointsTo.Graph
import PointsTo.NodeSet.Json

/-!
# Points-to graphs in JSON

A graph is a record of its nodes, representatives, sets and statistics. A kind
of node is a variant: `Value`, or `Object` and `Special` with what belongs to
them.
-/

namespace PointsTo

namespace Special

def variantName : Special → String
  | .null => "Null"
  | .universal => "Universal"

def ofJson? (j : Json) : Option Special := do
  let name ← j.plainVariant?
  [Special.null, .universal].find? (·.variantName == name)

end Special

namespace Layout

def toJson (l : Layout) : Json :=
  .record [("base", .nat l.base), ("offset", .nat l.offset), ("field_count", .nat l.fieldCount)]

def ofJson? (j : Json) : Option Layout :=
  match j.fields? ["base", "offset", "field_count"] with
  | some [base, offset, fieldCount] => do
    return { base := ← Json.required? Json.word? base
             offset := ← Json.required? Json.word? offset
             fieldCount := ← Json.required? Json.word? fieldCount }
  | _ => none

end Layout

namespace NodeKind

def toJson : NodeKind → Json
  | .value => .text "Value"
  | .object layout => .record [("Object", layout.toJson)]
  | .special kind => .record [("Special", .text kind.variantName)]

def ofJson? (j : Json) : Option NodeKind :=
  match j.variant? with
  | some ("Value", none) => some .value
  | some ("Value", some .null) => some .value
  | some ("Object", some layout) => (Layout.ofJson? layout).map .object
  | some ("Special", some kind) => (Special.ofJson? kind).map .special
  | _ => none

end NodeKind

namespace Node

def toJson (n : Node) : Json := .record [("index", .nat n.index), ("kind", n.kind.toJson)]

def ofJson? (j : Json) : Option Node :=
  match j.fields? ["index", "kind"] with
  | some [index, kind] => do
    return { index := ← Json.required? Json.word? index
             kind := ← Json.required? NodeKind.ofJson? kind }
  | _ => none

end Node

namespace GraphStats

def toJson (s : GraphStats) : Json := .record (s.fields.map fun (name, n) => (name, .nat n))

def ofJson? (j : Json) : Option GraphStats := do
  let fields ← j.fields? (({} : GraphStats).fields.map (·.1))
  match ← fields.mapM (Json.required? Json.count?) with
  | [totalNodes, totalClasses, mergedNodes, nonemptySets, totalMemberships, maxPointsToSize] =>
    return { totalNodes, totalClasses, mergedNodes, nonemptySets, totalMemberships,
             maxPointsToSize }
  | _ => none

end GraphStats

namespace Graph

def toJson (g : Graph) : Json :=
  .record [("nodes", .array (g.nodes.toList.map Node.toJson)),
    ("representatives", .nats g.representatives.toList),
    ("sets", .array (g.sets.toList.map NodeSet.toJson)), ("stats", g.stats.toJson)]

def ofJson? (j : Json) : Option Graph :=
  match j.fields? ["nodes", "representatives", "sets", "stats"] with
  | some [nodes, representatives, sets, stats] => do
    return { nodes := (← Json.required? (Json.list? Node.ofJson?) nodes).toArray
             representatives := (← Json.required? (Json.list? Json.word?) representatives).toArray
             sets := (← Json.required? (Json.list? NodeSet.ofJson?) sets).toArray
             stats := ← Json.required? GraphStats.ofJson? stats }
  | _ => none

end Graph

end PointsTo
