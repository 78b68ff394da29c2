import PointsTo.DisjointSets
import PointsTo.Json.Decode

/-!
# Classes of nodes in JSON

A table of classes is a record of its links, its ranks, which are bytes, and the
number of its classes. Reading takes it over as it stands, consistent or not.
-/

namespace PointsTo

namespace DisjointSets

def toJson (d : DisjointSets) : Json :=
  .record [("parent", .nats d.parent.toList), ("rank", .nats d.rank.toList),
    ("classes", .nat d.classes)]

def ofJson? (j : Json) : Option DisjointSets :=
  match j.fields? ["parent", "rank", "classes"] with
  | some [parent, rank, classes] => do
    return { parent := (← Json.required? (Json.list? Json.word?) parent).toArray
             rank := (← Json.required? (Json.list? (Json.natUpTo? maxRank)) rank).toArray
             classes := ← Json.required? Json.count? classes }
  | _ => none

end DisjointSets

end PointsTo
