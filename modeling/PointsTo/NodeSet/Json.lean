import PointsTo.NodeSet
import PointsTo.Json.Decode

/-!
# Sets of nodes in JSON

A set is the array of its nodes. Reading takes them over as they stand, in
order or not.
-/

namespace PointsTo

namespace NodeSet

def toJson (s : NodeSet) : Json := .nats s.elements

def ofJson? (j : Json) : Option NodeSet := (j.list? Json.word?).map (⟨·⟩)

end NodeSet

end PointsTo
