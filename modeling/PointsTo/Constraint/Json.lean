import PointsTo.Constraint
import PointsTo.Json.Decode

/-!
# Constraints in JSON

A constraint is a record of its kind, destination, source and offset, in this
order, with 32-bit numbers.
-/

namespace PointsTo

def ConstraintKind.variantName : ConstraintKind → String
  | .addrOf => "AddrOf"
  | .copy => "Copy"
  | .load => "Load"
  | .store => "Store"

def ConstraintKind.ofJson? (j : Json) : Option ConstraintKind := do
  let name ← j.plainVariant?
  all.find? (·.variantName == name)

namespace Constraint

def toJson (c : Constraint) : Json :=
  .record [("kind", .text c.kind.variantName), ("dest", .nat c.dest), ("src", .nat c.src),
    ("offset", .nat c.offset)]

def ofJson? (j : Json) : Option Constraint :=
  match j.fields? ["kind", "dest", "src", "offset"] with
  | some [kind, dest, src, offset] => do
    return { kind := ← Json.required? ConstraintKind.ofJson? kind
             dest := ← Json.required? Json.word? dest
             src := ← Json.required? Json.word? src
             offset := ← Json.required? Json.word? offset }
  | _ => none

end Constraint

end PointsTo
