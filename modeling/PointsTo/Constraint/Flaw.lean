import PointsTo.Constraint
import PointsTo.NodeTable

/-!
# Flawed constraints

A constraint is well formed for a node table if it has no `Flaw`. An offset is
held against the largest object of the table only if fields are told apart;
otherwise it has no effect and any offset will do.
-/

namespace PointsTo

inductive Flaw where
  /-- An operand lies outside the table. -/
  | unknownNode (n size : Nat)
  /-- The kind of constraint takes no offset. -/
  | offsetTaken (kind : ConstraintKind) (offset : Nat)
  /-- The address of a variable is taken. -/
  | notPointee (n : Nat)
  /-- No object has so many fields. -/
  | offsetTooLarge (offset largest : Nat)
deriving DecidableEq

def Flaw.message : Flaw → String
  | unknownNode n size => s!"unknown node n{n} (table has {size} nodes)"
  | offsetTaken kind offset => s!"{kind.name} does not take an offset (got {offset})"
  | notPointee n => s!"ADDR_OF source n{n} is not an object or special node"
  | offsetTooLarge offset largest =>
    s!"offset {offset} exceeds the largest field count {largest}"

namespace Constraint

/-- The first thing that is wrong with a constraint. -/
def flaw? (t : NodeTable) (fieldSensitive : Bool) (c : Constraint) : Option Flaw :=
  if c.dest ≥ t.size then some (.unknownNode c.dest t.size)
  else if c.src ≥ t.size then some (.unknownNode c.src t.size)
  else
    match c.kind with
    | .addrOf =>
      if c.offset ≠ 0 then some (.offsetTaken .addrOf c.offset)
      else if t.isPointee c.src then none
      else some (.notPointee c.src)
    | .copy => if c.offset ≠ 0 then some (.offsetTaken .copy c.offset) else none
    | .load | .store =>
      if fieldSensitive ∧ 0 < c.offset ∧ t.maxFieldCount ≤ c.offset then
        some (.offsetTooLarge c.offset t.maxFieldCount)
      else none

/-- The first flawed constraint of a list whose first element has the number
`index`, with its number and its flaw. -/
def firstFlaw? (t : NodeTable) (fieldSensitive : Bool) :
    (index : Nat) → List Constraint → Option (Nat × Flaw)
  | _, [] => none
  | index, c :: cs =>
    match c.flaw? t fieldSensitive with
    | some flaw => some (index, flaw)
    | none => firstFlaw? t fieldSensitive (index + 1) cs

end Constraint

/-- Fails at the first constraint that is not well formed. -/
def NodeTable.validate (t : NodeTable) (fieldSensitive : Bool) (cs : List Constraint) :
    Except AnalysisError Unit :=
  match Constraint.firstFlaw? t fieldSensitive 0 cs with
  | some (index, flaw) => .error (.invalidConstraint index flaw.message)
  | none => .ok ()

end PointsTo
