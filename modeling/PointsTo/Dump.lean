import PointsTo.Constraint
import PointsTo.Graph

/-!
# Dumps

Listings of constraints and of points-to graphs, one line for each item. The
plain forms are numbers only and lose nothing; the readable form of constraints
writes nodes by their labels, between a header and a footer line.
-/

namespace PointsTo

namespace Dump

def lines (ls : List String) : String := String.join (ls.map (· ++ "\n"))

/-- Numbers with blanks between them. -/
def numbers (ns : List Nat) : String := String.intercalate " " (ns.map toString)

/-- Kind, destination, source and offset. -/
def constraintLine (c : Constraint) : String := numbers [c.kind.code, c.dest, c.src, c.offset]

def constraintsPlain (cs : List Constraint) : String := lines (cs.map constraintLine)

/-- The label of a node; a node outside the table has only its number. -/
def label (nodes : Array Node) (n : Nat) : String :=
  match nodes[n]? with
  | some node => node.label
  | none => s!"n{n}"

/-- What a pointer points to, or a field of it. -/
def access (pointer : String) (offset : Nat) : String :=
  if offset = 0 then "*" ++ pointer else s!"*({pointer} + {offset})"

def constraintText (nodes : Array Node) (c : Constraint) : String :=
  let dest := label nodes c.dest
  let src := label nodes c.src
  match c.kind with
  | .addrOf => dest ++ " = &" ++ src
  | .copy => dest ++ " = " ++ src
  | .load => dest ++ " = " ++ access src c.offset
  | .store => access dest c.offset ++ " = " ++ src

def constraintsPretty (nodes : Array Node) (cs : List Constraint) : String :=
  lines (["----- Constraints -----"] ++ cs.map (constraintText nodes) ++
    ["----- End of Print -----"])

/-- A node and what it points to, for every node that points to something. -/
def pointsToPlain (g : Graph) : String :=
  lines (g.entries.map fun (n, s) => numbers (n :: s.elements))

def kindText : NodeKind → String
  | .value => "value"
  | .object l => s!"object base {l.base} offset {l.offset} of {l.fieldCount}"
  | .special kind => "special " ++ kind.name

/-- Index, label, kind and representative of every node. -/
def nodeInfo (g : Graph) : String :=
  lines (g.nodes.toList.map fun node =>
    s!"{node.index} {node.label} {kindText node.kind} rep {g.representativeOf node.index}")

end Dump

end PointsTo
