import PointsTo.NodeSet
import PointsTo.Sorting
import Std.Data.TreeMap

/-!
# Strongly connected components

`Digraph.components` searches a graph depth first from given roots and finds
the components with at least two members among the vertices it reaches. A
vertex is numbered when the search enters it and stays pending, on the stack,
until its component is complete; a visit returns the smallest number of a
pending vertex that it met. If that is its own number, the vertices above it on
the stack are one component.

The graph is given by its successors. Each level of the search enters a new
vertex, so `order`, a bound on how many vertices can be reached from one,
bounds its depth.
-/

namespace PointsTo

structure Digraph where
  /-- At least the number of vertices that can be reached from one vertex. -/
  order : Nat
  successors : Nat → List Nat

namespace Digraph

/-- The graph of a list of edges, each from its first to its second vertex. -/
def ofEdges (edges : List (Nat × Nat)) : Digraph where
  order := 2 * edges.length + 1
  successors n := (edges.filter (·.1 == n)).map (·.2)

/-- The vertices that edges mention, in ascending order. -/
def endpoints (edges : List (Nat × Nat)) : List Nat :=
  (NodeSet.ofList (edges.flatMap fun (a, b) => [a, b])).elements

inductive Mark where
  /-- Entered as the vertex of this number, and its component is not complete. -/
  | pending (number : Nat)
  /-- Its component has been taken off the stack. -/
  | settled
deriving DecidableEq

structure Search where
  marks : Std.TreeMap Nat Mark := {}
  /-- The pending vertices, newest first. -/
  stack : List Nat := []
  /-- The successors listed by the vertices entered so far. -/
  edges : Nat := 0
  /-- The components found so far, each ascending. -/
  found : List (List Nat) := []

namespace Search

def mark? (s : Search) (v : Nat) : Option Mark := s.marks[v]?

/-- How many vertices have been entered; also the number of the next one. -/
def entered (s : Search) : Nat := s.marks.size

def enter (s : Search) (v : Nat) (successors : List Nat) : Search :=
  { s with
    marks := s.marks.insert v (.pending s.entered)
    stack := v :: s.stack
    edges := s.edges + successors.length }

/-- Takes `v` and what lies above it off the stack. -/
def settle (s : Search) (v : Nat) : Search :=
  let members := s.stack.takeWhile (· != v) ++ [v]
  { s with
    marks := members.foldl (fun marks w => marks.insert w .settled) s.marks
    stack := (s.stack.dropWhile (· != v)).tail
    found := if 1 < members.length then (NodeSet.ofList members).elements :: s.found
      else s.found }

/-- Looks at the next successor `w` of a vertex; `low` is the smallest pending
number met so far, and `descend` visits a vertex that is not entered yet. -/
def follow (descend : Nat → Search → Nat × Search) (low : Nat) (s : Search) (w : Nat) :
    Nat × Search :=
  match s.mark? w with
  | some (.pending number) => (min low number, s)
  | some .settled => (low, s)
  | none =>
    let (below, s) := descend w s
    (min low below, s)

end Search

/-- Enters `v`, follows its successors and settles its component if `v` is the
first vertex of it. -/
def visit (g : Digraph) : (depth : Nat) → Nat → Search → Nat × Search
  | 0, _, s => (s.entered, s)
  | depth + 1, v, s =>
    let number := s.entered
    let out := g.successors v
    let (low, s) := out.foldl (fun (low, s) w => s.follow (g.visit depth) low w)
      (number, s.enter v out)
    (low, if low = number then s.settle v else s)

def visitRoot (g : Digraph) (s : Search) (v : Nat) : Search :=
  match s.mark? v with
  | some _ => s
  | none => (g.visit g.order v s).2

def search (g : Digraph) (roots : List Nat) : Search := roots.foldl g.visitRoot {}

end Digraph

/-- What a search found: the components with at least two members, each
ascending, in the order of their smallest members. -/
structure Components where
  members : List (List Nat)
  visitedNodes : Nat
  visitedEdges : Nat

namespace Components

def isEmpty (c : Components) : Bool := c.members.isEmpty

def count (c : Components) : Nat := c.members.length

/-- The size of the largest component. -/
def largest (c : Components) : Nat := (c.members.map List.length).foldl max 0

/-- How many nodes disappear if each component becomes one node. -/
def collapsed (c : Components) : Nat := (c.members.map (·.length - 1)).foldr (· + ·) 0

/-- Compares two ascending components by their smallest members. -/
def precedes (c d : List Nat) : Bool := decide (c.headD 0 ≤ d.headD 0)

end Components

namespace Digraph

def components (g : Digraph) (roots : List Nat) : Components :=
  let s := g.search roots
  { members := sortBy Components.precedes s.found
    visitedNodes := s.entered
    visitedEdges := s.edges }

end Digraph

end PointsTo
