import PointsTo.Node
import PointsTo.NodeSet
import PointsTo.Text.Quotient

/-!
# The points-to graph

A `Graph` is the frozen result of a run: the nodes, the representative of each,
and a set per node of which only those at representatives count. All questions
go through the table of representatives. A graph that was stored may be
inconsistent; it answers with what it has, an unknown node representing itself
and a missing set being empty.

Nodes are named by indices of 32 bits, and a node table has at most `maxIndex`
of them. Graphs of more nodes are out of scope: the indices that `entries` and
`classes` give are not cut to 32 bits.
-/

namespace PointsTo

structure GraphStats where
  totalNodes : Nat := 0
  totalClasses : Nat := 0
  mergedNodes : Nat := 0
  nonemptySets : Nat := 0
  totalMemberships : Nat := 0
  maxPointsToSize : Nat := 0
deriving DecidableEq, Inhabited

namespace GraphStats

def fields (s : GraphStats) : List (String × Nat) :=
  [("total_nodes", s.totalNodes), ("total_classes", s.totalClasses),
    ("merged_nodes", s.mergedNodes), ("nonempty_sets", s.nonemptySets),
    ("total_memberships", s.totalMemberships), ("max_points_to_size", s.maxPointsToSize)]

/-- The average size of a set that is not empty. -/
def averageSize (s : GraphStats) : Text.Fraction :=
  if s.nonemptySets = 0 then ⟨0, 1⟩ else Text.quotient s.totalMemberships s.nonemptySets

end GraphStats

structure Graph where
  nodes : Array Node
  representatives : Array Nat
  sets : Array NodeSet
  stats : GraphStats
deriving DecidableEq

namespace Graph

/-- The statistics of so many nodes, their representatives and their sets. -/
def statsOf (nodes : Nat) (representatives : List Nat) (sets : List NodeSet) : GraphStats where
  totalNodes := nodes
  totalClasses := (representatives.zipIdx.filter fun (rep, i) => rep == i).length
  mergedNodes := (representatives.zipIdx.filter fun (rep, i) => rep != i).length
  nonemptySets := (sets.filter (!·.isEmpty)).length
  totalMemberships := (sets.map NodeSet.size).foldr (· + ·) 0
  maxPointsToSize := (sets.map NodeSet.size).foldl max 0

/-- Freezes the sets of a solved run, one for each node. -/
def freeze (nodes : Array Node) (representatives : List Nat) (sets : List NodeSet) : Graph where
  nodes
  representatives := representatives.toArray
  sets := sets.toArray
  stats := statsOf nodes.size representatives sets

def numNodes (g : Graph) : Nat := g.nodes.size

def node? (g : Graph) (n : Nat) : Option Node := g.nodes[n]?

def representativeOf (g : Graph) (n : Nat) : Nat := g.representatives.getD n n

def pointsTo (g : Graph) (n : Nat) : NodeSet := g.sets.getD (g.representativeOf n) .empty

def sameClass (g : Graph) (a b : Nat) : Bool := g.representativeOf a == g.representativeOf b

/-- The nodes with a set that is not empty, and these sets, in index order. -/
def entries (g : Graph) : List (Nat × NodeSet) :=
  ((List.range g.numNodes).map fun n => (n, g.pointsTo n)).filter fun (_, s) => !s.isEmpty

/-- The members of each class in ascending order; the classes in the order of
their smallest members. -/
def classes (g : Graph) : List (List Nat) :=
  let numbered := g.representatives.toList.zipIdx
  g.representatives.toList.eraseDups.map fun rep =>
    (numbered.filter (·.1 == rep)).map (·.2)

/-- The statistics in print. -/
def summary (g : Graph) : String :=
  String.intercalate "\n"
    ["PointsToGraph \x7b",
      s!"  nodes: {g.stats.totalNodes}",
      s!"  classes: {g.stats.totalClasses}",
      s!"  non-empty sets: {g.stats.nonemptySets}",
      s!"  memberships: {g.stats.totalMemberships}",
      s!"  max pts size: {g.stats.maxPointsToSize}",
      "  avg pts size: " ++ g.stats.averageSize.hundredths,
      "\x7d", ""]

end Graph

end PointsTo
