import PointsTo.Action
import PointsTo.Config
import PointsTo.Constraint
import PointsTo.Event
import PointsTo.NodeTable

/-!
# The state of a solver

A `Solver` keeps one `Cell` for each node; only the cells of representatives are
in use. A cell holds the points-to set of its class, the part of it that has
been passed on (`done`), the classes it is copied to, and the loads and stores
that go through it. What is in the set and not in `done` is pending work, and
then the class waits in the worklist.

The members of a set are nodes, not classes: they are never led to their
representatives, so that the fields of an object stay apart whatever is merged.

Two orders are left open, and a `Schedule` fixes them: in which nodes leave the
worklist, and in which the targets of a node are served. Nothing is assumed of a
`SendOrder` but that every target has its turn, so whatever holds under every
schedule holds for every way of going over the targets.
-/

namespace PointsTo

structure Cell where
  pts : NodeSet := {}
  done : NodeSet := {}
  /-- Where the set is copied to; a target may have lost its place to another
  representative. -/
  succs : NodeSet := {}
  /-- Destination and offset of the loads through this node. -/
  loads : List (Nat × Nat) := []
  /-- Source and offset of the stores through this node. -/
  stores : List (Nat × Nat) := []
deriving DecidableEq, Inhabited

structure SolverStats where
  constraintsTotal : Nat := 0
  constraintsAddrOf : Nat := 0
  constraintsCopy : Nat := 0
  constraintsLoad : Nat := 0
  constraintsStore : Nat := 0
  /-- Nodes popped and processed. -/
  iterations : Nat := 0
  /-- Unions that added something. -/
  propagations : Nat := 0
  /-- Pointees passed along copy edges. -/
  pointeesSent : Nat := 0
  newMemberships : Nat := 0
  /-- Copy edges made from loads and stores. -/
  materializedEdges : Nat := 0
  sccPasses : Nat := 0
  sccsCollapsed : Nat := 0
  nodesCollapsed : Nat := 0
  totalMemberships : Nat := 0
deriving DecidableEq, Inhabited

namespace SolverStats

def ofConstraints (cs : List Constraint) : SolverStats where
  constraintsTotal := cs.length
  constraintsAddrOf := Constraint.count .addrOf cs
  constraintsCopy := Constraint.count .copy cs
  constraintsLoad := Constraint.count .load cs
  constraintsStore := Constraint.count .store cs

def fields (s : SolverStats) : List (String × Nat) :=
  [("constraints_total", s.constraintsTotal), ("constraints_addr_of", s.constraintsAddrOf),
    ("constraints_copy", s.constraintsCopy), ("constraints_load", s.constraintsLoad),
    ("constraints_store", s.constraintsStore), ("iterations", s.iterations),
    ("propagations", s.propagations), ("pointees_sent", s.pointeesSent),
    ("new_memberships", s.newMemberships), ("materialized_edges", s.materializedEdges),
    ("scc_passes", s.sccPasses), ("sccs_collapsed", s.sccsCollapsed),
    ("nodes_collapsed", s.nodesCollapsed), ("total_memberships", s.totalMemberships)]

/-- Clears what is counted for each run; the counts of constraints and the
memberships held at the last fixpoint stay. -/
def restart (s : SolverStats) : SolverStats :=
  { s with
    iterations := 0
    propagations := 0
    pointeesSent := 0
    newMemberships := 0
    materializedEdges := 0
    sccPasses := 0
    sccsCollapsed := 0
    nodesCollapsed := 0 }

end SolverStats

inductive Phase where
  | fresh
  | running
  | solved
  | aborted
deriving DecidableEq, Inhabited

/-- The order in which targets are served: `arrange k` rearranges those that are served
after the `k`-th pop. -/
structure SendOrder where
  arrange (k : Nat) (targets : List Nat) : List Nat
  perm (k : Nat) (targets : List Nat) : (arrange k targets).Perm targets

namespace SendOrder

def ascending : SendOrder where
  arrange _ targets := targets
  perm _ _ := .refl _

def descending : SendOrder where
  arrange _ targets := targets.reverse
  perm _ targets := targets.reverse_perm

end SendOrder

/-- The orders that are left open. -/
structure Schedule where
  pops : PopOrder
  sends : SendOrder := .ascending

namespace Schedule

def oldest : Schedule := { pops := .oldest }

def newest : Schedule := { pops := .newest }

end Schedule

structure Solver where
  config : Config
  table : NodeTable
  constraints : List Constraint
  cells : Array Cell
  worklist : Worklist
  sends : SendOrder
  /-- Where the next search for cycles starts. -/
  recent : NodeSet := {}
  /-- Whether the constraints have been entered into the cells. -/
  indexed : Bool := false
  /-- Nodes processed since the last search for cycles. -/
  sinceScc : Nat := 0
  /-- The sum of the sizes of all sets. -/
  membership : Nat := 0
  phase : Phase := .fresh
  stats : SolverStats
  log : Array Event := #[]

namespace Solver

/-- A solver over a node table; its limits are put in force there. -/
def new (config : Config) (order : Schedule) (table : NodeTable) (cs : List Constraint) :
    Solver where
  config
  table := table.applyLimits config.limits
  constraints := cs
  cells := Array.replicate table.size {}
  worklist := .new order.pops
  sends := order.sends
  stats := .ofConstraints cs

/-- The solver that a configuration asks for. -/
def ofConfig (config : Config) (table : NodeTable) (cs : List Constraint) : Solver :=
  new config { pops := config.worklist.popOrder } table cs

def cell (s : Solver) (n : Nat) : Cell := s.cells.getD n {}

def modifyCell (s : Solver) (n : Nat) (f : Cell → Cell) : Solver :=
  { s with cells := s.cells.modify n f }

def push (s : Solver) (n : Nat) : Solver := { s with worklist := (s.worklist.push n).1 }

def markRecent (s : Solver) (n : Nat) : Solver := { s with recent := s.recent.add n }

def note (s : Solver) (e : Event) : Solver := { s with log := s.log.push e }

def isSolved (s : Solver) : Bool := s.phase == .solved

def isAborted (s : Solver) : Bool := s.phase == .aborted

/-- The points-to set of the class of `n`. -/
def pointsTo (s : Solver) (n : Nat) : NodeSet :=
  if s.table.contains n then (s.cell (s.table.root n)).pts else .empty

/-- The nodes whose sets are not empty, and these sets. -/
def entries (s : Solver) : List (Nat × NodeSet) :=
  ((List.range s.table.size).map fun n => (n, s.pointsTo n)).filter fun (_, set) => !set.isEmpty

end Solver

end PointsTo
