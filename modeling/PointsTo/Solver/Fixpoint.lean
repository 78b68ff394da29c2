import PointsTo.Constraint.Flaw
import PointsTo.Graph
import PointsTo.Solver.Collapse
import PointsTo.Solver.Propagation

/-!
# Running to the fixpoint

A run is seeded from the address constraints and the nodes of unknown memory and
then advanced, one processed node or one search for cycles at a time, until the
worklist is empty and a last search finds nothing to merge. A solver that is
solved can be run again: it is seeded anew and finds that nothing is left to do.
The first failure aborts a solver for good.

Each advance that processes a node takes one entry off the worklist. Entries are
made by seeding, by a set that grows and by a merge, so their number is bounded
by `advanceBound`, the fuel of `solve`.
-/

namespace PointsTo

namespace Solver

/-- Marks a solver as aborted and notes why. -/
def abort (s : Solver) (e : AnalysisError) : Solver :=
  { s.note (.solvingAborted e) with phase := .aborted }

/-- Aborts the solver if the action fails. -/
def guarded {α : Type} (m : Action Solver α) : Action Solver α := fun s =>
  match m s with
  | .ok a s => .ok a s
  | .error e s => .error e (s.abort e)

/-- Enters one constraint into the cells. -/
def indexConstraint (s : Solver) (c : Constraint) : Solver :=
  match c.kind with
  | .addrOf => s
  | .copy =>
    let src := s.table.root c.src
    let dest := s.table.root c.dest
    if src = dest then s
    else (s.modifyCell src fun cell => { cell with succs := cell.succs.add dest }).markRecent src
  | .load =>
    s.modifyCell (s.table.root c.src) fun cell =>
      { cell with loads := cell.loads ++ [(c.dest, c.offset)] }
  | .store =>
    s.modifyCell (s.table.root c.dest) fun cell =>
      { cell with stores := cell.stores ++ [(c.src, c.offset)] }

def indexConstraints (s : Solver) : Solver :=
  { s.constraints.foldl indexConstraint s with indexed := true }

/-- Checks table and constraints and enters the constraints, once. -/
def prepare : Action Solver Unit := do
  let s ← get
  if !s.indexed then
    Action.ofExcept s.table.checkCapacity
    Action.ofExcept (s.table.validate s.config.fieldSensitive s.constraints)
    set s.indexConstraints

/-- Puts a pointee into the set of a node. -/
def seedPointee (dest src : Nat) : Action Solver Unit := do
  let s ← get
  let rep := s.table.root dest
  let (pts, fresh) := (s.cell rep).pts.insert src
  if fresh then
    set (s.modifyCell rep fun c => { c with pts })
    charge 1

/-- The nodes of unknown memory, each of which points to itself. -/
def universals (s : Solver) : List Nat :=
  (s.table.nodes.toList.filter (·.kind == .special .universal)).map (·.index)

/-- The representatives with a set that is not empty. -/
def seeded (s : Solver) : List Nat :=
  (List.range s.cells.size).filter fun n => !(s.cell n).pts.isEmpty && s.table.isRoot n

def seed : Action Solver Unit := do
  prepare
  modify fun s => { s with stats := s.stats.restart }
  let s ← get
  (Constraint.ofKind .addrOf s.constraints).forM fun c => seedPointee c.dest c.src
  s.universals.forM fun u => seedPointee u u
  modify fun s => { s.seeded.foldl push s with phase := .running }

/-- Processes one node, or searches for cycles if none is left. Tells whether
there may be more to do. -/
def advanceOnce : Action Solver Bool := do
  let s ← get
  if 0 < s.config.sccInterval ∧ s.config.sccInterval ≤ s.sinceScc then
    let _ ← detectCycles
  let s ← get
  match s.worklist.pop? with
  | some (n, worklist) =>
    set { s with worklist }
    process n
    return true
  | none =>
    let merged ← detectCycles
    return decide (0 < merged) || !(← get).worklist.isEmpty

def finish (s : Solver) : Solver :=
  { s with phase := .solved, stats.totalMemberships := s.membership }

def refuseAborted : Action Solver Unit := do
  if (← get).phase = .aborted then throw .aborted

def begin : Action Solver Unit := do
  refuseAborted
  guarded seed

def advance : Action Solver Bool := do
  refuseAborted
  let more ← guarded advanceOnce
  if !more then modify finish
  return more

/-- Advances until nothing is left to do. -/
def advanceAll : (fuel : Nat) → Action Solver Unit
  | 0 => pure ()
  | fuel + 1 => do
    if ← advance then advanceAll fuel

/-- At least the number of advances of a run over `n` nodes. -/
def advanceBound (n : Nat) : Nat := (n + 3) * (n + 3)

/-- Runs to the fixpoint. -/
def solve : Action Solver Unit := do
  begin
  advanceAll (advanceBound (← get).table.size)

/-- One advance, after seeding if the solver is not running. Tells whether there
may be more to do. -/
def step : Action Solver Bool := do
  if (← get).phase ≠ .running then begin
  advance

/-- The first node that holds a set although another one represents it. -/
def misplaced? (s : Solver) : Option Nat :=
  (List.range s.table.size).find? fun n => s.table.root n != n && !(s.cell n).pts.isEmpty

/-- The frozen result of a solved run. -/
def freeze (s : Solver) : Except AnalysisError Graph :=
  match s.phase with
  | .aborted => .error .aborted
  | .fresh | .running => .error (.inconsistent "graph requested before the fixpoint")
  | .solved =>
    match s.misplaced? with
    | some n => .error (.inconsistent
        s!"non-representative n{n} (class of n{s.table.root n}) holds a points-to set")
    | none => .ok (.freeze s.table.nodes s.table.roots (s.cells.toList.map Cell.pts))

end Solver

end PointsTo
