import PointsTo.Components
import PointsTo.Solver.State

/-!
# Collapsing cycles

Classes on a cycle of copy edges end with the same set, so they are merged as
soon as a search finds the cycle. A search starts from the nodes that were
touched since the last one. A merge moves everything the absorbed cell holds
into the surviving one and forgets what either had passed on, since the edges
and rules of one have not seen the pointees of the other.
-/

namespace PointsTo

namespace Solver

/-- The copy graph between the present classes. -/
def copyGraph (s : Solver) : Digraph where
  order := s.table.size
  successors n := ((s.cell n).succs.elements.map s.table.root).filter (· != n)

/-- What the cell of `rep` holds after it absorbed the cell of `gone`. -/
def absorb (rep gone : Nat) (kept absorbed : Cell) : Cell where
  pts := (kept.pts.union absorbed.pts).1
  done := {}
  succs := (((kept.succs.union absorbed.succs).1).erase rep).erase gone
  loads := kept.loads ++ absorbed.loads
  stores := kept.stores ++ absorbed.stores

/-- Moves the cell of `gone` into the cell of `rep`. -/
def moveCell (s : Solver) (rep gone : Nat) : Solver :=
  let kept := s.cell rep
  let absorbed := s.cell gone
  let added := (kept.pts.union absorbed.pts).2
  let s := s.modifyCell rep fun _ => absorb rep gone kept absorbed
  let s := s.modifyCell gone fun _ => {}
  { s.markRecent rep with membership := s.membership + added - absorbed.pts.size }

/-- Merges two representatives and gives the surviving one. -/
def collapse (a b : Nat) : Action Solver Nat := do
  let s ← get
  match s.table.merge a b with
  | .error e => throw e
  | .ok (rep, table) =>
    let gone := if rep = a then b else a
    set (({ s with table }).moveCell rep gone)
    return rep

/-- Merges a group from left to right and queues what is left of it. Gives the
number of merges. -/
def collapseGroup : List Nat → Action Solver Nat
  | [] => pure 0
  | first :: others => do
    let rep ← others.foldlM collapse first
    modify fun s =>
      { s.push rep with stats.sccsCollapsed := s.stats.sccsCollapsed + 1 }
    return others.length

/-- Merges what can be merged of one cycle. -/
def collapseComponent (members : List Nat) : Action Solver Nat := do
  let groups := (← get).table.mergeableGroups members
  groups.foldlM (fun merged group => do return merged + (← collapseGroup group)) 0

/-- The representatives from which a search for cycles starts. -/
def searchRoots (s : Solver) : List Nat :=
  (NodeSet.ofList (s.recent.elements.map s.table.root)).elements

/-- Searches the copy graph from the nodes touched of late and collapses the
cycles it finds. Gives the number of merges. -/
def detectCycles : Action Solver Nat := do
  modify fun s => { s with sinceScc := 0, stats.sccPasses := s.stats.sccPasses + 1 }
  let s ← get
  let components := (s.copyGraph.components s.searchRoots).members
  modify fun s => { s with recent := {} }
  let merged ← components.foldlM
    (fun merged members => do return merged + (← collapseComponent members)) 0
  modify fun s => { s with stats.nodesCollapsed := s.stats.nodesCollapsed + merged }
  return merged

end Solver

end PointsTo
