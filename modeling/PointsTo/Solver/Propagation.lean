import PointsTo.Solver.State

/-!
# Passing pointees on

`process` handles one node of the worklist. Only what its set gained since the
last time, the delta, is passed on: first to the loads and stores through the
node, each of which makes a copy edge for every new pointee, and then along the
copy edges of the node. A new edge carries the whole set of its source at once,
so that an edge never has to remember what it missed.
-/

namespace PointsTo

namespace NodeTable

/-- Where an access at offset `k` from pointee `o` goes. Without fields it goes
to the base of the object; an access beyond the last field goes there too. -/
def route (t : NodeTable) (fieldSensitive : Bool) (o k : Nat) : Nat :=
  match (t.node? o).bind Node.layout? with
  | none => o
  | some layout =>
    if !fieldSensitive then layout.base
    else if k = 0 then o
    else (layout.field? k).getD layout.base

/-- The event of an access beyond the last field of an object. -/
def routeEvent? (t : NodeTable) (fieldSensitive : Bool) (o k : Nat) : Option Event :=
  match (t.node? o).bind Node.layout? with
  | none => none
  | some layout =>
    if fieldSensitive && k != 0 && (layout.field? k).isNone then
      some (.outsideLayout o k layout.fieldCount)
    else none

end NodeTable

namespace Solver

/-- Accounts for new memberships; fails once they pass the bound. -/
def charge (added : Nat) : Action Solver Unit := do
  modify fun s =>
    { s with
      membership := s.membership + added
      stats.newMemberships := s.stats.newMemberships + added }
  let s ← get
  match s.config.limits.maxMembership with
  | some limit =>
    if limit < s.membership then throw (.resourceExceeded .membership limit) else pure ()
  | none => pure ()

/-- Adds pointees to the set of `target` and queues it if the set grew. -/
def send (pointees : NodeSet) (target : Nat) : Action Solver Unit := do
  let s ← get
  let (grown, added) := (s.cell target).pts.union pointees
  modify fun s =>
    { s.modifyCell target fun c => { c with pts := grown } with
      stats.pointeesSent := s.stats.pointeesSent + pointees.size }
  if 0 < added then
    modify fun s => { s with stats.propagations := s.stats.propagations + 1 }
    charge added
    modify (·.push target)

/-- Enters a copy edge between two classes. A new edge carries the whole set. -/
def addEdge (source target : Nat) : Action Solver Unit := do
  let s ← get
  let source := s.table.root source
  let target := s.table.root target
  let (succs, fresh) := (s.cell source).succs.insert target
  if source ≠ target ∧ fresh then
    modify fun s =>
      { (s.modifyCell source fun c => { c with succs }).markRecent source with
        stats.materializedEdges := s.stats.materializedEdges + 1 }
    send (s.cell source).pts target

/-- The node that an access reaches; an access outside its object is noted. -/
def access (o k : Nat) : Action Solver Nat := do
  let s ← get
  match s.table.routeEvent? s.config.fieldSensitive o k with
  | some e => modify (·.note e)
  | none => pure ()
  return s.table.route s.config.fieldSensitive o k

def applyLoad (o : Nat) (rule : Nat × Nat) : Action Solver Unit := do
  let field ← access o rule.2
  addEdge field rule.1

def applyStore (o : Nat) (rule : Nat × Nat) : Action Solver Unit := do
  let field ← access o rule.2
  addEdge rule.1 field

/-- Makes the copy edges of loads and stores for new pointees. -/
def materialize (fresh : List Nat) (loads stores : List (Nat × Nat)) : Action Solver Unit :=
  fresh.forM fun o => do
    loads.forM (applyLoad o)
    stores.forM (applyStore o)

/-- The other classes that the set of `n` is copied to. -/
def targets (s : Solver) (n : Nat) : List Nat :=
  ((s.cell n).succs.elements.map s.table.root).filter (· != n)

/-- Leads the copy edges of `n` to representatives. -/
def refreshTargets (s : Solver) (n : Nat) : Solver :=
  s.modifyCell n fun c => { c with succs := .ofList (s.targets n) }

/-- The targets of `n` in the order in which they are served. -/
def served (s : Solver) (n : Nat) : List Nat :=
  s.sends.arrange s.worklist.draws (s.cell n).succs.elements

/-- Counts a popped node, where the next search for cycles has to start. -/
def notePop (s : Solver) (n : Nat) : Solver :=
  { s.markRecent n with
    sinceScc := s.sinceScc + 1
    stats.iterations := s.stats.iterations + 1 }

/-- Passes on what the set of a popped node gained. -/
def process (popped : Nat) : Action Solver Unit := do
  modify fun s => s.notePop (s.table.root popped)
  let s ← get
  let n := s.table.root popped
  let c := s.cell n
  let delta := c.pts.difference c.done
  if !delta.isEmpty then
    modify (·.modifyCell n fun c => { c with done := (c.done.union delta).1 })
    materialize delta.elements c.loads c.stores
    modify (·.refreshTargets n)
    let s ← get
    (s.served n).forM (send delta)

end Solver

end PointsTo
