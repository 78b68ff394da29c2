import PointsTo.Config.Preset
import PointsTo.Dump
import PointsTo.Reduction
import PointsTo.Solver.Fixpoint

/-!
# Analysis runs

A `Run` collects nodes and constraints, and solves them once. It is being built
until then; a successful `solve` freezes it, any failure to create a node or to
solve aborts it, and from either state there is no way back. A frozen run
refuses nodes and constraints and gives the same result again; an aborted run
refuses everything.

What a seed of a shuffled worklist draws, and in which order targets are served,
is a matter of the run, not of its configuration (`Run.Choices`).
-/

namespace PointsTo

/-- The plain listings that a run keeps if it is asked to. -/
structure DebugDump where
  /-- The constraints as they were collected. -/
  constraints : String
  pointsTo : String
deriving DecidableEq

structure Outcome where
  graph : Graph
  solverStats : SolverStats
  /-- Absent if the constraints were not reduced. -/
  reductionStats : Option ReductionStats
  debugDump : Option DebugDump
deriving DecidableEq

namespace Run

inductive State where
  | building (table : NodeTable) (constraints : List Constraint)
  | frozen (outcome : Outcome)
  | aborted

/-- What a configuration leaves open. -/
structure Choices where
  /-- The stream of numbers that a seed stands for. -/
  draws : Nat → Nat → Nat := PopOrder.scramble
  sends : SendOrder := .ascending

end Run

structure Run where
  config : Config
  state : Run.State
  log : Array Event := #[]
  choices : Run.Choices := {}

namespace Run

/-- A run under a configuration that is known to be valid. -/
def ofConfig (config : Config) : Run where
  config
  state := .building (.withLimits config.limits.maxNodes config.limits.maxMerges) []

def new (config : Config) : Except AnalysisError Run :=
  match config.fault? with
  | some e => .error (.config e)
  | none => .ok (ofConfig config)

def ofPreset (p : Preset) : Run := ofConfig p.config

def note (r : Run) (e : Event) : Run := { r with log := r.log.push e }

/-- Creates a node; a failure aborts the run. -/
def create (make : NodeTable → Except AnalysisError (Nat × NodeTable)) : Action Run Nat := fun r =>
  match r.state with
  | .frozen _ => .error .graphFrozen r
  | .aborted => .error .aborted r
  | .building table cs =>
    match make table with
    | .ok (n, table) => .ok n { r with state := .building table cs }
    | .error e => .error e { r.note (.creationFailed e) with state := .aborted }

def createValue : Action Run Nat := create NodeTable.addValue

def createObject (fieldCount : Nat) : Action Run Nat := create (·.addObject fieldCount)

def createSpecial (kind : Special) : Action Run Nat := create (·.addSpecial kind)

/-- Collects constraints; they are checked when the run is solved. -/
def addConstraints (cs : List Constraint) : Action Run Unit := fun r =>
  match r.state with
  | .frozen _ => .error .graphFrozen r
  | .aborted => .error .aborted r
  | .building table collected => .ok () { r with state := .building table (collected ++ cs) }

def addConstraint (c : Constraint) : Action Run Unit := addConstraints [c]

def numNodes (r : Run) : Nat :=
  match r.state with
  | .building table _ => table.size
  | .frozen outcome => outcome.graph.numNodes
  | .aborted => 0

/-- The events of an analysis, oldest first, as the state of its actions. -/
abbrev Log := Array Event

def report (e : Event) : Action Log Unit := modify (·.push e)

def reportIf (wanted : Bool) (title text : String) : Action Log Unit :=
  if wanted then report (.dump title text) else pure ()

/-- Reduces the constraints if the configuration asks for it. -/
def reduced (config : Config) (table : NodeTable) (cs : List Constraint) :
    Except AnalysisError (NodeTable × List Constraint × Option ReductionStats) :=
  if config.optimize then
    match Reduction.reduce config cs table with
    | .ok (cs, stats) table => .ok (table, cs, some stats)
    | .error e _ => .error e
  else .ok (table, cs, none)

/-- Solves and freezes; what the solver noted is passed on in either case. -/
def solved (solver : Solver) : Action Log (Graph × SolverStats) := fun log =>
  match Solver.solve solver with
  | .error e s => .error e (log ++ s.log)
  | .ok () s =>
    match s.freeze with
    | .error e => .error e (log ++ s.log)
    | .ok graph => .ok (graph, s.stats) (log ++ s.log)

/-- Reduces, solves and freezes, and writes the dumps asked for. -/
def analyze (config : Config) (order : Schedule) (table : NodeTable) (cs : List Constraint) :
    Action Log Outcome := do
  let collected := Dump.constraintsPlain cs
  reportIf config.dumpDebug "constraints before optimization" collected
  let (table, cs, reductionStats) ← Action.ofExcept (reduced config table cs)
  reportIf config.dumpConstraints "constraints after optimization"
    (Dump.constraintsPretty table.nodes cs)
  let (graph, solverStats) ← solved (.new config order table cs)
  let pointsTo := Dump.pointsToPlain graph
  reportIf config.dumpDebug "points-to sets at fixpoint" pointsTo
  reportIf config.dumpResult "node info" (Dump.nodeInfo graph)
  reportIf config.dumpResult "points-to sets" pointsTo
  return { graph, solverStats, reductionStats
           debugDump := if config.dumpDebug then some { constraints := collected, pointsTo }
             else none }

def schedule (r : Run) : Schedule where
  pops := r.config.worklist.popOrderBy r.choices.draws
  sends := r.choices.sends

/-- Solves the run once; later calls give the same graph. -/
def solve : Action Run Graph := fun r =>
  match r.state with
  | .frozen outcome => .ok outcome.graph r
  | .aborted => .error .aborted r
  | .building table cs =>
    match analyze r.config r.schedule table cs r.log with
    | .ok outcome log => .ok outcome.graph { r with state := .frozen outcome, log }
    | .error e log =>
      .error e { r with state := .aborted, log := log.push (.analysisAborted e) }

def outcome? (r : Run) : Option Outcome :=
  match r.state with
  | .frozen outcome => some outcome
  | _ => none

def graph? (r : Run) : Option Graph := r.outcome?.map Outcome.graph

/-- Ends the run with its result. -/
def takeOutcome (r : Run) : Except AnalysisError Outcome :=
  match r.state with
  | .frozen outcome => .ok outcome
  | .aborted => .error .aborted
  | .building _ _ => .error (.inconsistent "analysis has not been solved")

def isFrozen (r : Run) : Bool := r.outcome?.isSome

def isAborted (r : Run) : Bool :=
  match r.state with
  | .aborted => true
  | _ => false

end Run

end PointsTo
