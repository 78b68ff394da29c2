import PointsTo.Action
import PointsTo.Components
import PointsTo.Config
import PointsTo.Constraint.Flaw

/-!
# Reducing constraints

`Reduction.reduce` makes a list of constraints smaller before it is solved. It
joins classes of the node table that are bound to have the same set, leads every
operand to its class, and drops constraints that say nothing or repeat another.

Classes are joined in two ways. Those on a cycle of copies include each other.
Two classes of variables that no load and no store can write to have exactly the
inputs that address and copy constraints give them, so equal inputs mean equal
sets; joining them may make the inputs of others equal, which is why this is
repeated until a round finds nothing.

The source of an address constraint is never led to its class: it is a pointee,
not a set.
-/

namespace PointsTo

structure ReductionStats where
  inputConstraints : Nat := 0
  outputConstraints : Nat := 0
  selfCopiesRemoved : Nat := 0
  duplicatesRemoved : Nat := 0
  cycleMerges : Nat := 0
  equivalenceMerges : Nat := 0
  equivalenceRounds : Nat := 0
deriving DecidableEq, Inhabited

def ReductionStats.fields (s : ReductionStats) : List (String × Nat) :=
  [("input_constraints", s.inputConstraints), ("output_constraints", s.outputConstraints),
    ("self_copies_removed", s.selfCopiesRemoved), ("duplicates_removed", s.duplicatesRemoved),
    ("offline_scc_merges", s.cycleMerges), ("equivalence_merges", s.equivalenceMerges),
    ("equivalence_rounds", s.equivalenceRounds)]

namespace Reduction

/-- Puts for each operand of a constraint the node that stands for its class. -/
def resolve (t : NodeTable) (c : Constraint) : Constraint :=
  { c with
    dest := t.root c.dest
    src := if c.kind = .addrOf then c.src else t.root c.src }

def resolveAll (t : NodeTable) (cs : List Constraint) : List Constraint := cs.map (resolve t)

def merge (a b : Nat) : Action NodeTable Nat := Action.ofStep (·.merge a b)

/-- Joins a group from left to right and counts the merges. -/
def mergeGroup : List Nat → Action NodeTable Nat
  | [] => pure 0
  | rep :: others => do
    let _ ← others.foldlM merge rep
    return others.length

def mergeGroups (groups : List (List Nat)) : Action NodeTable Nat :=
  groups.foldlM (fun count group => do return count + (← mergeGroup group)) 0

/-- The copies between different classes, from source to destination. -/
def copyEdges (cs : List Constraint) : List (Nat × Nat) :=
  (cs.filter fun c => c.kind == .copy && !c.isSelfCopy).map fun c => (c.src, c.dest)

/-- The cycles of the copy constraints. -/
def copyCycles (cs : List Constraint) : List (List Nat) :=
  let edges := copyEdges cs
  ((Digraph.ofEdges edges).components (NodeSet.ofList (edges.map (·.1))).elements).members

/-- Joins the classes on each cycle of copies as far as they can be joined. -/
def collapseCycles (cs : List Constraint) : Action NodeTable Nat :=
  (copyCycles cs).foldlM (fun count cycle => do
    return count + (← mergeGroups ((← get).mergeableGroups cycle))) 0

/-- What flows into a class: pointees, and the classes it copies. -/
structure Inputs where
  pointees : NodeSet
  copies : NodeSet
deriving DecidableEq

def inputsOf (cs : List Constraint) (n : Nat) : Inputs where
  pointees := .ofList ((cs.filter fun c => c.kind == .addrOf && c.dest == n).map (·.src))
  copies := .ofList ((cs.filter fun c => c.kind == .copy && c.dest == n).map (·.src))

/-- The classes with an input that nothing else can flow into: no load writes to
them, and no pointer leads to them. In ascending order. -/
def closedClasses (t : NodeTable) (cs : List Constraint) : List Nat :=
  let written := (cs.filter (·.kind == .load)).map (·.dest)
  let fed := (cs.filter (!·.isComplex)).map (·.dest)
  (NodeSet.ofList fed).elements.filter fun n => !written.contains n && !t.hasPointee n

/-- The groups of closed classes with equal inputs, each ascending, in the order
of their smallest members. -/
def equalGroups (t : NodeTable) (cs : List Constraint) : List (List Nat) :=
  let keyed := (closedClasses t cs).map fun n => (inputsOf cs n, n)
  let groups := (keyed.map (·.1)).eraseDups.map fun key =>
    (keyed.filter (·.1 == key)).map (·.2)
  groups.filter (1 < ·.length)

/-- One round: joins the closed classes with equal inputs. -/
def mergeEqual (cs : List Constraint) : Action NodeTable Nat := do
  mergeGroups (equalGroups (← get) cs)

/-- Rounds until one finds nothing. Gives the resolved constraints, the number
of rounds and the number of merges. -/
def equalize : (fuel : Nat) → List Constraint → Action NodeTable (List Constraint × Nat × Nat)
  | 0, cs => pure (cs, 0, 0)
  | fuel + 1, cs => do
    let merged ← mergeEqual cs
    if merged = 0 then
      return (cs, 1, 0)
    else
      let (cs, rounds, merges) ← equalize fuel (resolveAll (← get) cs)
      return (cs, rounds + 1, merges + merged)

/-- What is left of a list of constraints, and how many were dropped as copies of
a class to itself and as repetitions. -/
structure Tidied where
  kept : List Constraint := []
  selfCopies : Nat := 0
  duplicates : Nat := 0

def Tidied.add (r : Tidied) (c : Constraint) : Tidied :=
  if c.isSelfCopy then { r with selfCopies := r.selfCopies + 1 }
  else if r.kept.contains c then { r with duplicates := r.duplicates + 1 }
  else { r with kept := r.kept ++ [c] }

/-- Drops copies of a class to itself, and all but the first of equal
constraints. -/
def tidy (cs : List Constraint) : Tidied := cs.foldl .add {}

/-- Joins the classes on cycles, and leads the operands to their new classes if
there were merges. -/
def collapse (cs : List Constraint) : Action NodeTable (List Constraint × Nat) := do
  let merges ← collapseCycles cs
  if merges = 0 then
    return (cs, 0)
  else
    return (resolveAll (← get) cs, merges)

def reduce (config : Config) (cs : List Constraint) :
    Action NodeTable (List Constraint × ReductionStats) := do
  let table ← get
  Action.ofExcept (table.validate config.fieldSensitive cs)
  let working := resolveAll table cs
  let (working, cycleMerges) ←
    if config.cyclePass then collapse working else pure (working, 0)
  let (working, rounds, merges) ←
    if config.equivalencePass then equalize (table.size + 1) working
    else pure (working, 0, 0)
  let result := tidy working
  return (result.kept,
    { inputConstraints := cs.length
      outputConstraints := result.kept.length
      selfCopiesRemoved := result.selfCopies
      duplicatesRemoved := result.duplicates
      cycleMerges
      equivalenceMerges := merges
      equivalenceRounds := rounds })

end Reduction

end PointsTo
