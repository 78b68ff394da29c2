import PointsTo.Action
import PointsTo.DisjointSets
import PointsTo.Limits
import PointsTo.Node
import PointsTo.Sorting

/-!
# The node table

A `NodeTable` hands out nodes and joins them into classes. What holds of a class
as a whole, the kind of special node in it and whether anything can point to
it, is recorded at its root and joined when classes are. A class never holds
both kinds of special node: such a merge is refused, and so is one beyond the
bound on merges. A creation is an action on the table (`createValue` and so on)
that checks first whether there is room; `addValue` and so on give its result to
those who have no use for the table if it fails.

Look-ups in the table read the links and leave them as they are, and so does
`merge`. In `mergeHalving` the look-ups of a merge shorten paths as they go,
which stays so if the merge is refused.
-/

namespace PointsTo

/-- What is known of a class. -/
structure ClassFacts where
  special : Option Special := none
  hasPointee : Bool := false
deriving DecidableEq, Inhabited

namespace ClassFacts

def ofNode (n : Node) : ClassFacts where
  special := n.special?
  hasPointee := n.isPointee

def join (f g : ClassFacts) : ClassFacts where
  special := f.special.or g.special
  hasPointee := f.hasPointee || g.hasPointee

/-- The two different kinds of special node that two classes hold. -/
def clash? (f g : ClassFacts) : Option (Special × Special) :=
  match f.special, g.special with
  | some k, some l => if k = l then none else some (k, l)
  | _, _ => none

end ClassFacts

def Special.other : Special → Special
  | .null => .universal
  | .universal => .null

structure NodeTable where
  nodes : Array Node := #[]
  sets : DisjointSets := {}
  /-- The facts of a class, at the index of its root. -/
  facts : Array ClassFacts := #[]
  maxNodes : Option Nat := none
  maxMerges : Option Nat := none
  merges : Nat := 0
  maxFieldCount : Nat := 0
deriving Inhabited

namespace NodeTable

def withLimits (maxNodes maxMerges : Option Nat) : NodeTable := { maxNodes, maxMerges }

/-- Replaces the bounds that `limits` sets and keeps the others. -/
def applyLimits (t : NodeTable) (limits : Limits) : NodeTable :=
  { t with
    maxNodes := limits.maxNodes.or t.maxNodes
    maxMerges := limits.maxMerges.or t.maxMerges }

def size (t : NodeTable) : Nat := t.nodes.size

def isEmpty (t : NodeTable) : Bool := t.nodes.isEmpty

def contains (t : NodeTable) (n : Nat) : Bool := decide (n < t.size)

def node? (t : NodeTable) (n : Nat) : Option Node := t.nodes[n]?

def nodeLimit (t : NodeTable) : Nat := min (t.maxNodes.getD maxIndex) maxIndex

/-- Fails if `count` more nodes would pass the bound. -/
def reserve (t : NodeTable) (count : Nat) : Except AnalysisError Unit :=
  if t.nodeLimit < t.size + count then .error (.capacityExceeded t.nodeLimit) else .ok ()

/-- Fails if the table holds more nodes than its bound allows now. -/
def checkCapacity (t : NodeTable) : Except AnalysisError Unit := t.reserve 0

/-- The table with one more node, in a class of its own. -/
def append (t : NodeTable) (kind : NodeKind) : NodeTable :=
  let node : Node := { index := t.size, kind }
  { t with
    nodes := t.nodes.push node
    sets := t.sets.push
    facts := t.facts.push (.ofNode node) }

/-- The fields `offset, offset + 1, ..` of the object at `base`, `count` of them. -/
def appendFields (t : NodeTable) (base fieldCount : Nat) : (offset count : Nat) → NodeTable
  | _, 0 => t
  | offset, count + 1 =>
    (t.append (.object { base, offset, fieldCount })).appendFields base fieldCount
      (offset + 1) count

/-- The table with one more object, which has so many fields. -/
def appendObject (t : NodeTable) (fieldCount : Nat) : NodeTable :=
  { t.appendFields t.size fieldCount 0 fieldCount with
    maxFieldCount := max t.maxFieldCount fieldCount }

/-- Puts `count` nodes into the table by `grow`, if there is room for them, and gives the
index of the first. -/
def create (count : Nat) (grow : NodeTable → NodeTable) : Action NodeTable Nat := do
  let t ← get
  Action.ofExcept (t.reserve count)
  set (grow t)
  return t.size

def createValue : Action NodeTable Nat := create 1 (·.append .value)

def createSpecial (kind : Special) : Action NodeTable Nat := create 1 (·.append (.special kind))

/-- An object has at least one field. Gives the index of its base. -/
def createObject (fieldCount : Nat) : Action NodeTable Nat :=
  create (max fieldCount 1) (·.appendObject (max fieldCount 1))

def addValue : NodeTable → Except AnalysisError (Nat × NodeTable) := Action.result createValue

def addSpecial (t : NodeTable) (kind : Special) : Except AnalysisError (Nat × NodeTable) :=
  Action.result (createSpecial kind) t

def addObject (t : NodeTable) (fieldCount : Nat) : Except AnalysisError (Nat × NodeTable) :=
  Action.result (createObject fieldCount) t

/-- The node that stands for the class of `n`. -/
def root (t : NodeTable) (n : Nat) : Nat := t.sets.root n

def isRoot (t : NodeTable) (n : Nat) : Bool := t.sets.isRoot n

def factsOf (t : NodeTable) (n : Nat) : ClassFacts := t.facts.getD (t.root n) {}

/-- The special node that the class of `n` holds, if any. -/
def special? (t : NodeTable) (n : Nat) : Option Special :=
  if t.contains n then (t.factsOf n).special else none

/-- Whether something can point to a node of the class of `n`. -/
def hasPointee (t : NodeTable) (n : Nat) : Bool := t.contains n && (t.factsOf n).hasPointee

/-- Whether something can point to `n` itself. -/
def isPointee (t : NodeTable) (n : Nat) : Bool := (t.node? n).any Node.isPointee

/-- The node `k` fields after the object node `n`. -/
def field? (t : NodeTable) (n k : Nat) : Option Nat := do
  let node ← t.node? n
  let layout ← node.layout?
  layout.field? k

def clashReason (k l : Special) : String :=
  s!"classes hold different special nodes ({k.name} and {l.name})"

/-- Whether the bound on merges is used up. -/
def mergesUsedUp? (t : NodeTable) : Option Nat :=
  match t.maxMerges with
  | some limit => if limit ≤ t.merges then some limit else none
  | none => none

/-- Joins two different roots. -/
def join (t : NodeTable) (ra rb : Nat) : Nat × NodeTable :=
  let joined := (t.facts.getD ra {}).join (t.facts.getD rb {})
  let (rep, sets) := t.sets.link ra rb
  (rep, { t with sets, facts := t.facts.setIfInBounds rep joined, merges := t.merges + 1 })

/-- Joins the classes of `a` and `b` and gives the root of the joined class. -/
def merge (t : NodeTable) (a b : Nat) : Except AnalysisError (Nat × NodeTable) :=
  if t.root a = t.root b then .ok (t.root a, t)
  else
    match (t.factsOf a).clash? (t.factsOf b) with
    | some (k, l) => .error (.invalidMerge a b (clashReason k l))
    | none =>
      match t.mergesUsedUp? with
      | some limit => .error (.resourceExceeded .merges limit)
      | none => .ok (t.join (t.root a) (t.root b))

/-- The table after `n` has been looked up and the path to its root halved. -/
def halve (t : NodeTable) (n : Nat) : NodeTable := { t with sets := (t.sets.find n).2 }

/-- The same for all nodes in index order. -/
def halveAll (t : NodeTable) : NodeTable := { t with sets := t.sets.representatives.2 }

/-- A merge that looks up both nodes first. If it is refused, the paths stay halved. -/
def mergeHalving (a b : Nat) : Action NodeTable Nat := do
  modify (·.halve a)
  modify (·.halve b)
  Action.ofStep (·.merge a b)

/-- The root of a node of the table. -/
def root? (t : NodeTable) (n : Nat) : Option Nat := if t.contains n then some (t.root n) else none

def isRoot? (t : NodeTable) (n : Nat) : Option Bool :=
  if t.contains n then some (t.isRoot n) else none

/-- Joins the classes of two nodes of the table. -/
def merge? (t : NodeTable) (a b : Nat) : Option (Except AnalysisError (Nat × NodeTable)) :=
  if t.contains a && t.contains b then some (t.merge a b) else none

/-- Splits the members of a cycle into groups that can be merged. Members whose
class holds the kind of special node that comes second are a group of their
own; all others join the first. A single member is no group. -/
def mergeableGroups (t : NodeTable) (members : List Nat) : List (List Nat) :=
  let groups :=
    match members.findSome? t.special? with
    | none => [members]
    | some first =>
      [members.filter (t.special? · != some first.other),
        members.filter (t.special? · == some first.other)]
  (groups.filter (1 < ·.length)).map ascending

/-- The root of every node, in index order. -/
def roots (t : NodeTable) : List Nat := (List.range t.size).map t.root

/-- For every node the smallest member of its class. -/
def partition (t : NodeTable) : List Nat :=
  t.roots.map fun r => t.roots.idxOf r

end NodeTable

end PointsTo
