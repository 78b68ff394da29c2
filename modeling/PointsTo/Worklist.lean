import PointsTo.NodeSet
import PointsTo.Word

/-!
# The worklist

A `Worklist` queues nodes whose sets have grown. A node is queued at most once
at a time: `pending` holds exactly the queued nodes, so asking for a node and
refusing a second push do not search the queue.

The order in which nodes leave is a `PopOrder`. Besides the oldest and the
newest node it offers a drawn one: a stream of numbers decides which position
is taken, and the newest node moves into the gap. Nothing is assumed about the
stream, so whatever holds for `PopOrder.drawn` holds for every way of choosing.
-/

namespace PointsTo

/-- Which queued node leaves next. The `k`-th pop of a drawn order takes the
position `draw k`, reduced to the length of the queue. -/
inductive PopOrder where
  | oldest
  | newest
  | drawn (draw : Nat → Nat)

namespace PopOrder

/-- A stream of 64-bit numbers that looks random and is fixed by its seed. -/
def scramble (seed k : Nat) : Nat :=
  let width := maxCount + 1
  let z := (seed + (k + 1) * 0x9E3779B97F4A7C15) % width
  let z := (z ^^^ (z >>> 30)) * 0xBF58476D1CE4E5B9 % width
  let z := (z ^^^ (z >>> 27)) * 0x94D049BB133111EB % width
  z ^^^ (z >>> 31)

end PopOrder

structure Worklist where
  order : PopOrder
  /-- The queued nodes, oldest first. -/
  queue : List Nat := []
  pending : NodeSet := {}
  /-- How many pops there have been so far; each of them draws a position. -/
  draws : Nat := 0

namespace Worklist

def new (order : PopOrder) : Worklist := { order }

/-- Queues `n` and tells whether it was not queued before. -/
def push (w : Worklist) (n : Nat) : Worklist × Bool :=
  if w.pending.contains n then (w, false)
  else ({ w with queue := w.queue ++ [n], pending := w.pending.add n }, true)

def pushAll (w : Worklist) : List Nat → Worklist × List Bool
  | [] => (w, [])
  | n :: ns =>
    let (w, fresh) := w.push n
    let (w, rest) := w.pushAll ns
    (w, fresh :: rest)

/-- Takes out position `i`; the last node moves into the gap. -/
def swapRemove (queue : List Nat) (i : Nat) : List Nat :=
  match queue.getLast? with
  | none => []
  | some last => (queue.set i last).dropLast

/-- The node that leaves next, and the queue without it. -/
def next? (w : Worklist) : Option (Nat × List Nat) :=
  match w.order with
  | .oldest => w.queue.head?.map (·, w.queue.tail)
  | .newest => w.queue.getLast?.map (·, w.queue.dropLast)
  | .drawn draw =>
    let i := draw w.draws % w.queue.length
    w.queue[i]?.map (·, swapRemove w.queue i)

def pop? (w : Worklist) : Option (Nat × Worklist) :=
  w.next?.map fun (n, queue) =>
    (n, { w with queue, pending := w.pending.erase n, draws := w.draws + 1 })

/-- Pops as long as something is queued, `fuel` times at most. -/
def popUpTo : (fuel : Nat) → Worklist → List Nat × Worklist
  | 0, w => ([], w)
  | fuel + 1, w =>
    match w.pop? with
    | none => ([], w)
    | some (n, w) =>
      let (ns, w) := popUpTo fuel w
      (n :: ns, w)

/-- Pops everything. -/
def drain (w : Worklist) : List Nat × Worklist := popUpTo w.queue.length w

def contains (w : Worklist) (n : Nat) : Bool := w.pending.contains n

def size (w : Worklist) : Nat := w.queue.length

def isEmpty (w : Worklist) : Bool := w.queue.isEmpty

end Worklist

end PointsTo
