import PointsTo.Word

/-!
# Classes of nodes

`DisjointSets` keeps a partition of the nodes `0 .. size - 1` as a forest of
parent links. A root links to itself and stands for its class; its rank bounds
the height of the tree below it.

There are two look-ups. `root` reads the links, `find` also halves the path it
walks, so that later look-ups are shorter. Both give the same root. The number
of links that a walk can follow is bounded by the size of the table, which is
the fuel of both; an index outside the table has no link and answers itself, so
the partial forms (`root?`, `find?`, `union?`) only have to look at where a
walk ended.

Nodes are named by indices of 32 bits, so a table has names for `2 ^ 32` of them.
What is worked out from the number of nodes is cut to such a word (`wordSize`):
the link of a node that is added by `push?`, and how many nodes are listed.
`push` is the same without the cut. The two agree as long as the new node has an
index of its own, and node tables never get as far as that.
-/

namespace PointsTo

structure DisjointSets where
  parent : Array Nat := #[]
  rank : Array Nat := #[]
  classes : Nat := 0
deriving DecidableEq, Inhabited

namespace DisjointSets

def size (d : DisjointSets) : Nat := d.parent.size

def isEmpty (d : DisjointSets) : Bool := d.parent.isEmpty

/-- The number of nodes as a word of 32 bits. -/
def wordSize (d : DisjointSets) : Nat := d.size % (maxIndex + 1)

/-- A new class that holds only the next index. -/
def push (d : DisjointSets) : DisjointSets where
  parent := d.parent.push d.size
  rank := d.rank.push 0
  classes := d.classes + 1

/-- As `push`, with the new link cut to 32 bits, if the classes can still be
counted in 64 bits. -/
def push? (d : DisjointSets) : Option DisjointSets :=
  if d.classes < maxCount then some { d.push with parent := d.parent.push d.wordSize } else none

def singletons : Nat → DisjointSets
  | 0 => {}
  | n + 1 => (singletons n).push

/-- The link of `n`; an index outside the table stands for itself. -/
def up (d : DisjointSets) (n : Nat) : Nat := d.parent.getD n n

def isRoot (d : DisjointSets) (n : Nat) : Bool := d.up n == n

def rankOf (d : DisjointSets) (n : Nat) : Nat := d.rank.getD n 0

/-- Follows at most `fuel` links from `n`. -/
def climb (d : DisjointSets) : (fuel : Nat) → (n : Nat) → Nat
  | 0, n => n
  | fuel + 1, n => if d.up n = n then n else d.climb fuel (d.up n)

/-- The node that stands for the class of `n`. -/
def root (d : DisjointSets) (n : Nat) : Nat := d.climb d.size n

/-- Lets `n` skip its parent. -/
def skip (d : DisjointSets) (n : Nat) : DisjointSets :=
  { d with parent := d.parent.setIfInBounds n (d.up (d.up n)) }

/-- Climbs two links at a time and shortens the path on the way. -/
def halve (d : DisjointSets) : (fuel : Nat) → (n : Nat) → Nat × DisjointSets
  | 0, n => (n, d)
  | fuel + 1, n => if d.up n = n then (n, d) else (d.skip n).halve fuel (d.up (d.up n))

/-- The root of `n`, and the table with the halved path. -/
def find (d : DisjointSets) (n : Nat) : Nat × DisjointSets := d.halve d.size n

/-- The largest rank a table records. -/
def maxRank : Nat := 255

/-- Hangs one of two roots below the other: the one of smaller rank, and `b` if
the ranks agree. Gives the root that stays. -/
def link (d : DisjointSets) (a b : Nat) : Nat × DisjointSets :=
  let keep := if d.rankOf a < d.rankOf b then b else a
  let gone := if d.rankOf a < d.rankOf b then a else b
  let height := if d.rankOf keep = d.rankOf gone then min (d.rankOf keep + 1) maxRank
    else d.rankOf keep
  (keep, { parent := d.parent.setIfInBounds gone keep
           rank := d.rank.setIfInBounds keep height
           classes := d.classes - 1 })

/-- Joins the classes of `a` and `b`. -/
def union (d : DisjointSets) (a b : Nat) : Nat × DisjointSets :=
  let (ra, d) := d.find a
  let (rb, d) := d.find b
  if ra = rb then (ra, d) else d.link ra rb

def connected (d : DisjointSets) (a b : Nat) : Bool × DisjointSets :=
  let (ra, d) := d.find a
  let (rb, d) := d.find b
  (ra == rb, d)

/-- Looks up every node of a list in turn. -/
def findAll (d : DisjointSets) : List Nat → List Nat × DisjointSets
  | [] => ([], d)
  | n :: ns =>
    let (r, d) := d.find n
    let (rs, d) := d.findAll ns
    (r :: rs, d)

/-- The root of every node, in index order. -/
def representatives (d : DisjointSets) : List Nat × DisjointSets :=
  d.findAll (List.range d.wordSize)

/-- The root of `n`, if the walk stays in the table. -/
def root? (d : DisjointSets) (n : Nat) : Option Nat :=
  if d.root n < d.size then some (d.root n) else none

def find? (d : DisjointSets) (n : Nat) : Option (Nat × DisjointSets) :=
  if (d.find n).1 < d.size then some (d.find n) else none

def isRoot? (d : DisjointSets) (n : Nat) : Option Bool :=
  if n < d.size then some (d.isRoot n) else none

def connected? (d : DisjointSets) (a b : Nat) : Option (Bool × DisjointSets) := do
  let (ra, d) ← d.find? a
  let (rb, d) ← d.find? b
  return (ra == rb, d)

/-- Joins the classes of `a` and `b`, if both walks stay in the table, both
roots have a rank and there is a class left to give up. -/
def union? (d : DisjointSets) (a b : Nat) : Option (Nat × DisjointSets) := do
  let (ra, d) ← d.find? a
  let (rb, d) ← d.find? b
  if ra = rb then
    return (ra, d)
  else if ra < d.rank.size ∧ rb < d.rank.size ∧ 0 < d.classes then
    return d.link ra rb
  else
    none

def findAll? (d : DisjointSets) : List Nat → Option (List Nat × DisjointSets)
  | [] => some ([], d)
  | n :: ns => do
    let (r, d) ← d.find? n
    let (rs, d) ← d.findAll? ns
    return (r :: rs, d)

def representatives? (d : DisjointSets) : Option (List Nat × DisjointSets) :=
  d.findAll? (List.range d.wordSize)

end DisjointSets

end PointsTo
