/-!
# Sets of nodes

A `NodeSet` lists the nodes it holds. Every operation keeps the list strictly
ascending, which is the predicate `Ascending`; it is kept beside the type
rather than inside it, because a stored set may be taken over as it was written
and is then answered as it stands.

Membership is decided by halving a window of the list (`locate`), the same
search that tells `insert` where a new node belongs. `union` reports how many
nodes it added: this number is what the accounts of a solver run are made of,
so it is returned rather than recomputed from two sizes.
-/

namespace PointsTo

structure NodeSet where
  elements : List Nat := []
deriving DecidableEq, Inhabited

namespace NodeSet

def Ascending (s : NodeSet) : Prop := s.elements.Pairwise (· < ·)

instance : Membership Nat NodeSet := ⟨fun s x => x ∈ s.elements⟩

theorem mem_def {s : NodeSet} {x : Nat} : x ∈ s ↔ x ∈ s.elements := Iff.rfl

def empty : NodeSet := {}

def singleton (x : Nat) : NodeSet := ⟨[x]⟩

def size (s : NodeSet) : Nat := s.elements.length

def isEmpty (s : NodeSet) : Bool := s.elements.isEmpty

/-- Where a node stands in a list, or where it would have to be put. -/
inductive Place where
  | found (index : Nat)
  | missing (index : Nat)
deriving DecidableEq

/-- Halves the window until one node is left and compares that one. The window
starts at position `start` of the whole list. -/
def locate (x : Nat) (start : Nat) (window : List Nat) : Place :=
  if _ : 1 < window.length then
    let half := window.length / 2
    if x < window[half] then locate x start (window.take (window.length - half))
    else locate x (start + half) (window.drop half)
  else
    match window with
    | [] => .missing start
    | y :: _ => if y = x then .found start
      else if y < x then .missing (start + 1) else .missing start
termination_by window.length
decreasing_by
  all_goals simp only [List.length_take, List.length_drop]; omega

def contains (s : NodeSet) (x : Nat) : Bool :=
  match locate x 0 s.elements with
  | .found _ => true
  | .missing _ => false

/-- The set with `x`, and whether `x` is new in it. -/
def insert (s : NodeSet) (x : Nat) : NodeSet × Bool :=
  match locate x 0 s.elements with
  | .found _ => (s, false)
  | .missing i => (⟨s.elements.take i ++ x :: s.elements.drop i⟩, true)

def add (s : NodeSet) (x : Nat) : NodeSet := (s.insert x).1

def erase (s : NodeSet) (x : Nat) : NodeSet := ⟨s.elements.erase x⟩

/-- Puts `x` in its place of an ascending list, unless it is there already. -/
def place (x : Nat) : List Nat → List Nat
  | [] => [x]
  | y :: ys =>
    if x < y then x :: y :: ys
    else if x = y then y :: ys
    else y :: place x ys

def ofList (xs : List Nat) : NodeSet := ⟨xs.foldr place []⟩

@[simp] theorem ofList_nil : ofList [] = empty := rfl

theorem ofList_cons (x : Nat) (xs : List Nat) :
    ofList (x :: xs) = ⟨place x (ofList xs).elements⟩ := rfl

/-- One walk along two lists that takes the smaller head first and a node that
heads both only once. -/
def merge : List Nat → List Nat → List Nat
  | [], ys => ys
  | xs, [] => xs
  | x :: xs, y :: ys =>
    if x < y then x :: merge xs (y :: ys)
    else if y < x then y :: merge (x :: xs) ys
    else x :: merge xs ys
termination_by xs ys => xs.length + ys.length

@[simp] theorem merge_nil_left (ys : List Nat) : merge [] ys = ys := by
  simp [merge]

@[simp] theorem merge_nil_right (xs : List Nat) : merge xs [] = xs := by
  cases xs <;> simp [merge]

/-- Inserts the nodes one by one and counts the new ones. -/
def insertAll (s : NodeSet) : List Nat → NodeSet × Nat
  | [] => (s, 0)
  | x :: xs =>
    let (grown, fresh) := s.insert x
    let (all, count) := grown.insertAll xs
    (all, if fresh then count + 1 else count)

/-- The nodes of both sets, and how many of them the first one lacked. A few
nodes are inserted into a large set in place; otherwise both are merged. -/
def union (s t : NodeSet) : NodeSet × Nat :=
  if t.elements.isEmpty then (s, 0)
  else if s.elements.isEmpty then (t, t.size)
  else if t.size * 8 < s.size then s.insertAll t.elements
  else
    let merged := merge s.elements t.elements
    let added := merged.length - s.size
    (if 0 < added then ⟨merged⟩ else s, added)

/-- Walks both lists and drops from the first what the second holds. -/
def subtract : List Nat → List Nat → List Nat
  | [], _ => []
  | x :: xs, ys =>
    let rest := ys.dropWhile (· < x)
    if rest.head? = some x then subtract xs rest else x :: subtract xs rest

/-- The nodes of the first set that the second lacks. -/
def difference (s t : NodeSet) : NodeSet := ⟨subtract s.elements t.elements⟩

def isSubset (s t : NodeSet) : Bool :=
  decide (s.size ≤ t.size) && (s.difference t).isEmpty

/-- Whether two lists share a node, found by one walk along both. -/
def meet : List Nat → List Nat → Bool
  | x :: xs, y :: ys =>
    if x < y then meet xs (y :: ys)
    else if y < x then meet (x :: xs) ys
    else true
  | _, _ => false
termination_by xs ys => xs.length + ys.length

def intersects (s t : NodeSet) : Bool := meet s.elements t.elements

end NodeSet

end PointsTo
