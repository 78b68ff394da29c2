import PointsTo.Word

/-!
# Nodes

Variables and memory objects of the analysed program are nodes of one dense
table and are addressed by their index in it.

An object with `k` fields takes `k` consecutive indices. Each of its nodes knows
its `Layout`: the base, its own offset from it and the number of fields, so that
a step of some fields is an addition with one bound to check. The two special
nodes stand for the target of null pointers and for unknown memory; unknown
memory points to itself.
-/

namespace PointsTo

inductive Special where
  | null
  | universal
deriving DecidableEq

def Special.name : Special → String
  | .null => "null"
  | .universal => "universal"

/-- The place of a node within its object. -/
structure Layout where
  base : Nat
  offset : Nat
  fieldCount : Nat
deriving DecidableEq

namespace Layout

def isField (l : Layout) : Bool := decide (0 < l.offset)

/-- The node `k` fields further on, if the object reaches that far. -/
def field? (l : Layout) (k : Nat) : Option Nat :=
  if l.offset + k < l.fieldCount then some (l.base + (l.offset + k)) else none

/-- The same step worked out in words of 32 bits. If the offsets have no sum there is
no field; the sum with the base is not checked. -/
def wordField? (l : Layout) (k : Nat) : Option Nat :=
  if maxIndex < l.offset + k then none
  else if l.offset + k < l.fieldCount then some ((l.base + (l.offset + k)) % (maxIndex + 1))
  else none

/-- As `field?`, for a layout that no table vouches for. Fails if the field lies
beyond the indices of 32 bits. -/
def checkedField? (l : Layout) (k : Nat) : Option (Option Nat) :=
  if (l.field? k).all (· ≤ maxIndex) then some (l.field? k) else none

theorem field?_eq_some_iff {l : Layout} {k n : Nat} :
    l.field? k = some n ↔ l.offset + k < l.fieldCount ∧ n = l.base + (l.offset + k) := by
  unfold field?
  split <;> simp [*, eq_comm]

end Layout

inductive NodeKind where
  /-- A variable that holds a pointer. -/
  | value
  /-- A memory object or one of its fields. -/
  | object (layout : Layout)
  | special (kind : Special)
deriving DecidableEq

structure Node where
  index : Nat
  kind : NodeKind
deriving DecidableEq

namespace Node

/-- Whether a pointer can point to the node. -/
def isPointee (n : Node) : Bool :=
  match n.kind with
  | .value => false
  | .object _ => true
  | .special _ => true

def special? (n : Node) : Option Special :=
  match n.kind with
  | .special kind => some kind
  | _ => none

def layout? (n : Node) : Option Layout :=
  match n.kind with
  | .object layout => some layout
  | _ => none

/-- The short name of the node in a listing. -/
def label (n : Node) : String :=
  match n.kind with
  | .value => s!"v{n.index}"
  | .object _ => s!"o{n.index}"
  | .special kind => kind.name

end Node

end PointsTo
