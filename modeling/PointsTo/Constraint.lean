import PointsTo.Sorting

/-!
# Constraints

The four inclusion constraints of a points-to analysis, for a destination `d`,
a source `s` and an offset `k`:

* `addrOf`: `d = &s`, the set of `d` holds `s`;
* `copy`: `d = s`, the set of `d` includes the set of `s`;
* `load`: `d = *(s + k)`, the set of `d` includes the set of `o + k` for every
  `o` in the set of `s`;
* `store`: `*(d + k) = s`, the set of `o + k` includes the set of `s` for every
  `o` in the set of `d`.

Loads and stores are driven by the set of one operand, the pointer.
-/

namespace PointsTo

inductive ConstraintKind where
  | addrOf
  | copy
  | load
  | store
deriving DecidableEq

namespace ConstraintKind

def all : List ConstraintKind := [.addrOf, .copy, .load, .store]

def name : ConstraintKind → String
  | .addrOf => "ADDR_OF"
  | .copy => "COPY"
  | .load => "LOAD"
  | .store => "STORE"

def code : ConstraintKind → Nat
  | .addrOf => 0
  | .copy => 1
  | .load => 2
  | .store => 3

def ofCode? (code : Nat) : Option ConstraintKind := all[code]?

theorem ofCode?_code (k : ConstraintKind) : ofCode? k.code = some k := by cases k <;> rfl

end ConstraintKind

structure Constraint where
  kind : ConstraintKind
  dest : Nat
  src : Nat
  offset : Nat := 0
deriving DecidableEq

namespace Constraint

def addrOf (dest src : Nat) : Constraint := { kind := .addrOf, dest, src }

def copy (dest src : Nat) : Constraint := { kind := .copy, dest, src }

def load (dest src offset : Nat) : Constraint := { kind := .load, dest, src, offset }

def store (dest src offset : Nat) : Constraint := { kind := .store, dest, src, offset }

/-- Whether the constraint acts through a pointer. -/
def isComplex (c : Constraint) : Bool :=
  match c.kind with
  | .addrOf | .copy => false
  | .load | .store => true

/-- The operand whose set drives the constraint. -/
def pointer? (c : Constraint) : Option Nat :=
  match c.kind with
  | .addrOf | .copy => none
  | .load => some c.src
  | .store => some c.dest

/-- Whether the constraint asks a set to include itself. -/
def isSelfCopy (c : Constraint) : Bool := c.kind == .copy && c.dest == c.src

def key (c : Constraint) : List Nat := [c.kind.code, c.dest, c.src, c.offset]

/-- Kind first, then destination, source and offset. -/
def precedes (c d : Constraint) : Bool := lexicographic c.key d.key

def sorted (cs : List Constraint) : List Constraint := sortBy precedes cs

def ofKind (kind : ConstraintKind) (cs : List Constraint) : List Constraint :=
  cs.filter (·.kind == kind)

def count (kind : ConstraintKind) (cs : List Constraint) : Nat := (ofKind kind cs).length

def complex (cs : List Constraint) : List Constraint := cs.filter isComplex

end Constraint

end PointsTo
