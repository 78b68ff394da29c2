/-!
# Values that are set aside

Some values are read before it is known what they are for: those that stand
beside the name that decides it. A `Loose` is what is left of such a value. Only
numbers and texts can still be used for something. The value itself has been
checked all the same, and it may nest only so deep.
-/

namespace PointsTo

inductive Loose where
  | nat (n : Nat)
  /-- A number that was written with a minus sign. -/
  | minus (n : Nat)
  | text (s : String)
  | other
deriving DecidableEq, Inhabited

namespace Loose

/-- How deep lists and mappings may nest within a value that is set aside. -/
def maxDepth : Nat := 125

/-- The natural number that a value is. -/
def nat? : Loose → Option Nat
  | .nat n => some n
  | .minus 0 => some 0
  | _ => none

end Loose

end PointsTo
