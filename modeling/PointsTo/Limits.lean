import PointsTo.Error
import PointsTo.Word

/-!
# Limits

Bounds on what a run may use up: nodes, merges of classes, and memberships of
nodes in sets. A bound that is not set is no bound. Zero is refused rather than
read as "none", and a node bound has to fit an index.
-/

namespace PointsTo

structure Limits where
  maxNodes : Option Nat := none
  maxMerges : Option Nat := none
  maxMembership : Option Nat := none
deriving DecidableEq, Inhabited

namespace Limits

def unbounded : Limits := {}

/-- The bounds under the names by which a configuration calls them. -/
def named (l : Limits) : List (String × Option Nat) :=
  [("limits.max_nodes", l.maxNodes), ("limits.max_merges", l.maxMerges),
    ("limits.max_pts_membership", l.maxMembership)]

def zeroError (field : String) : ConfigError :=
  .range field "0" "1" (toString maxCount) "Use null (no bound) instead of 0"

def fault? (l : Limits) : Option ConfigError :=
  match l.named.find? (·.2 == some 0) with
  | some (field, _) => some (zeroError field)
  | none =>
    match l.maxNodes with
    | some n =>
      if maxIndex < n then
        some (.range "limits.max_nodes" (toString n) "1" (toString maxIndex)
          "Node indices are 32-bit")
      else none
    | none => none

end Limits

end PointsTo
