/-!
# Words

The numbers that fit words of a fixed width. Nodes are indexed by 32 bits;
whatever is counted or given as a limit has 64.
-/

namespace PointsTo

/-- The largest number of nodes whose indices fit 32 bits. -/
def maxIndex : Nat := 4294967295

/-- The largest counter. -/
def maxCount : Nat := 18446744073709551615

/-- The largest number whose opposite fits a signed word of 64 bits. -/
def maxMinus : Nat := 9223372036854775808

/-- The largest number that fits 128 bits. -/
def maxWide : Nat := 340282366920938463463374607431768211455

/-- The largest number whose opposite fits a signed word of 128 bits. -/
def maxWideMinus : Nat := 170141183460469231731687303715884105728

end PointsTo
