import PointsTo.Config
import PointsTo.Loose

/-!
# Pop orders by name

A pop order is written as a mapping, with its name under `order`, or as a list
that begins with its name. What else is there is set aside until the name is
known: a shuffled order takes its seed from it, the other orders pass over the
entries of a mapping and accept no more items of a list.
-/

namespace PointsTo

namespace PopStrategy

def orderName : PopStrategy → String
  | .fifo => "fifo"
  | .lifo => "lifo"
  | .shuffled _ => "shuffled"

/-- The strategy of this name; `seed` is read only if the strategy needs it. -/
def ofName? (name : String) (seed : Option Nat) : Option PopStrategy :=
  if name = "fifo" then some .fifo
  else if name = "lifo" then some .lifo
  else if name = "shuffled" then seed.map .shuffled
  else none

/-- Whether a key can be the name or the number of a field. -/
def isFieldKey : Loose → Bool
  | .nat _ => true
  | .text _ => true
  | _ => false

/-- Whether a key stands for the seed, by name or as the first field. -/
def isSeedKey : Loose → Bool
  | .nat n => n == 0
  | .text s => s == "seed"
  | _ => false

/-- The one seed among the entries beside the name. -/
def seedOf? (entries : List (Loose × Loose)) : Option Nat :=
  if entries.all fun (key, _) => isFieldKey key then
    match entries.filter fun (key, _) => isSeedKey key with
    | [(_, seed)] => seed.nat?
    | _ => none
  else none

def ofEntries? (name : String) (entries : List (Loose × Loose)) : Option PopStrategy :=
  ofName? name (seedOf? entries)

def ofItems? (name : String) : List Loose → Option PopStrategy
  | [] => ofName? name none
  | [seed] => if name = "shuffled" then ofName? name seed.nat? else none
  | _ => none

end PopStrategy

end PointsTo
