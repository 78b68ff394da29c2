import PointsTo.Json
import PointsTo.Loose
import PointsTo.Word

/-!
# Records in JSON

Readers of typed values. A record is written as an object, in which names that
it does not know are passed over and a name that it knows must not occur twice,
or as an array that gives all fields in order. A variant is written by its name
or, in an object with this one member, by its name and what belongs to it.

What is passed over has not been read, so it may hold numbers of any size,
strings without a text and arrays of any depth. A value that is only set aside
has been read, and may not.
-/

namespace PointsTo

namespace Json

def bool? : Json → Option Bool
  | .bool b => some b
  | _ => none

def string? : Json → Option String
  | .string s => s
  | _ => none

/-- A natural number up to `limit`. -/
def natUpTo? (limit : Nat) : Json → Option Nat
  | .integer (.ofNat n) => if n ≤ limit then some n else none
  | _ => none

/-- A node index, an offset or a field count: 32 bits. -/
def word? : Json → Option Nat := natUpTo? maxIndex

/-- A counter, a limit or a seed: 64 bits. -/
def count? : Json → Option Nat := natUpTo? maxCount

def list? {α : Type} (f : Json → Option α) : Json → Option (List α)
  | .array items => items.mapM f
  | _ => none

/-- A value that may be `null`. -/
def nullable? {α : Type} (f : Json → Option α) : Json → Option (Option α)
  | .null => some none
  | j => (f j).map some

/-- The members of an object, if all names are texts. -/
def named? (members : List (Option String × Json)) : Option (List (String × Json)) :=
  members.mapM fun (name, j) => name.map (·, j)

/-- The member of an object that has this name; fails if there are two. -/
def member? (members : List (String × Json)) (name : String) : Option (Option Json) :=
  match members.filter (·.1 == name) with
  | [] => some none
  | [(_, j)] => some (some j)
  | _ => none

/-- The fields of a record, in the order of `names`; a field that an object
lacks is `none`. -/
def fields? (names : List String) : Json → Option (List (Option Json))
  | .object members => do
    let members ← named? members
    names.mapM (member? members)
  | .array items => if items.length = names.length then some (items.map some) else none
  | _ => none

/-- A field that must be there. -/
def required? {α : Type} (f : Json → Option α) (field : Option Json) : Option α := field.bind f

/-- A field that may be absent or `null`. -/
def optional? {α : Type} (f : Json → Option α) : Option Json → Option (Option α)
  | none => some none
  | some j => nullable? f j

/-- The name of a variant, and what belongs to it. -/
def variant? : Json → Option (String × Option Json)
  | .string (some name) => some (name, none)
  | .object [(some name, j)] => some (name, some j)
  | _ => none

/-- The name of a variant that nothing belongs to. -/
def plainVariant? (j : Json) : Option String :=
  match variant? j with
  | some (name, none) => some name
  | some (name, some .null) => some name
  | _ => none

/-- Sets a value aside. All its strings have a text, and its numbers are within
the reach of a double. -/
def loose? : (depth : Nat) → Json → Option Loose
  | _, .integer (.ofNat n) => some (.nat n)
  | _, .integer (.negSucc n) => some (.minus (n + 1))
  | _, .real _ d => if d.fitsScaled then some .other else none
  | _, .string s => s.map .text
  | depth + 1, .array items => do
    let _ ← items.mapM (loose? depth)
    return .other
  | depth + 1, .object members => do
    let _ ← (← named? members).mapM fun (_, j) => loose? depth j
    return .other
  | 0, .array _ => none
  | 0, .object _ => none
  | _, .null => some .other
  | _, .bool _ => some .other

end Json

end PointsTo
