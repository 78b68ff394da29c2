import PointsTo.Yaml.Composition

/-!
# Reading a YAML document

Readers of typed values. Only plain scalars are numbers and booleans, and lines
below a bar with the tag of the kind that is asked for. The keys of a mapping
are texts, each of which may occur once, and what stands for nothing is a
mapping without entries.

An alias is followed where a value is read, and not where it is passed over.
Aliases within aliases can make a short document a long way to read, so no more
than a hundred can be followed for each part of the document.
-/

namespace PointsTo

namespace Yaml

/-- Reads from a document; the state is the number of aliases that may still be
followed. -/
abbrev Reading := ReaderT Composition (StateT Nat Option)

/-- Reads a document from its root. -/
def Composition.read? {α : Type} (c : Composition) (f : Yaml → Reading α) : Option α :=
  ((f c.root).run c).run' (100 * c.size)

/-- The node that a node stands for. -/
def follow : Yaml → Reading Yaml
  | .alias number => do
    match ← get, (← read).target? number with
    | jumps + 1, some y =>
      set jumps
      return y
    | _, _ => failure
  | y => return y

/-- The text of a scalar, whatever its tag and style. -/
def readText (y : Yaml) : Reading String := do
  match ← follow y with
  | .scalar _ _ text => return text
  | _ => failure

/-- The text of a scalar that may be of the kind of a tag. -/
def readCore (expected : Tag) (y : Yaml) : Reading String := do
  match ← follow y with
  | .scalar _ .plain text => return text
  | .scalar tag .literal text => if tag = some expected then return text else failure
  | _ => failure

def readBool (y : Yaml) : Reading Bool := do boolOfText? (← readCore .bool y)

def readNat (limit : Nat) (y : Yaml) : Reading Nat := do natOfText? limit (← readCore .int y)

/-- A counter, a limit or a seed: 64 bits. -/
def readCount : Yaml → Reading Nat := readNat maxCount

/-- Whether a node stands for the absence of a value. The tag for it asks for a
word that says so; any other tag makes a value of anything. -/
def isAbsent? : Yaml → Option Bool
  | .scalar none .plain text => some (isNullText text)
  | .scalar (some .null) .plain text => if isNullWord text then some true else none
  | _ => some false

/-- A value that may be absent. -/
def readNullable {α : Type} (f : Yaml → Reading α) (y : Yaml) : Reading (Option α) := do
  let y ← follow y
  if ← isAbsent? y then return none else return some (← f y)

/-- The entries of a mapping by the texts of their keys. -/
def readEntries (y : Yaml) : Reading (List (String × Yaml)) := do
  match ← follow y with
  | .mapping _ entries => entries.mapM fun (key, y) => return (← readText key, y)
  | .scalar _ .plain text => if text.isEmpty then return [] else failure
  | _ => failure

/-- The value under a name; fails if there are two. -/
def entry? (entries : List (String × Yaml)) (name : String) : Option (Option Yaml) :=
  match entries.filter (·.1 == name) with
  | [] => some none
  | [(_, y)] => some (some y)
  | _ => none

/-- A value that may be missing or absent. -/
def readOptional {α : Type} (f : Yaml → Reading α) (entries : List (String × Yaml))
    (name : String) : Reading (Option α) := do
  match ← entry? entries name with
  | none => return none
  | some y => readNullable f y

def readRequired {α : Type} (f : Yaml → Reading α) (entries : List (String × Yaml))
    (name : String) : Reading α := do
  f (← (← entry? entries name))

/-- Whether all names are among the known ones. -/
def knownOnly (names : List String) (entries : List (String × Yaml)) : Bool :=
  entries.all fun (name, _) => names.contains name

/-- Whether a tag belongs to the application. -/
def isOwn : Option Tag → Bool
  | some (.own _) => true
  | _ => false

/-- Sets a value aside. Nothing in it may have a tag of the application. -/
def readLoose : (depth : Nat) → Yaml → Reading Loose
  | 0, y => do
    match ← follow y with
    | .scalar tag style text => looseOfScalar? tag style text
    | _ => failure
  | depth + 1, y => do
    match ← follow y with
    | .scalar tag style text => looseOfScalar? tag style text
    | .sequence tag items =>
      if isOwn tag then failure
      items.forM fun y => do let _ ← readLoose depth y
      return .other
    | .mapping tag entries =>
      if isOwn tag then failure
      entries.forM fun (key, y) => do
        let _ ← readLoose depth key
        let _ ← readLoose depth y
      return .other
    | .alias _ => failure

end Yaml

end PointsTo
