/-!
# YAML values

A `Yaml` is a node of a document as it was composed: scalars are kept as text,
with the style that decides whether they can be anything but text, and the
entries of a mapping stay in order. An alias is a node of its own, which stands
for the node that its number names in the document.
-/

namespace PointsTo

namespace Yaml

inductive Style where
  | plain
  /-- The lines below a bar, as they stand. -/
  | literal
  /-- Between quotes, or lines to be folded: a text and nothing else. -/
  | quoted
deriving DecidableEq, Inhabited

inductive Tag where
  | null
  | bool
  | int
  | float
  /-- A tag of the application, without the exclamation mark if anything follows it. -/
  | own (name : String)
  /-- A tag of the application that is no text. -/
  | garbled
  /-- Any other tag, which says nothing about the value. -/
  | other
deriving DecidableEq, Inhabited

end Yaml

inductive Yaml where
  | scalar (tag : Option Yaml.Tag) (style : Yaml.Style) (text : String)
  | alias (number : Nat)
  | sequence (tag : Option Yaml.Tag) (items : List Yaml)
  | mapping (tag : Option Yaml.Tag) (entries : List (Yaml × Yaml))
deriving Inhabited

namespace Yaml

def plain (text : String) : Yaml := .scalar none .plain text

def empty : Yaml := plain ""

def null : Yaml := plain "null"

def bool (b : Bool) : Yaml := plain (if b then "true" else "false")

def nat (n : Nat) : Yaml := plain (toString n)

def option {α : Type} (f : α → Yaml) : Option α → Yaml
  | none => null
  | some a => f a

/-- A mapping from names. -/
def record (entries : List (String × Yaml)) : Yaml :=
  .mapping none (entries.map fun (name, y) => (plain name, y))

mutual

/-- The lines of a value in block style, below a key or a dash. -/
def blockLines : Yaml → List String
  | .scalar _ _ text => [text]
  | .alias number => ["*" ++ toString number]
  | .sequence _ items => itemLines items
  | .mapping _ entries => entryLines entries

def itemLines : List Yaml → List String
  | [] => []
  | y :: ys => hang "- " (blockLines y) ++ itemLines ys

def entryLines : List (Yaml × Yaml) → List String
  | [] => []
  | (.scalar _ _ key, .scalar _ _ text) :: rest => (key ++ ": " ++ text) :: entryLines rest
  | (.scalar _ _ key, y) :: rest => (key ++ ":") :: indent (blockLines y) ++ entryLines rest
  | (_, _) :: rest => entryLines rest

def indent (lines : List String) : List String := lines.map ("  " ++ ·)

/-- Puts a mark before the first line and indents the others. -/
def hang (mark : String) : List String → List String
  | [] => [mark]
  | line :: lines => (mark ++ line) :: indent lines

end

/-- The text of a document whose scalars need no quotes. -/
def text (y : Yaml) : String := String.join (y.blockLines.map (· ++ "\n"))

end Yaml

end PointsTo
