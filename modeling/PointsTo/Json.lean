import PointsTo.Text.Decimal

/-!
# JSON values

A `Json` keeps the members of an object in the order in which they were
written, repeated names included: whether a repeated name is an error is
decided by the reader of a record, not by the text. A number without fraction
and exponent is an integer if it fits 64 bits; of any other number the digits
are kept that fit 64 bits, because nothing in this library is a real number.

The escapes of a string can write one half of a surrogate pair without the
other. Such a string has no text; it may stand where nobody reads it.
-/

namespace PointsTo

inductive Json where
  | null
  | bool (b : Bool)
  | integer (n : Int)
  | real (negative : Bool) (value : Text.Decimal)
  | string (text : Option String)
  | array (items : List Json)
  | object (members : List (Option String × Json))
deriving Inhabited

namespace Json

def nat (n : Nat) : Json := .integer n

def nats (ns : List Nat) : Json := .array (ns.map nat)

def text (s : String) : Json := .string (some s)

def option {α : Type} (f : α → Json) : Option α → Json
  | none => .null
  | some a => f a

/-- An object with these members. -/
def record (members : List (String × Json)) : Json :=
  .object (members.map fun (name, j) => (some name, j))

def digit (n : Nat) : Char := (Nat.digitChar n)

/-- A character inside quotes: the quote, the backslash and what lies below the
blank are escaped. -/
def escapeChar (c : Char) : List Char :=
  if c = '"' then ['\\', '"']
  else if c = '\\' then ['\\', '\\']
  else if c = '\n' then ['\\', 'n']
  else if c = '\r' then ['\\', 'r']
  else if c = '\t' then ['\\', 't']
  else if c = '\x08' then ['\\', 'b']
  else if c = '\x0c' then ['\\', 'f']
  else if c < ' ' then ['\\', 'u', '0', '0', digit (c.toNat / 16), digit (c.toNat % 16)]
  else [c]

def quote (s : String) : String :=
  "\"" ++ String.ofList (s.toList.flatMap escapeChar) ++ "\""

/-- A string without a text is written as half of a surrogate pair. -/
def quoteText : Option String → String
  | some s => quote s
  | none => "\"\\ud800\""

mutual

/-- A value in print, without blanks. -/
def print : Json → String
  | .null => "null"
  | .bool b => if b then "true" else "false"
  | .integer n => toString n
  | .real negative d =>
    (if negative then "-" else "") ++ toString d.significand ++ "e" ++ toString d.exponent
  | .string s => quoteText s
  | .array items => "[" ++ String.intercalate "," (printItems items) ++ "]"
  | .object members => "\x7b" ++ String.intercalate "," (printMembers members) ++ "\x7d"

def printItems : List Json → List String
  | [] => []
  | j :: js => print j :: printItems js

def printMembers : List (Option String × Json) → List String
  | [] => []
  | (name, j) :: rest => (quoteText name ++ ":" ++ print j) :: printMembers rest

end

end Json

end PointsTo
