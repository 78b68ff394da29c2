/-!
# Places in a YAML text

The classes of characters that the syntax knows, and a `Cursor` that moves
through a text. It counts lines and columns in characters and its distance from
the beginning in bytes, by which the reach of a key is measured.
-/

namespace PointsTo

namespace Yaml

def isBlank (c : Char) : Bool := c == ' ' || c == '\t'

def isBreak (c : Char) : Bool :=
  c == '\n' || c == '\r' || c == '\u0085' || c == '\u2028' || c == '\u2029'

def isBlankOrBreak (c : Char) : Bool := isBlank c || isBreak c

/-- The end of the text counts as blank. -/
def blankNext (cs : List Char) : Bool := cs.head?.all isBlankOrBreak

/-- The characters that a text may hold. -/
def isPrintable (c : Char) : Bool :=
  c == '\t' || c == '\n' || c == '\r' || c == '\u0085' ||
    decide ((0x20 ≤ c.toNat ∧ c.toNat ≤ 0x7E) ∨ (0xA0 ≤ c.toNat ∧ c.toNat ≤ 0xFFFD) ∨
      0x10000 ≤ c.toNat)

/-- Letters, digits, dashes and underscores. -/
def isNameChar (c : Char) : Bool := c.isAlphanum || c == '_' || c == '-'

def isFlowIndicator (c : Char) : Bool :=
  c == ',' || c == '[' || c == ']' || c == '{' || c == '}'

structure Cursor where
  rest : List Char
  bytes : Nat := 0
  line : Nat := 0
  column : Nat := 0
deriving Inhabited

namespace Cursor

def skip (c : Cursor) (count : Nat) : Cursor :=
  { c with
    rest := c.rest.drop count
    bytes := (c.rest.take count).foldl (fun n ch => n + ch.utf8Size) c.bytes
    column := c.column + count }

/-- Passes over a line break, of which a carriage return with a line feed is one. -/
def skipBreak (c : Cursor) : Cursor :=
  let count := match c.rest with
    | '\r' :: '\n' :: _ => 2
    | _ => 1
  { c.skip count with line := c.line + 1, column := 0 }

/-- The character that a line break is in the text of a scalar. -/
def breakChar (c : Cursor) : Char :=
  match c.rest with
  | '\u2028' :: _ => '\u2028'
  | '\u2029' :: _ => '\u2029'
  | _ => '\n'

def head? (c : Cursor) : Option Char := c.rest.head?

def isAt (c : Cursor) (ch : Char) : Bool := c.head? == some ch

def atBreak (c : Cursor) : Bool := c.head?.any isBreak

def atBlank (c : Cursor) : Bool := c.head?.any isBlank

/-- Whether a document marker begins here. -/
def atMarker (c : Cursor) : Bool :=
  c.column == 0 && (c.rest.take 3 == ['-', '-', '-'] || c.rest.take 3 == ['.', '.', '.']) &&
    blankNext (c.rest.drop 3)

def skipWhile (c : Cursor) (p : Char → Bool) : Cursor := c.skip (c.rest.takeWhile p).length

def skipComment (c : Cursor) : Cursor := if c.isAt '#' then c.skipWhile (!isBreak ·) else c

/-- Passes over what may stand at the end of a line, and over the line break. -/
def skipLineEnd? (c : Cursor) : Option Cursor :=
  let c := (c.skipWhile isBlank).skipComment
  if c.rest.isEmpty then some c
  else if c.atBreak then some c.skipBreak
  else none

end Cursor

end Yaml

end PointsTo
