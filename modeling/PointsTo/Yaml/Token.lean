import PointsTo.Yaml.Scalar
import PointsTo.Yaml.Tag

/-!
# YAML tokens

`tokens?` cuts a text into the tokens of YAML. Block structure is made visible
by the way: a key or a dash that is indented further than the present block
opens a block, and a line that is indented less closes the blocks it leaves.

That something is a key shows only at the colon behind it. So wherever a key may
begin, the place is remembered, and a colon on the same line within reach puts
the tokens for the key in at that place. A place at which the block structure
demands a key must not be given up.

Each step reads at least one character, so the length of the text bounds the
number of steps.
-/

namespace PointsTo

namespace Yaml

inductive Token where
  | streamEnd
  | versionDirective
  | tagDirective (handle : String) (front : Octets)
  | documentStart
  | documentEnd
  | blockSequenceStart
  | blockMappingStart
  | blockEnd
  | flowSequenceStart
  | flowSequenceEnd
  | flowMappingStart
  | flowMappingEnd
  | blockEntry
  | flowEntry
  | key
  | value
  | alias (name : String)
  | anchor (name : String)
  | tag (handle : String) (suffix : Octets)
  | scalar (style : Style) (text : String)
deriving DecidableEq, Inhabited

/-- The name of an anchor or alias. -/
def name? (c : Cursor) : Option (String × Cursor) :=
  let name := c.rest.takeWhile isNameChar
  let c := c.skip name.length
  let ends := blankNext c.rest || c.head?.any fun ch => "?:,]\x7d%@\x60".toList.contains ch
  if name.isEmpty || !ends then none else some (String.ofList name, c)

/-! ## Directives -/

/-- One half of a version: at most nine digits. -/
def versionPart? (c : Cursor) : Option (Nat × Cursor) :=
  let digits := c.rest.takeWhile Char.isDigit
  if 9 < digits.length then none
  else (digits? 10 digits).map fun n => (n, c.skip digits.length)

/-- The version of YAML, which is 1.1 or 1.2. -/
def version? (c : Cursor) : Option Cursor := do
  let (major, c) ← versionPart? (c.skipWhile isBlank)
  if !c.isAt '.' then none
  let (minor, c) ← versionPart? (c.skip 1)
  if major = 1 ∧ (minor = 1 ∨ minor = 2) then return c else none

/-- A handle and the prefix that it is to stand for. -/
def abbreviation? (c : Cursor) : Option (String × Octets × Cursor) := do
  let (handle, c) ← handle? (c.skipWhile isBlank)
  if !(handle == "!" || isClosedHandle handle) || !c.atBlank then none
  let (front, c) ← tagText? true "" (c.skipWhile isBlank)
  if blankNext c.rest then return (handle, front, c) else none

/-- A directive after its percent sign, with the line break behind it. -/
def directive? (c : Cursor) : Option (Token × Cursor) := do
  let name := c.rest.takeWhile isNameChar
  let c := c.skip name.length
  if !blankNext c.rest then none
  if name = "YAML".toList then
    let c ← version? c
    return (.versionDirective, ← c.skipLineEnd?)
  else if name = "TAG".toList then
    let (handle, front, c) ← abbreviation? c
    return (.tagDirective handle front, ← c.skipLineEnd?)
  else none

/-! ## Tokens -/

/-- A place where a key may begin. -/
structure KeyPlace where
  required : Bool
  /-- The number of tokens before it. -/
  token : Nat
  place : Cursor
deriving Inhabited

structure Lexer where
  cursor : Cursor
  tokens : Array Token := #[]
  /-- The indentations of the open blocks, the innermost first. -/
  indents : List Nat := []
  /-- The place where a key may have begun on the block level. -/
  blockPlace : Option KeyPlace := none
  /-- The same for each open flow level, the innermost first. -/
  flowPlaces : List (Option KeyPlace) := []
  /-- Whether a key may begin here. -/
  keyAllowed : Bool := true
deriving Inhabited

namespace Lexer

def flow (x : Lexer) : Bool := !x.flowPlaces.isEmpty

def indent (x : Lexer) : Int :=
  match x.indents with
  | [] => -1
  | n :: _ => n

def emit (x : Lexer) (t : Token) : Lexer := { x with tokens := x.tokens.push t }

def allowKey (x : Lexer) (allowed : Bool) : Lexer := { x with keyAllowed := allowed }

/-- The place of the innermost level. -/
def place? (x : Lexer) : Option KeyPlace :=
  match x.flowPlaces with
  | [] => x.blockPlace
  | p :: _ => p

def setPlace (x : Lexer) (p : Option KeyPlace) : Lexer :=
  match x.flowPlaces with
  | [] => { x with blockPlace := p }
  | _ :: places => { x with flowPlaces := p :: places }

/-- Gives up the place where a key may have begun. -/
def dropPlace? (x : Lexer) : Option Lexer :=
  if x.place?.any KeyPlace.required then none else some (x.setPlace none)

/-- Remembers that a key may begin here. Only on the block level can it be
required. -/
def savePlace? (x : Lexer) : Option Lexer :=
  if x.keyAllowed then do
    let x ← x.dropPlace?
    return x.setPlace (some
      { required := !x.flow && x.indent == (x.cursor.column : Int)
        token := x.tokens.size
        place := x.cursor })
  else some x

/-- A place is out of reach on a later line or after 1024 bytes. -/
def isStale (x : Lexer) (p : KeyPlace) : Bool :=
  decide (p.place.line < x.cursor.line) || decide (p.place.bytes + 1024 < x.cursor.bytes)

/-- Whether a required key is out of reach. -/
def missesKey (x : Lexer) : Bool := x.blockPlace.any fun p => p.required && x.isStale p

/-- Opens a block at a column if it is indented further than the present one. -/
def openBlock (x : Lexer) (column : Nat) (position : Nat) (t : Token) : Lexer :=
  if !x.flow && decide (x.indent < (column : Int)) then
    { x with indents := column :: x.indents, tokens := x.tokens.insertIdxIfInBounds position t }
  else x

/-- Closes the blocks that are indented further than a column. -/
def closeBlocks (x : Lexer) (column : Int) : Lexer :=
  if x.flow then x
  else
    let closed := x.indents.takeWhile fun (n : Nat) => decide (column < (n : Int))
    { x with
      indents := x.indents.drop closed.length
      tokens := x.tokens ++ Array.replicate closed.length .blockEnd }

/-- Passes over blanks, comments and line breaks, and over a byte order mark at
the beginning of a line. A tab does not count as blank where a key may begin. -/
def skipGap : (fuel : Nat) → Lexer → Lexer
  | 0, x => x
  | fuel + 1, x =>
    let c := if x.cursor.column == 0 && x.cursor.isAt '\ufeff' then x.cursor.skip 1 else x.cursor
    let tabs := x.flow || !x.keyAllowed
    let c := (c.skipWhile fun ch => ch == ' ' || (tabs && ch == '\t')).skipComment
    if c.atBreak then
      skipGap fuel { x with cursor := c.skipBreak, keyAllowed := x.keyAllowed || !x.flow }
    else { x with cursor := c }

def skip (x : Lexer) (count : Nat) : Lexer := { x with cursor := x.cursor.skip count }

def flowStart? (x : Lexer) (t : Token) : Option Lexer := do
  let x ← x.savePlace?
  return { (x.emit t).skip 1 with flowPlaces := none :: x.flowPlaces, keyAllowed := true }

def flowEnd? (x : Lexer) (t : Token) : Option Lexer := do
  let x ← x.dropPlace?
  return { (x.emit t).skip 1 with flowPlaces := x.flowPlaces.tail, keyAllowed := false }

def flowEntry? (x : Lexer) : Option Lexer := do
  let x ← x.dropPlace?
  return ((x.emit .flowEntry).skip 1).allowKey true

def blockEntry? (x : Lexer) : Option Lexer := do
  if !x.flow && !x.keyAllowed then none
  let x := x.openBlock x.cursor.column x.tokens.size .blockSequenceStart
  let x ← x.dropPlace?
  return ((x.emit .blockEntry).skip 1).allowKey true

def explicitKey? (x : Lexer) : Option Lexer := do
  if !x.flow && !x.keyAllowed then none
  let x := x.openBlock x.cursor.column x.tokens.size .blockMappingStart
  let x ← x.dropPlace?
  return ((x.emit .key).skip 1).allowKey (!x.flow)

/-- A colon: what was read since the remembered place is a key, if the place is
within reach. -/
def value? (x : Lexer) : Option Lexer := do
  match x.place?.filter fun p => !x.isStale p with
  | some p =>
    let x := { x with tokens := x.tokens.insertIdxIfInBounds p.token .key }
    let x := x.openBlock p.place.column p.token .blockMappingStart
    return (((x.setPlace none).emit .value).skip 1).allowKey false
  | none =>
    if !x.flow && !x.keyAllowed then none
    let x := x.openBlock x.cursor.column x.tokens.size .blockMappingStart
    return (((x.setPlace none).emit .value).skip 1).allowKey (!x.flow)

def marker? (x : Lexer) (t : Token) : Option Lexer := do
  let x ← (x.closeBlocks (-1)).dropPlace?
  return ((x.emit t).skip 3).allowKey false

def percent? (x : Lexer) : Option Lexer := do
  let x ← (x.closeBlocks (-1)).dropPlace?
  let (t, cursor) ← directive? (x.cursor.skip 1)
  return { x.emit t with cursor, keyAllowed := false }

/-- Reads a token that may be a key or the beginning of one. -/
def readKeyLike? (x : Lexer) (read : Cursor → Option (Token × Cursor)) : Option Lexer := do
  let x ← x.savePlace?
  let (t, cursor) ← read x.cursor
  return { x.emit t with cursor, keyAllowed := false }

/-- The text of a scalar, which is read newest character first. -/
def scalarOf (style : Style) (read : List Char) : Token :=
  .scalar style (String.ofList read.reverse)

def blockScalarToken? (x : Lexer) (fuel : Nat) (literal : Bool) : Option Lexer := do
  let x ← x.dropPlace?
  let (read, cursor) ← blockScalar? literal x.indent fuel (x.cursor.skip 1)
  let t := scalarOf (if literal then .literal else .quoted) read
  return { x.emit t with cursor, keyAllowed := true }

def plainToken? (x : Lexer) (fuel : Nat) : Option Lexer := do
  let x ← x.savePlace?
  let (read, broken, cursor) ← plain? x.flow (x.indent + 1).toNat fuel x.cursor [] {}
  return { x.emit (scalarOf .plain read) with cursor, keyAllowed := broken }

/-- Whether a plain scalar may begin with these characters. -/
def startsPlain (flow : Bool) (ch : Char) (rest : List Char) : Bool :=
  let reserved := "-?:,[]\x7b\x7d#&*!|>'\"%@\x60".toList
  (!isBlankOrBreak ch && !reserved.contains ch) ||
    (ch == '-' && !rest.head?.any isBlank) ||
    (!flow && (ch == '?' || ch == ':') && !blankNext rest)

/-- Reads the token that begins with these characters. -/
def token? (x : Lexer) (fuel : Nat) (ch : Char) (rest : List Char) : Option Lexer :=
  if x.cursor.column == 0 && ch == '%' then x.percent?
  else if x.cursor.atMarker then
    x.marker? (if ch == '-' then .documentStart else .documentEnd)
  else if ch == '[' then x.flowStart? .flowSequenceStart
  else if ch == '{' then x.flowStart? .flowMappingStart
  else if ch == ']' then x.flowEnd? .flowSequenceEnd
  else if ch == '}' then x.flowEnd? .flowMappingEnd
  else if ch == ',' then x.flowEntry?
  else if ch == '-' && blankNext rest then x.blockEntry?
  else if ch == '?' && (x.flow || blankNext rest) then x.explicitKey?
  else if ch == ':' && (x.flow || blankNext rest) then x.value?
  else if ch == '*' then
    x.readKeyLike? fun c => (name? (c.skip 1)).map fun (name, c) => (.alias name, c)
  else if ch == '&' then
    x.readKeyLike? fun c => (name? (c.skip 1)).map fun (name, c) => (.anchor name, c)
  else if ch == '!' then
    x.readKeyLike? fun c =>
      (tag? x.flow c).map fun (handle, suffix, c) => (.tag handle suffix, c)
  else if ch == '|' && !x.flow then x.blockScalarToken? fuel true
  else if ch == '>' && !x.flow then x.blockScalarToken? fuel false
  else if ch == '\'' || ch == '"' then
    x.readKeyLike? fun c =>
      (quoted? (ch == '"') fuel (c.skip 1) []).map fun (read, c) =>
        (scalarOf .quoted read, c)
  else if startsPlain x.flow ch rest then x.plainToken? fuel
  else none

/-- Closes everything at the end of the text. -/
def finish? (x : Lexer) : Option Lexer := do
  let x ← (x.closeBlocks (-1)).dropPlace?
  return x.emit .streamEnd

/-- Reads all tokens; `fuel` is more than the number of characters left. -/
def run? : (fuel : Nat) → Lexer → Option Lexer
  | 0, _ => none
  | fuel + 1, x =>
    let x := x.skipGap (fuel + 1)
    if x.missesKey then none
    else
      let x := x.closeBlocks x.cursor.column
      match x.cursor.rest with
      | [] => x.finish?
      | ch :: rest =>
        match x.token? (fuel + 1) ch rest with
        | none => none
        | some x => run? fuel x

end Lexer

/-- The tokens of a text, the end of the stream last. -/
def tokens? (s : String) : Option (List Token) := do
  let cs := s.toList
  if !cs.all isPrintable then none
  let x ← Lexer.run? (cs.length + 1) { cursor := { rest := cs } }
  return x.tokens.toList

end Yaml

end PointsTo
