import PointsTo.Json
import PointsTo.Word

/-!
# Reading JSON

`Json.parse?` reads one value and nothing after it. The grammar is the strict
one: no comments, no trailing commas, no leading zeros, no raw control
characters in a string. An escape in a string is a code unit of 16 bits.

The arrays and objects that are still open lie on a stack, so no text is nested
too deep. Each step reads at least one character, so the length of the text
bounds the number of steps.
-/

namespace PointsTo

namespace Json

def isBlank (c : Char) : Bool := c == ' ' || c == '\n' || c == '\t' || c == '\r'

def skipBlanks (cs : List Char) : List Char := cs.dropWhile isBlank

/-! ## Strings -/

def hexDigit? (c : Char) : Option Nat :=
  if '0' ≤ c ∧ c ≤ '9' then some (c.toNat - '0'.toNat)
  else if 'a' ≤ c ∧ c ≤ 'f' then some (c.toNat - 'a'.toNat + 10)
  else if 'A' ≤ c ∧ c ≤ 'F' then some (c.toNat - 'A'.toNat + 10)
  else none

/-- The code unit that four hexadecimal digits write. -/
def unit? (a b c d : Char) : Option Nat := do
  return ((((← hexDigit? a) * 16 + (← hexDigit? b)) * 16 + (← hexDigit? c)) * 16 + (← hexDigit? d))

def isHighSurrogate (unit : Nat) : Bool := decide (0xD800 ≤ unit ∧ unit < 0xDC00)

def isLowSurrogate (unit : Nat) : Bool := decide (0xDC00 ≤ unit ∧ unit < 0xE000)

def joinSurrogates (high low : Nat) : Char :=
  Char.ofNat (0x10000 + (high - 0xD800) * 0x400 + (low - 0xDC00))

/-- The characters of code points and code units, which come newest first. A
surrogate has to be half of a pair. -/
def characters? : (units : List Nat) → (read : List Char) → Option (List Char)
  | [], read => some read
  | [unit], read =>
    if isHighSurrogate unit || isLowSurrogate unit then none else some (Char.ofNat unit :: read)
  | unit :: before :: units, read =>
    if isLowSurrogate unit then
      if isHighSurrogate before then characters? units (joinSurrogates before unit :: read)
      else none
    else if isHighSurrogate unit then none
    else characters? (before :: units) (Char.ofNat unit :: read)

def unescape? (c : Char) : Option Char :=
  if c = '"' ∨ c = '\\' ∨ c = '/' then some c
  else if c = 'b' then some '\x08'
  else if c = 'f' then some '\x0c'
  else if c = 'n' then some '\n'
  else if c = 'r' then some '\r'
  else if c = 't' then some '\t'
  else none

/-- The rest of a string after its opening quote; `units` holds what was read so
far, newest first. -/
def stringRest? (units : List Nat) : List Char → Option (Option String × List Char)
  | [] => none
  | '"' :: rest => some ((characters? units []).map String.ofList, rest)
  | '\\' :: 'u' :: a :: b :: c :: d :: rest =>
    match unit? a b c d with
    | none => none
    | some unit => stringRest? (unit :: units) rest
  | '\\' :: c :: rest =>
    match unescape? c with
    | none => none
    | some e => stringRest? (e.toNat :: units) rest
  | c :: rest => if ' ' ≤ c ∧ c ≠ '\\' then stringRest? (c.toNat :: units) rest else none

/-! ## Numbers -/

def digitValue (c : Char) : Nat := c.toNat - '0'.toNat

def digitsValue (ds : List Char) : Nat := ds.foldl (fun n d => n * 10 + digitValue d) 0

/-- Appends digits to a number up to the first that does not keep it within 64
bits, and counts those that are left. -/
def appendDigits (n : Nat) : List Char → Nat × Nat
  | [] => (n, 0)
  | d :: ds =>
    if n * 10 + digitValue d ≤ maxCount then appendDigits (n * 10 + digitValue d) ds
    else (n, ds.length + 1)

/-- The parts of a number in print. -/
structure NumberText where
  negative : Bool
  whole : List Char
  fraction : List Char
  exponent : Option Int

namespace NumberText

/-- The value as far as 64 bits hold its digits. -/
def decimal (t : NumberText) : Text.Decimal :=
  let (n, dropped) := appendDigits 0 t.whole
  let (n, unused) := appendDigits n t.fraction
  ⟨n, t.exponent.getD 0 + dropped - (t.fraction.length - unused : Nat)⟩

/-- A number without fraction and exponent is an integer if it fits 64 bits,
signed if it is negative. A negative zero is not an integer. -/
def toJson (t : NumberText) : Json :=
  let n := digitsValue t.whole
  if t.fraction.isEmpty && t.exponent.isNone &&
      (if t.negative then decide (0 < n ∧ n ≤ maxMinus) else decide (n ≤ maxCount)) then
    .integer (if t.negative then -n else n)
  else .real t.negative t.decimal

end NumberText

/-- Digits of which the first is no zero unless it is the only one. -/
def wholePart? (cs : List Char) : Option (List Char × List Char) :=
  let digits := cs.takeWhile Char.isDigit
  match digits with
  | [] => none
  | '0' :: _ :: _ => none
  | _ => some (digits, cs.dropWhile Char.isDigit)

/-- A point and at least one digit, if there is a point. -/
def fraction? : List Char → Option (List Char × List Char)
  | '.' :: rest =>
    let digits := rest.takeWhile Char.isDigit
    if digits.isEmpty then none else some (digits, rest.dropWhile Char.isDigit)
  | cs => some ([], cs)

/-- Whether there is a minus sign, and what follows the sign. -/
def signOf : List Char → Bool × List Char
  | '+' :: rest => (false, rest)
  | '-' :: rest => (true, rest)
  | cs => (false, cs)

def exponent? : List Char → Option (Option Int × List Char)
  | [] => some (none, [])
  | c :: rest =>
    if c == 'e' || c == 'E' then
      let (negative, rest) := signOf rest
      let digits := rest.takeWhile Char.isDigit
      let n : Int := digitsValue digits
      if digits.isEmpty then none
      else some (some (if negative then -n else n), rest.dropWhile Char.isDigit)
    else some (none, c :: rest)

def number? (cs : List Char) : Option (Json × List Char) := do
  let negative := cs.head? == some '-'
  let (whole, rest) ← wholePart? (if negative then cs.tail else cs)
  let (fraction, rest) ← fraction? rest
  let (exponent, rest) ← exponent? rest
  return ({ negative, whole, fraction, exponent : NumberText }.toJson, rest)

/-! ## Values -/

/-- A value that holds no others. -/
def simple? : List Char → Option (Json × List Char)
  | 'n' :: 'u' :: 'l' :: 'l' :: rest => some (.null, rest)
  | 't' :: 'r' :: 'u' :: 'e' :: rest => some (.bool true, rest)
  | 'f' :: 'a' :: 'l' :: 's' :: 'e' :: rest => some (.bool false, rest)
  | '"' :: rest => (stringRest? [] rest).map fun (s, rest) => (.string s, rest)
  | cs => number? cs

/-- The name of a member and the colon behind it. -/
def name? (cs : List Char) : Option (Option String × List Char) :=
  match skipBlanks cs with
  | '"' :: rest =>
    match stringRest? [] rest with
    | none => none
    | some (name, rest) =>
      match skipBlanks rest with
      | ':' :: rest => some (name, rest)
      | _ => none
  | _ => none

/-- An array or an object that is still open, with what it holds so far, newest
first. The value that is read next belongs to it. -/
inductive Open where
  | array (items : List Json)
  | object (members : List (Option String × Json)) (name : Option String)

/-- Reads on. There is a value if one has just been read; otherwise one is due. -/
def read? : (fuel : Nat) → (stack : List Open) → (value : Option Json) → List Char → Option Json
  | 0, _, _, _ => none
  | fuel + 1, stack, none, cs =>
    match skipBlanks cs with
    | '[' :: rest =>
      match skipBlanks rest with
      | ']' :: rest => read? fuel stack (some (.array [])) rest
      | rest => read? fuel (.array [] :: stack) none rest
    | '{' :: rest =>
      match skipBlanks rest with
      | '}' :: rest => read? fuel stack (some (.object [])) rest
      | rest =>
        match name? rest with
        | none => none
        | some (name, rest) => read? fuel (.object [] name :: stack) none rest
    | cs =>
      match simple? cs with
      | none => none
      | some (j, rest) => read? fuel stack (some j) rest
  | _ + 1, [], some j, cs => if (skipBlanks cs).isEmpty then some j else none
  | fuel + 1, .array items :: stack, some j, cs =>
    match skipBlanks cs with
    | ',' :: rest => read? fuel (.array (j :: items) :: stack) none rest
    | ']' :: rest => read? fuel stack (some (.array (j :: items).reverse)) rest
    | _ => none
  | fuel + 1, .object members name :: stack, some j, cs =>
    match skipBlanks cs with
    | ',' :: rest =>
      match name? rest with
      | none => none
      | some (next, rest) => read? fuel (.object ((name, j) :: members) next :: stack) none rest
    | '}' :: rest => read? fuel stack (some (.object ((name, j) :: members).reverse)) rest
    | _ => none

/-- Reads a text that is one value and blanks around it. -/
def parse? (s : String) : Option Json :=
  let cs := s.toList
  read? (cs.length + 1) [] none cs

end Json

end PointsTo
