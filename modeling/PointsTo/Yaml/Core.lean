import PointsTo.Loose
import PointsTo.Text.Decimal
import PointsTo.Word
import PointsTo.Yaml

/-!
# The core schema

What a scalar means is decided where it is read. A plain scalar is read by the
core schema of YAML 1.2: `null`, `true` and `false` in three spellings each,
whole numbers in decimal, hexadecimal, octal or binary notation, and decimals
within the reach of a double. A tag of the schema asks for one of these kinds.
-/

namespace PointsTo

namespace Yaml

def nullWords : List String := ["null", "Null", "NULL", "~"]

def isNullWord (s : String) : Bool := nullWords.contains s

/-- Whether a plain text stands for the absence of a value. -/
def isNullText (s : String) : Bool := s.isEmpty || isNullWord s

def boolOfText? (s : String) : Option Bool :=
  if ["true", "True", "TRUE"].contains s then some true
  else if ["false", "False", "FALSE"].contains s then some false
  else none

def digitOf? (radix : Nat) (c : Char) : Option Nat :=
  let d :=
    if c.isDigit then c.toNat - '0'.toNat
    else if 'a' ≤ c ∧ c ≤ 'z' then c.toNat - 'a'.toNat + 10
    else if 'A' ≤ c ∧ c ≤ 'Z' then c.toNat - 'A'.toNat + 10
    else radix
  if d < radix then some d else none

/-- The number that digits write, at least one of them. -/
def digits? (radix : Nat) (cs : List Char) : Option Nat := do
  let ds ← cs.mapM (digitOf? radix)
  if ds.isEmpty then none else return ds.foldl (fun n d => n * radix + d) 0

/-- Several digits that begin with a zero: a text and not a number. -/
def isZeroPadded (cs : List Char) : Bool :=
  cs.head? == some '0' && decide (1 < cs.length) && cs.all Char.isDigit

/-- A whole number without its sign. -/
def magnitude? : List Char → Option Nat
  | '0' :: 'x' :: rest => digits? 16 rest
  | '0' :: 'o' :: rest => digits? 8 rest
  | '0' :: 'b' :: rest => digits? 2 rest
  | cs => if isZeroPadded cs then none else digits? 10 cs

/-- Whether there is a minus sign, and what follows the sign. -/
def unsigned : List Char → Bool × List Char
  | '-' :: rest => (true, rest)
  | '+' :: rest => (false, rest)
  | cs => (false, cs)

/-- A whole number without a minus sign, up to `limit`. -/
def natOfText? (limit : Nat) (s : String) : Option Nat :=
  match unsigned s.toList with
  | (true, _) => none
  | (false, cs) => (magnitude? cs).filter (· ≤ limit)

/-- What is read in place of a whole number. It fits 64 bits, signed if it has a
minus sign; a number that only 128 bits hold is an error. -/
inductive Whole where
  | number (value : Loose)
  | tooWide
deriving DecidableEq

def wholeOfText? (s : String) : Option Whole :=
  let (negative, cs) := unsigned s.toList
  match magnitude? cs with
  | none => none
  | some n =>
    if negative then
      if n ≤ maxMinus then some (.number (.minus n))
      else if n ≤ maxWideMinus then some .tooWide
      else none
    else if n ≤ maxCount then some (.number (.nat n))
    else if n ≤ maxWide then some .tooWide
    else none

/-- The exponent of a decimal, which is zero where none is written. -/
def exponentOf? : List Char → Option Int
  | [] => some 0
  | c :: rest =>
    let (negative, digits) := unsigned rest
    if c == 'e' || c == 'E' then
      (digits? 10 digits).map fun n => if negative then -(n : Int) else n
    else none

/-- A decimal without its sign. There is at least one digit before the exponent,
and a point may stand before, between and behind them. -/
def decimalOf? (cs : List Char) : Option Text.Decimal := do
  let whole := cs.takeWhile Char.isDigit
  let rest := cs.dropWhile Char.isDigit
  let (fraction, rest) := match rest with
    | '.' :: rest => (rest.takeWhile Char.isDigit, rest.dropWhile Char.isDigit)
    | rest => ([], rest)
  let n ← digits? 10 (whole ++ fraction)
  return ⟨n, (← exponentOf? rest) - fraction.length⟩

def unsignedInfinities : List String := [".inf", ".Inf", ".INF"]

/-- The names of what is no finite number. -/
def realWords : List String :=
  unsignedInfinities ++ unsignedInfinities.map ("+" ++ ·) ++ unsignedInfinities.map ("-" ++ ·) ++
    [".nan", ".NaN", ".NAN"]

/-- Whether a text is a real number. Beyond the reach of a double it is not. -/
def isRealText (s : String) : Bool :=
  realWords.contains s || (decimalOf? (unsigned s.toList).2).any Text.Decimal.fits

/-- What a plain scalar without a tag is. -/
def looseOfPlain? (s : String) : Option Loose :=
  if isNullText s || (boolOfText? s).isSome then some .other
  else
    match wholeOfText? s with
    | some (.number n) => some n
    | some .tooWide => none
    | none =>
      if !isZeroPadded (unsigned s.toList).2 && isRealText s then some .other else some (.text s)

/-- Sets a scalar aside. Fails if its tag asks for what it is not, or belongs to
the application. -/
def looseOfScalar? (tag : Option Tag) (style : Style) (s : String) : Option Loose :=
  match tag, style with
  | none, .plain => looseOfPlain? s
  | none, _ => some (.text s)
  | some .null, _ => if isNullWord s then some .other else none
  | some .bool, _ => (boolOfText? s).map fun _ => .other
  | some .int, _ =>
    match wholeOfText? s with
    | some (.number n) => some n
    | _ => none
  | some .float, _ => if isRealText s then some .other else none
  | some (.own _), _ => none
  | some .garbled, .plain => looseOfPlain? s
  | some .garbled, _ => some (.text s)
  | some .other, _ => some (.text s)

end Yaml

end PointsTo
