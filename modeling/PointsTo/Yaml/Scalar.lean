import PointsTo.Yaml.Core
import PointsTo.Yaml.Cursor

/-!
# Scalars in a YAML text

A scalar without quotes goes on over blanks and line breaks as long as the
syntax allows, a scalar in quotes to its closing quote, and a scalar below a bar
or an angle bracket as far as its lines are indented. Lines are folded: a single
line break is a blank, and of several the first is dropped.

What has been read lies newest character first, in `read`. The number of the
characters that are left is enough `fuel` for every reader.
-/

namespace PointsTo

namespace Yaml

/-- Puts characters behind those that were read. -/
def onto (cs read : List Char) : List Char := cs.reverseAux read

/-- The blanks and line breaks between two parts of a scalar, the newest first. -/
structure Gap where
  /-- The blanks before the first line break. -/
  blanks : List Char := []
  /-- The line breaks. -/
  breaks : List Char := []
deriving Inhabited

namespace Gap

/-- A single line break is folded to a blank, of several the first is dropped. -/
def fold (g : Gap) (read : List Char) : List Char :=
  match g.breaks.reverse with
  | [] => g.blanks ++ read
  | ['\n'] => ' ' :: read
  | '\n' :: more => onto more read
  | breaks => onto breaks read

end Gap

/-- Reads blanks and line breaks. Below `indent`, a tab must not stand at the
beginning of a line. -/
def gap? (indent : Nat) : (fuel : Nat) → Cursor → Gap → Option (Gap × Cursor)
  | 0, c, g => some (g, c)
  | fuel + 1, c, g =>
    match c.head? with
    | none => some (g, c)
    | some ch =>
      if isBlank ch then
        if g.breaks.isEmpty then gap? indent fuel (c.skip 1) { g with blanks := ch :: g.blanks }
        else if ch == '\t' && decide (c.column < indent) then none
        else gap? indent fuel (c.skip 1) g
      else if isBreak ch then
        gap? indent fuel c.skipBreak { g with breaks := c.breakChar :: g.breaks }
      else some (g, c)

/-! ## Plain scalars -/

/-- The length of the part of a plain scalar that stands here. -/
def plainLength? (flow : Bool) : (length : Nat) → List Char → Option Nat
  | length, [] => some length
  | length, c :: rest =>
    if isBlankOrBreak c then some length
    else if flow && c == ':' && rest.head?.any (fun d => d == '?' || isFlowIndicator d) then none
    else if c == ':' && blankNext rest then some length
    else if flow && isFlowIndicator c then some length
    else plainLength? flow (length + 1) rest

/-- A plain scalar; `pending` is the gap that was read last. Tells whether the
scalar ended with a line break that was passed over. -/
def plain? (flow : Bool) (indent : Nat) :
    (fuel : Nat) → Cursor → (read : List Char) → (pending : Gap) →
      Option (List Char × Bool × Cursor)
  | 0, c, read, pending => some (read, !pending.breaks.isEmpty, c)
  | fuel + 1, c, read, pending =>
    if c.atMarker || c.isAt '#' then some (read, !pending.breaks.isEmpty, c)
    else
      match plainLength? flow 0 c.rest with
      | none => none
      | some 0 => some (read, !pending.breaks.isEmpty, c)
      | some length =>
        let read := onto (c.rest.take length) (pending.fold read)
        let c := c.skip length
        if c.atBlank || c.atBreak then
          match gap? indent fuel c {} with
          | none => none
          | some (pending, c) =>
            if !flow && decide (c.column < indent) then some (read, !pending.breaks.isEmpty, c)
            else plain? flow indent fuel c read pending
        else some (read, false, c)

/-! ## Scalars in quotes -/

/-- The character of an escape in double quotes, and the number of characters
after the backslash that write it. -/
def escape? : List Char → Option (Char × Nat)
  | '0' :: _ => some ('\x00', 1)
  | 'a' :: _ => some ('\x07', 1)
  | 'b' :: _ => some ('\x08', 1)
  | 't' :: _ => some ('\t', 1)
  | '\t' :: _ => some ('\t', 1)
  | 'n' :: _ => some ('\n', 1)
  | 'v' :: _ => some ('\x0b', 1)
  | 'f' :: _ => some ('\x0c', 1)
  | 'r' :: _ => some ('\r', 1)
  | 'e' :: _ => some ('\x1b', 1)
  | ' ' :: _ => some (' ', 1)
  | '"' :: _ => some ('"', 1)
  | '/' :: _ => some ('/', 1)
  | '\\' :: _ => some ('\\', 1)
  | 'N' :: _ => some ('\u0085', 1)
  | '_' :: _ => some ('\u00a0', 1)
  | 'L' :: _ => some ('\u2028', 1)
  | 'P' :: _ => some ('\u2029', 1)
  | 'x' :: rest => character 2 rest
  | 'u' :: rest => character 4 rest
  | 'U' :: rest => character 8 rest
  | _ => none
where
  character (count : Nat) (rest : List Char) : Option (Char × Nat) := do
    if rest.length < count then none
    let n ← digits? 16 (rest.take count)
    if n.isValidChar then return (Char.ofNat n, count + 1) else none

/-- A quoted scalar after its opening quote. -/
def quoted? (double : Bool) : (fuel : Nat) → Cursor → (read : List Char) →
    Option (List Char × Cursor)
  | 0, _, _ => none
  | fuel + 1, c, read =>
    if c.atMarker then none
    else
      match c.rest with
      | [] => none
      | '\'' :: '\'' :: _ =>
        if double then quoted? double fuel (c.skip 1) ('\'' :: read)
        else quoted? double fuel (c.skip 2) ('\'' :: read)
      | ch :: rest =>
        if ch == (if double then '"' else '\'') then some (read, c.skip 1)
        else if double && ch == '\\' then
          if rest.head?.any isBreak then
            let c := (c.skip 1).skipBreak
            match gap? 0 fuel c { breaks := ['\n'] } with
            | none => none
            | some (g, c) => quoted? double fuel c (g.breaks.dropLast ++ read)
          else
            match escape? rest with
            | none => none
            | some (e, count) => quoted? double fuel (c.skip (count + 1)) (e :: read)
        else if isBlankOrBreak ch then
          match gap? 0 fuel c {} with
          | none => none
          | some (g, c) => quoted? double fuel c (g.fold read)
        else quoted? double fuel (c.skip 1) (ch :: read)

/-! ## Block scalars -/

/-- What follows the last line of a block scalar. -/
inductive Chomping where
  | strip
  | clip
  | keep
deriving DecidableEq

/-- Chomping and indentation from the header of a block scalar. -/
def blockHeader? (c : Cursor) : Option (Chomping × Option Nat × Cursor) :=
  let chomping (ch : Char) : Option Chomping :=
    if ch == '+' then some .keep else if ch == '-' then some .strip else none
  let width (ch : Char) : Option Nat :=
    if ch.isDigit && ch != '0' then some (ch.toNat - '0'.toNat) else none
  match c.rest with
  | '0' :: _ => none
  | a :: b :: _ =>
    match chomping a, width b, width a, chomping b with
    | some m, some w, _, _ => some (m, some w, c.skip 2)
    | some m, none, _, _ => if b == '0' then none else some (m, none, c.skip 1)
    | _, _, some w, some m => some (m, some w, c.skip 2)
    | _, _, some w, none => some (.clip, some w, c.skip 1)
    | _, _, _, _ => some (.clip, none, c)
  | [a] =>
    match chomping a, width a with
    | some m, _ => some (m, none, c.skip 1)
    | _, some w => some (.clip, some w, c.skip 1)
    | _, _ => some (.clip, none, c)
  | [] => some (.clip, none, c)

/-- Empty lines of a block scalar, and the widest indentation among them. An
indentation that is not known yet is `none`. -/
def emptyLines? (indent : Option Nat) :
    (fuel : Nat) → Cursor → (breaks : List Char) → (widest : Nat) →
      Option (List Char × Nat × Cursor)
  | 0, c, breaks, widest => some (breaks, widest, c)
  | fuel + 1, c, breaks, widest =>
    let blanks := (c.rest.takeWhile (· == ' ')).length
    let c := c.skip (match indent with
      | none => blanks
      | some n => min blanks (n - c.column))
    let widest := max widest c.column
    if c.isAt '\t' && indent.all (c.column < ·) then none
    else if c.atBreak then emptyLines? indent fuel c.skipBreak (c.breakChar :: breaks) widest
    else some (breaks, widest, c)

/-- The lines of a block scalar. `lead` is the break after the last line read,
`empties` are the breaks of the empty lines behind it. -/
def blockLines? (literal : Bool) (chomping : Chomping) (indent : Nat) :
    (fuel : Nat) → Cursor → (read lead empties : List Char) → (afterBlank : Bool) →
      Option (List Char × Cursor)
  | 0, _, _, _, _, _ => none
  | fuel + 1, c, read, lead, empties, afterBlank =>
    if c.column == indent && !c.rest.isEmpty then
      let blank := c.atBlank
      let joint :=
        if !literal && lead == ['\n'] && !afterBlank && !blank then
          if empties.isEmpty then [' '] else empties
        else empties ++ lead
      let line := c.rest.takeWhile (!isBreak ·)
      let read := onto line (joint ++ read)
      let c := c.skip line.length
      let lead := if c.atBreak then [c.breakChar] else []
      let c := if c.atBreak then c.skipBreak else c
      match emptyLines? (some indent) fuel c [] 0 with
      | none => none
      | some (empties, _, c) => blockLines? literal chomping indent fuel c read lead empties blank
    else
      some (match chomping with
        | .strip => (read, c)
        | .clip => (lead ++ read, c)
        | .keep => (empties ++ lead ++ read, c))

/-- A block scalar after its indicator, in a block of indentation `outer`. -/
def blockScalar? (literal : Bool) (outer : Int) (fuel : Nat) (c : Cursor) :
    Option (List Char × Cursor) := do
  let (chomping, width, c) ← blockHeader? c
  let c ← c.skipLineEnd?
  let indent := width.map fun w => (max outer 0).toNat + w
  let (empties, widest, c) ← emptyLines? indent fuel c [] 0
  let indent := indent.getD (max widest (max (outer + 1) 1).toNat)
  blockLines? literal chomping indent fuel c [] [] empties false

end Yaml

end PointsTo
