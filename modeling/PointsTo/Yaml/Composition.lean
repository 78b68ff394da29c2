import PointsTo.Yaml.Token

/-!
# Composing a YAML document

`Yaml.parse?` composes the one document of a text from its tokens. A key or an
entry without a value stands for an empty plain scalar. The collections that are
still open lie on a stack with what they hold so far, newest first; each step
reads a node or hands a node that is complete to the innermost collection.

An anchor gives its node a number. A name that is anchored for the first time
takes the number of the names before it; a name that is anchored again takes the
number of all names, its own included, and the next new name takes this number
once more. An alias stands for the last node with the number that its name has
where the alias is written.
-/

namespace PointsTo

namespace Yaml

/-- A document as it was composed. -/
structure Composition where
  root : Yaml
  /-- The anchored nodes, in the order in which they begin. -/
  anchored : Array Yaml := #[]
  /-- The numbers of the anchored nodes with their positions, newest first. -/
  numbers : List (Nat × Nat) := []
  /-- How many scalars and aliases there are, and beginnings and ends of
  collections. -/
  size : Nat

/-- The node that an alias stands for. -/
def Composition.target? (c : Composition) (number : Nat) : Option Yaml :=
  (c.numbers.lookup number).bind (c.anchored[·]?)

namespace Composition

/-- The tokens that are left, and what has been seen of the document. -/
structure Source where
  tokens : List Token
  handles : Handles := []
  /-- The number of each name. -/
  names : List (String × Nat) := []
  numbers : List (Nat × Nat) := []
  anchored : Array Yaml := #[]
  size : Nat := 0

abbrev Compose := StateT Source Option

namespace Compose

def fail {α : Type} : Compose α := fun _ => none

def peek : Compose Token := fun s => some (s.tokens.headD .streamEnd, s)

def drop : Compose Unit := modify fun s => { s with tokens := s.tokens.tail }

/-- Passes over a token if it stands here. -/
def accept (t : Token) : Compose Bool := do
  if (← peek) = t then
    drop
    return true
  else return false

def expect (t : Token) : Compose Unit := do
  if !(← accept t) then fail

/-- Whether one of these tokens stands here. -/
def isAt (ts : List Token) : Compose Bool := return ts.contains (← peek)

def count (events : Nat) : Compose Unit := modify fun s => { s with size := s.size + events }

/-- What stands before the content of a node: its tag, and the position of the
node among the anchored ones. -/
structure Head where
  tag : Option Tag := none
  anchor : Option Nat := none

/-- Gives a name to the node that begins here. -/
def anchor (name : String) : Compose Nat := do
  let s ← get
  let number := s.names.length
  let position := s.anchored.size
  set { s with
    names := (name, number) :: s.names.filter (·.1 != name)
    numbers := (number, position) :: s.numbers
    anchored := s.anchored.push empty }
  return position

def resolve (handle : String) (suffix : Octets) : Compose Tag := do
  match (← get).handles.tag? handle suffix with
  | some t => return t
  | none => fail

/-- Anchor and tag in either order, each once at most. -/
def head : Compose Head := do
  match ← peek with
  | .anchor name =>
    drop
    let position ← anchor name
    match ← peek with
    | .tag handle suffix =>
      drop
      return { tag := ← resolve handle suffix, anchor := position }
    | _ => return { anchor := position }
  | .tag handle suffix =>
    drop
    let tag ← resolve handle suffix
    match ← peek with
    | .anchor name =>
      drop
      return { tag, anchor := ← anchor name }
    | _ => return { tag }
  | _ => return {}

/-- The forms of a sequence. -/
inductive Items where
  | block
  /-- Dashes at the indentation of the key before them. -/
  | dashes
  | flow

/-- The forms of a mapping. -/
inductive Entries where
  | block
  | flow
  /-- A single entry as an item in brackets. -/
  | pair

/-- A collection that is still open; the node that is complete next is an item,
a key or a value of it. -/
inductive Open where
  | item (form : Items) (head : Head) (items : List Yaml)
  | key (form : Entries) (head : Head) (entries : List (Yaml × Yaml))
  /-- A key in braces that nothing marks as one: it has no value. -/
  | loneKey (head : Head) (entries : List (Yaml × Yaml))
  | value (form : Entries) (head : Head) (entries : List (Yaml × Yaml)) (key : Yaml)

/-- What is done next. -/
inductive Task where
  /-- Read a node. It may begin a block if `block` allows it, and consist of
  dashes at the indentation of the key before it if `dashes` does. -/
  | node (block dashes : Bool)
  /-- Hand over a node that is complete. -/
  | done (y : Yaml)

/-- The present task and the open collections, the innermost first. -/
abbrev Work := Task × List Open

/-- A node that is complete. -/
def finish (h : Head) (y : Yaml) (stack : List Open) : Compose Work := do
  match h.anchor with
  | none => return (.done y, stack)
  | some position =>
    modify fun s => { s with anchored := s.anchored.setIfInBounds position y }
    return (.done y, stack)

def scalar (h : Head) (style : Style) (text : String) (stack : List Open) : Compose Work := do
  count 1
  finish h (.scalar h.tag style text) stack

def closeSequence (h : Head) (items : List Yaml) (stack : List Open) : Compose Work :=
  finish h (.sequence h.tag items.reverse) stack

def closeMapping (h : Head) (entries : List (Yaml × Yaml)) (stack : List Open) : Compose Work :=
  finish h (.mapping h.tag entries.reverse) stack

/-- A node, or an empty scalar where one of the tokens `stops` stands. -/
def nodeOr (stops : List Token) (block dashes : Bool) (stack : List Open) : Compose Work := do
  if ← isAt stops then scalar {} .plain "" stack else return (.node block dashes, stack)

/-- A single pair in brackets, after the mark of its key. Where no key follows
the mark, the next token is passed over with it. -/
def pair (stack : List Open) : Compose Work := do
  count 2
  let stack := .key .pair {} [] :: stack
  if ← isAt [.value, .flowEntry, .flowSequenceEnd] then
    drop
    scalar {} .plain "" stack
  else return (.node false false, stack)

/-- The next item of a sequence, or its end. -/
def nextItem (form : Items) (h : Head) (items : List Yaml) (stack : List Open) : Compose Work := do
  let inside := .item form h items :: stack
  match form with
  | .block =>
    if ← accept .blockEntry then nodeOr [.blockEntry, .blockEnd] true false inside
    else
      expect .blockEnd
      closeSequence h items stack
  | .dashes =>
    if ← accept .blockEntry then
      nodeOr [.blockEntry, .key, .value, .blockEnd] true false inside
    else closeSequence h items stack
  | .flow =>
    if ← accept .flowSequenceEnd then return ← closeSequence h items stack
    if !items.isEmpty then expect .flowEntry
    if ← accept .key then pair inside
    else if ← accept .flowSequenceEnd then closeSequence h items stack
    else return (.node false false, inside)

/-- The next entry of a mapping, or its end. -/
def nextEntry (form : Entries) (h : Head) (entries : List (Yaml × Yaml)) (stack : List Open) :
    Compose Work := do
  let inside := .key form h entries :: stack
  match form with
  | .block =>
    if ← accept .key then nodeOr [.key, .value, .blockEnd] true true inside
    else
      expect .blockEnd
      closeMapping h entries stack
  | .flow =>
    if ← accept .flowMappingEnd then return ← closeMapping h entries stack
    if !entries.isEmpty then expect .flowEntry
    if ← accept .key then nodeOr [.value, .flowEntry, .flowMappingEnd] false false inside
    else if ← accept .flowMappingEnd then closeMapping h entries stack
    else return (.node false false, .loneKey h entries :: stack)
  | .pair => closeMapping h entries stack

/-- The value behind a key, which is empty if there is no colon. -/
def nextValue (form : Entries) (stack : List Open) : Compose Work := do
  if ← accept .value then
    match form with
    | .block => nodeOr [.key, .value, .blockEnd] true true stack
    | .flow => nodeOr [.flowEntry, .flowMappingEnd] false false stack
    | .pair => nodeOr [.flowEntry, .flowSequenceEnd] false false stack
  else scalar {} .plain "" stack

/-- What follows anchor and tag. Without any content they stand for an empty
scalar. -/
def content (block dashes : Bool) (h : Head) (stack : List Open) : Compose Work := do
  match ← peek with
  | .scalar style text => drop; scalar h style text stack
  | .flowSequenceStart => drop; count 2; nextItem .flow h [] stack
  | .flowMappingStart => drop; count 2; nextEntry .flow h [] stack
  | .blockSequenceStart => if block then drop; count 2; nextItem .block h [] stack else bare
  | .blockMappingStart => if block then drop; count 2; nextEntry .block h [] stack else bare
  | .blockEntry => if dashes then count 2; nextItem .dashes h [] stack else bare
  | _ => bare
where
  bare : Compose Work :=
    if h.anchor.isSome || h.tag.isSome then scalar h .plain "" stack else fail

def node (block dashes : Bool) (stack : List Open) : Compose Work := do
  match ← peek with
  | .alias name =>
    drop
    match (← get).names.lookup name with
    | some number =>
      count 1
      return (.done (.alias number), stack)
    | none => fail
  | _ => content block dashes (← head) stack

/-- Hands a node to the innermost collection. -/
def hand (y : Yaml) : List Open → Compose Work
  | [] => return (.done y, [])
  | .item form h items :: stack => nextItem form h (y :: items) stack
  | .key form h entries :: stack => nextValue form (.value form h entries y :: stack)
  | .loneKey h entries :: stack => scalar {} .plain "" (.value .flow h entries y :: stack)
  | .value form h entries key :: stack => nextEntry form h ((key, y) :: entries) stack

/-- Composes up to the node that no collection waits for. -/
def run : (fuel : Nat) → Work → Compose Yaml
  | 0, _ => fail
  | _ + 1, (.done y, []) => return y
  | fuel + 1, (.done y, stack) => do run fuel (← hand y stack)
  | fuel + 1, (.node block dashes, stack) => do run fuel (← node block dashes stack)

/-- Directives, no two of them about the same thing. Tells whether there were
any; `version` tells whether one was about the version. -/
def directives (version any : Bool) : (fuel : Nat) → Compose Bool
  | 0 => fail
  | fuel + 1 => do
    match ← peek with
    | .versionDirective =>
      if version then fail
      drop
      directives true true fuel
    | .tagDirective handle front =>
      if ((← get).handles.lookup handle).isSome then fail
      modify fun s => { s with handles := (handle, front) :: s.handles }
      drop
      directives version true fuel
    | _ => return any

/-- Passes over markers that end a document. -/
def skipEnds : (fuel : Nat) → Compose Unit
  | 0 => return ()
  | fuel + 1 => do
    if ← accept .documentEnd then skipEnds fuel

def isDirective : Token → Bool
  | .versionDirective => true
  | .tagDirective _ _ => true
  | _ => false

/-- The content of a document, which is empty at these tokens only behind a
marker. -/
def root (fuel : Nat) : Compose Yaml := do
  let explicit ←
    if ← directives false false fuel then
      expect .documentStart
      pure true
    else accept .documentStart
  let next ← peek
  if explicit && (isDirective next || [.documentStart, .documentEnd, .streamEnd].contains next) then
    run fuel (← scalar {} .plain "" [])
  else run fuel (.node true false, [])

/-- The one document of a stream. Up to eight steps are needed for a token. -/
def document : Compose Yaml := do
  let fuel := 8 * (← get).tokens.length + 8
  let y ← root fuel
  skipEnds fuel
  expect .streamEnd
  return y

end Compose

end Composition

/-- Reads a text that holds one document. A text without any content is none. -/
def parse? (s : String) : Option Composition := do
  let tokens ← tokens? s
  if tokens = [.streamEnd] then none
  let (root, source) ← Composition.Compose.document { tokens }
  return { root, anchored := source.anchored, numbers := source.numbers, size := source.size }

end Yaml

end PointsTo
