import PointsTo.Yaml
import PointsTo.Yaml.Core
import PointsTo.Yaml.Cursor

/-!
# Tags and their handles

A tag is written in full between angle brackets, or as a handle and a suffix.
A handle begins with an exclamation mark and abbreviates a prefix: the
exclamation mark itself or the home of the core schema, unless a directive says
otherwise. Escapes write a tag byte by byte, so it need not be a text; it ends
with its first zero byte.
-/

namespace PointsTo

namespace Yaml

abbrev Octets := List UInt8

def octets (s : String) : Octets := s.toUTF8.toList

namespace Tag

/-- The prefix of the core schema. -/
def home : String := "tag:yaml.org,2002:"

/-- What a tag in full says about the node that it stands at. -/
def ofOctets (tag : Octets) : Tag :=
  if tag = octets (home ++ "null") then .null
  else if tag = octets (home ++ "bool") then .bool
  else if tag = octets (home ++ "int") then .int
  else if tag = octets (home ++ "float") then .float
  else if tag.head? = some 0x21 then
    let name := if tag.tail.isEmpty then tag else tag.tail
    match String.fromUTF8? name.toByteArray with
    | some name => .own name
    | none => .garbled
  else .other

end Tag

/-- The prefixes that handles stand for. -/
abbrev Handles := List (String × Octets)

namespace Handles

def standard : Handles := [("!", octets "!"), ("!!", octets Tag.home)]

/-- The tag that a handle and a suffix write. Without a handle the suffix is the
tag; a handle must be known. -/
def tag? (handles : Handles) (handle : String) (suffix : Octets) : Option Tag :=
  if handle.isEmpty then some (.ofOctets suffix)
  else ((handles ++ standard).lookup handle).map fun front => .ofOctets (front ++ suffix)

end Handles

/-! ## Tags in a text -/

/-- The characters of a tag. Commas and brackets are among them only where the
tag cannot be part of a collection in brackets. -/
def isTagChar (brackets : Bool) (c : Char) : Bool :=
  isNameChar c || ";/?:@&=+$.%!~*'()".toList.contains c || (brackets && ",[]".toList.contains c)

/-- How many bytes the first byte of a character announces. -/
def octetCount? (first : Nat) : Option Nat :=
  if first < 0x80 then some 1
  else if first < 0xC0 then none
  else if first < 0xE0 then some 2
  else if first < 0xF0 then some 3
  else if first < 0xF8 then some 4
  else none

/-- The bytes of a tag that is written here, and what follows it. Escaped bytes
come as characters; `due` is the number of bytes that the present character
still lacks, and `count` the number of characters of the text passed over. -/
def tagOctets? (brackets : Bool) : (due : Nat) → (read : Octets) → (count : Nat) → List Char →
    Option (Octets × Nat)
  | due, read, count, '%' :: rest =>
    match rest with
    | a :: b :: rest =>
      match digits? 16 [a, b] with
      | none => none
      | some n =>
        if due = 0 then
          match octetCount? n with
          | none => none
          | some width => tagOctets? brackets (width - 1) (.ofNat n :: read) (count + 3) rest
        else if 0x80 ≤ n ∧ n < 0xC0 then
          tagOctets? brackets (due - 1) (.ofNat n :: read) (count + 3) rest
        else none
    | _ => none
  | due, read, count, c :: rest =>
    if due ≠ 0 then none
    else if isTagChar brackets c then
      tagOctets? brackets 0 (.ofNat c.toNat :: read) (count + 1) rest
    else some (read.reverse, count)
  | due, read, count, [] => if due = 0 then some (read.reverse, count) else none

/-- A tag, or the rest of one that begins with `front`, up to the first zero
byte. One of both must not be empty. -/
def tagText? (brackets : Bool) (front : String) (c : Cursor) : Option (Octets × Cursor) := do
  let (tag, count) ← tagOctets? brackets 0 [] 0 c.rest
  if count = 0 ∧ front.isEmpty then none
  return ((octets (front.drop 1).toString ++ tag).takeWhile (· != 0), c.skip count)

/-- An exclamation mark and a name, with or without another exclamation mark. -/
def handle? (c : Cursor) : Option (String × Cursor) :=
  match c.rest with
  | '!' :: rest =>
    let name := rest.takeWhile isNameChar
    let stop := ((rest.drop name.length).take 1).filter (· == '!')
    some (String.ofList ('!' :: name ++ stop), c.skip (1 + name.length + stop.length))
  | _ => none

/-- Whether a handle is more than the beginning of a tag. -/
def isClosedHandle (handle : String) : Bool := handle != "!" && handle.endsWith "!"

/-- A tag at its exclamation mark, as its handle and suffix. -/
def tag? (flow : Bool) (c : Cursor) : Option (String × Octets × Cursor) := do
  let (handle, suffix, c) ←
    if c.rest.take 2 = ['!', '<'] then do
      let (tag, c) ← tagText? true "" (c.skip 2)
      if c.isAt '>' then some ("", tag, c.skip 1) else none
    else do
      let (handle, c) ← handle? c
      if isClosedHandle handle then
        let (suffix, c) ← tagText? false "" c
        some (handle, suffix, c)
      else
        let (suffix, c) ← tagText? false handle c
        if suffix.isEmpty then some ("", octets "!", c) else some ("!", suffix, c)
  if blankNext c.rest || (flow && c.isAt ',') then return (handle, suffix, c) else none

end Yaml

end PointsTo
