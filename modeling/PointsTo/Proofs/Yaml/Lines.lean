import PointsTo.Yaml.Token
import Mathlib.Data.List.TakeWhile

/-!
# Lines in block style

A text in block style whose keys and values are words consists of lines, each
with a key and perhaps a value. How far the lines are indented decides what
belongs to what: a `Line` opens a block if it is indented further than the block
that it stands in, and closes the blocks that are indented further than itself.
`lineTokens` says so without a lexer.
-/

namespace PointsTo

namespace Yaml

/-! ## Words -/

/-- A letter, a digit or an underscore: nothing that the syntax gives a meaning. -/
def isWordChar (c : Char) : Bool := c.isAlphanum || c == '_'

/-- A text that needs no quotes, since it consists of letters, digits and underscores. -/
structure IsWord (s : String) : Prop where
  ne_nil : s.toList ≠ []
  wordChar : ∀ c ∈ s.toList, isWordChar c = true

theorem isWord_iff {s : String} :
    IsWord s ↔ (!s.toList.isEmpty && s.toList.all isWordChar) = true := by
  rw [Bool.and_eq_true, Bool.not_eq_true', List.isEmpty_eq_false_iff, List.all_eq_true]
  exact ⟨fun h => ⟨h.ne_nil, h.wordChar⟩, fun h => ⟨h.1, h.2⟩⟩

instance (s : String) : Decidable (IsWord s) := decidable_of_iff _ isWord_iff.symm

theorem IsWord.exists_cons {s : String} (hs : IsWord s) :
    ∃ ch cs, s.toList = ch :: cs ∧ isWordChar ch = true := by
  obtain ⟨ch, cs, hcons⟩ := List.exists_cons_of_ne_nil hs.ne_nil
  exact ⟨ch, cs, hcons, hs.wordChar ch (by rw [hcons]; exact List.mem_cons_self)⟩

section Words

variable {c : Char} {ws rest : List Char}

/-- A character that is part of a word is none that is not. -/
theorem beq_eq_false_of_wordChar (hc : isWordChar c = true) (d : Char)
    (hd : isWordChar d = false) : (c == d) = false := by
  refine beq_false_of_ne fun heq => ?_
  rw [heq, hd] at hc
  cases hc

theorem toNat_of_wordChar (hc : isWordChar c = true) : 0x30 ≤ c.toNat ∧ c.toNat ≤ 0x7A := by
  have hranges : (((decide (c.val ≥ 'A'.val ∧ c.val ≤ 'Z'.val) ||
      (decide (c.val ≥ 'a'.val) && decide (c.val ≤ 'z'.val))) ||
      (decide (c.val ≥ '0'.val) && decide (c.val ≤ '9'.val))) || c == '_') = true := hc
  have hval : c.toNat = c.val.toNat := rfl
  have h0 : '0'.val.toNat = 0x30 := rfl
  have h9 : '9'.val.toNat = 0x39 := rfl
  have hA : 'A'.val.toNat = 0x41 := rfl
  have hZ : 'Z'.val.toNat = 0x5A := rfl
  have ha : 'a'.val.toNat = 0x61 := rfl
  have hz : 'z'.val.toNat = 0x7A := rfl
  simp only [Bool.or_eq_true, Bool.and_eq_true, decide_eq_true_iff, beq_iff_eq, ge_iff_le,
    UInt32.le_iff_toNat_le] at hranges
  rcases hranges with hranges | rfl
  · omega
  · decide

theorem isBlankOrBreak_of_wordChar (hc : isWordChar c = true) : isBlankOrBreak c = false := by
  have hne := beq_eq_false_of_wordChar hc
  simp only [isBlankOrBreak, isBlank, isBreak, hne ' ' (by decide), hne '\t' (by decide),
    hne '\n' (by decide), hne '\r' (by decide), hne '\u0085' (by decide),
    hne '\u2028' (by decide), hne '\u2029' (by decide), Bool.or_false]

theorem isPrintable_of_wordChar (hc : isWordChar c = true) : isPrintable c = true := by
  have hrange := toNat_of_wordChar hc
  simp only [isPrintable, Bool.or_eq_true, decide_eq_true_iff]
  omega

theorem utf8Size_of_wordChar (hc : isWordChar c = true) : c.utf8Size = 1 := by
  have hrange := toNat_of_wordChar hc
  rw [Char.utf8Size, if_pos]
  rw [UInt32.le_iff_toNat_le]
  exact Nat.le_trans hrange.2 (by decide)

/-- A plain scalar goes on to the end of a word. -/
theorem plainLength?_word (hws : ∀ c ∈ ws, isWordChar c = true) (n : Nat) :
    plainLength? false n (ws ++ rest) = plainLength? false (n + ws.length) rest := by
  induction ws generalizing n with
  | nil => rfl
  | cons c ws ih =>
      have hc : isWordChar c = true := hws c List.mem_cons_self
      rw [List.cons_append, plainLength?, isBlankOrBreak_of_wordChar hc,
        beq_eq_false_of_wordChar hc ':' (by decide)]
      simp only [Bool.false_and, Bool.and_false, Bool.false_eq_true, if_false]
      rw [ih fun c hc => hws c (List.mem_cons_of_mem _ hc), List.length_cons]
      congr 1
      omega

theorem bytes_skip_word {x : Cursor} (hrest : x.rest = ws ++ rest)
    (hws : ∀ c ∈ ws, isWordChar c = true) : (x.skip ws.length).bytes = x.bytes + ws.length := by
  have hfold : ∀ n, ws.foldl (fun n ch => n + ch.utf8Size) n = n + ws.length := by
    clear hrest
    induction ws with
    | nil => exact fun n => rfl
    | cons c ws ih =>
        intro n
        rw [List.foldl_cons, ih fun c hc => hws c (List.mem_cons_of_mem _ hc),
          utf8Size_of_wordChar (hws c List.mem_cons_self), List.length_cons]
        omega
  simp only [Cursor.skip, hrest, List.take_left, hfold]

end Words

/-! ## Lines -/

/-- A line in block style: so many blanks, a key and a colon, and the value unless it stands
on the lines below. -/
structure Line where
  column : Nat
  key : String
  value : Option String

namespace Line

/-- What stands behind the colon. -/
def tail (l : Line) : List Char :=
  match l.value with
  | none => ['\n']
  | some v => ' ' :: (v.toList ++ ['\n'])

/-- The line without the blanks before it. -/
def body (l : Line) : List Char := l.key.toList ++ ':' :: l.tail

/-- Key and value can be written as they are, and the key is within reach of its colon. -/
structure IsPlain (l : Line) : Prop where
  key : IsWord l.key
  key_length : l.key.toList.length ≤ 1024
  value (v : String) : l.value = some v → IsWord v

end Line

/-- The column at which the first of some lines begins. -/
def start (ls : List Line) : Nat := (ls.head?.map Line.column).getD 0

/-- The text of lines but for the blanks before the first one. -/
def content : List Line → List Char
  | [] => []
  | l :: ls => l.body ++ (List.replicate (start ls) ' ' ++ content ls)

def linesText (ls : List Line) : List Char := List.replicate (start ls) ' ' ++ content ls

theorem Line.blankNext_tail (l : Line) (cs : List Char) : blankNext (l.tail ++ cs) = true := by
  rw [Line.tail]
  cases l.value <;> rfl

theorem content_cons (l : Line) (ls : List Line) :
    content (l :: ls) = l.key.toList ++ ':' :: (l.tail ++ linesText ls) := by
  rw [content, Line.body, List.append_assoc]
  rfl

theorem length_content_cons (l : Line) (ls : List Line) :
    (content (l :: ls)).length =
      l.key.toList.length + 1 + l.tail.length + start ls + (content ls).length := by
  simp only [content_cons, linesText, List.length_append, List.length_cons, List.length_replicate]
  omega

/-- Nothing but a key without a value is followed by a line that is indented further. -/
def Nested : List Line → Prop
  | [] => True
  | l :: ls => (l.value.isSome = true → start ls ≤ l.column) ∧ Nested ls

/-! ## Tokens of lines -/

/-- Whether a line at a column begins a block. -/
def opens (indents : List Nat) (column : Nat) : Bool := indents.head?.all (· < column)

/-- The blocks that a line at a column closes, and the one that it opens. -/
def opening (indents : List Nat) (column : Nat) : List Token :=
  List.replicate (indents.takeWhile (column < ·)).length .blockEnd ++
    if opens (indents.dropWhile (column < ·)) column then [.blockMappingStart] else []

/-- The open blocks at a line. -/
def enter (indents : List Nat) (column : Nat) : List Nat :=
  let rest := indents.dropWhile (column < ·)
  if opens rest column then column :: rest else rest

def Line.tokens (l : Line) : List Token :=
  [.key, .scalar .plain l.key, .value] ++ (l.value.map (.scalar .plain ·)).toList

/-- The tokens of lines within open blocks. -/
def lineTokens : (indents : List Nat) → List Line → List Token
  | indents, [] => List.replicate indents.length .blockEnd ++ [.streamEnd]
  | indents, l :: ls =>
    opening indents l.column ++ l.tokens ++ lineTokens (enter indents l.column) ls

theorem head?_enter (indents : List Nat) (column : Nat) :
    (enter indents column).head? = some column := by
  rw [enter]
  split
  next => rfl
  next hnone =>
    have hhead := List.head?_dropWhile_not (column < ·) indents
    rw [opens] at hnone
    cases h : (indents.dropWhile (column < ·)).head? with
    | none => simp [h] at hnone
    | some n =>
        simp [h] at hhead hnone
        exact congrArg some (by omega)

end Yaml

end PointsTo
