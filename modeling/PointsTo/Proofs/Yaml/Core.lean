import PointsTo.Proofs.Yaml.Lines
import PointsTo.Yaml.Core
import Mathlib.Data.Nat.Digits.Defs

/-!
# Numerals in the core schema

The decimal digits of a number are read back as the number, whichever reader of
numbers is asked for, and are neither a word for nothing nor a boolean.
-/

namespace PointsTo

namespace Yaml

variable {c : Char} {n limit : Nat}

theorem digitOf?_of_isDigit (hc : c.isDigit = true) :
    digitOf? 10 c = some (c.toNat - '0'.toNat) := by
  have hrange := Char.isDigit_iff_toNat.1 hc
  have hlt : c.toNat - '0'.toNat < 10 := by
    have h0 : '0'.toNat = 48 := rfl
    have h9 : '9'.toNat = 57 := rfl
    omega
  rw [digitOf?, if_pos hc]
  simp only [if_pos hlt]

theorem digits?_of_isDigit {cs : List Char} (hcs : ∀ c ∈ cs, c.isDigit = true) (hne : cs ≠ []) :
    digits? 10 cs = some (Nat.ofDigitChars 10 cs 0) := by
  have hread : cs.mapM (digitOf? 10) = some (cs.map fun c => c.toNat - '0'.toNat) := by
    clear hne
    induction cs with
    | nil => rfl
    | cons c cs ih =>
        obtain ⟨hc, htail⟩ := List.forall_mem_cons.1 hcs
        rw [List.mapM_cons, digitOf?_of_isDigit hc, ih htail]
        rfl
  rw [digits?, hread, Nat.ofDigitChars_eq_foldl]
  simp [hne, List.foldl_map, Nat.mul_comm]

section Numerals

theorem isDigit_toDigits : ∀ c ∈ Nat.toDigits 10 n, c.isDigit = true :=
  fun _ => Nat.isDigit_of_mem_toDigits (by decide) (by decide)

/-- Only zero begins with a zero. -/
theorem head?_toDigits (hn : 0 < n) : (Nat.toDigits 10 n).head? ≠ some '0' := by
  have hdigit : ∀ m < 10, 0 < m → Nat.digitChar m ≠ '0' := by decide
  induction n using Nat.strongRecOn with
  | ind n ih =>
      rw [Nat.toDigits_eq_if (by decide)]
      split
      next hlt => exact fun h => hdigit n hlt hn (Option.some.inj h)
      next hge =>
        have hsome : (Nat.toDigits 10 (n / 10)).head?.isSome = true :=
          List.isSome_head?.2 Nat.toDigits_ne_nil
        rw [List.head?_append, Option.or_of_isSome hsome]
        exact ih (n / 10) (by omega) (by omega)

theorem isZeroPadded_toDigits (n : Nat) : isZeroPadded (Nat.toDigits 10 n) = false := by
  rcases Nat.eq_zero_or_pos n with rfl | hn
  · decide
  · rw [isZeroPadded, beq_false_of_ne (head?_toDigits hn)]
    rfl

theorem magnitude?_toDigits (n : Nat) : magnitude? (Nat.toDigits 10 n) = some n := by
  have hdecimal : digits? 10 (Nat.toDigits 10 n) = some n := by
    rw [digits?_of_isDigit isDigit_toDigits Nat.toDigits_ne_nil, Nat.ofDigitChars_ten_toDigits]
  rcases Nat.eq_zero_or_pos n with rfl | hn
  · decide
  · have hhead := head?_toDigits hn
    rw [magnitude?.eq_def]
    split
    next heq => exact absurd (by rw [heq]; rfl) hhead
    next heq => exact absurd (by rw [heq]; rfl) hhead
    next heq => exact absurd (by rw [heq]; rfl) hhead
    next => rw [isZeroPadded_toDigits, if_neg (by decide), hdecimal]

theorem unsigned_toDigits (n : Nat) :
    unsigned (Nat.toDigits 10 n) = (false, Nat.toDigits 10 n) := by
  have hdigit := isDigit_toDigits (n := n)
  rw [unsigned.eq_def]
  split
  next heq => exact absurd (hdigit '-' (by rw [heq]; exact List.mem_cons_self)) (by decide)
  next heq => exact absurd (hdigit '+' (by rw [heq]; exact List.mem_cons_self)) (by decide)
  next => rfl

theorem toList_numeral (n : Nat) : (toString n).toList = Nat.toDigits 10 n := by
  rw [Nat.toString_eq_repr, Nat.toList_repr]

theorem isWord_numeral (n : Nat) : IsWord (toString n) where
  ne_nil := by
    rw [toList_numeral]
    exact Nat.toDigits_ne_nil
  wordChar c hc := by
    rw [toList_numeral] at hc
    rw [isWordChar, Char.isAlphanum, isDigit_toDigits c hc, Bool.or_true, Bool.true_or]

theorem natOfText?_numeral (hn : n ≤ limit) : natOfText? limit (toString n) = some n := by
  rw [natOfText?, toList_numeral, unsigned_toDigits]
  simp only [magnitude?_toDigits, Option.filter_some, decide_eq_true hn, if_true]

theorem wholeOfText?_numeral (hn : n ≤ maxCount) :
    wholeOfText? (toString n) = some (.number (.nat n)) := by
  rw [wholeOfText?, toList_numeral, unsigned_toDigits]
  simp only [magnitude?_toDigits, hn, if_true, Bool.false_eq_true, if_false]

/-- A numeral is no text that does not begin with a digit. -/
theorem numeral_ne {s : String} (hs : s.toList.all Char.isDigit = false) : toString n ≠ s := by
  rintro rfl
  rw [toList_numeral] at hs
  rw [List.all_eq_true.2 isDigit_toDigits] at hs
  cases hs

theorem numeral_notMem {ss : List String} (hs : ∀ s ∈ ss, s.toList.all Char.isDigit = false) :
    ss.contains (toString n) = false := by
  rw [Bool.eq_false_iff]
  intro hmem
  exact numeral_ne (hs _ (List.contains_iff_mem.1 hmem)) rfl

theorem isNullText_numeral (n : Nat) : isNullText (toString n) = false := by
  have hempty : (toString n).isEmpty = false :=
    String.isEmpty_eq_false_iff.2 fun h => (isWord_numeral n).ne_nil (by rw [h]; rfl)
  rw [isNullText, hempty, isNullWord, numeral_notMem (by decide)]
  rfl

theorem boolOfText?_numeral (n : Nat) : boolOfText? (toString n) = none := by
  rw [boolOfText?, numeral_notMem (by decide), numeral_notMem (by decide)]
  rfl

theorem looseOfPlain?_numeral (hn : n ≤ maxCount) :
    looseOfPlain? (toString n) = some (.nat n) := by
  rw [looseOfPlain?, isNullText_numeral, boolOfText?_numeral, wholeOfText?_numeral hn]
  rfl

end Numerals

end Yaml

end PointsTo
