import PointsTo.Proofs.Yaml.Lines

/-!
# Reading lines

The lexer finds the tokens of lines (`tokens?_lines`). It takes a key for a
plain scalar at first and puts the mark of a key in front of it when it comes to
the colon, so after each step it is described by what it has read and by the key
that it may have passed; a line takes two steps, or three with a value
(`Lexer.run?_line`).
-/

namespace PointsTo

namespace Yaml

namespace Lexer

/-- A lexer outside of brackets, where nothing may be a key but what comes next. -/
def between (c : Cursor) (ts : List Token) (indents : List Nat) (keyAllowed : Bool) : Lexer :=
  { cursor := c, tokens := ts.toArray, indents, keyAllowed }

section Between

variable {c : Cursor} {ts : List Token} {indents : List Nat}

@[simp] theorem cursor_between (keyAllowed : Bool) :
    (between c ts indents keyAllowed).cursor = c := rfl

theorem drop_length_takeWhile (p : Nat → Bool) (ns : List Nat) :
    ns.drop (ns.takeWhile p).length = ns.dropWhile p :=
  calc ns.drop (ns.takeWhile p).length
      = (ns.takeWhile p ++ ns.dropWhile p).drop (ns.takeWhile p).length := by
        rw [List.takeWhile_append_dropWhile]
    _ = ns.dropWhile p := List.drop_left

theorem closeBlocks_between (keyAllowed : Bool) (column : Nat) :
    (between c ts indents keyAllowed).closeBlocks column =
      between c (ts ++ List.replicate (indents.takeWhile (column < ·)).length .blockEnd)
        (indents.dropWhile (column < ·)) keyAllowed := by
  simp [closeBlocks, between, flow, drop_length_takeWhile]

theorem closeBlocks_between_end (keyAllowed : Bool) :
    (between c ts indents keyAllowed).closeBlocks (-1) =
      between c (ts ++ List.replicate indents.length .blockEnd) [] keyAllowed := by
  have hall : indents.takeWhile (fun (n : Nat) => decide ((-1 : Int) < (n : Int))) = indents :=
    List.takeWhile_eq_self_iff.2 fun n _ => decide_eq_true (by omega)
  simp [closeBlocks, between, flow, hall]

end Between

end Lexer

/-! ## Blanks and breaks -/

/-- What begins here is neither a blank nor a break nor a comment. -/
def Stands (cs : List Char) : Prop :=
  ∀ ch, cs.head? = some ch → isBlankOrBreak ch = false ∧ ch ≠ '#' ∧ ch ≠ '\ufeff'

namespace Cursor

variable {c : Cursor} {n : Nat} {rest : List Char}

@[simp] theorem rest_skip (c : Cursor) (n : Nat) : (c.skip n).rest = c.rest.drop n := rfl

@[simp] theorem column_skip (c : Cursor) (n : Nat) : (c.skip n).column = c.column + n := rfl

@[simp] theorem line_skip (c : Cursor) (n : Nat) : (c.skip n).line = c.line := rfl

@[simp] theorem skip_zero (c : Cursor) : c.skip 0 = c := by
  cases c
  simp [skip]

theorem skipWhile_blanks {p : Char → Bool} (hrest : c.rest = List.replicate n ' ' ++ rest)
    (hblank : p ' ' = true) (hstop : ∀ ch, rest.head? = some ch → p ch = false) :
    c.skipWhile p = c.skip n := by
  have htake : rest.takeWhile p = [] := by
    cases rest with
    | nil => rfl
    | cons ch rest => rw [List.takeWhile_cons_of_neg (by rw [hstop ch rfl]; decide)]
  rw [skipWhile, hrest, List.takeWhile_append_of_pos, htake, List.append_nil,
    List.length_replicate]
  intro ch hch
  rw [List.eq_of_mem_replicate hch, hblank]

theorem skip_skip (c : Cursor) (m n : Nat) : (c.skip m).skip n = c.skip (m + n) := by
  simp only [skip, List.drop_drop, List.take_add, List.foldl_append, Nat.add_assoc]

theorem rest_skipBreak (hrest : c.rest = '\n' :: rest) : c.skipBreak.rest = rest := by
  rw [skipBreak, hrest]
  simp [hrest]

theorem column_skipBreak (c : Cursor) (n : Nat) : (c.skipBreak.skip n).column = n :=
  Nat.zero_add n

/-- The blanks at the beginning of the next line are passed over with the break. -/
theorem rest_nextLine (hrest : c.rest = '\n' :: (List.replicate n ' ' ++ rest)) :
    (c.skipBreak.skip n).rest = rest := by
  rw [rest_skip, rest_skipBreak hrest, List.drop_left' List.length_replicate]

section Head

variable {ch : Char} (hrest : c.rest = ch :: rest)

include hrest

theorem isAt_cons (d : Char) : c.isAt d = (ch == d) := by
  rw [isAt, head?, hrest]
  rfl

theorem atBlank_cons : c.atBlank = isBlank ch := by
  rw [atBlank, head?, hrest]
  rfl

theorem atBreak_cons : c.atBreak = isBreak ch := by
  rw [atBreak, head?, hrest]
  rfl

theorem atMarker_eq_false (hdash : ch ≠ '-') (hdot : ch ≠ '.') : c.atMarker = false := by
  simp [atMarker, hrest, hdash, hdot]

end Head

theorem isAt_eq_false (h : Stands c.rest) {ch : Char}
    (hch : isBlankOrBreak ch = true ∨ ch = '#' ∨ ch = '\ufeff') : c.isAt ch = false := by
  cases hrest : c.rest with
  | nil =>
      rw [isAt, head?, hrest]
      rfl
  | cons d rest =>
      obtain ⟨hblank, hsharp, hmark⟩ := h d (by rw [hrest]; rfl)
      rw [isAt_cons hrest]
      refine beq_false_of_ne fun heq => ?_
      cases heq
      rcases hch with hch | hch | hch
      · exact Bool.false_ne_true (hblank.symm.trans hch)
      · exact hsharp hch
      · exact hmark hch

theorem atBreak_eq_false (h : Stands c.rest) : c.atBreak = false := by
  cases hrest : c.rest with
  | nil =>
      rw [atBreak, head?, hrest]
      rfl
  | cons d rest =>
      have hblank := (h d (by rw [hrest]; rfl)).1
      rw [isBlankOrBreak, Bool.or_eq_false_iff] at hblank
      rw [atBreak_cons hrest, hblank.2]

theorem skipComment_eq (h : Stands c.rest) : c.skipComment = c := by
  rw [skipComment, isAt_eq_false h (.inr (.inl rfl))]
  rfl

end Cursor

namespace Lexer

variable {x : Lexer} {fuel n : Nat} {rest : List Char}

theorem skipGap_blanks (hrest : x.cursor.rest = List.replicate n ' ' ++ rest) (h : Stands rest) :
    x.skipGap (fuel + 1) = { x with cursor := x.cursor.skip n } := by
  have hmark : x.cursor.isAt '\ufeff' = false := by
    cases n with
    | zero => exact Cursor.isAt_eq_false (by rwa [hrest]) (.inr (.inr rfl))
    | succ n => exact Cursor.isAt_cons hrest _
  have hskip : ∀ tabs : Bool,
      x.cursor.skipWhile (fun ch => ch == ' ' || (tabs && ch == '\t')) = x.cursor.skip n := by
    intro tabs
    refine Cursor.skipWhile_blanks hrest rfl fun ch hch => ?_
    have hblank := (h ch hch).1
    simp only [isBlankOrBreak, isBlank, Bool.or_eq_false_iff] at hblank
    simp [hblank]
  have hstands : Stands (x.cursor.skip n).rest := by
    rw [Cursor.rest_skip, hrest, List.drop_left' List.length_replicate]
    exact h
  simp only [skipGap, hmark, Bool.and_false, hskip, Bool.false_eq_true, if_false,
    Cursor.skipComment_eq hstands, Cursor.atBreak_eq_false hstands]

theorem skipGap_break (hrest : x.cursor.rest = '\n' :: (List.replicate n ' ' ++ rest))
    (h : Stands rest) :
    x.skipGap (fuel + 2) = { x with
      cursor := x.cursor.skipBreak.skip n
      keyAllowed := x.keyAllowed || !x.flow } := by
  have hmark : x.cursor.isAt '\ufeff' = false := Cursor.isAt_cons hrest _
  have hsharp : x.cursor.isAt '#' = false := Cursor.isAt_cons hrest _
  have hbreak : x.cursor.atBreak = true := Cursor.atBreak_cons hrest
  have hskip : ∀ tabs : Bool,
      x.cursor.skipWhile (fun ch => ch == ' ' || (tabs && ch == '\t')) = x.cursor := by
    intro tabs
    rw [Cursor.skipWhile, hrest, List.takeWhile_cons_of_neg (by simp)]
    exact Cursor.skip_zero _
  have hnext := Cursor.rest_skipBreak hrest
  rw [skipGap]
  simp only [hmark, Bool.and_false, hskip, Bool.false_eq_true, if_false, Cursor.skipComment, hsharp,
    hbreak, if_true]
  exact skipGap_blanks hnext h

end Lexer

/-! ## Scalars -/

section Scalars

variable {c : Cursor} {ws rest : List Char} {ch : Char} {fuel n indent : Nat}

theorem gap?_blanks (hrest : c.rest = List.replicate n ' ' ++ rest) (h : Stands rest)
    (hfuel : n ≤ fuel) (g : Gap) (hbreaks : g.breaks.isEmpty = false) :
    gap? indent fuel c g = some (g, c.skip n) := by
  induction n generalizing c fuel with
  | zero =>
      rw [Cursor.skip_zero]
      cases fuel with
      | zero => rfl
      | succ fuel =>
          rw [gap?, Cursor.head?, hrest]
          cases hhead : rest.head? with
          | none => simp [hhead]
          | some d =>
              have hblank := (h d hhead).1
              rw [isBlankOrBreak, Bool.or_eq_false_iff] at hblank
              simp [hhead, hblank]
  | succ n ih =>
      cases fuel with
      | zero => omega
      | succ fuel =>
          have hnext : (c.skip 1).rest = List.replicate n ' ' ++ rest := by
            rw [Cursor.rest_skip, hrest, List.replicate_succ]
            rfl
          rw [gap?, Cursor.head?, hrest, List.replicate_succ]
          simp only [List.cons_append, List.head?_cons, hbreaks]
          rw [if_pos (by decide), if_neg (by simp), if_neg (by simp), ih hnext (by omega),
            Cursor.skip_skip, Nat.add_comm]

section Word

variable (hrest : c.rest = ws ++ rest) (hne : ws ≠ []) (hws : ∀ ch ∈ ws, isWordChar ch = true)
  (hstop : plainLength? false ws.length rest = some ws.length)

include hrest hne hws hstop

/-- The word that a plain scalar begins with is part of it. What follows it decides whether there
is more. -/
theorem plain?_word :
    (((c.skip ws.length).atBlank || (c.skip ws.length).atBreak) = false →
      plain? false indent (fuel + 1) c [] {} = some (ws.reverse, false, c.skip ws.length)) ∧
    ∀ g d, ((c.skip ws.length).atBlank || (c.skip ws.length).atBreak) = true →
      gap? indent fuel (c.skip ws.length) {} = some (g, d) → d.column < indent →
      plain? false indent (fuel + 1) c [] {} = some (ws.reverse, !g.breaks.isEmpty, d) := by
  obtain ⟨ch, more, rfl⟩ := List.exists_cons_of_ne_nil hne
  have hch : isWordChar ch = true := hws ch List.mem_cons_self
  have hmarker : c.atMarker = false :=
    Cursor.atMarker_eq_false hrest (ne_of_beq_false (beq_eq_false_of_wordChar hch '-' (by decide)))
      (ne_of_beq_false (beq_eq_false_of_wordChar hch '.' (by decide)))
  have hsharp : c.isAt '#' = false := by
    rw [Cursor.isAt_cons hrest, beq_eq_false_of_wordChar hch '#' (by decide)]
  have hlength : plainLength? false 0 c.rest = some (more.length + 1) := by
    rw [hrest, plainLength?_word hws, Nat.zero_add, hstop, List.length_cons]
  have htake : c.rest.take (more.length + 1) = ch :: more := by
    rw [hrest, ← List.length_cons, List.take_left]
  rw [plain?, hmarker, hsharp, hlength, List.length_cons]
  refine ⟨fun hmore => ?_, fun g d hmore hgap hd => ?_⟩
  · simp [hmore, htake, Gap.fold, onto]
  · simp [hmore, hgap, hd, htake, Gap.fold, onto]

end Word

/-- A word before a colon. -/
theorem plain?_key (hrest : c.rest = ws ++ ':' :: rest) (hne : ws ≠ [])
    (hws : ∀ ch ∈ ws, isWordChar ch = true) (hblank : blankNext rest = true) :
    plain? false indent (fuel + 1) c [] {} = some (ws.reverse, false, c.skip ws.length) := by
  have hnext : (c.skip ws.length).rest = ':' :: rest := by
    rw [Cursor.rest_skip, hrest, List.drop_left]
  have hstop : plainLength? false ws.length (':' :: rest) = some ws.length := by
    rw [plainLength?, hblank, if_neg (by decide), if_neg (by simp), if_pos (by decide)]
  refine (plain?_word hrest hne hws hstop).1 ?_
  rw [Cursor.atBlank_cons hnext, Cursor.atBreak_cons hnext]
  decide

/-- A word at the end of a line, with the break and the blanks behind it. -/
theorem plain?_value (hrest : c.rest = ws ++ '\n' :: (List.replicate n ' ' ++ rest))
    (hne : ws ≠ []) (hws : ∀ ch ∈ ws, isWordChar ch = true) (h : Stands rest) (hindent : n < indent)
    (hfuel : n < fuel) :
    plain? false indent (fuel + 1) c [] {} =
      some (ws.reverse, true, (c.skip ws.length).skipBreak.skip n) := by
  have hbreak : (c.skip ws.length).rest = '\n' :: (List.replicate n ' ' ++ rest) := by
    rw [Cursor.rest_skip, hrest, List.drop_left]
  have hstop : plainLength? false ws.length ('\n' :: (List.replicate n ' ' ++ rest)) =
      some ws.length := by
    rw [plainLength?, if_pos (by decide)]
  have hgap : gap? indent fuel (c.skip ws.length) {} =
      some ({ breaks := ['\n'] }, (c.skip ws.length).skipBreak.skip n) := by
    cases fuel with
    | zero => omega
    | succ fuel =>
        rw [gap?, Cursor.head?, hbreak]
        simp only [List.head?_cons]
        rw [if_neg (by decide), if_pos (by decide), Cursor.breakChar, hbreak]
        exact gap?_blanks (Cursor.rest_skipBreak hbreak) h (by omega) _ rfl
  have hmore : ((c.skip ws.length).atBlank || (c.skip ws.length).atBreak) = true := by
    rw [Cursor.atBlank_cons hbreak, Cursor.atBreak_cons hbreak]
    decide
  refine (plain?_word hrest hne hws hstop).2 _ _ hmore hgap ?_
  rwa [Cursor.column_skipBreak]

end Scalars

/-! ## Steps of the lexer -/

namespace Lexer

section Steps

variable {x : Lexer} {c : Cursor} {ts : List Token} {indents : List Nat} {fuel n : Nat}
  {ws rest : List Char} {ch : Char}

theorem stands_of_wordChar (hch : isWordChar ch = true) (rest : List Char) :
    Stands (ch :: rest) := by
  intro d hd
  cases hd
  have hne := beq_eq_false_of_wordChar hch
  exact ⟨isBlankOrBreak_of_wordChar hch, ne_of_beq_false (hne _ (by decide)),
    ne_of_beq_false (hne _ (by decide))⟩

theorem stands_colon (rest : List Char) : Stands (':' :: rest) := by
  intro d hd
  cases hd
  decide

theorem startsPlain_of_wordChar (hch : isWordChar ch = true) (rest : List Char) :
    startsPlain false ch rest = true := by
  have hreserved : "-?:,[]\x7b\x7d#&*!|>'\"%@\x60".toList.contains ch = false := by
    have hnone : ("-?:,[]\x7b\x7d#&*!|>'\"%@\x60".toList.all (!isWordChar ·)) = true := by decide
    rw [Bool.eq_false_iff]
    intro hmem
    have hnot := List.all_eq_true.1 hnone ch (List.contains_iff_mem.1 hmem)
    rw [hch] at hnot
    cases hnot
  simp only [startsPlain, isBlankOrBreak_of_wordChar hch, hreserved, Bool.not_false, Bool.and_self,
    Bool.true_or]

/-- A word is the beginning of a plain scalar. -/
theorem token?_word (hrest : x.cursor.rest = ch :: rest) (hch : isWordChar ch = true)
    (hflow : x.flow = false) : x.token? fuel ch rest = x.plainToken? fuel := by
  have hne := beq_eq_false_of_wordChar hch
  have hmarker : x.cursor.atMarker = false :=
    Cursor.atMarker_eq_false hrest (ne_of_beq_false (hne '-' (by decide)))
      (ne_of_beq_false (hne '.' (by decide)))
  simp only [token?, hmarker, hflow, startsPlain_of_wordChar hch, hne '%' (by decide),
    hne '[' (by decide), hne '{' (by decide), hne ']' (by decide), hne '}' (by decide),
    hne ',' (by decide), hne '-' (by decide), hne '?' (by decide), hne ':' (by decide),
    hne '*' (by decide), hne '&' (by decide), hne '!' (by decide), hne '|' (by decide),
    hne '>' (by decide), hne '\'' (by decide), hne '"' (by decide)]
  simp

theorem token?_colon (hrest : x.cursor.rest = ':' :: rest) (hblank : blankNext rest = true) :
    x.token? fuel ':' rest = x.value? := by
  have hmarker : x.cursor.atMarker = false :=
    Cursor.atMarker_eq_false hrest (by decide) (by decide)
  simp [token?, hmarker, hblank]

theorem closeBlocks_eq_self {column : Nat}
    (htop : ∀ top, x.indents.head? = some top → top ≤ column) : x.closeBlocks column = x := by
  have hnone : x.indents.takeWhile (fun (n : Nat) => decide ((column : Int) < (n : Int))) = [] := by
    cases hindents : x.indents with
    | nil => rfl
    | cons top indents =>
        have hle := htop top (by rw [hindents]; rfl)
        rw [List.takeWhile_cons_of_neg (by simpa using hle)]
  rw [closeBlocks]
  split
  next => rfl
  next =>
    simp only [hnone, List.length_nil, List.drop_zero, Array.replicate_zero, Array.append_empty]

attribute [local irreducible] token? in
/-- What a step does: the gap first, then the blocks, then one token. -/
theorem run?_succ (fuel : Nat) (x : Lexer) :
    run? (fuel + 1) x =
      let y := x.skipGap (fuel + 1)
      if y.missesKey then none
      else
        let z := y.closeBlocks y.cursor.column
        match z.cursor.rest with
        | [] => z.finish?
        | ch :: rest =>
          match z.token? (fuel + 1) ch rest with
          | none => none
          | some w => run? fuel w := rfl

/-- One step, if there is a token left. -/
theorem run?_step {y z : Lexer} (hgap : x.skipGap (fuel + 1) = y) (hmisses : y.missesKey = false)
    (hclose : y.closeBlocks y.cursor.column = z) (hrest : z.cursor.rest = ch :: rest)
    {w : Lexer} (htoken : z.token? (fuel + 1) ch rest = some w) :
    run? (fuel + 1) x = run? fuel w := by
  rw [run?_succ, hgap]
  simp only [hmisses, hclose, hrest, htoken, Bool.false_eq_true, if_false]

theorem indent_lt (column : Nat) :
    decide (x.indent < (column : Int)) = opens x.indents column := by
  rw [indent, opens]
  cases x.indents with
  | nil => exact decide_eq_true (Int.lt_of_lt_of_le (by decide) (Int.natCast_nonneg column))
  | cons n indents => simp

/-- The place of a key before a cursor. -/
def keyPlace (c : Cursor) (ts : List Token) (indents : List Nat) : KeyPlace where
  required := (between c ts indents true).indent == (c.column : Int)
  token := ts.length
  place := c

/-- The lexer behind a word that may turn out to be a key. -/
def behindKey (c : Cursor) (ts : List Token) (indents : List Nat) (key : String) : Lexer :=
  { cursor := c.skip key.toList.length
    tokens := (ts ++ [Token.scalar .plain key]).toArray
    indents
    blockPlace := some (keyPlace c ts indents)
    keyAllowed := false }

theorem skipGap_eq_self {y : Lexer} (h : Stands y.cursor.rest) : y.skipGap (fuel + 1) = y := by
  have hrest : y.cursor.rest = List.replicate 0 ' ' ++ y.cursor.rest := rfl
  rw [skipGap_blanks hrest h, Cursor.skip_zero]

theorem run?_word {key : String} (hkey : IsWord key) (hrest : c.rest = key.toList ++ ':' :: rest)
    (hblank : blankNext rest = true) :
    run? (fuel + 1) (between c ts indents true) =
      run? fuel (behindKey c
        (ts ++ List.replicate (indents.takeWhile (c.column < ·)).length .blockEnd)
        (indents.dropWhile (c.column < ·)) key) := by
  obtain ⟨ch, more, hcons, hch⟩ := hkey.exists_cons
  have hrest' : c.rest = ch :: (more ++ ':' :: rest) := by rw [hrest, hcons, List.cons_append]
  have hstands : Stands (between c ts indents true).cursor.rest := by
    rw [cursor_between, hrest']
    exact stands_of_wordChar hch _
  refine run?_step (skipGap_eq_self hstands) rfl (closeBlocks_between true c.column) hrest' ?_
  rw [token?_word hrest' hch rfl, plainToken?]
  simp [savePlace?, dropPlace?, place?, setPlace, between, flow, behindKey, keyPlace, emit,
    scalarOf, plain?_key hrest hkey.ne_nil hkey.wordChar hblank]

theorem insertIdx_length (ts us : List Token) (t : Token) :
    ((ts ++ us).toArray.insertIdxIfInBounds ts.length t) = (ts ++ t :: us).toArray := by
  rw [Array.insertIdxIfInBounds, dif_pos (by simp), List.insertIdx_toArray]
  congr 1
  induction ts with
  | nil => rfl
  | cons s ts ih => simpa using ih

theorem run?_colon {key : String} (hkey : IsWord key) (hreach : key.toList.length ≤ 1024)
    (hrest : c.rest = key.toList ++ ':' :: rest) (hblank : blankNext rest = true)
    (hindents : ∀ top, indents.head? = some top → top ≤ c.column) :
    run? (fuel + 1) (behindKey c ts indents key) =
      run? fuel (between (c.skip (key.toList.length + 1))
        (ts ++ ((if opens indents c.column then [.blockMappingStart] else []) ++
          [.key, .scalar .plain key, .value]))
        (if opens indents c.column then c.column :: indents else indents) false) := by
  have hcolon : (c.skip key.toList.length).rest = ':' :: rest := by
    rw [Cursor.rest_skip, hrest, List.drop_left]
  have hstands : Stands (behindKey c ts indents key).cursor.rest := by
    rw [show (behindKey c ts indents key).cursor.rest = ':' :: rest from hcolon]
    exact stands_colon _
  have hfresh : (behindKey c ts indents key).isStale (keyPlace c ts indents) = false := by
    simp [isStale, behindKey, keyPlace, bytes_skip_word hrest hkey.wordChar, hreach]
  have hplace : (behindKey c ts indents key).place? = some (keyPlace c ts indents) := rfl
  have hclose : (behindKey c ts indents key).closeBlocks
      (behindKey c ts indents key).cursor.column = behindKey c ts indents key :=
    closeBlocks_eq_self fun top htop => Nat.le_trans (hindents top htop) (Nat.le_add_right _ _)
  refine run?_step (skipGap_eq_self hstands) ?_ hclose hcolon ?_
  · rw [missesKey, show (behindKey c ts indents key).blockPlace = some _ from rfl, Option.any_some,
      hfresh, Bool.and_false]
  · rw [token?_colon hcolon hblank, value?, hplace, Option.filter_some_pos (by rw [hfresh]; rfl)]
    simp only [behindKey, keyPlace, insertIdx_length, openBlock, indent_lt]
    cases hopens : opens indents c.column <;>
      simp [flow, setPlace, emit, skip, allowKey, between, Cursor.skip_skip]

/-- A key with its colon takes two steps. -/
theorem run?_key {key : String} (hkey : IsWord key) (hreach : key.toList.length ≤ 1024)
    (hrest : c.rest = key.toList ++ ':' :: rest) (hblank : blankNext rest = true) :
    run? (fuel + 2) (between c ts indents true) =
      run? fuel (between (c.skip (key.toList.length + 1))
        (ts ++ (opening indents c.column ++ [.key, .scalar .plain key, .value]))
        (enter indents c.column) false) := by
  have htop : ∀ top, (indents.dropWhile (c.column < ·)).head? = some top → top ≤ c.column := by
    intro top hhead
    have hnot := List.head?_dropWhile_not (c.column < ·) indents
    simpa [hhead] using hnot
  rw [run?_word hkey hrest hblank, run?_colon hkey hreach hrest hblank htop]
  simp only [opening, enter, List.append_assoc]

/-- A value takes one step, which goes on to the next line. -/
theorem run?_value {value : String} (hvalue : IsWord value)
    (hrest : c.rest = ' ' :: (value.toList ++ '\n' :: (List.replicate n ' ' ++ rest)))
    (h : Stands rest) {top : Nat} (htop : indents.head? = some top) (hcolumn : top ≤ c.column)
    (hn : n ≤ top) (hfuel : n < fuel) :
    run? (fuel + 1) (between c ts indents false) =
      run? fuel (between (((c.skip 1).skip value.toList.length).skipBreak.skip n)
        (ts ++ [.scalar .plain value]) indents true) := by
  obtain ⟨ch, more, hcons, hch⟩ := hvalue.exists_cons
  have hword : (c.skip 1).rest = value.toList ++ '\n' :: (List.replicate n ' ' ++ rest) := by
    rw [Cursor.rest_skip, hrest]
    rfl
  have hrest' : (c.skip 1).rest = ch :: (more ++ '\n' :: (List.replicate n ' ' ++ rest)) := by
    rw [hword, hcons, List.cons_append]
  have hstands : Stands (c.skip 1).rest := by
    rw [hrest']
    exact stands_of_wordChar hch _
  have hblanks : (between c ts indents false).cursor.rest =
      List.replicate 1 ' ' ++ (c.skip 1).rest := by
    rw [hword]
    exact hrest
  have hindent : ((between (c.skip 1) ts indents false).indent + 1).toNat = top + 1 := by
    obtain ⟨outer, rfl⟩ := List.head?_eq_some_iff.1 htop
    rfl
  have hplain : plain? false ((between (c.skip 1) ts indents false).indent + 1).toNat (fuel + 1)
      (between (c.skip 1) ts indents false).cursor [] {} =
        some (value.toList.reverse, true,
          ((c.skip 1).skip value.toList.length).skipBreak.skip n) := by
    rw [hindent]
    exact plain?_value hword hvalue.ne_nil hvalue.wordChar h (by omega) hfuel
  have hsaved : (between (c.skip 1) ts indents false).savePlace? =
      some (between (c.skip 1) ts indents false) := rfl
  have hflow : (between (c.skip 1) ts indents false).flow = false := rfl
  refine run?_step (skipGap_blanks hblanks hstands) rfl
    (closeBlocks_eq_self (x := between (c.skip 1) ts indents false) ?_) hrest' ?_
  · intro m hm
    obtain rfl : top = m := Option.some.inj (htop.symm.trans hm)
    exact Nat.le_trans hcolumn (Nat.le_add_right _ _)
  · rw [token?_word hrest' hch rfl, plainToken?, hsaved, Option.bind_eq_bind, Option.bind_some,
      hflow, hplain]
    simp [between, emit, scalarOf]

/-- Behind a colon at the end of a line, the lexer goes on to the next line. -/
theorem run?_break (hrest : c.rest = '\n' :: (List.replicate n ' ' ++ rest)) (h : Stands rest) :
    run? (fuel + 2) (between c ts indents false) =
      run? (fuel + 2) (between (c.skipBreak.skip n) ts indents true) := by
  have hnext := Cursor.rest_nextLine hrest
  have hgap : (between c ts indents false).skipGap (fuel + 2) =
      between (c.skipBreak.skip n) ts indents true := skipGap_break hrest h
  rw [run?_succ, run?_succ, hgap, skipGap_eq_self]
  rwa [cursor_between, hnext]

theorem Stands.content {ls : List Line} (hls : ∀ l ∈ ls, l.IsPlain) : Stands (content ls) := by
  cases ls with
  | nil => exact fun d hd => nomatch hd
  | cons l ls =>
      obtain ⟨ch, more, hcons, hch⟩ := (hls l List.mem_cons_self).key.exists_cons
      rw [Yaml.content, Line.body, hcons]
      exact stands_of_wordChar hch _

/-- One line, up to what the next one begins with. -/
theorem run?_line (ts : List Token) (indents : List Nat) {l : Line} {ls : List Line}
    (hl : l.IsPlain) (hls : ∀ l ∈ ls, l.IsPlain) (hnested : Nested (l :: ls))
    (hrest : c.rest = content (l :: ls)) (hcolumn : c.column = l.column)
    (hfuel : (content (l :: ls)).length < fuel) :
    ∃ fuel' d, (content ls).length < fuel' ∧ d.rest = content ls ∧ d.column = start ls ∧
      run? fuel (between c ts indents true) =
        run? fuel' (between d (ts ++ (opening indents l.column ++ l.tokens))
          (enter indents l.column) true) := by
  have hstands := Stands.content hls
  have hlength := length_content_cons l ls
  have hkeyLength : 0 < l.key.toList.length := List.length_pos_iff.2 hl.key.ne_nil
  have hkey := hrest.trans (content_cons l ls)
  have hblank := l.blankNext_tail (linesText ls)
  have hbehind : (c.skip (l.key.toList.length + 1)).rest = l.tail ++ linesText ls := by
    rw [Cursor.rest_skip, hkey, ← List.drop_drop, List.drop_left]
    rfl
  cases hvalue : l.value with
  | none =>
      rw [Line.tail, hvalue] at hbehind hlength
      have hbreak : (c.skip (l.key.toList.length + 1)).rest = '\n' :: linesText ls := hbehind
      simp only [List.length_cons, List.length_nil] at hlength
      obtain ⟨fuel, rfl⟩ : ∃ f, fuel = f + 2 + 2 := ⟨fuel - 4, by omega⟩
      refine ⟨fuel + 2, (c.skip (l.key.toList.length + 1)).skipBreak.skip (start ls), by omega,
        Cursor.rest_nextLine hbreak, Cursor.column_skipBreak _ _, ?_⟩
      rw [run?_key hl.key hl.key_length hkey hblank, run?_break hbreak hstands, hcolumn,
        Line.tokens, hvalue]
      rfl
  | some v =>
      rw [Line.tail, hvalue] at hbehind hlength
      have hbefore : (c.skip (l.key.toList.length + 1)).rest =
          ' ' :: (v.toList ++ '\n' :: linesText ls) := by
        simpa using hbehind
      have hbreak : ((c.skip (l.key.toList.length + 1)).skip 1 |>.skip v.toList.length).rest =
          '\n' :: linesText ls := by
        rw [Cursor.rest_skip, Cursor.rest_skip, hbefore, List.drop_one, List.tail_cons,
          List.drop_left]
      have htop : l.column ≤ (c.skip (l.key.toList.length + 1)).column := by
        rw [Cursor.column_skip, hcolumn]
        omega
      have hstart : start ls ≤ l.column := hnested.1 (by rw [hvalue]; rfl)
      simp only [List.length_cons, List.length_nil, List.length_append] at hlength
      obtain ⟨fuel, rfl⟩ : ∃ f, fuel = f + 1 + 2 := ⟨fuel - 3, by omega⟩
      refine ⟨fuel, _, by omega, Cursor.rest_nextLine hbreak, Cursor.column_skipBreak _ _, ?_⟩
      rw [run?_key hl.key hl.key_length hkey hblank, hcolumn,
        run?_value (hl.value v hvalue) hbefore hstands (head?_enter indents l.column) htop hstart
          (by omega), Line.tokens, hvalue]
      simp

/-- At the end of the text every block is closed. -/
theorem run?_end (hrest : c.rest = []) :
    run? (fuel + 1) (between c ts indents true) =
      some (between c (ts ++ List.replicate indents.length .blockEnd ++ [.streamEnd]) [] true) := by
  have hgap : (between c ts indents true).skipGap (fuel + 1) = between c ts indents true := by
    refine skipGap_eq_self ?_
    rw [cursor_between, hrest]
    exact fun d hd => nomatch hd
  have hmisses : (between c ts indents true).missesKey = false := rfl
  have hcount : (indents.takeWhile (c.column < ·)).length +
      (indents.dropWhile (c.column < ·)).length = indents.length := by
    rw [← List.length_append, List.takeWhile_append_dropWhile]
  rw [run?_succ, hgap]
  simp only [hmisses, cursor_between, closeBlocks_between, hrest, Bool.false_eq_true, if_false]
  simp only [finish?, closeBlocks_between_end]
  simp [dropPlace?, place?, setPlace, between, emit, ← hcount, List.replicate_append_replicate]

theorem run?_lines {ls : List Line} (hls : ∀ l ∈ ls, l.IsPlain) (hnested : Nested ls)
    (hrest : c.rest = content ls) (hcolumn : c.column = start ls)
    (hfuel : (content ls).length < fuel) :
    ∃ x, run? fuel (between c ts indents true) = some x ∧
      x.tokens.toList = ts ++ lineTokens indents ls := by
  induction ls generalizing c ts indents fuel with
  | nil =>
      obtain ⟨fuel, rfl⟩ : ∃ f, fuel = f + 1 := ⟨fuel - 1, by omega⟩
      exact ⟨_, run?_end hrest, by simp [between, lineTokens]⟩
  | cons l ls ih =>
      obtain ⟨hl, htail⟩ := List.forall_mem_cons.1 hls
      obtain ⟨fuel', d, hfuel', hd, hdcolumn, hline⟩ :=
        run?_line ts indents hl htail hnested hrest hcolumn hfuel
      obtain ⟨x, hrun, htokens⟩ := ih htail hnested.2 hd hdcolumn hfuel'
      refine ⟨x, hline.trans hrun, ?_⟩
      rw [htokens, lineTokens, List.append_assoc]

end Steps

end Lexer

/-! ## The tokens of a text -/

theorem isPrintable_of_isWord {w : String} (hw : IsWord w) {ch : Char} (hch : ch ∈ w.toList) :
    isPrintable ch = true := isPrintable_of_wordChar (hw.wordChar ch hch)

theorem Line.isPrintable_body {l : Line} (hl : l.IsPlain) {ch : Char} (hch : ch ∈ l.body) :
    isPrintable ch = true := by
  simp only [Line.body, Line.tail, List.mem_append, List.mem_cons] at hch
  rcases hch with hkey | rfl | htail
  · exact isPrintable_of_isWord hl.key hkey
  · decide
  cases hvalue : l.value with
  | none =>
      rw [hvalue, List.mem_singleton] at htail
      rw [htail]
      decide
  | some v =>
      simp only [hvalue, List.mem_cons, List.mem_append, List.not_mem_nil, or_false] at htail
      rcases htail with rfl | hv | rfl
      · decide
      · exact isPrintable_of_isWord (hl.value v hvalue) hv
      · decide

theorem isPrintable_content {ls : List Line} (hls : ∀ l ∈ ls, l.IsPlain) :
    ∀ ch ∈ content ls, isPrintable ch = true := by
  induction ls with
  | nil => exact fun ch hch => nomatch hch
  | cons l ls ih =>
      obtain ⟨hl, htail⟩ := List.forall_mem_cons.1 hls
      intro ch hch
      rw [content, List.mem_append, List.mem_append] at hch
      rcases hch with hbody | hblank | hrest
      · exact Line.isPrintable_body hl hbody
      · rw [List.eq_of_mem_replicate hblank]
        decide
      · exact ih htail ch hrest

/-- The tokens of a text whose first line begins at the margin. -/
theorem tokens?_lines {s : String} {ls : List Line} (hls : ∀ l ∈ ls, l.IsPlain)
    (hnested : Nested ls) (hstart : start ls = 0) (hs : s.toList = linesText ls) :
    tokens? s = some (lineTokens [] ls) := by
  rw [linesText, hstart, List.replicate_zero, List.nil_append] at hs
  have hprintable : s.toList.all isPrintable = true := by
    rw [hs]
    exact List.all_eq_true.2 (isPrintable_content hls)
  have hlength : (content ls).length < s.toList.length + 1 := by
    rw [hs]
    exact Nat.lt_succ_self _
  have hinit : Lexer.between { rest := s.toList } [] [] true =
      { cursor := { rest := s.toList } } := rfl
  have hlines : ∃ x, Lexer.run? (s.toList.length + 1)
      (Lexer.between { rest := s.toList } [] [] true) = some x ∧
        x.tokens.toList = [] ++ lineTokens [] ls :=
    Lexer.run?_lines hls hnested hs hstart.symm hlength
  obtain ⟨x, hrun, htokens⟩ := hlines
  rw [hinit] at hrun
  simp only [tokens?, hprintable, hrun, Bool.not_true, Bool.false_eq_true, if_false]
  rw [← List.nil_append (lineTokens [] ls), ← htokens]
  rfl

end Yaml

end PointsTo
