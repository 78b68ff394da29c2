import PointsTo.Proofs.Yaml.Lexer
import PointsTo.Yaml.Composition

/-!
# Mappings in block style

A `Block` is a mapping that can be written line by line: its keys are words, and
below a key there is a word or another block with an entry. Its text is read
back as it was written (`Block.parse?_text`): the lines of the text are read to
the tokens of the block, and from these the entries are composed.
-/

namespace PointsTo

namespace Yaml

inductive Block where
  | nil
  | text (key value : String) (rest : Block)
  | nest (key : String) (inner rest : Block)

namespace Block

def entries : Block → List (Yaml × Yaml)
  | nil => []
  | text key value rest => (plain key, plain value) :: rest.entries
  | nest key inner rest => (plain key, .mapping none inner.entries) :: rest.entries

def lines : Block → (column : Nat) → List Line
  | nil, _ => []
  | text key value rest, column => ⟨column, key, some value⟩ :: rest.lines column
  | nest key inner rest, column =>
    ⟨column, key, none⟩ :: (inner.lines (column + 2) ++ rest.lines column)

/-- The tokens between the beginning and the end of a block. -/
def tokens : Block → List Token
  | nil => []
  | text key value rest =>
    [.key, .scalar .plain key, .value, .scalar .plain value] ++ rest.tokens
  | nest key inner rest =>
    [.key, .scalar .plain key, .value, .blockMappingStart] ++ inner.tokens ++ [.blockEnd] ++
      rest.tokens

/-- A word that its colon can follow. -/
structure IsKey (key : String) : Prop where
  isWord : IsWord key
  length_le : key.toList.length ≤ 1024

instance (key : String) : Decidable (IsKey key) :=
  decidable_of_iff (IsWord key ∧ key.toList.length ≤ 1024)
    ⟨fun h => ⟨h.1, h.2⟩, fun h => ⟨h.isWord, h.length_le⟩⟩

inductive IsPlain : Block → Prop
  | nil : IsPlain nil
  | text {key value : String} {rest : Block} (hkey : IsKey key) (hvalue : IsWord value)
      (hrest : rest.IsPlain) : IsPlain (text key value rest)
  | nest {key : String} {inner rest : Block} (hkey : IsKey key) (hne : inner ≠ nil)
      (hinner : inner.IsPlain) (hrest : rest.IsPlain) : IsPlain (nest key inner rest)

/-! ## Lines -/

variable {b : Block} {column : Nat} {ls : List Line}

theorem lines_ne_nil (hne : b ≠ nil) (column : Nat) : b.lines column ≠ [] := by
  cases b with
  | nil => exact absurd rfl hne
  | text => exact List.cons_ne_nil _ _
  | nest => exact List.cons_ne_nil _ _

theorem start_lines (hne : b ≠ nil) (column : Nat) (ls : List Line) :
    start (b.lines column ++ ls) = column := by
  cases b with
  | nil => exact absurd rfl hne
  | text => rfl
  | nest => rfl

/-- A block is followed by what is not indented further. -/
theorem start_lines_le (h : start ls ≤ column) : start (b.lines column ++ ls) ≤ column := by
  cases b with
  | nil => exact h
  | text => exact Nat.le_refl column
  | nest => exact Nat.le_refl column

theorem isPlain_lines (hb : b.IsPlain) (column : Nat) : ∀ l ∈ b.lines column, l.IsPlain := by
  induction hb generalizing column with
  | nil => exact fun l hl => nomatch hl
  | text hkey hvalue _ ih =>
      refine List.forall_mem_cons.2 ⟨⟨hkey.isWord, hkey.length_le, ?_⟩, ih column⟩
      rintro v ⟨⟩
      exact hvalue
  | nest hkey _ _ _ ihinner ihrest =>
      refine List.forall_mem_cons.2 ⟨⟨hkey.isWord, hkey.length_le, fun v hv => nomatch hv⟩, ?_⟩
      exact List.forall_mem_append.2 ⟨ihinner (column + 2), ihrest column⟩

theorem nested_lines (hls : Nested ls) (hstart : start ls ≤ column) :
    Nested (b.lines column ++ ls) := by
  induction b generalizing column ls with
  | nil => exact hls
  | text key value rest ih => exact ⟨fun _ => start_lines_le hstart, ih hls hstart⟩
  | nest key inner rest ihinner ihrest =>
      have hinner := ihinner (ihrest hls hstart)
        ((start_lines_le hstart).trans (Nat.le_add_right column 2))
      rw [← List.append_assoc] at hinner
      exact ⟨fun hsome => absurd hsome Bool.false_ne_true, hinner⟩

theorem linesText_cons (l : Line) (ls : List Line) :
    linesText (l :: ls) = List.replicate l.column ' ' ++ l.body ++ linesText ls := by
  rw [List.append_assoc]
  rfl

/-- Lines of text below each other, so far to the right. -/
def rendered (column : Nat) (ss : List String) : List Char :=
  ss.flatMap fun s => List.replicate column ' ' ++ s.toList ++ ['\n']

theorem rendered_cons (column : Nat) (s : String) (ss : List String) :
    rendered column (s :: ss) =
      List.replicate column ' ' ++ s.toList ++ ['\n'] ++ rendered column ss := rfl

theorem rendered_append (column : Nat) (ss ts : List String) :
    rendered column (ss ++ ts) = rendered column ss ++ rendered column ts := List.flatMap_append

theorem rendered_indent (column : Nat) (ss : List String) :
    rendered column (indent ss) = rendered (column + 2) ss := by
  rw [rendered, indent, List.flatMap_map, rendered, ← List.replicate_append_replicate]
  simp

theorem toList_text (y : Yaml) : y.text.toList = rendered 0 y.blockLines := by
  simp [Yaml.text, rendered, String.toList_join, List.flatMap_map]

theorem entryLines_nest (key : String) (inner rest : List (Yaml × Yaml)) :
    entryLines ((plain key, .mapping none inner) :: rest) =
      (key ++ ":") :: indent (entryLines inner) ++ entryLines rest := by
  rw [plain, entryLines, blockLines]
  exact fun _ _ _ h => nomatch h

/-- The lines are those that the entries are written in, further to the right. -/
theorem linesText_lines (b : Block) (column : Nat) (ls : List Line) :
    linesText (b.lines column ++ ls) = rendered column (entryLines b.entries) ++ linesText ls := by
  induction b generalizing column ls with
  | nil =>
      rw [entries, entryLines]
      rfl
  | text key value rest ih =>
      rw [lines, List.cons_append, linesText_cons, ih, entries, plain, plain, entryLines,
        rendered_cons]
      simp [Line.body, Line.tail]
  | nest key inner rest ihinner ihrest =>
      rw [lines, List.cons_append, List.append_assoc, linesText_cons, ihinner, ihrest, entries,
        entryLines_nest, rendered_append, rendered_cons, rendered_indent]
      simp [Line.body, Line.tail]

/-! ## Tokens -/

variable {indents : List Nat} {top : Nat}

/-- A line that goes on with a block leaves the open blocks as they are. -/
theorem lineTokens_same (column : Nat) (key : String) (value : Option String) (ls : List Line) :
    lineTokens (column :: indents) (⟨column, key, value⟩ :: ls) =
      (Line.mk column key value).tokens ++ lineTokens (column :: indents) ls := by
  simp [lineTokens, opening, enter, opens]

/-- A line that is indented further opens a block. -/
theorem lineTokens_enter (hne : ls ≠ []) (hopens : opens indents (start ls) = true) :
    lineTokens indents ls = .blockMappingStart :: lineTokens (start ls :: indents) ls := by
  obtain ⟨⟨column, key, value⟩, ls, rfl⟩ := List.exists_cons_of_ne_nil hne
  have hstart : start (⟨column, key, value⟩ :: ls) = column := rfl
  rw [hstart] at hopens ⊢
  have hkept : indents.takeWhile (column < ·) = [] ∧
      indents.dropWhile (column < ·) = indents := by
    cases indents with
    | nil => exact ⟨rfl, rfl⟩
    | cons top indents =>
        have hle : ¬column < top := by
          simp only [opens, List.head?_cons, Option.all_some, decide_eq_true_eq] at hopens
          omega
        simp [hle]
  rw [lineTokens_same]
  simp [lineTokens, opening, enter, hkept, hopens]

/-- A line that is indented less closes a block. -/
theorem lineTokens_leave (h : start ls < top) :
    lineTokens (top :: indents) ls = .blockEnd :: lineTokens indents ls := by
  cases ls with
  | nil => simp [lineTokens, List.replicate_succ]
  | cons l ls =>
      have hclosed : l.column < top := h
      simp [lineTokens, opening, enter, hclosed, List.replicate_succ]

theorem lineTokens_lines (hb : b.IsPlain) (hstart : start ls ≤ column) :
    lineTokens (column :: indents) (b.lines column ++ ls) =
      b.tokens ++ lineTokens (column :: indents) ls := by
  induction hb generalizing column indents ls with
  | nil => rfl
  | text _ _ _ ih =>
      rw [lines, List.cons_append, lineTokens_same, ih hstart, tokens, List.append_assoc]
      rfl
  | @nest key inner rest _ hne _ _ ihinner ihrest =>
      have hmore : start (rest.lines column ++ ls) ≤ column := start_lines_le hstart
      have hinner : start (inner.lines (column + 2) ++ (rest.lines column ++ ls)) = column + 2 :=
        start_lines hne _ _
      have hopens : opens (column :: indents)
          (start (inner.lines (column + 2) ++ (rest.lines column ++ ls))) = true := by
        simp [hinner, opens]
      rw [lines, List.cons_append, List.append_assoc, lineTokens_same,
        lineTokens_enter (List.append_ne_nil_of_left_ne_nil (lines_ne_nil hne _) _) hopens, hinner,
        ihinner (by omega), lineTokens_leave (by omega), ihrest hstart, tokens]
      simp [Line.tokens]

/-- The tokens of a document that consists of a block. -/
def stream (b : Block) : List Token :=
  [.blockMappingStart] ++ b.tokens ++ [.blockEnd, .streamEnd]

theorem tokens?_text (hb : b.IsPlain) (hne : b ≠ nil) :
    tokens? (Yaml.mapping none b.entries).text = some b.stream := by
  have hlines : (Yaml.mapping none b.entries).text.toList = linesText (b.lines 0) := by
    rw [toList_text, blockLines, ← List.append_nil (b.lines 0), linesText_lines]
    exact (List.append_nil _).symm
  have hnested : Nested (b.lines 0) := by
    rw [← List.append_nil (b.lines 0)]
    exact nested_lines trivial (Nat.le_refl 0)
  have hstart : start (b.lines 0) = 0 := by
    rw [← List.append_nil (b.lines 0), start_lines hne]
  rw [tokens?_lines (isPlain_lines hb 0) hnested hstart hlines,
    lineTokens_enter (lines_ne_nil hne 0) (by rw [hstart]; rfl), hstart,
    ← List.append_nil (b.lines 0), lineTokens_lines hb (Nat.le_refl 0)]
  simp [lineTokens, stream]

/-! ## Composition -/

/-- How many scalars there are, and beginnings and ends of mappings, between the beginning and
the end of a block. -/
def size : Block → Nat
  | nil => 0
  | text _ _ rest => 2 + rest.size
  | nest _ inner rest => 3 + inner.size + rest.size

/-- How many steps it takes to compose the entries. -/
def steps : Block → Nat
  | nil => 0
  | text _ _ rest => rest.steps + 4
  | nest _ inner rest => rest.steps + 1 + inner.steps + 3

theorem steps_le (b : Block) : b.steps ≤ b.tokens.length := by
  induction b with
  | nil => exact Nat.le_refl 0
  | text key value rest ih =>
      simp [steps, tokens]
      omega
  | nest key inner rest ihinner ihrest =>
      simp [steps, tokens]
      omega

open PointsTo.Yaml.Composition PointsTo.Yaml.Composition.Compose

section Compose

variable {s : Source} {t : Token} {ts : List Token} {key value : String} {y : Yaml}
  {es : List (Yaml × Yaml)} {stack : List Open} {block dashes : Bool} {fuel : Nat}

/-- What is left to do where the next entry of a block begins. -/
def goOn (fuel : Nat) (es : List (Yaml × Yaml)) (stack : List Open) : Compose Yaml := do
  run fuel (← nextEntry .block {} es stack)

/-- Where an entry begins, its key comes next. -/
theorem goOn_key (hs : s.tokens = .key :: .scalar .plain key :: ts) :
    goOn fuel es stack s =
      run fuel (.node true true, .key .block {} es :: stack)
        { s with tokens := .scalar .plain key :: ts } := by
  cases s
  cases hs
  rfl

theorem goOn_end (hs : s.tokens = .blockEnd :: ts) :
    goOn fuel es stack s =
      run fuel (.done (.mapping none es.reverse), stack) { s with tokens := ts } := by
  cases s
  cases hs
  rfl

theorem run_scalar (hs : s.tokens = .scalar .plain value :: ts) :
    run (fuel + 1) (.node block dashes, stack) s =
      run fuel (.done (plain value), stack) { s with tokens := ts, size := s.size + 1 } := by
  cases s
  cases hs
  rfl

theorem run_mapping (hs : s.tokens = .blockMappingStart :: ts) :
    run (fuel + 1) (.node true dashes, stack) s =
      goOn fuel [] stack { s with tokens := ts, size := s.size + 2 } := by
  cases s
  cases hs
  rfl

/-- A node stands where no token says that there is none. -/
theorem nodeOr_eq {stops : List Token} (hs : s.tokens = t :: ts) (ht : stops.contains t = false) :
    nodeOr stops block dashes stack s = some ((.node block dashes, stack), s) := by
  have hat : isAt stops s = some (false, s) := by
    rw [← ht]
    cases s
    cases hs
    rfl
  rw [nodeOr]
  simp only [bind, StateT.bind, hat]
  rfl

theorem run_value (hs : s.tokens = .value :: t :: ts)
    (ht : [Token.key, .value, .blockEnd].contains t = false) :
    run (fuel + 1) (.done y, .key .block {} es :: stack) s =
      run fuel (.node true true, .value .block {} es y :: stack) { s with tokens := t :: ts } := by
  have hhand : hand y (.key .block {} es :: stack) s =
      nodeOr [.key, .value, .blockEnd] true true (.value .block {} es y :: stack)
        { s with tokens := t :: ts } := by
    cases s
    cases hs
    rfl
  have hrun : run (fuel + 1) (.done y, .key .block {} es :: stack) s =
      (hand y (.key .block {} es :: stack) s).bind fun r => run fuel r.1 r.2 := rfl
  rw [hrun, hhand, nodeOr_eq rfl ht]
  rfl

theorem run_entry {k : Yaml} :
    run (fuel + 1) (.done y, .value .block {} es k :: stack) s =
      goOn fuel ((k, y) :: es) stack s := rfl

/-- The tokens of a block are composed to its entries, whatever comes behind them. -/
theorem goOn_entries (b : Block) (hs : s.tokens = b.tokens ++ ts) :
    goOn (fuel + b.steps) es stack s =
      goOn fuel (b.entries.reverse ++ es) stack
        { s with tokens := ts, size := s.size + b.size } := by
  induction b generalizing fuel es stack s ts with
  | nil =>
      cases s
      cases hs
      rfl
  | text key value rest ih =>
      have hentries : (text key value rest).entries.reverse ++ es =
          rest.entries.reverse ++ (plain key, plain value) :: es := by simp [entries]
      rw [steps, ← Nat.add_assoc, goOn_key hs, run_scalar rfl, run_value rfl rfl, run_scalar rfl,
        run_entry, ih rfl, hentries]
      simp only [size, Nat.add_assoc, Nat.reduceAdd]
  | nest key inner rest ihinner ihrest =>
      have hentries : (nest key inner rest).entries.reverse ++ es =
          rest.entries.reverse ++ (plain key, .mapping none inner.entries) :: es := by
        simp [entries]
      have hinner : (inner.entries.reverse ++ []).reverse = inner.entries := by simp
      have hfuel : fuel + (rest.steps + 1 + inner.steps + 3) =
          fuel + rest.steps + 1 + inner.steps + 3 := by omega
      have hsize : s.size + 1 + 2 + inner.size + rest.size =
          s.size + (3 + inner.size + rest.size) := by omega
      rw [tokens, List.append_assoc, List.append_assoc, List.append_assoc] at hs
      rw [steps, hfuel, goOn_key hs, run_scalar rfl, run_value rfl rfl, run_mapping rfl,
        ihinner rfl, goOn_end rfl, run_entry, ihrest rfl, hentries, hinner]
      simp only [size, hsize]

/-- A block is not preceded by anything. -/
theorem root_mapping (hs : s.tokens = .blockMappingStart :: ts) :
    root (fuel + 1) s = goOn fuel [] [] { s with tokens := ts, size := s.size + 2 } := by
  have hrun : run (fuel + 1) (.node true false, []) s =
      goOn fuel [] [] { s with tokens := ts, size := s.size + 2 } := run_mapping hs
  rw [← hrun]
  cases s
  cases hs
  rfl

theorem document_eq {n : Nat} {s' : Source} (hfuel : 8 * s.tokens.length + 8 = n + 1)
    (hroot : root (n + 1) s = some (y, s')) (hs' : s'.tokens = [.streamEnd]) :
    document s = some (y, { s' with tokens := [] }) := by
  have hdocument : document s = (root (8 * s.tokens.length + 8) s).bind fun r =>
      (do
        skipEnds (8 * s.tokens.length + 8)
        expect .streamEnd
        return r.1 : Compose Yaml) r.2 := rfl
  rw [hdocument, hfuel, hroot]
  cases s'
  cases hs'
  rfl

/-- A block takes fewer steps than it has tokens. -/
theorem document_stream (b : Block) :
    document { tokens := b.stream } =
      some (.mapping none b.entries, { tokens := [], size := 2 + b.size }) := by
  have hsteps := b.steps_le
  obtain ⟨extra, hfuel⟩ : ∃ n, 8 * b.stream.length + 8 = n + 1 + b.steps + 1 := by
    refine ⟨8 * b.stream.length + 6 - b.steps, ?_⟩
    simp only [stream, List.length_append, List.length_cons, List.length_nil]
    omega
  have hroot : root (extra + 1 + b.steps + 1) { tokens := b.stream } =
      some (.mapping none b.entries, { tokens := [.streamEnd], size := 2 + b.size }) := by
    rw [root_mapping rfl, goOn_entries b rfl, goOn_end rfl, List.append_nil, List.reverse_reverse]
    simp only [Nat.zero_add]
    rfl
  exact document_eq hfuel hroot rfl

end Compose

/-- The text of a block is read back. -/
theorem parse?_text {b : Block} (hb : b.IsPlain) (hne : b ≠ nil) :
    parse? (Yaml.mapping none b.entries).text =
      some { root := .mapping none b.entries, size := 2 + b.size } := by
  have hempty : b.stream ≠ [.streamEnd] := fun h => nomatch h
  rw [parse?, tokens?_text hb hne]
  simp only [Option.bind_eq_bind, Option.bind_some, if_neg hempty, document_stream]
  rfl

end Block

end Yaml

end PointsTo
