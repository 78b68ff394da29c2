import PointsTo.Dump
import PointsTo.Proofs.Graph
import PointsTo.Proofs.NodeTable
import PointsTo.Proofs.Yaml.Core

/-!
# Plain listings lose nothing

A plain listing has a row of numbers on every line. No numeral holds a blank, so a
line falls apart at its blanks into the numerals that it was put together from, and
no line holds a line break, so a listing falls apart at its line breaks into its
lines. `readRows` takes a listing apart in this way and finds the rows again that
were written, provided that none of them is empty: an empty row leaves an empty line,
which reads as a zero.

The rows of a list of constraints have four numbers each and tell the constraints.
The rows of a graph begin with a node and go on with what it points to; a node without
a row points to nothing, so with the number of nodes the rows tell every set.
-/

namespace PointsTo

namespace Dump

/-! ## Reading a listing -/

section Reading

variable {ns : List Nat} {ls : List String} {rows : List (List Nat)}

/-- The numbers of a line, with blanks between them. -/
def readNumbers (line : List Char) : List Nat :=
  (line.splitOn ' ').map fun digits => Nat.ofDigitChars 10 digits 0

/-- The rows of numbers of a listing. What is behind the last line break is no line. -/
def readRows (text : String) : List (List Nat) :=
  (text.toList.splitOn '\n').dropLast.map readNumbers

theorem notMem_toDigits {n : Nat} {c : Char} (hc : c.isDigit = false) :
    c ∉ Nat.toDigits 10 n := by
  intro hmem
  rw [Yaml.isDigit_toDigits c hmem] at hc
  cases hc

theorem toList_numbers (ns : List Nat) :
    (numbers ns).toList = [' '].intercalate (ns.map (Nat.toDigits 10)) := by
  rw [numbers, String.toList_intercalate, List.map_map]
  exact congrArg _ (List.map_congr_left fun n _ => Yaml.toList_numeral n)

theorem readNumbers_numbers (hns : ns ≠ []) : readNumbers (numbers ns).toList = ns := by
  have hblank : ∀ digits ∈ ns.map (Nat.toDigits 10), ' ' ∉ digits := by
    intro digits hdigits
    obtain ⟨n, _, rfl⟩ := List.mem_map.1 hdigits
    exact notMem_toDigits (by decide)
  rw [readNumbers, toList_numbers, List.splitOn_intercalate _ hblank (by simpa using hns),
    List.map_map]
  exact (List.map_congr_left fun n _ => Nat.ofDigitChars_ten_toDigits).trans (List.map_id ns)

theorem mem_intercalate {c : Char} {sep : List Char} {parts : List (List Char)}
    (hc : c ∈ sep.intercalate parts) : c ∈ sep ∨ ∃ part ∈ parts, c ∈ part := by
  induction parts with
  | nil => cases hc
  | cons part parts ih =>
      cases parts with
      | nil =>
          rw [List.intercalate_singleton] at hc
          exact .inr ⟨part, List.mem_singleton_self part, hc⟩
      | cons next rest =>
          rw [List.intercalate_cons_cons, List.append_assoc, List.mem_append,
            List.mem_append] at hc
          rcases hc with hc | hc | hc
          · exact .inr ⟨part, List.mem_cons_self, hc⟩
          · exact .inl hc
          · exact (ih hc).imp_right fun ⟨later, hlater, hc⟩ =>
              ⟨later, List.mem_cons_of_mem part hlater, hc⟩

theorem newline_notMem_numbers (ns : List Nat) : '\n' ∉ (numbers ns).toList := by
  rw [toList_numbers]
  intro hmem
  rcases mem_intercalate hmem with hmem | ⟨digits, hdigits, hmem⟩
  · exact absurd hmem (by decide)
  · obtain ⟨n, _, rfl⟩ := List.mem_map.1 hdigits
    exact notMem_toDigits (by decide) hmem

theorem toList_lines_cons (l : String) (ls : List String) :
    (lines (l :: ls)).toList = l.toList ++ '\n' :: (lines ls).toList := by
  rw [lines, lines, List.map_cons, String.toList_join, String.toList_join, List.flatMap_cons,
    String.toList_append, List.append_assoc]
  rfl

/-- A listing falls apart into its lines, with nothing behind the last one. -/
theorem splitOn_lines (hls : ∀ l ∈ ls, '\n' ∉ l.toList) :
    (lines ls).toList.splitOn '\n' = ls.map String.toList ++ [[]] := by
  induction ls with
  | nil => rfl
  | cons l ls ih =>
      obtain ⟨hl, htail⟩ := List.forall_mem_cons.1 hls
      have hne : ∀ c ∈ l.toList, (c == '\n') = false := fun c hc =>
        beq_false_of_ne fun heq => hl (heq ▸ hc)
      rw [toList_lines_cons, List.splitOn, List.splitOnP_append_cons_of_forall_mem hne _ (by rfl)]
      exact congrArg _ (ih htail)

theorem readRows_lines (hrows : ∀ row ∈ rows, row ≠ []) :
    readRows (lines (rows.map numbers)) = rows := by
  have hbreak : ∀ l ∈ rows.map numbers, '\n' ∉ l.toList := by
    intro l hl
    obtain ⟨row, _, rfl⟩ := List.mem_map.1 hl
    exact newline_notMem_numbers row
  rw [readRows, splitOn_lines hbreak, List.dropLast_concat, List.map_map, List.map_map]
  exact (List.map_congr_left fun row hrow => readNumbers_numbers (hrows row hrow)).trans
    (List.map_id rows)

end Reading

/-! ## Constraints -/

section Constraints

variable {cs ds : List Constraint}

/-- The constraint of a row. -/
def constraintOfRow? : List Nat → Option Constraint
  | [code, dest, src, offset] =>
    (ConstraintKind.ofCode? code).map fun kind => { kind, dest, src, offset }
  | _ => none

def readConstraints? (text : String) : Option (List Constraint) :=
  (readRows text).mapM constraintOfRow?

theorem constraintOfRow?_key (c : Constraint) : constraintOfRow? c.key = some c := by
  rw [Constraint.key, constraintOfRow?, ConstraintKind.ofCode?_code]
  rfl

theorem readRows_constraintsPlain (cs : List Constraint) :
    readRows (constraintsPlain cs) = cs.map Constraint.key := by
  have hrows : ∀ row ∈ cs.map Constraint.key, row ≠ [] := by
    intro row hrow
    obtain ⟨c, _, rfl⟩ := List.mem_map.1 hrow
    exact List.cons_ne_nil _ _
  have hread := readRows_lines hrows
  rwa [List.map_map] at hread

/-- A plain listing of constraints is read back as the constraints. -/
theorem readConstraints?_constraintsPlain (cs : List Constraint) :
    readConstraints? (constraintsPlain cs) = some cs := by
  rw [readConstraints?, readRows_constraintsPlain]
  induction cs with
  | nil => rfl
  | cons c cs ih =>
      rw [List.map_cons, List.mapM_cons, constraintOfRow?_key, ih]
      rfl

theorem constraintsPlain_inj (heq : constraintsPlain cs = constraintsPlain ds) : cs = ds := by
  have hread := congrArg readConstraints? heq
  rw [readConstraints?_constraintsPlain, readConstraints?_constraintsPlain] at hread
  exact Option.some.inj hread

end Constraints

/-! ## Graphs -/

section Graphs

variable {g h : Graph} {n : Nat} {os : List Nat}

/-- The rows of a graph: every node that points to something, with what it points to. -/
def rowsOf (g : Graph) : List (List Nat) := g.entries.map fun (n, s) => n :: s.elements

theorem readRows_pointsToPlain (g : Graph) : readRows (pointsToPlain g) = rowsOf g := by
  have hrows : ∀ row ∈ rowsOf g, row ≠ [] := by
    intro row hrow
    obtain ⟨entry, _, rfl⟩ := List.mem_map.1 hrow
    exact List.cons_ne_nil _ _
  have hread := readRows_lines hrows
  rwa [rowsOf, List.map_map] at hread

theorem cons_mem_rowsOf :
    n :: os ∈ rowsOf g ↔ n < g.numNodes ∧ os = (g.pointsTo n).elements ∧ os ≠ [] := by
  rw [rowsOf, List.mem_map]
  constructor
  · rintro ⟨⟨m, s⟩, hentry, heq⟩
    obtain ⟨rfl, rfl⟩ := List.cons.inj heq
    obtain ⟨hlt, rfl, o, ho⟩ := Graph.mem_entries_iff.1 hentry
    exact ⟨hlt, rfl, List.ne_nil_of_mem ho⟩
  · rintro ⟨hlt, rfl, hne⟩
    exact ⟨(n, g.pointsTo n),
      Graph.mem_entries_iff.2 ⟨hlt, rfl, List.exists_mem_of_ne_nil _ hne⟩, rfl⟩

/-- A set that has something in it stands in a row, and so stands in every graph with
the same rows. -/
theorem elements_eq_of_rowsOf_eq (heq : rowsOf g = rowsOf h) (hn : n < g.numNodes)
    (hne : (g.pointsTo n).elements ≠ []) :
    (g.pointsTo n).elements = (h.pointsTo n).elements := by
  have hmem : n :: (g.pointsTo n).elements ∈ rowsOf h := heq ▸ cons_mem_rowsOf.2 ⟨hn, rfl, hne⟩
  exact (cons_mem_rowsOf.1 hmem).2.1

theorem entries_eq_of_elements_eq (hnodes : g.numNodes = h.numNodes)
    (hsets : ∀ n < g.numNodes, (g.pointsTo n).elements = (h.pointsTo n).elements) :
    g.entries = h.entries := by
  have hset : ∀ n < g.numNodes, g.pointsTo n = h.pointsTo n := by
    intro n hn
    have helements := hsets n hn
    cases hg : g.pointsTo n
    cases hh : h.pointsTo n
    rw [hg, hh] at helements
    exact congrArg NodeSet.mk helements
  rw [Graph.entries, Graph.entries, ← hnodes]
  refine congrArg _ (List.map_congr_left fun n hn => ?_)
  rw [hset n (List.mem_range.1 hn)]

theorem pointsToPlain_eq_iff (hnodes : g.numNodes = h.numNodes) :
    pointsToPlain g = pointsToPlain h ↔
      ∀ n < g.numNodes, (g.pointsTo n).elements = (h.pointsTo n).elements := by
  constructor
  · intro heq n hn
    have hrows : rowsOf g = rowsOf h := by
      rw [← readRows_pointsToPlain, heq, readRows_pointsToPlain]
    -- A node has no row in either graph only if its set is empty in both.
    by_cases hg : (g.pointsTo n).elements = []
    · by_cases hh : (h.pointsTo n).elements = []
      · rw [hg, hh]
      · exact (elements_eq_of_rowsOf_eq hrows.symm (hnodes ▸ hn) hh).symm
    · exact elements_eq_of_rowsOf_eq hrows hn hg
  · intro hsets
    rw [pointsToPlain, pointsToPlain, entries_eq_of_elements_eq hnodes hsets]

end Graphs

/-- Two plain listings of constraints are the same only for the same constraints in the
same order, and two plain listings of graphs with as many nodes are the same exactly if
every node points to the same elements in both. -/
theorem plain_lossless :
    (∀ cs ds : List Constraint, constraintsPlain cs = constraintsPlain ds → cs = ds) ∧
      ∀ g h : Graph, g.numNodes = h.numNodes →
        (pointsToPlain g = pointsToPlain h ↔
          ∀ n < g.numNodes, (g.pointsTo n).elements = (h.pointsTo n).elements) :=
  ⟨fun _ _ => constraintsPlain_inj, fun _ _ => pointsToPlain_eq_iff⟩

/-- The table of `NodeTable.sample` with the variables as one class that points to the object,
and with the variables apart, each pointing to it: the same sets and the same listing. Where
digits could belong to the one number or to the next the listings differ. -/
theorem plain_lossless_sample :
    let nodes := NodeTable.sample.nodes
    let joined := Graph.freeze nodes [0, 0, 2, 3] [⟨[2, 3]⟩, ⟨[]⟩, ⟨[]⟩, ⟨[]⟩]
    let apart := Graph.freeze nodes [0, 1, 2, 3] [⟨[2, 3]⟩, ⟨[2, 3]⟩, ⟨[]⟩, ⟨[]⟩]
    let close := Graph.freeze nodes [0, 0, 2, 3] [⟨[23]⟩, ⟨[]⟩, ⟨[]⟩, ⟨[]⟩]
    joined ≠ apart ∧ pointsToPlain joined = pointsToPlain apart ∧
      pointsToPlain joined ≠ pointsToPlain close ∧
      constraintsPlain [.copy 1 12] ≠ constraintsPlain [.copy 11 2] := by
  intro nodes joined apart close
  refine ⟨by decide +kernel, ((plain_lossless.2 joined apart rfl).2 (by decide +kernel)), ?_, ?_⟩
  · intro heq
    exact absurd ((plain_lossless.2 joined close rfl).1 heq 0 (by decide)) (by decide +kernel)
  · intro heq
    exact absurd (plain_lossless.1 _ _ heq) (by decide)

end Dump

end PointsTo
