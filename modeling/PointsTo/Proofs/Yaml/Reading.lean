import PointsTo.Proofs.Yaml.Core
import PointsTo.Yaml.Reading

/-!
# Reading what was written

Each kind of value is read back from the node that is written for it, without
following an alias. A reader does not depend on the document then, so that these
are equations between readers.
-/

namespace PointsTo

namespace Yaml

variable {α : Type} {f : Yaml → Reading α} {y : Yaml} {a : α} {s name : String} {n limit : Nat}
  {entries : List (String × Yaml)}

@[simp] theorem follow_plain (s : String) : follow (plain s) = pure (plain s) := rfl

@[simp] theorem follow_mapping (tag : Option Tag) (entries : List (Yaml × Yaml)) :
    follow (.mapping tag entries) = pure (.mapping tag entries) := rfl

@[simp] theorem readText_plain (s : String) : readText (plain s) = pure s := rfl

theorem readBool_bool (b : Bool) : readBool (bool b) = pure b := by
  cases b <;> rfl

theorem readNat_nat (hn : n ≤ limit) : readNat limit (nat n) = pure n := by
  have hread : readNat limit (nat n) = (natOfText? limit (toString n) : Option Nat) := rfl
  rw [hread, natOfText?_numeral hn]
  rfl

theorem readNullable_null (f : Yaml → Reading α) : readNullable f null = pure none := rfl

theorem readNullable_some (hy : follow y = pure y) (hpresent : isAbsent? y = some false)
    (hf : f y = pure a) : readNullable f y = pure (some a) := by
  rw [readNullable, hy, pure_bind, hpresent, hf]
  rfl

theorem readNullable_mapping {tag : Option Tag} {entries : List (Yaml × Yaml)}
    (hf : f (.mapping tag entries) = pure a) :
    readNullable f (.mapping tag entries) = pure (some a) := readNullable_some rfl rfl hf

theorem readLoose_plain {l : Loose} (depth : Nat) (hs : looseOfPlain? s = some l) :
    readLoose depth (plain s) = pure l := by
  have hread : readLoose depth (plain s) = (looseOfPlain? s : Option Loose) := by
    cases depth <;> rfl
  rw [hread, hs]
  rfl

theorem readEntries_record (entries : List (String × Yaml)) :
    readEntries (record entries) = pure entries := by
  have hread : readEntries (record entries) =
      (entries.map fun entry => (plain entry.1, entry.2)).mapM
        fun entry => return (← readText entry.1, entry.2) := rfl
  rw [hread]
  clear hread
  induction entries with
  | nil => rfl
  | cons entry entries ih =>
      obtain ⟨name, y⟩ := entry
      rw [List.map_cons, List.mapM_cons, ih]
      simp only [readText_plain, pure_bind]

/-- The value of a name that stands there once. -/
theorem entry?_of_mem (hnames : (entries.map Prod.fst).Nodup) (hmem : (name, y) ∈ entries) :
    entry? entries name = some (some y) := by
  have hfilter : entries.filter (·.1 == name) = [(name, y)] := by
    induction entries with
    | nil => exact nomatch hmem
    | cons entry entries ih =>
        obtain ⟨hfresh, hnames⟩ := List.nodup_cons.1 hnames
        rcases List.mem_cons.1 hmem with rfl | hmem
        · have hothers : entries.filter (·.1 == name) = [] :=
            List.filter_eq_nil_iff.2 fun other hother heq =>
              hfresh (List.mem_map.2 ⟨other, hother, eq_of_beq heq⟩)
          simp [hothers]
        · have hne : entry.1 ≠ name := fun heq => hfresh (List.mem_map.2 ⟨_, hmem, heq.symm⟩)
          simp [hne, ih hnames hmem]
  unfold entry?
  rw [hfilter]

theorem readOptional_of_mem {v : Option α} (hnames : (entries.map Prod.fst).Nodup)
    (hmem : (name, y) ∈ entries) (hread : readNullable f y = pure v) :
    readOptional f entries name = pure v := by
  rw [readOptional, entry?_of_mem hnames hmem]
  exact hread

theorem readRequired_of_mem (hnames : (entries.map Prod.fst).Nodup)
    (hmem : (name, y) ∈ entries) (hread : f y = pure a) :
    readRequired f entries name = pure a := by
  rw [readRequired, entry?_of_mem hnames hmem]
  exact hread

end Yaml

end PointsTo
